import YHAudioLink.Enc28j60.ReceiveRing

/-!
# Frames are received in order

`ENC28J60_Packet_Receive` follows the records of the receive ring with three pointers that have to
agree: its own `NextPacketPtr`, and `ERDPT` and `ERXRDPT` in the controller, each written a byte at
a time through the selected bank. The machine here is the product of the bank (`BankState`), the
driver's variable and the receiver, so that what is known of the bank carries over (`wp_comap`).

The law is a simulation. Between calls a queue of frames is kept, those in the ring (`Idle`); an
arrival appends to it, and a call either leaves it or takes its first frame and returns what that
carries. Inside a call only the first frame matters: `Cursor` says how far the call has read into
its record, and no arrival changes that.
-/

namespace YHAudioLink

open Programs Ring

/-! ### The machine -/

/-- The register bank, `NextPacketPtr`, and the receiver. -/
structure RxState where
  bank : BankState
  next : UInt32
  rx : Receiver

/-- The register an address reaches: below `0x1B` the selected bank decides. -/
def BankState.reg (s : BankState) (addr : UInt8) : UInt8 :=
  if addr &&& addrMask < 0x1B then addr &&& addrMask ||| s.bsel <<< 5 else addr &&& addrMask

/-- The lock is granted: the pend has no timeout. -/
def granted : Event DrvOp DrvOp.Ans → Prop
  | ⟨.pend, err⟩ => err = osErrNone
  | _ => True

/-- `NextPacketPtr` is a variable. -/
def nextStep : UInt32 → Event DrvOp DrvOp.Ans → UInt32 → Prop
  | p, ⟨.getNext, q⟩, p' => q = p ∧ p' = p
  | _, ⟨.setNext q, _⟩, p' => p' = q
  | p, _, p' => p' = p

/-- One operation of the driver, after any number of arrivals. -/
def rxStep (s : RxState) (e : Event DrvOp DrvOp.Ans) (t : RxState) : Prop :=
  granted e ∧ BankState.step s.bank e t.bank ∧ nextStep s.next e t.next ∧
    ∃ c, Receiver.Arrivals s.rx c ∧ Receiver.step s.bank.reg c e t.rx

/-- The controller is not reset. -/
def NoReset (e : Event DrvOp DrvOp.Ans) : Prop := e.1 ≠ .reset

instance : DecidablePred NoReset := fun e ↦ inferInstanceAs (Decidable (e.1 ≠ _))

/-- The machine on which the controller is never reset. -/
abbrev runStep (s : RxState) (e : Event DrvOp DrvOp.Ans) (t : RxState) : Prop :=
  NoReset e ∧ rxStep s e t

/-- The selected bank is the one a register's constant names. -/
theorem BankState.reg_of_bsel {s : BankState} {addr : UInt8}
    (h : s.bsel = (addr &&& bankMask) >>> 5) (haddr : addr &&& addrMask < 0x1B) :
    s.reg addr = addr &&& 0x7F := by
  rw [reg, if_pos haddr, h]
  clear h haddr
  rw [← UInt8.toBitVec_inj]
  apply BitVec.eq_of_getLsbD_eq
  intro i hi
  interval_cases i <;> simp [addrMask, bankMask]

/-! ### Rules -/

section

/-- A property of the receiver that no arrival changes. -/
def Stable (P : Receiver → Prop) : Prop := ∀ c d, P c → c.Arrives d → P d

variable {P : Receiver → Prop} {s : RxState}

theorem Stable.arrivals (hP : Stable P) {c d : Receiver} (h : P c) (hcd : Receiver.Arrivals c d) :
    P d := by
  induction hcd with
  | refl => exact h
  | tail _ hlast ih => exact hP _ _ ih hlast

/-- **One operation**: the rule all others are instances of. -/
theorem wp_op (hP : Stable P) (hs : P s.rx) {o : DrvOp} {Q : DrvOp.Ans o → RxState → Prop}
    (h : ∀ r t c, NoReset ⟨o, r⟩ → granted ⟨o, r⟩ → BankState.step s.bank ⟨o, r⟩ t.bank →
      nextStep s.next ⟨o, r⟩ t.next → P c → Receiver.step s.bank.reg c ⟨o, r⟩ t.rx → Q r t) :
    wp runStep anyOp (drv o) Q s := by
  rw [wp_drv]
  refine ⟨trivial, fun r t hst ↦ ?_⟩
  obtain ⟨hreset, hgrant, hbank, hnext, c, harrive, hrx⟩ := hst
  exact h r t c hreset hgrant hbank hnext (hP.arrivals hs harrive) hrx

/-- `NextPacketPtr` is read. -/
theorem wp_rx_getNext (hP : Stable P) (hs : P s.rx) :
    wp runStep anyOp (drv .getNext)
      (fun cur t ↦ cur = s.next ∧ t.bank = s.bank ∧ t.next = s.next ∧ P t.rx) s :=
  wp_op hP hs fun _ _ _ _ _ hbank hnext hc hrx ↦ ⟨hnext.1, hbank, hnext.2, hrx ▸ hc⟩

/-- `NextPacketPtr` is assigned. -/
theorem wp_rx_setNext (hP : Stable P) (hs : P s.rx) {ptr : UInt32} :
    wp runStep anyOp (drv (.setNext ptr))
      (fun _ t ↦ t.bank = s.bank ∧ t.next = ptr ∧ P t.rx) s :=
  wp_op hP hs fun _ _ _ _ _ hbank hnext hc hrx ↦ ⟨hbank, hnext, hrx ▸ hc⟩

/-- `LastPacketPtr` is nothing reception depends on. -/
theorem wp_rx_setLast (hP : Stable P) (hs : P s.rx) {ptr : UInt32} :
    wp runStep anyOp (drv (.setLast ptr))
      (fun _ t ↦ t.bank = s.bank ∧ t.next = s.next ∧ P t.rx) s :=
  wp_op hP hs fun _ _ _ _ _ hbank hnext hc hrx ↦ ⟨hbank, hnext, hrx ▸ hc⟩

/-- The lock is granted. -/
theorem wp_rx_pend (hP : Stable P) (hs : P s.rx) :
    wp runStep anyOp pendLock
      (fun err t ↦ err = osErrNone ∧ t.bank = s.bank ∧ t.next = s.next ∧ P t.rx) s :=
  wp_op hP hs fun _ _ _ _ hgrant hbank hnext hc hrx ↦ ⟨hgrant, hbank, hnext, hrx ▸ hc⟩

theorem wp_rx_post (hP : Stable P) (hs : P s.rx) :
    wp runStep anyOp postLock
      (fun _ t ↦ t.bank = s.bank ∧ t.next = s.next ∧ P t.rx) s :=
  wp_op hP hs fun _ _ _ _ _ hbank hnext hc hrx ↦ ⟨hbank, hnext, hrx ▸ hc⟩

/-- A reset does not happen. -/
theorem wp_rx_reset {Q : Unit → RxState → Prop} : wp runStep anyOp (drv .reset) Q s :=
  ⟨trivial, fun _ _ hst ↦ absurd rfl hst.1⟩

/-- The operations that select a bank. -/
def BankOp : DrvOp → Prop
  | .getBank | .setBank _ => True
  | .writeOp op addr _ => (op = .bitFieldSet ∨ op = .bitFieldClr) ∧ addr = Reg.econ1
  | _ => False

theorem bankOp_setBank (addr : UInt8) : Only BankOp (enc28j60SetBank addr) := by
  refine .bind (Only.perform trivial) fun cur ↦ .ite ?_ (.pure ())
  refine .bind (Only.perform ⟨.inr rfl, rfl⟩) fun _ ↦ ?_
  exact .bind (Only.perform ⟨.inl rfl, rfl⟩) fun _ ↦ Only.perform trivial

theorem reg_econ1 (b : BankState) : b.reg Reg.econ1 = Reg.econ1 := rfl

/-- **Selecting a bank** leaves the driver's variable and the receiver. -/
theorem wp_rx_setBank (hP : Stable P) (hs : P s.rx) {addr : UInt8} {R : BankState → Prop}
    (hbank : wpBank (enc28j60SetBank addr) (fun _ b ↦ R b) s.bank) :
    wp runStep anyOp (enc28j60SetBank addr)
      (fun _ t ↦ R t.bank ∧ t.next = s.next ∧ P t.rx) s := by
  have hat : wp runStep anyOp (enc28j60SetBank addr) (fun _ t ↦ R t.bank) s :=
    wp_comap (fun _ _ _ hst ↦ hst.2.2.1) (fun _ _ _ ↦ trivial) hbank
  have hkeeps : Keeps runStep anyOp (fun t ↦ t.next = s.next ∧ P t.rx) (enc28j60SetBank addr) := by
    refine (bankOp_setBank addr).keeps (fun _ _ _ _ ↦ trivial) fun o t r u ho ht hst ↦ ?_
    obtain ⟨-, -, -, hnext, c, harrive, hrx⟩ := hst
    have hc : P c := hP.arrivals ht.2 harrive
    cases o with
    | getBank => exact ⟨hnext.trans ht.1, (show u.rx = c from hrx) ▸ hc⟩
    | setBank bank => exact ⟨hnext.trans ht.1, (show u.rx = c from hrx) ▸ hc⟩
    | writeOp op reg data =>
      obtain ⟨hop, rfl⟩ := ho
      rcases hop with rfl | rfl
      · have hne : ¬ (Reg.econ1 = Reg.econ2 ∧ data = 0x40) := fun h ↦ absurd h.1 (by decide)
        have hrx' : u.rx = c := by
          simpa [Receiver.step, Receiver.setsBits, reg_econ1, hne] using hrx
        exact ⟨hnext.trans ht.1, hrx' ▸ hc⟩
      · exact ⟨hnext.trans ht.1, hrx (reg_econ1 _) ▸ hc⟩
    | _ => exact absurd ho (by simp [BankOp])
  exact wp_and hat (hkeeps s ⟨rfl, hs⟩)

/-- **A control register is read**, where its bank is selected; `EPKTCNT` is the counter. -/
theorem wp_rx_read (hP : Stable P) (hs : P s.rx) {addr : UInt8}
    (hbank : wpBank (enc28j60SetBank addr) (fun _ b ↦ b.At addr) s.bank) :
    wp runStep anyOp (enc28j60Read addr)
      (fun v t ↦ t.bank.Coherent ∧ t.next = s.next ∧ P t.rx ∧
        (addr = Reg.epktcnt → v = UInt8.ofNat t.rx.epktcnt)) s := by
  rw [enc28j60Read, wp_bind]
  refine wp_mono (wp_rx_setBank hP hs hbank) ?_
  rintro _ t ⟨hat, hnext, ht⟩
  refine wp_op hP ht fun v u c _ _ hub hun hc hrx ↦ ?_
  obtain ⟨hv, hu⟩ := hrx
  rw [show u.bank = t.bank from hub, show u.next = t.next from hun, hu]
  refine ⟨hat.coherent, hnext, hc, ?_⟩
  rintro rfl
  exact hv (BankState.reg_of_bsel hat.2 (by decide))

/-- **A register is read from any state**: reception has no part in it, and the copy names its
bank. -/
theorem wp_rx_readAny (hP : Stable P) (hs : P s.rx) (addr : UInt8) :
    wp runStep anyOp (enc28j60Read addr)
      (fun _ t ↦ t.bank.bank = addr &&& bankMask ∧ t.next = s.next ∧ P t.rx) s := by
  rw [enc28j60Read, wp_bind]
  refine wp_mono (wp_rx_setBank hP hs (wp_setBank_bank addr s.bank)) ?_
  rintro _ t ⟨hbank, hnext, ht⟩
  refine wp_op hP ht fun v u c _ _ hub hun hc hrx ↦ ?_
  obtain ⟨-, hu⟩ := hrx
  rw [show u.bank = t.bank from hub, show u.next = t.next from hun, hu]
  exact ⟨hbank, hnext, hc⟩

/-- **A control register is written.** -/
theorem wp_rx_write (hP : Stable P) (hs : P s.rx) (hbank : s.bank.Coherent) {addr data : UInt8}
    (haddr : addr &&& addrMask < 0x1B) :
    wp runStep anyOp (enc28j60Write addr data)
      (fun _ t ↦ t.bank.Coherent ∧ t.next = s.next ∧
        ∃ c, P c ∧ c.writes (addr &&& 0x7F) data t.rx) s := by
  rw [enc28j60Write, wp_bind]
  refine wp_mono (wp_rx_setBank hP hs (wp_setBank (.inl hbank))) ?_
  rintro _ t ⟨hat, hnext, ht⟩
  refine wp_op hP ht fun v u c _ _ hub hun hc hrx ↦ ?_
  have hne : addr &&& addrMask ≠ Reg.econ1 := fun h ↦ by
    rw [h] at haddr
    exact absurd haddr (by decide)
  have hbank' : u.bank = t.bank := by
    rw [show u.bank = _ from hub, BankState.writeEcon1, if_neg hne]
  rw [hbank', show u.next = t.next from hun]
  refine ⟨hat.coherent, hnext, c, hc, ?_⟩
  rwa [← BankState.reg_of_bsel hat.2 haddr]

end

/-! ### Reading a record -/

/-- A pointer in the controller is put together from the bytes written to it. -/
theorem toNat_bytes {ptr : UInt32} (h : ptr.toNat < 65536) :
    (lowByte ptr).toNat + 256 * (highByte ptr).toNat = ptr.toNat := by
  rw [← toNat_word, word_bytes h]

theorem cell_lt (x : ℕ) : cell x < 65536 := by
  have h : cell x < ringBase + ringSize := slot_lt (by decide)
  have hend : ringBase + ringSize = 8177 := rfl
  omega

/-- Every cell is an address of the ring. -/
theorem inRing_cell (x : ℕ) : inRing (.ofNat (cell x)) := by
  have hcell : (UInt32.ofNat (cell x)).toNat = cell x :=
    UInt32.toNat_ofNat_of_lt' ((cell_lt x).trans (by decide))
  have hle : ringBase ≤ cell x := le_slot
  have hlt : cell x < ringBase + ringSize := slot_lt (by decide)
  obtain ⟨hstart, hstop⟩ := ring_bounds
  constructor
  · rw [UInt32.le_iff_toNat_le, hcell]
    omega
  · rw [UInt32.le_iff_toNat_le, hcell]
    omega

theorem toNat_ofNat_cell (x : ℕ) : (UInt32.ofNat (cell x)).toNat = cell x :=
  UInt32.toNat_ofNat_of_lt' ((cell_lt x).trans (by decide))

/-- The frames `front` are the first of those in the ring. -/
def Lies (done front : List RxFrame) (held read : ℕ) (c : Receiver) : Prop :=
  ∃ more, Stored done (front ++ more) held read c

/-- The call has read `i` bytes of the record of `f`, which is the first in the ring. -/
structure Cursor (done : List RxFrame) (f : RxFrame) (read i : ℕ) (c : Receiver) : Prop where
  erdpt : c.erdpt = cell (read + i)
  lies : Lies done [f] 0 read c

section

variable {done front : List RxFrame} {f : RxFrame} {held read i : ℕ} {s : RxState}

theorem stable_lies : Stable (Lies done front held read) := by
  rintro c d ⟨more, h⟩ ⟨f, hfits, rfl⟩
  exact ⟨more ++ [f], by simpa using h.arrives hfits⟩

theorem stable_erdpt {p : ℕ → Prop} : Stable fun c ↦ p c.erdpt := by
  rintro c d h ⟨f, -, rfl⟩
  exact h

theorem stable_erxrdptl {v : UInt8} : Stable fun c ↦ c.erxrdptl = v := by
  rintro c d h ⟨f, -, rfl⟩
  exact h

theorem Stable.and {P R : Receiver → Prop} (hP : Stable P) (hR : Stable R) :
    Stable fun c ↦ P c ∧ R c :=
  fun c d h hcd ↦ ⟨hP c d h.1 hcd, hR c d h.2 hcd⟩

theorem stable_cursor : Stable (Cursor done f read i) :=
  fun c d h hcd ↦ ⟨stable_erdpt (p := fun e ↦ e = cell (read + i)) c d h.erdpt hcd,
    stable_lies c d h.lies hcd⟩

theorem Lies.withErdpt {c : Receiver} (h : Lies done front held read c) (e : ℕ) :
    Lies done front held read { c with erdpt := e } := by
  obtain ⟨more, h⟩ := h
  exact ⟨more, h.erxrdpt, h.erxwrpt, h.fits, h.chain, h.accepted, h.epktcnt⟩

theorem Lies.withErxrdptl {c : Receiver} (h : Lies done front held read c) (v : UInt8) :
    Lies done front held read { c with erxrdptl := v } := by
  obtain ⟨more, h⟩ := h
  exact ⟨more, h.erxrdpt, h.erxwrpt, h.fits, h.chain, h.accepted, h.epktcnt⟩

/-- The first record fits into the ring. -/
theorem Lies.span_lt {c : Receiver} (h : Lies done [f] held read c) : f.span < ringSize := by
  obtain ⟨more, h⟩ := h
  have hfits := h.fits
  have hle : read + f.span ≤ chainEnd RxFrame.recordAt (read + f.span) more := le_chainEnd
  rw [List.singleton_append, chainEnd, f.length_recordAt] at hfits
  omega

/-- **The byte at the cursor** is the record's. -/
theorem Cursor.byte {c : Receiver} (h : Cursor done f read i c) (hi : i < f.span) :
    c.mem c.erdpt = (f.recordAt read).get ⟨i, by rwa [f.length_recordAt]⟩ := by
  obtain ⟨more, hstored⟩ := h.lies
  rw [h.erdpt]
  exact hstored.chain.getElem_head (by rwa [f.length_recordAt])

theorem Cursor.readNext {c : Receiver} (h : Cursor done f read i c) :
    Cursor done f read (i + 1) c.readNext := by
  refine ⟨?_, h.lies.withErdpt _⟩
  rw [Receiver.readNext, h.erdpt, advance_slot, Nat.add_assoc]

/-- **A burst at the cursor** is a piece of the record. -/
theorem Cursor.burst {c d : Receiver} {bytes : List UInt8} (hread : c.ReadsBuf bytes d)
    (h : Cursor done f read i c) (hi : i + bytes.length ≤ f.span) :
    bytes = ((f.recordAt read).drop i).take bytes.length ∧
      Cursor done f read (i + bytes.length) d := by
  induction hread generalizing i with
  | done c => exact ⟨rfl, h⟩
  | @byte c d e bytes harrive _ ih =>
    rw [List.length_cons] at hi
    have hd : Cursor done f read i d := stable_cursor.arrivals h harrive
    obtain ⟨hbytes, hend⟩ := ih hd.readNext (by omega)
    have hlen : i < (f.recordAt read).length := by
      rw [f.length_recordAt]
      omega
    refine ⟨?_, ?_⟩
    · rw [List.length_cons, List.drop_eq_getElem_cons hlen, List.take_succ_cons, ← hbytes,
        hd.byte (by omega), List.get_eq_getElem]
    · rwa [List.length_cons, Nat.add_comm bytes.length, ← Nat.add_assoc]

/-- `ENC28J60_Read_Op` on the buffer memory. -/
theorem wp_rx_byte (h : Cursor done f read i s.rx) (hi : i < f.span) :
    wp runStep anyOp (enc28j60ReadOp .readBufMem 0)
      (fun v t ↦ t.bank = s.bank ∧ t.next = s.next ∧
        v = (f.recordAt read).get ⟨i, by rwa [f.length_recordAt]⟩ ∧
        Cursor done f read (i + 1) t.rx) s := by
  refine wp_op stable_cursor h fun v t c _ _ hbank hnext hc hrx ↦ ?_
  obtain ⟨hv, ht⟩ := hrx
  rw [show t.bank = s.bank from hbank, hv, hc.byte hi, ht]
  exact ⟨rfl, hnext, rfl, hc.readNext⟩

/-- `ENC28J60_Read_Buf`. -/
theorem wp_rx_readBuf {len : UInt32} (h : Cursor done f read i s.rx)
    (hi : i + len.toNat ≤ f.span) :
    wp runStep anyOp (drv (.readBuf len))
      (fun bytes t ↦ t.bank = s.bank ∧ t.next = s.next ∧
        bytes.1 = ((f.recordAt read).drop i).take len.toNat ∧ Lies done [f] 0 read t.rx) s := by
  refine wp_op stable_cursor h fun bytes t c _ _ hbank hnext hc hrx ↦ ?_
  obtain ⟨bytes, hlen⟩ := bytes
  rw [← hlen] at hi
  obtain ⟨hbytes, hend⟩ := Cursor.burst (show c.ReadsBuf bytes t.rx from hrx) hc hi
  rw [hlen] at hbytes
  exact ⟨hbank, hnext, hbytes, hend.lies⟩

end

/-! ### The pointers -/

section

variable {done front : List RxFrame} {f : RxFrame} {held read : ℕ} {s : RxState}

/-- **`ERDPT` is pointed** at the first record. -/
theorem wp_setErdpt {ptr : UInt32} (hbank : s.bank.Coherent) (h : Lies done [f] 0 read s.rx)
    (hptr : ptr.toNat = cell read) :
    wp runStep anyOp (do
        enc28j60Write Reg.erdptl (lowByte ptr)
        enc28j60Write Reg.erdpth (highByte ptr))
      (fun _ t ↦ t.bank.Coherent ∧ t.next = s.next ∧ Cursor done f read 0 t.rx) s := by
  rw [wp_bind]
  refine wp_mono (wp_rx_write stable_lies h hbank (by decide)) fun _ t ht ↦ ?_
  obtain ⟨htbank, htnext, c, hc, hwrite⟩ := ht
  rw [Receiver.writes, if_pos (by decide)] at hwrite
  have hlow : t.rx.erdpt % 256 = (lowByte ptr).toNat := by
    have hbyte := (lowByte ptr).toNat_lt
    rw [hwrite]
    show (c.erdpt / 256 * 256 + (lowByte ptr).toNat) % 256 = _
    omega
  have hlies : Lies done [f] 0 read t.rx := hwrite ▸ hc.withErdpt _
  refine wp_mono (wp_rx_write (stable_lies.and
    (stable_erdpt (p := fun e ↦ e % 256 = (lowByte ptr).toNat))) ⟨hlies, hlow⟩ htbank (by decide))
    fun _ u hu ↦ ?_
  obtain ⟨hubank, hunext, d, ⟨hd, hdlow⟩, hwrite'⟩ := hu
  rw [Receiver.writes, if_neg (by decide), if_pos (by decide)] at hwrite'
  refine ⟨hubank, hunext.trans htnext, ?_, hwrite' ▸ hd.withErdpt _⟩
  have hlt := cell_lt read
  rw [hwrite', Nat.add_zero, ← hptr, ← toNat_bytes (by omega), ← hdlow]

/-- **`ERXRDPT` is moved** behind the first record, and the packet is counted off. -/
theorem wp_release {next : UInt32} (hbank : s.bank.Coherent) (h : Lies done [f] 0 read s.rx)
    (hptr : next.toNat = cell (read + f.span)) :
    wp runStep anyOp (do
        enc28j60Write Reg.erxrdptl (lowByte next)
        enc28j60Write Reg.erxrdpth (highByte next)
        enc28j60WriteOp .bitFieldSet Reg.econ2 0x40)
      (fun _ t ↦ t.bank.Coherent ∧ t.next = s.next ∧
        Lies (done ++ [f]) [] 0 (read + f.span) t.rx) s := by
  rw [wp_bind]
  refine wp_mono (wp_rx_write stable_lies h hbank (by decide)) fun _ t ht ↦ ?_
  obtain ⟨htbank, htnext, c, hc, hwrite⟩ := ht
  rw [Receiver.writes, if_neg (by decide), if_neg (by decide), if_pos (by decide)] at hwrite
  have hlatch : t.rx.erxrdptl = lowByte next := by rw [hwrite]
  have hlies : Lies done [f] 0 read t.rx := hwrite ▸ hc.withErxrdptl _
  rw [wp_bind]
  refine wp_mono (wp_rx_write (stable_lies.and stable_erxrdptl) ⟨hlies, hlatch⟩ htbank (by decide))
    fun _ u hu ↦ ?_
  obtain ⟨hubank, hunext, d, ⟨⟨more, hd⟩, hdlatch⟩, hwrite'⟩ := hu
  have hwhole : d.erxrdptl.toNat + 256 * (highByte next).toNat = cell (read + f.span) := by
    rw [hdlatch, toNat_bytes (by rw [hptr]; exact cell_lt _), hptr]
  rw [Receiver.writes, if_neg (by decide), if_neg (by decide), if_neg (by decide),
    if_pos (by decide), hwhole] at hwrite'
  have hmoved : Lies (done ++ [f]) [] 1 (read + f.span) u.rx := by
    rw [hwrite']
    exact ⟨more, hd.release⟩
  refine wp_op stable_lies hmoved fun _ v e _ _ hvb hvn he hrx ↦ ?_
  have hecon2 : BankState.writeEcon1 u.bank.econ1 .bitFieldSet Reg.econ2 0x40 = u.bank.econ1 := rfl
  rw [show v.bank = _ from hvb, hecon2]
  refine ⟨hubank, (hvn.trans hunext).trans htnext, ?_⟩
  obtain ⟨more', he⟩ := he
  have hdec : v.rx = { e with epktcnt := e.epktcnt - 1 } := by
    have hreg : u.bank.reg Reg.econ2 = Reg.econ2 := rfl
    simpa [Receiver.step, Receiver.setsBits, hreg] using hrx
  rw [hdec]
  exact ⟨more', he.decrement⟩

end

/-! ### The functions -/

/-- What a call returns for a frame: its data without the CRC, cut to `maxlen - 1` bytes, with a
zero behind. -/
def delivered (maxlen : UInt32) (f : RxFrame) : Received :=
  let bytes := f.payload.take (maxlen.toNat - 1)
  ⟨some (.ofNat bytes.length), bytes ++ [0]⟩

/-- Bit 7 of the status is in its first byte. -/
theorem word_and_received (lo hi : UInt8) : word lo hi &&& 0x80 = (lo &&& 0x80).toUInt32 := by
  have hbyte : ∀ i (h : i < 32), 8 ≤ i → (128#32)[i] = false := by decide
  rw [← UInt32.toBitVec_inj]
  ext i hi'
  rcases Nat.lt_or_ge i 8 with hlow | hhigh
  · simp [hlow]
  · simp [hbyte i hi' hhigh, BitVec.getLsbD_of_ge lo.toBitVec i hhigh]

/-- The length that is returned for a frame. -/
theorem delivered_eq {maxlen len : UInt32} {f : RxFrame}
    (hlen : len.toNat = min (f.data.length - 4) (maxlen.toNat - 1)) :
    delivered maxlen f = ⟨some len, f.data.take len.toNat ++ [0]⟩ := by
  have hbytes : f.payload.take (maxlen.toNat - 1) = f.data.take len.toNat := by
    rw [hlen, min_comm]
    exact List.take_take ..
  have hlength : (f.data.take len.toNat).length = len.toNat := by
    rw [List.length_take]
    omega
  rw [delivered, hbytes, hlength, UInt32.ofNat_toNat]

section

variable {done : List RxFrame} {f : RxFrame} {read : ℕ} {s : RxState} {maxlen : UInt32}

/-- The packet is read, as its status is ok. -/
theorem wp_rx_readPacket {len rxstat : UInt32} (h : Cursor done f read 6 s.rx)
    (hstat : rxstat &&& 0x80 ≠ 0) (hlen : len.toNat ≤ f.data.length) :
    wp runStep anyOp (readPacket len rxstat)
      (fun got t ↦ t.bank = s.bank ∧ t.next = s.next ∧
        got = (len, f.data.take len.toNat ++ [0]) ∧ Lies done [f] 0 read t.rx) s := by
  rw [readPacket, if_neg hstat, wp_bind]
  have hspan : 6 + len.toNat ≤ f.span := by
    rw [RxFrame.span]
    omega
  refine wp_mono (wp_rx_readBuf h hspan) ?_
  rintro bytes t ⟨hbank, hnext, hbytes, hlies⟩
  refine ⟨hbank, hnext, ?_, hlies⟩
  have hdrop : (f.recordAt read).drop 6 = f.data ++ f.pad := rfl
  rw [hbytes, hdrop, List.take_append_of_le_length hlen]

/-- **The rest of a packet**: what is returned is the frame's, and the frame is taken back. -/
theorem wp_rx_receiveFrame {next : UInt32} (hbank : s.bank.Coherent)
    (h : Cursor done f read 2 s.rx) (hnext : next.toNat = cell (read + f.span)) :
    wp runStep anyOp (receiveFrame maxlen next)
      (fun got t ↦ t.bank.Coherent ∧ t.next = s.next ∧ (2 ≤ maxlen → got = delivered maxlen f) ∧
        Lies (done ++ [f]) [] 0 (read + f.span) t.rx) s := by
  have hspan : 6 < f.span := by
    have hfive := f.five_le
    rw [RxFrame.span]
    omega
  have hsmall : f.data.length < 65536 := by
    have hlt := h.lies.span_lt
    have hsize : ringSize = 6641 := rfl
    rw [RxFrame.span] at hlt
    omega
  rw [receiveFrame, wp_bind]
  refine wp_mono (wp_rx_byte h (by omega)) ?_
  rintro len0 t ⟨htb, htn, hlen0, ht⟩
  rw [wp_bind]
  refine wp_mono (wp_rx_byte ht (by omega)) ?_
  rintro len1 u ⟨hub, hun, hlen1, hu⟩
  rw [wp_bind]
  refine wp_mono (wp_rx_byte hu (by omega)) ?_
  rintro rxstat0 v ⟨hvb, hvn, hstat0, hv⟩
  rw [wp_bind]
  refine wp_mono (wp_rx_byte hv (by omega)) ?_
  rintro rxstat1 w ⟨hwb, hwn, _, hw⟩
  -- the count is that of the frame, and its status is ok
  have hcount : (UInt32.ofNat f.data.length).toNat = f.data.length :=
    UInt32.toNat_ofNat_of_lt' (hsmall.trans (by decide))
  have hword : word len0 len1 = .ofNat f.data.length := by
    rw [hlen0, hlen1]
    exact word_bytes (by omega)
  have hstatus : word rxstat0 rxstat1 &&& 0x80 ≠ 0 := by
    have hlow : rxstat0 = f.rxstat0 := hstat0
    rw [word_and_received, hlow]
    exact fun h0 ↦ f.received (UInt8.toUInt32_inj.1 h0)
  have hfour : (4 : UInt32) ≤ word len0 len1 := by
    rw [hword, UInt32.le_iff_toNat_le, hcount]
    exact Nat.le_of_succ_le f.five_le
  have hle : (clampLen maxlen (word len0 len1)).toNat ≤ f.data.length := by
    refine (clampLen_le hfour).trans ?_
    rw [hword, hcount]
    exact Nat.sub_le _ _
  rw [wp_bind]
  refine wp_mono (wp_rx_readPacket hw hstatus hle) fun got x hread ↦ ?_
  obtain ⟨hxb, hxn, hgot, hx⟩ := hread
  have hxbank : x.bank.Coherent := by rwa [hxb, hwb, hvb, hub, htb]
  have hxnext : x.next = s.next := by rw [hxn, hwn, hvn, hun, htn]
  have hrelease := wp_release hxbank hx hnext
  simp only [wp_bind] at hrelease ⊢
  refine wp_mono hrelease fun _ y hy ↦ wp_mono hy fun _ z hz ↦ wp_mono hz fun _ t' ht' ↦ ?_
  refine ⟨ht'.1, ht'.2.1.trans hxnext, fun hmax ↦ ?_, ht'.2.2⟩
  -- the bytes are those of the payload
  have hone : 1 ≤ maxlen := UInt32.le_trans (by decide) hmax
  have hlen : (clampLen maxlen (word len0 len1)).toNat =
      min (f.data.length - 4) (maxlen.toNat - 1) := by
    rw [toNat_clampLen hone hfour, hword, hcount]
  rw [hgot]
  exact (delivered_eq hlen).symm

/-- The driver and the controller agree: the copy of the bank is coherent, and `NextPacketPtr` is
where the frame after those taken back begins. -/
def Idle (done : List RxFrame) (s : RxState) : Prop :=
  s.bank.Coherent ∧ ∃ read, s.next.toNat = cell read ∧ Lies done [] 0 read s.rx

/-- **A pending packet** is returned and taken back. -/
theorem wp_rx_receivePending (hbank : s.bank.Coherent) (hnext : s.next.toNat = cell read)
    (h : Lies done [f] 0 read s.rx) :
    wp runStep anyOp (receivePending maxlen)
      (fun got t ↦ (2 ≤ maxlen → got = delivered maxlen f) ∧ Idle (done ++ [f]) t) s := by
  have hspan : 6 < f.span := by
    have hfive := f.five_le
    rw [RxFrame.span]
    omega
  rw [receivePending, wp_bind]
  refine wp_mono (wp_rx_getNext stable_lies h) ?_
  rintro cur t ⟨hcur, htb, htn, ht⟩
  have hcell : cur.toNat = cell read := by rw [hcur, hnext]
  have hpoint := wp_setErdpt (htb ▸ hbank) ht hcell
  simp only [wp_bind] at hpoint ⊢
  refine wp_mono hpoint fun _ t' ht' ↦ wp_mono ht' ?_
  rintro _ u ⟨hub, hun, hu⟩
  refine wp_mono (wp_rx_setLast stable_cursor hu) ?_
  rintro _ v ⟨hvb, hvn, hv⟩
  refine wp_mono (wp_rx_byte hv (by omega)) ?_
  rintro next0 w ⟨hwb, hwn, hnext0, hw⟩
  refine wp_mono (wp_rx_setNext stable_cursor hw) ?_
  rintro _ x ⟨hxb, hxn, hx⟩
  refine wp_mono (wp_rx_byte hx (by omega)) ?_
  rintro next1 y ⟨hyb, hyn, hnext1, hy⟩
  refine wp_mono (wp_rx_setNext stable_cursor hy) ?_
  rintro _ z ⟨hzb, hzn, hz⟩
  -- the link of the record leads to the record behind it
  have hword : word next0 next1 = .ofNat (cell (read + f.span)) := by
    rw [hnext0, hnext1]
    exact word_bytes (by rw [toNat_ofNat_cell]; exact cell_lt _)
  have hlink : (word next0 next1).toNat = cell (read + f.span) := by
    rw [hword, toNat_ofNat_cell]
  have hring : ¬ (word next0 next1 < rxstartInit ∨ rxstopInit < word next0 next1) := by
    rw [← not_inRing_iff, hword]
    exact not_not_intro (inRing_cell _)
  have hzbank : z.bank.Coherent := by rwa [hzb, hyb, hxb, hwb, hvb]
  rw [if_neg hring]
  refine wp_mono (wp_rx_receiveFrame hzbank hz hlink) ?_
  rintro got t'' ⟨hb, hn, hgot, hlies⟩
  refine ⟨hgot, hb, read + f.span, ?_, hlies⟩
  rw [hn, hzn, hlink]

/-- What a call comes to: it returns 0 and takes no frame, or it returns a frame and takes that. -/
def CallOutcome (done : List RxFrame) (maxlen : UInt32) (got : Received) (t : RxState) : Prop :=
  got = ⟨some 0, []⟩ ∧ Idle done t ∨ ∃ f, got = delivered maxlen f ∧ Idle (done ++ [f]) t

/-- What the part under the lock comes to, for any limit. -/
def LockedOutcome (done : List RxFrame) (maxlen : UInt32) (got : Received) (t : RxState) : Prop :=
  got = ⟨some 0, []⟩ ∧ Idle done t ∨
    ∃ f, (2 ≤ maxlen → got = delivered maxlen f) ∧ Idle (done ++ [f]) t

theorem wp_rx_receiveNothing {estat eir econ1 : UInt8} (h : Idle done s) :
    wp runStep anyOp (receiveNothing estat eir econ1) (LockedOutcome done maxlen) s := by
  rw [receiveNothing, wp_bind, reviveReceiver]
  split
  · rw [wp_bind, enc28j60Init, wp_bind]
    exact wp_rx_reset
  · exact .inl ⟨rfl, h⟩

/-- **The call between the pend and the post**, whatever bank is selected. -/
theorem wp_rx_receiveLocked (hnext : s.next.toNat = cell read) (hlies : Lies done [] 0 read s.rx) :
    wp runStep anyOp (receiveLocked maxlen) (LockedOutcome done maxlen) s := by
  rw [receiveLocked, wp_bind]
  refine wp_mono (wp_rx_readAny stable_lies hlies Reg.estat) ?_
  rintro estat t ⟨_, htn, ht⟩
  rw [wp_bind]
  refine wp_mono (wp_rx_readAny stable_lies ht Reg.eir) ?_
  rintro eir u ⟨_, hun, hu⟩
  rw [wp_bind]
  refine wp_mono (wp_rx_readAny stable_lies hu Reg.econ1) ?_
  rintro econ1 v ⟨hvb, hvn, hv⟩
  have hzero : v.bank.bank = 0 := hvb
  rw [wp_bind]
  refine wp_mono (wp_rx_read stable_lies hv (wp_setBank_of_ne (by rw [hzero]; decide))) ?_
  rintro ptkCnt w ⟨hwb, hwn, hw, hcnt⟩
  have hwnext : w.next.toNat = cell read := by rw [hwn, hvn, hun, htn, hnext]
  split
  · exact wp_rx_receiveNothing ⟨hwb, read, hwnext, hw⟩
  · next hpending =>
    obtain ⟨more, hstored⟩ := hw
    cases more with
    | nil =>
      -- the counter would have read 0
      have hzero : w.rx.epktcnt = 0 := hstored.epktcnt
      rw [hcnt rfl, hzero] at hpending
      exact absurd rfl hpending
    | cons f more =>
      split
      · have hfirst : Lies done [f] 0 read w.rx := ⟨more, hstored⟩
        refine wp_mono (wp_rx_receivePending hwb hwnext hfirst) fun got x hx ↦ ?_
        exact .inr ⟨f, hx⟩
      · exact .inl ⟨rfl, hwb, read, hwnext, _, hstored⟩

/-- The post keeps the agreement. -/
theorem wp_rx_postLock (h : Idle done s) : wp runStep anyOp postLock (fun _ t ↦ Idle done t) s := by
  obtain ⟨hbank, read, hnext, hlies⟩ := h
  refine wp_mono (wp_rx_post stable_lies hlies) ?_
  rintro _ t ⟨htb, htn, ht⟩
  exact ⟨htb ▸ hbank, read, htn ▸ hnext, ht⟩

/-- **`ENC28J60_Packet_Receive`.** -/
theorem wp_rx_packetReceive (h : Idle done s) (hmax : 2 ≤ maxlen) :
    wp runStep anyOp (enc28j60PacketReceive maxlen) (CallOutcome done maxlen) s := by
  obtain ⟨hbank, read, hnext, hlies⟩ := h
  rw [enc28j60PacketReceive, wp_bind]
  refine wp_mono (wp_rx_pend stable_lies hlies) ?_
  rintro err t ⟨herr, htb, htn, ht⟩
  have htnext : t.next.toNat = cell read := by rw [htn, hnext]
  rw [if_pos herr, wp_bind]
  refine wp_mono (wp_rx_receiveLocked htnext ht) fun got u hu ↦ ?_
  rw [wp_bind]
  rcases hu with ⟨hgot, hu⟩ | ⟨f, hgot, hu⟩
  · exact wp_mono (wp_rx_postLock hu) fun _ v hv ↦ .inl ⟨hgot, hv⟩
  · exact wp_mono (wp_rx_postLock hu) fun _ v hv ↦ .inr ⟨f, hgot hmax, hv⟩

end

/-! ### Runs -/

/-- After `ENC28J60_Init`: the driver and the controller agree that the ring is empty, at its
start. -/
def Initialised (s : RxState) : Prop :=
  s.bank.Coherent ∧ s.next = rxstartInit ∧ s.rx.erxrdpt = ringBase ∧ s.rx.erxwrpt = ringBase ∧
    s.rx.epktcnt = 0 ∧ s.rx.accepted = []

/-- Calls of `ENC28J60_Packet_Receive` one after the other, each with its `maxlen` and what it
returned. Frames arrive before every operation of every call; the controller is not reset. -/
inductive ReceiveRun (s : RxState) : List (UInt32 × Received) → RxState → Prop
  | start : ReceiveRun s [] s
  | call {log : List (UInt32 × Received)} {t u : RxState} {maxlen : UInt32} {got : Received}
      {tr : List (Event DrvOp DrvOp.Ans)} : ReceiveRun s log t → 2 ≤ maxlen →
      Returns rxStep (enc28j60PacketReceive maxlen) t tr got u → (∀ e ∈ tr, NoReset e) →
      ReceiveRun s (log ++ [(maxlen, got)]) u

/-- The call returns a length other than zero. -/
def ReturnsFrame (c : UInt32 × Received) : Prop := c.2.len ≠ some 0

instance : DecidablePred ReturnsFrame := fun c ↦ inferInstanceAs (Decidable (c.2.len ≠ _))

/-- A frame has a byte to deliver. -/
theorem returnsFrame_delivered {maxlen : UInt32} {f : RxFrame} (hmax : 2 ≤ maxlen) :
    ReturnsFrame (maxlen, delivered maxlen f) := by
  have hfive := f.five_le
  have hlt := maxlen.toNat_lt
  have htwo : 2 ≤ maxlen.toNat := UInt32.le_iff_toNat_le.1 hmax
  have hlength : (f.payload.take (maxlen.toNat - 1)).length =
      min (maxlen.toNat - 1) (f.data.length - 4) := by
    rw [List.length_take, f.length_payload]
  intro h
  have hzero := congrArg UInt32.toNat (Option.some.inj h)
  rw [hlength, UInt32.toNat_ofNat_of_lt' (by rw [UInt32.size]; omega)] at hzero
  have hnone : UInt32.toNat 0 = 0 := rfl
  omega

theorem idle_of_initialised {s : RxState} (h : Initialised s) : Idle [] s := by
  obtain ⟨hbank, hnext, hrd, hwr, hcnt, hacc⟩ := h
  refine ⟨hbank, 0, ?_, [], ?_⟩
  · rw [hnext]
    rfl
  · exact ⟨hrd, hwr, (by decide : 0 < 0 + ringSize), trivial, hacc, hcnt⟩

/-- **Frames are received in order, each once.** In every run of calls with `maxlen` at least 2, the
frames accepted fall into those received and those waiting. The calls that return a length other
than zero return the frames received, in the order of their arrival, without the CRC and cut to
`maxlen - 1` bytes; so no other call has taken one. And after each call, the last of a run, the ring
holds the frames waiting: `ERXRDPT` and `NextPacketPtr` are where the first of them begins, and
`EPKTCNT` is their number. -/
theorem frames_in_order {s t : RxState} {log : List (UInt32 × Received)} (hinit : Initialised s)
    (hrun : ReceiveRun s log t) :
    ∃ frames waiting read,
      List.Forall₂ (fun c f ↦ c.2 = delivered c.1 f) (log.filter ReturnsFrame) frames ∧
        t.rx.accepted = frames ++ waiting ∧ t.rx.epktcnt = waiting.length ∧
        t.rx.erxrdpt = cell read ∧ t.next.toNat = cell read ∧
        Chain RxFrame.recordAt (ringView t.rx.mem) read waiting := by
  suffices hidle : ∃ frames,
      List.Forall₂ (fun c f ↦ c.2 = delivered c.1 f) (log.filter ReturnsFrame) frames ∧
        Idle frames t by
    obtain ⟨frames, hlog, -, read, hnext, waiting, h⟩ := hidle
    exact ⟨frames, waiting, read, hlog, h.accepted, h.epktcnt, h.erxrdpt, hnext, h.chain⟩
  induction hrun with
  | start => exact ⟨[], .nil, idle_of_initialised hinit⟩
  | @call log t u maxlen got tr _ hmax hcall hreset ih =>
    obtain ⟨frames, hlog, hidle⟩ := ih
    have houtcome : CallOutcome frames maxlen got u :=
      wp_of_steps (wp_rx_packetReceive hidle hmax) (hcall.restrict hreset)
    rw [List.filter_append]
    rcases houtcome with ⟨rfl, hu⟩ | ⟨f, rfl, hu⟩
    · have hnone : [(maxlen, (⟨some 0, []⟩ : Received))].filter ReturnsFrame = [] := rfl
      rw [hnone, List.append_nil]
      exact ⟨frames, hlog, hu⟩
    · have hone : [(maxlen, delivered maxlen f)].filter ReturnsFrame =
          [(maxlen, delivered maxlen f)] := by
        rw [List.filter_cons_of_pos (by simpa using returnsFrame_delivered hmax), List.filter_nil]
      rw [hone]
      exact ⟨frames ++ [f], List.rel_append hlog (.cons rfl .nil), hu⟩

/-! ### A controller that answers

The machine as a function, with a frame arriving at every pend as long as there is room, so that
runs can be computed. -/

namespace Receiver

/-- A burst of reads. -/
def burst (c : Receiver) : ℕ → List UInt8 × Receiver
  | 0 => ([], c)
  | len + 1 => (c.mem c.erdpt :: (c.readNext.burst len).1, (c.readNext.burst len).2)

theorem length_burst (c : Receiver) (len : ℕ) : (c.burst len).1.length = len := by
  induction len generalizing c with
  | zero => rfl
  | succ len ih => exact congrArg (· + 1) (ih c.readNext)

theorem readsBuf_burst (c : Receiver) (len : ℕ) : ReadsBuf c (c.burst len).1 (c.burst len).2 := by
  induction len generalizing c with
  | zero => exact .done c
  | succ len ih =>
    show ReadsBuf c (c.mem c.erdpt :: (c.readNext.burst len).1) (c.readNext.burst len).2
    exact .byte .refl (ih c.readNext)

/-- A transaction that writes. -/
def written (c : Receiver) (op : Opcode) (reg data : UInt8) : Receiver :=
  if op = .writeCtrlReg ∧ reg = Reg.erdptl then
    { c with erdpt := c.erdpt / 256 * 256 + data.toNat }
  else if op = .writeCtrlReg ∧ reg = Reg.erdpth then
    { c with erdpt := c.erdpt % 256 + 256 * data.toNat }
  else if op = .writeCtrlReg ∧ reg = Reg.erxrdptl then { c with erxrdptl := data }
  else if op = .writeCtrlReg ∧ reg = Reg.erxrdpth then
    { c with erxrdpt := c.erxrdptl.toNat + 256 * data.toNat }
  else if op = .bitFieldSet ∧ reg = Reg.econ2 ∧ data = 0x40 then
    { c with epktcnt := c.epktcnt - 1 }
  else c

theorem writes_written (c : Receiver) {reg data : UInt8} :
    c.writes reg data (c.written .writeCtrlReg reg data) := by
  simp only [writes, written, true_and, reduceCtorEq, false_and, if_false]
  split_ifs <;> trivial

theorem setsBits_written (c : Receiver) {reg data : UInt8} :
    c.setsBits reg data (c.written .bitFieldSet reg data) := by
  simp only [setsBits, written, reduceCtorEq, false_and, if_false, true_and]
  split_ifs
  · rfl
  · exact fun _ ↦ rfl

end Receiver

namespace RxState

/-- What is answered. -/
def answer (s : RxState) : (o : DrvOp) → DrvOp.Ans o
  | .pend => osErrNone
  | .getBank => s.bank.bank
  | .getNext => s.next
  | .readOp .readBufMem _ => s.rx.mem s.rx.erdpt
  | .readOp _ addr => if s.bank.reg addr = Reg.epktcnt then .ofNat s.rx.epktcnt else 0
  | .readBuf len => ⟨(s.rx.burst len.toNat).1, s.rx.length_burst _⟩
  | .post | .setBank _ | .setNext _ | .setLast _ | .reset | .writeOp _ _ _ | .writeBuf _ => ()

/-- How the controller goes on, the frames that arrive being `f`. -/
def after (f : RxFrame) : RxState → Event DrvOp DrvOp.Ans → RxState
  | s, ⟨.pend, _⟩ => { s with rx := if s.rx.Fits f then s.rx.store f else s.rx }
  | s, ⟨.setBank bank, _⟩ => { s with bank := { s.bank with bank := bank } }
  | s, ⟨.reset, _⟩ => { s with bank := { s.bank with econ1 := 0 } }
  | s, ⟨.setNext ptr, _⟩ => { s with next := ptr }
  | s, ⟨.readOp .readBufMem _, _⟩ => { s with rx := s.rx.readNext }
  | s, ⟨.readBuf len, _⟩ => { s with rx := (s.rx.burst len.toNat).2 }
  | s, ⟨.writeOp op addr data, _⟩ =>
    { s with
      bank := { s.bank with econ1 := BankState.writeEcon1 s.bank.econ1 op addr data }
      rx := s.rx.written op (s.bank.reg addr) data }
  | s, _ => s

/-- It is the machine. -/
theorem step_after (f : RxFrame) (s : RxState) (o : DrvOp) :
    rxStep s ⟨o, s.answer o⟩ (s.after f ⟨o, s.answer o⟩) := by
  cases o with
  | pend =>
    refine ⟨rfl, rfl, rfl, ?_⟩
    by_cases hfits : s.rx.Fits f
    · exact ⟨s.rx.store f, .single ⟨f, hfits, rfl⟩, if_pos hfits⟩
    · exact ⟨s.rx, .refl, if_neg hfits⟩
  | getBank => exact ⟨trivial, ⟨rfl, rfl⟩, rfl, s.rx, .refl, rfl⟩
  | getNext => exact ⟨trivial, rfl, ⟨rfl, rfl⟩, s.rx, .refl, rfl⟩
  | readOp op addr =>
    cases op with
    | readCtrlReg => exact ⟨trivial, rfl, rfl, s.rx, .refl, fun h ↦ if_pos h, rfl⟩
    | readBufMem =>
      refine ⟨trivial, rfl, rfl, s.rx, .refl, ?_⟩
      show s.rx.mem s.rx.erdpt = s.rx.mem s.rx.erdpt ∧ s.rx.readNext = s.rx.readNext
      exact ⟨rfl, rfl⟩
    | _ => exact ⟨trivial, rfl, rfl, s.rx, .refl, trivial⟩
  | readBuf len => exact ⟨trivial, rfl, rfl, s.rx, .refl, s.rx.readsBuf_burst _⟩
  | writeOp op addr data =>
    refine ⟨trivial, rfl, rfl, s.rx, .refl, ?_⟩
    cases op with
    | writeCtrlReg => exact s.rx.writes_written
    | bitFieldSet => exact s.rx.setsBits_written
    | bitFieldClr => exact fun _ ↦ rfl
    | _ => trivial
  | _ => exact ⟨trivial, rfl, rfl, s.rx, .refl, by first | rfl | trivial⟩

/-- After `ENC28J60_Init`, with a zeroed memory. -/
def ready : RxState := ⟨⟨0, 0⟩, rxstartInit, ⟨fun _ ↦ 0, 0, 0, ringBase, ringBase, 0, []⟩⟩

/-- Calls one after the other, each with the frame that arrives at its pend and its `maxlen`, as
long as none resets the controller: what they return, and the state after them. -/
def calls : RxState → List (RxFrame × UInt32) → Option (List (UInt32 × Received) × RxState)
  | s, [] => some ([], s)
  | s, (f, maxlen) :: cs =>
    let call := play answer (after f) (enc28j60PacketReceive maxlen) s
    if 2 ≤ maxlen ∧ ∀ e ∈ call.1, NoReset e then
      (calls call.2.2 cs).map fun r ↦ ((maxlen, call.2.1) :: r.1, r.2)
    else none

/-- They are a run. -/
theorem receiveRun_calls {s₀ s t : RxState} {log log' : List (UInt32 × Received)}
    {cs : List (RxFrame × UInt32)} (hrun : ReceiveRun s₀ log s)
    (hcalls : s.calls cs = some (log', t)) : ReceiveRun s₀ (log ++ log') t := by
  induction cs generalizing s log log' with
  | nil =>
    obtain ⟨rfl, rfl⟩ := Prod.mk.inj (Option.some.inj hcalls)
    rw [List.append_nil]
    exact hrun
  | cons c cs ih =>
    obtain ⟨f, maxlen⟩ := c
    rw [calls] at hcalls
    split at hcalls
    · next hok =>
      obtain ⟨⟨log'', u⟩, hrest, heq⟩ := Option.map_eq_some_iff.1 hcalls
      obtain ⟨rfl, rfl⟩ := Prod.mk.inj heq
      have hnext := hrun.call hok.1 (returns_play (step_after f) _ _) hok.2
      rw [List.append_cons]
      exact ih hnext hrest
    · cases hcalls

end RxState

/-- A frame of five bytes, four of them the CRC. -/
def shortFrame : RxFrame := ⟨[7, 0, 1, 2, 3], 0x80, 0, [], by decide, by decide⟩

/-- A frame with `n + 1` bytes of data. -/
def sevens (n : ℕ) : RxFrame :=
  ⟨List.replicate (n + 5) 7, 0x80, 0, [], by rw [List.length_replicate]; omega, by decide⟩

/-- A frame with sixteen bytes of data. -/
def sixteen : RxFrame :=
  ⟨[1, 2, 3, 4, 5, 6, 7, 8, 9, 10, 11, 12, 13, 14, 15, 16, 0, 0, 0, 0], 0x80, 0, [], by decide,
    by decide⟩

set_option maxRecDepth 20000 in
/-- Fourteen frames fill the ring but for 19 bytes, and are read in part. The next one goes on at
the start of the ring, and is read whole. -/
theorem frames_in_order_across :
    ∃ log t, ReceiveRun .ready log t ∧
      log = List.replicate 14 (3, ⟨some 2, [7, 7, 0]⟩) ++
        [(1518, ⟨some 16, [1, 2, 3, 4, 5, 6, 7, 8, 9, 10, 11, 12, 13, 14, 15, 16, 0]⟩)] ∧
      t.next = rxstartInit + 7 ∧
      ∃ frames waiting read,
        List.Forall₂ (fun c f ↦ c.2 = delivered c.1 f) (log.filter ReturnsFrame) frames ∧
          t.rx.accepted = frames ++ waiting ∧ t.rx.epktcnt = waiting.length ∧
          t.rx.erxrdpt = cell read ∧ t.next.toNat = cell read ∧
          Chain RxFrame.recordAt (ringView t.rx.mem) read waiting := by
  obtain ⟨⟨log, t⟩, hcalls, hresult⟩ := Option.map_eq_some_iff.1
    (show (RxState.ready.calls (List.replicate 13 (sevens 495, 3) ++
      [(sevens 33, 3), (sixteen, 1518)])).map (fun r ↦ (r.1, r.2.next)) =
        some (List.replicate 14 (3, ⟨some 2, [7, 7, 0]⟩) ++
          [(1518, ⟨some 16, [1, 2, 3, 4, 5, 6, 7, 8, 9, 10, 11, 12, 13, 14, 15, 16, 0]⟩)],
          rxstartInit + 7) by decide +kernel)
  obtain ⟨hlog, hnext⟩ := Prod.mk.inj hresult
  have hrun : ReceiveRun .ready log t := RxState.receiveRun_calls .start hcalls
  have hinit : Initialised .ready := ⟨by decide, rfl, rfl, rfl, rfl, rfl⟩
  exact ⟨log, t, hrun, hlog, hnext, frames_in_order hinit hrun⟩

end YHAudioLink
