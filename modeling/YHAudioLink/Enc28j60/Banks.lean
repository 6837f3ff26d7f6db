import YHAudioLink.Enc28j60.Driver
import Mathlib.Tactic.IntervalCases

/-!
# Coherence of the register bank

A register below `0x1B` is reached through the bank selected by `ECON1.BSEL`, and the driver keeps a
copy of the selection, `ENC28J60BANK`, to save transactions. The machine here keeps the two and
nothing else: a read may answer anything, the copy is the driver's variable, and the controller
changes `ECON1` as transactions and resets make it.

The copy is **coherent** when it names the selected bank. `ENC28J60_Init` breaks this, as the reset
selects bank 0 and leaves the copy. What repairs it is that the first register read after a reset is
`ESTAT`, whose constant names bank 0: either the copy says 0 too, or the bank is selected anew
(`wp_setBank`).
-/

namespace YHAudioLink

open Programs

/-! ### The machine -/

/-- The driver's copy of the bank and the controller's `ECON1`. -/
structure BankState where
  bank : UInt8
  econ1 : UInt8
  deriving DecidableEq

namespace BankState

/-- `ECON1.BSEL`. -/
def bsel (s : BankState) : UInt8 := s.econ1 &&& 0x03

/-- `ECON1` after a transaction that writes. -/
def writeEcon1 (econ1 : UInt8) (op : Opcode) (addr data : UInt8) : UInt8 :=
  match op with
  | .softReset => 0
  | .bitFieldSet => if addr &&& addrMask = Reg.econ1 then econ1 ||| data else econ1
  | .bitFieldClr => if addr &&& addrMask = Reg.econ1 then econ1 &&& ~~~data else econ1
  | .writeCtrlReg => if addr &&& addrMask = Reg.econ1 then data else econ1
  | _ => econ1

/-- One operation of the driver with its answer. -/
def step : BankState → Event DrvOp DrvOp.Ans → BankState → Prop
  | s, ⟨.getBank, cur⟩, t => cur = s.bank ∧ t = s
  | s, ⟨.setBank bank, _⟩, t => t = { s with bank := bank }
  | s, ⟨.reset, _⟩, t => t = { s with econ1 := 0 }
  | s, ⟨.writeOp op addr data, _⟩, t => t = { s with econ1 := writeEcon1 s.econ1 op addr data }
  | s, _, t => t = s

/-- After power-up. -/
def powerUp : BankState := ⟨0, 0⟩

end BankState

/-- The constant of the banked register an operation is a transaction on. -/
def bankedRegister : DrvOp → Option UInt8
  | .readOp .readCtrlReg addr | .writeOp .writeCtrlReg addr _ | .writeOp .bitFieldSet addr _
  | .writeOp .bitFieldClr addr _ => if addr &&& addrMask < 0x1B then some addr else none
  | _ => none

/-- The operation, if it is a transaction on a banked register, meets the register it names. -/
def meetsRegister (s : BankState) (o : DrvOp) : Prop :=
  ∀ addr, bankedRegister o = some addr → s.bsel = (addr &&& bankMask) >>> 5

/-- The bank of `addr` is selected, and the copy says so. -/
def BankState.At (addr : UInt8) (s : BankState) : Prop :=
  s.bank = addr &&& bankMask ∧ s.bsel = (addr &&& bankMask) >>> 5

/-- **The invariant.** -/
def BankState.Coherent (s : BankState) : Prop := s.bsel = s.bank >>> 5

instance (s : BankState) : Decidable s.Coherent := inferInstanceAs (Decidable (_ = _))

theorem meetsRegister_of_none {s : BankState} {o : DrvOp} (h : bankedRegister o = none) :
    meetsRegister s o := by
  intro addr haddr
  rw [h] at haddr
  cases haddr

theorem bankedRegister_econ1 {op : Opcode} {data : UInt8} :
    bankedRegister (.writeOp op Reg.econ1 data) = none := by
  cases op <;> rfl

theorem BankState.At.coherent {addr : UInt8} {s : BankState} (h : s.At addr) : s.Coherent := by
  rw [Coherent, h.1, h.2]

/-! ### Bits of `ECON1` -/

/-- Setting bits leaves the others. -/
theorem and_or_of_disjoint {v data mask : UInt8} (h : data &&& mask = 0) :
    (v ||| data) &&& mask = v &&& mask := by
  rw [← UInt8.toBitVec_inj] at h ⊢
  apply BitVec.eq_of_getLsbD_eq
  intro i hi
  have hbit := congrArg (fun v ↦ v.getLsbD i) h
  simp at hbit ⊢
  grind

/-- Clearing bits leaves the others. -/
theorem and_and_not_of_disjoint {v data mask : UInt8} (h : data &&& mask = 0) :
    (v &&& ~~~data) &&& mask = v &&& mask := by
  rw [← UInt8.toBitVec_inj] at h ⊢
  apply BitVec.eq_of_getLsbD_eq
  intro i hi
  have hbit := congrArg (fun v ↦ v.getLsbD i) h
  simp at hbit ⊢
  grind

/-- A bank has the two bits of `BSEL`. -/
theorem bank_bits (addr : UInt8) : (addr &&& bankMask) >>> (5 : UInt8) &&& 0xFC = 0 := by
  rw [← UInt8.toBitVec_inj]
  apply BitVec.eq_of_getLsbD_eq
  intro i hi
  interval_cases i <;> simp [bankMask]

/-- Clearing the two bits of `BSEL` and setting a bank selects it. -/
theorem bsel_select (econ1 addr : UInt8) :
    (econ1 &&& ~~~(0x02 ||| 0x01 : UInt8) ||| (addr &&& bankMask) >>> (5 : UInt8)) &&&
        (0x03 : UInt8) =
      (addr &&& bankMask) >>> 5 := by
  rw [← UInt8.toBitVec_inj]
  apply BitVec.eq_of_getLsbD_eq
  intro i hi
  interval_cases i <;> simp [bankMask]

/-- It leaves the other six bits. -/
theorem other_bits_select (econ1 addr : UInt8) :
    (econ1 &&& ~~~(0x02 ||| 0x01 : UInt8) ||| (addr &&& bankMask) >>> (5 : UInt8)) &&&
        (0xFC : UInt8) =
      econ1 &&& 0xFC :=
  (and_or_of_disjoint (bank_bits addr)).trans (and_and_not_of_disjoint rfl)

/-! ### Single operations -/

/-- What the laws below run the driver on. -/
abbrev wpBank {α : Type} (p : Driver α) (Q : α → BankState → Prop) (s : BankState) : Prop :=
  wp BankState.step meetsRegister p Q s

/-- The driver's programs that keep the copy coherent. -/
abbrev KeepsCoherent {α : Type} (p : Driver α) : Prop :=
  Keeps BankState.step meetsRegister BankState.Coherent p

/-- **An operation that is no transaction on a banked register**, and leaves the copy and `BSEL`. -/
theorem keepsCoherent_drv {o : DrvOp} (hreg : bankedRegister o = none)
    (hstep : ∀ s r t, BankState.step s ⟨o, r⟩ t → t.bank = s.bank ∧ t.bsel = s.bsel) :
    KeepsCoherent (drv o) := by
  refine .perform (fun s _ ↦ meetsRegister_of_none hreg) fun s r t h hst ↦ ?_
  obtain ⟨hbank, hbsel⟩ := hstep s r t hst
  rw [BankState.Coherent, hbank, hbsel]
  exact h

/-- The transactions the driver makes past `ENC28J60_Write`, on the registers every bank has. -/
theorem keepsCoherent_writeOp {op : Opcode} {addr data : UInt8}
    (hreg : bankedRegister (.writeOp op addr data) = none)
    (hbsel : ∀ econ1, BankState.writeEcon1 econ1 op addr data &&& 0x03 = econ1 &&& 0x03) :
    KeepsCoherent (enc28j60WriteOp op addr data) := by
  refine keepsCoherent_drv hreg fun s r t hst ↦ ?_
  rw [show t = _ from hst]
  exact ⟨rfl, hbsel s.econ1⟩

theorem keepsCoherent_setBits {addr data : UInt8} (haddr : ¬ addr &&& addrMask < 0x1B)
    (hdata : addr &&& addrMask = Reg.econ1 → data &&& 0x03 = 0) :
    KeepsCoherent (enc28j60WriteOp .bitFieldSet addr data) := by
  refine keepsCoherent_writeOp (if_neg haddr) fun econ1 ↦ ?_
  rw [BankState.writeEcon1]
  split
  · next heq => exact and_or_of_disjoint (hdata heq)
  · rfl

theorem keepsCoherent_clearBits {addr data : UInt8} (haddr : ¬ addr &&& addrMask < 0x1B)
    (hdata : addr &&& addrMask = Reg.econ1 → data &&& 0x03 = 0) :
    KeepsCoherent (enc28j60WriteOp .bitFieldClr addr data) := by
  refine keepsCoherent_writeOp (if_neg haddr) fun econ1 ↦ ?_
  rw [BankState.writeEcon1]
  split
  · next heq => exact and_and_not_of_disjoint (hdata heq)
  · rfl

/-! ### Selecting a bank -/

/-- Where `ENC28J60_Set_Bank` may be called: the copy is coherent, or bank 0 is selected and asked
for, whatever the copy says. -/
def BankState.Selectable (addr : UInt8) (s : BankState) : Prop :=
  s.Coherent ∨ addr &&& bankMask = 0 ∧ s.bsel = 0

/-- Where the copy names another bank, the bank is selected, whatever was selected before. -/
theorem wp_setBank_of_ne {addr : UInt8} {s : BankState} (h : addr &&& bankMask ≠ s.bank) :
    wpBank (enc28j60SetBank addr) (fun _ t ↦ t.At addr) s := by
  rw [wpBank, enc28j60SetBank, wp_bind, wp_drv]
  refine ⟨meetsRegister_of_none rfl, ?_⟩
  rintro cur t ⟨rfl, rfl⟩
  -- the two bits are cleared and the bank is set
  rw [if_pos h, wp_bind, wp_drv]
  refine ⟨meetsRegister_of_none bankedRegister_econ1, ?_⟩
  rintro - t rfl
  rw [wp_bind, wp_drv]
  refine ⟨meetsRegister_of_none bankedRegister_econ1, ?_⟩
  rintro - t rfl
  rw [wp_drv]
  refine ⟨meetsRegister_of_none rfl, ?_⟩
  rintro - t rfl
  exact ⟨rfl, bsel_select _ _⟩

/-- Where the copy names the bank, nothing is done. -/
theorem wp_setBank_of_eq {addr : UInt8} {s : BankState} (h : addr &&& bankMask = s.bank)
    {Q : Unit → BankState → Prop} (hQ : Q () s) : wpBank (enc28j60SetBank addr) Q s := by
  rw [wpBank, enc28j60SetBank, wp_bind, wp_drv]
  refine ⟨meetsRegister_of_none rfl, ?_⟩
  rintro cur t ⟨rfl, rfl⟩
  rw [if_neg (not_not_intro h)]
  exact hQ

/-- **`ENC28J60_Set_Bank` selects the bank.** -/
theorem wp_setBank {addr : UInt8} {s : BankState} (h : s.Selectable addr) :
    wpBank (enc28j60SetBank addr) (fun _ t ↦ t.At addr) s := by
  by_cases hbank : addr &&& bankMask = s.bank
  · refine wp_setBank_of_eq hbank ⟨hbank.symm, ?_⟩
    rcases h with hcoh | ⟨hzero, hbsel⟩
    · rw [hbank]
      exact hcoh
    · rw [hzero, hbsel]
      rfl
  · exact wp_setBank_of_ne hbank

/-- **The copy names the bank** after `ENC28J60_Set_Bank`, from any state. -/
theorem wp_setBank_bank (addr : UInt8) (s : BankState) :
    wpBank (enc28j60SetBank addr) (fun _ t ↦ t.bank = addr &&& bankMask) s := by
  by_cases hbank : addr &&& bankMask = s.bank
  · exact wp_setBank_of_eq hbank hbank.symm
  · exact wp_mono (wp_setBank_of_ne hbank) fun _ _ ht ↦ ht.1

/-- **`ENC28J60_Set_Bank` changes no other bit of `ECON1`**, from any state. -/
theorem wp_setBank_other_bits {addr : UInt8} {s : BankState} :
    wp BankState.step anyOp (enc28j60SetBank addr)
      (fun _ t ↦ t.econ1 &&& 0xFC = s.econ1 &&& 0xFC) s := by
  rw [enc28j60SetBank, wp_bind, wp_drv]
  refine ⟨trivial, ?_⟩
  rintro cur t ⟨rfl, rfl⟩
  split
  · rw [wp_bind, wp_drv]
    refine ⟨trivial, ?_⟩
    rintro - t rfl
    rw [wp_bind, wp_drv]
    refine ⟨trivial, ?_⟩
    rintro - t rfl
    rw [wp_drv]
    refine ⟨trivial, ?_⟩
    rintro - t rfl
    exact other_bits_select _ _
  · rfl

/-- The bank of the register's constant meets the register. -/
theorem meetsRegister_of_at {addr : UInt8} {s : BankState} {o : DrvOp} (h : s.At addr)
    (ho : ∀ a, bankedRegister o = some a → a = addr) : meetsRegister s o := by
  intro a ha
  rw [ho a ha]
  exact h.2

theorem eq_of_bankedRegister {c : Prop} [Decidable c] {addr a : UInt8}
    (h : (if c then some addr else none) = some a) : a = addr := by
  split at h
  · exact (Option.some.inj h).symm
  · cases h

/-- **`ENC28J60_Read`** reads with the register's bank selected, wherever `ENC28J60_Set_Bank`
selects it. -/
theorem wp_read_of_setBank {addr : UInt8} {s : BankState}
    (h : wpBank (enc28j60SetBank addr) (fun _ t ↦ t.At addr) s) :
    wpBank (enc28j60Read addr) (fun _ t ↦ t.At addr) s := by
  rw [wpBank, enc28j60Read, wp_bind]
  refine wp_mono h fun _ t ht ↦ ⟨?_, ?_⟩
  · exact meetsRegister_of_at ht fun a ha ↦ eq_of_bankedRegister ha
  · rintro r u rfl
    exact ht

theorem wp_read {addr : UInt8} {s : BankState} (h : s.Selectable addr) :
    wpBank (enc28j60Read addr) (fun _ t ↦ t.At addr) s :=
  wp_read_of_setBank (wp_setBank h)

/-- The registers every bank has can be read with any bank selected. -/
theorem wp_readCommon {addr : UInt8} (haddr : ¬ addr &&& addrMask < 0x1B) (s : BankState) :
    wpBank (enc28j60Read addr) (fun _ t ↦ t.bank = addr &&& bankMask) s := by
  rw [wpBank, enc28j60Read, wp_bind]
  refine wp_mono (wp_setBank_bank addr s) fun _ t ht ↦ ⟨?_, ?_⟩
  · exact meetsRegister_of_none (if_neg haddr)
  · rintro r u rfl
    exact ht

/-- **`ENC28J60_Write`** writes with the register's bank selected; no caller passes `ECON1`. -/
theorem wp_write {addr data : UInt8} {s : BankState} (h : s.Selectable addr)
    (hne : addr &&& addrMask ≠ Reg.econ1) :
    wpBank (enc28j60Write addr data) (fun _ t ↦ t.At addr) s := by
  rw [wpBank, enc28j60Write, wp_bind]
  refine wp_mono (wp_setBank h) fun _ t ht ↦ ⟨?_, ?_⟩
  · exact meetsRegister_of_at ht fun a ha ↦ eq_of_bankedRegister ha
  · rintro r u rfl
    exact ⟨ht.1, by simpa [BankState.bsel, BankState.writeEcon1, hne] using ht.2⟩

theorem keepsCoherent_setBank (addr : UInt8) : KeepsCoherent (enc28j60SetBank addr) :=
  fun _ h ↦ wp_mono (wp_setBank (.inl h)) fun _ _ ht ↦ ht.coherent

theorem keepsCoherent_read (addr : UInt8) : KeepsCoherent (enc28j60Read addr) :=
  fun _ h ↦ wp_mono (wp_read (.inl h)) fun _ _ ht ↦ ht.coherent

theorem keepsCoherent_write {addr data : UInt8} (hne : addr &&& addrMask ≠ Reg.econ1) :
    KeepsCoherent (enc28j60Write addr data) :=
  fun _ h ↦ wp_mono (wp_write (.inl h) hne) fun _ _ ht ↦ ht.coherent

/-- The table does not write `ECON1`. -/
def sparesEcon1 (table : List (UInt8 × UInt8)) : Bool :=
  (table.map Prod.fst).all fun addr ↦ addr &&& addrMask != Reg.econ1

theorem sparesEcon1_cons {e : UInt8 × UInt8} {table : List (UInt8 × UInt8)}
    (h : sparesEcon1 (e :: table) = true) :
    e.1 &&& addrMask ≠ Reg.econ1 ∧ sparesEcon1 table = true :=
  (Bool.and_eq_true_iff.1 h).imp_left bne_iff_ne.1

/-- Such a table leaves the bank of its last register selected. -/
theorem wp_writeAll {table : List (UInt8 × UInt8)} {last : UInt8 × UInt8} {s : BankState}
    (h : s.Coherent) (hne : sparesEcon1 (table ++ [last]) = true) :
    wpBank (writeAll (table ++ [last])) (fun _ t ↦ t.At last.1) s := by
  induction table generalizing s with
  | nil =>
    rw [List.nil_append, wpBank, writeAll, wp_bind]
    exact wp_mono (wp_write (.inl h) (sparesEcon1_cons hne).1) fun _ _ ht ↦ ht
  | cons e table ih =>
    obtain ⟨he, hrest⟩ := sparesEcon1_cons hne
    rw [List.cons_append, wpBank, writeAll, wp_bind]
    exact wp_mono (wp_write (.inl h) he) fun _ t ht ↦ ih ht.coherent hrest

theorem keepsCoherent_writeAll {table : List (UInt8 × UInt8)} (hne : sparesEcon1 table = true) :
    KeepsCoherent (writeAll table) := by
  induction table with
  | nil => exact .pure ()
  | cons e table ih =>
    obtain ⟨he, hrest⟩ := sparesEcon1_cons hne
    exact .bind (keepsCoherent_write he) fun _ ↦ ih hrest

/-! ### The functions of the driver -/

theorem keepsCoherent_phyWait (rounds : ℕ) : KeepsCoherent (phyWait rounds) := by
  induction rounds with
  | zero => exact .bind (keepsCoherent_read _) fun _ ↦ .pure ()
  | succ rounds ih => exact .bind (keepsCoherent_read _) fun _ ↦ .ite ih (.pure ())

theorem keepsCoherent_phyWrite (addr : UInt8) (data : UInt32) :
    KeepsCoherent (enc28j60PhyWrite addr data) :=
  .bind (keepsCoherent_write (by decide)) fun _ ↦
    .bind (keepsCoherent_write (by decide)) fun _ ↦
      .bind (keepsCoherent_write (by decide)) fun _ ↦ keepsCoherent_phyWait _

theorem keepsCoherent_clkrdyWait (rounds : ℕ) : KeepsCoherent (clkrdyWait rounds) := by
  induction rounds with
  | zero => exact .bind (keepsCoherent_read _) fun _ ↦ .pure _
  | succ rounds ih => exact .bind (keepsCoherent_read _) fun _ ↦ .ite ih (.pure _)

/-- **After a reset** the copy may be stale; the first poll of the wait repairs it. -/
theorem wp_clkrdyWait_of_reset {rounds : ℕ} {s : BankState} (h : s.bsel = 0) :
    wpBank (clkrdyWait rounds) (fun _ t ↦ t.Coherent) s := by
  have hselect : s.Selectable Reg.estat := .inr ⟨by decide, h⟩
  cases rounds with
  | zero =>
    rw [clkrdyWait, wpBank, wp_bind]
    exact wp_mono (wp_read hselect) fun _ t ht ↦ ht.coherent
  | succ rounds =>
    rw [clkrdyWait, wpBank, wp_bind]
    refine wp_mono (wp_read hselect) fun r t ht ↦ ?_
    exact Keeps.ite (keepsCoherent_clkrdyWait rounds) (.pure true) t ht.coherent

/-- `MACON3` is written past `ENC28J60_Write`, straight after `MACON2`, which shares its bank. -/
theorem keepsCoherent_macSetup :
    KeepsCoherent (do
      writeAll macEnable
      enc28j60WriteOp .bitFieldSet Reg.macon3 (0x20 ||| 0x10 ||| 0x02 ||| 0x01)) := by
  intro s h
  rw [wp_bind]
  have htable : wpBank (writeAll ([(Reg.macon1, 0x01 ||| 0x08 ||| 0x04)] ++ [(Reg.macon2, 0x00)]))
      (fun _ t ↦ t.At Reg.macon2) s := wp_writeAll h rfl
  refine wp_mono htable fun _ t ht ↦ ⟨?_, ?_⟩
  · intro addr haddr
    have heq : addr = Reg.macon3 := (Option.some.inj haddr).symm
    rw [heq]
    exact ht.2
  · rintro r u rfl
    exact ht.coherent

theorem keepsCoherent_configure (macaddr : Fin 6 → UInt8) :
    KeepsCoherent (configure macaddr) := by
  have hnext : KeepsCoherent (drv (.setNext rxstartInit)) :=
    keepsCoherent_drv rfl fun s r t hst ↦ by rw [show t = s from hst]; exact ⟨rfl, rfl⟩
  have haddress : sparesEcon1 (macAddress macaddr) = true := by
    have hregs : (macAddress macaddr).map Prod.fst =
        [Reg.maadr5, Reg.maadr4, Reg.maadr3, Reg.maadr2, Reg.maadr1, Reg.maadr0] := rfl
    rw [sparesEcon1, hregs]
    rfl
  refine .bind hnext fun _ ↦ .bind (keepsCoherent_writeAll rfl) fun _ ↦ ?_
  refine .bind (keepsCoherent_writeAll rfl) fun _ ↦ ?_
  refine .bind_bind keepsCoherent_macSetup fun _ ↦ ?_
  refine .bind (keepsCoherent_writeAll rfl) fun _ ↦
    .bind (keepsCoherent_writeAll haddress) fun _ ↦ ?_
  refine .bind (keepsCoherent_phyWrite _ _) fun _ ↦ .bind (keepsCoherent_phyWrite _ _) fun _ ↦ ?_
  refine .bind (keepsCoherent_setBank _) fun _ ↦ ?_
  refine .bind (keepsCoherent_clearBits (by decide) (by decide)) fun _ ↦ ?_
  refine .bind (keepsCoherent_setBits (by decide) (by decide)) fun _ ↦ ?_
  exact .bind (keepsCoherent_read _) fun _ ↦ .pure _

/-- **`ENC28J60_Init` makes the copy coherent**, from any state whatsoever. -/
theorem wp_init (macaddr : Fin 6 → UInt8) (s : BankState) :
    wpBank (enc28j60Init macaddr) (fun _ t ↦ t.Coherent) s := by
  rw [wpBank, enc28j60Init, wp_bind, wp_drv]
  refine ⟨meetsRegister_of_none rfl, ?_⟩
  rintro - t rfl
  rw [wp_bind, wp_drv]
  refine ⟨meetsRegister_of_none rfl, ?_⟩
  rintro - t rfl
  rw [wp_bind]
  have hzero : (0 : UInt8) &&& 0x03 = 0 := by decide
  refine wp_mono (wp_clkrdyWait_of_reset hzero) fun ready t ht ↦ ?_
  exact Keeps.ite (keepsCoherent_configure macaddr) (.pure 1) t ht

theorem keepsCoherent_init (macaddr : Fin 6 → UInt8) : KeepsCoherent (enc28j60Init macaddr) :=
  fun s _ ↦ wp_init macaddr s

theorem keepsCoherent_sendPoll : KeepsCoherent sendWait.sendPoll := by
  refine .bind (keepsCoherent_read _) fun _ ↦ .bind (keepsCoherent_read _) fun _ ↦ ?_
  refine .bind (keepsCoherent_read _) fun _ ↦ .bind (.ite ?_ (.pure ())) fun _ ↦ .pure _
  exact .bind (keepsCoherent_clearBits (by decide) (by decide)) fun _ ↦
    keepsCoherent_clearBits (by decide) (by decide)

theorem keepsCoherent_sendWait (rounds : ℕ) : KeepsCoherent (sendWait rounds) := by
  induction rounds with
  | zero => exact .bind keepsCoherent_sendPoll fun _ ↦ .pure _
  | succ rounds ih => exact .bind keepsCoherent_sendPoll fun _ ↦ .ite ih (.pure _)

theorem keepsCoherent_transmit (len : UInt32) (packet : ℕ → UInt8) :
    KeepsCoherent (transmit len packet) := by
  refine .bind (keepsCoherent_setBits (by decide) (by decide)) fun _ ↦ ?_
  refine .bind (keepsCoherent_clearBits (by decide) (by decide)) fun _ ↦ ?_
  refine .bind (keepsCoherent_write (by decide)) fun _ ↦ ?_
  refine .bind (keepsCoherent_write (by decide)) fun _ ↦ ?_
  refine .bind (keepsCoherent_write (by decide)) fun _ ↦ ?_
  refine .bind (keepsCoherent_write (by decide)) fun _ ↦ ?_
  refine .bind (keepsCoherent_clearBits (by decide) (by decide)) fun _ ↦ ?_
  refine .bind (keepsCoherent_writeOp rfl fun _ ↦ rfl) fun _ ↦ ?_
  refine .bind (keepsCoherent_drv rfl fun s r t hst ↦ ?_) fun _ ↦ ?_
  · rw [show t = s from hst]
    exact ⟨rfl, rfl⟩
  refine .bind (keepsCoherent_setBits (by decide) (by decide)) fun _ ↦ ?_
  refine .bind (keepsCoherent_read _) fun _ ↦ .ite ?_ (.pure ())
  exact keepsCoherent_clearBits (by decide) (by decide)

/-- The operations that touch neither the copy nor the bus. -/
theorem keepsCoherent_quiet {o : DrvOp} (hreg : bankedRegister o = none)
    (hstep : ∀ s r t, BankState.step s ⟨o, r⟩ t → t = s) : KeepsCoherent (drv o) :=
  keepsCoherent_drv hreg fun s r t hst ↦ by rw [hstep s r t hst]; exact ⟨rfl, rfl⟩

theorem keepsCoherent_packetSend (len : UInt32) (packet : ℕ → UInt8) :
    KeepsCoherent (enc28j60PacketSend len packet) := by
  refine .bind (keepsCoherent_quiet rfl fun _ _ _ h ↦ h) fun _ ↦ .ite ?_ (.pure ())
  refine .bind ?_ fun _ ↦ keepsCoherent_quiet rfl fun _ _ _ h ↦ h
  exact .bind (keepsCoherent_sendWait 200) fun _ ↦
    .ite (keepsCoherent_transmit len packet) (.pure ())

theorem keepsCoherent_readStatus : KeepsCoherent readStatus :=
  .bind (keepsCoherent_read _) fun _ ↦ .bind (keepsCoherent_read _) fun _ ↦
    .bind (keepsCoherent_read _) fun _ ↦ .pure ()

theorem keepsCoherent_readOp_buffer : KeepsCoherent (enc28j60ReadOp .readBufMem 0) :=
  keepsCoherent_quiet rfl fun _ _ _ h ↦ h

theorem keepsCoherent_receiveFrame (maxlen next : UInt32) :
    KeepsCoherent (receiveFrame maxlen next) := by
  refine .bind keepsCoherent_readOp_buffer fun _ ↦ .bind keepsCoherent_readOp_buffer fun _ ↦ ?_
  refine .bind keepsCoherent_readOp_buffer fun _ ↦ .bind keepsCoherent_readOp_buffer fun _ ↦ ?_
  refine .bind (.ite (.pure _) ?_) fun _ ↦ ?_
  · exact .bind (keepsCoherent_quiet rfl fun _ _ _ h ↦ h) fun _ ↦ .pure _
  refine .bind (keepsCoherent_write (by decide)) fun _ ↦ ?_
  refine .bind (keepsCoherent_write (by decide)) fun _ ↦ ?_
  exact .bind (keepsCoherent_setBits (by decide) (by decide)) fun _ ↦ .pure _

theorem keepsCoherent_receivePending (maxlen : UInt32) : KeepsCoherent (receivePending maxlen) := by
  refine .bind (keepsCoherent_quiet rfl fun _ _ _ h ↦ h) fun cur ↦ ?_
  refine .bind (keepsCoherent_write (by decide)) fun _ ↦ ?_
  refine .bind (keepsCoherent_write (by decide)) fun _ ↦ ?_
  refine .bind (keepsCoherent_quiet rfl fun _ _ _ h ↦ h) fun _ ↦ ?_
  refine .bind keepsCoherent_readOp_buffer fun _ ↦ ?_
  refine .bind (keepsCoherent_quiet rfl fun _ _ _ h ↦ h) fun _ ↦ ?_
  refine .bind keepsCoherent_readOp_buffer fun _ ↦ ?_
  refine .bind (keepsCoherent_quiet rfl fun _ _ _ h ↦ h) fun _ ↦ .ite ?_ ?_
  · exact .bind keepsCoherent_readStatus fun _ ↦ .bind (keepsCoherent_init _) fun _ ↦
      .bind keepsCoherent_readStatus fun _ ↦ .pure _
  · exact keepsCoherent_receiveFrame maxlen _

/-- **The four registers `ENC28J60_Packet_Receive` reads first** repair the copy: the first three
are read in bank 0, which every bank has, and `EPKTCNT` is in bank 1, so that it is selected
anew. -/
theorem wp_receiveLocked_any (maxlen : UInt32) (s : BankState) :
    wpBank (receiveLocked maxlen) (fun _ t ↦ t.Coherent) s := by
  rw [wpBank, receiveLocked, wp_bind]
  refine wp_mono (wp_readCommon (by decide) s) fun _ t _ ↦ ?_
  rw [wp_bind]
  refine wp_mono (wp_readCommon (by decide) t) fun _ u _ ↦ ?_
  rw [wp_bind]
  refine wp_mono (wp_readCommon (by decide) u) fun _ v hv ↦ ?_
  have hzero : v.bank = 0 := hv
  rw [wp_bind]
  have hpktcnt : wpBank (enc28j60Read Reg.epktcnt) (fun _ w ↦ w.At Reg.epktcnt) v :=
    wp_read_of_setBank (wp_setBank_of_ne (by rw [hzero]; decide))
  refine wp_mono hpktcnt fun _ w hw ↦ ?_
  refine Keeps.ite (.bind (.ite ?_ (.pure ())) fun _ ↦ .pure _) (.ite ?_ (.pure _)) w hw.coherent
  · exact .bind (keepsCoherent_init _) fun _ ↦ keepsCoherent_readStatus
  · exact keepsCoherent_receivePending maxlen

theorem keepsCoherent_packetReceive (maxlen : UInt32) :
    KeepsCoherent (enc28j60PacketReceive maxlen) := by
  refine .bind (keepsCoherent_quiet rfl fun _ _ _ h ↦ h) fun _ ↦ .ite ?_ (.pure _)
  refine .bind (fun s _ ↦ wp_receiveLocked_any maxlen s) fun _ ↦ ?_
  exact .bind (keepsCoherent_quiet rfl fun _ _ _ h ↦ h) fun _ ↦ .pure _

/-! ### Runs -/

/-- A call into the driver. -/
inductive DrvCall
  | init (macaddr : Fin 6 → UInt8)
  | packetSend (len : UInt32) (packet : ℕ → UInt8)
  | packetReceive (maxlen : UInt32)
  | phyWrite (addr : UInt8) (data : UInt32)

/-- The program of a call, whose result is dropped. -/
def DrvCall.program : DrvCall → Driver Unit
  | init macaddr => do
    let _ ← enc28j60Init macaddr
    pure ()
  | packetSend len packet => enc28j60PacketSend len packet
  | packetReceive maxlen => do
    let _ ← enc28j60PacketReceive maxlen
    pure ()
  | phyWrite addr data => enc28j60PhyWrite addr data

/-- Calls one after the other. -/
def runCalls : List DrvCall → Driver Unit
  | [] => pure ()
  | c :: cs => do
    c.program
    runCalls cs

theorem keepsCoherent_program (c : DrvCall) : KeepsCoherent c.program := by
  cases c with
  | init macaddr => exact .bind (keepsCoherent_init macaddr) fun _ ↦ .pure ()
  | packetSend len packet => exact keepsCoherent_packetSend len packet
  | packetReceive maxlen => exact .bind (keepsCoherent_packetReceive maxlen) fun _ ↦ .pure ()
  | phyWrite addr data => exact keepsCoherent_phyWrite addr data

theorem keepsCoherent_runCalls (cs : List DrvCall) : KeepsCoherent (runCalls cs) := by
  induction cs with
  | nil => exact .pure ()
  | cons c cs ih => exact .bind (keepsCoherent_program c) fun _ ↦ ih

/-- **Every transaction meets its register.** In every run of calls from power-up, whatever the
controller answers, a transaction on a banked register is made while `ECON1.BSEL` is the bank the
register's constant names. And `ENC28J60_Set_Bank`, wherever a run calls it, changes no other bit of
`ECON1`. -/
theorem registers_met :
    (∀ cs tr o k s, Steps BankState.step (runCalls cs) .powerUp tr (.call o k) s →
      meetsRegister s o) ∧
    ∀ bank s tr t, Returns BankState.step (enc28j60SetBank bank) s tr () t →
      t.econ1 &&& 0xFC = s.econ1 &&& 0xFC := by
  constructor
  · intro cs tr o k s hrun
    have hpower : BankState.powerUp.Coherent := by decide
    exact ok_of_wp (keepsCoherent_runCalls cs .powerUp hpower) hrun
  · intro bank s tr t hrun
    exact wp_of_steps wp_setBank_other_bits hrun

/-- The law at a run that changes the bank: the first register `ENC28J60_PHY_Write` writes. -/
theorem registers_met_phyWrite :
    meetsRegister ⟨0x40, 0x02⟩ (.writeOp .writeCtrlReg Reg.miregadr Reg.phcon1) := by
  -- the copy is read, `BSEL` is cleared and set, and the copy follows
  have hrun : ∃ tr k, Steps BankState.step (runCalls [.phyWrite Reg.phcon1 0x0100]) .powerUp tr
      (.call (.writeOp .writeCtrlReg Reg.miregadr Reg.phcon1) k) ⟨0x40, 0x02⟩ := by
    exact ⟨_, _, .call ⟨rfl, rfl⟩ (.call (r := ()) rfl (.call (r := ()) rfl
      (.call (r := ()) rfl (.refl _ _))))⟩
  obtain ⟨tr, k, hrun⟩ := hrun
  exact registers_met.1 _ _ _ _ _ hrun

end YHAudioLink
