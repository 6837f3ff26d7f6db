import YHAudioLink.Foundation.Runs
import YHAudioLink.Kernel.Queue

/-!
# Mailboxes of the stack

The mailbox functions of `sys_arch.c`, which give the stack its mailboxes out of the kernel's
queues. A `sys_mbox_t` is a pointer to a descriptor, and every function but `sys_mbox_new` and
`sys_mbox_set_invalid` reads through it without a check, `sys_mbox_valid` included: what such a read
comes to when the pointer is null is part of the model (`Halt`).

A null message cannot be told from a pend that timed out, so the functions that post put the address
of `pvNullPointer` in its place and the function that fetches takes it back. That address is a
parameter here, of which nothing is known but that it is not null.
-/

namespace YHAudioLink

open Runs

/-! ### The functions -/

/-- The address of an object. -/
abbrev ObjAddr : Type := {p : VoidPtr // p ≠ 0}

/-- A `sys_mbox_t`: null, a pointer to nothing usable (not yet assigned, or given back), or a
pointer to a descriptor with its queue. -/
inductive SysMbox
  | null
  | wild
  | descr (pQ : OsQ)

/-- Why a call does not return: it waits, or it reads through a pointer it must not read through. -/
inductive Halt
  | waits | nullPointer | wildPointer
  deriving DecidableEq

/-- `ERR_OK`. -/
abbrev errOk : ℤ := 0

/-- `ERR_MEM`. -/
abbrev errMem : ℤ := -1

/-- `MAX_QUEUE_ENTRIES`. -/
abbrev maxQueueEntries : ℤ := 20

/-- `SYS_ARCH_TIMEOUT`. -/
abbrev sysArchTimeout : UInt32 := 0xffffffff

/-- `OS_TICKS_PER_SEC`. -/
abbrev osTicksPerSec : UInt32 := 200

/-- `(*mbox)->pQ`. -/
def SysMbox.pQ : SysMbox → Except Halt OsQ
  | null => .error .nullPointer
  | wild => .error .wildPointer
  | descr q => .ok q

/-- `sys_mbox_new`, where `memory` and `event` say whether the heap and the kernel have one left.
The descriptor is cleared before the pointer is checked. -/
def sysMboxNew (size : ℤ) (memory event : Bool) : Except Halt (ℤ × SysMbox) :=
  if memory = false then .error .nullPointer
  else
    let size := if size > maxQueueEntries then maxQueueEntries else size
    if event then .ok (errOk, .descr (osqCreate (size % 65536).toNat))
    else .ok (errMem, .wild)

/-- `sys_mbox_free`: the queue is deleted, the descriptor given back, the pointer cleared. -/
def sysMboxFree (mbox : SysMbox) : Except Halt SysMbox := do
  let _ ← mbox.pQ
  pure .null

/-- What is put into a queue for a message. -/
def encodeMsg (pvNullPointer : ObjAddr) (msg : VoidPtr) : VoidPtr :=
  if msg = 0 then pvNullPointer.1 else msg

/-- What is made of a message taken out of a queue. -/
def decodeMsg (pvNullPointer : ObjAddr) (temp : VoidPtr) : VoidPtr :=
  if temp = pvNullPointer.1 then 0 else temp

/-- `sys_mbox_post`, which tries until the queue has room. -/
def sysMboxPost (pvNullPointer : ObjAddr) (mbox : SysMbox) (msg : VoidPtr) :
    Except Halt SysMbox := do
  let q ← mbox.pQ
  match osqPost q (encodeMsg pvNullPointer msg) with
  | (.none, q') => pure (.descr q')
  | _ => .error .waits

/-- `sys_mbox_trypost`. -/
def sysMboxTrypost (pvNullPointer : ObjAddr) (mbox : SysMbox) (msg : VoidPtr) :
    Except Halt (ℤ × SysMbox) := do
  let q ← mbox.pQ
  match osqPost q (encodeMsg pvNullPointer msg) with
  | (.none, q') => pure (errOk, .descr q')
  | (_, q') => pure (errMem, .descr q')

/-- A timeout of the stack, in milliseconds, in ticks of the kernel: at least one tick, and 0 where
the stack asks for no timeout. The kernel takes 16 bits of it. -/
def ucosTimeout (timeout : UInt32) : UInt16 :=
  if timeout ≠ 0 then
    let ticks := timeout * osTicksPerSec / 1000
    (if ticks < 1 then 1 else ticks).toUInt16
  else 0

/-- The time a successful fetch took, in milliseconds, between two readings of the clock. -/
def fetchTime (start stop : UInt32) : UInt32 :=
  (if stop > start then stop - start else 0xffffffff - start + stop) * 1000 / osTicksPerSec + 1

/-- What `sys_arch_mbox_fetch` comes to: what it returns, what it stores into `*msg` where `msg` is
not null, the error of the pend, and the mailbox. -/
structure Fetched where
  ret : UInt32
  msg : VoidPtr
  ucErr : OsErr
  mbox : SysMbox

/-- `sys_arch_mbox_fetch`, between the readings `start` and `stop` of the clock. -/
def sysArchMboxFetch (pvNullPointer : ObjAddr) (mbox : SysMbox) (timeout start stop : UInt32) :
    Except Halt Fetched := do
  let q ← mbox.pQ
  match osqPend q (ucosTimeout timeout) with
  | none => .error .waits
  | some (temp, ucErr, q') =>
    pure ⟨if ucErr = .timeout then sysArchTimeout else fetchTime start stop,
      decodeMsg pvNullPointer temp, ucErr, .descr q'⟩

/-- `sys_mbox_valid`. -/
def sysMboxValid (mbox : SysMbox) : Except Halt ℤ := do
  let q ← mbox.pQ
  let (ucErr, qData) := osqQuery q
  pure (if ucErr.code < 2 ∧ qData.osnMsgs < qData.osqSize then 1 else 0)

/-- `sys_mbox_set_invalid`. -/
def sysMboxSetInvalid : SysMbox := .null

/-- **`sys_mbox_valid` is a question about room.** -/
theorem sysMboxValid_descr (q : OsQ) :
    sysMboxValid (.descr q) = .ok (if q.msgs.length < q.osqSize then 1 else 0) := by
  simp [sysMboxValid, SysMbox.pQ, osqQuery, OsErr.code, bind, Except.bind, pure, Except.pure]

/-- What is posted is what is fetched, but for the address of `pvNullPointer` itself. -/
theorem decodeMsg_encodeMsg {pvNullPointer : ObjAddr} {msg : VoidPtr} (h : msg ≠ pvNullPointer.1) :
    decodeMsg pvNullPointer (encodeMsg pvNullPointer msg) = msg := by
  rw [encodeMsg]
  split
  · next hzero => rw [decodeMsg, if_pos rfl, hzero]
  · rw [decodeMsg, if_neg h]

/-- A fetch that got a message does not return the code of one that timed out. -/
theorem fetchTime_ne_timeout (start stop : UInt32) : fetchTime start stop ≠ sysArchTimeout := by
  intro h
  have hval := congrArg UInt32.toNat h
  have hdiv := UInt32.toNat_lt
    ((if stop > start then stop - start else 0xffffffff - start + stop) * 1000)
  have hticks : osTicksPerSec.toNat = 200 := rfl
  have htimeout : sysArchTimeout.toNat = 4294967295 := rfl
  rw [fetchTime, UInt32.toNat_add, UInt32.toNat_div, hticks, htimeout] at hval
  have hone : UInt32.toNat 1 = 1 := rfl
  omega

/-! ### What the calls come to -/

section

variable {pv : ObjAddr} {mbox : SysMbox}

theorem SysMbox.pQ_ok {q : OsQ} (h : mbox.pQ = .ok q) : mbox = .descr q := by
  cases mbox with
  | descr p => rw [Except.ok.inj h]
  | _ => cases h

/-- The rest of a call is reached through a descriptor only. -/
theorem pQ_bind_ok {β : Type} {f : OsQ → Except Halt β} {b : β} (h : (mbox.pQ >>= f) = .ok b) :
    ∃ q, mbox = .descr q ∧ f q = .ok b := by
  cases hq : mbox.pQ with
  | error e =>
    rw [hq] at h
    cases h
  | ok q =>
    rw [hq] at h
    exact ⟨q, SysMbox.pQ_ok hq, h⟩

/-- **`sys_mbox_new`** makes an empty mailbox, or fails and leaves a pointer to what it gave
back. -/
theorem sysMboxNew_ok {size : ℤ} {memory event : Bool} {err : ℤ}
    (h : sysMboxNew size memory event = .ok (err, mbox)) :
    (err = errOk ∧ ∃ q, mbox = .descr q ∧ q.msgs = []) ∨ (err = errMem ∧ mbox = .wild) := by
  rw [sysMboxNew] at h
  split at h
  · cases h
  · dsimp only at h
    split at h
    · obtain ⟨rfl, rfl⟩ := Prod.mk.inj (Except.ok.inj h)
      exact .inl ⟨rfl, _, rfl, rfl⟩
    · obtain ⟨rfl, rfl⟩ := Prod.mk.inj (Except.ok.inj h)
      exact .inr ⟨rfl, rfl⟩

theorem sysMboxFree_ok {mbox' : SysMbox} (h : sysMboxFree mbox = .ok mbox') :
    (∃ q, mbox = .descr q) ∧ mbox' = .null := by
  obtain ⟨q, hq, hrest⟩ := pQ_bind_ok h
  exact ⟨⟨q, hq⟩, (Except.ok.inj hrest).symm⟩

/-- **`sys_mbox_post`** puts the message behind the others. -/
theorem sysMboxPost_ok {msg : VoidPtr} {mbox' : SysMbox} (h : sysMboxPost pv mbox msg = .ok mbox') :
    ∃ q q', mbox = .descr q ∧ mbox' = .descr q' ∧ q'.msgs = q.msgs ++ [encodeMsg pv msg] := by
  obtain ⟨q, hq, hrest⟩ := pQ_bind_ok h
  by_cases hroom : q.msgs.length < q.osqSize
  · obtain ⟨herr, hmsgs⟩ : (osqPost q (encodeMsg pv msg)).1 = .none ∧
        (osqPost q (encodeMsg pv msg)).2.msgs = q.msgs ++ [encodeMsg pv msg] :=
      osqPost_of_lt hroom
    refine ⟨q, (osqPost q (encodeMsg pv msg)).2, hq, ?_, hmsgs⟩
    split at hrest
    · next q' heq =>
      rw [heq]
      exact (Except.ok.inj hrest).symm
    · cases hrest
  · rw [osqPost_of_full hroom] at hrest
    cases hrest

/-- **`sys_mbox_trypost`** does the same, or leaves a full mailbox as it is. -/
theorem sysMboxTrypost_ok {msg : VoidPtr} {err : ℤ} {mbox' : SysMbox}
    (h : sysMboxTrypost pv mbox msg = .ok (err, mbox')) :
    ∃ q q', mbox = .descr q ∧ mbox' = .descr q' ∧
      (err = errOk ∧ q'.msgs = q.msgs ++ [encodeMsg pv msg] ∨ err = errMem ∧ q' = q) := by
  obtain ⟨q, hq, hrest⟩ := pQ_bind_ok h
  by_cases hroom : q.msgs.length < q.osqSize
  · obtain ⟨herr, hmsgs⟩ : (osqPost q (encodeMsg pv msg)).1 = .none ∧
        (osqPost q (encodeMsg pv msg)).2.msgs = q.msgs ++ [encodeMsg pv msg] :=
      osqPost_of_lt hroom
    refine ⟨q, (osqPost q (encodeMsg pv msg)).2, hq, ?_⟩
    split at hrest
    · next q' heq =>
      obtain ⟨rfl, rfl⟩ := Prod.mk.inj (Except.ok.inj hrest)
      rw [heq] at hmsgs ⊢
      exact ⟨rfl, .inl ⟨rfl, hmsgs⟩⟩
    · next hne heq =>
      rw [heq] at herr
      exact (hne herr).elim
  · rw [osqPost_of_full hroom] at hrest
    obtain ⟨rfl, rfl⟩ := Prod.mk.inj (Except.ok.inj hrest)
    exact ⟨q, q, hq, rfl, .inr ⟨rfl, rfl⟩⟩

/-- **`sys_arch_mbox_fetch`** takes the oldest message, or times out at an empty mailbox; what it
returns tells which. -/
theorem sysArchMboxFetch_ok {timeout start stop : UInt32} {r : Fetched}
    (h : sysArchMboxFetch pv mbox timeout start stop = .ok r) :
    ∃ q q', mbox = .descr q ∧ r.mbox = .descr q' ∧
      (r.ret ≠ sysArchTimeout ∧ (∃ temp, q.msgs = temp :: q'.msgs ∧ r.msg = decodeMsg pv temp) ∨
        r.ret = sysArchTimeout ∧ q.msgs = [] ∧ q' = q) := by
  obtain ⟨q, hq, hrest⟩ := pQ_bind_ok h
  split at hrest
  · cases hrest
  · next temp ucErr q' hpend =>
    obtain rfl := (Except.ok.inj hrest)
    refine ⟨q, q', hq, rfl, ?_⟩
    rcases osqPend_cases hpend with ⟨rfl, hmsgs⟩ | ⟨rfl, hmsgs, -, rfl⟩
    · exact .inl ⟨fetchTime_ne_timeout _ _, temp, hmsgs, rfl⟩
    · exact .inr ⟨rfl, hmsgs, rfl⟩

end

/-! ### A mailbox and its calls -/

/-- Where a mailbox is in its life: before a successful `sys_mbox_new`, after it, or after the
`sys_mbox_free` or `sys_mbox_set_invalid` that ends it. -/
inductive MboxPhase
  | unborn | opened | closed
  deriving DecidableEq

/-- A mailbox with its history: the messages accepted since it was opened and those fetched. -/
structure MboxState where
  mbox : SysMbox
  phase : MboxPhase
  accepted : List VoidPtr
  fetched : List VoidPtr

/-- A call that changes the mailbox, with what it depends on besides. -/
inductive MboxOp
  | new (size : ℤ) (memory event : Bool)
  | free
  | setInvalid
  | post (msg : VoidPtr)
  | trypost (msg : VoidPtr)
  | fetch (timeout start stop : UInt32)

/-- One call; `none` where it does not return. -/
def MboxState.step (pvNullPointer : ObjAddr) (s : MboxState) : MboxOp → Option MboxState
  | .new size memory event =>
    (sysMboxNew size memory event).toOption.map fun (err, mbox) ↦
      ⟨mbox, if err = errOk then .opened else .unborn, [], []⟩
  | .free =>
    (sysMboxFree s.mbox).toOption.map fun mbox ↦ { s with mbox := mbox, phase := .closed }
  | .setInvalid => some { s with mbox := sysMboxSetInvalid, phase := .closed }
  | .post msg =>
    (sysMboxPost pvNullPointer s.mbox msg).toOption.map fun mbox ↦
      { s with mbox := mbox, accepted := s.accepted ++ [msg] }
  | .trypost msg =>
    (sysMboxTrypost pvNullPointer s.mbox msg).toOption.map fun (err, mbox) ↦
      { s with mbox := mbox, accepted := if err = errOk then s.accepted ++ [msg] else s.accepted }
  | .fetch timeout start stop =>
    (sysArchMboxFetch pvNullPointer s.mbox timeout start stop).toOption.map fun r ↦
      { s with
        mbox := r.mbox
        fetched := if r.ret = sysArchTimeout then s.fetched else s.fetched ++ [r.msg] }

/-- The posts of messages other than the address of `pvNullPointer`. -/
def plainPosts (pvNullPointer : ObjAddr) : MboxState → MboxOp → Bool
  | _, .post msg | _, .trypost msg => msg ≠ pvNullPointer.1
  | _, _ => true

namespace MboxState

/-- A mailbox has a descriptor exactly while it is open. -/
def Descriptor (s : MboxState) : Prop := (∃ q, s.mbox = .descr q) ↔ s.phase = .opened

/-- **Nothing lost, nothing twice**: the messages accepted are those fetched and then those waiting
in the queue, in this order. -/
def Fifo (pv : ObjAddr) (s : MboxState) : Prop :=
  ∃ waiting, s.accepted = s.fetched ++ waiting ∧
    ∀ q, s.mbox = .descr q → q.msgs.map (decodeMsg pv) = waiting

/-- What `sys_mbox_valid` should say: 1 while the mailbox is open, 0 when it is closed. -/
def ValidRight (s : MboxState) : Prop :=
  (s.phase = .opened → sysMboxValid s.mbox = .ok 1) ∧
    (s.phase = .closed → sysMboxValid s.mbox = .ok 0)

/-- There is a descriptor, and its queue is not full. -/
def HasRoom (s : MboxState) : Prop := ∃ q, s.mbox = .descr q ∧ q.msgs.length < q.osqSize

end MboxState

section

variable {pv : ObjAddr} {s t : MboxState} {op : MboxOp}

theorem toOption_map_eq_some {α β : Type} {x : Except Halt α} {f : α → β} {b : β}
    (h : x.toOption.map f = some b) : ∃ a, x = .ok a ∧ f a = b := by
  cases x with
  | error e => cases h
  | ok a => exact ⟨a, rfl, Option.some.inj h⟩

/-- Outside its life a mailbox has no descriptor. -/
theorem descriptor_of_not (hmbox : ∀ q, s.mbox ≠ .descr q) (hphase : s.phase ≠ .opened) :
    s.Descriptor := by
  refine ⟨?_, fun h ↦ absurd h hphase⟩
  rintro ⟨q, hq⟩
  exact absurd hq (hmbox q)

/-- **Every call keeps the descriptor with the phase.** -/
theorem descriptor_step (h : s.Descriptor) (hst : s.step pv op = some t) : t.Descriptor := by
  cases op with
  | new size memory event =>
    obtain ⟨⟨err, mbox⟩, hnew, rfl⟩ := toOption_map_eq_some hst
    rcases sysMboxNew_ok hnew with ⟨rfl, q, rfl, -⟩ | ⟨rfl, rfl⟩
    · exact ⟨fun _ ↦ rfl, fun _ ↦ ⟨q, rfl⟩⟩
    · exact descriptor_of_not (fun q hq ↦ by cases hq) fun hphase ↦ by cases hphase
  | free =>
    obtain ⟨mbox, hfree, rfl⟩ := toOption_map_eq_some hst
    obtain ⟨-, rfl⟩ := sysMboxFree_ok hfree
    exact descriptor_of_not (fun q hq ↦ by cases hq) fun hphase ↦ by cases hphase
  | setInvalid =>
    obtain rfl := Option.some.inj hst
    exact descriptor_of_not (fun q hq ↦ by cases hq) fun hphase ↦ by cases hphase
  | post msg =>
    obtain ⟨mbox, hpost, rfl⟩ := toOption_map_eq_some hst
    obtain ⟨q, q', hq, rfl, -⟩ := sysMboxPost_ok hpost
    exact ⟨fun _ ↦ h.1 ⟨q, hq⟩, fun _ ↦ ⟨q', rfl⟩⟩
  | trypost msg =>
    obtain ⟨⟨err, mbox⟩, hpost, rfl⟩ := toOption_map_eq_some hst
    obtain ⟨q, q', hq, rfl, -⟩ := sysMboxTrypost_ok hpost
    exact ⟨fun _ ↦ h.1 ⟨q, hq⟩, fun _ ↦ ⟨q', rfl⟩⟩
  | fetch timeout start stop =>
    obtain ⟨r, hfetch, rfl⟩ := toOption_map_eq_some hst
    obtain ⟨q, q', hq, hmbox, -⟩ := sysArchMboxFetch_ok hfetch
    exact ⟨fun _ ↦ h.1 ⟨q, hq⟩, fun _ ↦ ⟨q', hmbox⟩⟩

/-- A message put behind the others waits behind them. -/
theorem fifo_accept {q q' : OsQ} {msg : VoidPtr} (h : s.Fifo pv) (hq : s.mbox = .descr q)
    (hq' : q'.msgs = q.msgs ++ [encodeMsg pv msg]) (hmsg : msg ≠ pv.1) :
    MboxState.Fifo pv { s with mbox := .descr q', accepted := s.accepted ++ [msg] } := by
  obtain ⟨waiting, hacc, hwaiting⟩ := h
  refine ⟨waiting ++ [msg], ?_, ?_⟩
  · show s.accepted ++ [msg] = s.fetched ++ (waiting ++ [msg])
    rw [hacc, List.append_assoc]
  · rintro q'' heq
    obtain rfl := SysMbox.descr.inj heq
    rw [hq', List.map_append, hwaiting q hq, List.map_singleton, decodeMsg_encodeMsg hmsg]

/-- **Every call keeps the messages in order.** -/
theorem fifo_step (h : s.Fifo pv) (hplain : plainPosts pv s op = true)
    (hst : s.step pv op = some t) : t.Fifo pv := by
  have hclosed : ∀ {phase : MboxPhase},
      MboxState.Fifo pv { s with mbox := .null, phase := phase } := by
    obtain ⟨waiting, hacc, -⟩ := h
    exact ⟨waiting, hacc, fun q hq ↦ SysMbox.noConfusion hq⟩
  cases op with
  | new size memory event =>
    obtain ⟨⟨err, mbox⟩, hnew, rfl⟩ := toOption_map_eq_some hst
    refine ⟨[], rfl, fun q hq ↦ ?_⟩
    rcases sysMboxNew_ok hnew with ⟨rfl, q', rfl, hempty⟩ | ⟨rfl, rfl⟩
    · obtain rfl := SysMbox.descr.inj hq
      rw [hempty, List.map_nil]
    · cases hq
  | free =>
    obtain ⟨mbox, hfree, rfl⟩ := toOption_map_eq_some hst
    obtain ⟨-, rfl⟩ := sysMboxFree_ok hfree
    exact hclosed
  | setInvalid =>
    obtain rfl := Option.some.inj hst
    exact hclosed
  | post msg =>
    obtain ⟨mbox, hpost, rfl⟩ := toOption_map_eq_some hst
    obtain ⟨q, q', hq, rfl, hmsgs⟩ := sysMboxPost_ok hpost
    exact fifo_accept h hq hmsgs (by simpa [plainPosts] using hplain)
  | trypost msg =>
    obtain ⟨⟨err, mbox⟩, hpost, rfl⟩ := toOption_map_eq_some hst
    obtain ⟨q, q', hq, rfl, ⟨rfl, hmsgs⟩ | ⟨rfl, rfl⟩⟩ := sysMboxTrypost_ok hpost
    · exact fifo_accept h hq hmsgs (by simpa [plainPosts] using hplain)
    · rw [← hq]
      exact h
  | fetch timeout start stop =>
    obtain ⟨r, hfetch, rfl⟩ := toOption_map_eq_some hst
    obtain ⟨q, q', hq, hmbox, ⟨hret, temp, hmsgs, hmsg⟩ | ⟨hret, -, rfl⟩⟩ :=
      sysArchMboxFetch_ok hfetch
    · obtain ⟨waiting, hacc, hwaiting⟩ := h
      have hhead := hwaiting q hq
      rw [hmsgs, List.map_cons] at hhead
      refine ⟨q'.msgs.map (decodeMsg pv), ?_, fun q'' hq'' ↦ ?_⟩
      · rw [if_neg hret, hacc, ← hhead, hmsg, List.append_assoc, List.singleton_append]
      · rw [hmbox] at hq''
        rw [SysMbox.descr.inj hq'']
    · rw [if_pos hret, hmbox, ← hq]
      exact h

/-- **The answer of `sys_mbox_valid` is right exactly where there is room**, once there has been a
mailbox. A full mailbox is reported as closed, and a closed one is read through its null pointer. -/
theorem validRight_iff (h : s.Descriptor) : s.ValidRight ↔ s.phase = .unborn ∨ s.HasRoom := by
  constructor
  · rintro ⟨hopened, hclosed⟩
    cases hphase : s.phase with
    | unborn => exact .inl rfl
    | opened =>
      obtain ⟨q, hq⟩ := h.2 hphase
      refine .inr ⟨q, hq, ?_⟩
      by_contra hfull
      have hvalid := hopened hphase
      rw [hq, sysMboxValid_descr, if_neg hfull] at hvalid
      exact absurd (Except.ok.inj hvalid) (by decide)
    | closed =>
      have hvalid := hclosed hphase
      cases hmbox : s.mbox with
      | descr q =>
        have hopen := h.1 ⟨q, hmbox⟩
        rw [hphase] at hopen
        cases hopen
      | _ =>
        rw [hmbox] at hvalid
        cases hvalid
  · intro hroom
    constructor
    · intro hphase
      rcases hroom with hunborn | ⟨q, hq, hlt⟩
      · rw [hphase] at hunborn
        cases hunborn
      · rw [hq, sysMboxValid_descr, if_pos hlt]
    · intro hphase
      rcases hroom with hunborn | ⟨q, hq, -⟩
      · rw [hphase] at hunborn
        cases hunborn
      · have hopen := h.1 ⟨q, hq⟩
        rw [hphase] at hopen
        cases hopen

end

/-! ### Runs -/

/-- Before the first call: no mailbox, and whatever the variable holds. -/
def MboxState.Initial (s : MboxState) : Prop :=
  s.phase = .unborn ∧ (∀ q, s.mbox ≠ .descr q) ∧ s.accepted = [] ∧ s.fetched = []

/-- **The life of a mailbox.** In every state reached by every sequence of calls, `sys_mbox_valid`
says 1 in the life of the mailbox, and 0 after its end without reading through a null pointer, if
and only if there is a descriptor and its queue is not full. And in every state reached by calls
that do not post the address of `pvNullPointer` itself, the messages accepted, null included, are
fetched in the order of posting, each once: those not yet fetched are those waiting in the queue. -/
theorem mailbox_lifecycle_iff (pvNullPointer : ObjAddr) :
    (∀ s, Reachable MboxState.Initial (MboxState.step pvNullPointer) everyStep s →
      s.phase ≠ .unborn → (s.ValidRight ↔ s.HasRoom)) ∧
    ∀ s, Reachable MboxState.Initial (MboxState.step pvNullPointer) (plainPosts pvNullPointer) s →
      s.Fifo pvNullPointer := by
  constructor
  · intro s hs hborn
    have hdescr : s.Descriptor := by
      refine hs.invariant ?_ fun _ _ _ h _ hst ↦ descriptor_step h hst
      rintro r ⟨hphase, hmbox, -⟩
      exact descriptor_of_not hmbox (by rw [hphase]; decide)
    exact (validRight_iff hdescr).trans (or_iff_right hborn)
  · intro s hs
    refine hs.invariant ?_ fun _ _ _ h hok hst ↦ fifo_step h hok hst
    rintro r ⟨-, hmbox, hacc, hfetched⟩
    exact ⟨[], by rw [hacc, hfetched, List.append_nil], fun q hq ↦ absurd hq (hmbox q)⟩

/-- A pointer not yet assigned. -/
def MboxState.start : MboxState := ⟨.wild, .unborn, [], []⟩

theorem initial_start : MboxState.start.Initial := by
  refine ⟨rfl, fun q hq ↦ ?_, rfl, rfl⟩
  cases hq

/-- The law at a run: a null message and another are posted and the first is fetched. -/
theorem mailbox_lifecycle_iff_null :
    let s : MboxState := ⟨.descr ⟨2, [5], by decide⟩, .opened, [0, 5], [0]⟩
    (s.ValidRight ↔ s.HasRoom) ∧ s.Fifo ⟨1, by decide⟩ := by
  intro s
  have hevery : execOk (MboxState.step ⟨1, by decide⟩) everyStep .start
      [.new 2 true true, .post 0, .trypost 5, .fetch 0 0 1] = some s := rfl
  have hplain : execOk (MboxState.step ⟨1, by decide⟩) (plainPosts ⟨1, by decide⟩) .start
      [.new 2 true true, .post 0, .trypost 5, .fetch 0 0 1] = some s := rfl
  have hlaw := mailbox_lifecycle_iff ⟨1, by decide⟩
  exact ⟨hlaw.1 s (.of_execOk (.init initial_start) hevery) (by decide),
    hlaw.2 s (.of_execOk (.init initial_start) hplain)⟩

/-- **A full mailbox is reported invalid**: after one post to a mailbox for one message
`sys_mbox_valid` returns 0, so what drains a mailbox only if it is valid leaves it. -/
theorem not_mailbox_lifecycle :
    ¬ ∀ s, Reachable MboxState.Initial (MboxState.step ⟨1, by decide⟩) everyStep s →
      s.ValidRight ∧ s.Fifo ⟨1, by decide⟩ := by
  intro h
  have hexec : execOk (MboxState.step ⟨1, by decide⟩) everyStep .start
      [.new 1 true true, .post 5] =
        some ⟨.descr ⟨1, [5], by decide⟩, .opened, [5], []⟩ := rfl
  have hvalid := (h _ (.of_execOk (.init initial_start) hexec)).1.1 rfl
  rw [sysMboxValid_descr] at hvalid
  exact absurd (Except.ok.inj hvalid) (by decide)

end YHAudioLink
