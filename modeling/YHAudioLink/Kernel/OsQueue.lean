import YHAudioLink.Foundation.DataRefinement
import YHAudioLink.Foundation.Window
import YHAudioLink.Kernel.Queue

/-!
# The queue control block

`OS_Q` of `os_q.c`: a circular array of messages with two pointers into it. `OSQIn` is where the
next message goes and `OSQOut` the oldest one; each goes back to `OSQStart` when it reaches
`OSQEnd`, and `OSQEntries` tells an empty queue from a full one. The pointers are offsets from
`OSQStart` here.

What the rest of the kernel needs of it is the bounded FIFO of the queue functions, `OsQ`. The
messages are the window of `OSQEntries` cells from `OSQOut` on (`OsQcb.value`), and every sequence
of posts, at either end, accepts, flushes and queries shows what they show of the FIFO
(`osQcb_refines_fifo`). Only the parts of these functions that touch the control block are here;
waking a waiting task is the business of the kernel.
-/

namespace YHAudioLink

open Ring DataRefinement

/-- `OS_Q`: the array `OSQStart` points to, its size, the two pointers and the number of entries. -/
structure OsQcb where
  storage : ℕ → VoidPtr
  osqSize : ℕ
  osqIn : ℕ
  osqOut : ℕ
  osqEntries : ℕ

namespace OsQcb

/-- What `OSQCreate` makes of a control block. -/
def create (storage : ℕ → VoidPtr) (size : ℕ) : OsQcb := ⟨storage, size, 0, 0, 0⟩

/-- `*pq->OSQIn++ = pmsg`, with the entries and the way back to `OSQStart`. -/
def put (q : OsQcb) (pmsg : VoidPtr) : OsQcb where
  storage := Function.update q.storage q.osqIn pmsg
  osqSize := q.osqSize
  osqIn := if q.osqIn + 1 = q.osqSize then 0 else q.osqIn + 1
  osqOut := q.osqOut
  osqEntries := q.osqEntries + 1

/-- `pmsg = *pq->OSQOut++`, with the entries and the way back to `OSQStart`. -/
def take (q : OsQcb) : VoidPtr × OsQcb :=
  (q.storage q.osqOut,
    { q with
      osqEntries := q.osqEntries - 1
      osqOut := if q.osqOut + 1 = q.osqSize then 0 else q.osqOut + 1 })

/-- The end of `OSQPost`: the message, unless the queue is full. -/
def post (q : OsQcb) (pmsg : VoidPtr) : OsErr × OsQcb :=
  if q.osqEntries ≥ q.osqSize then (.qFull, q) else (.none, q.put pmsg)

/-- The end of `OSQPostFront`: the message before the others. -/
def postFront (q : OsQcb) (pmsg : VoidPtr) : OsErr × OsQcb :=
  if q.osqEntries ≥ q.osqSize then (.qFull, q)
  else
    let out := (if q.osqOut = 0 then q.osqSize else q.osqOut) - 1
    (.none, { q with
      storage := Function.update q.storage out pmsg
      osqOut := out
      osqEntries := q.osqEntries + 1 })

/-- The body of `OSQAccept`, and the beginning of `OSQPend`: the oldest message, if there is one. -/
def accept (q : OsQcb) : Option VoidPtr × OsQcb :=
  if q.osqEntries > 0 then (some q.take.1, q.take.2) else (none, q)

/-- `OSQFlush`. -/
def flush (q : OsQcb) : OsQcb := { q with osqIn := 0, osqOut := 0, osqEntries := 0 }

/-- What `OSQQuery` copies: the oldest message, the number of messages and the size. -/
def query (q : OsQcb) : VoidPtr × ℕ × ℕ :=
  (if q.osqEntries > 0 then q.storage q.osqOut else 0, q.osqEntries, q.osqSize)

/-- **A control block as its functions leave it.** The pointers stay inside the array. -/
structure Wf (q : OsQcb) : Prop where
  in_lt : q.osqIn < q.osqSize
  out_lt : q.osqOut < q.osqSize
  entries_le : q.osqEntries ≤ q.osqSize
  in_eq : q.osqIn = (q.osqOut + q.osqEntries) % q.osqSize

/-- The messages, the oldest first. -/
def msgs (q : OsQcb) : List VoidPtr := window q.osqSize q.storage q.osqOut q.osqEntries

variable {q : OsQcb}

@[simp] theorem length_msgs : q.msgs.length = q.osqEntries := length_window

/-- The FIFO the control block stands for. -/
def value (q : OsQcb) (h : q.Wf) : OsQ :=
  ⟨q.osqSize, q.msgs, by rw [length_msgs]; exact h.entries_le⟩

/-- A pointer that goes on by one, back to the start at the end. -/
theorem next_eq {size i : ℕ} (h : i < size) : (if i + 1 = size then 0 else i + 1) =
    (i + 1) % size := by
  split
  · next heq => rw [heq, Nat.mod_self]
  · next hne => rw [Nat.mod_eq_of_lt (by omega)]

theorem create_wf {storage : ℕ → VoidPtr} {size : ℕ} (h : 0 < size) : (create storage size).Wf where
  in_lt := h
  out_lt := h
  entries_le := Nat.zero_le _
  in_eq := (Nat.zero_mod size).symm

/-- **A message put behind the others.** -/
theorem put_of_lt (h : q.Wf) (hroom : q.osqEntries < q.osqSize) (pmsg : VoidPtr) :
    (q.put pmsg).Wf ∧ (q.put pmsg).msgs = q.msgs ++ [pmsg] := by
  have hnext := next_eq h.in_lt
  have hpos : 0 < q.osqSize := Nat.zero_lt_of_lt h.in_lt
  refine ⟨⟨?_, h.out_lt, hroom, ?_⟩, ?_⟩
  · show (if q.osqIn + 1 = q.osqSize then 0 else q.osqIn + 1) < q.osqSize
    rw [hnext]
    exact Nat.mod_lt _ hpos
  · show (if q.osqIn + 1 = q.osqSize then 0 else q.osqIn + 1) = (q.osqOut + (q.osqEntries + 1)) % _
    rw [hnext, h.in_eq, Nat.mod_add_mod, Nat.add_assoc]
    rfl
  · show window q.osqSize (Function.update q.storage q.osqIn pmsg) q.osqOut (q.osqEntries + 1) = _
    rw [h.in_eq, window_put_back hroom]
    rfl

/-- **The oldest message taken.** -/
theorem take_of_pos (h : q.Wf) (hpos : 0 < q.osqEntries) :
    q.take.2.Wf ∧ q.msgs = q.take.1 :: q.take.2.msgs := by
  have hnext := next_eq h.out_lt
  obtain ⟨n, hn⟩ : ∃ n, q.osqEntries = n + 1 := ⟨q.osqEntries - 1, by omega⟩
  have hle := h.entries_le
  refine ⟨⟨h.in_lt, ?_, ?_, ?_⟩, ?_⟩
  · show (if q.osqOut + 1 = q.osqSize then 0 else q.osqOut + 1) < q.osqSize
    rw [hnext]
    exact Nat.mod_lt _ (Nat.zero_lt_of_lt h.in_lt)
  · show q.osqEntries - 1 ≤ q.osqSize
    omega
  · show q.osqIn = ((if q.osqOut + 1 = q.osqSize then 0 else q.osqOut + 1) +
      (q.osqEntries - 1)) % q.osqSize
    rw [hnext, Nat.mod_add_mod, h.in_eq, hn]
    congr 1
    omega
  · show window q.osqSize q.storage q.osqOut q.osqEntries = q.storage q.osqOut ::
      window q.osqSize q.storage (if q.osqOut + 1 = q.osqSize then 0 else q.osqOut + 1)
        (q.osqEntries - 1)
    rw [hnext, hn, window_succ, Nat.mod_eq_of_lt h.out_lt, window_congr_mod (Nat.mod_mod _ _)]
    rfl

/-- **A message put before the others.** -/
theorem postFront_of_lt (h : q.Wf) (hroom : q.osqEntries < q.osqSize) (pmsg : VoidPtr) :
    (q.postFront pmsg).1 = .none ∧ (q.postFront pmsg).2.Wf ∧
      (q.postFront pmsg).2.msgs = pmsg :: q.msgs := by
  have hout := h.out_lt
  obtain ⟨out, hval, hlt, hsucc⟩ : ∃ out,
      (if q.osqOut = 0 then q.osqSize else q.osqOut) - 1 = out ∧ out < q.osqSize ∧
        (out + 1) % q.osqSize = q.osqOut % q.osqSize := by
    refine ⟨_, rfl, ?_, ?_⟩
    · split <;> omega
    · split
      · next hzero => rw [hzero, Nat.sub_add_cancel (by omega), Nat.mod_self, Nat.zero_mod]
      · next hne => rw [Nat.sub_add_cancel (by omega)]
  have hpost : q.postFront pmsg = (.none, { q with
      storage := Function.update q.storage out pmsg, osqOut := out,
      osqEntries := q.osqEntries + 1 }) := by
    rw [postFront, if_neg (Nat.not_le_of_lt hroom), hval]
  rw [hpost]
  refine ⟨rfl, ⟨h.in_lt, hlt, hroom, ?_⟩, ?_⟩
  · show q.osqIn = (out + (q.osqEntries + 1)) % q.osqSize
    rw [h.in_eq, Nat.add_mod, ← hsucc, ← Nat.add_mod, Nat.add_assoc, Nat.add_comm 1]
  · show window q.osqSize (Function.update q.storage out pmsg) out (q.osqEntries + 1) = _
    have hcell := window_put_front (m := q.storage) (v := pmsg) hroom hsucc
    rw [Nat.mod_eq_of_lt hlt] at hcell
    exact hcell

/-! ### Runs -/

/-- The calls that touch the control block. -/
inductive Op
  | post (pmsg : VoidPtr)
  | postFront (pmsg : VoidPtr)
  | accept
  | flush
  | query

/-- What they show. -/
inductive Shown
  | err (e : OsErr)
  | msg (m : Option VoidPtr)
  | data (oldest : VoidPtr) (nMsgs size : ℕ)

/-- A call. -/
def step (q : OsQcb) : Op → Option (Shown × OsQcb)
  | .post pmsg => some (.err (q.post pmsg).1, (q.post pmsg).2)
  | .postFront pmsg => some (.err (q.postFront pmsg).1, (q.postFront pmsg).2)
  | .accept => some (.msg q.accept.1, q.accept.2)
  | .flush => some (.err .none, q.flush)
  | .query => some (.data q.query.1 q.query.2.1 q.query.2.2, q)

/-- **The calls on a bounded FIFO**, a list of at most `size` messages. -/
def spec (size : ℕ) (ms : List VoidPtr) (op : Op) (r : Shown) (ms' : List VoidPtr) : Prop :=
  match op with
  | .post m => if ms.length < size then r = .err .none ∧ ms' = ms ++ [m]
      else r = .err .qFull ∧ ms' = ms
  | .postFront m => if ms.length < size then r = .err .none ∧ ms' = m :: ms
      else r = .err .qFull ∧ ms' = ms
  | .accept => r = .msg ms.head? ∧ ms' = ms.tail
  | .flush => r = .err .none ∧ ms' = []
  | .query => r = .data (ms.head?.getD 0) ms.length size ∧ ms' = ms

/-- A control block that stands for the messages of a queue of a size. -/
def Rep (size : ℕ) (q : OsQcb) (ms : List VoidPtr) : Prop :=
  q.Wf ∧ q.osqSize = size ∧ q.msgs = ms

theorem postFront_size (q : OsQcb) (pmsg : VoidPtr) :
    (q.postFront pmsg).2.osqSize = q.osqSize := by
  rw [postFront]
  split <;> rfl

/-- **One call.** -/
theorem step_refines (size : ℕ) : Refines step (spec size) (Rep size) := by
  rintro q ms op ⟨h, rfl, rfl⟩
  cases op with
  | post m =>
    by_cases hroom : q.osqEntries < q.osqSize
    · obtain ⟨hwf, hms⟩ := put_of_lt h hroom m
      have hpost : q.post m = (.none, q.put m) := if_neg (Nat.not_le_of_lt hroom)
      refine ⟨.err .none, q.put m, q.msgs ++ [m], by rw [step, hpost], ?_, hwf, rfl, hms⟩
      rw [spec, length_msgs, if_pos hroom]
      exact ⟨rfl, rfl⟩
    · have hpost : q.post m = (.qFull, q) := if_pos (Nat.not_lt.1 hroom)
      refine ⟨.err .qFull, q, q.msgs, by rw [step, hpost], ?_, h, rfl, rfl⟩
      rw [spec, length_msgs, if_neg hroom]
      exact ⟨rfl, rfl⟩
  | postFront m =>
    by_cases hroom : q.osqEntries < q.osqSize
    · obtain ⟨herr, hwf, hms⟩ := postFront_of_lt h hroom m
      refine ⟨.err .none, (q.postFront m).2, m :: q.msgs, by rw [step, herr], ?_, hwf,
        postFront_size q m, hms⟩
      rw [spec, length_msgs, if_pos hroom]
      exact ⟨rfl, rfl⟩
    · have hpost : q.postFront m = (.qFull, q) := if_pos (Nat.not_lt.1 hroom)
      refine ⟨.err .qFull, q, q.msgs, by rw [step, hpost], ?_, h, rfl, rfl⟩
      rw [spec, length_msgs, if_neg hroom]
      exact ⟨rfl, rfl⟩
  | accept =>
    by_cases hpos : 0 < q.osqEntries
    · obtain ⟨hwf, hms⟩ := take_of_pos h hpos
      refine ⟨.msg (some q.take.1), q.take.2, q.take.2.msgs, ?_, ?_, hwf, rfl, rfl⟩
      · rw [step, accept, if_pos hpos]
      · rw [spec, hms]
        exact ⟨rfl, rfl⟩
    · have hnil : q.msgs = [] := List.length_eq_zero_iff.1 (by rw [length_msgs]; omega)
      refine ⟨.msg none, q, q.msgs, ?_, ?_, h, rfl, rfl⟩
      · rw [step, accept, if_neg hpos]
      · rw [spec, hnil]
        exact ⟨rfl, rfl⟩
  | flush =>
    have hpos : 0 < q.osqSize := Nat.zero_lt_of_lt h.in_lt
    exact ⟨.err .none, q.flush, [], rfl, ⟨rfl, rfl⟩,
      ⟨hpos, hpos, Nat.zero_le _, (Nat.zero_mod _).symm⟩, rfl, rfl⟩
  | query =>
    have hhead : q.query.1 = q.msgs.head?.getD 0 := by
      by_cases hpos : 0 < q.osqEntries
      · rw [(take_of_pos h hpos).2, query, if_pos hpos]
        rfl
      · have hnil : q.msgs = [] := List.length_eq_zero_iff.1 (by rw [length_msgs]; omega)
        rw [hnil, query, if_neg hpos]
        rfl
    refine ⟨_, q, q.msgs, rfl, ⟨?_, rfl⟩, h, rfl, rfl⟩
    rw [hhead, length_msgs]
    rfl

end OsQcb

/-- **The control block is a bounded FIFO**: from `OSQCreate` on, every sequence of posts at either
end, accepts, flushes and queries shows what the FIFO shows, and the pointers stay inside the
array. -/
theorem osQcb_refines_fifo (storage : ℕ → VoidPtr) {size : ℕ} (hsize : 0 < size)
    (ops : List OsQcb.Op) :
    ∃ rs q' ms', run OsQcb.step (.create storage size) ops = some (rs, q') ∧
      Allowed (OsQcb.spec size) [] ops rs ms' ∧ OsQcb.Rep size q' ms' :=
  (OsQcb.step_refines size).run ⟨OsQcb.create_wf hsize, rfl, rfl⟩ ops

/-- It holds of a queue for two messages, one of them posted to the front. -/
theorem osQcb_refines_fifo_two :
    ∃ rs q' ms', run OsQcb.step (.create (fun _ ↦ 0) 2)
        [.post 7, .postFront 5, .post 9, .accept, .query] = some (rs, q') ∧
      Allowed (OsQcb.spec 2) [] [.post 7, .postFront 5, .post 9, .accept, .query] rs ms' ∧
      OsQcb.Rep 2 q' ms' :=
  osQcb_refines_fifo (fun _ ↦ 0) Nat.two_pos _

end YHAudioLink
