import Mathlib.Data.UInt

/-!
# Message queues of the kernel

The queues of the operating system as bounded FIFOs of pointers: a post is refused by a full queue,
a pend takes the oldest message, waits, or gives up at its timeout, and a query reports how many
messages there are and how many there is room for. The bound is part of the type.
-/

namespace YHAudioLink

/-- A `void *`. -/
abbrev VoidPtr : Type := UInt32

/-- A message queue: `OSQSize`, and the messages in it, the oldest first. -/
structure OsQ where
  osqSize : ℕ
  msgs : List VoidPtr
  bounded : msgs.length ≤ osqSize

/-- The errors of the queue functions that come up here. -/
inductive OsErr
  | none | timeout | qFull
  deriving DecidableEq

/-- The code of an error. -/
def OsErr.code : OsErr → ℕ
  | none => 0
  | timeout => 10
  | qFull => 30

/-- `OSQCreate`. -/
def osqCreate (size : ℕ) : OsQ := ⟨size, [], Nat.zero_le _⟩

/-- `OSQPost`. -/
def osqPost (q : OsQ) (msg : VoidPtr) : OsErr × OsQ :=
  if h : q.msgs.length < q.osqSize then
    (.none, ⟨q.osqSize, q.msgs ++ [msg], by rw [List.length_append]; exact h⟩)
  else (.qFull, q)

/-- `OSQPend`: the message and the error, `none` while the caller waits. A timeout of 0 is none. -/
def osqPend (q : OsQ) (timeout : UInt16) : Option (VoidPtr × OsErr × OsQ) :=
  match hmsgs : q.msgs with
  | msg :: msgs =>
    have hbounded : msgs.length ≤ q.osqSize := by
      have hle := q.bounded
      rw [hmsgs] at hle
      exact Nat.le_of_succ_le hle
    some (msg, .none, ⟨q.osqSize, msgs, hbounded⟩)
  | [] => if timeout = 0 then Option.none else some (0, .timeout, q)

/-- What `OSQQuery` copies of the queue. -/
structure OsQData where
  osnMsgs : ℕ
  osqSize : ℕ

/-- `OSQQuery` on an event that is a queue. -/
def osqQuery (q : OsQ) : OsErr × OsQData := (.none, ⟨q.msgs.length, q.osqSize⟩)

/-- A post is accepted by a queue with room, behind the other messages. -/
theorem osqPost_of_lt {q : OsQ} {msg : VoidPtr} (h : q.msgs.length < q.osqSize) :
    (osqPost q msg).1 = .none ∧ (osqPost q msg).2.msgs = q.msgs ++ [msg] := by
  rw [osqPost, dif_pos h]
  exact ⟨rfl, rfl⟩

/-- A full queue refuses and stays as it is. -/
theorem osqPost_of_full {q : OsQ} {msg : VoidPtr} (h : ¬ q.msgs.length < q.osqSize) :
    osqPost q msg = (.qFull, q) := by
  rw [osqPost, dif_neg h]

/-- **What a pend can do**: take the oldest message, or, at an empty queue, time out. -/
theorem osqPend_cases {q q' : OsQ} {timeout : UInt16} {msg : VoidPtr} {err : OsErr}
    (h : osqPend q timeout = some (msg, err, q')) :
    (err = .none ∧ q.msgs = msg :: q'.msgs) ∨
      (err = .timeout ∧ q.msgs = [] ∧ msg = 0 ∧ q' = q) := by
  rw [osqPend] at h
  split at h
  · next m ms hmsgs =>
    obtain ⟨rfl, rfl, rfl⟩ := h
    exact .inl ⟨rfl, hmsgs⟩
  · next hmsgs =>
    split at h
    · cases h
    · obtain ⟨rfl, rfl, rfl⟩ := h
      exact .inr ⟨rfl, hmsgs, rfl, rfl⟩

end YHAudioLink
