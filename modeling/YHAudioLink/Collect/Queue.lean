import YHAudioLink.Collect.DequeRuns

/-!
# The queue

`queue.c`: a queue on a deque. Elements enter in front of the others and leave at the back, so the
queue, the oldest element first, is the deque read backwards (`Queue.fifo`).
-/

namespace YHAudioLink

open Blocks

variable {α : Type}

/-- `struct queue_s`, without the allocator functions. -/
structure Queue (α : Type) where
  d : Deque α

/-- `sizeof(Queue)`. -/
def sizeofQueue : UInt32 := 16

/-- `queue_new_conf` with the default configuration, which is `queue_new`. `stale` is what the local
variable `deque` holds before `deque_new_conf` is called: it is tested afterwards, and when the call
fails it has not been assigned. -/
def queueNew (mem mem' mem'' : Allocator α) (stale : Option (Deque α)) :
    CcStat × Option (Queue α) :=
  match mem.calloc 1 sizeofQueue with
  | none => (.errAlloc, none)
  | some _ =>
    match (match dequeNew mem' mem'' with | (.ok, deque) => deque | _ => stale) with
    | none => (.errAlloc, none)
    | some deque => (.ok, some ⟨deque⟩)

/-- `queue_poll`. -/
def queuePoll (q : Queue α) : Option (CcStat × Option α × Queue α) :=
  (dequeRemoveLast q.d).map fun (st, out, d) ↦ (st, out, ⟨d⟩)

/-- `queue_enqueue`. -/
def queueEnqueue (mem : Allocator α) (q : Queue α) (element : α) : Option (CcStat × Queue α) :=
  (dequeAddFirst mem q.d element).map fun (st, d) ↦ (st, ⟨d⟩)

/-- `queue_size`. -/
def queueSize (q : Queue α) : UInt32 := dequeSize q.d

namespace Queue

variable {q : Queue α}

/-- The elements, the oldest first. -/
def fifo (q : Queue α) : List α := q.d.contents.reverse

@[simp] theorem length_fifo : q.fifo.length = (queueSize q).toNat := by
  rw [fifo, List.length_reverse, Deque.length_contents]
  rfl

/-- **An element that finds room** goes behind the others, and no memory is asked for. -/
theorem queueEnqueue_of_lt (h : q.d.Wf) (hroom : (queueSize q).toNat < q.d.capacity.toNat)
    (mem : Allocator α) (element : α) :
    ∃ q', queueEnqueue mem q element = some (.ok, q') ∧ q'.d.Wf ∧
      q'.d.capacity = q.d.capacity ∧ q'.fifo = q.fifo ++ [element] := by
  obtain ⟨d', hpush, hwf, hcap, hcont⟩ := Deque.pushFirst_of_wf h hroom element
  have hnot : ¬ q.d.size ≥ q.d.capacity := by
    rw [ge_iff_le, UInt32.le_iff_toNat_le]
    exact Nat.not_le_of_lt hroom
  refine ⟨⟨d'⟩, ?_, hwf, hcap, ?_⟩
  · simp [queueEnqueue, dequeAddFirst, hnot, hpush]
  · rw [fifo, hcont, List.reverse_cons]
    rfl

/-- **The oldest element leaves.** -/
theorem queuePoll_of_cons (h : q.d.Wf) {e : α} {es : List α} (hq : q.fifo = e :: es) :
    ∃ q', queuePoll q = some (.ok, some e, q') ∧ q'.d.Wf ∧ q'.d.capacity = q.d.capacity ∧
      q'.fifo = es := by
  have hc : q.d.contents = es.reverse ++ [e] := by
    rw [← List.reverse_cons, ← hq, fifo, List.reverse_reverse]
  obtain ⟨d', hcall, hwf, hcap, hcont⟩ := Deque.dequeRemoveLast_of_concat h hc
  refine ⟨⟨d'⟩, by rw [queuePoll, hcall]; rfl, hwf, hcap, ?_⟩
  rw [fifo, hcont, List.reverse_reverse]

/-- An empty queue delivers nothing. -/
theorem queuePoll_of_nil (hq : q.fifo = []) : queuePoll q = some (.errOutOfRange, none, q) := by
  have hsize : q.d.size = 0 := Deque.contents_eq_nil_iff.1 (List.reverse_eq_nil_iff.1 hq)
  simp [queuePoll, dequeRemoveLast, hsize]

/-- A queue that `queue_new` made, where its requests were granted. -/
theorem queueNew_of_granted {mem mem' mem'' : Allocator α} {stale : Option (Deque α)}
    (hdeque : (dequeNew mem' mem'').1 = .ok)
    (hnew : queueNew mem mem' mem'' stale = (.ok, some q)) :
    q.d.Wf ∧ q.d.capacity = 8 ∧ q.fifo = [] := by
  rw [queueNew] at hnew
  rcases hd : dequeNew mem' mem'' with ⟨st, deque⟩
  obtain rfl : st = .ok := by rw [hd] at hdeque; exact hdeque
  rw [hd] at hnew
  rcases deque with - | d
  · split at hnew
    · cases hnew
    · cases hnew
  · have hq : q = ⟨d⟩ := by
      split at hnew
      · cases hnew
      · exact (Option.some.inj (Prod.mk.inj hnew).2).symm
    subst hq
    obtain ⟨hwf, hvalue⟩ := Deque.dequeNew_rep hd
    have hcap : 8 = d.capacity.toNat := congrArg DequeValue.capacity hvalue
    have hcont : [] = d.contents := congrArg DequeValue.elements hvalue
    refine ⟨hwf, UInt32.toNat_inj.1 hcap.symm, ?_⟩
    rw [fifo, ← hcont, List.reverse_nil]

end Queue

end YHAudioLink
