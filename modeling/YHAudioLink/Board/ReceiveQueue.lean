import YHAudioLink.Board.ReceivePool
import YHAudioLink.Collect.Queue

/-!
# The receive queue in memory

`s_rcv_queue` is a queue of `queue.c`, and the tasks reach it through `rcv_queue_enqueue` and
`rcv_queue_dequeue` only. The machine of the tasks has a list in its place; this module says that
the list is right. From the queue that `queue_new` makes, every sequence of the two calls makes no
access outside the buffer of the deque and delivers what the list delivers
(`rcvQueue_refines_list`).

It rests on the bound: `rcv_queue_enqueue` takes the oldest pointer out of a queue of
`RCV_BUFFER_NUM` first, so there are never more, and the eight cells the deque begins with are
enough. No call asks the heap for memory, and the `CC_ERR_ALLOC` that nobody checks cannot happen.
-/

namespace YHAudioLink

open DataRefinement

/-- `rcv_queue_enqueue`. The statuses of the calls are dropped, and the pointer polled too. -/
def Queue.rcvQueueEnqueue (mem : Allocator BufId) (q : Queue BufId) (data : BufId) :
    Option (Queue BufId) := do
  let q ← if queueSize q = UInt32.ofNat rcvBufferNum then (queuePoll q).map fun r ↦ r.2.2
    else some q
  let (_, q) ← queueEnqueue mem q data
  some q

/-- `rcv_queue_dequeue`: `ret` is `NULL` unless the call has put something there. -/
def Queue.rcvQueueDequeue (q : Queue BufId) : Option (Option BufId × Queue BufId) :=
  (queuePoll q).map fun (_, ret, q) ↦ (ret, q)

/-- The calls of the tasks. -/
inductive RcvQueueOp
  | enqueue (mem : Allocator BufId) (data : BufId)
  | dequeue

/-- A call, with the pointer `rcv_queue_dequeue` returns. -/
def rcvQueueStep (q : Queue BufId) : RcvQueueOp → Option (Option (Option BufId) × Queue BufId)
  | .enqueue mem data => (q.rcvQueueEnqueue mem data).map fun q' ↦ (none, q')
  | .dequeue => q.rcvQueueDequeue.map fun (ret, q') ↦ (some ret, q')

/-- The same calls on the list of the tasks' machine. -/
def rcvQueueSpec (t : List BufId) (op : RcvQueueOp) (r : Option (Option BufId))
    (t' : List BufId) : Prop :=
  match op with
  | .enqueue _ data => r = none ∧ t' = rcvQueueEnqueue t data
  | .dequeue => r = some (rcvQueueDequeue t).1 ∧ t' = (rcvQueueDequeue t).2

/-- A queue that stands for a list: it has still the capacity it began with. -/
structure Queue.Holds (q : Queue BufId) (t : List BufId) : Prop where
  wf : q.d.Wf
  capacity : q.d.capacity = 8
  fifo : q.fifo = t
  bounded : t.length ≤ rcvBufferNum

namespace Queue.Holds

variable {q : Queue BufId} {t : List BufId}

theorem size_eq (h : q.Holds t) : (queueSize q).toNat = t.length := by
  rw [← h.fifo, Queue.length_fifo]

/-- One more pointer behind the others. -/
theorem enqueue (h : q.Holds t) (hlt : t.length < rcvBufferNum) (mem : Allocator BufId)
    (data : BufId) :
    ∃ q', queueEnqueue mem q data = some (.ok, q') ∧ q'.Holds (t ++ [data]) := by
  have hroom : (queueSize q).toNat < q.d.capacity.toNat := by
    have h8 : (8 : UInt32).toNat = 8 := rfl
    have h3 : rcvBufferNum = 3 := rfl
    rw [h.size_eq, h.capacity, h8]
    omega
  obtain ⟨q', hcall, hwf, hcap, hfifo⟩ := Queue.queueEnqueue_of_lt h.wf hroom mem data
  refine ⟨q', hcall, hwf, hcap.trans h.capacity, by rw [hfifo, h.fifo], ?_⟩
  rw [List.length_append]
  exact hlt

/-- The oldest pointer taken out. -/
theorem poll {b : BufId} (h : q.Holds (b :: t)) :
    ∃ q', queuePoll q = some (.ok, some b, q') ∧ q'.Holds t := by
  obtain ⟨q', hcall, hwf, hcap, hfifo⟩ := Queue.queuePoll_of_cons h.wf h.fifo
  exact ⟨q', hcall, hwf, hcap.trans h.capacity, hfifo, Nat.le_of_succ_le h.bounded⟩

end Queue.Holds

/-- **One call.** -/
theorem rcvQueueStep_refines : Refines rcvQueueStep rcvQueueSpec Queue.Holds := by
  intro q t op h
  have hnum : (UInt32.ofNat rcvBufferNum).toNat = rcvBufferNum := rfl
  cases op with
  | enqueue mem data =>
    by_cases hfull : t.length = rcvBufferNum
    · rcases t with - | ⟨b, t⟩
      · cases hfull
      have hsize : queueSize q = UInt32.ofNat rcvBufferNum := by
        rw [← UInt32.toNat_inj, h.size_eq, hfull, hnum]
      obtain ⟨q₁, hpoll, h₁⟩ := h.poll
      have hlt : t.length < rcvBufferNum := hfull ▸ Nat.lt_succ_self t.length
      obtain ⟨q₂, hput, h₂⟩ := h₁.enqueue hlt mem data
      refine ⟨none, q₂, t ++ [data], ?_, ⟨rfl, ?_⟩, h₂⟩
      · simp [rcvQueueStep, Queue.rcvQueueEnqueue, hsize, hpoll, hput]
      · rw [rcvQueueEnqueue, if_pos hfull, List.tail_cons]
    · have hsize : queueSize q ≠ UInt32.ofNat rcvBufferNum := fun heq ↦ hfull (by
        rw [← h.size_eq, heq, hnum])
      have hlt : t.length < rcvBufferNum := Nat.lt_of_le_of_ne h.bounded hfull
      obtain ⟨q₂, hput, h₂⟩ := h.enqueue hlt mem data
      refine ⟨none, q₂, t ++ [data], ?_, ⟨rfl, (rcvQueueEnqueue_of_lt hlt).symm⟩, h₂⟩
      simp [rcvQueueStep, Queue.rcvQueueEnqueue, hsize, hput]
  | dequeue =>
    rcases t with - | ⟨b, t⟩
    · refine ⟨some none, q, [], ?_, ⟨rfl, rfl⟩, h⟩
      simp [rcvQueueStep, Queue.rcvQueueDequeue, Queue.queuePoll_of_nil h.fifo]
    · obtain ⟨q₁, hpoll, h₁⟩ := h.poll
      refine ⟨some (some b), q₁, t, ?_, ⟨rfl, rfl⟩, h₁⟩
      simp [rcvQueueStep, Queue.rcvQueueDequeue, hpoll]

/-- **The receive queue is the list of the tasks' machine**: every sequence of the tasks' calls on
a queue that `queue_new` made delivers the pointers the list delivers, and leaves a queue that holds
the list, still with the buffer it was made with. -/
theorem rcvQueue_refines_list {mem mem' mem'' : Allocator BufId} {stale : Option (Deque BufId)}
    {q : Queue BufId} (hdeque : (dequeNew mem' mem'').1 = .ok)
    (hnew : queueNew mem mem' mem'' stale = (.ok, some q)) (ops : List RcvQueueOp) :
    ∃ rs q' t', run rcvQueueStep q ops = some (rs, q') ∧ Allowed rcvQueueSpec [] ops rs t' ∧
      q'.Holds t' := by
  obtain ⟨hwf, hcap, hfifo⟩ := Queue.queueNew_of_granted hdeque hnew
  exact rcvQueueStep_refines.run ⟨hwf, hcap, hfifo, Nat.zero_le _⟩ ops

/-- The queue that a heap granting every request makes: of four pointers the oldest is dropped. -/
theorem rcvQueue_refines_list_granted :
    let ops := [2, 1, 0, 2].map (RcvQueueOp.enqueue (.grantAll 0)) ++ [.dequeue, .dequeue, .dequeue]
    ∃ rs q' t', run rcvQueueStep ⟨0, 8, 0, 0, 32, fun _ ↦ 0⟩ ops = some (rs, q') ∧
      Allowed rcvQueueSpec [] ops rs t' ∧ q'.Holds t' ∧
      rs = [none, none, none, none, some (some 1), some (some 0), some (some 2)] := by
  intro ops
  obtain ⟨rs, q', t', hrun, hallowed, hholds⟩ :=
    @rcvQueue_refines_list (.grantAll 0) (.grantAll 0) (.grantAll 0) none _ rfl rfl ops
  have hrs : (run rcvQueueStep ⟨0, 8, 0, 0, 32, fun _ ↦ 0⟩ ops).map Prod.fst =
      some [none, none, none, none, some (some 1), some (some 0), some (some 2)] := by
    decide +kernel
  exact ⟨rs, q', t', hrun, hallowed, hholds,
    Option.some.inj ((congrArg (Option.map _) hrun).symm.trans hrs)⟩

end YHAudioLink
