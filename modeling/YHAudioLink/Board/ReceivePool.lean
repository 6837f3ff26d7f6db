import YHAudioLink.Wire.Datagram
import Mathlib.Data.List.FinRange
import Mathlib.Logic.Function.Basic
import Mathlib.Tactic.FinCases

/-!
# The receive pool of the board

`s_rcv_buffer`, the three buffers of `task_udpserver.c`, and `s_rcv_queue`, the one FIFO through
which the server task and `play()` hand them back and forth. A pointer `&s_rcv_buffer[i]` is the
index `i`, and the queue is the list of the pointers in it, front first.

## Ghost stamps

An octet of a buffer carries, next to its value, the number of the datagram that delivered it. No
task reads the stamp. It exists so that a statement about *where the bytes of a block came from* is
about those bytes, and not about equal-looking ones.
-/

namespace YHAudioLink

/-- `RCV_BUFFER_NUM`. -/
abbrev rcvBufferNum : ℕ := 3

/-- A pointer `&s_rcv_buffer[i]`. -/
abbrev BufId := Fin rcvBufferNum

/-- A byte of a receive buffer, stamped with the number of the datagram that delivered it; the stamp
of a byte no datagram has written is `0`. -/
structure Octet where
  val : UInt8
  stamp : ℕ
  deriving DecidableEq, Repr

/-- `rev_buffer_t`: the `RCV_BUFFER_SIZE` bytes `data` points to, and the length of the payload in
them. -/
structure RevBuffer where
  data : ℕ → Octet
  len : ℤ

namespace RevBuffer

/-- The values of the bytes `data` points to. -/
def bytes (b : RevBuffer) : ℕ → UInt8 := fun i ↦ (b.data i).val

/-- The first `len` bytes: what `memcpy` of that length takes out of the buffer. -/
def octets (b : RevBuffer) (len : ℤ) : List Octet :=
  (List.range len.toNat).map b.data

/-- The payload a buffer holds, nothing when its length is zero or an error value. -/
def payload (b : RevBuffer) : List Octet := b.octets b.len

/-- `pbuff->len = recvfrom(…, pbuff->data, …)` as the `n`-th datagram: the received bytes overwrite
a prefix of the buffer and the rest keeps what was there. -/
def recvfrom (b : RevBuffer) (n : ℕ) (r : RecvFrom) : RevBuffer where
  data :=
    match r with
    | .datagram _ payload => fun i ↦
      match (received payload)[i]? with
      | some v => ⟨v, n⟩
      | none => b.data i
    | _ => b.data
  len := r.ret

/-- `pbuff->len = 0`. -/
def clear (b : RevBuffer) : RevBuffer := { b with len := 0 }

@[simp] theorem clear_len (b : RevBuffer) : b.clear.len = 0 := rfl

@[simp] theorem clear_data (b : RevBuffer) : b.clear.data = b.data := rfl

@[simp] theorem recvfrom_len (b : RevBuffer) (n : ℕ) (r : RecvFrom) :
    (b.recvfrom n r).len = r.ret := rfl

@[simp] theorem octets_of_nonpos {b : RevBuffer} {len : ℤ} (h : len ≤ 0) : b.octets len = [] := by
  simp [octets, Int.toNat_of_nonpos h]

@[simp] theorem length_octets (b : RevBuffer) (len : ℤ) : (b.octets len).length = len.toNat := by
  simp [octets]

theorem mem_octets {b : RevBuffer} {len : ℤ} {o : Octet} :
    o ∈ b.octets len ↔ ∃ i : ℕ, (i : ℤ) < len ∧ b.data i = o := by
  simp [octets]

theorem head?_octets {b : RevBuffer} {len : ℤ} (h : 0 < len) :
    (b.octets len).head? = some (b.data 0) := by
  obtain ⟨n, hn⟩ : ∃ n, len.toNat = n + 1 := ⟨len.toNat - 1, by omega⟩
  rw [octets, hn, List.range_succ_eq_map, List.map_cons, List.head?_cons]

/-- What is copied out of a buffer depends only on the bytes it holds. -/
theorem octets_congr {b b' : RevBuffer} (h : b.data = b'.data) (len : ℤ) :
    b.octets len = b'.octets len := by
  simp [octets, h]

@[simp] theorem clear_octets (b : RevBuffer) (len : ℤ) : b.clear.octets len = b.octets len := rfl

/-- Clearing the length of one buffer changes the bytes of none. -/
theorem octets_update_clear (pool : BufId → RevBuffer) (b c : BufId) (len : ℤ) :
    (Function.update pool b (pool b).clear c).octets len = (pool c).octets len := by
  rcases eq_or_ne c b with rfl | hne
  · rw [Function.update_self, clear_octets]
  · rw [Function.update_of_ne hne]

@[simp] theorem payload_clear (b : RevBuffer) : b.clear.payload = [] := by
  simp [payload]

/-- A byte of a buffer after a receive is fresh, or it is the old one. -/
theorem recvfrom_data (b : RevBuffer) (n : ℕ) (r : RecvFrom) (i : ℕ) :
    ((b.recvfrom n r).data i).stamp = n ∨ (b.recvfrom n r).data i = b.data i := by
  rcases r with - | - | ⟨src, p⟩
  · exact Or.inr rfl
  · exact Or.inr rfl
  · simp only [recvfrom]
    split
    · exact Or.inl rfl
    · exact Or.inr rfl

/-- Inside the received length every byte is the datagram's. -/
theorem recvfrom_data_of_lt {b : RevBuffer} {n : ℕ} {src : Endpoint} {p : List UInt8} {i : ℕ}
    (h : i < (received p).length) :
    (b.recvfrom n (.datagram src p)).data i = ⟨(received p)[i], n⟩ := by
  simp [recvfrom, h]

/-- **The payload after a receive is the datagram**, every byte stamped with its number. -/
theorem payload_recvfrom (b : RevBuffer) (n : ℕ) (src : Endpoint) (p : List UInt8) :
    (b.recvfrom n (.datagram src p)).payload = (received p).map fun v ↦ ⟨v, n⟩ := by
  apply List.ext_getElem
  · simp [payload, RecvFrom.ret]
  · intro i h₁ h₂
    have hi : i < (received p).length := by simpa using h₂
    simp only [payload, octets, List.getElem_map, List.getElem_range, recvfrom_data_of_lt hi]

end RevBuffer

/-! ### The queue -/

/-- `rcv_queue_enqueue`: append, after discarding the front of a full queue. -/
def rcvQueueEnqueue (q : List BufId) (data : BufId) : List BufId :=
  (if q.length = rcvBufferNum then q.tail else q) ++ [data]

/-- `rcv_queue_dequeue`: the front, or `NULL` when the queue is empty. -/
def rcvQueueDequeue (q : List BufId) : Option BufId × List BufId :=
  (q.head?, q.tail)

/-- With room left the enqueue discards nothing. -/
theorem rcvQueueEnqueue_of_lt {q : List BufId} {data : BufId} (h : q.length < rcvBufferNum) :
    rcvQueueEnqueue q data = q ++ [data] := by
  rw [rcvQueueEnqueue, if_neg (by omega)]

/-! ### Building the pool -/

/-- The loop of `rev_buffer_init`, over the buffers still to be set up. It stops at the first failed
allocation, leaving the rest of the array as it was. -/
def revBufferInitLoop (alloc : BufId → Option (ℕ → Octet)) :
    List BufId → (BufId → RevBuffer) × List BufId → (BufId → RevBuffer) × List BufId
  | [], st => st
  | i :: is, (pool, q) =>
    match alloc i with
    | none => (pool, q)
    | some data =>
      revBufferInitLoop alloc is
        (Function.update pool i { data := data, len := 0 }, rcvQueueEnqueue q i)

/-- `rev_buffer_init` on the zero-initialised static array. -/
def revBufferInit (alloc : BufId → Option (ℕ → Octet)) : (BufId → RevBuffer) × List BufId :=
  revBufferInitLoop alloc (List.finRange rcvBufferNum) (fun _ ↦ ⟨fun _ ↦ ⟨0, 0⟩, 0⟩, [])

/-- **With all allocations granted** every buffer is empty and enqueued once, in index order. -/
theorem revBufferInit_of_all (data : BufId → ℕ → Octet) :
    revBufferInit (fun i ↦ some (data i)) =
      (fun i ↦ { data := data i, len := 0 }, List.finRange rcvBufferNum) := by
  have hrange : List.finRange rcvBufferNum = [0, 1, 2] := by decide
  simp only [revBufferInit, hrange, revBufferInitLoop, rcvQueueEnqueue, List.length_nil,
    Prod.mk.injEq]
  refine ⟨funext fun i ↦ ?_, by decide⟩
  fin_cases i <;> rfl

end YHAudioLink
