import YHAudioLink.Collect.Deque
import YHAudioLink.Foundation.DataRefinement

/-!
# The deque as a list

Every sequence of calls on a deque that `deque_new` made does to its elements what the calls say of
a list, with whatever the allocator grants and refuses on the way: no access leaves the buffer, a
refused allocation leaves the deque as it was, and growing keeps the elements and their order.

The list knows the capacity too, since that is what decides when an allocation is needed; an
addition to a full deque is refused just when the allocator it finds refuses (`CanGrow`). What the
specification leaves open is what `deque_get_at` delivers at the index `size`, which its bound lets
through.

## One lemma for each operation

An operation keeps the deque well-formed and makes one move of the window. For the four that change
the elements the move is the whole argument; growing is the copy of the window, in one piece or in
two, to the front of a buffer twice as long.
-/

namespace YHAudioLink

open Blocks ByteStore Ring DataRefinement

variable {α : Type} {d : Deque α} {mem : Allocator α} {element : α}

namespace Deque

/-! ### Growing -/

/-- A deque with elements wraps around just when `last` is not above `first`. -/
theorem Wf.wrap_cases (h : d.Wf) (hne : 0 < d.size.toNat) :
    (d.first.toNat < d.last.toNat ∧ d.first.toNat + d.size.toNat ≤ d.capacity.toNat) ∨
      (d.last.toNat ≤ d.first.toNat ∧
        d.first.toNat + d.size.toNat = d.capacity.toNat + d.last.toNat) := by
  have hlt := h.first_lt
  have hle := h.size_le
  rcases Nat.lt_or_ge (d.first.toNat + d.size.toNat) d.capacity.toNat with hin | hout
  · have hlast : d.last.toNat = d.first.toNat + d.size.toNat :=
      h.last_eq.trans (Nat.mod_eq_of_lt hin)
    exact .inl ⟨by omega, Nat.le_of_lt hin⟩
  · have hlast : d.last.toNat = d.first.toNat + d.size.toNat - d.capacity.toNat := by
      rw [h.last_eq, Nat.mod_eq_sub_mod hout, Nat.mod_eq_of_lt (by omega)]
    exact .inr ⟨by omega, by omega⟩

/-- **The elements are copied to the front of the other buffer.** -/
theorem copyBuffer_of_wf (h : d.Wf) (hne : 0 < d.size.toNat) (buff : Block α)
    (hroom : d.size.toNat ≤ buff.room) :
    ∃ b, copyBuffer d buff = some b ∧ b.room = buff.room ∧
      load b.cells 0 d.size.toNat = d.contents := by
  have hwithin := h.room
  have hlt := h.first_lt
  rcases h.wrap_cases hne with ⟨habove, hin⟩ | ⟨hbelow, hwrap⟩
  · have hdst : 0 + d.size.toNat ≤ buff.room := by omega
    have hsrc : d.first.toNat + d.size.toNat ≤ d.buffer.room := by omega
    refine ⟨⟨buff.room, store buff.cells 0 (load d.buffer.cells d.first.toNat d.size.toNat)⟩,
      ?_, rfl, ?_⟩
    · rw [copyBuffer, if_pos (UInt32.lt_iff_toNat_lt.2 habove), Block.copy_of_le hdst hsrc]
    · have hall := load_store buff.cells 0 (load d.buffer.cells d.first.toNat d.size.toNat)
      rw [length_load] at hall
      rw [hall, contents, window_eq_load hin]
  · have hsub : (d.capacity - d.first).toNat = d.capacity.toNat - d.first.toNat :=
      UInt32.toNat_sub_of_le _ _ (UInt32.le_iff_toNat_le.2 (Nat.le_of_lt hlt))
    obtain ⟨e, he⟩ : ∃ e, d.capacity.toNat = d.first.toNat + e :=
      Nat.exists_eq_add_of_le (Nat.le_of_lt hlt)
    rw [he, Nat.add_sub_cancel_left] at hsub
    have hsize : d.size.toNat = e + d.last.toNat := by omega
    have hfirst : window d.capacity.toNat d.buffer.cells d.first.toNat e =
        load d.buffer.cells d.first.toNat e := window_eq_load (by omega)
    have hrest : window d.capacity.toNat d.buffer.cells (d.first.toNat + e) d.last.toNat =
        load d.buffer.cells 0 d.last.toNat := by
      rw [← he, window_congr_mod (y := 0) (by rw [Nat.mod_self, Nat.zero_mod])]
      exact window_eq_load (by omega)
    have hcopy₁ : buff.copy 0 d.buffer d.first.toNat e =
        some ⟨buff.room, store buff.cells 0 (load d.buffer.cells d.first.toNat e)⟩ :=
      Block.copy_of_le (by omega) (by omega)
    have hcopy₂ : ∀ cells, Block.copy ⟨buff.room, cells⟩ e d.buffer 0 d.last.toNat =
        some ⟨buff.room, store cells e (load d.buffer.cells 0 d.last.toNat)⟩ := fun cells ↦
      Block.copy_of_le (by show e + d.last.toNat ≤ buff.room; omega) (by omega)
    refine ⟨⟨buff.room, store (store buff.cells 0 (load d.buffer.cells d.first.toNat e)) e
      (load d.buffer.cells 0 d.last.toNat)⟩, ?_, rfl, ?_⟩
    · rw [copyBuffer, if_neg (by rw [gt_iff_lt, UInt32.lt_iff_toNat_lt]; omega)]
      simp only [hsub, hcopy₁, hcopy₂, Option.bind_eq_bind, Option.bind_some]
    · have hjoin := load_store_append
        (store buff.cells 0 (load d.buffer.cells d.first.toNat e)) 0 e
        (load d.buffer.cells 0 d.last.toNat)
      have hfront := load_store buff.cells 0 (load d.buffer.cells d.first.toNat e)
      rw [length_load] at hjoin hfront
      rw [Nat.zero_add, hfront, ← hfirst, ← hrest, ← window_add, ← hsize] at hjoin
      rw [contents, ← hjoin, hfirst, hrest]

/-- **Whether a full deque can grow**: there is a greatest capacity, and the allocator has to grant
the pointers of twice the capacity. -/
def CanGrow (mem : Allocator α) (capacity : ℕ) : Prop :=
  2 * capacity ≤ 2 ^ 31 ∧ (mem.calloc (UInt32.ofNat (2 * capacity)) sizeofPointer).isSome = true

instance (mem : Allocator α) (capacity : ℕ) : Decidable (CanGrow mem capacity) :=
  inferInstanceAs (Decidable (2 * capacity ≤ 2 ^ 31 ∧
    (mem.calloc (UInt32.ofNat (2 * capacity)) sizeofPointer).isSome = true))

/-- Below the greatest capacity there is a next power of two. -/
theorem Wf.two_mul_capacity_le (h : d.Wf) (hmax : d.capacity ≠ maxPowTwo) :
    2 * d.capacity.toNat ≤ 2 ^ 31 := by
  obtain ⟨k, hk⟩ := h.pow
  have hcap := d.capacity.toNat_lt
  have hk31 : k < 32 := (Nat.pow_lt_pow_iff_right Nat.one_lt_two).1 (hk ▸ hcap)
  have hne : k ≠ 31 := fun h31 ↦ hmax (UInt32.toNat_inj.1 (by rw [hk, h31]; rfl))
  have hpow : 2 ^ k ≤ 2 ^ 30 := Nat.pow_le_pow_right Nat.two_pos (by omega)
  omega

/-- The shift doubles the capacity. -/
theorem Wf.toNat_double (h : d.Wf) (hmax : d.capacity ≠ maxPowTwo) :
    (d.capacity <<< 1).toNat = 2 * d.capacity.toNat := by
  have hle := h.two_mul_capacity_le hmax
  rw [UInt32.toNat_shiftLeft, Nat.shiftLeft_eq]
  show d.capacity.toNat * 2 % 2 ^ 32 = 2 * d.capacity.toNat
  omega

/-- Below the greatest capacity the allocator decides. -/
theorem Wf.canGrow_iff (h : d.Wf) (hmax : d.capacity ≠ maxPowTwo) :
    CanGrow mem d.capacity.toNat ↔ (mem.calloc (d.capacity <<< 1) sizeofPointer).isSome = true := by
  have hshift : UInt32.ofNat (2 * d.capacity.toNat) = d.capacity <<< 1 := by
    rw [← h.toNat_double hmax, UInt32.ofNat_toNat]
  rw [CanGrow, hshift]
  exact and_iff_right (h.two_mul_capacity_le hmax)

/-- What is granted is room for twice the elements: a capacity of `2 ^ 29` or more would be a
request for no bytes at all. -/
theorem Wf.le_room_of_calloc (h : d.Wf) (hmax : d.capacity ≠ maxPowTwo) {b : Block α}
    (hcalloc : mem.calloc (d.capacity <<< 1) sizeofPointer = some b) :
    2 * d.capacity.toNat ≤ b.room := by
  obtain ⟨k, hk⟩ := h.pow
  have hle := h.two_mul_capacity_le hmax
  obtain ⟨hpos, hbytes⟩ := mem.room hcalloc
  have h4 : sizeofPointer.toNat = 4 := rfl
  rw [UInt32.toNat_mul, h.toNat_double hmax, h4] at hpos hbytes
  have hk31 : k < 31 := by
    refine (Nat.pow_lt_pow_iff_right Nat.one_lt_two).1 ?_
    omega
  have hsmall : k < 29 := by
    by_contra hge
    obtain rfl | rfl : k = 29 ∨ k = 30 := by omega
    all_goals rw [hk] at hpos; exact absurd hpos (by decide)
  have hpow : 2 ^ k ≤ 2 ^ 28 := Nat.pow_le_pow_right Nat.two_pos (by omega)
  rw [Nat.mod_eq_of_lt (by omega)] at hbytes
  omega

/-- What growing does: nothing where the deque cannot, and else the same elements in a buffer of
twice the capacity. -/
theorem expandCapacity_of_wf (mem : Allocator α) (h : d.Wf) (hfull : d.size = d.capacity) :
    ∃ st d', expandCapacity mem d = some (st, d') ∧
      (¬ CanGrow mem d.capacity.toNat ∧ st ≠ .ok ∧ d' = d ∨
        CanGrow mem d.capacity.toNat ∧ st = .ok ∧ d'.Wf ∧ d'.contents = d.contents ∧
          d'.size = d.size ∧ d'.capacity.toNat = 2 * d.capacity.toNat) := by
  by_cases hmax : d.capacity = maxPowTwo
  · refine ⟨_, _, by rw [expandCapacity, if_pos hmax], .inl ⟨fun hgrow ↦ ?_, by decide, rfl⟩⟩
    rw [hmax] at hgrow
    exact absurd hgrow.1 (by decide)
  have hgrow : CanGrow mem d.capacity.toNat ↔
      (mem.calloc (d.capacity <<< 1) sizeofPointer).isSome = true := h.canGrow_iff hmax
  cases hcalloc : mem.calloc (d.capacity <<< 1) sizeofPointer with
  | none =>
    rw [hcalloc] at hgrow
    refine ⟨.errAlloc, d, ?_, .inl ⟨fun hcan ↦ Bool.false_ne_true (hgrow.1 hcan), by decide, rfl⟩⟩
    simp only [expandCapacity, if_neg hmax, hcalloc]
  | some newBuffer =>
    rw [hcalloc] at hgrow
    have hdouble := h.toNat_double hmax
    have hroom := h.le_room_of_calloc hmax hcalloc
    have hsize : d.size.toNat = d.capacity.toNat := congrArg UInt32.toNat hfull
    have hpos := h.capacity_pos
    obtain ⟨b, hcopy, hbroom, hload⟩ := copyBuffer_of_wf h (by omega) newBuffer (by omega)
    refine ⟨.ok, ⟨d.size, d.capacity <<< 1, 0, d.size, b⟩, ?_,
      .inr ⟨hgrow.2 rfl, rfl, ?_, ?_, rfl, hdouble⟩⟩
    · simp only [expandCapacity, if_neg hmax, hcalloc, hcopy, Option.bind_eq_bind,
        Option.bind_some]
    · obtain ⟨k, hk⟩ := h.pow
      refine ⟨⟨k + 1, ?_⟩, ?_, ?_, ?_, ?_⟩
      · rw [hdouble, hk, Nat.pow_succ, Nat.mul_comm]
      · show d.size.toNat ≤ (d.capacity <<< 1).toNat
        omega
      · rw [hdouble, hbroom]
        exact hroom
      · rw [hdouble]
        exact Nat.mul_pos Nat.two_pos hpos
      · show d.size.toNat = (0 + d.size.toNat) % (d.capacity <<< 1).toNat
        rw [hdouble, Nat.zero_add, Nat.mod_eq_of_lt (by omega)]
    · rw [← hload]
      exact window_eq_load (by rw [hdouble]; show 0 + d.size.toNat ≤ _; omega)

/-! ### The operations -/

/-- What the two additions have in common: room as it was, room made, or none to be had. -/
theorem room_cases (mem : Allocator α) (h : d.Wf) :
    (d.size < d.capacity ∧ d.size ≠ d.capacity) ∨
      d.size = d.capacity ∧ ∃ st d', expandCapacity mem d = some (st, d') ∧
        (¬ CanGrow mem d.capacity.toNat ∧ st ≠ .ok ∧ d' = d ∨
          CanGrow mem d.capacity.toNat ∧ st = .ok ∧ d'.Wf ∧ d'.contents = d.contents ∧
            d'.size.toNat < d'.capacity.toNat ∧ d'.capacity.toNat = 2 * d.capacity.toNat) := by
  rcases Nat.lt_or_ge d.size.toNat d.capacity.toNat with hlt | hge
  · exact .inl ⟨UInt32.lt_iff_toNat_lt.2 hlt, fun heq ↦ by rw [heq] at hlt; omega⟩
  · have hfull : d.size = d.capacity := UInt32.toNat_inj.1 (Nat.le_antisymm h.size_le hge)
    obtain ⟨st, d', hexp, hcase⟩ := expandCapacity_of_wf mem h hfull
    refine .inr ⟨hfull, st, d', hexp, hcase.imp_right ?_⟩
    rintro ⟨hgrow, hok, hwf, hcont, hsize, hcap⟩
    have hpos := h.capacity_pos
    refine ⟨hgrow, hok, hwf, hcont, ?_, hcap⟩
    rw [hsize, hcap, hfull]
    omega

/-- The size after an addition. -/
theorem toNat_size_succ (hroom : d.size.toNat < d.capacity.toNat) :
    (d.size + 1).toNat = d.size.toNat + 1 := by
  have hcap := d.capacity.toNat_lt
  have hone : (1 : UInt32).toNat = 1 := rfl
  rw [UInt32.toNat_add, hone, Nat.mod_eq_of_lt (by omega)]

/-- The element put in front of the others, where there is room. -/
theorem pushFirst_of_wf (h : d.Wf) (hroom : d.size.toNat < d.capacity.toNat) (element : α) :
    ∃ d', pushFirst d element = some d' ∧ d'.Wf ∧ d'.capacity = d.capacity ∧
      d'.contents = element :: d.contents := by
  have hmask := h.mask_pred d.first
  have hsize := toNat_size_succ hroom
  have hcells := Block.write_of_lt (v := element) (h.lt_room (2 ^ 32 - 1 + d.first.toNat))
  rw [← hmask] at hcells
  refine ⟨⟨d.size + 1, d.capacity, (d.first - 1) &&& (d.capacity - 1), d.last, d.buffer.room,
    Function.update d.buffer.cells ((d.first - 1) &&& (d.capacity - 1)).toNat element⟩,
    ?_, ⟨h.pow, ?_, h.room, ?_, ?_⟩, rfl, ?_⟩
  · rw [pushFirst, hcells]
    rfl
  · exact hsize.trans_le hroom
  · exact hmask.trans_lt (Nat.mod_lt _ h.capacity_pos)
  · show d.last.toNat = (((d.first - 1) &&& (d.capacity - 1)).toNat + (d.size + 1).toNat) % _
    rw [hmask, hsize, Nat.mod_add_mod, h.last_eq, Nat.add_comm d.size.toNat 1, ← Nat.add_assoc,
      Nat.add_mod, ← h.pred_succ d.first.toNat, ← Nat.add_mod]
  · show window d.capacity.toNat _ ((d.first - 1) &&& (d.capacity - 1)).toNat (d.size + 1).toNat = _
    rw [hmask, hsize, window_congr_mod (Nat.mod_mod _ _),
      window_put_front hroom (h.pred_succ d.first.toNat)]
    rfl

/-- The element put behind the others, where there is room. -/
theorem pushLast_of_wf (h : d.Wf) (hroom : d.size.toNat < d.capacity.toNat) (element : α) :
    ∃ d', pushLast d element = some d' ∧ d'.Wf ∧ d'.capacity = d.capacity ∧
      d'.contents = d.contents ++ [element] := by
  have hsize := toNat_size_succ hroom
  have hcells := Block.write_of_lt (v := element) (h.lt_room (d.first.toNat + d.size.toNat))
  rw [← h.last_eq] at hcells
  refine ⟨⟨d.size + 1, d.capacity, d.first, (d.last + 1) &&& (d.capacity - 1), d.buffer.room,
    Function.update d.buffer.cells d.last.toNat element⟩,
    ?_, ⟨h.pow, ?_, h.room, h.first_lt, ?_⟩, rfl, ?_⟩
  · rw [pushLast, hcells]
    rfl
  · exact hsize.trans_le hroom
  · show ((d.last + 1) &&& (d.capacity - 1)).toNat = (d.first.toNat + (d.size + 1).toNat) % _
    rw [h.mask (UInt32.toNat_add _ _), h.last_eq, hsize, Nat.mod_add_mod]
    rfl
  · show window d.capacity.toNat _ d.first.toNat (d.size + 1).toNat = _
    rw [hsize, h.last_eq, window_put_back hroom]
    rfl

/-- A deque has no elements just when its size is zero. -/
theorem contents_eq_nil_iff : d.contents = [] ↔ d.size = 0 := by
  rw [← List.length_eq_zero_iff, length_contents, ← UInt32.toNat_inj]
  rfl

/-- The size of a deque with one element more than `n`. -/
theorem toNat_size_pred {n : ℕ} (hn : d.size.toNat = n + 1) :
    d.size ≠ 0 ∧ (d.size - 1).toNat = n := by
  have hone : (1 : UInt32).toNat = 1 := rfl
  refine ⟨fun hzero ↦ ?_, ?_⟩
  · rw [hzero] at hn
    exact absurd hn (Nat.succ_ne_zero n).symm
  · rw [UInt32.toNat_sub_of_le _ _ (UInt32.le_iff_toNat_le.2 (by rw [hone]; omega)), hn]
    rfl

/-- The index of the last element. -/
theorem Wf.mask_last (h : d.Wf) {n : ℕ} (hn : d.size.toNat = n + 1) :
    ((d.last - 1) &&& (d.capacity - 1)).toNat = (d.first.toNat + n) % d.capacity.toNat := by
  rw [h.mask_pred, h.last_eq, hn, Nat.add_mod_mod, ← h.pred_succ (d.first.toNat + n)]
  rfl

/-- The first element is read. -/
theorem Wf.read_first (h : d.Wf) {e : α} {es : List α} (hc : d.contents = e :: es) :
    d.buffer.read d.first.toNat = some e := by
  have hn : d.size.toNat = es.length + 1 := by rw [← length_contents, hc, List.length_cons]
  rw [contents, hn, window_succ, Nat.mod_eq_of_lt h.first_lt] at hc
  rw [Block.read_of_lt (Nat.lt_of_lt_of_le h.first_lt h.room), (List.cons.inj hc).1]

/-- The last element is read. -/
theorem Wf.read_last (h : d.Wf) {e : α} {es : List α} (hc : d.contents = es ++ [e]) :
    d.buffer.read ((d.last - 1) &&& (d.capacity - 1)).toNat = some e := by
  have hn : d.size.toNat = es.length + 1 := by
    rw [← length_contents, hc, List.length_append, List.length_singleton]
  rw [contents, hn, window_concat] at hc
  rw [h.mask_last hn, Block.read_of_lt (h.lt_room _),
    List.singleton_inj.1 (List.append_inj' hc rfl).2]

/-- The first element is taken away. -/
theorem dequeRemoveFirst_of_cons (h : d.Wf) {e : α} {es : List α} (hc : d.contents = e :: es) :
    ∃ d', dequeRemoveFirst d = some (.ok, some e, d') ∧ d'.Wf ∧ d'.capacity = d.capacity ∧
      d'.contents = es := by
  have hn : d.size.toNat = es.length + 1 := by rw [← length_contents, hc, List.length_cons]
  obtain ⟨hne, hpred⟩ := toNat_size_pred hn
  have hmask : ((d.first + 1) &&& (d.capacity - 1)).toNat =
      (d.first.toNat + 1) % d.capacity.toNat := h.mask_add 1
  have hread := h.read_first hc
  have hle := h.size_le
  rw [contents, hn, window_succ] at hc
  refine ⟨⟨d.size - 1, d.capacity, (d.first + 1) &&& (d.capacity - 1), d.last, d.buffer⟩,
    ?_, ⟨h.pow, ?_, h.room, ?_, ?_⟩, rfl, ?_⟩
  · simp only [dequeRemoveFirst, if_neg hne, hread, Option.bind_eq_bind, Option.bind_some]
  · show (d.size - 1).toNat ≤ d.capacity.toNat
    omega
  · exact hmask.trans_lt (Nat.mod_lt _ h.capacity_pos)
  · show d.last.toNat = (((d.first + 1) &&& (d.capacity - 1)).toNat + (d.size - 1).toNat) % _
    rw [hmask, hpred, Nat.mod_add_mod, h.last_eq, hn, Nat.add_assoc, Nat.add_comm 1]
  · show window d.capacity.toNat _ ((d.first + 1) &&& (d.capacity - 1)).toNat (d.size - 1).toNat = _
    rw [hmask, hpred, window_congr_mod (Nat.mod_mod _ _), (List.cons.inj hc).2]

/-- The last element is taken away. -/
theorem dequeRemoveLast_of_concat (h : d.Wf) {e : α} {es : List α} (hc : d.contents = es ++ [e]) :
    ∃ d', dequeRemoveLast d = some (.ok, some e, d') ∧ d'.Wf ∧ d'.capacity = d.capacity ∧
      d'.contents = es := by
  have hn : d.size.toNat = es.length + 1 := by
    rw [← length_contents, hc, List.length_append, List.length_singleton]
  obtain ⟨hne, hpred⟩ := toNat_size_pred hn
  have hread := h.read_last hc
  have hle := h.size_le
  rw [contents, hn, window_concat] at hc
  refine ⟨⟨d.size - 1, d.capacity, d.first, (d.last - 1) &&& (d.capacity - 1), d.buffer⟩,
    ?_, ⟨h.pow, ?_, h.room, h.first_lt, ?_⟩, rfl, ?_⟩
  · simp only [dequeRemoveLast, if_neg hne, hread, Option.bind_eq_bind, Option.bind_some]
  · show (d.size - 1).toNat ≤ d.capacity.toNat
    omega
  · show ((d.last - 1) &&& (d.capacity - 1)).toNat = (d.first.toNat + (d.size - 1).toNat) % _
    rw [h.mask_last hn, hpred]
  · show window d.capacity.toNat _ d.first.toNat (d.size - 1).toNat = _
    rw [hpred, (List.append_inj' hc rfl).1]

/-- The first element is looked at. -/
theorem dequeGetFirst_of_cons (h : d.Wf) {e : α} {es : List α} (hc : d.contents = e :: es) :
    dequeGetFirst d = some (.ok, some e) := by
  have hne : d.size ≠ 0 := fun hzero ↦ by simp [contents_eq_nil_iff.2 hzero] at hc
  simp only [dequeGetFirst, if_neg hne, h.read_first hc, Option.bind_eq_bind, Option.bind_some]

/-- The last element is looked at. -/
theorem dequeGetLast_of_concat (h : d.Wf) {e : α} {es : List α} (hc : d.contents = es ++ [e]) :
    dequeGetLast d = some (.ok, some e) := by
  have hne : d.size ≠ 0 := fun hzero ↦ by simp [contents_eq_nil_iff.2 hzero] at hc
  simp only [dequeGetLast, if_neg hne, h.read_last hc, Option.bind_eq_bind, Option.bind_some]

/-- The element at an index is replaced. -/
theorem dequeReplaceAt_of_lt (h : d.Wf) (element : α) {index : UInt32}
    (hi : index.toNat < d.contents.length) :
    ∃ d', dequeReplaceAt d element index = some (.ok, some d.contents[index.toNat], d') ∧ d'.Wf ∧
      d'.capacity = d.capacity ∧ d'.contents = d.contents.set index.toNat element := by
  have hread := h.read index hi
  have hwrite := Block.write_of_lt (v := element) (h.lt_room (d.first.toNat + index.toNat))
  rw [← h.mask_add] at hwrite
  have hsize : ¬ index ≥ d.size := by
    rw [ge_iff_le, UInt32.le_iff_toNat_le]
    rw [length_contents] at hi
    omega
  refine ⟨⟨d.size, d.capacity, d.first, d.last, d.buffer.room, Function.update d.buffer.cells
    ((d.first + index) &&& (d.capacity - 1)).toNat element⟩, ?_, ⟨h.pow, h.size_le, h.room,
    h.first_lt, h.last_eq⟩, rfl, ?_⟩
  · simp only [dequeReplaceAt, if_neg hsize, hread, hwrite, Option.bind_eq_bind, Option.bind_some]
  · rw [length_contents] at hi
    show window d.capacity.toNat (Function.update d.buffer.cells
      ((d.first + index) &&& (d.capacity - 1)).toNat element) d.first.toNat d.size.toNat = _
    rw [h.mask_add, window_update hi h.size_le]
    rfl

/-! ### The loops -/

/-- `deque_foreach` goes through the elements in order. -/
theorem dequeForeachLoop_of_wf (h : d.Wf) {n : ℕ} {i : UInt32} (hn : i.toNat + n = d.size.toNat) :
    dequeForeachLoop d i n = some (d.contents.drop i.toNat) := by
  induction n generalizing i with
  | zero =>
    rw [dequeForeachLoop, List.drop_eq_nil_of_le (by rw [length_contents]; omega)]
  | succ n ih =>
    have hi : i.toNat < d.contents.length := by
      rw [length_contents]
      omega
    have hbound := d.size.toNat_lt
    have hnext : (i + 1).toNat = i.toNat + 1 := by
      have hone : (1 : UInt32).toNat = 1 := rfl
      rw [UInt32.toNat_add, hone, Nat.mod_eq_of_lt (by omega)]
    have hread := h.read i hi
    have hrest := ih (i := i + 1) (by omega)
    simp only [dequeForeachLoop, hread, hrest, Option.bind_eq_bind, Option.bind_some]
    rw [hnext, ← List.drop_eq_getElem_cons hi]

/-- `deque_index_of` finds the first index of an equal pointer. -/
theorem dequeIndexOfLoop_of_wf [DecidableEq α] (h : d.Wf) (element : α) {n : ℕ} {i : UInt32}
    (hn : i.toNat + n = d.size.toNat) :
    dequeIndexOfLoop d element i n = some (((d.contents.drop i.toNat).findIdx? (· = element)).map
      fun j ↦ UInt32.ofNat (i.toNat + j)) := by
  induction n generalizing i with
  | zero =>
    rw [dequeIndexOfLoop, List.drop_eq_nil_of_le (by rw [length_contents]; omega)]
    rfl
  | succ n ih =>
    have hi : i.toNat < d.contents.length := by
      rw [length_contents]
      omega
    have hbound := d.size.toNat_lt
    have hnext : (i + 1).toNat = i.toNat + 1 := by
      have hone : (1 : UInt32).toNat = 1 := rfl
      rw [UInt32.toNat_add, hone, Nat.mod_eq_of_lt (by omega)]
    have hread := h.read i hi
    have hrest := ih (i := i + 1) (by omega)
    simp only [dequeIndexOfLoop, hread, Option.bind_eq_bind, Option.bind_some]
    rw [List.drop_eq_getElem_cons hi, List.findIdx?_cons]
    by_cases heq : d.contents[i.toNat] = element
    · simp [heq]
    · simp only [heq, if_false, hrest, hnext, decide_false, Bool.false_eq_true, Option.map_map]
      congr 2
      funext j
      show UInt32.ofNat (i.toNat + 1 + j) = UInt32.ofNat (i.toNat + (j + 1))
      rw [Nat.add_assoc, Nat.add_comm 1]

/-- The first index of an equal pointer, or none. -/
theorem dequeIndexOf_of_wf [DecidableEq α] (h : d.Wf) (element : α) :
    (∀ j, d.contents.findIdx? (· = element) = some j →
      ∃ i, dequeIndexOf d element = some (.ok, some i) ∧ i.toNat = j) ∧
    (d.contents.findIdx? (· = element) = none →
      dequeIndexOf d element = some (.errOutOfRange, none)) := by
  have hloop := dequeIndexOfLoop_of_wf h element (i := 0) (n := d.size.toNat) (Nat.zero_add _)
  have hzero : (0 : UInt32).toNat = 0 := rfl
  rw [hzero, List.drop_zero] at hloop
  refine ⟨fun j hfind ↦ ?_, fun hfind ↦ ?_⟩
  · have hj : j < d.contents.length := (List.findIdx?_eq_some_iff_findIdx_eq.1 hfind).1
    have hbound := d.size.toNat_lt
    rw [length_contents] at hj
    rw [hfind] at hloop
    refine ⟨UInt32.ofNat (0 + j), by simp [dequeIndexOf, hloop], ?_⟩
    rw [Nat.zero_add, UInt32.toNat_ofNat']
    exact Nat.mod_eq_of_lt (by omega)
  · rw [hfind] at hloop
    simp [dequeIndexOf, hloop]

end Deque

/-! ### Runs -/

/-- A call, with the allocator it finds. -/
inductive DequeOp (α : Type)
  | addFirst (mem : Allocator α) (element : α)
  | addLast (mem : Allocator α) (element : α)
  | removeFirst
  | removeLast
  | getFirst
  | getLast
  | getAt (index : UInt32)
  | replaceAt (element : α) (index : UInt32)
  | removeAll
  | size
  | indexOf (element : α)
  | foreach

/-- What a call shows: a status and what it puts into `*out`, a size, an index, or the pointers it
goes through. -/
inductive DequeResult (α : Type)
  | status (st : CcStat) (out : Option α)
  | size (n : UInt32)
  | index (st : CcStat) (i : Option UInt32)
  | elements (es : List α)

/-- A call on a deque. -/
def dequeStep [DecidableEq α] (d : Deque α) : DequeOp α → Option (DequeResult α × Deque α)
  | .addFirst mem e => (dequeAddFirst mem d e).map fun (st, d') ↦ (.status st none, d')
  | .addLast mem e => (dequeAddLast mem d e).map fun (st, d') ↦ (.status st none, d')
  | .removeFirst => (dequeRemoveFirst d).map fun (st, out, d') ↦ (.status st out, d')
  | .removeLast => (dequeRemoveLast d).map fun (st, out, d') ↦ (.status st out, d')
  | .getFirst => (dequeGetFirst d).map fun (st, out) ↦ (.status st out, d)
  | .getLast => (dequeGetLast d).map fun (st, out) ↦ (.status st out, d)
  | .getAt i => (dequeGetAt d i).map fun (st, out) ↦ (.status st out, d)
  | .replaceAt e i => (dequeReplaceAt d e i).map fun (st, out, d') ↦ (.status st out, d')
  | .removeAll => some (.status .ok none, dequeRemoveAll d)
  | .size => some (.size (dequeSize d), d)
  | .indexOf e => (dequeIndexOf d e).map fun (st, i) ↦ (.index st i, d)
  | .foreach => (dequeForeach d).map fun es ↦ (.elements es, d)

/-- **What a deque stands for**: its elements, and how many fit in without growing. -/
structure DequeValue (α : Type) where
  capacity : ℕ
  elements : List α

/-- An addition: the elements become `es`, in twice the capacity where there was no room. Only where
there is none and the allocator refuses, or the capacity is the greatest, nothing changes. -/
def DequeValue.Adds (t : DequeValue α) (mem : Allocator α) (es : List α) (st : CcStat)
    (t' : DequeValue α) : Prop :=
  if t.elements.length < t.capacity then st = .ok ∧ t' = ⟨t.capacity, es⟩
  else if Deque.CanGrow mem t.capacity then st = .ok ∧ t' = ⟨2 * t.capacity, es⟩
  else st = .errAlloc ∧ t' = t

/-- **The calls on a list.** -/
def dequeSpec [DecidableEq α] (t : DequeValue α) (op : DequeOp α) (r : DequeResult α)
    (t' : DequeValue α) : Prop :=
  match op with
  | .addFirst mem e => ∃ st, r = .status st none ∧ t.Adds mem (e :: t.elements) st t'
  | .addLast mem e => ∃ st, r = .status st none ∧ t.Adds mem (t.elements ++ [e]) st t'
  | .removeFirst =>
    r = (match t.elements with
      | [] => .status .errOutOfRange none
      | e :: _ => .status .ok (some e)) ∧ t' = { t with elements := t.elements.tail }
  | .removeLast =>
    r = (match t.elements.getLast? with
      | none => .status .errOutOfRange none
      | some e => .status .ok (some e)) ∧ t' = { t with elements := t.elements.dropLast }
  | .getFirst =>
    r = (match t.elements with
      | [] => .status .errOutOfRange none
      | e :: _ => .status .ok (some e)) ∧ t' = t
  | .getLast =>
    r = (match t.elements.getLast? with
      | none => .status .errOutOfRange none
      | some e => .status .ok (some e)) ∧ t' = t
  | .getAt i => t' = t ∧
    match t.elements[i.toNat]? with
    | some e => r = .status .ok (some e)
    | none => if i.toNat = t.elements.length then ∃ e, r = .status .ok (some e)
        else r = .status .errOutOfRange none
  | .replaceAt e i =>
    r = (match t.elements[i.toNat]? with
      | some old => .status .ok (some old)
      | none => .status .errOutOfRange none) ∧
    t' = { t with elements := t.elements.set i.toNat e }
  | .removeAll => r = .status .ok none ∧ t' = { t with elements := [] }
  | .size => t' = t ∧ ∃ n, r = .size n ∧ n.toNat = t.elements.length
  | .indexOf e => t' = t ∧
    match t.elements.findIdx? (· = e) with
    | some j => ∃ i, r = .index .ok (some i) ∧ i.toNat = j
    | none => r = .index .errOutOfRange none
  | .foreach => r = .elements t.elements ∧ t' = t

namespace Deque

/-- The value of a deque. -/
def value (d : Deque α) : DequeValue α := ⟨d.capacity.toNat, d.contents⟩

/-- A deque that stands for a value. -/
def Rep (d : Deque α) (t : DequeValue α) : Prop := d.Wf ∧ t = d.value

/-- **Both additions**: make room where there is none, then put the element in place. -/
theorem adds_of_push (h : d.Wf) (push : Deque α → Option (Deque α)) (es : List α → List α)
    (hpush : ∀ d' : Deque α, d'.Wf → d'.size.toNat < d'.capacity.toNat →
      ∃ d'', push d' = some d'' ∧ d''.Wf ∧ d''.capacity = d'.capacity ∧
        d''.contents = es d'.contents)
    {full : Prop} [Decidable full] (hfull : full ↔ d.size = d.capacity) :
    ∃ st d', (do
        let (st, d) ← if full then expandCapacity mem d else some (.ok, d)
        if st ≠ .ok then some (CcStat.errAlloc, d)
        else
          let d ← push d
          some (.ok, d)) = some (st, d') ∧
      d'.Wf ∧ d.value.Adds mem (es d.contents) st d'.value := by
  rcases room_cases mem h with ⟨hroom, hne⟩ | ⟨heq, st, d', hexp, hcase⟩
  · have hlt : d.size.toNat < d.capacity.toNat := UInt32.lt_iff_toNat_lt.1 hroom
    obtain ⟨d', hd', hwf, hcap, hcont⟩ := hpush d h hlt
    refine ⟨.ok, d', ?_, hwf, ?_⟩
    · simp [hfull, hne, hd']
    · have hlen : d.value.elements.length < d.value.capacity := length_contents.trans_lt hlt
      rw [DequeValue.Adds, if_pos hlen]
      exact ⟨rfl, by rw [value, hcap, hcont, value]⟩
  · have hlen : ¬ d.value.elements.length < d.value.capacity := by
      show ¬ d.contents.length < d.capacity.toNat
      rw [length_contents, heq]
      exact Nat.lt_irrefl _
    rcases hcase with ⟨hgrow, hst, rfl⟩ | ⟨hgrow, rfl, hwf, hcont, hlt, hcap⟩
    · refine ⟨.errAlloc, d', ?_, h, ?_⟩
      · simp [hfull, heq, hexp, hst]
      · rw [DequeValue.Adds, if_neg hlen]
        exact (if_neg hgrow).mpr ⟨rfl, rfl⟩
    · obtain ⟨d'', hd'', hwf', hcap', hcont'⟩ := hpush d' hwf hlt
      refine ⟨.ok, d'', ?_, hwf', ?_⟩
      · simp [hfull, heq, hexp, hd'']
      · rw [DequeValue.Adds, if_neg hlen]
        exact (if_pos hgrow).mpr ⟨rfl, by rw [value, hcap', hcap, hcont', hcont, value]⟩

theorem dequeAddFirst_adds (mem : Allocator α) (h : d.Wf) (element : α) :
    ∃ st d', dequeAddFirst mem d element = some (st, d') ∧ d'.Wf ∧
      d.value.Adds mem (element :: d.contents) st d'.value := by
  refine adds_of_push h (pushFirst · element) (element :: ·)
    (fun d' hwf hlt ↦ pushFirst_of_wf hwf hlt element) ?_
  rw [ge_iff_le, UInt32.le_iff_toNat_le, ← UInt32.toNat_inj]
  exact ⟨fun hle ↦ Nat.le_antisymm h.size_le hle, fun heq ↦ Nat.le_of_eq heq.symm⟩

theorem dequeAddLast_adds (mem : Allocator α) (h : d.Wf) (element : α) :
    ∃ st d', dequeAddLast mem d element = some (st, d') ∧ d'.Wf ∧
      d.value.Adds mem (d.contents ++ [element]) st d'.value := by
  refine adds_of_push h (pushLast · element) (· ++ [element])
    (fun d' hwf hlt ↦ pushLast_of_wf hwf hlt element) ?_
  exact eq_comm

/-- The element at an index, also at the one behind the last element. -/
theorem dequeGetAt_of_wf [DecidableEq α] (h : d.Wf) (index : UInt32) :
    ∃ st out, dequeGetAt d index = some (st, out) ∧
      dequeSpec d.value (.getAt index) (.status st out) d.value := by
  have hlen : d.value.elements.length = d.size.toNat := length_contents
  rcases Nat.lt_trichotomy index.toNat d.value.elements.length with hlt | heq | hgt
  · have hin : ¬ index > d.size := fun hgt ↦
      absurd (UInt32.lt_iff_toNat_lt.1 hgt) (by omega)
    have hread := h.read index hlt
    refine ⟨.ok, some d.contents[index.toNat], ?_, rfl, ?_⟩
    · simp only [dequeGetAt, if_neg hin, hread, Option.bind_eq_bind, Option.bind_some]
    · rw [List.getElem?_eq_getElem hlt]
      rfl
  · have hin : ¬ index > d.size := fun hgt ↦
      absurd (UInt32.lt_iff_toNat_lt.1 hgt) (by omega)
    have hread := Block.read_of_lt (h.lt_room (d.first.toNat + index.toNat))
    rw [← h.mask_add] at hread
    refine ⟨.ok, some (d.buffer.cells ((d.first + index) &&& (d.capacity - 1)).toNat), ?_, rfl, ?_⟩
    · simp only [dequeGetAt, if_neg hin, hread, Option.bind_eq_bind, Option.bind_some]
    · rw [List.getElem?_eq_none (Nat.le_of_eq heq.symm)]
      exact (if_pos heq).mpr ⟨_, rfl⟩
  · refine ⟨.errOutOfRange, none, if_pos (UInt32.lt_iff_toNat_lt.2 (by omega)), rfl, ?_⟩
    rw [List.getElem?_eq_none (Nat.le_of_lt hgt)]
    exact (if_neg (Nat.ne_of_gt hgt)).mpr rfl

/-- **One call.** -/
theorem dequeStep_refines [DecidableEq α] :
    Refines (dequeStep (α := α)) dequeSpec Rep := by
  rintro d t op ⟨h, rfl⟩
  have hlen : d.value.elements.length = d.size.toNat := length_contents
  cases op with
  | addFirst mem e =>
    obtain ⟨st, d', hcall, hwf, hadds⟩ := dequeAddFirst_adds mem h e
    exact ⟨.status st none, d', _, by simp [dequeStep, hcall], ⟨st, rfl, hadds⟩, hwf, rfl⟩
  | addLast mem e =>
    obtain ⟨st, d', hcall, hwf, hadds⟩ := dequeAddLast_adds mem h e
    exact ⟨.status st none, d', _, by simp [dequeStep, hcall], ⟨st, rfl, hadds⟩, hwf, rfl⟩
  | removeFirst =>
    rcases hc : d.contents with - | ⟨e, es⟩
    · refine ⟨.status .errOutOfRange none, d, d.value, ?_, ?_, h, rfl⟩
      · simp [dequeStep, dequeRemoveFirst, contents_eq_nil_iff.1 hc]
      · simp [dequeSpec, value, hc]
    · obtain ⟨d', hcall, hwf, hcap, hcont⟩ := dequeRemoveFirst_of_cons h hc
      refine ⟨.status .ok (some e), d', d'.value, by simp [dequeStep, hcall], ?_, hwf, rfl⟩
      simp [dequeSpec, value, hc, hcap, hcont]
  | removeLast =>
    rcases List.eq_nil_or_concat d.contents with hc | ⟨es, e, hc⟩
    · refine ⟨.status .errOutOfRange none, d, d.value, ?_, ?_, h, rfl⟩
      · simp [dequeStep, dequeRemoveLast, contents_eq_nil_iff.1 hc]
      · simp [dequeSpec, value, hc]
    · rw [List.concat_eq_append] at hc
      obtain ⟨d', hcall, hwf, hcap, hcont⟩ := dequeRemoveLast_of_concat h hc
      refine ⟨.status .ok (some e), d', d'.value, by simp [dequeStep, hcall], ?_, hwf, rfl⟩
      simp [dequeSpec, value, hc, hcap, hcont]
  | getFirst =>
    rcases hc : d.contents with - | ⟨e, es⟩
    · refine ⟨.status .errOutOfRange none, d, d.value, ?_, ?_, h, rfl⟩
      · simp [dequeStep, dequeGetFirst, contents_eq_nil_iff.1 hc]
      · simp [dequeSpec, value, hc]
    · refine ⟨.status .ok (some e), d, d.value, ?_, ?_, h, rfl⟩
      · simp [dequeStep, dequeGetFirst_of_cons h hc]
      · simp [dequeSpec, value, hc]
  | getLast =>
    rcases List.eq_nil_or_concat d.contents with hc | ⟨es, e, hc⟩
    · refine ⟨.status .errOutOfRange none, d, d.value, ?_, ?_, h, rfl⟩
      · simp [dequeStep, dequeGetLast, contents_eq_nil_iff.1 hc]
      · simp [dequeSpec, value, hc]
    · rw [List.concat_eq_append] at hc
      refine ⟨.status .ok (some e), d, d.value, ?_, ?_, h, rfl⟩
      · simp [dequeStep, dequeGetLast_of_concat h hc]
      · simp [dequeSpec, value, hc]
  | getAt i =>
    obtain ⟨st, out, hcall, hspec⟩ := dequeGetAt_of_wf h i
    exact ⟨.status st out, d, d.value, by simp [dequeStep, hcall], hspec, h, rfl⟩
  | replaceAt e i =>
    by_cases hi : i.toNat < d.contents.length
    · obtain ⟨d', hcall, hwf, hcap, hcont⟩ := dequeReplaceAt_of_lt h e hi
      refine ⟨.status .ok (some d.contents[i.toNat]), d', d'.value, by simp [dequeStep, hcall], ?_,
        hwf, rfl⟩
      simp only [dequeSpec, value, List.getElem?_eq_getElem hi, hcap, hcont, and_self]
    · have hout : i ≥ d.size := by
        rw [length_contents] at hi
        exact UInt32.le_iff_toNat_le.2 (Nat.not_lt.1 hi)
      refine ⟨.status .errOutOfRange none, d, d.value, ?_, ?_, h, rfl⟩
      · simp [dequeStep, dequeReplaceAt, if_pos hout]
      · simp only [dequeSpec, value, List.getElem?_eq_none (Nat.not_lt.1 hi),
          List.set_eq_of_length_le (Nat.not_lt.1 hi), and_self]
  | removeAll =>
    refine ⟨.status .ok none, dequeRemoveAll d, _, rfl, ⟨rfl, rfl⟩,
      ⟨h.pow, ?_, h.room, ?_, ?_⟩, rfl⟩
    · exact Nat.zero_le _
    · exact h.capacity_pos
    · exact (Nat.zero_mod _).symm
  | size => exact ⟨.size d.size, d, d.value, rfl, ⟨rfl, d.size, rfl, hlen.symm⟩, h, rfl⟩
  | indexOf e =>
    obtain ⟨hsome, hnone⟩ := dequeIndexOf_of_wf h e
    rcases hfind : d.contents.findIdx? (· = e) with - | j
    · refine ⟨.index .errOutOfRange none, d, d.value, ?_, ⟨rfl, ?_⟩, h, rfl⟩
      · simp [dequeStep, hnone hfind]
      · simp [value, hfind]
    · obtain ⟨i, hcall, hi⟩ := hsome j hfind
      refine ⟨.index .ok (some i), d, d.value, ?_, ⟨rfl, ?_⟩, h, rfl⟩
      · simp [dequeStep, hcall]
      · simp only [value, hfind]
        exact ⟨i, rfl, hi⟩
  | foreach =>
    have hloop := dequeForeachLoop_of_wf h (i := 0) (n := d.size.toNat) (Nat.zero_add _)
    refine ⟨.elements d.contents, d, d.value, ?_, ⟨rfl, rfl⟩, h, rfl⟩
    simp only [dequeStep, dequeForeach, hloop, Option.map_some]
    rfl

/-- The deque that `deque_new` makes stands for no elements, with room for eight. -/
theorem dequeNew_rep {mem mem' : Allocator α} {d : Deque α}
    (hnew : dequeNew mem mem' = (.ok, some d)) : d.Rep ⟨8, []⟩ := by
  rw [dequeNew, dequeNewConf] at hnew
  split at hnew
  · cases hnew
  split at hnew
  · cases hnew
  · next buffer hgrant =>
    obtain rfl := Option.some.inj (Prod.mk.inj hnew).2
    obtain ⟨-, hbytes⟩ := mem'.room hgrant
    have hrequest : (defaultCapacity * sizeofPointer).toNat = 32 := by decide
    have hcap : (upperPowTwo defaultCapacity).toNat = 8 := by decide
    rw [hrequest] at hbytes
    have hroom : 8 ≤ buffer.room := by
      have h4 : sizeofPointer.toNat = 4 := rfl
      rw [h4] at hbytes
      omega
    refine ⟨⟨⟨3, hcap⟩, ?_, hcap.trans_le hroom, ?_, ?_⟩, ?_⟩
    · exact Nat.zero_le _
    · exact hcap.symm ▸ Nat.succ_pos 7
    · exact (Nat.zero_mod _).symm
    · exact congrArg (DequeValue.mk · []) hcap.symm

end Deque

end YHAudioLink
