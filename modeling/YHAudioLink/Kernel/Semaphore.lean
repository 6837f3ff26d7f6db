import YHAudioLink.Kernel.Queue

/-!
# Semaphores of the kernel

The counting semaphores of the operating system, as far as tasks see them: a post adds a token, a
pend without a timeout takes one or waits.
-/

namespace YHAudioLink

/-- `OSSemPost`: the count saturates, the surplus post being refused with `OS_ERR_SEM_OVF`. -/
def osSemPost (cnt : ℕ) : ℕ := if cnt < 65535 then cnt + 1 else cnt

/-- `OSSemPend` with timeout `0`: `none` while the caller has to wait. -/
def osSemPend (cnt : ℕ) : Option ℕ := if 0 < cnt then some (cnt - 1) else none

theorem osSemPend_eq_some {cnt cnt' : ℕ} (h : osSemPend cnt = some cnt') :
    0 < cnt ∧ cnt' = cnt - 1 := by
  rw [osSemPend] at h
  split at h
  · next hpos => exact ⟨hpos, (Option.some.inj h).symm⟩
  · exact absurd h (by simp)

/-- `OSSemPend` with a timeout, 0 being none: the error and the count. -/
def osSemPendFor (cnt : ℕ) (timeout : UInt16) : Option (OsErr × ℕ) :=
  if 0 < cnt then some (.none, cnt - 1) else if timeout = 0 then none else some (.timeout, cnt)

/-- Without a timeout it is the pend above. -/
theorem osSemPendFor_zero (cnt : ℕ) :
    osSemPendFor cnt 0 = (osSemPend cnt).map fun cnt' ↦ (.none, cnt') := by
  rw [osSemPendFor, osSemPend]
  split <;> rfl

/-- **What a pend with a timeout can do**: take a token, or, where there is none, time out. -/
theorem osSemPendFor_cases {cnt cnt' : ℕ} {timeout : UInt16} {err : OsErr}
    (h : osSemPendFor cnt timeout = some (err, cnt')) :
    (err = .none ∧ cnt = cnt' + 1) ∨ (err = .timeout ∧ cnt = 0 ∧ cnt' = 0) := by
  rw [osSemPendFor] at h
  split at h
  · next hpos =>
    obtain ⟨rfl, rfl⟩ := h
    exact .inl ⟨rfl, (Nat.sub_add_cancel hpos).symm⟩
  · next hzero =>
    split at h
    · cases h
    · obtain ⟨rfl, rfl⟩ := h
      exact .inr ⟨rfl, Nat.eq_zero_of_not_pos hzero, Nat.eq_zero_of_not_pos hzero⟩

end YHAudioLink
