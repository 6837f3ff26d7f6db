import Mathlib.Data.Nat.Basic

/-!
# Measuring with a counter that counts down

A counter goes down by one with every count, from `top` to zero, and starts again at `top` with the
count after that; so its period is `top + 1`. Someone who wants to know how many counts have passed
reads it from time to time and adds up the differences of the readings.

Both are one division. With `k` counts since the last start before the first reading, the counter is
`top - k % (top + 1)` and has started again `k / (top + 1)` times, so that value, counts and starts
are tied by a single equation (`value_add`), and everything else is a consequence of it.

`difference` takes a reading that is higher than the one before as `top`, and not `top + 1`, counts
of a period. Such a measurement loses one count with every start (`difference_add`), and is never
ahead.
-/

namespace DownCounter

/-- How often the counter has started again, `n` counts after it was at `c`. -/
def starts (top c n : ℕ) : ℕ := (top - c + n) / (top + 1)

/-- The counter, `n` counts after it was at `c`. -/
def value (top c n : ℕ) : ℕ := top - (top - c + n) % (top + 1)

/-- What a measurement adds for a reading behind another one. -/
def difference (top old new : ℕ) : ℕ := if new < old then old - new else top - new + old

variable {top c n m : ℕ}

theorem value_le : value top c n ≤ top := Nat.sub_le _ _

/-- **Value, counts and starts.** -/
theorem value_add (hc : c ≤ top) : value top c n + n = c + (top + 1) * starts top c n := by
  have hdiv := Nat.div_add_mod (top - c + n) (top + 1)
  have hmod : (top - c + n) % (top + 1) < top + 1 := Nat.mod_lt _ (Nat.succ_pos top)
  rw [value, starts]
  omega

theorem starts_zero (hc : c ≤ top) : starts top c 0 = 0 :=
  Nat.div_eq_of_lt (by omega)

theorem value_zero (hc : c ≤ top) : value top c 0 = c := by
  have hall := value_add (n := 0) hc
  rw [starts_zero hc] at hall
  omega

/-- It has started again once there were more counts than the value allowed. -/
theorem starts_pos (hc : c ≤ top) (h : c < n) : 0 < starts top c n :=
  Nat.div_pos (by omega) (Nat.succ_pos top)

/-- Before that it has gone down. -/
theorem value_of_le (hc : c ≤ top) (h : n ≤ c) : value top c n = c - n := by
  have hall := value_add (n := n) hc
  have hnone : starts top c n = 0 := Nat.div_eq_of_lt (by omega)
  rw [hnone] at hall
  omega

theorem starts_mono (h : n ≤ m) : starts top c n ≤ starts top c m :=
  Nat.div_le_div_right (Nat.add_le_add_left h _)

/-- **At most one start in a period.** -/
theorem starts_le_succ (h : m ≤ n + (top + 1)) : starts top c m ≤ starts top c n + 1 := by
  have hperiod : starts top c (n + (top + 1)) = starts top c n + 1 := by
    rw [starts, ← Nat.add_assoc, Nat.add_div_right _ (Nat.succ_pos top)]
    rfl
  exact hperiod ▸ starts_mono h

/-- Readings less than a period apart are different if a count was made in between. -/
theorem value_ne (hc : c ≤ top) (hnm : n < m) (hm : m < n + (top + 1)) :
    value top c m ≠ value top c n := by
  intro heq
  have hn := value_add (n := n) hc
  have hm' := value_add (n := m) hc
  have hmono : starts top c n ≤ starts top c m := starts_mono (Nat.le_of_lt hnm)
  have hone : starts top c m ≤ starts top c n + 1 := starts_le_succ (Nat.le_of_lt hm)
  rcases Nat.lt_or_eq_of_le hmono with hlt | hsame
  · have hsucc : starts top c m = starts top c n + 1 := by omega
    rw [hsucc, Nat.mul_succ] at hm'
    omega
  · rw [← hsame] at hm'
    omega

/-- **A difference** of two readings that are at most a period apart is short of the counts between
them by the starts between them. -/
theorem difference_add (hc : c ≤ top) (hnm : n ≤ m) (hm : m ≤ n + (top + 1))
    (hne : value top c m ≠ value top c n) :
    difference top (value top c n) (value top c m) + starts top c m + n = starts top c n + m := by
  have hn := value_add (n := n) hc
  have hm' := value_add (n := m) hc
  have hle : value top c m ≤ top := value_le
  have hmono : starts top c n ≤ starts top c m := starts_mono hnm
  have hone : starts top c m ≤ starts top c n + 1 := starts_le_succ hm
  rw [difference]
  rcases Nat.lt_or_eq_of_le hmono with hlt | heq
  · -- one start between the readings
    have hsucc : starts top c m = starts top c n + 1 := by omega
    rw [hsucc, Nat.mul_succ] at hm'
    split <;> omega
  · rw [← heq] at hm'
    split <;> omega

/-- Equal readings may be a period apart; then a start is missed, and with it all its counts. -/
theorem starts_add_le (hc : c ≤ top) (hnm : n ≤ m) (hm : m ≤ n + (top + 1))
    (heq : value top c m = value top c n) : starts top c m + n ≤ starts top c n + m := by
  have hn := value_add (n := n) hc
  have hm' := value_add (n := m) hc
  have hmono : starts top c n ≤ starts top c m := starts_mono hnm
  have hone : starts top c m ≤ starts top c n + 1 := starts_le_succ hm
  rcases Nat.lt_or_eq_of_le hmono with hlt | hsame
  · have hsucc : starts top c m = starts top c n + 1 := by omega
    rw [hsucc, Nat.mul_succ] at hm'
    omega
  · omega

end DownCounter
