import Mathlib.Algebra.Order.Ring.Nat
import Mathlib.Data.List.Sort
import Mathlib.Order.Basic

/-!
# Agendas as lists of delays

An **agenda** is a list of deadlines in order, each with something to be done then. A timer that
sleeps until the first of them is due need not know the time: it keeps a list of **delays**, the
first one counted from now and each of the others from the one before it. Time then passes for the
whole agenda when the first delay is made shorter, and an entry put in or taken out changes one
delay next to it.

`deadlines now l` are the deadlines a list of delays stands for, the present being `now`. Each
operation on delays is the plain operation on the deadlines:

* `delay` puts an entry behind all that are due no later (`deadlines_delay`);
* `cancel` takes out the first one that has a property (`deadlines_cancel`);
* `elapse` leaves every deadline where it is (`deadlines_elapse`).

No deadline is before the present, whatever the delays (`le_of_mem_deadlines`).
-/

namespace Agenda

variable {α : Type*}

/-- The deadlines a list of delays stands for. -/
def deadlines : ℕ → List (ℕ × α) → List (ℕ × α)
  | _, [] => []
  | now, (d, a) :: l => (now + d, a) :: deadlines (now + d) l

/-- The time to the last deadline. -/
def span (l : List (ℕ × α)) : ℕ := (l.map Prod.fst).sum

/-- A deadline put in, behind all that are no later. -/
def schedule (x : ℕ × α) (l : List (ℕ × α)) : List (ℕ × α) :=
  l.orderedInsert (fun x y ↦ x.1 < y.1) x

/-- An entry that is due after a delay. -/
def delay (d : ℕ) (a : α) : List (ℕ × α) → List (ℕ × α)
  | [] => [(d, a)]
  | (e, b) :: l => if d < e then (d, a) :: (e - d, b) :: l else (e, b) :: delay (d - e) a l

/-- The delay of an entry that is taken out goes to the next one. -/
def lend (d : ℕ) : List (ℕ × α) → List (ℕ × α)
  | [] => []
  | (e, b) :: l => (e + d, b) :: l

/-- The first entry with a property taken out. -/
def cancel (p : α → Bool) : List (ℕ × α) → List (ℕ × α)
  | [] => []
  | (d, a) :: l => if p a then lend d l else (d, a) :: cancel p l

/-- Time passes, at most up to the first deadline. -/
def elapse (t : ℕ) : List (ℕ × α) → List (ℕ × α)
  | [] => []
  | (d, a) :: l => (d - t, a) :: l

/-! ### What the operations are on the deadlines -/

theorem deadlines_delay (now d : ℕ) (a : α) (l : List (ℕ × α)) :
    deadlines now (delay d a l) = schedule (now + d, a) (deadlines now l) := by
  induction l generalizing now d with
  | nil => rfl
  | cons x l ih =>
    obtain ⟨e, b⟩ := x
    rw [delay, schedule, deadlines, List.orderedInsert_cons]
    by_cases hlt : d < e
    · rw [if_pos hlt, if_pos (Nat.add_lt_add_left hlt now), deadlines, deadlines,
        Nat.add_assoc, Nat.add_sub_cancel' hlt.le]
    · have hle := Nat.not_lt.1 hlt
      rw [if_neg hlt, if_neg (Nat.not_lt.2 (Nat.add_le_add_left hle now)), deadlines, ih,
        Nat.add_assoc, Nat.add_sub_cancel' hle]
      rfl

theorem deadlines_lend (now d : ℕ) (l : List (ℕ × α)) :
    deadlines now (lend d l) = deadlines (now + d) l := by
  cases l with
  | nil => rfl
  | cons x l => rw [lend, deadlines, deadlines, Nat.add_comm x.1, Nat.add_assoc]

theorem deadlines_cancel (now : ℕ) (p : α → Bool) (l : List (ℕ × α)) :
    deadlines now (cancel p l) = (deadlines now l).eraseP fun x ↦ p x.2 := by
  induction l generalizing now with
  | nil => rfl
  | cons x l ih =>
    obtain ⟨d, a⟩ := x
    rw [cancel, deadlines, List.eraseP_cons, Bool.cond_eq_ite]
    by_cases hp : p a
    · rw [if_pos hp, deadlines_lend, if_pos hp]
    · rw [if_neg hp, deadlines, ih, if_neg hp]

theorem deadlines_elapse {t now : ℕ} {l : List (ℕ × α)} (h : ∀ x ∈ l.head?, t ≤ x.1) :
    deadlines (now + t) (elapse t l) = deadlines now l := by
  cases l with
  | nil => rfl
  | cons x l =>
    have hle : t ≤ x.1 := h x rfl
    rw [elapse, deadlines, deadlines, Nat.add_assoc, Nat.add_sub_cancel' hle]

/-! ### Order -/

theorem le_of_mem_deadlines {now : ℕ} {l : List (ℕ × α)} {x : ℕ × α} (h : x ∈ deadlines now l) :
    now ≤ x.1 := by
  induction l generalizing now with
  | nil => cases h
  | cons y l ih =>
    rcases List.mem_cons.1 h with rfl | h
    · exact Nat.le_add_right _ _
    · exact (Nat.le_add_right _ _).trans (ih h)

theorem map_snd_deadlines (now : ℕ) (l : List (ℕ × α)) :
    (deadlines now l).map Prod.snd = l.map Prod.snd := by
  induction l generalizing now with
  | nil => rfl
  | cons x l ih => rw [deadlines, List.map_cons, List.map_cons, ih]

theorem schedule_perm (x : ℕ × α) (l : List (ℕ × α)) : (schedule x l).Perm (x :: l) :=
  List.perm_orderedInsert _ _ _

/-! ### The time to the last deadline -/

theorem span_cons (x : ℕ × α) (l : List (ℕ × α)) : span (x :: l) = x.1 + span l := rfl

/-- An entry that is put in is the last, or the last one stays. -/
theorem span_delay (d : ℕ) (a : α) (l : List (ℕ × α)) :
    span (delay d a l) = max d (span l) := by
  induction l generalizing d with
  | nil => exact (Nat.max_eq_left (Nat.zero_le d)).symm
  | cons x l ih =>
    obtain ⟨e, b⟩ := x
    rw [delay, span_cons]
    split
    · next hlt =>
      rw [span_cons, span_cons]
      show d + (e - d + span l) = max d (e + span l)
      omega
    · next hle =>
      rw [span_cons, ih]
      show e + max (d - e) (span l) = max d (e + span l)
      omega

theorem span_cancel_le (p : α → Bool) (l : List (ℕ × α)) : span (cancel p l) ≤ span l := by
  induction l with
  | nil => exact le_rfl
  | cons x l ih =>
    obtain ⟨d, a⟩ := x
    rw [cancel, span_cons]
    split
    · cases l with
      | nil => exact Nat.zero_le _
      | cons y l =>
        rw [lend, span_cons, span_cons]
        show y.1 + d + span l ≤ d + (y.1 + span l)
        omega
    · exact Nat.add_le_add_left ih d

theorem span_elapse_le (t : ℕ) (l : List (ℕ × α)) : span (elapse t l) ≤ span l := by
  cases l with
  | nil => exact le_rfl
  | cons x l => exact Nat.add_le_add_right (Nat.sub_le _ _) _

end Agenda
