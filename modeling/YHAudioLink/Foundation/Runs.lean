import Mathlib.Data.List.Basic

/-!
# Runs of a labelled step function

The kernel every state machine of this development is run on. A machine is a **step function**
`step : σ → α → Option σ`: a label says who moves and what the environment supplies, and `none` says
that the label is not enabled. Interleavings are therefore nothing but label sequences.

Two readings of a run are kept, and connected:

* `exec` replays a given label sequence, so a schedule can be checked by evaluation;
* `Reachable` is the least set closed under enabled steps, which is what an invariant is proved by
  induction over.

## Guarded runs

`Reachable` carries a Boolean **guard** `ok` on the state before a step and its label. With the
guard `everyStep` it is plain reachability; with any other guard it is reachability by runs *all of
whose steps meet the guard*, the form in which a law that fails in general is stated with the exact
condition it needs. Guards are Boolean so that `execOk` can replay a guarded schedule too.

Nothing here knows about tasks, packets or memory.
-/

namespace Runs

variable {σ α : Type*} {init : σ → Prop} {step : σ → α → Option σ} {ok : σ → α → Bool}

/-! ### Replaying a schedule -/

/-- Replay a label sequence; `none` as soon as a label is not enabled. -/
def exec (step : σ → α → Option σ) : σ → List α → Option σ
  | s, [] => some s
  | s, a :: as => (step s a).bind fun t ↦ exec step t as

/-- Replay a label sequence, also stopping at a step that does not meet the guard. -/
def execOk (step : σ → α → Option σ) (ok : σ → α → Bool) : σ → List α → Option σ :=
  exec fun s a ↦ if ok s a then step s a else none

theorem exec_cons_eq_some {s u : σ} {a : α} {as : List α} :
    exec step s (a :: as) = some u ↔ ∃ t, step s a = some t ∧ exec step t as = some u := by
  simp [exec, Option.bind_eq_some_iff]

/-! ### Reachability under a guard -/

/-- The guard every step meets. -/
def everyStep : σ → α → Bool := fun _ _ ↦ true

/-- The states reached from an initial state by steps that all meet the guard. -/
inductive Reachable (init : σ → Prop) (step : σ → α → Option σ) (ok : σ → α → Bool) : σ → Prop
  | init {s : σ} : init s → Reachable init step ok s
  | step {s t : σ} {a : α} : Reachable init step ok s → ok s a = true → step s a = some t →
      Reachable init step ok t

namespace Reachable

/-- **The invariant rule.** -/
theorem invariant {Inv : σ → Prop} (hinit : ∀ s, init s → Inv s)
    (hstep : ∀ s a t, Inv s → ok s a = true → step s a = some t → Inv t) {s : σ}
    (h : Reachable init step ok s) : Inv s := by
  induction h with
  | init h => exact hinit _ h
  | step _ hok hst ih => exact hstep _ _ _ ih hok hst

/-- The invariant rule where the step may also use what is already known of every reachable
state. -/
theorem invariant_of {Known Inv : σ → Prop}
    (hknown : ∀ s, Reachable init step ok s → Known s) (hinit : ∀ s, init s → Inv s)
    (hstep : ∀ s a t, Known s → Inv s → ok s a = true → step s a = some t → Inv t) {s : σ}
    (h : Reachable init step ok s) : Inv s := by
  induction h with
  | init h => exact hinit _ h
  | step hr hok hst ih => exact hstep _ _ _ (hknown _ hr) ih hok hst

/-- Reachability is closed under guarded replay. -/
theorem of_execOk {s t : σ} {as : List α} (hs : Reachable init step ok s)
    (h : execOk step ok s as = some t) : Reachable init step ok t := by
  induction as generalizing s with
  | nil => exact Option.some.inj h ▸ hs
  | cons a as ih =>
    obtain ⟨u, hu, hrest⟩ := exec_cons_eq_some.1 h
    have hok : ok s a = true := by
      by_contra hne
      simp [hne] at hu
    rw [if_pos hok] at hu
    exact ih (.step hs hok hu) hrest

end Reachable

/-- A schedule that can be replayed under the guard, and ends in a state with a checkable property,
reaches such a state. -/
theorem exists_reachable_of_execOk {s : σ} {as : List α} {p : σ → Bool} (hs : init s)
    (h : (execOk step ok s as).map p = some true) :
    ∃ t, Reachable init step ok t ∧ p t = true := by
  obtain ⟨t, ht, hp⟩ := Option.map_eq_some_iff.1 h
  exact ⟨t, Reachable.of_execOk (.init hs) ht, hp⟩

end Runs
