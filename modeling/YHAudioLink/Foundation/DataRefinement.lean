import Mathlib.Data.List.Basic

/-!
# Data refinement

A data structure in memory stands for an abstract value, and its operations are calls: `step` takes
a state and a call to a result and the next state, and is `none` where the call does something that
has no meaning, such as an access outside an array. The abstract value has a **specification**, a
relation, so that it can leave open what the memory decides: whether an allocation is granted, what
a cell nobody has written holds.

`Refines` is the one obligation: a call on a state that stands for a value succeeds, with a result
the specification allows, and the next state stands for the value the specification reaches. From it
follows that every sequence of calls succeeds and shows results that the specification allows one
after the other (`Refines.run`).
-/

namespace DataRefinement

variable {σ τ ι ρ : Type*}

/-- The calls made one after the other, with their results. -/
def run (step : σ → ι → Option (ρ × σ)) : σ → List ι → Option (List ρ × σ)
  | s, [] => some ([], s)
  | s, i :: is => do
    let (r, s') ← step s i
    let (rs, s'') ← run step s' is
    some (r :: rs, s'')

/-- The results the specification allows one after the other, and the value it reaches. -/
inductive Allowed (spec : τ → ι → ρ → τ → Prop) : τ → List ι → List ρ → τ → Prop
  | nil (t : τ) : Allowed spec t [] [] t
  | cons {t t' t'' : τ} {i : ι} {is : List ι} {r : ρ} {rs : List ρ} : spec t i r t' →
      Allowed spec t' is rs t'' → Allowed spec t (i :: is) (r :: rs) t''

/-- **Data refinement**, under the representation relation `rep`. -/
def Refines (step : σ → ι → Option (ρ × σ)) (spec : τ → ι → ρ → τ → Prop)
    (rep : σ → τ → Prop) : Prop :=
  ∀ s t i, rep s t → ∃ r s' t', step s i = some (r, s') ∧ spec t i r t' ∧ rep s' t'

variable {step : σ → ι → Option (ρ × σ)} {spec : τ → ι → ρ → τ → Prop} {rep : σ → τ → Prop}

/-- **Every sequence of calls succeeds, as the specification allows.** -/
theorem Refines.run (h : Refines step spec rep) {s : σ} {t : τ} (hrep : rep s t) (is : List ι) :
    ∃ rs s' t', run step s is = some (rs, s') ∧ Allowed spec t is rs t' ∧ rep s' t' := by
  induction is generalizing s t with
  | nil => exact ⟨[], s, t, rfl, .nil t, hrep⟩
  | cons i is ih =>
    obtain ⟨r, s', t', hstep, hspec, hrep'⟩ := h s t i hrep
    obtain ⟨rs, s'', t'', hrun, hallowed, hrep''⟩ := ih hrep'
    refine ⟨r :: rs, s'', t'', ?_, .cons hspec hallowed, hrep''⟩
    simp [DataRefinement.run, hstep, hrun]

end DataRefinement
