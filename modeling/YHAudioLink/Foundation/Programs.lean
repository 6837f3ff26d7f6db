import YHAudioLink.Foundation.Runs

/-!
# Programs over an interface of operations

The kernel driver code is modelled on. A **program** is a tree: it returns, or it performs an
operation and goes on with what the operation answered. Nothing says what an operation does. That is
a **machine**, a step relation `step : σ → Event → σ → Prop` on a state of its own, so that one
program can be run on several machines: one that answers every read arbitrarily, one that keeps only
the bits a law is about, one that is the whole device.

Three notions are kept, and connected:

* `Steps` is the run of a program on a machine, with the events it went through. It may stop
  anywhere, so what it reaches is every state of a run and not only the last;
* `wp` is the weakest precondition, a fold over the tree: it asks `ok` of every operation about to
  be performed, and the postcondition of what is returned. The rules of programs are equations of
  `wp`;
* `interp` substitutes a program for every operation, the refinement of an interface to a lower one.

`wp` is sound for `Steps` (`ok_of_wp`, `post_of_wp`), and refining every operation refines the
program (`wp_interp`).
-/

namespace Programs

/-- A program over the operations `Op`, whose answers have the types `Ans`. -/
inductive Prog (Op : Type) (Ans : Op → Type) (α : Type) : Type
  | ret (a : α)
  | call (o : Op) (k : Ans o → Prog Op Ans α)

/-- An operation with its answer. -/
abbrev Event (Op : Type) (Ans : Op → Type) : Type := (o : Op) × Ans o

variable {Op Op' : Type} {Ans : Op → Type} {Ans' : Op' → Type} {α β σ : Type}

namespace Prog

/-- Sequencing. -/
def bind (p : Prog Op Ans α) (f : α → Prog Op Ans β) : Prog Op Ans β :=
  match p with
  | ret a => f a
  | call o k => call o fun r ↦ (k r).bind f

instance : Monad (Prog Op Ans) where
  pure := ret
  bind := bind

/-- Perform one operation and return its answer. -/
def perform (o : Op) : Prog Op Ans (Ans o) := call o ret

/-- Substitute a program for every operation. -/
def interp (h : (o : Op) → Prog Op' Ans' (Ans o)) : Prog Op Ans α → Prog Op' Ans' α
  | ret a => ret a
  | call o k => (h o).bind fun r ↦ (k r).interp h

/-- A loop: its body goes on with a new value, or leaves with a result. Where the loop has no bound
of its own, `fuel` is one, and `out` is what a run comes to that reaches it. -/
def loop {γ : Type} (out : Prog Op Ans β) (body : γ → Prog Op Ans (γ ⊕ β)) : ℕ → γ → Prog Op Ans β
  | 0, _ => out
  | fuel + 1, a => do
    let r ← body a
    match r with
    | .inl a' => loop out body fuel a'
    | .inr b => pure b

end Prog

open Prog

/-! ### Runs -/

/-- The run of a program on a machine, as far as it has got: the events so far, the rest of the
program, and the state. -/
inductive Steps (step : σ → Event Op Ans → σ → Prop) :
    Prog Op Ans α → σ → List (Event Op Ans) → Prog Op Ans α → σ → Prop
  | refl (p : Prog Op Ans α) (s : σ) : Steps step p s [] p s
  | call {o : Op} {k : Ans o → Prog Op Ans α} {r : Ans o} {s t u : σ} {tr : List (Event Op Ans)}
      {q : Prog Op Ans α} : step s ⟨o, r⟩ t → Steps step (k r) t tr q u →
      Steps step (.call o k) s (⟨o, r⟩ :: tr) q u

/-- A run that has returned. -/
def Returns (step : σ → Event Op Ans → σ → Prop) (p : Prog Op Ans α) (s : σ)
    (tr : List (Event Op Ans)) (a : α) (t : σ) : Prop :=
  Steps step p s tr (.ret a) t

/-- What a program that only returns comes to. -/
theorem returns_pure_iff {step : σ → Event Op Ans → σ → Prop} {a b : α} {s t : σ}
    {tr : List (Event Op Ans)} :
    Returns step (pure a) s tr b t ↔ tr = [] ∧ b = a ∧ t = s := by
  constructor
  · intro h
    obtain - | - := h
    exact ⟨rfl, rfl, rfl⟩
  · rintro ⟨rfl, rfl, rfl⟩
    exact .refl _ _

/-- A run that has returned, by its first operation. -/
theorem returns_perform_bind_iff {step : σ → Event Op Ans → σ → Prop} {o : Op}
    {f : Ans o → Prog Op Ans α} {b : α} {s u : σ} {tr : List (Event Op Ans)} :
    Returns step (perform o >>= f) s tr b u ↔
      ∃ r t tr', tr = ⟨o, r⟩ :: tr' ∧ step s ⟨o, r⟩ t ∧ Returns step (f r) t tr' b u := by
  constructor
  · intro h
    obtain - | ⟨hst, hrest⟩ := h
    exact ⟨_, _, _, rfl, hst, hrest⟩
  · rintro ⟨r, t, tr', rfl, hst, hrest⟩
    exact .call hst hrest

/-- A run all of whose events have a property is a run of the machine that has no others. -/
theorem Steps.restrict {step : σ → Event Op Ans → σ → Prop} {P : Event Op Ans → Prop}
    {p q : Prog Op Ans α} {s t : σ} {tr : List (Event Op Ans)} (h : Steps step p s tr q t)
    (htr : ∀ e ∈ tr, P e) : Steps (fun s e t ↦ P e ∧ step s e t) p s tr q t := by
  induction h with
  | refl => exact .refl _ _
  | call hst _ ih =>
    obtain ⟨hfirst, hrest⟩ := List.forall_mem_cons.1 htr
    exact .call ⟨hfirst, hst⟩ (ih hrest)

/-- A run of a machine is a run of one that allows more. -/
theorem Steps.mono {step step' : σ → Event Op Ans → σ → Prop} {p q : Prog Op Ans α} {s t : σ}
    {tr : List (Event Op Ans)} (hstep : ∀ s e t, step s e t → step' s e t)
    (h : Steps step p s tr q t) : Steps step' p s tr q t := by
  induction h with
  | refl => exact .refl _ _
  | call hst _ ih => exact .call (hstep _ _ _ hst) ih

/-- The machine without a state, which answers anything. -/
def anyAnswer (_ : Unit) (_ : Event Op Ans) (_ : Unit) : Prop := True

/-- Run a program against a script: what is answered, and how the machine goes on. -/
def play (answer : σ → (o : Op) → Ans o) (next : σ → Event Op Ans → σ) :
    Prog Op Ans α → σ → List (Event Op Ans) × α × σ
  | .ret a, s => ([], a, s)
  | .call o k, s =>
    let rest := play answer next (k (answer s o)) (next s ⟨o, answer s o⟩)
    (⟨o, answer s o⟩ :: rest.1, rest.2)

/-- A script the machine allows gives a run. -/
theorem returns_play {step : σ → Event Op Ans → σ → Prop} {answer : σ → (o : Op) → Ans o}
    {next : σ → Event Op Ans → σ} (hscript : ∀ s o, step s ⟨o, answer s o⟩ (next s ⟨o, answer s o⟩))
    (p : Prog Op Ans α) (s : σ) :
    Returns step p s (play answer next p s).1 (play answer next p s).2.1
      (play answer next p s).2.2 := by
  induction p generalizing s with
  | ret a => exact .refl _ _
  | call o k ih => exact .call (hscript s o) (ih _ _)

/-- Run a program against a script that need not have an answer; where it has none there is no
run. -/
def tryPlay (answer : σ → (o : Op) → Option (Ans o)) (next : σ → Event Op Ans → σ) :
    Prog Op Ans α → σ → Option (List (Event Op Ans) × α × σ)
  | .ret a, s => some ([], a, s)
  | .call o k, s => (answer s o).bind fun r ↦
    (tryPlay answer next (k r) (next s ⟨o, r⟩)).map fun rest ↦ (⟨o, r⟩ :: rest.1, rest.2)

/-- A script that has an answer to the end gives a run. -/
theorem returns_tryPlay {step : σ → Event Op Ans → σ → Prop}
    {answer : σ → (o : Op) → Option (Ans o)} {next : σ → Event Op Ans → σ}
    (hscript : ∀ s e, step s e (next s e)) {p : Prog Op Ans α} {s t : σ} {a : α}
    {tr : List (Event Op Ans)} (h : tryPlay answer next p s = some (tr, a, t)) :
    Returns step p s tr a t := by
  induction p generalizing s tr with
  | ret b =>
    obtain ⟨rfl, hrest⟩ := Prod.mk.inj (Option.some.inj h)
    obtain ⟨rfl, rfl⟩ := Prod.mk.inj hrest
    exact .refl _ _
  | call o k ih =>
    obtain ⟨r, -, hmap⟩ := Option.bind_eq_some_iff.1 h
    obtain ⟨⟨tr', b, u⟩, hplay, heq⟩ := Option.map_eq_some_iff.1 hmap
    obtain ⟨rfl, hrest⟩ := Prod.mk.inj heq
    obtain ⟨rfl, rfl⟩ := Prod.mk.inj hrest
    exact .call (hscript s ⟨o, r⟩) (ih r hplay)

/-! ### Weakest preconditions -/

/-- **The weakest precondition**: every operation about to be performed is `ok`, whatever the
machine answers, and what is returned meets the postcondition. -/
def wp (step : σ → Event Op Ans → σ → Prop) (ok : σ → Op → Prop) :
    Prog Op Ans α → (α → σ → Prop) → σ → Prop
  | .ret a, Q, s => Q a s
  | .call o k, Q, s => ok s o ∧ ∀ r t, step s ⟨o, r⟩ t → wp step ok (k r) Q t

/-- No demand on the operations. -/
def anyOp : σ → Op → Prop := fun _ _ ↦ True

section

variable {step : σ → Event Op Ans → σ → Prop} {ok : σ → Op → Prop}

@[simp] theorem wp_pure {a : α} {Q : α → σ → Prop} {s : σ} :
    wp step ok (pure a) Q s = Q a s := rfl

theorem wp_perform {o : Op} {Q : Ans o → σ → Prop} {s : σ} :
    wp step ok (perform o) Q s = (ok s o ∧ ∀ r t, step s ⟨o, r⟩ t → Q r t) := rfl

/-- **Sequencing.** -/
@[simp] theorem wp_bind {p : Prog Op Ans α} {f : α → Prog Op Ans β} {Q : β → σ → Prop} {s : σ} :
    wp step ok (p >>= f) Q s = wp step ok p (fun a t ↦ wp step ok (f a) Q t) s := by
  change wp step ok (p.bind f) Q s = _
  induction p generalizing s with
  | ret a => rfl
  | call o k ih => simp only [Prog.bind, wp, ih]

/-- **Consequence.** -/
theorem wp_mono {p : Prog Op Ans α} {Q R : α → σ → Prop} {s : σ} (h : wp step ok p Q s)
    (hQR : ∀ a t, Q a t → R a t) : wp step ok p R s := by
  induction p generalizing s with
  | ret a => exact hQR a s h
  | call o k ih => exact ⟨h.1, fun r t hst ↦ ih r (h.2 r t hst)⟩

/-- Two laws together. -/
theorem wp_and {p : Prog Op Ans α} {Q R : α → σ → Prop} {s : σ} (hQ : wp step ok p Q s)
    (hR : wp step ok p R s) : wp step ok p (fun a t ↦ Q a t ∧ R a t) s := by
  induction p generalizing s with
  | ret a => exact ⟨hQ, hR⟩
  | call o k ih => exact ⟨hQ.1, fun r t hst ↦ ih r (hQ.2 r t hst) (hR.2 r t hst)⟩

/-- Two demands on the operations together. -/
theorem wp_and_ok {ok' : σ → Op → Prop} {p : Prog Op Ans α} {Q R : α → σ → Prop} {s : σ}
    (hQ : wp step ok p Q s) (hR : wp step ok' p R s) :
    wp step (fun s o ↦ ok s o ∧ ok' s o) p (fun a t ↦ Q a t ∧ R a t) s := by
  induction p generalizing s with
  | ret a => exact ⟨hQ, hR⟩
  | call o k ih => exact ⟨⟨hQ.1, hR.1⟩, fun r t hst ↦ ih r (hQ.2 r t hst) (hR.2 r t hst)⟩

/-- **A law of a component is a law of the whole**: where every step of the machine is a step of the
smaller machine on the part `π` of its state. -/
theorem wp_comap {τ : Type} {π : σ → τ} {step' : τ → Event Op Ans → τ → Prop}
    {ok' : τ → Op → Prop} (hstep : ∀ s e t, step s e t → step' (π s) e (π t))
    (hok : ∀ s o, ok' (π s) o → ok s o) {p : Prog Op Ans α} {Q : α → τ → Prop} {s : σ}
    (h : wp step' ok' p Q (π s)) : wp step ok p (fun a t ↦ Q a (π t)) s := by
  induction p generalizing s with
  | ret a => exact h
  | call o k ih => exact ⟨hok s o h.1, fun r t hst ↦ ih r (h.2 r _ (hstep s _ t hst))⟩

/-- **A loop**, by what holds of its value and the state whenever the body begins. -/
theorem wp_loop {γ : Type} {out : Prog Op Ans β} {body : γ → Prog Op Ans (γ ⊕ β)}
    {J : γ → σ → Prop} {Q : β → σ → Prop} (hout : ∀ a s, J a s → wp step ok out Q s)
    (hbody : ∀ a s, J a s → wp step ok (body a)
      (fun r t ↦ (∀ a', r = .inl a' → J a' t) ∧ ∀ b, r = .inr b → Q b t) s)
    {fuel : ℕ} {a : γ} {s : σ} (h : J a s) : wp step ok (loop out body fuel a) Q s := by
  induction fuel generalizing a s with
  | zero => exact hout a s h
  | succ fuel ih =>
    rw [loop, wp_bind]
    refine wp_mono (hbody a s h) fun r t ht ↦ ?_
    cases r with
    | inl a' => exact ih (ht.1 a' rfl)
    | inr b => exact ht.2 b rfl

/-- The weakest precondition holds where the program is left. -/
theorem wp_of_steps {p q : Prog Op Ans α} {Q : α → σ → Prop} {s t : σ} {tr : List (Event Op Ans)}
    (h : wp step ok p Q s) (hrun : Steps step p s tr q t) : wp step ok q Q t := by
  induction hrun with
  | refl => exact h
  | call hst _ ih => exact ih (h.2 _ _ hst)

/-- **Soundness for the operations**: whatever a run is about to perform is `ok` there. -/
theorem ok_of_wp {p : Prog Op Ans α} {Q : α → σ → Prop} {s t : σ} {tr : List (Event Op Ans)}
    {o : Op}
    {k : Ans o → Prog Op Ans α} (h : wp step ok p Q s) (hrun : Steps step p s tr (.call o k) t) :
    ok t o :=
  (wp_of_steps h hrun).1

/-- **Soundness for the states**: what the `ok` operations preserve holds wherever a run has got
to. -/
theorem inv_of_wp {p q : Prog Op Ans α} {Q : α → σ → Prop} {I : σ → Prop} {s t : σ}
    {tr : List (Event Op Ans)} (h : wp step ok p Q s) (hI : I s)
    (hstep : ∀ s o r t, ok s o → I s → step s ⟨o, r⟩ t → I t) (hrun : Steps step p s tr q t) :
    I t := by
  induction hrun with
  | refl => exact hI
  | call hst _ ih => exact ih (h.2 _ _ hst) (hstep _ _ _ _ h.1 hI hst)

/-- **Soundness for the events**: what the `ok` operations are answered with holds all along a
run. -/
theorem events_of_wp {p q : Prog Op Ans α} {Q : α → σ → Prop} {P : Event Op Ans → Prop} {s t : σ}
    {tr : List (Event Op Ans)} (h : wp step ok p Q s)
    (hstep : ∀ s o r t, ok s o → step s ⟨o, r⟩ t → P ⟨o, r⟩) (hrun : Steps step p s tr q t) :
    ∀ e ∈ tr, P e := by
  induction hrun with
  | refl => exact fun _ he ↦ absurd he List.not_mem_nil
  | call hst _ ih => exact List.forall_mem_cons.2 ⟨hstep _ _ _ _ h.1 hst, ih (h.2 _ _ hst)⟩

/-- **Soundness for the result.** -/
theorem post_of_wp {p : Prog Op Ans α} {Q : α → σ → Prop} {s t : σ} {tr : List (Event Op Ans)}
    {a : α} (h : wp step ok p Q s) (hrun : Returns step p s tr a t) : Q a t :=
  wp_of_steps h hrun

/-- Where an `ok` operation is always answered, a program runs to its end. -/
theorem exists_returns_of_wp {p : Prog Op Ans α} {Q : α → σ → Prop} {s : σ}
    (hlive : ∀ s o, ok s o → ∃ r t, step s ⟨o, r⟩ t) (h : wp step ok p Q s) :
    ∃ tr a t, Returns step p s tr a t ∧ Q a t := by
  induction p generalizing s with
  | ret a => exact ⟨[], a, s, .refl _ _, h⟩
  | call o k ih =>
    obtain ⟨r, t, hst⟩ := hlive s o h.1
    obtain ⟨tr, a, u, hrun, hQ⟩ := ih r (h.2 r t hst)
    exact ⟨_, a, u, .call hst hrun, hQ⟩

/-- **Completeness for the operations**: what is `ok` wherever a run has got to is a weakest
precondition. -/
theorem wp_of_ok {p : Prog Op Ans α} {s : σ}
    (h : ∀ tr o k t, Steps step p s tr (.call o k) t → ok t o) :
    wp step ok p (fun _ _ ↦ True) s := by
  induction p generalizing s with
  | ret a => trivial
  | call o k ih =>
    refine ⟨h [] o k s (.refl _ _), fun r t hst ↦ ih r fun tr o' k' u hrun ↦ ?_⟩
    exact h _ o' k' u (.call hst hrun)

end

/-! ### What a program keeps -/

/-- **An invariant across a program**: from where it holds, every operation is `ok`, and it holds
again when the program returns. It may be broken in between. -/
def Keeps (step : σ → Event Op Ans → σ → Prop) (ok : σ → Op → Prop) (I : σ → Prop)
    (p : Prog Op Ans α) : Prop :=
  ∀ s, I s → wp step ok p (fun _ t ↦ I t) s

namespace Keeps

variable {step : σ → Event Op Ans → σ → Prop} {ok : σ → Op → Prop} {I : σ → Prop}

theorem pure (a : α) : Keeps step ok I (Pure.pure a : Prog Op Ans α) := fun _ h ↦ h

theorem perform {o : Op} (hok : ∀ s, I s → ok s o)
    (hstep : ∀ s r t, I s → step s ⟨o, r⟩ t → I t) : Keeps step ok I (perform o) :=
  fun s h ↦ ⟨hok s h, fun r t hst ↦ hstep s r t h hst⟩

theorem bind {p : Prog Op Ans α} {f : α → Prog Op Ans β} (hp : Keeps step ok I p)
    (hf : ∀ a, Keeps step ok I (f a)) : Keeps step ok I (p >>= f) := by
  intro s h
  rw [wp_bind]
  exact wp_mono (hp s h) fun a t ht ↦ hf a t ht

/-- Two steps that keep the invariant together, where the first alone may not. -/
theorem bind_bind {γ : Type} {p : Prog Op Ans α} {f : α → Prog Op Ans β} {g : β → Prog Op Ans γ}
    (hp : Keeps step ok I (p >>= f)) (hg : ∀ b, Keeps step ok I (g b)) :
    Keeps step ok I (p >>= fun a ↦ f a >>= g) := by
  intro s h
  have hboth := hp s h
  rw [wp_bind] at hboth ⊢
  refine wp_mono hboth fun a t ht ↦ ?_
  rw [wp_bind]
  exact wp_mono ht fun b u hu ↦ hg b u hu

theorem ite {c : Prop} [Decidable c] {p q : Prog Op Ans α} (hp : Keeps step ok I p)
    (hq : Keeps step ok I q) : Keeps step ok I (if c then p else q) := by
  split
  · exact hp
  · exact hq

/-- **A loop keeps what its body keeps.** -/
theorem loop {γ : Type} {out : Prog Op Ans β} {body : γ → Prog Op Ans (γ ⊕ β)}
    (hout : Keeps step ok I out) (hbody : ∀ a, Keeps step ok I (body a)) (fuel : ℕ) (a : γ) :
    Keeps step ok I (Prog.loop out body fuel a) := by
  refine fun s h ↦ wp_loop (J := fun _ s ↦ I s) (fun _ s hs ↦ hout s hs) (fun a s hs ↦ ?_) h
  exact wp_mono (hbody a s hs) fun _ t ht ↦ ⟨fun _ _ ↦ ht, fun _ _ ↦ ht⟩

/-- **A loop with a measure** does not reach the bound it is given, so nothing is asked of what
comes then. -/
theorem loop_of_measure {γ : Type} {out : Prog Op Ans β} {body : γ → Prog Op Ans (γ ⊕ β)}
    {μ : γ → ℕ} (hbody : ∀ a s, I s → wp step ok (body a)
      (fun r t ↦ I t ∧ ∀ a', r = .inl a' → μ a' < μ a) s)
    {fuel : ℕ} {a : γ} (h : μ a < fuel) : Keeps step ok I (Prog.loop out body fuel a) := by
  induction fuel generalizing a with
  | zero => exact absurd h (Nat.not_lt_zero _)
  | succ fuel ih =>
    intro s hs
    rw [Prog.loop, wp_bind]
    refine wp_mono (hbody a s hs) fun r t ht ↦ ?_
    rcases r with a' | b
    · exact ih (Nat.lt_of_lt_of_le (ht.2 a' rfl) (Nat.le_of_lt_succ h)) t ht.1
    · exact ht.1

end Keeps

/-- **Only operations with a property**, whatever is answered. -/
def Only (P : Op → Prop) (p : Prog Op Ans α) : Prop :=
  Keeps anyAnswer (fun _ o ↦ P o) (fun _ ↦ True) p

theorem Only.perform {P : Op → Prop} {o : Op} (h : P o) :
    Only P (perform o : Prog Op Ans (Ans o)) :=
  Keeps.perform (fun _ _ ↦ h) fun _ _ _ _ _ ↦ trivial

theorem Only.mono {P R : Op → Prop} {p : Prog Op Ans α} (h : Only P p) (hPR : ∀ o, P o → R o) :
    Only R p := by
  suffices hwp : ∀ s, wp anyAnswer (fun _ o ↦ P o) p (fun _ _ ↦ True) s →
      wp anyAnswer (fun _ o ↦ R o) p (fun _ _ ↦ True) s from fun s hs ↦ hwp s (h s hs)
  clear h
  induction p with
  | ret a => exact fun _ _ ↦ trivial
  | call o k ih => exact fun s hs ↦ ⟨hPR o hs.1, fun r t hst ↦ ih r t (hs.2 r t hst)⟩

/-- **The frame rule**: what every operation of a kind keeps, a program of such operations keeps. -/
theorem Only.keeps {P : Op → Prop} {step : σ → Event Op Ans → σ → Prop} {ok : σ → Op → Prop}
    {I : σ → Prop} {p : Prog Op Ans α} (h : Only P p) (hok : ∀ o s, P o → I s → ok s o)
    (hstep : ∀ o s r t, P o → I s → step s ⟨o, r⟩ t → I t) : Keeps step ok I p := by
  have hwp : wp anyAnswer (fun _ o ↦ P o) p (fun _ _ ↦ True) () := h () trivial
  clear h
  induction p with
  | ret a => exact fun _ hs ↦ hs
  | call o k ih =>
    intro s hs
    refine ⟨hok o s hwp.1 hs, fun r t hst ↦ ?_⟩
    exact ih r (hwp.2 r () trivial) t (hstep o s r t hwp.1 hs hst)

/-! ### Refining the interface -/

section

variable {step : σ → Event Op Ans → σ → Prop} {ok : σ → Op → Prop}
  {step' : σ → Event Op' Ans' → σ → Prop} {ok' : σ → Op' → Prop}

/-- Substitution of the first operation. -/
theorem interp_perform_bind {h : (o : Op) → Prog Op' Ans' (Ans o)} (o : Op)
    (f : Ans o → Prog Op Ans β) :
    (perform o >>= f).interp h = h o >>= fun r ↦ (f r).interp h := rfl

/-- Substitution goes into a sequence. -/
theorem interp_bind {h : (o : Op) → Prog Op' Ans' (Ans o)} (p : Prog Op Ans α)
    (f : α → Prog Op Ans β) :
    (p >>= f).interp h = p.interp h >>= fun a ↦ (f a).interp h := by
  change (p.bind f).interp h = (p.interp h).bind fun a ↦ (f a).interp h
  induction p with
  | ret a => rfl
  | call o k ih =>
    have hassoc (q : Prog Op' Ans' (Ans o)) :
        q.bind (fun r ↦ ((k r).bind f).interp h) =
          (q.bind fun r ↦ (k r).interp h).bind fun a ↦ (f a).interp h := by
      induction q with
      | ret r => exact ih r
      | call o' k' ih' => exact congrArg (Prog.call o') (funext fun r ↦ ih' r)
    exact hassoc (h o)

/-- Substitution goes into a loop. -/
theorem interp_loop {γ : Type} {h : (o : Op) → Prog Op' Ans' (Ans o)} (out : Prog Op Ans β)
    (body : γ → Prog Op Ans (γ ⊕ β)) (fuel : ℕ) (a : γ) :
    (loop out body fuel a).interp h =
      loop (out.interp h) (fun a ↦ (body a).interp h) fuel a := by
  induction fuel generalizing a with
  | zero => rfl
  | succ fuel ih =>
    rw [loop, loop, interp_bind]
    refine congrArg _ (funext fun r ↦ ?_)
    rcases r with a' | b
    · exact ih a'
    · rfl

/-- **Refining every operation refines the program.** Where each operation, from every state in
which it is allowed, is implemented by a program with no other effect than the operation's, a law of
the program over the operations is a law of the refined program. -/
theorem wp_interp {h : (o : Op) → Prog Op' Ans' (Ans o)}
    (himpl : ∀ o s, ok s o → wp step' ok' (h o) (fun r t ↦ step s ⟨o, r⟩ t) s)
    {p : Prog Op Ans α} {Q : α → σ → Prop} {s : σ} (hp : wp step ok p Q s) :
    wp step' ok' (p.interp h) Q s := by
  induction p generalizing s with
  | ret a => exact hp
  | call o k ih =>
    change wp step' ok' (h o >>= fun r ↦ (k r).interp h) Q s
    rw [wp_bind]
    exact wp_mono (himpl o s hp.1) fun r t hst ↦ ih r (hp.2 r t hst)

end

end Programs
