import YHAudioLink.Foundation.Programs

/-!
# What a program adds to a log

A machine often keeps a **log**: a list that its steps only ever extend, such as what has gone over
a wire. What a program does to the log is then a segment at its end, and the segment does not depend
on what was there before. `Emits p R` says so: from every idle state `p` comes back to an idle
state, and the segment it added is one that `R` allows for what it returned.

The rules follow the shape of programs. A sequence adds its segments one after the other
(`Emits.bind`), and the second part is asked for under what is known of the first; a loop is
described by an invariant of its value and of what it has added so far (`Emits.loop`). A log may be
looked at through any function that respects concatenation (`Emits.view`).

Every run has a log of its own, the list of its events. `Traces p R` is `Emits` for that one, and it
holds of the runs of `p` on any machine (`Traces.of_returns`).
-/

namespace Programs

open Prog

variable {Op : Type} {Ans : Op → Type} {α β γ σ ε δ : Type}

/-- **What a program adds.** From every `idle` state, it returns to one, and what it has added to
`log` is a segment of the kind `R`. -/
def Emits (step : σ → Event Op Ans → σ → Prop) (idle : σ → Prop) (log : σ → List ε)
    (p : Prog Op Ans α) (R : α → List ε → Prop) : Prop :=
  ∀ s, idle s → wp step anyOp p (fun a t ↦ idle t ∧ ∃ l, log t = log s ++ l ∧ R a l) s

namespace Emits

variable {step : σ → Event Op Ans → σ → Prop} {idle : σ → Prop} {log : σ → List ε}
  {R : α → List ε → Prop} {T : β → List ε → Prop}

theorem pure {a : α} (h : R a []) : Emits step idle log (Pure.pure a) R :=
  fun _ hs ↦ ⟨hs, [], (List.append_nil _).symm, h⟩

/-- **Consequence.** -/
theorem mono {p : Prog Op Ans α} {S : α → List ε → Prop} (h : Emits step idle log p R)
    (hRS : ∀ a l, R a l → S a l) : Emits step idle log p S := by
  refine fun s hs ↦ wp_mono (h s hs) ?_
  rintro a t ⟨ht, l, hlog, hl⟩
  exact ⟨ht, l, hlog, hRS a l hl⟩

/-- An operation that leaves the machine idle. -/
theorem perform {o : Op} {S : Ans o → List ε → Prop}
    (h : ∀ s r t, idle s → step s ⟨o, r⟩ t → idle t ∧ ∃ l, log t = log s ++ l ∧ S r l) :
    Emits step idle log (Prog.perform o) S :=
  fun s hs ↦ ⟨trivial, fun r t hst ↦ h s r t hs hst⟩

/-- **Sequencing.** -/
theorem bind {p : Prog Op Ans α} {f : α → Prog Op Ans β} (hp : Emits step idle log p R)
    (hf : ∀ a l, R a l → Emits step idle log (f a) fun b l' ↦ T b (l ++ l')) :
    Emits step idle log (p >>= f) T := by
  intro s hs
  rw [wp_bind]
  refine wp_mono (hp s hs) ?_
  rintro a t ⟨ht, l, hlog, hl⟩
  refine wp_mono (hf a l hl t ht) ?_
  rintro b u ⟨hu, l', hlog', hT⟩
  refine ⟨hu, l ++ l', ?_, hT⟩
  rw [hlog', hlog, List.append_assoc]

/-- **A loop**, by what holds of its value and of what it has added whenever the body begins. -/
theorem loop {out : Prog Op Ans β} {body : γ → Prog Op Ans (γ ⊕ β)} {J : γ → List ε → Prop}
    (hout : ∀ a l, J a l → Emits step idle log out fun b l' ↦ T b (l ++ l'))
    (hbody : ∀ a l, J a l → Emits step idle log (body a) fun r l' ↦
      (∀ a', r = .inl a' → J a' (l ++ l')) ∧ ∀ b, r = .inr b → T b (l ++ l'))
    {fuel : ℕ} {a : γ} (h : J a []) : Emits step idle log (Prog.loop out body fuel a) T := by
  intro s hs
  let K : γ → σ → Prop := fun a t ↦ idle t ∧ ∃ l, log t = log s ++ l ∧ J a l
  refine wp_loop (J := K) ?_ ?_ ⟨hs, [], (List.append_nil _).symm, h⟩
  · rintro a t ⟨ht, l, hlog, hJ⟩
    refine wp_mono (hout a l hJ t ht) ?_
    rintro b u ⟨hu, l', hlog', hT⟩
    exact ⟨hu, l ++ l', by rw [hlog', hlog, List.append_assoc], hT⟩
  · rintro a t ⟨ht, l, hlog, hJ⟩
    refine wp_mono (hbody a l hJ t ht) ?_
    rintro r u ⟨hu, l', hlog', hnext, hdone⟩
    have hadd : log u = log s ++ (l ++ l') := by rw [hlog', hlog, List.append_assoc]
    exact ⟨fun a' hr ↦ ⟨hu, l ++ l', hadd, hnext a' hr⟩,
      fun b hr ↦ ⟨hu, l ++ l', hadd, hdone b hr⟩⟩

/-- The body of a loop goes on. -/
theorem again {J : γ → List ε → Prop} {a : γ} (h : J a []) :
    Emits step idle log (Pure.pure (.inl a) : Prog Op Ans (γ ⊕ β)) fun r l ↦
      (∀ a', r = .inl a' → J a' l) ∧ ∀ b, r = .inr b → T b l :=
  .pure ⟨fun _ hr ↦ Sum.inl.inj hr ▸ h, fun _ hr ↦ (by cases hr)⟩

/-- The body of a loop leaves it. -/
theorem leave {J : γ → List ε → Prop} {b : β} (h : T b []) :
    Emits step idle log (Pure.pure (.inr b) : Prog Op Ans (γ ⊕ β)) fun r l ↦
      (∀ a', r = .inl a' → J a' l) ∧ ∀ b, r = .inr b → T b l :=
  .pure ⟨fun _ hr ↦ (by cases hr), fun _ hr ↦ Sum.inr.inj hr ▸ h⟩

/-- **The log through a function that respects concatenation.** -/
theorem view {p : Prog Op Ans α} {f : List ε → List δ} (hf : ∀ l l', f (l ++ l') = f l ++ f l')
    (h : Emits step idle log p R) :
    Emits step idle (fun s ↦ f (log s)) p fun a l ↦ ∃ l₀, l = f l₀ ∧ R a l₀ := by
  refine fun s hs ↦ wp_mono (h s hs) ?_
  rintro a t ⟨ht, l, hlog, hl⟩
  have hview : f (log t) = f (log s) ++ f l := by rw [hlog, hf]
  exact ⟨ht, f l, hview, l, rfl, hl⟩

/-- What a run has added when it returns. -/
theorem of_returns {p : Prog Op Ans α} {s t : σ} {tr : List (Event Op Ans)} {a : α}
    (h : Emits step idle log p R) (hs : idle s) (hrun : Returns step p s tr a t) :
    idle t ∧ ∃ l, log t = log s ++ l ∧ R a l :=
  post_of_wp (Q := fun a t ↦ idle t ∧ ∃ l, log t = log s ++ l ∧ R a l) (h s hs) hrun

end Emits

/-! ### The log of all events -/

/-- The machine that keeps the events of its run. -/
def traceStep (l : List (Event Op Ans)) (e : Event Op Ans) (l' : List (Event Op Ans)) : Prop :=
  l' = l ++ [e]

/-- What the events of a program are, on any machine. -/
abbrev Traces (p : Prog Op Ans α) (R : α → List (Event Op Ans) → Prop) : Prop :=
  Emits traceStep (fun _ ↦ True) id p R

/-- A run of any machine is a run of the one that keeps the events. -/
theorem Steps.traced {step : σ → Event Op Ans → σ → Prop} {p q : Prog Op Ans α} {s t : σ}
    {tr : List (Event Op Ans)} (h : Steps step p s tr q t) (l : List (Event Op Ans)) :
    Steps traceStep p l tr q (l ++ tr) := by
  induction h generalizing l with
  | refl =>
    rw [List.append_nil]
    exact .refl _ _
  | @call o k r s t u tr q _ _ ih =>
    have hrest := ih (l ++ [⟨o, r⟩])
    rw [List.append_assoc, List.singleton_append] at hrest
    exact .call rfl hrest

namespace Traces

variable {R : α → List (Event Op Ans) → Prop}

theorem perform (o : Op) :
    Traces (Prog.perform o : Prog Op Ans (Ans o)) fun r l ↦ l = [⟨o, r⟩] := by
  refine Emits.perform ?_
  rintro s r _ - rfl
  exact ⟨trivial, _, rfl, rfl⟩

/-- **Soundness**, for the runs of every machine. -/
theorem of_returns {p : Prog Op Ans α} {step : σ → Event Op Ans → σ → Prop} {s t : σ}
    {tr : List (Event Op Ans)} {a : α} (h : Traces p R) (hrun : Returns step p s tr a t) :
    R a tr := by
  have htraced : Returns traceStep p [] tr a tr := Steps.traced hrun []
  obtain ⟨-, l, rfl, hl⟩ := Emits.of_returns h trivial htraced
  exact hl

/-- The events of a program are of the operations it performs. -/
theorem of_only {P : Op → Prop} {p : Prog Op Ans α} (h : Only P p) :
    Traces p fun _ l ↦ ∀ e ∈ l, P e.1 := by
  intro s _
  have hkeeps : Keeps traceStep anyOp (fun t ↦ ∃ l, t = s ++ l ∧ ∀ e ∈ l, P e.1) p := by
    refine h.keeps (fun _ _ _ _ ↦ trivial) ?_
    rintro o _ r _ ho ⟨l, rfl, hl⟩ rfl
    refine ⟨l ++ [⟨o, r⟩], List.append_assoc .., fun e he ↦ ?_⟩
    rcases List.mem_append.1 he with he | he
    · exact hl e he
    · rw [List.mem_singleton.1 he]
      exact ho
  refine wp_mono (hkeeps s ⟨[], (List.append_nil s).symm, fun _ h ↦ absurd h List.not_mem_nil⟩) ?_
  rintro a _ ⟨l, rfl, hl⟩
  exact ⟨trivial, l, rfl, hl⟩

/-- Two laws of the same events. -/
theorem and {p : Prog Op Ans α} {S : α → List (Event Op Ans) → Prop} (hR : Traces p R)
    (hS : Traces p S) : Traces p fun a l ↦ R a l ∧ S a l := by
  refine fun s hs ↦ wp_mono (wp_and (hR s hs) (hS s hs)) ?_
  rintro a t ⟨⟨ht, l, hl, hRl⟩, -, l', hl', hSl⟩
  obtain rfl : l = l' := List.append_cancel_left (hl.symm.trans hl')
  exact ⟨ht, l, hl, hRl, hSl⟩

theorem any (p : Prog Op Ans α) : Traces p fun _ _ ↦ True := by
  have honly : Only (fun _ ↦ True) p := by
    induction p with
    | ret a => exact .pure a
    | call o k ih => exact fun _ _ ↦ ⟨trivial, fun r _ _ ↦ ih r () trivial⟩
  exact Emits.mono (of_only honly) fun _ _ _ ↦ trivial

end Traces

end Programs
