import Mathlib.Data.List.Induction

/-!
# Runs of guarded machines

A machine takes a step for an event or refuses it. A run of a list of events is
refused as soon as one of them is. An invariant may speak about the events so
far as well as about the state.
-/

namespace CppWebserver.LabelledRuns

variable {σ ε : Type*} {step : σ → ε → Option σ}

/-- The state after a list of events, none of them refused. -/
def run (step : σ → ε → Option σ) (s : σ) (es : List ε) : Option σ := es.foldlM step s

theorem run_append (s : σ) (es fs : List ε) :
    run step s (es ++ fs) = (run step s es).bind (fun s' => run step s' fs) :=
  List.foldlM_append

theorem run_concat {s s'' : σ} {es : List ε} {e : ε} (h : run step s (es ++ [e]) = some s'') :
    ∃ s', run step s es = some s' ∧ step s' e = some s'' := by
  rw [run_append] at h
  obtain ⟨s', hs', hlast⟩ := Option.bind_eq_some_iff.mp h
  refine ⟨s', hs', ?_⟩
  simpa [run] using hlast

/-- Induction along a run, with the events so far at hand. -/
theorem run_induction {s₀ : σ} (P : List ε → σ → Prop) (start : P [] s₀)
    (next : ∀ es s e s', P es s → step s e = some s' → P (es ++ [e]) s')
    {es : List ε} {s : σ} (h : run step s₀ es = some s) : P es s := by
  induction es using List.reverseRecOn generalizing s with
  | nil =>
    obtain rfl : s₀ = s := Option.some.inj h
    exact start
  | append_singleton es e ih =>
    obtain ⟨s', hs', hlast⟩ := run_concat h
    exact next es s' e s (ih hs') hlast

/-- What holds at the start and is kept by every step holds after every run. -/
theorem run_invariant {s₀ : σ} (I : σ → Prop) (start : I s₀)
    (next : ∀ s e s', I s → step s e = some s' → I s')
    {es : List ε} {s : σ} (h : run step s₀ es = some s) : I s :=
  run_induction (fun _ => I) start (fun _ => next) h

/-- A rank that every step lowers bounds the length of the runs. -/
theorem length_add_rank_le {s₀ : σ} (I : σ → Prop) (rank : σ → ℕ) (start : I s₀)
    (next : ∀ s e s', I s → step s e = some s' → I s' ∧ rank s' < rank s)
    {es : List ε} {s : σ} (h : run step s₀ es = some s) : es.length + rank s ≤ rank s₀ := by
  refine (run_induction (fun es s => I s ∧ es.length + rank s ≤ rank s₀)
    ⟨start, by simp⟩ ?_ h).2
  rintro es s e s' ⟨hs, hle⟩ hstep
  obtain ⟨hs', hlt⟩ := next s e s' hs hstep
  rw [List.length_append, List.length_singleton]
  exact ⟨hs', by omega⟩

/-- If only final states refuse every event, there is a run to a final state. -/
theorem exists_run_final (I final : σ → Prop) (rank : σ → ℕ)
    (next : ∀ s e s', I s → step s e = some s' → I s' ∧ rank s' < rank s)
    (progress : ∀ s, I s → ¬ final s → ∃ e s', step s e = some s') {s : σ} (h : I s) :
    ∃ es s', run step s es = some s' ∧ I s' ∧ final s' := by
  induction hn : rank s using Nat.strongRecOn generalizing s with
  | ind n ih =>
    by_cases hfinal : final s
    · exact ⟨[], s, rfl, h, hfinal⟩
    · obtain ⟨e, s', hstep⟩ := progress s h hfinal
      obtain ⟨hs', hlt⟩ := next s e s' h hstep
      obtain ⟨es, s'', hrun, hs'', hfinal⟩ := ih (rank s') (hn ▸ hlt) hs' rfl
      refine ⟨e :: es, s'', ?_, hs'', hfinal⟩
      rw [run, List.foldlM_cons, hstep]
      exact hrun

/-- A machine that refuses more events has fewer runs. -/
theorem run_of_restricted {step' : σ → ε → Option σ}
    (hle : ∀ s e s', step' s e = some s' → step s e = some s')
    {s₀ s : σ} {es : List ε} (h : run step' s₀ es = some s) : run step s₀ es = some s := by
  refine run_induction (fun es s => run step s₀ es = some s) rfl ?_ h
  intro es s e s' hrun hstep
  rw [run_append, hrun]
  simpa [run] using hle s e s' hstep

/-- Where every step is the image of a step of another machine, every run is that of a run. -/
theorem map_run {τ : Type*} {step' : τ → ε → Option τ} (I : σ → Prop) (f : σ → τ)
    (next : ∀ s e s', I s → step s e = some s' → I s')
    (commutes : ∀ s e, I s → (step s e).map f = step' (f s) e) {s : σ} (h : I s) (es : List ε) :
    (run step s es).map f = run step' (f s) es := by
  induction es generalizing s with
  | nil => rfl
  | cons e es ih =>
    have hcommutes := commutes s e h
    rw [run, run, List.foldlM_cons, List.foldlM_cons, ← hcommutes]
    cases hstep : step s e with
    | none => rfl
    | some s' => exact ih (next s e s' h hstep)

section Endings

/-- A run from the one state to the other that cannot go on. -/
def EndsIn (step : σ → ε → Option σ) (s₀ s : σ) : Prop :=
  (∃ es, run step s₀ es = some s) ∧ ∀ e, step s e = none

theorem EndsIn.invariant {s₀ s : σ} (I : σ → Prop) (start : I s₀)
    (next : ∀ s e s', I s → step s e = some s' → I s') (h : EndsIn step s₀ s) : I s := by
  obtain ⟨es, hrun⟩ := h.1
  exact run_invariant I start next hrun

theorem EndsIn.of_run {s₀ s s' : σ} {es : List ε} (hrun : run step s₀ es = some s)
    (h : EndsIn step s s') : EndsIn step s₀ s' := by
  obtain ⟨fs, hfs⟩ := h.1
  refine ⟨⟨es ++ fs, ?_⟩, h.2⟩
  rw [run_append, hrun]
  exact hfs

/-- A machine whose steps go down in a well-founded order gets to an end. -/
theorem exists_endsIn {r : σ → σ → Prop} (hr : WellFounded r)
    (next : ∀ s e s', step s e = some s' → r s' s) (s : σ) : ∃ s', EndsIn step s s' := by
  induction s using hr.induction with
  | _ s ih =>
    by_cases hstuck : ∀ e, step s e = none
    · exact ⟨s, ⟨[], rfl⟩, hstuck⟩
    · obtain ⟨e, he⟩ := not_forall.mp hstuck
      obtain ⟨s', hs'⟩ := Option.ne_none_iff_exists'.mp he
      obtain ⟨s'', hend⟩ := ih s' (next s e s' hs')
      have hone : run step s [e] = some s' := by simpa [run] using hs'
      exact ⟨s'', hend.of_run hone⟩

end Endings

end CppWebserver.LabelledRuns
