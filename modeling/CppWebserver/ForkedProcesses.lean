import CppWebserver.LabelledRuns
import Mathlib.Data.List.Range

/-!
# Machines that fork

A parent takes events of its own and starts processes; a process takes steps that
depend on itself alone. In every run the parent gets to where its own events take
it, and each process to where the number of its steps takes it, whatever the order
in which they come.
-/

namespace CppWebserver.ForkedProcesses
open LabelledRuns

/-- A machine with a list of processes. An event is a step of one process, or one of the
parent, which appends processes and does not look into those that there are. -/
structure Forking (σ ε C : Type*) where
  step : σ → ε → Option σ
  process : C → Option C
  processes : σ → List C
  withProcesses : σ → List C → σ
  pid : ε → Option ℕ
  own : ℕ → ε
  pid_own : ∀ i, pid (own i) = some i
  processes_with : ∀ s cs, processes (withProcesses s cs) = cs
  with_processes : ∀ s, withProcesses s (processes s) = s
  with_with : ∀ s cs ds, withProcesses (withProcesses s cs) ds = withProcesses s ds
  step_process : ∀ s e i, pid e = some i → step s e = (processes s)[i]?.bind fun c =>
    (process c).map fun d => withProcesses s ((processes s).set i d)
  step_parent : ∀ s e s', pid e = none → step s e = some s' →
    ∃ forked, ∀ cs, cs.length = (processes s).length →
      step (withProcesses s cs) e = some (withProcesses s' (cs ++ forked))

namespace Forking

variable {σ ε C : Type*} (M : Forking σ ε C)

/-- A process after a number of steps. -/
def advance : ℕ → C → Option C
  | 0, c => some c
  | n + 1, c => (M.process c).bind (advance n)

/-- The events of the parent, in their order. -/
def parentEvents (es : List ε) : List ε := es.filter fun e => (M.pid e).isNone

/-- The number of steps of a process. -/
def ownSteps (i : ℕ) (es : List ε) : ℕ := es.countP fun e => M.pid e = some i

/-- One state comes from another by a number of steps of each process. -/
structure AheadOf (k : ℕ → ℕ) (t s : σ) : Prop where
  parent : s = M.withProcesses t (M.processes s)
  length : (M.processes s).length = (M.processes t).length
  process : ∀ i c, (M.processes t)[i]? = some c → (M.processes s)[i]? = M.advance (k i) c
  idle : ∀ i, (M.processes t).length ≤ i → k i = 0

variable {M}

@[simp] theorem parentEvents_append (es fs : List ε) :
    M.parentEvents (es ++ fs) = M.parentEvents es ++ M.parentEvents fs :=
  List.filter_append ..

theorem parentEvents_cons_of_none {e : ε} (he : M.pid e = none) (es : List ε) :
    M.parentEvents (e :: es) = e :: M.parentEvents es :=
  List.filter_cons_of_pos (by rw [he]; rfl)

theorem advance_succ (n : ℕ) (c : C) : M.advance (n + 1) c = (M.advance n c).bind M.process := by
  induction n generalizing c with
  | zero => cases h : M.process c <;> simp [advance, h]
  | succ n ih =>
    have hfirst : ∀ m, M.advance (m + 1) c = (M.process c).bind (M.advance m) := fun _ => rfl
    rw [hfirst, hfirst, Option.bind_assoc]
    congr 1
    funext d
    exact ih d

/-- An event of the parent only appends to the processes. -/
theorem exists_processes_append {s s' : σ} {e : ε} (he : M.pid e = none)
    (h : M.step s e = some s') : ∃ forked, M.processes s' = M.processes s ++ forked ∧
      ∀ cs, cs.length = (M.processes s).length →
        M.step (M.withProcesses s cs) e = some (M.withProcesses s' (cs ++ forked)) := by
  obtain ⟨forked, hforked⟩ := M.step_parent s e s' he h
  refine ⟨forked, ?_, hforked⟩
  have hsame := hforked (M.processes s) rfl
  rw [M.with_processes, h, Option.some_inj] at hsame
  rw [hsame, M.processes_with]

section Ahead

variable {k : ℕ → ℕ} {t t' s s' : σ} {e : ε}

theorem AheadOf.refl (s : σ) : M.AheadOf (fun _ => 0) s s where
  parent := (M.with_processes s).symm
  length := rfl
  process := fun _ _ h => h
  idle := fun _ _ => rfl

theorem AheadOf.congr {l : ℕ → ℕ} (h : M.AheadOf k t s) (hkl : ∀ i, k i = l i) :
    M.AheadOf l t s := by
  obtain rfl : k = l := funext hkl
  exact h

/-- An event of the parent does the same ahead, and what it forks has not moved yet. -/
theorem AheadOf.parentStep (h : M.AheadOf k t s) (he : M.pid e = none)
    (ht : M.step t e = some t') : ∃ s', M.step s e = some s' ∧ M.AheadOf k t' s' := by
  obtain ⟨forked, happend, hstep⟩ := exists_processes_append he ht
  have hs := hstep (M.processes s) h.length
  rw [← h.parent] at hs
  refine ⟨_, hs, ?_, ?_, ?_, ?_⟩
  · rw [M.processes_with]
  · rw [M.processes_with, happend, List.length_append, List.length_append, h.length]
  · intro i c hc
    rw [happend] at hc
    rw [M.processes_with]
    rcases Nat.lt_or_ge i (M.processes t).length with hi | hi
    · rw [List.getElem?_append_left hi] at hc
      rw [List.getElem?_append_left (h.length ▸ hi), h.process i c hc]
    · rw [List.getElem?_append_right hi] at hc
      rw [List.getElem?_append_right (h.length ▸ hi), h.length, hc, h.idle i hi, advance]
  · intro i hi
    rw [happend, List.length_append] at hi
    exact h.idle i (Nat.le_of_add_right_le hi)

/-- What the parent can do ahead it can do behind. -/
theorem AheadOf.exists_step (h : M.AheadOf k t s) (he : M.pid e = none)
    (hs : M.step s e = some s') : ∃ t', M.step t e = some t' := by
  obtain ⟨forked, hforked⟩ := M.step_parent s e s' he hs
  have ht := hforked (M.processes t) h.length.symm
  rw [h.parent, M.with_with, M.with_processes] at ht
  exact ⟨_, ht⟩

theorem AheadOf.processStep {i : ℕ} (h : M.AheadOf k t s) (he : M.pid e = some i)
    (hs : M.step s e = some s') : M.AheadOf (fun j => k j + if i = j then 1 else 0) t s' := by
  rw [M.step_process s e i he] at hs
  obtain ⟨c, hc, hmap⟩ := Option.bind_eq_some_iff.mp hs
  obtain ⟨d, hd, rfl⟩ := Option.map_eq_some_iff.mp hmap
  obtain ⟨hi, -⟩ := List.getElem?_eq_some_iff.mp hc
  refine ⟨?_, ?_, ?_, ?_⟩
  · rw [M.processes_with, h.parent, M.with_with, ← h.parent]
  · rw [M.processes_with, List.length_set, h.length]
  · intro j b hb
    have hprocess := h.process j b hb
    rw [M.processes_with]
    by_cases hij : i = j
    · subst hij
      rw [hc] at hprocess
      rw [if_pos rfl, advance_succ, ← hprocess, List.getElem?_set_self hi, Option.bind_some, hd]
    · rw [if_neg hij, Nat.add_zero, List.getElem?_set_ne hij, hprocess]
  · intro j hj
    have hlength := h.length
    rw [h.idle j hj, if_neg (by omega)]

end Ahead

/-- In every run the parent gets to where its own events take it, and each process to
where the number of its steps takes it. -/
theorem aheadOf_of_run {s₀ s : σ} {es : List ε} (h : run M.step s₀ es = some s) :
    ∃ t, run M.step s₀ (M.parentEvents es) = some t ∧
      M.AheadOf (fun i => M.ownSteps i es) t s := by
  refine run_induction (fun es s => ∃ t, run M.step s₀ (M.parentEvents es) = some t ∧
      M.AheadOf (fun i => M.ownSteps i es) t s) ⟨s₀, rfl, .refl s₀⟩ ?_ h
  intro es s e s' ih hstep
  obtain ⟨t, ht, hahead⟩ := ih
  cases he : M.pid e with
  | none =>
    obtain ⟨t', ht'⟩ := hahead.exists_step he hstep
    obtain ⟨s'', hs'', hahead'⟩ := hahead.parentStep he ht'
    rw [hstep] at hs''
    cases hs''
    refine ⟨t', ?_, hahead'.congr fun i => by simp [ownSteps, he]⟩
    rw [parentEvents_append, run_append, ht, Option.bind_some, parentEvents_cons_of_none he]
    simpa [run, parentEvents] using ht'
  | some i =>
    refine ⟨t, by simpa [parentEvents, he] using ht, (hahead.processStep he hstep).congr ?_⟩
    intro j
    simp [ownSteps, he]

/-- A process can take its steps one after the other. -/
theorem run_replicate {s : σ} {i n : ℕ} {c d : C} (hc : (M.processes s)[i]? = some c)
    (hd : M.advance n c = some d) : run M.step s (List.replicate n (M.own i)) =
      some (M.withProcesses s ((M.processes s).set i d)) := by
  induction n generalizing s c with
  | zero =>
    obtain rfl : c = d := Option.some.inj hd
    obtain ⟨hi, rfl⟩ := List.getElem?_eq_some_iff.mp hc
    rw [List.set_getElem_self, M.with_processes]
    rfl
  | succ n ih =>
    obtain ⟨b, hb, hbd⟩ := Option.bind_eq_some_iff.mp hd
    obtain ⟨hi, -⟩ := List.getElem?_eq_some_iff.mp hc
    have hstep : M.step s (M.own i) = some (M.withProcesses s ((M.processes s).set i b)) := by
      rw [M.step_process s _ i (M.pid_own i), hc, Option.bind_some, hb, Option.map_some]
    have hrest := ih (s := M.withProcesses s ((M.processes s).set i b)) (c := b)
      (by rw [M.processes_with]; exact List.getElem?_set_self hi) hbd
    rw [M.processes_with, List.set_set, M.with_with] at hrest
    rw [List.replicate_succ, run, List.foldlM_cons, hstep]
    exact hrest

end Forking

end CppWebserver.ForkedProcesses
