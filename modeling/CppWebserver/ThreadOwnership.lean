import CppWebserver.LabelledRuns
import CppWebserver.Ownership
import Mathlib.Data.Finset.Range

/-!
# Threads and the objects that own them

A thread that has been started is joinable until it is joined or detached, and it is in the
hands of one object at a time: a `std::thread`, or a guard or a lord that has taken it over.
The constructor of `thread_guard` looks for the thread in the parameter that it has just taken
it from.
-/

namespace CppWebserver.ThreadOwnership
open LabelledRuns Ownership

/-- The objects with a `std::thread` in them, by the names of the variables. -/
inductive Name (ν : Type) where
  | thread (x : ν)
  | lord (x : ν)
  | guard (x : ν)
  deriving DecidableEq

/-- What a call throws. -/
inductive Exception where
  | logicError (what : String)
  | systemError
  deriving DecidableEq

/-- Threads have the numbers of their starts. A program catches what is thrown and goes on. -/
structure State (ν : Type) where
  started : ℕ
  joinable : Finset ℕ
  objects : Objects (Name ν) ℕ
  thrown : List Exception
  terminated : Bool

variable {ν : Type} [DecidableEq ν]

def State.start : State ν :=
  { started := 0, joinable := ∅, objects := fun _ => none, thrown := [], terminated := false }

def State.throw (e : Exception) (s : State ν) : State ν := { s with thrown := s.thrown ++ [e] }

/-- `std::terminate()` -/
def State.terminate (s : State ν) : State ν := { s with terminated := true }

/-- `std::thread` out of an rvalue: the new object and what is left of the old one. -/
def move (thread : Option ℕ) : Option ℕ × Option ℕ := (thread, none)

/-- `~thread()` for a member or a variable that is gone. -/
def destroyThread (thread : Option ℕ) (s : State ν) : State ν :=
  match thread with
  | none => s
  | some _ => s.terminate

/-- `std::thread x(function)` -/
def startThread (x : ν) (s : State ν) : Option (State ν) :=
  match s.objects (.thread x) with
  | some _ => none
  | none =>
    some { s with
      started := s.started + 1
      joinable := insert s.started s.joinable
      objects := put s.objects (.thread x) (some (some s.started)) }

/-- `std::thread x(std::move(y))` -/
def moveThread (x y : ν) (s : State ν) : Option (State ν) :=
  match s.objects (.thread x), s.objects (.thread y) with
  | none, some other =>
    let (new, old) := move other
    some { s with objects := put (put s.objects (.thread x) (some new)) (.thread y) (some old) }
  | _, _ => none

/-- `x.join()` and `x.detach()`: after either the object is in charge of nothing. -/
def giveUp (x : Name ν) (s : State ν) : Option (State ν) :=
  match s.objects x with
  | none => none
  | some none => some (s.throw .systemError)
  | some (some thread) =>
    some { s with joinable := s.joinable.erase thread, objects := put s.objects x (some none) }

/-- The end of the variable `x`. -/
def endThread (x : ν) (s : State ν) : Option (State ν) :=
  match s.objects (.thread x) with
  | none => none
  | some thread =>
    some (destroyThread thread { s with objects := put s.objects (.thread x) none })

/-- `thread_lord(std::thread& inThread) : fThread(std::move(inThread))` -/
def threadLord (l inThread : ν) (s : State ν) : Option (State ν) :=
  match s.objects (.lord l), s.objects (.thread inThread) with
  | none, some thread =>
    let (fThread, inThread') := move thread
    some { s with
      objects := put (put s.objects (.lord l) (some fThread)) (.thread inThread) (some inThread') }
  | _, _ => none

/-- `~thread_lord()` -/
def endLord (l : ν) (s : State ν) : Option (State ν) :=
  match s.objects (.lord l) with
  | none => none
  | some none => some { s with objects := put s.objects (.lord l) none }
  | some (some fThread) =>
    some { s with
      joinable := s.joinable.erase fThread, objects := put s.objects (.lord l) none }

/-- `explicit thread_guard(std::thread inThread) : fThread(std::move(inThread))`, called with
`std::move(x)`. -/
def threadGuard (g x : ν) (s : State ν) : Option (State ν) :=
  match s.objects (.guard g), s.objects (.thread x) with
  | none, some thread =>
    let (inThread, left) := move thread
    let s := { s with objects := put s.objects (.thread x) (some left) }
    let (fThread, inThread) := move inThread
    match inThread with
    | some _ =>
      let s := { s with objects := put s.objects (.guard g) (some fThread) }
      some (destroyThread inThread s)
    -- no object comes into being, and its member is destroyed
    | none => some (destroyThread fThread (s.throw (.logicError "No thread")))
  | _, _ => none

/-- `~thread_guard()`; an exception does not leave a destructor. -/
def endGuard (g : ν) (s : State ν) : Option (State ν) :=
  match s.objects (.guard g) with
  | none => none
  | some none => some s.terminate
  | some (some fThread) =>
    some { s with
      joinable := s.joinable.erase fThread, objects := put s.objects (.guard g) none }

/-- What a program does with threads and their owners. -/
inductive Op (ν : Type) where
  | startThread (x : ν)
  | moveThread (x y : ν)
  | join (x : ν)
  | detach (x : ν)
  | endThread (x : ν)
  | threadLord (l inThread : ν)
  | endLord (l : ν)
  | threadGuard (g x : ν)
  | endGuard (g : ν)

/-- One step of a program that has not been terminated, if the objects that it names are there
and the one that it begins is not. -/
def step (s : State ν) (op : Op ν) : Option (State ν) :=
  if s.terminated then none
  else
    match op with
    | .startThread x => startThread x s
    | .moveThread x y => moveThread x y s
    | .join x | .detach x => giveUp (.thread x) s
    | .endThread x => endThread x s
    | .threadLord l inThread => threadLord l inThread s
    | .endLord l => endLord l s
    | .threadGuard g x => threadGuard g x s
    | .endGuard g => endGuard g s

/-- Every joinable thread has one owner, which is no guard. -/
structure State.Valid (s : State ν) : Prop where
  exclusive : Exclusive s.objects s.joinable
  joinable_lt : ∀ t ∈ s.joinable, t < s.started
  noGuard : ∀ g, s.objects (.guard g) = none

section Steps

variable {s s' : State ν} {x y : ν}

omit [DecidableEq ν] in
theorem guard_ne_thread (x g : ν) : Name.guard g ≠ .thread x := by simp

theorem noGuard_put {objects : Objects (Name ν) ℕ} (h : ∀ g, objects (.guard g) = none)
    {n : Name ν} (hn : ∀ g, Name.guard g ≠ n) (o : Option (Option ℕ)) (g : ν) :
    put objects n o (.guard g) = none := by
  rw [put_of_ne objects (hn g), h g]

theorem State.Valid.startThread (h : s.Valid) (hstep : startThread x s = some s') : s'.Valid := by
  rw [ThreadOwnership.startThread] at hstep
  split at hstep
  · cases hstep
  · next hx =>
    cases hstep
    have hnew : s.started ∉ s.joinable := fun hmem => (h.joinable_lt _ hmem).false
    constructor
    · exact h.exclusive.acquire (not_owns_of_dead hx) hnew
    · intro t ht
      rcases Finset.mem_insert.mp ht with rfl | ht
      · exact Nat.lt_succ_self _
      · exact (h.joinable_lt t ht).trans (Nat.lt_succ_self _)
    · exact noGuard_put h.noGuard (guard_ne_thread x) (some (some s.started))

/-- A thread goes from a variable to an object of another name. -/
theorem State.Valid.hand (h : s.Valid) {n : Name ν} (hn : s.objects n = none)
    (hguard : ∀ g, .guard g ≠ n) {thread : Option ℕ} (hy : s.objects (.thread y) = some thread) :
    State.Valid
      { s with objects := put (put s.objects n (some thread)) (.thread y) (some none) } := by
  have hne : n ≠ .thread y := by
    rintro rfl
    rw [hn] at hy
    cases hy
  rw [← hy]
  refine ⟨h.exclusive.hand hne (not_owns_of_dead hn), h.joinable_lt, ?_⟩
  exact noGuard_put (noGuard_put h.noGuard hguard _) (guard_ne_thread y) (some none)

theorem State.Valid.moveThread (h : s.Valid) (hstep : moveThread x y s = some s') :
    s'.Valid := by
  rw [ThreadOwnership.moveThread] at hstep
  split at hstep
  · next hx hy =>
    cases hstep
    exact h.hand hx (by simp) hy
  · cases hstep

theorem State.Valid.threadLord {l : ν} (h : s.Valid) (hstep : threadLord l x s = some s') :
    s'.Valid := by
  rw [ThreadOwnership.threadLord] at hstep
  split at hstep
  · next hl hx =>
    cases hstep
    exact h.hand hl (by simp) hx
  · cases hstep

omit [DecidableEq ν] in
theorem State.Valid.guard_ne (h : s.Valid) {n : Name ν} {o : Option ℕ} (hn : s.objects n = some o)
    (g : ν) : Name.guard g ≠ n := by
  rintro rfl
  rw [h.noGuard g] at hn
  cases hn

/-- A thread that is joined or detached leaves its object without one, or ends with it. -/
theorem State.Valid.release (h : s.Valid) {n : Name ν} {t : ℕ} (hn : s.objects n = some (some t))
    {o : Option (Option ℕ)} (ho : o = none ∨ o = some none) :
    State.Valid { s with joinable := s.joinable.erase t, objects := put s.objects n o } := by
  have hempty : ∀ q, o ≠ some (some q) := by rcases ho with rfl | rfl <;> simp
  refine ⟨h.exclusive.release hn hempty, ?_, noGuard_put h.noGuard (h.guard_ne hn) _⟩
  intro q hq
  exact h.joinable_lt q (Finset.mem_of_mem_erase hq)

/-- An object without a thread ends, or stays as it is. -/
theorem State.Valid.putEmpty (h : s.Valid) {n : Name ν} (hn : s.objects n = some none)
    {o : Option (Option ℕ)} (ho : o = none ∨ o = some none) :
    State.Valid { s with objects := put s.objects n o } := by
  have hempty : ∀ q, o ≠ some (some q) := by rcases ho with rfl | rfl <;> simp
  exact ⟨h.exclusive.put_empty (not_owns_of_empty hn) hempty, h.joinable_lt,
    noGuard_put h.noGuard (h.guard_ne hn) _⟩

theorem State.Valid.giveUp (h : s.Valid) (hstep : giveUp (.thread x) s = some s') : s'.Valid := by
  rw [ThreadOwnership.giveUp] at hstep
  split at hstep
  · cases hstep
  · cases hstep
    exact ⟨h.exclusive, h.joinable_lt, h.noGuard⟩
  · next hx =>
    cases hstep
    exact h.release hx (.inr rfl)

theorem State.Valid.endThread (h : s.Valid) (hstep : endThread x s = some s')
    (hgoes : s'.terminated = false) : s'.Valid := by
  rw [ThreadOwnership.endThread] at hstep
  split at hstep
  · cases hstep
  · next thread hx =>
    cases hstep
    cases thread with
    | none => exact h.putEmpty hx (.inl rfl)
    | some t => cases hgoes

theorem State.Valid.endLord {l : ν} (h : s.Valid) (hstep : endLord l s = some s') : s'.Valid := by
  rw [ThreadOwnership.endLord] at hstep
  split at hstep
  · cases hstep
  · next hl =>
    cases hstep
    exact h.putEmpty hl (.inl rfl)
  · next hl =>
    cases hstep
    exact h.release hl (.inl rfl)

/-- The constructor of `thread_guard` does not return: it terminates the program for a joinable
thread, and for any other it throws. -/
theorem threadGuard_eq {g : ν} {thread : Option ℕ} (hg : s.objects (.guard g) = none)
    (hx : s.objects (.thread x) = some thread) :
    threadGuard g x s =
      some (destroyThread thread
        (State.throw (.logicError "No thread")
          { s with objects := put s.objects (.thread x) (some none) })) := by
  rw [threadGuard, hg, hx]
  rfl

theorem State.Valid.threadGuard {g : ν} (h : s.Valid) (hstep : threadGuard g x s = some s')
    (hgoes : s'.terminated = false) : s'.Valid := by
  cases hx : s.objects (.thread x) with
  | none =>
    rw [ThreadOwnership.threadGuard, h.noGuard g, hx] at hstep
    cases hstep
  | some thread =>
    rw [threadGuard_eq (h.noGuard g) hx] at hstep
    cases hstep
    cases thread with
    | none =>
      have hput := h.putEmpty hx (.inr rfl)
      exact ⟨hput.exclusive, hput.joinable_lt, hput.noGuard⟩
    | some t => cases hgoes

theorem State.Valid.step (h : s.terminated = false → s.Valid) {op : Op ν}
    (hstep : step s op = some s') (hgoes : s'.terminated = false) : s'.Valid := by
  cases hterminated : s.terminated with
  | true => simp [ThreadOwnership.step, hterminated] at hstep
  | false =>
    have hvalid := h hterminated
    simp only [ThreadOwnership.step, hterminated, Bool.false_eq_true, if_false] at hstep
    cases op with
    | startThread x => exact hvalid.startThread hstep
    | moveThread x y => exact hvalid.moveThread hstep
    | join x | detach x => exact hvalid.giveUp hstep
    | endThread x => exact hvalid.endThread hstep hgoes
    | threadLord l x => exact hvalid.threadLord hstep
    | endLord l => exact hvalid.endLord hstep
    | threadGuard g x => exact hvalid.threadGuard hstep hgoes
    | endGuard g =>
      -- there is no guard to end
      change endGuard g s = some s' at hstep
      rw [endGuard, hvalid.noGuard g] at hstep
      cases hstep

end Steps

omit [DecidableEq ν] in
theorem State.Valid.start : (State.start : State ν).Valid where
  exclusive := .start
  joinable_lt := by simp [State.start]
  noGuard := fun _ => rfl

theorem State.Valid.of_run {s : State ν} {ops : List (Op ν)}
    (h : run ThreadOwnership.step State.start ops = some s) :
    s.terminated = false → s.Valid :=
  run_invariant (fun s : State ν => s.terminated = false → s.Valid) (fun _ => State.Valid.start)
    (fun _ _ _ hs hstep => State.Valid.step hs hstep) h

/-- The step ends a variable that still has its thread, or makes a guard of such a variable. -/
def Fatal (s : State ν) (op : Op ν) : Prop :=
  ∃ x t, s.objects (.thread x) = some (some t) ∧
    (op = .endThread x ∨ ∃ g, op = .threadGuard g x)

theorem terminated_iff_fatal {s s' : State ν} (h : s.Valid) (hgoes : s.terminated = false)
    {op : Op ν} (hstep : step s op = some s') : s'.terminated = true ↔ Fatal s op := by
  have hquiet : s'.terminated = false → ¬ Fatal s op → (s'.terminated = true ↔ Fatal s op) := by
    intro hfalse hnot
    rw [hfalse]
    exact iff_of_false (by simp) hnot
  simp only [step, hgoes, Bool.false_eq_true, if_false] at hstep
  cases op with
  | startThread x | moveThread x y | join x | detach x | threadLord l x | endLord l =>
    -- these throw at most
    simp only [startThread, moveThread, giveUp, threadLord, endLord] at hstep
    split at hstep <;> cases hstep
    all_goals exact hquiet hgoes (by simp [Fatal])
  | endThread x =>
    change endThread x s = some s' at hstep
    rw [endThread] at hstep
    split at hstep
    · cases hstep
    · next thread hx =>
      cases hstep
      cases thread with
      | none => exact hquiet hgoes (by simp [Fatal, hx])
      | some t => exact iff_of_true rfl ⟨x, t, hx, .inl rfl⟩
  | threadGuard g x =>
    change threadGuard g x s = some s' at hstep
    cases hx : s.objects (.thread x) with
    | none =>
      rw [threadGuard, h.noGuard g, hx] at hstep
      cases hstep
    | some thread =>
      rw [threadGuard_eq (h.noGuard g) hx] at hstep
      cases hstep
      cases thread with
      | none => exact hquiet hgoes (by simp [Fatal, hx])
      | some t => exact iff_of_true rfl ⟨x, t, hx, .inr ⟨g, rfl⟩⟩
  | endGuard g =>
    change endGuard g s = some s' at hstep
    rw [endGuard, h.noGuard g] at hstep
    cases hstep

/-- In a program that has not been terminated every joinable thread is in the hands of one
variable or lord, and no `thread_guard` has come into being: with all objects gone, all threads
have been joined or detached. What terminates the program next is the end of a variable that
still has its thread, or the attempt to guard it. -/
theorem thread_owner {s : State ν} {ops : List (Op ν)} (h : run step State.start ops = some s)
    (hgoes : s.terminated = false) :
    (∀ t, t ∈ s.joinable ↔ ∃! n, s.objects n = some (some t)) ∧
      (∀ g, s.objects (.guard g) = none) ∧
      ((∀ n, s.objects n = none) → s.joinable = ∅) ∧
      ∀ op s', step s op = some s' → (s'.terminated = true ↔ Fatal s op) := by
  have hvalid := State.Valid.of_run h hgoes
  refine ⟨hvalid.exclusive.existsUnique_iff, hvalid.noGuard, hvalid.exclusive.eq_empty, ?_⟩
  intro op s' hstep
  exact terminated_iff_fatal hvalid hgoes hstep

/-- The thread of `CreateNewThread` under a lord, and the end of both. -/
theorem thread_owner_lord :
    ∃ s, run step State.start
        [.startThread 0, .moveThread 1 0, .endThread 0, .threadLord 2 1, .endLord 2,
          .endThread (1 : ℕ)] = some s ∧
      ∀ t, t ∈ s.joinable ↔ ∃! n, s.objects n = some (some t) := by
  obtain ⟨s, hs, hgoes⟩ : ∃ s, run step State.start
      [.startThread 0, .moveThread 1 0, .endThread 0, .threadLord 2 1, .endLord 2,
        .endThread (1 : ℕ)] = some s ∧ s.terminated = false := ⟨_, rfl, rfl⟩
  exact ⟨s, hs, (thread_owner hs hgoes).1⟩

end CppWebserver.ThreadOwnership
