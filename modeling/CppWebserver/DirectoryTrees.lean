import Mathlib.Data.List.Infix

/-!
# Directory trees and path walks

A tree maps every location, a list of names from the root, to what is there. A
path is a list of moves, each of which looks into the directory it stands in.
Walks that stay on the line of a directory, above it or below it, see nothing
but that directory and what it holds.
-/

namespace CppWebserver.DirectoryTrees

variable {ν φ : Type*}

inductive Node (φ : Type*) where
  | absent
  | directory
  | file (data : φ)
  deriving DecidableEq

/-- A file tree without links: whatever exists lies in a directory. -/
@[ext]
structure Tree (ν φ : Type*) where
  node : List ν → Node φ
  root_directory : node [] = .directory
  parent_directory : ∀ p a, node (p ++ [a]) ≠ .absent → node p = .directory

inductive Move (ν : Type*) where
  | stay
  | up
  | down (name : ν)
  deriving DecidableEq

/-- The root is its own parent. -/
def Move.apply : Move ν → List ν → List ν
  | .stay, p => p
  | .up, p => p.dropLast
  | .down a, p => p ++ [a]

/-- The location a path leads to. Every move needs a directory to start from. -/
def Tree.walk (t : Tree ν φ) : List ν → List (Move ν) → Option (List ν)
  | p, [] => some p
  | p, m :: ms => match t.node p with
    | .directory => t.walk (m.apply p) ms
    | _ => none

/-- What a path names. -/
def Tree.find (t : Tree ν φ) (p : List ν) (ms : List (Move ν)) : Node φ :=
  match t.walk p ms with
  | some q => t.node q
  | none => .absent

@[simp] theorem Tree.find_nil (t : Tree ν φ) (p : List ν) : t.find p [] = t.node p := rfl

theorem Tree.find_cons_of_directory (t : Tree ν φ) {p : List ν} (h : t.node p = .directory)
    (m : Move ν) (ms : List (Move ν)) : t.find p (m :: ms) = t.find (m.apply p) ms := by
  simp [Tree.find, Tree.walk, h]

theorem Tree.find_cons_of_ne_directory (t : Tree ν φ) {p : List ν} (h : t.node p ≠ .directory)
    (m : Move ν) (ms : List (Move ν)) : t.find p (m :: ms) = .absent := by
  cases hp : t.node p with
  | absent => simp [Tree.find, Tree.walk, hp]
  | directory => exact absurd hp h
  | file data => simp [Tree.find, Tree.walk, hp]

/-- Every proper ancestor of something that exists is a directory. -/
theorem Tree.ancestor_directory (t : Tree ν φ) (p q : List ν) (h : t.node (p ++ q) ≠ .absent)
    (hq : q ≠ []) : t.node p = .directory := by
  induction q generalizing p with
  | nil => exact absurd rfl hq
  | cons a q ih =>
    cases q with
    | nil => exact t.parent_directory p a h
    | cons b q =>
      have ha := ih (p ++ [a]) (by simpa using h) (by simp)
      exact t.parent_directory p a (by simp [ha])

/-- What exists is found under the names on the way down to it. -/
theorem Tree.find_map_down (t : Tree ν φ) (p q : List ν) (h : t.node (p ++ q) ≠ .absent) :
    t.find p (q.map .down) = t.node (p ++ q) := by
  induction q generalizing p with
  | nil => simp
  | cons a q ih =>
    have hstep : p ++ a :: q = p ++ [a] ++ q := by simp
    have hdirectory := t.ancestor_directory p (a :: q) h (by simp)
    rw [hstep] at h ⊢
    rw [List.map_cons, t.find_cons_of_directory hdirectory]
    exact ih (p ++ [a]) h

/-- One location is an ancestor of the other, or the same. -/
def OnLine (d p : List ν) : Prop := p <+: d ∨ d <+: p

theorem OnLine.of_isPrefix {d p q : List ν} (h : OnLine d q) (hp : p <+: q) : OnLine d p := by
  rcases h with h | h
  · exact .inl (hp.trans h)
  · exact List.prefix_or_prefix_of_prefix hp h

/-- The trees cannot be told apart at or below a directory. -/
def AgreeBelow (d : List ν) (t u : Tree ν φ) : Prop := ∀ p, d <+: p → t.node p = u.node p

theorem AgreeBelow.node_eq {d : List ν} {t u : Tree ν φ} (h : AgreeBelow d t u)
    (ht : t.node d = .directory) {p : List ν} (hp : OnLine d p) : t.node p = u.node p := by
  rcases hp with ⟨q, rfl⟩ | hp
  · cases q with
    | nil => exact h p (by simp)
    | cons a q =>
      have hu : u.node (p ++ a :: q) = .directory := (h _ List.prefix_rfl).symm.trans ht
      rw [t.ancestor_directory p (a :: q) (by simp [ht]) (by simp),
        u.ancestor_directory p (a :: q) (by simp [hu]) (by simp)]
  · exact h p hp

/-- The names a path goes down. -/
def names : List (Move ν) → List ν
  | [] => []
  | .down a :: ms => a :: names ms
  | .stay :: ms => names ms
  | .up :: ms => names ms

/-- Paths that go up at most as their last move. -/
def Descends [DecidableEq ν] (ms : List (Move ν)) : Prop := Move.up ∉ ms.dropLast

section Descending

variable [DecidableEq ν]

theorem Descends.tail {m : Move ν} {ms : List (Move ν)} (h : Descends (m :: ms)) :
    Descends ms := by
  cases ms with
  | nil => simp [Descends]
  | cons b ms => exact fun hm => h (List.mem_cons_of_mem _ hm)

theorem Descends.eq_nil_of_up {ms : List (Move ν)} (h : Descends (.up :: ms)) : ms = [] := by
  cases ms with
  | nil => rfl
  | cons b ms => exact absurd List.mem_cons_self h

/-- A descending path sees only locations above its last name, so trees that
agree there give it the same answer. -/
theorem Tree.find_congr (t u : Tree ν φ) (p : List ν) (ms : List (Move ν)) (hms : Descends ms)
    (h : ∀ q, q <+: p ++ names ms → t.node q = u.node q) : t.find p ms = u.find p ms := by
  induction ms generalizing p with
  | nil => exact h p (by simp)
  | cons m ms ih =>
    have hp := h p (List.prefix_append _ _)
    by_cases hd : t.node p = .directory
    · rw [t.find_cons_of_directory hd, u.find_cons_of_directory (hp ▸ hd)]
      cases m with
      | stay => exact ih p hms.tail h
      | down a => exact ih (p ++ [a]) hms.tail (by simpa [names, Move.apply] using h)
      | up =>
        rw [hms.eq_nil_of_up]
        exact h _ ((List.dropLast_prefix p).trans (List.prefix_append _ _))
    · rw [t.find_cons_of_ne_directory hd, u.find_cons_of_ne_directory (hp ▸ hd)]

/-- Confinement: a descending path whose names stay on the line of `d` cannot
observe anything outside `d`. -/
theorem AgreeBelow.find_eq {d : List ν} {t u : Tree ν φ} (h : AgreeBelow d t u)
    (ht : t.node d = .directory) {p : List ν} {ms : List (Move ν)} (hms : Descends ms)
    (hline : OnLine d (p ++ names ms)) : t.find p ms = u.find p ms :=
  t.find_congr u p ms hms (fun _ hq => h.node_eq ht (hline.of_isPrefix hq))

theorem Tree.find_eq_directory (t : Tree ν φ) (p : List ν) (ms : List (Move ν))
    (hms : Descends ms) (h : ∀ q, q <+: p ++ names ms → t.node q = .directory) :
    t.find p ms = .directory := by
  induction ms generalizing p with
  | nil => exact h p (by simp)
  | cons m ms ih =>
    rw [t.find_cons_of_directory (h p (List.prefix_append _ _))]
    cases m with
    | stay => exact ih p hms.tail h
    | down a => exact ih (p ++ [a]) hms.tail (by simpa [names, Move.apply] using h)
    | up =>
      rw [hms.eq_nil_of_up]
      exact h _ ((List.dropLast_prefix p).trans (List.prefix_append _ _))

theorem Tree.find_eq_absent (t : Tree ν φ) (p : List ν) (ms : List (Move ν))
    (hms : Descends ms) (h : t.node (p ++ names ms) = .absent) : t.find p ms = .absent := by
  induction ms generalizing p with
  | nil => simpa [names] using h
  | cons m ms ih =>
    by_cases hd : t.node p = .directory
    · rw [t.find_cons_of_directory hd]
      cases m with
      | stay => exact ih p hms.tail h
      | down a => exact ih (p ++ [a]) hms.tail (by simpa [names, Move.apply] using h)
      | up =>
        rw [hms.eq_nil_of_up] at h
        simp [names, hd] at h
    · exact t.find_cons_of_ne_directory hd _ _

end Descending

/-- The tree that consists of the given directories and their ancestors. -/
def skeleton [DecidableEq ν] (ds : List (List ν)) : Tree ν φ where
  node p := if p = [] ∨ ∃ d ∈ ds, p <+: d then .directory else .absent
  root_directory := by simp
  parent_directory p a h := by
    have hex : ∃ d ∈ ds, p ++ [a] <+: d := by simpa using h
    obtain ⟨d, hd, hp⟩ := hex
    exact if_pos (.inr ⟨d, hd, (List.prefix_append _ _).trans hp⟩)

section Skeleton

variable [DecidableEq ν]

theorem skeleton_directory {ds : List (List ν)} {d p : List ν} (hd : d ∈ ds) (hp : p <+: d) :
    (skeleton ds : Tree ν φ).node p = .directory := if_pos (.inr ⟨d, hd, hp⟩)

theorem skeleton_absent {d p : List ν} (h : ¬ OnLine d p) :
    (skeleton [d] : Tree ν φ).node p = .absent := by
  refine if_neg ?_
  rintro (rfl | ⟨e, he, hp⟩)
  · exact h (.inl (List.nil_prefix))
  · rw [List.mem_singleton.mp he] at hp
    exact h (.inl hp)

/-- A second directory off the line of the first is not visible below the first. -/
theorem skeleton_agreeBelow {d e : List ν} (h : ¬ OnLine d e) :
    AgreeBelow d (skeleton [d, e] : Tree ν φ) (skeleton [d]) := by
  intro p hp
  have he : ¬ p <+: e := fun hpe => h (.inr (hp.trans hpe))
  simp [skeleton, he]

end Skeleton

/-- Empty directories and files in the root. -/
def flat [DecidableEq ν] (dirs : List ν) (files : List (ν × φ)) : Tree ν φ where
  node
    | [] => .directory
    | [a] => if a ∈ dirs then .directory else
        match files.lookup a with
        | some data => .file data
        | none => .absent
    | _ :: _ :: _ => .absent
  root_directory := rfl
  parent_directory p a h := by
    cases p with
    | nil => rfl
    | cons b p =>
      cases p with
      | nil => exact absurd rfl h
      | cons c p => exact absurd rfl h

end CppWebserver.DirectoryTrees
