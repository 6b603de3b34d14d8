import CppWebserver.DirectoryTrees
import Mathlib.Data.List.Induction

/-!
# Lexical normal forms of paths

Without looking at any directory, a path is a number of steps up from its start and
then a list of names to go down: a step up cancels the name before it. Paths are
composed by composing their normal forms, and a walk that succeeds in some tree ends
where the normal form says. A path that never climbs above its start has no steps up,
and leads back there exactly when it has as many of them as names.
-/

namespace CppWebserver.LexicalPaths
open DirectoryTrees

variable {ν : Type*}

/-- Steps up that no name cancels, then names. -/
structure NormalForm (ν : Type*) where
  ups : ℕ
  names : List ν
  deriving DecidableEq

/-- The path that stays where it is. -/
def NormalForm.here : NormalForm ν := ⟨0, []⟩

def NormalForm.move : NormalForm ν → Move ν → NormalForm ν
  | n, .stay => n
  | ⟨k, []⟩, .up => ⟨k + 1, []⟩
  | ⟨k, a :: as⟩, .up => ⟨k, (a :: as).dropLast⟩
  | ⟨k, as⟩, .down a => ⟨k, as ++ [a]⟩

def normalForm (ms : List (Move ν)) : NormalForm ν := ms.foldl NormalForm.move .here

/-- One path, then the other from where it leads. -/
def NormalForm.comp (m n : NormalForm ν) : NormalForm ν where
  ups := m.ups + (n.ups - m.names.length)
  names := m.names.take (m.names.length - n.ups) ++ n.names

theorem NormalForm.move_up_of_nil {n : NormalForm ν} (h : n.names = []) :
    n.move .up = ⟨n.ups + 1, []⟩ := by
  obtain ⟨k, as⟩ := n
  subst h
  rfl

theorem NormalForm.move_up_of_ne_nil {n : NormalForm ν} (h : n.names ≠ []) :
    n.move .up = ⟨n.ups, n.names.dropLast⟩ := by
  obtain ⟨k, as⟩ := n
  cases as with
  | nil => exact absurd rfl h
  | cons a as => rfl

@[simp] theorem NormalForm.move_down (n : NormalForm ν) (a : ν) :
    n.move (.down a) = ⟨n.ups, n.names ++ [a]⟩ := by
  obtain ⟨k, as⟩ := n
  cases as <;> rfl

@[simp] theorem NormalForm.move_stay (n : NormalForm ν) : n.move .stay = n := by
  obtain ⟨k, as⟩ := n
  cases as <;> rfl

theorem normalForm_concat (ms : List (Move ν)) (m : Move ν) :
    normalForm (ms ++ [m]) = (normalForm ms).move m := by
  rw [normalForm, List.foldl_append]
  rfl

theorem NormalForm.comp_here (m : NormalForm ν) : m.comp .here = m := by
  simp [comp, here]

theorem NormalForm.comp_move (m n : NormalForm ν) (a : Move ν) :
    (m.comp n).move a = m.comp (n.move a) := by
  cases a with
  | stay => rw [move_stay, move_stay]
  | down a => simp [comp]
  | up =>
    by_cases hn : n.names = []
    · rw [move_up_of_nil hn]
      by_cases hlen : m.names.length ≤ n.ups
      · have hnil : (m.comp n).names = [] := by
          simp [comp, hn, Nat.sub_eq_zero_of_le hlen]
        rw [move_up_of_nil hnil]
        simp only [comp, Nat.sub_eq_zero_of_le (Nat.le_succ_of_le hlen), List.take_zero,
          List.append_nil, NormalForm.mk.injEq, and_true]
        omega
      · have hne : (m.comp n).names ≠ [] := by
          rw [comp, hn, List.append_nil, Ne, List.take_eq_nil_iff, ← List.length_eq_zero_iff]
          omega
        rw [move_up_of_ne_nil hne]
        simp only [comp, hn, List.append_nil, List.dropLast_eq_take, List.length_take,
          List.take_take, NormalForm.mk.injEq]
        refine ⟨by omega, ?_⟩
        congr 1
        omega
    · have hne : (m.comp n).names ≠ [] := by
        simp [comp, hn]
      rw [move_up_of_ne_nil hn, move_up_of_ne_nil hne]
      simp [comp, List.dropLast_append_of_ne_nil hn]

/-- The normal form of a path in two parts. -/
theorem normalForm_append (ms ns : List (Move ν)) :
    normalForm (ms ++ ns) = (normalForm ms).comp (normalForm ns) := by
  induction ns using List.reverseRecOn with
  | nil => rw [List.append_nil, normalForm, normalForm, List.foldl_nil, NormalForm.comp_here]
  | append_singleton ns m ih =>
    rw [← List.append_assoc, normalForm_concat, normalForm_concat, ih, NormalForm.comp_move]

/-- Where the path leads from a location. Above the root there is the root. -/
def NormalForm.apply (n : NormalForm ν) (p : List ν) : List ν :=
  p.take (p.length - n.ups) ++ n.names

theorem NormalForm.apply_move (n : NormalForm ν) (m : Move ν) (p : List ν) :
    (n.move m).apply p = m.apply (n.apply p) := by
  cases m with
  | stay => rw [move_stay, Move.apply]
  | down a => rw [move_down, apply, apply, Move.apply, List.append_assoc]
  | up =>
    by_cases hn : n.names = []
    · rw [move_up_of_nil hn, apply, apply, Move.apply, hn, List.append_nil, List.append_nil,
        List.dropLast_eq_take, List.length_take, List.take_take]
      dsimp only
      congr 1
      omega
    · rw [move_up_of_ne_nil hn, apply, apply, Move.apply, List.dropLast_append_of_ne_nil hn]

theorem foldl_apply (ms : List (Move ν)) (p : List ν) :
    ms.foldl (fun q m => m.apply q) p = (normalForm ms).apply p := by
  induction ms using List.reverseRecOn with
  | nil => simp [normalForm, NormalForm.here, NormalForm.apply]
  | append_singleton ms m ih =>
    rw [List.foldl_append, ih, normalForm_concat, NormalForm.apply_move]
    rfl

/-- A walk that finds its directories ends where the normal form says. -/
theorem walk_eq_apply {φ : Type*} (t : Tree ν φ) {p q : List ν} {ms : List (Move ν)}
    (h : t.walk p ms = some q) : q = (normalForm ms).apply p := by
  rw [← foldl_apply]
  induction ms generalizing p with
  | nil =>
    rw [Tree.walk, Option.some.injEq] at h
    exact h.symm
  | cons m ms ih =>
    rw [Tree.walk] at h
    split at h
    · rw [List.foldl_cons]
      exact ih h
    · cases h

/-- The steps up of a path. -/
def upMoves (ms : List (Move ν)) : ℕ :=
  ms.countP fun
    | .up => true
    | _ => false

/-- The names of a path. -/
def downMoves (ms : List (Move ν)) : ℕ :=
  ms.countP fun
    | .down _ => true
    | _ => false

theorem upMoves_append (ms ns : List (Move ν)) : upMoves (ms ++ ns) = upMoves ms + upMoves ns :=
  List.countP_append

theorem downMoves_append (ms ns : List (Move ν)) :
    downMoves (ms ++ ns) = downMoves ms + downMoves ns :=
  List.countP_append

/-- No beginning of the path has more steps up than names. -/
def NeverClimbs (ms : List (Move ν)) : Prop := ∀ pre, pre <+: ms → upMoves pre ≤ downMoves pre

theorem neverClimbs_iff_all (ms : List (Move ν)) :
    NeverClimbs ms ↔ (ms.inits.all fun pre => upMoves pre ≤ downMoves pre) = true := by
  simp [NeverClimbs]

instance : DecidablePred (NeverClimbs (ν := ν)) :=
  fun ms => decidable_of_iff _ (neverClimbs_iff_all ms).symm

theorem NeverClimbs.of_isPrefix {ms ns : List (Move ν)} (h : NeverClimbs ns) (hp : ms <+: ns) :
    NeverClimbs ms :=
  fun pre hpre => h pre (hpre.trans hp)

/-- Every step up cancels a name or is left over. -/
theorem length_names_add_upMoves (ms : List (Move ν)) :
    (normalForm ms).names.length + upMoves ms = downMoves ms + (normalForm ms).ups := by
  induction ms using List.reverseRecOn with
  | nil => rfl
  | append_singleton ms m ih =>
    rw [normalForm_concat, upMoves_append, downMoves_append]
    cases m with
    | stay => rwa [NormalForm.move_stay]
    | down a =>
      rw [NormalForm.move_down, List.length_append, List.length_singleton,
        show upMoves [Move.down a] = 0 from rfl, show downMoves [Move.down a] = 1 from rfl]
      dsimp only
      omega
    | up =>
      rw [show upMoves [(.up : Move ν)] = 1 from rfl, show downMoves [(.up : Move ν)] = 0 from rfl]
      by_cases hnil : (normalForm ms).names = []
      · rw [hnil, List.length_nil] at ih
        rw [NormalForm.move_up_of_nil hnil, List.length_nil]
        dsimp only
        omega
      · have hpos := List.length_pos_of_ne_nil hnil
        rw [NormalForm.move_up_of_ne_nil hnil, List.length_dropLast]
        dsimp only
        omega

theorem NeverClimbs.ups_eq_zero {ms : List (Move ν)} (h : NeverClimbs ms) :
    (normalForm ms).ups = 0 := by
  induction ms using List.reverseRecOn with
  | nil => rfl
  | append_singleton ms m ih =>
    have hups := ih (h.of_isPrefix (List.prefix_append _ _))
    rw [normalForm_concat]
    cases m with
    | stay => rwa [NormalForm.move_stay]
    | down a => rwa [NormalForm.move_down]
    | up =>
      by_cases hnil : (normalForm ms).names = []
      · have hcount := length_names_add_upMoves ms
        have hle := h _ List.prefix_rfl
        rw [hnil, hups, List.length_nil] at hcount
        rw [upMoves_append, downMoves_append, show upMoves [(.up : Move ν)] = 1 from rfl,
          show downMoves [(.up : Move ν)] = 0 from rfl] at hle
        omega
      · rwa [NormalForm.move_up_of_ne_nil hnil]

/-- A part that never climbs may be left out exactly when it leads back to its start. -/
theorem NeverClimbs.normalForm_append_eq_iff {ms : List (Move ν)} (h : NeverClimbs ms)
    (ns : List (Move ν)) :
    normalForm (ms ++ ns) = normalForm ns ↔ upMoves ms = downMoves ms := by
  have hcount := length_names_add_upMoves ms
  rw [h.ups_eq_zero] at hcount
  rw [normalForm_append]
  constructor
  · intro heq
    have hups := congrArg NormalForm.ups heq
    have hnames := congrArg (fun n => n.names.length) heq
    simp only [NormalForm.comp, h.ups_eq_zero, List.length_append, List.length_take] at hups hnames
    omega
  · intro hbalance
    have hnil : (normalForm ms).names = [] := by
      rw [← List.length_eq_zero_iff]
      omega
    simp [NormalForm.comp, h.ups_eq_zero, hnil]

end CppWebserver.LexicalPaths
