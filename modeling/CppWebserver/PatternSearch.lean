import Mathlib.Data.List.Infix
import Mathlib.Data.List.TakeWhile

/-!
# First occurrence of a pattern in a list

The executable search returns the least offset at which a pattern occurs. Its
specification is the order-theoretic one: an occurrence at the offset and none
before it. The rules below skip a prefix that cannot take part in a match, and
cut a list at its first separator.
-/

namespace CppWebserver.PatternSearch

variable {α : Type*} [DecidableEq α]

/-- The least offset at which `pat` occurs. -/
def firstIndex (pat : List α) : List α → Option ℕ
  | [] => if pat = [] then some 0 else none
  | a :: s => if pat <+: a :: s then some 0 else (firstIndex pat s).map (· + 1)

theorem firstIndex_of_match {pat s : List α} (h : pat <+: s) : firstIndex pat s = some 0 := by
  cases s with
  | nil => simpa [firstIndex] using h
  | cons a s => simp [firstIndex, h]

theorem firstIndex_cons_of_mismatch {pat s : List α} {a : α} (h : ¬ pat <+: a :: s) :
    firstIndex pat (a :: s) = (firstIndex pat s).map (· + 1) := by
  simp [firstIndex, h]

/-- The search succeeds exactly at the first occurrence. -/
theorem firstIndex_eq_some_iff (pat s : List α) (i : ℕ) :
    firstIndex pat s = some i ↔
      i ≤ s.length ∧ pat <+: s.drop i ∧ ∀ j < i, ¬ pat <+: s.drop j := by
  induction s generalizing i with
  | nil =>
    by_cases hp : pat = []
    · subst hp
      simp only [firstIndex, if_true, Option.some.injEq]
      constructor
      · rintro rfl
        simp
      · rintro ⟨hi, -, -⟩
        exact (Nat.le_zero.mp hi).symm
    · simp [firstIndex, hp]
  | cons a s ih =>
    by_cases hp : pat <+: a :: s
    · rw [firstIndex_of_match hp, Option.some.injEq]
      constructor
      · rintro rfl
        exact ⟨by simp, by simpa using hp, by simp⟩
      · rintro ⟨-, -, hmin⟩
        by_contra hne
        exact hmin 0 (by omega) (by simpa using hp)
    · rw [firstIndex_cons_of_mismatch hp]
      cases i with
      | zero => simp [hp]
      | succ i =>
        simp only [Option.map_eq_some_iff, Nat.add_right_cancel_iff, exists_eq_right, ih]
        constructor
        · rintro ⟨hlen, hocc, hmin⟩
          refine ⟨by simpa using hlen, by simpa using hocc, ?_⟩
          intro j hj
          cases j with
          | zero => simpa using hp
          | succ j => simpa using hmin j (by omega)
        · rintro ⟨hlen, hocc, hmin⟩
          refine ⟨by simpa using hlen, by simpa using hocc, ?_⟩
          intro j hj
          simpa using hmin (j + 1) (by omega)

/-- The search fails exactly when the pattern does not occur. -/
theorem firstIndex_eq_none_iff (pat s : List α) : firstIndex pat s = none ↔ ¬ pat <:+: s := by
  induction s with
  | nil => simp [firstIndex]
  | cons a s ih =>
    by_cases hp : pat <+: a :: s
    · simp [firstIndex_of_match hp, hp.isInfix]
    · simp [firstIndex_cons_of_mismatch hp, ih, List.infix_cons_iff, hp]

theorem firstIndex_isSome_iff (pat s : List α) : (firstIndex pat s).isSome ↔ pat <:+: s := by
  rw [← not_iff_not, ← firstIndex_eq_none_iff]
  simp

/-- A match lies inside the searched list. -/
theorem firstIndex_add_length_le {pat s : List α} {i : ℕ} (h : firstIndex pat s = some i) :
    i + pat.length ≤ s.length := by
  obtain ⟨hi, hp, -⟩ := (firstIndex_eq_some_iff pat s i).1 h
  have hle := hp.length_le
  rw [List.length_drop] at hle
  omega

/-- A prefix without the first symbol of the pattern takes part in no match. -/
theorem firstIndex_append_of_notMem {c : α} {pat : List α} (a s : List α) (h : c ∉ a) :
    firstIndex (c :: pat) (a ++ s) = (firstIndex (c :: pat) s).map (a.length + ·) := by
  induction a with
  | nil => simp
  | cons x a ih =>
    obtain ⟨hx, ha⟩ := List.ne_and_not_mem_of_not_mem_cons h
    have hp : ¬ c :: pat <+: x :: (a ++ s) := by
      rw [List.cons_prefix_cons]
      exact fun hc => hx hc.1
    rw [List.cons_append, firstIndex_cons_of_mismatch hp, ih ha, Option.map_map]
    congr 1
    funext i
    simp only [Function.comp_apply, List.length_cons]
    omega

theorem isInfix_append_of_notMem {c : α} {pat : List α} (a s : List α) (h : c ∉ a) :
    c :: pat <:+: a ++ s ↔ c :: pat <:+: s := by
  rw [← firstIndex_isSome_iff, ← firstIndex_isSome_iff, firstIndex_append_of_notMem a s h,
    Option.isSome_map]

/-- The offset of a pattern that follows a prefix without its first symbol. -/
theorem firstIndex_append_self {c : α} {pat : List α} (a s : List α) (h : c ∉ a) :
    firstIndex (c :: pat) (a ++ (c :: pat ++ s)) = some a.length := by
  rw [firstIndex_append_of_notMem a _ h, firstIndex_of_match (List.prefix_append _ _)]
  rfl

omit [DecidableEq α] in
/-- A pattern does not reach beyond a symbol that it does not contain. -/
theorem isPrefix_append_cons_iff {c : α} {pat : List α} (a s : List α) (h : c ∉ pat) :
    pat <+: a ++ c :: s ↔ pat <+: a := by
  constructor
  · intro hp
    rcases List.prefix_or_prefix_of_prefix hp (List.prefix_append a (c :: s)) with ha | ⟨t, rfl⟩
    · exact ha
    · rw [List.prefix_append_right_inj] at hp
      cases t with
      | nil => exact (List.append_nil a).symm ▸ List.prefix_rfl
      | cons d t =>
        rw [List.cons_prefix_cons] at hp
        exact absurd (by simp [hp.1]) h
  · intro hp
    exact hp.trans (List.prefix_append _ _)

/-- A search on both sides of a symbol that is not in the pattern. -/
theorem firstIndex_append_cons {c : α} {pat : List α} (a s : List α) (h : c ∉ pat) :
    firstIndex pat (a ++ c :: s) =
      (firstIndex pat a).or ((firstIndex pat s).map (a.length + 1 + ·)) := by
  induction a with
  | nil =>
    cases pat with
    | nil => rfl
    | cons d pat =>
      have hne : ¬ d :: pat <+: c :: s := by
        rw [List.cons_prefix_cons]
        rintro ⟨rfl, -⟩
        exact h List.mem_cons_self
      rw [List.nil_append, firstIndex_cons_of_mismatch hne]
      simp [firstIndex, Nat.add_comm]
  | cons x a ih =>
    by_cases hp : pat <+: x :: a
    · rw [firstIndex_of_match (hp.trans (List.prefix_append _ _)), firstIndex_of_match hp]
      rfl
    · have hp' : ¬ pat <+: x :: (a ++ c :: s) := by
        rwa [← List.cons_append, isPrefix_append_cons_iff _ _ h]
      rw [List.cons_append, firstIndex_cons_of_mismatch hp', firstIndex_cons_of_mismatch hp, ih,
        Option.map_or, Option.map_map]
      congr 2
      funext i
      simp only [Function.comp_apply, List.length_cons]
      omega

omit [DecidableEq α] in
/-- A pattern that ends with its only separator occurs at a separated list's first separator
or behind it. -/
theorem isInfix_append_cons_iff {c : α} {q a : List α} (s : List α) (hq : c ∉ q) (ha : c ∉ a) :
    q ++ [c] <:+: a ++ c :: s ↔ q <:+ a ∨ q ++ [c] <:+: s := by
  constructor
  · rintro ⟨x, y, h⟩
    rw [← List.append_assoc, List.append_assoc, List.singleton_append] at h
    rcases List.append_eq_append_iff.mp h with ⟨t, ht, hs⟩ | ⟨t, ht, hs⟩
    · cases t with
      | nil => exact .inl ⟨x, by rw [ht, List.append_nil]⟩
      | cons d t =>
        obtain ⟨rfl, -⟩ := List.cons.inj hs
        exact absurd (ht ▸ List.mem_append_right _ List.mem_cons_self) ha
    · cases t with
      | nil => exact .inl ⟨x, by rw [ht, List.append_nil]⟩
      | cons d t =>
        obtain ⟨rfl, rfl⟩ := List.cons.inj hs
        have hsuffix : q <:+ a ++ c :: t := ⟨x, ht⟩
        rcases List.suffix_or_suffix_of_suffix hsuffix (List.suffix_append a (c :: t)) with h' | h'
        · rcases List.suffix_cons_iff.mp h' with rfl | ⟨z, rfl⟩
          · exact absurd List.mem_cons_self hq
          · exact .inr ⟨z, y, by simp⟩
        · exact absurd (h'.subset List.mem_cons_self) hq
  · rintro (⟨x, rfl⟩ | h)
    · exact ⟨x, s, by simp⟩
    · exact h.trans ((List.suffix_cons _ _).trans (List.suffix_append _ _)).isInfix

/-- A pattern whose first symbol does not come again is found behind whatever does not
contain it. -/
theorem firstIndex_cons_eq_some_iff {c : α} {pat : List α} (h : c ∉ pat) (s : List α) (i : ℕ) :
    firstIndex (c :: pat) s = some i ↔
      ∃ a b, s = a ++ (c :: pat ++ b) ∧ a.length = i ∧ ¬ c :: pat <:+: a := by
  rw [firstIndex_eq_some_iff]
  constructor
  · rintro ⟨hi, ⟨b, hb⟩, hmin⟩
    refine ⟨s.take i, b, by rw [hb, List.take_append_drop], List.length_take_of_le hi, ?_⟩
    rintro ⟨x, y, hxy⟩
    have hlen := congrArg List.length hxy
    rw [List.length_take_of_le hi, List.length_append, List.length_append, List.length_cons] at hlen
    have hs : s = x ++ (c :: pat ++ (y ++ s.drop i)) := by
      conv_lhs => rw [← List.take_append_drop i s, ← hxy]
      simp only [List.append_assoc]
    refine hmin x.length (by omega) ?_
    rw [hs, List.drop_left]
    exact List.prefix_append _ _
  · rintro ⟨a, b, rfl, rfl, hno⟩
    refine ⟨by simp, by simp, ?_⟩
    intro j hj hp
    rw [List.drop_append_of_le_length hj.le] at hp
    cases hd : a.drop j with
    | nil =>
      have := List.drop_eq_nil_iff.mp hd
      omega
    | cons x d =>
      rw [hd, List.cons_append, List.cons_append, List.cons_prefix_cons,
        isPrefix_append_cons_iff _ _ h] at hp
      refine hno (List.IsInfix.trans ?_ (List.drop_suffix j a).isInfix)
      rw [hd]
      exact (List.cons_prefix_cons.mpr hp).isInfix

/-- The text before and after the first separator. -/
def splitFirst (sep s : List α) : Option (List α × List α) :=
  (firstIndex sep s).map (fun i => (s.take i, s.drop (i + sep.length)))

theorem splitFirst_of_firstIndex {sep a s : List α}
    (h : firstIndex sep (a ++ (sep ++ s)) = some a.length) :
    splitFirst sep (a ++ (sep ++ s)) = some (a, s) := by
  have hd : (a ++ (sep ++ s)).drop (a.length + sep.length) = s := by
    rw [← List.append_assoc, ← List.length_append, List.drop_left]
  simp only [splitFirst, h, Option.map_some, List.take_left, hd]

/-- Cutting at a separator whose first symbol does not occur before it. -/
theorem splitFirst_append_self {c : α} {sep : List α} (a s : List α) (h : c ∉ a) :
    splitFirst (c :: sep) (a ++ (c :: sep ++ s)) = some (a, s) :=
  splitFirst_of_firstIndex (firstIndex_append_self a s h)

/-- The pieces of a cut reassemble to the list that was cut. -/
theorem splitFirst_eq_append {sep s a b : List α} (h : splitFirst sep s = some (a, b)) :
    s = a ++ (sep ++ b) := by
  simp only [splitFirst, Option.map_eq_some_iff, Prod.mk.injEq] at h
  obtain ⟨i, hi, rfl, rfl⟩ := h
  obtain ⟨-, ⟨t, ht⟩, -⟩ := (firstIndex_eq_some_iff sep s i).1 hi
  have hb : s.drop (i + sep.length) = t := by
    rw [← List.drop_drop, ← ht, List.drop_left]
  rw [hb, ht, List.take_append_drop]

end CppWebserver.PatternSearch
