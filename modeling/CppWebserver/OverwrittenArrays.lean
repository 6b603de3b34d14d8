import CppWebserver.SegmentationIndependence

/-!
# Arrays that are overwritten and read as strings

A string in an array ends at the first null. When only the beginning of the array has been
overwritten, what is read is the new piece exactly if there is a null in it or right behind it;
otherwise the piece is followed by what was there before.
-/

namespace CppWebserver.OverwrittenArrays
open DelimitedStreams

variable {α : Type*}

/-- The array with a piece written over its beginning. -/
def overwrite (a c : List α) : List α := c ++ a.drop c.length

theorem length_overwrite {a c : List α} (h : c.length ≤ a.length) :
    (overwrite a c).length = a.length := by
  rw [overwrite, List.length_append, List.length_drop]
  omega

/-- A piece of the length of the array is all that is left. -/
theorem overwrite_of_length_eq {a c : List α} (h : c.length = a.length) : overwrite a c = c := by
  rw [overwrite, h, List.drop_length, List.append_nil]

/-- Writing behind the piece does not touch it. -/
theorem set_overwrite (a c : List α) (z : α) :
    (overwrite a c).set c.length z = overwrite (a.set c.length z) c := by
  rw [overwrite, overwrite, List.set_append_right _ _ le_rfl, Nat.sub_self, List.drop_set]
  simp

variable [DecidableEq α]

/-- The string in an array, if it ends there. -/
def asString (z : α) (a : List α) : Option (List α) :=
  if z ∈ a then some (beforeNull z a) else none

theorem asString_of_notMem {z : α} {a : List α} (h : z ∉ a) : asString z a = none := if_neg h

theorem asString_null (z : α) (a : List α) : asString z (z :: a) = some [] := by
  rw [asString, if_pos List.mem_cons_self, beforeNull_null]

theorem asString_append_of_mem {z : α} {c : List α} (h : z ∈ c) (a : List α) :
    asString z (c ++ a) = some (beforeNull z c) := by
  have hshort : (c.takeWhile (· ≠ z)).length ≠ c.length := by
    intro hlength
    have hall := List.takeWhile_eq_self_iff.mp
      ((List.takeWhile_prefix (· ≠ z)).eq_of_length hlength) z h
    simp at hall
  rw [asString, if_pos (List.mem_append_left a h), beforeNull, List.takeWhile_append,
    if_neg hshort]
  rfl

theorem asString_append_of_notMem {z : α} {c : List α} (h : z ∉ c) (a : List α) :
    asString z (c ++ a) = (asString z a).map (c ++ ·) := by
  by_cases ha : z ∈ a
  · rw [asString, if_pos (List.mem_append_right c ha), asString, if_pos ha, beforeNull_append h]
    rfl
  · have hnot : z ∉ c ++ a := by
      rw [List.mem_append]
      exact fun hmem => hmem.elim h ha
    rw [asString_of_notMem hnot, asString_of_notMem ha]
    rfl

/-- What is read is the piece that was written. -/
theorem asString_overwrite_eq_iff (z : α) (a c : List α) :
    asString z (overwrite a c) = some (beforeNull z c) ↔ z ∈ c ∨ a[c.length]? = some z := by
  by_cases hc : z ∈ c
  · rw [overwrite, asString_append_of_mem hc]
    exact iff_of_true rfl (.inl hc)
  · rw [overwrite, asString_append_of_notMem hc, beforeNull_of_notMem hc, or_iff_right hc]
    cases hnext : a[c.length]? with
    | none =>
      have hnil : a.drop c.length = [] :=
        List.drop_eq_nil_of_le (List.getElem?_eq_none_iff.mp hnext)
      rw [hnil]
      simp [asString]
    | some x =>
      obtain ⟨hlt, rfl⟩ := List.getElem?_eq_some_iff.mp hnext
      rw [List.drop_eq_getElem_cons hlt]
      generalize a[c.length] = x
      generalize a.drop (c.length + 1) = rest
      by_cases hx : x = z
      · rw [hx, asString_null]
        simp
      · have hmem : z ∉ [x] := by simpa using Ne.symm hx
        have hread := asString_append_of_notMem hmem rest
        rw [List.singleton_append] at hread
        rw [hread]
        refine iff_of_false ?_ (by simpa using hx)
        cases asString z rest <;> simp

end CppWebserver.OverwrittenArrays
