import CppWebserver.PatternSearch
import Mathlib.Algebra.Group.Nat.Defs
import Mathlib.Data.List.TakeWhile

/-!
# Byte strings with the operations of `std::string`

A string is its list of bytes, so that a NUL is a byte like any other. Positions
are natural numbers and `std::string::npos` is `none`, until the program stores
a position in a narrower integer; `sizeT` gives the value that is then narrowed.
-/

namespace CppWebserver.ByteStrings
open PatternSearch

abbrev Bytes := List UInt8

/-- The bytes of a string literal. -/
def ascii (s : String) : Bytes := s.toList.map Char.toUInt8

def cr : UInt8 := 13
def lf : UInt8 := 10
def space : UInt8 := 32
def slash : UInt8 := 47
def crlf : Bytes := [cr, lf]

/-- The exceptions a request can raise: `std::out_of_range`, the
`std::filesystem::filesystem_error` of a lookup, or whatever a registered callback throws. -/
inductive CppException where
  | outOfRange
  | filesystemError
  | fromCallback (what : Bytes)
  deriving DecidableEq

@[simp] theorem ok_bind {α β : Type} (a : α) (f : α → Except CppException β) :
    (Except.ok a >>= f) = f a := (rfl)

@[simp] theorem error_bind {α β : Type} (e : CppException) (f : α → Except CppException β) :
    (Except.error e >>= f) = .error e := (rfl)

@[simp] theorem map_ok {α β : Type} (f : α → β) (a : α) :
    (Except.ok a : Except CppException α).map f = .ok (f a) := (rfl)

@[simp] theorem map_error {α β : Type} (f : α → β) (e : CppException) :
    (Except.error e : Except CppException α).map f = .error e := (rfl)

/-- `s.find(pat, pos)`. -/
def find (s pat : Bytes) (pos : ℕ) : Option ℕ :=
  if pos ≤ s.length then (firstIndex pat (s.drop pos)).map (pos + ·) else none

/-- `s.rfind(pat, pos)`, the last occurrence that begins at or before `pos`. -/
def rfind (s pat : Bytes) : ℕ → Option ℕ
  | 0 => if pat <+: s then some 0 else none
  | pos + 1 => if pos + 1 ≤ s.length ∧ pat <+: s.drop (pos + 1) then some (pos + 1) else
      rfind s pat pos

/-- The `std::size_t` a search returns. -/
def sizeT : Option ℕ → ℕ
  | some i => i
  | none => 2 ^ 64 - 1

/-- `s.substr(pos, count)`, where `none` counts to the end. -/
def substr (s : Bytes) (pos : ℕ) (count : Option ℕ) : Except CppException Bytes :=
  if s.length < pos then .error .outOfRange else
    .ok (match count with
      | some n => (s.drop pos).take n
      | none => s.drop pos)

/-- `s.erase(pos, count)`. -/
def erase (s : Bytes) (pos count : ℕ) : Except CppException Bytes :=
  if s.length < pos then .error .outOfRange else .ok (s.take pos ++ s.drop (pos + count))

/-- What a function that takes `s.c_str()` sees. -/
def cStr (s : Bytes) : Bytes := s.takeWhile (· ≠ 0)

theorem notMem_cStr (s : Bytes) : 0 ∉ cStr s := fun h => by simpa using List.mem_takeWhile_imp h

theorem cStr_of_notMem {s : Bytes} (h : 0 ∉ s) : cStr s = s := by
  rw [cStr, List.takeWhile_eq_self_iff]
  intro b hb
  simpa using fun he : b = 0 => h (he ▸ hb)

theorem find_zero (s pat : Bytes) : find s pat 0 = firstIndex pat s := by
  simp [find]

theorem find_isSome_iff (s pat : Bytes) {pos : ℕ} (h : pos ≤ s.length) :
    (find s pat pos).isSome ↔ pat <:+: s.drop pos := by
  simp [find, h, firstIndex_isSome_iff]

theorem add_length_le_of_find {s pat : Bytes} {pos : ℕ} (h : (find s pat pos).isSome) :
    pos + pat.length ≤ s.length := by
  rw [find] at h
  split at h
  · obtain ⟨i, hi⟩ := Option.isSome_iff_exists.mp (Option.isSome_map.symm.trans h)
    have := firstIndex_add_length_le hi
    rw [List.length_drop] at this
    omega
  · cases h

theorem rfind_zero_eq_some_iff (s pat : Bytes) : rfind s pat 0 = some 0 ↔ pat <+: s := by
  simp [rfind]

theorem substr_of_le {s : Bytes} {pos : ℕ} (h : pos ≤ s.length) (n : ℕ) :
    substr s pos (some n) = .ok ((s.drop pos).take n) := if_neg (by omega)

theorem substr_toEnd_of_le {s : Bytes} {pos : ℕ} (h : pos ≤ s.length) :
    substr s pos none = .ok (s.drop pos) := if_neg (by omega)

theorem substr_of_lt {s : Bytes} {pos : ℕ} (h : s.length < pos) (count : Option ℕ) :
    substr s pos count = .error .outOfRange := if_pos h

theorem erase_zero (s : Bytes) (n : ℕ) : erase s 0 n = .ok (s.drop n) := by
  simp [erase]

end CppWebserver.ByteStrings
