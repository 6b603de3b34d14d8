import CppWebserver.ByteStrings
import CppWebserver.Numerals

/-!
# Ports on the command line

The programs read a port with `strtoul`, base 0, and store it in 16 bits. So a port may
be written in decimal, octal or hexadecimal, it wraps beyond 65535, and a number that
does not fit into 64 bits stands for the largest port.
-/

namespace CppWebserver.PortArguments
open ByteStrings Numerals

/-- `isspace` in the C locale. -/
def isspace (b : UInt8) : Bool := decide (b = 32) || decide (9 ≤ b ∧ b ≤ 13)

/-- Whether there is a minus sign, and what follows the sign. -/
def strtoulSign : Bytes → Bool × Bytes
  | [] => (false, [])
  | b :: s => if b = 45 then (true, s) else if b = 43 then (false, s) else (false, b :: s)

/-- The base that the prefix stands for, and what the digits are read from. -/
def strtoulBase : Bytes → ℕ × Bytes
  | [] => (10, [])
  | b :: s =>
    if b = 48 then
      match s with
      | x :: c :: t => if (x = 120 ∨ x = 88) ∧ isDigitOf 16 c then (16, c :: t) else (8, b :: s)
      | _ => (8, b :: s)
    else (10, b :: s)

/-- `strtoul(nptr, &endptr, 0)` with an `unsigned long` of 64 bits. -/
def strtoul (nptr : Bytes) : UInt64 :=
  let (negative, s) := strtoulSign (nptr.dropWhile isspace)
  let (base, s) := strtoulBase s
  let n := ofNumeral base (s.takeWhile (isDigitOf base))
  if 2 ^ 64 ≤ n then .ofNat (2 ^ 64 - 1)
  else if negative then -.ofNat n else .ofNat n

/-- `const uint16_t port = strtoul(aPort.c_str(), &garbage, 0)`. -/
def portArgument (aPort : Bytes) : UInt16 := (strtoul (cStr aPort)).toUInt16

/-- The ways to write a port. -/
inductive Notation where
  | decimal
  | octal
  | hexadecimal

def Notation.write : Notation → ℕ → Bytes
  | .decimal, n => numeral 10 n
  | .octal, n => 48 :: numeral 8 n
  | .hexadecimal, n => 48 :: 120 :: numeral 16 n

section Reading

theorem digit_separate : ∀ d < 16, isspace (digit d) = false ∧ digit d ≠ 45 ∧ digit d ≠ 43 ∧
    digit d ≠ 0 ∧ digit d ≠ 120 ∧ digit d ≠ 88 := by decide

theorem digit_ne_zero : ∀ d < 10, 0 < d → digit d ≠ 48 := by decide

/-- A text that begins with a digit has no blanks and no sign in front. -/
theorem strtoul_digit {d : ℕ} (hd : d < 16) (s : Bytes) :
    strtoul (digit d :: s) =
      let n := ofNumeral (strtoulBase (digit d :: s)).1
        ((strtoulBase (digit d :: s)).2.takeWhile (isDigitOf (strtoulBase (digit d :: s)).1))
      if 2 ^ 64 ≤ n then .ofNat (2 ^ 64 - 1) else .ofNat n := by
  obtain ⟨hspace, hminus, hplus, -⟩ := digit_separate d hd
  have hblanks : (digit d :: s).dropWhile isspace = digit d :: s := by
    rw [List.dropWhile_cons_of_neg (by simp [hspace])]
  simp [strtoul, hblanks, strtoulSign, hminus, hplus]

theorem exists_write_eq_cons (t : Notation) (n : ℕ) :
    ∃ d < 16, ∃ s, t.write n = digit d :: s := by
  cases t with
  | decimal =>
    by_cases hn : n = 0
    · exact ⟨0, by decide, [], by simp [Notation.write, numeral, hn]⟩
    · obtain ⟨d, s, hs, -, hd⟩ := exists_numeral_eq_cons (by decide : 2 ≤ 10) hn
      exact ⟨d, by omega, s, hs⟩
  | octal => exact ⟨0, by decide, numeral 8 n, rfl⟩
  | hexadecimal => exact ⟨0, by decide, 120 :: numeral 16 n, rfl⟩

/-- An octal numeral behind its zero, whatever its length. -/
theorem strtoulBase_octal (n : ℕ) : strtoulBase (48 :: numeral 8 n) = (8, 48 :: numeral 8 n) := by
  have hletters : ∀ b ∈ numeral 8 n, b ≠ 120 ∧ b ≠ 88 := by
    intro b hb
    obtain ⟨d, hd, rfl⟩ := exists_digit_of_mem_numeral (by decide) hb
    exact ⟨(digit_separate d (by omega)).2.2.2.2.1, (digit_separate d (by omega)).2.2.2.2.2⟩
  cases hs : numeral 8 n with
  | nil => rfl
  | cons x s =>
    rw [hs] at hletters
    obtain ⟨hx, hX⟩ := hletters x List.mem_cons_self
    cases s with
    | nil => rfl
    | cons c s => simp [strtoulBase, hx, hX]

/-- What is read from a number in one of the notations. -/
theorem strtoulBase_write (t : Notation) (n : ℕ) :
    ∃ base ds, strtoulBase (t.write n) = (base, ds) ∧ ds.takeWhile (isDigitOf base) = ds ∧
      ofNumeral base ds = n := by
  cases t with
  | decimal =>
    by_cases hn : n = 0
    · subst hn
      exact ⟨8, [48], by decide, by decide, by decide⟩
    · obtain ⟨d, s, hs, hpos, hd⟩ := exists_numeral_eq_cons (by decide : 2 ≤ 10) hn
      refine ⟨10, numeral 10 n, ?_, takeWhile_numeral (by decide) (by decide) n,
        ofNumeral_numeral (by decide) (by decide) n⟩
      rw [Notation.write, hs]
      simp [strtoulBase, digit_ne_zero d hd hpos]
  | octal =>
    refine ⟨8, 48 :: numeral 8 n, strtoulBase_octal n, ?_, ?_⟩
    · rw [List.takeWhile_cons_of_pos (by decide), takeWhile_numeral (by decide) (by decide)]
    · exact ofNumeral_numeral (by decide) (by decide) n
  | hexadecimal =>
    refine ⟨16, numeral 16 n, ?_, takeWhile_numeral (by decide) (by decide) n,
      ofNumeral_numeral (by decide) (by decide) n⟩
    obtain ⟨d, s, hs, hd⟩ : ∃ d s, numeral 16 n = digit d :: s ∧ d < 16 := by
      by_cases hn : n = 0
      · exact ⟨0, [], by simp [numeral, hn], by decide⟩
      · obtain ⟨d, s, hs, -, hd⟩ := exists_numeral_eq_cons (by decide : 2 ≤ 16) hn
        exact ⟨d, s, hs, hd⟩
    rw [Notation.write, hs]
    simp [strtoulBase, isDigitOf_digit hd]

theorem strtoul_write (t : Notation) (n : ℕ) :
    strtoul (t.write n) = if 2 ^ 64 ≤ n then .ofNat (2 ^ 64 - 1) else .ofNat n := by
  obtain ⟨d, hd, s, hs⟩ := exists_write_eq_cons t n
  obtain ⟨base, ds, hbase, htake, hn⟩ := strtoulBase_write t n
  rw [hs] at hbase ⊢
  rw [strtoul_digit hd, hbase]
  simp only [htake, hn]

theorem notMem_write (t : Notation) (n : ℕ) : 0 ∉ t.write n := by
  have hdigits : ∀ base, 2 ≤ base → base ≤ 16 → 0 ∉ numeral base n := by
    intro base hbase hle hmem
    obtain ⟨d, hd, hzero⟩ := exists_digit_of_mem_numeral hbase hmem
    exact (digit_separate d (by omega)).2.2.2.1 hzero.symm
  cases t with
  | decimal => exact hdigits 10 (by decide) (by decide)
  | octal => simpa [Notation.write] using hdigits 8 (by decide) (by decide)
  | hexadecimal => simpa [Notation.write] using hdigits 16 (by decide) (by decide)

end Reading

/-- The port that a number stands for in each of the notations. -/
theorem toNat_portArgument_write (t : Notation) (n : ℕ) :
    (portArgument (t.write n)).toNat = if n < 2 ^ 64 then n % 2 ^ 16 else 2 ^ 16 - 1 := by
  rw [portArgument, cStr_of_notMem (notMem_write t n), strtoul_write]
  by_cases hn : n < 2 ^ 64
  · rw [if_neg (by omega), if_pos hn, UInt64.toNat_toUInt16, UInt64.toNat_ofNat']
    omega
  · rw [if_pos (by omega), if_neg hn]
    decide

end CppWebserver.PortArguments
