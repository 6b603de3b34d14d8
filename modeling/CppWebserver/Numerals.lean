import Mathlib.Data.List.TakeWhile
import Mathlib.Data.Nat.Digits.Lemmas

/-!
# Numerals in a base

Digits are ASCII digits and then letters, written in lower case and read in either
case. A numeral is written most significant digit first, and reading recovers the
number. The decimal numerals are those of base ten; their reader wants nothing but digits.
-/

namespace CppWebserver.Numerals

def digit (d : ℕ) : UInt8 := if d < 10 then .ofNat (48 + d) else .ofNat (87 + d)

def digitValue (b : UInt8) : Option ℕ :=
  if 48 ≤ b ∧ b ≤ 57 then some (b.toNat - 48)
  else if 97 ≤ b ∧ b ≤ 122 then some (b.toNat - 87)
  else if 65 ≤ b ∧ b ≤ 90 then some (b.toNat - 55)
  else none

def isDigitOf (base : ℕ) (b : UInt8) : Bool := (digitValue b).any (· < base)

/-- Most significant digit first, without leading zeros. -/
def numeral (base n : ℕ) : List UInt8 :=
  if n = 0 then [digit 0] else (Nat.digits base n).reverse.map digit

/-- The number that a list of digits stands for. -/
def ofNumeral (base : ℕ) (bs : List UInt8) : ℕ :=
  bs.foldl (fun n b => base * n + (digitValue b).getD 0) 0

theorem digitValue_digit : ∀ d < 36, digitValue (digit d) = some d := by decide

theorem isDigitOf_digit {base d : ℕ} (hd : d < base) (hbase : base ≤ 36) :
    isDigitOf base (digit d) = true := by
  rw [isDigitOf, digitValue_digit d (by omega)]
  simpa using hd

section Base

variable {base : ℕ} (hbase : 2 ≤ base)
include hbase

theorem exists_digit_of_mem_numeral {n : ℕ} {b : UInt8} (h : b ∈ numeral base n) :
    ∃ d < base, b = digit d := by
  rw [numeral] at h
  split at h
  · exact ⟨0, by omega, List.mem_singleton.mp h⟩
  · obtain ⟨d, hd, rfl⟩ := List.mem_map.mp h
    exact ⟨d, Nat.digits_lt_base (by omega) (List.mem_reverse.mp hd), rfl⟩

/-- The first digit of a numeral is no zero, unless the number is. -/
theorem exists_numeral_eq_cons {n : ℕ} (hn : n ≠ 0) :
    ∃ d bs, numeral base n = digit d :: bs ∧ 0 < d ∧ d < base := by
  have hnil : Nat.digits base n ≠ [] := Nat.digits_ne_nil_iff_ne_zero.mpr hn
  have hlast := Nat.getLast_digit_ne_zero base hn
  have hmem := List.getLast_mem hnil
  refine ⟨(Nat.digits base n).getLast hnil, ((Nat.digits base n).dropLast.reverse).map digit, ?_,
    Nat.pos_of_ne_zero hlast, Nat.digits_lt_base (by omega) hmem⟩
  rw [numeral, if_neg hn]
  conv_lhs => rw [← List.dropLast_append_getLast hnil]
  simp

variable (hle : base ≤ 36)
include hle

theorem ofNumeral_digits (ds : List ℕ) (h : ∀ d ∈ ds, d < base) :
    ofNumeral base (ds.reverse.map digit) = Nat.ofDigits base ds := by
  induction ds with
  | nil => rfl
  | cons d ds ih =>
    have hds := ih fun e he => h e (List.mem_cons_of_mem _ he)
    have hd := h d List.mem_cons_self
    rw [ofNumeral] at hds
    rw [ofNumeral, List.reverse_cons, List.map_append, List.foldl_append, hds]
    simp [digitValue_digit d (by omega), Nat.ofDigits_cons, Nat.add_comm]

/-- Reading recovers the written number. -/
theorem ofNumeral_numeral (n : ℕ) : ofNumeral base (numeral base n) = n := by
  rw [numeral]
  split
  · next hzero => simp [ofNumeral, digitValue_digit 0 (by omega), hzero]
  · rw [ofNumeral_digits hbase hle _ fun d hd => Nat.digits_lt_base (by omega) hd,
      Nat.ofDigits_digits]

theorem isDigitOf_of_mem_numeral {n : ℕ} {b : UInt8} (h : b ∈ numeral base n) :
    isDigitOf base b = true := by
  obtain ⟨d, hd, rfl⟩ := exists_digit_of_mem_numeral hbase h
  exact isDigitOf_digit hd hle

theorem takeWhile_numeral (n : ℕ) :
    (numeral base n).takeWhile (isDigitOf base) = numeral base n := by
  rw [List.takeWhile_eq_self_iff]
  intro b hb
  exact isDigitOf_of_mem_numeral hbase hle hb

end Base

theorem numeral_ne_nil (base n : ℕ) : numeral base n ≠ [] := by
  rw [numeral]
  split
  · simp
  · simpa [Nat.digits_eq_nil_iff_eq_zero] using ‹¬ n = 0›

section Decimal

def decimal (n : ℕ) : List UInt8 := numeral 10 n

def readDecimal (bs : List UInt8) : Option ℕ :=
  if bs ≠ [] ∧ bs.all (isDigitOf 10) then some (ofNumeral 10 bs) else none

theorem isDigitOf_of_mem_decimal {n : ℕ} {b : UInt8} (h : b ∈ decimal n) :
    isDigitOf 10 b = true := isDigitOf_of_mem_numeral (by decide) (by decide) h

theorem notMem_decimal {b : UInt8} (h : isDigitOf 10 b = false) (n : ℕ) : b ∉ decimal n := by
  intro hb
  rw [isDigitOf_of_mem_decimal hb] at h
  cases h

theorem readDecimal_decimal (n : ℕ) : readDecimal (decimal n) = some n := by
  have hdigits : (decimal n).all (isDigitOf 10) = true :=
    List.all_eq_true.mpr fun b => isDigitOf_of_mem_decimal
  rw [readDecimal, if_pos ⟨numeral_ne_nil 10 n, hdigits⟩, decimal,
    ofNumeral_numeral (by decide) (by decide)]

theorem decimal_injective : Function.Injective decimal := by
  intro n m h
  simpa [readDecimal_decimal] using congrArg readDecimal h

example : decimal 404 = [52, 48, 52] := by decide

end Decimal

end CppWebserver.Numerals
