import Mathlib.Data.Int.GCD

/-!
# `gcd` on `int`

Euclid's loop with the remainder of C++, which has the sign of the dividend and is undefined
where the quotient does not fit. The loop meets this case for two pairs of arguments only; for
all others it returns the greatest common divisor, up to its sign.
-/

namespace CppWebserver.ConstexprGcd

/-- `constexpr auto gcd(int a, int b)`; without a result where `a % b` has none. -/
def gcd (a b : Int32) : Option Int32 :=
  if b = 0 then some a
  else if a = Int32.minValue ∧ b = -1 then none
  else gcd b (a % b)
termination_by b.toInt.natAbs
decreasing_by
  next hb _ =>
    have hpos : b.toInt ≠ 0 := fun h => hb (Int32.toInt_inj.mp h)
    rw [Int32.toInt_mod, Int.natAbs_tmod]
    exact Nat.mod_lt _ (Int.natAbs_pos.mpr hpos)

/-- The pairs for which the quotient does not fit, in the first or in the second pass. -/
def Overflows (a b : Int32) : Prop :=
  a = Int32.minValue ∧ b = -1 ∨ a = -1 ∧ b = Int32.minValue

section Remainders

variable (a b : Int32)

theorem natAbs_mod : (a % b).toInt.natAbs = a.toInt.natAbs % b.toInt.natAbs := by
  rw [Int32.toInt_mod, Int.natAbs_tmod]

theorem toInt_neg_one : (-1 : Int32).toInt = -1 := by decide

/-- Only minus one leaves minus one when it is divided by the lowest number. -/
theorem mod_minValue_eq_neg_one_iff : a % Int32.minValue = -1 ↔ a = -1 := by
  constructor
  · intro h
    have habs := natAbs_mod a Int32.minValue
    have hsign : (a % Int32.minValue).toInt = a.toInt.tmod Int32.minValue.toInt :=
      Int32.toInt_mod _ _
    have hlow := a.le_toInt
    have hhigh := a.toInt_lt
    rw [h, toInt_neg_one] at habs hsign
    apply Int32.toInt_inj.mp
    rw [toInt_neg_one]
    have hminValue : Int32.minValue.toInt.natAbs = 2 ^ 31 := by decide
    rw [hminValue] at habs
    by_cases hnonneg : 0 ≤ a.toInt
    · have := Int.tmod_nonneg Int32.minValue.toInt hnonneg
      omega
    · omega
  · rintro rfl
    decide

/-- The remainder by minus one is zero. -/
theorem mod_neg_one_ne_minValue : a % -1 ≠ Int32.minValue := by
  intro h
  have habs := natAbs_mod a (-1)
  rw [h, toInt_neg_one, show (-1 : ℤ).natAbs = 1 from rfl, Nat.mod_one] at habs
  exact absurd habs (by decide)

/-- The pairs of one pass and of the next one are the same, except where the loop stops. -/
theorem overflows_mod_iff (h : ¬ (a = Int32.minValue ∧ b = -1)) :
    Overflows b (a % b) ↔ Overflows a b := by
  rw [Overflows, Overflows, or_iff_right h]
  constructor
  · rintro (⟨rfl, hmod⟩ | ⟨rfl, hmod⟩)
    · exact ⟨(mod_minValue_eq_neg_one_iff a).mp hmod, rfl⟩
    · exact absurd hmod (mod_neg_one_ne_minValue a)
  · rintro ⟨rfl, rfl⟩
    exact .inl ⟨rfl, (mod_minValue_eq_neg_one_iff _).mpr rfl⟩

end Remainders

theorem gcd_eq_none_iff (a b : Int32) : gcd a b = none ↔ Overflows a b := by
  induction a, b using gcd.induct with
  | case1 a =>
    rw [gcd, if_pos rfl]
    refine iff_of_false (by simp) ?_
    rintro (⟨-, h⟩ | ⟨-, h⟩) <;> exact absurd h (by decide)
  | case2 a b hb h =>
    rw [gcd, if_neg hb, if_pos h]
    exact iff_of_true rfl (.inl h)
  | case3 a b hb h ih =>
    rw [gcd, if_neg hb, if_neg h, ih, overflows_mod_iff a b h]

/-- What the loop returns has the absolute value of the greatest common divisor. -/
theorem natAbs_of_gcd {a b r : Int32} (h : gcd a b = some r) :
    r.toInt.natAbs = Int.gcd a.toInt b.toInt := by
  induction a, b using gcd.induct with
  | case1 a =>
    rw [gcd, if_pos rfl] at h
    obtain rfl := Option.some.inj h
    simp
  | case2 a b hb hstop =>
    rw [gcd, if_neg hb, if_pos hstop] at h
    cases h
  | case3 a b hb hstop ih =>
    rw [gcd, if_neg hb, if_neg hstop] at h
    rw [ih h, Int.gcd, Int.gcd, natAbs_mod, Nat.gcd_comm, ← Nat.gcd_rec, Nat.gcd_comm]

theorem nonneg_of_gcd {a b r : Int32} (h : gcd a b = some r) (ha : 0 ≤ a.toInt)
    (hb : 0 ≤ b.toInt) : 0 ≤ r.toInt := by
  induction a, b using gcd.induct with
  | case1 a =>
    rw [gcd, if_pos rfl] at h
    obtain rfl := Option.some.inj h
    exact ha
  | case2 a b hzero hstop =>
    rw [gcd, if_neg hzero, if_pos hstop] at h
    cases h
  | case3 a b hzero hstop ih =>
    rw [gcd, if_neg hzero, if_neg hstop] at h
    apply ih h hb
    rw [Int32.toInt_mod]
    exact Int.tmod_nonneg _ ha

/-- For every two numbers the loop ends; it meets an undefined remainder for the lowest number
and minus one, in either order, and otherwise returns the greatest common divisor or its
negative, and not the negative if neither number is. -/
theorem gcd_spec (a b : Int32) :
    match gcd a b with
    | none => a = Int32.minValue ∧ b = -1 ∨ a = -1 ∧ b = Int32.minValue
    | some r => ¬ (a = Int32.minValue ∧ b = -1 ∨ a = -1 ∧ b = Int32.minValue) ∧
        r.toInt.natAbs = Int.gcd a.toInt b.toInt ∧
        (0 ≤ a.toInt → 0 ≤ b.toInt → r.toInt = Int.gcd a.toInt b.toInt) := by
  cases h : gcd a b with
  | none => exact (gcd_eq_none_iff a b).mp h
  | some r =>
    have habs := natAbs_of_gcd h
    refine ⟨?_, habs, ?_⟩
    · intro hoverflows
      rw [(gcd_eq_none_iff a b).mpr hoverflows] at h
      cases h
    · intro ha hb
      have hnonneg := nonneg_of_gcd h ha hb
      omega

end CppWebserver.ConstexprGcd
