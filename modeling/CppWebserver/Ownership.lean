import Mathlib.Data.Finset.Basic
import Mathlib.Logic.Function.Basic

/-!
# Objects in charge of resources

A name has an object or none, and an object is in charge of one resource or of nothing.
Resources are handed on and given up, never shared: those in use are at all times those
that exactly one object is in charge of. Where a resource is a place that holds a value,
the objects may also be looked at as holding the values themselves.
-/

namespace CppWebserver.Ownership
open Function

variable {ν ρ β : Type*}

/-- For every name, no object, or what its object is in charge of. -/
abbrev Objects (ν ρ : Type*) := ν → Option (Option ρ)

/-- The object `x` is in charge of `r`. -/
def Owns (objects : Objects ν ρ) (x : ν) (r : ρ) : Prop := objects x = some (some r)

theorem Owns.resource_eq {objects : Objects ν ρ} {x : ν} {q r : ρ} (hq : Owns objects x q)
    (hr : Owns objects x r) : q = r :=
  Option.some.inj (Option.some.inj (hq.symm.trans hr))

theorem not_owns_of_dead {objects : Objects ν ρ} {x : ν} (h : objects x = none) (r : ρ) :
    ¬ Owns objects x r := by
  rw [Owns, h]
  simp

theorem not_owns_of_empty {objects : Objects ν ρ} {x : ν} (h : objects x = some none) (r : ρ) :
    ¬ Owns objects x r := by
  rw [Owns, h]
  simp

section Operations

variable [DecidableEq ν]

/-- The object that is left under the name `x`, if any. -/
def put (objects : Objects ν ρ) (x : ν) (o : Option (Option ρ)) : Objects ν ρ :=
  update objects x o

/-- What `y` is in charge of goes to `x`. -/
def hand (objects : Objects ν ρ) (x y : ν) : Objects ν ρ :=
  put (put objects x (objects y)) y (some none)

variable (objects : Objects ν ρ) {x y z : ν} {r : ρ}

@[simp] theorem put_self (x : ν) (o : Option (Option ρ)) : put objects x o x = o := by
  rw [put, update_self]

theorem put_of_ne (h : y ≠ x) (o : Option (Option ρ)) :
    put objects x o y = objects y := by
  rw [put, update_of_ne h]

@[simp] theorem hand_source (x y : ν) : hand objects x y y = some none := put_self _ y _

theorem hand_target (h : x ≠ y) : hand objects x y x = objects y := by
  rw [hand, put_of_ne _ h, put_self]

theorem hand_of_ne (hx : z ≠ x) (hy : z ≠ y) : hand objects x y z = objects z := by
  rw [hand, put_of_ne _ hy, put_of_ne _ hx]

theorem owns_put_iff {o : Option (Option ρ)} :
    Owns (put objects x o) y r ↔ (y = x ∧ o = some (some r)) ∨ (y ≠ x ∧ Owns objects y r) := by
  by_cases h : y = x
  · rw [h, Owns, put_self]
    simp
  · rw [Owns, put_of_ne _ h, Owns]
    simp [h]

theorem owns_hand_iff (h : x ≠ y) :
    Owns (hand objects x y) z r ↔
      (z = x ∧ Owns objects y r) ∨ (z ≠ x ∧ z ≠ y ∧ Owns objects z r) := by
  by_cases hy : z = y
  · rw [hy, Owns, hand_source]
    simp [h.symm]
  · by_cases hx : z = x
    · rw [hx, Owns, hand_target _ h, Owns]
      simp
    · rw [Owns, hand_of_ne _ hx hy]
      simp [Owns, hx, hy]

end Operations

/-- What is in use is what some object is in charge of, and no two are in charge of the same. -/
structure Exclusive (objects : Objects ν ρ) (inUse : Finset ρ) : Prop where
  owner_eq : ∀ {x y r}, Owns objects x r → Owns objects y r → x = y
  mem_iff : ∀ r, r ∈ inUse ↔ ∃ x, Owns objects x r

namespace Exclusive

variable {objects : Objects ν ρ} {inUse : Finset ρ} {x y : ν} {r : ρ}

theorem start : Exclusive (fun _ : ν => none) (∅ : Finset ρ) where
  owner_eq := fun hx => absurd hx (not_owns_of_dead rfl _)
  mem_iff r := by
    refine iff_of_false (Finset.notMem_empty r) ?_
    rintro ⟨x, hx⟩
    exact not_owns_of_dead rfl r hx

theorem existsUnique_iff (h : Exclusive objects inUse) (r : ρ) :
    r ∈ inUse ↔ ∃! x, Owns objects x r := by
  rw [h.mem_iff]
  constructor
  · rintro ⟨x, hx⟩
    exact ⟨x, hx, fun y hy => h.owner_eq hy hx⟩
  · rintro ⟨x, hx, -⟩
    exact ⟨x, hx⟩

/-- Without objects nothing is in use. -/
theorem eq_empty (h : Exclusive objects inUse) (hdead : ∀ x, objects x = none) : inUse = ∅ := by
  apply Finset.eq_empty_of_forall_notMem
  intro r hr
  obtain ⟨x, hx⟩ := (h.mem_iff r).mp hr
  exact not_owns_of_dead (hdead x) r hx

variable [DecidableEq ν]

/-- An object in charge of nothing may begin, end or stay as it is. -/
theorem put_empty (h : Exclusive objects inUse) (hx : ∀ q, ¬ Owns objects x q)
    {o : Option (Option ρ)} (ho : ∀ q, o ≠ some (some q)) :
    Exclusive (put objects x o) inUse := by
  have howns : ∀ z q, Owns (put objects x o) z q ↔ Owns objects z q := by
    intro z q
    rw [owns_put_iff]
    constructor
    · rintro (⟨-, hq⟩ | ⟨-, hq⟩)
      · exact absurd hq (ho q)
      · exact hq
    · intro hq
      exact .inr ⟨fun hz => hx q (hz ▸ hq), hq⟩
  constructor
  · intro y z q hy hz
    exact h.owner_eq ((howns y q).mp hy) ((howns z q).mp hz)
  · intro q
    simp only [howns]
    exact h.mem_iff q

variable [DecidableEq ρ]

/-- A new resource comes under an object that had none. -/
theorem acquire (h : Exclusive objects inUse) (hx : ∀ q, ¬ Owns objects x q) (hr : r ∉ inUse) :
    Exclusive (put objects x (some (some r))) (insert r inUse) := by
  have hfree : ∀ z, ¬ Owns objects z r := fun z hz => hr ((h.mem_iff r).mpr ⟨z, hz⟩)
  have howns : ∀ z q, Owns (put objects x (some (some r))) z q ↔
      (z = x ∧ r = q) ∨ Owns objects z q := by
    intro z q
    rw [owns_put_iff]
    constructor
    · rintro (⟨hz, hq⟩ | ⟨-, hq⟩)
      · exact .inl ⟨hz, Option.some.inj (Option.some.inj hq)⟩
      · exact .inr hq
    · rintro (⟨hz, rfl⟩ | hq)
      · exact .inl ⟨hz, rfl⟩
      · exact .inr ⟨fun hz => hx q (hz ▸ hq), hq⟩
  constructor
  · intro y z q hy hz
    rcases (howns y q).mp hy with ⟨rfl, rfl⟩ | hy
    · rcases (howns z _).mp hz with ⟨rfl, -⟩ | hz
      · rfl
      · exact absurd hz (hfree z)
    · rcases (howns z q).mp hz with ⟨-, rfl⟩ | hz
      · exact absurd hy (hfree y)
      · exact h.owner_eq hy hz
  · intro q
    simp only [howns, Finset.mem_insert, h.mem_iff q]
    constructor
    · rintro (rfl | ⟨z, hz⟩)
      · exact ⟨x, .inl ⟨rfl, rfl⟩⟩
      · exact ⟨z, .inr hz⟩
    · rintro ⟨z, ⟨-, rfl⟩ | hz⟩
      · exact .inl rfl
      · exact .inr ⟨z, hz⟩

/-- A resource is given up, and its object ends or is left without one. -/
theorem release (h : Exclusive objects inUse) (hx : Owns objects x r)
    {o : Option (Option ρ)} (ho : ∀ q, o ≠ some (some q)) :
    Exclusive (put objects x o) (inUse.erase r) := by
  have howns : ∀ z q, Owns (put objects x o) z q ↔ Owns objects z q ∧ q ≠ r := by
    intro z q
    rw [owns_put_iff]
    constructor
    · rintro (⟨-, hq⟩ | ⟨hz, hq⟩)
      · exact absurd hq (ho q)
      · exact ⟨hq, fun heq => hz (h.owner_eq hq (heq ▸ hx))⟩
    · rintro ⟨hq, hne⟩
      exact .inr ⟨fun hz => hne ((hz ▸ hq).resource_eq hx), hq⟩
  constructor
  · intro y z q hy hz
    exact h.owner_eq ((howns y q).mp hy).1 ((howns z q).mp hz).1
  · intro q
    simp only [howns, Finset.mem_erase, h.mem_iff q]
    constructor
    · rintro ⟨hne, z, hz⟩
      exact ⟨z, hz, hne⟩
    · rintro ⟨z, hz, hne⟩
      exact ⟨hne, z, hz⟩

omit [DecidableEq ρ] in
/-- A resource is handed to an object that had none. -/
theorem hand (h : Exclusive objects inUse) (hxy : x ≠ y) (hx : ∀ q, ¬ Owns objects x q) :
    Exclusive (hand objects x y) inUse := by
  have howns : ∀ z q, Owns (Ownership.hand objects x y) z q →
      ∃ w, Owns objects w q ∧ z = if w = y then x else w := by
    intro z q hz
    rcases (owns_hand_iff objects hxy).mp hz with ⟨rfl, hq⟩ | ⟨-, hne, hq⟩
    · exact ⟨y, hq, by simp⟩
    · exact ⟨z, hq, by simp [hne]⟩
  constructor
  · intro z w q hz hw
    obtain ⟨z', hz', rfl⟩ := howns z q hz
    obtain ⟨w', hw', rfl⟩ := howns w q hw
    rw [h.owner_eq hz' hw']
  · intro q
    rw [h.mem_iff q]
    constructor
    · rintro ⟨w, hw⟩
      by_cases hwy : w = y
      · exact ⟨x, (owns_hand_iff objects hxy).mpr (.inl ⟨rfl, hwy ▸ hw⟩)⟩
      · refine ⟨w, (owns_hand_iff objects hxy).mpr (.inr ⟨?_, hwy, hw⟩)⟩
        exact fun hwx => hx q (hwx ▸ hw)
    · rintro ⟨z, hz⟩
      obtain ⟨w, hw, -⟩ := howns z q hz
      exact ⟨w, hw⟩

end Exclusive

section Values

variable [DecidableEq ν]

/-- The objects with the values in place of the places that hold them. -/
def values (contents : ρ → β) (objects : Objects ν ρ) : Objects ν β :=
  fun x => (objects x).map (·.map contents)

variable (contents : ρ → β) (objects : Objects ν ρ)

theorem values_put (x : ν) (o : Option (Option ρ)) :
    values contents (put objects x o) =
      put (values contents objects) x (o.map (·.map contents)) := by
  funext y
  by_cases h : y = x
  · rw [h, put_self, values, put_self]
  · rw [put_of_ne _ h, values, put_of_ne _ h, values]

theorem values_hand (x y : ν) :
    values contents (hand objects x y) = hand (values contents objects) x y := by
  rw [hand, values_put, values_put, hand]
  rfl

omit [DecidableEq ν] in
/-- A place that no object is in charge of may be written to. -/
theorem values_update [DecidableEq ρ] {r : ρ} (h : ∀ x, ¬ Owns objects x r) (b : β) :
    values (update contents r b) objects = values contents objects := by
  funext x
  cases hx : objects x with
  | none => simp [values, hx]
  | some o =>
    cases o with
    | none => simp [values, hx]
    | some q =>
      have hne : q ≠ r := fun hq => h x (hq ▸ hx)
      simp [values, hx, hne]

end Values

end CppWebserver.Ownership
