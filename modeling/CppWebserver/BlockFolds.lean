import Mathlib.Algebra.BigOperators.Group.List.Basic
import Mathlib.Data.List.Induction
import Mathlib.Order.Monotone.Basic

/-!
# Folding a partial addition in blocks

A list is cut into blocks, each block is folded from zero, and the results are folded
from an initial value. An addition may be undefined where the exact sum is not a value.
The blockwise fold adds up to the same total; its last part meets only totals that the
fold of the whole list meets, its blocks meet others.
-/

namespace CppWebserver.BlockFolds

variable {T M : Type*}

/-- Left to right, as long as every sum is defined. -/
def partialFold (add : T → T → Option T) (a : T) (xs : List T) : Option T := xs.foldlM add a

@[simp] theorem partialFold_nil (add : T → T → Option T) (a : T) :
    partialFold add a [] = some a := rfl

theorem partialFold_cons (add : T → T → Option T) (a x : T) (xs : List T) :
    partialFold add a (x :: xs) = (add a x).bind (fun b => partialFold add b xs) := rfl

theorem partialFold_concat (add : T → T → Option T) (a x : T) (xs : List T) :
    partialFold add a (xs ++ [x]) = (partialFold add a xs).bind (fun b => add b x) := by
  rw [partialFold, List.foldlM_append]
  simp [partialFold]

/-- A fold that has got stuck stays stuck. -/
theorem partialFold_append_of_none {add : T → T → Option T} {a : T} {xs : List T}
    (h : partialFold add a xs = none) (ys : List T) : partialFold add a (xs ++ ys) = none := by
  rw [partialFold] at h ⊢
  rw [List.foldlM_append, h]
  rfl

theorem partialFold_take_succ {add : T → T → Option T} {a x : T} {xs : List T} {i : ℕ}
    (hx : xs[i]? = some x) :
    partialFold add a (xs.take (i + 1)) =
      (partialFold add a (xs.take i)).bind (fun b => add b x) := by
  rw [List.take_add_one, hx, Option.toList_some, partialFold_concat]

theorem partialFold_eq_none_of_take {add : T → T → Option T} {a : T} {xs : List T} {i : ℕ}
    (h : partialFold add a (xs.take i) = none) : partialFold add a xs = none := by
  have hall := partialFold_append_of_none h (xs.drop i)
  rwa [List.take_append_drop] at hall

/-- The value of a sum is the sum of the values, defined where that is admissible. -/
structure Adds [AddMonoid M] (add : T → T → Option T) (val : T → M) (admissible : M → Prop) :
    Prop where
  isSome_iff : ∀ a b, (add a b).isSome ↔ admissible (val a + val b)
  val_eq : ∀ a b c, add a b = some c → val c = val a + val b

section Values

variable [AddMonoid M] {add : T → T → Option T} {val : T → M} {admissible : M → Prop}

theorem Adds.val_partialFold (h : Adds add val admissible) {a v : T} {xs : List T}
    (hv : partialFold add a xs = some v) : val v = val a + (xs.map val).sum := by
  induction xs generalizing a with
  | nil =>
    obtain rfl : a = v := Option.some.inj hv
    simp
  | cons x xs ih =>
    rw [partialFold_cons] at hv
    obtain ⟨b, hb, hv⟩ := Option.bind_eq_some_iff.mp hv
    rw [ih hv, h.val_eq _ _ _ hb, List.map_cons, List.sum_cons, add_assoc]

/-- A fold is defined exactly if every running total is admissible. -/
theorem Adds.isSome_partialFold_iff (h : Adds add val admissible) (a : T) (xs : List T) :
    (partialFold add a xs).isSome ↔
      ∀ p, p <+: xs → p ≠ [] → admissible (val a + (p.map val).sum) := by
  induction xs using List.reverseRecOn with
  | nil => simp
  | append_singleton xs x ih =>
    rw [partialFold_concat]
    constructor
    · intro hsome p hp hne
      obtain ⟨v, hv⟩ := Option.isSome_iff_exists.mp hsome
      obtain ⟨b, hb, hlast⟩ := Option.bind_eq_some_iff.mp hv
      rcases List.prefix_concat_iff.mp hp with rfl | hp
      · rw [List.map_append, List.sum_append, List.map_singleton, List.sum_singleton,
          ← add_assoc, ← h.val_partialFold hb, ← h.isSome_iff, hlast]
        rfl
      · exact ih.mp (Option.isSome_iff_exists.mpr ⟨b, hb⟩) p hp hne
    · intro hall
      have hfront := ih.mpr fun p hp => hall p (hp.trans (List.prefix_append _ _))
      obtain ⟨b, hb⟩ := Option.isSome_iff_exists.mp hfront
      have hlast := hall _ List.prefix_rfl (by simp)
      rw [List.map_append, List.sum_append, List.map_singleton, List.sum_singleton,
        ← add_assoc, ← h.val_partialFold hb, ← h.isSome_iff] at hlast
      rwa [hb, Option.bind_some]

/-- The results of the blocks add up to the total of the blocks. -/
theorem Adds.sum_blocks (h : Adds add val admissible) {zero : T} (hzero : val zero = 0)
    {blocks : List (List T)} {vs : List T}
    (hvs : blocks.map (partialFold add zero) = vs.map some) :
    (vs.map val).sum = (blocks.flatten.map val).sum := by
  induction blocks generalizing vs with
  | nil =>
    obtain rfl : vs = [] := by simpa using hvs.symm
    rfl
  | cons b blocks ih =>
    cases vs with
    | nil => simp at hvs
    | cons v vs =>
      rw [List.map_cons, List.map_cons, List.cons.injEq] at hvs
      rw [List.map_cons, List.sum_cons, ih hvs.2, h.val_partialFold hvs.1, hzero, zero_add,
        List.flatten_cons, List.map_append, List.sum_append]

/-- Where the results of the blocks are combined, only running totals of the whole list come up. -/
theorem Adds.isSome_combined (h : Adds add val admissible) {zero : T} (hzero : val zero = 0)
    {blocks : List (List T)} {vs : List T} {a : T}
    (hvs : blocks.map (partialFold add zero) = vs.map some)
    (htotals : ∀ p, p <+: blocks.flatten → admissible (val a + (p.map val).sum)) :
    (partialFold add a vs).isSome := by
  rw [h.isSome_partialFold_iff]
  intro p hp _
  have hfront : (blocks.take p.length).map (partialFold add zero) = p.map some := by
    rw [List.map_take, hvs, ← List.map_take, ← List.prefix_iff_eq_take.mp hp]
  rw [h.sum_blocks hzero hfront]
  refine htotals _ ⟨(blocks.drop p.length).flatten, ?_⟩
  rw [← List.flatten_append, List.take_append_drop]

end Values

/-- What lies between two cuts. -/
def slice (xs : List T) (first last : ℕ) : List T := (xs.take last).drop first

theorem take_append_slice (xs : List T) {first last : ℕ} (h : first ≤ last) :
    xs.take first ++ slice xs first last = xs.take last := by
  rw [slice, ← Nat.min_eq_left h, ← List.take_take, Nat.min_eq_left h, List.take_append_drop]

theorem slice_concat {xs : List T} {first last : ℕ} {x : T} (h : first ≤ last)
    (hx : xs[last]? = some x) : slice xs first (last + 1) = slice xs first last ++ [x] := by
  obtain ⟨hlast, -⟩ := List.getElem?_eq_some_iff.mp hx
  have hle : first ≤ (xs.take last).length := by
    rw [List.length_take]
    omega
  rw [slice, slice, List.take_add_one, hx, Option.toList_some, List.drop_append_of_le_length hle]

theorem slice_self (xs : List T) (first : ℕ) : slice xs first first = [] :=
  List.drop_of_length_le (List.length_take_le _ _)

theorem slice_append (xs : List T) {first mid last : ℕ} (h : first ≤ mid) (h' : mid ≤ last) :
    slice xs first last = slice xs first mid ++ slice xs mid last := by
  have htake : xs.take first ++ slice xs first last =
      xs.take first ++ (slice xs first mid ++ slice xs mid last) := by
    rw [← List.append_assoc, take_append_slice xs (h.trans h'), take_append_slice xs h,
      take_append_slice xs h']
  exact List.append_cancel_left htake

/-- The blocks between successive cuts. -/
def slices (xs : List T) (cut : ℕ → ℕ) (n : ℕ) : List (List T) :=
  (List.range n).map fun j => slice xs (cut j) (cut (j + 1))

theorem flatten_slices (xs : List T) {cut : ℕ → ℕ} (hcut : Monotone cut) (hzero : cut 0 = 0)
    (n : ℕ) : (slices xs cut n).flatten = xs.take (cut n) := by
  induction n with
  | zero => simp [slices, hzero]
  | succ n ih =>
    rw [slices, List.range_succ, List.map_append, List.flatten_append, ← slices, ih,
      List.map_singleton, List.flatten_singleton, take_append_slice xs (hcut n.le_succ)]

end CppWebserver.BlockFolds
