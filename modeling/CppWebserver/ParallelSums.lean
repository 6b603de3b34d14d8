import CppWebserver.ParallelRuns

/-!
# What `parallel_accumulate` returns

With an associative addition and its identity the call returns what `std::accumulate`
does, whatever the number of threads and the order of their steps. The additions of
`int` are another matter: the blocks start from zero, not from the initial value, so
their running totals are not those of `std::accumulate`.
-/

namespace CppWebserver.ParallelAccumulate
open BlockFolds LabelledRuns

section Monoids

variable {T : Type*} [AddMonoid T]

/-- A type with an associative `operator+` whose identity is `T()`. -/
def ValueType.ofAddMonoid : ValueType T where
  zero := 0
  plus a b := some (a + b)

theorem adds_ofAddMonoid :
    Adds (ValueType.ofAddMonoid (T := T)).plus id (fun _ => True) where
  isSome_iff := by simp [ValueType.ofAddMonoid]
  val_eq := by
    intro a b c h
    exact (Option.some.inj h).symm

/-- What holds after a run of a call, whatever its order. -/
structure Folds (c : Call T) (es : List Event) (s : State T) : Prop where
  defined : ¬ s.Undefined
  threadBlocks : (s.threads.map fun block => slice c.range.elements block.first block.last).flatten =
    c.range.elements.take s.blockStart
  ownBlock : ∀ block, s.pc = .own block →
    block.first = s.blockStart ∧ block.last = c.range.elements.length
  inside : (∀ block ∈ s.threads, block.first ≤ block.last ∧ block.last ≤ s.blockStart) ∧
    s.blockStart ≤ c.range.elements.length
  returned : ∀ value, s.pc = .returned value →
    accumulate .ofAddMonoid c.range.elements c.initialValue = some value
  goesOn : (∀ e, step .ofAddMonoid c s e = none) → ∃ value, s.pc = .returned value
  bounded : es.length ≤ c.rank .start

variable {c : Call T} {s : State T}

theorem Call.Reachable.defined (h : c.Reachable .ofAddMonoid s) : ¬ s.Undefined := by
  have hfold : ∀ (a : T) xs, (partialFold (ValueType.ofAddMonoid (T := T)).plus a xs).isSome :=
    fun a xs => (adds_ofAddMonoid.isSome_partialFold_iff a xs).mpr fun _ _ _ => trivial
  intro hundefined
  rcases h.undefined hundefined with ⟨block, -, hnone⟩ | ⟨vs, -, hnone⟩
  · have hsome := hfold 0 block
    rw [show (0 : T) = (ValueType.ofAddMonoid (T := T)).zero from rfl, hnone] at hsome
    cases hsome
  · have hsome := hfold c.initialValue vs
    rw [hnone] at hsome
    cases hsome

/-- The sums of the blocks are combined to the sum of the range. -/
theorem Call.Reachable.accumulate_eq (h : c.Reachable .ofAddMonoid s) {value : T}
    (hpc : s.pc = .returned value) :
    accumulate .ofAddMonoid c.range.elements c.initialValue = some value := by
  obtain ⟨vs, hblocks, hvalue⟩ := h.returned hpc
  obtain ⟨total, htotal⟩ := Option.isSome_iff_exists.mp
    ((adds_ofAddMonoid.isSome_partialFold_iff c.initialValue c.range.elements).mpr
      fun _ _ _ => trivial)
  have hsum := adds_ofAddMonoid.sum_blocks rfl hblocks
  have hleft := adds_ofAddMonoid.val_partialFold hvalue
  have hright := adds_ofAddMonoid.val_partialFold htotal
  rw [Call.flatten_blocks] at hsum
  rw [hsum] at hleft
  rw [accumulate, htotal]
  exact congrArg some (hright.trans hleft.symm)

theorem Call.Reachable.folds (h : c.Reachable .ofAddMonoid s) {es : List Event}
    (hlength : es.length ≤ c.rank .start) : Folds c es s := by
  have hdefined := h.defined
  have hgoesOn : (∀ e, ParallelAccumulate.step .ofAddMonoid c s e = none) →
      ∃ value, s.pc = .returned value := by
    intro hnone
    by_contra hrunning
    obtain ⟨e, s', hstep⟩ := h.progress (not_or.mpr ⟨hdefined, hrunning⟩)
    rw [hnone e] at hstep
    cases hstep
  have hreturned : ∀ value, s.pc = .returned value → _ := fun _ => h.accumulate_eq
  cases h with
  | start h | empty _ h =>
    subst h
    exact ⟨hdefined, by simp [State.start], by simp [State.start], by simp [State.start],
      hreturned, hgoesOn, hlength⟩
  | started h =>
    refine ⟨hdefined, h.threadBlocks, fun _ => h.ownBlock, ⟨fun _ => h.thread_le, ?_⟩,
      hreturned, hgoesOn, hlength⟩
    rw [h.blockStart]
    exact Call.cut_le _

/-- A call folds its range like `std::accumulate`: in every run, of whatever number of threads
and in whatever order, the blocks cut the range at positions inside it, nothing undefined
happens, and after a bounded number of steps the call has returned the sum. -/
theorem parallel_accumulate_eq (c : Call T) (es : List Event) (s : State T)
    (h : run (step .ofAddMonoid c) .start es = some s) : Folds c es s :=
  (reachable_of_run h).folds (length_le_of_run h)

end Monoids

/-- A range of 26 elements, of which a thread and the caller sum half each. -/
def ones : Call ℕ where
  range := ⟨List.replicate 26 1, by decide⟩
  initialValue := 3
  hardwareConcurrency := 2

def onesEvents : List Event :=
  List.replicate 3 .caller ++ List.replicate 9 (.thread 0) ++ List.replicate 15 .caller ++
    List.replicate 6 (.thread 0) ++ List.replicate 6 .caller

theorem parallel_accumulate_eq_ones :
    ∃ s, run (step .ofAddMonoid ones) .start onesEvents = some s ∧ s.pc = .returned 29 ∧
      Folds ones onesEvents s :=
  ⟨_, rfl, rfl, parallel_accumulate_eq ones onesEvents _ rfl⟩

section Ints

/-- The values of `int`. -/
def InRange (z : ℤ) : Prop := -2 ^ 31 ≤ z ∧ z < 2 ^ 31

instance : DecidablePred InRange := fun _ => inferInstanceAs (Decidable (_ ∧ _))

/-- `int`, whose addition is undefined where the sum is none of its values. -/
def ValueType.int : ValueType Int32 where
  zero := 0
  plus a b := if InRange (a.toInt + b.toInt) then some (.ofInt (a.toInt + b.toInt)) else none

theorem adds_int : Adds ValueType.int.plus Int32.toInt InRange where
  isSome_iff := by
    intro a b
    rw [ValueType.int]
    dsimp only
    split <;> simp_all
  val_eq := by
    intro a b c h
    rw [ValueType.int] at h
    dsimp only at h
    split at h
    · next hin =>
      rw [← Option.some.inj h, Int32.toInt_ofInt_of_le hin.1 hin.2]
    · cases h

/-- The exact sum. -/
def total (xs : List Int32) : ℤ := (xs.map Int32.toInt).sum

theorem isSome_blockFold_iff (block : List Int32) :
    (partialFold ValueType.int.plus ValueType.int.zero block).isSome ↔
      ∀ p, p <+: block → InRange (total p) := by
  have hzero : ValueType.int.zero.toInt = 0 := rfl
  rw [adds_int.isSome_partialFold_iff, hzero]
  constructor
  · intro h p hp
    by_cases hne : p = []
    · rw [hne]
      decide
    · have hp' := h p hp hne
      rwa [zero_add] at hp'
  · intro h p hp _
    rw [zero_add]
    exact h p hp

variable {c : Call Int32} {s : State Int32}

/-- `std::accumulate` adds up the range from the initial value without overflow. -/
def SequentiallyInRange (c : Call Int32) : Prop :=
  ∀ p, p <+: c.range.elements → InRange (c.initialValue.toInt + total p)

theorem sequentiallyInRange_iff :
    SequentiallyInRange c ↔ (accumulate .int c.range.elements c.initialValue).isSome := by
  rw [accumulate, adds_int.isSome_partialFold_iff]
  constructor
  · exact fun h p hp _ => h p hp
  · intro h p hp
    by_cases hne : p = []
    · rw [hne, total, List.map_nil, List.sum_nil, add_zero]
      exact ⟨Int32.le_toInt _, Int32.toInt_lt _⟩
    · exact h p hp hne

theorem SequentiallyInRange.isSome_combined (hseq : SequentiallyInRange c) {vs : List Int32}
    (hvs : c.blocks.map (partialFold ValueType.int.plus ValueType.int.zero) = vs.map some) :
    (partialFold ValueType.int.plus c.initialValue vs).isSome := by
  refine adds_int.isSome_combined rfl hvs fun p hp => hseq p ?_
  rwa [Call.flatten_blocks] at hp

/-- The additions of the caller in `results` are defined. -/
theorem SequentiallyInRange.combine (hseq : SequentiallyInRange c)
    (h : c.Reachable .int s) {first : ℕ} {acc result : Int32}
    (hpc : s.pc = .combine first acc) (hresult : s.results[first]? = some result) :
    InRange (acc.toInt + result.toInt) := by
  cases h with
  | start h | empty _ h =>
    subst h
    cases hpc
  | started h =>
    have hcaller := h.caller
    simp only [Call.Reached, hpc] at hcaller
    obtain ⟨hjoined, -, hacc⟩ := hcaller
    have hsome := hseq.isSome_combined (h.blocks_eq hjoined)
    rw [← adds_int.isSome_iff, Option.isSome_iff_ne_none]
    intro hnone
    have hstuck : partialFold ValueType.int.plus c.initialValue (s.results.take (first + 1)) =
        none := by
      rw [partialFold_take_succ hresult, hacc, Option.bind_some, hnone]
    rw [partialFold_eq_none_of_take hstuck] at hsome
    cases hsome

/-- If `std::accumulate` does not overflow, then neither does any addition of block sums; the
additions inside the blocks are all defined, in whatever order the threads take their steps,
exactly if no running total of a block from zero overflows. -/
theorem overflow_free_iff (c : Call Int32) (hseq : SequentiallyInRange c) :
    (∀ es s, run (step .int c) .start es = some s → ∀ first acc result,
      s.pc = .combine first acc → s.results[first]? = some result →
        InRange (acc.toInt + result.toInt)) ∧
    ((∀ es s, run (step .int c) .start es = some s → ¬ s.Undefined) ↔
      ∀ block ∈ c.blocks, ∀ p, p <+: block → InRange (total p)) := by
  refine ⟨fun es s h first acc result => hseq.combine (reachable_of_run h), ?_⟩
  simp only [← isSome_blockFold_iff]
  constructor
  · intro hdefined block hblock
    obtain ⟨es, s, hrun, hreach, hfinal⟩ :=
      exists_run_final (c.Reachable .int) (fun s => s.Undefined ∨ ∃ value, s.pc = .returned value)
        c.rank (fun _ _ _ => Call.Reachable.step) (fun _ => Call.Reachable.progress) (.start rfl)
    rcases hfinal with hundefined | ⟨value, hpc⟩
    · exact absurd hundefined (hdefined es s hrun)
    · obtain ⟨vs, hvs, -⟩ := hreach.returned hpc
      have hmem := List.mem_map_of_mem (f := partialFold ValueType.int.plus ValueType.int.zero) hblock
      rw [hvs] at hmem
      obtain ⟨v, -, hv⟩ := List.mem_map.mp hmem
      rw [← hv]
      rfl
  · intro hblocks es s hrun hundefined
    rcases (reachable_of_run hrun).undefined hundefined with ⟨block, hblock, hnone⟩ | ⟨vs, hvs, hnone⟩
    · have hsome := hblocks block hblock
      rw [hnone] at hsome
      cases hsome
    · have hsome := hseq.isSome_combined hvs
      rw [hnone] at hsome
      cases hsome

/-- A range of two blocks whose sums are small. -/
def smallInts : Call Int32 where
  range := ⟨List.replicate 26 2, by decide⟩
  initialValue := -1
  hardwareConcurrency := 2

theorem overflow_free_iff_smallInts :
    (∀ es s, run (step .int smallInts) .start es = some s → ∀ first acc result,
      s.pc = .combine first acc → s.results[first]? = some result →
        InRange (acc.toInt + result.toInt)) ∧
    ((∀ es s, run (step .int smallInts) .start es = some s → ¬ s.Undefined) ↔
      ∀ block ∈ smallInts.blocks, ∀ p, p <+: block → InRange (total p)) := by
  refine overflow_free_iff smallInts fun p hp => ?_
  have h : ∀ p ∈ smallInts.range.elements.inits,
      InRange (smallInts.initialValue.toInt + total p) := by decide
  exact h p ((List.mem_inits p _).mpr hp)

/-- The initial value keeps the sum in range, and the block starts without it. -/
def negativeInitial : Call Int32 where
  range := ⟨[2147483647, 1], by decide⟩
  initialValue := -1
  hardwareConcurrency := 2

theorem block_from_zero_overflows :
    ¬ (SequentiallyInRange negativeInitial →
      ∀ es s, run (step .int negativeInitial) .start es = some s → ¬ s.Undefined) := by
  intro h
  have hseq : ∀ p ∈ negativeInitial.range.elements.inits,
      InRange (negativeInitial.initialValue.toInt + total p) := by decide
  refine h (fun p hp => hseq p ((List.mem_inits p _).mpr hp)) (List.replicate 5 .caller) _ rfl ?_
  exact .inr (.inl ⟨_, rfl, rfl⟩)

end Ints

end CppWebserver.ParallelAccumulate
