import CppWebserver.ParallelAccumulate

/-!
# Runs of `parallel_accumulate`

Whatever the order of steps, each thread sums the block between two cuts into its own
element of `results`, and the caller combines the sums after it has joined all
threads. No step leaves a process undefined unless a sum is, every step brings the
call nearer to its end, and only a call that has returned or is undefined has none.
-/

namespace CppWebserver.ParallelAccumulate
open BlockFolds LabelledRuns

variable {T : Type*}

section Sizes

variable (c : Call T)

/-- `num_threads`. -/
def Call.blockCount : ℕ := c.numThreads.toNat

/-- `block_size`. -/
def Call.blockLength : ℕ := (c.length / c.numThreads).toNat

/-- Where the `j`th block begins and the one before it ends. -/
def Call.cut (j : ℕ) : ℕ :=
  if j < c.blockCount then j * c.blockLength else c.range.elements.length

/-- The blocks of the range. -/
def Call.blocks : List (List T) := slices c.range.elements c.cut c.blockCount

theorem Call.toNat_length : c.length.toNat = c.range.elements.length := by
  have := c.range.length_lt
  rw [length, UInt64.toNat_ofNat', Nat.mod_eq_of_lt (by omega)]

theorem Call.length_eq_zero_iff : c.length = 0 ↔ c.range.elements = [] := by
  rw [← UInt64.toNat_inj, toNat_length, ← List.length_eq_zero_iff]
  rfl

theorem toNat_min (a b : UInt64) : (min a b).toNat = min a.toNat b.toNat := by
  by_cases h : a ≤ b
  · rw [show min a b = a from if_pos h, Nat.min_eq_left (UInt64.le_iff_toNat_le.mp h)]
  · rw [show min a b = b from if_neg h]
    have := mt UInt64.le_iff_toNat_le.mpr h
    omega

theorem Call.toNat_maxThreads : c.maxThreads.toNat = (c.range.elements.length + 24) / 25 := by
  have hlt := c.range.length_lt
  have hlength := c.toNat_length
  rw [maxThreads, UInt64.toNat_div, UInt64.toNat_sub, UInt64.toNat_add, hlength,
    show minPerThread.toNat = 25 from rfl, show (1 : UInt64).toNat = 1 from rfl]
  omega

theorem Call.toNat_hardwareThreads : c.hardwareThreads.toNat = c.hardwareConcurrency.toNat :=
  UInt32.toNat_toUInt64 _

theorem Call.blockCount_eq : c.blockCount =
    min (if c.hardwareConcurrency = 0 then 2 else c.hardwareConcurrency.toNat)
      ((c.range.elements.length + 24) / 25) := by
  have hzero : c.hardwareThreads = 0 ↔ c.hardwareConcurrency = 0 := by
    rw [← UInt64.toNat_inj, toNat_hardwareThreads, ← UInt32.toNat_inj]
    rfl
  rw [blockCount, numThreads, toNat_min, toNat_maxThreads]
  by_cases h : c.hardwareConcurrency = 0
  · rw [if_pos h, if_neg (not_not.mpr (hzero.mpr h))]
    rfl
  · rw [if_neg h, if_pos (mt hzero.mp h), toNat_hardwareThreads]

/-- There is a block, and no more of them than elements. -/
theorem Call.blockCount_bounds (h : c.range.elements ≠ []) :
    0 < c.blockCount ∧ c.blockCount ≤ c.range.elements.length := by
  have hpos := List.length_pos_iff.mpr h
  have hthreads : 0 < if c.hardwareConcurrency = 0 then 2 else c.hardwareConcurrency.toNat := by
    split
    · decide
    · next hne => exact Nat.pos_of_ne_zero fun h0 => hne (UInt32.toNat_inj.mp h0)
  rw [blockCount_eq]
  omega

theorem Call.blockSize_eq (h : c.range.elements ≠ []) :
    c.blockSize = some (c.length / c.numThreads) := by
  refine if_neg fun h0 => (c.blockCount_bounds h).1.ne' ?_
  rw [blockCount, h0]
  rfl

theorem Call.toNat_numThreads_sub_one (h : c.range.elements ≠ []) :
    (c.numThreads - 1).toNat = c.blockCount - 1 := by
  have hpos := (c.blockCount_bounds h).1
  have hlt := c.numThreads.toNat_lt
  rw [blockCount] at hpos ⊢
  rw [UInt64.toNat_sub, show (1 : UInt64).toNat = 1 from rfl]
  omega

theorem Call.blockCount_mul_blockLength_le :
    c.blockCount * c.blockLength ≤ c.range.elements.length := by
  rw [blockLength, UInt64.toNat_div, toNat_length, ← blockCount]
  exact Nat.mul_div_le _ _

variable {c}

theorem Call.cut_of_lt {j : ℕ} (h : j < c.blockCount) : c.cut j = j * c.blockLength := if_pos h

@[simp] theorem Call.cut_blockCount : c.cut c.blockCount = c.range.elements.length :=
  if_neg (Nat.lt_irrefl _)

theorem Call.cut_le (j : ℕ) : c.cut j ≤ c.range.elements.length := by
  rw [cut]
  split
  · next h => exact (Nat.mul_le_mul_right _ h.le).trans c.blockCount_mul_blockLength_le
  · exact le_rfl

theorem Call.cut_mono : Monotone c.cut := by
  intro i j hij
  by_cases hj : j < c.blockCount
  · rw [cut_of_lt hj, cut_of_lt (hij.trans_lt hj)]
    exact Nat.mul_le_mul_right _ hij
  · rw [show c.cut j = c.range.elements.length from if_neg hj]
    exact cut_le i

theorem Call.cut_zero (h : c.range.elements ≠ []) : c.cut 0 = 0 := by
  rw [cut_of_lt (c.blockCount_bounds h).1, Nat.zero_mul]

theorem Call.blocks_of_empty (h : c.range.elements = []) : c.blocks = [] := by
  have hzero : c.blockCount = 0 := by
    rw [blockCount_eq, h, List.length_nil]
    exact Nat.min_zero _
  rw [blocks, hzero]
  rfl

/-- The blocks are a partition of the range. -/
theorem Call.flatten_blocks : c.blocks.flatten = c.range.elements := by
  by_cases h : c.range.elements = []
  · rw [blocks_of_empty h, h]
    rfl
  · rw [blocks, flatten_slices _ cut_mono (cut_zero h), cut_blockCount, List.take_length]

/-- The end of a block that is not the last is inside the range. -/
theorem Call.advance_cut {j : ℕ} (h : j + 1 < c.blockCount) :
    c.advance (c.cut j) c.blockLength = some (c.cut (j + 1)) := by
  have hend : c.cut j + c.blockLength = c.cut (j + 1) := by
    rw [cut_of_lt h, cut_of_lt (Nat.lt_of_succ_lt h), Nat.succ_mul]
  rw [advance, hend, if_pos (cut_le _)]

end Sizes

section Blocks

variable (type : ValueType T) (c : Call T)

/-- The sum of the `j`th block, if it is defined. -/
def Call.blockFold (j : ℕ) : Option T :=
  partialFold type.plus type.zero (slice c.range.elements (c.cut j) (c.cut (j + 1)))

/-- A call of `accumulate_block` for the `j`th block has summed the block as far as it has got. -/
structure Call.Sums (j : ℕ) (block : AccumulateBlock T) (results : List T) : Prop where
  first : block.first = c.cut j
  last : block.last = c.cut (j + 1)
  pc : match block.pc with
    | .call => results[j]? = some type.zero
    | .loop first acc => c.cut j ≤ first ∧ first ≤ c.cut (j + 1) ∧
        partialFold type.plus type.zero (slice c.range.elements (c.cut j) first) = some acc
    | .done => results[j]? = c.blockFold type j
    | .undefined => c.blockFold type j = none

variable {type c} {j : ℕ} {block block' : AccumulateBlock T} {results results' : List T}

theorem Call.Sums.of_getElem?_eq (h : c.Sums type j block results)
    (hresults : results'[j]? = results[j]?) : c.Sums type j block results' := by
  refine ⟨h.first, h.last, ?_⟩
  have hpc := h.pc
  cases hblock : block.pc with
  | call | done =>
    simp only [hblock] at hpc
    rw [← hresults] at hpc
    exact hpc
  | loop | undefined =>
    simp only [hblock] at hpc
    exact hpc

/-- What a call of `accumulate_block` does to its block and to the results. -/
theorem Call.Sums.step (h : c.Sums type j block results) (hj : j < results.length)
    (hstep : blockStep type c.range.elements j block results = some (block', results')) :
    c.Sums type j block' results' ∧ results'.length = results.length ∧
      ∀ k, k ≠ j → results'[k]? = results[k]? := by
  have hpc := h.pc
  obtain ⟨first, last, pc⟩ := block
  obtain rfl : first = c.cut j := h.first
  obtain rfl : last = c.cut (j + 1) := h.last
  cases pc with
  | done | undefined => cases hstep
  | call =>
    change results[j]? = some type.zero at hpc
    simp only [blockStep, hpc] at hstep
    cases hstep
    refine ⟨⟨rfl, rfl, le_rfl, cut_mono j.le_succ, ?_⟩, rfl, fun _ _ => rfl⟩
    rw [slice_self, partialFold_nil]
  | loop at_ acc =>
    obtain ⟨hfirst, hlast, hacc⟩ := hpc
    by_cases hend : at_ = c.cut (j + 1)
    · simp only [blockStep, if_pos hend] at hstep
      cases hstep
      refine ⟨⟨rfl, rfl, ?_⟩, List.length_set, ?_⟩
      · change (results.set j acc)[j]? = c.blockFold type j
        rw [List.getElem?_set_self hj, blockFold, ← hend, hacc]
      · intro k hk
        exact List.getElem?_set_ne hk.symm
    · have hlt : at_ < c.cut (j + 1) := lt_of_le_of_ne hlast hend
      have hin : at_ < c.range.elements.length := hlt.trans_le (cut_le _)
      have hconcat := slice_concat hfirst (List.getElem?_eq_getElem hin)
      have hnext : partialFold type.plus type.zero
          (slice c.range.elements (c.cut j) (at_ + 1)) = type.plus acc c.range.elements[at_] := by
        rw [hconcat, partialFold_concat, hacc, Option.bind_some]
      simp only [blockStep, if_neg hend, List.getElem?_eq_getElem hin, Option.bind_some] at hstep
      split at hstep
      · next acc' hacc' =>
        cases hstep
        rw [hacc'] at hnext
        exact ⟨⟨rfl, rfl, hfirst.trans at_.le_succ, hlt, hnext⟩, rfl, fun _ _ => rfl⟩
      · next hnone =>
        cases hstep
        rw [hnone] at hnext
        refine ⟨⟨rfl, rfl, ?_⟩, rfl, fun _ _ => rfl⟩
        change c.blockFold type j = none
        rw [blockFold, slice_append _ (hfirst.trans at_.le_succ) hlt]
        exact partialFold_append_of_none hnext _

/-- A call that has not come to its end takes a step. -/
theorem exists_blockStep (type : ValueType T) (elements : List T) (i : ℕ)
    (hdone : block.pc ≠ .done) (hundefined : block.pc ≠ .undefined) (results : List T) :
    ∃ next, blockStep type elements i block results = some next := by
  obtain ⟨first, last, pc⟩ := block
  cases pc with
  | done => exact absurd rfl hdone
  | undefined => exact absurd rfl hundefined
  | call =>
    rw [blockStep]
    dsimp only
    split <;> exact ⟨_, rfl⟩
  | loop at_ acc =>
    rw [blockStep]
    dsimp only
    split
    · exact ⟨_, rfl⟩
    · split <;> exact ⟨_, rfl⟩

/-- Steps that a call of `accumulate_block` may still take. -/
def AccumulateBlock.rank (block : AccumulateBlock T) : ℕ :=
  match block.pc with
  | .call => block.last - block.first + 2
  | .loop first _ => block.last - first + 1
  | .done | .undefined => 0

theorem Call.Sums.rank_lt (h : c.Sums type j block results)
    (hstep : blockStep type c.range.elements j block results = some (block', results')) :
    block'.rank < block.rank := by
  have hpc := h.pc
  obtain ⟨first, last, pc⟩ := block
  obtain rfl : last = c.cut (j + 1) := h.last
  cases pc with
  | done | undefined => cases hstep
  | call =>
    rw [blockStep] at hstep
    dsimp only at hstep
    split at hstep <;> cases hstep <;> simp [AccumulateBlock.rank]
  | loop at_ acc =>
    obtain ⟨-, hlast, -⟩ := hpc
    rw [blockStep] at hstep
    dsimp only at hstep
    split at hstep
    · cases hstep
      simp [AccumulateBlock.rank]
    · next hend =>
      split at hstep <;> cases hstep <;> simp only [AccumulateBlock.rank] <;> omega

end Blocks

section Moves

variable {type : ValueType T} {c : Call T} {s s' : State T} {e : Event}

/-- What a step is, in a call with a range that is not empty. -/
inductive Move (type : ValueType T) (c : Call T) (s : State T) : Event → State T → Prop where
  | enter (hpc : s.pc = .enter) : Move type c s .caller { s with
      pc := .launch 0, results := List.replicate c.blockCount type.zero }
  | launch {i blockEnd : ℕ} (hpc : s.pc = .launch i) (hi : i + 1 < c.blockCount)
      (hadvance : c.advance s.blockStart c.blockLength = some blockEnd) :
      Move type c s .caller { s with
        pc := .launch (i + 1)
        threads := s.threads ++ [⟨s.blockStart, blockEnd, .call⟩]
        blockStart := blockEnd }
  | beyond {i : ℕ} (hpc : s.pc = .launch i) (hi : i + 1 < c.blockCount)
      (hadvance : c.advance s.blockStart c.blockLength = none) :
      Move type c s .caller { s with pc := .undefined }
  | lastBlock {i : ℕ} (hpc : s.pc = .launch i) (hi : c.blockCount ≤ i + 1) :
      Move type c s .caller { s with
        pc := .own ⟨s.blockStart, c.range.elements.length, .call⟩ }
  | own {block block' : AccumulateBlock T} {results : List T} (hpc : s.pc = .own block)
      (hblock : blockStep type c.range.elements (c.blockCount - 1) block s.results =
        some (block', results)) :
      Move type c s .caller { s with pc := .own block', results := results }
  | ownDone {block : AccumulateBlock T} (hpc : s.pc = .own block) (hdone : block.pc = .done) :
      Move type c s .caller { s with pc := .join 0 }
  | join {i : ℕ} {block : AccumulateBlock T} (hpc : s.pc = .join i)
      (hthread : s.threads[i]? = some block) (hdone : block.pc = .done) :
      Move type c s .caller { s with pc := .join (i + 1) }
  | joined {i : ℕ} (hpc : s.pc = .join i) (hthread : s.threads[i]? = none) :
      Move type c s .caller { s with pc := .combine 0 c.initialValue }
  | add {first : ℕ} {acc result acc' : T} (hpc : s.pc = .combine first acc)
      (hresult : s.results[first]? = some result) (hsum : type.plus acc result = some acc') :
      Move type c s .caller { s with pc := .combine (first + 1) acc' }
  | addUndefined {first : ℕ} {acc result : T} (hpc : s.pc = .combine first acc)
      (hresult : s.results[first]? = some result) (hsum : type.plus acc result = none) :
      Move type c s .caller { s with pc := .undefined }
  | finish {first : ℕ} {acc : T} (hpc : s.pc = .combine first acc)
      (hresult : s.results[first]? = none) :
      Move type c s .caller { s with pc := .returned acc }
  | thread {i : ℕ} {block block' : AccumulateBlock T} {results : List T}
      (hthread : s.threads[i]? = some block)
      (hblock : blockStep type c.range.elements i block s.results = some (block', results)) :
      Move type c s (.thread i) { s with threads := s.threads.set i block', results := results }

theorem move_of_callerStep (h : c.range.elements ≠ [])
    (hstep : callerStep type c s = some s') : Move type c s .caller s' := by
  have hsize := c.blockSize_eq h
  have hcount := c.toNat_numThreads_sub_one h
  have hpos := (c.blockCount_bounds h).1
  cases hpc : s.pc with
  | enter =>
    simp only [callerStep, hpc, hsize, if_neg (mt c.length_eq_zero_iff.mp h),
      Option.some.injEq] at hstep
    exact hstep ▸ .enter hpc
  | launch i =>
    simp only [callerStep, hpc, hsize, hcount, Option.bind_some] at hstep
    split at hstep
    · next hi =>
      have hi : i + 1 < c.blockCount := by omega
      split at hstep
      · next hadvance =>
        cases hstep
        exact .beyond hpc hi hadvance
      · next hadvance =>
        cases hstep
        exact .launch hpc hi hadvance
    · next hi =>
      cases hstep
      exact .lastBlock hpc (by omega)
  | own block =>
    simp only [callerStep, hpc, hcount] at hstep
    split at hstep
    · next hdone =>
      cases hstep
      exact .ownDone hpc hdone
    · obtain ⟨⟨block', results⟩, hblock, rfl⟩ := Option.map_eq_some_iff.mp hstep
      exact .own hpc hblock
  | join i =>
    simp only [callerStep, hpc] at hstep
    split at hstep
    · next hthread =>
      cases hstep
      exact .joined hpc hthread
    · next block hthread =>
      split at hstep
      · next hdone =>
        cases hstep
        exact .join hpc hthread hdone
      · cases hstep
  | combine first acc =>
    simp only [callerStep, hpc] at hstep
    split at hstep
    · next hresult =>
      cases hstep
      exact .finish hpc hresult
    · next hresult =>
      split at hstep
      · next hsum =>
        cases hstep
        exact .add hpc hresult hsum
      · next hsum =>
        cases hstep
        exact .addUndefined hpc hresult hsum
  | returned | undefined =>
    simp only [callerStep, hpc] at hstep
    cases hstep

theorem move_of_step (h : c.range.elements ≠ []) (hstep : step type c s e = some s') :
    Move type c s e s' := by
  cases e with
  | caller => exact move_of_callerStep h hstep
  | thread i =>
    rw [step] at hstep
    split at hstep
    · cases hstep
    · next block hthread =>
      obtain ⟨⟨block', results⟩, hblock, rfl⟩ := Option.map_eq_some_iff.mp hstep
      exact .thread hthread hblock

end Moves

section Started

variable (type : ValueType T) (c : Call T)

/-- All threads have come to their end and all sums of blocks are in `results`. -/
structure Call.Joined (s : State T) : Prop where
  count : s.threads.length + 1 = c.blockCount
  results : ∀ j, j < c.blockCount → s.results[j]? = c.blockFold type j
  threads : ∀ block ∈ s.threads, block.pc = .done

/-- What the caller has reached. -/
def Call.Reached (s : State T) : Prop :=
  match s.pc with
  | .enter => False
  | .launch i => s.threads.length = i ∧
      ∀ j, i ≤ j → j < c.blockCount → s.results[j]? = some type.zero
  | .own block => s.threads.length + 1 = c.blockCount ∧
      c.Sums type (c.blockCount - 1) block s.results
  | .join i => s.threads.length + 1 = c.blockCount ∧
      s.results[c.blockCount - 1]? = c.blockFold type (c.blockCount - 1) ∧
      i ≤ s.threads.length ∧ ∀ block ∈ s.threads.take i, block.pc = .done
  | .combine first acc => c.Joined type s ∧ first ≤ c.blockCount ∧
      partialFold type.plus c.initialValue (s.results.take first) = some acc
  | .returned value => c.Joined type s ∧
      partialFold type.plus c.initialValue s.results = some value
  | .undefined => c.Joined type s ∧ partialFold type.plus c.initialValue s.results = none

/-- A call with a range that is not empty, behind its first step. -/
structure Call.Started (s : State T) : Prop where
  nonempty : c.range.elements ≠ []
  results : s.results.length = c.blockCount
  count : s.threads.length < c.blockCount
  blockStart : s.blockStart = c.cut s.threads.length
  threads : ∀ j block, s.threads[j]? = some block → c.Sums type j block s.results
  caller : c.Reached type s

variable {type c} {s s' : State T} {e : Event}

/-- Where all threads are done, the remaining element of the results is that of the caller. -/
theorem Call.Started.joined (h : c.Started type s)
    (hcount : s.threads.length + 1 = c.blockCount)
    (hown : s.results[c.blockCount - 1]? = c.blockFold type (c.blockCount - 1))
    (hdone : ∀ block ∈ s.threads, block.pc = .done) : c.Joined type s := by
  refine ⟨hcount, ?_, hdone⟩
  intro j hj
  by_cases hlast : j < s.threads.length
  · have hthread := List.getElem?_eq_getElem hlast
    have hpc := (h.threads j _ hthread).pc
    rw [hdone _ (List.getElem_mem hlast)] at hpc
    exact hpc
  · obtain rfl : j = c.blockCount - 1 := by omega
    exact hown

/-- A thread that takes a step does not touch what the caller has reached. -/
theorem Call.Reached.thread (h : c.Reached type s) {i : ℕ} {block block' : AccumulateBlock T}
    {results : List T} (hthread : s.threads[i]? = some block) (hpc : block.pc ≠ .done)
    (hresults : ∀ k, k ≠ i → results[k]? = s.results[k]?) :
    c.Reached type { s with threads := s.threads.set i block', results := results } := by
  have hi : i < s.threads.length := (List.getElem?_eq_some_iff.mp hthread).1
  have hrunning : ¬ c.Joined type s :=
    fun hjoined => hpc (hjoined.threads block (List.mem_of_getElem? hthread))
  rw [Reached] at h ⊢
  cases hcaller : s.pc with
  | enter =>
    rw [hcaller] at h
    exact h
  | launch k =>
    simp only [hcaller, List.length_set] at h ⊢
    refine ⟨h.1, fun j hj hlt => ?_⟩
    rw [hresults j (by omega)]
    exact h.2 j hj hlt
  | own own =>
    simp only [hcaller, List.length_set] at h ⊢
    exact ⟨h.1, h.2.of_getElem?_eq (hresults _ (by omega))⟩
  | join k =>
    simp only [hcaller, List.length_set] at h ⊢
    obtain ⟨hcount, hown, hk, hdone⟩ := h
    refine ⟨hcount, by rw [hresults _ (by omega), hown], hk, ?_⟩
    have hik : k ≤ i := by
      by_contra hlt
      refine hpc (hdone block (List.mem_of_getElem? (i := i) ?_))
      rw [List.getElem?_take_of_lt (by omega), hthread]
    rw [List.take_set_of_le hik]
    exact hdone
  | combine | returned | undefined =>
    simp only [hcaller] at h
    exact absurd h.1 hrunning

theorem Call.started_enter (h : c.range.elements ≠ []) :
    c.Started type { State.start with
      pc := .launch 0, results := List.replicate c.blockCount type.zero } where
  nonempty := h
  results := List.length_replicate
  count := (c.blockCount_bounds h).1
  blockStart := (cut_zero h).symm
  threads := by simp [State.start]
  caller := by
    refine ⟨rfl, fun j _ hj => ?_⟩
    rw [List.getElem?_replicate, if_pos hj]

theorem Call.Joined.goto (h : c.Joined type s) (pc : CallerPc T) :
    c.Joined type { s with pc := pc } := ⟨h.count, h.results, h.threads⟩

/-- Only the caller has gone on. -/
theorem Call.Started.goto (h : c.Started type s) {pc : CallerPc T}
    (hcaller : c.Reached type { s with pc := pc }) : c.Started type { s with pc := pc } :=
  ⟨h.nonempty, h.results, h.count, h.blockStart, h.threads, hcaller⟩

/-- A launched thread has the block up to the next cut. -/
theorem Call.Started.launch (h : c.Started type s) {i blockEnd : ℕ} (hpc : s.pc = .launch i)
    (hi : i + 1 < c.blockCount) (hadvance : c.advance s.blockStart c.blockLength = some blockEnd) :
    c.Started type { s with
      pc := .launch (i + 1)
      threads := s.threads ++ [⟨s.blockStart, blockEnd, .call⟩]
      blockStart := blockEnd } := by
  have hcaller := h.caller
  simp only [Reached, hpc] at hcaller
  obtain ⟨hlength, hfresh⟩ := hcaller
  rw [h.blockStart, hlength, advance_cut hi, Option.some.injEq] at hadvance
  have hlength' : (s.threads ++ ([⟨s.blockStart, blockEnd, .call⟩] :
      List (AccumulateBlock T))).length = i + 1 := by
    rw [List.length_append, List.length_singleton, hlength]
  refine ⟨h.nonempty, h.results, ?_, ?_, ?_, ?_⟩
  · rw [hlength']
    exact hi
  · rw [hlength', ← hadvance]
  · intro j block hthread
    rcases Nat.lt_or_ge j s.threads.length with hj | hj
    · rw [List.getElem?_append_left hj] at hthread
      exact h.threads j block hthread
    · rw [List.getElem?_append_right hj, List.getElem?_singleton] at hthread
      split at hthread
      · next hlast =>
        cases hthread
        obtain rfl : j = i := by omega
        refine ⟨by rw [h.blockStart, hlength], hadvance.symm, hfresh j le_rfl (by omega)⟩
      · cases hthread
  · exact ⟨hlength', fun j hj => hfresh j (by omega)⟩

/-- The caller sums the last block. -/
theorem Call.Started.own (h : c.Started type s) {block block' : AccumulateBlock T}
    {results : List T} (hpc : s.pc = .own block)
    (hblock : blockStep type c.range.elements (c.blockCount - 1) block s.results =
      some (block', results)) :
    c.Started type { s with pc := .own block', results := results } := by
  have hcaller := h.caller
  simp only [Reached, hpc] at hcaller
  obtain ⟨hcount, hsums⟩ := hcaller
  have hlast : c.blockCount - 1 < s.results.length := by
    rw [h.results]
    omega
  obtain ⟨hsums', hlength, hothers⟩ := hsums.step hlast hblock
  refine ⟨h.nonempty, hlength.trans h.results, h.count, h.blockStart, ?_, hcount, hsums'⟩
  intro j thread hthread
  have hj : j < s.threads.length := (List.getElem?_eq_some_iff.mp hthread).1
  exact (h.threads j thread hthread).of_getElem?_eq (hothers j (by omega))

/-- A thread only touches its own element of the results. -/
theorem Call.Started.thread (h : c.Started type s) {i : ℕ} {block block' : AccumulateBlock T}
    {results : List T} (hthread : s.threads[i]? = some block)
    (hblock : blockStep type c.range.elements i block s.results = some (block', results)) :
    c.Started type { s with threads := s.threads.set i block', results := results } := by
  have hi := (List.getElem?_eq_some_iff.mp hthread).1
  have hcount := h.count
  have hpc : block.pc ≠ .done := by
    intro hdone
    simp only [blockStep, hdone] at hblock
    cases hblock
  obtain ⟨hsums, hlength, hothers⟩ :=
    (h.threads i block hthread).step (by rw [h.results]; omega) hblock
  refine ⟨h.nonempty, hlength.trans h.results, ?_, ?_, ?_,
    h.caller.thread hthread hpc hothers⟩
  · rw [List.length_set]
    exact hcount
  · rw [List.length_set]
    exact h.blockStart
  · intro j thread hj
    by_cases hij : j = i
    · rw [hij, List.getElem?_set_self hi, Option.some.injEq] at hj
      rw [hij, ← hj]
      exact hsums
    · rw [List.getElem?_set_ne (Ne.symm hij)] at hj
      exact (h.threads j thread hj).of_getElem?_eq (hothers j hij)

theorem Call.Started.step (h : c.Started type s)
    (hstep : ParallelAccumulate.step type c s e = some s') : c.Started type s' := by
  have hcaller := h.caller
  rw [Reached] at hcaller
  cases move_of_step h.nonempty hstep with
  | enter hpc =>
    rw [hpc] at hcaller
    exact hcaller.elim
  | launch hpc hi hadvance => exact h.launch hpc hi hadvance
  | beyond hpc hi hadvance =>
    simp only [hpc] at hcaller
    rw [h.blockStart, hcaller.1, advance_cut hi] at hadvance
    cases hadvance
  | @lastBlock i hpc hi =>
    simp only [hpc] at hcaller
    obtain ⟨hlength, hfresh⟩ := hcaller
    have hcount := h.count
    have hcount' : s.threads.length + 1 = c.blockCount := by omega
    have hi : i = c.blockCount - 1 := by omega
    apply h.goto
    refine ⟨hcount', ?_, ?_, ?_⟩
    · rw [h.blockStart, hlength, hi]
    · rw [Nat.sub_add_cancel (by omega), cut_blockCount]
    · exact hfresh _ (by omega) (by omega)
  | own hpc hblock => exact h.own hpc hblock
  | ownDone hpc hdone =>
    simp only [hpc] at hcaller
    obtain ⟨hcount, hsums⟩ := hcaller
    have hown := hsums.pc
    rw [hdone] at hown
    apply h.goto
    exact ⟨hcount, hown, Nat.zero_le _, by simp⟩
  | join hpc hthread hdone =>
    simp only [hpc] at hcaller
    obtain ⟨hcount, hown, hi, hjoined⟩ := hcaller
    apply h.goto
    refine ⟨hcount, hown, (List.getElem?_eq_some_iff.mp hthread).1, ?_⟩
    rw [List.take_add_one, hthread, Option.toList_some]
    exact List.forall_mem_append.mpr ⟨hjoined, List.forall_mem_singleton.mpr hdone⟩
  | joined hpc hthread =>
    simp only [hpc] at hcaller
    obtain ⟨hcount, hown, hi, hjoined⟩ := hcaller
    rw [List.take_of_length_le (List.getElem?_eq_none_iff.mp hthread)] at hjoined
    apply h.goto
    exact ⟨(h.joined hcount hown hjoined).goto _, Nat.zero_le _, rfl⟩
  | add hpc hresult hsum =>
    simp only [hpc] at hcaller
    obtain ⟨hjoined, -, hacc⟩ := hcaller
    apply h.goto
    refine ⟨hjoined.goto _, ?_, ?_⟩
    · rw [← h.results]
      exact (List.getElem?_eq_some_iff.mp hresult).1
    · rw [partialFold_take_succ hresult, hacc, Option.bind_some, hsum]
  | @addUndefined first acc result hpc hresult hsum =>
    simp only [hpc] at hcaller
    obtain ⟨hjoined, -, hacc⟩ := hcaller
    have hstuck : partialFold type.plus c.initialValue (s.results.take (first + 1)) = none := by
      rw [partialFold_take_succ hresult, hacc, Option.bind_some, hsum]
    apply h.goto
    exact ⟨hjoined.goto _, partialFold_eq_none_of_take hstuck⟩
  | finish hpc hresult =>
    simp only [hpc] at hcaller
    obtain ⟨hjoined, -, hacc⟩ := hcaller
    rw [List.take_of_length_le (List.getElem?_eq_none_iff.mp hresult)] at hacc
    exact h.goto ⟨hjoined.goto _, hacc⟩
  | thread hthread hblock => exact h.thread hthread hblock

/-- The sums of the blocks, in order. -/
theorem Call.Started.blocks_eq (h : c.Started type s) (hjoined : c.Joined type s) :
    c.blocks.map (partialFold type.plus type.zero) = s.results.map some := by
  rw [blocks, slices, List.map_map]
  refine List.ext_getElem? fun j => ?_
  rw [List.getElem?_map, List.getElem?_map]
  by_cases hj : j < c.blockCount
  · have hlt : j < s.results.length := by rwa [h.results]
    have hfold := hjoined.results j hj
    rw [List.getElem?_eq_getElem hlt] at hfold
    rw [List.getElem?_range hj, List.getElem?_eq_getElem hlt]
    exact congrArg some hfold.symm
  · rw [List.getElem?_eq_none_iff.mpr (by rw [List.length_range]; omega),
      List.getElem?_eq_none_iff.mpr (by rw [h.results]; omega)]
    rfl

/-- No block of a thread goes beyond that of the caller. -/
theorem Call.Started.thread_le (h : c.Started type s) {block : AccumulateBlock T}
    (hmem : block ∈ s.threads) : block.first ≤ block.last ∧ block.last ≤ s.blockStart := by
  obtain ⟨j, hj⟩ := List.getElem?_of_mem hmem
  have hlt := (List.getElem?_eq_some_iff.mp hj).1
  have hsums := h.threads j block hj
  rw [hsums.first, hsums.last, h.blockStart]
  exact ⟨cut_mono j.le_succ, cut_mono hlt⟩

theorem Call.Started.ownBlock (h : c.Started type s) {block : AccumulateBlock T}
    (hpc : s.pc = .own block) :
    block.first = s.blockStart ∧ block.last = c.range.elements.length := by
  have hcaller := h.caller
  simp only [Reached, hpc] at hcaller
  obtain ⟨hcount, hsums⟩ := hcaller
  rw [hsums.first, hsums.last, h.blockStart, Nat.sub_add_cancel (by omega), cut_blockCount,
    ← hcount, Nat.add_sub_cancel]
  exact ⟨rfl, rfl⟩

/-- The blocks of the threads are what lies before that of the caller. -/
theorem Call.Started.threadBlocks (h : c.Started type s) :
    (s.threads.map fun block => slice c.range.elements block.first block.last).flatten =
      c.range.elements.take s.blockStart := by
  have hslices : (s.threads.map fun block => slice c.range.elements block.first block.last) =
      slices c.range.elements c.cut s.threads.length := by
    refine List.ext_getElem (by simp [slices]) fun j hj _ => ?_
    rw [List.length_map] at hj
    have hsums := h.threads j _ (List.getElem?_eq_getElem hj)
    simp only [slices, List.getElem_map, List.getElem_range, hsums.first, hsums.last]
  rw [hslices, flatten_slices _ cut_mono (cut_zero h.nonempty), h.blockStart]

/-- A process becomes undefined only through the sum of a block or of the results. -/
theorem Call.Started.undefined (h : c.Started type s) (hundefined : s.Undefined) :
    (∃ block ∈ c.blocks, partialFold type.plus type.zero block = none) ∨
      c.Joined type s ∧ partialFold type.plus c.initialValue s.results = none := by
  have hblock : ∀ j, j < c.blockCount → c.blockFold type j = none →
      ∃ block ∈ c.blocks, partialFold type.plus type.zero block = none :=
    fun j hj hnone => ⟨_, List.mem_map.mpr ⟨j, List.mem_range.mpr hj, rfl⟩, hnone⟩
  have hcaller := h.caller
  rw [Reached] at hcaller
  rcases hundefined with hpc | ⟨block, hpc, hstuck⟩ | ⟨block, hmem, hstuck⟩
  · simp only [hpc] at hcaller
    exact .inr hcaller
  · simp only [hpc] at hcaller
    have hsums := hcaller.2.pc
    rw [hstuck] at hsums
    exact .inl (hblock _ (by omega) hsums)
  · obtain ⟨j, hj⟩ := List.getElem?_of_mem hmem
    have hlt := (List.getElem?_eq_some_iff.mp hj).1
    have hsums := (h.threads j block hj).pc
    rw [hstuck] at hsums
    exact .inl (hblock j (hlt.trans h.count) hsums)

/-- A call that has neither returned nor become undefined has a process that goes on. -/
theorem Call.Started.progress (h : c.Started type s) (hdefined : ¬ s.Undefined)
    (hrunning : ∀ value, s.pc ≠ .returned value) :
    ∃ e s', ParallelAccumulate.step type c s e = some s' := by
  have hcaller := h.caller
  rw [Reached] at hcaller
  cases hpc : s.pc with
  | enter =>
    rw [hpc] at hcaller
    exact hcaller.elim
  | launch i =>
    refine ⟨.caller, ?_⟩
    simp only [ParallelAccumulate.step, callerStep, hpc]
    split
    · split <;> exact ⟨_, rfl⟩
    · exact ⟨_, rfl⟩
  | own block =>
    refine ⟨.caller, ?_⟩
    have hstuck : block.pc ≠ .undefined := fun hu => hdefined (.inr (.inl ⟨block, hpc, hu⟩))
    simp only [ParallelAccumulate.step, callerStep, hpc]
    split
    · exact ⟨_, rfl⟩
    · next hdone =>
      obtain ⟨next, hnext⟩ := exists_blockStep type c.range.elements (c.numThreads - 1).toNat
        hdone hstuck s.results
      rw [hnext]
      exact ⟨_, rfl⟩
  | join i =>
    cases hthread : s.threads[i]? with
    | none =>
      refine ⟨.caller, ?_⟩
      simp only [ParallelAccumulate.step, callerStep, hpc, hthread]
      exact ⟨_, rfl⟩
    | some block =>
      by_cases hdone : block.pc = .done
      · refine ⟨.caller, ?_⟩
        simp only [ParallelAccumulate.step, callerStep, hpc, hthread, hdone]
        exact ⟨_, rfl⟩
      · -- The caller waits for a thread that can go on.
        refine ⟨.thread i, ?_⟩
        have hstuck : block.pc ≠ .undefined :=
          fun hu => hdefined (.inr (.inr ⟨block, List.mem_of_getElem? hthread, hu⟩))
        obtain ⟨next, hnext⟩ :=
          exists_blockStep type c.range.elements i hdone hstuck s.results
        simp only [ParallelAccumulate.step, hthread, hnext]
        exact ⟨_, rfl⟩
  | combine first acc =>
    refine ⟨.caller, ?_⟩
    simp only [ParallelAccumulate.step, callerStep, hpc]
    split
    · exact ⟨_, rfl⟩
    · split <;> exact ⟨_, rfl⟩
  | returned value => exact absurd hpc (hrunning value)
  | undefined => exact absurd (.inl hpc) hdefined

end Started

section Ranks

variable {type : ValueType T} {c : Call T} {s s' : State T} {e : Event}

/-- Steps that the caller may still take, with those of the threads it has yet to launch. -/
def Call.callerRank (c : Call T) : CallerPc T → ℕ
  | .enter => c.blockCount * (c.range.elements.length + 4) + 2 * c.blockCount + 4
  | .launch i => (c.blockCount - i) * (c.range.elements.length + 4) + 2 * c.blockCount + 3
  | .own block => block.rank + 2 * c.blockCount + 3
  | .join i => c.blockCount - i + c.blockCount + 2
  | .combine first _ => c.blockCount - first + 1
  | .returned _ | .undefined => 0

/-- Steps that all processes may still take. -/
def Call.rank (c : Call T) (s : State T) : ℕ :=
  (s.threads.map AccumulateBlock.rank).sum + c.callerRank s.pc

theorem sum_rank_set_lt {threads : List (AccumulateBlock T)} {i : ℕ}
    {block block' : AccumulateBlock T} (hthread : threads[i]? = some block)
    (hlt : block'.rank < block.rank) :
    ((threads.set i block').map AccumulateBlock.rank).sum <
      (threads.map AccumulateBlock.rank).sum := by
  induction threads generalizing i with
  | nil => cases hthread
  | cons thread threads ih =>
    cases i with
    | zero =>
      obtain rfl : thread = block := Option.some.inj hthread
      exact Nat.add_lt_add_right hlt _
    | succ i => exact Nat.add_lt_add_left (ih hthread) _

theorem Call.Started.rank_lt (h : c.Started type s)
    (hstep : ParallelAccumulate.step type c s e = some s') : c.rank s' < c.rank s := by
  have hcaller := h.caller
  have hcount := h.count
  rw [Reached] at hcaller
  cases move_of_step h.nonempty hstep with
  | enter hpc =>
    rw [hpc] at hcaller
    exact hcaller.elim
  | @launch i blockEnd hpc hi hadvance =>
    have hend : blockEnd ≤ c.range.elements.length := by
      rw [advance] at hadvance
      split at hadvance
      · cases hadvance
        assumption
      · cases hadvance
    have hleft : c.blockCount - i = c.blockCount - (i + 1) + 1 := by omega
    simp only [rank, hpc, callerRank, List.map_append, List.sum_append, List.map_singleton,
      List.sum_singleton, AccumulateBlock.rank, hleft, Nat.succ_mul]
    omega
  | beyond hpc =>
    simp only [rank, hpc, callerRank]
    omega
  | @lastBlock i hpc =>
    simp only [hpc] at hcaller
    have hleft : c.blockCount - i = c.blockCount - (i + 1) + 1 := by omega
    simp only [rank, hpc, callerRank, AccumulateBlock.rank, hleft, Nat.succ_mul]
    omega
  | @own block block' results hpc hblock =>
    simp only [hpc] at hcaller
    have hlt := hcaller.2.rank_lt hblock
    simp only [rank, hpc, callerRank]
    omega
  | ownDone hpc hdone =>
    simp only [rank, hpc, callerRank]
    omega
  | @join i block hpc hthread =>
    have hi := (List.getElem?_eq_some_iff.mp hthread).1
    simp only [rank, hpc, callerRank]
    omega
  | joined hpc =>
    simp only [rank, hpc, callerRank]
    omega
  | @add first acc result acc' hpc hresult =>
    have hfirst := (List.getElem?_eq_some_iff.mp hresult).1
    rw [h.results] at hfirst
    simp only [rank, hpc, callerRank]
    omega
  | addUndefined hpc | finish hpc =>
    simp only [rank, hpc, callerRank]
    omega
  | @thread i block block' results hthread hblock =>
    exact Nat.add_lt_add_right
      (sum_rank_set_lt hthread ((h.threads i block hthread).rank_lt hblock)) _

/-- Where a run from the call can get. -/
inductive Call.Reachable (type : ValueType T) (c : Call T) (s : State T) : Prop where
  | start (h : s = .start)
  | empty (hrange : c.range.elements = [])
      (h : s = { State.start with pc := .returned c.initialValue })
  | started (h : c.Started type s)

theorem Call.Reachable.step (h : c.Reachable type s)
    (hstep : ParallelAccumulate.step type c s e = some s') :
    c.Reachable type s' ∧ c.rank s' < c.rank s := by
  cases h with
  | started h => exact ⟨.started (h.step hstep), h.rank_lt hstep⟩
  | empty hrange h =>
    subst h
    cases e <;> cases hstep
  | start h =>
    subst h
    by_cases hrange : c.range.elements = []
    · cases e with
      | thread i => cases hstep
      | caller =>
        simp only [ParallelAccumulate.step, callerStep, State.start,
          if_pos (c.length_eq_zero_iff.mpr hrange), Option.some.injEq] at hstep
        subst hstep
        refine ⟨.empty hrange rfl, ?_⟩
        simp only [rank, callerRank, State.start, List.map_nil, List.sum_nil]
        omega
    · cases move_of_step hrange hstep with
      | enter hpc =>
        refine ⟨.started (started_enter hrange), ?_⟩
        simp only [rank, callerRank, State.start, Nat.sub_zero]
        omega
      | thread hthread => cases hthread
      | launch hpc | beyond hpc | lastBlock hpc | own hpc | ownDone hpc | join hpc | joined hpc
      | add hpc | addUndefined hpc | finish hpc => cases hpc

theorem reachable_of_run {es : List Event} (h : run (step type c) .start es = some s) :
    c.Reachable type s :=
  run_invariant (c.Reachable type) (.start rfl) (fun _ _ _ hs hstep => (hs.step hstep).1) h

theorem length_le_of_run {es : List Event} (h : run (step type c) .start es = some s) :
    es.length ≤ c.rank .start := by
  have hle := length_add_rank_le (c.Reachable type) c.rank (.start rfl)
    (fun _ _ _ => Call.Reachable.step) h
  omega

theorem Call.Reachable.progress (h : c.Reachable type s)
    (hfinal : ¬ (s.Undefined ∨ ∃ value, s.pc = .returned value)) :
    ∃ e s', ParallelAccumulate.step type c s e = some s' := by
  rw [not_or] at hfinal
  cases h with
  | started h => exact h.progress hfinal.1 fun value hpc => hfinal.2 ⟨value, hpc⟩
  | empty hrange h =>
    subst h
    exact absurd ⟨c.initialValue, rfl⟩ hfinal.2
  | start h =>
    subst h
    refine ⟨.caller, ?_⟩
    simp only [ParallelAccumulate.step, callerStep, State.start]
    split
    · exact ⟨_, rfl⟩
    · split <;> exact ⟨_, rfl⟩

/-- What a call that has returned has combined. -/
theorem Call.Reachable.returned (h : c.Reachable type s) {value : T}
    (hpc : s.pc = .returned value) :
    ∃ vs, c.blocks.map (partialFold type.plus type.zero) = vs.map some ∧
      partialFold type.plus c.initialValue vs = some value := by
  cases h with
  | start h =>
    subst h
    cases hpc
  | empty hrange h =>
    subst h
    cases hpc
    exact ⟨[], by rw [blocks_of_empty hrange]; rfl, rfl⟩
  | started h =>
    have hcaller := h.caller
    simp only [Reached, hpc] at hcaller
    exact ⟨s.results, h.blocks_eq hcaller.1, hcaller.2⟩

/-- What has made a process undefined. -/
theorem Call.Reachable.undefined (h : c.Reachable type s) (hundefined : s.Undefined) :
    (∃ block ∈ c.blocks, partialFold type.plus type.zero block = none) ∨
      ∃ vs, c.blocks.map (partialFold type.plus type.zero) = vs.map some ∧
        partialFold type.plus c.initialValue vs = none := by
  cases h with
  | start h | empty _ h =>
    subst h
    simp [State.Undefined, State.start] at hundefined
  | started h =>
    rcases h.undefined hundefined with hblock | ⟨hjoined, hnone⟩
    · exact .inl hblock
    · exact .inr ⟨s.results, h.blocks_eq hjoined, hnone⟩

end Ranks

end CppWebserver.ParallelAccumulate
