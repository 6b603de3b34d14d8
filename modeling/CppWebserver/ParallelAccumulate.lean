import CppWebserver.BlockFolds
import CppWebserver.LabelledRuns
import Mathlib.Data.UInt

/-!
# `parallel_accumulate`

The range is cut into one block for each thread. Every block but the last is summed
by a thread of its own, the last one by the caller, each into its element of
`results`; the caller joins the threads and sums up the results. Steps of the
caller and of the threads come in any order. A division by zero, an iterator beyond
`last`, an access outside `results` and an undefined sum leave a process undefined.
-/

namespace CppWebserver.ParallelAccumulate
open BlockFolds

variable {T : Type*}

/-- `first` and `last`. Their `std::distance` is a `difference_type`. -/
structure IteratorRange (T : Type*) where
  elements : List T
  length_lt : elements.length < 2 ^ 63

/-- `T()` and `operator+` of a type; some sums may be undefined. -/
structure ValueType (T : Type*) where
  zero : T
  plus : T → T → Option T

/-- The arguments of a call, and what `hardware_concurrency` gives in it. -/
structure Call (T : Type*) where
  range : IteratorRange T
  initialValue : T
  hardwareConcurrency : UInt32

namespace Call

variable (c : Call T)

def length : UInt64 := .ofNat c.range.elements.length

def minPerThread : UInt64 := 25

def maxThreads : UInt64 := (c.length + minPerThread - 1) / minPerThread

def hardwareThreads : UInt64 := c.hardwareConcurrency.toUInt64

def numThreads : UInt64 := min (if c.hardwareThreads ≠ 0 then c.hardwareThreads else 2) c.maxThreads

/-- `length / num_threads`. -/
def blockSize : Option UInt64 :=
  if c.numThreads = 0 then none else some (c.length / c.numThreads)

/-- `std::advance(iterator, n)`, which must not go beyond `last`. -/
def advance (iterator n : ℕ) : Option ℕ :=
  if iterator + n ≤ c.range.elements.length then some (iterator + n) else none

end Call

/-- What a call of `std::accumulate` does next: read the initial value, compare the
iterators and add an element, or nothing. -/
inductive AccumulatePc (T : Type*) where
  | call
  | loop (first : ℕ) (acc : T)
  | done
  | undefined

/-- A call of `accumulate_block<Iterator, T>()(first, last, result)`. -/
structure AccumulateBlock (T : Type*) where
  first : ℕ
  last : ℕ
  pc : AccumulatePc T

/-- `result = std::accumulate(first, last, result)`, where `result` is `results[i]`. -/
def blockStep (type : ValueType T) (elements : List T) (i : ℕ) (block : AccumulateBlock T)
    (results : List T) : Option (AccumulateBlock T × List T) :=
  match block.pc with
  | .call =>
    match results[i]? with
    | some result => some ({ block with pc := .loop block.first result }, results)
    | none => some ({ block with pc := .undefined }, results)
  | .loop first acc =>
    if first = block.last then some ({ block with pc := .done }, results.set i acc)
    else match elements[first]?.bind (type.plus acc) with
    | some acc => some ({ block with pc := .loop (first + 1) acc }, results)
    | none => some ({ block with pc := .undefined }, results)
  | .done | .undefined => none

/-- What the caller does next: enter, launch a thread, sum its own block, join a thread,
add a result, or nothing. -/
inductive CallerPc (T : Type*) where
  | enter
  | launch (i : ℕ)
  | own (block : AccumulateBlock T)
  | join (i : ℕ)
  | combine (first : ℕ) (acc : T)
  | returned (value : T)
  | undefined

/-- The caller with its variable `block_start`, the threads it has launched, and `results`. -/
structure State (T : Type*) where
  pc : CallerPc T
  blockStart : ℕ
  threads : List (AccumulateBlock T)
  results : List T

def State.start : State T := ⟨.enter, 0, [], []⟩

/-- The caller or a thread takes a step. -/
inductive Event where
  | caller
  | thread (i : ℕ)

/-- The body of `parallel_accumulate`. A join waits for its thread. -/
def callerStep (type : ValueType T) (c : Call T) (s : State T) : Option (State T) :=
  match s.pc with
  | .enter =>
    if c.length = 0 then some { s with pc := .returned c.initialValue }
    else match c.blockSize with
    | none => some { s with pc := .undefined }
    | some _ => some { s with
        pc := .launch 0, results := List.replicate c.numThreads.toNat type.zero }
  | .launch i =>
    if i < (c.numThreads - 1).toNat then
      match c.blockSize.bind (fun blockSize => c.advance s.blockStart blockSize.toNat) with
      | none => some { s with pc := .undefined }
      | some blockEnd => some { s with
          pc := .launch (i + 1)
          threads := s.threads ++ [⟨s.blockStart, blockEnd, .call⟩]
          blockStart := blockEnd }
    else some { s with pc := .own ⟨s.blockStart, c.range.elements.length, .call⟩ }
  | .own block =>
    match block.pc with
    | .done => some { s with pc := .join 0 }
    | _ => (blockStep type c.range.elements (c.numThreads - 1).toNat block s.results).map
        fun (block, results) => { s with pc := .own block, results := results }
  | .join i =>
    match s.threads[i]? with
    | none => some { s with pc := .combine 0 c.initialValue }
    | some block => match block.pc with
      | .done => some { s with pc := .join (i + 1) }
      | _ => none
  | .combine first acc =>
    match s.results[first]? with
    | none => some { s with pc := .returned acc }
    | some result => match type.plus acc result with
      | some acc => some { s with pc := .combine (first + 1) acc }
      | none => some { s with pc := .undefined }
  | .returned _ | .undefined => none

def step (type : ValueType T) (c : Call T) (s : State T) : Event → Option (State T)
  | .caller => callerStep type c s
  | .thread i =>
    match s.threads[i]? with
    | none => none
    | some block => (blockStep type c.range.elements i block s.results).map
        fun (block, results) => { s with threads := s.threads.set i block, results := results }

/-- Some process has gone on to where its behaviour is undefined. -/
def State.Undefined (s : State T) : Prop :=
  s.pc = .undefined ∨ (∃ block, s.pc = .own block ∧ block.pc = .undefined) ∨
    ∃ block ∈ s.threads, block.pc = .undefined

/-- `std::accumulate`. -/
def accumulate (type : ValueType T) (xs : List T) (init : T) : Option T :=
  partialFold type.plus init xs

end CppWebserver.ParallelAccumulate
