import CppWebserver.LabelledRuns
import CppWebserver.Ownership
import CppWebserver.OverwrittenArrays
import Mathlib.Data.Finset.Max
import Mathlib.Order.Lattice.Nat

/-!
# Copied and moved objects

An object of class `X` is in charge of an array of 1000 numbers on the heap: it gets one when
it is constructed, a copy gets one of its own, a move takes that of the other object, and the
destructor deletes it. A program over such objects behaves as if they held the numbers
themselves and a move left nothing behind.
-/

namespace CppWebserver.RvalueReferences
open LabelledRuns Ownership OverwrittenArrays Function

/-- What 1000 numbers of memory hold. -/
abbrev IntArray := { a : List Int32 // a.length = 1000 }

/-- Where `new` puts a block: anywhere but where there is one. -/
structure Allocator where
  address : Finset ℕ → ℕ
  address_notMem : ∀ blocks, address blocks ∉ blocks

/-- The blocks that have not been deleted, and what the memory holds. -/
structure Memory where
  blocks : Finset ℕ
  contents : ℕ → List Int32

/-- `new int[1000]` -/
def Memory.new (allocator : Allocator) (memory : Memory) (found : IntArray) : ℕ × Memory :=
  let data := allocator.address memory.blocks
  (data, { blocks := insert data memory.blocks, contents := update memory.contents data found })

/-- `std::copy(first, first + n, result)`; undefined without `n` numbers to read and room
for them. -/
def Memory.copy (memory : Memory) (first : Option ℕ) (n result : ℕ) : Option Memory :=
  match first with
  | none => none
  | some p =>
    if p ∈ memory.blocks ∧ result ∈ memory.blocks ∧ n ≤ (memory.contents p).length ∧
        n ≤ (memory.contents result).length then
      let copied := overwrite (memory.contents result) ((memory.contents p).take n)
      some { memory with contents := update memory.contents result copied }
    else none

/-- `delete[] data`; undefined for what is no block. -/
def Memory.delete (memory : Memory) (data : Option ℕ) : Option Memory :=
  match data with
  | none => some memory
  | some p =>
    if p ∈ memory.blocks then some { memory with blocks := memory.blocks.erase p } else none

/-- The memory, and for every name the member `data` of its object. -/
structure State (ν : Type) where
  memory : Memory
  objects : Objects ν ℕ

variable {ν : Type} [DecidableEq ν] (allocator : Allocator)

/-- `X() : data(new int[1000])` -/
def construct (x : ν) (found : IntArray) (s : State ν) : Option (State ν) :=
  match s.objects x with
  | some _ => none
  | none =>
    let (data, memory) := s.memory.new allocator found
    some { memory, objects := put s.objects x (some (some data)) }

/-- `X(const X &other) : data(new int[1000])` -/
def copyConstruct (x other : ν) (found : IntArray) (s : State ν) : Option (State ν) :=
  match s.objects x, s.objects other with
  | none, some otherData => do
    let (data, memory) := s.memory.new allocator found
    let memory ← memory.copy otherData 1000 data
    some { memory, objects := put s.objects x (some (some data)) }
  | _, _ => none

/-- `X(X&& other): data(other.data)` -/
def moveConstruct (x other : ν) (s : State ν) : Option (State ν) :=
  match s.objects x, s.objects other with
  | none, some otherData =>
    some { s with objects := put (put s.objects x (some otherData)) other (some none) }
  | _, _ => none

/-- `~X()` -/
def destroy (x : ν) (s : State ν) : Option (State ν) :=
  match s.objects x with
  | none => none
  | some data => do
    let memory ← s.memory.delete data
    some { memory, objects := put s.objects x none }

/-- What a program does with objects: there is no assignment. -/
inductive Op (ν : Type) where
  | construct (x : ν) (found : IntArray)
  | copyConstruct (x other : ν) (found : IntArray)
  | moveConstruct (x other : ν)
  | destroy (x : ν)

/-- One step of a program. Without a result its behaviour is undefined, or the object that is
to begin has begun, or one that is named has not or is no more. -/
def step (s : State ν) : Op ν → Option (State ν)
  | .construct x found => construct allocator x found s
  | .copyConstruct x other found => copyConstruct allocator x other found s
  | .moveConstruct x other => moveConstruct x other s
  | .destroy x => destroy x s

def State.start : State ν := { memory := ⟨∅, fun _ => []⟩, objects := fun _ => none }

/-- The same step for objects that hold the numbers themselves. -/
def valuesStep (v : Objects ν (List Int32)) : Op ν → Option (Objects ν (List Int32))
  | .construct x found =>
    match v x with
    | none => some (put v x (some (some found)))
    | some _ => none
  | .copyConstruct x other _ =>
    match v x, v other with
    | none, some (some a) => some (put v x (some (some a)))
    | _, _ => none
  | .moveConstruct x other =>
    match v x, v other with
    | none, some _ => some (hand v x other)
    | _, _ => none
  | .destroy x =>
    match v x with
    | some _ => some (put v x none)
    | none => none

/-- What the objects hold, for an observer who does not look at addresses. -/
def State.values (s : State ν) : Objects ν (List Int32) :=
  Ownership.values s.memory.contents s.objects

/-- Every block has one object, and room for 1000 numbers. -/
structure State.Valid (s : State ν) : Prop where
  exclusive : Exclusive s.objects s.memory.blocks
  length_eq : ∀ p ∈ s.memory.blocks, (s.memory.contents p).length = 1000

/-- A step leads from the objects to where it leads from their values. -/
structure Simulates (r : Option (State ν)) (v : Option (Objects ν (List Int32))) : Prop where
  values_eq : r.map State.values = v
  valid : ∀ s ∈ r, s.Valid

omit [DecidableEq ν] in
theorem Simulates.undefined : Simulates (none : Option (State ν)) none :=
  ⟨rfl, by simp⟩

section Steps

variable {allocator} {s : State ν} {x other : ν}

omit [DecidableEq ν] in
theorem values_of_objects {o : Option (Option ℕ)} (hx : s.objects x = o) :
    s.values x = o.map (·.map s.memory.contents) := by
  rw [State.values, Ownership.values, hx]

/-- A new block with 1000 numbers in it comes under a new object. -/
theorem State.Valid.acquire (h : s.Valid) (hx : s.objects x = none) {a : List Int32}
    (ha : a.length = 1000) :
    Simulates
      (some { memory :=
                { blocks := insert (allocator.address s.memory.blocks) s.memory.blocks
                  contents := update s.memory.contents (allocator.address s.memory.blocks) a }
              objects := put s.objects x (some (some (allocator.address s.memory.blocks))) })
      (some (put s.values x (some (some a)))) := by
  have hfresh := allocator.address_notMem s.memory.blocks
  generalize allocator.address s.memory.blocks = data at hfresh
  have hfree : ∀ y, ¬ Owns s.objects y data :=
    fun y hy => hfresh ((h.exclusive.mem_iff data).mpr ⟨y, hy⟩)
  constructor
  · apply congrArg some
    rw [State.values, values_put, values_update _ _ hfree]
    simp [State.values]
  · rintro s' ⟨⟩
    constructor
    · exact h.exclusive.acquire (not_owns_of_dead hx) hfresh
    · intro p hp
      by_cases hpd : p = data
      · rw [hpd]
        simpa using ha
      · have hold := Finset.mem_of_mem_insert_of_ne hp hpd
        simpa [hpd] using h.length_eq p hold

theorem construct_spec (h : s.Valid) (found : IntArray) :
    Simulates (construct allocator x found s) (valuesStep s.values (.construct x found)) := by
  cases hx : s.objects x with
  | none =>
    simp only [construct, hx, valuesStep, values_of_objects hx, Option.map_none]
    exact h.acquire hx found.property
  | some o =>
    simp only [construct, hx, valuesStep, values_of_objects hx, Option.map_some]
    exact .undefined

variable (allocator) in
omit [DecidableEq ν] in
/-- Copying a whole array into a new one leaves nothing of what was found there. -/
theorem copy_new (h : s.Valid) {p : ℕ} (hp : p ∈ s.memory.blocks) (found : IntArray) :
    (s.memory.new allocator found).2.copy (some p) 1000 (allocator.address s.memory.blocks) =
      some
        { blocks := insert (allocator.address s.memory.blocks) s.memory.blocks
          contents := update s.memory.contents (allocator.address s.memory.blocks)
            (s.memory.contents p) } := by
  have hfresh := allocator.address_notMem s.memory.blocks
  have hne : p ≠ allocator.address s.memory.blocks := fun heq => hfresh (heq ▸ hp)
  have hlength := h.length_eq p hp
  have htake : (s.memory.contents p).take 1000 = s.memory.contents p := by
    rw [← hlength, List.take_length]
  have hwhole : overwrite found.val (s.memory.contents p) = s.memory.contents p :=
    overwrite_of_length_eq (hlength.trans found.property.symm)
  simp [Memory.copy, Memory.new, hne, hp, hlength, found.property, htake, hwhole]

theorem copyConstruct_spec (h : s.Valid) (found : IntArray) :
    Simulates (copyConstruct allocator x other found s)
      (valuesStep s.values (.copyConstruct x other found)) := by
  have hvx := values_of_objects (s := s) (x := x) rfl
  have hvother := values_of_objects (s := s) (x := other) rfl
  cases hx : s.objects x with
  | some o =>
    simp only [copyConstruct, hx, valuesStep, hvx, Option.map_some]
    exact .undefined
  | none =>
    cases hother : s.objects other with
    | none =>
      simp only [copyConstruct, hx, hother, valuesStep, hvx, hvother, Option.map_none]
      exact .undefined
    | some otherData =>
      cases otherData with
      | none =>
        -- the other object has been moved from
        simp only [copyConstruct, hx, hother, valuesStep, hvx, hvother, Option.map_none,
          Option.map_some]
        exact .undefined
      | some p =>
        have hp : p ∈ s.memory.blocks := (h.exclusive.mem_iff p).mpr ⟨other, hother⟩
        have hcopy := copy_new allocator h hp found
        have hnew : (s.memory.new allocator found).1 = allocator.address s.memory.blocks := rfl
        simp only [copyConstruct, hx, hother, valuesStep, hvx, hvother, Option.map_none,
          Option.map_some, hnew, hcopy]
        exact h.acquire hx (h.length_eq p hp)

theorem moveConstruct_spec (h : s.Valid) :
    Simulates (moveConstruct x other s) (valuesStep s.values (.moveConstruct x other)) := by
  cases hx : s.objects x with
  | some o =>
    simp only [moveConstruct, hx, valuesStep, values_of_objects hx, Option.map_some]
    exact .undefined
  | none =>
    cases hother : s.objects other with
    | none =>
      simp only [moveConstruct, hx, hother, valuesStep, values_of_objects hx,
        values_of_objects hother, Option.map_none]
      exact .undefined
    | some otherData =>
      have hne : x ≠ other := by
        rintro rfl
        rw [hx] at hother
        cases hother
      simp only [moveConstruct, hx, hother, valuesStep, values_of_objects hx,
        values_of_objects hother, Option.map_none, Option.map_some]
      rw [← hother]
      constructor
      · exact congrArg some (values_hand _ _ _ _)
      · rintro s' ⟨⟩
        exact ⟨h.exclusive.hand hne (not_owns_of_dead hx), h.length_eq⟩

theorem destroy_spec (h : s.Valid) :
    Simulates (destroy x s) (valuesStep s.values (.destroy x)) := by
  cases hx : s.objects x with
  | none =>
    simp only [destroy, hx, valuesStep, values_of_objects hx, Option.map_none]
    exact .undefined
  | some data =>
    simp only [destroy, hx, valuesStep, values_of_objects hx, Option.map_some]
    cases data with
    | none =>
      constructor
      · exact congrArg some (values_put _ _ _ _)
      · rintro s' ⟨⟩
        exact ⟨h.exclusive.put_empty (not_owns_of_empty hx) (by simp), h.length_eq⟩
    | some p =>
      have hp : p ∈ s.memory.blocks := (h.exclusive.mem_iff p).mpr ⟨x, hx⟩
      simp only [Memory.delete, if_pos hp]
      constructor
      · exact congrArg some (values_put _ _ _ _)
      · rintro s' ⟨⟩
        constructor
        · exact h.exclusive.release hx (by simp)
        · intro q hq
          exact h.length_eq q (Finset.mem_of_mem_erase hq)

end Steps

theorem step_spec {s : State ν} (h : s.Valid) (op : Op ν) :
    Simulates (step allocator s op) (valuesStep s.values op) := by
  cases op with
  | construct x found => exact construct_spec h found
  | copyConstruct x other found => exact copyConstruct_spec h found
  | moveConstruct x other => exact moveConstruct_spec h
  | destroy x => exact destroy_spec h

omit [DecidableEq ν] in
theorem State.Valid.start : (State.start : State ν).Valid where
  exclusive := .start
  length_eq := by simp [State.start]

theorem State.Valid.step {s s' : State ν} (h : s.Valid) {op : Op ν}
    (hstep : step allocator s op = some s') : s'.Valid :=
  (step_spec allocator h op).valid s' hstep

theorem State.Valid.of_run {s : State ν} {ops : List (Op ν)}
    (h : run (RvalueReferences.step allocator) State.start ops = some s) : s.Valid :=
  run_invariant State.Valid State.Valid.start (fun _ _ _ hs => hs.step allocator) h

theorem values_of_run {s : State ν} (h : s.Valid) (ops : List (Op ν)) :
    (run (step allocator) s ops).map State.values = run valuesStep s.values ops :=
  map_run State.Valid State.values (fun _ _ _ hs => hs.step allocator)
    (fun _ op hs => (step_spec allocator hs op).values_eq) h ops

/-- A program does with the heap, wherever its blocks are, what it does with objects that hold
their numbers themselves; in particular it deletes nothing twice and uses nothing that has been
deleted, and it is undefined only where it copies an object that has been moved from. -/
theorem program_values (ops : List (Op ν)) :
    (run (step allocator) State.start ops).map State.values =
      run valuesStep (fun _ => none) ops :=
  values_of_run allocator State.Valid.start ops

/-- After every program each block that has not been deleted is that of one object and has room
for its numbers; when all objects are gone, so are the blocks. -/
theorem block_owner {s : State ν} {ops : List (Op ν)}
    (h : run (step allocator) State.start ops = some s) :
    (∀ p, p ∈ s.memory.blocks ↔ ∃! x, s.objects x = some (some p)) ∧
      (∀ p ∈ s.memory.blocks, (s.memory.contents p).length = 1000) ∧
      ((∀ x, s.objects x = none) → s.memory.blocks = ∅) := by
  have hvalid := State.Valid.of_run allocator h
  exact ⟨hvalid.exclusive.existsUnique_iff, hvalid.length_eq, hvalid.exclusive.eq_empty⟩

/-- The allocator that puts every block behind all others. -/
def Allocator.behind : Allocator where
  address blocks := blocks.sup id + 1
  address_notMem blocks hmem := by
    have hle : blocks.sup id + 1 ≤ blocks.sup id := Finset.le_sup (f := id) hmem
    omega

/-- Memory that has not been written to. -/
def zeros : IntArray := ⟨List.replicate 1000 0, List.length_replicate⟩

theorem block_owner_moved :
    ∃ s, run (step .behind) State.start [.construct 0 zeros, .moveConstruct 1 0] = some s ∧
      ∀ p, p ∈ s.memory.blocks ↔ ∃! x : ℕ, s.objects x = some (some p) := by
  obtain ⟨s, hs⟩ : ∃ s, run (step .behind) (State.start : State ℕ)
      [.construct 0 zeros, .moveConstruct 1 0] = some s := ⟨_, rfl⟩
  exact ⟨s, hs, (block_owner .behind hs).1⟩

section Thingy

/-- `void thingy(X&& inObj)`, whose objects `a` and `b` end in reverse order. -/
def thingy (inObj a b : ν) (found : IntArray) : List (Op ν) :=
  [.copyConstruct a inObj found, .moveConstruct b inObj, .destroy b, .destroy a]

theorem run_thingy_values (v : Objects ν (List Int32)) {inObj a b : ν} (hab : a ≠ b)
    (ha : v a = none) (hb : v b = none) (found : IntArray) {o : Option (List Int32)}
    (hin : v inObj = some o) :
    run valuesStep v (thingy inObj a b found) =
      if o = none then none else some (put v inObj (some none)) := by
  have hain : a ≠ inObj := fun h => by simp [← h, ha] at hin
  have hbin : b ≠ inObj := fun h => by simp [← h, hb] at hin
  cases o with
  | none => simp [run, thingy, valuesStep, ha, hin]
  | some numbers =>
    have hcopied : put v a (some (some numbers)) inObj = some (some numbers) := by
      rw [put_of_ne v hain.symm, hin]
    generalize hv₁ : put v a (some (some numbers)) = v₁ at hcopied
    have hmoved : hand v₁ b inObj b = some (some numbers) := by
      rw [hand_target v₁ hbin, hcopied]
    have hcopy : put (hand v₁ b inObj) b none a = some (some numbers) := by
      rw [put_of_ne _ hab, hand_of_ne _ hab hain, ← hv₁, put_self]
    have hleft : put (put (hand v₁ b inObj) b none) a none = put v inObj (some none) := by
      funext y
      by_cases hya : y = a
      · rw [hya, put_self, put_of_ne v hain, ha]
      · by_cases hyb : y = b
        · rw [hyb, put_of_ne _ hab.symm, put_self, put_of_ne v hbin, hb]
        · rw [put_of_ne _ hya, put_of_ne _ hyb]
          by_cases hyin : y = inObj
          · rw [hyin, hand_source, put_self]
          · rw [hand_of_ne _ hyb hyin, put_of_ne v hyin, ← hv₁, put_of_ne v hya]
    have hb₁ : v₁ b = none := by rw [← hv₁, put_of_ne v hab.symm, hb]
    simp [run, thingy, valuesStep, ha, hin, hv₁, hb₁, hcopied, hmoved, hcopy, hleft]

/-- Called for an object that has its array, `thingy` leaves it without one and every other
object as it was; for one that has been moved from, its copy is undefined. -/
theorem thingy_values {s : State ν} {ops : List (Op ν)}
    (hrun : run (step allocator) State.start ops = some s) {inObj a b : ν} (hab : a ≠ b)
    (ha : s.objects a = none) (hb : s.objects b = none) (found : IntArray) {data : Option ℕ}
    (hin : s.objects inObj = some data) :
    (run (step allocator) s (thingy inObj a b found)).map State.values =
      if data = none then none else some (put s.values inObj (some none)) := by
  have hvalid := State.Valid.of_run allocator hrun
  rw [values_of_run allocator hvalid,
    run_thingy_values s.values hab (values_of_objects ha) (values_of_objects hb) found
      (values_of_objects hin)]
  cases data <;> simp

theorem thingy_values_temporary :
    ∃ s, run (step .behind) State.start [.construct 0 zeros] = some s ∧
      (run (step .behind) s (thingy 0 1 2 zeros)).map State.values =
        some (put s.values (0 : ℕ) (some none)) := by
  obtain ⟨s, hs⟩ : ∃ s, run (step .behind) (State.start : State ℕ) [.construct 0 zeros] =
      some s := ⟨_, rfl⟩
  have hobjects : s.objects = put (fun _ => none) 0 (some (some (Allocator.behind.address ∅))) := by
    rw [← Option.some.inj hs]
    rfl
  have hin : s.objects 0 = some (some (Allocator.behind.address ∅)) := by
    rw [hobjects, put_self]
  have ha : s.objects 1 = none := by rw [hobjects, put_of_ne _ one_ne_zero]
  have hb : s.objects 2 = none := by rw [hobjects, put_of_ne _ two_ne_zero]
  exact ⟨s, hs, thingy_values .behind hs (by decide) ha hb zeros hin⟩

end Thingy

end CppWebserver.RvalueReferences
