import CppWebserver.LabelledRuns
import CppWebserver.OverwrittenArrays
import CppWebserver.ReadAccounting

/-!
# Loops that read a socket and print it

Five programs read a socket piece by piece into an array and hand the array on as a C string.
They differ in the size of the array, in what they ask `read` for, in whether they put a zero
behind the piece or clear the array, and in the condition of the loop. Only the two daytime
clients read less than they have room for and put the zero; they are also the only ones that
look at what becomes of their output.
-/

namespace CppWebserver.PrintingLoops
open ByteStrings DelimitedStreams LabelledRuns OverwrittenArrays SocketReadLoop

/-- When a loop goes on: while the result is positive as an `int` or as a `uint32_t`, or
for ever. -/
inductive Condition where
  | positive
  | nonzero
  | always

def Condition.holds : Condition → ReadResult → Bool
  | .positive, result => decide (0 < result.bytesRead)
  | .nonzero, result => decide (0 < UInt32.ofInt result.bytesRead)
  | .always, _ => true

structure ReadLoop where
  size : ℕ
  /-- What `read` is asked for. -/
  count : ℕ
  condition : Condition
  /-- Whether the array is initialised with zeros. -/
  zeroed : Bool
  /-- Whether a zero is put behind what has been read. -/
  stores : Bool
  /-- Whether the array is filled with zeros at the end of a pass. -/
  clears : Bool
  /-- What is printed before and behind the string. -/
  before : Bytes
  behind : Bytes

/-- `array[i] = 0`. -/
def storeZero (array : Bytes) (i : ℤ) : Option Bytes :=
  if 0 ≤ i ∧ i.toNat < array.length then some (array.set i.toNat 0) else none

inductive LoopState where
  | looping (array : Bytes) (printed : Bytes)
  | ended (printed : Bytes)
  | undefined

namespace ReadLoop

/-- The array when the loop begins; without an initialiser it holds anything. -/
def Initial (loop : ReadLoop) (array : Bytes) : Prop :=
  array.length = loop.size ∧ (loop.zeroed = true → array = List.replicate loop.size 0)

/-- One pass through the body: what is printed, and the array afterwards. -/
def pass (loop : ReadLoop) (array : Bytes) (result : ReadResult) : Option (Bytes × Bytes) := do
  let array ← if result.chunk.length ≤ loop.size then some (overwrite array result.chunk) else none
  let array ← if loop.stores then storeZero array result.bytesRead else some array
  let text ← asString 0 array
  some (loop.before ++ text ++ loop.behind,
    if loop.clears then List.replicate loop.size 0 else array)

def step (loop : ReadLoop) : LoopState → ReadResult → Option LoopState
  | .looping array printed, result => some <|
    if loop.condition.holds result then
      match loop.pass array result with
      | some (text, array) => .looping array (printed ++ text)
      | none => .undefined
    else .ended printed
  | _, _ => none

end ReadLoop

/-- The programs, by the function that has the loop. -/
inductive Program where
  | handleRead
  | daytimetcpcli
  | test_daytimeclient
  | client
  | doRead
  deriving DecidableEq

def Program.loop : Program → ReadLoop
  | .handleRead => ⟨bufSize + 1, bufSize + 1, .positive, false, true, true, [], []⟩
  | .daytimetcpcli => ⟨4096 + 1, 4096, .positive, false, true, false, [], []⟩
  | .test_daytimeclient => ⟨4096 + 1, 4096, .positive, false, true, false, [], []⟩
  | .client => ⟨1024, 1024, .always, true, false, true, [], ascii "\n"⟩
  | .doRead => ⟨4096, 4097, .nonzero, false, false, true, ascii "Received data:\n", ascii "\n"⟩

namespace ReadLoop

variable {loop : ReadLoop} {array : Bytes}

/-- What is to be printed of the pieces. -/
def shown (loop : ReadLoop) (cs : List Bytes) : Bytes :=
  (cs.map fun c => loop.before ++ beforeNull 0 c ++ loop.behind).flatten

theorem shown_cons (c : Bytes) (cs : List Bytes) :
    loop.shown (c :: cs) = loop.before ++ beforeNull 0 c ++ loop.behind ++ loop.shown cs := rfl

/-- Whether there is a zero behind a piece when the array is read as a string. -/
def NullBehind (loop : ReadLoop) (array c : Bytes) : Prop :=
  if loop.stores then c.length < loop.size
  else c.length ≤ loop.size ∧ (0 ∈ c ∨ array[c.length]? = some 0)

/-- The array at the end of a pass. -/
def afterPass (loop : ReadLoop) (array c : Bytes) : Bytes :=
  if loop.clears then List.replicate loop.size 0
  else if loop.stores then (overwrite array c).set c.length 0 else overwrite array c

section Passes

variable (harray : array.length = loop.size) (c : Bytes)
include harray

theorem pass_stores (h : loop.stores = true) :
    loop.pass array (.bytes c) = if c.length < loop.size then
      some (loop.before ++ beforeNull 0 c ++ loop.behind, loop.afterPass array c) else none := by
  by_cases hlt : c.length < loop.size
  · have hlength : (overwrite array c).length = loop.size := by
      rw [length_overwrite (by omega), harray]
    have hstore : storeZero (overwrite array c) c.length = some ((overwrite array c).set c.length 0) := by
      rw [storeZero, if_pos]
      · rfl
      · exact ⟨by omega, by rw [hlength]; simpa using hlt⟩
    have hread : asString 0 ((overwrite array c).set c.length 0) = some (beforeNull 0 c) := by
      rw [set_overwrite, asString_overwrite_eq_iff]
      exact .inr (List.getElem?_set_self (by omega))
    simp only [pass, ReadResult.chunk, ReadResult.bytesRead, if_pos hlt.le, Option.bind_eq_bind,
      Option.bind_some, h, if_true, hstore, hread, if_pos hlt, afterPass]
  · rw [if_neg hlt]
    by_cases hle : c.length ≤ loop.size
    · have hlength : (overwrite array c).length = loop.size := by
        rw [length_overwrite (by omega), harray]
      have hstore : storeZero (overwrite array c) c.length = none := by
        rw [storeZero, if_neg]
        rw [hlength]
        simpa using hlt
      simp only [pass, ReadResult.chunk, ReadResult.bytesRead, if_pos hle, Option.bind_eq_bind,
        Option.bind_some, h, if_true, hstore, Option.bind_none]
    · simp only [pass, ReadResult.chunk, if_neg hle, Option.bind_eq_bind, Option.bind_none]

omit harray in
theorem pass_bare (h : loop.stores = false) :
    loop.pass array (.bytes c) = if c.length ≤ loop.size then
      (asString 0 (overwrite array c)).map fun text =>
        (loop.before ++ text ++ loop.behind, loop.afterPass array c) else none := by
  by_cases hle : c.length ≤ loop.size
  · simp only [pass, ReadResult.chunk, if_pos hle, Option.bind_eq_bind, Option.bind_some, h,
      Bool.false_eq_true, if_false, afterPass]
    cases asString 0 (overwrite array c) <;> rfl
  · simp only [pass, ReadResult.chunk, if_neg hle, Option.bind_eq_bind, Option.bind_none]

/-- A pass prints the piece if and only if there is a zero behind it. -/
theorem pass_eq_iff :
    (∃ array', loop.pass array (.bytes c) =
        some (loop.before ++ beforeNull 0 c ++ loop.behind, array')) ↔
      loop.NullBehind array c := by
  cases h : loop.stores with
  | true =>
    rw [pass_stores harray c h, NullBehind, h]
    by_cases hlt : c.length < loop.size <;> simp [hlt]
  | false =>
    rw [pass_bare c h, NullBehind, h, ← asString_overwrite_eq_iff]
    by_cases hle : c.length ≤ loop.size
    · cases hread : asString 0 (overwrite array c) <;> simp [hle]
    · simp [hle]

/-- A loop that clears the array leaves zeros. -/
theorem pass_clears (hclears : loop.clears = true) {text array' : Bytes}
    (h : loop.pass array (.bytes c) = some (text, array')) :
    array' = List.replicate loop.size 0 := by
  have hzeros : loop.afterPass array c = List.replicate loop.size 0 := if_pos hclears
  cases hstores : loop.stores with
  | true =>
    rw [pass_stores harray c hstores, hzeros] at h
    split at h
    · injection h with h
      injection h with _ harray'
      exact harray'.symm
    · cases h
  | false =>
    rw [pass_bare c hstores, hzeros] at h
    split at h
    · obtain ⟨text', -, h⟩ := Option.map_eq_some_iff.mp h
      injection h with _ harray'
      exact harray'.symm
    · cases h

theorem length_afterPass (hle : c.length ≤ loop.size) :
    (loop.afterPass array c).length = loop.size := by
  rw [afterPass]
  split
  · exact List.length_replicate
  · split
    · rw [List.length_set, length_overwrite (by omega), harray]
    · rw [length_overwrite (by omega), harray]

end Passes

theorem holds_bytes (condition : Condition) {c : Bytes} (hc : c ≠ []) (hlength : c.length < 2 ^ 32) :
    condition.holds (.bytes c) = true := by
  have hpos := List.length_pos_iff.mpr hc
  cases condition with
  | positive => simpa [Condition.holds, ReadResult.bytesRead] using hpos
  | nonzero =>
    have hnat : UInt32.ofInt (c.length : ℤ) = UInt32.ofNat c.length := by
      rw [UInt32.ofInt]
      congr 1
      omega
    rw [Condition.holds, ReadResult.bytesRead, hnat, decide_eq_true_eq, UInt32.lt_iff_toNat_lt,
      UInt32.toNat_ofNat', Nat.mod_eq_of_lt hlength]
    exact hpos
  | always => rfl

/-- A piece that a loop has room for, when the rest of the array is clean. -/
def Fits (loop : ReadLoop) (c : Bytes) : Prop :=
  c.length < loop.size ∨ loop.stores = false ∧ c.length = loop.size ∧ 0 ∈ c

/-- A loop that starts every pass behind zeros or puts a zero itself. -/
def Tidy (loop : ReadLoop) (array : Bytes) : Prop :=
  array.length = loop.size ∧
    (loop.stores = false → loop.clears = true ∧ array = List.replicate loop.size 0)

theorem Tidy.nullBehind_iff (h : loop.Tidy array) (c : Bytes) :
    loop.NullBehind array c ↔ loop.Fits c := by
  cases hstores : loop.stores with
  | true => simp [NullBehind, Fits, hstores]
  | false =>
    obtain ⟨-, hzeros⟩ := h.2 hstores
    rw [NullBehind, Fits, hstores, hzeros, List.getElem?_replicate]
    by_cases hlt : c.length < loop.size
    · simp [hlt, hlt.le]
    · rw [or_iff_right hlt]
      simp only [Bool.false_eq_true, if_false, if_neg hlt, reduceCtorEq, or_false, true_and]
      apply and_congr_left
      intro _
      omega

theorem Fits.length_le {c : Bytes} (h : loop.Fits c) : c.length ≤ loop.size := by
  rcases h with hlt | ⟨-, heq, -⟩
  · exact hlt.le
  · exact heq.le

theorem Tidy.afterPass (h : loop.Tidy array) {c : Bytes} (hc : loop.Fits c) :
    loop.Tidy (loop.afterPass array c) := by
  refine ⟨length_afterPass h.1 c hc.length_le, ?_⟩
  intro hstores
  obtain ⟨hclears, -⟩ := h.2 hstores
  rw [ReadLoop.afterPass, if_pos hclears]
  exact ⟨hclears, rfl⟩

/-- On a tidy array a pass prints just the piece or runs past the array. -/
theorem Tidy.pass_eq (h : loop.Tidy array) (c : Bytes) :
    loop.pass array (.bytes c) = some (loop.before ++ beforeNull 0 c ++ loop.behind,
      loop.afterPass array c) ∧ loop.Fits c ∨
    loop.pass array (.bytes c) = none ∧ ¬ loop.Fits c := by
  rw [← h.nullBehind_iff]
  cases hstores : loop.stores with
  | true =>
    rw [pass_stores h.1 c hstores, NullBehind, hstores]
    by_cases hlt : c.length < loop.size <;> simp [hlt]
  | false =>
    obtain ⟨-, hzeros⟩ := h.2 hstores
    rw [pass_bare c hstores, NullBehind, hstores]
    by_cases hle : c.length ≤ loop.size
    · by_cases hnull : 0 ∈ c ∨ array[c.length]? = some 0
      · rw [if_pos hle, (asString_overwrite_eq_iff 0 array c).mpr hnull]
        simp [hle, hnull]
      · obtain ⟨hmem, hnext⟩ := not_or.mp hnull
        have hdrop : array.drop c.length = [] := by
          rw [hzeros, List.getElem?_replicate] at hnext
          refine List.drop_eq_nil_of_le ?_
          rw [h.1]
          by_contra hlt
          simp [Nat.lt_of_not_le hlt] at hnext
        have hpast : asString 0 (overwrite array c) = none := by
          rw [overwrite, hdrop, List.append_nil]
          exact asString_of_notMem hmem
        rw [if_pos hle, hpast]
        simp [hnull]
    · simp [hle]

section Runs

variable (hcount : loop.count < 2 ^ 32)
include hcount

theorem step_bytes {c : Bytes} (hc : c ≠ [] ∧ c.length ≤ loop.count) (printed : Bytes) :
    loop.step (.looping array printed) (.bytes c) = some
      (match loop.pass array (.bytes c) with
      | some (text, array) => .looping array (printed ++ text)
      | none => .undefined) := by
  rw [step, if_pos (holds_bytes loop.condition hc.1 (by omega))]

omit hcount in
/-- Nothing follows what has no defined behaviour. -/
theorem run_undefined {results : List ReadResult} {s : LoopState}
    (h : run loop.step .undefined results = some s) : s = .undefined := by
  cases results with
  | nil => exact (Option.some.inj h).symm
  | cons result results => cases h

/-- From a tidy array the pieces are printed if the loop has room for each of them. -/
theorem Tidy.run_of_fits (h : loop.Tidy array) (printed : Bytes) {cs : List Bytes}
    (hcs : ∀ c ∈ cs, c ≠ [] ∧ c.length ≤ loop.count) (hfits : ∀ c ∈ cs, loop.Fits c) :
    ∃ array', loop.Tidy array' ∧ run loop.step (.looping array printed) (cs.map .bytes) =
      some (.looping array' (printed ++ loop.shown cs)) := by
  induction cs generalizing array printed with
  | nil => exact ⟨array, h, by simp [run, shown]⟩
  | cons c cs ih =>
    obtain ⟨hc, hrest⟩ := List.forall_mem_cons.mp hcs
    obtain ⟨hfit, hfits⟩ := List.forall_mem_cons.mp hfits
    have hpass : loop.pass array (.bytes c) = some (loop.before ++ beforeNull 0 c ++ loop.behind,
        loop.afterPass array c) := by
      rcases h.pass_eq c with ⟨hpass, -⟩ | ⟨-, hnot⟩
      · exact hpass
      · exact absurd hfit hnot
    obtain ⟨array', htidy, hrun⟩ :=
      ih (h.afterPass hfit) (printed ++ (loop.before ++ beforeNull 0 c ++ loop.behind)) hrest hfits
    refine ⟨array', htidy, ?_⟩
    rw [shown_cons, ← List.append_assoc printed, List.map_cons, run, List.foldlM_cons,
      step_bytes hcount hc, hpass]
    exact hrun

/-- A loop that goes on from a tidy array has had room for each of the pieces. -/
theorem Tidy.fits_of_run (h : loop.Tidy array) {printed : Bytes} {cs : List Bytes}
    (hcs : ∀ c ∈ cs, c ≠ [] ∧ c.length ≤ loop.count) {array' printed' : Bytes}
    (hrun : run loop.step (.looping array printed) (cs.map .bytes) =
      some (.looping array' printed')) : ∀ c ∈ cs, loop.Fits c := by
  induction cs generalizing array printed with
  | nil => simp
  | cons c cs ih =>
    obtain ⟨hc, hrest⟩ := List.forall_mem_cons.mp hcs
    rw [List.map_cons, run, List.foldlM_cons, step_bytes hcount hc] at hrun
    rcases h.pass_eq c with ⟨hpass, hfit⟩ | ⟨hpass, -⟩
    · rw [hpass] at hrun
      exact List.forall_mem_cons.mpr ⟨hfit, ih (h.afterPass hfit) hrest hrun⟩
    · rw [hpass] at hrun
      cases run_undefined hrun

/-- A loop that clears the array is tidy behind the first piece. -/
theorem run_of_nullBehind (hclears : loop.clears = true) (harray : array.length = loop.size)
    {c : Bytes} {cs : List Bytes} (hcs : ∀ d ∈ c :: cs, d ≠ [] ∧ d.length ≤ loop.count)
    (hnull : loop.NullBehind array c) (hfits : ∀ d ∈ cs, loop.Fits d) :
    ∃ array', loop.Tidy array' ∧ run loop.step (.looping array []) ((c :: cs).map .bytes) =
      some (.looping array' (loop.shown (c :: cs))) := by
  obtain ⟨hc, hrest⟩ := List.forall_mem_cons.mp hcs
  obtain ⟨array₁, hpass⟩ := (pass_eq_iff harray c).mpr hnull
  have htidy : loop.Tidy array₁ := by
    rw [pass_clears harray c hclears hpass]
    exact ⟨List.length_replicate, fun _ => ⟨hclears, rfl⟩⟩
  obtain ⟨array', htidy', hrun⟩ := htidy.run_of_fits hcount
    ([] ++ (loop.before ++ beforeNull 0 c ++ loop.behind)) hrest hfits
  refine ⟨array', htidy', ?_⟩
  rw [List.map_cons, run, List.foldlM_cons, step_bytes hcount hc, hpass]
  exact hrun

/-- From any array the first piece must have a zero behind it, and the others room. -/
theorem run_shown_iff (hclears : loop.clears = true) (harray : array.length = loop.size)
    {c : Bytes} {cs : List Bytes} (hcs : ∀ d ∈ c :: cs, d ≠ [] ∧ d.length ≤ loop.count) :
    (∃ array', run loop.step (.looping array []) ((c :: cs).map .bytes) =
        some (.looping array' (loop.shown (c :: cs)))) ↔
      loop.NullBehind array c ∧ ∀ d ∈ cs, loop.Fits d := by
  obtain ⟨hc, hrest⟩ := List.forall_mem_cons.mp hcs
  constructor
  · intro h
    obtain ⟨array', hrun⟩ := h
    rw [List.map_cons, run, List.foldlM_cons, step_bytes hcount hc] at hrun
    cases hpass : loop.pass array (.bytes c) with
    | none =>
      rw [hpass] at hrun
      cases run_undefined hrun
    | some shown =>
      obtain ⟨text, array₁⟩ := shown
      have htidy : loop.Tidy array₁ := by
        rw [pass_clears harray c hclears hpass]
        exact ⟨List.length_replicate, fun _ => ⟨hclears, rfl⟩⟩
      rw [hpass] at hrun
      change run loop.step (.looping array₁ ([] ++ text)) (cs.map .bytes) = _ at hrun
      have hfits := htidy.fits_of_run hcount hrest hrun
      obtain ⟨array₂, -, hrun'⟩ := htidy.run_of_fits hcount ([] ++ text) hrest hfits
      rw [hrun', shown_cons] at hrun
      injection hrun with hrun
      injection hrun with _ hprinted
      rw [List.nil_append] at hprinted
      refine ⟨(pass_eq_iff harray c).mp ⟨array₁, ?_⟩, hfits⟩
      rw [hpass, List.append_cancel_right hprinted]
  · intro h
    obtain ⟨array', -, hrun⟩ := run_of_nullBehind hcount hclears harray hcs h.1 h.2
    exact ⟨array', hrun⟩

end Runs

section Blanks

/-- Without a store the loop does not look at the number that `read` returned. -/
theorem pass_congr (hstores : loop.stores = false) {result result' : ReadResult}
    (h : result.chunk = result'.chunk) : loop.pass array result = loop.pass array result' := by
  simp only [pass, hstores, h, Bool.false_eq_true, if_false]

/-- On zeros a pass that reads nothing prints a blank record. -/
theorem step_blank (hstores : loop.stores = false) (hclears : loop.clears = true)
    (hsize : 0 < loop.size) {gone : ReadResult} (hgone : gone.chunk = [])
    (hholds : loop.condition.holds gone = true) (printed : Bytes) :
    loop.step (.looping (List.replicate loop.size 0) printed) gone =
      some (.looping (List.replicate loop.size 0) (printed ++ loop.shown [[]])) := by
  have hread : asString (0 : UInt8) (overwrite (List.replicate loop.size 0) []) = some [] := by
    have hnull := asString_overwrite_eq_iff (0 : UInt8) (List.replicate loop.size 0) []
    refine hnull.mpr (.inr ?_)
    rw [List.getElem?_replicate]
    exact if_pos hsize
  have hpass : loop.pass (List.replicate loop.size 0) gone =
      some (loop.before ++ [] ++ loop.behind, List.replicate loop.size 0) := by
    rw [pass_congr hstores (show gone.chunk = (ReadResult.bytes []).chunk from hgone),
      pass_bare _ hstores, if_pos (show ([] : Bytes).length ≤ loop.size from Nat.zero_le _), hread,
      afterPass, if_pos hclears]
    rfl
  rw [step, if_pos hholds, hpass]
  simp [shown, beforeNull]

theorem run_blank (hstores : loop.stores = false) (hclears : loop.clears = true)
    (hsize : 0 < loop.size) {gone : ReadResult} (hgone : gone.chunk = [])
    (hholds : loop.condition.holds gone = true) (printed : Bytes) (n : ℕ) :
    run loop.step (.looping (List.replicate loop.size 0) printed) (List.replicate n gone) =
      some (.looping (List.replicate loop.size 0)
        (printed ++ loop.shown (List.replicate n []))) := by
  induction n generalizing printed with
  | zero => simp [run, shown]
  | succ n ih =>
    have hnext := ih (printed ++ loop.shown [[]])
    have hshown : loop.shown (List.replicate (n + 1) []) =
        loop.shown [[]] ++ loop.shown (List.replicate n []) := by
      simp [shown, List.replicate_succ]
    rw [List.replicate_succ, run, List.foldlM_cons,
      step_blank hstores hclears hsize hgone hholds, hshown, ← List.append_assoc]
    exact hnext

end Blanks

/-- Whatever was in the array and whatever pieces arrive, each of them is printed as far as it
goes before a zero, and nothing else is. -/
def Faithful (loop : ReadLoop) : Prop :=
  ∀ array, loop.Initial array → ∀ cs : List Bytes, (∀ c ∈ cs, c ≠ [] ∧ c.length ≤ loop.count) →
    ∃ array', run loop.step (.looping array []) (cs.map .bytes) =
      some (.looping array' (loop.shown cs))

section Faithfulness

theorem initial_zeros (loop : ReadLoop) : loop.Initial (List.replicate loop.size 0) :=
  ⟨List.length_replicate, fun _ => rfl⟩

theorem Initial.tidy (harray : loop.Initial array)
    (h : loop.stores = true ∨ loop.zeroed = true ∧ loop.clears = true) : loop.Tidy array := by
  refine ⟨harray.1, ?_⟩
  intro hstores
  rcases h with htrue | ⟨hzeroed, hclears⟩
  · rw [hstores] at htrue
    cases htrue
  · exact ⟨hclears, harray.2 hzeroed⟩

variable (hcount : loop.count < 2 ^ 32)
include hcount

theorem faithful_of_tidy (hroom : loop.count < loop.size)
    (h : loop.stores = true ∨ loop.zeroed = true ∧ loop.clears = true) : loop.Faithful := by
  intro array harray cs hcs
  have hfits : ∀ c ∈ cs, loop.Fits c := fun c hc => .inl (by have := hcs c hc; omega)
  obtain ⟨array', -, hrun⟩ := (harray.tidy h).run_of_fits hcount [] hcs hfits
  exact ⟨array', hrun⟩

omit hcount in
theorem run_nil : run loop.step (.looping array []) (([] : List Bytes).map .bytes) =
    some (.looping array []) := rfl

/-- Wherever the loop is, the next piece must have a zero behind it. -/
theorem Faithful.nullBehind (h : loop.Faithful) (harray : loop.Initial array) {cs : List Bytes}
    (hcs : ∀ c ∈ cs, c ≠ [] ∧ c.length ≤ loop.count) {array' printed : Bytes}
    (hrun : run loop.step (.looping array []) (cs.map .bytes) = some (.looping array' printed))
    (harray' : array'.length = loop.size) {c : Bytes} (hc : c ≠ [] ∧ c.length ≤ loop.count) :
    loop.NullBehind array' c := by
  have hprinted : printed = loop.shown cs := by
    obtain ⟨array₁, hrun₁⟩ := h array harray cs hcs
    rw [hrun₁] at hrun
    injection hrun with hrun
    injection hrun with _ hprinted
    exact hprinted.symm
  obtain ⟨array₂, hrun₂⟩ := h array harray (cs ++ [c]) <|
    List.forall_mem_append.mpr ⟨hcs, List.forall_mem_singleton.mpr hc⟩
  have hshown : loop.shown (cs ++ [c]) =
      loop.shown cs ++ (loop.before ++ beforeNull 0 c ++ loop.behind) := by
    simp [shown]
  rw [List.map_append, run_append, hrun, Option.bind_some, List.map_singleton, run,
    List.foldlM_cons, step_bytes hcount hc, hprinted, hshown] at hrun₂
  rw [← pass_eq_iff harray']
  cases hpass : loop.pass array' (.bytes c) with
  | none =>
    rw [hpass] at hrun₂
    cases hrun₂
  | some shown =>
    obtain ⟨text, array₁⟩ := shown
    rw [hpass] at hrun₂
    injection hrun₂ with hrun₂
    injection hrun₂ with _ htext
    exact ⟨array₁, by rw [List.append_cancel_left htext]⟩

/-- A loop that reads as much as it has room for meets a piece without a zero behind it. -/
theorem Faithful.count_lt (hpos : 0 < loop.count) (h : loop.Faithful) : loop.count < loop.size := by
  by_contra hle
  have hpiece : List.replicate loop.count (1 : UInt8) ≠ [] ∧
      (List.replicate loop.count (1 : UInt8)).length ≤ loop.count := by
    rw [List.length_replicate]
    exact ⟨by simpa using hpos.ne', le_rfl⟩
  have hnull := h.nullBehind hcount (initial_zeros loop) (List.forall_mem_nil _) run_nil
    List.length_replicate hpiece
  rw [NullBehind, List.length_replicate] at hnull
  split at hnull
  · exact hle hnull
  · obtain ⟨hle', hmem | hnext⟩ := hnull
    · simp [List.mem_replicate] at hmem
    · rw [List.getElem?_replicate, if_neg (by omega)] at hnext
      cases hnext

/-- Two ones and then one of them are printed as three. -/
theorem Faithful.clears_of_bare (hstores : loop.stores = false) (htwo : 2 ≤ loop.count)
    (h : loop.Faithful) : loop.clears = true := by
  by_contra hclears
  have hroom := h.count_lt hcount (by omega)
  have hpair : [(1 : UInt8), 1] ≠ [] ∧ [(1 : UInt8), 1].length ≤ loop.count := ⟨by decide, htwo⟩
  have hone : [(1 : UInt8)] ≠ [] ∧ [(1 : UInt8)].length ≤ loop.count :=
    ⟨by decide, Nat.le_of_succ_le htwo⟩
  have hfirst : loop.pass (List.replicate loop.size 0) (.bytes [1, 1]) =
      some (loop.before ++ [1, 1] ++ loop.behind, overwrite (List.replicate loop.size 0) [1, 1]) := by
    have hread : asString 0 (overwrite (List.replicate loop.size 0) [(1 : UInt8), 1]) =
        some (beforeNull 0 [1, 1]) := by
      rw [asString_overwrite_eq_iff, List.getElem?_replicate]
      exact .inr (if_pos (by simp only [List.length_cons, List.length_nil]; omega))
    rw [pass_bare _ hstores, if_pos (by simp only [List.length_cons, List.length_nil]; omega), hread,
      afterPass, if_neg hclears, hstores]
    rfl
  have hrun : run loop.step (.looping (List.replicate loop.size 0) []) ([[1, 1]].map .bytes) =
      some (.looping (overwrite (List.replicate loop.size 0) [1, 1])
        ([] ++ (loop.before ++ [1, 1] ++ loop.behind))) := by
    rw [List.map_singleton, run, List.foldlM_cons, step_bytes hcount hpair, hfirst]
    rfl
  have hlength : (overwrite (List.replicate loop.size 0) [(1 : UInt8), 1]).length = loop.size := by
    rw [length_overwrite, List.length_replicate]
    simp only [List.length_cons, List.length_nil, List.length_replicate]
    omega
  have hnull := h.nullBehind hcount (initial_zeros loop)
    (List.forall_mem_singleton.mpr hpair) hrun hlength hone
  rw [NullBehind, hstores] at hnull
  obtain ⟨-, hmem | hnext⟩ := hnull
  · exact absurd hmem (by decide)
  · exact absurd (Option.some.inj hnext) (by decide)

/-- Without zeros of its own a loop must find them in the array. -/
theorem Faithful.zeroed_of_bare (hstores : loop.stores = false) (hpos : 0 < loop.count)
    (h : loop.Faithful) : loop.zeroed = true := by
  by_contra hzeroed
  have hroom := h.count_lt hcount hpos
  have hones : loop.Initial (List.replicate loop.size 1) :=
    ⟨List.length_replicate, fun htrue => absurd htrue hzeroed⟩
  have hone : [(1 : UInt8)] ≠ [] ∧ [(1 : UInt8)].length ≤ loop.count := ⟨by decide, hpos⟩
  have hnull := h.nullBehind hcount hones (List.forall_mem_nil _) run_nil hones.1 hone
  rw [NullBehind, hstores] at hnull
  obtain ⟨-, hmem | hnext⟩ := hnull
  · exact absurd hmem (by decide)
  · rw [List.getElem?_replicate, if_pos (show [(1 : UInt8)].length < loop.size from by simp; omega)] at hnext
    exact absurd (Option.some.inj hnext) (by decide)

/-- The loops that print what they read, whatever it is. -/
theorem faithful_iff (htwo : 2 ≤ loop.count) : loop.Faithful ↔
    loop.count < loop.size ∧ (loop.stores = true ∨ loop.zeroed = true ∧ loop.clears = true) := by
  constructor
  · intro h
    refine ⟨h.count_lt hcount (by omega), ?_⟩
    cases hstores : loop.stores with
    | true => exact .inl rfl
    | false => exact .inr ⟨h.zeroed_of_bare hcount hstores (by omega), h.clears_of_bare hcount hstores htwo⟩
  · rintro ⟨hroom, h⟩
    exact faithful_of_tidy hcount hroom h

end Faithfulness

end ReadLoop

section Programs

theorem Program.count_bounds (p : Program) : 2 ≤ p.loop.count ∧ p.loop.count < 2 ^ 32 := by
  cases p <;> decide

/-- Of the five loops just those of the two daytime clients print every stream, in whatever
pieces it arrives and whatever was on the stack. -/
theorem faithful_program_iff (p : Program) :
    p.loop.Faithful ↔ p = .daytimetcpcli ∨ p = .test_daytimeclient := by
  rw [ReadLoop.faithful_iff p.count_bounds.2 p.count_bounds.1]
  cases p <;> decide

/-- The read loop of the server is the first of them, with a test for the terminator. -/
theorem readStep_eq_pass (terminator : Bytes) (buffer : CharBuffer) (a : YStreamBuffer)
    (result : ReadResult) :
    readStep terminator buffer a result =
      if Program.handleRead.loop.condition.holds result then
        match Program.handleRead.loop.pass buffer.bytes result with
        | some (text, _) =>
          if terminator <:+ a.fBufferData ++ text then
            .stop ⟨a.fBytesRead + result.chunk.length, a.fBufferData ++ text⟩
          else .next .zeroed ⟨a.fBytesRead + result.chunk.length, a.fBufferData ++ text⟩
        | none => .undefined
      else .stop a := by
  by_cases hend : result.chunk = []
  · have hnot : Program.handleRead.loop.condition.holds result = false := by
      cases result with
      | bytes c =>
        obtain rfl : c = [] := hend
        rfl
      | failed => rfl
    rw [readStep_end _ _ _ hend, hnot]
    rfl
  · obtain ⟨c, rfl⟩ : ∃ c, result = .bytes c := by
      cases result with
      | bytes c => exact ⟨c, rfl⟩
      | failed => exact absurd rfl hend
    change c ≠ [] at hend
    have hholds : Program.handleRead.loop.condition.holds (.bytes c) = true := by
      have hpos := List.length_pos_iff.mpr hend
      simpa [Program.loop, Condition.holds, ReadResult.bytesRead] using hpos
    rw [if_pos hholds, ReadLoop.pass_stores buffer.length_eq c rfl]
    rcases Nat.lt_or_ge bufSize c.length with hfull | hshort
    · have hsize : ¬ c.length < Program.handleRead.loop.size := Nat.not_lt_of_le hfull
      rw [readStep_full terminator buffer a (show bufSize < (ReadResult.bytes c).chunk.length from hfull),
        if_neg hsize]
    · have hsize : c.length < Program.handleRead.loop.size := Nat.lt_succ_of_le hshort
      rw [readStep_chunk _ _ _ hend hshort, if_pos hsize]
      simp only [Program.loop, List.nil_append, List.append_nil]
      rfl

section Clients

/-- What the two calls in a pass of a daytime client give: the result of `read`, and whether
`fputs` takes the string. -/
structure Calls where
  read : ReadResult
  fputs : Bool

inductive ClientState where
  | running (s : LoopState)
  /-- Left by `exit` after `fputs` has returned `EOF`. -/
  | outputFailed

/-- The loop with its test of `fputs`, which is called where the loop goes on. -/
def ReadLoop.testedStep (loop : ReadLoop) : ClientState → Calls → Option ClientState
  | .running s, calls => match loop.step s calls.read with
    | none => none
    | some (.looping array printed) => if calls.fputs then some (.running (.looping array printed))
      else some .outputFailed
    | some s' => some (.running s')
  | .outputFailed, _ => none

section Tests

variable {loop : ReadLoop} {s : LoopState}

/-- A client goes on from a pass if its output has been taken. -/
theorem looping_of_testedStep {t : ClientState} {calls : Calls} {s' : LoopState}
    (h : loop.testedStep t calls = some (.running s')) :
    ∃ array printed, t = .running (.looping array printed) ∧
      loop.step (.looping array printed) calls.read = some s' ∧
      ∀ array' printed', s' = .looping array' printed' → calls.fputs = true := by
  cases t with
  | outputFailed => cases h
  | running s =>
    cases s with
    | ended printed => cases h
    | undefined => cases h
    | looping array printed =>
      refine ⟨array, printed, rfl, ?_⟩
      rw [ReadLoop.testedStep] at h
      cases hstep : loop.step (.looping array printed) calls.read with
      | none =>
        rw [hstep] at h
        cases h
      | some s₁ =>
        rw [hstep] at h
        cases s₁ with
        | looping array₁ printed₁ =>
          cases htaken : calls.fputs with
          | true =>
            rw [htaken] at h
            cases h
            exact ⟨rfl, fun _ _ _ => rfl⟩
          | false =>
            rw [htaken] at h
            cases h
        | ended printed₁ =>
          cases h
          exact ⟨rfl, nofun⟩
        | undefined =>
          cases h
          exact ⟨rfl, nofun⟩

/-- As long as the output is taken, the test changes nothing. -/
theorem run_testedStep_of_taken {passes : List Calls}
    (h : ∀ calls ∈ passes, calls.fputs = true) :
    run loop.testedStep (.running s) passes =
      (run loop.step s (passes.map Calls.read)).map .running := by
  induction passes generalizing s with
  | nil => rfl
  | cons calls passes ih =>
    obtain ⟨htaken, hrest⟩ := List.forall_mem_cons.mp h
    have hstep : loop.testedStep (.running s) calls = (loop.step s calls.read).map .running := by
      rw [ReadLoop.testedStep]
      cases loop.step s calls.read with
      | none => rfl
      | some s' => cases s' <;> simp [htaken]
    rw [List.map_cons, run, run, List.foldlM_cons, List.foldlM_cons, hstep]
    cases loop.step s calls.read with
    | none => rfl
    | some s' => exact ih hrest

/-- A client that is still in its loop has had its output taken every time. -/
theorem taken_of_run_testedStep {passes : List Calls} {array printed : Bytes}
    (h : run loop.testedStep (.running s) passes = some (.running (.looping array printed))) :
    ∀ calls ∈ passes, calls.fputs = true := by
  induction passes using List.reverseRecOn generalizing array printed with
  | nil => simp
  | append_singleton passes calls ih =>
    obtain ⟨t, hrun, hlast⟩ := run_concat h
    obtain ⟨array₁, printed₁, rfl, -, htaken⟩ := looping_of_testedStep hlast
    rw [List.forall_mem_append, List.forall_mem_singleton]
    exact ⟨ih hrun, htaken _ _ rfl⟩

/-- A client gets to the end of its stream if its loop does and all of its output is taken. -/
theorem run_testedStep_ended_iff {passes : List Calls} {last : Calls} {array x m : Bytes}
    (hloop : run loop.step s (passes.map Calls.read) = some (.looping array x))
    (hend : loop.step (.looping array x) last.read = some (.ended x)) :
    run loop.testedStep (.running s) (passes ++ [last]) = some (.running (.ended m)) ↔
      x = m ∧ ∀ calls ∈ passes, calls.fputs = true := by
  constructor
  · intro h
    obtain ⟨t, hrun, hlast⟩ := run_concat h
    obtain ⟨array', printed, rfl, hstep, -⟩ := looping_of_testedStep hlast
    have htaken := taken_of_run_testedStep hrun
    rw [run_testedStep_of_taken htaken, hloop] at hrun
    cases hrun
    rw [hend] at hstep
    cases hstep
    exact ⟨rfl, htaken⟩
  · rintro ⟨rfl, htaken⟩
    have hlast : loop.testedStep (.running (.looping array x)) last = some (.running (.ended x)) := by
      rw [ReadLoop.testedStep, hend]
    rw [run_append, run_testedStep_of_taken htaken, hloop, Option.map_some, Option.bind_some, run,
      List.foldlM_cons, hlast]
    rfl

end Tests

/-- Every zero hides something: at least itself. -/
theorem notMem_of_visible_eq {cs : List Bytes} (h : visible cs = cs.flatten) : 0 ∉ cs.flatten := by
  induction cs with
  | nil => simp
  | cons c cs ih =>
    have hbegin : beforeNull 0 c <+: c := List.takeWhile_prefix _
    have hrest := length_visible_le cs
    change beforeNull 0 c ++ visible cs = c ++ cs.flatten at h
    have hlengths := congrArg List.length h
    rw [List.length_append, List.length_append] at hlengths
    have hall : beforeNull 0 c = c :=
      hbegin.eq_of_length (by have := hbegin.length_le; omega)
    rw [hall] at h
    rw [List.flatten_cons, List.mem_append, not_or]
    refine ⟨?_, ih (List.append_cancel_left h)⟩
    rw [← hall]
    exact takeWhile_notMem 0 c

theorem visible_eq_flatten_iff {cs : List Bytes} : visible cs = cs.flatten ↔ 0 ∉ cs.flatten := by
  constructor
  · exact notMem_of_visible_eq
  · intro hnul
    exact visible_of_notMem fun c hc hz => hnul (List.mem_flatten_of_mem hc hz)

/-- A daytime client prints the stream it gets, in whatever pieces and whatever was on its
stack, and gets to the end of the stream, if and only if there is no zero in the stream and
`fputs` takes every piece. -/
theorem daytime_prints_iff {p : Program} (hp : p = .daytimetcpcli ∨ p = .test_daytimeclient)
    {array : Bytes} (harray : p.loop.Initial array) {m : Bytes} {cs : List Bytes}
    (hcs : Segmentation 4096 m cs) {passes : List Calls}
    (hreads : passes.map Calls.read = cs.map .bytes) {last : Calls} (hlast : last.read.chunk = []) :
    run p.loop.testedStep (.running (.looping array [])) (passes ++ [last]) =
        some (.running (.ended m)) ↔ 0 ∉ m ∧ ∀ calls ∈ passes, calls.fputs = true := by
  have hloop : p.loop = ⟨4096 + 1, 4096, .positive, false, true, false, [], []⟩ := by
    rcases hp with rfl | rfl <;> rfl
  have hpieces : ∀ c ∈ cs, c ≠ [] ∧ c.length ≤ p.loop.count := by
    intro c hc
    rw [hloop]
    exact ⟨hcs.nonempty c hc, hcs.length_le c hc⟩
  have hstores : p.loop.stores = true := by rw [hloop]
  have hfits : ∀ c ∈ cs, p.loop.Fits c := by
    intro c hc
    rw [hloop]
    exact .inl (Nat.lt_succ_of_le (hcs.length_le c hc))
  obtain ⟨array', -, hrun⟩ :=
    (harray.tidy (.inl hstores)).run_of_fits p.count_bounds.2 [] hpieces hfits
  have hshown : p.loop.shown cs = visible cs := by
    rw [hloop]
    simp [ReadLoop.shown, visible]
  rw [List.nil_append, hshown, ← hreads] at hrun
  have hholds : p.loop.condition.holds last.read = false := by
    rw [hloop]
    obtain ⟨read, fputs⟩ := last
    cases read with
    | bytes c =>
      obtain rfl : c = [] := hlast
      rfl
    | failed => rfl
  have hend : p.loop.step (.looping array' (visible cs)) last.read = some (.ended (visible cs)) := by
    rw [ReadLoop.step, hholds]
    rfl
  rw [run_testedStep_ended_iff hrun hend, ← hcs.flatten_eq, visible_eq_flatten_iff]

theorem daytime_prints_iff_morning :
    run Program.daytimetcpcli.loop.testedStep (.running (.looping (List.replicate 4097 7) []))
        ([⟨.bytes (ascii "08:"), true⟩, ⟨.bytes (ascii "15\r\n"), true⟩] ++ [⟨.bytes [], true⟩]) =
      some (.running (.ended (ascii "08:15\r\n"))) ↔ 0 ∉ ascii "08:15\r\n" ∧
        ∀ calls ∈ [Calls.mk (.bytes (ascii "08:")) true, ⟨.bytes (ascii "15\r\n"), true⟩],
          calls.fputs = true := by
  have hcut : Segmentation 4096 (ascii "08:15\r\n") [ascii "08:", ascii "15\r\n"] :=
    ⟨by decide, by decide, by decide⟩
  exact daytime_prints_iff (.inl rfl) ⟨List.length_replicate, fun h => nomatch h⟩ hcut rfl rfl

end Clients

section Overruns

/-- The loops of `client` and `doRead` print what arrives if and only if there is a zero in the
array behind the first piece and no other piece fills the array without one. -/
theorem clearing_prints_iff {p : Program} (hp : p = .client ∨ p = .doRead) {array : Bytes}
    (harray : p.loop.Initial array) {c : Bytes} {cs : List Bytes}
    (hcs : ∀ d ∈ c :: cs, d ≠ [] ∧ d.length ≤ p.loop.count) :
    (∃ array', run p.loop.step (.looping array []) ((c :: cs).map .bytes) =
        some (.looping array' (p.loop.shown (c :: cs)))) ↔
      (c.length ≤ p.loop.size ∧ (0 ∈ c ∨ array[c.length]? = some 0)) ∧
        ∀ d ∈ cs, d.length < p.loop.size ∨ d.length = p.loop.size ∧ 0 ∈ d := by
  have hclears : p.loop.clears = true := by rcases hp with rfl | rfl <;> rfl
  have hstores : p.loop.stores = false := by rcases hp with rfl | rfl <;> rfl
  rw [ReadLoop.run_shown_iff p.count_bounds.2 hclears harray.1 hcs, ReadLoop.NullBehind, hstores]
  simp [ReadLoop.Fits, hstores]

theorem clearing_prints_iff_hello :
    (∃ array', run Program.client.loop.step (.looping (List.replicate 1024 0) [])
        ([ascii "Hello", ascii "you"].map .bytes) =
          some (.looping array' (Program.client.loop.shown [ascii "Hello", ascii "you"]))) ↔
      ((ascii "Hello").length ≤ 1024 ∧ (0 ∈ ascii "Hello" ∨
          (List.replicate 1024 (0 : UInt8))[(ascii "Hello").length]? = some 0)) ∧
        ∀ d ∈ [ascii "you"], d.length < 1024 ∨ d.length = 1024 ∧ 0 ∈ d :=
  clearing_prints_iff (.inl rfl) ⟨List.length_replicate, fun _ => rfl⟩ (by decide)

/-- The loop does not see that its peer is gone: `client` goes on whatever `read` returns, and
`doRead`, which compares an unsigned number with zero, goes on when `read` fails. After pieces
that it has printed it then prints one blank record after the other. -/
theorem never_ends {p : Program} {gone : ReadResult}
    (hp : p = .client ∧ gone.chunk = [] ∨ p = .doRead ∧ gone = .failed) {array : Bytes}
    (harray : p.loop.Initial array) {c : Bytes} {cs : List Bytes}
    (hcs : ∀ d ∈ c :: cs, d ≠ [] ∧ d.length ≤ p.loop.count)
    (hfirst : c.length ≤ p.loop.size ∧ (0 ∈ c ∨ array[c.length]? = some 0))
    (hrest : ∀ d ∈ cs, d.length < p.loop.size ∨ d.length = p.loop.size ∧ 0 ∈ d) (n : ℕ) :
    ∃ array', run p.loop.step (.looping array []) ((c :: cs).map .bytes ++ List.replicate n gone) =
      some (.looping array' (p.loop.shown (c :: cs ++ List.replicate n []))) := by
  have hclears : p.loop.clears = true := by rcases hp with ⟨rfl, -⟩ | ⟨rfl, -⟩ <;> rfl
  have hstores : p.loop.stores = false := by rcases hp with ⟨rfl, -⟩ | ⟨rfl, -⟩ <;> rfl
  have hsize : 0 < p.loop.size := by
    rcases hp with ⟨rfl, -⟩ | ⟨rfl, -⟩ <;> decide
  have hgone : gone.chunk = [] ∧ p.loop.condition.holds gone = true := by
    rcases hp with ⟨rfl, hgone⟩ | ⟨rfl, rfl⟩
    · exact ⟨hgone, rfl⟩
    · exact ⟨rfl, by decide⟩
  have hnull : p.loop.NullBehind array c := by
    rw [ReadLoop.NullBehind, hstores]
    exact hfirst
  have hfits : ∀ d ∈ cs, p.loop.Fits d :=
    fun d hd => (hrest d hd).imp_right fun hfull => ⟨hstores, hfull⟩
  obtain ⟨array', htidy, hrun⟩ :=
    ReadLoop.run_of_nullBehind p.count_bounds.2 hclears harray.1 hcs hnull hfits
  refine ⟨array', ?_⟩
  rw [run_append, hrun, Option.bind_some, (htidy.2 hstores).2,
    ReadLoop.run_blank hstores hclears hsize hgone.1 hgone.2]
  simp [ReadLoop.shown]

/-- Three failing reads behind the first piece. -/
theorem never_ends_hello :
    ∃ array', run Program.doRead.loop.step (.looping (List.replicate 4096 0) [])
        ([ascii "Hello"].map .bytes ++ List.replicate 3 .failed) =
      some (.looping array' (Program.doRead.loop.shown ([ascii "Hello"] ++ List.replicate 3 []))) := by
  have hnext : (List.replicate 4096 (0 : UInt8))[(ascii "Hello").length]? = some 0 := by
    rw [List.getElem?_replicate]
    exact if_pos (by decide)
  exact never_ends (.inr ⟨rfl, rfl⟩) ⟨List.length_replicate, fun _ => rfl⟩ (by decide)
    ⟨by decide, .inr hnext⟩ (by decide) 3

end Overruns

end Programs

end CppWebserver.PrintingLoops
