import CppWebserver.ByteStrings
import CppWebserver.Numerals

/-!
# Reading the head of an HTTP message

A status line up to the first line break, then one header for every line up to
the first empty one. This is how a client reads a response, independently of how
any server writes it.
-/

namespace CppWebserver.HttpMessages
open ByteStrings PatternSearch Numerals

/-- No carriage return and no line feed. -/
def Unbroken (s : Bytes) : Prop := cr ∉ s ∧ lf ∉ s

theorem Unbroken.append {s t : Bytes} (hs : Unbroken s) (ht : Unbroken t) : Unbroken (s ++ t) :=
  ⟨fun h => (List.mem_append.mp h).elim hs.1 ht.1, fun h => (List.mem_append.mp h).elim hs.2 ht.2⟩

theorem Unbroken.of_subset {s t : Bytes} (ht : Unbroken t) (h : s ⊆ t) : Unbroken s :=
  ⟨fun hcr => ht.1 (h hcr), fun hlf => ht.2 (h hlf)⟩

theorem unbroken_decimal (n : ℕ) : Unbroken (decimal n) :=
  ⟨notMem_decimal (by decide) n, notMem_decimal (by decide) n⟩

theorem space_notMem_decimal (n : ℕ) : space ∉ decimal n := notMem_decimal (by decide) n

structure Head where
  version : Bytes
  code : ℕ
  reason : Bytes
  headers : List (Bytes × Bytes)
  deriving DecidableEq

/-- `Name: value`. -/
def readHeader (line : Bytes) : Option (Bytes × Bytes) := splitFirst (ascii ": ") line

theorem length_lt_of_splitFirst {s a b : Bytes} (h : splitFirst crlf s = some (a, b)) :
    b.length < s.length := by
  have := congrArg List.length (splitFirst_eq_append h)
  simp only [List.length_append, show crlf.length = 2 from rfl] at this
  omega

def readHeaders (s : Bytes) : Option (List (Bytes × Bytes)) :=
  match _h : splitFirst crlf s with
  | none => none
  | some (line, rest) =>
    if line = [] then some [] else do
      let header ← readHeader line
      let headers ← readHeaders rest
      pure (header :: headers)
termination_by s.length
decreasing_by exact length_lt_of_splitFirst _h

def readHead (s : Bytes) : Option Head := do
  let (statusLine, rest) ← splitFirst crlf s
  let (version, line) ← splitFirst [space] statusLine
  let (digits, reason) ← splitFirst [space] line
  let code ← readDecimal digits
  let headers ← readHeaders rest
  pure ⟨version, code, reason, headers⟩

/-- What follows the first empty line. -/
def body (s : Bytes) : Option Bytes := (splitFirst (crlf ++ crlf) s).map Prod.snd

/-- A line without carriage return is read up to its line break. -/
theorem splitFirst_crlf {line : Bytes} (h : cr ∉ line) (s : Bytes) :
    splitFirst crlf (line ++ (crlf ++ s)) = some (line, s) := splitFirst_append_self line s h

theorem readHeaders_nil (s : Bytes) : readHeaders (crlf ++ s) = some [] := by
  have hcut : splitFirst crlf (crlf ++ s) = some ([], s) :=
    splitFirst_crlf List.not_mem_nil s
  rw [readHeaders]
  split
  · next h => rw [hcut] at h; cases h
  · next line rest h =>
    rw [hcut] at h
    cases h
    rfl

theorem readHeaders_cons {line : Bytes} (hcr : cr ∉ line) (hne : line ≠ []) (s : Bytes) :
    readHeaders (line ++ (crlf ++ s)) =
      (readHeader line).bind (fun header => (readHeaders s).map (header :: ·)) := by
  have hcut := splitFirst_crlf hcr s
  rw [readHeaders]
  split
  · next h => rw [hcut] at h; cases h
  · next line' rest h =>
    rw [hcut] at h
    cases h
    rw [if_neg hne]
    cases readHeader line with
    | none => rfl
    | some header => cases readHeaders s <;> rfl

/-- A message of one status line and one header line is read up to the empty line. -/
theorem readHead_message {version reason header : Bytes} (code : ℕ) (hspace : space ∉ version)
    (hversion : cr ∉ version) (hreason : cr ∉ reason) (hheader : cr ∉ header)
    (hne : header ≠ []) (s : Bytes) :
    readHead (version ++ ([space] ++ (decimal code ++ ([space] ++ reason))) ++
        (crlf ++ (header ++ (crlf ++ (crlf ++ s))))) =
      (readHeader header).map (fun h => ⟨version, code, reason, [h]⟩) := by
  have hline : cr ∉ version ++ ([space] ++ (decimal code ++ ([space] ++ reason))) := by
    simp only [List.mem_append, not_or]
    exact ⟨hversion, by decide, (unbroken_decimal code).1, by decide, hreason⟩
  rw [readHead, splitFirst_crlf hline]
  simp only [Option.bind_eq_bind, Option.bind_some]
  rw [splitFirst_append_self version _ hspace]
  simp only [Option.bind_some]
  rw [splitFirst_append_self (decimal code) _ (space_notMem_decimal code)]
  simp only [Option.bind_some, readDecimal_decimal, readHeaders_cons hheader hne, readHeaders_nil]
  cases readHeader header <;> rfl

/-- The first empty line of a message with one header line. -/
theorem splitFirst_blank_line {line header : Bytes} {b : UInt8} (hline : cr ∉ line)
    (hheader : cr ∉ b :: header) (s : Bytes) :
    splitFirst (crlf ++ crlf) (line ++ crlf ++ b :: header ++ (crlf ++ crlf ++ s)) =
      some (line ++ crlf ++ b :: header, s) := by
  have hb : cr ≠ b := fun h => hheader (h ▸ List.mem_cons_self)
  have hrest : cr ∉ lf :: b :: header := by
    rw [List.mem_cons]
    exact fun h => h.elim (by decide) hheader
  have hmis : ¬ cr :: lf :: cr :: [lf] <+:
      cr :: (lf :: b :: header ++ (cr :: lf :: cr :: [lf] ++ s)) := by
    simp only [List.cons_append, List.cons_prefix_cons, true_and]
    exact fun h => hb h.1
  apply splitFirst_of_firstIndex
  have hshape : line ++ crlf ++ b :: header ++ (crlf ++ crlf ++ s) =
      line ++ cr :: (lf :: b :: header ++ (cr :: lf :: cr :: [lf] ++ s)) := by
    simp [crlf]
  rw [hshape]
  change firstIndex (cr :: lf :: cr :: [lf]) _ = _
  rw [firstIndex_append_of_notMem line _ hline, firstIndex_cons_of_mismatch hmis,
    firstIndex_append_self _ s hrest]
  simp [crlf]

end CppWebserver.HttpMessages
