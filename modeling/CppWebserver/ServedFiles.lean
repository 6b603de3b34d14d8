import CppWebserver.ByteStrings
import CppWebserver.DirectoryTrees

/-!
# The file system as the request handlers see it

Path strings are resolved as by POSIX without symbolic links: names are separated
by slashes, empty components and `.` stay where they are, `..` goes up, and every
component is looked up in a directory. In an `Environment` calls of the file system
do not fail for any other reason; on a `Machine` they may, and then
`std::filesystem::exists` throws.
-/

namespace CppWebserver.ServedFiles
open ByteStrings DirectoryTrees

/-- A regular file and what the server process may do with it. -/
structure FileData where
  content : Bytes
  readable : Bool
  writable : Bool
  deriving DecidableEq

abbrev FileSystem := Tree Bytes FileData

/-- What a request finds outside the program: the files, the working directory
and the value an unassigned `fResponseCode` happens to have. -/
structure Environment where
  files : FileSystem
  cwd : List Bytes
  cwd_directory : files.node cwd = .directory
  unassignedCode : UInt16

/-- An empty root directory, which is the working directory. -/
def Environment.bare : Environment where
  files := skeleton []
  cwd := []
  cwd_directory := Tree.root_directory _
  unassignedCode := 0

def componentMove (c : Bytes) : Move Bytes :=
  if c = [] ∨ c = ascii "." then .stay else if c = ascii ".." then .up else .down c

def components (path : Bytes) : List Bytes := path.splitOn slash

def pathMoves (path : Bytes) : List (Move Bytes) := (components path).map componentMove

/-- Absolute paths start at the root, the others at the working directory. -/
def startOf (cwd : List Bytes) (path : Bytes) : List Bytes :=
  if [slash] <+: path then [] else cwd

/-- What the system call finds under a path; the empty path names nothing. -/
def Environment.stat (env : Environment) (path : Bytes) : Node FileData :=
  if path = [] then .absent else env.files.find (startOf env.cwd path) (pathMoves path)

/-- `std::filesystem::exists(path)`, as long as the lookup does not fail. -/
def Environment.exists (env : Environment) (path : Bytes) : Bool :=
  match env.stat (cStr path) with
  | .absent => false
  | _ => true

/-- An environment, and the paths under which `stat` fails for another reason than
absence: a name is too long, or a directory must not be searched. -/
structure Machine extends Environment where
  statFails : Bytes → Bool

/-- A machine whose lookups fail on names of more than 255 bytes. -/
def Environment.withNameMax (env : Environment) : Machine where
  toEnvironment := env
  statFails path := (components path).any fun name => 255 < name.length

/-- `std::filesystem::exists(path)`, which throws what is not an answer. -/
def Machine.exists (machine : Machine) (path : Bytes) : Except CppException Bool :=
  if machine.statFails (cStr path) then .error .filesystemError
  else .ok (machine.toEnvironment.exists path)

/-- `std::filesystem::path(path).extension()`: from the last dot of the last
component, unless that dot begins it or the component is `.` or `..`. -/
def extension (path : Bytes) : Bytes :=
  let name := (components path).getLastD []
  if name = ascii "." ∨ name = ascii ".." then [] else
    match rfind name (ascii ".") name.length with
    | none => []
    | some 0 => []
    | some pos => name.drop pos

/-- The modes in which `std::ifstream::open` is called; `std::ios::in` is always added. -/
inductive OpenMode where
  | input
  | inputOutput
  deriving DecidableEq

/-- Opening a path and the bytes its buffer then delivers. A directory opens for
input, but no byte can be read from it. -/
def Environment.open (env : Environment) (path : Bytes) (mode : OpenMode) : Option Bytes :=
  match env.stat (cStr path) with
  | .absent => none
  | .directory => match mode with
    | .input => some []
    | .inputOutput => none
  | .file data =>
    if data.readable && (decide (mode = .input) || data.writable) then some data.content else none

/-- `aFileBuffer << aFileStream.rdbuf()`: nothing is copied from a stream that is not open. -/
def copied (stream : Option Bytes) : Bytes := stream.getD []

theorem Environment.exists_iff (env : Environment) (path : Bytes) :
    env.exists path = true ↔ env.stat (cStr path) ≠ .absent := by
  rw [Environment.exists]
  cases env.stat (cStr path) <;> simp

/-- Everything a request learns about a path goes through `stat`. -/
theorem Environment.open_congr {env env' : Environment} {path : Bytes}
    (h : env.stat (cStr path) = env'.stat (cStr path)) (mode : OpenMode) :
    env.open path mode = env'.open path mode := by
  simp only [Environment.open, h]

theorem Environment.exists_congr {env env' : Environment} {path : Bytes}
    (h : env.stat (cStr path) = env'.stat (cStr path)) :
    env.exists path = env'.exists path := by
  simp only [Environment.exists, h]

theorem Environment.copied_of_readable {env : Environment} {path : Bytes} {data : FileData}
    (h : env.stat (cStr path) = .file data) (hr : data.readable = true) :
    copied (env.open path .input) = data.content := by
  simp [Environment.open, h, hr, copied]

theorem Environment.copied_inputOutput {env : Environment} {path : Bytes} {data : FileData}
    (h : env.stat (cStr path) = .file data) (hr : data.readable = true) :
    copied (env.open path .inputOutput) = if data.writable then data.content else [] := by
  cases hw : data.writable <;> simp [Environment.open, h, hr, hw, copied]

private theorem up_of_componentMove {c : Bytes} (h : componentMove c = .up) : c = ascii ".." := by
  by_contra hc
  rw [componentMove] at h
  split at h
  · cases h
  · cases h

/-- A component `..` that is not the last one puts `../` into the path. -/
private theorem traversal_of_mem_dropLast (cs : List Bytes)
    (h : Move.up ∈ (cs.map componentMove).dropLast) :
    ascii "../" <:+: [slash].intercalate cs := by
  induction cs with
  | nil => simp at h
  | cons c cs ih =>
    cases cs with
    | nil => simp at h
    | cons d cs =>
      rw [List.intercalate_cons_cons]
      rw [List.map_cons, List.dropLast_cons_of_ne_nil (by simp), List.mem_cons] at h
      rcases h with h | h
      · rw [up_of_componentMove h.symm]
        exact List.IsPrefix.isInfix (by
          rw [List.append_assoc]
          exact ⟨_, rfl⟩)
      · exact (ih h).trans (List.suffix_append _ _).isInfix

/-- Paths without `../` go up at most as their last step. -/
theorem descends_pathMoves {path : Bytes} (h : ¬ ascii "../" <:+: path) :
    Descends (pathMoves path) := by
  intro hup
  have := traversal_of_mem_dropLast (components path) hup
  rw [components, List.intercalate_splitOn] at this
  exact h this

theorem cStr_isPrefix (path : Bytes) : cStr path <+: path := List.takeWhile_prefix _

end CppWebserver.ServedFiles
