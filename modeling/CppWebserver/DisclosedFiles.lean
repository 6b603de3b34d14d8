import CppWebserver.DotSegments
import CppWebserver.WebServer

/-!
# Files anywhere on the machine

A target with two slashes names an absolute path, and the server does not look where it leads.
So whatever its working directory is, a client can ask for every file that the server process
may read and that has a name without special characters.
-/

namespace CppWebserver.WebServer
open ByteStrings Conversations DirectoryTrees HttpMessages HttpParserProgram LabelledRuns
open PatternSearch ServedFiles SocketReadLoop
open FailingLookups hiding handleGetRequest
open SocketServer hiding step

/-- A name of a file or directory that a request line can hold. -/
structure PlainComponent (c : Bytes) : Prop where
  isSegment : IsSegment c
  ne_dot : c ≠ ascii "."
  ne_dots : c ≠ ascii ".."
  nul_notMem : 0 ∉ c
  cr_notMem : cr ∉ c

/-- The absolute path with these names. -/
def absolutePath (names : List Bytes) : Bytes := slash :: joined names

/-- What a client sends for it. -/
def requestFor (names : List Bytes) : Bytes :=
  requestLine (ascii "GET") (absolutePath names) (ascii "/1.1" ++ (crlf ++ crlf))

section Paths

variable {names : List Bytes}

theorem notMem_absolutePath {b : UInt8} (hb : b ≠ slash) (h : ∀ c ∈ names, b ∉ c) :
    b ∉ absolutePath names := by
  rw [absolutePath, List.mem_cons]
  exact fun hmem => hmem.elim hb (notMem_joined hb h)

theorem pathMoves_absolutePath (h : ∀ c ∈ names, PlainComponent c) (hne : names ≠ []) :
    pathMoves (absolutePath names) = .stay :: names.map .down := by
  have hslash : ∀ c ∈ [] :: names, slash ∉ c := by
    intro c hc
    rcases List.mem_cons.mp hc with rfl | hc
    · exact List.not_mem_nil
    · exact (h c hc).isSegment.2.1
  have hjoined : absolutePath names = joined ([] :: names) := by
    obtain ⟨c, cs, rfl⟩ := List.exists_cons_of_ne_nil hne
    rw [joined_cons_cons, absolutePath, List.nil_append]
  have hdown : names.map componentMove = names.map .down := by
    apply List.map_congr_left
    intro c hc
    have hplain := h c hc
    rw [componentMove, if_neg (not_or.mpr ⟨hplain.isSegment.1, hplain.ne_dot⟩),
      if_neg hplain.ne_dots]
  rw [hjoined, pathMoves, components, joined, List.splitOn_intercalate slash hslash (by simp),
    List.map_cons, hdown]
  rfl

/-- The working directory does not matter for an absolute path. -/
theorem stat_absolutePath (env : Environment) (h : ∀ c ∈ names, PlainComponent c)
    (hne : names ≠ []) (hexists : env.files.node names ≠ .absent) :
    env.stat (absolutePath names) = env.files.node names := by
  have habsolute : startOf env.cwd (absolutePath names) = [] :=
    if_pos (List.cons_prefix_cons.mpr ⟨rfl, List.nil_prefix⟩)
  rw [Environment.stat, if_neg (by simp [absolutePath]), habsolute, pathMoves_absolutePath h hne,
    env.files.find_cons_of_directory env.files.root_directory]
  exact env.files.find_map_down [] names hexists

/-- A terminator without a second beginning ends what has no beginning of it before. -/
theorem endsOnce_append {c : UInt8} {pat a : Bytes} (h : c ∉ a) :
    EndsOnce (c :: pat) (a ++ c :: pat) := by
  refine ⟨List.suffix_append _ _, ?_⟩
  intro x y hxy
  have hfirst : firstIndex (c :: pat) (a ++ (c :: pat ++ [])) = some a.length :=
    firstIndex_append_self a [] h
  rw [List.append_nil] at hfirst
  obtain ⟨-, -, hleast⟩ := (firstIndex_eq_some_iff _ _ _).mp hfirst
  have hle : a.length ≤ x.length := by
    by_contra hlt
    apply hleast x.length (Nat.lt_of_not_le hlt)
    rw [hxy, List.drop_left]
    exact List.prefix_append _ _
  have hlength := congrArg List.length hxy
  simp only [List.length_append] at hlength
  exact List.eq_nil_of_length_eq_zero (by omega)

theorem notMem_requestLine {b : UInt8} {m p v : Bytes} (hb : b ∉ ascii " / HTTP") (hm : b ∉ m)
    (hp : b ∉ p) (hv : b ∉ v) : b ∉ requestLine m p v := by
  have hspace : b ≠ space := fun h => hb (h ▸ by decide)
  have hslash : b ≠ slash := fun h => hb (h ▸ by decide)
  have hhttp : b ∉ ascii " HTTP" := fun h => hb ((by decide : ascii " HTTP" ⊆ ascii " / HTTP") h)
  rw [requestLine]
  simp only [List.mem_append, List.mem_cons, not_or]
  exact ⟨hm, hspace, hslash, hp, hhttp, hv⟩

theorem endsOnce_requestFor (h : cr ∉ absolutePath names) :
    EndsOnce (crlf ++ crlf) (requestFor names) := by
  have hline : requestFor names =
      requestLine (ascii "GET") (absolutePath names) (ascii "/1.1") ++ (crlf ++ crlf) := by
    simp [requestFor, requestLine]
  have hcr : cr ∉ requestLine (ascii "GET") (absolutePath names) (ascii "/1.1") :=
    notMem_requestLine (by decide) (by decide) h (by decide)
  rw [hline]
  exact endsOnce_append hcr

end Paths

/-- Wherever the server has been started, a client can ask for every file of the machine that the
process may read: it sends the absolute path of the file, behind a second slash, and gets what
`write` takes of an answer with the whole file. -/
theorem every_file_disclosed (machine : Machine) (sockfd : ℤ) (clientSocket : SockaddrIn)
    (connfd : ℤ) (fds : Finset ℤ) (stack : CharBuffer) (result : WriteResult)
    {names : List Bytes} {data : FileData} (hfile : machine.files.node names = .file data)
    (hread : data.readable = true) (hnames : ∀ c ∈ names, PlainComponent c)
    (hdots : ∀ c ∈ names.dropLast, ¬ ascii ".." <:+ c)
    (hwrite : extension (absolutePath names) = ascii ".ico" → data.writable = true)
    (hlookup : machine.statFails (absolutePath names) = false)
    (hlength : (requestFor names).length ≤ bufSize) :
    ∃ answer, body answer = some (data.content ++ (crlf ++ crlf)) ∧
      ∀ s, EndsIn (step (aSocket machine sockfd))
          (start clientSocket connfd fds stack (requestFor names) result) s →
        s.client = .sawEnd ∧ s.received = result.taken answer := by
  have hne : names ≠ [] := by
    rintro rfl
    rw [machine.files.root_directory] at hfile
    cases hfile
  have hnul : 0 ∉ absolutePath names :=
    notMem_absolutePath (by decide) fun c hc => (hnames c hc).nul_notMem
  have hcr : cr ∉ absolutePath names :=
    notMem_absolutePath (by decide) fun c hc => (hnames c hc).cr_notMem
  have hspace : space ∉ absolutePath names :=
    notMem_absolutePath (by decide) fun c hc => (hnames c hc).isSegment.2.2
  have htraversal : ¬ ascii "../" <:+: absolutePath names := by
    apply no_traversal_slash
    rw [traversal_isInfix_joined_iff fun c hc => (hnames c hc).isSegment.2.1]
    rintro ⟨c, hc, hends⟩
    exact hdots c hc hends
  have hpage : pageName (absolutePath names) = absolutePath names :=
    if_neg (List.cons_ne_nil _ _)
  have hcStr : cStr (absolutePath names) = absolutePath names := cStr_of_notMem hnul
  have hstat : machine.stat (cStr (pageName (absolutePath names))) = .file data := by
    rw [hpage, hcStr, stat_absolutePath machine.toEnvironment hnames hne (by simp [hfile]), hfile]
  have hanswers : machine.statFails (cStr (pageName (absolutePath names))) = false := by
    rw [hpage, hcStr, hlookup]
  obtain ⟨answer, hanswer, hbody⟩ :=
    body_aThingy_requestLine hspace htraversal (hlength.trans_lt (by decide)) hstat hread
      (hpage.symm ▸ hwrite) hanswers
  have hquiet : 0 ∉ requestFor names :=
    notMem_requestLine (by decide) (by decide) hnul (by decide)
  refine ⟨answer, hbody, ?_⟩
  intro s hend
  exact taken_of_endsOnce rfl hquiet hlength (by decide) (endsOnce_requestFor hcr) hanswer hend

/-- The server in `/srv` hands out the file beside its directory. -/
theorem every_file_disclosed_secret :
    ∃ answer, body answer = some (ascii "key" ++ (crlf ++ crlf)) ∧
      ∀ s, EndsIn (step (aSocket (secretServer (ascii "key")).withNameMax 3))
          (start ⟨0, 0⟩ 4 {0, 1, 2, 3, 4} .zeroed (requestFor [ascii "secret"])
            (.written 100)) s →
        s.client = .sawEnd ∧ s.received = (WriteResult.written 100).taken answer := by
  have hfile : (secretServer (ascii "key")).files.node [ascii "secret"] =
      .file ⟨ascii "key", true, true⟩ := by decide
  have hplain : ∀ c ∈ [ascii "secret"], PlainComponent c := by
    intro c hc
    rw [List.mem_singleton.mp hc]
    exact ⟨⟨by decide, by decide, by decide⟩, by decide, by decide, by decide, by decide⟩
  exact every_file_disclosed (secretServer (ascii "key")).withNameMax 3 ⟨0, 0⟩ 4 {0, 1, 2, 3, 4}
    .zeroed (.written 100) hfile rfl hplain (by decide) (by decide) (by decide) (by decide)

end CppWebserver.WebServer
