import CppWebserver.ResponseMessages

/-!
# Answers to GET requests

The head of an answer has one line break, whatever the client sends. The body is
the served file and four bytes more. Code 200 stands for a path that exists, not
for a file that was read. The page is looked up as it stands: without
`../` it can leave the working directory only as an absolute path, and the exact
condition under which the rest of the file system stays invisible says when such
a path is harmless.
-/

namespace CppWebserver.HttpParserProgram
open ByteStrings PatternSearch DirectoryTrees ServedFiles HttpMessages

section Heads

variable (calls : List ParserCall) (env : Environment) {inData : Bytes}

/-- The answer to a GET request, unless `DetermineResourceRequest` throws. -/
theorem onData_get_result (h : ascii "GET" <+: inData) (hlong : inData ≠ ascii "GET") :
    ((HttpParser.after calls).onData env inData).result =
      .ok (((HttpParser.after calls).serving inData).craftResponseMessage
        (pageResponse env (pageName (resourceName inData (ascii "GET"))))) := by
  rw [onData_get calls env h, handleGetRequest_eq env h, if_neg hlong, map_ok]

/-- A request that reaches the GET handler throws, or its answer has a head of two
unbroken lines that ends at the empty line written after the connection. -/
theorem get_response_not_split (h : ascii "GET" <+: inData) :
    (inData = ascii "GET" ∧
        ((HttpParser.after calls).onData env inData).result = .error .outOfRange) ∨
      ∃ response out line header,
        handleGetRequest env inData = .ok response ∧
        ((HttpParser.after calls).onData env inData).result = .ok out ∧
        ((HttpParser.after calls).onData env inData).parser.messageHead response =
          line ++ crlf ++ header ∧
        Unbroken line ∧ Unbroken header ∧
        splitFirst (crlf ++ crlf) out =
          some (line ++ crlf ++ header, response.fData ++ (crlf ++ crlf)) := by
  by_cases hlong : inData = ascii "GET"
  · refine .inl ⟨hlong, ?_⟩
    rw [onData_get calls env h, handleGetRequest_eq env h, if_pos hlong, map_error]
  · have hv : Unbroken ((HttpParser.after calls).serving inData).httpVersion :=
      unbroken_getHttpVersion inData
    have hr := unbroken_pageResponse env (pageName (resourceName inData (ascii "GET")))
    refine .inr ⟨_, _, _, _, by rw [handleGetRequest_eq env h, if_neg hlong],
      onData_get_result calls env h hlong, ?_, unbroken_statusLine hv hr,
      unbroken_headerLine hr, splitFirst_craftResponseMessage hv hr⟩
    rw [HttpParser.onData_parser]
    rfl

theorem get_response_not_split_bare :
    (ascii "GET / HTTP" = ascii "GET" ∧
        ((HttpParser.after []).onData .bare (ascii "GET / HTTP")).result = .error .outOfRange) ∨
      ∃ response out line header,
        handleGetRequest .bare (ascii "GET / HTTP") = .ok response ∧
        ((HttpParser.after []).onData .bare (ascii "GET / HTTP")).result = .ok out ∧
        ((HttpParser.after []).onData .bare (ascii "GET / HTTP")).parser.messageHead response =
          line ++ crlf ++ header ∧
        Unbroken line ∧ Unbroken header ∧
        splitFirst (crlf ++ crlf) out =
          some (line ++ crlf ++ header, response.fData ++ (crlf ++ crlf)) :=
  get_response_not_split [] .bare (by decide)

end Heads

section Bodies

/-- What is copied out of a readable file. -/
theorem copied_page {env : Environment} {page : Bytes} {data : FileData}
    (hfile : env.stat (cStr page) = .file data) (hread : data.readable = true) :
    copied (env.open page (pageMode page)) =
      if extension page = ascii ".ico" ∧ data.writable = false then [] else data.content := by
  rw [pageMode]
  by_cases hico : extension page = ascii ".ico"
  · rw [if_pos hico, Environment.copied_inputOutput hfile hread]
    cases hw : data.writable <;> simp [hico]
  · rw [if_neg hico, Environment.copied_of_readable hfile hread, if_neg (fun h => hico h.1)]

theorem handleGetRequest_of_page {inData page : Bytes} (env : Environment)
    (hpage : requestedPage inData = .ok page) :
    handleGetRequest env inData = .ok (pageResponse env page) := by
  rw [handleGetRequest, hpage, ok_bind]
  rfl

theorem body_of_page (calls : List ParserCall) (env : Environment) {inData page : Bytes}
    (hget : ascii "GET" <+: inData) (hpage : requestedPage inData = .ok page) :
    ∃ out, ((HttpParser.after calls).onData env inData).result = .ok out ∧
      body out = some ((pageResponse env page).fData ++ (crlf ++ crlf)) := by
  refine ⟨_, by rw [onData_get calls env hget, handleGetRequest_of_page env hpage, map_ok], ?_⟩
  rw [body, splitFirst_craftResponseMessage (unbroken_getHttpVersion inData)
    (unbroken_pageResponse env page)]
  rfl

/-- The body is the requested file exactly when four bytes too few make up for the
four too many: an icon that cannot be opened for writing and is an empty line. -/
theorem get_body_exact_iff (calls : List ParserCall) (env : Environment) (inData page : Bytes)
    (data : FileData) (hget : ascii "GET" <+: inData) (hpage : requestedPage inData = .ok page)
    (hfile : env.stat (cStr page) = .file data) (hread : data.readable = true) :
    (∃ out, ((HttpParser.after calls).onData env inData).result = .ok out ∧
        body out = some data.content) ↔
      extension page = ascii ".ico" ∧ data.writable = false ∧ data.content = crlf ++ crlf := by
  obtain ⟨out, hout, hbody⟩ := body_of_page calls env hget hpage
  have hexists : env.exists page = true := (env.exists_iff page).2 (by simp [hfile])
  rw [pageResponse_of_exists hexists] at hbody
  change body out = some (copied (env.open page (pageMode page)) ++ (crlf ++ crlf)) at hbody
  rw [copied_page hfile hread] at hbody
  constructor
  · rintro ⟨out', hout', hbody'⟩
    rw [hout] at hout'
    cases hout'
    rw [hbody'] at hbody
    by_cases hico : extension page = ascii ".ico" ∧ data.writable = false
    · rw [if_pos hico] at hbody
      exact ⟨hico.1, hico.2, Option.some.inj hbody⟩
    · rw [if_neg hico] at hbody
      have := congrArg List.length (Option.some.inj hbody)
      simp [crlf] at this
  · rintro ⟨hico, hw, hcontent⟩
    rw [if_pos ⟨hico, hw⟩] at hbody
    exact ⟨out, hout, by rw [hbody, hcontent]; rfl⟩

/-- A server in its root directory, which holds one file. -/
def rootServer (name content : Bytes) : Environment where
  files := flat [] [(name, ⟨content, true, true⟩)]
  cwd := []
  cwd_directory := Tree.root_directory _
  unassignedCode := 0

theorem requestedPage_requestLine {p : Bytes} (hp : space ∉ p) (hdots : ¬ ascii "../" <:+: p)
    (v : Bytes) (hlen : (requestLine (ascii "GET") p v).length < 2 ^ 32) :
    requestedPage (requestLine (ascii "GET") p v) = .ok (pageName p) := by
  rw [requestedPage, determineResourceRequest_requestLine (by decide) hp hdots v hlen]
  rfl

theorem get_body_exact_iff_index :
    (∃ out, ((HttpParser.after []).onData (rootServer (ascii "index.html") (ascii "hi"))
          (requestLine (ascii "GET") [] (ascii "/1.1"))).result = .ok out ∧
        body out = some (ascii "hi")) ↔
      extension (ascii "index.html") = ascii ".ico" ∧ true = false ∧ ascii "hi" = crlf ++ crlf :=
  get_body_exact_iff [] (rootServer (ascii "index.html") (ascii "hi"))
    (requestLine (ascii "GET") [] (ascii "/1.1")) (ascii "index.html") ⟨ascii "hi", true, true⟩
    (by decide) (requestedPage_requestLine (by decide) (by decide) _ (by decide)) (by decide) rfl

/-- Two bytes of HTML arrive as six. -/
theorem index_body_not_exact :
    ¬ ∃ out, ((HttpParser.after []).onData (rootServer (ascii "index.html") (ascii "hi"))
          (ascii "GET / HTTP/1.1\r\n\r\n")).result = .ok out ∧
        body out = some (ascii "hi") := by
  have hline : ascii "GET / HTTP/1.1\r\n\r\n" =
      requestLine (ascii "GET") [] (ascii "/1.1\r\n\r\n") := by decide
  rintro ⟨out, hout, hbody⟩
  have hpage : requestedPage (ascii "GET / HTTP/1.1\r\n\r\n") = .ok (ascii "index.html") := by
    rw [hline]
    exact requestedPage_requestLine (by decide) (by decide) _ (by decide)
  obtain ⟨out', hout', hbody'⟩ := body_of_page [] (rootServer (ascii "index.html") (ascii "hi"))
    (by decide : ascii "GET" <+: ascii "GET / HTTP/1.1\r\n\r\n") hpage
  rw [hout] at hout'
  cases hout'
  rw [hbody] at hbody'
  exact absurd hbody' (by decide)

end Bodies

section Codes

/-- Code 200 stands for a regular file that may be read, with its whole content. -/
structure DeliversFile (env : Environment) (page : Bytes) (response : HttpResponse) : Prop where
  code : response.fResponseCode = 200 ↔
    ∃ data, env.stat (cStr page) = .file data ∧ data.readable = true
  content : response.fResponseCode = 200 →
    ∀ data, env.stat (cStr page) = .file data → response.fData = data.content

variable {env : Environment} {page : Bytes}

theorem deliversFile_of_absent (h : env.stat (cStr page) = .absent) :
    DeliversFile env page (pageResponse env page) := by
  have hmissing : env.exists page = false := by
    rw [Environment.exists, h]
  have hcode : (404 : UInt16) ≠ 200 := by decide
  rw [pageResponse_of_missing hmissing]
  constructor
  · refine iff_of_false hcode ?_
    rintro ⟨data, hfile, -⟩
    rw [h] at hfile
    cases hfile
  · exact fun heq => absurd heq hcode

theorem not_deliversFile_of_directory (h : env.stat (cStr page) = .directory) :
    ¬ DeliversFile env page (pageResponse env page) := by
  rw [pageResponse_of_exists ((env.exists_iff page).2 (by simp [h]))]
  intro hdelivers
  obtain ⟨data, hfile, -⟩ := hdelivers.code.1 rfl
  rw [h] at hfile
  cases hfile

theorem deliversFile_of_file_iff {data : FileData} (h : env.stat (cStr page) = .file data) :
    DeliversFile env page (pageResponse env page) ↔
      data.readable = true ∧ copied (env.open page (pageMode page)) = data.content := by
  rw [pageResponse_of_exists ((env.exists_iff page).2 (by simp [h]))]
  constructor
  · intro hdelivers
    obtain ⟨data', hfile, hread⟩ := hdelivers.code.1 rfl
    rw [h] at hfile
    cases hfile
    exact ⟨hread, hdelivers.content rfl data h⟩
  · rintro ⟨hread, hcopied⟩
    constructor
    · exact iff_of_true rfl ⟨data, h, hread⟩
    · intro _ data' hfile
      rw [h] at hfile
      cases hfile
      exact hcopied

/-- Everything is copied out of a readable file unless it is an icon that cannot be opened
for writing. -/
theorem copied_page_eq_iff {data : FileData} (h : env.stat (cStr page) = .file data)
    (hread : data.readable = true) :
    copied (env.open page (pageMode page)) = data.content ↔
      (extension page = ascii ".ico" → data.writable = true ∨ data.content = []) := by
  rw [copied_page h hread]
  by_cases hico : extension page = ascii ".ico"
  · cases hw : data.writable <;> simp [hico, eq_comm]
  · simp [hico]

/-- `HandleGetRequest` reports code 200 for delivered files only, and for all of them, exactly
when nothing exists under the path or a file that can be opened as its extension demands. -/
theorem deliversFile_iff (env : Environment) (inData page : Bytes)
    (hpage : requestedPage inData = .ok page) :
    (∃ response, handleGetRequest env inData = .ok response ∧ DeliversFile env page response) ↔
      env.stat (cStr page) = .absent ∨ ∃ data, env.stat (cStr page) = .file data ∧
        data.readable = true ∧
        (extension page = ascii ".ico" → data.writable = true ∨ data.content = []) := by
  simp only [handleGetRequest_of_page env hpage, Except.ok.injEq, exists_eq_left']
  cases hnode : env.stat (cStr page) with
  | absent => exact iff_of_true (deliversFile_of_absent hnode) (.inl rfl)
  | directory => exact iff_of_false (not_deliversFile_of_directory hnode) (by simp)
  | file data =>
    rw [deliversFile_of_file_iff hnode]
    simp only [reduceCtorEq, false_or, Node.file.injEq, exists_eq_left']
    exact and_congr_right fun hread => copied_page_eq_iff hnode hread

theorem deliversFile_iff_index :
    (∃ response, handleGetRequest (rootServer (ascii "index.html") (ascii "hi"))
          (requestLine (ascii "GET") [] (ascii "/1.1")) = .ok response ∧
        DeliversFile (rootServer (ascii "index.html") (ascii "hi")) (ascii "index.html")
          response) ↔
      (rootServer (ascii "index.html") (ascii "hi")).stat (cStr (ascii "index.html")) = .absent ∨
        ∃ data, (rootServer (ascii "index.html") (ascii "hi")).stat (cStr (ascii "index.html")) =
            .file data ∧ data.readable = true ∧
          (extension (ascii "index.html") = ascii ".ico" →
            data.writable = true ∨ data.content = []) :=
  deliversFile_iff (rootServer (ascii "index.html") (ascii "hi"))
    (requestLine (ascii "GET") [] (ascii "/1.1")) (ascii "index.html")
    (requestedPage_requestLine (by decide) (by decide) _ (by decide))

/-- A server in its root directory, which holds one directory. -/
def directoryServer (name : Bytes) : Environment where
  files := flat [name] []
  cwd := []
  cwd_directory := Tree.root_directory _
  unassignedCode := 0

/-- A directory is answered with code 200 and nothing. -/
theorem directory_answered_ok :
    ¬ ∃ response, handleGetRequest (directoryServer (ascii "docs"))
        (ascii "GET /docs HTTP/1.1\r\n\r\n") = .ok response ∧
      DeliversFile (directoryServer (ascii "docs")) (ascii "docs") response := by
  rintro ⟨response, hresponse, hdelivers⟩
  have hline : ascii "GET /docs HTTP/1.1\r\n\r\n" =
      requestLine (ascii "GET") (ascii "docs") (ascii "/1.1\r\n\r\n") := by decide
  have hpage : requestedPage (ascii "GET /docs HTTP/1.1\r\n\r\n") = .ok (ascii "docs") := by
    rw [hline]
    exact requestedPage_requestLine (by decide) (by decide) _ (by decide)
  rw [handleGetRequest_of_page _ hpage] at hresponse
  cases hresponse
  exact not_deliversFile_of_directory (by decide) hdelivers

end Codes

section Confinement

/-- Requests whose path cannot leave the line of the working directory: when the
traversal scan has done its work, the target does not begin with two slashes, or
the names of the absolute path after the first of them lie on that line. -/
def RootConfined (cwd : List Bytes) (inData : Bytes) : Prop :=
  ∀ k, TraversalCut (requestTarget inData (ascii "GET")) k →
    [slash, slash] <+: (requestTarget inData (ascii "GET")).drop (3 * k) →
    OnLine cwd (names (pathMoves (cStr ((requestTarget inData (ascii "GET")).drop (3 * k + 1)))))

/-- The answer depends on nothing above or beside the working directory. -/
def Noninterferent (calls : List ParserCall) (cwd : List Bytes) (inData : Bytes) : Prop :=
  ∀ env env' : Environment, env.cwd = cwd → env'.cwd = cwd →
    AgreeBelow cwd env.files env'.files →
    ((HttpParser.after calls).onData env inData).result =
      ((HttpParser.after calls).onData env' inData).result

/-- The same on the page that is looked up. -/
def PathConfined (cwd : List Bytes) (page : Bytes) : Prop :=
  [slash] <+: page → OnLine cwd (names (pathMoves (cStr page)))

theorem no_traversal_pageName (inData m : Bytes) :
    ¬ ascii "../" <:+: pageName (resourceName inData m) := by
  rw [pageName]
  split
  · decide
  · intro h
    rw [resourceName, withoutSlash] at h
    split at h
    · exact withoutTraversal_no_traversal _ (h.trans (List.drop_suffix _ _).isInfix)
    · exact withoutTraversal_no_traversal _ h

theorem pageName_withoutSlash_of_slashes {rest : Bytes} (h : [slash, slash] <+: rest) :
    pageName (withoutSlash rest) = rest.drop 1 := by
  obtain ⟨t, rfl⟩ := h
  rfl

/-- The page is absolute exactly when two slashes are left of the target. -/
theorem absolute_pageName_iff (rest : Bytes) :
    [slash] <+: pageName (withoutSlash rest) ↔ [slash, slash] <+: rest := by
  have hindex : ¬ [slash] <+: ascii "index.html" := by decide
  constructor
  · intro h
    cases rest with
    | nil => exact absurd h hindex
    | cons a rest =>
      by_cases ha : a = slash
      · subst ha
        rw [withoutSlash_slash] at h
        cases rest with
        | nil => exact absurd h hindex
        | cons b rest =>
          change [slash] <+: b :: rest at h
          exact List.cons_prefix_cons.mpr ⟨rfl, h⟩
      · rw [withoutSlash_of_ne ha] at h
        exact absurd (List.cons_prefix_cons.mp h).1.symm ha
  · intro h
    rw [pageName_withoutSlash_of_slashes h]
    obtain ⟨t, rfl⟩ := h
    exact ⟨t, rfl⟩

theorem rootConfined_iff (cwd : List Bytes) (inData : Bytes) :
    RootConfined cwd inData ↔
      PathConfined cwd (pageName (resourceName inData (ascii "GET"))) := by
  obtain ⟨k, hk, -, -⟩ := exists_traversalCut (requestTarget inData (ascii "GET"))
  rw [PathConfined, resourceName, hk.withoutTraversal_eq, absolute_pageName_iff]
  constructor
  · intro h hslashes
    rw [pageName_withoutSlash_of_slashes hslashes, List.drop_drop]
    exact h k hk hslashes
  · intro h l hl hslashes
    obtain rfl := hl.unique hk
    have := h hslashes
    rwa [pageName_withoutSlash_of_slashes hslashes, List.drop_drop] at this

theorem slash_isPrefix_cStr_iff (page : Bytes) : [slash] <+: cStr page ↔ [slash] <+: page := by
  constructor
  · exact fun h => h.trans (cStr_isPrefix page)
  · rintro ⟨t, rfl⟩
    exact ⟨cStr t, rfl⟩

/-- A confined path looks the same in file systems that agree below the working
directory: it goes up at most as its last step. -/
theorem stat_eq_of_pathConfined {env env' : Environment} {page : Bytes}
    (hcwd : env'.cwd = env.cwd) (hagree : AgreeBelow env.cwd env.files env'.files)
    (hdots : ¬ ascii "../" <:+: page) (h : PathConfined env.cwd page) :
    env.stat (cStr page) = env'.stat (cStr page) := by
  have hmoves : Descends (pathMoves (cStr page)) :=
    descends_pathMoves (fun hin => hdots (hin.trans (cStr_isPrefix page).isInfix))
  rw [Environment.stat, Environment.stat, hcwd]
  split
  · rfl
  · refine hagree.find_eq env.cwd_directory hmoves ?_
    rw [startOf]
    split
    · next habs => exact h ((slash_isPrefix_cStr_iff page).1 habs)
    · exact .inr (List.prefix_append _ _)

/-- A working directory among empty directories. -/
def emptyServer (cwd : List Bytes) (dirs : List (List Bytes)) (hcwd : cwd ∈ dirs) :
    Environment where
  files := skeleton dirs
  cwd
  cwd_directory := skeleton_directory hcwd List.prefix_rfl
  unassignedCode := 0

/-- Off the line of the working directory an absolute path tells whether there is
a directory. -/
theorem exists_of_not_pathConfined {cwd : List Bytes} {page : Bytes}
    (hdots : ¬ ascii "../" <:+: page) (habs : [slash] <+: page)
    (hoff : ¬ OnLine cwd (names (pathMoves (cStr page)))) :
    (emptyServer cwd [cwd, names (pathMoves (cStr page))] (by simp)).exists page = true ∧
      (emptyServer cwd [cwd] (by simp)).exists page = false := by
  have hmoves : Descends (pathMoves (cStr page)) :=
    descends_pathMoves (fun hin => hdots (hin.trans (cStr_isPrefix page).isInfix))
  have hstart := (slash_isPrefix_cStr_iff page).2 habs
  have hne : cStr page ≠ [] := by
    intro h
    rw [h] at hstart
    exact absurd hstart (by decide)
  constructor
  · have hdir : (emptyServer cwd [cwd, names (pathMoves (cStr page))] (by simp)).stat (cStr page) =
        .directory := by
      rw [Environment.stat, if_neg hne, startOf, if_pos hstart]
      refine Tree.find_eq_directory _ [] _ hmoves ?_
      intro q hq
      exact skeleton_directory (by simp) hq
    rw [Environment.exists_iff, hdir]
    simp
  · have habsent : (emptyServer cwd [cwd] (by simp)).stat (cStr page) = .absent := by
      rw [Environment.stat, if_neg hne, startOf, if_pos hstart]
      exact Tree.find_eq_absent _ [] _ hmoves (skeleton_absent hoff)
    rw [Environment.exists, habsent]

/-- A bare `GET` is confined, since it names nothing, and throws anywhere. -/
theorem rootConfined_get (cwd : List Bytes) : RootConfined cwd (ascii "GET") := by
  intro k _ hslashes
  have hnil : requestTarget (ascii "GET") (ascii "GET") = [] := by
    rw [requestTarget, List.drop_eq_nil_of_le (by decide), List.take_nil]
  rw [hnil, List.drop_nil] at hslashes
  exact absurd hslashes (by decide)

theorem noninterferent_get (calls : List ParserCall) (cwd : List Bytes) :
    Noninterferent calls cwd (ascii "GET") := by
  intro env env' _ _ _
  have hget : ascii "GET" <+: ascii "GET" := List.prefix_rfl
  rw [onData_get calls env hget, onData_get calls env' hget, handleGetRequest_eq env hget,
    handleGetRequest_eq env' hget, if_pos rfl, if_pos rfl]

/-- An absolute path off the line of the working directory gives away whether there
is a directory. -/
theorem pathConfined_of_noninterferent {calls : List ParserCall} {cwd : List Bytes}
    {inData : Bytes} (hget : ascii "GET" <+: inData) (hlong : inData ≠ ascii "GET")
    (h : Noninterferent calls cwd inData) :
    PathConfined cwd (pageName (resourceName inData (ascii "GET"))) := by
  intro habs
  by_contra hoff
  obtain ⟨htrue, hfalse⟩ :=
    exists_of_not_pathConfined (no_traversal_pageName inData (ascii "GET")) habs hoff
  have heq := h (emptyServer cwd [cwd, names (pathMoves (cStr
    (pageName (resourceName inData (ascii "GET")))))] (by simp))
    (emptyServer cwd [cwd] (by simp)) rfl rfl (skeleton_agreeBelow hoff)
  rw [onData_get_result calls _ hget hlong, onData_get_result calls _ hget hlong] at heq
  have hcode := fResponseCode_eq_of_message_eq (Except.ok.inj heq)
  rw [pageResponse_of_exists htrue, pageResponse_of_missing hfalse] at hcode
  change (200 : UInt16) = 404 at hcode
  exact absurd hcode (by decide)

/-- A GET request reveals nothing outside the working directory exactly when the
cleaned target is no absolute path off its line. -/
theorem noninterferent_iff (calls : List ParserCall) (cwd : List Bytes) (inData : Bytes)
    (hget : ascii "GET" <+: inData) :
    Noninterferent calls cwd inData ↔ RootConfined cwd inData := by
  by_cases hlong : inData = ascii "GET"
  · rw [hlong]
    exact ⟨fun _ => rootConfined_get cwd, fun _ => noninterferent_get calls cwd⟩
  rw [rootConfined_iff]
  constructor
  · exact pathConfined_of_noninterferent hget hlong
  · rintro h env env' rfl hcwd hagree
    rw [onData_get_result calls _ hget hlong, onData_get_result calls _ hget hlong,
      pageResponse_congr
        (stat_eq_of_pathConfined hcwd hagree (no_traversal_pageName inData (ascii "GET")) h)]

theorem noninterferent_iff_index :
    Noninterferent [] [ascii "srv"] (ascii "GET / HTTP/1.1\r\n\r\n") ↔
      RootConfined [ascii "srv"] (ascii "GET / HTTP/1.1\r\n\r\n") :=
  noninterferent_iff [] [ascii "srv"] (ascii "GET / HTTP/1.1\r\n\r\n") (by decide)

/-- A server in `/srv`, beside a file `/secret`. -/
def secretServer (content : Bytes) : Environment where
  files := flat [ascii "srv"] [(ascii "secret", ⟨content, true, true⟩)]
  cwd := [ascii "srv"]
  cwd_directory := rfl
  unassignedCode := 0

theorem secretServer_agreeBelow (a b : Bytes) :
    AgreeBelow [ascii "srv"] (secretServer a).files (secretServer b).files := by
  rintro p ⟨t, rfl⟩
  cases t with
  | nil => rfl
  | cons c t => rfl

/-- A second slash reaches a file outside the working directory. -/
theorem absolute_target_leaks :
    ¬ Noninterferent [] [ascii "srv"] (ascii "GET //secret HTTP/1.1\r\n\r\n") := by
  intro h
  have hline : ascii "GET //secret HTTP/1.1\r\n\r\n" =
      requestLine (ascii "GET") (ascii "/secret") (ascii "/1.1\r\n\r\n") := by decide
  have hpage : requestedPage (ascii "GET //secret HTTP/1.1\r\n\r\n") = .ok (ascii "/secret") := by
    rw [hline]
    exact requestedPage_requestLine (by decide) (by decide) _ (by decide)
  have hsame := h (secretServer (ascii "a")) (secretServer (ascii "b")) rfl rfl
    (secretServer_agreeBelow _ _)
  obtain ⟨out, hout, hbody⟩ := body_of_page [] (secretServer (ascii "a")) (by decide) hpage
  obtain ⟨out', hout', hbody'⟩ :=
    body_of_page [] (secretServer (ascii "b")) (by decide) hpage
  rw [hout, hout'] at hsame
  cases hsame
  rw [hbody] at hbody'
  exact absurd hbody' (by decide)

end Confinement

end CppWebserver.HttpParserProgram
