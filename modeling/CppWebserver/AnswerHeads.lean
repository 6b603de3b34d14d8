import CppWebserver.RequestLines
import CppWebserver.WebServer

/-!
# What a browser reads

The head of an answer gives the version of the request, the status and one header, in which
the connection has become a part of the content type. A browser gets it in every
conversation as far as `write` takes it, also where there is no page or nobody has
registered for the path.
-/

namespace CppWebserver.WebServer
open ByteStrings Conversations HttpMessages HttpParserProgram LabelledRuns ServedFiles SocketReadLoop
open FailingLookups hiding handleGetRequest
open SocketServer hiding step

/-- The response to a GET or POST request for `/p`. -/
def response (env : Environment) (m p : Bytes) : HttpResponse :=
  if m = ascii "GET" then pageResponse env (pageName p)
  else if p = ascii "test" then
    ⟨200, ascii "OK", ascii "text/plain", ascii "close", ascii "Received POST!"⟩
  else .unassigned env.unassignedCode

/-- The head of a message that renders a response. -/
def headOf (version : Bytes) (inResponse : HttpResponse) : Head :=
  ⟨version, inResponse.fResponseCode.toNat, inResponse.fDescription,
    [(ascii "Content-Type",
      inResponse.fContentType ++ (ascii " Connection: " ++ inResponse.fConnection))]⟩

variable {m p version : Bytes}

theorem unbroken_response (env : Environment) (m p : Bytes) : (response env m p).Unbroken := by
  rw [response]
  split_ifs
  · exact unbroken_pageResponse env _
  · exact ⟨⟨by decide, by decide⟩, ⟨by decide, by decide⟩, ⟨by decide, by decide⟩⟩
  · exact ⟨⟨List.not_mem_nil, List.not_mem_nil⟩, ⟨List.not_mem_nil, List.not_mem_nil⟩,
      ⟨List.not_mem_nil, List.not_mem_nil⟩⟩

theorem tokenLine_eq_requestLine (m p v rest : Bytes) :
    tokenLine m (slash :: p) (ascii "HTTP" ++ v) rest = requestLine m p (v ++ (crlf ++ rest)) := by
  have hhttp : ascii " HTTP" = space :: ascii "HTTP" := by decide
  simp [tokenLine, requestLine, hhttp]

/-- A target whose name neither ends the line nor looks like a version. -/
structure PlainName (p : Bytes) : Prop where
  space_notMem : space ∉ p
  unbroken : Unbroken p
  no_traversal : ¬ ascii "../" <:+: p
  no_http : ¬ ascii "HTTP" <:+: slash :: p

structure PlainVersion (version : Bytes) : Prop where
  http_isPrefix : ascii "HTTP" <+: version
  space_notMem : space ∉ version
  unbroken : Unbroken version

section Responses

variable {machine : Machine}

/-- The message renders the response, with the version of the request. -/
theorem aThingy_tokenLine (hm : m = ascii "GET" ∨ m = ascii "POST") (hp : PlainName p)
    (hversion : PlainVersion version) (rest : Bytes)
    (hlength : (tokenLine m (slash :: p) version rest).length < 2 ^ 32)
    (hlookup : m = ascii "GET" → machine.statFails (cStr (pageName p)) = false) :
    ∃ self : HttpParser, self.httpVersion = version ∧
      aThingy machine (tokenLine m (slash :: p) version rest) =
        .ok (self.craftResponseMessage (response machine.toEnvironment m p)) := by
  have hmethod : Unbroken m ∧ ¬ ascii "HTTP" <:+: m := by
    rcases hm with rfl | rfl
    · exact ⟨⟨by decide, by decide⟩, by decide⟩
    · exact ⟨⟨by decide, by decide⟩, by decide⟩
  have hslash : Unbroken (slash :: p) := by
    have hone : Unbroken [slash] := ⟨by decide, by decide⟩
    exact hone.append hp.unbroken
  refine ⟨(HttpParser.after parserCalls).serving (tokenLine m (slash :: p) version rest), ?_, ?_⟩
  · exact (getHttpVersion_tokenLine hmethod.1 hslash hversion.unbroken hversion.http_isPrefix
      rest).mpr ⟨hmethod.2, hp.no_http⟩
  · obtain ⟨v, rfl⟩ := hversion.http_isPrefix
    rw [tokenLine_eq_requestLine] at hlength ⊢
    rcases hm with rfl | rfl
    · have hget : ascii "GET" <+: requestLine (ascii "GET") p (v ++ (crlf ++ rest)) :=
        List.prefix_append _ _
      have hpage := requestedPage_requestLine hp.space_notMem hp.no_traversal _ hlength
      rw [aThingy_of_not_lookupFails (not_lookupFails_of_page hpage (hlookup rfl)),
        onData_get parserCalls _ hget, handleGetRequest_of_page _ hpage, map_ok]
      rfl
    · rw [aThingy_of_not_lookupFails (not_lookupFails_post _ _),
        onData_post_requestLine parserCalls _ hp.space_notMem hp.no_traversal _ hlength]
      have hpost : ascii "POST" ≠ ascii "GET" := by decide
      by_cases htest : p = ascii "test"
      · rw [response, if_neg hpost, if_pos htest, htest]
        rfl
      · rw [response, if_neg hpost, if_neg htest]
        have hlookup : (registrations parserCalls).lookup p = none := by
          apply List.lookup_eq_none_iff.mpr
          intro rc hrc
          rw [List.mem_singleton.mp hrc]
          simpa using htest
        simp only [hlookup]

/-- The head and the body of the answer to a request with a plain name and a plain version. -/
theorem readHead_aThingy_tokenLine (hm : m = ascii "GET" ∨ m = ascii "POST") (hp : PlainName p)
    (hversion : PlainVersion version) (rest : Bytes)
    (hlength : (tokenLine m (slash :: p) version rest).length < 2 ^ 32)
    (hlookup : m = ascii "GET" → machine.statFails (cStr (pageName p)) = false) :
    ∃ answer, aThingy machine (tokenLine m (slash :: p) version rest) = .ok answer ∧
      readHead answer = some (headOf version (response machine.toEnvironment m p)) ∧
        body answer = some ((response machine.toEnvironment m p).fData ++ (crlf ++ crlf)) := by
  obtain ⟨self, hself, hanswer⟩ := aThingy_tokenLine hm hp hversion rest hlength hlookup
  have hspace : space ∉ self.httpVersion := hself ▸ hversion.space_notMem
  have hunbroken : Unbroken self.httpVersion := hself ▸ hversion.unbroken
  have hresponse := unbroken_response machine.toEnvironment m p
  refine ⟨_, hanswer, ?_, ?_⟩
  · rw [readHead_craftResponseMessage hspace hunbroken hresponse, hself]
    rfl
  · rw [body, splitFirst_craftResponseMessage hunbroken hresponse]
    rfl

end Responses

/-- Whatever a GET or POST request is cut into and however slowly the browser reads, it gets what
`write` takes of an answer with the version of its request and the status of the response: 200
for a page, 404 without one, for a POST request 200 under `/test` and elsewhere a number that
nobody has chosen. -/
theorem answer_read (machine : Machine) (sockfd : ℤ) (clientSocket : SockaddrIn) (connfd : ℤ)
    (fds : Finset ℤ) (stack : CharBuffer) (result : WriteResult) {rest : Bytes}
    (hm : m = ascii "GET" ∨ m = ascii "POST") (hp : PlainName p) (hversion : PlainVersion version)
    (hends : EndsOnce (crlf ++ crlf) (tokenLine m (slash :: p) version rest))
    (hnul : 0 ∉ tokenLine m (slash :: p) version rest)
    (hlength : (tokenLine m (slash :: p) version rest).length ≤ bufSize)
    (hlookup : m = ascii "GET" → machine.statFails (cStr (pageName p)) = false) :
    ∃ answer, readHead answer = some (headOf version (response machine.toEnvironment m p)) ∧
      body answer = some ((response machine.toEnvironment m p).fData ++ (crlf ++ crlf)) ∧
      ∀ s, EndsIn (step (aSocket machine sockfd))
          (start clientSocket connfd fds stack (tokenLine m (slash :: p) version rest) result) s →
        s.client = .sawEnd ∧ s.received = result.taken answer := by
  obtain ⟨answer, hanswer, hhead, hbody⟩ :=
    readHead_aThingy_tokenLine hm hp hversion rest (hlength.trans_lt (by decide)) hlookup
  refine ⟨answer, hhead, hbody, ?_⟩
  intro s hend
  exact taken_of_endsOnce rfl hnul hlength (by decide) hends hanswer hend

theorem answer_read_missing :
    ∃ answer, readHead answer = some (headOf (ascii "HTTP/1.1") notFound) ∧
      ∀ s, EndsIn (step (aSocket (rootServer (ascii "index.html") (ascii "hi")).withNameMax 3))
          (start ⟨0, 0⟩ 4 {0, 1, 2, 3, 4} .zeroed
            (tokenLine (ascii "GET") (slash :: ascii "page2") (ascii "HTTP/1.1") crlf)
            (.written 200)) s →
        s.client = .sawEnd ∧ s.received = (WriteResult.written 200).taken answer := by
  have hmissing : (rootServer (ascii "index.html") (ascii "hi")).exists (pageName (ascii "page2")) =
      false := by decide
  have hresponse : response (rootServer (ascii "index.html") (ascii "hi")) (ascii "GET")
      (ascii "page2") = notFound := by
    rw [response, if_pos rfl, pageResponse_of_missing hmissing]
  have hname : PlainName (ascii "page2") :=
    ⟨by decide, ⟨by decide, by decide⟩, by decide, by decide⟩
  have hversion : PlainVersion (ascii "HTTP/1.1") :=
    ⟨by decide, by decide, ⟨by decide, by decide⟩⟩
  have hends : EndsOnce (crlf ++ crlf)
      (tokenLine (ascii "GET") (slash :: ascii "page2") (ascii "HTTP/1.1") crlf) :=
    endsOnce_of_inits (by decide) (by decide)
  obtain ⟨answer, hhead, -, hgets⟩ :=
    answer_read (rootServer (ascii "index.html") (ascii "hi")).withNameMax 3 ⟨0, 0⟩ 4
      {0, 1, 2, 3, 4} .zeroed (.written 200) (.inl rfl) hname hversion hends (by decide) (by decide)
      fun _ => by decide
  refine ⟨answer, ?_, hgets⟩
  rw [← hresponse]
  exact hhead

end CppWebserver.WebServer
