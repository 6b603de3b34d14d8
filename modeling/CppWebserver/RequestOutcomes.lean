import CppWebserver.ResponseMessages

/-!
# When a request returns, whom it calls and what status it reports

Four questions about one request after an arbitrary history of calls. A request
fails to return only when it is a bare method name. The callback that answers a
path is the first one registered, so routing is right where that is also the most
recent one. A POST request to an unregistered path reports a code nobody chose.
Of the history itself nothing but the registrations is left when a request comes.
-/

namespace CppWebserver.HttpParserProgram
open ByteStrings PatternSearch Numerals ServedFiles

/-- No registered callback throws. -/
def CallbacksReturn (calls : List ParserCall) : Prop :=
  ∀ rc ∈ registrations calls, ∀ inRequest, ∃ response, rc.2 inRequest = .ok response

theorem mem_registrations_of_lookup {calls : List ParserCall} {p : Bytes} {callback : HttpCallback}
    (h : (registrations calls).lookup p = some callback) :
    (p, callback) ∈ registrations calls := by
  obtain ⟨l₁, l₂, hl, -⟩ := List.lookup_eq_some_iff.mp h
  simp [hl]

theorem postOutcome_returns {calls : List ParserCall} (hreturn : CallbacksReturn calls)
    (env : Environment) (inData : Bytes) :
    ∃ response, (((HttpParser.after calls).serving inData).postOutcome env inData).result =
      .ok response := by
  rw [HttpParser.postOutcome, HttpParser.serving_postCallbacks, postCallbacks_after]
  cases hl : (registrations calls).lookup (resourceName inData (ascii "POST")) with
  | none => exact ⟨_, rfl⟩
  | some callback => exact hreturn _ (mem_registrations_of_lookup hl) inData

section Returns

variable {calls : List ParserCall} (hreturn : CallbacksReturn calls) (env : Environment)
  {inData : Bytes}

theorem onData_get_returns_iff (h : ascii "GET" <+: inData) :
    (∃ out, ((HttpParser.after calls).onData env inData).result = .ok out) ↔
      inData ≠ ascii "GET" := by
  rw [onData_get calls env h, handleGetRequest_eq env h]
  by_cases hb : inData = ascii "GET"
  · rw [if_pos hb]
    exact ⟨fun ho => (nomatch ho), fun hne => absurd hb hne⟩
  · rw [if_neg hb]
    exact ⟨fun _ => hb, fun _ => ⟨_, rfl⟩⟩

include hreturn in
theorem onData_post_returns_iff (h : ascii "POST" <+: inData) :
    (∃ out, ((HttpParser.after calls).onData env inData).result = .ok out) ↔
      inData ≠ ascii "POST" := by
  rw [onData_post calls env h, handlePostRequest_eq _ env h]
  by_cases hb : inData = ascii "POST"
  · rw [if_pos hb]
    exact ⟨fun ho => (nomatch ho), fun hne => absurd hb hne⟩
  · rw [if_neg hb]
    obtain ⟨response, hr⟩ := postOutcome_returns hreturn env inData
    rw [hr]
    exact ⟨fun _ => hb, fun _ => ⟨_, rfl⟩⟩

end Returns

/-- `OnData` returns on every request but the two bare method names. -/
theorem onData_returns_iff (calls : List ParserCall) (hreturn : CallbacksReturn calls)
    (env : Environment) (inData : Bytes) :
    (∃ out, ((HttpParser.after calls).onData env inData).result = .ok out) ↔
      inData ≠ ascii "GET" ∧ inData ≠ ascii "POST" := by
  by_cases hg : ascii "GET" <+: inData
  · have hpost : inData ≠ ascii "POST" := by
      rintro rfl
      exact absurd hg (by decide)
    rw [onData_get_returns_iff env hg]
    exact ⟨fun h => ⟨h, hpost⟩, fun h => h.1⟩
  have hget : inData ≠ ascii "GET" := by
    rintro rfl
    exact hg List.prefix_rfl
  by_cases hp : ascii "POST" <+: inData
  · rw [onData_post_returns_iff hreturn env hp]
    exact ⟨fun h => ⟨hget, h⟩, fun h => h.2⟩
  · rw [onData_other calls env hg hp]
    refine ⟨fun _ => ⟨hget, ?_⟩, fun _ => ⟨[], rfl⟩⟩
    rintro rfl
    exact hp List.prefix_rfl

/-- A callback that answers every request alike. -/
def constantCallback (code : UInt16) (data : Bytes) : HttpCallback :=
  fun _ => .ok ⟨code, ascii "OK", ascii "text/plain", ascii "close", data⟩

theorem onData_returns_with_callback :
    (∃ out, ((HttpParser.after [.setPostRequestHandler (ascii "test")
      (constantCallback 200 [])]).onData .bare (ascii "POST /test HTTP/1.1")).result = .ok out) ↔
      ascii "POST /test HTTP/1.1" ≠ ascii "GET" ∧ ascii "POST /test HTTP/1.1" ≠ ascii "POST" :=
  onData_returns_iff [.setPostRequestHandler (ascii "test") (constantCallback 200 [])]
    (fun rc hrc inRequest => by
      rw [List.mem_singleton.mp hrc]
      exact ⟨_, rfl⟩) .bare (ascii "POST /test HTTP/1.1")

/-- A request that breaks off right after `GET` makes `substr` throw. -/
theorem bare_get_throws :
    ¬ ∀ inData, ∃ out, (HttpParser.new.onData .bare inData).result = .ok out := by
  intro h
  obtain ⟨out, ho⟩ := h (ascii "GET")
  have hthrow : (HttpParser.new.onData .bare (ascii "GET")).result = .error .outOfRange := rfl
  rw [hthrow] at ho
  cases ho

/-- What registration promises: the most recent callback for the path, called once
with the whole request and its response rendered, and no call without one. -/
def RoutedToLatest (calls : List ParserCall) (env : Environment) (p inData : Bytes) : Prop :=
  let reply := (HttpParser.after calls).onData env inData
  match (registrations calls).reverse.lookup p with
  | some callback => reply.invocations = [⟨callback, inData⟩] ∧
      reply.result = (callback inData).map reply.parser.craftResponseMessage
  | none => reply.invocations = []

/-- A request to `/p` calls the first callback registered for `p`, if there is one. -/
theorem onData_post_requestLine (calls : List ParserCall) (env : Environment) {p : Bytes}
    (hp : space ∉ p) (hdots : ¬ ascii "../" <:+: p) (v : Bytes)
    (hlen : (requestLine (ascii "POST") p v).length < 2 ^ 32) :
    (HttpParser.after calls).onData env (requestLine (ascii "POST") p v) =
      let self := (HttpParser.after calls).serving (requestLine (ascii "POST") p v)
      match (registrations calls).lookup p with
      | some callback => ⟨self, [⟨callback, requestLine (ascii "POST") p v⟩],
          (callback (requestLine (ascii "POST") p v)).map self.craftResponseMessage⟩
      | none => ⟨self, [], .ok (self.craftResponseMessage (.unassigned env.unassignedCode))⟩ := by
  have hpost : ascii "POST" <+: requestLine (ascii "POST") p v := List.prefix_append _ _
  rw [onData_post calls env hpost, HttpParser.handlePostRequest,
    determineResourceRequest_requestLine (by decide) hp hdots v hlen]
  simp only [HttpParser.serving_postCallbacks, postCallbacks_after]
  cases (registrations calls).lookup p <;> rfl

theorem lookup_reverse_eq_none_iff {α β : Type} [BEq α] [LawfulBEq α] (a : α)
    (l : List (α × β)) : l.reverse.lookup a = none ↔ l.lookup a = none := by
  simp [List.lookup_eq_none_iff]

theorem RoutedToLatest.first_eq_last {calls : List ParserCall} {env : Environment} {p v : Bytes}
    (hp : space ∉ p) (hdots : ¬ ascii "../" <:+: p)
    (hlen : (requestLine (ascii "POST") p v).length < 2 ^ 32)
    (h : RoutedToLatest calls env p (requestLine (ascii "POST") p v)) :
    (registrations calls).lookup p = (registrations calls).reverse.lookup p := by
  simp only [RoutedToLatest, onData_post_requestLine calls env hp hdots v hlen] at h
  cases hlast : (registrations calls).reverse.lookup p with
  | none => exact (lookup_reverse_eq_none_iff p _).1 hlast
  | some callback =>
    rw [hlast] at h
    cases hfirst : (registrations calls).lookup p with
    | none =>
      rw [(lookup_reverse_eq_none_iff p _).2 hfirst] at hlast
      cases hlast
    | some callback' =>
      rw [hfirst] at h
      have hinv := List.singleton_inj.mp h.1
      rw [(Invocation.mk.inj hinv).1]

/-- Routing is right exactly when the first registration for the path is also the
most recent one. -/
theorem routedToLatest_iff (calls : List ParserCall) (env : Environment) (p v : Bytes)
    (hp : space ∉ p) (hdots : ¬ ascii "../" <:+: p)
    (hlen : (requestLine (ascii "POST") p v).length < 2 ^ 32) :
    RoutedToLatest calls env p (requestLine (ascii "POST") p v) ↔
      (registrations calls).lookup p = (registrations calls).reverse.lookup p := by
  constructor
  · exact RoutedToLatest.first_eq_last hp hdots hlen
  · intro h
    simp only [RoutedToLatest, onData_post_requestLine calls env hp hdots v hlen, ← h]
    cases (registrations calls).lookup p with
    | none => rfl
    | some callback => exact ⟨rfl, rfl⟩

theorem routedToLatest_single :
    RoutedToLatest [.setPostRequestHandler (ascii "test") (constantCallback 200 [])] .bare
        (ascii "test") (requestLine (ascii "POST") (ascii "test") (ascii "/1.1")) ↔
      (registrations [.setPostRequestHandler (ascii "test") (constantCallback 200 [])]).lookup
          (ascii "test") =
        (registrations [.setPostRequestHandler (ascii "test")
          (constantCallback 200 [])]).reverse.lookup (ascii "test") :=
  routedToLatest_iff [.setPostRequestHandler (ascii "test") (constantCallback 200 [])] .bare
    (ascii "test") (ascii "/1.1") (by decide) (by decide) (by decide)

/-- Registering a path again is lost: the old callback keeps answering. -/
theorem second_registration_lost :
    ¬ RoutedToLatest [.setPostRequestHandler (ascii "test") (constantCallback 200 (ascii "old")),
        .setPostRequestHandler (ascii "test") (constantCallback 200 (ascii "new"))] .bare
      (ascii "test") (ascii "POST /test HTTP/1.1\r\n\r\n") := by
  have hline : ascii "POST /test HTTP/1.1\r\n\r\n" =
      requestLine (ascii "POST") (ascii "test") (ascii "/1.1\r\n\r\n") := by decide
  rw [hline]
  intro h
  have hcallbacks : some (constantCallback 200 (ascii "old")) =
      some (constantCallback 200 (ascii "new")) :=
    h.first_eq_last (by decide) (by decide) (by decide)
  have hcall := congrFun (Option.some.inj hcallbacks) []
  exact absurd (HttpResponse.mk.inj (Except.ok.inj hcall)).2.2.2.2 (by decide)

/-- A status line a client can make sense of. -/
def HttpResponse.GoodStatus (response : HttpResponse) : Prop :=
  100 ≤ response.fResponseCode.toNat ∧ response.fResponseCode.toNat ≤ 599 ∧
    response.fDescription ≠ []

/-- Every registered callback chooses a status. -/
def CallbacksChooseStatus (calls : List ParserCall) : Prop :=
  ∀ rc ∈ registrations calls, ∀ inRequest,
    ∃ response, rc.2 inRequest = .ok response ∧ response.GoodStatus

/-- The answer renders one response with a good status, whatever an unassigned
code happens to be. -/
def StatusChosen (calls : List ParserCall) (env : Environment) (inData : Bytes) : Prop :=
  ∃ response : HttpResponse, response.GoodStatus ∧ ∀ code,
    ((HttpParser.after calls).onData { env with unassignedCode := code } inData).result =
      .ok (((HttpParser.after calls).serving inData).craftResponseMessage response)

theorem pageResponse_goodStatus (env : Environment) (page : Bytes) :
    (pageResponse env page).GoodStatus := by
  have hok : (ascii "OK") ≠ [] := by decide
  cases he : env.exists page with
  | true =>
    rw [pageResponse_of_exists he]
    exact ⟨Nat.le_of_ble_eq_true rfl, Nat.le_of_ble_eq_true rfl, hok⟩
  | false =>
    rw [pageResponse_of_missing he]
    exact ⟨by decide, by decide, by decide⟩

theorem statusChosen_get (calls : List ParserCall) (env : Environment) {inData : Bytes}
    (h : ascii "GET" <+: inData) (hlong : inData ≠ ascii "GET") :
    StatusChosen calls env inData := by
  refine ⟨pageResponse env (pageName (resourceName inData (ascii "GET"))),
    pageResponse_goodStatus _ _, ?_⟩
  intro code
  rw [onData_get calls _ h, handleGetRequest_eq _ h, if_neg hlong, map_ok]
  exact congrArg (fun r => Except.ok (HttpParser.craftResponseMessage _ r)) (pageResponse_congr rfl)

theorem statusChosen_post_iff (calls : List ParserCall) (hgood : CallbacksChooseStatus calls)
    (env : Environment) {inData : Bytes} (h : ascii "POST" <+: inData)
    (hlong : inData ≠ ascii "POST") :
    StatusChosen calls env inData ↔
      ∃ callback, (resourceName inData (ascii "POST"), callback) ∈ registrations calls := by
  have hresult : ∀ code,
      ((HttpParser.after calls).onData { env with unassignedCode := code } inData).result =
        (match (registrations calls).lookup (resourceName inData (ascii "POST")) with
        | some callback => callback inData
        | none => .ok (.unassigned code)).map
          ((HttpParser.after calls).serving inData).craftResponseMessage := by
    intro code
    rw [onData_post calls _ h, handlePostRequest_eq _ _ h, if_neg hlong, HttpParser.postOutcome,
      HttpParser.serving_postCallbacks, postCallbacks_after]
    cases (registrations calls).lookup (resourceName inData (ascii "POST")) <;> rfl
  simp only [StatusChosen, hresult]
  cases hl : (registrations calls).lookup (resourceName inData (ascii "POST")) with
  | some callback =>
    have hmem := mem_registrations_of_lookup hl
    obtain ⟨response, hr, hstatus⟩ := hgood _ hmem inData
    exact ⟨fun _ => ⟨callback, hmem⟩, fun _ => ⟨response, hstatus, fun _ => congrArg _ hr⟩⟩
  | none =>
    constructor
    · rintro ⟨response, -, hsame⟩
      have hcodes := (hsame 0).trans (hsame 1).symm
      have := fResponseCode_eq_of_message_eq (Except.ok.inj hcodes)
      exact absurd this (by decide)
    · rintro ⟨callback, hmem⟩
      have := List.lookup_eq_none_iff.mp hl _ hmem
      simp at this

/-- A GET or POST request gets a chosen status exactly when it is a GET request or
a callback has been registered for the resource it names. -/
theorem statusChosen_iff (calls : List ParserCall) (hgood : CallbacksChooseStatus calls)
    (env : Environment) (m rest : Bytes) (hm : m = ascii "GET" ∨ m = ascii "POST") :
    StatusChosen calls env (m ++ space :: rest) ↔
      m = ascii "GET" ∨ ∃ callback,
        (resourceName (m ++ space :: rest) (ascii "POST"), callback) ∈ registrations calls := by
  have hlong : m ++ space :: rest ≠ m := fun h => by simpa using congrArg List.length h
  rcases hm with rfl | rfl
  · exact ⟨fun _ => .inl rfl, fun _ => statusChosen_get calls env (List.prefix_append _ _) hlong⟩
  · rw [statusChosen_post_iff calls hgood env (List.prefix_append _ _) hlong]
    exact ⟨.inr, fun h => h.resolve_left (by decide)⟩

theorem statusChosen_registered :
    StatusChosen [.setPostRequestHandler (ascii "test") (constantCallback 200 [])] .bare
        (ascii "POST" ++ space :: ascii "/test HTTP/1.1\r\n\r\n") ↔
      ascii "POST" = ascii "GET" ∨ ∃ callback,
        (resourceName (ascii "POST" ++ space :: ascii "/test HTTP/1.1\r\n\r\n") (ascii "POST"),
          callback) ∈ registrations
            [.setPostRequestHandler (ascii "test") (constantCallback 200 [])] :=
  statusChosen_iff [.setPostRequestHandler (ascii "test") (constantCallback 200 [])]
    (fun rc hrc inRequest => by
      rw [List.mem_singleton.mp hrc]
      exact ⟨_, rfl, by decide, by decide, by decide⟩) .bare (ascii "POST")
    (ascii "/test HTTP/1.1\r\n\r\n") (.inr rfl)

/-- Nobody chooses the status of a POST request to an unregistered path. -/
theorem unregistered_post_status_not_chosen :
    ¬ StatusChosen [] .bare (ascii "POST /nothing HTTP/1.1\r\n\r\n") := by
  have hpost : ascii "POST" <+: ascii "POST /nothing HTTP/1.1\r\n\r\n" := by decide
  rw [statusChosen_post_iff [] (fun rc hrc => nomatch hrc) .bare hpost (by decide)]
  rintro ⟨callback, hmem⟩
  cases hmem

/-- A fresh object with the given registrations. -/
def HttpParser.registered (rs : List (Bytes × HttpCallback)) : HttpParser :=
  rs.foldl (fun self rc => self.setPostRequestHandler rc.1 rc.2) .new

/-- The calls that make the registrations. -/
def registrationCalls (rs : List (Bytes × HttpCallback)) : List ParserCall :=
  rs.map fun rc => .setPostRequestHandler rc.1 rc.2

theorem registered_eq_after (rs : List (Bytes × HttpCallback)) :
    HttpParser.registered rs = HttpParser.after (registrationCalls rs) := by
  rw [HttpParser.after, registrationCalls, List.foldl_map]
  rfl

theorem registrations_registrationCalls (rs : List (Bytes × HttpCallback)) :
    registrations (registrationCalls rs) = rs := by
  rw [registrations, registrationCalls, List.filterMap_map]
  exact List.filterMap_some

section HistoryIndependence

variable {calls calls' : List ParserCall}

/-- The version is that of the last request, so the encoder has no memory either. -/
theorem craftResponseMessage_serving (self self' : HttpParser) (inData : Bytes) :
    (self.serving inData).craftResponseMessage = (self'.serving inData).craftResponseMessage := rfl

theorem onData_get_congr (env env' : Environment) (hstat : ∀ path, env.stat path = env'.stat path)
    {inData : Bytes} (h : ascii "GET" <+: inData) :
    ((HttpParser.after calls).onData env inData).result =
      ((HttpParser.after calls').onData env' inData).result := by
  have hpages : handleGetRequest env inData = handleGetRequest env' inData := by
    rw [handleGetRequest_eq env h, handleGetRequest_eq env' h, pageResponse_congr (hstat _)]
  rw [onData_get calls env h, onData_get calls' env' h, hpages,
    craftResponseMessage_serving _ (HttpParser.after calls')]

theorem onData_post_congr (hregistrations : registrations calls = registrations calls')
    (env env' : Environment) {inData : Bytes} (h : ascii "POST" <+: inData) {aRequestPath : Bytes}
    (hpath : determineResourceRequest inData (ascii "POST") = .ok aRequestPath)
    {callback : HttpCallback} (hmem : (aRequestPath, callback) ∈ registrations calls) :
    ((HttpParser.after calls).onData env inData).result =
      ((HttpParser.after calls').onData env' inData).result := by
  obtain ⟨first, hfirst⟩ : ∃ first, (registrations calls).lookup aRequestPath = some first := by
    refine Option.ne_none_iff_exists'.mp ?_
    intro hnone
    exact absurd (List.lookup_eq_none_iff.mp hnone _ hmem) (by simp)
  have hhandled : ∀ calls₀ env₀, registrations calls₀ = registrations calls →
      ((HttpParser.after calls₀).serving inData).handlePostRequest env₀ inData =
        ⟨[⟨first, inData⟩], first inData⟩ := by
    intro calls₀ env₀ h₀
    simp only [HttpParser.handlePostRequest, hpath, HttpParser.serving_postCallbacks,
      postCallbacks_after, h₀, hfirst]
  rw [onData_post calls env h, onData_post calls' env' h, hhandled calls env rfl,
    hhandled calls' env' hregistrations.symm, craftResponseMessage_serving _ (HttpParser.after calls')]

end HistoryIndependence

/-- Whatever a parser object has been through, it answers a GET request, or a POST request
to a registered path, like a fresh object with the same registrations. -/
theorem onData_eq_fresh (calls : List ParserCall) (env : Environment) (code : UInt16)
    (inData : Bytes)
    (h : ascii "GET" <+: inData ∨ ascii "POST" <+: inData ∧
      ∃ rc ∈ registrations calls, determineResourceRequest inData (ascii "POST") = .ok rc.1) :
    ((HttpParser.after calls).onData env inData).result =
      ((HttpParser.registered (registrations calls)).onData
        { env with unassignedCode := code } inData).result := by
  rw [registered_eq_after]
  rcases h with hget | ⟨hpost, rc, hmem, hpath⟩
  · refine onData_get_congr env _ ?_ hget
    intro path
    rfl
  · exact onData_post_congr (registrations_registrationCalls _).symm _ _ hpost hpath hmem

theorem onData_eq_fresh_after_throw :
    ((HttpParser.after [.setPostRequestHandler (ascii "test") (constantCallback 200 []),
        .onData .bare (ascii "GET"), .onData .bare (ascii "TRACE / HTTP/0.9")]).onData .bare
        (ascii "POST /test HTTP/1.1")).result =
      ((HttpParser.registered (registrations
        [.setPostRequestHandler (ascii "test") (constantCallback 200 []),
          .onData .bare (ascii "GET"), .onData .bare (ascii "TRACE / HTTP/0.9")])).onData
        { Environment.bare with unassignedCode := 7 } (ascii "POST /test HTTP/1.1")).result := by
  have hline : ascii "POST /test HTTP/1.1" =
      requestLine (ascii "POST") (ascii "test") (ascii "/1.1") := by decide
  refine onData_eq_fresh _ _ _ _ (.inr ⟨by decide, _, List.mem_singleton_self _, ?_⟩)
  rw [hline]
  exact determineResourceRequest_requestLine (by decide) (by decide) (by decide) _ (by decide)

end CppWebserver.HttpParserProgram
