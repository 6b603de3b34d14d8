import CppWebserver.RequestTargets

/-!
# Dispatch of requests after any history of calls

The two entries of `_callbacks` never change, and `_postCallbacks` holds for each
path the first callback that was registered for it. From these two facts `OnData`
is determined: by the GET branch, the POST branch, or neither. What a request
does is compared with what registration promises.
-/

namespace CppWebserver.HttpParserProgram
open ByteStrings PatternSearch Numerals ServedFiles

/-- The registrations of a history, in order. -/
def registrations (calls : List ParserCall) : List (Bytes × HttpCallback) :=
  calls.filterMap (fun
    | .setPostRequestHandler path callback => some (path, callback)
    | .onData _ _ => none)

/-- The object as a request finds it when a handler runs. -/
def HttpParser.serving (self : HttpParser) (inData : Bytes) : HttpParser :=
  { self with httpVersion := getHttpVersion inData }

@[simp] theorem HttpParser.serving_postCallbacks (self : HttpParser) (inData : Bytes) :
    (self.serving inData).postCallbacks = self.postCallbacks := rfl

/-- Whatever comes of it, a request changes nothing in the object but the version. -/
theorem HttpParser.onData_parser (self : HttpParser) (env : Environment) (inData : Bytes) :
    (self.onData env inData).parser = self.serving inData := by
  rw [HttpParser.onData]
  split <;> rfl

theorem new_callbacks (k : Bytes) :
    HttpParser.new.callbacks[k]? =
      if k = ascii "GET" then some .handleGetRequest
      else if k = ascii "POST" then some .handlePostRequest else none := by
  have hne : ascii "GET" ≠ ascii "POST" := by decide
  simp only [HttpParser.new, Std.TreeMap.getElem?_insertIfNew, Std.TreeMap.mem_insertIfNew,
    Std.compare_eq_iff_eq]
  by_cases hg : k = ascii "GET"
  · simp [hg, hne.symm]
  · by_cases hp : k = ascii "POST"
    · simp [hp, hne, hne.symm]
    · simp [hg, hp, Ne.symm hg, Ne.symm hp]

theorem callbacks_foldl (self : HttpParser) (calls : List ParserCall) :
    (calls.foldl HttpParser.perform self).callbacks = self.callbacks := by
  induction calls generalizing self with
  | nil => rfl
  | cons c calls ih =>
    rw [List.foldl_cons, ih]
    cases c with
    | setPostRequestHandler path callback => rfl
    | onData env inData => rw [HttpParser.perform, HttpParser.onData_parser]; rfl

theorem callbacks_after (calls : List ParserCall) :
    (HttpParser.after calls).callbacks = HttpParser.new.callbacks := callbacks_foldl _ calls

/-- `emplace` keeps what is there: a path answers with its first registration. -/
theorem postCallbacks_foldl (self : HttpParser) (calls : List ParserCall) (p : Bytes) :
    (calls.foldl HttpParser.perform self).postCallbacks[p]? =
      self.postCallbacks[p]?.or ((registrations calls).lookup p) := by
  induction calls generalizing self with
  | nil => simp [registrations]
  | cons c calls ih =>
    rw [List.foldl_cons, ih]
    cases c with
    | onData env inData => rw [HttpParser.perform, HttpParser.onData_parser]; rfl
    | setPostRequestHandler path callback =>
      have hreg : registrations (.setPostRequestHandler path callback :: calls) =
          (path, callback) :: registrations calls := rfl
      rw [hreg, List.lookup_cons, HttpParser.perform, HttpParser.setPostRequestHandler]
      simp only [Std.TreeMap.getElem?_insertIfNew, Std.compare_eq_iff_eq]
      by_cases hp : path = p
      · subst hp
        by_cases hmem : path ∈ self.postCallbacks <;> simp [hmem]
      · have hbeq : (p == path) = false := by simpa using Ne.symm hp
        simp [hp, hbeq]

theorem postCallbacks_after (calls : List ParserCall) (p : Bytes) :
    (HttpParser.after calls).postCallbacks[p]? = (registrations calls).lookup p := by
  rw [HttpParser.after, postCallbacks_foldl]
  simp [HttpParser.new]

/-- The page that is served for a resource. -/
def pageName (resource : Bytes) : Bytes := if resource = [] then ascii "index.html" else resource

/-- The mode in which a page is opened. -/
def pageMode (page : Bytes) : OpenMode :=
  if extension page = ascii ".ico" then .inputOutput else .input

def pageType (page : Bytes) : Bytes :=
  if extension page = ascii ".html" then ascii "text/html"
  else if extension page = ascii ".ico" then ascii "image/x-icon" else ascii "text/plain"

/-- The answer for a path under which nothing exists. -/
def notFound : HttpResponse :=
  ⟨404, ascii "File not found", ascii "text/plain", ascii "close",
    ascii "HTTP 404: File not found :("⟩

theorem pageResponse_of_exists {env : Environment} {page : Bytes} (h : env.exists page = true) :
    pageResponse env page =
      ⟨200, ascii "OK", pageType page, ascii "close", copied (env.open page (pageMode page))⟩ := by
  rw [pageResponse, if_pos h, pageType, pageMode]
  by_cases hhtml : extension page = ascii ".html"
  · have hico : extension page ≠ ascii ".ico" := by
      rw [hhtml]
      decide
    simp only [if_pos hhtml, if_neg hico]
  · by_cases hico : extension page = ascii ".ico"
    · simp only [if_neg hhtml, if_pos hico]
    · simp only [if_neg hhtml, if_neg hico]

theorem pageResponse_of_missing {env : Environment} {page : Bytes} (h : env.exists page = false) :
    pageResponse env page = notFound := by
  rw [pageResponse, h]
  rfl

/-- A page is served from what `stat` finds under its path, and from nothing else. -/
theorem pageResponse_congr {env env' : Environment} {page : Bytes}
    (h : env.stat (cStr page) = env'.stat (cStr page)) :
    pageResponse env page = pageResponse env' page := by
  have hexists := Environment.exists_congr h
  cases he : env'.exists page with
  | true =>
    rw [pageResponse_of_exists he, pageResponse_of_exists (hexists.trans he),
      Environment.open_congr h]
  | false => rw [pageResponse_of_missing he, pageResponse_of_missing (hexists.trans he)]

theorem length_lt_iff_eq {m inData : Bytes} (h : m <+: inData) :
    inData.length < m.length + 1 ↔ inData = m := by
  constructor
  · intro hlen
    exact (h.eq_of_length_le (by omega)).symm
  · rintro rfl
    omega

theorem handleGetRequest_eq (env : Environment) {inData : Bytes} (h : ascii "GET" <+: inData) :
    handleGetRequest env inData =
      if inData = ascii "GET" then .error .outOfRange
      else .ok (pageResponse env (pageName (resourceName inData (ascii "GET")))) := by
  rw [handleGetRequest, requestedPage, determineResourceRequest_eq h (by decide)]
  by_cases hb : inData = ascii "GET"
  · rw [if_pos ((length_lt_iff_eq h).2 hb), if_pos hb]
    rfl
  · rw [if_neg (mt (length_lt_iff_eq h).1 hb), if_neg hb, ok_bind]
    rfl

/-- The outcome of a POST request that is longer than its method name. -/
def HttpParser.postOutcome (self : HttpParser) (env : Environment) (inRequest : Bytes) : Handled :=
  match self.postCallbacks[resourceName inRequest (ascii "POST")]? with
  | some aCallback => ⟨[⟨aCallback, inRequest⟩], aCallback inRequest⟩
  | none => ⟨[], .ok (.unassigned env.unassignedCode)⟩

theorem handlePostRequest_eq (self : HttpParser) (env : Environment) {inData : Bytes}
    (h : ascii "POST" <+: inData) :
    self.handlePostRequest env inData =
      if inData = ascii "POST" then ⟨[], .error .outOfRange⟩ else self.postOutcome env inData := by
  rw [HttpParser.handlePostRequest, determineResourceRequest_eq h (by decide)]
  by_cases hb : inData = ascii "POST"
  · rw [if_pos ((length_lt_iff_eq h).2 hb), if_pos hb]
  · rw [if_neg (mt (length_lt_iff_eq h).1 hb), if_neg hb]
    rfl

section Branches

variable (calls : List ParserCall) (env : Environment) {inData : Bytes}

theorem onData_of_type (h : Handler) (hh : HttpParser.new.callbacks[determineRequestType inData]? =
    some h) :
    (HttpParser.after calls).onData env inData =
      ⟨(HttpParser.after calls).serving inData,
        (((HttpParser.after calls).serving inData).call env inData h).invocations,
        (((HttpParser.after calls).serving inData).call env inData h).result.map
          ((HttpParser.after calls).serving inData).craftResponseMessage⟩ := by
  rw [← callbacks_after calls] at hh
  simp only [HttpParser.onData, hh]
  rfl

/-- The GET branch. -/
theorem onData_get (h : ascii "GET" <+: inData) :
    (HttpParser.after calls).onData env inData =
      ⟨(HttpParser.after calls).serving inData, [],
        (handleGetRequest env inData).map
          ((HttpParser.after calls).serving inData).craftResponseMessage⟩ := by
  have ht := (determineRequestType_eq_iff (m := ascii "GET") (by decide) inData).2 h
  exact onData_of_type calls env .handleGetRequest (by rw [new_callbacks, if_pos ht])

/-- The POST branch. -/
theorem onData_post (h : ascii "POST" <+: inData) :
    (HttpParser.after calls).onData env inData =
      ⟨(HttpParser.after calls).serving inData,
        (((HttpParser.after calls).serving inData).handlePostRequest env inData).invocations,
        (((HttpParser.after calls).serving inData).handlePostRequest env inData).result.map
          ((HttpParser.after calls).serving inData).craftResponseMessage⟩ := by
  have ht := (determineRequestType_eq_iff (m := ascii "POST") (by decide) inData).2 h
  exact onData_of_type calls env .handlePostRequest
    (by rw [new_callbacks, ht, if_neg (by decide), if_pos rfl])

/-- Every other request gets the empty answer. -/
theorem onData_other (hg : ¬ ascii "GET" <+: inData) (hp : ¬ ascii "POST" <+: inData) :
    (HttpParser.after calls).onData env inData =
      ⟨(HttpParser.after calls).serving inData, [], .ok []⟩ := by
  have htg := mt (determineRequestType_eq_iff (m := ascii "GET") (by decide) inData).1 hg
  have htp := mt (determineRequestType_eq_iff (m := ascii "POST") (by decide) inData).1 hp
  have hnone : (HttpParser.after calls).callbacks[determineRequestType inData]? = none := by
    rw [callbacks_after, new_callbacks, if_neg htg, if_neg htp]
  simp only [HttpParser.onData, hnone]
  rfl

end Branches

end CppWebserver.HttpParserProgram
