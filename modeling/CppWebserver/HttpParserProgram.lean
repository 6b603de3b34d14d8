import CppWebserver.ServedFiles
import CppWebserver.Numerals
import Std.Data.TreeMap.Lemmas

/-!
# The class `HttpParser`

Member functions take the object and return it where they change it. A search
returns a position or `npos`; `DetermineResourceRequest` narrows positions to
`unsigned`, and its difference wraps. `std::map::emplace` inserts only under a
fresh key. Exceptions leave the object as it was when they were raised.
-/

namespace CppWebserver.HttpParserProgram
open ByteStrings PatternSearch Numerals DirectoryTrees ServedFiles

structure HttpResponse where
  fResponseCode : UInt16
  fDescription : Bytes
  fContentType : Bytes
  fConnection : Bytes
  fData : Bytes
  deriving DecidableEq

/-- `HttpResponse aResponse;`, whose code is whatever the memory held. -/
def HttpResponse.unassigned (code : UInt16) : HttpResponse := ⟨code, [], [], [], []⟩

/-- A user callback: a function of the request that may throw. -/
abbrev HttpCallback := Bytes → Except CppException HttpResponse

/-- The two member functions bound in the constructor. -/
inductive Handler where
  | handleGetRequest
  | handlePostRequest
  deriving DecidableEq

structure HttpParser where
  httpVersion : Bytes
  callbacks : Std.TreeMap Bytes Handler
  postCallbacks : Std.TreeMap Bytes HttpCallback

def fRequestTypes : List Bytes :=
  [ascii "CONNECT", ascii "DELETE", ascii "GET", ascii "HEAD", ascii "OPTIONS",
    ascii "PATCH", ascii "POST", ascii "PUT", ascii "TRACE"]

/-- `HttpParser::HttpParser()`. -/
def HttpParser.new : HttpParser where
  httpVersion := []
  callbacks := (Std.TreeMap.empty.insertIfNew (ascii "GET") .handleGetRequest).insertIfNew
    (ascii "POST") .handlePostRequest
  postCallbacks := Std.TreeMap.empty

def HttpParser.setPostRequestHandler (self : HttpParser) (inResourcePath : Bytes)
    (inCallback : HttpCallback) : HttpParser :=
  { self with postCallbacks := self.postCallbacks.insertIfNew inResourcePath inCallback }

def determineRequestType (inRequest : Bytes) : Bytes :=
  (fRequestTypes.find? (fun aType => rfind inRequest aType 0 = some 0)).getD []

/-- The loop of `RemoveTraversalSequences`: the final `aEndPosition`. -/
def traversalEnd (inoutResourceRequest : Bytes) (aEndPosition : ℕ) : ℕ :=
  if h : (find inoutResourceRequest (ascii "../") aEndPosition).isSome then
    traversalEnd inoutResourceRequest (aEndPosition + 3)
  else aEndPosition
termination_by inoutResourceRequest.length - aEndPosition
decreasing_by
  have := add_length_le_of_find h
  simp only [show (ascii "../").length = 3 from rfl] at this
  omega

def removeTraversalSequences (inoutResourceRequest : Bytes) : Except CppException Bytes :=
  substr inoutResourceRequest (traversalEnd inoutResourceRequest 0) none

def determineResourceRequest (inRequest inMethod : Bytes) : Except CppException Bytes := do
  let startPosition : UInt32 :=
    .ofNat (sizeT (find inRequest inMethod 0) + inMethod.length + 1)
  let last : UInt32 := .ofNat (sizeT (find inRequest (ascii " HTTP") 0))
  let aResource ← substr inRequest startPosition.toNat (some (last - startPosition).toNat)
  let aResource ← removeTraversalSequences aResource
  if ascii "/" <+: aResource then erase aResource 0 1 else pure aResource

/-- `.` in an ECMAScript regular expression. -/
def matchesDot (b : UInt8) : Bool := b ≠ cr ∧ b ≠ lf

/-- `regex_search` for `HTTP.*`: the leftmost match, extended as far as possible. -/
def getHttpVersion (inRequest : Bytes) : Bytes :=
  match firstIndex (ascii "HTTP") inRequest with
  | some i => ascii "HTTP" ++ (inRequest.drop (i + 4)).takeWhile matchesDot
  | none => []

def HttpParser.craftResponseMessage (self : HttpParser) (inResponse : HttpResponse) : Bytes :=
  self.httpVersion ++ ascii " " ++ decimal inResponse.fResponseCode.toNat ++ ascii " " ++
    inResponse.fDescription ++ ascii "\r\nContent-Type: " ++ inResponse.fContentType ++
    ascii " Connection: " ++ inResponse.fConnection ++ ascii "\r\n\r\n" ++
    inResponse.fData ++ ascii "\r\n\r\n"

/-- The page a GET request asks for. -/
def requestedPage (inRequest : Bytes) : Except CppException Bytes := do
  let aRequestPage ← determineResourceRequest inRequest (ascii "GET")
  pure (if aRequestPage = [] then ascii "index.html" else aRequestPage)

/-- The two branches of `HandleGetRequest`. -/
def pageResponse (env : Environment) (aRequestPage : Bytes) : HttpResponse :=
  if env.exists aRequestPage then
    let aFileExtension := extension aRequestPage
    let (aFileStream, fContentType) :=
      if aFileExtension = ascii ".html" then
        (env.open aRequestPage .input, ascii "text/html")
      else if aFileExtension = ascii ".ico" then
        (env.open aRequestPage .inputOutput, ascii "image/x-icon")
      else (env.open aRequestPage .input, ascii "text/plain")
    { fResponseCode := 200
      fDescription := ascii "OK"
      fContentType
      fConnection := ascii "close"
      fData := copied aFileStream }
  else
    { fResponseCode := 404
      fDescription := ascii "File not found"
      fContentType := ascii "text/plain"
      fConnection := ascii "close"
      fData := ascii "HTTP 404: File not found :(" }

def handleGetRequest (env : Environment) (inRequest : Bytes) :
    Except CppException HttpResponse := do
  let aRequestPage ← requestedPage inRequest
  pure (pageResponse env aRequestPage)

/-- A call of a user callback. -/
structure Invocation where
  callback : HttpCallback
  argument : Bytes

/-- The outcome of a handler and the user callbacks it has called, in order. -/
structure Handled where
  invocations : List Invocation
  result : Except CppException HttpResponse

def HttpParser.handlePostRequest (self : HttpParser) (env : Environment) (inRequest : Bytes) :
    Handled :=
  match determineResourceRequest inRequest (ascii "POST") with
  | .error e => ⟨[], .error e⟩
  | .ok aRequestPath => match self.postCallbacks[aRequestPath]? with
    | some aCallback => ⟨[⟨aCallback, inRequest⟩], aCallback inRequest⟩
    | none => ⟨[], .ok (.unassigned env.unassignedCode)⟩

def HttpParser.call (self : HttpParser) (env : Environment) (inRequest : Bytes) :
    Handler → Handled
  | .handleGetRequest => ⟨[], handleGetRequest env inRequest⟩
  | .handlePostRequest => self.handlePostRequest env inRequest

/-- What `OnData` leaves behind, normally or by an exception. -/
structure Reply where
  parser : HttpParser
  invocations : List Invocation
  result : Except CppException Bytes

def HttpParser.onData (self : HttpParser) (env : Environment) (inData : Bytes) : Reply :=
  let self := { self with httpVersion := getHttpVersion inData }
  let aRequestType := determineRequestType inData
  match self.callbacks[aRequestType]? with
  | some aCallback =>
    let handled := self.call env inData aCallback
    ⟨self, handled.invocations, handled.result.map self.craftResponseMessage⟩
  | none => ⟨self, [], .ok []⟩

/-- The public calls on a parser object. -/
inductive ParserCall where
  | setPostRequestHandler (inResourcePath : Bytes) (inCallback : HttpCallback)
  | onData (env : Environment) (inData : Bytes)

def HttpParser.perform (self : HttpParser) : ParserCall → HttpParser
  | .setPostRequestHandler path callback => self.setPostRequestHandler path callback
  | .onData env inData => (self.onData env inData).parser

/-- The object after a history of calls. -/
def HttpParser.after (calls : List ParserCall) : HttpParser :=
  calls.foldl HttpParser.perform .new

end CppWebserver.HttpParserProgram
