import CppWebserver.GetRequests

/-!
# Requests on a machine whose lookups can fail

A GET request asks once whether its page exists, before anything else is done with it. If
that throws, so does `OnData`; otherwise a machine answers like its environment.
-/

namespace CppWebserver.FailingLookups
open ByteStrings HttpParserProgram ServedFiles

/-- `HandleGetRequest`, in which only the lookup of the page asks the machine. -/
def handleGetRequest (machine : Machine) (inRequest : Bytes) :
    Except CppException HttpResponse := do
  let aRequestPage ← requestedPage inRequest
  let _ ← machine.exists aRequestPage
  pure (pageResponse machine.toEnvironment aRequestPage)

def call (machine : Machine) (self : HttpParser) (inRequest : Bytes) : Handler → Handled
  | .handleGetRequest => ⟨[], handleGetRequest machine inRequest⟩
  | .handlePostRequest => self.handlePostRequest machine.toEnvironment inRequest

def onData (machine : Machine) (self : HttpParser) (inData : Bytes) : Reply :=
  let self := { self with httpVersion := getHttpVersion inData }
  let aRequestType := determineRequestType inData
  match self.callbacks[aRequestType]? with
  | some aCallback =>
    let handled := call machine self inData aCallback
    ⟨self, handled.invocations, handled.result.map self.craftResponseMessage⟩
  | none => ⟨self, [], .ok []⟩

/-- A GET request for a page that cannot be looked up. -/
def LookupFails (machine : Machine) (inData : Bytes) : Prop :=
  ascii "GET" <+: inData ∧
    ∃ page, requestedPage inData = .ok page ∧ machine.statFails (cStr page) = true

variable {machine : Machine} {inData : Bytes}

theorem handleGetRequest_of_fails {page : Bytes} (hpage : requestedPage inData = .ok page)
    (hfails : machine.statFails (cStr page) = true) :
    handleGetRequest machine inData = .error .filesystemError := by
  rw [handleGetRequest, hpage, ok_bind, Machine.exists, if_pos hfails, error_bind]

/-- A lookup that does not fail is the lookup in the environment. -/
theorem handleGetRequest_of_not_fails
    (h : ∀ page, requestedPage inData = .ok page → machine.statFails (cStr page) = false) :
    handleGetRequest machine inData =
      HttpParserProgram.handleGetRequest machine.toEnvironment inData := by
  rw [handleGetRequest, HttpParserProgram.handleGetRequest]
  cases hpage : requestedPage inData with
  | error e => rfl
  | ok page => rw [ok_bind, ok_bind, Machine.exists, h page hpage]; rfl

/-- A request whose lookup does not fail is answered as in the environment. -/
theorem onData_of_not_lookupFails (calls : List ParserCall) (h : ¬ LookupFails machine inData) :
    onData machine (HttpParser.after calls) inData =
      (HttpParser.after calls).onData machine.toEnvironment inData := by
  rw [onData, HttpParser.onData]
  simp only [callbacks_after, new_callbacks]
  by_cases htype : determineRequestType inData = ascii "GET"
  · have hget : ascii "GET" <+: inData :=
      (determineRequestType_eq_iff (m := ascii "GET") (by decide) inData).mp htype
    have hlookup : ∀ page, requestedPage inData = .ok page →
        machine.statFails (cStr page) = false := by
      intro page hpage
      by_contra hfails
      exact h ⟨hget, page, hpage, eq_true_of_ne_false hfails⟩
    simp only [if_pos htype, call, HttpParser.call, handleGetRequest_of_not_fails hlookup]
  · by_cases hpost : determineRequestType inData = ascii "POST"
    · simp only [if_neg htype, if_pos hpost]
      rfl
    · simp only [if_neg htype, if_neg hpost]

theorem onData_of_lookupFails (calls : List ParserCall) (h : LookupFails machine inData) :
    (onData machine (HttpParser.after calls) inData).result = .error .filesystemError := by
  obtain ⟨hget, page, hpage, hfails⟩ := h
  have htype := (determineRequestType_eq_iff (m := ascii "GET") (by decide) inData).mpr hget
  rw [onData]
  simp only [callbacks_after, new_callbacks, if_pos htype, call,
    handleGetRequest_of_fails hpage hfails, map_error]

/-- A failing lookup is all that can keep a machine from returning where its environment does. -/
theorem onData_returns_iff_and_lookup (calls : List ParserCall) (machine : Machine)
    (inData : Bytes) :
    (∃ out, (onData machine (HttpParser.after calls) inData).result = .ok out) ↔
      (∃ out, ((HttpParser.after calls).onData machine.toEnvironment inData).result = .ok out) ∧
        ¬ LookupFails machine inData := by
  by_cases h : LookupFails machine inData
  · rw [onData_of_lookupFails calls h]
    exact iff_of_false nofun fun hboth => hboth.2 h
  · rw [onData_of_not_lookupFails calls h]
    exact (and_iff_left h).symm

end CppWebserver.FailingLookups
