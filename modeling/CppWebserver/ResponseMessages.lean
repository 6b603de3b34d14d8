import CppWebserver.RequestDispatch
import CppWebserver.HttpMessages

/-!
# What the crafted responses say

The message written by `CraftResponseMessage` is a status line, one header line
and, after an empty line, the data and a second pair of line breaks. Read as an
HTTP message it has a single header, whose value runs through the connection.
The version that a request leaves in the object has no line break, so the first
empty line of an answer to GET is the one written after the connection.
-/

namespace CppWebserver.HttpParserProgram
open ByteStrings PatternSearch Numerals ServedFiles HttpMessages

def HttpParser.statusLine (self : HttpParser) (inResponse : HttpResponse) : Bytes :=
  self.httpVersion ++ ([space] ++ (decimal inResponse.fResponseCode.toNat ++
    ([space] ++ inResponse.fDescription)))

def HttpResponse.headerLine (inResponse : HttpResponse) : Bytes :=
  ascii "Content-Type" ++ (ascii ": " ++ (inResponse.fContentType ++
    (ascii " Connection: " ++ inResponse.fConnection)))

/-- Everything up to and including the connection. -/
def HttpParser.messageHead (self : HttpParser) (inResponse : HttpResponse) : Bytes :=
  self.statusLine inResponse ++ crlf ++ inResponse.headerLine

theorem craftResponseMessage_eq (self : HttpParser) (inResponse : HttpResponse) :
    self.craftResponseMessage inResponse =
      self.messageHead inResponse ++
        (crlf ++ crlf ++ (inResponse.fData ++ (crlf ++ crlf))) := by
  have htype : ascii "\r\nContent-Type: " = crlf ++ (ascii "Content-Type" ++ ascii ": ") := by
    decide
  have hblank : ascii "\r\n\r\n" = crlf ++ crlf := by decide
  have hspace : ascii " " = [space] := by decide
  simp only [HttpParser.craftResponseMessage, HttpParser.messageHead, HttpParser.statusLine,
    HttpResponse.headerLine, htype, hblank, hspace, List.append_assoc]

/-- The message determines the code, which ends at the second space. -/
theorem fResponseCode_eq_of_message_eq {self : HttpParser} {r r' : HttpResponse}
    (h : self.craftResponseMessage r = self.craftResponseMessage r') :
    r.fResponseCode = r'.fResponseCode := by
  simp only [craftResponseMessage_eq, HttpParser.messageHead, HttpParser.statusLine,
    List.append_assoc, List.append_cancel_left_eq] at h
  have hcut := congrArg (splitFirst [space]) h
  rw [splitFirst_append_self _ _ (space_notMem_decimal _),
    splitFirst_append_self _ _ (space_notMem_decimal _)] at hcut
  have hdigits := (Prod.mk.inj (Option.some.inj hcut)).1
  exact UInt16.toNat_inj.mp (decimal_injective hdigits)

/-- The fields of a response cannot break a line. -/
def HttpResponse.Unbroken (inResponse : HttpResponse) : Prop :=
  HttpMessages.Unbroken inResponse.fDescription ∧
    HttpMessages.Unbroken inResponse.fContentType ∧ HttpMessages.Unbroken inResponse.fConnection

theorem unbroken_statusLine {self : HttpParser} {inResponse : HttpResponse}
    (hv : Unbroken self.httpVersion) (hr : inResponse.Unbroken) :
    Unbroken (self.statusLine inResponse) := by
  have hspace : Unbroken [space] := ⟨by decide, by decide⟩
  exact hv.append (hspace.append ((unbroken_decimal _).append (hspace.append hr.1)))

theorem unbroken_headerLine {inResponse : HttpResponse} (hr : inResponse.Unbroken) :
    Unbroken inResponse.headerLine := by
  have hname : Unbroken (ascii "Content-Type") := ⟨by decide, by decide⟩
  have hcolon : Unbroken (ascii ": ") := ⟨by decide, by decide⟩
  have hconn : Unbroken (ascii " Connection: ") := ⟨by decide, by decide⟩
  exact hname.append (hcolon.append (hr.2.1.append (hconn.append hr.2.2)))

/-- The first empty line follows the connection. -/
theorem splitFirst_craftResponseMessage {self : HttpParser} {inResponse : HttpResponse}
    (hv : Unbroken self.httpVersion) (hr : inResponse.Unbroken) :
    splitFirst (crlf ++ crlf) (self.craftResponseMessage inResponse) =
      some (self.messageHead inResponse, inResponse.fData ++ (crlf ++ crlf)) := by
  have hname : ascii "Content-Type" = 67 :: ascii "ontent-Type" := by decide
  have hheader := (unbroken_headerLine hr).1
  rw [craftResponseMessage_eq, HttpParser.messageHead]
  simp only [HttpResponse.headerLine, hname, List.cons_append] at hheader ⊢
  exact splitFirst_blank_line (unbroken_statusLine hv hr).1 hheader _

/-- The message read as HTTP: one header, with everything else as its value. -/
theorem readHead_craftResponseMessage {self : HttpParser} {inResponse : HttpResponse}
    (hspace : space ∉ self.httpVersion) (hv : Unbroken self.httpVersion)
    (hr : inResponse.Unbroken) :
    readHead (self.craftResponseMessage inResponse) =
      some ⟨self.httpVersion, inResponse.fResponseCode.toNat, inResponse.fDescription,
        [(ascii "Content-Type",
          inResponse.fContentType ++ (ascii " Connection: " ++ inResponse.fConnection))]⟩ := by
  have hne : inResponse.headerLine ≠ [] := by simp [HttpResponse.headerLine, ascii]
  have hcolon : ascii ": " = 58 :: [space] := by decide
  have hheader : readHeader inResponse.headerLine = some (ascii "Content-Type",
      inResponse.fContentType ++ (ascii " Connection: " ++ inResponse.fConnection)) := by
    rw [readHeader, HttpResponse.headerLine, hcolon]
    exact splitFirst_append_self _ _ (by decide)
  have hmsg := readHead_message inResponse.fResponseCode.toNat hspace hv.1 hr.1.1
    (unbroken_headerLine hr).1 hne (inResponse.fData ++ (crlf ++ crlf))
  rw [hheader, Option.map_some] at hmsg
  rw [← hmsg, craftResponseMessage_eq, HttpParser.messageHead, HttpParser.statusLine]
  simp only [List.append_assoc]

theorem unbroken_takeWhile_matchesDot (s : Bytes) : Unbroken (s.takeWhile matchesDot) := by
  constructor
  · exact fun h => absurd (List.mem_takeWhile_imp h) (by decide)
  · exact fun h => absurd (List.mem_takeWhile_imp h) (by decide)

/-- The version taken from a request has no line break. -/
theorem unbroken_getHttpVersion (inRequest : Bytes) : Unbroken (getHttpVersion inRequest) := by
  have hname : Unbroken (ascii "HTTP") := ⟨by decide, by decide⟩
  rw [getHttpVersion]
  cases firstIndex (ascii "HTTP") inRequest with
  | none => exact ⟨by simp, by simp⟩
  | some i => exact hname.append (unbroken_takeWhile_matchesDot _)

theorem unbroken_pageResponse (env : Environment) (page : Bytes) :
    (pageResponse env page).Unbroken := by
  have hclose : Unbroken (ascii "close") := ⟨by decide, by decide⟩
  have hplain : Unbroken (ascii "text/plain") := ⟨by decide, by decide⟩
  cases he : env.exists page with
  | true =>
    have hok : Unbroken (ascii "OK") := ⟨by decide, by decide⟩
    rw [pageResponse_of_exists he]
    refine ⟨hok, ?_, hclose⟩
    change Unbroken (pageType page)
    rw [pageType]
    split_ifs
    · exact ⟨by decide, by decide⟩
    · exact ⟨by decide, by decide⟩
    · exact hplain
  | false =>
    rw [pageResponse_of_missing he]
    exact ⟨⟨by decide, by decide⟩, hplain, hclose⟩

/-- A reader gets back the status line and two separate headers. -/
def Recovered (self : HttpParser) (inResponse : HttpResponse) : Prop :=
  ∃ head, readHead (self.craftResponseMessage inResponse) = some head ∧
    head.version = self.httpVersion ∧ head.code = inResponse.fResponseCode.toNat ∧
    head.reason = inResponse.fDescription ∧
    (ascii "Content-Type", inResponse.fContentType) ∈ head.headers ∧
    (ascii "Connection", inResponse.fConnection) ∈ head.headers

/-- The connection is never read as a header of its own. -/
theorem connection_notMem_headers {self : HttpParser} {inResponse : HttpResponse} {head : Head}
    (hspace : space ∉ self.httpVersion) (hv : Unbroken self.httpVersion)
    (hr : inResponse.Unbroken)
    (h : readHead (self.craftResponseMessage inResponse) = some head) :
    (ascii "Connection", inResponse.fConnection) ∉ head.headers := by
  rw [readHead_craftResponseMessage hspace hv hr] at h
  cases h
  simp only [List.mem_singleton, Prod.mk.injEq, not_and]
  exact fun hname => absurd hname (by decide)

/-- No response is recovered from its message. -/
theorem response_never_recovered (self : HttpParser) (inResponse : HttpResponse)
    (hspace : space ∉ self.httpVersion) (hv : Unbroken self.httpVersion)
    (hr : inResponse.Unbroken) : ¬ Recovered self inResponse := by
  rintro ⟨head, hread, -, -, -, -, hconn⟩
  exact connection_notMem_headers hspace hv hr hread hconn

/-- The answer to a request for an empty HTML page. -/
def htmlResponse : HttpResponse :=
  ⟨200, ascii "OK", ascii "text/html", ascii "close", []⟩

theorem htmlResponse_unbroken : htmlResponse.Unbroken := by
  refine ⟨⟨?_, ?_⟩, ⟨?_, ?_⟩, ?_, ?_⟩ <;> decide

theorem htmlResponse_never_recovered :
    ¬ Recovered (HttpParser.new.serving (ascii "GET / HTTP/1.1")) htmlResponse :=
  response_never_recovered (HttpParser.new.serving (ascii "GET / HTTP/1.1")) htmlResponse
    (by decide) ⟨by decide, by decide⟩ htmlResponse_unbroken

/-- The two headers of an HTML page are read as one. -/
theorem htmlResponse_not_recovered :
    ¬ ∀ (self : HttpParser) (inResponse : HttpResponse), space ∉ self.httpVersion →
      Unbroken self.httpVersion → inResponse.Unbroken → Recovered self inResponse := by
  intro h
  have hversion : Unbroken (HttpParser.new.serving (ascii "GET / HTTP/1.1")).httpVersion :=
    ⟨by decide, by decide⟩
  have hspace : space ∉ (HttpParser.new.serving (ascii "GET / HTTP/1.1")).httpVersion := by decide
  obtain ⟨head, hread, -, -, -, -, hconn⟩ := h _ htmlResponse hspace hversion htmlResponse_unbroken
  exact connection_notMem_headers hspace hversion htmlResponse_unbroken hread hconn

end CppWebserver.HttpParserProgram
