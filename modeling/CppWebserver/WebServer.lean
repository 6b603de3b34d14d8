import CppWebserver.ConversationOutcomes
import CppWebserver.FailingLookups
import CppWebserver.PortArguments
import CppWebserver.RequestOutcomes
import CppWebserver.ServedConnections
import CppWebserver.SocketAddresses

/-!
# The web server

`main` binds the port of its argument, registers a callback for `POST /test` and lets the
parser answer what ends with a blank line. So whatever way the request for a page is cut up,
the browser gets as much of the page as `write` takes, and the body of a form never arrives.
The clients here keep their side of the connection open and send no NUL.
-/

namespace CppWebserver.WebServer
open ByteStrings Conversations HttpMessages HttpParserProgram LabelledRuns PortArguments
open ServedFiles SocketReadLoop
open FailingLookups hiding handleGetRequest
open SocketServer hiding step

/-- The callback for `POST /test`. -/
def testCallback : HttpCallback := fun _ => .ok
  { fResponseCode := 200
    fDescription := ascii "OK"
    fContentType := ascii "text/plain"
    fConnection := ascii "close"
    fData := ascii "Received POST!" }

def aHttpParser : HttpParser := HttpParser.new.setPostRequestHandler (ascii "test") testCallback

/-- The data handler. What it changes of the parser ends with the child. -/
def aThingy (machine : Machine) (inData : Bytes) : Except CppException Bytes :=
  (onData machine aHttpParser inData).result

/-- The socket at the call of `Run`. The accept callback only prints. -/
def aSocket (machine : Machine) (sockfd : ℤ) : SocketServer.SocketIPv4 :=
  ((SocketServer.SocketIPv4.createTcpSocket sockfd).onAccept fun _ => .ok ()).onDataReceive
    (aThingy machine) (ascii "\r\n\r\n")

/-- What `main` has set up when it calls `Run`; what `Bind` returns is not looked at. -/
structure Launch where
  port : UInt16
  bound : SocketAddresses.Attempt
  socket : SocketServer.SocketIPv4

/-- `INADDR_ANY`. -/
def inaddrAny : UInt32 := 0

/-- `main`, given the result of `socket`; nothing if it prints its usage. -/
def main (host : SocketAddresses.Host) (machine : Machine) (sockfd : ℤ) :
    List Bytes → Option Launch
  | [_, aPort] => some
      { port := portArgument aPort
        bound := (SocketAddresses.createTcpSocket sockfd).bind host inaddrAny (portArgument aPort)
        socket := aSocket machine sockfd }
  | _ => none

section Port

open ByteOrders SocketAddresses

variable (host : Host) (port : UInt16)

/-- The system call of `Bind` when all addresses are bound. -/
def bindAny (sockfd : ℤ) : SystemCall :=
  .bind sockfd (wireSockaddr host.byteOrder afInet port (ByteOrder.big.store 4 inaddrAny.toNat))

theorem calls_bind_any (sockfd : ℤ) :
    ((createTcpSocket sockfd).bind host inaddrAny port).calls = [bindAny host port sockfd] := by
  rw [SocketAddresses.SocketIPv4.bind_eq]
  rfl

theorem sinAddr_bindAny (sockfd : ℤ) : (bindAny host port sockfd).sinAddr = [0, 0, 0, 0] := by
  have hzero : ByteOrder.big.store 4 inaddrAny.toNat = [0, 0, 0, 0] := rfl
  rw [sinAddr_of_wireSockaddr rfl (ByteOrder.big.length_store 4 _), hzero]

theorem load_sinPort_bindAny (sockfd : ℤ) :
    ByteOrder.big.load (bindAny host port sockfd).sinPort = port.toNat := by
  have hbytes : portBytes port = ByteOrder.big.store 2 port.toNat := rfl
  have hlt : port.toNat < 256 ^ 2 := port.toNat_lt
  rw [sinPort_of_wireSockaddr rfl, hbytes, ByteOrder.load_store, Nat.mod_eq_of_lt hlt]

/-- Started with a number, the server binds all addresses at the port of that number, if it is
one; the host's byte order and the notation make no difference. -/
theorem main_binds_iff (host : Host) (machine : Machine) (sockfd : ℤ) (name : Bytes)
    (t : Notation) (n : ℕ) :
    ∃ launch call, main host machine sockfd [name, t.write n] = some launch ∧
      launch.bound.calls = [call] ∧ call.sinAddr = [0, 0, 0, 0] ∧
      (ByteOrder.big.load call.sinPort = n ↔ n < 2 ^ 16) := by
  refine ⟨_, _, rfl, calls_bind_any host _ sockfd, sinAddr_bindAny host _ sockfd, ?_⟩
  rw [load_sinPort_bindAny, toNat_portArgument_write]
  split <;> omega

end Port

section Answers

variable {machine : Machine} {m : Bytes}

/-- The calls that `main` makes on its parser. -/
def parserCalls : List ParserCall := [.setPostRequestHandler (ascii "test") testCallback]

theorem aThingy_eq :
    aThingy machine m = (onData machine (HttpParser.after parserCalls) m).result := rfl

/-- Where no lookup fails, the answer is the one the environment determines. -/
theorem aThingy_of_not_lookupFails (h : ¬ LookupFails machine m) :
    aThingy machine m = ((HttpParser.after parserCalls).onData machine.toEnvironment m).result := by
  rw [aThingy_eq, onData_of_not_lookupFails parserCalls h]

theorem callbacksReturn_parserCalls : CallbacksReturn parserCalls := by
  intro rc hrc inRequest
  rw [List.mem_singleton.mp hrc]
  exact ⟨_, rfl⟩

theorem onData_parserCalls_returns_iff (env : Environment) (m : Bytes) :
    (∃ answer, ((HttpParser.after parserCalls).onData env m).result = .ok answer) ↔
      m ≠ ascii "GET" ∧ m ≠ ascii "POST" := by
  by_cases hget : ascii "GET" <+: m
  · have hpost : m ≠ ascii "POST" := by
      rintro rfl
      exact absurd hget (by decide)
    exact (onData_get_returns_iff env hget).trans (and_iff_left hpost).symm
  · have hne : m ≠ ascii "GET" := fun h => hget (h ▸ List.prefix_rfl)
    by_cases hpost : ascii "POST" <+: m
    · exact (onData_post_returns_iff callbacksReturn_parserCalls env hpost).trans
        (and_iff_right hne).symm
    · have hne' : m ≠ ascii "POST" := fun h => hpost (h ▸ List.prefix_rfl)
      have hother := congrArg Reply.result (onData_other parserCalls env hget hpost)
      exact iff_of_true ⟨[], hother⟩ ⟨hne, hne'⟩

/-- Everything is answered but the two bare method names and GET requests for pages that cannot
be looked up. -/
theorem aThingy_returns_iff (machine : Machine) (m : Bytes) :
    (∃ answer, aThingy machine m = .ok answer) ↔
      (m ≠ ascii "GET" ∧ m ≠ ascii "POST") ∧ ¬ LookupFails machine m := by
  rw [← onData_parserCalls_returns_iff machine.toEnvironment m]
  exact onData_returns_iff_and_lookup parserCalls machine m

/-- What ends with a blank line is answered unless a lookup fails. -/
theorem exists_answer_iff (machine : Machine) (hm : crlf ++ crlf <:+ m) :
    (∃ answer, aThingy machine m = .ok answer) ↔ ¬ LookupFails machine m := by
  rw [aThingy_returns_iff]
  refine and_iff_right ⟨?_, ?_⟩
  · rintro rfl
    exact absurd hm (by decide)
  · rintro rfl
    exact absurd hm (by decide)

theorem not_lookupFails_of_page {page : Bytes} (hpage : requestedPage m = .ok page)
    (hlookup : machine.statFails (cStr page) = false) : ¬ LookupFails machine m := by
  rintro ⟨-, page', hpage', hfails⟩
  rw [hpage] at hpage'
  rw [← Except.ok.inj hpage', hlookup] at hfails
  cases hfails

end Answers

section Wholes

variable {machine : Machine} {sockfd : ℤ} {clientSocket : SockaddrIn} {connfd : ℤ}
  {fds : Finset ℤ} {stack : CharBuffer} {m : Bytes} {result : WriteResult}

/-- Every conversation of the web server about a message ends with the client having the whole
answer to the whole message if and only if the message fits into the array with its zero, has no
NUL, has a blank line at its end and nowhere else, and asks for no page whose lookup fails, and
the call of `write` takes all of the answer. -/
theorem answered_whole_iff (machine : Machine) (sockfd : ℤ) (clientSocket : SockaddrIn)
    (connfd : ℤ) (fds : Finset ℤ) (stack : CharBuffer) (m : Bytes) (result : WriteResult) :
    (∀ s, EndsIn (step (aSocket machine sockfd)) (start clientSocket connfd fds stack m result) s →
        s.Whole (aThingy machine) m) ↔
      m.length ≤ bufSize ∧ 0 ∉ m ∧ EndsOnce (crlf ++ crlf) m ∧ ¬ LookupFails machine m ∧
        ∀ answer, aThingy machine m = .ok answer →
          answer = [] ∨ ∃ n, result = .written n ∧ answer.length ≤ n := by
  constructor
  · intro h
    have hends := endsOnce_of_whole h (by decide)
    obtain ⟨s, hend⟩ := exists_ending (aSocket machine sockfd)
      (start clientSocket connfd fds stack m result)
    refine ⟨length_le_of_whole h, (isSuffix_of_whole h).2, hends, ?_, ?_⟩
    · exact (exists_answer_iff machine hends.1).mp ⟨s.received, (h s hend).2.1⟩
    · intro answer hanswer
      exact WriteResult.taken_eq_iff.mp (taken_of_whole h (by decide) hanswer)
  · rintro ⟨hlength, hnul, hm, hlookup, hall⟩ s hend
    obtain ⟨answer, hanswer⟩ := (exists_answer_iff machine hm.1).mpr hlookup
    exact whole_of_endsOnce rfl hnul hlength (by decide) hm hanswer (hall answer hanswer) hend

/-- What stands behind the terminator, if just one beginning ends with it. -/
theorem behind_of_inits {terminator head form : Bytes}
    (h : ∀ d ∈ (head ++ form).inits, terminator <:+ d → d = head) (a b : Bytes)
    (hab : head ++ form = a ++ (terminator ++ b)) : b = form := by
  have hd : a ++ terminator <+: head ++ form := ⟨b, by rw [hab, List.append_assoc]⟩
  have hhead : a ++ terminator = head :=
    h _ ((List.mem_inits _ _).mpr hd) (List.suffix_append _ _)
  rw [← List.append_assoc, hhead] at hab
  exact (List.append_cancel_left hab).symm

theorem endsOnce_of_inits {terminator m : Bytes} (hm : terminator <:+ m)
    (h : ∀ d ∈ m.inits, terminator <:+ d → d = m) : EndsOnce terminator m := by
  have hnil : m ++ [] = m := List.append_nil m
  refine ⟨hm, fun a b hab => behind_of_inits ?_ a b (hnil.trans hab)⟩
  rwa [hnil]

/-- The answer to a GET request has the file and four bytes more as its body. -/
theorem body_aThingy_requestLine {p v : Bytes} (hp : space ∉ p) (hdots : ¬ ascii "../" <:+: p)
    (hlength : (requestLine (ascii "GET") p v).length < 2 ^ 32) {data : FileData}
    (hfile : machine.stat (cStr (pageName p)) = .file data) (hread : data.readable = true)
    (hwrite : extension (pageName p) = ascii ".ico" → data.writable = true)
    (hlookup : machine.statFails (cStr (pageName p)) = false) :
    ∃ answer, aThingy machine (requestLine (ascii "GET") p v) = .ok answer ∧
      body answer = some (data.content ++ (crlf ++ crlf)) := by
  have hget : ascii "GET" <+: requestLine (ascii "GET") p v := List.prefix_append _ _
  have hpage := requestedPage_requestLine hp hdots v hlength
  obtain ⟨answer, hanswer, hbody⟩ := body_of_page parserCalls machine.toEnvironment hget hpage
  rw [← aThingy_of_not_lookupFails (not_lookupFails_of_page hpage hlookup)] at hanswer
  refine ⟨answer, hanswer, ?_⟩
  have hexists : machine.toEnvironment.exists (pageName p) = true :=
    (Environment.exists_iff _ _).mpr (by simp [hfile])
  have hcopied : copied (machine.open (pageName p) (pageMode (pageName p))) = data.content :=
    (copied_page_eq_iff hfile hread).mpr fun hico => .inl (hwrite hico)
  rw [hbody, pageResponse_of_exists hexists]
  exact congrArg (fun content => some (content ++ (crlf ++ crlf))) hcopied

/-- A browser that asks for a file with a request that ends at its first blank line gets as much
of an answer with that file as `write` takes, in every conversation: whatever the request is cut
into and however slowly the browser reads. -/
theorem page_delivered (machine : Machine) (sockfd : ℤ) (clientSocket : SockaddrIn) (connfd : ℤ)
    (fds : Finset ℤ) (stack : CharBuffer) (result : WriteResult) {p v : Bytes} (hp : space ∉ p)
    (hdots : ¬ ascii "../" <:+: p) (hm : EndsOnce (crlf ++ crlf) (requestLine (ascii "GET") p v))
    (hnul : 0 ∉ requestLine (ascii "GET") p v)
    (hlength : (requestLine (ascii "GET") p v).length ≤ bufSize) {data : FileData}
    (hfile : machine.stat (cStr (pageName p)) = .file data) (hread : data.readable = true)
    (hwrite : extension (pageName p) = ascii ".ico" → data.writable = true)
    (hlookup : machine.statFails (cStr (pageName p)) = false) :
    ∃ answer, body answer = some (data.content ++ (crlf ++ crlf)) ∧
      ∀ s, EndsIn (step (aSocket machine sockfd))
          (start clientSocket connfd fds stack (requestLine (ascii "GET") p v) result) s →
        s.client = .sawEnd ∧ s.received = result.taken answer := by
  have hfits : (requestLine (ascii "GET") p v).length < 2 ^ 32 :=
    hlength.trans_lt (by decide)
  obtain ⟨answer, hanswer, hbody⟩ :=
    body_aThingy_requestLine hp hdots hfits hfile hread hwrite hlookup
  refine ⟨answer, hbody, ?_⟩
  intro s hend
  exact taken_of_endsOnce rfl hnul hlength (by decide) hm hanswer hend

/-- The first hundred bytes of the answer, which is shorter. -/
theorem page_delivered_index :
    ∃ answer, body answer = some (ascii "hi" ++ (crlf ++ crlf)) ∧
      ∀ s, EndsIn (step (aSocket (rootServer (ascii "index.html") (ascii "hi")).withNameMax 3))
          (start ⟨0, 0⟩ 4 {0, 1, 2, 3, 4} .zeroed
            (requestLine (ascii "GET") [] (ascii "/1.1\r\n\r\n")) (.written 100)) s →
        s.client = .sawEnd ∧ s.received = (WriteResult.written 100).taken answer := by
  have hfile : (rootServer (ascii "index.html") (ascii "hi")).stat (cStr (pageName [])) =
      .file ⟨ascii "hi", true, true⟩ := by decide
  exact page_delivered (rootServer (ascii "index.html") (ascii "hi")).withNameMax 3 ⟨0, 0⟩ 4
    {0, 1, 2, 3, 4} .zeroed (.written 100) (by decide) (by decide)
    (endsOnce_of_inits (by decide) (by decide)) (by decide) (by decide) hfile rfl (by decide)
    (by decide)

end Wholes

section Methods

variable {machine : Machine} {m : Bytes}

/-- A message is never empty. -/
theorem ne_nil_of_message {self : HttpParser} {result : Except CppException HttpResponse}
    {answer : Bytes} (h : result.map self.craftResponseMessage = .ok answer) : answer ≠ [] := by
  cases result with
  | error e => cases h
  | ok response =>
    rw [map_ok] at h
    rw [← Except.ok.inj h, HttpParser.craftResponseMessage]
    exact List.append_ne_nil_of_right_ne_nil _ (by decide)

theorem aThingy_eq_nil_iff {answer : Bytes} (hlookup : ¬ LookupFails machine m)
    (h : aThingy machine m = .ok answer) :
    answer = [] ↔ ¬ ascii "GET" <+: m ∧ ¬ ascii "POST" <+: m := by
  rw [aThingy_of_not_lookupFails hlookup] at h
  by_cases hget : ascii "GET" <+: m
  · rw [onData_get parserCalls _ hget] at h
    exact iff_of_false (ne_nil_of_message h) fun hother => hother.1 hget
  · by_cases hpost : ascii "POST" <+: m
    · rw [onData_post parserCalls _ hpost] at h
      exact iff_of_false (ne_nil_of_message h) fun hother => hother.2 hpost
    · rw [onData_other parserCalls _ hget hpost] at h
      exact iff_of_true (Except.ok.inj h).symm ⟨hget, hpost⟩

theorem taken_eq_nil_iff (result : WriteResult) (answer : Bytes) :
    result.taken answer = [] ↔ answer = [] ∨ result = .failed ∨ result = .written 0 := by
  cases result with
  | failed => simp [WriteResult.taken]
  | written n => simp [WriteResult.taken, List.take_eq_nil_iff, or_comm]

/-- In every conversation the connection is closed without a byte of an answer exactly for the
requests whose method is neither GET nor POST, for those whose page cannot be looked up, and if
the call of `write` takes nothing. -/
theorem unanswered_iff (machine : Machine) (sockfd : ℤ) (clientSocket : SockaddrIn) (connfd : ℤ)
    (fds : Finset ℤ) (stack : CharBuffer) (result : WriteResult) {m : Bytes}
    (hm : EndsOnce (crlf ++ crlf) m) (hnul : 0 ∉ m) (hlength : m.length ≤ bufSize) :
    ∀ s, EndsIn (step (aSocket machine sockfd)) (start clientSocket connfd fds stack m result) s →
      s.client = .sawEnd ∧ (s.received = [] ↔ (¬ ascii "GET" <+: m ∧ ¬ ascii "POST" <+: m) ∨
        LookupFails machine m ∨ result = .failed ∨ result = .written 0) := by
  intro s hend
  have hterminator : (aSocket machine sockfd).terminator ≠ [] := (by decide : crlf ++ crlf ≠ [])
  obtain ⟨-, hsees, hreceived⟩ := answered_of_endsOnce rfl hnul hlength hterminator hm hend
  refine ⟨hsees, ?_⟩
  rw [hreceived]
  by_cases hlookup : LookupFails machine m
  · have herror : aThingy machine m = .error .filesystemError :=
      onData_of_lookupFails parserCalls hlookup
    have hnothing : reply (aSocket machine sockfd) result m = [] := by
      simp only [reply, aSocket, SocketServer.SocketIPv4.onDataReceive, herror]
    exact iff_of_true hnothing (.inr (.inl hlookup))
  · obtain ⟨answer, hanswer⟩ := (exists_answer_iff machine hm.1).mpr hlookup
    have hreply : reply (aSocket machine sockfd) result m = result.taken answer :=
      reply_onDataReceive hanswer
    rw [hreply, taken_eq_nil_iff, aThingy_eq_nil_iff hlookup hanswer]
    exact or_congr_right (or_iff_right hlookup).symm

theorem unanswered_iff_head :
    ∃ s, EndsIn (step (aSocket Environment.bare.withNameMax 3))
        (start ⟨0, 0⟩ 4 {0, 1, 2, 3, 4} .zeroed (ascii "HEAD / HTTP/1.1\r\n\r\n") .failed) s ∧
      s.client = .sawEnd ∧
        (s.received = [] ↔ (¬ ascii "GET" <+: ascii "HEAD / HTTP/1.1\r\n\r\n" ∧
            ¬ ascii "POST" <+: ascii "HEAD / HTTP/1.1\r\n\r\n") ∨
          LookupFails Environment.bare.withNameMax (ascii "HEAD / HTTP/1.1\r\n\r\n") ∨
            WriteResult.failed = .failed ∨ WriteResult.failed = .written 0) := by
  obtain ⟨s, hend⟩ := exists_ending (aSocket Environment.bare.withNameMax 3)
    (start ⟨0, 0⟩ 4 {0, 1, 2, 3, 4} .zeroed (ascii "HEAD / HTTP/1.1\r\n\r\n") .failed)
  exact ⟨s, hend, unanswered_iff Environment.bare.withNameMax 3 ⟨0, 0⟩ 4 {0, 1, 2, 3, 4} .zeroed
    .failed (endsOnce_of_inits (by decide) (by decide)) (by decide) (by decide) s hend⟩

end Methods

section Forms

variable {sockfd : ℤ} {clientSocket : SockaddrIn} {connfd : ℤ} {fds : Finset ℤ}
  {stack : CharBuffer} {head form : Bytes}

/-- The child can stop only before the form. -/
theorem stopsAt_iff_head {terminator : Bytes} (ht : terminator ≠ []) (hhead : terminator <:+ head)
    (honce : ∀ a b, head ++ form = a ++ (terminator ++ b) → b = form) (d : Bytes) :
    StopsAt terminator (head ++ form) d ↔ d = head := by
  constructor
  · intro h
    obtain ⟨a, ha⟩ := h.isSuffix
    obtain ⟨b, hb⟩ := h.isPrefix
    have hform : b = form := by
      apply honce a
      rw [← hb, ← ha, List.append_assoc]
    rw [hform] at hb
    exact List.append_cancel_right hb
  · rintro rfl
    have hne : d ≠ [] := by
      rintro rfl
      exact ht (List.suffix_nil.mp hhead)
    exact ⟨List.prefix_append _ _, hne, hhead⟩

/-- A form that is posted behind the first blank line is never read by a callback: the callback
of the path sees the head alone, or the browser and the server wait for each other, and which
of the two is a matter of how the reads fall. As the form is left unread then, a reset may take
the answer to the head away. -/
theorem form_never_handled (machine : Machine) (sockfd : ℤ) (clientSocket : SockaddrIn)
    (connfd : ℤ) (fds : Finset ℤ) (stack : CharBuffer) (result : WriteResult) {head form : Bytes}
    (hhead : crlf ++ crlf <:+ head) (hform : form ≠ [])
    (honce : ∀ a b, head ++ form = a ++ (crlf ++ crlf ++ b) → b = form)
    (hnul : 0 ∉ head ++ form) (hlength : (head ++ form).length ≤ bufSize) :
    (∀ s, EndsIn (step (aSocket machine sockfd))
        (start clientSocket connfd fds stack (head ++ form) result) s →
          s.Deadlocked ∨ s.Answered (aSocket machine sockfd) result (head ++ form) head) ∧
      (∃ s, EndsIn (step (aSocket machine sockfd))
        (start clientSocket connfd fds stack (head ++ form) result) s ∧ s.Deadlocked) ∧
      ∃ s, EndsIn (step (aSocket machine sockfd))
        (start clientSocket connfd fds stack (head ++ form) result) s ∧
          s.Answered (aSocket machine sockfd) result (head ++ form) head := by
  have hstops : ∀ d, StopsAt (crlf ++ crlf) (head ++ form) d ↔ d = head :=
    stopsAt_iff_head (by decide) hhead honce
  have hopen : ¬ crlf ++ crlf <:+ head ++ form := by
    rintro ⟨a, ha⟩
    exact hform (honce a [] (by rw [List.append_nil, ha])).symm
  have houtcome : ∀ s, EndsIn (step (aSocket machine sockfd))
      (start clientSocket connfd fds stack (head ++ form) result) s →
        s.Deadlocked ∨ s.Answered (aSocket machine sockfd) result (head ++ form) head := by
    intro s hend
    rcases outcome_of_endsIn rfl hnul hlength hend with ⟨hdeadlocked, -⟩ | ⟨d, hd, hanswered⟩
    · exact .inl hdeadlocked
    · obtain rfl := (hstops d).mp hd
      exact .inr hanswered
  refine ⟨houtcome, exists_endsIn_deadlocked rfl hnul hlength rfl (.inr hopen), ?_⟩
  obtain ⟨s, hend, hhandled⟩ : ∃ s, EndsIn (step (aSocket machine sockfd))
      (start clientSocket connfd fds stack (head ++ form) result) s ∧ s.child.handled = [head] :=
    exists_endsIn_stopsAt rfl hnul hlength ((hstops head).mpr rfl)
  refine ⟨s, hend, (houtcome s hend).resolve_left ?_⟩
  intro hdeadlocked
  rw [hdeadlocked.child.2.2] at hhandled
  cases hhandled

theorem form_never_handled_john :
    (∀ s, EndsIn (step (aSocket Environment.bare.withNameMax 3))
        (start ⟨0, 0⟩ 4 {0, 1, 2, 3, 4} .zeroed
          (ascii "POST /test HTTP/1.1\r\n\r\n" ++ ascii "fname=John") (.written 100)) s →
        s.Deadlocked ∨ s.Answered (aSocket Environment.bare.withNameMax 3) (.written 100)
          (ascii "POST /test HTTP/1.1\r\n\r\n" ++ ascii "fname=John")
          (ascii "POST /test HTTP/1.1\r\n\r\n")) ∧
      (∃ s, EndsIn (step (aSocket Environment.bare.withNameMax 3))
        (start ⟨0, 0⟩ 4 {0, 1, 2, 3, 4} .zeroed
          (ascii "POST /test HTTP/1.1\r\n\r\n" ++ ascii "fname=John") (.written 100)) s ∧
        s.Deadlocked) ∧
      ∃ s, EndsIn (step (aSocket Environment.bare.withNameMax 3))
        (start ⟨0, 0⟩ 4 {0, 1, 2, 3, 4} .zeroed
          (ascii "POST /test HTTP/1.1\r\n\r\n" ++ ascii "fname=John") (.written 100)) s ∧
        s.Answered (aSocket Environment.bare.withNameMax 3) (.written 100)
          (ascii "POST /test HTTP/1.1\r\n\r\n" ++ ascii "fname=John")
          (ascii "POST /test HTTP/1.1\r\n\r\n") :=
  form_never_handled Environment.bare.withNameMax 3 ⟨0, 0⟩ 4 {0, 1, 2, 3, 4} .zeroed (.written 100)
    (by decide) (by decide) (behind_of_inits (by decide)) (by decide) (by decide)

end Forms

section Pipelines

open PatternSearch

/-- The version does not reach beyond its line. -/
theorem getHttpVersion_append {s : Bytes} {i : ℕ} (hi : firstIndex (ascii "HTTP") s = some i)
    (hcr : cr ∈ s.drop (i + 4)) (rest : Bytes) :
    getHttpVersion (s ++ rest) = getHttpVersion s := by
  have hfits : i + 4 ≤ s.length := firstIndex_add_length_le hi
  obtain ⟨hle, hmatch, hfirst⟩ := (firstIndex_eq_some_iff _ _ _).mp hi
  have hsame : firstIndex (ascii "HTTP") (s ++ rest) = some i := by
    rw [firstIndex_eq_some_iff]
    refine ⟨by rw [List.length_append]; omega, ?_, ?_⟩
    · rw [List.drop_append_of_le_length hle]
      exact hmatch.trans (List.prefix_append _ _)
    · intro j hj hearlier
      rw [List.drop_append_of_le_length (by omega)] at hearlier
      refine hfirst j hj (List.prefix_of_prefix_length_le hearlier (List.prefix_append _ _) ?_)
      rw [List.length_drop, show (ascii "HTTP").length = 4 from rfl]
      omega
  have hline : ((s ++ rest).drop (i + 4)).takeWhile matchesDot =
      (s.drop (i + 4)).takeWhile matchesDot := by
    rw [List.drop_append_of_le_length hfits, List.takeWhile_append, if_neg]
    intro hlength
    have hall := List.takeWhile_eq_self_iff.mp
      ((List.takeWhile_prefix matchesDot).eq_of_length hlength) cr hcr
    exact absurd hall (by decide)
  simp only [getHttpVersion, hsame, hi, hline]

/-- The first `HTTP` of a request line has the rest of the line behind it. -/
theorem exists_firstIndex_requestLine (m p v : Bytes) :
    ∃ i, firstIndex (ascii "HTTP") (requestLine m p v) = some i ∧
      v <:+ (requestLine m p v).drop (i + 4) := by
  have hsplit : requestLine m p v = (m ++ space :: slash :: (p ++ [space])) ++ (ascii "HTTP" ++ v) := by
    simp [requestLine, show ascii " HTTP" = space :: ascii "HTTP" by decide]
  generalize m ++ space :: slash :: (p ++ [space]) = front at hsplit
  have hhere : ascii "HTTP" <+: (requestLine m p v).drop front.length := by
    rw [hsplit, List.drop_left]
    exact List.prefix_append _ _
  obtain ⟨i, hi⟩ := Option.isSome_iff_exists.mp
    ((firstIndex_isSome_iff _ _).mpr (hhere.isInfix.trans (List.drop_suffix _ _).isInfix))
  have hle : i ≤ front.length := by
    by_contra hlate
    exact ((firstIndex_eq_some_iff _ _ _).mp hi).2.2 front.length (by omega) hhere
  refine ⟨i, hi, ?_⟩
  have hv : v = (requestLine m p v).drop (front.length + 4) := by
    rw [hsplit, ← List.drop_drop, List.drop_left, show 4 = (ascii "HTTP").length from rfl,
      List.drop_left]
  have hlater : front.length + 4 = i + 4 + (front.length - i) := by omega
  have hsuffix : ((requestLine m p v).drop (i + 4)).drop (front.length - i) <:+
      (requestLine m p v).drop (i + 4) := List.drop_suffix _ _
  rw [hlater, ← List.drop_drop] at hv
  rwa [← hv] at hsuffix

theorem getHttpVersion_requestLine_append {v : Bytes} (hcr : cr ∈ v) (m p rest : Bytes) :
    getHttpVersion (requestLine m p (v ++ rest)) = getHttpVersion (requestLine m p v) := by
  have happend : requestLine m p (v ++ rest) = requestLine m p v ++ rest := by
    simp [requestLine]
  obtain ⟨i, hi, hsuffix⟩ := exists_firstIndex_requestLine m p v
  rw [happend]
  exact getHttpVersion_append hi (hsuffix.subset hcr) rest

variable {machine : Machine} {m p v : Bytes}

theorem lookupFails_requestLine_iff (hp : space ∉ p) (hdots : ¬ ascii "../" <:+: p) (v : Bytes)
    (hlength : (requestLine (ascii "GET") p v).length < 2 ^ 32) :
    LookupFails machine (requestLine (ascii "GET") p v) ↔
      machine.statFails (cStr (pageName p)) = true := by
  have hget : ascii "GET" <+: requestLine (ascii "GET") p v := List.prefix_append _ _
  rw [LookupFails, requestedPage_requestLine hp hdots v hlength]
  simp only [and_iff_right hget, Except.ok.injEq, exists_eq_left']

theorem not_lookupFails_post (p v : Bytes) :
    ¬ LookupFails machine (requestLine (ascii "POST") p v) := by
  rintro ⟨hget, -⟩
  have hpost : ascii "POST" <+: requestLine (ascii "POST") p v := List.prefix_append _ _
  exact absurd (List.prefix_of_prefix_length_le hget hpost (by decide)) (by decide)

/-- What comes behind the first line has no influence on the answer. -/
theorem aThingy_requestLine_append (hm : m = ascii "GET" ∨ m = ascii "POST") (hp : space ∉ p)
    (hdots : ¬ ascii "../" <:+: p) (hcr : cr ∈ v) (rest : Bytes)
    (hlength : (requestLine m p (v ++ rest)).length < 2 ^ 32) :
    aThingy machine (requestLine m p (v ++ rest)) = aThingy machine (requestLine m p v) := by
  have hshort : (requestLine m p v).length < 2 ^ 32 := by
    have happend : requestLine m p (v ++ rest) = requestLine m p v ++ rest := by
      simp [requestLine]
    rw [happend, List.length_append] at hlength
    omega
  have hversion := getHttpVersion_requestLine_append hcr m p rest
  have hserving : (HttpParser.after parserCalls).serving (requestLine m p (v ++ rest)) =
      (HttpParser.after parserCalls).serving (requestLine m p v) := by
    rw [HttpParser.serving, HttpParser.serving, hversion]
  rcases hm with rfl | rfl
  · have hget : ∀ v, ascii "GET" <+: requestLine (ascii "GET") p v := fun v => List.prefix_append _ _
    by_cases hlookup : machine.statFails (cStr (pageName p)) = true
    · rw [aThingy_eq, aThingy_eq,
        onData_of_lookupFails _ ((lookupFails_requestLine_iff hp hdots _ hlength).mpr hlookup),
        onData_of_lookupFails _ ((lookupFails_requestLine_iff hp hdots _ hshort).mpr hlookup)]
    · rw [aThingy_of_not_lookupFails
          (mt (lookupFails_requestLine_iff hp hdots _ hlength).mp hlookup),
        aThingy_of_not_lookupFails
          (mt (lookupFails_requestLine_iff hp hdots _ hshort).mp hlookup),
        onData_get _ _ (hget _),
        onData_get _ _ (hget _), hserving,
        handleGetRequest_of_page _ (requestedPage_requestLine hp hdots _ hlength),
        handleGetRequest_of_page _ (requestedPage_requestLine hp hdots _ hshort)]
  · rw [aThingy_of_not_lookupFails (not_lookupFails_post _ _),
      aThingy_of_not_lookupFails (not_lookupFails_post _ _),
      onData_post_requestLine parserCalls _ hp hdots _ hlength,
      onData_post_requestLine parserCalls _ hp hdots _ hshort, hserving]
    cases hlookup : (registrations parserCalls).lookup p with
    | none => rfl
    | some callback =>
      have hmem := mem_registrations_of_lookup hlookup
      obtain ⟨-, rfl⟩ := Prod.mk.inj (List.mem_singleton.mp hmem)
      rfl

/-- Where the child stops, it has the whole of a beginning that ends once. -/
theorem isPrefix_of_endsOnce {terminator head rest d : Bytes} (h : EndsOnce terminator head)
    (hstops : StopsAt terminator (head ++ rest) d) : head <+: d := by
  rcases List.prefix_or_prefix_of_prefix (List.prefix_append head rest) hstops.isPrefix with
    hhead | hd
  · exact hhead
  · rw [h.eq_of_isPrefix hd hstops.isSuffix]

theorem stopsAt_of_endsOnce {terminator head : Bytes} (ht : terminator ≠ [])
    (h : EndsOnce terminator head) (rest : Bytes) : StopsAt terminator (head ++ rest) head :=
  ⟨List.prefix_append _ _, h.ne_nil ht, h.1⟩

/-- Wherever the child stops, it answers the first request. -/
theorem aThingy_of_stopsAt {rest d : Bytes} (hm : m = ascii "GET" ∨ m = ascii "POST")
    (hp : space ∉ p) (hdots : ¬ ascii "../" <:+: p)
    (hfirst : EndsOnce (crlf ++ crlf) (requestLine m p (v ++ (crlf ++ crlf))))
    (hlength : (requestLine m p (v ++ (crlf ++ crlf)) ++ rest).length ≤ bufSize)
    (hstops : StopsAt (crlf ++ crlf) (requestLine m p (v ++ (crlf ++ crlf)) ++ rest) d) :
    aThingy machine d = aThingy machine (requestLine m p (v ++ (crlf ++ crlf))) := by
  obtain ⟨d', rfl⟩ := isPrefix_of_endsOnce hfirst hstops
  have happend : requestLine m p (v ++ (crlf ++ crlf)) ++ d' =
      requestLine m p (v ++ (crlf ++ crlf) ++ d') := by simp [requestLine]
  have hfits := hstops.isPrefix.length_le.trans hlength
  have hcr : cr ∈ v ++ (crlf ++ crlf) := List.mem_append_right v (by decide)
  rw [happend] at hfits ⊢
  exact aThingy_requestLine_append hm hp hdots hcr d' (hfits.trans_lt (by decide))

/-- Of several requests on one connection only the first one, GET or POST, is answered, if the
last of them ends with a blank line: in every conversation the browser gets what `write` takes of
this answer, or a beginning of it and then a reset, which can take everything away exactly if
there is more than the first request. -/
theorem first_request_answered (machine : Machine) (sockfd : ℤ) (clientSocket : SockaddrIn)
    (connfd : ℤ) (fds : Finset ℤ) (stack : CharBuffer) (result : WriteResult)
    {m p v rest : Bytes} (hm : m = ascii "GET" ∨ m = ascii "POST") (hp : space ∉ p)
    (hdots : ¬ ascii "../" <:+: p)
    (hfirst : EndsOnce (crlf ++ crlf) (requestLine m p (v ++ (crlf ++ crlf))))
    (hlast : crlf ++ crlf <:+ requestLine m p (v ++ (crlf ++ crlf)) ++ rest)
    (hnul : 0 ∉ requestLine m p (v ++ (crlf ++ crlf)) ++ rest)
    (hlength : (requestLine m p (v ++ (crlf ++ crlf)) ++ rest).length ≤ bufSize)
    (hlookup : ¬ LookupFails machine (requestLine m p (v ++ (crlf ++ crlf)))) :
    ∃ answer, aThingy machine (requestLine m p (v ++ (crlf ++ crlf))) = .ok answer ∧
      (∀ s, EndsIn (step (aSocket machine sockfd)) (start clientSocket connfd fds stack
          (requestLine m p (v ++ (crlf ++ crlf)) ++ rest) result) s →
        s.client = .sawEnd ∧ s.received = result.taken answer ∨
          s.client = .sawReset ∧ s.received <+: result.taken answer) ∧
      ((∃ s, EndsIn (step (aSocket machine sockfd)) (start clientSocket connfd fds stack
          (requestLine m p (v ++ (crlf ++ crlf)) ++ rest) result) s ∧
        s.client = .sawReset ∧ s.received = []) ↔ rest ≠ []) := by
  obtain ⟨answer, hanswer⟩ := (exists_answer_iff machine hfirst.1).mpr hlookup
  refine ⟨answer, hanswer, ?_, ?_⟩
  · intro s hend
    rcases outcome_of_endsIn rfl hnul hlength hend with
      ⟨-, hnil | hopen⟩ | ⟨d, hstops, -, hreceived⟩
    · exact absurd (List.append_eq_nil_iff.mp hnil).1 (hfirst.ne_nil (by decide))
    · exact absurd hlast hopen
    · have hsame : aThingy machine d = .ok answer :=
        (aThingy_of_stopsAt hm hp hdots hfirst hlength hstops).trans hanswer
      have hreply : reply (aSocket machine sockfd) result d = result.taken answer :=
        reply_onDataReceive hsame
      rw [hreply] at hreceived
      exact hreceived.imp_right fun h => ⟨h.1, h.2.2⟩
  · constructor
    · rintro ⟨s, hend, hreset, -⟩ rfl
      rw [List.append_nil] at hend hnul hlength
      obtain ⟨hsees, -⟩ := taken_of_endsOnce rfl hnul hlength (by decide) hfirst hanswer hend
      rw [hsees] at hreset
      cases hreset
    · intro hrest
      have hstops : StopsAt (aSocket machine sockfd).terminator
          (requestLine m p (v ++ (crlf ++ crlf)) ++ rest) (requestLine m p (v ++ (crlf ++ crlf))) :=
        stopsAt_of_endsOnce (by decide) hfirst rest
      obtain ⟨s, hend, hlost⟩ := exists_endsIn_lost rfl hnul hlength hstops
        (mt List.self_eq_append_right.mp hrest)
      exact ⟨s, hend, hlost.client, hlost.received⟩

theorem first_request_answered_twice :
    ∃ answer, aThingy (rootServer (ascii "index.html") (ascii "hi")).withNameMax
        (requestLine (ascii "GET") [] (ascii "/1.1" ++ (crlf ++ crlf))) = .ok answer ∧
      (∀ s, EndsIn (step (aSocket (rootServer (ascii "index.html") (ascii "hi")).withNameMax 3))
          (start ⟨0, 0⟩ 4 {0, 1, 2, 3, 4} .zeroed
            (requestLine (ascii "GET") [] (ascii "/1.1" ++ (crlf ++ crlf)) ++
              ascii "GET /page2.html HTTP/1.1\r\n\r\n") (.written 100)) s →
        s.client = .sawEnd ∧ s.received = (WriteResult.written 100).taken answer ∨
          s.client = .sawReset ∧ s.received <+: (WriteResult.written 100).taken answer) ∧
      ((∃ s, EndsIn (step (aSocket (rootServer (ascii "index.html") (ascii "hi")).withNameMax 3))
          (start ⟨0, 0⟩ 4 {0, 1, 2, 3, 4} .zeroed
            (requestLine (ascii "GET") [] (ascii "/1.1" ++ (crlf ++ crlf)) ++
              ascii "GET /page2.html HTTP/1.1\r\n\r\n") (.written 100)) s ∧
        s.client = .sawReset ∧ s.received = []) ↔
          ascii "GET /page2.html HTTP/1.1\r\n\r\n" ≠ []) := by
  have hpage := requestedPage_requestLine (by decide : space ∉ []) (by decide)
    (ascii "/1.1" ++ (crlf ++ crlf)) (by decide)
  exact first_request_answered (rootServer (ascii "index.html") (ascii "hi")).withNameMax 3 ⟨0, 0⟩ 4
    {0, 1, 2, 3, 4} .zeroed (.written 100) (.inl rfl) (by decide) (by decide)
    (endsOnce_of_inits (by decide) (by decide)) (by decide) (by decide) (by decide)
    (not_lookupFails_of_page hpage (by decide))

end Pipelines

end CppWebserver.WebServer
