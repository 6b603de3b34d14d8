import CppWebserver.ServerProgress
import CppWebserver.WebServer

/-!
# Pages for many browsers

Among any other clients, and in whatever order the processes run, every browser that asks for
a file is sent as much of the answer with it as `write` takes.
-/

namespace CppWebserver.WebServer
open ByteStrings DelimitedStreams HttpMessages HttpParserProgram LabelledRuns ServedFiles
open SocketReadLoop
open FailingLookups hiding handleGetRequest
open SocketServer hiding step

/-- The data of a message that ends once, whatever it is cut into and whatever follows. -/
theorem data_handleRead_of_endsOnce {terminator m : Bytes} {cs : List Bytes} (ht : terminator ≠ [])
    (hm : EndsOnce terminator m) (hnul : 0 ∉ m) (hcs : Segmentation bufSize m cs)
    (buffer : CharBuffer) (rest : List ReadResult) :
    (handleRead terminator buffer (cs.map .bytes ++ rest)).data = some m := by
  have hvisible : visible cs = m := by
    rw [visible_of_notMem, hcs.flatten_eq]
    intro c hc hz
    exact hnul (hcs.flatten_eq ▸ List.mem_flatten_of_mem hc hz)
  have hclosed : (received 0 terminator cs).closed = true := by
    rw [received_closed_iff ht]
    exact ⟨cs.length, by rw [List.take_length, hvisible]; exact hm.1⟩
  obtain ⟨k, hloop⟩ := readLoop_of_closed (short_of_segmentation hcs) hclosed buffer 0 rest
  have htext : (received 0 terminator cs).text = m := by
    obtain ⟨cs₀, c, cs₁, hsplit, hopen, hsuffix⟩ := exists_closing_piece hclosed
    have hflat : m = cs₀.flatten ++ c ++ cs₁.flatten := by
      rw [← hvisible, visible, hsplit, List.flatten_append, List.flatten_cons, List.append_assoc]
    obtain ⟨a, ha⟩ := hsuffix
    have hrest : cs₁.flatten = [] := by
      apply hm.2 a
      rw [← List.append_assoc, ha]
      exact hflat
    have hgather : received 0 terminator cs = ⟨cs₀.flatten ++ c, true⟩ := by
      rw [received, hsplit]
      exact gather_of_closing_piece _ hopen ⟨a, ha⟩
    rw [hgather, hflat, hrest, List.append_nil]
  rw [handleRead, YStreamBuffer.new, hloop, ReadOutcome.data, ← htext]
  rfl

/-- A client that asks for a file, with a request that ends at its first blank line. -/
inductive AsksFor (machine : Machine) : Connection → WriteResult → Bytes → Prop where
  | page {clientSocket : SockaddrIn} {p v : Bytes} {cs : List Bytes} {rest : List ReadResult}
      {result : WriteResult} {writes : List WriteResult} {data : FileData}
      (name : space ∉ p ∧ ¬ ascii "../" <:+: p)
      (request : EndsOnce (crlf ++ crlf) (requestLine (ascii "GET") p v) ∧
        0 ∉ requestLine (ascii "GET") p v ∧ (requestLine (ascii "GET") p v).length ≤ bufSize)
      (cut : Segmentation bufSize (requestLine (ascii "GET") p v) cs)
      (file : machine.stat (cStr (pageName p)) = .file data ∧ data.readable = true ∧
        (extension (pageName p) = ascii ".ico" → data.writable = true))
      (lookup : machine.statFails (cStr (pageName p)) = false) :
    AsksFor machine ⟨clientSocket, cs.map .bytes ++ rest, result :: writes⟩ result data.content

theorem AsksFor.served {machine : Machine} {connection : Connection} {result : WriteResult}
    {content : Bytes} (h : AsksFor machine connection result content) (sockfd : ℤ) :
    ∃ answer, served (aSocket machine sockfd) connection = some (result.taken answer) ∧
      body answer = some (content ++ (crlf ++ crlf)) := by
  cases h with
  | @page clientSocket p v cs rest result writes data name request cut file lookup =>
    obtain ⟨answer, hanswer, hbody⟩ :=
      body_aThingy_requestLine name.1 name.2 (request.2.2.trans_lt (by decide)) file.1 file.2.1
        file.2.2 lookup
    refine ⟨answer, ?_, hbody⟩
    have hdata : (handleRead (aSocket machine sockfd).terminator .zeroed
        (cs.map .bytes ++ rest)).data = some (requestLine (ascii "GET") p v) :=
      data_handleRead_of_endsOnce (by decide) request.1 request.2.1 cut .zeroed rest
    have haccept : (aSocket machine sockfd).callAccept clientSocket = .ok () := rfl
    have hhandler : (aSocket machine sockfd).dataHandlerCb = some (aThingy machine) := rfl
    simp only [SocketServer.served, haccept, hdata, Option.bind_some, answered, hhandler, hanswer,
      List.head?_cons, Option.map_some]

/-- Among any clients, every browser that has asked for a file has been sent what one call of
`write` takes of the answer with it when the work of the server is done, whatever the order of
the processes. -/
theorem every_page_served (machine : Machine) {sockfd : ℤ} {fds : Finset ℤ}
    (hlistening : sockfd ∈ fds) {es : List Event} {s : Server}
    (h : run (faultlessStep (aSocket machine sockfd)) (.start fds) es = some s) :
    ∀ s', EndsIn (work (aSocket machine sockfd)) s s' →
      ∀ (pid : ℕ) (connection : Connection) result content, s.arrived[pid]? = some connection →
        AsksFor machine connection result content →
          ∃ (c : Child) (answer : Bytes), s'.children[pid]? = some c ∧
            c.connection = connection ∧ c.HasClosed ∧
            body answer = some (content ++ (crlf ++ crlf)) ∧ c.written = result.taken answer := by
  intro s' hend pid connection result content harrived hasks
  obtain ⟨c, hc, hconnection, hserved⟩ := exists_child_of_endsIn hlistening h hend harrived
  obtain ⟨answer, hanswer, hbody⟩ := hasks.served sockfd
  obtain ⟨hclosed, hwritten⟩ := (hserved _).mp hanswer
  exact ⟨c, answer, hc, hconnection, hclosed, hbody, hwritten⟩

/-- A browser that sends its request in two pieces. -/
def indexBrowser : Connection :=
  ⟨⟨0, 0⟩, [ascii "GET / HTTP/1.1\r\n\r", ascii "\n"].map .bytes ++ [], [.written 100]⟩

/-- The browser behind a client that says nothing. -/
def twoArrivals : List Event := [.arrive ⟨⟨0, 0⟩, [], []⟩, .arrive indexBrowser]

theorem asksFor_indexBrowser :
    AsksFor (rootServer (ascii "index.html") (ascii "hi")).withNameMax indexBrowser (.written 100)
      (ascii "hi") := by
  have hm : EndsOnce (crlf ++ crlf) (requestLine (ascii "GET") [] (ascii "/1.1\r\n\r\n")) :=
    endsOnce_of_inits (by decide) (by decide)
  have hcut : Segmentation bufSize (requestLine (ascii "GET") [] (ascii "/1.1\r\n\r\n"))
      [ascii "GET / HTTP/1.1\r\n\r", ascii "\n"] := ⟨by decide, by decide, by decide⟩
  have hfile : (rootServer (ascii "index.html") (ascii "hi")).withNameMax.stat
      (cStr (pageName [])) = .file ⟨ascii "hi", true, true⟩ := by decide
  have hlookup : (rootServer (ascii "index.html") (ascii "hi")).withNameMax.statFails
      (cStr (pageName [])) = false := by decide
  exact .page ⟨by decide, by decide⟩ ⟨hm, by decide, by decide⟩ hcut
    ⟨hfile, rfl, fun _ => rfl⟩ hlookup

theorem every_page_served_index :
    ∃ s, run (faultlessStep (aSocket (rootServer (ascii "index.html") (ascii "hi")).withNameMax 3))
        (.start {0, 1, 2, 3}) twoArrivals = some s ∧
      ∀ s', EndsIn (work (aSocket (rootServer (ascii "index.html") (ascii "hi")).withNameMax 3))
          s s' →
        ∃ (c : Child) (answer : Bytes), s'.children[1]? = some c ∧ c.connection = indexBrowser ∧
          c.HasClosed ∧ body answer = some (ascii "hi" ++ (crlf ++ crlf)) ∧
          c.written = (WriteResult.written 100).taken answer := by
  have hlistening : (3 : ℤ) ∈ ({0, 1, 2, 3} : Finset ℤ) := by decide
  obtain ⟨s, hs, harrived⟩ : ∃ s,
      run (faultlessStep (aSocket (rootServer (ascii "index.html") (ascii "hi")).withNameMax 3))
        (.start {0, 1, 2, 3}) twoArrivals = some s ∧ s.arrived[1]? = some indexBrowser :=
    ⟨_, rfl, rfl⟩
  refine ⟨s, hs, ?_⟩
  intro s' hend
  exact every_page_served _ hlistening hs s' hend 1 indexBrowser (.written 100) (ascii "hi")
    harrived asksFor_indexBrowser

end CppWebserver.WebServer
