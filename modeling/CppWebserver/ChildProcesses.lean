import CppWebserver.SocketServer
import Mathlib.Logic.Relation

/-!
# The life of a child

A child of the server does everything that concerns its connection: one read
loop, at most one call of the data handler, at most one `write`. What it reads is
passed on however the loop has ended, so the handler is safe from truncated
requests only under a condition on the reads. What it sends is what the one call
of `write` takes of its answer.
-/

namespace CppWebserver.SocketServer
open ByteStrings DelimitedStreams SocketReadLoop

/-- The child gets from one state to another. -/
abbrev ChildRun (socket : SocketIPv4) : Child → Child → Prop :=
  Relation.ReflTransGen (fun c c' => childStep socket c = some c')

/-- The rule of invariants for a child. -/
theorem ChildRun.invariant {socket : SocketIPv4} {c c' : Child} (I : Child → Prop)
    (start : I c) (next : ∀ c c', I c → childStep socket c = some c' → I c')
    (h : ChildRun socket c c') : I c' := by
  induction h with
  | refl => exact start
  | tail _ hstep ih => exact next _ _ ih hstep

/-- Everything a child can do in one step. -/
inductive ChildMove (socket : SocketIPv4) (c : Child) : Child → Prop where
  | closeListening (h : c.pc = .closeListening) :
    ChildMove socket c { c.close socket.sockfd with pc := .acceptCallback }
  | acceptCallback (h : c.pc = .acceptCallback)
      (hcb : socket.callAccept c.connection.clientSocket = .ok ()) :
    ChildMove socket c { c with pc := .handleRead c.stack .new }
  | acceptThrows {e : CppException} (h : c.pc = .acceptCallback)
      (hcb : socket.callAccept c.connection.clientSocket = .error e) :
    ChildMove socket c { c with pc := .terminated }
  | read {buffer : CharBuffer} {aStreambuffer : YStreamBuffer} {result : ReadResult}
      {reads : List ReadResult} (h : c.pc = .handleRead buffer aStreambuffer)
      (hr : c.reads = result :: reads) :
    ChildMove socket c { c with
      pc := afterRead (readStep socket.terminator buffer aStreambuffer result), reads := reads }
  | noHandler {aReadBuffer : YStreamBuffer} (h : c.pc = .dataHandler aReadBuffer)
      (hcb : socket.dataHandlerCb = none) :
    ChildMove socket c { c with pc := .closeConnection }
  | handle {aReadBuffer : YStreamBuffer} {dataHandlerCb : Bytes → Except CppException Bytes}
      {aWriteData : Bytes} (h : c.pc = .dataHandler aReadBuffer)
      (hcb : socket.dataHandlerCb = some dataHandlerCb)
      (hw : dataHandlerCb aReadBuffer.fBufferData = .ok aWriteData) :
    ChildMove socket c { c with
      handled := c.handled ++ [aReadBuffer.fBufferData], pc := .write aWriteData }
  | handlerThrows {aReadBuffer : YStreamBuffer} {dataHandlerCb : Bytes → Except CppException Bytes}
      {e : CppException} (h : c.pc = .dataHandler aReadBuffer)
      (hcb : socket.dataHandlerCb = some dataHandlerCb)
      (hw : dataHandlerCb aReadBuffer.fBufferData = .error e) :
    ChildMove socket c { c with
      handled := c.handled ++ [aReadBuffer.fBufferData], pc := .terminated }
  | write {aWriteData : Bytes} {n : ℕ} {writes : List WriteResult} (h : c.pc = .write aWriteData)
      (hw : c.writes = .written n :: writes) :
    ChildMove socket c { c with
      written := c.written ++ aWriteData.take n, writes := writes, pc := .closeConnection }
  | writeFails {aWriteData : Bytes} {writes : List WriteResult} (h : c.pc = .write aWriteData)
      (hw : c.writes = .failed :: writes) :
    ChildMove socket c { c with writes := writes, pc := .closeConnection }
  | closeConnection (h : c.pc = .closeConnection) :
    ChildMove socket c { c.close c.connfd with pc := .exit }
  | exit (h : c.pc = .exit) : ChildMove socket c { c with pc := .exited }

theorem childMove_of_step {socket : SocketIPv4} {c c' : Child}
    (h : childStep socket c = some c') : ChildMove socket c c' := by
  cases hpc : c.pc with
  | closeListening =>
    simp only [childStep, hpc] at h
    cases h
    exact .closeListening hpc
  | acceptCallback =>
    simp only [childStep, hpc] at h
    split at h
    · next hcb =>
      cases h
      exact .acceptCallback hpc hcb
    · next hcb =>
      cases h
      exact .acceptThrows hpc hcb
  | handleRead buffer aStreambuffer =>
    simp only [childStep, hpc] at h
    split at h
    · cases h
    · next hr =>
      cases h
      exact .read hpc hr
  | dataHandler aReadBuffer =>
    simp only [childStep, hpc] at h
    split at h
    · next hcb =>
      cases h
      exact .noHandler hpc hcb
    · next dataHandlerCb hcb =>
      cases h
      cases hw : dataHandlerCb aReadBuffer.fBufferData with
      | ok aWriteData => exact .handle hpc hcb hw
      | error e => exact .handlerThrows hpc hcb hw
  | write aWriteData =>
    simp only [childStep, hpc] at h
    split at h
    · cases h
    · next hw =>
      cases h
      exact .write hpc hw
    · next hw =>
      cases h
      exact .writeFails hpc hw
  | closeConnection =>
    simp only [childStep, hpc] at h
    cases h
    exact .closeConnection hpc
  | exit =>
    simp only [childStep, hpc] at h
    cases h
    exact .exit hpc
  | loop | exited | terminated | undefined => simp [childStep, hpc] at h

section Frame

variable {socket : SocketIPv4} {c c' : Child}

theorem childStep_connection (h : childStep socket c = some c') :
    c'.connection = c.connection := by
  cases childMove_of_step h <;> rfl

/-- The data handler is called once, between the read loop and `write`. -/
def Child.HandlesOnce (socket : SocketIPv4) (c : Child) : Prop :=
  match c.pc with
  | .closeListening | .acceptCallback | .handleRead _ _ | .dataHandler _ | .undefined =>
    c.handled = []
  | .terminated => c.handled.length ≤ 1
  | .loop => False
  | _ => c.handled.length = if socket.dataHandlerCb.isSome then 1 else 0

theorem Child.HandlesOnce.step (h : c.HandlesOnce socket) (hstep : childStep socket c = some c') :
    c'.HandlesOnce socket := by
  cases childMove_of_step hstep with
  | closeListening hpc | acceptCallback hpc =>
    simp only [HandlesOnce, hpc] at h
    exact h
  | acceptThrows hpc =>
    simp only [HandlesOnce, hpc] at h
    simp [HandlesOnce, h]
  | @read buffer aStreambuffer result reads hpc hr =>
    simp only [HandlesOnce, hpc] at h
    cases hnext : readStep socket.terminator buffer aStreambuffer result with
    | next | stop | undefined => exact h
  | noHandler hpc hcb =>
    simp only [HandlesOnce, hpc] at h
    simp [HandlesOnce, h, hcb]
  | handle hpc hcb | handlerThrows hpc hcb =>
    simp only [HandlesOnce, hpc] at h
    simp [HandlesOnce, h, hcb]
  | write hpc | writeFails hpc | closeConnection hpc | exit hpc =>
    simp only [HandlesOnce, hpc] at h
    exact h

end Frame

section Progress

variable {socket : SocketIPv4} {c c' : Child}

/-- What a child has before it until it has closed the connection. -/
def Child.rank (c : Child) : ℕ :=
  match c.pc with
  | .closeListening => c.reads.length + 5
  | .acceptCallback => c.reads.length + 4
  | .handleRead _ _ => c.reads.length + 3
  | .dataHandler _ => 3
  | .write _ => 2
  | .closeConnection => 1
  | _ => 0

/-- The connection has been closed. -/
def Child.HasClosed (c : Child) : Prop := c.pc = .exit ∨ c.pc = .exited

theorem rank_childStep_lt (h : childStep socket c = some c') (hopen : ¬ c.HasClosed) :
    c'.rank < c.rank := by
  cases childMove_of_step h with
  | closeListening hpc | acceptCallback hpc | acceptThrows hpc | noHandler hpc | handle hpc
  | handlerThrows hpc | write hpc | writeFails hpc | closeConnection hpc =>
    simp [Child.rank, hpc, Child.close]
  | @read buffer aStreambuffer result reads hpc hr =>
    cases hnext : readStep socket.terminator buffer aStreambuffer result <;>
      simp [Child.rank, hpc, hr, afterRead]
  | exit hpc => exact absurd (.inl hpc) hopen

/-- The steps that a child has before it. -/
def Child.toGo (c : Child) : ℕ :=
  match c.pc with
  | .exit => 1
  | .loop | .exited | .terminated | .undefined => 0
  | _ => c.rank + 1

theorem Child.toGo_le (c : Child) : c.toGo ≤ c.rank + 1 := by
  rw [toGo, rank]
  cases c.pc <;> simp

theorem toGo_childStep_lt (h : childStep socket c = some c') : c'.toGo < c.toGo := by
  cases hpc : c.pc with
  | exit =>
    simp only [childStep, hpc] at h
    cases h
    simp [Child.toGo, hpc]
  | loop | exited | terminated | undefined =>
    simp only [childStep, hpc] at h
    cases h
  | closeListening | acceptCallback | handleRead | dataHandler | write | closeConnection =>
    have hopen : ¬ c.HasClosed := by simp [Child.HasClosed, hpc]
    have hlt := rank_childStep_lt h hopen
    have hle := c'.toGo_le
    have hgo : c.toGo = c.rank + 1 := by simp only [Child.toGo, hpc]
    omega

end Progress

/-- What a child does when its read loop has got so far. -/
def afterReads : ReadOutcome → ChildPc
  | .returned aStreambuffer _ => .dataHandler aStreambuffer
  | .waiting buffer aStreambuffer => .handleRead buffer aStreambuffer
  | .undefined => .undefined

/-- The reads of a child follow the read loop to wherever that ends. -/
theorem childRun_handleRead (socket : SocketIPv4) (c : Child) {buffer : CharBuffer}
    {aStreambuffer : YStreamBuffer} (h : c.pc = .handleRead buffer aStreambuffer) :
    ∃ unread, ChildRun socket c { c with
      pc := afterReads (readLoop socket.terminator buffer aStreambuffer c.reads)
      reads := unread } := by
  induction hr : c.reads generalizing c buffer aStreambuffer with
  | nil =>
    refine ⟨c.reads, ?_⟩
    rw [readLoop, afterReads, ← h]
  | cons result reads ih =>
    have hstep : childStep socket c = some { c with
        pc := afterRead (readStep socket.terminator buffer aStreambuffer result)
        reads := reads } := by
      simp only [childStep, h, hr]
    rw [readLoop]
    cases hnext : readStep socket.terminator buffer aStreambuffer result with
    | next buffer' aStreambuffer' =>
      rw [hnext] at hstep
      obtain ⟨unread, hrest⟩ :=
        ih { c with pc := .handleRead buffer' aStreambuffer', reads := reads } rfl rfl
      exact ⟨unread, .head hstep hrest⟩
    | stop aStreambuffer' =>
      rw [hnext] at hstep
      exact ⟨reads, .single hstep⟩
    | undefined =>
      rw [hnext] at hstep
      exact ⟨reads, .single hstep⟩

/-- The child gets through its read loop, unless the accept callback throws. -/
theorem childRun_forked (socket : SocketIPv4) {connection : Connection}
    (h : socket.callAccept connection.clientSocket = .ok ()) (connfd : ℤ) (fds : Finset ℤ)
    (stack : CharBuffer) :
    ∃ unread, ChildRun socket (.forked connection connfd fds stack)
      { (Child.forked connection connfd fds stack).close socket.sockfd with
        pc := afterReads (handleRead socket.terminator stack connection.reads)
        reads := unread } := by
  have haccept : childStep socket { (Child.forked connection connfd fds stack).close
        socket.sockfd with pc := .acceptCallback } =
      some { (Child.forked connection connfd fds stack).close socket.sockfd with
        pc := .handleRead stack .new } := by
    simp only [childStep, Child.close, Child.forked, h]
  obtain ⟨unread, hreads⟩ := childRun_handleRead socket
    { (Child.forked connection connfd fds stack).close socket.sockfd with
      pc := .handleRead stack .new } rfl
  exact ⟨unread, .head rfl (.head haccept hreads)⟩

section Dispatch

variable (socket : SocketIPv4)

/-- The behaviour of the child is defined, and all it has handled ends with the terminator. -/
def Child.OnlyComplete (c : Child) : Prop :=
  (∀ data ∈ c.handled, socket.terminator <:+ data) ∧
    match c.pc with
    | .undefined => False
    | _ => True

/-- What keeps a child from handling a truncated request: its read loop will not
return one, or it will not get there. -/
def Child.Outlook (c : Child) : Prop :=
  match c.pc with
  | .closeListening | .acceptCallback => c.handled = [] ∧
      ((∃ e, socket.callAccept c.connection.clientSocket = .error e) ∨
        (handleRead socket.terminator c.stack c.reads).Complete socket.terminator)
  | .handleRead buffer aStreambuffer => c.handled = [] ∧
      (readLoop socket.terminator buffer aStreambuffer c.reads).Complete socket.terminator
  | .dataHandler aReadBuffer => c.handled = [] ∧ socket.terminator <:+ aReadBuffer.fBufferData
  | .undefined => False
  | _ => ∀ data ∈ c.handled, socket.terminator <:+ data

variable {socket}

theorem Child.Outlook.onlyComplete {c : Child} (h : c.Outlook socket) :
    c.OnlyComplete socket := by
  rw [Child.Outlook] at h
  rw [Child.OnlyComplete]
  split at h
  all_goals simp_all

theorem Child.Outlook.step {c c' : Child} (h : c.Outlook socket)
    (hstep : childStep socket c = some c') : c'.Outlook socket := by
  cases childMove_of_step hstep with
  | closeListening hpc =>
    simp only [Outlook, hpc] at h
    exact h
  | acceptCallback hpc hcb =>
    simp only [Outlook, hpc, hcb] at h
    exact ⟨h.1, by simpa [handleRead] using h.2⟩
  | acceptThrows hpc hcb =>
    simp only [Outlook, hpc] at h
    simp [Outlook, h.1]
  | @read buffer aStreambuffer result reads hpc hr =>
    simp only [Outlook, hpc, hr, readLoop] at h
    obtain ⟨hhandled, hcomplete⟩ := h
    cases hnext : readStep socket.terminator buffer aStreambuffer result <;>
      rw [hnext] at hcomplete
    · exact ⟨hhandled, hcomplete⟩
    · exact ⟨hhandled, hcomplete⟩
    · exact hcomplete
  | noHandler hpc hcb =>
    simp only [Outlook, hpc] at h
    simp [Outlook, h.1]
  | handle hpc hcb hw =>
    simp only [Outlook, hpc] at h
    simpa [Outlook, h.1] using h.2
  | handlerThrows hpc hcb hw =>
    simp only [Outlook, hpc] at h
    simpa [Outlook, h.1] using h.2
  | write hpc hw =>
    simp only [Outlook, hpc] at h
    exact h
  | writeFails hpc hw =>
    simp only [Outlook, hpc] at h
    exact h
  | closeConnection hpc =>
    simp only [Outlook, hpc] at h
    exact h
  | exit hpc =>
    simp only [Outlook, hpc] at h
    exact h

/-- A child that gets to its read loop handles whatever that returns. -/
theorem terminatedInTime_of_onlyComplete {dataHandler : Bytes → Except CppException Bytes}
    {terminator : Bytes} (ht : terminator ≠ []) {connection : Connection}
    (hcb : socket.callAccept connection.clientSocket = .ok ()) {connfd : ℤ} {fds : Finset ℤ}
    {stack : CharBuffer}
    (h : ∀ c, ChildRun (socket.onDataReceive dataHandler terminator)
      (.forked connection connfd fds stack) c →
      c.OnlyComplete (socket.onDataReceive dataHandler terminator)) :
    TerminatedInTime terminator connection.reads := by
  have hreads : ∃ unread, ChildRun (socket.onDataReceive dataHandler terminator)
      (.forked connection connfd fds stack)
      { (Child.forked connection connfd fds stack).close socket.sockfd with
        pc := afterReads (handleRead terminator stack connection.reads)
        reads := unread } :=
    childRun_forked (socket.onDataReceive dataHandler terminator) hcb connfd fds stack
  obtain ⟨unread, hrun⟩ := hreads
  rw [← complete_handleRead_iff ht stack]
  cases hloop : handleRead terminator stack connection.reads with
  | returned aStreambuffer rest =>
    rw [hloop] at hrun
    exact (h _ (hrun.tail rfl)).1 aStreambuffer.fBufferData (by simp)
  | waiting buffer aStreambuffer => trivial
  | undefined =>
    rw [hloop] at hrun
    exact (h _ hrun).2

/-- The child of a connection handles only complete requests exactly when the
accept callback throws or the terminator comes in time. -/
theorem child_onlyComplete_iff (socket : SocketIPv4)
    (dataHandler : Bytes → Except CppException Bytes) {terminator : Bytes} (ht : terminator ≠ [])
    (connection : Connection) (connfd : ℤ) (fds : Finset ℤ) (stack : CharBuffer) :
    (∀ c, ChildRun (socket.onDataReceive dataHandler terminator)
        (.forked connection connfd fds stack) c →
        c.OnlyComplete (socket.onDataReceive dataHandler terminator)) ↔
      (∃ e, socket.callAccept connection.clientSocket = .error e) ∨
        TerminatedInTime terminator connection.reads := by
  constructor
  · intro h
    cases hcb : socket.callAccept connection.clientSocket with
    | error e => exact .inl ⟨e, rfl⟩
    | ok => exact .inr (terminatedInTime_of_onlyComplete ht hcb h)
  · intro h c hrun
    rw [← complete_handleRead_iff ht stack] at h
    refine (hrun.invariant (Child.Outlook _) ?_ fun _ _ => Child.Outlook.step).onlyComplete
    exact ⟨rfl, h⟩

/-- A client that sends one chunk and closes. -/
def oneChunk (chunk : Bytes) : Connection := ⟨⟨0, 0⟩, [.bytes chunk, .bytes []], [.written 0]⟩

theorem child_onlyComplete_iff_get :
    (∀ c, ChildRun ((SocketIPv4.createTcpSocket 3).onDataReceive .ok (crlf ++ crlf))
        (.forked (oneChunk (ascii "GET / HTTP/1.1\r\n\r\n")) 4 {0, 1, 2, 3, 4} .zeroed) c →
        c.OnlyComplete ((SocketIPv4.createTcpSocket 3).onDataReceive .ok (crlf ++ crlf))) ↔
      (∃ e, (SocketIPv4.createTcpSocket 3).callAccept ⟨0, 0⟩ = .error e) ∨
        TerminatedInTime (crlf ++ crlf) (oneChunk (ascii "GET / HTTP/1.1\r\n\r\n")).reads :=
  child_onlyComplete_iff (.createTcpSocket 3) .ok (by decide)
    (oneChunk (ascii "GET / HTTP/1.1\r\n\r\n")) 4 {0, 1, 2, 3, 4} .zeroed

/-- A client that closes after the request line gets its half of a request handled. -/
theorem truncated_request_handled :
    ¬ ∀ c, ChildRun ((SocketIPv4.createTcpSocket 3).onDataReceive .ok (crlf ++ crlf))
        (.forked (oneChunk (ascii "POST /test HTTP/1.1\r\n")) 4 {0, 1, 2, 3, 4} .zeroed) c →
        c.OnlyComplete ((SocketIPv4.createTcpSocket 3).onDataReceive .ok (crlf ++ crlf)) := by
  intro h
  have hchunks : leadingChunks (oneChunk (ascii "POST /test HTTP/1.1\r\n")).reads =
      [ascii "POST /test HTTP/1.1\r\n"] := rfl
  have hintime := terminatedInTime_of_onlyComplete (by decide) rfl h
  rw [TerminatedInTime, hchunks] at hintime
  rcases hintime with ⟨k, hk⟩ | hall
  · cases k with
    | zero => exact absurd hk (by decide)
    | succ k =>
      rw [List.take_succ_cons, List.take_nil] at hk
      exact absurd hk (by decide)
  · exact absurd hall (by decide)

end Dispatch

section Response

variable {socket : SocketIPv4} {c c' : Child}

/-- The part of the offered bytes that a call of `write` has taken. -/
def WriteResult.taken (aWriteData : Bytes) : WriteResult → Bytes
  | .written n => aWriteData.take n
  | .failed => []

/-- Before its call of `write` a child has written nothing. -/
def Child.BeforeWrite (c : Child) : Prop :=
  match c.pc with
  | .closeListening | .acceptCallback | .handleRead _ _ | .dataHandler _ =>
    c.written = [] ∧ c.writes = c.connection.writes
  | _ => True

theorem Child.BeforeWrite.step (h : c.BeforeWrite) (hstep : childStep socket c = some c') :
    c'.BeforeWrite := by
  cases childMove_of_step hstep with
  | closeListening hpc | acceptCallback hpc =>
    simp only [BeforeWrite, hpc] at h
    exact h
  | @read buffer aStreambuffer result reads hpc hr =>
    simp only [BeforeWrite, hpc] at h
    cases hnext : readStep socket.terminator buffer aStreambuffer result with
    | next | stop => exact h
    | undefined => trivial
  | acceptThrows | noHandler | handle | handlerThrows | write | writeFails | closeConnection
  | exit => trivial

/-- A child that has `aWriteData` to write, or has written what one call has taken of it. -/
def Child.Answers (socket : SocketIPv4) (aWriteData : Bytes) (c : Child) : Prop :=
  match c.pc with
  | .dataHandler aReadBuffer =>
    (∃ dataHandlerCb, socket.dataHandlerCb = some dataHandlerCb ∧
      dataHandlerCb aReadBuffer.fBufferData = .ok aWriteData) ∧
    c.written = [] ∧ c.writes = c.connection.writes
  | .write offered => offered = aWriteData ∧ c.written = [] ∧ c.writes = c.connection.writes
  | .closeConnection | .exit | .exited =>
    ∃ result ∈ c.connection.writes.head?, c.written = result.taken aWriteData
  | _ => False

theorem Child.Answers.step {aWriteData : Bytes} (h : c.Answers socket aWriteData)
    (hstep : childStep socket c = some c') : c'.Answers socket aWriteData := by
  cases childMove_of_step hstep with
  | closeListening hpc | acceptCallback hpc | acceptThrows hpc | read hpc =>
    simp only [Answers, hpc] at h
  | noHandler hpc hcb =>
    simp only [Answers, hpc, hcb] at h
    obtain ⟨⟨dataHandlerCb, hnone, -⟩, -⟩ := h
    cases hnone
  | handle hpc hcb hw =>
    simp only [Answers, hpc, hcb] at h
    obtain ⟨⟨dataHandlerCb, hsome, hok⟩, hwritten, hwrites⟩ := h
    cases hsome
    rw [hok] at hw
    cases hw
    exact ⟨rfl, hwritten, hwrites⟩
  | handlerThrows hpc hcb hw =>
    simp only [Answers, hpc, hcb] at h
    obtain ⟨⟨dataHandlerCb, hsome, hok⟩, -⟩ := h
    cases hsome
    rw [hok] at hw
    cases hw
  | write hpc hw | writeFails hpc hw =>
    simp only [Answers, hpc] at h
    obtain ⟨rfl, hwritten, hwrites⟩ := h
    rw [hw] at hwrites
    refine ⟨_, by rw [← hwrites]; rfl, ?_⟩
    simp [hwritten, WriteResult.taken]
  | closeConnection hpc | exit hpc =>
    simp only [Answers, hpc] at h
    exact h

/-- What a child has written when it closes the connection. -/
theorem Child.Answers.written {aWriteData : Bytes} (h : c.Answers socket aWriteData)
    (hclosed : c.HasClosed) :
    ∃ result ∈ c.connection.writes.head?, c.written = result.taken aWriteData := by
  rcases hclosed with hpc | hpc <;> simpa only [Answers, hpc] using h

theorem childRun_connection (h : ChildRun socket c c') : c'.connection = c.connection :=
  h.invariant (fun d => d.connection = c.connection) rfl
    fun _ _ hd hstep => (childStep_connection hstep).trans hd

/-- Every child at the call of its data handler is one that answers. -/
theorem Child.answers_of_childRun {connection : Connection} {connfd : ℤ} {fds : Finset ℤ}
    {stack : CharBuffer} (h : ChildRun socket (.forked connection connfd fds stack) c)
    {aReadBuffer : YStreamBuffer} (hpc : c.pc = .dataHandler aReadBuffer)
    {dataHandlerCb : Bytes → Except CppException Bytes}
    (hcb : socket.dataHandlerCb = some dataHandlerCb) {aWriteData : Bytes}
    (hw : dataHandlerCb aReadBuffer.fBufferData = .ok aWriteData) :
    c.Answers socket aWriteData := by
  have hbefore : c.BeforeWrite := by
    refine h.invariant Child.BeforeWrite ?_ fun _ _ => .step
    exact ⟨rfl, rfl⟩
  simp only [BeforeWrite, hpc] at hbefore
  simp only [Answers, hpc]
  exact ⟨⟨dataHandlerCb, hcb, hw⟩, hbefore⟩

theorem Child.Answers.written_of_childRun {aWriteData : Bytes} (h : c.Answers socket aWriteData)
    (hrun : ChildRun socket c c') (hclosed : c'.HasClosed) :
    ∃ result ∈ c.connection.writes.head?, c'.written = result.taken aWriteData := by
  have h' : c'.Answers socket aWriteData :=
    hrun.invariant (Child.Answers socket aWriteData) h fun _ _ => .step
  rw [← childRun_connection hrun]
  exact h'.written hclosed

/-- A child with an answer gets to the close of the connection as soon as its call of
`write` returns. -/
theorem Child.Answers.childRun_closed {aWriteData : Bytes} (h : c.Answers socket aWriteData)
    {aReadBuffer : YStreamBuffer} (hpc : c.pc = .dataHandler aReadBuffer) {result : WriteResult}
    (hresult : result ∈ c.connection.writes.head?) :
    ∃ c', ChildRun socket c c' ∧ c'.HasClosed := by
  simp only [Answers, hpc] at h
  obtain ⟨⟨dataHandlerCb, hcb, hok⟩, -, hwrites⟩ := h
  obtain ⟨writes, hcons⟩ : ∃ writes, c.writes = result :: writes := by
    rw [hwrites]
    exact List.head?_eq_some_iff.mp hresult
  have hhandle : childStep socket c = some { c with
      handled := c.handled ++ [aReadBuffer.fBufferData], pc := .write aWriteData } := by
    simp only [childStep, hpc, hcb, hok]
  have hwrite : childStep socket { c with
      handled := c.handled ++ [aReadBuffer.fBufferData], pc := .write aWriteData } =
      some { c with
        handled := c.handled ++ [aReadBuffer.fBufferData]
        written := c.written ++ result.taken aWriteData
        writes := writes
        pc := .closeConnection } := by
    cases result <;> simp [childStep, hcons, WriteResult.taken]
  refine ⟨{ c.close c.connfd with
    handled := c.handled ++ [aReadBuffer.fBufferData]
    written := c.written ++ result.taken aWriteData
    writes := writes
    pc := .exit }, ?_, .inl rfl⟩
  exact .head hhandle (.head hwrite (.single rfl))

theorem WriteResult.taken_eq_iff {aWriteData : Bytes} {result : WriteResult} :
    result.taken aWriteData = aWriteData ↔
      aWriteData = [] ∨ ∃ n, result = .written n ∧ aWriteData.length ≤ n := by
  cases result with
  | written n =>
    rw [taken, List.take_eq_self_iff]
    constructor
    · intro hle
      exact .inr ⟨n, rfl, hle⟩
    · rintro (rfl | ⟨_, ⟨⟩, hle⟩)
      · exact Nat.zero_le n
      · exact hle
  | failed =>
    rw [taken]
    constructor
    · intro hnil
      exact .inl hnil.symm
    · rintro (rfl | ⟨_, ⟨⟩, -⟩)
      rfl

/-- A child whose data handler answers `aWriteData` has written exactly that when it closes
the connection if and only if its only call of `write` takes all of it. -/
theorem whole_response_iff (socket : SocketIPv4)
    {dataHandlerCb : Bytes → Except CppException Bytes}
    (hcb : socket.dataHandlerCb = some dataHandlerCb) (connection : Connection) (connfd : ℤ)
    (fds : Finset ℤ) (stack : CharBuffer) (c : Child)
    (h : ChildRun socket (.forked connection connfd fds stack) c) {aReadBuffer : YStreamBuffer}
    (hpc : c.pc = .dataHandler aReadBuffer) {aWriteData : Bytes}
    (hw : dataHandlerCb aReadBuffer.fBufferData = .ok aWriteData) :
    (∀ c', ChildRun socket c c' → c'.HasClosed → c'.written = aWriteData) ↔
      ∀ result ∈ connection.writes.head?,
        aWriteData = [] ∨ ∃ n, result = .written n ∧ aWriteData.length ≤ n := by
  have hanswers : c.Answers socket aWriteData := Child.answers_of_childRun h hpc hcb hw
  have hconnection : c.connection = connection := childRun_connection h
  rw [← hconnection]
  constructor
  · intro hall result hresult
    obtain ⟨c', hrun, hclosed⟩ := hanswers.childRun_closed hpc hresult
    obtain ⟨result', hresult', heq⟩ := hanswers.written_of_childRun hrun hclosed
    obtain rfl := Option.mem_unique hresult hresult'
    rw [← WriteResult.taken_eq_iff, ← heq, hall c' hrun hclosed]
  · intro hcond c' hrun hclosed
    obtain ⟨result, hresult, heq⟩ := hanswers.written_of_childRun hrun hclosed
    rw [heq, WriteResult.taken_eq_iff]
    exact hcond result hresult

/-- A client that closes at once, and takes what `write` offers as in `writes`. -/
def silentClient (writes : List WriteResult) : Connection := ⟨⟨0, 0⟩, [.bytes []], writes⟩

/-- A server that answers with five bytes. -/
def helloSocket : SocketIPv4 :=
  (SocketIPv4.createTcpSocket 3).onDataReceive (fun _ => .ok (ascii "hello")) crlf

/-- Its child for a client, at the call of the data handler. -/
def helloChild (writes : List WriteResult) : Child :=
  { (Child.forked (silentClient writes) 4 {0, 1, 2, 3, 4} .zeroed).close 3 with
    pc := .dataHandler .new, reads := [] }

theorem childRun_helloChild (writes : List WriteResult) :
    ChildRun helloSocket (.forked (silentClient writes) 4 {0, 1, 2, 3, 4} .zeroed)
      (helloChild writes) :=
  .head rfl (.head rfl (.single rfl))

theorem whole_response_iff_hello :
    (∀ c', ChildRun helloSocket (helloChild [.written 5]) c' → c'.HasClosed →
        c'.written = ascii "hello") ↔
      ∀ result ∈ [WriteResult.written 5].head?,
        ascii "hello" = [] ∨ ∃ n, result = .written n ∧ (ascii "hello").length ≤ n :=
  whole_response_iff helloSocket rfl (silentClient [.written 5]) 4 {0, 1, 2, 3, 4} .zeroed
    (helloChild [.written 5]) (childRun_helloChild _) rfl rfl

/-- A client whose socket buffer has room for two bytes gets two of the five. -/
theorem short_write_truncates :
    ¬ ∀ c', ChildRun helloSocket (.forked (silentClient [.written 2]) 4 {0, 1, 2, 3, 4} .zeroed)
        c' → c'.HasClosed → c'.written = ascii "hello" := by
  intro h
  have hrun : ChildRun helloSocket (helloChild [.written 2]) { (helloChild [.written 2]).close 4 with
      handled := [[]], written := ascii "he", writes := [], pc := .exit } :=
    .head rfl (.head rfl (.single rfl))
  have hwhole := h _ ((childRun_helloChild _).trans hrun) (.inl rfl)
  exact absurd hwhole (by decide)

end Response

end CppWebserver.SocketServer
