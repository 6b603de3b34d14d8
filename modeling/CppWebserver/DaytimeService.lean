import CppWebserver.ConversationOutcomes
import CppWebserver.ServerRuns

/-!
# The daytime service

`daytimetcpsrv` gives the time as the result of its accept callback, which nobody
reads, and sets no data handler; `daytimetcpcli` connects and reads, and never sends.
So the time is never sent, and the two programs wait for each other.
-/

namespace CppWebserver.DaytimeService
open ByteStrings Conversations LabelledRuns SocketReadLoop
open SocketServer hiding step

/-- `ServerLoop`, given what `ctime` returns. -/
def serverLoop (ctime : Bytes) (_connection : SockaddrIn) : Bytes :=
  (cStr ctime).take 24 ++ ascii "\r\n"

/-- A function in the place of one without a result: what it returns is dropped. -/
def discarding {α : Type} (f : SockaddrIn → α) (clientSocket : SockaddrIn) :
    Except CppException Unit :=
  let _ := f clientSocket
  .ok ()

/-- The socket of `daytimetcpsrv` at the call of `Run`. -/
def aSocket (sockfd : ℤ) (ctime : Bytes) : SocketIPv4 :=
  (SocketIPv4.createTcpSocket sockfd).onAccept (discarding (serverLoop ctime))

section Server

variable {sockfd : ℤ} {ctime : Bytes}

/-- A child without a data handler has nothing to write. -/
def WritesNothing (c : Child) : Prop :=
  c.written = [] ∧ c.handled = [] ∧
  match c.pc with
  | .write _ => False
  | _ => True

theorem WritesNothing.step {socket : SocketIPv4} (hnone : socket.dataHandlerCb = none)
    {c c' : Child} (h : WritesNothing c) (hstep : childStep socket c = some c') :
    WritesNothing c' := by
  obtain ⟨hwritten, hhandled, hpc'⟩ := h
  cases childMove_of_step hstep with
  | @read buffer aStreambuffer result =>
    refine ⟨hwritten, hhandled, ?_⟩
    cases readStep socket.terminator buffer aStreambuffer result <;> trivial
  | handle hpc hsome | handlerThrows hpc hsome => cases hnone.symm.trans hsome
  | write hpc | writeFails hpc => simp only [hpc] at hpc'
  | closeListening | acceptCallback | acceptThrows | noHandler | closeConnection | exit =>
    exact ⟨hwritten, hhandled, trivial⟩

theorem written_eq_nil {fds : Finset ℤ} {es : List SocketServer.Event} {s : Server}
    (h : run (SocketServer.step (aSocket sockfd ctime)) (.start fds) es = some s) :
    ∀ c ∈ s.children, c.written = [] := by
  intro c hc
  have hall := children_invariant WritesNothing (fun _ _ _ _ => ⟨rfl, rfl, trivial⟩)
    (fun _ _ => WritesNothing.step rfl) h
  exact (hall c hc).1

end Server

/-- A client that has nothing to say waits for ever. -/
theorem deadlocked_of_silent {socket : SocketIPv4} {clientSocket : SockaddrIn}
    (hcb : socket.callAccept clientSocket = .ok ()) {connfd : ℤ} {fds : Finset ℤ}
    {stack : CharBuffer} {result : WriteResult} {s : Conversation}
    (h : EndsIn (step socket) (start clientSocket connfd fds stack [] result) s) :
    s.Deadlocked := by
  rcases outcome_of_endsIn hcb (by simp) (Nat.zero_le _) h with ⟨hdeadlocked, -⟩ | ⟨d, hstops, -⟩
  · exact hdeadlocked
  · exact absurd (List.prefix_nil.mp hstops.isPrefix) hstops.ne_nil

/-- In no run of the server is a byte of the time sent to any client, and every conversation
with the daytime client ends with both sides waiting. -/
theorem time_never_sent (sockfd : ℤ) (ctime : Bytes) :
    (∀ fds es s, run (SocketServer.step (aSocket sockfd ctime)) (.start fds) es = some s →
        ∀ c ∈ s.children, c.written = []) ∧
      ∀ clientSocket connfd fds stack result s,
        EndsIn (step (aSocket sockfd ctime)) (start clientSocket connfd fds stack [] result) s →
          s.Deadlocked := by
  constructor
  · intro fds es s h
    exact written_eq_nil h
  · intro clientSocket connfd fds stack result s h
    exact deadlocked_of_silent rfl h

end CppWebserver.DaytimeService
