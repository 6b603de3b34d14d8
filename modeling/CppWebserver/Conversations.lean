import CppWebserver.ChildProcesses
import CppWebserver.ReadAccounting

/-!
# A client and its child

A client sends a message and reads until the end of the stream, as a browser or the
daytime client does; the child that serves it waits for the terminator. Each of the
two reads what the other has sent, in pieces of any size, and the child's one call of
`write` takes as many bytes as the operating system lets it. The stream ends for the
client when parent and child have both closed the connection; if bytes of the client
are then left that nobody has read, the connection may be reset instead, and the client
loses what it has not read yet. Whether the client gets an answer, waits for ever or is
answered too early depends on its message alone.
-/

namespace CppWebserver.Conversations
open ByteStrings DelimitedStreams LabelledRuns SocketReadLoop SocketServer

/-- What the client has learned about the end of the connection. -/
inductive ClientState where
  | talking
  | sawEnd
  | sawReset
  deriving DecidableEq

/-- The client, its child, the bytes on their way from the one to the other, and the
parent's descriptor of the connection. -/
structure Conversation where
  unsent : Bytes
  requests : Bytes
  child : Child
  parentHolds : Bool
  responses : Bytes
  received : Bytes
  client : ClientState

/-- The conversation at the return of `fork`. No call of `read` has an answer yet; the
child's call of `write` is going to give `result`. -/
def start (clientSocket : SockaddrIn) (connfd : ℤ) (fds : Finset ℤ) (stack : CharBuffer)
    (message : Bytes) (result : WriteResult) : Conversation where
  unsent := message
  requests := []
  child := .forked ⟨clientSocket, [], [result]⟩ connfd fds stack
  parentHolds := true
  responses := []
  received := []
  client := .talking

/-- Whether the child has no descriptor of the connection any more. -/
def hasReleased : ChildPc → Bool
  | .exit | .exited | .terminated => true
  | _ => false

/-- Nobody on the side of the server has the connection any more. -/
def Conversation.ended (s : Conversation) : Bool := !s.parentHolds && hasReleased s.child.pc

inductive Event where
  | clientSends (n : ℕ)
  | clientReads (n : ℕ)
  | clientSeesEnd
  | parentCloses
  | serverReads (n : ℕ)
  | serverWrites
  | serverStep
  | reset

/-- One step of the client, the parent or the child, or a reset of the connection. A call of
`read` gives some of the bytes that are there, as many as fit. The client reads when it has
sent everything. -/
def step (socket : SocketIPv4) (s : Conversation) : Event → Option Conversation
  | .clientSends n =>
    if s.client = .talking ∧ 0 < n ∧ n ≤ s.unsent.length then some { s with
      unsent := s.unsent.drop n, requests := s.requests ++ s.unsent.take n }
    else none
  | .clientReads n =>
    if s.client = .talking ∧ s.unsent = [] ∧ 0 < n ∧ n ≤ s.responses.length then some { s with
      responses := s.responses.drop n, received := s.received ++ s.responses.take n }
    else none
  | .clientSeesEnd =>
    if s.client = .talking ∧ s.unsent = [] ∧ s.responses = [] ∧ s.ended then
      some { s with client := .sawEnd }
    else none
  | .parentCloses => if s.parentHolds then some { s with parentHolds := false } else none
  | .serverReads n =>
    match s.child.pc with
    | .handleRead _ _ =>
      if 0 < n ∧ n ≤ s.requests.length ∧ n ≤ bufSize + 1 then
        (childStep socket { s.child with reads := [.bytes (s.requests.take n)] }).map fun child =>
          { s with child := child, requests := s.requests.drop n }
      else none
    | _ => none
  | .serverWrites =>
    match s.child.pc, s.child.writes with
    | .write aWriteData, result :: _ => (childStep socket s.child).map fun child =>
        { s with child := child, responses := s.responses ++ result.taken aWriteData }
    | _, _ => none
  | .serverStep =>
    match s.child.pc with
    | .handleRead _ _ | .write _ => none
    | _ => (childStep socket s.child).map fun child => { s with child := child }
  | .reset =>
    if s.client = .talking ∧ s.ended ∧ s.requests ≠ [] then
      some { s with client := .sawReset, responses := [] }
    else none

/-- Everything that can happen in a conversation. -/
inductive Move (socket : SocketIPv4) (s : Conversation) : Conversation → Prop where
  | clientSends {n : ℕ} (htalking : s.client = .talking) (hpos : 0 < n)
      (hle : n ≤ s.unsent.length) :
    Move socket s { s with
      unsent := s.unsent.drop n, requests := s.requests ++ s.unsent.take n }
  | clientReads {n : ℕ} (htalking : s.client = .talking) (hunsent : s.unsent = []) (hpos : 0 < n)
      (hle : n ≤ s.responses.length) :
    Move socket s { s with
      responses := s.responses.drop n, received := s.received ++ s.responses.take n }
  | clientSeesEnd (htalking : s.client = .talking) (hunsent : s.unsent = [])
      (hresponses : s.responses = []) (hended : s.ended) :
    Move socket s { s with client := .sawEnd }
  | parentCloses (h : s.parentHolds) : Move socket s { s with parentHolds := false }
  | serverReads {buffer : CharBuffer} {aStreambuffer : YStreamBuffer} {n : ℕ}
      (h : s.child.pc = .handleRead buffer aStreambuffer) (hpos : 0 < n)
      (hle : n ≤ s.requests.length) (hfits : n ≤ bufSize + 1) :
    Move socket s { s with
      child := { s.child with
        pc := afterRead (readStep socket.terminator buffer aStreambuffer
          (.bytes (s.requests.take n)))
        reads := [] }
      requests := s.requests.drop n }
  | serverWrites {aWriteData : Bytes} {result : WriteResult} {writes : List WriteResult}
      (h : s.child.pc = .write aWriteData) (hw : s.child.writes = result :: writes) :
    Move socket s { s with
      child := { s.child with
        written := s.child.written ++ result.taken aWriteData, writes := writes
        pc := .closeConnection }
      responses := s.responses ++ result.taken aWriteData }
  | serverStep {child : Child} (hread : ∀ buffer a, s.child.pc ≠ .handleRead buffer a)
      (hwrite : ∀ aWriteData, s.child.pc ≠ .write aWriteData)
      (h : ChildMove socket s.child child) :
    Move socket s { s with child := child }
  | reset (htalking : s.client = .talking) (hended : s.ended) (hrequests : s.requests ≠ []) :
    Move socket s { s with client := .sawReset, responses := [] }

theorem move_of_step {socket : SocketIPv4} {s s' : Conversation} {e : Event}
    (h : step socket s e = some s') : Move socket s s' := by
  cases e with
  | clientSends n =>
    obtain ⟨hn, ⟨⟩⟩ := Option.ite_none_right_eq_some.mp h
    exact .clientSends hn.1 hn.2.1 hn.2.2
  | clientReads n =>
    obtain ⟨hn, ⟨⟩⟩ := Option.ite_none_right_eq_some.mp h
    exact .clientReads hn.1 hn.2.1 hn.2.2.1 hn.2.2.2
  | clientSeesEnd =>
    obtain ⟨hend, ⟨⟩⟩ := Option.ite_none_right_eq_some.mp h
    exact .clientSeesEnd hend.1 hend.2.1 hend.2.2.1 hend.2.2.2
  | parentCloses =>
    obtain ⟨hholds, ⟨⟩⟩ := Option.ite_none_right_eq_some.mp h
    exact .parentCloses hholds
  | serverReads n =>
    simp only [step] at h
    split at h
    · next buffer aStreambuffer hpc =>
      obtain ⟨hn, hmap⟩ := Option.ite_none_right_eq_some.mp h
      simp only [childStep, hpc, Option.map_some, Option.some.injEq] at hmap
      subst hmap
      exact .serverReads hpc hn.1 hn.2.1 hn.2.2
    · cases h
  | serverWrites =>
    simp only [step] at h
    split at h
    · next aWriteData result writes hpc hw =>
      have hmove : childStep socket s.child = some { s.child with
          written := s.child.written ++ result.taken aWriteData, writes := writes
          pc := .closeConnection } := by
        cases result <;> simp [childStep, hpc, hw, WriteResult.taken]
      rw [hmove] at h
      cases h
      exact .serverWrites hpc hw
    · cases h
  | serverStep =>
    simp only [step] at h
    split at h
    · cases h
    · cases h
    · next hread hwrite =>
      obtain ⟨child, hchild, rfl⟩ := Option.map_eq_some_iff.mp h
      exact .serverStep hread hwrite (childMove_of_step hchild)
  | reset =>
    obtain ⟨hreset, ⟨⟩⟩ := Option.ite_none_right_eq_some.mp h
    exact .reset hreset.1 hreset.2.1 hreset.2.2

/-- The child of a conversation is a child of the server: what its reads have given is a
script of the connection. -/
theorem exists_childRun {socket : SocketIPv4} {clientSocket : SockaddrIn} {connfd : ℤ}
    {fds : Finset ℤ} {stack : CharBuffer} {m : Bytes} {result : WriteResult} {es : List Event}
    {s : Conversation}
    (h : run (step socket) (start clientSocket connfd fds stack m result) es = some s) :
    ∃ reads, ∀ rs,
      ChildRun socket (.forked ⟨clientSocket, reads ++ rs, [result]⟩ connfd fds stack)
        { s.child with connection := ⟨clientSocket, reads ++ rs, [result]⟩, reads := rs } := by
  refine (run_invariant (fun s => s.child.connection.clientSocket = clientSocket ∧ ∃ reads, ∀ rs,
      ChildRun socket (.forked ⟨clientSocket, reads ++ rs, [result]⟩ connfd fds stack)
        { s.child with connection := ⟨clientSocket, reads ++ rs, [result]⟩, reads := rs })
    ⟨rfl, [], fun _ => .refl⟩ ?_ h).2
  intro s e s' ih hstep
  obtain ⟨hclient, reads, hrun⟩ := ih
  cases move_of_step hstep with
  | clientSends | clientReads | clientSeesEnd | parentCloses | reset =>
    exact ⟨hclient, reads, hrun⟩
  | @serverReads buffer aStreambuffer n hpc =>
    refine ⟨hclient, reads ++ [.bytes (s.requests.take n)], fun rs => ?_⟩
    rw [List.append_assoc]
    refine (hrun (.bytes (s.requests.take n) :: rs)).tail ?_
    simp only [childStep, hpc, List.singleton_append]
  | @serverWrites aWriteData written writes hpc hw =>
    refine ⟨hclient, reads, fun rs => (hrun rs).tail ?_⟩
    cases written <;> simp only [childStep, hpc, hw, WriteResult.taken, List.append_nil]
  | serverStep hread hwrite hmove =>
    refine ⟨?_, reads, fun rs => (hrun rs).tail ?_⟩
    · cases hmove <;> exact hclient
    · cases hmove with
      | read hpc => exact absurd hpc (hread _ _)
      | write hpc | writeFails hpc => exact absurd hpc (hwrite _)
      | closeListening hpc | closeConnection hpc | exit hpc =>
        simp only [childStep, hpc, Child.close]
      | acceptCallback hpc hcb | acceptThrows hpc hcb =>
        rw [hclient] at hcb
        simp only [childStep, hpc, hcb]
      | noHandler hpc hcb => simp only [childStep, hpc, hcb]
      | handle hpc hcb hw | handlerThrows hpc hcb hw => simp only [childStep, hpc, hcb, hw]

section Endings

/-- The statements that a child still has before it. -/
def statementsLeft : ChildPc → ℕ
  | .closeListening => 7
  | .acceptCallback => 6
  | .handleRead _ _ => 5
  | .dataHandler _ => 4
  | .write _ => 3
  | .closeConnection => 2
  | .exit => 1
  | .loop | .exited | .terminated | .undefined => 0

/-- What is before the server, and then what is before the client. -/
def Conversation.measure (s : Conversation) : ℕ × ℕ :=
  (2 * s.unsent.length + s.requests.length + statementsLeft s.child.pc + s.parentHolds.toNat,
    s.responses.length + if s.client = .talking then 1 else 0)

variable {socket : SocketIPv4}

theorem statementsLeft_afterRead (r : ReadStep) : statementsLeft (afterRead r) ≤ 5 := by
  cases r <;> simp [afterRead, statementsLeft]

theorem statementsLeft_childMove {c c' : Child} (h : ChildMove socket c c')
    (hread : ∀ buffer a, c.pc ≠ .handleRead buffer a) :
    statementsLeft c'.pc < statementsLeft c.pc := by
  cases h with
  | read hpc => exact absurd hpc (hread _ _)
  | closeListening hpc | acceptCallback hpc | acceptThrows hpc | noHandler hpc | handle hpc
  | handlerThrows hpc | write hpc | writeFails hpc | closeConnection hpc | exit hpc =>
    simp [hpc, statementsLeft]

theorem measure_step {s s' : Conversation} {e : Event} (h : step socket s e = some s') :
    Prod.Lex (· < ·) (· < ·) s'.measure s.measure := by
  cases move_of_step h with
  | clientSends htalking hpos hle =>
    apply Prod.Lex.left
    simp only [List.length_drop, List.length_append, List.length_take]
    omega
  | clientReads htalking hunsent hpos hle =>
    apply Prod.Lex.right
    simp only [List.length_drop]
    omega
  | clientSeesEnd htalking =>
    apply Prod.Lex.right
    simp [htalking]
  | reset htalking =>
    apply Prod.Lex.right
    simp [htalking]
  | parentCloses hholds =>
    apply Prod.Lex.left
    simp [hholds]
  | @serverReads buffer aStreambuffer n hpc hpos hle hfits =>
    apply Prod.Lex.left
    have hafter := statementsLeft_afterRead
      (readStep socket.terminator buffer aStreambuffer (.bytes (s.requests.take n)))
    have hbefore : statementsLeft (.handleRead buffer aStreambuffer) = 5 := rfl
    simp only [hpc, hbefore, List.length_drop]
    omega
  | serverWrites hpc =>
    apply Prod.Lex.left
    simp [hpc, statementsLeft]
  | serverStep hread hwrite hmove =>
    apply Prod.Lex.left
    have hless := statementsLeft_childMove hmove hread
    dsimp only
    omega

/-- Every conversation comes to an end, if only by waiting for ever. -/
theorem exists_ending (socket : SocketIPv4) (s : Conversation) :
    ∃ s', EndsIn (step socket) s s' := by
  have hwf : WellFounded (Prod.Lex (α := ℕ) (β := ℕ) (· < ·) (· < ·)) :=
    WellFounded.prod_lex Nat.lt_wfRel.wf Nat.lt_wfRel.wf
  apply exists_endsIn (InvImage.wf Conversation.measure hwf)
  intro s e s' h
  exact measure_step h

/-- At the end the parent has closed the connection, and the child waits or is gone; a client
that has not seen an end of the connection has sent everything and waits for one. -/
structure Conversation.Over (s : Conversation) : Prop where
  parentHolds : s.parentHolds = false
  pc : (∃ buffer a, s.child.pc = .handleRead buffer a ∧ s.requests = []) ∨
    (∃ aWriteData, s.child.pc = .write aWriteData ∧ s.child.writes = []) ∨
    s.child.pc = .loop ∨ s.child.pc = .exited ∨ s.child.pc = .terminated ∨
    s.child.pc = .undefined
  client : s.client = .talking → s.unsent = [] ∧ s.ended = false

theorem over_of_stuck {s : Conversation} (h : ∀ e, step socket s e = none) : s.Over := by
  have hholds : s.parentHolds = false := by
    have hcloses := h .parentCloses
    simpa [step] using hcloses
  refine ⟨hholds, ?_, ?_⟩
  · cases hpc : s.child.pc with
    | handleRead buffer a =>
      refine .inl ⟨buffer, a, rfl, ?_⟩
      by_contra hne
      have hreads := h (.serverReads 1)
      simp [step, hpc, childStep, Nat.one_le_iff_ne_zero, hne] at hreads
    | write aWriteData =>
      refine .inr (.inl ⟨aWriteData, rfl, ?_⟩)
      have hwrites := h .serverWrites
      cases hw : s.child.writes with
      | nil => rfl
      | cons result writes => cases result <;> simp [step, hpc, hw, childStep] at hwrites
    | loop => exact .inr (.inr (.inl rfl))
    | exited => exact .inr (.inr (.inr (.inl rfl)))
    | terminated => exact .inr (.inr (.inr (.inr (.inl rfl))))
    | undefined => exact .inr (.inr (.inr (.inr (.inr rfl))))
    | acceptCallback =>
      have hstep := h .serverStep
      cases hcb : socket.callAccept s.child.connection.clientSocket <;>
        simp [step, hpc, childStep, hcb] at hstep
    | dataHandler a =>
      have hstep := h .serverStep
      cases hcb : socket.dataHandlerCb <;> simp [step, hpc, childStep, hcb] at hstep
    | closeListening | closeConnection | exit =>
      have hstep := h .serverStep
      simp [step, hpc, childStep] at hstep
  · intro htalking
    have hunsent : s.unsent = [] := by
      by_contra hne
      have hsends := h (.clientSends 1)
      simp [step, htalking, Nat.one_le_iff_ne_zero, hne] at hsends
    refine ⟨hunsent, ?_⟩
    rw [← Bool.not_eq_true]
    intro hended
    have hresponses : s.responses = [] := by
      by_contra hne
      have hreads := h (.clientReads 1)
      simp [step, htalking, hunsent, Nat.one_le_iff_ne_zero, hne] at hreads
    have hsees := h .clientSeesEnd
    simp [step, htalking, hunsent, hresponses, hended] at hsees

end Endings

/-- The first read with its chunk. -/
theorem readStep_new (terminator : Bytes) (buffer : CharBuffer) {chunk : Bytes} (hne : chunk ≠ [])
    (h : chunk.length ≤ bufSize) :
    readStep terminator buffer .new (.bytes chunk) =
      if terminator <:+ beforeNull 0 chunk then .stop ⟨chunk.length, beforeNull 0 chunk⟩
      else .next .zeroed ⟨chunk.length, beforeNull 0 chunk⟩ := by
  simpa [YStreamBuffer.new] using readStep_chunk terminator buffer .new hne h

/-- A read out of a message that fits and has no NUL keeps everything. -/
theorem readStep_requests (terminator : Bytes) (buffer : CharBuffer) {aStreambuffer : YStreamBuffer}
    {m requests unsent : Bytes} {n : ℕ} (hnul : 0 ∉ m) (hlength : m.length ≤ bufSize) (hpos : 0 < n)
    (hle : n ≤ requests.length) (hsplit : aStreambuffer.fBufferData ++ (requests ++ unsent) = m) :
    readStep terminator buffer aStreambuffer (.bytes (requests.take n)) =
        (if terminator <:+ aStreambuffer.fBufferData ++ requests.take n then
          .stop ⟨aStreambuffer.fBytesRead + (requests.take n).length,
            aStreambuffer.fBufferData ++ requests.take n⟩
        else .next .zeroed ⟨aStreambuffer.fBytesRead + (requests.take n).length,
          aStreambuffer.fBufferData ++ requests.take n⟩) ∧
      aStreambuffer.fBufferData ++ requests.take n ≠ [] ∧
      aStreambuffer.fBufferData ++ requests.take n ++ (requests.drop n ++ unsent) = m := by
  have hchunk : requests.take n ≠ [] := by
    rw [← List.length_pos_iff, List.length_take]
    omega
  have hshort : (requests.take n).length ≤ bufSize := by
    have htotal := congrArg List.length hsplit
    simp only [List.length_append] at htotal
    rw [List.length_take]
    omega
  have hvisible : beforeNull 0 (requests.take n) = requests.take n := by
    apply beforeNull_of_notMem
    intro hmem
    apply hnul
    rw [← hsplit]
    simp [List.mem_of_mem_take hmem]
  refine ⟨?_, List.append_ne_nil_of_right_ne_nil _ hchunk, ?_⟩
  · rw [readStep_chunk _ _ _ hchunk hshort, hvisible]
  · rw [← hsplit, List.append_assoc, ← List.append_assoc (requests.take n), List.take_append_drop]

theorem requests_append_unsent (s : Conversation) (n : ℕ) :
    s.requests ++ s.unsent.take n ++ s.unsent.drop n = s.requests ++ s.unsent := by
  rw [List.append_assoc, List.take_append_drop]

section FirstRead

variable {clientSocket : SockaddrIn} (connfd : ℤ) (fds : Finset ℤ) (stack : CharBuffer)
  (result : WriteResult)

/-- The child before its first read, when the client has sent everything at once. -/
def beforeRead (socket : SocketIPv4) (clientSocket : SockaddrIn) (connfd : ℤ) (fds : Finset ℤ)
    (stack : CharBuffer) (m : Bytes) (result : WriteResult) : Conversation :=
  { start clientSocket connfd fds stack m result with
    unsent := []
    requests := m
    child := { (Child.forked ⟨clientSocket, [], [result]⟩ connfd fds stack).close
      socket.sockfd with pc := .handleRead stack .new } }

theorem exists_run_beforeRead (socket : SocketIPv4)
    (hcb : socket.callAccept clientSocket = .ok ()) (m : Bytes) :
    ∃ es, run (step socket) (start clientSocket connfd fds stack m result) es =
      some (beforeRead socket clientSocket connfd fds stack m result) := by
  have haccept : ∀ s : Conversation,
      s.child = .forked ⟨clientSocket, [], [result]⟩ connfd fds stack →
      run (step socket) s [.serverStep, .serverStep] = some { s with
        child := { (Child.forked ⟨clientSocket, [], [result]⟩ connfd fds stack).close
          socket.sockfd with pc := .handleRead stack .new } } := by
    intro s hs
    simp [run, step, hs, childStep, Child.forked, Child.close, hcb]
  cases m with
  | nil => exact ⟨_, haccept _ rfl⟩
  | cons b m =>
    have hsends : step socket (start clientSocket connfd fds stack (b :: m) result)
        (.clientSends (b :: m).length) =
        some { start clientSocket connfd fds stack (b :: m) result with
          unsent := [], requests := b :: m } := by
      simp [step, start]
    refine ⟨.clientSends (b :: m).length :: [.serverStep, .serverStep], ?_⟩
    rw [run, List.foldlM_cons, hsends]
    exact haccept { start clientSocket connfd fds stack (b :: m) result with
      unsent := [], requests := b :: m } rfl

/-- The child behind its first read of `n` bytes, when the client has sent everything at once. -/
def afterFirstRead (socket : SocketIPv4) (clientSocket : SockaddrIn) (connfd : ℤ)
    (fds : Finset ℤ) (stack : CharBuffer) (m : Bytes) (result : WriteResult) (n : ℕ) :
    Conversation :=
  { beforeRead socket clientSocket connfd fds stack m result with
    child := { (Child.forked ⟨clientSocket, [], [result]⟩ connfd fds stack).close
      socket.sockfd with
      pc := afterRead (readStep socket.terminator stack .new (.bytes (m.take n))) }
    requests := m.drop n }

/-- The first read can give any beginning of the message. -/
theorem exists_run_firstRead (socket : SocketIPv4) {m : Bytes}
    (hcb : socket.callAccept clientSocket = .ok ()) {n : ℕ} (hpos : 0 < n) (hle : n ≤ m.length)
    (hfits : n ≤ bufSize + 1) :
    ∃ es, run (step socket) (start clientSocket connfd fds stack m result) es =
      some (afterFirstRead socket clientSocket connfd fds stack m result n) := by
  obtain ⟨es, hes⟩ := exists_run_beforeRead connfd fds stack result socket hcb m
  refine ⟨es ++ [.serverReads n], ?_⟩
  rw [run_append, hes, Option.bind_some]
  simp [run, step, beforeRead, afterFirstRead, childStep, hpos, hle, hfits, Child.close,
    Child.forked]

end FirstRead

section Settled

variable {socket : SocketIPv4} {H : List Bytes}

/-- What the child is going to have handled in the end is settled. -/
def Settled (socket : SocketIPv4) (H : List Bytes) (s : Conversation) : Prop :=
  match s.child.pc with
  | .closeListening | .acceptCallback => False
  | .handleRead _ _ => s.unsent = [] ∧ s.requests = [] ∧ s.child.handled = [] ∧ H = []
  | .dataHandler aReadBuffer => s.child.handled = [] ∧
      H = if socket.dataHandlerCb.isSome then [aReadBuffer.fBufferData] else []
  | _ => s.child.handled = H

theorem Settled.step {s s' : Conversation} {e : Event} (h : Settled socket H s)
    (hstep : step socket s e = some s') : Settled socket H s' := by
  cases move_of_step hstep with
  | clientSends htalking hpos hle =>
    unfold Settled at h ⊢
    dsimp only
    split at h
    · exact h
    · exact h
    · rw [h.1, List.length_nil] at hle
      omega
    · exact h
    · exact h
  | clientReads | clientSeesEnd | parentCloses | reset => exact h
  | serverReads hpc hpos hle =>
    simp only [Settled, hpc] at h
    rw [h.2.1, List.length_nil] at hle
    omega
  | serverWrites hpc =>
    simp only [Settled, hpc] at h
    exact h
  | serverStep hread hwrite hmove =>
    cases hmove with
    | read hpc => exact absurd hpc (hread _ _)
    | write hpc | writeFails hpc => exact absurd hpc (hwrite _)
    | closeListening hpc | acceptCallback hpc | acceptThrows hpc =>
      simp only [Settled, hpc] at h
    | noHandler hpc hcb =>
      simp only [Settled, hpc, hcb] at h
      exact h.1.trans h.2.symm
    | handle hpc hcb | handlerThrows hpc hcb =>
      simp only [Settled, hpc, hcb] at h
      simp [Settled, h.1, h.2]
    | closeConnection hpc | exit hpc =>
      simp only [Settled, hpc] at h
      exact h

theorem Settled.handled_eq {s : Conversation} (h : Settled socket H s) (hover : s.Over) :
    s.child.handled = H := by
  rcases hover.pc with ⟨buffer, a, hpc, -⟩ | ⟨aWriteData, hpc, -⟩ | hpc | hpc | hpc | hpc <;>
    simp_all [Settled]

/-- A settled conversation has an ending, and it is the settled one. -/
theorem Settled.exists_ending {s₀ s : Conversation} {es : List Event}
    (hrun : run (Conversations.step socket) s₀ es = some s) (h : Settled socket H s) :
    ∃ s', EndsIn (Conversations.step socket) s₀ s' ∧ s'.child.handled = H := by
  obtain ⟨s', hend⟩ := Conversations.exists_ending socket s
  have hsettled : Settled socket H s' := hend.invariant (Settled socket H) h fun _ _ _ => Settled.step
  exact ⟨s', hend.of_run hrun, hsettled.handled_eq (over_of_stuck hend.2)⟩

end Settled

end CppWebserver.Conversations
