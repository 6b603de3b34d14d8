import CppWebserver.Conversations

/-!
# How conversations end

A client that keeps its side open is answered as soon as the child has read a part of
its message that ends with the terminator, and waits for ever if the child has read all
of it without. Which of these can happen is a matter of the message. If the child has
left a part of it unread, a reset may take the answer with it; only a message with the
terminator at its end and nowhere else is always handled whole, and its answer always
arrives as far as the one call of `write` has taken it.
-/

namespace CppWebserver.Conversations
open ByteStrings DelimitedStreams LabelledRuns SocketReadLoop SocketServer

section Outcomes

/-- A beginning of the message at whose end the read loop can stop. -/
structure StopsAt (terminator m d : Bytes) : Prop where
  isPrefix : d <+: m
  ne_nil : d ≠ []
  isSuffix : terminator <:+ d

/-- The child waits for the client, and the client for the child. -/
structure Conversation.Deadlocked (s : Conversation) : Prop where
  child : (∃ buffer a, s.child.pc = .handleRead buffer a) ∧ s.requests = [] ∧ s.child.handled = []
  client : s.client = .talking ∧ s.unsent = [] ∧ s.responses = [] ∧ s.received = []

/-- The calls of the data handler for this much of the message. -/
def handlerCalls (socket : SocketIPv4) (d : Bytes) : List Bytes :=
  if socket.dataHandlerCb.isSome then [d] else []

/-- What the call of `write` takes of the answer to this much of the message. -/
def reply (socket : SocketIPv4) (result : WriteResult) (d : Bytes) : Bytes :=
  match socket.dataHandlerCb with
  | none => []
  | some dataHandlerCb => match dataHandlerCb d with
    | .ok aWriteData => result.taken aWriteData
    | .error _ => []

/-- The child has handled this much of the message. The client has what the child has written,
or, if the child has left something unread, a beginning of it and then a reset. -/
structure Conversation.Answered (socket : SocketIPv4) (result : WriteResult) (m d : Bytes)
    (s : Conversation) : Prop where
  handled : s.child.handled = handlerCalls socket d
  received : s.client = .sawEnd ∧ s.received = reply socket result d ∨
    s.client = .sawReset ∧ d ≠ m ∧ s.received <+: reply socket result d

/-- The loop has stopped here, and the rest of the message is under way. -/
def Conversation.StoppedAt (terminator m d : Bytes) (s : Conversation) : Prop :=
  StopsAt terminator m d ∧ d ++ (s.requests ++ s.unsent) = m

/-- A conversation about a message, at every point of the child's program. -/
def Conversation.AtPoint (socket : SocketIPv4) (result : WriteResult) (m : Bytes)
    (s : Conversation) : Prop :=
  match s.child.pc with
  | .closeListening | .acceptCallback => s.requests ++ s.unsent = m ∧ s.child.handled = [] ∧
      s.child.written = [] ∧ s.child.writes = [result]
  | .handleRead _ aStreambuffer =>
    aStreambuffer.fBufferData ++ (s.requests ++ s.unsent) = m ∧
      (aStreambuffer.fBufferData = [] ∨ ¬ socket.terminator <:+ aStreambuffer.fBufferData) ∧
      s.child.handled = [] ∧ s.child.written = [] ∧ s.child.writes = [result]
  | .dataHandler aReadBuffer => s.StoppedAt socket.terminator m aReadBuffer.fBufferData ∧
      s.child.handled = [] ∧ s.child.written = [] ∧ s.child.writes = [result]
  | .write aWriteData => ∃ d, s.StoppedAt socket.terminator m d ∧
      s.child.handled = handlerCalls socket d ∧
      reply socket result d = result.taken aWriteData ∧
      s.child.written = [] ∧ s.child.writes = [result]
  | .closeConnection | .exit | .exited | .terminated =>
    ∃ d, s.StoppedAt socket.terminator m d ∧ s.child.handled = handlerCalls socket d ∧
      s.child.written = reply socket result d
  | .loop | .undefined => False

/-- What client and child have of each other's bytes, and where the child is. -/
structure Follows (socket : SocketIPv4) (clientSocket : SockaddrIn) (result : WriteResult)
    (m : Bytes) (s : Conversation) : Prop where
  clientSocket : s.child.connection.clientSocket = clientSocket
  received : s.received <+: s.child.written
  sent : s.client ≠ .sawReset → s.child.written = s.received ++ s.responses
  talking : hasReleased s.child.pc = false → s.client = .talking
  sawEnd : s.client = .sawEnd → s.responses = []
  sawReset : s.client = .sawReset → s.requests ≠ []
  program : s.AtPoint socket result m

variable {socket : SocketIPv4} {clientSocket : SockaddrIn} {result : WriteResult} {m : Bytes}

theorem Conversation.AtPoint.congr {s s' : Conversation} (h : s.AtPoint socket result m)
    (hchild : s'.child = s.child)
    (hrest : s'.requests ++ s'.unsent = s.requests ++ s.unsent) : s'.AtPoint socket result m := by
  simpa only [Conversation.AtPoint, Conversation.StoppedAt, hchild, hrest] using h

/-- As long as the child has the connection, a step of it keeps the rest of the books. -/
theorem Follows.childStep {s s' : Conversation} (h : Follows socket clientSocket result m s)
    (hopen : hasReleased s.child.pc = false)
    (hclient : s'.child.connection = s.child.connection)
    (hwritten : s'.child.written = s'.received ++ s'.responses)
    (htalking : s'.client = s.client) (hprogram : s'.AtPoint socket result m) :
    Follows socket clientSocket result m s' where
  clientSocket := by rw [hclient, h.clientSocket]
  received := hwritten ▸ List.prefix_append _ _
  sent := fun _ => hwritten
  talking := fun _ => htalking.trans (h.talking hopen)
  sawEnd := by
    intro hsaw
    rw [htalking, h.talking hopen] at hsaw
    cases hsaw
  sawReset := by
    intro hsaw
    rw [htalking, h.talking hopen] at hsaw
    cases hsaw
  program := hprogram

theorem Follows.serverStep (hcb : socket.callAccept clientSocket = .ok ()) {s : Conversation}
    (h : Follows socket clientSocket result m s) {child : Child}
    (hread : ∀ buffer a, s.child.pc ≠ .handleRead buffer a)
    (hwrite : ∀ aWriteData, s.child.pc ≠ .write aWriteData) (hmove : ChildMove socket s.child child) :
    Follows socket clientSocket result m { s with child := child } := by
  have hprogram := h.program
  have hsent : hasReleased s.child.pc = false → s.child.written = s.received ++ s.responses := by
    intro hopen
    apply h.sent
    rw [h.talking hopen]
    simp
  cases hmove with
  | read hpc => exact absurd hpc (hread _ _)
  | write hpc | writeFails hpc => exact absurd hpc (hwrite _)
  | closeListening hpc =>
    have hopen : hasReleased s.child.pc = false := by rw [hpc]; rfl
    simp only [Conversation.AtPoint, hpc] at hprogram
    exact h.childStep hopen rfl (hsent hopen) rfl hprogram
  | acceptCallback hpc =>
    have hopen : hasReleased s.child.pc = false := by rw [hpc]; rfl
    simp only [Conversation.AtPoint, hpc] at hprogram
    exact h.childStep hopen rfl (hsent hopen) rfl ⟨hprogram.1, .inl rfl, hprogram.2⟩
  | acceptThrows hpc hthrows =>
    rw [h.clientSocket] at hthrows
    cases hcb.symm.trans hthrows
  | noHandler hpc hnone =>
    have hopen : hasReleased s.child.pc = false := by rw [hpc]; rfl
    simp only [Conversation.AtPoint, hpc] at hprogram
    obtain ⟨hstopped, hhandled, hwritten, -⟩ := hprogram
    refine h.childStep hopen rfl (hsent hopen) rfl ⟨_, hstopped, ?_, ?_⟩
    · simpa [handlerCalls, hnone] using hhandled
    · simpa [reply, hnone] using hwritten
  | handle hpc hsome hok =>
    have hopen : hasReleased s.child.pc = false := by rw [hpc]; rfl
    simp only [Conversation.AtPoint, hpc] at hprogram
    obtain ⟨hstopped, hhandled, hwritten⟩ := hprogram
    refine h.childStep hopen rfl (hsent hopen) rfl ⟨_, hstopped, ?_, ?_, hwritten⟩
    · simp [handlerCalls, hsome, hhandled]
    · simp [reply, hsome, hok]
  | handlerThrows hpc hsome herror =>
    have hopen : hasReleased s.child.pc = false := by rw [hpc]; rfl
    simp only [Conversation.AtPoint, hpc] at hprogram
    obtain ⟨hstopped, hhandled, hwritten, -⟩ := hprogram
    refine h.childStep hopen rfl (hsent hopen) rfl ⟨_, hstopped, ?_, ?_⟩
    · simp [handlerCalls, hsome, hhandled]
    · simpa [reply, hsome, herror] using hwritten
  | closeConnection hpc =>
    have hopen : hasReleased s.child.pc = false := by rw [hpc]; rfl
    simp only [Conversation.AtPoint, hpc] at hprogram
    exact h.childStep hopen rfl (hsent hopen) rfl hprogram
  | exit hpc =>
    simp only [Conversation.AtPoint, hpc] at hprogram
    exact ⟨h.clientSocket, h.received, h.sent, nofun, h.sawEnd, h.sawReset, hprogram⟩

theorem Follows.step (hcb : socket.callAccept clientSocket = .ok ()) (hnul : 0 ∉ m)
    (hlength : m.length ≤ bufSize) {s s' : Conversation} {e : Event}
    (h : Follows socket clientSocket result m s) (hstep : step socket s e = some s') :
    Follows socket clientSocket result m s' := by
  have hprogram := h.program
  cases move_of_step hstep with
  | clientSends htalking hpos hle =>
    refine ⟨h.clientSocket, h.received, h.sent, h.talking, h.sawEnd, ?_,
      hprogram.congr rfl (requests_append_unsent s _)⟩
    intro hsaw
    rw [htalking] at hsaw
    cases hsaw
  | @clientReads n htalking hunsent hpos hle =>
    have hwritten : s.child.written = s.received ++ s.responses := h.sent (by simp [htalking])
    have hsplit : s.received ++ s.responses.take n ++ s.responses.drop n =
        s.received ++ s.responses := by
      rw [List.append_assoc, List.take_append_drop]
    refine ⟨h.clientSocket, ?_, fun _ => hwritten.trans hsplit.symm, h.talking, ?_, h.sawReset,
      hprogram.congr rfl rfl⟩
    · exact ⟨_, hsplit.trans hwritten.symm⟩
    · intro hsaw
      rw [htalking] at hsaw
      cases hsaw
  | clientSeesEnd htalking hunsent hresponses hended =>
    refine ⟨h.clientSocket, h.received, fun _ => h.sent (by simp [htalking]), ?_,
      fun _ => hresponses, nofun, hprogram.congr rfl rfl⟩
    intro hopen
    rw [Conversation.ended, hopen, Bool.and_false] at hended
    cases hended
  | reset htalking hended hrequests =>
    refine ⟨h.clientSocket, h.received, fun hsaw => absurd rfl hsaw, ?_, nofun,
      fun _ => hrequests, hprogram.congr rfl rfl⟩
    intro hopen
    rw [Conversation.ended, hopen, Bool.and_false] at hended
    cases hended
  | parentCloses =>
    exact ⟨h.clientSocket, h.received, h.sent, h.talking, h.sawEnd, h.sawReset,
      hprogram.congr rfl rfl⟩
  | @serverReads buffer aStreambuffer n hpc hpos hle hfits =>
    have hopen : hasReleased s.child.pc = false := by rw [hpc]; rfl
    have hwritten : s.child.written = s.received ++ s.responses :=
      h.sent (by simp [h.talking hopen])
    simp only [Conversation.AtPoint, hpc] at hprogram
    obtain ⟨hsplit, -, hfresh⟩ := hprogram
    obtain ⟨hread, hne, hrest⟩ :=
      readStep_requests socket.terminator buffer hnul hlength hpos hle hsplit
    refine h.childStep hopen rfl hwritten rfl ?_
    simp only [Conversation.AtPoint, hread]
    by_cases hsuffix : socket.terminator <:+ aStreambuffer.fBufferData ++ s.requests.take n
    · rw [if_pos hsuffix]
      exact ⟨⟨⟨⟨_, hrest⟩, hne, hsuffix⟩, hrest⟩, hfresh⟩
    · rw [if_neg hsuffix]
      exact ⟨hrest, .inr hsuffix, hfresh⟩
  | serverWrites hpc hw =>
    have hopen : hasReleased s.child.pc = false := by rw [hpc]; rfl
    have hwritten : s.child.written = s.received ++ s.responses :=
      h.sent (by simp [h.talking hopen])
    simp only [Conversation.AtPoint, hpc] at hprogram
    obtain ⟨d, hstopped, hhandled, hreply, hnothing, hwrites⟩ := hprogram
    rw [hw] at hwrites
    obtain ⟨rfl, -⟩ := List.cons.inj hwrites
    refine h.childStep hopen rfl ?_ rfl ⟨d, hstopped, hhandled, ?_⟩
    · rw [← List.append_assoc, ← hwritten]
    · rw [hreply, hnothing, List.nil_append]
  | serverStep hread hwrite hmove => exact h.serverStep hcb hread hwrite hmove

theorem Follows.of_endsIn (hcb : socket.callAccept clientSocket = .ok ()) (hnul : 0 ∉ m)
    (hlength : m.length ≤ bufSize) {connfd : ℤ} {fds : Finset ℤ} {stack : CharBuffer}
    {s : Conversation}
    (h : EndsIn (Conversations.step socket) (start clientSocket connfd fds stack m result) s) :
    Follows socket clientSocket result m s := by
  refine h.invariant (Follows socket clientSocket result m) ?_
    fun _ _ _ => Follows.step hcb hnul hlength
  exact ⟨rfl, List.prefix_rfl, fun _ => rfl, fun _ => rfl, fun _ => rfl, nofun, rfl, rfl, rfl, rfl⟩

/-- A child that has let go of the connection has answered. -/
theorem Follows.answered {s : Conversation} (h : Follows socket clientSocket result m s)
    (hover : s.Over) (hreleased : hasReleased s.child.pc = true) {d : Bytes}
    (hstopped : s.StoppedAt socket.terminator m d)
    (hhandled : s.child.handled = handlerCalls socket d)
    (hwritten : s.child.written = reply socket result d) : s.Answered socket result m d := by
  refine ⟨hhandled, ?_⟩
  cases hclient : s.client with
  | talking =>
    have hopen := (hover.client hclient).2
    rw [Conversation.ended, hover.parentHolds, hreleased] at hopen
    cases hopen
  | sawEnd =>
    refine .inl ⟨rfl, ?_⟩
    rw [← hwritten, h.sent (by simp [hclient]), h.sawEnd hclient, List.append_nil]
  | sawReset =>
    refine .inr ⟨rfl, ?_, hwritten ▸ h.received⟩
    rintro rfl
    have hnone := List.self_eq_append_right.mp hstopped.2.symm
    exact h.sawReset hclient (List.append_eq_nil_iff.mp hnone).1

/-- The two ways in which a conversation can be over. -/
theorem Follows.outcome {s : Conversation} (h : Follows socket clientSocket result m s)
    (hover : s.Over) : (s.Deadlocked ∧ (m = [] ∨ ¬ socket.terminator <:+ m)) ∨
      ∃ d, StopsAt socket.terminator m d ∧ s.Answered socket result m d := by
  have hprogram := h.program
  rcases hover.pc with ⟨buffer, a, hpc, hrequests⟩ | ⟨aWriteData, hpc, hw⟩ | hpc | hpc | hpc | hpc
  · have htalking : s.client = .talking := h.talking (by rw [hpc]; rfl)
    simp only [Conversation.AtPoint, hpc] at hprogram
    obtain ⟨hsplit, hopen, hhandled, hnothing, -⟩ := hprogram
    have hwritten := h.sent (by simp [htalking])
    rw [hnothing] at hwritten
    obtain ⟨hreceived, hresponses⟩ := List.append_eq_nil_iff.mp hwritten.symm
    have hunsent := (hover.client htalking).1
    rw [hrequests, hunsent, List.append_nil, List.append_nil] at hsplit
    rw [hsplit] at hopen
    exact .inl ⟨⟨⟨⟨buffer, a, hpc⟩, hrequests, hhandled⟩, htalking, hunsent, hresponses,
      hreceived⟩, hopen⟩
  · simp only [Conversation.AtPoint, hpc, hw] at hprogram
    obtain ⟨-, -, -, -, -, hwrites⟩ := hprogram
    cases hwrites
  · simp only [Conversation.AtPoint, hpc] at hprogram
  · simp only [Conversation.AtPoint, hpc] at hprogram
    obtain ⟨d, hstopped, hhandled, hwritten⟩ := hprogram
    exact .inr ⟨d, hstopped.1, h.answered hover (by rw [hpc]; rfl) hstopped hhandled hwritten⟩
  · simp only [Conversation.AtPoint, hpc] at hprogram
    obtain ⟨d, hstopped, hhandled, hwritten⟩ := hprogram
    exact .inr ⟨d, hstopped.1, h.answered hover (by rw [hpc]; rfl) hstopped hhandled hwritten⟩
  · simp only [Conversation.AtPoint, hpc] at hprogram

/-- Every ending is a deadlock, or the child has stopped where the message lets it. -/
theorem outcome_of_endsIn (hcb : socket.callAccept clientSocket = .ok ()) (hnul : 0 ∉ m)
    (hlength : m.length ≤ bufSize) {connfd : ℤ} {fds : Finset ℤ} {stack : CharBuffer}
    {s : Conversation}
    (h : EndsIn (step socket) (start clientSocket connfd fds stack m result) s) :
    (s.Deadlocked ∧ (m = [] ∨ ¬ socket.terminator <:+ m)) ∨
      ∃ d, StopsAt socket.terminator m d ∧ s.Answered socket result m d :=
  (Follows.of_endsIn hcb hnul hlength h).outcome (over_of_stuck h.2)

theorem Conversation.Deadlocked.not_answered {d : Bytes} {s : Conversation} (h : s.Deadlocked) :
    ¬ s.Answered socket result m d := by
  intro hanswered
  have htalking := h.client.1
  rcases hanswered.received with ⟨hclient, -⟩ | ⟨hclient, -⟩ <;>
  · rw [htalking] at hclient
    cases hclient

end Outcomes

section Possibilities

variable {socket : SocketIPv4} {clientSocket : SockaddrIn} {connfd : ℤ} {fds : Finset ℤ}
  {stack : CharBuffer} {m : Bytes} {result : WriteResult}

/-- Whatever the first read leaves settled is an ending. -/
theorem exists_endsIn_firstRead (hcb : socket.callAccept clientSocket = .ok ()) {n : ℕ}
    (hpos : 0 < n) (hle : n ≤ m.length) (hfits : n ≤ bufSize + 1) {H : List Bytes}
    (hH : match readStep socket.terminator stack .new (.bytes (m.take n)) with
      | .next _ _ => m.drop n = [] ∧ H = []
      | .stop aStreambuffer => H = handlerCalls socket aStreambuffer.fBufferData
      | .undefined => H = []) :
    ∃ s, EndsIn (step socket) (start clientSocket connfd fds stack m result) s ∧
      s.child.handled = H := by
  obtain ⟨es, hrun⟩ := exists_run_firstRead connfd fds stack result socket hcb hpos hle hfits
  refine Settled.exists_ending hrun ?_
  simp only [Settled, afterFirstRead]
  cases hread : readStep socket.terminator stack .new (.bytes (m.take n)) with
  | next buffer aStreambuffer =>
    rw [hread] at hH
    exact ⟨rfl, hH.1, rfl, hH.2⟩
  | stop aStreambuffer =>
    rw [hread] at hH
    exact ⟨rfl, hH⟩
  | undefined =>
    rw [hread] at hH
    exact hH.symm

variable (hcb : socket.callAccept clientSocket = .ok ()) (hnul : 0 ∉ m)
  (hlength : m.length ≤ bufSize)
include hcb hnul hlength

omit hcb in
theorem readStep_of_stopsAt {d : Bytes} (h : StopsAt socket.terminator m d) :
    readStep socket.terminator stack .new (.bytes (m.take d.length)) = .stop ⟨d.length, d⟩ := by
  have hvisible : beforeNull 0 d = d :=
    beforeNull_of_notMem fun hmem => hnul (h.isPrefix.subset hmem)
  rw [← List.prefix_iff_eq_take.mp h.isPrefix,
    readStep_new _ _ h.ne_nil (h.isPrefix.length_le.trans hlength), hvisible, if_pos h.isSuffix]

theorem exists_endsIn_stopsAt {d : Bytes} (h : StopsAt socket.terminator m d) :
    ∃ s, EndsIn (step socket) (start clientSocket connfd fds stack m result) s ∧
      s.child.handled = handlerCalls socket d := by
  have hle := h.isPrefix.length_le
  refine exists_endsIn_firstRead hcb (List.length_pos_iff.mpr h.ne_nil) hle (by omega) ?_
  rw [readStep_of_stopsAt hnul hlength h]

theorem exists_endsIn_deadlocked (hsome : socket.dataHandlerCb.isSome)
    (h : m = [] ∨ ¬ socket.terminator <:+ m) :
    ∃ s, EndsIn (step socket) (start clientSocket connfd fds stack m result) s ∧
      s.Deadlocked := by
  obtain ⟨s, hend, hhandled⟩ : ∃ s, EndsIn (step socket)
      (start clientSocket connfd fds stack m result) s ∧ s.child.handled = [] := by
    by_cases hm : m = []
    · subst hm
      obtain ⟨es, hrun⟩ := exists_run_beforeRead connfd fds stack result socket hcb []
      exact Settled.exists_ending hrun ⟨rfl, rfl, rfl, rfl⟩
    · have hopen := h.resolve_left hm
      refine exists_endsIn_firstRead hcb (List.length_pos_iff.mpr hm) le_rfl (by omega) ?_
      rw [List.take_length, readStep_new _ _ hm hlength, beforeNull_of_notMem hnul, if_neg hopen]
      exact ⟨List.drop_length, rfl⟩
  refine ⟨s, hend, ?_⟩
  rcases outcome_of_endsIn hcb hnul hlength hend with ⟨hdeadlocked, -⟩ | ⟨d, -, hanswered⟩
  · exact hdeadlocked
  · have hcalls := hanswered.handled
    rw [hhandled, handlerCalls, if_pos hsome] at hcalls
    cases hcalls

end Possibilities

/-- The endings of the conversations about a message without NUL that fits into the array. The
client can wait for ever if and only if the message is empty or does not end with the
terminator, and it can be answered as if it had sent just a beginning of its message if and only
if that ends with the terminator. -/
theorem possible_endings (socket : SocketIPv4)
    (dataHandler : Bytes → Except CppException Bytes) (terminator : Bytes)
    {clientSocket : SockaddrIn} (hcb : socket.callAccept clientSocket = .ok ()) {m : Bytes}
    (hnul : 0 ∉ m) (hlength : m.length ≤ bufSize) (connfd : ℤ) (fds : Finset ℤ)
    (stack : CharBuffer) (result : WriteResult) :
    (∀ s, EndsIn (step (socket.onDataReceive dataHandler terminator))
        (start clientSocket connfd fds stack m result) s → s.Deadlocked ∨
          ∃ d, StopsAt terminator m d ∧
            s.Answered (socket.onDataReceive dataHandler terminator) result m d) ∧
      ((∃ s, EndsIn (step (socket.onDataReceive dataHandler terminator))
        (start clientSocket connfd fds stack m result) s ∧ s.Deadlocked) ↔
          m = [] ∨ ¬ terminator <:+ m) ∧
      ∀ d, (∃ s, EndsIn (step (socket.onDataReceive dataHandler terminator))
        (start clientSocket connfd fds stack m result) s ∧
          s.Answered (socket.onDataReceive dataHandler terminator) result m d) ↔
            StopsAt terminator m d := by
  have hcb' : (socket.onDataReceive dataHandler terminator).callAccept clientSocket = .ok () := hcb
  refine ⟨fun s hend => ?_, ⟨?_, ?_⟩, fun d => ⟨?_, ?_⟩⟩
  · rcases outcome_of_endsIn hcb' hnul hlength hend with ⟨hdeadlocked, -⟩ | hanswered
    · exact .inl hdeadlocked
    · exact .inr hanswered
  · intro h
    obtain ⟨s, hend, hdeadlocked⟩ := h
    rcases outcome_of_endsIn hcb' hnul hlength hend with ⟨-, hm⟩ | ⟨d, -, hanswered⟩
    · exact hm
    · exact absurd hanswered hdeadlocked.not_answered
  · exact exists_endsIn_deadlocked hcb' hnul hlength rfl
  · intro h
    obtain ⟨s, hend, hanswered⟩ := h
    rcases outcome_of_endsIn hcb' hnul hlength hend with ⟨hdeadlocked, -⟩ | ⟨d', hstops, hanswered'⟩
    · exact absurd hanswered hdeadlocked.not_answered
    · have hsame : [d] = [d'] := hanswered.handled.symm.trans hanswered'.handled
      cases hsame
      exact hstops
  · intro hstops
    obtain ⟨s, hend, hhandled⟩ := exists_endsIn_stopsAt hcb' hnul hlength hstops
    refine ⟨s, hend, ?_⟩
    rcases outcome_of_endsIn hcb' hnul hlength hend with ⟨hdeadlocked, -⟩ | ⟨d', -, hanswered⟩
    · rw [hdeadlocked.child.2.2] at hhandled
      cases hhandled
    · have hsame : [d'] = [d] := hanswered.handled.symm.trans hhandled
      cases hsame
      exact hanswered

/-- A form as a browser posts it. -/
def postedForm : Bytes := ascii "POST /test HTTP/1.1\r\n\r\nfname=John"

theorem possible_endings_postedForm :
    (∀ s, EndsIn (step ((SocketIPv4.createTcpSocket 3).onDataReceive .ok (crlf ++ crlf)))
        (start ⟨0, 0⟩ 4 {0, 1, 2, 3, 4} .zeroed postedForm (.written 5)) s → s.Deadlocked ∨
          ∃ d, StopsAt (crlf ++ crlf) postedForm d ∧
            s.Answered ((SocketIPv4.createTcpSocket 3).onDataReceive .ok (crlf ++ crlf))
              (.written 5) postedForm d) ∧
      ((∃ s, EndsIn (step ((SocketIPv4.createTcpSocket 3).onDataReceive .ok (crlf ++ crlf)))
        (start ⟨0, 0⟩ 4 {0, 1, 2, 3, 4} .zeroed postedForm (.written 5)) s ∧ s.Deadlocked) ↔
          postedForm = [] ∨ ¬ crlf ++ crlf <:+ postedForm) ∧
      ∀ d, (∃ s, EndsIn (step ((SocketIPv4.createTcpSocket 3).onDataReceive .ok (crlf ++ crlf)))
        (start ⟨0, 0⟩ 4 {0, 1, 2, 3, 4} .zeroed postedForm (.written 5)) s ∧
          s.Answered ((SocketIPv4.createTcpSocket 3).onDataReceive .ok (crlf ++ crlf))
            (.written 5) postedForm d) ↔ StopsAt (crlf ++ crlf) postedForm d :=
  possible_endings (.createTcpSocket 3) .ok (crlf ++ crlf) rfl (by decide) (by decide) 4
    {0, 1, 2, 3, 4} .zeroed (.written 5)

section Resets

variable {socket : SocketIPv4} {clientSocket : SockaddrIn} {connfd : ℤ} {fds : Finset ℤ}
  {stack : CharBuffer} {m : Bytes} {result : WriteResult}

/-- From its data handler the child can get on to where it has let go of the connection, while
the client does nothing. -/
theorem exists_run_released {s : Conversation} {aReadBuffer : YStreamBuffer}
    (hpc : s.child.pc = .dataHandler aReadBuffer) (hw : s.child.writes = [result])
    (hholds : s.parentHolds = true) :
    ∃ es s', run (step socket) s es = some s' ∧ s'.ended = true ∧ s'.client = s.client ∧
      s'.received = s.received ∧ s'.requests = s.requests ∧
      s'.child.handled = s.child.handled ++ handlerCalls socket aReadBuffer.fBufferData := by
  cases hcb : socket.dataHandlerCb with
  | none =>
    refine ⟨[.serverStep, .serverStep, .parentCloses], ?_⟩
    simp [run, step, hpc, hcb, hholds, childStep, Child.close, Conversation.ended, hasReleased,
      handlerCalls]
  | some dataHandlerCb =>
    cases hok : dataHandlerCb aReadBuffer.fBufferData with
    | ok aWriteData =>
      refine ⟨[.serverStep, .serverWrites, .serverStep, .parentCloses], ?_⟩
      cases result <;> simp [run, step, hpc, hw, hcb, hok, hholds, childStep, Child.close,
        Conversation.ended, hasReleased, handlerCalls]
    | error e =>
      refine ⟨[.serverStep, .parentCloses], ?_⟩
      simp [run, step, hpc, hcb, hok, hholds, childStep, Conversation.ended, hasReleased,
        handlerCalls]

/-- The client has seen a reset before it has read anything. -/
structure Conversation.Lost (H : List Bytes) (s : Conversation) : Prop where
  client : s.client = .sawReset
  received : s.received = []
  released : hasReleased s.child.pc = true
  handled : s.child.handled = H

theorem Conversation.Lost.step {H : List Bytes} {s s' : Conversation} {e : Event}
    (h : s.Lost H) (hstep : step socket s e = some s') : s'.Lost H := by
  obtain ⟨hclient, hreceived, hreleased, hhandled⟩ := h
  cases move_of_step hstep with
  | clientSends htalking | clientReads htalking | clientSeesEnd htalking | reset htalking =>
    rw [hclient] at htalking
    cases htalking
  | parentCloses => exact ⟨hclient, hreceived, hreleased, hhandled⟩
  | serverReads hpc | serverWrites hpc =>
    rw [hpc] at hreleased
    cases hreleased
  | serverStep hread hwrite hmove =>
    cases hmove with
    | exit hpc => exact ⟨hclient, hreceived, rfl, hhandled⟩
    | closeListening hpc | acceptCallback hpc | acceptThrows hpc | read hpc | noHandler hpc
    | handle hpc | handlerThrows hpc | write hpc | writeFails hpc | closeConnection hpc =>
      rw [hpc] at hreleased
      cases hreleased

/-- A client that sends more than the child reads may lose the whole answer. -/
theorem exists_endsIn_lost (hcb : socket.callAccept clientSocket = .ok ()) (hnul : 0 ∉ m)
    (hlength : m.length ≤ bufSize) {d : Bytes} (h : StopsAt socket.terminator m d)
    (hmore : d ≠ m) :
    ∃ s, EndsIn (step socket) (start clientSocket connfd fds stack m result) s ∧
      s.Lost (handlerCalls socket d) := by
  have hle := h.isPrefix.length_le
  obtain ⟨es, hread⟩ := exists_run_firstRead connfd fds stack result socket hcb
    (List.length_pos_iff.mpr h.ne_nil) hle (by omega)
  have hpc : (afterFirstRead socket clientSocket connfd fds stack m result d.length).child.pc =
      .dataHandler ⟨d.length, d⟩ := by
    rw [afterFirstRead, readStep_of_stopsAt hnul hlength h]
    rfl
  have hreleased := @exists_run_released socket result _ _ hpc rfl rfl
  obtain ⟨fs, t, hrun, hended, hclient, hreceived, hrequests, hhandled⟩ := hreleased
  have hunread : t.requests ≠ [] := by
    rw [hrequests, ← List.length_pos_iff]
    have hlt : d.length < m.length := by
      apply lt_of_le_of_ne hle
      intro heq
      exact hmore (h.isPrefix.eq_of_length heq)
    simp only [afterFirstRead, List.length_drop]
    omega
  have hreset : run (step socket) t [.reset] =
      some { t with client := .sawReset, responses := [] } := by
    simp [run, step, hended, hunread, hclient, afterFirstRead, beforeRead, start]
  obtain ⟨s, hend⟩ := exists_ending socket { t with client := .sawReset, responses := [] }
  refine ⟨s, ((hend.of_run hreset).of_run hrun).of_run hread, ?_⟩
  refine hend.invariant (Conversation.Lost (handlerCalls socket d)) ?_
    fun _ _ _ => Conversation.Lost.step
  rw [Conversation.ended, Bool.and_eq_true] at hended
  exact ⟨rfl, hreceived, hended.2, hhandled⟩

/-- The client can lose the whole answer in a reset exactly if it sends more than a beginning of
its message at which the read loop can stop. -/
theorem answer_lost_iff (socket : SocketIPv4)
    (dataHandler : Bytes → Except CppException Bytes) (terminator : Bytes)
    {clientSocket : SockaddrIn} (hcb : socket.callAccept clientSocket = .ok ()) {m : Bytes}
    (hnul : 0 ∉ m) (hlength : m.length ≤ bufSize) (connfd : ℤ) (fds : Finset ℤ)
    (stack : CharBuffer) (result : WriteResult) :
    (∃ s, EndsIn (step (socket.onDataReceive dataHandler terminator))
        (start clientSocket connfd fds stack m result) s ∧
          s.client = .sawReset ∧ s.received = []) ↔
      ∃ d, StopsAt terminator m d ∧ d ≠ m := by
  have hcb' : (socket.onDataReceive dataHandler terminator).callAccept clientSocket = .ok () := hcb
  constructor
  · rintro ⟨s, hend, hreset, -⟩
    rcases outcome_of_endsIn hcb' hnul hlength hend with ⟨hdeadlocked, -⟩ | ⟨d, hstops, hanswered⟩
    · rw [hdeadlocked.client.1] at hreset
      cases hreset
    · rcases hanswered.received with ⟨hend, -⟩ | ⟨-, hmore, -⟩
      · rw [hend] at hreset
        cases hreset
      · exact ⟨d, hstops, hmore⟩
  · rintro ⟨d, hstops, hmore⟩
    obtain ⟨s, hend, hlost⟩ := exists_endsIn_lost hcb' hnul hlength hstops hmore
    exact ⟨s, hend, hlost.client, hlost.received⟩

theorem answer_lost_iff_postedForm :
    (∃ s, EndsIn (step ((SocketIPv4.createTcpSocket 3).onDataReceive .ok (crlf ++ crlf)))
        (start ⟨0, 0⟩ 4 {0, 1, 2, 3, 4} .zeroed postedForm (.written 5)) s ∧
          s.client = .sawReset ∧ s.received = []) ↔
      ∃ d, StopsAt (crlf ++ crlf) postedForm d ∧ d ≠ postedForm :=
  answer_lost_iff (.createTcpSocket 3) .ok (crlf ++ crlf) rfl (by decide) (by decide) 4
    {0, 1, 2, 3, 4} .zeroed (.written 5)

end Resets

section Whole

variable {socket : SocketIPv4} {clientSocket : SockaddrIn} {m : Bytes}
  {dataHandler : Bytes → Except CppException Bytes} {terminator : Bytes} {result : WriteResult}

/-- The child has handled the message, and the client has the whole answer to it. -/
def Conversation.Whole (dataHandler : Bytes → Except CppException Bytes) (m : Bytes)
    (s : Conversation) : Prop :=
  s.child.handled = [m] ∧ dataHandler m = .ok s.received ∧ s.client = .sawEnd

/-- A message with the terminator at its end and nowhere else is handled whole, and the client
gets what is written of the answer. -/
theorem answered_of_endsOnce (hcb : socket.callAccept clientSocket = .ok ()) (hnul : 0 ∉ m)
    (hlength : m.length ≤ bufSize) (ht : socket.terminator ≠ [])
    (hm : EndsOnce socket.terminator m) {connfd : ℤ} {fds : Finset ℤ} {stack : CharBuffer}
    {s : Conversation}
    (h : EndsIn (step socket) (start clientSocket connfd fds stack m result) s) :
    s.child.handled = handlerCalls socket m ∧ s.client = .sawEnd ∧
      s.received = reply socket result m := by
  rcases outcome_of_endsIn hcb hnul hlength h with ⟨-, hnil | hopen⟩ | ⟨d, hstops, hanswered⟩
  · exact absurd hnil (hm.ne_nil ht)
  · exact absurd hm.1 hopen
  · obtain rfl := hm.eq_of_isPrefix hstops.isPrefix hstops.isSuffix
    rcases hanswered.received with ⟨hsees, hreceived⟩ | ⟨-, hmore, -⟩
    · exact ⟨hanswered.handled, hsees, hreceived⟩
    · exact absurd rfl hmore

theorem reply_onDataReceive {answer : Bytes} (hanswer : dataHandler m = .ok answer) :
    reply (socket.onDataReceive dataHandler terminator) result m = result.taken answer := by
  simp only [reply, SocketIPv4.onDataReceive, hanswer]

/-- The client gets as much of the answer as `write` takes. -/
theorem taken_of_endsOnce (hcb : socket.callAccept clientSocket = .ok ()) (hnul : 0 ∉ m)
    (hlength : m.length ≤ bufSize) (ht : terminator ≠ []) (hm : EndsOnce terminator m)
    {answer : Bytes} (hanswer : dataHandler m = .ok answer) {connfd : ℤ} {fds : Finset ℤ}
    {stack : CharBuffer} {s : Conversation}
    (h : EndsIn (step (socket.onDataReceive dataHandler terminator))
      (start clientSocket connfd fds stack m result) s) :
    s.client = .sawEnd ∧ s.received = result.taken answer := by
  have hcb' : (socket.onDataReceive dataHandler terminator).callAccept clientSocket = .ok () := hcb
  obtain ⟨-, hsees, hreceived⟩ := answered_of_endsOnce hcb' hnul hlength ht hm h
  exact ⟨hsees, hreceived.trans (reply_onDataReceive hanswer)⟩

/-- If `write` takes all of the answer, the client gets all of it. -/
theorem whole_of_endsOnce (hcb : socket.callAccept clientSocket = .ok ()) (hnul : 0 ∉ m)
    (hlength : m.length ≤ bufSize) (ht : terminator ≠ []) (hm : EndsOnce terminator m)
    {answer : Bytes} (hanswer : dataHandler m = .ok answer)
    (hall : answer = [] ∨ ∃ n, result = .written n ∧ answer.length ≤ n) {connfd : ℤ}
    {fds : Finset ℤ} {stack : CharBuffer} {s : Conversation}
    (h : EndsIn (step (socket.onDataReceive dataHandler terminator))
      (start clientSocket connfd fds stack m result) s) : s.Whole dataHandler m := by
  have hcb' : (socket.onDataReceive dataHandler terminator).callAccept clientSocket = .ok () := hcb
  obtain ⟨hhandled, -, -⟩ := answered_of_endsOnce hcb' hnul hlength ht hm h
  obtain ⟨hsees, hreceived⟩ := taken_of_endsOnce hcb hnul hlength ht hm hanswer h
  rw [WriteResult.taken_eq_iff.mpr hall] at hreceived
  exact ⟨hhandled, by rw [hanswer, hreceived], hsees⟩

section Necessary

variable {connfd : ℤ} {fds : Finset ℤ} {stack : CharBuffer}
  (h : ∀ s, EndsIn (step (socket.onDataReceive dataHandler terminator))
    (start clientSocket connfd fds stack m result) s → s.Whole dataHandler m)
include h

theorem handled_of_whole {H : List Bytes}
    (hH : ∃ s, EndsIn (step (socket.onDataReceive dataHandler terminator))
      (start clientSocket connfd fds stack m result) s ∧ s.child.handled = H) : H = [m] := by
  obtain ⟨s, hend, rfl⟩ := hH
  exact (h s hend).1

theorem callAccept_of_whole : socket.callAccept clientSocket = .ok () := by
  cases hcb : socket.callAccept clientSocket with
  | ok => rfl
  | error e =>
    have hcb' : (socket.onDataReceive dataHandler terminator).callAccept clientSocket =
        .error e := hcb
    have hrun : run (step (socket.onDataReceive dataHandler terminator))
        (start clientSocket connfd fds stack m result) [.serverStep, .serverStep] =
        some { start clientSocket connfd fds stack m result with
          child := { (Child.forked ⟨clientSocket, [], [result]⟩ connfd fds stack).close
            (socket.onDataReceive dataHandler terminator).sockfd with pc := .terminated } } := by
      simp [run, step, start, childStep, Child.forked, Child.close, hcb']
    have hnone := handled_of_whole h (Settled.exists_ending (H := []) hrun rfl)
    cases hnone

theorem ne_nil_of_whole : m ≠ [] := by
  rintro rfl
  obtain ⟨es, hrun⟩ := exists_run_beforeRead connfd fds stack result
    (socket.onDataReceive dataHandler terminator) (callAccept_of_whole h) []
  have hnone := handled_of_whole h (Settled.exists_ending (H := []) hrun ⟨rfl, rfl, rfl, rfl⟩)
  cases hnone

/-- What the first read settles can only be the message. -/
theorem firstRead_of_whole {n : ℕ} (hpos : 0 < n) (hle : n ≤ m.length) (hfits : n ≤ bufSize + 1)
    {H : List Bytes} (hH : match readStep terminator stack .new (.bytes (m.take n)) with
      | .next _ _ => m.drop n = [] ∧ H = []
      | .stop aStreambuffer => H = [aStreambuffer.fBufferData]
      | .undefined => H = []) : H = [m] := by
  have hcb : (socket.onDataReceive dataHandler terminator).callAccept clientSocket = .ok () :=
    callAccept_of_whole h
  exact handled_of_whole h (exists_endsIn_firstRead hcb hpos hle hfits hH)

theorem length_le_of_whole : m.length ≤ bufSize := by
  by_contra hlong
  have hfull : readStep terminator stack .new (.bytes (m.take (bufSize + 1))) = .undefined := by
    apply readStep_full
    simp only [ReadResult.chunk, List.length_take]
    omega
  have hnone : [] = [m] :=
    firstRead_of_whole h (Nat.succ_pos bufSize) (by omega) le_rfl (by rw [hfull])
  cases hnone

/-- The whole message in one read must leave the loop, with nothing lost. -/
theorem isSuffix_of_whole : terminator <:+ m ∧ 0 ∉ m := by
  have hm := ne_nil_of_whole h
  have hlength := length_le_of_whole h
  have hpos := List.length_pos_iff.mpr hm
  have hread := readStep_new terminator stack hm hlength
  by_cases hsuffix : terminator <:+ beforeNull 0 m
  · rw [if_pos hsuffix] at hread
    have hall : [beforeNull 0 m] = [m] :=
      firstRead_of_whole h hpos le_rfl (by omega) (by rw [List.take_length, hread])
    have hvisible : beforeNull 0 m = m := List.singleton_inj.mp hall
    rw [hvisible] at hsuffix
    refine ⟨hsuffix, ?_⟩
    rw [← hvisible]
    exact takeWhile_notMem 0 m
  · rw [if_neg hsuffix] at hread
    have hnone : [] = [m] := by
      refine firstRead_of_whole h hpos le_rfl (by omega) ?_
      rw [List.take_length, hread]
      exact ⟨List.drop_length, rfl⟩
    cases hnone

theorem endsOnce_of_whole (ht : terminator ≠ []) : EndsOnce terminator m := by
  obtain ⟨hsuffix, hnul⟩ := isSuffix_of_whole h
  refine ⟨hsuffix, ?_⟩
  intro a b hab
  have hstops : StopsAt terminator m (a ++ terminator) :=
    ⟨⟨b, by rw [hab, List.append_assoc]⟩, List.append_ne_nil_of_right_ne_nil _ ht,
      List.suffix_append _ _⟩
  have hcb' : (socket.onDataReceive dataHandler terminator).callAccept clientSocket = .ok () :=
    callAccept_of_whole h
  have hall := handled_of_whole h (exists_endsIn_stopsAt hcb' hnul (length_le_of_whole h) hstops)
  have hsame : a ++ terminator = m := List.singleton_inj.mp hall
  rw [hab, ← List.append_assoc] at hsame
  exact List.self_eq_append_right.mp hsame

/-- What the client has is what the call of `write` takes of the answer. -/
theorem taken_of_whole (ht : terminator ≠ []) {answer : Bytes}
    (hanswer : dataHandler m = .ok answer) : result.taken answer = answer := by
  obtain ⟨s, hend⟩ := exists_ending (socket.onDataReceive dataHandler terminator)
    (start clientSocket connfd fds stack m result)
  obtain ⟨-, hreceived⟩ := taken_of_endsOnce (callAccept_of_whole h) (isSuffix_of_whole h).2
    (length_le_of_whole h) ht (endsOnce_of_whole h ht) hanswer hend
  have hwhole := (h s hend).2.1
  rw [hanswer, hreceived] at hwhole
  exact (Except.ok.inj hwhole).symm

end Necessary

/-- Every conversation about a message ends with the child having handled just that message and
the client having the whole answer if and only if the message fits into the array with its zero,
has no NUL, and has the terminator at its end and nowhere else, and the call of `write` takes all
of the answer; the callbacks must not throw. -/
theorem whole_iff (socket : SocketIPv4) (dataHandler : Bytes → Except CppException Bytes)
    {terminator : Bytes} (ht : terminator ≠ []) (clientSocket : SockaddrIn) (connfd : ℤ)
    (fds : Finset ℤ) (stack : CharBuffer) (m : Bytes) (result : WriteResult) :
    (∀ s, EndsIn (step (socket.onDataReceive dataHandler terminator))
        (start clientSocket connfd fds stack m result) s → s.Whole dataHandler m) ↔
      socket.callAccept clientSocket = .ok () ∧ m.length ≤ bufSize ∧ 0 ∉ m ∧
        EndsOnce terminator m ∧ ∃ answer, dataHandler m = .ok answer ∧
          (answer = [] ∨ ∃ n, result = .written n ∧ answer.length ≤ n) := by
  constructor
  · intro h
    refine ⟨callAccept_of_whole h, length_le_of_whole h, (isSuffix_of_whole h).2,
      endsOnce_of_whole h ht, ?_⟩
    obtain ⟨s, hend⟩ := exists_ending (socket.onDataReceive dataHandler terminator)
      (start clientSocket connfd fds stack m result)
    have hanswer : dataHandler m = .ok s.received := (h s hend).2.1
    exact ⟨s.received, hanswer, WriteResult.taken_eq_iff.mp (taken_of_whole h ht hanswer)⟩
  · intro h s hend
    obtain ⟨hcb, hlength, hnul, hm, answer, hanswer, hall⟩ := h
    exact whole_of_endsOnce hcb hnul hlength ht hm hanswer hall hend

/-- A request with its blank line, and nothing behind it. -/
theorem whole_iff_get :
    (∀ s, EndsIn (step ((SocketIPv4.createTcpSocket 3).onDataReceive .ok (crlf ++ crlf)))
        (start ⟨0, 0⟩ 4 {0, 1, 2, 3, 4} .zeroed (ascii "GET / HTTP/1.1\r\n\r\n") (.written 18)) s →
        s.Whole .ok (ascii "GET / HTTP/1.1\r\n\r\n")) ↔
      (SocketIPv4.createTcpSocket 3).callAccept ⟨0, 0⟩ = .ok () ∧
        (ascii "GET / HTTP/1.1\r\n\r\n").length ≤ bufSize ∧
        0 ∉ ascii "GET / HTTP/1.1\r\n\r\n" ∧
        EndsOnce (crlf ++ crlf) (ascii "GET / HTTP/1.1\r\n\r\n") ∧
        ∃ answer, Except.ok (ε := CppException) (ascii "GET / HTTP/1.1\r\n\r\n") = .ok answer ∧
          (answer = [] ∨ ∃ n, WriteResult.written 18 = .written n ∧ answer.length ≤ n) :=
  whole_iff (.createTcpSocket 3) .ok (by decide) ⟨0, 0⟩ 4 {0, 1, 2, 3, 4} .zeroed
    (ascii "GET / HTTP/1.1\r\n\r\n") (.written 18)

end Whole

section Complete

variable {socket : SocketIPv4} {m : Bytes} {clientSocket : SockaddrIn} {connfd : ℤ}
  {fds : Finset ℤ} {stack : CharBuffer} {result : WriteResult}

/-- What a child has handled, or is going to handle, ends with the terminator. -/
def HandlesTerminated (socket : SocketIPv4) (c : Child) : Prop :=
  (∀ data ∈ c.handled, socket.terminator <:+ data) ∧
  match c.pc with
  | .dataHandler aReadBuffer => socket.terminator <:+ aReadBuffer.fBufferData
  | _ => True

theorem HandlesTerminated.step {s s' : Conversation} {e : Event}
    (h : HandlesTerminated socket s.child) (hstep : step socket s e = some s') :
    HandlesTerminated socket s'.child := by
  cases move_of_step hstep with
  | clientSends | clientReads | clientSeesEnd | parentCloses | reset => exact h
  | @serverReads buffer aStreambuffer n hpc hpos hle =>
    refine ⟨h.1, ?_⟩
    have hchunk : s.requests.take n ≠ [] := by
      rw [← List.length_pos_iff, List.length_take]
      omega
    rcases Nat.lt_or_ge bufSize (s.requests.take n).length with hfull | hshort
    · have hundefined := readStep_full socket.terminator buffer aStreambuffer
        (show bufSize < (ReadResult.bytes (s.requests.take n)).chunk.length from hfull)
      rw [hundefined]
      trivial
    · rw [readStep_chunk _ _ _ hchunk hshort]
      by_cases hsuffix : socket.terminator <:+
          aStreambuffer.fBufferData ++ beforeNull 0 (s.requests.take n)
      · rw [if_pos hsuffix]
        exact hsuffix
      · rw [if_neg hsuffix]
        trivial
  | serverWrites => exact ⟨h.1, trivial⟩
  | serverStep hread hwrite hmove =>
    cases hmove with
    | read hpc => exact absurd hpc (hread _ _)
    | handle hpc | handlerThrows hpc =>
      obtain ⟨hhandled, hdata⟩ := h
      simp only [hpc] at hdata
      exact ⟨List.forall_mem_append.mpr ⟨hhandled, List.forall_mem_singleton.mpr hdata⟩, trivial⟩
    | closeListening | acceptCallback | acceptThrows | noHandler | write | writeFails
    | closeConnection | exit => exact ⟨h.1, trivial⟩

/-- As long as the client keeps its side open, only what ends with the terminator is handled. -/
theorem handled_terminated_of_run {es : List Event} {s : Conversation}
    (h : run (step socket) (start clientSocket connfd fds stack m result) es = some s) :
    ∀ data ∈ s.child.handled, socket.terminator <:+ data := by
  have hterminated : HandlesTerminated socket s.child := by
    refine run_invariant (fun s => HandlesTerminated socket s.child) ?_
      (fun _ _ _ => HandlesTerminated.step) h
    exact ⟨fun data hdata => (nomatch hdata), trivial⟩
  exact hterminated.1

end Complete

end CppWebserver.Conversations
