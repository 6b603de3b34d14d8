import CppWebserver.ServerSchedules

/-!
# What a connection is served

A connection as a whole: what `read` gives on it, up to the terminator, goes through
the data handler, and one `write` takes what it takes of the answer. A child that is
let run closes its connection with these bytes written, in every state of the server;
if the connection has no such bytes, it never closes it.
-/

namespace CppWebserver.SocketServer
open ByteStrings ForkedProcesses LabelledRuns SocketReadLoop

/-- The part of the answer to these data that the first call of `write` takes. -/
def answered (socket : SocketIPv4) (writes : List WriteResult) (data : Bytes) : Option Bytes :=
  match socket.dataHandlerCb with
  | none => some []
  | some dataHandlerCb => match dataHandlerCb data with
    | .ok aWriteData => writes.head?.map (·.taken aWriteData)
    | .error _ => none

/-- The bytes that a connection is served, if any. -/
def served (socket : SocketIPv4) (connection : Connection) : Option Bytes :=
  match socket.callAccept connection.clientSocket with
  | .ok () => (handleRead socket.terminator .zeroed connection.reads).data.bind
      (answered socket connection.writes)
  | .error _ => none

/-- The bytes that a child still writes before it closes the connection, if it does. -/
def Child.remaining (socket : SocketIPv4) (c : Child) : Option Bytes :=
  match c.pc with
  | .closeListening | .acceptCallback =>
    match socket.callAccept c.connection.clientSocket with
    | .ok () => (handleRead socket.terminator .zeroed c.reads).data.bind (answered socket c.writes)
    | .error _ => none
  | .handleRead buffer aStreambuffer =>
    (readLoop socket.terminator buffer aStreambuffer c.reads).data.bind (answered socket c.writes)
  | .dataHandler aReadBuffer => answered socket c.writes aReadBuffer.fBufferData
  | .write aWriteData => c.writes.head?.map (·.taken aWriteData)
  | .closeConnection | .exit | .exited => some []
  | .loop | .terminated | .undefined => none

/-- Everything that a child has written when it closes the connection, if it does. -/
def Child.outcome (socket : SocketIPv4) (c : Child) : Option Bytes :=
  (c.remaining socket).map (c.written ++ ·)

section Outcome

variable {socket : SocketIPv4} {c c' : Child}

/-- What the read loop returns does not depend on what was in the array before. -/
theorem data_readLoop_buffer (terminator : Bytes) (buffer buffer' : CharBuffer)
    (aStreambuffer : YStreamBuffer) (results : List ReadResult) :
    (readLoop terminator buffer aStreambuffer results).data =
      (readLoop terminator buffer' aStreambuffer results).data := by
  cases results with
  | nil => rfl
  | cons result results => rw [readLoop, readLoop, readStep_buffer _ buffer buffer']

/-- A child keeps to the bytes that it is going to write. -/
theorem outcome_childStep (h : childStep socket c = some c') :
    c'.outcome socket = c.outcome socket := by
  cases childMove_of_step h with
  | closeListening hpc => simp only [Child.outcome, Child.remaining, hpc, Child.close]
  | acceptCallback hpc hcb =>
    simp only [Child.outcome, Child.remaining, hpc, hcb, handleRead]
    rw [data_readLoop_buffer _ c.stack .zeroed]
  | acceptThrows hpc hcb => simp only [Child.outcome, Child.remaining, hpc, hcb]
  | @read buffer aStreambuffer result reads hpc hr =>
    simp only [Child.outcome, Child.remaining, hpc, hr, readLoop]
    cases readStep socket.terminator buffer aStreambuffer result <;> rfl
  | noHandler hpc hcb => simp only [Child.outcome, Child.remaining, hpc, answered, hcb]
  | handle hpc hcb hw | handlerThrows hpc hcb hw =>
    simp only [Child.outcome, Child.remaining, hpc, answered, hcb, hw]
  | write hpc hw | writeFails hpc hw =>
    simp [Child.outcome, Child.remaining, hpc, hw, WriteResult.taken]
  | closeConnection hpc => simp only [Child.outcome, Child.remaining, hpc, Child.close]
  | exit hpc => simp only [Child.outcome, Child.remaining, hpc]

theorem outcome_advance {n : ℕ} (h : (forking socket).advance n c = some c') :
    c'.outcome socket = c.outcome socket := by
  induction n generalizing c with
  | zero => cases h; rfl
  | succ n ih =>
    obtain ⟨d, hd, hdc⟩ := Option.bind_eq_some_iff.mp h
    rw [ih hdc, outcome_childStep hd]

theorem outcome_forked (socket : SocketIPv4) (connection : Connection) (connfd : ℤ)
    (fds : Finset ℤ) (stack : CharBuffer) :
    (Child.forked connection connfd fds stack).outcome socket = served socket connection := by
  have hremaining : (Child.forked connection connfd fds stack).remaining socket =
      served socket connection := rfl
  rw [Child.outcome, hremaining]
  simp [Child.forked]

theorem Child.HasClosed.outcome_eq (h : c.HasClosed) : c.outcome socket = some c.written := by
  rcases h with hpc | hpc <;> simp [outcome, remaining, hpc]

/-- A child with an outcome goes on until it has closed the connection. -/
theorem exists_childStep (h : (c.outcome socket).isSome) (hopen : ¬ c.HasClosed) :
    ∃ c', childStep socket c = some c' := by
  rw [Child.outcome, Option.isSome_map] at h
  rw [← Option.isSome_iff_exists]
  cases hpc : c.pc with
  | closeListening | closeConnection => simp [childStep, hpc]
  | acceptCallback =>
    cases hcb : socket.callAccept c.connection.clientSocket with
    | error e => simp [Child.remaining, hpc, hcb] at h
    | ok => simp [childStep, hpc, hcb]
  | handleRead buffer aStreambuffer =>
    cases hr : c.reads with
    | nil => simp [Child.remaining, hpc, hr, readLoop, ReadOutcome.data] at h
    | cons result reads => simp [childStep, hpc, hr]
  | dataHandler aReadBuffer =>
    cases hcb : socket.dataHandlerCb <;> simp [childStep, hpc, hcb]
  | write aWriteData =>
    cases hw : c.writes with
    | nil => simp [Child.remaining, hpc, hw] at h
    | cons result writes => cases result <;> simp [childStep, hpc, hw]
  | exit => exact absurd (.inl hpc) hopen
  | exited => exact absurd (.inr hpc) hopen
  | loop | terminated | undefined => simp [Child.remaining, hpc] at h

theorem exists_advance_closed (h : (c.outcome socket).isSome) :
    ∃ n c', (forking socket).advance n c = some c' ∧ c'.HasClosed := by
  induction hn : c.rank using Nat.strongRecOn generalizing c with
  | ind m ih =>
    by_cases hclosed : c.HasClosed
    · exact ⟨0, c, rfl, hclosed⟩
    · obtain ⟨d, hd⟩ := exists_childStep h hclosed
      have hlt : d.rank < c.rank := rank_childStep_lt hd hclosed
      rw [← outcome_childStep hd] at h
      obtain ⟨n, c', hadvance, hc'⟩ := ih d.rank (hn ▸ hlt) h rfl
      refine ⟨n + 1, c', ?_, hc'⟩
      rw [Forking.advance, show (forking socket).process c = some d from hd]
      exact hadvance

end Outcome

/-- The child of a connection is going to write what the connection is served. -/
theorem outcome_of_run {socket : SocketIPv4} {fds : Finset ℤ} {es : List Event} {s : Server}
    (h : run (step socket) (.start fds) es = some s) {pid : ℕ} {c : Child}
    (hc : s.children[pid]? = some c) : c.outcome socket = served socket c.connection := by
  obtain ⟨connection, connfd, fds', stack, hadvance⟩ := advance_of_run h hc
  rw [outcome_advance hadvance, outcome_forked, connection_advance hadvance]
  rfl

/-- A connection that has been closed has been served. -/
theorem served_eq_written {socket : SocketIPv4} {fds : Finset ℤ} {es : List Event} {s : Server}
    (h : run (step socket) (.start fds) es = some s) {c : Child} (hc : c ∈ s.children)
    (hclosed : c.HasClosed) : served socket c.connection = some c.written := by
  obtain ⟨pid, hpid⟩ := List.getElem?_of_mem hc
  rw [← outcome_of_run h hpid, hclosed.outcome_eq]

/-- In every state of the server, the child of a connection gets by steps of its own to the
close of the connection with exactly these bytes written if the connection is served them,
and not otherwise. -/
theorem served_iff (socket : SocketIPv4) {fds : Finset ℤ} {es : List Event} {s : Server}
    (h : run (step socket) (.start fds) es = some s) {pid : ℕ} {c : Child}
    (hc : s.children[pid]? = some c) (w : Bytes) :
    served socket c.connection = some w ↔
      ∃ n s' c', run (step socket) s (List.replicate n (.child pid)) = some s' ∧
        s'.children[pid]? = some c' ∧ c'.HasClosed ∧ c'.written = w := by
  obtain ⟨hpid, -⟩ := List.getElem?_eq_some_iff.mp hc
  rw [← outcome_of_run h hc]
  constructor
  · intro hw
    obtain ⟨n, c', hsteps, hclosed⟩ := exists_advance_closed (by rw [hw]; rfl)
    refine ⟨n, _, c', Forking.run_replicate (M := forking socket) hc hsteps, ?_, hclosed, ?_⟩
    · exact List.getElem?_set_self hpid
    · rw [← outcome_advance hsteps, hclosed.outcome_eq] at hw
      exact Option.some.inj hw
  · intro hrun
    obtain ⟨n, s', c', hsteps, hc', hclosed, rfl⟩ := hrun
    obtain ⟨t, ht, hahead⟩ := Forking.aheadOf_of_run (M := forking socket) hsteps
    have hnone : (forking socket).parentEvents (List.replicate n (.child pid)) = [] := by
      rw [Forking.parentEvents, List.filter_replicate]
      rfl
    rw [hnone] at ht
    obtain rfl : s = t := Option.some.inj ht
    have hprocess := hahead.process pid c hc
    rw [show (forking socket).processes s' = s'.children from rfl, hc'] at hprocess
    rw [← outcome_advance hprocess.symm, hclosed.outcome_eq]

theorem served_iff_hello :
    ∃ s c, run (step helloSocket) (.start {0, 1, 2, 3}) secondClient = some s ∧
      s.children[1]? = some c ∧ (served helloSocket c.connection = some (ascii "hello") ↔
        ∃ n s' c', run (step helloSocket) s (List.replicate n (.child 1)) = some s' ∧
          s'.children[1]? = some c' ∧ c'.HasClosed ∧ c'.written = ascii "hello") := by
  obtain ⟨s, hs, c, hc, -⟩ := run_secondClient
  exact ⟨s, c, hs, hc, served_iff helloSocket hs hc (ascii "hello")⟩

end CppWebserver.SocketServer
