import CppWebserver.ForkedProcesses
import CppWebserver.ServerRuns

/-!
# The server in any order

Parent and children share nothing after `fork`, so the server is a machine that
forks: a child is where its own steps take it from the return of `fork`, whatever the
order in which the operating system lets them run. What a child does with its
connection does not depend on what else the server does.
-/

namespace CppWebserver.SocketServer
open ByteStrings ForkedProcesses LabelledRuns SocketReadLoop

/-- The server as a machine that forks. -/
def forking (socket : SocketIPv4) : Forking Server Event Child where
  step := step socket
  process := childStep socket
  processes := Server.children
  withProcesses s children := { s with children := children }
  pid := Event.pid
  own := .child
  pid_own _ := rfl
  processes_with _ _ := rfl
  with_processes _ := rfl
  with_with _ _ _ := rfl
  step_process s e pid h := by
    cases e with
    | child pid' =>
      obtain rfl : pid' = pid := Option.some.inj h
      simp only [step]
      cases s.children[pid']? <;> rfl
    | _ => cases h
  step_parent s e s' h hstep := by
    cases move_of_step hstep with
    | arrive connection => exact ⟨[], fun cs _ => by simp [step]⟩
    | accept hpc hp hlistening hnonneg hfresh =>
      exact ⟨[], fun cs _ => by simp [step, hpc, hp, hlistening, hnonneg, hfresh]⟩
    | acceptFails hpc | forkFails hpc | close hpc =>
      exact ⟨[], fun cs _ => by simp [step, hpc]⟩
    | @fork connfd connection stack hpc =>
      refine ⟨[Child.forked connection connfd s.parent.fds stack], fun cs hcs => ?_⟩
      simp [step, hpc, hcs]
    | child => cases h

section Isolation

/-- The read loop does not depend on what was in the array before. -/
theorem readStep_buffer (terminator : Bytes) (buffer buffer' : CharBuffer)
    (aStreambuffer : YStreamBuffer) (result : ReadResult) :
    readStep terminator buffer aStreambuffer result =
      readStep terminator buffer' aStreambuffer result := by
  by_cases hend : result.chunk = []
  · rw [readStep_end _ _ _ hend, readStep_end _ _ _ hend]
  · rcases Nat.lt_or_ge bufSize result.chunk.length with hfull | hlen
    · rw [readStep_full _ _ _ hfull, readStep_full _ _ _ hfull]
    · cases result with
      | bytes chunk =>
        change chunk ≠ [] at hend
        rw [readStep_chunk _ _ _ hend hlen, readStep_chunk _ _ _ hend hlen]
      | failed => exact absurd rfl hend

/-- A point in the program of a child, whatever is in its array. -/
def ChildPc.forget : ChildPc → ChildPc
  | .handleRead _ aStreambuffer => .handleRead .zeroed aStreambuffer
  | pc => pc

/-- A child without its descriptors and without what was on its stack. -/
def Child.service (c : Child) : Child where
  connection := c.connection
  connfd := 0
  stack := .zeroed
  pc := c.pc.forget
  fds := ∅
  closed := []
  reads := c.reads
  writes := c.writes
  handled := c.handled
  written := c.written
  waitedFor := c.waitedFor

variable {socket : SocketIPv4}

/-- Descriptors and garbage have no influence on a step. -/
theorem service_childStep (c : Child) :
    (childStep socket c).map Child.service = (childStep socket c.service).map Child.service := by
  cases hpc : c.pc with
  | closeListening => simp [childStep, Child.service, ChildPc.forget, hpc, Child.close]
  | acceptCallback =>
    simp only [childStep, Child.service, ChildPc.forget, hpc]
    cases socket.callAccept c.connection.clientSocket <;> rfl
  | handleRead buffer aStreambuffer =>
    simp only [childStep, Child.service, ChildPc.forget, hpc]
    cases c.reads with
    | nil => rfl
    | cons result reads =>
      dsimp only
      rw [readStep_buffer _ buffer .zeroed]
      rfl
  | dataHandler aReadBuffer =>
    simp only [childStep, Child.service, ChildPc.forget, hpc]
    cases socket.dataHandlerCb with
    | none => rfl
    | some dataHandlerCb => cases dataHandlerCb aReadBuffer.fBufferData <;> rfl
  | write aWriteData =>
    simp only [childStep, Child.service, ChildPc.forget, hpc]
    cases c.writes with
    | nil => rfl
    | cons result writes => cases result <;> rfl
  | closeConnection => simp [childStep, Child.service, ChildPc.forget, hpc, Child.close]
  | exit => simp [childStep, Child.service, ChildPc.forget, hpc]
  | loop | exited | terminated | undefined =>
    simp [childStep, Child.service, ChildPc.forget, hpc]

/-- By induction on the steps: children that serve the same connection stay alike. -/
theorem service_advance {c d c' d' : Child} {n : ℕ} (h : c.service = d.service)
    (hc : (forking socket).advance n c = some c') (hd : (forking socket).advance n d = some d') :
    c'.service = d'.service := by
  induction n generalizing c d with
  | zero =>
    cases hc
    cases hd
    exact h
  | succ n ih =>
    obtain ⟨b, hb, hbc⟩ := Option.bind_eq_some_iff.mp hc
    obtain ⟨a, ha, had⟩ := Option.bind_eq_some_iff.mp hd
    refine ih ?_ hbc had
    have hsteps : (childStep socket c).map Child.service = (childStep socket d).map Child.service := by
      rw [service_childStep c, h, ← service_childStep d]
    rw [show childStep socket c = some b from hb, show childStep socket d = some a from ha] at hsteps
    exact Option.some.inj hsteps

/-- As long as no child has taken a step, all children are as `fork` has left them. -/
theorem forked_of_run {fds : Finset ℤ} {es : List Event} {s : Server}
    (h : run (step socket) (.start fds) es = some s) (hes : ∀ e ∈ es, e.pid = none) :
    ∀ c ∈ s.children, ∃ connection connfd fds stack, c = .forked connection connfd fds stack := by
  refine run_induction (fun es s => (∀ e ∈ es, e.pid = none) → ∀ c ∈ s.children,
    ∃ connection connfd fds stack, c = .forked connection connfd fds stack) ?_ ?_ h hes
  · intro _ c hc
    cases hc
  · intro es s e s' ih hstep hes
    obtain ⟨hes, he⟩ := List.forall_mem_append.mp hes
    specialize ih hes
    cases move_of_step hstep with
    | arrive | accept | acceptFails | forkFails | close => exact ih
    | fork hpc =>
      exact List.forall_mem_append.mpr
        ⟨ih, List.forall_mem_singleton.mpr ⟨_, _, _, _, rfl⟩⟩
    | child hc hchild => cases he _ (List.mem_singleton_self _)

/-- A child is where its own steps take it from the return of `fork`. -/
theorem advance_of_run {fds : Finset ℤ} {es : List Event} {s : Server}
    (h : run (step socket) (.start fds) es = some s) {pid : ℕ} {c : Child}
    (hc : s.children[pid]? = some c) :
    ∃ connection connfd fds stack, (forking socket).advance (es.countP (·.pid = some pid))
      (.forked connection connfd fds stack) = some c := by
  obtain ⟨t, ht, hahead⟩ := Forking.aheadOf_of_run (M := forking socket) h
  obtain ⟨hpid, -⟩ := List.getElem?_eq_some_iff.mp hc
  have hlt : pid < t.children.length := hahead.length ▸ hpid
  obtain ⟨connection, connfd, fds, stack, hd⟩ := forked_of_run ht
    (fun e he => Option.isNone_iff_eq_none.mp (List.mem_filter.mp he).2) _ (List.getElem_mem hlt)
  refine ⟨connection, connfd, fds, stack, ?_⟩
  rw [← hd, ← hc]
  exact (hahead.process pid _ (List.getElem?_eq_getElem hlt)).symm

theorem connection_advance {c c' : Child} {n : ℕ} (h : (forking socket).advance n c = some c') :
    c'.connection = c.connection := by
  induction n generalizing c with
  | zero => cases h; rfl
  | succ n ih =>
    obtain ⟨b, hb, hbc⟩ := Option.bind_eq_some_iff.mp h
    rw [ih hbc, childStep_connection hb]

/-- Two children with the same connection that have taken the same number of steps have got
equally far with it, in whatever server and whatever happens around them. -/
theorem service_eq_of_connection_eq (socket : SocketIPv4) {fds fds' : Finset ℤ}
    {es es' : List Event} {s s' : Server} (h : run (step socket) (.start fds) es = some s)
    (h' : run (step socket) (.start fds') es' = some s') {pid pid' : ℕ} {c c' : Child}
    (hc : s.children[pid]? = some c) (hc' : s'.children[pid']? = some c')
    (hconnection : c.connection = c'.connection)
    (hsteps : es.countP (·.pid = some pid) = es'.countP (·.pid = some pid')) :
    c.service = c'.service := by
  obtain ⟨connection, connfd, fds, stack, hadvance⟩ := advance_of_run h hc
  obtain ⟨connection', connfd', fds', stack', hadvance'⟩ := advance_of_run h' hc'
  have hsame : connection = connection' := by
    rw [connection_advance hadvance, connection_advance hadvance'] at hconnection
    exact hconnection
  rw [← hsteps] at hadvance'
  refine service_advance ?_ hadvance hadvance'
  rw [hsame]
  rfl

/-- A client alone. -/
def onlyClient : List Event :=
  [.arrive (silentClient [.written 5]), .accept 4, .fork .zeroed, .child 0, .child 0]

/-- The same client behind another one, whose child runs in between. -/
def secondClient : List Event :=
  [.arrive (silentClient []), .arrive (silentClient [.written 5]), .accept 4, .fork .zeroed,
    .close, .accept 4, .child 0, .fork .zeroed, .child 1, .child 0, .child 1]

theorem run_onlyClient : ∃ s, run (step helloSocket) (.start {0, 1, 2, 3}) onlyClient = some s ∧
    ∃ c, s.children[0]? = some c ∧ c.connection = silentClient [.written 5] :=
  ⟨_, rfl, _, rfl, rfl⟩

theorem run_secondClient :
    ∃ s, run (step helloSocket) (.start {0, 1, 2, 3}) secondClient = some s ∧
      ∃ c, s.children[1]? = some c ∧ c.connection = silentClient [.written 5] :=
  ⟨_, rfl, _, rfl, rfl⟩

theorem service_eq_of_connection_eq_hello :
    ∃ s s' c c', run (step helloSocket) (.start {0, 1, 2, 3}) onlyClient = some s ∧
      run (step helloSocket) (.start {0, 1, 2, 3}) secondClient = some s' ∧
      s.children[0]? = some c ∧ s'.children[1]? = some c' ∧ c.service = c'.service := by
  obtain ⟨s, hs, c, hc, hconnection⟩ := run_onlyClient
  obtain ⟨s', hs', c', hc', hconnection'⟩ := run_secondClient
  have hsame : c.connection = c'.connection := hconnection.trans hconnection'.symm
  exact ⟨s, s', c, c', hs, hs', hc, hc',
    service_eq_of_connection_eq helloSocket hs hs' hc hc' hsame rfl⟩

end Isolation

end CppWebserver.SocketServer
