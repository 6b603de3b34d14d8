import CppWebserver.ServerSchedules
import Mathlib.Data.Finset.Basic

/-!
# Descriptor tables of parent and children

What `accept` opens in the parent is closed once at the end of the iteration,
with or without a child; a child closes the listening socket and its connection.
Numbers of descriptors come back after a close, so the books are kept by the
order of the calls, not by the numbers. The loop itself ends with the first call
of `accept` that fails, whatever the reason.
-/

namespace CppWebserver.SocketServer
open ByteStrings LabelledRuns SocketReadLoop

/-- The accept callback and the data handler throw on nothing. -/
structure SocketIPv4.ReturnsNormally (socket : SocketIPv4) : Prop where
  acceptCallback : ∀ clientSocket, socket.callAccept clientSocket = .ok ()
  dataHandlerCb : ∀ dataHandlerCb ∈ socket.dataHandlerCb, ∀ data,
    ∃ aWriteData, dataHandlerCb data = .ok aWriteData

/-- The descriptors that `accept` has returned, in order. -/
def acceptFds (es : List Event) : List ℤ :=
  es.filterMap fun
    | .accept connfd => some connfd
    | _ => none

/-- For every call of `fork`, in order, whether there is a child. -/
def forkResults (es : List Event) : List Bool :=
  es.filterMap fun
    | .fork _ => some true
    | .forkFails => some false
    | _ => none

/-- What a child has closed when it has come so far. -/
def Child.closes (socket : SocketIPv4) (c : Child) : List ℤ :=
  match c.pc with
  | .closeListening => []
  | .exit | .exited => [socket.sockfd, c.connfd]
  | _ => [socket.sockfd]

/-- The descriptor table of a child: that of the parent at its fork, less what the
child has closed, which is the listening socket and then its connection. -/
structure Child.Accounted (socket : SocketIPv4) (fds : Finset ℤ) (c : Child) : Prop where
  owned : socket.sockfd ∈ fds ∧ c.connfd ∉ fds
  closed : c.closed = c.closes socket
  table : c.fds = c.closed.foldl Finset.erase (insert c.connfd fds)
  notTerminated : c.pc ≠ .terminated

section Child

variable {socket : SocketIPv4} {fds : Finset ℤ} {c c' : Child}

theorem Child.Accounted.forked (hlistening : socket.sockfd ∈ fds) {connfd : ℤ}
    (hfresh : connfd ∉ fds) (connection : Connection) (stack : CharBuffer) :
    (Child.forked connection connfd (insert connfd fds) stack).Accounted socket fds :=
  ⟨⟨hlistening, hfresh⟩, rfl, rfl, by simp [Child.forked]⟩

theorem childStep_connfd (h : childStep socket c = some c') : c'.connfd = c.connfd := by
  cases childMove_of_step h <;> rfl

/-- A step that closes nothing keeps the table. -/
theorem Child.Accounted.other (h : c.Accounted socket fds) (hconnfd : c'.connfd = c.connfd)
    (hclosed : c'.closed = c.closed) (hfds : c'.fds = c.fds)
    (hcloses : c'.closes socket = c.closes socket) (hpc : c'.pc ≠ .terminated) :
    c'.Accounted socket fds where
  owned := by
    rw [hconnfd]
    exact h.owned
  closed := by rw [hclosed, hcloses, h.closed]
  table := by rw [hfds, hclosed, hconnfd, h.table]
  notTerminated := hpc

/-- A step that closes the next descriptor takes it out of the table. -/
theorem Child.Accounted.next (h : c.Accounted socket fds) {fd : ℤ}
    (hconnfd : c'.connfd = c.connfd) (hclosed : c'.closed = c.closed ++ [fd])
    (hfds : c'.fds = c.fds.erase fd) (hcloses : c'.closes socket = c.closes socket ++ [fd])
    (hpc : c'.pc ≠ .terminated) : c'.Accounted socket fds where
  owned := by
    rw [hconnfd]
    exact h.owned
  closed := by rw [hclosed, hcloses, h.closed]
  table := by
    rw [hfds, hclosed, hconnfd, h.table, List.foldl_append]
    rfl
  notTerminated := hpc

theorem Child.Accounted.step (hsocket : socket.ReturnsNormally) (h : c.Accounted socket fds)
    (hstep : childStep socket c = some c') : c'.Accounted socket fds := by
  cases childMove_of_step hstep with
  | closeListening hpc | closeConnection hpc =>
    exact h.next rfl rfl rfl (by simp [closes, hpc, close]) (by simp)
  | acceptCallback hpc | noHandler hpc | handle hpc | write hpc | writeFails hpc | exit hpc =>
    exact h.other rfl rfl rfl (by simp [closes, hpc]) (by simp)
  | @read buffer aStreambuffer result reads hpc hr =>
    cases hnext : readStep socket.terminator buffer aStreambuffer result <;>
      exact h.other rfl rfl rfl (by simp [closes, hpc, afterRead]) (by simp [afterRead])
  | acceptThrows hpc hcb =>
    rw [hsocket.acceptCallback] at hcb
    cases hcb
  | handlerThrows hpc hcb hw =>
    obtain ⟨aWriteData, hok⟩ := hsocket.dataHandlerCb _ hcb _
    rw [hok] at hw
    cases hw

end Child

/-- The descriptor that the parent has accepted in this iteration and not closed yet. -/
def Parent.holding (self : Parent) : List ℤ :=
  match self.pc with
  | .fork connfd _ | .close connfd _ _ => [connfd]
  | _ => []

/-- The connection and the descriptor that wait for the call of `fork`. -/
def Parent.toFork (self : Parent) : List (Connection × ℤ) :=
  match self.pc with
  | .fork connfd connection => [(connection, connfd)]
  | _ => []

/-- The books of the server: the table of the parent is that at the start of the run
and what this iteration has accepted, every descriptor has been closed in the order
of its `accept`, and the children have the connections whose `fork` has succeeded. -/
structure Books (socket : SocketIPv4) (fds : Finset ℤ) (es : List Event) (s : Server)
    (forked : List (Connection × ℤ)) : Prop where
  table : s.parent.fds = s.parent.holding.foldr insert fds
  closed : acceptFds es = s.parent.closed ++ s.parent.holding
  fresh : ∀ connfd ∈ acceptFds es, 0 ≤ connfd ∧ connfd ∉ fds
  listening : ∀ connfd ∈ acceptFds es, socket.sockfd ∈ fds
  length : s.accepted.length = (acceptFds es).length
  accepted : s.accepted.zip (acceptFds es) = forked ++ s.parent.toFork
  calls : (forkResults es).length = forked.length
  children : s.children.map (fun c => (c.connection, c.connfd)) =
    ((forked.zip (forkResults es)).filter (·.2)).map (·.1)
  accounted : ∀ c ∈ s.children, c.Accounted socket fds

section Books

variable {socket : SocketIPv4} {fds : Finset ℤ} {es : List Event} {e : Event} {s s' : Server}
  {forked : List (Connection × ℤ)}

theorem acceptFds_append (es fs : List Event) :
    acceptFds (es ++ fs) = acceptFds es ++ acceptFds fs :=
  List.filterMap_append

theorem forkResults_append (es fs : List Event) :
    forkResults (es ++ fs) = forkResults es ++ forkResults fs :=
  List.filterMap_append

theorem Books.start (socket : SocketIPv4) (fds : Finset ℤ) :
    Books socket fds [] (.start fds) [] :=
  ⟨rfl, rfl, by simp [acceptFds], by simp [acceptFds], rfl, rfl, rfl, rfl, by simp [Server.start]⟩

/-- The descriptor in the hands of the parent is a new one, next to the listening socket. -/
theorem Books.owned (h : Books socket fds es s forked) {connfd : ℤ}
    (hholding : s.parent.holding = [connfd]) : socket.sockfd ∈ fds ∧ connfd ∉ fds := by
  have hmem : connfd ∈ acceptFds es := by
    rw [h.closed, hholding]
    exact List.mem_append_right _ (List.mem_singleton_self _)
  exact ⟨h.listening _ hmem, (h.fresh _ hmem).2⟩

/-- Between `accept` and `fork` nothing is entered. -/
theorem Books.other (h : Books socket fds es s forked) (haccept : acceptFds [e] = [])
    (hfork : forkResults [e] = []) (htable : s'.parent.fds = s'.parent.holding.foldr insert fds)
    (hclosed : s'.parent.closed ++ s'.parent.holding = s.parent.closed ++ s.parent.holding)
    (htoFork : s'.parent.toFork = s.parent.toFork) (haccepted : s'.accepted = s.accepted)
    (hchildren : s'.children.map (fun c => (c.connection, c.connfd)) =
      s.children.map (fun c => (c.connection, c.connfd)))
    (haccounted : ∀ c ∈ s'.children, c.Accounted socket fds) :
    Books socket fds (es ++ [e]) s' forked := by
  have hfds : acceptFds (es ++ [e]) = acceptFds es := by
    rw [acceptFds_append, haccept, List.append_nil]
  have hresults : forkResults (es ++ [e]) = forkResults es := by
    rw [forkResults_append, hfork, List.append_nil]
  refine ⟨htable, ?_, ?_, ?_, ?_, ?_, ?_, ?_, haccounted⟩
  · rw [hfds, hclosed, h.closed]
  · rw [hfds]
    exact h.fresh
  · rw [hfds]
    exact h.listening
  · rw [hfds, haccepted, h.length]
  · rw [hfds, haccepted, htoFork, h.accepted]
  · rw [hresults, h.calls]
  · rw [hresults, hchildren, h.children]

/-- A call of `fork` settles the last accepted connection. -/
theorem Books.forks (h : Books socket fds es s forked) {connfd : ℤ} {connection : Connection}
    {aPid : Option ℕ} (hpc : s.parent.pc = .fork connfd connection) {result : Bool}
    (haccept : acceptFds [e] = []) (hfork : forkResults [e] = [result])
    (hparent : s'.parent = { s.parent with pc := .close connfd connection aPid })
    (haccepted : s'.accepted = s.accepted)
    (hchildren : s'.children.map (fun c => (c.connection, c.connfd)) =
      s.children.map (fun c => (c.connection, c.connfd)) ++
        if result then [(connection, connfd)] else [])
    (haccounted : ∀ c ∈ s'.children, c.Accounted socket fds) :
    Books socket fds (es ++ [e]) s' (forked ++ [(connection, connfd)]) := by
  have hfds : acceptFds (es ++ [e]) = acceptFds es := by
    rw [acceptFds_append, haccept, List.append_nil]
  have hresults : forkResults (es ++ [e]) = forkResults es ++ [result] := by
    rw [forkResults_append, hfork]
  have hholding : s'.parent.holding = s.parent.holding := by
    rw [hparent, Parent.holding, Parent.holding, hpc]
  have htoFork : s.parent.toFork = [(connection, connfd)] := by
    rw [Parent.toFork, hpc]
  refine ⟨?_, ?_, ?_, ?_, ?_, ?_, ?_, ?_, haccounted⟩
  · rw [hholding, hparent, ← h.table]
  · rw [hfds, hholding, hparent, h.closed]
  · rw [hfds]
    exact h.fresh
  · rw [hfds]
    exact h.listening
  · rw [hfds, haccepted, h.length]
  · rw [hfds, haccepted, h.accepted, htoFork, hparent]
    exact (List.append_nil _).symm
  · rw [hresults, List.length_append, List.length_append, h.calls]
    rfl
  · rw [hresults, List.zip_append h.calls.symm, List.filter_append, List.map_append, hchildren,
      h.children]
    cases result <;> rfl

/-- `accept` enters the new descriptor and its connection. -/
theorem Books.accepts (h : Books socket fds es s forked) {connfd : ℤ} {connection : Connection}
    {pending : List Connection} (hpc : s.parent.pc = .accept)
    (hlistening : socket.sockfd ∈ s.parent.fds) (hnonneg : 0 ≤ connfd)
    (hfresh : connfd ∉ s.parent.fds) :
    Books socket fds (es ++ [.accept connfd]) { s with
      parent := { s.parent with
        pc := .fork connfd connection, fds := insert connfd s.parent.fds }
      pending := pending
      accepted := s.accepted ++ [connection] } forked := by
  have hheld : s.parent.holding = [] := by
    rw [Parent.holding, hpc]
  have hnone : s.parent.toFork = [] := by
    rw [Parent.toFork, hpc]
  obtain ⟨htable, hclosed, hall, hlist, hlength, haccepted, hcalls, hchildren, haccounted⟩ := h
  rw [hheld] at htable hclosed
  rw [hnone, List.append_nil] at haccepted
  have hfds : acceptFds (es ++ [.accept connfd]) = acceptFds es ++ [connfd] := acceptFds_append _ _
  have hresults : forkResults (es ++ [.accept connfd]) = forkResults es := by
    rw [forkResults_append]
    exact List.append_nil _
  refine ⟨?_, ?_, ?_, ?_, ?_, ?_, ?_, ?_, haccounted⟩
  · exact congrArg (insert connfd) htable
  · rw [hfds, hclosed, List.append_nil]
    rfl
  · rw [hfds]
    intro fd hfd
    rcases List.mem_append.mp hfd with hfd | hfd
    · exact hall fd hfd
    · obtain rfl := List.mem_singleton.mp hfd
      refine ⟨hnonneg, ?_⟩
      rwa [htable] at hfresh
  · intro _ _
    rwa [htable] at hlistening
  · rw [hfds, List.length_append, List.length_append, hlength]
    rfl
  · rw [hfds, List.zip_append hlength, haccepted]
    rfl
  · rw [hresults, hcalls]
  · rw [hresults, hchildren]

theorem Books.step (hsocket : socket.ReturnsNormally) (h : Books socket fds es s forked)
    (hstep : SocketServer.step socket s e = some s') :
    ∃ forked', Books socket fds (es ++ [e]) s' forked' := by
  cases move_of_step hstep with
  | arrive connection =>
    exact ⟨forked, h.other rfl rfl h.table rfl rfl rfl rfl h.accounted⟩
  | accept hpc hp hlistening hnonneg hfresh =>
    exact ⟨forked, h.accepts hpc hlistening hnonneg hfresh⟩
  | acceptFails hpc =>
    have htable := h.table
    rw [Parent.holding, hpc] at htable
    refine ⟨forked, h.other rfl rfl htable ?_ ?_ rfl rfl h.accounted⟩
    · rw [Parent.holding, Parent.holding, hpc]
    · rw [Parent.toFork, Parent.toFork, hpc]
  | @fork connfd connection stack hpc =>
    have hholding : s.parent.holding = [connfd] := by
      rw [Parent.holding, hpc]
    have htable : s.parent.fds = insert connfd fds := by
      rw [h.table, hholding]
      rfl
    obtain ⟨hlistening, hfresh⟩ := h.owned hholding
    refine ⟨_, h.forks hpc rfl rfl rfl rfl List.map_append ?_⟩
    rw [htable]
    exact List.forall_mem_append.mpr ⟨h.accounted,
      List.forall_mem_singleton.mpr (.forked hlistening hfresh connection stack)⟩
  | @forkFails connfd connection hpc =>
    exact ⟨_, h.forks hpc rfl rfl rfl rfl (List.append_nil _).symm h.accounted⟩
  | @close connfd connection aPid hpc =>
    have hholding : s.parent.holding = [connfd] := by
      rw [Parent.holding, hpc]
    refine ⟨forked, h.other rfl rfl ?_ ?_ ?_ rfl rfl h.accounted⟩
    · change s.parent.fds.erase connfd = fds
      rw [h.table, hholding]
      exact Finset.erase_insert (h.owned hholding).2
    · rw [hholding]
      exact List.append_nil _
    · rw [Parent.toFork, Parent.toFork, hpc]
  | @child pid c c' hc hchild =>
    have hkept : (c'.connection, c'.connfd) = (c.connection, c.connfd) := by
      rw [childStep_connection hchild, childStep_connfd hchild]
    refine ⟨forked, h.other rfl rfl h.table rfl rfl rfl ?_ ?_⟩
    · exact map_set_of_eq (fun c => (c.connection, c.connfd)) hc hkept
    · exact forall_mem_set h.accounted
        ((h.accounted c (List.mem_of_getElem? hc)).step hsocket hchild)

end Books

/-- The failures of `accept` that concern the listening socket itself. The others are
those of one connection, of an interrupted call, or of resources that may come back. -/
def AcceptError.ofListeningSocket : AcceptError → Bool
  | .EBADF | .EINVAL | .ENOTSOCK | .EOPNOTSUPP => true
  | _ => false

/-- The failures of `accept` in a run. -/
def acceptErrors (es : List Event) : List AcceptError :=
  es.filterMap fun
    | .acceptFails error => some error
    | _ => none

theorem mem_acceptErrors {es : List Event} {error : AcceptError} :
    error ∈ acceptErrors es ↔ .acceptFails error ∈ es := by
  rw [acceptErrors, List.mem_filterMap]
  constructor
  · rintro ⟨e, he, herror⟩
    cases e with
    | acceptFails =>
      cases herror
      exact he
    | arrive | accept | fork | forkFails | close | child => cases herror
  · intro h
    exact ⟨_, h, rfl⟩

/-- The parent returns at the first failure of `accept`, and only then. -/
theorem returned_of_acceptErrors {socket : SocketIPv4} {fds : Finset ℤ} {es : List Event}
    {s : Server} (h : run (step socket) (.start fds) es = some s) :
    acceptErrors es = [] ∧ s.parent.pc ≠ .returned ∨
      (∃ error, acceptErrors es = [error]) ∧ s.parent.pc = .returned := by
  refine run_induction (fun es s => acceptErrors es = [] ∧ s.parent.pc ≠ .returned ∨
    (∃ error, acceptErrors es = [error]) ∧ s.parent.pc = .returned)
    (.inl ⟨rfl, by simp [Server.start]⟩) ?_ h
  intro es s e s' ih hstep
  have hconcat : acceptErrors (es ++ [e]) = acceptErrors es ++ acceptErrors [e] :=
    List.filterMap_append
  rw [hconcat]
  cases move_of_step hstep with
  | arrive | child =>
    rw [show acceptErrors [_] = [] from rfl, List.append_nil]
    exact ih
  | accept hpc | fork hpc | forkFails hpc | close hpc =>
    rw [hpc] at ih
    rcases ih with ⟨hnone, -⟩ | ⟨-, hreturned⟩
    · exact .inl ⟨by rw [hnone]; rfl, by simp⟩
    · cases hreturned
  | @acceptFails error hpc =>
    rw [hpc] at ih
    rcases ih with ⟨hnone, -⟩ | ⟨-, hreturned⟩
    · exact .inr ⟨⟨error, by rw [hnone]; rfl⟩, rfl⟩
    · cases hreturned

/-- The parent has left its loop only if the listening socket has failed. -/
def Server.StaysUp (es : List Event) (s : Server) : Prop :=
  s.parent.pc = .returned → ∃ error, .acceptFails error ∈ es ∧ error.ofListeningSocket

/-- The loop goes on exactly in the runs in which `accept` fails only with the listening
socket. -/
theorem staysUp_iff (socket : SocketIPv4) (fds : Finset ℤ) (es : List Event) (s : Server)
    (h : run (step socket) (.start fds) es = some s) :
    s.StaysUp es ↔ ∀ error, .acceptFails error ∈ es → error.ofListeningSocket := by
  simp only [Server.StaysUp, ← mem_acceptErrors]
  rcases returned_of_acceptErrors h with ⟨hnone, hpc⟩ | ⟨⟨error, hone⟩, hpc⟩
  · simp [hnone, hpc]
  · simp [hone, hpc]

/-- A client is turned away, then the listening socket fails. -/
def brokenSocket : List Event :=
  [.arrive (oneChunk []), .accept 4, .forkFails, .close, .acceptFails .EBADF]

theorem staysUp_iff_brokenSocket :
    ∃ s, run (step (.createTcpSocket 3)) (.start {0, 1, 2, 3}) brokenSocket = some s ∧
      (s.StaysUp brokenSocket ↔
        ∀ error, .acceptFails error ∈ brokenSocket → error.ofListeningSocket) :=
  ⟨_, rfl, staysUp_iff (.createTcpSocket 3) {0, 1, 2, 3} brokenSocket _ rfl⟩

/-- A client that gives up before it is accepted ends the server. -/
theorem aborted_client_ends_server :
    ¬ ∀ es s, run (step (.createTcpSocket 3)) (.start {0, 1, 2, 3}) es = some s →
      (∀ error, .acceptFails error ∈ es → error = .ECONNABORTED ∨ error = .EINTR ∨
        error = .EAGAIN) → s.parent.pc ≠ .returned := by
  intro h
  refine h [.acceptFails .ECONNABORTED] _ rfl ?_ rfl
  intro error herror
  cases List.mem_singleton.mp herror
  exact .inl rfl

end CppWebserver.SocketServer
