import CppWebserver.ChildProcesses

/-!
# Runs of the server

What one event can do to the server, and how the children of a running server
relate to single children: whatever holds of a child at its fork and is kept by
its own steps holds of all children after every run.
-/

namespace CppWebserver.SocketServer
open LabelledRuns SocketReadLoop

/-- Everything an event can do to the server. -/
inductive Move (socket : SocketIPv4) (s : Server) : Event → Server → Prop where
  | arrive (connection : Connection) :
    Move socket s (.arrive connection) { s with pending := s.pending ++ [connection] }
  | accept {connfd : ℤ} {connection : Connection} {pending : List Connection}
      (h : s.parent.pc = .accept) (hp : s.pending = connection :: pending)
      (hlistening : socket.sockfd ∈ s.parent.fds) (hnonneg : 0 ≤ connfd)
      (hfresh : connfd ∉ s.parent.fds) :
    Move socket s (.accept connfd) { s with
      parent := { s.parent with
        pc := .fork connfd connection, fds := insert connfd s.parent.fds }
      pending := pending
      accepted := s.accepted ++ [connection] }
  | acceptFails {error : AcceptError} (h : s.parent.pc = .accept) :
    Move socket s (.acceptFails error) { s with parent := { s.parent with pc := .returned } }
  | fork {connfd : ℤ} {connection : Connection} {stack : CharBuffer}
      (h : s.parent.pc = .fork connfd connection) :
    Move socket s (.fork stack) { s with
      parent := { s.parent with pc := .close connfd connection (some s.children.length) }
      children := s.children ++ [Child.forked connection connfd s.parent.fds stack] }
  | forkFails {connfd : ℤ} {connection : Connection} (h : s.parent.pc = .fork connfd connection) :
    Move socket s .forkFails { s with
      parent := { s.parent with pc := .close connfd connection none } }
  | close {connfd : ℤ} {connection : Connection} {aPid : Option ℕ}
      (h : s.parent.pc = .close connfd connection aPid) :
    Move socket s .close { s with
      parent := { s.parent.close connfd with pc := .accept }
      unserved := if aPid.isNone then s.unserved ++ [connection] else s.unserved }
  | child {pid : ℕ} {c c' : Child} (h : s.children[pid]? = some c)
      (hstep : childStep socket c = some c') :
    Move socket s (.child pid) { s with children := s.children.set pid c' }

theorem move_of_step {socket : SocketIPv4} {s s' : Server} {e : Event}
    (h : step socket s e = some s') : Move socket s e s' := by
  cases e with
  | arrive connection =>
    cases h
    exact .arrive connection
  | accept connfd =>
    simp only [step] at h
    split at h
    · next connection pending hpc hp =>
      split at h
      · next hfd =>
        cases h
        exact .accept hpc hp hfd.1 hfd.2.1 hfd.2.2
      · cases h
    · cases h
  | acceptFails error =>
    simp only [step] at h
    split at h
    · next hpc =>
      cases h
      exact .acceptFails hpc
    · cases h
  | fork stack =>
    simp only [step] at h
    split at h
    · next connfd connection hpc =>
      cases h
      exact .fork hpc
    · cases h
  | forkFails =>
    simp only [step] at h
    split at h
    · next connfd connection hpc =>
      cases h
      exact .forkFails hpc
    · cases h
  | close =>
    simp only [step] at h
    split at h
    · next connfd connection aPid hpc =>
      cases h
      exact .close hpc
    · cases h
  | child pid =>
    simp only [step] at h
    split at h
    · cases h
    · next c hc =>
      obtain ⟨c', hstep, rfl⟩ := Option.map_eq_some_iff.mp h
      exact .child hc hstep

/-- The limit only takes runs away. -/
theorem step_of_limitedStep {socket : SocketIPv4} {limit : ℕ} {s s' : Server} {e : Event}
    (h : limitedStep socket limit s e = some s') : step socket s e = some s' := by
  cases e with
  | fork stack =>
    simp only [limitedStep] at h
    split at h
    · exact h
    · cases h
  | forkFails =>
    simp only [limitedStep] at h
    split at h
    · cases h
    · exact h
  | arrive | accept | acceptFails | close | child => exact h

/-- All connections that have arrived, in order. -/
def Server.arrived (s : Server) : List Connection := s.accepted ++ s.pending

section Children

variable {children : List Child} {pid : ℕ} {c c' : Child}

/-- What a step of a child keeps of it stays in place among the children. -/
theorem map_set_of_eq {β : Type*} (f : Child → β) (hc : children[pid]? = some c)
    (hf : f c' = f c) : (children.set pid c').map f = children.map f := by
  have hkept : (children.map f)[pid]? = some (f c') := by
    rw [List.getElem?_map, hc, Option.map_some, hf]
  obtain ⟨hlt, hsame⟩ := List.getElem?_eq_some_iff.mp hkept
  rw [List.map_set, ← hsame, List.set_getElem_self]

theorem forall_mem_set {I : Child → Prop} (hall : ∀ d ∈ children, I d) (hc : I c') :
    ∀ d ∈ children.set pid c', I d := by
  intro d hd
  rcases List.mem_or_eq_of_mem_set hd with hd | rfl
  · exact hall d hd
  · exact hc

end Children

/-- The rule of invariants for all children of the server. -/
theorem children_invariant {socket : SocketIPv4} {fds : Finset ℤ} (I : Child → Prop)
    (start : ∀ connection connfd fds stack, I (.forked connection connfd fds stack))
    (next : ∀ c c', I c → childStep socket c = some c' → I c')
    {es : List Event} {s : Server} (h : run (step socket) (.start fds) es = some s) :
    ∀ c ∈ s.children, I c := by
  refine run_invariant (fun s => ∀ c ∈ s.children, I c) (by simp [Server.start]) ?_ h
  intro s e s' hall hstep
  cases move_of_step hstep with
  | arrive | accept | acceptFails | forkFails | close => exact hall
  | fork hpc =>
    exact List.forall_mem_append.mpr ⟨hall, List.forall_mem_singleton.mpr (start _ _ _ _)⟩
  | child hc hchild =>
    exact forall_mem_set hall (next _ _ (hall _ (List.mem_of_getElem? hc)) hchild)

/-- Every child of the server runs like the child of its connection alone. -/
theorem childRun_of_mem_children {socket : SocketIPv4} {fds : Finset ℤ} {es : List Event}
    {s : Server} (h : run (step socket) (.start fds) es = some s) :
    ∀ c ∈ s.children, ∃ connfd fds stack,
      ChildRun socket (.forked c.connection connfd fds stack) c := by
  refine children_invariant (fun c => ∃ connfd fds stack,
    ChildRun socket (.forked c.connection connfd fds stack) c) ?_ ?_ h
  · intro connection connfd fds stack
    exact ⟨connfd, fds, stack, .refl⟩
  · intro c c' hrun hstep
    obtain ⟨connfd, fds, stack, hrun⟩ := hrun
    refine ⟨connfd, fds, stack, ?_⟩
    rw [childStep_connection hstep]
    exact hrun.tail hstep

end CppWebserver.SocketServer
