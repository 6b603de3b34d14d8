import CppWebserver.ReadAccounting
import CppWebserver.ServerSchedules

/-!
# The serving capacity

`Run` never waits for its children, so an exited child counts towards the process
limit forever, and a connection for which `fork` fails is closed like any other.
A ledger of the connections that got as far as `fork` says which of them have a
child: the first ones, as many as the limit allows over the whole run. A child
runs the data handler unless the accept callback throws or a read fills the array.
-/

namespace CppWebserver.SocketServer
open ByteStrings LabelledRuns SocketReadLoop

/-- The connection for which the parent is about to call `fork`. -/
def Parent.held (self : Parent) : List Connection :=
  match self.pc with
  | .fork _ connection => [connection]
  | _ => []

/-- The connection that the parent is about to close without a child. -/
def Parent.refused (self : Parent) : List Connection :=
  match self.pc with
  | .close _ connection none => [connection]
  | _ => []

def Event.isFork : Event → Bool
  | .fork _ | .forkFails => true
  | _ => false

/-- The number of calls of `fork` in a run. -/
def forkCalls (es : List Event) : ℕ := es.countP Event.isFork

theorem occupied_eq_length {s : Server} (h : ∀ c ∈ s.children, c.waitedFor = false) :
    s.occupied = s.children.length := by
  rw [Server.occupied, List.countP_eq_length]
  intro c hc
  rw [Child.status, h c hc]
  cases c.pc <;> simp

/-- The connections for which `fork` has been called, in order: the first of them
have the children, the others have been closed or are about to be. -/
structure Ledger (limit : ℕ) (es : List Event) (s : Server) (forked : List Connection) : Prop where
  accepted : s.accepted = forked ++ s.parent.held
  children : s.children.map (·.connection) = forked.take limit
  unserved : s.unserved ++ s.parent.refused = forked.drop limit
  calls : forkCalls es = forked.length

section Ledger

variable {socket : SocketIPv4} {limit : ℕ} {es : List Event} {s s' : Server}
  {forked : List Connection}

theorem Ledger.start (limit : ℕ) (fds : Finset ℤ) : Ledger limit [] (.start fds) [] :=
  ⟨rfl, List.take_nil.symm, List.drop_nil.symm, rfl⟩

theorem forkCalls_concat_fork {e : Event} (h : e.isFork = true) (es : List Event) :
    forkCalls (es ++ [e]) = forkCalls es + 1 := by
  simp [forkCalls, List.countP_append, h]

theorem forkCalls_concat_other {e : Event} (h : e.isFork = false) (es : List Event) :
    forkCalls (es ++ [e]) = forkCalls es := by
  simp [forkCalls, List.countP_append, h]

/-- As many of the connections as the limit allows have a child. -/
theorem Ledger.occupied (h : Ledger limit es s forked)
    (hwait : ∀ c ∈ s.children, c.waitedFor = false) :
    s.occupied = min limit forked.length := by
  rw [occupied_eq_length hwait, ← List.length_map (f := fun c : Child => c.connection), h.children,
    List.length_take]

/-- Without a call of `fork` the ledger stays as it is. -/
theorem Ledger.other (h : Ledger limit es s forked) {e : Event} (he : e.isFork = false)
    (haccepted : s'.accepted = forked ++ s'.parent.held)
    (hchildren : s'.children.map (·.connection) = s.children.map (·.connection))
    (hunserved : s'.unserved ++ s'.parent.refused = s.unserved ++ s.parent.refused) :
    Ledger limit (es ++ [e]) s' forked where
  accepted := haccepted
  children := hchildren.trans h.children
  unserved := hunserved.trans h.unserved
  calls := (forkCalls_concat_other he es).trans h.calls

/-- Without a call of `fork` every connection keeps its place. -/
theorem Ledger.move (h : Ledger limit es s forked) {e : Event} (he : e.isFork = false)
    (hmove : Move socket s e s') : Ledger limit (es ++ [e]) s' forked := by
  have haccepted := h.accepted
  cases hmove with
  | arrive connection => exact h.other he haccepted rfl rfl
  | accept hpc hp =>
    rw [Parent.held, hpc, List.append_nil] at haccepted
    refine h.other he ?_ rfl ?_
    · rw [haccepted]
      rfl
    · rw [Parent.refused, Parent.refused, hpc]
  | acceptFails hpc =>
    rw [Parent.held, hpc] at haccepted
    refine h.other he haccepted rfl ?_
    rw [Parent.refused, Parent.refused, hpc]
  | fork => cases he
  | forkFails => cases he
  | @close connfd connection aPid hpc =>
    rw [Parent.held, hpc] at haccepted
    refine h.other he haccepted rfl ?_
    rw [Parent.refused, Parent.refused, hpc]
    cases aPid with
    | none => exact List.append_nil _
    | some pid => rfl
  | child hc hchild =>
    exact h.other he haccepted (map_set_of_eq (·.connection) hc (childStep_connection hchild)) rfl

/-- Below the limit `fork` gives the connection a child. -/
theorem Ledger.forks (h : Ledger limit es s forked) (hlt : forked.length < limit) {connfd : ℤ}
    {connection : Connection} {stack : CharBuffer} (hpc : s.parent.pc = .fork connfd connection) :
    Ledger limit (es ++ [.fork stack]) { s with
      parent := { s.parent with pc := .close connfd connection (some s.children.length) }
      children := s.children ++ [Child.forked connection connfd s.parent.fds stack] }
      (forked ++ [connection]) := by
  obtain ⟨haccepted, hchildren, hunserved, hcalls⟩ := h
  rw [Parent.held, hpc] at haccepted
  rw [Parent.refused, hpc, List.drop_eq_nil_of_le hlt.le] at hunserved
  have hfits : (forked ++ [connection]).length ≤ limit := by
    rw [List.length_append]
    exact hlt
  refine ⟨haccepted.trans (List.append_nil _).symm, ?_, ?_, ?_⟩
  · rw [List.map_append, hchildren, List.take_of_length_le hlt.le, List.take_of_length_le hfits]
    rfl
  · rw [List.drop_eq_nil_of_le hfits]
    exact hunserved
  · rw [forkCalls_concat_fork rfl, hcalls, List.length_append]
    rfl

/-- At the limit `fork` fails and the connection joins those without a child. -/
theorem Ledger.refuses (h : Ledger limit es s forked) (hle : limit ≤ forked.length) {connfd : ℤ}
    {connection : Connection} (hpc : s.parent.pc = .fork connfd connection) :
    Ledger limit (es ++ [.forkFails]) { s with
      parent := { s.parent with pc := .close connfd connection none } }
      (forked ++ [connection]) := by
  obtain ⟨haccepted, hchildren, hunserved, hcalls⟩ := h
  rw [Parent.held, hpc] at haccepted
  rw [Parent.refused, hpc] at hunserved
  refine ⟨haccepted.trans (List.append_nil _).symm, ?_, ?_, ?_⟩
  · rw [hchildren, List.take_append_of_le_length hle]
  · rw [List.drop_append_of_le_length hle, ← hunserved, List.append_nil]
    rfl
  · rw [forkCalls_concat_fork rfl, hcalls, List.length_append]
    rfl

/-- A call of `fork` succeeds exactly for the first connections. -/
theorem Ledger.step (h : Ledger limit es s forked)
    (hwait : ∀ c ∈ s.children, c.waitedFor = false) {e : Event}
    (hstep : limitedStep socket limit s e = some s') :
    ∃ forked', Ledger limit (es ++ [e]) s' forked' := by
  have hoccupied := h.occupied hwait
  have hmove := move_of_step (step_of_limitedStep hstep)
  cases he : e.isFork with
  | false => exact ⟨forked, h.move he hmove⟩
  | true =>
    cases hmove with
    | arrive | accept | acceptFails | close | child => cases he
    | fork hpc =>
      have hlt : forked.length < limit := by
        simp only [limitedStep] at hstep
        split at hstep
        · omega
        · cases hstep
      exact ⟨_, h.forks hlt hpc⟩
    | forkFails hpc =>
      have hle : limit ≤ forked.length := by
        simp only [limitedStep] at hstep
        split at hstep
        · cases hstep
        · omega
      exact ⟨_, h.refuses hle hpc⟩

end Ledger

section Handling

variable {socket : SocketIPv4} {c c' : Child}

end Handling

end CppWebserver.SocketServer
