import CppWebserver.ServedConnections
import Mathlib.Algebra.BigOperators.Group.List.Basic
import Mathlib.Data.Fintype.EquivFin
import Mathlib.Data.UInt

/-!
# What is left to do gets done

Apart from new clients and from failing calls of `accept` and `fork`, the server has a
bounded amount of work before it, in whatever order it is done. When no step of it is left,
every connection that has arrived has a child of its own, which has served it or waits for its
client; no client that says nothing keeps another one waiting.
-/

namespace CppWebserver.SocketServer
open ByteStrings ForkedProcesses LabelledRuns SocketReadLoop

/-- The server when `accept` and `fork` do not fail. -/
def faultlessStep (socket : SocketIPv4) (s : Server) : Event → Option Server
  | .acceptFails _ | .forkFails => none
  | e => step socket s e

/-- The same between the arrivals of clients. -/
def work (socket : SocketIPv4) (s : Server) : Event → Option Server
  | .arrive _ => none
  | e => faultlessStep socket s e

theorem step_of_faultlessStep {socket : SocketIPv4} {s s' : Server} {e : Event}
    (h : faultlessStep socket s e = some s') : step socket s e = some s' := by
  cases e with
  | acceptFails | forkFails => cases h
  | arrive | accept | fork | close | child => exact h

theorem faultlessStep_of_work {socket : SocketIPv4} {s s' : Server} {e : Event}
    (h : work socket s e = some s') : faultlessStep socket s e = some s' := by
  cases e with
  | arrive => cases h
  | acceptFails | forkFails | accept | fork | close | child => exact h

/-- The parent listens, and every connection it has accepted has a child, or is to have one. -/
structure Tended (socket : SocketIPv4) (s : Server) : Prop where
  listening : socket.sockfd ∈ s.parent.fds
  running : match s.parent.pc with
    | .accept => s.accepted = s.children.map Child.connection
    | .fork connfd connection => connfd ≠ socket.sockfd ∧
        s.accepted = s.children.map Child.connection ++ [connection]
    | .close connfd _ _ => connfd ≠ socket.sockfd ∧
        s.accepted = s.children.map Child.connection
    | .returned => False

section Tending

variable {socket : SocketIPv4} {s s' : Server} {e : Event}

theorem Tended.start {fds : Finset ℤ} (h : socket.sockfd ∈ fds) : Tended socket (.start fds) :=
  ⟨h, rfl⟩

theorem Tended.step (h : Tended socket s) (hstep : faultlessStep socket s e = some s') :
    Tended socket s' := by
  obtain ⟨hlistening, hrunning⟩ := h
  cases move_of_step (step_of_faultlessStep hstep) with
  | arrive => exact ⟨hlistening, hrunning⟩
  | @accept connfd connection pending hpc hp _ hnonneg hfresh =>
    simp only [hpc] at hrunning
    refine ⟨Finset.mem_insert_of_mem hlistening, ?_, ?_⟩
    · rintro rfl
      exact hfresh hlistening
    · rw [hrunning]
  | acceptFails | forkFails => cases hstep
  | @fork connfd connection stack hpc =>
    simp only [hpc] at hrunning
    refine ⟨hlistening, hrunning.1, ?_⟩
    rw [hrunning.2, List.map_append]
    rfl
  | close hpc =>
    simp only [hpc] at hrunning
    exact ⟨Finset.mem_erase.mpr ⟨hrunning.1.symm, hlistening⟩, hrunning.2⟩
  | child hc hchild =>
    refine ⟨hlistening, ?_⟩
    rwa [map_set_of_eq Child.connection hc (childStep_connection hchild)]

theorem arrived_work (h : work socket s e = some s') : s'.arrived = s.arrived := by
  cases move_of_step (step_of_faultlessStep (faultlessStep_of_work h)) with
  | arrive => cases h
  | @accept connfd connection pending hpc hp =>
    rw [Server.arrived, Server.arrived, hp, List.append_assoc]
    rfl
  | acceptFails | fork | forkFails | close | child => rfl

end Tending

section Measure

/-- A client in the queue still costs the parent three steps, and its child the rest. -/
def Connection.cost (connection : Connection) : ℕ := connection.reads.length + 9

def ParentPc.toGo : ParentPc → ℕ
  | .accept | .returned => 0
  | .fork _ connection => connection.cost - 1
  | .close _ _ _ => 1

def Server.toGo (s : Server) : ℕ :=
  (s.pending.map Connection.cost).sum + s.parent.pc.toGo + (s.children.map Child.toGo).sum

theorem sum_toGo_set_lt {children : List Child} {pid : ℕ} {c c' : Child}
    (hc : children[pid]? = some c) (hlt : c'.toGo < c.toGo) :
    ((children.set pid c').map Child.toGo).sum < (children.map Child.toGo).sum := by
  induction children generalizing pid with
  | nil => cases hc
  | cons child children ih =>
    cases pid with
    | zero =>
      obtain rfl : child = c := Option.some.inj hc
      exact Nat.add_lt_add_right hlt _
    | succ pid => exact Nat.add_lt_add_left (ih hc) _

theorem toGo_work_lt {socket : SocketIPv4} {s s' : Server} {e : Event}
    (h : work socket s e = some s') : s'.toGo < s.toGo := by
  cases move_of_step (step_of_faultlessStep (faultlessStep_of_work h)) with
  | arrive | acceptFails | forkFails => cases h
  | @accept connfd connection pending hpc hp =>
    simp only [Server.toGo, hpc, hp, List.map_cons, List.sum_cons, ParentPc.toGo, Connection.cost]
    omega
  | @fork connfd connection stack hpc =>
    have hchild : (Child.forked connection connfd s.parent.fds stack).toGo =
        connection.reads.length + 6 := rfl
    simp only [Server.toGo, hpc, ParentPc.toGo, Connection.cost, List.map_append, List.map_singleton,
      List.sum_append, List.sum_singleton, hchild]
    omega
  | close hpc =>
    simp only [Server.toGo, hpc, ParentPc.toGo]
    omega
  | child hc hchild =>
    exact Nat.add_lt_add_left (sum_toGo_set_lt hc (toGo_childStep_lt hchild)) _

end Measure

section Endings

variable {socket : SocketIPv4} {s : Server}

theorem exists_fresh (fds : Finset ℤ) : ∃ connfd : ℤ, 0 ≤ connfd ∧ connfd ∉ fds := by
  obtain ⟨n, hn⟩ := Infinite.exists_notMem_finset (fds.image Int.toNat)
  refine ⟨n, Int.natCast_nonneg n, ?_⟩
  intro hmem
  exact hn (Finset.mem_image.mpr ⟨n, hmem, Int.toNat_natCast n⟩)

/-- A parent that has nothing to do waits for clients, and none is left in the queue. -/
theorem Tended.idle (h : Tended socket s) (hstuck : ∀ e, work socket s e = none) :
    s.pending = [] ∧ s.accepted = s.children.map Child.connection := by
  obtain ⟨hlistening, hrunning⟩ := h
  cases hpc : s.parent.pc with
  | accept =>
    rw [hpc] at hrunning
    refine ⟨?_, hrunning⟩
    cases hp : s.pending with
    | nil => rfl
    | cons connection pending =>
      obtain ⟨connfd, hnonneg, hfresh⟩ := exists_fresh s.parent.fds
      have hnone := hstuck (.accept connfd)
      simp [work, faultlessStep, SocketServer.step, hpc, hp, hlistening, hnonneg, hfresh] at hnone
  | fork connfd connection =>
    have hnone := hstuck (.fork .zeroed)
    simp [work, faultlessStep, SocketServer.step, hpc] at hnone
  | close connfd connection aPid =>
    have hnone := hstuck .close
    simp [work, faultlessStep, SocketServer.step, hpc] at hnone
  | returned =>
    rw [hpc] at hrunning
    cases hrunning

/-- A child that cannot go on has served its connection, or will never do so. -/
theorem outcome_of_stuck {c : Child} (hstuck : childStep socket c = none) (w : Bytes) :
    c.outcome socket = some w ↔ c.HasClosed ∧ c.written = w := by
  constructor
  · intro hw
    by_cases hclosed : c.HasClosed
    · rw [hclosed.outcome_eq] at hw
      exact ⟨hclosed, Option.some.inj hw⟩
    · obtain ⟨c', hc'⟩ := exists_childStep (by rw [hw]; rfl) hclosed
      rw [hstuck] at hc'
      cases hc'
  · rintro ⟨hclosed, rfl⟩
    exact hclosed.outcome_eq

/-- When the work is done, every connection that has arrived has its child. -/
theorem exists_child_of_endsIn {fds : Finset ℤ} (hlistening : socket.sockfd ∈ fds)
    {es : List Event} (h : run (faultlessStep socket) (.start fds) es = some s) {s' : Server}
    (hend : EndsIn (work socket) s s') {pid : ℕ} {connection : Connection}
    (harrived : s.arrived[pid]? = some connection) :
    ∃ c : Child, s'.children[pid]? = some c ∧ c.connection = connection ∧
      ∀ w, served socket connection = some w ↔ c.HasClosed ∧ c.written = w := by
  obtain ⟨⟨ws, hws⟩, hstuck⟩ := hend
  have hrun : run (faultlessStep socket) (.start fds) (es ++ ws) = some s' := by
    rw [run_append, h]
    exact run_of_restricted (fun _ _ _ => faultlessStep_of_work) hws
  have htended : Tended socket s' :=
    run_invariant (Tended socket) (.start hlistening) (fun _ _ _ => Tended.step) hrun
  obtain ⟨hpending, haccepted⟩ := htended.idle hstuck
  have harrived' : s'.arrived = s.arrived :=
    run_invariant (fun t => t.arrived = s.arrived) rfl
      (fun _ _ _ ht hwork => (arrived_work hwork).trans ht) hws
  rw [← harrived', Server.arrived, hpending, List.append_nil, haccepted, List.getElem?_map]
    at harrived
  obtain ⟨c, hc, rfl⟩ := Option.map_eq_some_iff.mp harrived
  refine ⟨c, hc, rfl, ?_⟩
  intro w
  have hchild : childStep socket c = none := by
    have hnone := hstuck (.child pid)
    simpa [work, faultlessStep, step, hc] using hnone
  rw [← outcome_of_run (run_of_restricted (fun _ _ _ => step_of_faultlessStep) hrun) hc]
  exact outcome_of_stuck hchild w

/-- In every state that the server reaches without failures, the work before it is bounded, and
when it is done, whatever the order, the child of every connection that has arrived has closed
it with just what the connection is served, if it is served anything. -/
theorem work_gets_done (socket : SocketIPv4) {fds : Finset ℤ} (hlistening : socket.sockfd ∈ fds)
    {es : List Event} {s : Server} (h : run (faultlessStep socket) (.start fds) es = some s) :
    (∃ n, ∀ ws s', run (work socket) s ws = some s' → ws.length ≤ n) ∧
      ∀ s', EndsIn (work socket) s s' → ∀ (pid : ℕ) (connection : Connection),
        s.arrived[pid]? = some connection → ∃ c : Child, s'.children[pid]? = some c ∧
          c.connection = connection ∧
          ∀ w, served socket connection = some w ↔ c.HasClosed ∧ c.written = w := by
  constructor
  · refine ⟨s.toGo, ?_⟩
    intro ws s' hws
    have hbound := length_add_rank_le (fun _ => True) Server.toGo trivial
      (fun _ _ _ _ hwork => ⟨trivial, toGo_work_lt hwork⟩) hws
    omega
  · intro s' hend pid connection harrived
    exact exists_child_of_endsIn hlistening h hend harrived

/-- The first of the two clients keeps its child waiting, and not the second one. -/
theorem work_gets_done_hello :
    ∃ s, run (faultlessStep helloSocket) (.start {0, 1, 2, 3}) secondClient = some s ∧
      (∃ n, ∀ ws s', run (work helloSocket) s ws = some s' → ws.length ≤ n) ∧
      ∀ s', EndsIn (work helloSocket) s s' → ∀ (pid : ℕ) (connection : Connection),
        s.arrived[pid]? = some connection → ∃ c : Child, s'.children[pid]? = some c ∧
          c.connection = connection ∧
          ∀ w, served helloSocket connection = some w ↔ c.HasClosed ∧ c.written = w := by
  have hlistening : helloSocket.sockfd ∈ ({0, 1, 2, 3} : Finset ℤ) := by decide
  obtain ⟨s, hs⟩ : ∃ s, run (faultlessStep helloSocket) (.start {0, 1, 2, 3}) secondClient =
      some s := ⟨_, rfl⟩
  exact ⟨s, hs, work_gets_done helloSocket hlistening hs⟩

end Endings

end CppWebserver.SocketServer
