import CppWebserver.LabelledRuns
import CppWebserver.SocketReadLoop
import Mathlib.Data.Finset.Erase
import Mathlib.Data.Finset.Insert

/-!
# The forking server of `SocketIPv4`

`Run` accepts a connection, forks, and closes its own descriptor of the
connection; the child reads, lets the data handler answer, writes the answer
once and exits. Parent and children are processes with descriptor tables of
their own. What the client sends and what the operating system answers on a
connection is a script of the connection; the order of all steps is free.
-/

namespace CppWebserver.SocketServer
open ByteStrings LabelledRuns SocketReadLoop

/-- What the callbacks see of `sockaddr_in`, in network byte order. -/
structure SockaddrIn where
  sin_port : UInt16
  sin_addr : UInt32
  deriving DecidableEq

/-- What a call of `write` gives: the number of bytes taken, or an error. -/
inductive WriteResult where
  | written (n : ℕ)
  | failed
  deriving DecidableEq

/-- A connection with the answers to all calls of `read` and `write` on it. -/
structure Connection where
  clientSocket : SockaddrIn
  reads : List ReadResult
  writes : List WriteResult
  deriving DecidableEq

structure SocketIPv4 where
  sockfd : ℤ
  acceptCallback : Option (SockaddrIn → Except CppException Unit)
  dataHandlerCb : Option (Bytes → Except CppException Bytes)
  terminator : Bytes

/-- `SocketIPv4::CreateTcpSocket`, given the result of `socket`. -/
def SocketIPv4.createTcpSocket (sockfd : ℤ) : SocketIPv4 := ⟨sockfd, none, none, []⟩

def SocketIPv4.onAccept (self : SocketIPv4)
    (onAcceptCallback : SockaddrIn → Except CppException Unit) : SocketIPv4 :=
  { self with acceptCallback := some onAcceptCallback }

def SocketIPv4.onDataReceive (self : SocketIPv4)
    (dataHandler : Bytes → Except CppException Bytes) (terminator : Bytes) : SocketIPv4 :=
  { self with dataHandlerCb := some dataHandler, terminator := terminator }

/-- `if (_acceptCallback) _acceptCallback(clientSocket)`. -/
def SocketIPv4.callAccept (self : SocketIPv4) (clientSocket : SockaddrIn) :
    Except CppException Unit :=
  match self.acceptCallback with
  | none => .ok ()
  | some callback => callback clientSocket

/-- What a child does next. `loop` is where the parent goes on behind the branch, to the close
of its descriptor and the next `accept`. Nothing follows `exited`, `terminated` by an uncaught
exception, and `undefined`; what a child would do at `loop` is not modelled. -/
inductive ChildPc where
  | closeListening
  | acceptCallback
  | handleRead (buffer : CharBuffer) (aStreambuffer : YStreamBuffer)
  | dataHandler (aReadBuffer : YStreamBuffer)
  | write (aWriteData : Bytes)
  | closeConnection
  | exit
  | loop
  | exited
  | terminated
  | undefined

/-- A child with its copy of the descriptor table, the calls of `close` and of the
data handler it has made, and the bytes it has written. -/
structure Child where
  connection : Connection
  connfd : ℤ
  stack : CharBuffer
  pc : ChildPc
  fds : Finset ℤ
  closed : List ℤ
  reads : List ReadResult
  writes : List WriteResult
  handled : List Bytes
  written : Bytes
  waitedFor : Bool

/-- The child at the return of `fork`. -/
def Child.forked (connection : Connection) (connfd : ℤ) (fds : Finset ℤ) (stack : CharBuffer) :
    Child where
  connection := connection
  connfd := connfd
  stack := stack
  pc := .closeListening
  fds := fds
  closed := []
  reads := connection.reads
  writes := connection.writes
  handled := []
  written := []
  waitedFor := false

/-- `close(fd)` in the child. -/
def Child.close (self : Child) (fd : ℤ) : Child :=
  { self with fds := self.fds.erase fd, closed := self.closed ++ [fd] }

/-- Where the read loop leaves the child. -/
def afterRead : ReadStep → ChildPc
  | .next buffer aStreambuffer => .handleRead buffer aStreambuffer
  | .stop aStreambuffer => .dataHandler aStreambuffer
  | .undefined => .undefined

/-- The branch `fork() == 0` of `SocketIPv4::Run`, one statement at a time. A child
waits while a call of `read` or `write` has no answer. It does not leave the branch,
as `exit` does not return. -/
def childStep (socket : SocketIPv4) (self : Child) : Option Child :=
  match self.pc with
  | .closeListening => some { self.close socket.sockfd with pc := .acceptCallback }
  | .acceptCallback =>
    match socket.callAccept self.connection.clientSocket with
    | .ok () => some { self with pc := .handleRead self.stack .new }
    | .error _ => some { self with pc := .terminated }
  | .handleRead buffer aStreambuffer =>
    match self.reads with
    | [] => none
    | result :: reads => some { self with
        pc := afterRead (readStep socket.terminator buffer aStreambuffer result), reads := reads }
  | .dataHandler aReadBuffer =>
    match socket.dataHandlerCb with
    | none => some { self with pc := .closeConnection }
    | some dataHandlerCb => some { self with
        handled := self.handled ++ [aReadBuffer.fBufferData]
        pc := match dataHandlerCb aReadBuffer.fBufferData with
          | .ok aWriteData => .write aWriteData
          | .error _ => .terminated }
  | .write aWriteData =>
    match self.writes with
    | [] => none
    | .written n :: writes => some { self with
        written := self.written ++ aWriteData.take n, writes := writes, pc := .closeConnection }
    | .failed :: writes => some { self with writes := writes, pc := .closeConnection }
  | .closeConnection => some { self.close self.connfd with pc := .exit }
  | .exit => some { self with pc := .exited }
  | .loop | .exited | .terminated | .undefined => none

/-- Whether a process is running, has exited without having been waited for, or is gone. -/
inductive ProcessStatus where
  | running
  | unreaped
  | reaped
  deriving DecidableEq

def Child.status (self : Child) : ProcessStatus :=
  if self.waitedFor then .reaped
  else match self.pc with
    | .exited | .terminated => .unreaped
    | _ => .running

/-- What the parent does next; `aPid` is the number of the child, or nothing if
`fork` has failed. -/
inductive ParentPc where
  | accept
  | fork (connfd : ℤ) (connection : Connection)
  | close (connfd : ℤ) (connection : Connection) (aPid : Option ℕ)
  | returned

structure Parent where
  pc : ParentPc
  fds : Finset ℤ
  closed : List ℤ

/-- `close(fd)` in the parent. -/
def Parent.close (self : Parent) (fd : ℤ) : Parent :=
  { self with fds := self.fds.erase fd, closed := self.closed ++ [fd] }

/-- All processes, the queue of the listening socket, the connections accepted so
far and those of them that the parent has closed without a child. -/
structure Server where
  parent : Parent
  children : List Child
  pending : List Connection
  accepted : List Connection
  unserved : List Connection

/-- The server at the call of `Run`. -/
def Server.start (fds : Finset ℤ) : Server where
  parent := ⟨.accept, fds, []⟩
  children := []
  pending := []
  accepted := []
  unserved := []

/-- The errors of `accept`. -/
inductive AcceptError where
  | EAGAIN | EBADF | ECONNABORTED | EFAULT | EINTR | EINVAL | EMFILE | ENFILE
  | ENOBUFS | ENOMEM | ENOTSOCK | EOPNOTSUPP | EPERM | EPROTO
  deriving DecidableEq

/-- A client connects, a call of the parent returns, or a child takes a step. The
descriptor of an accepted connection and what lies on the stack of a child are
the choice of the operating system. -/
inductive Event where
  | arrive (connection : Connection)
  | accept (connfd : ℤ)
  | acceptFails (error : AcceptError)
  | fork (stack : CharBuffer)
  | forkFails
  | close
  | child (pid : ℕ)

/-- The child that takes a step. -/
def Event.pid : Event → Option ℕ
  | .child pid => some pid
  | _ => none

/-- `SocketIPv4::Run`. -/
def step (socket : SocketIPv4) (s : Server) : Event → Option Server
  | .arrive connection => some { s with pending := s.pending ++ [connection] }
  | .accept connfd =>
    match s.parent.pc, s.pending with
    | .accept, connection :: pending =>
      if socket.sockfd ∈ s.parent.fds ∧ 0 ≤ connfd ∧ connfd ∉ s.parent.fds then
        some { s with
          parent := { s.parent with
            pc := .fork connfd connection, fds := insert connfd s.parent.fds }
          pending := pending
          accepted := s.accepted ++ [connection] }
      else none
    | _, _ => none
  | .acceptFails _ =>
    match s.parent.pc with
    | .accept => some { s with parent := { s.parent with pc := .returned } }
    | _ => none
  | .fork stack =>
    match s.parent.pc with
    | .fork connfd connection => some { s with
        parent := { s.parent with pc := .close connfd connection (some s.children.length) }
        children := s.children ++ [Child.forked connection connfd s.parent.fds stack] }
    | _ => none
  | .forkFails =>
    match s.parent.pc with
    | .fork connfd connection =>
      some { s with parent := { s.parent with pc := .close connfd connection none } }
    | _ => none
  | .close =>
    match s.parent.pc with
    | .close connfd connection aPid => some { s with
        parent := { s.parent.close connfd with pc := .accept }
        unserved := if aPid.isNone then s.unserved ++ [connection] else s.unserved }
    | _ => none
  | .child pid =>
    match s.children[pid]? with
    | none => none
    | some child => (childStep socket child).map fun child =>
        { s with children := s.children.set pid child }

/-- The children that count towards the process limit of the parent. -/
def Server.occupied (s : Server) : ℕ := s.children.countP (·.status ≠ .reaped)

/-- `Run` under a limit on the children: `fork` fails exactly when it is reached. -/
def limitedStep (socket : SocketIPv4) (limit : ℕ) (s : Server) : Event → Option Server
  | .fork stack => if s.occupied < limit then step socket s (.fork stack) else none
  | .forkFails => if s.occupied < limit then none else step socket s .forkFails
  | event => step socket s event

end CppWebserver.SocketServer
