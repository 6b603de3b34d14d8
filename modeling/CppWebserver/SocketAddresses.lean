import CppWebserver.ByteOrders
import CppWebserver.ByteStrings

/-!
# The addresses that `Bind` and `Connect` pass to the system

A `sockaddr_in` holds its port and its address in network order; what the system
receives are its bytes in the memory of the host. `inet_pton` and the answers of the
system are parameters of the host, and a call of `Bind` or `Connect` yields the system
calls it has issued and what it has returned.
-/

namespace CppWebserver.SocketAddresses
open ByteStrings ByteOrders

/-- `AF_INET` and `AF_INET6`. -/
def afInet : UInt16 := 2
def afInet6 : UInt16 := 10

/-- What a `const char *` points to, without the zero that ends it. -/
structure CString where
  bytes : Bytes
  noNull : 0 ∉ bytes

/-- `s.c_str()`. -/
def c_str (s : Bytes) : CString := ⟨cStr s, notMem_cStr s⟩

theorem c_str_bytes (src : CString) : c_str src.bytes = src := by
  obtain ⟨bytes, noNull⟩ := src
  simp only [c_str, cStr_of_notMem noNull]

/-- `struct sockaddr_in`. -/
structure SockaddrIn where
  sin_family : UInt16
  sin_port : UInt16
  s_addr : UInt32

inductive SystemCall where
  | bind (sockfd : ℤ) (sockaddr : Bytes)
  | connect (sockfd : ℤ) (sockaddr : Bytes)
  deriving DecidableEq

def SystemCall.sockaddr : SystemCall → Bytes
  | .bind _ sockaddr => sockaddr
  | .connect _ sockaddr => sockaddr

/-- The bytes of `sin_port` and of `sin_addr` in a system call. -/
def SystemCall.sinPort (call : SystemCall) : Bytes := (call.sockaddr.drop 2).take 2
def SystemCall.sinAddr (call : SystemCall) : Bytes := (call.sockaddr.drop 4).take 4

/-- What `inet_pton` makes of a text: the bytes it writes, or none for an invalid text or
an unsupported family. -/
inductive PtonResult where
  | converted (address : Bytes)
  | invalid
  | unsupported
  deriving DecidableEq

structure Host where
  byteOrder : ByteOrder
  pton : UInt16 → CString → PtonResult
  answer : SystemCall → ℤ

/-- What a call of `Bind` or `Connect` has done. -/
structure Attempt where
  calls : List SystemCall
  returned : Bool
  deriving DecidableEq

/-- The members of a socket that `Bind` and `Connect` read. -/
structure Socket where
  sockfd : ℤ
  family : UInt16

/-- The constructor of the class passes `AF_INET`. -/
structure SocketIPv4 extends Socket where
  family_eq : family = afInet

/-- The socket that comes of what `socket` has returned. -/
def createTcpSocket (sockfd : ℤ) : SocketIPv4 := ⟨⟨sockfd, afInet⟩, rfl⟩

section Layout

variable (order : ByteOrder) (family port : UInt16) (address : Bytes)

/-- The bytes of a `sockaddr_in` in memory. -/
def SockaddrIn.memory (s : SockaddrIn) : Bytes :=
  order.store 2 s.sin_family.toNat ++ order.store 2 s.sin_port.toNat ++
    order.store 4 s.s_addr.toNat ++ List.replicate 8 0

/-- The port, most significant byte first. -/
def portBytes : Bytes := [.ofNat (port.toNat / 256), .ofNat port.toNat]

/-- The bytes that stand for a port and an address. -/
def wireSockaddr : Bytes :=
  order.store 2 family.toNat ++ portBytes port ++ address ++ List.replicate 8 0

variable {order family port address}

theorem memory_eq {s : SockaddrIn} (hport : order.store 2 s.sin_port.toNat = portBytes port)
    (haddr : order.store 4 s.s_addr.toNat = address) :
    s.memory order = wireSockaddr order s.sin_family port address := by
  rw [SockaddrIn.memory, hport, haddr, wireSockaddr]

theorem drop_wireSockaddr : (wireSockaddr order family port address).drop 2 =
    portBytes port ++ (address ++ List.replicate 8 0) := by
  rw [wireSockaddr, List.append_assoc, List.append_assoc]
  exact List.drop_left' (order.length_store 2 _)

theorem sinPort_of_wireSockaddr {call : SystemCall}
    (h : call.sockaddr = wireSockaddr order family port address) : call.sinPort = portBytes port := by
  rw [SystemCall.sinPort, h, drop_wireSockaddr]
  rfl

theorem sinAddr_of_wireSockaddr {call : SystemCall}
    (h : call.sockaddr = wireSockaddr order family port address) (hlen : address.length = 4) :
    call.sinAddr = address := by
  have hdrop : call.sockaddr.drop 4 = address ++ List.replicate 8 0 := by
    rw [h, ← List.drop_drop (i := 2) (j := 2), drop_wireSockaddr]
    rfl
  rw [SystemCall.sinAddr, hdrop]
  exact List.take_left' hlen

end Layout

namespace Host

variable (host : Host)

def htons (hostshort : UInt16) : UInt16 := .ofNat (host.byteOrder.toNetwork 2 hostshort.toNat)

def htonl (hostlong : UInt32) : UInt32 := .ofNat (host.byteOrder.toNetwork 4 hostlong.toNat)

theorem store_htons (port : UInt16) :
    host.byteOrder.store 2 (host.htons port).toNat = portBytes port := by
  have hlt : _ < 2 ^ 16 := host.byteOrder.toNetwork_lt 2 port.toNat
  rw [htons, UInt16.toNat_ofNat', Nat.mod_eq_of_lt hlt, ByteOrder.store_toNetwork]
  rfl

theorem store_htonl (address : UInt32) :
    host.byteOrder.store 4 (host.htonl address).toNat = ByteOrder.big.store 4 address.toNat := by
  have hlt : _ < 2 ^ 32 := host.byteOrder.toNetwork_lt 4 address.toNat
  rw [htonl, UInt32.toNat_ofNat', Nat.mod_eq_of_lt hlt, ByteOrder.store_toNetwork]

/-- The integer whose memory holds the given bytes. -/
def loadAddr (address : Bytes) : UInt32 := .ofNat (host.byteOrder.load address)

theorem toNat_loadAddr {address : Bytes} (h : address.length = 4) :
    (host.loadAddr address).toNat = host.byteOrder.load address := by
  have hlt : _ < 256 ^ address.length := host.byteOrder.load_lt address
  rw [h] at hlt
  rw [loadAddr, UInt32.toNat_ofNat', Nat.mod_eq_of_lt (by simpa using hlt)]

theorem store_loadAddr {address : Bytes} (h : address.length = 4) :
    host.byteOrder.store 4 (host.loadAddr address).toNat = address := by
  rw [host.toNat_loadAddr h, ← h, ByteOrder.store_load]

/-- `inet_pton(af, src, &dst)` for an `in_addr`: what it returns, and the destination
afterwards. It is undefined when more than an `in_addr` is written. -/
def inet_pton (af : UInt16) (src : CString) (dst : UInt32) : Option (ℤ × UInt32) :=
  match host.pton af src with
  | .converted address => if address.length = 4 then some (1, host.loadAddr address) else none
  | .invalid => some (0, dst)
  | .unsupported => some (-1, dst)

/-- A system call is issued; a negative answer is an error. -/
def issue (call : SystemCall) : Attempt := ⟨[call], ¬ host.answer call < 0⟩

end Host

namespace Socket

variable (host : Host) (self : Socket)

def buildSockaddr (port : UInt16) : SockaddrIn where
  sin_family := self.family
  sin_port := host.htons port
  s_addr := 0

def connect (pAddress : CString) (port : UInt16) : Option Attempt :=
  let servaddr : SockaddrIn := ⟨self.family, host.htons port, 0⟩
  (host.inet_pton self.family pAddress servaddr.s_addr).map fun (result, s_addr) =>
    if result < 0 then ⟨[], false⟩
    else host.issue (.connect self.sockfd ({ servaddr with s_addr }.memory host.byteOrder))

/-- An invalid text leaves the zeros of `bzero`. -/
theorem connect_eq (pAddress : CString) (port : UInt16) :
    self.connect host pAddress port =
      match host.pton self.family pAddress with
      | .converted address =>
        if address.length = 4 then some (host.issue (.connect self.sockfd
          (wireSockaddr host.byteOrder self.family port address))) else none
      | .invalid => some (host.issue (.connect self.sockfd
          (wireSockaddr host.byteOrder self.family port (List.replicate 4 0))))
      | .unsupported => some ⟨[], false⟩ := by
  have hmemory : ∀ (s_addr : UInt32) (address : Bytes),
      host.byteOrder.store 4 s_addr.toNat = address →
      SockaddrIn.memory host.byteOrder ⟨self.family, host.htons port, s_addr⟩ =
        wireSockaddr host.byteOrder self.family port address := by
    intro s_addr address h
    exact memory_eq (host.store_htons port) h
  rw [connect, Host.inet_pton]
  cases host.pton self.family pAddress with
  | converted address =>
    dsimp only
    split
    · next hlen =>
      rw [← hmemory _ _ (host.store_loadAddr hlen)]
      rfl
    · rfl
  | invalid =>
    have hzero : host.byteOrder.store 4 (0 : UInt32).toNat = List.replicate 4 0 := by
      cases host.byteOrder <;> rfl
    dsimp only
    rw [← hmemory _ _ hzero]
    rfl
  | unsupported => rfl

end Socket

namespace SocketIPv4

variable (host : Host) (self : SocketIPv4)

def bind (address : UInt32) (port : UInt16) : Attempt :=
  let aSockaddr := self.buildSockaddr host port
  host.issue (.bind self.sockfd
    ({ aSockaddr with s_addr := host.htonl address }.memory host.byteOrder))

/-- The address that is bound is the given integer in network order. -/
theorem bind_eq (address : UInt32) (port : UInt16) :
    self.bind host address port = host.issue (.bind self.sockfd
      (wireSockaddr host.byteOrder self.family port (ByteOrder.big.store 4 address.toNat))) := by
  rw [bind, memory_eq (host.store_htons port) (host.store_htonl address)]
  rfl

/-- The overload for a text. `aAddress` is not initialised. -/
def bindPresentation (aAddress : UInt32) (pAddress : Bytes) (port : UInt16) : Option Attempt :=
  (host.inet_pton self.family (c_str pAddress) aAddress).map fun (result, aAddress) =>
    if result < 0 then ⟨[], false⟩ else self.bind host aAddress port

/-- An invalid text leaves what `aAddress` happens to hold. -/
theorem bindPresentation_eq (aAddress : UInt32) (pAddress : Bytes) (port : UInt16) :
    self.bindPresentation host aAddress pAddress port =
      match host.pton afInet (c_str pAddress) with
      | .converted address =>
        if address.length = 4 then some (self.bind host (host.loadAddr address) port) else none
      | .invalid => some (self.bind host aAddress port)
      | .unsupported => some ⟨[], false⟩ := by
  rw [bindPresentation, self.family_eq, Host.inet_pton]
  cases host.pton afInet (c_str pAddress) with
  | converted address =>
    dsimp only
    split <;> rfl
  | invalid => rfl
  | unsupported => rfl

end SocketIPv4

end CppWebserver.SocketAddresses
