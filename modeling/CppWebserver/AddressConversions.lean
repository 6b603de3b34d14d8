import CppWebserver.Numerals
import CppWebserver.SocketAddresses

/-!
# Which addresses are bound and connected to

`inet_pton` writes an address in network order, and the overload of `Bind` for texts
hands it to the one for integers, which converts it once more. The texts that
`inet_pton` does not convert are told from those it converts by a positive result;
`Bind` and `Connect` only look for a negative one.
-/

namespace CppWebserver.AddressConversions
open ByteStrings ByteOrders Numerals SocketAddresses

section DottedTexts

def dot : UInt8 := 46

/-- The presentation of an address, `a.b.c.d` for four bytes. -/
def dotted (address : Bytes) : Bytes := [dot].intercalate (address.map fun b => decimal b.toNat)

/-- A number of one byte without leading zeros. -/
def readOctet (text : Bytes) : Option UInt8 :=
  match readDecimal text with
  | some n => if n < 256 ∧ decimal n = text then some (.ofNat n) else none
  | none => none

def readDotted (text : Bytes) : Option Bytes :=
  ((text.splitOn dot).mapM readOctet).filter (·.length = 4)

theorem readOctet_decimal (b : UInt8) : readOctet (decimal b.toNat) = some b := by
  rw [readOctet, readDecimal_decimal]
  simp [b.toNat_lt]

theorem readDotted_dotted {address : Bytes} (h : address.length = 4) :
    readDotted (dotted address) = some address := by
  have hparts : ∀ part ∈ address.map fun b => decimal b.toNat, dot ∉ part := by
    simp only [List.mem_map]
    rintro _ ⟨b, -, rfl⟩
    exact notMem_decimal (by decide) _
  have hne : address.map (fun b => decimal b.toNat) ≠ [] := by
    simpa using List.ne_nil_of_length_eq_add_one h
  have hread : (readOctet ∘ fun b : UInt8 => decimal b.toNat) = some := by
    funext b
    exact readOctet_decimal b
  have hall : address.mapM some = some address := by
    simpa using List.mapM_pure (m := Option) (f := id) (l := address)
  rw [readDotted, dotted, List.splitOn_intercalate _ hparts hne, List.mapM_map, hread, hall]
  simp [h, Option.filter]

theorem notMem_dotted (address : Bytes) : 0 ∉ dotted address := by
  induction address with
  | nil => simp [dotted]
  | cons b address ih =>
    have hb : 0 ∉ decimal b.toNat := notMem_decimal (by decide) _
    have hdot : (0 : UInt8) ≠ dot := by decide
    cases address with
    | nil => simpa [dotted] using hb
    | cons c address =>
      rw [dotted, List.map_cons] at ih ⊢
      rw [List.map_cons, List.intercalate_cons_cons]
      simp [hb, ih, hdot]

end DottedTexts

/-- What is documented of `inet_pton`. -/
structure Documented (host : Host) : Prop where
  dotted : ∀ {address : Bytes} {src : CString}, address.length = 4 →
    src.bytes = dotted address → host.pton afInet src = .converted address
  length_inet : ∀ {src address}, host.pton afInet src = .converted address → address.length = 4
  length_inet6 : ∀ {src address}, host.pton afInet6 src = .converted address → address.length = 16
  unsupported_iff : ∀ {af src}, host.pton af src = .unsupported ↔ af ≠ afInet ∧ af ≠ afInet6

/-- A host that converts the dotted addresses and no address of the other family. -/
def dottedHost (byteOrder : ByteOrder) : Host where
  byteOrder := byteOrder
  pton af src :=
    if af = afInet then
      match readDotted src.bytes with
      | some address => .converted address
      | none => .invalid
    else if af = afInet6 then .invalid else .unsupported
  answer _ := 0

theorem documented_dottedHost (byteOrder : ByteOrder) : Documented (dottedHost byteOrder) where
  dotted hlen hsrc := by
    simp only [dottedHost, hsrc, readDotted_dotted hlen, if_pos]
  length_inet {src address} h := by
    simp only [dottedHost, if_pos] at h
    cases hread : readDotted src.bytes with
    | none => simp [hread] at h
    | some bytes =>
      simp only [hread, PtonResult.converted.injEq] at h
      rw [← h]
      simpa using (Option.filter_eq_some_iff.mp hread).2
  length_inet6 h := by simp [dottedHost, afInet, afInet6] at h
  unsupported_iff {af src} := by
    simp only [dottedHost]
    split
    · next haf => split <;> simp [haf]
    · next haf => split <;> simp_all

section Overloads

variable {host : Host} {self : SocketIPv4} {aAddress : UInt32} {port : UInt16}

theorem bind_calls (address : UInt32) : (self.bind host address port).calls =
    [.bind self.sockfd (wireSockaddr host.byteOrder self.family port
      (ByteOrder.big.store 4 address.toNat))] := by
  rw [SocketIPv4.bind_eq]
  rfl

theorem sinAddr_of_mem_bind {address : UInt32} {call : SystemCall}
    (h : call ∈ (self.bind host address port).calls) :
    call.sinAddr = ByteOrder.big.store 4 address.toNat := by
  rw [bind_calls, List.mem_singleton] at h
  exact sinAddr_of_wireSockaddr (by rw [h]; rfl) (ByteOrder.length_store _ _ _)

/-- A converted address comes to the system as it does after another conversion. -/
theorem sinAddr_of_mem_bind_load {address : Bytes} {call : SystemCall} (hlen : address.length = 4)
    (h : call ∈ (self.bind host (host.loadAddr address) port).calls) :
    call.sinAddr = ByteOrder.big.store address.length (host.byteOrder.load address) := by
  rw [sinAddr_of_mem_bind h, host.toNat_loadAddr hlen, hlen]

theorem bindPresentation_of_converted (documented : Documented host) {text address : Bytes}
    (h : host.pton afInet (c_str text) = .converted address) :
    self.bindPresentation host aAddress text port =
      some (self.bind host (host.loadAddr address) port) := by
  rw [SocketIPv4.bindPresentation_eq, h]
  exact if_pos (documented.length_inet h)

/-- The integer of an address, in the order of the host. -/
def hostInteger (a b c d : UInt8) : UInt32 :=
  .ofNat (a.toNat * 2 ^ 24 + b.toNat * 2 ^ 16 + c.toNat * 2 ^ 8 + d.toNat)

theorem store_hostInteger (a b c d : UInt8) :
    ByteOrder.big.store 4 (hostInteger a b c d).toNat = [a, b, c, d] := by
  have hload : ByteOrder.big.load [a, b, c, d] =
      a.toNat * 2 ^ 24 + b.toNat * 2 ^ 16 + c.toNat * 2 ^ 8 + d.toNat := by
    simp only [ByteOrder.load, List.reverse_cons, List.reverse_nil, List.nil_append,
      List.cons_append, ofBytes_cons, ofBytes_nil]
    omega
  have hlt := ByteOrder.big.load_lt [a, b, c, d]
  have hstore := ByteOrder.big.store_load [a, b, c, d]
  rw [hload] at hlt hstore
  rw [hostInteger, UInt32.toNat_ofNat', Nat.mod_eq_of_lt (by simpa using hlt)]
  exact hstore

/-- Both overloads issue the same call, for the address `a.b.c.d` and a port whose more
significant byte comes first. -/
def BindsAlike (host : Host) (aAddress : UInt32) (self : SocketIPv4) (a b c d : UInt8)
    (port : UInt16) : Prop :=
  ∃ call attempt, self.bindPresentation host aAddress (dotted [a, b, c, d]) port = some attempt ∧
    attempt.calls = [call] ∧ (self.bind host (hostInteger a b c d) port).calls = [call] ∧
    call.sinAddr = [a, b, c, d] ∧ call.sinPort = portBytes port

variable {a b c d : UInt8}

theorem bindPresentation_dotted (documented : Documented host) :
    self.bindPresentation host aAddress (dotted [a, b, c, d]) port =
      some (self.bind host (host.loadAddr [a, b, c, d]) port) := by
  apply bindPresentation_of_converted documented
  apply documented.dotted rfl
  exact cStr_of_notMem (notMem_dotted _)

theorem bindsAlike_iff (documented : Documented host) (aAddress : UInt32) (self : SocketIPv4)
    (a b c d : UInt8) (port : UInt16) :
    BindsAlike host aAddress self a b c d port ↔ host.byteOrder = .big ∨ a = d ∧ b = c := by
  have hpalindrome : [a, b, c, d].reverse = [a, b, c, d] ↔ a = d ∧ b = c := by
    simp only [List.reverse_cons, List.reverse_nil, List.nil_append, List.cons_append,
      List.cons.injEq, and_true]
    grind
  rw [← hpalindrome, ← ByteOrder.big_store_load_eq_iff]
  constructor
  · rintro ⟨call, attempt, hattempt, hcalls, -, haddr, -⟩
    rw [bindPresentation_dotted documented, Option.some.injEq] at hattempt
    have hmem : call ∈ (self.bind host (host.loadAddr [a, b, c, d]) port).calls := by
      rw [hattempt, hcalls]
      exact List.mem_singleton_self call
    exact (sinAddr_of_mem_bind_load rfl hmem).symm.trans haddr
  · intro h
    have hstore : ByteOrder.big.store 4 (host.loadAddr [a, b, c, d]).toNat = [a, b, c, d] := by
      rw [host.toNat_loadAddr rfl]
      exact h
    refine ⟨_, _, bindPresentation_dotted documented, bind_calls _, ?_, ?_, ?_⟩
    · rw [bind_calls, store_hostInteger, hstore]
    · exact (sinAddr_of_wireSockaddr rfl (ByteOrder.length_store _ _ _)).trans hstore
    · exact sinPort_of_wireSockaddr rfl

theorem bindsAlike_iff_big_endian :
    BindsAlike (dottedHost .big) 0 (createTcpSocket 3) 192 168 10 220 8080 :=
  (bindsAlike_iff (documented_dottedHost .big) 0 (createTcpSocket 3) 192 168 10 220 8080).mpr
    (.inl rfl)

/-- The bytes of `1.2.3.4` are bound in reverse on a host with the least significant byte
first. -/
theorem little_endian_binds_reversed :
    (createTcpSocket 3).bindPresentation (dottedHost .little) 0 (ascii "1.2.3.4") 80 =
      some ⟨[.bind 3 [2, 0, 0, 80, 4, 3, 2, 1, 0, 0, 0, 0, 0, 0, 0, 0]], true⟩ ∧
    ((createTcpSocket 3).bind (dottedHost .little) (hostInteger 1 2 3 4) 80).calls =
      [.bind 3 [2, 0, 0, 80, 1, 2, 3, 4, 0, 0, 0, 0, 0, 0, 0, 0]] ∧
    ¬ BindsAlike (dottedHost .little) 0 (createTcpSocket 3) 1 2 3 4 80 := by
  have htext : (createTcpSocket 3).bindPresentation (dottedHost .little) 0 (dotted [1, 2, 3, 4]) 80 =
      some ⟨[.bind 3 [2, 0, 0, 80, 4, 3, 2, 1, 0, 0, 0, 0, 0, 0, 0, 0]], true⟩ := by decide
  have hinteger : ((createTcpSocket 3).bind (dottedHost .little) (hostInteger 1 2 3 4) 80).calls =
      [.bind 3 [2, 0, 0, 80, 1, 2, 3, 4, 0, 0, 0, 0, 0, 0, 0, 0]] := by decide
  refine ⟨by decide, hinteger, ?_⟩
  rintro ⟨call, attempt, hattempt, hcalls, hcall, -⟩
  rw [htext, Option.some.injEq] at hattempt
  subst hattempt
  rw [hinteger, ← hcalls] at hcall
  revert hcall
  decide

end Overloads

section InvalidTexts

variable {host : Host} {self : SocketIPv4} {aAddress : UInt32} {text : Bytes} {port : UInt16}

/-- The presentation addresses: texts that `inet_pton` converts as a whole. -/
def ValidIPv4 (host : Host) (text : Bytes) : Prop :=
  ∃ src address, src.bytes = text ∧ host.pton afInet src = .converted address

/-- The address in a system call is the one that `inet_pton` wrote. -/
def Writes (host : Host) (af : UInt16) (src : CString) (call : SystemCall) : Prop :=
  host.pton af src = .converted call.sinAddr

/-- The system call is the one for the integer that `inet_pton` wrote. -/
def HandsOn (host : Host) (self : SocketIPv4) (text : Bytes) (port : UInt16) (call : SystemCall) :
    Prop :=
  ∃ address, host.pton afInet (c_str text) = .converted address ∧
    call ∈ (self.bind host (host.loadAddr address) port).calls

/-- An invalid text makes the function return false, with no system call; the addresses
of its system calls come from `inet_pton`. -/
def RejectsInvalid (host : Host) (text : Bytes) (fromPton : SystemCall → Prop)
    (attempt : Option Attempt) : Prop :=
  ∃ result, attempt = some result ∧ (¬ ValidIPv4 host text → result = ⟨[], false⟩) ∧
    ∀ call ∈ result.calls, fromPton call

theorem ValidIPv4.converted (h : ValidIPv4 host text) :
    ∃ address, host.pton afInet (c_str text) = .converted address := by
  obtain ⟨src, address, rfl, haddress⟩ := h
  exact ⟨address, by rw [c_str_bytes, haddress]⟩

theorem validIPv4_bytes_iff {src : CString} : ValidIPv4 host src.bytes ↔
    ∃ address, host.pton afInet src = .converted address := by
  constructor
  · intro h
    simpa only [c_str_bytes] using h.converted
  · rintro ⟨address, haddress⟩
    exact ⟨src, address, rfl, haddress⟩

/-- Whatever the text is, `Bind` comes to the system call. -/
theorem bindPresentation_binds (documented : Documented host) (self : SocketIPv4)
    (aAddress : UInt32) (text : Bytes) (port : UInt16) :
    ∃ address, self.bindPresentation host aAddress text port =
      some (self.bind host address port) := by
  cases hpton : host.pton afInet (c_str text) with
  | converted address => exact ⟨_, bindPresentation_of_converted documented hpton⟩
  | invalid => exact ⟨aAddress, by rw [SocketIPv4.bindPresentation_eq, hpton]⟩
  | unsupported => exact absurd rfl (documented.unsupported_iff.mp hpton).1

theorem valid_of_rejectsInvalid_bind (documented : Documented host)
    {fromPton : SystemCall → Prop} (h : RejectsInvalid host text fromPton
      (self.bindPresentation host aAddress text port)) : ValidIPv4 host text := by
  obtain ⟨result, hresult, hreject, -⟩ := h
  obtain ⟨address, hbind⟩ := bindPresentation_binds documented self aAddress text port
  rw [hbind, Option.some.injEq] at hresult
  by_contra hinvalid
  have hcalls : (self.bind host address port).calls = [] := by rw [hresult, hreject hinvalid]
  rw [bind_calls] at hcalls
  cases hcalls

/-- The result of `Bind` for a valid text. -/
theorem rejectsInvalid_bind_of_valid (documented : Documented host) {address : Bytes}
    {fromPton : SystemCall → Prop} (hvalid : ValidIPv4 host text)
    (h : host.pton afInet (c_str text) = .converted address) :
    RejectsInvalid host text fromPton (self.bindPresentation host aAddress text port) ↔
      ∀ call ∈ (self.bind host (host.loadAddr address) port).calls, fromPton call := by
  rw [RejectsInvalid, bindPresentation_of_converted documented h]
  constructor
  · rintro ⟨result, hresult, -, hcalls⟩
    rwa [Option.some.inj hresult]
  · intro hcalls
    exact ⟨_, rfl, fun hinvalid => absurd hvalid hinvalid, hcalls⟩

theorem bind_handsOn_iff (documented : Documented host) :
    RejectsInvalid host text (HandsOn host self text port)
      (self.bindPresentation host aAddress text port) ↔ ValidIPv4 host text := by
  constructor
  · exact valid_of_rejectsInvalid_bind documented
  · intro hvalid
    obtain ⟨address, haddress⟩ := hvalid.converted
    rw [rejectsInvalid_bind_of_valid documented hvalid haddress]
    exact fun call hcall => ⟨address, haddress, hcall⟩

/-- The family of a socket for which a text is converted to four bytes. -/
theorem Documented.family_eq (documented : Documented host) {af : UInt16} {src : CString}
    {address : Bytes} (h : host.pton af src = .converted address) (hlen : address.length = 4) :
    af = afInet := by
  by_contra hinet
  by_cases hinet6 : af = afInet6
  · subst hinet6
    have := documented.length_inet6 h
    omega
  · rw [documented.unsupported_iff.mpr ⟨hinet, hinet6⟩] at h
    cases h

/-- The other conversion keeps an address exactly on a host in network order, or when it
reads the same in reverse. -/
theorem forall_mem_bind_writes_iff (documented : Documented host) {src : CString}
    {address : Bytes} (h : host.pton afInet src = .converted address) :
    (∀ call ∈ (self.bind host (host.loadAddr address) port).calls, Writes host afInet src call) ↔
      host.byteOrder = .big ∨ address.reverse = address := by
  have hlen := documented.length_inet h
  rw [← ByteOrder.big_store_load_eq_iff]
  constructor
  · intro hwrites
    obtain ⟨call, hcall⟩ : ∃ call, call ∈ (self.bind host (host.loadAddr address) port).calls :=
      ⟨_, by rw [bind_calls]; exact List.mem_singleton_self _⟩
    have hsame : address = call.sinAddr := by
      have hwritten := hwrites call hcall
      rwa [Writes, h, PtonResult.converted.injEq] at hwritten
    rw [← sinAddr_of_mem_bind_load hlen hcall]
    exact hsame.symm
  · intro hkept call hcall
    rw [Writes, h, sinAddr_of_mem_bind_load hlen hcall, hkept]

theorem bind_writes_iff (documented : Documented host) :
    RejectsInvalid host text (Writes host afInet (c_str text))
      (self.bindPresentation host aAddress text port) ↔
    ValidIPv4 host text ∧ (host.byteOrder = .big ∨
      ∀ address, host.pton afInet (c_str text) = .converted address → address.reverse = address) := by
  constructor
  · intro h
    have hvalid := valid_of_rejectsInvalid_bind documented h
    obtain ⟨address, haddress⟩ := hvalid.converted
    rw [rejectsInvalid_bind_of_valid documented hvalid haddress,
      forall_mem_bind_writes_iff documented haddress] at h
    refine ⟨hvalid, h.imp_right fun hreverse address' haddress' => ?_⟩
    rw [haddress, PtonResult.converted.injEq] at haddress'
    rw [← haddress', hreverse]
  · rintro ⟨hvalid, h⟩
    obtain ⟨address, haddress⟩ := hvalid.converted
    rw [rejectsInvalid_bind_of_valid documented hvalid haddress,
      forall_mem_bind_writes_iff documented haddress]
    exact h.imp_right fun hreverse => hreverse address haddress

theorem rejectsInvalid_connect_of_valid (documented : Documented host) {socket : Socket}
    {src : CString} (hfamily : socket.family = afInet) (hvalid : ValidIPv4 host src.bytes) :
    RejectsInvalid host src.bytes (Writes host socket.family src)
      (socket.connect host src port) := by
  obtain ⟨address, haddress⟩ := validIPv4_bytes_iff.mp hvalid
  have hlen := documented.length_inet haddress
  rw [← hfamily] at haddress
  rw [RejectsInvalid, Socket.connect_eq, haddress]
  refine ⟨_, if_pos hlen, fun hinvalid => absurd hvalid hinvalid, ?_⟩
  intro call hcall
  have hcall := List.mem_singleton.mp hcall
  rw [Writes, haddress, sinAddr_of_wireSockaddr (by rw [hcall]; rfl) hlen]

theorem connect_writes_iff (documented : Documented host) (socket : Socket) (src : CString) :
    RejectsInvalid host src.bytes (Writes host socket.family src)
      (socket.connect host src port) ↔
    (socket.family = afInet ∧ ValidIPv4 host src.bytes) ∨
      (socket.family ≠ afInet ∧ socket.family ≠ afInet6) := by
  constructor
  · rintro ⟨result, hresult, -, hwrites⟩
    rw [Socket.connect_eq] at hresult
    cases hpton : host.pton socket.family src with
    | unsupported => exact .inr (documented.unsupported_iff.mp hpton)
    | invalid =>
      simp only [hpton, Option.some.injEq] at hresult
      subst hresult
      have hwritten := hwrites _ (List.mem_singleton_self _)
      rw [Writes, hpton] at hwritten
      cases hwritten
    | converted address =>
      simp only [hpton] at hresult
      split at hresult
      · next hlen =>
        have hfamily := documented.family_eq hpton hlen
        rw [hfamily] at hpton
        exact .inl ⟨hfamily, src, address, rfl, hpton⟩
      · cases hresult
  · rintro (⟨hfamily, hvalid⟩ | hunsupported)
    · exact rejectsInvalid_connect_of_valid documented hfamily hvalid
    · have hpton : host.pton socket.family src = .unsupported :=
        documented.unsupported_iff.mpr hunsupported
      exact ⟨⟨[], false⟩, by rw [Socket.connect_eq, hpton], fun _ => rfl, by simp⟩

/-- Which texts `Bind` and `Connect` treat as they should. For `Bind`, the first equivalence
follows the integer that `inet_pton` wrote, the second one compares the bytes of the address. -/
theorem rejectsInvalid_iff (documented : Documented host) :
    (∀ self aAddress text port,
      RejectsInvalid host text (HandsOn host self text port)
        (self.bindPresentation host aAddress text port) ↔ ValidIPv4 host text) ∧
    (∀ (self : SocketIPv4) aAddress text port,
      RejectsInvalid host text (Writes host afInet (c_str text))
        (self.bindPresentation host aAddress text port) ↔
      ValidIPv4 host text ∧ (host.byteOrder = .big ∨ ∀ address,
        host.pton afInet (c_str text) = .converted address → address.reverse = address)) ∧
    ∀ (socket : Socket) (src : CString) port,
      RejectsInvalid host src.bytes (Writes host socket.family src)
        (socket.connect host src port) ↔
      (socket.family = afInet ∧ ValidIPv4 host src.bytes) ∨
        (socket.family ≠ afInet ∧ socket.family ≠ afInet6) := by
  refine ⟨?_, ?_, ?_⟩
  · intro self aAddress text port
    exact bind_handsOn_iff documented
  · intro self aAddress text port
    exact bind_writes_iff documented
  · intro socket src port
    exact connect_writes_iff documented socket src

theorem rejectsInvalid_iff_loopback :
    ¬ RejectsInvalid (dottedHost .little) (ascii "127.0.0.1")
        (Writes (dottedHost .little) afInet (c_str (ascii "127.0.0.1")))
        ((createTcpSocket 3).bindPresentation (dottedHost .little) 0 (ascii "127.0.0.1") 80) ∧
    RejectsInvalid (dottedHost .little) (ascii "127.0.0.1")
      (Writes (dottedHost .little) afInet ⟨ascii "127.0.0.1", by decide⟩)
      ((createTcpSocket 3).connect (dottedHost .little) ⟨ascii "127.0.0.1", by decide⟩ 80) := by
  obtain ⟨-, hbind, hconnect⟩ := rejectsInvalid_iff (documented_dottedHost .little)
  have hpton : (dottedHost .little).pton afInet ⟨ascii "127.0.0.1", by decide⟩ =
      .converted [127, 0, 0, 1] := by decide
  constructor
  · rw [hbind]
    rintro ⟨-, hbig | hreverse⟩
    · cases hbig
    · exact absurd (hreverse [127, 0, 0, 1] hpton) (by decide)
  · exact (hconnect (createTcpSocket 3).toSocket ⟨ascii "127.0.0.1", by decide⟩ 80).mpr
      (.inl ⟨rfl, _, _, rfl, hpton⟩)

/-- A name is bound to whatever `aAddress` holds, and connected to as `0.0.0.0`. -/
theorem invalid_text_not_rejected :
    (createTcpSocket 3).bindPresentation (dottedHost .little) 0x08080808 (ascii "localhost") 80 =
      some ⟨[.bind 3 [2, 0, 0, 80, 8, 8, 8, 8, 0, 0, 0, 0, 0, 0, 0, 0]], true⟩ ∧
    (createTcpSocket 3).connect (dottedHost .little) ⟨ascii "localhost", by decide⟩ 80 =
      some ⟨[.connect 3 [2, 0, 0, 80, 0, 0, 0, 0, 0, 0, 0, 0, 0, 0, 0, 0]], true⟩ ∧
    ∀ fromPton,
      ¬ RejectsInvalid (dottedHost .little) (ascii "localhost") fromPton
        ((createTcpSocket 3).bindPresentation (dottedHost .little) 0x08080808 (ascii "localhost")
          80) ∧
      ¬ RejectsInvalid (dottedHost .little) (ascii "localhost") fromPton
        ((createTcpSocket 3).connect (dottedHost .little) ⟨ascii "localhost", by decide⟩ 80) := by
  have hbind : (createTcpSocket 3).bindPresentation (dottedHost .little) 0x08080808
      (ascii "localhost") 80 =
        some ⟨[.bind 3 [2, 0, 0, 80, 8, 8, 8, 8, 0, 0, 0, 0, 0, 0, 0, 0]], true⟩ := by decide
  have hconnect : (createTcpSocket 3).connect (dottedHost .little)
      ⟨ascii "localhost", by decide⟩ 80 =
        some ⟨[.connect 3 [2, 0, 0, 80, 0, 0, 0, 0, 0, 0, 0, 0, 0, 0, 0, 0]], true⟩ := by decide
  have hinvalid : ¬ ValidIPv4 (dottedHost .little) (ascii "localhost") := by
    rintro ⟨src, address, hsrc, haddress⟩
    have hpton : (dottedHost .little).pton afInet src = .invalid := by
      simp only [dottedHost, if_pos, hsrc]
      rfl
    rw [hpton] at haddress
    cases haddress
  refine ⟨hbind, hconnect, fun fromPton => ⟨?_, ?_⟩⟩
  · rintro ⟨result, hresult, hreject, -⟩
    rw [hbind, hreject hinvalid] at hresult
    cases hresult
  · rintro ⟨result, hresult, hreject, -⟩
    rw [hconnect, hreject hinvalid] at hresult
    cases hresult

end InvalidTexts

end CppWebserver.AddressConversions
