import Ex6.Lib.CString
import Ex6.Text
/-!
# The address of a new connection

The select server has one `sockaddr_storage` for the addresses of all its
clients, and tells `accept` that it is as long as a pointer. An IPv4 address
ends there; an IPv6 address begins there. `reported_iff` says for which
connections the address shown is the peer's. Server.cpp passes the length of the
storage: `server_reported_right`.
-/
open Lib.CString

namespace Ex6.PeerAddress

/-- An array of `n` bytes. -/
abbrev Bytes (n : Nat) := { bytes : List Byte // bytes.length = n }

/-- Where a connection comes from: the fields of `struct sockaddr_in` and of
`struct sockaddr_in6`, in network byte order. -/
inductive Peer
  | inet (sin_port : Bytes 2) (sin_addr : Bytes 4)
  | inet6 (sin6_port : Bytes 2) (sin6_flowinfo : Bytes 4) (sin6_addr : Bytes 16) (sin6_scope_id : Bytes 4)

/-- `sa_family_t` has two bytes, the low one first. -/
abbrev AF_INET : List Byte := [2#8, 0#8]

abbrev AF_INET6 : List Byte := [10#8, 0#8]

/-- The peer's socket address as it lies in memory. -/
def Peer.sockaddr : Peer → List Byte
  | .inet port addr => AF_INET ++ port.1 ++ addr.1 ++ List.replicate 8 0#8
  | .inet6 port flowinfo addr scope_id => AF_INET6 ++ port.1 ++ flowinfo.1 ++ addr.1 ++ scope_id.1

/-- The peer's address. -/
def Peer.addr : Peer → List Byte
  | .inet _ addr => addr.1
  | .inet6 _ _ addr _ => addr.1

/-- `struct sockaddr_storage`. -/
abbrev sockaddr_storage := Bytes 128

/-- `sizeof ac_st->remoteaddr`, which is a pointer. -/
abbrev sizeof_remoteaddr : Nat := 8

/-- `accept` writes what fits into the first `addrlen` bytes. -/
def accept (remoteaddr : List Byte) (addrlen : Nat) (peer : Peer) : List Byte :=
  overwrite remoteaddr (peer.sockaddr.take addrlen)

/-- `((struct sockaddr *) sa)->sa_family`. -/
def sa_family (sa : List Byte) : List Byte := sa.take 2

/-- `get_in_addr`: the offset of the address. -/
def get_in_addr (sa : List Byte) : Nat := if sa_family sa = AF_INET then 4 else 8

/-- What `inet_ntop(family, src, …)` reads, from where `src` points to. -/
def inet_ntop_reads (family src : List Byte) : List Byte := if family = AF_INET then src.take 4 else src.take 16

/-- `accept_connection`, as far as the address goes: what the storage holds then, and
the bytes that are shown. -/
def accept_connection (remoteaddr : List Byte) (peer : Peer) : List Byte × List Byte :=
  let remoteaddr := accept remoteaddr sizeof_remoteaddr peer
  (remoteaddr, inet_ntop_reads (sa_family remoteaddr) (remoteaddr.drop (get_in_addr remoteaddr)))

/-- What is shown for each of the connections, one after the other. -/
def reported : List Byte → List Peer → List (List Byte)
  | _, [] => []
  | remoteaddr, peer :: peers =>
    let (remoteaddr, shown) := accept_connection remoteaddr peer
    shown :: reported remoteaddr peers

/-! ## What is written and read -/

/-- The bytes of an IPv6 address in the storage. -/
def sin6_addr (remoteaddr : List Byte) : List Byte := (remoteaddr.drop 8).take 16

/-- What will be shown for a peer. -/
def shownFor (remoteaddr : List Byte) : Peer → List Byte
  | .inet _ addr => addr.1
  | .inet6 .. => sin6_addr remoteaddr

/-- Eight bytes are written, over as many of the storage. -/
theorem accept_eq {peer : Peer} {header rest : List Byte} (h : peer.sockaddr = header ++ rest)
    (hlen : header.length = sizeof_remoteaddr) (remoteaddr : List Byte) :
    accept remoteaddr sizeof_remoteaddr peer = header ++ remoteaddr.drop 8 := by
  rw [accept, h, List.take_left' hlen, overwrite, hlen]

/-- An IPv4 address is the last of what is written. -/
theorem accept_connection_inet (remoteaddr : List Byte) (port : Bytes 2) (addr : Bytes 4) :
    accept_connection remoteaddr (.inet port addr) = (AF_INET ++ port.1 ++ addr.1 ++ remoteaddr.drop 8, addr.1) := by
  have hlen : (AF_INET ++ port.1 ++ addr.1).length = sizeof_remoteaddr := by simp [port.2, addr.2]
  have hwritten := @accept_eq (.inet port addr) _ _ rfl hlen remoteaddr
  have hfamily : sa_family (AF_INET ++ port.1 ++ addr.1 ++ remoteaddr.drop 8) = AF_INET := rfl
  have haddr : (AF_INET ++ port.1 ++ addr.1 ++ remoteaddr.drop 8).drop 4 = addr.1 ++ remoteaddr.drop 8 := by
    rw [List.append_assoc (AF_INET ++ port.1)]
    exact List.drop_left' (by simp [port.2])
  simp only [accept_connection, hwritten, get_in_addr, hfamily, if_true, inet_ntop_reads, haddr]
  rw [List.take_left' addr.2]

/-- An IPv6 address would come next: what is read is what was there before. -/
theorem accept_connection_inet6 (remoteaddr : List Byte) (port : Bytes 2) (flowinfo : Bytes 4) (addr : Bytes 16)
    (scope_id : Bytes 4) : accept_connection remoteaddr (.inet6 port flowinfo addr scope_id) =
      (AF_INET6 ++ port.1 ++ flowinfo.1 ++ remoteaddr.drop 8, sin6_addr remoteaddr) := by
  have hlen : (AF_INET6 ++ port.1 ++ flowinfo.1).length = sizeof_remoteaddr := by simp [port.2, flowinfo.2]
  have hwritten := @accept_eq (.inet6 port flowinfo addr scope_id) _ _ (List.append_assoc _ addr.1 scope_id.1) hlen
    remoteaddr
  have hfamily : sa_family (AF_INET6 ++ port.1 ++ flowinfo.1 ++ remoteaddr.drop 8) = AF_INET6 := rfl
  have hne : AF_INET6 ≠ AF_INET := by decide
  have haddr : (AF_INET6 ++ port.1 ++ flowinfo.1 ++ remoteaddr.drop 8).drop 8 = remoteaddr.drop 8 :=
    List.drop_left' hlen
  simp only [accept_connection, hwritten, get_in_addr, hfamily, if_neg hne, inet_ntop_reads, haddr, sin6_addr]

/-- What is shown for a peer, and that no call writes where an IPv6 address is read. -/
theorem accept_connection_eq (remoteaddr : List Byte) (peer : Peer) :
    (accept_connection remoteaddr peer).2 = shownFor remoteaddr peer ∧
      sin6_addr (accept_connection remoteaddr peer).1 = sin6_addr remoteaddr := by
  cases peer with
  | inet port addr =>
    have hlen : (AF_INET ++ port.1 ++ addr.1).length = 8 := by simp [port.2, addr.2]
    rw [accept_connection_inet, sin6_addr, sin6_addr, List.drop_left' hlen]
    exact ⟨rfl, rfl⟩
  | inet6 port flowinfo addr scope_id =>
    have hlen : (AF_INET6 ++ port.1 ++ flowinfo.1).length = 8 := by simp [port.2, flowinfo.2]
    rw [accept_connection_inet6, sin6_addr, sin6_addr, List.drop_left' hlen]
    exact ⟨rfl, rfl⟩

theorem reported_eq (remoteaddr : List Byte) (peers : List Peer) :
    reported remoteaddr peers = peers.map (shownFor remoteaddr) := by
  induction peers generalizing remoteaddr with
  | nil => rfl
  | cons peer peers ih =>
    obtain ⟨hshown, hkept⟩ := accept_connection_eq remoteaddr peer
    have hsame : shownFor (accept_connection remoteaddr peer).1 = shownFor remoteaddr := by
      funext other
      cases other with
      | inet => rfl
      | inet6 => exact hkept
    simp only [reported, ih, hshown, hsame, List.map_cons]

/-! ## Whose address is shown -/

/-- Each connection is reported with its peer's address. -/
def Reported (remoteaddr : sockaddr_storage) (peers : List Peer) : Prop :=
  reported remoteaddr.1 peers = peers.map Peer.addr

theorem reported_iff_sin6_addr (remoteaddr : sockaddr_storage) (peers : List Peer) :
    Reported remoteaddr peers ↔ ∀ port flowinfo addr scope_id,
      Peer.inet6 port flowinfo addr scope_id ∈ peers → addr.1 = sin6_addr remoteaddr.1 := by
  rw [Reported, reported_eq, List.map_inj_left]
  constructor
  · exact fun h _ _ _ _ hm => (h _ hm).symm
  · intro h peer hm
    cases peer with
    | inet => rfl
    | inet6 => exact (h _ _ _ _ hm).symm

/-- The address shown is the peer's exactly if the peer has an IPv4 address, or its
IPv6 address is what the storage happened to hold. So whatever the storage held,
all addresses are right exactly if all are IPv4 addresses. -/
theorem reported_iff (peers : List Peer) :
    (∀ remoteaddr : sockaddr_storage, Reported remoteaddr peers ↔ ∀ port flowinfo addr scope_id,
      Peer.inet6 port flowinfo addr scope_id ∈ peers → addr.1 = (remoteaddr.1.drop 8).take 16) ∧
    ((∀ remoteaddr : sockaddr_storage, Reported remoteaddr peers) ↔
      ∀ peer ∈ peers, ∃ port addr, peer = .inet port addr) := by
  refine ⟨fun remoteaddr => reported_iff_sin6_addr remoteaddr peers, fun h peer hm => ?_, fun h remoteaddr => ?_⟩
  · cases peer with
    | inet port addr => exact ⟨port, addr, rfl⟩
    | inet6 port flowinfo addr scope_id =>
      -- two contents of the storage would have to be the one address
      have hfill : ∀ b : Byte, addr.1 = List.replicate 16 b := fun b => by
        have hsin := (reported_iff_sin6_addr ⟨List.replicate 128 b, List.length_replicate⟩ peers).1 (h _) _ _ _ _ hm
        simpa [sin6_addr] using hsin
      have h01 := (hfill 0#8).symm.trans (hfill 1#8)
      exact absurd h01 (by decide)
  · rw [reported_iff_sin6_addr]
    intro port flowinfo addr scope_id hm
    obtain ⟨_, _, he⟩ := h _ hm
    cases he

/-- A connection from the IPv6 address whose bytes are all 1: zeros are shown. -/
theorem inet6_reported : ¬ ∀ (remoteaddr : sockaddr_storage) (peers : List Peer), Reported remoteaddr peers := by
  intro h
  have hrep := h ⟨List.replicate 128 0#8, List.length_replicate⟩
    [.inet6 ⟨[0#8, 80#8], rfl⟩ ⟨List.replicate 4 0#8, rfl⟩ ⟨List.replicate 16 1#8, rfl⟩ ⟨List.replicate 4 0#8, rfl⟩]
  exact absurd hrep (by unfold Reported; decide)

/-! ## The length that is passed -/

/-- What is shown for each of the connections where `accept` is told of `addrlen` bytes. -/
def reported_with (addrlen : Nat) : List Byte → List Peer → List (List Byte)
  | _, [] => []
  | their_addr, peer :: peers =>
    let their_addr := accept their_addr addrlen peer
    inet_ntop_reads (sa_family their_addr) (their_addr.drop (get_in_addr their_addr)) ::
      reported_with addrlen their_addr peers

/-- `sizeof their_addr` in the loop of Server.cpp, which is the storage itself. -/
abbrev sizeof_their_addr : Nat := 128

/-- The loop of Server.cpp, as far as the addresses go. -/
def server_reported (their_addr : List Byte) (peers : List Peer) : List (List Byte) :=
  reported_with sizeof_their_addr their_addr peers

theorem reported_eq_with (remoteaddr : List Byte) (peers : List Peer) :
    reported remoteaddr peers = reported_with sizeof_remoteaddr remoteaddr peers := by
  induction peers generalizing remoteaddr with
  | nil => rfl
  | cons peer peers ih =>
    unfold reported reported_with
    simp only [ih]
    rfl

/-- Up to the end of an IPv6 address, what is written is the peer's. -/
theorem shown_of_le {addrlen : Nat} (h : 24 ≤ addrlen) (their_addr : List Byte) (peer : Peer) :
    inet_ntop_reads (sa_family (accept their_addr addrlen peer))
      ((accept their_addr addrlen peer).drop (get_in_addr (accept their_addr addrlen peer))) = peer.addr := by
  cases peer with
  | inet port addr =>
    have hlen : (Peer.inet port addr).sockaddr.length = 16 := by simp [Peer.sockaddr, port.2, addr.2]
    have htake : (Peer.inet port addr).sockaddr.take addrlen = (Peer.inet port addr).sockaddr :=
      List.take_of_length_le (by omega)
    obtain ⟨rest, hrest⟩ : ∃ rest, accept their_addr addrlen (.inet port addr) =
        (AF_INET ++ port.1) ++ (addr.1 ++ rest) := by
      refine ⟨List.replicate 8 0#8 ++ their_addr.drop 16, ?_⟩
      rw [accept, htake, overwrite, hlen]
      simp only [Peer.sockaddr, List.append_assoc]
    have hfamily : sa_family ((AF_INET ++ port.1) ++ (addr.1 ++ rest)) = AF_INET := rfl
    have haddr : ((AF_INET ++ port.1) ++ (addr.1 ++ rest)).drop 4 = addr.1 ++ rest :=
      List.drop_left' (by simp [port.2])
    rw [hrest]
    simp only [get_in_addr, hfamily, if_true, inet_ntop_reads, haddr]
    exact List.take_left' addr.2
  | inet6 port flowinfo addr scope_id =>
    have hlen : (AF_INET6 ++ port.1 ++ flowinfo.1 ++ addr.1).length = 24 := by
      simp [port.2, flowinfo.2, addr.2]
    obtain ⟨rest, hrest⟩ : ∃ rest, accept their_addr addrlen (.inet6 port flowinfo addr scope_id) =
        (AF_INET6 ++ port.1 ++ flowinfo.1) ++ (addr.1 ++ rest) := by
      rw [accept, Peer.sockaddr, List.take_append, hlen, List.take_of_length_le (by omega), overwrite]
      exact ⟨_, (List.append_assoc ..).trans (List.append_assoc ..)⟩
    have hfamily : sa_family ((AF_INET6 ++ port.1 ++ flowinfo.1) ++ (addr.1 ++ rest)) = AF_INET6 := rfl
    have hne : AF_INET6 ≠ AF_INET := by decide
    have haddr : ((AF_INET6 ++ port.1 ++ flowinfo.1) ++ (addr.1 ++ rest)).drop 8 = addr.1 ++ rest :=
      List.drop_left' (by simp [port.2, flowinfo.2])
    rw [hrest]
    simp only [get_in_addr, hfamily, if_neg hne, inet_ntop_reads, haddr]
    exact List.take_left' addr.2

/-- With less, the last byte of an IPv6 address is what the storage held. -/
theorem shown_of_lt {addrlen : Nat} (h : addrlen < 24) {their_addr : List Byte} {port : Bytes 2} {flowinfo : Bytes 4}
    {addr : Bytes 16} {scope_id : Bytes 4}
    (hs : inet_ntop_reads (sa_family (accept their_addr addrlen (.inet6 port flowinfo addr scope_id)))
      ((accept their_addr addrlen (.inet6 port flowinfo addr scope_id)).drop
        (get_in_addr (accept their_addr addrlen (.inet6 port flowinfo addr scope_id)))) = addr.1) :
    addr.1[15]? = their_addr[23]? := by
  have hold : (accept their_addr addrlen (.inet6 port flowinfo addr scope_id))[23]? = their_addr[23]? := by
    have hlen : ((Peer.inet6 port flowinfo addr scope_id).sockaddr.take addrlen).length ≤ 23 :=
      (List.length_take_le _ _).trans (by omega)
    rw [accept, overwrite, List.getElem?_append_right hlen, List.getElem?_drop]
    congr 1
    omega
  by_cases hfamily : sa_family (accept their_addr addrlen (.inet6 port flowinfo addr scope_id)) = AF_INET
  · have hlen := congrArg List.length hs
    rw [inet_ntop_reads, if_pos hfamily, List.length_take, addr.2] at hlen
    omega
  · rw [inet_ntop_reads, if_neg hfamily, get_in_addr, if_neg hfamily] at hs
    rw [← hs, List.getElem?_take_of_lt (by decide), List.getElem?_drop]
    exact hold

/-- All addresses are right, whatever the storage held and whoever connects, exactly
from 24 bytes on. Those that Server.cpp shows are, and the select server passes 8. -/
theorem server_reported_right : (∀ addrlen, (∀ (their_addr : sockaddr_storage) (peers : List Peer),
      reported_with addrlen their_addr.1 peers = peers.map Peer.addr) ↔ 24 ≤ addrlen) ∧
    (∀ (their_addr : sockaddr_storage) (peers : List Peer),
      server_reported their_addr.1 peers = peers.map Peer.addr) ∧
    ∀ remoteaddr peers, reported remoteaddr peers = reported_with 8 remoteaddr peers := by
  have hright : ∀ addrlen, 24 ≤ addrlen → ∀ (their_addr : List Byte) (peers : List Peer),
      reported_with addrlen their_addr peers = peers.map Peer.addr := by
    intro addrlen h their_addr peers
    induction peers generalizing their_addr with
    | nil => rfl
    | cons peer peers ih =>
      unfold reported_with
      dsimp only
      rw [ih, shown_of_le h, List.map_cons]
  refine ⟨fun addrlen => ⟨fun hall => ?_, fun h x => hright addrlen h x.1⟩, fun x => hright 128 (by decide) x.1,
    reported_eq_with⟩
  by_contra hlt
  have hone := hall ⟨List.replicate 128 0#8, List.length_replicate⟩ [.inet6 ⟨List.replicate 2 0#8, rfl⟩
    ⟨List.replicate 4 0#8, rfl⟩ ⟨List.replicate 16 1#8, rfl⟩ ⟨List.replicate 4 0#8, rfl⟩]
  have hbyte := shown_of_lt (Nat.lt_of_not_le hlt) (List.cons.inj hone).1
  exact absurd hbyte (by decide)

end Ex6.PeerAddress
