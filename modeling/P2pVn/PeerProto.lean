import P2pVn.Util

/-!
# `PeerProto` — packets on the wire (`peer_proto.h`)

The packet structures, field by field, with the bytes they occupy in memory (and so on the stream, since
the code sends and receives the packed structures as they lie in memory). A field holds the number that the
machine loads from its bytes; where the protocol wants network order, the code has to convert.

Whatever was stored can be loaded again with anything behind it (`…ofBytes_append`): that is how a reader of a
stream sees a structure. The sizes are simp lemmas, so that offsets come out by arithmetic.
-/

namespace P2pVn
open Bytes

/-! ## Packet types -/

/-- `enum pkt_type`, of which any 16-bit value can arrive. -/
abbrev PktType := UInt16

def ptData : PktType := 0xabcd
def ptJoinPart : PktType := 0xab01
def ptJoin : PktType := 0xab01
def ptQuit : PktType := 0xab03
def ptLinkGraph : PktType := 0xabac
def ptProbeReq : PktType := 0xab34
def ptProbeResp : PktType := 0xab35

/-! ## Lengths (`enum pkt_len`) -/

def plHost : Nat := 4 + 2 + 6
def plHeader : Nat := 2 * 2
def plJoin : Nat := plHost
def plProbeReq : Nat := 2
def plProbeResp : Nat := 2
def plLinkGraphStatic : Nat := 2 + plHost
def plEdge : Nat := 4 + 8 + plHost * 2

/-! ## Structures -/

/-- `struct pkt_header`. -/
structure PktHeader where
  type : UInt16
  len : UInt16
  deriving DecidableEq, Repr

/-- `struct _pkt_ipv4_host`. -/
structure PktIpv4Host where
  ip : UInt32
  port : UInt16
  mac : EtherAddr
  deriving DecidableEq, Repr

/-- `struct _pkt_edge`. -/
structure PktEdge where
  src : PktIpv4Host
  dst : PktIpv4Host
  rttUs : UInt32
  tsMs : UInt64
  deriving DecidableEq, Repr

/-! ## Their bytes -/

def EtherAddr.bytes (a : EtherAddr) : List UInt8 := a.addr.toList

/-- The six bytes at the front of `bs` as an address. -/
def EtherAddr.ofBytes (bs : List UInt8) : EtherAddr := ⟨Vector.ofFn fun i => bs.getD i 0⟩

def u16Bytes (x : UInt16) : List UInt8 := leBytes 2 x.toNat
def u32Bytes (x : UInt32) : List UInt8 := leBytes 4 x.toNat
def u64Bytes (x : UInt64) : List UInt8 := leBytes 8 x.toNat

def u16OfBytes (bs : List UInt8) : UInt16 := UInt16.ofNat (ofLeBytes (bs.take 2))
def u32OfBytes (bs : List UInt8) : UInt32 := UInt32.ofNat (ofLeBytes (bs.take 4))
def u64OfBytes (bs : List UInt8) : UInt64 := UInt64.ofNat (ofLeBytes (bs.take 8))

def PktHeader.bytes (h : PktHeader) : List UInt8 := u16Bytes h.type ++ u16Bytes h.len

def PktHeader.ofBytes (bs : List UInt8) : PktHeader where
  type := u16OfBytes bs
  len := u16OfBytes (bs.drop 2)

def PktIpv4Host.bytes (h : PktIpv4Host) : List UInt8 := u32Bytes h.ip ++ u16Bytes h.port ++ h.mac.bytes

def PktIpv4Host.ofBytes (bs : List UInt8) : PktIpv4Host where
  ip := u32OfBytes bs
  port := u16OfBytes (bs.drop 4)
  mac := EtherAddr.ofBytes (bs.drop 6)

def PktEdge.bytes (e : PktEdge) : List UInt8 :=
  e.src.bytes ++ e.dst.bytes ++ u32Bytes e.rttUs ++ u64Bytes e.tsMs

def PktEdge.ofBytes (bs : List UInt8) : PktEdge where
  src := PktIpv4Host.ofBytes bs
  dst := PktIpv4Host.ofBytes (bs.drop 12)
  rttUs := u32OfBytes (bs.drop 24)
  tsMs := u64OfBytes (bs.drop 28)

/-! ## Sizes -/

@[simp] theorem EtherAddr.length_bytes (a : EtherAddr) : a.bytes.length = 6 := by simp [EtherAddr.bytes]

@[simp] theorem length_u16Bytes (x : UInt16) : (u16Bytes x).length = 2 := by simp [u16Bytes]
@[simp] theorem length_u32Bytes (x : UInt32) : (u32Bytes x).length = 4 := by simp [u32Bytes]
@[simp] theorem length_u64Bytes (x : UInt64) : (u64Bytes x).length = 8 := by simp [u64Bytes]

@[simp] theorem PktHeader.length_bytes (h : PktHeader) : h.bytes.length = plHeader := by
  simp [PktHeader.bytes, plHeader]

@[simp] theorem PktIpv4Host.length_bytes (h : PktIpv4Host) : h.bytes.length = plHost := by
  simp [PktIpv4Host.bytes, plHost]

@[simp] theorem PktEdge.length_bytes (e : PktEdge) : e.bytes.length = plEdge := by
  simp [PktEdge.bytes, plHost, plEdge]

/-! ## Loading what was stored -/

/-- A number can be read back, whatever comes behind it. -/
theorem u16OfBytes_append (x : UInt16) (bs : List UInt8) : u16OfBytes (u16Bytes x ++ bs) = x := by
  have hx : x.toNat < 256 ^ 2 := x.toNat_lt
  rw [u16OfBytes, List.take_left' (length_u16Bytes x), u16Bytes, ofLeBytes_leBytes hx,
    UInt16.ofNat_toNat]

theorem u32OfBytes_append (x : UInt32) (bs : List UInt8) : u32OfBytes (u32Bytes x ++ bs) = x := by
  have hx : x.toNat < 256 ^ 4 := x.toNat_lt
  rw [u32OfBytes, List.take_left' (length_u32Bytes x), u32Bytes, ofLeBytes_leBytes hx,
    UInt32.ofNat_toNat]

theorem u64OfBytes_append (x : UInt64) (bs : List UInt8) : u64OfBytes (u64Bytes x ++ bs) = x := by
  have hx : x.toNat < 256 ^ 8 := x.toNat_lt
  rw [u64OfBytes, List.take_left' (length_u64Bytes x), u64Bytes, ofLeBytes_leBytes hx,
    UInt64.ofNat_toNat]

/-- An address can be read back, whatever comes behind it in the packet. -/
theorem EtherAddr.ofBytes_append (a : EtherAddr) (bs : List UInt8) :
    EtherAddr.ofBytes (a.bytes ++ bs) = a := by
  obtain ⟨v⟩ := a
  simp only [EtherAddr.ofBytes, EtherAddr.bytes, EtherAddr.mk.injEq]
  ext i hi
  simp [List.getElem?_append_left]

/-- **A header loads as it was stored.** -/
theorem PktHeader.ofBytes_append (h : PktHeader) (bs : List UInt8) :
    PktHeader.ofBytes (h.bytes ++ bs) = h := by
  obtain ⟨t, l⟩ := h
  simp only [PktHeader.ofBytes, PktHeader.bytes, List.append_assoc, u16OfBytes_append,
    List.drop_left' (length_u16Bytes t)]

/-- So can a host. -/
theorem PktIpv4Host.ofBytes_append (h : PktIpv4Host) (bs : List UInt8) :
    PktIpv4Host.ofBytes (h.bytes ++ bs) = h := by
  obtain ⟨ip, port, mac⟩ := h
  have hport : (u32Bytes ip ++ (u16Bytes port ++ (mac.bytes ++ bs))).drop 4
      = u16Bytes port ++ (mac.bytes ++ bs) := List.drop_left' (length_u32Bytes ip)
  have hmac : (u32Bytes ip ++ (u16Bytes port ++ (mac.bytes ++ bs))).drop 6 = mac.bytes ++ bs := by
    rw [show (6 : Nat) = 4 + 2 from rfl, ← List.drop_drop, hport,
      List.drop_left' (length_u16Bytes port)]
  simp only [PktIpv4Host.ofBytes, PktIpv4Host.bytes, List.append_assoc, hport, hmac,
    u32OfBytes_append, u16OfBytes_append, EtherAddr.ofBytes_append]

/-- **An edge loads as it was stored.** -/
theorem PktEdge.ofBytes_append (e : PktEdge) (bs : List UInt8) :
    PktEdge.ofBytes (e.bytes ++ bs) = e := by
  obtain ⟨src, dst, rtt, ts⟩ := e
  have hsrc : src.bytes.length = 12 := src.length_bytes
  have hdst : dst.bytes.length = 12 := dst.length_bytes
  have h12 : (src.bytes ++ (dst.bytes ++ (u32Bytes rtt ++ (u64Bytes ts ++ bs)))).drop 12
      = dst.bytes ++ (u32Bytes rtt ++ (u64Bytes ts ++ bs)) := List.drop_left' hsrc
  have h24 : (src.bytes ++ (dst.bytes ++ (u32Bytes rtt ++ (u64Bytes ts ++ bs)))).drop 24
      = u32Bytes rtt ++ (u64Bytes ts ++ bs) := by
    rw [show (24 : Nat) = 12 + 12 from rfl, ← List.drop_drop, h12, List.drop_left' hdst]
  have h28 : (src.bytes ++ (dst.bytes ++ (u32Bytes rtt ++ (u64Bytes ts ++ bs)))).drop 28
      = u64Bytes ts ++ bs := by
    rw [show (28 : Nat) = 24 + 4 from rfl, ← List.drop_drop, h24, List.drop_left' (length_u32Bytes rtt)]
  simp only [PktEdge.ofBytes, PktEdge.bytes, List.append_assoc, h12, h24, h28,
    PktIpv4Host.ofBytes_append, u32OfBytes_append, u64OfBytes_append]

end P2pVn
