import Mathlib.Logic.Function.Basic
import P2pVn.DPeer.Sending
import P2pVn.Routing.Forward

/-!
# `DPeer.Receiving` — reading packets from a peer (`dpeer.c`)

`dp_recv_packet` reads a header and leaves the payload to the handler of the packet's type. Each handler here
returns a pair: one past the highest offset of the payload that it has read, and what the call comes to. A
handler that reads its payload straight from the connection has read as many bytes as it got.

A payload buffer ends where the payload ends, so a read beyond it is a `bufferOverread`.
-/

namespace P2pVn
open CUb Bytes

/-! ## The connection, incoming -/

/-- The bytes the peer sends from here on; after them the connection is closed, or broken. -/
structure Incoming where
  bytes : List UInt8
  broken : Bool

/-- `recv` with `MSG_WAITALL`: the result, the bytes, and what is left. It returns when it has what was asked for,
    or when the connection ends; asked for nothing, it waits for the next byte all the same. -/
def Incoming.recv (i : Incoming) (n : Nat) : Int × List UInt8 × Incoming :=
  if i.broken ∧ i.bytes = [] then (-1, [], i)
  else (((i.bytes.take n).length : Int), i.bytes.take n, { i with bytes := i.bytes.drop n })

/-- There are `n` bytes to be had: a connection that broke has nothing behind its last byte, not even nothing. -/
def Incoming.Has (i : Incoming) (n : Nat) : Prop := n ≤ i.bytes.length ∧ (i.broken = true → i.bytes ≠ [])

theorem Incoming.has_of_pos {i : Incoming} {n : Nat} (hn : 0 < n) (h : n ≤ i.bytes.length) : i.Has n :=
  ⟨h, fun _ => List.ne_nil_of_length_pos (Nat.lt_of_lt_of_le hn h)⟩

/-- As many bytes as are asked for, where there are as many. -/
theorem recv_full {i : Incoming} {n : Nat} (h : i.Has n) :
    i.recv n = ((n : Int), i.bytes.take n, { i with bytes := i.bytes.drop n }) := by
  unfold Incoming.recv
  rw [if_neg (fun hb => h.2 hb.1 hb.2), List.length_take, Nat.min_eq_left h.1]

/-- What was sent is received, and nothing behind it. -/
theorem recv_append {a : List UInt8} {n : Nat} (h : a.length = n) (hn : 0 < n) (rest : List UInt8) (broken : Bool) :
    Incoming.recv ⟨a ++ rest, broken⟩ n = ((n : Int), a, ⟨rest, broken⟩) := by
  rw [recv_full (Incoming.has_of_pos hn (by simp only [List.length_append]; omega))]
  simp only [List.take_left' h, List.drop_left' h]

/-- `dp_recv_header`: the code, type and length, and what is left. -/
def dpRecvHeader (i : Incoming) : Int × Option (PktType × UInt16) × Incoming :=
  let (r, header, i) := i.recv plHeader
  if r = -1 then (-1, none, i)
  else if r < plHeader then (1, none, i)
  else (0, some (ntohs (PktHeader.ofBytes header).type, ntohs (PktHeader.ofBytes header).len), i)

/-- `dp_handle_join`: the code, and the `remote_host` it stores. -/
def dpHandleJoin (i : Incoming) : Int × Option Ipv4Host × Incoming :=
  let (r, join, i) := i.recv plJoin
  if r < plJoin then (-1, none, i) else (0, some (pktIpv4Unpack (PktIpv4Host.ofBytes join)), i)

/-! ## The peer -/

/-- What a peer thread works on: the table with the memory of the peers, its connection, everybody's
    outgoing streams, its outstanding probe, and the hosts it has asked `pcon_connect` to connect to. -/
structure Peer where
  env : ExtMem
  rd : Routing
  con : Incoming
  out : Nat → Outgoing
  probeSeq : UInt16
  probeSendTime : Timeval
  rttUs : UInt32
  attempts : List Ipv4Host

/-- `dp_send_packet` to peer `d`. -/
def Peer.sendPacket (s : Peer) (d : Nat) (type : PktType) (len : UInt16) (data : List UInt8) : Int × Peer :=
  let (ret, o) := dpSendPacket (s.out d) type len data
  (ret, { s with out := Function.update s.out d o })

/-! ## The handlers -/

/-- `dp_handle_probe_req`. -/
def dpHandleProbeReq (me : Nat) (s : Peer) : Nat × Ub (Int × Peer) :=
  let (r, req, con) := s.con.recv plProbeReq
  let s := { s with con := con }
  (req.length,
    if r ≠ plProbeReq then .ok (-1, s)
    else .ok (s.sendPacket me ptProbeResp (UInt16.ofNat plProbeResp) (u16Bytes (u16OfBytes req))))

/-- `dp_handle_probe_resp`; `now` and `later` are what the two calls of `gettimeofday` return. -/
def dpHandleProbeResp (q : Qsort) (me : Nat) (now later : Timeval) (s : Peer) : Nat × Ub (Int × Peer) :=
  let (r, req, con) := s.con.recv plProbeResp
  let s := { s with con := con }
  (req.length,
    if r ≠ plProbeReq then .ok (-1, s)
    else if u16OfBytes req = s.probeSeq then do
      let rttUs := tvUs (timersub now s.probeSendTime)
      let (ret, rd) ← s.rd.rtDhostAddLink q s.env (.env (.dp me)) rttUs later
      pure (ret, { s with rttUs := rttUs, rd := rd })
    else .ok (0, s))

/-- The count of edges that `dp_read_pkt_link_graph` computes, as a `size_t`, from the length. -/
def linkGraphECt (len : Nat) : UInt16 :=
  ((UInt64.ofNat len - UInt64.ofNat plLinkGraphStatic) / UInt64.ofNat plEdge).toUInt16

/-- The edges of a link graph packet. -/
def linkGraphEdges (plink : List UInt8) (eCt : Nat) : List PktEdge :=
  (List.range eCt).map fun i => PktEdge.ofBytes (plink.drop (plLinkGraphStatic + plEdge * i))

/-- The hosts that are tried: source and destination of every edge. -/
def connectAttempts (es : List PktEdge) : List Ipv4Host :=
  es.flatMap fun e => [pktIpv4Unpack e.src, pktIpv4Unpack e.dst]

/-- `dp_read_pkt_link_graph` without populating the MAC, as `dp_recv_packet` calls it. -/
def dpReadPktLinkGraph (q : Qsort) (s : Peer) (len : Nat) : Nat × Ub (Int × Peer) :=
  let (ok, rd) := s.rd.malloc
  let s := { s with rd := rd }
  if !ok then (0, .ok (-1, s))
  else
    let (r, plink, con) := s.con.recv len
    let s := { s with con := con }
    if r ≠ len then (0, .ok (-1, s))
    else if len < 2 then (2, .error .bufferOverread)
    else
      let eCt := linkGraphECt len
      if eCt ≠ ntohs (u16OfBytes plink) then (2, .ok (-2, s))
      else if eCt = 0 then
        (2, do
          let (ret, rd) ← s.rd.rtUpdateEdges q s.env []
          pure (ret, { s with rd := rd }))
      else
        let reach := plLinkGraphStatic + plEdge * eCt.toNat
        (reach,
          if len < reach then .error .bufferOverread
          else do
            let es := linkGraphEdges plink eCt.toNat
            let (ret, rd) ← s.rd.rtUpdateEdges q s.env es
            pure (ret, { s with rd := rd, attempts := s.attempts ++ connectAttempts es }))

/-- Send a data packet on to everybody in the list; errors are only logged. `dp_from_ip_host` expects the
    address of a peer's `remote_host`. -/
def forwardData (data : List UInt8) : List HostPtr → Peer → Ub Peer
  | [], s => .ok s
  | .heap _ :: _, _ => .error .typeConfusion
  | .env .lhost :: _, _ => .error .typeConfusion
  | .env (.dp d) :: ps, s =>
    match s.env (.dp d) with
    | none => .error .useAfterFree
    | some _ => forwardData data ps { s with out := Function.update s.out d (dpSendData (s.out d) data data.length).2 }

/-- The `PT_DATA` branch of `dp_recv_packet`. Its `malloc` is not checked: `recv` into a null pointer fails,
    unless nothing is to be received. -/
def recvData (s : Peer) (len : Nat) : Nat × Ub (Int × Peer) :=
  let (ok, rd) := s.rd.malloc
  let s := { s with rd := rd }
  if !ok ∧ 0 < len then (0, .ok (-1, s))
  else
    let (r, pkt, con) := s.con.recv len
    let s := { s with con := con }
    if r ≠ len then (0, .ok (-1, s))
    else
      -- `ether_dhost` is at offset 0 and `ether_shost` at offset 6
      (12,
        if len < 12 then .error .bufferOverread
        else do
          let (f, rd) ← s.rd.rtDhostsToHost s.env (EtherAddr.ofBytes (pkt.drop 6)) (EtherAddr.ofBytes pkt)
          let s := { s with rd := rd }
          if f.ret < 0 then pure (-1, s)
          else
            let s ← forwardData pkt f.res s
            pure (0, s))

/-- `error_recv_flush`: read the whole payload and drop it. -/
def recvFlush (s : Peer) (len : Nat) : Nat × Ub (Int × Peer) :=
  let (ok, rd) := s.rd.malloc
  let s := { s with rd := rd }
  if !ok ∧ 0 < len then (0, .ok (-1, s))
  else
    let (r, _, con) := s.con.recv len
    let s := { s with con := con }
    (0, if r ≠ len then .ok (-1, s) else .ok (0, s))

/-- The `switch` of `dp_recv_packet`. -/
def dispatch (q : Qsort) (me : Nat) (now later : Timeval) (s : Peer) (type : PktType) (len : Nat) :
    Nat × Ub (Int × Peer) :=
  if type = ptData then recvData s len
  else if type = ptLinkGraph then dpReadPktLinkGraph q s len
  else if type = ptJoinPart then recvFlush s len
  else if type = ptQuit then recvFlush s len
  else if type = ptProbeReq then dpHandleProbeReq me s
  else if type = ptProbeResp then dpHandleProbeResp q me now later s
  else recvFlush s len

/-- `dp_recv_packet` of peer `me`. -/
def dpRecvPacket (q : Qsort) (me : Nat) (now later : Timeval) (s : Peer) : Nat × Ub (Int × Peer) :=
  match dpRecvHeader s.con with
  | (ret, none, con) => (0, .ok (ret, { s with con := con }))
  | (_, some (type, len), con) => dispatch q me now later { s with con := con } type len.toNat

end P2pVn
