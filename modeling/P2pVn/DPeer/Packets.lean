import P2pVn.DPeer.Outputs
import P2pVn.DPeer.Probing
import P2pVn.DPeer.Staying

/-!
# `DPeer.Packets` — a node as packets see it

The abstract side of `dp_th`: what the packets of the protocol are for, without the bytes that carry them. A
`Station` is a node without its connections; `Station.receive` says what a packet does to it, and which packets it
sends in turn.

`dpThPacket_receives` is the connection with the code: a thread that finds the bytes of a packet on its connection
does to its node what `Station.receive` says, takes these bytes, and writes the bytes of the packets that are sent.
-/

namespace P2pVn
open CUb Bytes Routing

/-! ## Packets -/

/-- The packets that running peer threads exchange. -/
inductive Packet where
  | data (frame : List UInt8)
  | linkstate (edges : List PktEdge)
  | probeReq (seq : UInt16)
  | probeResp (seq : UInt16)
  deriving DecidableEq

namespace Packet

/-- The call that writes the packet. -/
def write : Packet → Write
  | data frame => .packet ptData frame
  | linkstate edges => .linkstate edges
  | probeReq seq => .packet ptProbeReq (u16Bytes seq)
  | probeResp seq => .packet ptProbeResp (u16Bytes seq)

/-- The bytes of the packet, sent by `me`. -/
def enc (me : Ipv4Host) (p : Packet) : List UInt8 := p.write.frame me

/-- A frame has its Ethernet header and comes from a buffer of `DATA_MAX_LEN`; a link state has no more edges than
    its length field has room for. -/
def Proper : Packet → Prop
  | data frame => 14 ≤ frame.length ∧ frame.length < 2 ^ 16
  | linkstate edges => edges.length ≤ 1820
  | probeReq _ => True
  | probeResp _ => True

variable {p : Packet}

theorem Proper.fits (h : p.Proper) (me : Ipv4Host) : p.write.Fits me := by
  cases p with
  | data frame => exact h.2
  | linkstate edges => exact (fits_linkstate me edges).mpr h
  | probeReq seq => show (u16Bytes seq).length < 2 ^ 16; simp
  | probeResp seq => show (u16Bytes seq).length < 2 ^ 16; simp

theorem Proper.sized (h : p.Proper) : p.write.Sized := by
  cases p with
  | data frame => exact h.2
  | linkstate edges => trivial
  | probeReq seq => show (u16Bytes seq).length < 2 ^ 16; simp
  | probeResp seq => show (u16Bytes seq).length < 2 ^ 16; simp

/-- The bytes are a header that names the length of the payload, and the payload. -/
theorem Proper.enc_eq (h : p.Proper) (me : Ipv4Host) :
    p.enc me = headerBytes p.write.type (UInt16.ofNat (p.write.payload me).length) ++ p.write.payload me :=
  Write.frame_eq me h.sized

/-- `send` puts these bytes on a stream. -/
theorem Proper.send (h : p.Proper) (me : Ipv4Host) {o : Outgoing} (ho : NoErrors o.sends) :
    ∃ sends, NoErrors sends ∧ p.write.send me o = (0, ⟨o.sent ++ p.enc me, sends⟩) := by
  obtain ⟨sends, hsends, hrun⟩ := Write.send_ok me h.sized ho
  exact ⟨sends, hsends, by rw [hrun, h.enc_eq]⟩

end Packet

/-! ## Stations -/

/-- A node without its connections: its table, its group, for each peer the number and the time of the last probe,
    and which peers' threads have left their loops. -/
structure Station where
  rd : Routing
  dps : Da Nat
  probe : Nat → Option (UInt16 × Timeval)
  left : Nat → Bool

namespace Station

/-- What the thread of peer `d` does with a packet: the code, the table, and the packets that are sent. -/
def handle (q : Qsort) (env : ExtMem) (d : Nat) (now later : Timeval) (n : Station) :
    Packet → Ub (Int × Routing × List (Nat × Packet))
  | .data frame => do
    let (f, rd) ← n.rd.rtDhostsToHost env (frameSrc frame) (frameDst frame)
    if f.ret < 0 then pure (-1, rd, [])
    else pure (0, rd, (peersOf f.res).map fun e => (e, .data frame))
  | .linkstate edges => do
    let (ret, rd) ← n.rd.rtUpdateEdges q env edges
    pure (ret, rd, [])
  | .probeReq seq => pure (0, n.rd, [(d, .probeResp seq)])
  | .probeResp seq =>
    match n.probe d with
    | none => pure (0, n.rd, [])
    | some (probeSeq, sendTime) =>
      if seq = probeSeq then do
        let (ret, rd) ← n.rd.rtDhostAddLink q env (.env (.dp d)) (tvUs (timersub now sendTime)) later
        pure (ret, rd, [])
      else pure (0, n.rd, [])

/-- The same with what follows: a code other than `0` ends the thread's loop, and the peer is taken out of the
    group and of the table. -/
def receive (q : Qsort) (env : ExtMem) (d : Nat) (now later : Timeval) (n : Station) (p : Packet) :
    Ub (Station × List (Nat × Packet)) := do
  let (ret, rd, ms) ← n.handle q env d now later p
  if ret = 0 then pure ({ n with rd := rd }, ms)
  else
    let (_, dps) ← dpgRemove env n.dps d
    let (_, rd) ← rd.rtDhostRemove env (← dpMac env d)
    pure ({ n with rd := rd, dps := dps, left := Function.update n.left d true }, ms)

end Station

/-- The calls that write the packets. -/
def writes (ms : List (Nat × Packet)) : List (Nat × Write) := ms.map fun m => (m.1, m.2.write)

theorem writes_data (ds : List Nat) (frame : List UInt8) :
    writes (ds.map fun e => (e, .data frame)) = ds.map fun e => (e, .packet ptData frame) := by
  rw [writes, List.map_map]
  rfl

/-! ## The edges of a link state -/

/-- The edges that follow a prefix are read back. -/
theorem ofBytes_edges : ∀ (edges : List PktEdge) (i : Nat) (rest : List UInt8), i < edges.length →
    ∃ e, edges[i]? = some e ∧ PktEdge.ofBytes ((edges.flatMap PktEdge.bytes ++ rest).drop (plEdge * i)) = e := by
  intro edges
  induction edges with
  | nil => exact fun i _ hi => absurd hi (Nat.not_lt_zero i)
  | cons e es ih =>
      intro i rest hi
      rw [List.flatMap_cons, List.append_assoc]
      cases i with
      | zero => exact ⟨e, rfl, by rw [Nat.mul_zero, List.drop_zero, PktEdge.ofBytes_append]⟩
      | succ i =>
          obtain ⟨e', he', hof⟩ := ih i rest (Nat.lt_of_succ_lt_succ hi)
          refine ⟨e', he', ?_⟩
          rw [Nat.mul_succ, Nat.add_comm, ← List.drop_drop, List.drop_left' e.length_bytes]
          exact hof

/-- **A link state is read back as it was written.** -/
theorem linkGraphEdges_payload (me : Ipv4Host) (edges : List PktEdge) :
    linkGraphEdges (Write.payload me (.linkstate edges)) edges.length = edges := by
  refine List.ext_getElem? fun i => ?_
  unfold linkGraphEdges
  by_cases hi : i < edges.length
  · obtain ⟨e, he, hof⟩ := ofBytes_edges edges i [] hi
    rw [List.append_nil] at hof
    rw [he, List.getElem?_map, List.getElem?_range hi, Option.map_some, ← hof, Write.payload, ← List.drop_drop,
      List.drop_left' (length_linkGraphStatic me edges.length)]
  · rw [List.getElem?_eq_none (by simpa using hi), List.getElem?_eq_none (Nat.le_of_not_lt hi)]

theorem packetEdges_payload (me : Ipv4Host) {edges : List PktEdge} (h : edges.length ≤ 1820) :
    packetEdges (Write.payload me (.linkstate edges)) = edges := by
  have hct : edgeCt (Write.payload me (.linkstate edges)) = edges.length := by
    rw [edgeCt, Write.payload, linkGraphStatic, List.append_assoc, u16OfBytes_append, ntohs_htons]
    exact UInt16.toNat_ofNat_of_lt' (Nat.lt_of_le_of_lt h (by decide))
  rw [packetEdges, hct, linkGraphEdges_payload]

/-! ## The handlers, with a packet on the connection -/

section Handlers

variable {q : Qsort} {me : Ipv4Host} {d : Nat} {now later : Timeval} {s s' : Peer} {payload rest : List UInt8}
  {broken : Bool} {ret : Int}

/-- **`PT_DATA`.** -/
theorem recvData_eq (hal : s.rd.allocs = []) (hlen : 12 ≤ payload.length) :
    (recvData { s with con := ⟨payload ++ rest, broken⟩ } payload.length).2 = (do
      let (f, rd) ← s.rd.rtDhostsToHost s.env (frameSrc payload) (frameDst payload)
      let s := { s with con := ⟨rest, broken⟩, rd := rd }
      if f.ret < 0 then pure (-1, s)
      else
        let s ← forwardData payload f.res s
        pure (0, s)) := by
  unfold recvData
  simp only [malloc_nil hal, recv_append rfl (Nat.lt_of_lt_of_le (by decide) hlen), Bool.not_true,
    Bool.false_eq_true, false_and, if_false, ne_eq, not_true_eq_false, if_neg (Nat.not_lt.mpr hlen)]
  rfl

/-- **`PT_LINK_GRAPH`.** -/
theorem linkGraph_eq (hal : s.rd.allocs = []) (hw : WellFormed payload.length payload)
    (hlen : payload.length < 2 ^ 16) :
    (dpReadPktLinkGraph q { s with con := ⟨payload ++ rest, broken⟩ } payload.length).2 = (do
      let (ret, rd) ← s.rd.rtUpdateEdges q s.env (packetEdges payload)
      pure (ret, { s with con := ⟨rest, broken⟩, rd := rd,
                          attempts := s.attempts ++ connectAttempts (packetEdges payload) })) := by
  obtain ⟨hge, hect⟩ := hw.eCt hlen
  have h2 : ¬ payload.length < 2 := Nat.not_lt.mpr (le_trans (by decide) hge)
  unfold dpReadPktLinkGraph packetEdges edgeCt
  simp only [malloc_nil hal, recv_append rfl (Nat.lt_of_lt_of_le (by decide) hge), Bool.not_true,
    Bool.false_eq_true, if_false, ne_eq, not_true_eq_false, h2, hect]
  -- without edges nothing behind the static fields is read, which comes to the same
  by_cases h0 : ntohs (u16OfBytes payload) = 0
  · have hnil : linkGraphEdges payload 0 = [] := rfl
    have hnobody : connectAttempts [] = [] := rfl
    simp only [h0, if_true, UInt16.toNat_zero, hnil, hnobody, List.append_nil]
  · have hfits := linkGraphECt_fits hge hlen
    rw [hect] at hfits
    simp only [h0, if_false, if_neg (Nat.not_lt.mpr hfits)]

/-- **`PT_PROBE_REQ`.** -/
theorem probeReq_eq (hlen : payload.length = 2) :
    (dpHandleProbeReq d { s with con := ⟨payload ++ rest, broken⟩ }).2
      = .ok (Peer.sendPacket { s with con := ⟨rest, broken⟩ } d ptProbeResp 2 (u16Bytes (u16OfBytes payload))) := by
  have hrecv : Incoming.recv ⟨payload ++ rest, broken⟩ plProbeReq
      = (((plProbeReq : Nat) : Int), payload, ⟨rest, broken⟩) :=
    recv_append hlen (by decide) rest broken
  unfold dpHandleProbeReq
  simp only [hrecv, ne_eq, not_true_eq_false, if_false]
  rfl

/-- **`PT_PROBE_RESP`.** -/
theorem probeResp_eq (hlen : payload.length = 2) :
    (dpHandleProbeResp q d now later { s with con := ⟨payload ++ rest, broken⟩ }).2 = if u16OfBytes payload = s.probeSeq then (do
        let rttUs := tvUs (timersub now s.probeSendTime)
        let (ret, rd) ← s.rd.rtDhostAddLink q s.env (.env (.dp d)) rttUs later
        pure (ret, { s with con := ⟨rest, broken⟩, rttUs := rttUs, rd := rd }))
      else .ok (0, { s with con := ⟨rest, broken⟩ }) := by
  have hrecv : Incoming.recv ⟨payload ++ rest, broken⟩ plProbeResp
      = (((plProbeReq : Nat) : Int), payload, ⟨rest, broken⟩) :=
    recv_append hlen (by decide) rest broken
  unfold dpHandleProbeResp
  simp only [hrecv, ne_eq, not_true_eq_false, if_false]

end Handlers

/-! ## The thread and the station -/

section Receive

variable {q : Qsort} {me src : Ipv4Host} {d : Nat} {now later : Timeval} {s s' : Peer} {n : Station} {p : Packet}
  {rest : List UInt8} {broken : Bool} {ret : Int} {dps dps' : Da Nat} {stays : Bool}

/-- The thread's view of its node. -/
structure Sees (s : Peer) (d : Nat) (n : Station) : Prop where
  rd : s.rd = n.rd
  allocs : s.rd.allocs = []
  probe : n.probe d = some (s.probeSeq, s.probeSendTime)
  sends : NoErrors (s.out d).sends

/-- What is left of the thread's state once it has dealt with a packet: the bytes of the packet are taken, and those
    of `ms` are written. -/
structure Dealt (me : Ipv4Host) (s s' : Peer) (rest : List UInt8) (broken : Bool) (rd : Routing)
    (ms : List (Nat × Packet)) : Prop where
  env : s'.env = s.env
  con : s'.con = ⟨rest, broken⟩
  rd : s'.rd = rd
  out : s'.out = sendAll me (writes ms) s.out
  probeSeq : s'.probeSeq = s.probeSeq
  probeSendTime : s'.probeSendTime = s.probeSendTime

/-- A packet that was written is the one that is read. -/
theorem recvPacket_dispatch (hp : p.Proper) (hcon : s.con = ⟨p.enc src ++ rest, broken⟩) :
    dpRecvPacket q d now later s = dispatch q d now later { s with con := ⟨p.write.payload src ++ rest, broken⟩ }
      p.write.type (p.write.payload src).length := by
  have hlen : (UInt16.ofNat (p.write.payload src).length).toNat = (p.write.payload src).length :=
    UInt16.toNat_ofNat_of_lt' (hp.fits src)
  unfold dpRecvPacket
  rw [hcon, hp.enc_eq, List.append_assoc, dpRecvHeader_append]
  simp only [hlen]

/-- `dp_recv_packet` does what `Station.handle` says. -/
theorem dpRecvPacket_handles (me : Ipv4Host) (hsee : Sees s d n) (hp : p.Proper)
    (hcon : s.con = ⟨p.enc src ++ rest, broken⟩)
    (hrun : (dpRecvPacket q d now later s).2 = .ok (ret, s')) :
    ∃ rd ms, n.handle q s.env d now later p = .ok (ret, rd, ms) ∧ Dealt me s s' rest broken rd ms := by
  rw [recvPacket_dispatch hp hcon] at hrun
  unfold dispatch at hrun
  cases p with
  | data frame =>
      have hrun' : (recvData { s with con := ⟨frame ++ rest, broken⟩ } frame.length).2 = .ok (ret, s') := hrun
      rw [recvData_eq hsee.allocs (le_trans (by decide) hp.1)] at hrun'
      obtain ⟨⟨f, rd⟩, hlookup, hrun'⟩ := bind_eq_ok.mp hrun'
      have hlookup' : n.rd.rtDhostsToHost s.env (frameSrc frame) (frameDst frame) = .ok (f, rd) := hsee.rd ▸ hlookup
      simp only [Station.handle, hlookup', ok_bind]
      by_cases hret : f.ret < 0
      · simp only [hret, if_true] at hrun' ⊢
        cases hrun'
        exact ⟨rd, [], rfl, rfl, rfl, rfl, rfl, rfl, rfl⟩
      · simp only [hret, if_false] at hrun' ⊢
        obtain ⟨s1, hfwd, hrun'⟩ := bind_eq_ok.mp hrun'
        cases hrun'
        rw [forwardData_sends hfwd me]
        refine ⟨rd, _, rfl, rfl, rfl, rfl, ?_, rfl, rfl⟩
        rw [writes_data]
  | linkstate edges =>
      have hw := wellFormedPkt_linkstate src hp
      have hrun' : (dpReadPktLinkGraph q { s with con := ⟨Write.payload src (.linkstate edges) ++ rest, broken⟩ }
          (Write.payload src (.linkstate edges)).length).2 = .ok (ret, s') := hrun
      rw [linkGraph_eq hsee.allocs (hw.linkGraph rfl) hw.fits, packetEdges_payload src hp] at hrun'
      obtain ⟨⟨r, rd⟩, hupdate, hrun'⟩ := bind_eq_ok.mp hrun'
      have hupdate' : n.rd.rtUpdateEdges q s.env edges = .ok (r, rd) := hsee.rd ▸ hupdate
      cases hrun'
      simp only [Station.handle, hupdate', ok_bind]
      exact ⟨rd, [], rfl, rfl, rfl, rfl, rfl, rfl, rfl⟩
  | probeReq seq =>
      have hrun' : (dpHandleProbeReq d { s with con := ⟨u16Bytes seq ++ rest, broken⟩ }).2 = .ok (ret, s') := hrun
      have hseq : u16OfBytes (u16Bytes seq) = seq := by simpa using u16OfBytes_append seq []
      rw [probeReq_eq (length_u16Bytes seq), hseq] at hrun'
      have hproper : (Packet.probeResp seq).Proper := trivial
      obtain ⟨sends, -, hsend⟩ := hproper.send me hsee.sends
      have hsend' : dpSendPacket (s.out d) ptProbeResp 2 (u16Bytes seq)
          = (0, ⟨(s.out d).sent ++ Packet.enc me (.probeResp seq), sends⟩) := hsend
      simp only [Peer.sendPacket, hsend'] at hrun'
      cases hrun'
      refine ⟨n.rd, [(d, .probeResp seq)], rfl, rfl, rfl, hsee.rd, ?_, rfl, rfl⟩
      show Function.update s.out d _ = Function.update s.out d (Write.send me (s.out d) (Packet.probeResp seq).write).2
      rw [hsend]
  | probeResp seq =>
      have hrun' : (dpHandleProbeResp q d now later { s with con := ⟨u16Bytes seq ++ rest, broken⟩ }).2
          = .ok (ret, s') := hrun
      have hseq : u16OfBytes (u16Bytes seq) = seq := by simpa using u16OfBytes_append seq []
      rw [probeResp_eq (length_u16Bytes seq), hseq] at hrun'
      simp only [Station.handle, hsee.probe]
      by_cases hmine : seq = s.probeSeq
      · rw [if_pos hmine] at hrun' ⊢
        obtain ⟨⟨r, rd⟩, hadd, hrun'⟩ := bind_eq_ok.mp hrun'
        have hadd' : n.rd.rtDhostAddLink q s.env (.env (.dp d)) (tvUs (timersub now s.probeSendTime)) later
            = .ok (r, rd) := hsee.rd ▸ hadd
        cases hrun'
        rw [hadd', ok_bind]
        exact ⟨rd, [], rfl, rfl, rfl, rfl, rfl, rfl, rfl⟩
      · rw [if_neg hmine] at hrun' ⊢
        cases hrun'
        exact ⟨n.rd, [], rfl, rfl, rfl, hsee.rd, rfl, rfl, rfl⟩

/-- **A thread that finds the bytes of a packet does to its node what the packet is for**: it takes exactly these
    bytes, and writes those of the packets that the station sends. -/
theorem dpThPacket_receives (me : Ipv4Host) (hsee : Sees s d n) (hp : p.Proper)
    (hcon : s.con = ⟨p.enc src ++ rest, broken⟩)
    (hrun : dpThPacket q d now later s n.dps = .ok (stays, s', dps')) :
    ∃ n' ms, n.receive q s.env d now later p = .ok (n', ms) ∧ Dealt me s s' rest broken n'.rd ms ∧ dps' = n'.dps ∧
      n'.probe = n.probe ∧ n'.left = if stays then n.left else Function.update n.left d true := by
  obtain ⟨⟨r, s1⟩, hrecv, hrun⟩ := bind_eq_ok.mp hrun
  obtain ⟨rd, ms, hhandle, hd⟩ := dpRecvPacket_handles me hsee hp hcon hrecv
  simp only [Station.receive, hhandle, ok_bind]
  by_cases hr : r = 0
  · simp only [hr, if_true] at hrun ⊢
    cases hrun
    exact ⟨_, ms, rfl, hd, rfl, rfl, rfl⟩
  · simp only [hr, if_false] at hrun ⊢
    obtain ⟨⟨r1, dps1⟩, hgroup, hrun⟩ := bind_eq_ok.mp hrun
    obtain ⟨m, hm, hrun⟩ := bind_eq_ok.mp hrun
    obtain ⟨⟨r2, rd2⟩, hremove, hrun⟩ := bind_eq_ok.mp hrun
    cases hrun
    rw [hd.env] at hgroup hm hremove
    rw [hd.rd] at hremove
    simp only [hgroup, hm, hremove, ok_bind]
    exact ⟨_, ms, rfl, ⟨hd.env, hd.con, rfl, hd.out, hd.probeSeq, hd.probeSendTime⟩, rfl, rfl, rfl⟩

end Receive

end P2pVn
