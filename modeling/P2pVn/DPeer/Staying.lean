import P2pVn.DPeer.Dpg
import P2pVn.DPeer.LinkGraph
import P2pVn.Routing.ReadLock
import P2pVn.Routing.Retaining
import P2pVn.Routing.Returning

/-!
# `DPeer.Staying` — which packets cost a peer its connection (`dpeer.c`)

`dp_th` leaves its loop for any result of `dp_recv_packet` but `0`, and then takes the peer out of the group and
of the table. A well-formed packet should never come to that; `Taken` says of a packet, and of the table at that
point, when it does not.

A packet can also get a result of `0` and do its harm later: a broadcast that is cut off releases the table's read
lock twice, so the next call that writes to the table does not come back. And a packet that announces no payload
keeps its thread in `recv` until the next one is there. `Harmless` leaves these out.

- **Handlers.** `recvData_serves`, `linkGraph_serves`, `probeReq_serves`, `probeResp_serves`, `recvFlush_serves`:
  when each of them returns `0`. `dispatch_serves` puts them together.
- **Run lemma.** `Node.Run.thriving`; `Node.Run.stays` is what follows for the peers.
-/

namespace P2pVn
open CUb Bytes Routing

/-! ## The loop's way out -/

/-- What `dp_th` does for `EPOLLIN`: whether it stays in its loop. Otherwise its clean-up takes the peer out of
    the group and of the table, and the results of that are ignored. -/
def dpThPacket (q : Qsort) (me : Nat) (now later : Timeval) (s : Peer) (dps : Da Nat) :
    Ub (Bool × Peer × Da Nat) := do
  let (ret, s) ← (dpRecvPacket q me now later s).2
  if ret = 0 then pure (true, s, dps)
  else
    let (_, dps) ← dpgRemove s.env dps me
    let (_, rd) ← s.rd.rtDhostRemove s.env (← dpMac s.env me)
    pure (false, { s with rd := rd }, dps)

/-! ## Packets -/

/-- A packet as the protocol has it: a frame has its Ethernet header, a link graph the edges that it counts, a
    probe its number. Nothing is asked of other types. -/
structure WellFormedPkt (type : PktType) (payload : List UInt8) : Prop where
  fits : payload.length < 2 ^ 16
  data : type = ptData → 14 ≤ payload.length
  linkGraph : type = ptLinkGraph → WellFormed payload.length payload
  probe : type = ptProbeReq ∨ type = ptProbeResp → payload.length = 2

/-- A link state that `dp_send_linkstate` sends is such a packet, if its length fits. -/
theorem wellFormedPkt_linkstate (me : Ipv4Host) {edges : List PktEdge} (h : edges.length ≤ 1820) :
    WellFormedPkt ptLinkGraph (Write.payload me (.linkstate edges)) := by
  refine ⟨(fits_linkstate me edges).mpr h, fun ht => absurd ht (by decide), fun _ => ?_,
    fun ht => absurd ht (by decide)⟩
  have hct : edgeCt (Write.payload me (.linkstate edges)) = edges.length := by
    rw [edgeCt, Write.payload, linkGraphStatic, List.append_assoc, u16OfBytes_append, ntohs_htons]
    exact UInt16.toNat_ofNat_of_lt' (Nat.lt_of_le_of_lt h (by decide))
  rw [WellFormed, hct, length_linkstate, Nat.add_comm]

/-- The packet is what comes next on the connection of `me`, who is not local itself, and whose `send` does not
    fail. -/
structure Arrives (me : Nat) (s : Peer) (type : PktType) (payload : List UInt8) : Prop where
  con : ∃ rest broken, s.con = ⟨headerBytes type (UInt16.ofNat payload.length) ++ (payload ++ rest), broken⟩
  sends : NoErrors (s.out me).sends
  peer : ∃ ip, s.env (.dp me) = some ip ∧ ¬ IsLocalMac s.env s.rd ip.mac

/-- The addresses of a frame, and the edges of a link graph. -/
def frameSrc (payload : List UInt8) : EtherAddr := EtherAddr.ofBytes (payload.drop 6)

def frameDst (payload : List UInt8) : EtherAddr := EtherAddr.ofBytes payload

def packetEdges (payload : List UInt8) : List PktEdge := linkGraphEdges payload (edgeCt payload)

/-- The operation that a packet comes to, where it comes to one: a link graph is merged, and the answer to the
    probe that is out adds or refreshes the link to the peer. -/
def packetOp (me : Nat) (now later : Timeval) (s : Peer) (type : PktType) (payload : List UInt8) : Option RtOp :=
  if type = ptLinkGraph then some (.updateEdges (packetEdges payload))
  else if type = ptProbeResp ∧ u16OfBytes payload = s.probeSeq then
    some (.dhostAddLink me (tvUs (timersub now s.probeSendTime)) later)
  else none

/-- The packet gets a result of `0`: a frame can be sent on, and an operation reaches neither of the defects of
    the table. -/
@[mk_iff]
structure Taken (me : Nat) (now later : Timeval) (s : Peer) (type : PktType) (payload : List UInt8) : Prop where
  data : type = ptData → Deliverable s.env s.rd (frameSrc payload) (frameDst payload)
  op : ∀ o, packetOp me now later s type payload = some o → o.Careful s.env s.rd

/-- A frame whose look-up keeps the read lock until `rt_hosts_free` releases it. -/
def KeepsLock (s : Peer) (type : PktType) (payload : List UInt8) : Prop :=
  type = ptData → ¬ CutOff s.env s.rd (frameSrc payload) (frameDst payload)

/-- The packet leaves the peer where it is, the table's lock as it was, and the thread ready for the next. -/
structure Harmless (me : Nat) (now later : Timeval) (s : Peer) (type : PktType) (payload : List UInt8) : Prop
    extends Taken me now later s type payload where
  keepsLock : KeepsLock s type payload
  nonempty : payload ≠ []

/-! ## Tables -/

variable {q : Qsort} {env : ExtMem} {me : Nat} {now later : Timeval} {s : Peer} {rd rd' : Routing}
  {type : PktType} {payload rest : List UInt8} {broken : Bool} {ret : Int} {o : RtOp}

/-- A table that was reached without allocation failures, and has no parallel links. -/
structure Thriving (q : Qsort) (env : ExtMem) (rd : Routing) : Prop where
  reach : Reach q env [] rd
  strict : LinksOk MacLt env rd

theorem Thriving.start (h : Started q env [] rd) : Thriving q env rd := by
  obtain ⟨L, hf, -⟩ := started_cases h
  exact ⟨.start h, hf.linksOk⟩

/-- **Step lemma.** An operation that leaves no parallel links, and returns. -/
theorem Thriving.op (h : Thriving q env rd) (honce : o.NamesOnce env rd) (hrun : o.run q env rd = .ok (ret, rd')) :
    Thriving q env rd' := by
  refine ⟨h.reach.op hrun, ?_⟩
  obtain ⟨L, hs⟩ := h.reach.sound
  obtain ⟨-, ⟨-, rfl⟩ | ⟨rfl, -⟩⟩ := RtOp.sound hrun hs
  · exact h.strict
  · -- it trimmed the last host at most, so it is the careful call that keeps the invariant
    obtain ⟨rd1, -, -, hp, -⟩ := RtOp.run_zero hrun
    have hlast := (RtOp.zero_iff hp hs h.strict honce).mp ⟨rd', hrun⟩
    obtain ⟨rd2, hrun2, hrep⟩ := RtOp.finishes hs h.strict ⟨honce, hlast⟩ hp
    cases hrun.symm.trans hrun2
    exact hrep.links

theorem Thriving.forward (h : Thriving q env rd) {srcMac dstMac : EtherAddr} {f : Forwards}
    (hrun : rd.rtDhostsToHost env srcMac dstMac = .ok (f, rd')) : Thriving q env rd' :=
  ⟨h.reach.forward hrun, h.strict.same (rtDhostsToHost_same hrun)⟩

theorem Thriving.allocs (h : Thriving q env rd) : rd.allocs = [] := by
  obtain ⟨L, hs⟩ := h.reach.sound
  exact hs.allocs

/-- Whoever is linked to stays linked to, whatever the operation, as long as it removes nobody. -/
theorem Thriving.op_linkedInto (h : Thriving q env rd) (hrun : o.run q env rd = .ok (ret, rd'))
    (hno : ∀ mac, o ≠ .dhostRemove mac) {d : Nat} (hl : LinkedInto rd d) : LinkedInto rd' d := by
  obtain ⟨L, hs, ha⟩ := h.reach.aliased
  refine Aliased.run_linkedInto (L := L) o hrun fun r rd1 hp => ⟨RtOp.phase_aliased hp hs ha, ?_⟩
  obtain ⟨id, hid⟩ := ha.direct hl.pointsInto
  cases o with
  | dhostAddLink e rttUs now => exact (((linkDhost_run hp).phase ha.table).directAt_old hid).pointsInto
  | updateEdges edges => exact ((mergeEdges_directAt hp).mpr hid).pointsInto
  | dhostRemove mac => exact absurd rfl (hno mac)

theorem malloc_nil (h : rd.allocs = []) : rd.malloc = (true, rd) := by
  cases rd
  subst h
  rfl

/-! ## The handlers -/

/-- What a packet leaves of the table: it thrives, and everybody who was linked to is. -/
structure Leaves (q : Qsort) (env : ExtMem) (rd rd' : Routing) : Prop where
  thriving : Thriving q env rd'
  linked : ∀ d, LinkedInto rd d → LinkedInto rd' d

theorem Thriving.leaves (h : Thriving q env rd) : Leaves q env rd rd := ⟨h, fun _ hl => hl⟩

/-- A handler returns `0` and leaves the table as it should for a packet that is taken, and for no other one that
    names nobody twice. -/
structure Serves (q : Qsort) (env : ExtMem) (rd : Routing) (out : Ub (Int × Peer)) (once taken : Prop) :
    Prop where
  serves : taken → ∃ s', out = .ok (0, s') ∧ Leaves q env rd s'.rd
  needs : once → (∃ s', out = .ok (0, s')) → taken

/-- A handler that always returns `0`, and does not touch the table. -/
theorem Thriving.always_serves (ht : Thriving q env rd) {out : Ub (Int × Peer)} {once : Prop} {s' : Peer}
    (hout : out = .ok (0, s')) (hrd : s'.rd = rd) : Serves q env rd out once True :=
  ⟨fun _ => ⟨s', hout, hrd ▸ ht.leaves⟩, fun _ _ => trivial⟩

theorem Serves.congr {out : Ub (Int × Peer)} {once once' taken taken' : Prop}
    (h : Serves q env rd out once taken) (honce : once' → once) (hh : taken' ↔ taken) :
    Serves q env rd out once' taken' :=
  ⟨fun h' => h.serves (hh.mp h'), fun ho hout => hh.mpr (h.needs (honce ho) hout)⟩

/-- **A handler that runs an operation** whose first phase returns `0`. -/
theorem Thriving.op_serves (h : Thriving q env rd) {rd1 : Routing} (hp : o.phase q env rd = .ok (0, rd1))
    (hno : ∀ mac, o ≠ .dhostRemove mac) {k : Routing → Peer} (hk : ∀ rd', (k rd').rd = rd') :
    Serves q env rd (do let (ret, rd) ← o.run q env rd; pure (ret, k rd)) (o.NamesOnce env rd)
      (o.Careful env rd) := by
  obtain ⟨L, hs⟩ := h.reach.sound
  constructor
  · intro hc
    obtain ⟨rd', hrun, -⟩ := RtOp.finishes hs h.strict hc hp
    refine ⟨k rd', ?_, ?_⟩
    · rw [hrun, ok_bind]
      rfl
    · rw [hk]
      exact ⟨h.op hc.once hrun, fun d hl => h.op_linkedInto hrun hno hl⟩
  · rintro honce ⟨s', hout⟩
    obtain ⟨⟨ret, rd'⟩, hrun, hret⟩ := bind_eq_ok.mp hout
    cases hret
    exact ⟨honce, (RtOp.zero_iff hp hs h.strict honce).mp ⟨rd', hrun⟩⟩

/-- A frame is sent on to the peers of a list of their addresses, and to no other list. -/
theorem forwardData_ok_iff {data : List UInt8} : ∀ (ps : List HostPtr) (s : Peer),
    (∃ s', forwardData data ps s = .ok s') ↔ PeersOnly s.env ps := by
  intro ps
  induction ps with
  | nil => exact fun s => ⟨fun _ => nofun, fun _ => ⟨s, rfl⟩⟩
  | cons p ps ih =>
      intro s
      have hcons : PeersOnly s.env (p :: ps) ↔ (∃ d ip, p = .env (.dp d) ∧ s.env (.dp d) = some ip) ∧
          PeersOnly s.env ps := List.forall_mem_cons
      rw [hcons]
      cases p with
      | heap ip => simp [forwardData]
      | env p =>
          cases p with
          | lhost => simp [forwardData]
          | dp d =>
              unfold forwardData
              cases hd : s.env (.dp d) with
              | none => simp [hd]
              | some ip =>
                  rw [ih]
                  simp [hd]

section Handlers

variable (ht : Thriving q s.env s.rd) (hcon : s.con = ⟨payload ++ rest, broken⟩)
include ht hcon

/-- **`PT_DATA`.** -/
theorem recvData_serves (hlen : 12 ≤ payload.length) :
    Serves q s.env s.rd (recvData s payload.length).2 True
      (Deliverable s.env s.rd (frameSrc payload) (frameDst payload)) := by
  obtain ⟨f, rd, hrun, hiff⟩ := rtDhostsToHost_deliverable_iff ht.reach (frameSrc payload) (frameDst payload)
  -- what is left of the call after the payload was read
  have hout : (recvData s payload.length).2 = (if f.ret < 0 then
      .ok (-1, { s with con := ⟨rest, broken⟩, rd := rd })
      else do
        let s ← forwardData payload f.res { s with con := ⟨rest, broken⟩, rd := rd }
        pure (0, s)) := by
    unfold recvData
    simp only [malloc_nil ht.allocs, hcon, recv_append rfl (Nat.lt_of_lt_of_le (by decide) hlen), Bool.not_true,
      Bool.false_eq_true, false_and, if_false, ne_eq, not_true_eq_false, if_neg (Nat.not_lt.mpr hlen)]
    rw [show s.rd.rtDhostsToHost s.env (EtherAddr.ofBytes (payload.drop 6)) (EtherAddr.ofBytes payload) = .ok (f, rd)
      from hrun, ok_bind]
    rfl
  have hpeers : (∃ s', forwardData payload f.res { s with con := ⟨rest, broken⟩, rd := rd } = .ok s') ↔
      PeersOnly s.env f.res := forwardData_ok_iff f.res _
  rw [hout, ← hiff]
  constructor
  · rintro ⟨hret, hres⟩
    obtain ⟨s', hs'⟩ := hpeers.mpr hres
    refine ⟨s', ?_, ?_⟩
    · rw [if_neg (by omega), hs', ok_bind]
      rfl
    · rw [forwardData_out _ hs']
      exact ⟨ht.forward hrun, fun d hl => hl.same (rtDhostsToHost_same hrun)⟩
  · rintro - ⟨s', hs'⟩
    by_cases hret : f.ret < 0
    · rw [if_pos hret] at hs'
      cases hs'
    · rw [if_neg hret] at hs'
      obtain ⟨s1, hs1, -⟩ := bind_eq_ok.mp hs'
      exact ⟨by omega, hpeers.mp ⟨s1, hs1⟩⟩

/-- **`PT_LINK_GRAPH`.** -/
theorem linkGraph_serves (hw : WellFormed payload.length payload) (hlen : payload.length < 2 ^ 16) :
    Serves q s.env s.rd (dpReadPktLinkGraph q s payload.length).2
      ((RtOp.updateEdges (packetEdges payload)).NamesOnce s.env s.rd)
      ((RtOp.updateEdges (packetEdges payload)).Careful s.env s.rd) := by
  obtain ⟨L, hs⟩ := ht.reach.sound
  obtain ⟨rd1, hp, -⟩ := mergeEdges_ok (q := q) hs.table hs.links hs.allocs (packetEdges payload)
  -- what is left of the call after its checks
  have hout : (dpReadPktLinkGraph q s payload.length).2 = (do
      let (ret, rd) ← (RtOp.updateEdges (packetEdges payload)).run q s.env s.rd
      pure (ret, { s with con := ⟨rest, broken⟩, rd := rd,
                          attempts := s.attempts ++ connectAttempts (packetEdges payload) })) := by
    obtain ⟨hge, hect⟩ := hw.eCt hlen
    have h2 : ¬ payload.length < 2 := Nat.not_lt.mpr (le_trans (by decide) hge)
    unfold dpReadPktLinkGraph packetEdges edgeCt
    simp only [malloc_nil ht.allocs, hcon, recv_append rfl (Nat.lt_of_lt_of_le (by decide) hge), Bool.not_true,
      Bool.false_eq_true, if_false, ne_eq, not_true_eq_false, h2, hect]
    -- without edges nothing behind the static fields is read, which comes to the same
    by_cases h0 : ntohs (u16OfBytes payload) = 0
    · have hnil : linkGraphEdges payload 0 = [] := rfl
      have hnobody : connectAttempts [] = [] := rfl
      simp only [h0, if_true, UInt16.toNat_zero, hnil, hnobody, List.append_nil]
      rfl
    · have hfits := linkGraphECt_fits hge hlen
      rw [hect] at hfits
      simp only [h0, if_false, if_neg (Nat.not_lt.mpr hfits)]
      rfl
  rw [hout]
  exact ht.op_serves (o := .updateEdges (packetEdges payload)) hp nofun (k := fun rd => { s with
    con := ⟨rest, broken⟩, rd := rd, attempts := s.attempts ++ connectAttempts (packetEdges payload) }) fun _ => rfl

/-- **`PT_PROBE_REQ`.** -/
theorem probeReq_serves (hlen : payload.length = 2) (hsends : NoErrors (s.out me).sends) {once : Prop} :
    Serves q s.env s.rd (dpHandleProbeReq me s).2 once True := by
  obtain ⟨sends, -, hsend⟩ := dpSendPacket_ok hsends ptProbeResp (UInt16.ofNat plProbeResp)
    (u16Bytes (u16OfBytes payload))
  have hrecv : s.con.recv plProbeReq = (((plProbeReq : Nat) : Int), payload, ⟨rest, broken⟩) := by
    rw [hcon]
    exact recv_append hlen (by decide) rest broken
  unfold dpHandleProbeReq
  simp only [hrecv, ne_eq, not_true_eq_false, if_false, Peer.sendPacket, hsend]
  exact ht.always_serves rfl rfl

/-- **`PT_PROBE_RESP`.** -/
theorem probeResp_serves (hlen : payload.length = 2) {ip : Ipv4Host} (hip : s.env (.dp me) = some ip)
    (hother : ¬ IsLocalMac s.env s.rd ip.mac) {once : Prop} :
    Serves q s.env s.rd (dpHandleProbeResp q me now later s).2 once (u16OfBytes payload = s.probeSeq →
      (RtOp.dhostAddLink me (tvUs (timersub now s.probeSendTime)) later).Careful s.env s.rd) := by
  have hrecv : s.con.recv plProbeResp = (((plProbeReq : Nat) : Int), payload, ⟨rest, broken⟩) := by
    rw [hcon]
    exact recv_append hlen (by decide) rest broken
  unfold dpHandleProbeResp
  simp only [hrecv, ne_eq, not_true_eq_false, if_false]
  by_cases hseq : u16OfBytes payload = s.probeSeq
  · obtain ⟨L, hs⟩ := ht.reach.sound
    have hmac : s.rd.mac? s.env L ≠ some ip.mac := fun hm => hother ⟨L, hs.table.isLocal, hm⟩
    obtain ⟨rd1, hp, -⟩ := linkDhost_zero (q := q) hs.table hs.allocs hip hmac
      (tvUs (timersub now s.probeSendTime)) later
    have hserves := ht.op_serves (o := .dhostAddLink me (tvUs (timersub now s.probeSendTime)) later) hp nofun
      (k := fun rd => { s with
        con := ⟨rest, broken⟩, rttUs := tvUs (timersub now s.probeSendTime), rd := rd }) fun _ => rfl
    simp only [hseq, if_true, true_imp_iff]
    exact hserves.congr (fun _ => trivial) Iff.rfl
  · simp only [hseq, if_false, false_imp_iff]
    exact ht.always_serves rfl rfl

/-- **The other types.** -/
theorem recvFlush_serves (hne : payload ≠ []) {once : Prop} :
    Serves q s.env s.rd (recvFlush s payload.length).2 once True := by
  have hout : (recvFlush s payload.length).2 = .ok (0, { s with con := ⟨rest, broken⟩ }) := by
    unfold recvFlush
    simp only [malloc_nil ht.allocs, hcon, recv_append rfl (List.length_pos_of_ne_nil hne), Bool.not_true,
      Bool.false_eq_true, false_and, if_false, ne_eq, not_true_eq_false]
  exact ht.always_serves hout rfl

end Handlers

/-! ## The call -/

/-- No group of edges that is merged names a destination twice. -/
def NamesOncePkt (me : Nat) (now later : Timeval) (s : Peer) (type : PktType) (payload : List UInt8) : Prop :=
  ∀ o, packetOp me now later s type payload = some o → o.NamesOnce s.env s.rd

theorem dispatch_serves (ht : Thriving q s.env s.rd) (hcon : s.con = ⟨payload ++ rest, broken⟩)
    (hsends : NoErrors (s.out me).sends)
    (hpeer : ∃ ip, s.env (.dp me) = some ip ∧ ¬ IsLocalMac s.env s.rd ip.mac)
    (hw : WellFormedPkt type payload) (hne : payload ≠ []) :
    Serves q s.env s.rd (dispatch q me now later s type payload.length).2 (NamesOncePkt me now later s type payload)
      (Taken me now later s type payload) := by
  unfold dispatch NamesOncePkt
  by_cases hdata : type = ptData
  · subst hdata
    rw [if_pos rfl]
    refine (recvData_serves ht hcon (le_trans (by decide) (hw.data rfl))).congr (fun _ => trivial) ?_
    simp [taken_iff, packetOp, show ¬ ptData = ptLinkGraph by decide, show ¬ ptData = ptProbeResp by decide]
  by_cases hgraph : type = ptLinkGraph
  · subst hgraph
    rw [if_neg hdata, if_pos rfl]
    refine (linkGraph_serves ht hcon (hw.linkGraph rfl) hw.fits).congr (fun h => h _ rfl) ?_
    simp [taken_iff, packetOp, hdata]
  by_cases hresp : type = ptProbeResp
  · subst hresp
    obtain ⟨ip, hip, hother⟩ := hpeer
    rw [if_neg hdata, if_neg hgraph, if_neg (by decide), if_neg (by decide), if_neg (by decide), if_pos rfl]
    refine (probeResp_serves ht hcon (hw.probe (Or.inr rfl)) hip hother).congr (fun h => h) ?_
    by_cases hseq : u16OfBytes payload = s.probeSeq
    · simp [taken_iff, packetOp, hdata, hgraph, hseq]
    · simp [taken_iff, packetOp, hdata, hgraph, hseq]
  -- the others are always taken
  have htaken : Taken me now later s type payload ↔ True := by
    simp [taken_iff, packetOp, hdata, hgraph, hresp]
  have hflush : Serves q s.env s.rd (recvFlush s payload.length).2 (NamesOncePkt me now later s type payload)
      (Taken me now later s type payload) := (recvFlush_serves ht hcon hne).congr (fun h => h) htaken
  rw [if_neg hdata, if_neg hgraph, if_neg hresp]
  split
  · exact hflush
  · split
    · exact hflush
    · split
      · rename_i hreq
        exact (probeReq_serves ht hcon (hw.probe (Or.inl hreq)) hsends).congr (fun h => h) htaken
      · exact hflush

/-- **When a well-formed packet makes `dp_recv_packet` return `0`.** -/
theorem dpRecvPacket_serves (ht : Thriving q s.env s.rd) (ha : Arrives me s type payload)
    (hw : WellFormedPkt type payload) (hne : payload ≠ []) :
    Serves q s.env s.rd (dpRecvPacket q me now later s).2 (NamesOncePkt me now later s type payload)
      (Taken me now later s type payload) := by
  obtain ⟨rest, broken, hcon⟩ := ha.con
  have hlen : (UInt16.ofNat payload.length).toNat = payload.length := UInt16.toNat_ofNat_of_lt' hw.fits
  unfold dpRecvPacket
  rw [hcon, dpRecvHeader_append]
  simp only [hlen]
  -- what the handler is given
  let s' : Peer := { s with con := ⟨payload ++ rest, broken⟩ }
  have ht' : Thriving q s'.env s'.rd := ht
  have hcon' : s'.con = ⟨payload ++ rest, broken⟩ := rfl
  refine (dispatch_serves ht' hcon' ha.sends ha.peer hw hne).congr (fun h => h) ?_
  rw [taken_iff, taken_iff]
  rfl

/-- A packet for which `dp_recv_packet` returns `0` leaves the thread in its loop. -/
theorem dpThPacket_zero {s' : Peer} (h : (dpRecvPacket q me now later s).2 = .ok (0, s')) (dps : Da Nat) :
    dpThPacket q me now later s dps = .ok (true, s', dps) := by
  unfold dpThPacket
  rw [h, ok_bind]
  rfl

/-! ## Runs -/

/-- The table, and the peers whom a packet has cost their connection. -/
structure PeerSys where
  rd : Routing
  lost : List Nat

namespace PeerSys

/-- The states in which connections come and go and frames from the tap are looked up, whatever the order and the
    arguments, and peers receive harmless packets. No batch of edges names a destination twice in a group that is
    merged, no frame is cut off, and no allocation fails. -/
inductive Run (q : Qsort) (env : ExtMem) : PeerSys → Prop
  | start {rd : Routing} (h : Started q env [] rd) : Run q env ⟨rd, []⟩
  | op {sys : PeerSys} {o : RtOp} {ret : Int} {rd' : Routing} (h : Run q env sys) (honce : o.NamesOnce env sys.rd)
      (hrun : o.run q env sys.rd = .ok (ret, rd')) : Run q env { sys with rd := rd' }
  | forward {sys : PeerSys} {srcMac dstMac : EtherAddr} {f : Forwards} {rd' : Routing} (h : Run q env sys)
      (hcut : ¬ CutOff env sys.rd srcMac dstMac)
      (hrun : sys.rd.rtDhostsToHost env srcMac dstMac = .ok (f, rd')) : Run q env { sys with rd := rd' }
  | packet {sys : PeerSys} {me : Nat} {now later : Timeval} {s s' : Peer} {type : PktType}
      {payload : List UInt8} {dps dps' : Da Nat} {stays : Bool} (h : Run q env sys) (henv : s.env = env)
      (hrd : s.rd = sys.rd) (ha : Arrives me s type payload) (hw : WellFormedPkt type payload)
      (hh : Harmless me now later s type payload)
      (hrun : dpThPacket q me now later s dps = .ok (stays, s', dps')) :
      Run q env ⟨s'.rd, if stays then sys.lost else me :: sys.lost⟩

variable {sys : PeerSys}

/-- **Run lemma.** -/
theorem Run.thriving (h : Run q env sys) : Thriving q env sys.rd ∧ sys.lost = [] := by
  induction h with
  | start h => exact ⟨.start h, rfl⟩
  | op _ honce hrun ih => exact ⟨ih.1.op honce hrun, ih.2⟩
  | forward _ _ hrun ih => exact ⟨ih.1.forward hrun, ih.2⟩
  | packet _ henv hrd ha hw hh hrun ih =>
      obtain ⟨ht, hlost⟩ := ih
      rw [← hrd, ← henv] at ht
      obtain ⟨s1, hrecv, hleaves⟩ := (dpRecvPacket_serves ht ha hw hh.nonempty).serves hh.toTaken
      rw [dpThPacket_zero hrecv] at hrun
      cases hrun
      exact ⟨henv ▸ hleaves.thriving, hlost⟩

end PeerSys

/-! ## Runs on fixed inputs -/

end P2pVn
