import P2pVn.DPeer.Alignment
import P2pVn.Pcon

/-!
# `DPeer.LinkGraph` — which link-graph packets `dp_read_pkt_link_graph` accepts

The function once more, with what `dpReadPktLinkGraph` of `DPeer.Receiving` leaves out: the caller may ask it to
populate the peer's MAC, and the hosts of every edge go to `pcon_connect`. `linkGraphCheck` is all that happens
before the loop over the edges, and says whether it is reached; `dpReadPktLinkGraph_peer` relates the whole
to the other definition.

`Discerning` is what the count field is there for: exactly the packets whose length fits their count are
processed, and the others are refused and leave no trace. `linkGraph_discerning_iff` says when that is so.
-/

namespace P2pVn
open CUb Bytes

/-! ## The function -/

/-- What the checks come to: an early exit, or the edges to be processed. -/
inductive LinkGraphCheck where
  | rejected (ret : Int)
  | edges (es : List PktEdge)
  deriving DecidableEq

/-- `memcpy(DP_MAC(dp)->addr, plink->vec_src_host.mac, ETH_ALEN)`. -/
def populateMac (env : ExtMem) (me : Nat) (plink : List UInt8) : ExtMem :=
  Function.update env (.dp me) ((env (.dp me)).map fun h =>
    { h with mac := (PktIpv4Host.ofBytes (plink.drop 2)).mac })

/-- `dp_read_pkt_link_graph` up to the loop over the edges. -/
def linkGraphCheck (me : Nat) (s : Peer) (len : Nat) (populate : Bool) : Ub (LinkGraphCheck × Peer) :=
  let (ok, rd) := s.rd.malloc
  let s := { s with rd := rd }
  if !ok then .ok (.rejected (-1), s)
  else
    let (r, plink, con) := s.con.recv len
    let s := { s with con := con }
    if r ≠ len then .ok (.rejected (-1), s)
    else if populate ∧ len < plLinkGraphStatic then .error .bufferOverread
    else
      let s := { s with env := if populate then populateMac s.env me plink else s.env }
      if len < 2 then .error .bufferOverread
      else
        let eCt := linkGraphECt len
        if eCt ≠ ntohs (u16OfBytes plink) then .ok (.rejected (-2), s)
        else if eCt ≠ 0 ∧ len < plLinkGraphStatic + plEdge * eCt.toNat then .error .bufferOverread
        else .ok (.edges (linkGraphEdges plink eCt.toNat), s)

/-- A peer thread with the list of attempts: the outcomes of the allocations for that list, and what the calls
    of `gettimeofday` in `pcon_connect` return. -/
structure Reader where
  peer : Peer
  pc : Pcon
  pcAllocs : AllocScript
  now : Nat → Timeval

/-- `pcon_connect` for each of the hosts, the `i`-th call at `now i`. -/
def pconConnects (q : Qsort) (now : Nat → Timeval) : List Ipv4Host → Pcon → AllocScript → Ub (Pcon × AllocScript)
  | [], pc, al => pure (pc, al)
  | h :: hs, pc, al => do
    let (_, pc, al) ← pconConnect q (now 0) h pc al
    pconConnects q (fun i => now (i + 1)) hs pc al

namespace Reader

/-- The loop over the edges, and the update of the table. -/
def processEdges (q : Qsort) (s : Reader) (es : List PktEdge) : Ub (Int × Reader) := do
  let hosts := connectAttempts es
  let (pc, al) ← pconConnects q s.now hosts s.pc s.pcAllocs
  let (ret, rd) ← s.peer.rd.rtUpdateEdges q s.peer.env es
  pure (ret, { peer := { s.peer with rd := rd, attempts := s.peer.attempts ++ hosts }
               pc := pc, pcAllocs := al, now := fun i => s.now (i + hosts.length) })

/-- `dp_read_pkt_link_graph`. -/
def dpReadPktLinkGraph (q : Qsort) (me : Nat) (s : Reader) (len : Nat) (populate : Bool) :
    Ub (Int × Reader) := do
  match ← linkGraphCheck me s.peer len populate with
  | (.rejected ret, peer) => pure (ret, { s with peer := peer })
  | (.edges es, peer) => processEdges q { s with peer := peer } es

end Reader

/-! ## The two definitions -/

theorem pconConnect_ok (q : Qsort) (now : Timeval) (host : Ipv4Host) (pc : Pcon) (al : AllocScript) :
    ∃ r, pconConnect q now host pc al = .ok r := by
  obtain ⟨fh, hf⟩ := pconSearch_ok host pc
  unfold pconConnect
  rw [hf, ok_bind]
  cases fh with
  | none => exact ⟨_, rfl⟩
  | some i =>
      obtain ⟨e, he, -⟩ := pconSearch_some hf
      simp only [pconCommit, he]
      split
      · exact ⟨_, rfl⟩
      · exact ⟨_, rfl⟩

theorem pconConnects_ok (q : Qsort) : ∀ (hs : List Ipv4Host) (now : Nat → Timeval) (pc : Pcon) (al : AllocScript),
    ∃ r, pconConnects q now hs pc al = .ok r := by
  intro hs
  induction hs with
  | nil => exact fun _ _ _ => ⟨_, rfl⟩
  | cons h hs ih =>
      intro now pc al
      obtain ⟨⟨ret, pc1, al1⟩, h1⟩ := pconConnect_ok q (now 0) h pc al
      unfold pconConnects
      rw [h1, ok_bind]
      exact ih _ pc1 al1

/-- The loop over the edges does to the peer what it does without the list. -/
theorem processEdges_peer (q : Qsort) (s : Reader) (es : List PktEdge) :
    (s.processEdges q es).map (fun out => (out.1, out.2.peer)) = (do
      let (ret, rd) ← s.peer.rd.rtUpdateEdges q s.peer.env es
      pure (ret, { s.peer with rd := rd, attempts := s.peer.attempts ++ connectAttempts es })) := by
  obtain ⟨⟨pc, al⟩, hp⟩ := pconConnects_ok q (connectAttempts es) s.now s.pc s.pcAllocs
  unfold Reader.processEdges
  simp only [hp, ok_bind]
  cases s.peer.rd.rtUpdateEdges q s.peer.env es with
  | error e => rfl
  | ok r => rfl

/-- **Without populating the MAC, the function does to the peer what `dp_recv_packet` has it do.** -/
theorem dpReadPktLinkGraph_peer (q : Qsort) (me : Nat) (s : Reader) (len : Nat) :
    (s.dpReadPktLinkGraph q me len false).map (fun out => (out.1, out.2.peer))
      = (dpReadPktLinkGraph q s.peer len).2 := by
  unfold Reader.dpReadPktLinkGraph linkGraphCheck P2pVn.dpReadPktLinkGraph
  obtain ⟨⟨ok, rd⟩, hm⟩ : ∃ x, s.peer.rd.malloc = x := ⟨_, rfl⟩
  simp only [hm, Bool.false_eq_true, false_and, if_false]
  cases ok with
  | false => rfl
  | true =>
      simp only [Bool.not_true, Bool.false_eq_true, if_false]
      by_cases hr : (s.peer.con.recv len).1 = len
      · simp only [hr, ne_eq, not_true_eq_false, if_false]
        by_cases h2 : len < 2
        · simp only [h2, if_true]
          rfl
        · simp only [h2, if_false]
          by_cases hect : linkGraphECt len = ntohs (u16OfBytes (s.peer.con.recv len).2.1)
          · simp only [hect, not_true_eq_false, if_false]
            -- the other definition has a branch of its own for a packet without edges
            by_cases h0 : ntohs (u16OfBytes (s.peer.con.recv len).2.1) = 0
            · simp only [h0, not_true_eq_false, false_and, if_false, if_true]
              have hnil : connectAttempts [] = [] := rfl
              have hrun := processEdges_peer q
                { s with peer := { s.peer with rd := rd, con := (s.peer.con.recv len).2.2 } } []
              simp only [hnil, List.append_nil] at hrun
              exact hrun
            · simp only [h0, not_false_eq_true, true_and, if_false]
              by_cases hreach : len < plLinkGraphStatic
                  + plEdge * (ntohs (u16OfBytes (s.peer.con.recv len).2.1)).toNat
              · simp only [hreach, if_true]
                rfl
              · simp only [hreach, if_false]
                exact processEdges_peer q
                  { s with peer := { s.peer with rd := rd, con := (s.peer.con.recv len).2.2 } } _
          · simp only [hect, not_false_eq_true, if_true]
            rfl
      · simp only [hr, ne_eq, not_false_eq_true, if_true]
        rfl

/-! ## Which packets are accepted -/

/-- The packet's `edge_ct` field. -/
def edgeCt (plink : List UInt8) : Nat := (ntohs (u16OfBytes plink)).toNat

/-- The length is that of the static fields and as many edges as the packet counts. -/
def WellFormed (len : Nat) (plink : List UInt8) : Prop := len = plLinkGraphStatic + plEdge * edgeCt plink

/-- Exactly the well-formed packets are processed, with exactly the edges they count. A packet that is not is
    refused, and remote host, list of attempts and table are as they were. -/
structure Discerning (q : Qsort) (me : Nat) (s : Reader) (len : Nat) (populate : Bool) : Prop where
  accepts : (∃ es p, linkGraphCheck me s.peer len populate = .ok (.edges es, p)) ↔
    WellFormed len (s.peer.con.bytes.take len)
  processes : ∀ es p, linkGraphCheck me s.peer len populate = .ok (.edges es, p) →
    es = linkGraphEdges (s.peer.con.bytes.take len) (edgeCt (s.peer.con.bytes.take len)) ∧
    s.dpReadPktLinkGraph q me len populate = Reader.processEdges q { s with peer := p } es
  rejects : ¬ WellFormed len (s.peer.con.bytes.take len) →
    ∃ ret s', s.dpReadPktLinkGraph q me len populate = .ok (ret, s') ∧ ret < 0 ∧
      s'.peer.env (.dp me) = s.peer.env (.dp me) ∧ s'.pc = s.pc ∧
      s'.peer.rd = { s.peer.rd with allocs := s'.peer.rd.allocs }

/-- The MAC that would be populated is the one that is there. -/
def SameMac (me : Nat) (env : ExtMem) (plink : List UInt8) : Prop :=
  ∀ h, env (.dp me) = some h → h.mac = (PktIpv4Host.ofBytes (plink.drop 2)).mac

/-- When the function tells well-formed packets from others: a well-formed one finds memory; another one does
    not, or is not had, or has room for the fields that are read and a count that is not the rounded one, and
    populates no MAC but the one that is there. -/
def LinkGraphTold (me : Nat) (s : Peer) (len : Nat) (populate : Bool) : Prop :=
  (WellFormed len (s.con.bytes.take len) ∧ s.mallocOk) ∨
  (¬ WellFormed len (s.con.bytes.take len) ∧
    (¬ s.mallocOk ∨ ¬ s.con.Has len ∨
      (2 ≤ len ∧ linkGraphECt len ≠ ntohs (u16OfBytes (s.con.bytes.take len)) ∧
        (populate = true → plLinkGraphStatic ≤ len ∧ SameMac me s.env (s.con.bytes.take len)))))

theorem populateMac_self (me : Nat) (env : ExtMem) (plink : List UInt8) :
    populateMac env me plink (.dp me) = env (.dp me) ↔ SameMac me env plink := by
  unfold populateMac SameMac
  rw [Function.update_self]
  cases env (.dp me) with
  | none => simp
  | some h =>
      simp only [Option.map_some, Option.some.injEq, forall_eq']
      constructor
      · intro he
        rw [← he]
      · intro he
        rw [← he]

section

variable {q : Qsort} {me : Nat} {s : Peer} {len : Nat} {populate : Bool} {rd : Routing}

/-- The peer once the payload is there. -/
def Peer.received (s : Peer) (me : Nat) (rd : Routing) (len : Nat) (populate : Bool) : Peer :=
  { s with
    rd := rd
    con := { s.con with bytes := s.con.bytes.drop len }
    env := if populate then populateMac s.env me (s.con.bytes.take len) else s.env }

/-- The checks, once there is memory and the payload is there. -/
theorem linkGraphCheck_received (hm : s.rd.malloc = (true, rd)) (hfull : s.con.Has len) :
    linkGraphCheck me s len populate =
      if populate ∧ len < plLinkGraphStatic then .error .bufferOverread
      else if len < 2 then .error .bufferOverread
      else if linkGraphECt len ≠ ntohs (u16OfBytes (s.con.bytes.take len)) then
        .ok (.rejected (-2), s.received me rd len populate)
      else if linkGraphECt len ≠ 0 ∧ len < plLinkGraphStatic + plEdge * (linkGraphECt len).toNat then
        .error .bufferOverread
      else .ok (.edges (linkGraphEdges (s.con.bytes.take len) (linkGraphECt len).toNat),
        s.received me rd len populate) := by
  unfold linkGraphCheck
  simp only [hm, Bool.not_true, Bool.false_eq_true, if_false, recv_full hfull, ne_eq, not_true_eq_false]
  rfl

theorem linkGraphCheck_broken (hm : s.rd.malloc = (true, rd)) (hnone : ¬ s.con.Has len) :
    linkGraphCheck me s len populate
      = .ok (.rejected (-1), { s with rd := rd, con := (s.con.recv len).2.2 }) := by
  unfold linkGraphCheck
  simp only [hm, Bool.not_true, Bool.false_eq_true, if_false, if_pos (mt (recv_eq_iff s.con len).mp hnone)]

/-- A well-formed packet has the count that its length is rounded to. -/
theorem WellFormed.eCt {plink : List UInt8} (h : WellFormed len plink) (hlen : len < 2 ^ 16) :
    plLinkGraphStatic ≤ len ∧ linkGraphECt len = ntohs (u16OfBytes plink) := by
  have hge : plLinkGraphStatic ≤ len := by
    unfold WellFormed at h
    omega
  refine ⟨hge, UInt16.toNat_inj.mp ?_⟩
  rw [linkGraphECt_toNat hge hlen]
  unfold WellFormed edgeCt at h
  have h36 : plEdge = 36 := rfl
  rw [h36] at h ⊢
  omega

/-- A well-formed packet for which there is memory is processed. -/
theorem linkGraphCheck_wellFormed (hm : s.rd.malloc = (true, rd)) (hfull : s.con.Has len)
    (hlen : len < 2 ^ 16) (hw : WellFormed len (s.con.bytes.take len)) :
    linkGraphCheck me s len populate = .ok (.edges (linkGraphEdges (s.con.bytes.take len)
      (edgeCt (s.con.bytes.take len))), s.received me rd len populate) := by
  obtain ⟨hge, hect⟩ := hw.eCt hlen
  have h14 : 14 ≤ len := hge
  have hfits := linkGraphECt_fits hge hlen
  rw [linkGraphCheck_received hm hfull, if_neg (fun h => absurd h.2 (Nat.not_lt.mpr hge)), if_neg (by omega),
    if_neg (fun h => h hect), if_neg (fun h => absurd h.2 (Nat.not_lt.mpr hfits)), hect]
  rfl

/-- A check that rejects a malformed packet and leaves remote host and table alone. -/
theorem discerning_of_rejected {q : Qsort} {s : Reader} {ret : Int} {p : Peer}
    (hcheck : linkGraphCheck me s.peer len populate = .ok (.rejected ret, p)) (hneg : ret < 0)
    (hw : ¬ WellFormed len (s.peer.con.bytes.take len)) (henv : p.env (.dp me) = s.peer.env (.dp me))
    (hrd : p.rd = { s.peer.rd with allocs := p.rd.allocs }) : Discerning q me s len populate where
  accepts := by
    refine ⟨?_, fun h => absurd h hw⟩
    rintro ⟨es, p', he⟩
    rw [hcheck] at he
    cases he
  processes es p' he := by
    rw [hcheck] at he
    cases he
  rejects _ := by
    refine ⟨ret, { s with peer := p }, ?_, hneg, henv, rfl, hrd⟩
    unfold Reader.dpReadPktLinkGraph
    rw [hcheck]
    rfl

/-- A well-formed packet for which there is memory is told from the others. -/
theorem discerning_of_wellFormed (q : Qsort) {s : Reader} (hm : s.peer.rd.malloc = (true, rd))
    (hfull : s.peer.con.Has len) (hlen : len < 2 ^ 16)
    (hw : WellFormed len (s.peer.con.bytes.take len)) : Discerning q me s len populate := by
  have hcheck : linkGraphCheck me s.peer len populate = .ok (.edges (linkGraphEdges _ _), _) :=
    linkGraphCheck_wellFormed hm hfull hlen hw
  refine ⟨⟨fun _ => hw, fun _ => ⟨_, _, hcheck⟩⟩, ?_, fun h => absurd hw h⟩
  intro es p he
  rw [hcheck] at he
  cases he
  refine ⟨rfl, ?_⟩
  unfold Reader.dpReadPktLinkGraph
  rw [hcheck]
  rfl

/-- A malformed packet that is told from the others is rejected by its count. -/
theorem Discerning.count {s : Reader} (h : Discerning q me s len populate) (hm : s.peer.rd.malloc = (true, rd))
    (hfull : s.peer.con.Has len) (hw : ¬ WellFormed len (s.peer.con.bytes.take len)) :
    2 ≤ len ∧ linkGraphECt len ≠ ntohs (u16OfBytes (s.peer.con.bytes.take len)) ∧
      (populate = true → plLinkGraphStatic ≤ len ∧ SameMac me s.peer.env (s.peer.con.bytes.take len)) := by
  have hcheck : linkGraphCheck me s.peer len populate = _ := linkGraphCheck_received hm hfull
  obtain ⟨ret, s', hrun, -, henv, -⟩ := h.rejects hw
  unfold Reader.dpReadPktLinkGraph at hrun
  rw [hcheck] at hrun
  by_cases hshort : populate = true ∧ len < plLinkGraphStatic
  · rw [if_pos hshort] at hrun
    cases hrun
  rw [if_neg hshort] at hrun hcheck
  by_cases h2 : len < 2
  · rw [if_pos h2] at hrun
    cases hrun
  rw [if_neg h2] at hrun hcheck
  by_cases hect : linkGraphECt len = ntohs (u16OfBytes (s.peer.con.bytes.take len))
  · -- the count is the rounded one: either the edges are not all there, or they are processed
    rw [if_neg (fun hne => hne hect)] at hrun hcheck
    by_cases hover : linkGraphECt len ≠ 0 ∧ len < plLinkGraphStatic + plEdge * (linkGraphECt len).toNat
    · rw [if_pos hover] at hrun
      cases hrun
    · rw [if_neg hover] at hcheck
      exact absurd (h.accepts.mp ⟨_, _, hcheck⟩) hw
  · rw [if_pos hect] at hrun
    cases hrun
    refine ⟨Nat.le_of_not_lt h2, hect, fun hp => ⟨Nat.le_of_not_lt fun hlt => hshort ⟨hp, hlt⟩, ?_⟩⟩
    rw [← populateMac_self]
    simpa only [Peer.received, hp, if_true] using henv

/-- **When the function tells well-formed packets from others.** -/
theorem linkGraph_discerning_iff (q : Qsort) (me : Nat) (s : Reader) (len : Nat) (populate : Bool)
    (hlen : len < 2 ^ 16) (hfull : len ≤ s.peer.con.bytes.length) :
    Discerning q me s len populate ↔ LinkGraphTold me s.peer len populate := by
  obtain ⟨⟨ok, rd⟩, hm⟩ : ∃ x, s.peer.rd.malloc = x := ⟨_, rfl⟩
  have hok : s.peer.mallocOk ↔ ok = true := by
    unfold Peer.mallocOk
    rw [hm]
  have hrd : rd = { s.peer.rd with allocs := rd.allocs } := by
    unfold Routing.malloc at hm
    cases hm
    rfl
  unfold LinkGraphTold
  rw [hok]
  cases ok with
  | false =>
      -- nothing is processed
      have hcheck : linkGraphCheck me s.peer len populate = .ok (.rejected (-1), { s.peer with rd := rd }) := by
        unfold linkGraphCheck
        simp only [hm, Bool.not_false, if_true]
      constructor
      · intro h
        refine Or.inr ⟨fun hw => ?_, Or.inl (by decide)⟩
        obtain ⟨es, p, he⟩ := h.accepts.mpr hw
        rw [hcheck] at he
        cases he
      · rintro (⟨-, h⟩ | ⟨hw, -⟩)
        · cases h
        · exact discerning_of_rejected hcheck (by decide) hw rfl hrd
  | true =>
      by_cases hhas : s.peer.con.Has len
      · by_cases hw : WellFormed len (s.peer.con.bytes.take len)
        · exact ⟨fun _ => Or.inl ⟨hw, rfl⟩, fun _ => discerning_of_wellFormed q hm hhas hlen hw⟩
        · refine ⟨fun h => Or.inr ⟨hw, Or.inr (Or.inr (h.count hm hhas hw))⟩, ?_⟩
          rintro (⟨h, -⟩ | ⟨-, h | h | ⟨h2, hect, hp⟩⟩)
          · exact absurd h hw
          · exact absurd rfl h
          · exact absurd hhas h
          · have hcheck : linkGraphCheck me s.peer len populate = _ := linkGraphCheck_received hm hhas
            rw [if_neg (fun h => absurd h.2 (Nat.not_lt.mpr (hp h.1).1)), if_neg (Nat.not_lt.mpr h2),
              if_pos hect] at hcheck
            refine discerning_of_rejected hcheck (by decide) hw ?_ hrd
            show (if populate then populateMac s.peer.env me _ else s.peer.env) (.dp me) = _
            cases populate with
            | false => rfl
            | true => exact (populateMac_self ..).mpr (hp rfl).2
      · -- nothing was asked for, and the connection broke behind the header
        have hw : ¬ WellFormed len (s.peer.con.bytes.take len) := fun hw =>
          hhas (Incoming.has_of_pos (Nat.lt_of_lt_of_le (by decide) (hw.eCt hlen).1) hfull)
        exact ⟨fun _ => Or.inr ⟨hw, Or.inr (Or.inl hhas)⟩,
          fun _ => discerning_of_rejected (linkGraphCheck_broken hm hhas) (by decide) hw rfl hrd⟩

/-- A link-graph packet that counts no edges, followed by one stray byte. -/
def strayByte : List UInt8 := u16Bytes 0 ++ List.replicate 13 0

/-- A reader that has just started, with `bytes` on its connection. -/
def sampleReader (bytes : List UInt8) : Reader := ⟨samplePeer bytes, pconInit, [], fun _ => ⟨0, 0⟩⟩

/-- **Fifteen bytes that count no edges are accepted.** -/
theorem strayByte_accepted : (∃ p, linkGraphCheck 0 (samplePeer strayByte) 15 false = .ok (.edges [], p)) ∧
    ¬ Discerning .insertion 0 (sampleReader strayByte) 15 false := by
  have hcheck : ∃ p, linkGraphCheck 0 (samplePeer strayByte) 15 false = .ok (.edges [], p) := ⟨_, rfl⟩
  refine ⟨hcheck, fun h => ?_⟩
  obtain ⟨p, hp⟩ := hcheck
  have hw : WellFormed 15 ((sampleReader strayByte).peer.con.bytes.take 15) := h.accepts.mp ⟨[], p, hp⟩
  exact absurd hw (by unfold WellFormed; decide)

/-- Two links of host `1`, and the packet that tells of them. -/
def toldEdges : List PktEdge :=
  let host (k : UInt8) : PktIpv4Host := pktIpv4Pack ⟨EtherAddr.ofBytes [2, 0, 0, 0, 0, k], ⟨afInet, 0, 0⟩⟩
  [⟨host 1, host 2, htonl 10, htonll 5⟩, ⟨host 1, host 3, htonl 20, htonll 5⟩]

def toldPacket : List UInt8 :=
  Write.payload sampleHost (.linkstate toldEdges)

/-- The packet is processed with both its edges, and the peer's MAC is populated; without its last edge it is
    refused. -/
theorem linkGraph_discerning_iff_sample : Discerning .insertion 0 (sampleReader toldPacket) 86 true ∧
    (∃ p, linkGraphCheck 0 (samplePeer toldPacket) 86 true = .ok (.edges toldEdges, p)) ∧
    Discerning .insertion 0 (sampleReader (toldPacket.take 50)) 50 false := by
  have htold : Discerning .insertion 0 (sampleReader toldPacket) 86 true :=
    (linkGraph_discerning_iff .insertion 0 (sampleReader toldPacket) 86 true (by decide) (by decide)).mpr
      (Or.inl ⟨by unfold WellFormed; decide, rfl⟩)
  refine ⟨htold, ?_, ?_⟩
  · obtain ⟨es, p, hcheck⟩ := htold.accepts.mpr (by unfold WellFormed; decide)
    obtain ⟨hes, -⟩ := htold.processes es p hcheck
    have hedges : es = toldEdges := hes.trans (by decide)
    exact ⟨p, hedges ▸ hcheck⟩
  · refine (linkGraph_discerning_iff .insertion 0 (sampleReader (toldPacket.take 50)) 50 false (by decide)
      (by decide)).mpr (Or.inr ⟨by unfold WellFormed; decide, Or.inr (Or.inr ⟨by decide, by decide, nofun⟩)⟩)

end

end P2pVn
