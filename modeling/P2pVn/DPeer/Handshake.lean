import P2pVn.DPeer.Packets
import P2pVn.DPeer.Threads
import P2pVn.Lib.Dialogue
import P2pVn.Routing.Relay

/-!
# `DPeer.Handshake` — two nodes that get to know each other

A node that connects (`dp_th_initial`, `dp_th_linkstate`) announces itself with a join packet and waits for a link
state; a node that is connected to (`dp_th_incoming`) waits for the join packet and answers with its link state.
Each function is its list of calls, as in `DPeer.Threads`, with what every call sends and receives byte by byte
(`Call.talk`). The calls on shared state may succeed or fail in any way, since other threads work on it in between.
`send` does not fail.

- **Calls.** `runs_dpSendJoin`, `runs_dpRecvHeader`, …: what each call does to the streams.
- **The link state.** `takeLinkGraph_payload`: the length of a packet is cut to 16 bits, and so is the count, so a
  link state of too many edges is refused, or is cut, or makes the receiver read beyond its buffer.
- **Handshakes.** `Enters` is the rule by which the calls are put together. `handshake_settles`: every interleaving
  has the same end, and who enters its main loop there. `handshake_agrees`: what is known at that point, and what is
  left on the streams.
-/

namespace P2pVn
open CUb Bytes Dialogue Ladder

/-! ## The calls, byte by byte -/

/-- One end of a handshake: its entry function, its own MAC and address, `remote_host` as the peer is created, what
    `rt_get_edges` hands out, the number of its first probe, whether there is memory for a link state, and which of
    the calls on shared state succeed. `dp_send_peer_linkstate` is one of them, which fails at `rt_get_edges`, before
    anything is sent. -/
structure End where
  entry : EntryPoint
  me : Ipv4Host
  known : Ipv4Host
  edges : List PktEdge
  seq : UInt16
  memory : Bool
  ok : Call → Bool

/-- What the thread has in hand: `remote_host`, the length in the last header, and the edges that it has passed to
    `rt_update_edges`. -/
structure Conn where
  remote : Ipv4Host
  pktLen : Nat
  edges : List PktEdge

/-- How an entry function ends: it goes on in `dp_th`, closes the connection, or runs into undefined behaviour. -/
inductive Outcome where
  | entered (c : Conn)
  | closed
  | faulted (f : Fault)

def Outcome.hangsUp : Outcome → Bool
  | .closed => true
  | _ => false

/-- The headers that an entry function goes on with. -/
def EntryPoint.expects : EntryPoint → PktType → UInt16 → Bool
  | .incoming, type, len => type = ptJoinPart ∧ len = UInt16.ofNat plJoin
  | _, type, _ => type = ptLinkGraph

/-- `dp_read_pkt_link_graph` with `populate_mac`, from the bytes that came to the call of `rt_update_edges`:
    `remote_host` and the edges, if it gets there. -/
def takeLinkGraph (remote : Ipv4Host) (len : Nat) (plink : List UInt8) : Ub (Option (Ipv4Host × List PktEdge)) :=
  if plink.length ≠ len then .ok none
  else if len < plLinkGraphStatic then .error .bufferOverread
  else
    let eCt := linkGraphECt len
    if eCt ≠ ntohs (u16OfBytes plink) then .ok none
    else if eCt ≠ 0 ∧ len < plLinkGraphStatic + plEdge * eCt.toNat then .error .bufferOverread
    else .ok (some ({ remote with mac := vecSrcMac plink }, linkGraphEdges plink eCt.toNat))

/-- What a call sends and receives, and what the thread has in hand afterwards if it succeeds. -/
def Call.talk (e : End) (c : Conn) : Call → Proc UInt8 (Ub (Option Conn))
  | .connectHost | .connectInet => .done (.ok (some c))
  | .dpSendJoin => .send (P2pVn.dpSendJoin ⟨[], []⟩ e.me.mac e.me.addrIn).2.sent (.done (.ok (some c)))
  | .dpRecvHeader => .recv plHeader fun bs => .done <|
      match (P2pVn.dpRecvHeader ⟨bs, false⟩).2.1 with
      | some (type, len) => .ok (if e.entry.expects type len then some { c with pktLen := len.toNat } else none)
      | none => .ok none
  | .dpHandleJoin => .recv plJoin fun bs => .done <|
      .ok ((P2pVn.dpHandleJoin ⟨bs, false⟩).2.1.map fun host => { c with remote := host })
  | .dpSendPeerLinkstate =>
      if e.ok .dpSendPeerLinkstate then
        .send (Packet.enc e.me (.linkstate e.edges)) (.done (.ok (some c)))
      else .done (.ok none)
  | .dpReadPktLinkGraph =>
      if e.memory then .recv c.pktLen fun bs => .done <| do
        match ← takeLinkGraph c.remote c.pktLen bs with
        | none => pure none
        | some (remote, edges) =>
          pure (if e.ok .dpReadPktLinkGraph then some { c with remote := remote, edges := edges } else none)
      else .done (.ok none)
  | .dpgInsert => .done (.ok (if e.ok .dpgInsert then some c else none))
  | .rtDhostAddLink => .done (.ok (if e.ok .rtDhostAddLink then some c else none))
  | .dpSendProbeReq => .send (Packet.enc e.me (.probeReq e.seq)) (.done (.ok (some c)))

/-- The rest of an entry function. -/
def handshake (e : End) : Script Call Undo → Conn → Proc UInt8 Outcome
  | [], c => .done (.entered c)
  | (call, _) :: todo, c => (call.talk e c).bind fun r =>
      match r with
      | .error f => .done (.faulted f)
      | .ok none => .done .closed
      | .ok (some c) => handshake e todo c

/-- The entry function. -/
def End.run (e : End) : Proc UInt8 Outcome :=
  handshake e e.entry.script ⟨e.entry.remoteHost e.known, 0, []⟩

/-- A node that connects and one that it is connected to, with nothing on the streams yet. -/
def meeting (a b : End) : Pair UInt8 Outcome := ⟨a.run, b.run, [], []⟩

/-! ## Agreement with the thread model -/

/-- What `DPeer.Threads` says of `dp_read_pkt_link_graph` goes through the same checks. -/
theorem readPktLinkGraph_takes {q : Qsort} {s : Shared} {d : Nat} {i : Input} {remote : Ipv4Host}
    {plink : List UInt8} (hhost : s.env (.dp d) = some remote) (hi : i.plink = some plink) :
    s.readPktLinkGraph q d i true = (do
      match ← takeLinkGraph remote plink.length plink with
      | none => pure (-2, s.setHost d { remote with mac := vecSrcMac plink })
      | some (host, edges) => (s.setHost d host).updateEdges q i edges) := by
  have hip : Routing.ipOf s.env (.env (.dp d)) = .ok remote := Routing.ipOf_eq_ok.mpr hhost
  unfold takeLinkGraph Shared.readPktLinkGraph Shared.populate Shared.readEdges
  simp only [hi, if_true, hip, ok_bind, pure_eq_ok, ne_eq, not_true_eq_false, if_false]
  by_cases hshort : plink.length < plLinkGraphStatic
  · simp only [hshort, if_true]
    rfl
  · simp only [hshort, if_false]
    by_cases hect : linkGraphECt plink.length = ntohs (u16OfBytes plink)
    · simp only [hect, not_true_eq_false, if_false]
      split
      · rfl
      · rfl
    · simp only [hect, not_false_eq_true, if_true]
      rfl

/-! ## The first link state -/

/-- The length that the header of a link state names. -/
def namedLen (edges : List PktEdge) : Nat := (UInt16.ofNat (plEdge * edges.length + plLinkGraphStatic)).toNat

/-- The number of edges that its count field names. -/
def namedCt (edges : List PktEdge) : Nat := edges.length % 2 ^ 16

section Payload

variable {me : Ipv4Host} {edges : List PktEdge}

theorem length_payload_take : ((Write.payload me (.linkstate edges)).take (namedLen edges)).length = namedLen edges := by
  rw [List.length_take, length_linkstate, namedLen, UInt16.toNat_ofNat']
  exact Nat.min_eq_left (Nat.mod_le _ _)

/-- **If the count is not too large, the receiver gets a link state of the first edges.** -/
theorem payload_take (h : namedCt edges ≤ 1820) : (Write.payload me (.linkstate edges)).take (namedLen edges)
    = Write.payload me (.linkstate (edges.take (namedCt edges))) := by
  have hct : (edges.take (namedCt edges)).length = namedCt edges := by
    rw [List.length_take]
    exact Nat.min_eq_left (Nat.mod_le _ _)
  have hlen : namedLen edges = plEdge * namedCt edges + plLinkGraphStatic := by
    unfold namedCt at h ⊢
    rw [namedLen, UInt16.toNat_ofNat']
    simp only [plEdge, plHost, plLinkGraphStatic]
    omega
  -- the count field cannot tell the two numbers of edges apart
  have hstatic : linkGraphStatic me edges.length = linkGraphStatic me (edges.take (namedCt edges)).length := by
    have hof : UInt16.ofNat edges.length = UInt16.ofNat (namedCt edges) := by
      apply UInt16.toNat_inj.mp
      rw [UInt16.toNat_ofNat', UInt16.toNat_ofNat', namedCt, Nat.mod_mod]
    unfold linkGraphStatic
    rw [hct, hof]
  have hsplit : Write.payload me (.linkstate edges) = Write.payload me (.linkstate (edges.take (namedCt edges)))
      ++ (edges.drop (namedCt edges)).flatMap PktEdge.bytes := by
    show linkGraphStatic me edges.length ++ edges.flatMap PktEdge.bytes = linkGraphStatic me _ ++ _ ++ _
    rw [← hstatic, List.append_assoc, ← List.flatMap_append, List.take_append_drop]
  rw [hsplit]
  apply List.take_left'
  rw [length_linkstate, hct, hlen]

theorem vecSrcMac_payload (rest : List UInt8) : vecSrcMac (linkGraphStatic me edges.length ++ rest) = me.mac := by
  unfold vecSrcMac linkGraphStatic
  rw [List.append_assoc, List.drop_left' (length_u16Bytes _), PktIpv4Host.ofBytes_append]
  exact pktIpv4Pack_mac me

theorem edgeCt_payload_take (h : 2 ≤ namedLen edges) :
    (ntohs (u16OfBytes ((Write.payload me (.linkstate edges)).take (namedLen edges)))).toNat = namedCt edges := by
  obtain ⟨k, hk⟩ := Nat.exists_eq_add_of_le h
  have hct := length_u16Bytes (htons (UInt16.ofNat edges.length))
  have htake : ∀ rest : List UInt8, (u16Bytes (htons (UInt16.ofNat edges.length)) ++ rest).take (2 + k)
      = u16Bytes (htons (UInt16.ofNat edges.length)) ++ rest.take k := by
    intro rest
    rw [List.take_append, hct, List.take_of_length_le (by omega), Nat.add_sub_cancel_left]
  rw [hk, Write.payload, linkGraphStatic, List.append_assoc, htake, u16OfBytes_append, ntohs_htons,
    UInt16.toNat_ofNat']
  rfl

/-- The checks, with a link state of a number of edges that fits. -/
theorem takeLinkGraph_fits (me remote : Ipv4Host) (h : edges.length ≤ 1820) :
    takeLinkGraph remote (Write.payload me (.linkstate edges)).length (Write.payload me (.linkstate edges))
      = .ok (some ({ remote with mac := me.mac }, edges)) := by
  have hw := wellFormedPkt_linkstate me h
  obtain ⟨hge, hect⟩ := (hw.linkGraph rfl).eCt hw.fits
  have hreach := linkGraphECt_fits hge hw.fits
  have hedges : linkGraphEdges (Write.payload me (.linkstate edges))
      (linkGraphECt (Write.payload me (.linkstate edges)).length).toNat = edges := by
    rw [hect]
    exact packetEdges_payload me h
  have hmac : vecSrcMac (Write.payload me (.linkstate edges)) = me.mac := vecSrcMac_payload _
  unfold takeLinkGraph
  rw [if_neg (fun hne => hne rfl), if_neg (Nat.not_lt.mpr hge)]
  simp only [hedges, hmac]
  rw [if_neg (fun hne => hne hect), if_neg (fun hover => absurd hover.2 (Nat.not_lt.mpr hreach))]

/-- **What becomes of a link state of any number of edges.** -/
theorem takeLinkGraph_payload (remote : Ipv4Host) :
    takeLinkGraph remote (namedLen edges) ((Write.payload me (.linkstate edges)).take (namedLen edges))
      = if namedCt edges ≤ 1820 then .ok (some ({ remote with mac := me.mac }, edges.take (namedCt edges)))
        else if namedLen edges < plLinkGraphStatic then .error .bufferOverread
        else .ok none := by
  by_cases h : namedCt edges ≤ 1820
  · rw [if_pos h]
    have hle : (edges.take (namedCt edges)).length ≤ 1820 := by
      rw [List.length_take]
      omega
    have hfits := takeLinkGraph_fits me remote hle
    rw [← payload_take h, length_payload_take] at hfits
    exact hfits
  · rw [if_neg h]
    unfold takeLinkGraph
    simp only [length_payload_take, ne_eq, not_true_eq_false, if_false]
    by_cases hshort : namedLen edges < plLinkGraphStatic
    · rw [if_pos hshort, if_pos hshort]
    · rw [if_neg hshort, if_neg hshort, if_pos]
      -- no length of 16 bits has room for so many edges
      have hge : plLinkGraphStatic ≤ namedLen edges := Nat.le_of_not_lt hshort
      have hlt : namedLen edges < 2 ^ 16 := UInt16.toNat_lt _
      intro hect
      have hct := congrArg UInt16.toNat hect
      rw [linkGraphECt_toNat hge hlt, edgeCt_payload_take (le_trans (by decide) hge)] at hct
      simp only [plEdge, plHost, plLinkGraphStatic] at hct
      omega

end Payload

/-! ## The rule for handshakes -/

/-- Party `p`, which finds `x` on its stream and has `y` on the other's, comes to an end. It enters its main loop if
    and only if `P`, and `R` holds of its outcome and of the two streams. -/
def Enters (q p : Proc UInt8 Outcome) (x y : List UInt8) (P : Prop)
    (R : Outcome → List UInt8 → List UInt8 → Prop) : Prop :=
  ∃ o x' y', Runs Outcome.hangsUp ⟨p, q, x, y⟩ ⟨.done o, q, x', y'⟩ ∧ ((∃ c, o = .entered c) ↔ P) ∧ R o x' y'

section Rules

variable {e : End} {c : Conn} {ladder : List Undo} {todo : Script Call Undo} {q p p' : Proc UInt8 Outcome}
  {x x' y y' : List UInt8} {P P' : Prop} {R : Outcome → List UInt8 → List UInt8 → Prop}

theorem Enters.after (hrun : Runs Outcome.hangsUp ⟨p, q, x, y⟩ ⟨p', q, x', y'⟩) (h : Enters q p' x' y' P R) :
    Enters q p x y P R := by
  obtain ⟨o, x2, y2, h2, hP, hR⟩ := h
  exact ⟨o, x2, y2, hrun.trans h2, hP, hR⟩

theorem Enters.iff (h : Enters q p x y P R) (hP : P ↔ P') : Enters q p x y P' R := by
  obtain ⟨o, x2, y2, h2, ho, hR⟩ := h
  exact ⟨o, x2, y2, h2, ho.trans hP, hR⟩

theorem Enters.end (hR : R (.entered c) x y) : Enters q (handshake e [] c) x y True R :=
  ⟨.entered c, x, y, Runs.refl, iff_true_intro ⟨c, rfl⟩, hR⟩

theorem Enters.not {o : Outcome} (ho : ∀ c, o ≠ .entered c) (hP : ¬ P) (hR : R o x y) :
    Enters q (.done o) x y P R := by
  refine ⟨o, x, y, Runs.refl, ⟨?_, fun h => absurd h hP⟩, hR⟩
  rintro ⟨c, hc⟩
  exact absurd hc (ho c)

/-- A call on shared state only. -/
theorem Enters.asks {call : Call}
    (htalk : call.talk e c = .done (.ok (if e.ok call then some c else none)))
    (hR : R .closed x y) (h : Enters q (handshake e todo c) x y P R) :
    Enters q (handshake e ((call, ladder) :: todo) c) x y (e.ok call ∧ P) R := by
  unfold handshake
  rw [htalk]
  by_cases hok : e.ok call = true
  · simp only [hok, if_true, Proc.bind]
    exact h.iff (by simp)
  · simp only [hok, Bool.false_eq_true, if_false, Proc.bind]
    exact .not nofun (by simp) hR

/-- A call that sends a packet. -/
theorem Enters.sends {call : Call} {bs : List UInt8} (htalk : call.talk e c = .send bs (.done (.ok (some c))))
    (h : Enters q (handshake e todo c) x (y ++ bs) P R) :
    Enters q (handshake e ((call, ladder) :: todo) c) x y P R := by
  unfold handshake
  rw [htalk]
  exact .after (runs_send bs) h

/-- **`dp_send_peer_linkstate`**, which asks for the edges first. -/
theorem Enters.dpSendPeerLinkstate (hR : e.ok .dpSendPeerLinkstate = false → R .closed x y)
    (h : e.ok .dpSendPeerLinkstate = true →
      Enters q (handshake e todo c) x (y ++ Packet.enc e.me (.linkstate e.edges)) P R) :
    Enters q (handshake e ((.dpSendPeerLinkstate, ladder) :: todo) c) x y (e.ok .dpSendPeerLinkstate ∧ P) R := by
  by_cases hok : e.ok .dpSendPeerLinkstate = true
  · have htalk : Call.talk e c .dpSendPeerLinkstate
        = .send (Packet.enc e.me (.linkstate e.edges)) (.done (.ok (some c))) := if_pos hok
    exact (Enters.sends htalk (h hok)).iff (by simp [hok])
  · unfold handshake Call.talk
    rw [if_neg hok]
    exact .not nofun (fun h => hok h.1) (hR (by simpa using hok))

/-- **`dp_recv_header`**, with a header on the stream. -/
theorem Enters.dpRecvHeader {type : PktType} {len : UInt16} (hexp : e.entry.expects type len = true)
    (h : Enters q (handshake e todo { c with pktLen := len.toNat }) x y P R) :
    Enters q (handshake e ((.dpRecvHeader, ladder) :: todo) c) (headerBytes type len ++ x) y P R := by
  have hread : P2pVn.dpRecvHeader ⟨headerBytes type len, false⟩ = (0, some (type, len), ⟨[], false⟩) := by
    have := dpRecvHeader_append type len [] false
    rwa [List.append_nil] at this
  unfold handshake
  apply Enters.after (runs_recv (length_headerBytes type len))
  simp only [hread, hexp, if_true, Proc.bind]
  exact h

/-- **`dp_recv_header`**, when the other has hung up before a header was there. -/
theorem Enters.hungUp {o : Outcome} (ho : o.hangsUp = true) (hP : ¬ P) (hR : R .closed [] y) :
    Enters (.done o) (handshake e ((.dpRecvHeader, ladder) :: todo) c) [] y P R := by
  unfold handshake
  apply Enters.after (runs_short (by decide) ho)
  exact .not nofun hP hR

/-- **`dp_handle_join`**, with a join packet on the stream. -/
theorem Enters.dpHandleJoin {me : Ipv4Host} (h : ∀ host, Routing.SameHost host me →
      Enters q (handshake e todo { c with remote := host }) x y P R) :
    Enters q (handshake e ((.dpHandleJoin, ladder) :: todo) c) ((joiningHost me.mac me.addrIn).bytes ++ x) y P R := by
  obtain ⟨host, hread, hsame⟩ := Routing.dpHandleJoin_joiningHost me.mac me.addrIn [] false
  rw [List.append_nil] at hread
  unfold handshake
  apply Enters.after (runs_recv (PktIpv4Host.length_bytes _))
  simp only [hread, Option.map_some, Proc.bind]
  exact h host hsame

/-- **`dp_read_pkt_link_graph`**, with a link state on the stream whose header was read. -/
theorem Enters.dpReadPktLinkGraph {me : Ipv4Host} {edges : List PktEdge} (hlen : c.pktLen = namedLen edges)
    (hR : ∀ o x', (∀ c, o ≠ .entered c) → R o x' y)
    (h : Enters q (handshake e todo { c with
        remote := { c.remote with mac := me.mac }, edges := edges.take (namedCt edges) })
      ((Write.payload me (.linkstate edges)).drop (namedLen edges)) y P R) :
    Enters q (handshake e ((.dpReadPktLinkGraph, ladder) :: todo) c) (Write.payload me (.linkstate edges)) y
      (namedCt edges ≤ 1820 ∧ e.memory ∧ e.ok .dpReadPktLinkGraph ∧ P) R := by
  by_cases hm : e.memory = true
  · have hsplit := List.take_append_drop (namedLen edges) (Write.payload me (.linkstate edges))
    rw [← hsplit]
    unfold handshake Call.talk
    rw [if_pos hm]
    apply Enters.after (runs_recv (length_payload_take.trans hlen.symm))
    simp only [hlen] at h ⊢
    rw [takeLinkGraph_payload]
    by_cases hct : namedCt edges ≤ 1820
    · rw [if_pos hct]
      by_cases hok : e.ok .dpReadPktLinkGraph = true
      · simp only [ok_bind, pure_eq_ok, hok, if_true, Proc.bind]
        exact h.iff (by simp [hct, hm])
      · simp only [ok_bind, pure_eq_ok, hok, Bool.false_eq_true, if_false, Proc.bind]
        exact .not nofun (by simp) (hR _ _ nofun)
    · rw [if_neg hct]
      by_cases hshort : namedLen edges < plLinkGraphStatic
      · simp only [hshort, if_true, error_bind, Proc.bind]
        exact .not nofun (fun h => hct h.1) (hR _ _ nofun)
      · simp only [hshort, if_false, ok_bind, pure_eq_ok, Proc.bind]
        exact .not nofun (fun h => hct h.1) (hR _ _ nofun)
  · unfold handshake Call.talk
    rw [if_neg hm]
    exact .not nofun (fun h => hm h.2.1) (hR _ _ nofun)

end Rules

/-! ## The two ends -/

/-- The calls on shared state that the entry function makes all succeed. -/
def End.Served (e : End) : Prop :=
  match e.entry with
  | .incoming => e.ok .dpSendPeerLinkstate ∧ e.ok .dpgInsert ∧ e.ok .rtDhostAddLink
  | _ => e.memory ∧ e.ok .dpReadPktLinkGraph ∧ e.ok .dpgInsert ∧ e.ok .rtDhostAddLink

/-- The bytes of a join packet. -/
theorem dpSendJoin_sent (mac : EtherAddr) (sai : SockaddrIn) : (dpSendJoin ⟨[], []⟩ mac sai).2.sent
    = headerBytes ptJoin (UInt16.ofNat plJoin) ++ (joiningHost mac sai).bytes := by
  obtain ⟨sends', -, hsend⟩ := dpSendPacket_ok (o := ⟨[], []⟩) (show NoErrors [] from nofun) ptJoin
    (UInt16.ofNat plJoin) (joiningHost mac sai).bytes
  have htake : (joiningHost mac sai).bytes.take (UInt16.ofNat plJoin).toNat = (joiningHost mac sai).bytes :=
    List.take_of_length_le (Nat.le_of_eq (PktIpv4Host.length_bytes _))
  unfold dpSendJoin
  rw [hsend, htake]
  rfl

/-- The bytes of a link state. -/
theorem linkstate_enc (me : Ipv4Host) (edges : List PktEdge) : Packet.enc me (.linkstate edges)
    = headerBytes ptLinkGraph (UInt16.ofNat (plEdge * edges.length + plLinkGraphStatic))
      ++ Write.payload me (.linkstate edges) := by
  have hw : (Write.linkstate edges).Sized := trivial
  have h := Write.frame_eq me hw
  rw [length_linkstate] at h
  exact h

variable {a b : End} {q : Proc UInt8 Outcome} {y : List UInt8}

/-- **The node that is connected to**, with the join packet on its stream. -/
theorem incoming_enters (hb : b.entry = .incoming) (me : Ipv4Host) :
    Enters q b.run (dpSendJoin ⟨[], []⟩ me.mac me.addrIn).2.sent y b.Served fun o x' y' =>
      x' = [] ∧ (b.ok .dpSendPeerLinkstate = true → y' = y ++ Packet.enc b.me (.linkstate b.edges)) ∧
      (b.ok .dpSendPeerLinkstate = false → o.hangsUp = true ∧ y' = y) ∧
      ∀ c, o = .entered c → Routing.SameHost c.remote me := by
  have hserved : b.ok .dpSendPeerLinkstate ∧ b.ok .dpgInsert ∧ b.ok .rtDhostAddLink ∧ True ↔ b.Served := by
    unfold End.Served
    rw [hb, and_true]
  refine Enters.iff ?_ hserved
  unfold End.run
  rw [hb, dpSendJoin_sent, ← List.append_nil (joiningHost me.mac me.addrIn).bytes]
  apply Enters.dpRecvHeader (by rw [hb]; decide)
  apply Enters.dpHandleJoin
  intro host hsame
  apply Enters.dpSendPeerLinkstate
  · exact fun hok => ⟨rfl, fun h => absurd (hok.symm.trans h) (by decide), fun _ => ⟨rfl, rfl⟩, nofun⟩
  · intro hok
    have hno : ¬ b.ok .dpSendPeerLinkstate = false := by
      rw [hok]
      decide
    apply Enters.asks rfl ⟨rfl, fun _ => rfl, fun h => absurd h hno, nofun⟩
    apply Enters.asks rfl ⟨rfl, fun _ => rfl, fun h => absurd h hno, nofun⟩
    apply Enters.end
    refine ⟨rfl, fun _ => rfl, fun h => absurd h hno, ?_⟩
    rintro c hc
    cases hc
    exact hsame

/-- What a node that has connected and entered its loop has in hand, and what is left on the streams. -/
structure Met (a b : End) (c : Conn) (toHere toThere : List UInt8) : Prop where
  mac : c.remote.mac = b.me.mac
  edges : c.edges = b.edges.take (namedCt b.edges)
  toHere : toHere = (Write.payload b.me (.linkstate b.edges)).drop (namedLen b.edges)
  toThere : toThere = Packet.enc a.me (.probeReq a.seq)

/-- What a node that connects does once it has announced itself. -/
def End.awaits (a : End) : Proc UInt8 Outcome :=
  handshake a (a.entry.script.drop 2) ⟨a.entry.remoteHost a.known, 0, []⟩

/-- **The node that connects** announces itself first. -/
theorem connects (ha : a.entry ≠ .incoming) (x y : List UInt8) : Runs Outcome.hangsUp ⟨a.run, q, x, y⟩
    ⟨a.awaits, q, x, y ++ (dpSendJoin ⟨[], []⟩ a.me.mac a.me.addrIn).2.sent⟩ := by
  unfold End.run End.awaits
  cases hentry : a.entry with
  | incoming => exact absurd hentry ha
  | initial => exact runs_send _
  | linkstate => exact runs_send _

/-- **The node that connects**, with the answer on its stream. -/
theorem answered_enters (ha : a.entry ≠ .incoming) (b : End) :
    Enters q a.awaits (Packet.enc b.me (.linkstate b.edges)) [] (namedCt b.edges ≤ 1820 ∧ a.Served)
      fun o x' y' => ∀ c, o = .entered c → Met a b c x' y' := by
  unfold End.awaits
  rw [linkstate_enc]
  cases hentry : a.entry with
  | incoming => exact absurd hentry ha
  | initial =>
      have hserved : (namedCt b.edges ≤ 1820 ∧ a.memory ∧ a.ok .dpReadPktLinkGraph ∧ a.ok .dpgInsert ∧
          a.ok .rtDhostAddLink ∧ True) ↔ namedCt b.edges ≤ 1820 ∧ a.Served := by
        unfold End.Served
        rw [hentry, and_true]
      refine Enters.iff ?_ hserved
      apply Enters.dpRecvHeader (by rw [hentry]; rfl)
      apply Enters.dpReadPktLinkGraph rfl (fun o _ ho c hc => absurd hc (ho c))
      apply Enters.asks rfl nofun
      apply Enters.asks rfl nofun
      apply Enters.sends rfl
      apply Enters.end
      rintro c hc
      cases hc
      exact ⟨rfl, rfl, rfl, List.nil_append _⟩
  | linkstate =>
      have hserved : (a.ok .rtDhostAddLink ∧ namedCt b.edges ≤ 1820 ∧ a.memory ∧ a.ok .dpReadPktLinkGraph ∧
          a.ok .dpgInsert ∧ True) ↔ namedCt b.edges ≤ 1820 ∧ a.Served := by
        unfold End.Served
        rw [hentry]
        tauto
      refine Enters.iff ?_ hserved
      apply Enters.dpRecvHeader (by rw [hentry]; rfl)
      apply Enters.asks rfl nofun
      apply Enters.dpReadPktLinkGraph rfl (fun o _ ho c hc => absurd hc (ho c))
      apply Enters.asks rfl nofun
      apply Enters.sends rfl
      apply Enters.end
      rintro c hc
      cases hc
      exact ⟨rfl, rfl, rfl, List.nil_append _⟩

/-- **The node that connects**, when the other hangs up without an answer. -/
theorem unanswered_enters (ha : a.entry ≠ .incoming) {o : Outcome} (ho : o.hangsUp = true) :
    Enters (.done o) a.awaits [] y False fun o _ _ => ∀ c, o ≠ .entered c := by
  unfold End.awaits
  cases hentry : a.entry with
  | incoming => exact absurd hentry ha
  | initial => exact Enters.hungUp ho not_false nofun
  | linkstate => exact Enters.hungUp ho not_false nofun

/-! ## Handshakes -/

/-- How a handshake ends. The node that connects enters its main loop if and only if the other has answered, with a
    number of edges of which at most `1820` are counted, and its own calls have succeeded; the other one enters its
    loop if its calls have succeeded. -/
structure HandshakeEnds (a b : End) (oa ob : Outcome) (x y : List UInt8) : Prop where
  here : (∃ c, oa = .entered c) ↔ b.ok .dpSendPeerLinkstate ∧ namedCt b.edges ≤ 1820 ∧ a.Served
  there : (∃ c, ob = .entered c) ↔ b.Served
  met : ∀ c, oa = .entered c → Met a b c x y
  known : ∀ c, ob = .entered c → Routing.SameHost c.remote a.me

/-- One interleaving: the node that is connected to goes through its handshake as soon as the join packet is there. -/
theorem handshake_runs (ha : a.entry ≠ .incoming) (hb : b.entry = .incoming) :
    ∃ oa ob x y, Runs Outcome.hangsUp (meeting a b) ⟨.done oa, .done ob, x, y⟩ ∧ HandshakeEnds a b oa ob x y := by
  have h1 : Runs Outcome.hangsUp (meeting a b) ⟨a.awaits, b.run, [], _⟩ := connects ha [] []
  obtain ⟨ob, xb, yb, h2, hob, rfl, hanswer, hnone, hknown⟩ := incoming_enters (q := a.awaits) (y := []) hb a.me
  rw [List.nil_append] at h1
  have h12 : Runs Outcome.hangsUp (meeting a b) ⟨a.awaits, .done ob, yb, []⟩ := h1.trans h2.swap
  by_cases hok : b.ok .dpSendPeerLinkstate = true
  · have hyb := hanswer hok
    rw [List.nil_append] at hyb
    obtain ⟨oa, x, y, h3, hoa, hmet⟩ := answered_enters (q := .done ob) ha b
    rw [← hyb] at h3
    refine ⟨oa, ob, x, y, h12.trans h3, ⟨?_, hob, hmet, hknown⟩⟩
    rw [hoa]
    simp only [hok, true_and]
  · obtain ⟨hup, hyb⟩ := hnone (by simpa using hok)
    obtain ⟨oa, x, y, h3, hoa, hnot⟩ := unanswered_enters (y := []) ha hup
    rw [hyb] at h12
    refine ⟨oa, ob, x, y, h12.trans h3, ⟨?_, hob, fun c hc => absurd hc (hnot c), hknown⟩⟩
    rw [hoa]
    simp only [hok, false_and, Bool.false_eq_true]

/-- **Every handshake ends, in the same way whatever the timing.** However the steps of the two nodes interleave, and
    however their bytes are delayed, a run is no longer than `n` steps and goes on to one and the same end. -/
theorem handshake_settles (a b : End) (ha : a.entry ≠ .incoming) (hb : b.entry = .incoming) :
    ∃ n oa ob x y, HandshakeEnds a b oa ob x y ∧
      ∀ m s, Steps (Step Outcome.hangsUp) m (meeting a b) s →
        ∃ k, n = m + k ∧ Steps (Step Outcome.hangsUp) k s ⟨.done oa, .done ob, x, y⟩ := by
  obtain ⟨oa, ob, x, y, ⟨n, hn⟩, hends⟩ := handshake_runs ha hb
  exact ⟨n, oa, ob, x, y, hends, fun m s hm => settles hn hm⟩

/-- An end at host `i` of the line, with one edge to hand out, whose calls all succeed. -/
def lineEnd (entry : EntryPoint) (i : UInt8) : End where
  entry := entry
  me := Routing.lineHost i
  known := Routing.lineHost 9
  edges := [Routing.packEdge (Routing.lineHost 1) (Routing.lineHost 2) 10 5]
  seq := 7
  memory := true
  ok := fun _ => true

/-- Host `0` connects to host `1`: both enter their loops. -/
theorem handshake_settles_line : ∃ n ca cb x y,
    HandshakeEnds (lineEnd .initial 0) (lineEnd .incoming 1) (.entered ca) (.entered cb) x y ∧
      ∀ m s, Steps (Step Outcome.hangsUp) m (meeting (lineEnd .initial 0) (lineEnd .incoming 1)) s →
        ∃ k, n = m + k ∧ Steps (Step Outcome.hangsUp) k s ⟨.done (.entered ca), .done (.entered cb), x, y⟩ := by
  obtain ⟨n, oa, ob, x, y, hends, hall⟩ :=
    handshake_settles (lineEnd .initial 0) (lineEnd .incoming 1) (by decide) (by decide)
  obtain ⟨ca, rfl⟩ := hends.here.mpr ⟨rfl, by decide, rfl, rfl, rfl, rfl⟩
  obtain ⟨cb, rfl⟩ := hends.there.mpr ⟨rfl, rfl, rfl⟩
  exact ⟨n, ca, cb, x, y, hends, hall⟩

/-- **Two nodes that have entered their loops know each other.** In every run in which both have: each has the other's
    MAC, and the one that was connected to has the other's address; what is left of the link state on its stream is
    nothing if and only if it had at most `1820` edges, and then the table was given all of them. -/
theorem handshake_agrees (a b : End) (ha : a.entry ≠ .incoming) (hb : b.entry = .incoming) {m : Nat} {ca cb : Conn}
    {x y : List UInt8} (hrun : Steps (Step Outcome.hangsUp) m (meeting a b)
      ⟨.done (.entered ca), .done (.entered cb), x, y⟩) :
    ca.remote.mac = b.me.mac ∧ Routing.SameHost cb.remote a.me ∧ y = Packet.enc a.me (.probeReq a.seq) ∧
      (x = [] ↔ b.edges.length ≤ 1820) ∧ (x = [] → ca.edges = b.edges) := by
  obtain ⟨oa, ob, x', y', ⟨n, hn⟩, hends⟩ := handshake_runs ha hb
  obtain ⟨k, -, hk⟩ := settles hn hrun
  -- both are done, so this is the end
  cases hk.eq_of_end not_step_of_done
  have hmet := hends.met ca rfl
  have hfit : x = [] ↔ b.edges.length ≤ 1820 := by
    rw [hmet.toHere, List.drop_eq_nil_iff, length_linkstate, namedLen, UInt16.toNat_ofNat']
    simp only [plEdge, plHost, plLinkGraphStatic]
    omega
  refine ⟨hmet.mac, hends.known cb rfl, hmet.toThere, hfit, fun hx => ?_⟩
  rw [hmet.edges, namedCt, Nat.mod_eq_of_lt (Nat.lt_of_le_of_lt (hfit.mp hx) (by decide))]
  exact List.take_length

theorem handshake_agrees_line : ∃ m ca cb y, Steps (Step Outcome.hangsUp) m
      (meeting (lineEnd .linkstate 0) (lineEnd .incoming 1)) ⟨.done (.entered ca), .done (.entered cb), [], y⟩ ∧
    ca.remote.mac = (Routing.lineHost 1).mac ∧ cb.remote.mac = (Routing.lineHost 0).mac ∧
      ca.edges = (lineEnd .incoming 1).edges := by
  obtain ⟨oa, ob, x, y, ⟨m, hrun⟩, hends⟩ :=
    handshake_runs (a := lineEnd .linkstate 0) (b := lineEnd .incoming 1) (by decide) (by decide)
  obtain ⟨ca, rfl⟩ := hends.here.mpr ⟨rfl, by decide, rfl, rfl, rfl, rfl⟩
  obtain ⟨cb, rfl⟩ := hends.there.mpr ⟨rfl, rfl, rfl⟩
  obtain ⟨hmac, hsame, -, hfit, hall⟩ :=
    handshake_agrees (lineEnd .linkstate 0) (lineEnd .incoming 1) (by decide) (by decide) hrun
  obtain rfl := hfit.mpr (by decide)
  exact ⟨m, ca, cb, y, hrun, hmac, hsame.1, hall rfl⟩

end P2pVn
