import P2pVn.DPeer.Packets
import P2pVn.Vnet

/-!
# `Mesh.Nodes` — what a node does, in bytes and in packets

A node does two kinds of things: it takes a packet from one of its connections, or one of its threads acts by
itself (`Action`). Each is defined twice. `Node.act` and `Node.receive` call the functions of the program and work
on streams of bytes; `Station.act` and `Station.receive` say which packets are sent.

- `Node.act_station`, `Node.receive_station`: the code does what the station does, and writes its packets.
- `Station.act_kept`, `Station.receive_kept`: what a station sends is proper, and its table stays one that was
  reached without allocation failures.

No `send` and no allocation for the table fails here, and the memory of a peer stays where it is.
-/

namespace P2pVn
open CUb Bytes Routing

/-! ## Actions -/

/-- What a thread does by itself: the reader of the tap has a frame; a timer sends a probe or, to the whole group, the
    link state; a handshake sends the link state to its peer; peers come and go. -/
inductive Action where
  | tap (frame : List UInt8)
  | probe (d : Nat) (rnd : UInt16) (now : Timeval)
  | announce
  | announceTo (d : Nat)
  | addLink (d : Nat) (rttUs : UInt32) (now : Timeval)
  | removeLink (dmac : EtherAddr)
  | insert (d : Nat) (al : AllocScript)
  | remove (d : Nat)

/-- A frame of a tap has its Ethernet header and fits into the reader's buffer; a link state fits into its packet; a
    thread that has left its loop sends no probe. -/
def Action.Allowed (n : Station) : Action → Prop
  | .tap frame => 14 ≤ frame.length ∧ frame.length ≤ dataMaxLen
  | .announce => n.rd.edges.items.length ≤ 1820
  | .announceTo _ => n.rd.edges.items.length ≤ 1820
  | .probe d _ _ => n.left d = false
  | _ => True

instance (n : Station) (a : Action) : Decidable (a.Allowed n) :=
  match a with
  | .tap _ => inferInstanceAs (Decidable (_ ∧ _))
  | .announce => inferInstanceAs (Decidable (_ ≤ _))
  | .announceTo _ => inferInstanceAs (Decidable (_ ≤ _))
  | .probe _ _ _ => inferInstanceAs (Decidable (_ = _))
  | .addLink _ _ _ => isTrue trivial
  | .removeLink _ => isTrue trivial
  | .insert _ _ => isTrue trivial
  | .remove _ => isTrue trivial

/-- What a station does. -/
def Station.act (q : Qsort) (env : ExtMem) (me : Ipv4Host) (n : Station) : Action → Ub (Station × List (Nat × Packet))
  | .tap frame => do
    let (f, rd) ← n.rd.rtDhostsToHost env me.mac (frameDst frame)
    pure ({ n with rd := rd }, if f.ret < 0 then [] else (peersOf f.res).map fun d => (d, .data frame))
  | .probe d rnd now => pure ({ n with probe := Function.update n.probe d (some (rnd, now)) }, [(d, .probeReq rnd)])
  | .announce => pure (n, n.dps.items.map fun d => (d, .linkstate n.rd.edges.items))
  | .announceTo d => pure (n, [(d, .linkstate n.rd.edges.items)])
  | .addLink d rttUs now => do
    let (_, rd) ← n.rd.rtDhostAddLink q env (.env (.dp d)) rttUs now
    pure ({ n with rd := rd }, [])
  | .removeLink dmac => do
    let (_, rd) ← n.rd.rtDhostRemove env dmac
    pure ({ n with rd := rd }, [])
  | .insert d al => do
    let (_, dps) ← dpgInsert q env n.dps d al
    pure ({ n with dps := dps }, [])
  | .remove d => do
    let (_, dps) ← dpgRemove env n.dps d
    pure ({ n with dps := dps }, [])

/-! ## Nodes -/

/-- A node: the station, the buffer of the tap's reader, the streams to its peers, how many bytes it has read from
    each of them, and what the peer threads keep besides. -/
structure Node extends Station where
  data : Option (List UInt8)
  out : Nat → Outgoing
  read : Nat → Nat
  rttUs : Nat → UInt32
  attempts : List Ipv4Host

namespace Node

/-- What the thread of peer `d` works on; `con` is its connection. -/
def peer (n : Node) (env : ExtMem) (d : Nat) (con : Incoming) : Peer where
  env := env
  rd := n.rd
  con := con
  out := n.out
  probeSeq := ((n.probe d).getD (0, ⟨0, 0⟩)).1
  probeSendTime := ((n.probe d).getD (0, ⟨0, 0⟩)).2
  rttUs := n.rttUs d
  attempts := n.attempts

/-- What the code does. -/
def act (q : Qsort) (env : ExtMem) (me : Ipv4Host) (n : Node) : Action → Ub Node
  | .tap frame => do
    let (_, s) ← vnetReaderTurn env me.mac (some frame) ⟨n.data, n.rd, n.out⟩
    pure { n with data := s.data, rd := s.rd, out := s.out }
  | .probe d rnd now =>
    let (_, s) := dpSendProbeReq d rnd now (n.peer env d ⟨[], false⟩)
    pure { n with out := s.out, probe := Function.update n.probe d (some (s.probeSeq, s.probeSendTime)) }
  | .announce => do
    let (_, out) ← dpgSendLinkstate env me n.rd n.dps n.out
    pure { n with out := out }
  | .announceTo d => pure { n with out := (dpSendPeerLinkstate me n.rd d n.out).2 }
  | .addLink d rttUs now => do
    let (_, rd) ← n.rd.rtDhostAddLink q env (.env (.dp d)) rttUs now
    pure { n with rd := rd }
  | .removeLink dmac => do
    let (_, rd) ← n.rd.rtDhostRemove env dmac
    pure { n with rd := rd }
  | .insert d al => do
    let (_, dps) ← dpgInsert q env n.dps d al
    pure { n with dps := dps }
  | .remove d => do
    let (_, dps) ← dpgRemove env n.dps d
    pure { n with dps := dps }

/-- What the thread of peer `d` does when there is something to read on its connection. -/
def receive (q : Qsort) (env : ExtMem) (d : Nat) (now later : Timeval) (n : Node) (con : Incoming) : Ub Node := do
  let (stays, s, dps) ← dpThPacket q d now later (n.peer env d con) n.dps
  pure { n with
    rd := s.rd
    dps := dps
    left := if stays then n.left else Function.update n.left d true
    out := s.out
    read := Function.update n.read d (n.read d + (con.bytes.length - s.con.bytes.length))
    rttUs := Function.update n.rttUs d s.rttUs
    attempts := s.attempts }

end Node

/-! ## The code does what the station does -/

section

variable {q : Qsort} {env : ExtMem} {me : Ipv4Host} {d : Nat} {now later : Timeval} {n n' : Node} {a : Action}

/-- **Actions.** -/
theorem Node.act_station (ha : a.Allowed n.toStation) (hdata : n.data ≠ none) (h : n.act q env me a = .ok n') :
    ∃ ms, n.toStation.act q env me a = .ok (n'.toStation, ms) ∧ n'.out = sendAll me (writes ms) n.out ∧
      n'.read = n.read ∧ n'.data ≠ none := by
  cases a with
  | tap frame =>
      obtain ⟨buf, hbuf⟩ := Option.ne_none_iff_exists'.mp hdata
      obtain ⟨⟨go, s⟩, hturn, h⟩ := bind_eq_ok.mp h
      cases h
      obtain ⟨-, f, hlookup, hdata', hout⟩ :=
        vnetReaderTurn_cases me hbuf (le_trans (by decide) ha.1) ha.2 hturn
      refine ⟨if f.ret < 0 then [] else (peersOf f.res).map fun d => (d, .data frame), ?_, ?_, rfl, ?_⟩
      · simp only [Station.act]
        rw [show n.rd.rtDhostsToHost env me.mac (frameDst frame) = .ok (f, s.rd) from hlookup]
        rfl
      · show s.out = _
        rw [hout]
        split
        · rfl
        · rw [writes_data]
      · show s.data ≠ none
        rw [hdata']
        exact nofun
  | probe e rnd now =>
      cases h
      refine ⟨[(e, .probeReq rnd)], rfl, ?_, rfl, hdata⟩
      show Function.update n.out e _ = Function.update n.out e _
      rfl
  | announce =>
      obtain ⟨⟨ret, out⟩, hsend, h⟩ := bind_eq_ok.mp h
      cases h
      refine ⟨_, rfl, ?_, rfl, hdata⟩
      show out = _
      rw [(dpgSendLinkstate_sends hsend).2, writes, List.map_map]
      rfl
  | announceTo e =>
      cases h
      exact ⟨_, rfl, dpSendPeerLinkstate_sends n.rd e, rfl, hdata⟩
  | addLink e rttUs now =>
      obtain ⟨⟨ret, rd⟩, hrun, h⟩ := bind_eq_ok.mp h
      cases h
      exact ⟨[], by simp only [Station.act, hrun, ok_bind]; rfl, rfl, rfl, hdata⟩
  | removeLink dmac =>
      obtain ⟨⟨ret, rd⟩, hrun, h⟩ := bind_eq_ok.mp h
      cases h
      exact ⟨[], by simp only [Station.act, hrun, ok_bind]; rfl, rfl, rfl, hdata⟩
  | insert e al =>
      obtain ⟨⟨ret, dps⟩, hrun, h⟩ := bind_eq_ok.mp h
      cases h
      exact ⟨[], by simp only [Station.act, hrun, ok_bind]; rfl, rfl, rfl, hdata⟩
  | remove e =>
      obtain ⟨⟨ret, dps⟩, hrun, h⟩ := bind_eq_ok.mp h
      cases h
      exact ⟨[], by simp only [Station.act, hrun, ok_bind]; rfl, rfl, rfl, hdata⟩

/-- **Taking a packet.** Exactly its bytes are read. -/
theorem Node.receive_station (me : Ipv4Host) {p : Packet} {src : Ipv4Host} {rest : List UInt8} {broken : Bool}
    (hp : p.Proper) (hal : n.rd.allocs = []) (hsends : NoErrors (n.out d).sends) (hprobe : n.probe d ≠ none)
    (h : n.receive q env d now later ⟨p.enc src ++ rest, broken⟩ = .ok n') :
    ∃ ms, n.toStation.receive q env d now later p = .ok (n'.toStation, ms) ∧ n'.out = sendAll me (writes ms) n.out ∧
      n'.read = Function.update n.read d (n.read d + (p.enc src).length) ∧ n'.data = n.data := by
  obtain ⟨⟨probeSeq, sendTime⟩, hpr⟩ := Option.ne_none_iff_exists'.mp hprobe
  obtain ⟨⟨stays, s, dps⟩, hrun, h⟩ := bind_eq_ok.mp h
  cases h
  have hsee : Sees (n.peer env d ⟨p.enc src ++ rest, broken⟩) d n.toStation :=
    ⟨rfl, hal, by simp only [Node.peer, hpr, Option.getD_some], hsends⟩
  obtain ⟨st, ms, hrecv, hd, hdps, hprobe', hleft⟩ := dpThPacket_receives me hsee hp rfl hrun
  refine ⟨ms, ?_, hd.out, ?_, rfl⟩
  · rw [show n.toStation.receive q env d now later p = .ok (st, ms) from hrecv]
    obtain ⟨rd, dps', probe', left'⟩ := st
    simp only at hdps hprobe' hleft
    subst hdps hprobe' hleft
    rw [hd.rd]
  · show Function.update n.read d _ = _
    rw [hd.con, List.length_append, Nat.add_sub_cancel]

end

/-! ## What stations send, and their tables -/

section

variable {q : Qsort} {env : ExtMem} {me : Ipv4Host} {d : Nat} {now later : Timeval} {n n' : Station} {a : Action}
  {ms : List (Nat × Packet)}

/-- What is kept of a station: everything it sends is proper, and its table was reached without allocation
    failures. -/
structure StationKept (q : Qsort) (env : ExtMem) (n : Station) (ms : List (Nat × Packet)) : Prop where
  proper : ∀ m ∈ ms, m.2.Proper
  reach : Reach q env [] n.rd

/-- What a station does by itself: its table stays reachable, and only proper packets are sent. -/
theorem Station.act_kept (ha : a.Allowed n) (hr : Reach q env [] n.rd) (h : n.act q env me a = .ok (n', ms)) :
    StationKept q env n' ms := by
  cases a with
  | tap frame =>
      obtain ⟨⟨f, rd⟩, hrun, h⟩ := bind_eq_ok.mp h
      cases h
      refine ⟨fun m hm => ?_, hr.forward hrun⟩
      split at hm
      · cases hm
      · obtain ⟨e, -, rfl⟩ := List.mem_map.mp hm
        exact ⟨ha.1, Nat.lt_of_le_of_lt ha.2 (by decide)⟩
  | probe e rnd now =>
      cases h
      refine ⟨fun m hm => ?_, hr⟩
      rw [List.mem_singleton.mp hm]
      trivial
  | announce =>
      cases h
      refine ⟨fun m hm => ?_, hr⟩
      obtain ⟨e, -, rfl⟩ := List.mem_map.mp hm
      exact ha
  | announceTo e =>
      cases h
      refine ⟨fun m hm => ?_, hr⟩
      rw [List.mem_singleton.mp hm]
      exact ha
  | addLink e rttUs now =>
      obtain ⟨⟨ret, rd⟩, hrun, h⟩ := bind_eq_ok.mp h
      cases h
      exact ⟨nofun, hr.op (o := .dhostAddLink e rttUs now) hrun⟩
  | removeLink dmac =>
      obtain ⟨⟨ret, rd⟩, hrun, h⟩ := bind_eq_ok.mp h
      cases h
      exact ⟨nofun, hr.op (o := .dhostRemove dmac) hrun⟩
  | insert e al =>
      obtain ⟨⟨ret, dps⟩, -, h⟩ := bind_eq_ok.mp h
      cases h
      exact ⟨nofun, hr⟩
  | remove e =>
      obtain ⟨⟨ret, dps⟩, -, h⟩ := bind_eq_ok.mp h
      cases h
      exact ⟨nofun, hr⟩

/-- The same of what it does for a packet. -/
theorem Station.handle_kept {p : Packet} {ret : Int} {rd : Routing} (hp : p.Proper) (hr : Reach q env [] n.rd)
    (h : n.handle q env d now later p = .ok (ret, rd, ms)) : (∀ m ∈ ms, m.2.Proper) ∧ Reach q env [] rd := by
  cases p with
  | data frame =>
      obtain ⟨⟨f, rd'⟩, hrun, h⟩ := bind_eq_ok.mp h
      simp only at h
      split at h
      · cases h
        exact ⟨nofun, hr.forward hrun⟩
      · cases h
        refine ⟨fun m hm => ?_, hr.forward hrun⟩
        obtain ⟨e, -, rfl⟩ := List.mem_map.mp hm
        exact hp
  | linkstate edges =>
      obtain ⟨⟨ret', rd'⟩, hrun, h⟩ := bind_eq_ok.mp h
      cases h
      exact ⟨nofun, hr.op (o := .updateEdges edges) hrun⟩
  | probeReq seq =>
      cases h
      refine ⟨fun m hm => ?_, hr⟩
      rw [List.mem_singleton.mp hm]
      trivial
  | probeResp seq =>
      unfold Station.handle at h
      simp only at h
      split at h
      · cases h
        exact ⟨nofun, hr⟩
      · split at h
        · obtain ⟨⟨ret', rd'⟩, hrun, h⟩ := bind_eq_ok.mp h
          cases h
          exact ⟨nofun, hr.op (o := .dhostAddLink d _ later) hrun⟩
        · cases h
          exact ⟨nofun, hr⟩

theorem Station.receive_kept {p : Packet} (hp : p.Proper) (hr : Reach q env [] n.rd)
    (h : n.receive q env d now later p = .ok (n', ms)) : StationKept q env n' ms := by
  obtain ⟨⟨ret, rd, ms'⟩, hhandle, h⟩ := bind_eq_ok.mp h
  obtain ⟨hproper, hr1⟩ := Station.handle_kept hp hr hhandle
  simp only at h
  split at h
  · cases h
    exact ⟨hproper, hr1⟩
  · obtain ⟨⟨r1, dps⟩, -, h⟩ := bind_eq_ok.mp h
    obtain ⟨m, -, h⟩ := bind_eq_ok.mp h
    obtain ⟨⟨r2, rd2⟩, hremove, h⟩ := bind_eq_ok.mp h
    cases h
    exact ⟨hproper, hr1.op (o := .dhostRemove m) hremove⟩

/-- **What an action sends**: a frame of the tap, the exported edges, or the probe. -/
theorem Station.act_sends (h : n.act q env me a = .ok (n', ms)) : ∀ m ∈ ms,
    (∃ frame, a = .tap frame ∧ m.2 = .data frame) ∨ m.2 = .linkstate n.rd.edges.items ∨
      ∃ rnd now, a = .probe m.1 rnd now ∧ m.2 = .probeReq rnd := by
  intro m hm
  cases a with
  | tap frame =>
      obtain ⟨⟨f, rd⟩, -, h⟩ := bind_eq_ok.mp h
      cases h
      split at hm
      · cases hm
      · obtain ⟨e, -, rfl⟩ := List.mem_map.mp hm
        exact Or.inl ⟨frame, rfl, rfl⟩
  | probe e rnd now =>
      cases h
      rw [List.mem_singleton.mp hm]
      exact Or.inr (Or.inr ⟨rnd, now, rfl, rfl⟩)
  | announce =>
      cases h
      obtain ⟨e, -, rfl⟩ := List.mem_map.mp hm
      exact Or.inr (Or.inl rfl)
  | announceTo e =>
      cases h
      rw [List.mem_singleton.mp hm]
      exact Or.inr (Or.inl rfl)
  | addLink e rttUs now =>
      obtain ⟨⟨ret, rd⟩, -, h⟩ := bind_eq_ok.mp h
      cases h
      cases hm
  | removeLink dmac =>
      obtain ⟨⟨ret, rd⟩, -, h⟩ := bind_eq_ok.mp h
      cases h
      cases hm
  | insert e al =>
      obtain ⟨⟨ret, dps⟩, -, h⟩ := bind_eq_ok.mp h
      cases h
      cases hm
  | remove e =>
      obtain ⟨⟨ret, dps⟩, -, h⟩ := bind_eq_ok.mp h
      cases h
      cases hm

/-- What is sent is sent before the thread leaves its loop. -/
theorem Station.receive_handles {p : Packet} (h : n.receive q env d now later p = .ok (n', ms)) :
    ∃ ret rd, n.handle q env d now later p = .ok (ret, rd, ms) := by
  obtain ⟨⟨ret, rd, ms'⟩, hhandle, h⟩ := bind_eq_ok.mp h
  simp only at h
  split at h
  · cases h
    exact ⟨ret, rd, hhandle⟩
  · obtain ⟨⟨r1, dps⟩, -, h⟩ := bind_eq_ok.mp h
    obtain ⟨m, -, h⟩ := bind_eq_ok.mp h
    obtain ⟨⟨r2, rd2⟩, -, h⟩ := bind_eq_ok.mp h
    cases h
    exact ⟨ret, rd, hhandle⟩

/-- **What a packet makes its receiver send**: a frame goes on unchanged, a probe is answered with its number, to
    the peer it came from, and nothing else is sent. -/
theorem Station.receive_sends {p : Packet} (h : n.receive q env d now later p = .ok (n', ms)) :
    (∃ frame, p = .data frame ∧ ∀ m ∈ ms, m.2 = .data frame) ∨
      (∃ seq, p = .probeReq seq ∧ ms = [(d, .probeResp seq)]) ∨ (∀ seq, p ≠ .probeReq seq) ∧ ms = [] := by
  obtain ⟨ret, rd, hhandle⟩ := Station.receive_handles h
  cases p with
  | data frame =>
      refine Or.inl ⟨frame, rfl, fun m hm => ?_⟩
      obtain ⟨⟨f, rd'⟩, -, h⟩ := bind_eq_ok.mp hhandle
      simp only at h
      split at h
      · cases h
        cases hm
      · cases h
        obtain ⟨e, -, rfl⟩ := List.mem_map.mp hm
        rfl
  | linkstate edges =>
      obtain ⟨⟨ret', rd'⟩, -, h⟩ := bind_eq_ok.mp hhandle
      cases h
      exact Or.inr (Or.inr ⟨nofun, rfl⟩)
  | probeReq seq =>
      cases hhandle
      exact Or.inr (Or.inl ⟨seq, rfl, rfl⟩)
  | probeResp seq =>
      refine Or.inr (Or.inr ⟨nofun, ?_⟩)
      unfold Station.handle at hhandle
      simp only at hhandle
      split at hhandle
      · cases hhandle
        rfl
      · split at hhandle
        · obtain ⟨⟨ret', rd'⟩, -, h⟩ := bind_eq_ok.mp hhandle
          cases h
          rfl
        · cases hhandle
          rfl

end

end P2pVn
