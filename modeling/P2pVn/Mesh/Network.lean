import P2pVn.Lib.Channel
import P2pVn.Lib.Simulation
import P2pVn.Mesh.Nodes

/-!
# `Mesh.Network` — many nodes, their connections, and what the connections are for

Several nodes run, and some of their peers are connected to each other. In `Site.bytes` the connections are streams
of bytes; any thread of any node may be next, and a thread takes a packet when all of its bytes are there. In
`Site.packets` they are queues of packets.

`Site.bytes_follows` is the refinement: every run of the program's nodes is a run of stations that exchange packets,
event for event, with the same tables. Nothing is lost, doubled, put in another order, or made up on the way.
-/

namespace P2pVn
open CUb Bytes Channel Routing

/-! ## Sites -/

/-- Nodes and connections. Every node has the memory that its table points into and a host of its own; peer `d` of
    node `c` is one end of a connection, and `other (c, d)` is the other one. -/
structure Site (ι : Type) where
  env : ι → ExtMem
  me : ι → Ipv4Host
  other : ι × Nat → ι × Nat
  lhost : ∀ c, env c .lhost = some (me c)
  other_other : ∀ e, other (other e) = e

namespace Site

/-- What happens next: a node's thread acts, or the thread of one of its peers takes a packet. The times are what
    the calls of `gettimeofday` return. -/
inductive Event (ι : Type) where
  | act (c : ι) (a : Action)
  | receive (c : ι) (d : Nat) (now later : Timeval)

variable {ι : Type} [DecidableEq ι] (W : Site ι) (q : Qsort)

/-! ## Streams of bytes -/

/-- What end `e` has sent, and how much of it was read at the other end. -/
def stream (m : ι → Node) (e : ι × Nat) : Stream := ⟨((m e.1).out e.2).sent, (m (W.other e).1).read (W.other e).2⟩

/-- What there is to read at end `e`. -/
def incoming (m : ι → Node) (e : ι × Nat) : Incoming := ⟨(W.stream m (W.other e)).rest, false⟩

/-- A whole packet is there. -/
def Ready (con : Incoming) : Prop :=
  ∃ type len i, dpRecvHeader con = (0, some (type, len), i) ∧ len.toNat ≤ i.bytes.length

instance (con : Incoming) : Decidable (Ready con) :=
  match h : dpRecvHeader con with
  | (ret, some (type, len), i) =>
    if hr : ret = 0 ∧ len.toNat ≤ i.bytes.length then
      isTrue ⟨type, len, i, by rw [h, hr.1], hr.2⟩
    else isFalse fun ⟨_, _, _, h', hlen⟩ => by
      cases h.symm.trans h'
      exact hr ⟨rfl, hlen⟩
  | (_, none, _) => isFalse fun ⟨_, _, _, h', _⟩ => by cases h.symm.trans h'

/-- A table that was just started, no peers, no probes, nothing sent and nothing read. -/
structure NodeStart (env : ExtMem) (n : Node) : Prop where
  table : Started q env [] n.rd
  dps : n.dps.items = []
  probe : ∀ d, n.probe d = none
  left : ∀ d, n.left d = false
  data : n.data ≠ none
  sent : ∀ d, (n.out d).sent = [] ∧ NoErrors (n.out d).sends
  read : ∀ d, n.read d = 0

/-- The steps of the nodes. A peer's thread sends a probe before it waits for anything. -/
inductive ByteStep (m : ι → Node) : Event ι → (ι → Node) → Prop
  | act {c : ι} {a : Action} {n' : Node} (ha : a.Allowed (m c).toStation)
      (h : (m c).act q (W.env c) (W.me c) a = .ok n') : ByteStep m (.act c a) (Function.update m c n')
  | receive {c : ι} {d : Nat} {now later : Timeval} {n' : Node} (hprobe : (m c).probe d ≠ none)
      (hleft : (m c).left d = false) (hready : Ready (W.incoming m (c, d)))
      (h : (m c).receive q (W.env c) d now later (W.incoming m (c, d)) = .ok n') :
      ByteStep m (.receive c d now later) (Function.update m c n')

/-- Let an event happen, if it can. -/
def perform (m : ι → Node) : Event ι → Option (ι → Node)
  | .act c a =>
    if a.Allowed (m c).toStation then
      match (m c).act q (W.env c) (W.me c) a with
      | .ok n' => some (Function.update m c n')
      | .error _ => none
    else none
  | .receive c d now later =>
    if (m c).probe d ≠ none ∧ (m c).left d = false ∧ Ready (W.incoming m (c, d)) then
      match (m c).receive q (W.env c) d now later (W.incoming m (c, d)) with
      | .ok n' => some (Function.update m c n')
      | .error _ => none
    else none

/-- What is computed for an event is a step. -/
theorem perform_step {m m' : ι → Node} {e : Event ι} (h : W.perform q m e = some m') : W.ByteStep q m e m' := by
  cases e with
  | act c a =>
      simp only [perform] at h
      split at h
      · rename_i ha
        split at h
        · rename_i n' hact
          cases h
          exact .act ha hact
        · cases h
      · cases h
  | receive c d now later =>
      simp only [perform] at h
      split at h
      · rename_i hguard
        obtain ⟨hprobe, hleft, hready⟩ := hguard
        split at h
        · rename_i n' hrecv
          cases h
          exact .receive hprobe hleft hready hrecv
        · cases h
      · cases h

/-- The nodes as the program has them. -/
def bytes : Lts (ι → Node) (Event ι) where
  start m := ∀ c, NodeStart q (W.env c) (m c)
  step := W.ByteStep q

/-- Events one after the other; the newest comes first. -/
def replay (m : ι → Node) : List (Event ι) → Option (ι → Node)
  | [] => some m
  | e :: es => do
    let m ← replay m es
    W.perform q m e

/-- And what is computed for a list of events is a run. -/
theorem replay_run {m m' : ι → Node} (hstart : (W.bytes q).start m) : ∀ {es : List (Event ι)},
    W.replay q m es = some m' → (W.bytes q).Run es m' := by
  intro es
  induction es generalizing m' with
  | nil =>
      intro h
      cases h
      exact .start hstart
  | cons e es ih =>
      intro h
      obtain ⟨m1, h1, h⟩ := Option.bind_eq_some_iff.mp h
      exact (ih h1).step (perform_step W q h)

/-! ## Queues of packets -/

/-- The stations, and for each end of a connection the packets that it has sent. -/
structure Net (ι : Type) where
  station : ι → Station
  chan : ι × Nat → Queue Packet

/-- The packets of node `c`, by the ends they leave from. -/
def mails (c : ι) (ms : List (Nat × Packet)) : List ((ι × Nat) × Packet) := ms.map fun m => ((c, m.1), m.2)

/-- The steps of the stations. -/
inductive PacketStep (n : Net ι) : Event ι → Net ι → Prop
  | act {c : ι} {a : Action} {st : Station} {ms : List (Nat × Packet)} (ha : a.Allowed (n.station c))
      (h : (n.station c).act q (W.env c) (W.me c) a = .ok (st, ms)) :
      PacketStep n (.act c a) ⟨Function.update n.station c st, putAll (mails c ms) n.chan⟩
  | receive {c : ι} {d : Nat} {now later : Timeval} {p : Packet} {st : Station} {ms : List (Nat × Packet)}
      (hprobe : (n.station c).probe d ≠ none) (hleft : (n.station c).left d = false)
      (hnext : (n.chan (W.other (c, d))).next? = some p) (hne : (n.chan (W.other (c, d))).next? ≠ none)
      (h : (n.station c).receive q (W.env c) d now later p = .ok (st, ms)) :
      PacketStep n (.receive c d now later) ⟨Function.update n.station c st, putAll (mails c ms)
        (Function.update n.chan (W.other (c, d)) ((n.chan (W.other (c, d))).take hne))⟩

structure StationStart (env : ExtMem) (n : Station) : Prop where
  table : Started q env [] n.rd
  dps : n.dps.items = []
  probe : ∀ d, n.probe d = none
  left : ∀ d, n.left d = false

/-- What the nodes are for. -/
def packets : Lts (Net ι) (Event ι) where
  start n := (∀ c, StationStart q (W.env c) (n.station c)) ∧ ∀ e, n.chan e = .empty
  step := W.PacketStep q

/-! ## The refinement -/

/-- The nodes are as the stations: the same tables, groups and probes, and every stream carries the packets of its
    queue. -/
structure Like (m : ι → Node) (n : Net ι) : Prop where
  station : ∀ c, n.station c = (m c).toStation
  reach : ∀ c, Reach q (W.env c) [] (m c).rd
  data : ∀ c, (m c).data ≠ none
  sends : ∀ e : ι × Nat, NoErrors ((m e.1).out e.2).sends
  carries : ∀ e, Carries (Packet.enc (W.me e.1)) (W.stream m e) (n.chan e)
  proper : ∀ e, ∀ p ∈ (n.chan e).log, p.Proper

variable {W q} {m : ι → Node} {n : Net ι} {c : ι} {d : Nat}

omit [DecidableEq ι] in
theorem other_eq {e e' : ι × Nat} : W.other e = e' ↔ e = W.other e' := by
  constructor
  · rintro rfl
    exact (W.other_other e).symm
  · rintro rfl
    exact W.other_other e'

/-- Writing proper packets puts them into the queues of their ends. -/
theorem carries_sendAll {me : Ipv4Host} {r : Nat → Nat} : ∀ (ms : List (Nat × Packet)) {out : Nat → Outgoing}
    {chan : ι × Nat → Queue Packet}, (∀ p ∈ ms, p.2.Proper) → (∀ d, NoErrors (out d).sends) →
    (∀ d, Carries (Packet.enc me) ⟨(out d).sent, r d⟩ (chan (c, d))) →
    (∀ d, NoErrors (sendAll me (writes ms) out d).sends) ∧
      ∀ d, Carries (Packet.enc me) ⟨(sendAll me (writes ms) out d).sent, r d⟩ (putAll (mails c ms) chan (c, d)) := by
  intro ms
  induction ms with
  | nil => exact fun _ hs hc => ⟨hs, hc⟩
  | cons p ms ih =>
      intro out chan hp hs hc
      obtain ⟨e, p⟩ := p
      obtain ⟨sends, hsends, hsend⟩ := (hp _ List.mem_cons_self).send me (hs e)
      have hstream : sendAll me (writes ((e, p) :: ms)) out
          = sendAll me (writes ms) (Function.update out e ⟨(out e).sent ++ p.enc me, sends⟩) := by
        show sendAll me (writes ms) (Function.update out e (p.write.send me (out e)).2) = _
        rw [hsend]
      have hqueue : putAll (mails c ((e, p) :: ms)) chan
          = putAll (mails c ms) (Function.update chan (c, e) ((chan (c, e)).put p)) := rfl
      rw [hstream, hqueue]
      refine ih (fun p' hp' => hp p' (List.mem_cons_of_mem _ hp')) (fun d => ?_) fun d => ?_
      · by_cases hd : d = e
        · subst hd
          rw [Function.update_self]
          exact hsends
        · rw [Function.update_of_ne hd]
          exact hs d
      · by_cases hd : d = e
        · subst hd
          rw [Function.update_self, Function.update_self]
          exact (hc d).put p
        · rw [Function.update_of_ne hd, Function.update_of_ne fun h => hd (Prod.mk.inj h).2]
          exact hc d

/-- No packet of `c` goes into a queue of another node. -/
theorem putAll_mails_ne {chan : ι × Nat → Queue Packet} {e : ι × Nat} (h : e.1 ≠ c) : ∀ (ms : List (Nat × Packet)),
    putAll (mails c ms) chan e = chan e := by
  intro ms
  induction ms generalizing chan with
  | nil => rfl
  | cons p ms ih =>
      have hne : e ≠ (c, p.1) := by
        rintro rfl
        exact h rfl
      show putAll (mails c ms) (Function.update chan (c, p.1) _) e = _
      rw [ih, Function.update_of_ne hne]

/-- **A step of one node**: its table is kept, and its streams carry what is sent if they did once the packet that was
    taken is gone. -/
theorem Like.step (h : W.Like q m n) {n' : Node} {st : Station} {ms : List (Nat × Packet)}
    {chan : ι × Nat → Queue Packet} (hst : st = n'.toStation) (hkept : StationKept q (W.env c) st ms)
    (hdata : n'.data ≠ none) (hout : n'.out = sendAll (W.me c) (writes ms) (m c).out)
    (hchan : ∀ e, Carries (Packet.enc (W.me e.1))
      ⟨((m e.1).out e.2).sent, (Function.update m c n' (W.other e).1).read (W.other e).2⟩ (chan e))
    (hlog : ∀ e, (chan e).log = (n.chan e).log) :
    W.Like q (Function.update m c n') ⟨Function.update n.station c st, putAll (mails c ms) chan⟩ := by
  subst hst
  have hown : ∀ d, Carries (Packet.enc (W.me c)) ⟨((m c).out d).sent,
      (Function.update m c n' (W.other (c, d)).1).read (W.other (c, d)).2⟩ (chan (c, d)) := fun d => hchan (c, d)
  obtain ⟨hsends, hcarries⟩ := carries_sendAll ms hkept.proper (fun d => h.sends (c, d)) hown
  constructor
  · intro c'
    by_cases hc : c' = c
    · subst hc
      simp only [Function.update_self]
    · simp only [Function.update_of_ne hc]
      exact h.station c'
  · intro c'
    by_cases hc : c' = c
    · subst hc
      rw [Function.update_self]
      exact hkept.reach
    · rw [Function.update_of_ne hc]
      exact h.reach c'
  · intro c'
    by_cases hc : c' = c
    · subst hc
      rw [Function.update_self]
      exact hdata
    · rw [Function.update_of_ne hc]
      exact h.data c'
  · rintro ⟨c', d⟩
    by_cases hc : c' = c
    · subst hc
      simp only [Function.update_self, hout]
      exact hsends d
    · simp only [Function.update_of_ne hc]
      exact h.sends (c', d)
  · rintro ⟨c', d⟩
    by_cases hc : c' = c
    · subst hc
      simp only [Site.stream, Function.update_self, hout]
      exact hcarries d
    · simp only [Site.stream]
      rw [putAll_mails_ne hc, Function.update_of_ne hc]
      exact hchan (c', d)
  · intro e p hp
    rcases mem_putAll hp with hp | hp
    · exact h.proper e p (hlog e ▸ hp)
    · obtain ⟨m', hm', he⟩ := List.mem_map.mp hp
      cases he
      exact hkept.proper m' hm'

/-- Step lemma for what a node does by itself. -/
theorem Like.act (h : W.Like q m n) {a : Action} {n' : Node} (ha : a.Allowed (m c).toStation)
    (hact : (m c).act q (W.env c) (W.me c) a = .ok n') :
    ∃ t, W.PacketStep q n (.act c a) t ∧ W.Like q (Function.update m c n') t := by
  obtain ⟨ms, hst, hout, hread, hdata⟩ := Node.act_station ha (h.data c) hact
  rw [← h.station c] at hst ha
  have hr : Reach q (W.env c) [] (n.station c).rd := by
    rw [h.station]
    exact h.reach c
  refine ⟨_, .act ha hst, h.step rfl (Station.act_kept ha hr hst) hdata hout (fun e => ?_) fun e => rfl⟩
  have hsame : ∀ c', (Function.update m c n' c').read = (m c').read := by
    intro c'
    by_cases hc : c' = c
    · subst hc
      rw [Function.update_self, hread]
    · rw [Function.update_of_ne hc]
  rw [hsame]
  exact h.carries e

omit [DecidableEq ι] in
/-- A stream on which a whole packet is there begins with the next packet of its queue. -/
theorem Like.next (h : W.Like q m n) (hready : Ready (W.incoming m (c, d))) :
    ∃ p rest, (n.chan (W.other (c, d))).next? = some p ∧ p.Proper ∧
      W.incoming m (c, d) = ⟨p.enc (W.me (W.other (c, d)).1) ++ rest, false⟩ := by
  have hne : (W.stream m (W.other (c, d))).rest ≠ [] := by
    intro hnil
    obtain ⟨type, len, i, hheader, -⟩ := hready
    rw [incoming, hnil] at hheader
    cases hheader
  obtain ⟨p, hp, rest, hrest⟩ := (h.carries _).head hne
  exact ⟨p, rest, hp, h.proper _ p (Queue.mem_of_next hp), by rw [incoming, hrest]⟩

/-- Step lemma for a packet that is received. -/
theorem Like.receive (h : W.Like q m n) {now later : Timeval} {n' : Node} (hprobe : (m c).probe d ≠ none)
    (hleft : (m c).left d = false) (hready : Ready (W.incoming m (c, d)))
    (hrecv : (m c).receive q (W.env c) d now later (W.incoming m (c, d)) = .ok n') :
    ∃ t, W.PacketStep q n (.receive c d now later) t ∧ W.Like q (Function.update m c n') t := by
  obtain ⟨p, rest, hnext, hp, hcon⟩ := h.next hready
  obtain ⟨L, hs⟩ := (h.reach c).sound
  rw [hcon] at hrecv
  obtain ⟨ms, hst, hout, hread, hdata⟩ :=
    Node.receive_station (W.me c) hp hs.allocs (h.sends (c, d)) hprobe hrecv
  rw [← h.station c] at hst
  have hr : Reach q (W.env c) [] (n.station c).rd := by
    rw [h.station]
    exact h.reach c
  have hprobe' : (n.station c).probe d ≠ none := by
    rw [h.station]
    exact hprobe
  have hleft' : (n.station c).left d = false := by
    rw [h.station]
    exact hleft
  have hne : (n.chan (W.other (c, d))).next? ≠ none := by
    rw [hnext]
    exact nofun
  refine ⟨_, .receive hprobe' hleft' hnext hne hst,
    h.step rfl (Station.receive_kept hp hr hst) (hdata ▸ h.data c) hout (fun e => ?_) fun e => ?_⟩
  · by_cases he : e = W.other (c, d)
    · -- the stream whose packet was taken
      subst he
      have htake := (h.carries (W.other (c, d))).take hnext hne
      simp only [W.other_other, Function.update_self, hread]
      simp only [Site.stream, W.other_other] at htake
      exact htake
    · rw [Function.update_of_ne he]
      have hothers : (Function.update m c n' (W.other e).1).read (W.other e).2
          = (m (W.other e).1).read (W.other e).2 := by
        by_cases hc : (W.other e).1 = c
        · have hd : (W.other e).2 ≠ d := fun hd => he (other_eq.mp (Prod.ext hc hd))
          rw [hc, Function.update_self, hread, Function.update_of_ne hd]
        · rw [Function.update_of_ne hc]
      rw [hothers]
      exact h.carries e
  · by_cases he : e = W.other (c, d)
    · subst he
      rw [Function.update_self]
      rfl
    · rw [Function.update_of_ne he]

omit [DecidableEq ι] in
/-- At the start nothing is on the streams. -/
theorem Like.begin (h : ∀ c, NodeStart q (W.env c) (m c)) :
    W.Like q m ⟨fun c => (m c).toStation, fun _ => .empty⟩ := by
  constructor
  · exact fun c => rfl
  · exact fun c => .start (h c).table
  · exact fun c => (h c).data
  · exact fun e => ((h e.1).sent e.2).2
  · intro e
    simp only [Site.stream, ((h e.1).sent e.2).1, (h _).read]
    exact .empty
  · exact fun e p hp => nomatch hp

/-- **Every run of the nodes is a run of stations that exchange packets**, event for event, with the same tables,
    groups and probes. -/
theorem bytes_follows : Lts.Follows (W.bytes q) (W.packets q) (W.Like q) where
  start m hm := by
    refine ⟨_, ⟨fun c => ?_, fun e => rfl⟩, Like.begin hm⟩
    exact ⟨(hm c).table, (hm c).dps, (hm c).probe, (hm c).left⟩
  step m e m' n h hstep := by
    cases hstep with
    | act ha hact => exact h.act ha hact
    | receive hprobe hleft hready hrecv => exact h.receive hprobe hleft hready hrecv

/-- **What the nodes do, as packets.** Every run of the program's nodes is a run of stations with the same events and
    the same tables; each stream consists of whole packets, and was read up to the end of one. -/
theorem bytes_run {es : List (Event ι)} (h : (W.bytes q).Run es m) : ∃ n, (W.packets q).Run es n ∧
    (∀ c, n.station c = (m c).toStation) ∧ (∀ e, ∀ p ∈ (n.chan e).log, p.Proper) ∧
      ∀ e, Carries (Packet.enc (W.me e.1)) (W.stream m e) (n.chan e) := by
  obtain ⟨n, hrun, hlike⟩ := h.follows bytes_follows
  exact ⟨n, hrun, hlike.station, hlike.proper, hlike.carries⟩

/-! ## Two nodes -/

/-- Two nodes, each of which is peer `0` of the other one. -/
def pair : Site Bool where
  env c
    | .lhost => some (lineHost (if c then 1 else 0))
    | .dp _ => some (lineHost (if c then 0 else 1))
  me c := lineHost (if c then 1 else 0)
  other e := (!e.1, e.2)
  lhost _ := rfl
  other_other e := by rw [Bool.not_not]

/-- A node that was just started. -/
def aloneAt (env : ExtMem) : Node where
  rd := match (rtInit []).2.rtLhostAdd .insertion env (.env .lhost) with
    | .ok (_, rd) => rd
    | .error _ => (rtInit []).2
  dps := ⟨[], 8⟩
  probe _ := none
  left _ := false
  data := some []
  out _ := ⟨[], []⟩
  read _ := 0
  rttUs _ := 0
  attempts := []

theorem pair_start : (pair.bytes .insertion).start fun c => aloneAt (pair.env c) := by
  intro c
  have hstart : Started .insertion (pair.env c) [] (aloneAt (pair.env c)).rd := by
    refine ⟨_, rfl, ?_⟩
    cases c with
    | false => rfl
    | true => rfl
  exact ⟨hstart, rfl, fun _ => rfl, fun _ => rfl, nofun, fun _ => ⟨rfl, nofun⟩, fun _ => rfl⟩

/-- Node `0` has a link to node `1` and announces it; node `1` sends a probe, takes the link state, and takes the
    answer to its probe. The newest event comes first. -/
def pairEvents : List (Event Bool) :=
  [.receive true 0 ⟨2, 900⟩ ⟨3, 0⟩, .receive true 0 ⟨2, 500⟩ ⟨2, 500⟩, .receive true 0 ⟨2, 400⟩ ⟨2, 400⟩,
    .receive false 0 ⟨2, 300⟩ ⟨2, 300⟩, .act false (.probe 0 8 ⟨2, 250⟩), .act true (.probe 0 7 ⟨2, 200⟩),
    .act false .announce, .act false (.insert 0 []), .act false (.addLink 0 10 ⟨1, 0⟩)]

theorem bytes_run_pair : ∃ m n, (pair.bytes .insertion).Run pairEvents m ∧ (m true).read 0 = 66 ∧
    (pair.packets .insertion).Run pairEvents n ∧
      Carries (Packet.enc (lineHost 0)) (pair.stream m (false, 0)) (n.chan (false, 0)) := by
  have hreplay : (pair.replay .insertion (fun c => aloneAt (pair.env c)) pairEvents).map
      (fun m => (m true).read 0) = some 66 := by
    decide +kernel
  obtain ⟨m, hm, hread⟩ := Option.map_eq_some_iff.mp hreplay
  have hrun := pair.replay_run .insertion pair_start hm
  obtain ⟨n, hn, -, -, hcarries⟩ := bytes_run hrun
  exact ⟨m, n, hrun, hread, hn, hcarries (false, 0)⟩

end Site

end P2pVn
