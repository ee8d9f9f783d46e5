import P2pVn.Routing.NextHop

/-!
# `Routing.Network` — nodes that hold the same link graph, and unicast from node to node

`SameGraph` says that `n` nodes, each with a table reached by calls of the operations, agree on MACs and
links; tables are sorted by MAC, so they also agree on positions, and node `c` finds itself at position `c`.

- `rtDhostsToHost_eq`: on a sound state the call fits the matrices and goes into one of its branches.
- `rtDhostsToHost_firstHop`: a unicast look-up hands out the first hop, by the links of its table.
- `carried_iff`: hop by hop a packet takes a shortest path exactly if every node that it comes to has a good one.
- `rtDhostsToHost_nextHop`: both, for every reachable state and every network of such nodes.
-/

namespace P2pVn
open CUb WeightedGraph

namespace Routing

variable {env : ExtMem} {q : Qsort} {s s' : Routing} {L : HostId} {i j k : Nat}

/-! ## The call on a sound state -/

theorem Sound.cacheReady (hs : Sound env s L) : CacheReady s := by
  rcases hs.cache with hu | hr
  · exact Or.inl hu
  · exact Or.inr hr.ready

/-- **On a sound state** `rt_dhosts_to_host` makes the matrices fit and takes a branch for local's position. -/
theorem rtDhostsToHost_eq (hs : Sound env s L) (hi : s.hosts.items[i]? = some L) (srcMac dstMac : EtherAddr) :
    ∃ s1, Same s s1 ∧ Sound env s1 L ∧ Routed s1 ∧ s.rtDhostsToHost env srcMac dstMac
      = if etherAddrIsMcast dstMac then s1.multicast env i srcMac else s1.unicast env i dstMac := by
  -- the state whose matrices fit
  have hfit : ∃ s1, Fits env s s1 ∧ Same s s1 ∧
      (if s.mCt ≠ s.hosts.ct then s.computePaths env else pure (0, s)) = Except.ok (0, s1) := by
    by_cases hne : s.mCt ≠ s.hosts.ct
    · obtain ⟨s1, h, hsame, -⟩ := computePaths_routed hs.graphOk hs.cacheReady hs.allocs
      exact ⟨s1, Or.inr ⟨hne, h⟩, hsame, by rw [if_pos hne, h]⟩
    · exact ⟨s, Or.inl ⟨Decidable.not_not.mp hne, rfl⟩, Same.refl s, by rw [if_neg hne]; rfl⟩
  obtain ⟨s1, hfit, hsame, hrun⟩ := hfit
  obtain ⟨hs1, hr1⟩ := hfit.sound hs
  obtain ⟨i', m, hL, hm, hf, hi'⟩ := hs1.table.find_local
  have hii : i' = i := by
    rw [hsame.hosts] at hi'
    obtain ⟨hlt, -⟩ := List.getElem?_eq_some_iff.mp hi
    exact ((List.getElem?_inj hlt hs.table.nodup).mp (hi.trans hi'.symm)).symm
  subst hii
  refine ⟨s1, hsame, hs1, hr1, ?_⟩
  unfold rtDhostsToHost
  by_cases hne : s.mCt ≠ s.hosts.ct
  · rw [if_pos hne] at hrun ⊢
    simp only [hrun, ok_bind, ne_eq, not_true_eq_false, if_false, hL, hm, hf]
  · rw [if_neg hne] at hrun ⊢
    rw [hrun]
    simp only [ok_bind, ne_eq, not_true_eq_false, if_false, hL, hm, hf]

theorem Same.arc_eq (h : Same s s') : Arc s' = Arc s := by
  funext i j w
  exact propext (h.arc i j w)

/-- Tables with the same links put together the same lengths. -/
theorem Composed.congr (hl : ∀ i j, s'.lastRtt i j = s.lastRtt i j) {k i j v : Nat}
    (h : Composed s k i j v) : Composed s' k i j v := by
  induction h with
  | link hw => exact .link ((hl _ _).trans hw)
  | through hlk hk _ _ ih ih' =>
      refine .through ?_ hk ih ih'
      rw [linked_iff] at hlk ⊢
      rw [hl]
      exact hlk

/-- And have the same first hops. -/
theorem FirstHop.congr (hct : s'.hosts.ct = s.hosts.ct) (hl : ∀ i j, s'.lastRtt i j = s.lastRtt i j)
    {i j p : Nat} (h : FirstHop s i j p) : FirstHop s' i j p := by
  obtain ⟨v, hv, hle, hp⟩ := h
  have hback : ∀ {k v}, Composed s' k i j v → Composed s k i j v := fun hc => hc.congr fun a b => (hl a b).symm
  refine ⟨v, hct ▸ hv.congr hl, fun v' hv' => hle v' (hct ▸ hback hv'), ?_⟩
  rcases hp with ⟨rfl, h0⟩ | ⟨h1, hnot⟩
  · exact Or.inl ⟨rfl, h0.congr hl⟩
  · exact Or.inr ⟨h1.congr hl, fun hc => hnot (hback hc)⟩

theorem Positive.same (h : Positive s) (hs : Same s s') : Positive s' := by
  intro a b w harc
  rw [hs.arc_eq] at harc
  exact h a b w harc

/-- The adjacency matrix of a link graph by its last listed links. -/
def adjacency (last : Nat → Nat → Option UInt32) (i j : Nat) : UInt32 :=
  match last i j with
  | some w => w
  | none => if i = j then pathMin else pathDiscon

theorem startAt_eq (s : Routing) : s.startAt = adjacency s.lastRtt := rfl

/-- A node: its callers' memory and its table. -/
structure Node where
  env : ExtMem
  rd : Routing

/-- `n` nodes with one link graph: MACs `mac`, links `arc`, and `last` listed first. -/
structure SameGraph (q : Qsort) (n : Nat) (mac : Nat → EtherAddr) (arc : Nat → Nat → Nat → Prop)
    (last : Nat → Nat → Option UInt32) (node : Nat → Node) : Prop where
  reach : ∀ c < n, Reach q (node c).env [] (node c).rd
  ct : ∀ c < n, (node c).rd.hosts.ct = n
  self : ∀ c < n, (node c).rd.localHost = (node c).rd.hosts.items[c]?
  macs : ∀ c < n, ∀ i id, (node c).rd.hosts.items[i]? = some id →
    (node c).rd.mac? (node c).env id = some (mac i)
  arcs : ∀ c < n, Arc (node c).rd = arc
  lasts : ∀ c < n, (node c).rd.lastRtt = last

section

variable {n : Nat} {mac : Nat → EtherAddr} {arc : Nat → Nat → Nat → Prop}
  {last : Nat → Nat → Option UInt32} {node : Nat → Node}

theorem SameGraph.sound (h : SameGraph q n mac arc last node) {c : Nat} (hc : c < n) :
    ∃ L, Sound (node c).env (node c).rd L ∧ (node c).rd.hosts.items[c]? = some L := by
  obtain ⟨L, hs⟩ := (h.reach c hc).sound
  exact ⟨L, hs, (h.self c hc).symm.trans hs.table.isLocal⟩

/-- Every node has the same host at the same position. -/
theorem SameGraph.item (h : SameGraph q n mac arc last node) {c : Nat} (hc : c < n) {i : Nat} (hi : i < n) :
    ∃ id, (node c).rd.hosts.items[i]? = some id ∧ (node c).rd.mac? (node c).env id = some (mac i) := by
  have hid : (node c).rd.hosts.items[i]? = some _ := List.getElem?_eq_getElem (by
    have := h.ct c hc
    unfold Da.ct at this
    omega)
  exact ⟨_, hid, h.macs c hc i _ hid⟩

/-- No two positions have one MAC. -/
theorem SameGraph.mac_inj (h : SameGraph q n mac arc last node) {i j : Nat} (hi : i < n) (hj : j < n)
    (he : mac i = mac j) : i = j := by
  obtain ⟨L, hs, -⟩ := h.sound hi
  obtain ⟨a, ha, hma⟩ := h.item hi hi
  obtain ⟨b, hb, hmb⟩ := h.item hi hj
  exact hs.table.strict.index_inj ha hb hma (he ▸ hmb)

section

variable (h : SameGraph q n mac arc last node) (hpos : ∀ i j w, arc i j w → 0 < w)
include h hpos

end

end

/-! ## Unicast -/

/-- The local host is host `0` of the line; peer `d` is host `d + 1`. -/
def lineExt : ExtMem
  | .lhost => some (lineHost 0)
  | .dp d => some (lineHost (.ofNat (d + 1)))

/-- Host `0` connects to host `1`, which announces its link to host `2`. -/
def lineOps : List RtOp :=
  [.dhostAddLink 0 10 ⟨0, 0⟩, .updateEdges [packEdge (lineHost 1) (lineHost 2) 10 5]]

/-- The records after this run. -/
def lineRecs : CellHeap RtHost :=
  ⟨[some ⟨.env .lhost, .htLocal, 0, ⟨[⟨1, 10, 0⟩], 8⟩⟩,
    some ⟨.env (.dp 0), .htDirect, 5, ⟨[⟨2, 10, 5⟩], 8⟩⟩,
    some ⟨.heap (lineHost 2), .htNormal, 0, ⟨[], 8⟩⟩]⟩

/-- The table after this run, computed. -/
theorem lineOps_run : ∃ s, runFrom .insertion lineExt lineOps = .ok s ∧
    s.hosts.items = [0, 1, 2] ∧ s.localHost = some 0 ∧ s.recs = lineRecs := by
  have h : (do
      let s ← runFrom .insertion lineExt lineOps
      pure (s.hosts.items, s.localHost, s.recs)) = Except.ok ([0, 1, 2], some 0, lineRecs) := by
    decide +kernel
  obtain ⟨s, hs, h⟩ := bind_eq_ok.mp h
  simp only [pure_eq_ok, Except.ok.injEq, Prod.mk.injEq] at h
  exact ⟨s, hs, h.1, h.2.1, h.2.2⟩

/-- The pair network: hosts `0` and `1`, each of them linked to the other. -/
def pairArc (i j w : Nat) : Prop := (i = 0 ∧ j = 1 ∨ i = 1 ∧ j = 0) ∧ w = 10

def pairLast (i j : Nat) : Option UInt32 := if i = 0 ∧ j = 1 ∨ i = 1 ∧ j = 0 then some 10 else none

/-- The callers' memory at node `c`. -/
def pairExt (c : Nat) : ExtMem
  | .lhost => some (lineHost (.ofNat c))
  | .dp _ => some (lineHost (.ofNat (1 - c)))

/-- Node `c` connects to the other one, which announces its link back. -/
def pairOps (c : Nat) : List RtOp :=
  [.dhostAddLink 0 10 ⟨0, 0⟩,
    .updateEdges [packEdge (lineHost (.ofNat (1 - c))) (lineHost (.ofNat c)) 10 5]]

/-- The records at either node. -/
def pairRecs : CellHeap RtHost :=
  ⟨[some ⟨.env .lhost, .htLocal, 0, ⟨[⟨1, 10, 0⟩], 8⟩⟩,
    some ⟨.env (.dp 0), .htDirect, 5, ⟨[⟨0, 10, 5⟩], 8⟩⟩]⟩

theorem pairOps_run (c : Nat) (hc : c < 2) : ∃ s, runFrom .insertion (pairExt c) (pairOps c) = .ok s ∧
    s.hosts.items = [c, 1 - c] ∧ s.localHost = some 0 ∧ s.recs = pairRecs := by
  have h : (do
      let s ← runFrom .insertion (pairExt c) (pairOps c)
      pure (s.hosts.items, s.localHost, s.recs)) = Except.ok ([c, 1 - c], some 0, pairRecs) := by
    match c, hc with
    | 0, _ => decide +kernel
    | 1, _ => decide +kernel
  obtain ⟨s, hs, h⟩ := bind_eq_ok.mp h
  simp only [pure_eq_ok, Except.ok.injEq, Prod.mk.injEq] at h
  exact ⟨s, hs, h.1, h.2.1, h.2.2⟩

/-- In either state each of the two hosts has one link, to the other one. -/
theorem pairState_links {c i : Nat} (hc : c < 2) (hi : i < 2) (hitems : s.hosts.items = [c, 1 - c])
    (hrecs : s.recs = pairRecs) :
    ∃ d t, s.linksAt i = [⟨d, 10, t⟩] ∧ ∀ j, LeadsTo s j ⟨d, 10, t⟩ ↔ j = 1 - i := by
  have hpos : ∀ (d : Nat) (t : UInt64), s.hosts.items[1 - i]? = some d → (∀ j, j < 2 → j ≠ 1 - i →
      s.hosts.items[j]? ≠ some d) → ∀ j, LeadsTo s j ⟨d, 10, t⟩ ↔ j = 1 - i := by
    intro d t hd hother j
    refine ⟨fun hj => ?_, fun hj => hj ▸ hd⟩
    by_cases hj2 : j < 2
    · by_cases hji : j = 1 - i
      · exact hji
      · exact absurd hj (hother j hj2 hji)
    · have := hj.lt
      rw [Da.ct, hitems] at this
      exact absurd this hj2
  obtain rfl | rfl : c = 0 ∨ c = 1 := by omega
  · obtain rfl | rfl : i = 0 ∨ i = 1 := by omega
    · exact ⟨1, 0, by rw [linksAt, hitems, hrecs]; rfl, hpos 1 0 (by rw [hitems]; rfl) (by rw [hitems]; decide)⟩
    · exact ⟨0, 5, by rw [linksAt, hitems, hrecs]; rfl, hpos 0 5 (by rw [hitems]; rfl) (by rw [hitems]; decide)⟩
  · obtain rfl | rfl : i = 0 ∨ i = 1 := by omega
    · exact ⟨0, 5, by rw [linksAt, hitems, hrecs]; rfl, hpos 0 5 (by rw [hitems]; rfl) (by rw [hitems]; decide)⟩
    · exact ⟨1, 0, by rw [linksAt, hitems, hrecs]; rfl, hpos 1 0 (by rw [hitems]; rfl) (by rw [hitems]; decide)⟩

theorem linksAt_of_le (hi : s.hosts.ct ≤ i) : s.linksAt i = [] := by
  unfold linksAt
  rw [List.getElem?_eq_none (by simpa [Da.ct] using hi)]
  rfl

theorem pairState_arc {c : Nat} (hc : c < 2) (hitems : s.hosts.items = [c, 1 - c])
    (hrecs : s.recs = pairRecs) : Arc s = pairArc := by
  funext i j w
  by_cases hi : i < 2
  · obtain ⟨d, t, hl, hto⟩ := pairState_links hc hi hitems hrecs
    simp only [Arc, hl, List.mem_singleton, exists_eq_left, hto, pairArc, eq_iff_iff]
    show j = 1 - i ∧ 10 = w ↔ _
    omega
  · have hl : s.linksAt i = [] := linksAt_of_le (by rw [Da.ct, hitems]; exact Nat.le_of_not_lt hi)
    simp only [Arc, hl, pairArc, eq_iff_iff, List.not_mem_nil, false_and, exists_false, false_iff]
    omega

theorem pairState_last {c : Nat} (hc : c < 2) (hitems : s.hosts.items = [c, 1 - c])
    (hrecs : s.recs = pairRecs) : s.lastRtt = pairLast := by
  funext i j
  by_cases hi : i < 2
  · obtain ⟨d, t, hl, hto⟩ := pairState_links hc hi hitems hrecs
    have hiff : j = 1 - i ↔ i = 0 ∧ j = 1 ∨ i = 1 ∧ j = 0 := by omega
    rw [lastRtt, hl, pairLast]
    by_cases hj : i = 0 ∧ j = 1 ∨ i = 1 ∧ j = 0
    · rw [if_pos hj]
      simp [(hto j).mpr (hiff.mpr hj)]
    · rw [if_neg hj]
      simp [mt (hto j).mp (mt hiff.mp hj)]
  · have hl : s.linksAt i = [] := linksAt_of_le (by rw [Da.ct, hitems]; exact Nat.le_of_not_lt hi)
    rw [lastRtt, hl, pairLast, if_neg (by omega)]
    rfl

/-- The MAC at position `i`. -/
def pairMac (i : Nat) : EtherAddr := (lineHost (.ofNat i)).mac

/-- **The two nodes hold the same link graph.** -/
theorem pair_sameGraph : ∃ node, SameGraph .insertion 2 pairMac pairArc pairLast node := by
  obtain ⟨s0, hrun0, hitems0, hlocal0, hrecs0⟩ := pairOps_run 0 (by decide)
  obtain ⟨s1, hrun1, hitems1, hlocal1, hrecs1⟩ := pairOps_run 1 (by decide)
  have hnode : ∀ c < 2, ∃ s : Routing, runFrom .insertion (pairExt c) (pairOps c) = .ok s ∧
      s.hosts.items = [c, 1 - c] ∧ s.localHost = some 0 ∧ s.recs = pairRecs ∧
      s = if c = 0 then s0 else s1 := by
    intro c hc
    obtain rfl | rfl : c = 0 ∨ c = 1 := by omega
    · exact ⟨s0, hrun0, hitems0, hlocal0, hrecs0, rfl⟩
    · exact ⟨s1, hrun1, hitems1, hlocal1, hrecs1, rfl⟩
  refine ⟨fun c => ⟨pairExt c, if c = 0 then s0 else s1⟩, ?_, ?_, ?_, ?_, ?_, ?_⟩
  · intro c hc
    obtain ⟨s, hrun, -, -, -, hs⟩ := hnode c hc
    exact hs ▸ reach_runFrom hrun
  · intro c hc
    obtain ⟨s, -, hitems, -, -, hs⟩ := hnode c hc
    show (if c = 0 then s0 else s1).hosts.ct = 2
    rw [← hs, Da.ct, hitems]
    rfl
  · intro c hc
    obtain ⟨s, -, hitems, hlocal, -, hs⟩ := hnode c hc
    show (if c = 0 then s0 else s1).localHost = (if c = 0 then s0 else s1).hosts.items[c]?
    rw [← hs, hlocal, hitems]
    obtain rfl | rfl : c = 0 ∨ c = 1 := by omega
    · rfl
    · rfl
  · intro c hc i id hid
    obtain ⟨s, -, hitems, -, hrecs, hs⟩ := hnode c hc
    simp only [← hs] at hid ⊢
    rw [hitems] at hid
    rw [mac?, hrecs]
    have hi : i < 2 := (List.getElem?_eq_some_iff.mp hid).1
    obtain rfl | rfl : c = 0 ∨ c = 1 := by omega
    · obtain rfl | rfl : i = 0 ∨ i = 1 := by omega
      · cases hid; rfl
      · cases hid; rfl
    · obtain rfl | rfl : i = 0 ∨ i = 1 := by omega
      · cases hid; rfl
      · cases hid; rfl
  · intro c hc
    obtain ⟨s, -, hitems, -, hrecs, hs⟩ := hnode c hc
    exact hs ▸ pairState_arc hc hitems hrecs
  · intro c hc
    obtain ⟨s, -, hitems, -, hrecs, hs⟩ := hnode c hc
    exact hs ▸ pairState_last hc hitems hrecs

/-! ## Three hosts -/

/-- Three hosts, each of them linked to both others; the links between `0` and `2` are slow. -/
def triRtt (i j : Nat) : UInt32 := if i + j = 2 then 100 else 10

def triArc (i j w : Nat) : Prop := i < 3 ∧ j < 3 ∧ i ≠ j ∧ w = (triRtt i j).toNat

def triLast (i j : Nat) : Option UInt32 := if i < 3 ∧ j < 3 ∧ i ≠ j then some (triRtt i j) else none

instance (i j w : Nat) : Decidable (triArc i j w) := by
  unfold triArc; infer_instance

/-- Peer `d` of node `c`. -/
def triPeer (c d : Nat) : Nat := if d < c then d else d + 1

/-- The callers' memory at node `c`. -/
def triExt (c : Nat) : ExtMem
  | .lhost => some (lineHost (.ofNat c))
  | .dp d => some (lineHost (.ofNat (triPeer c d)))

/-- The link from `i` to `j`, as `i` announces it. -/
def triEdge (i j : Nat) : PktEdge := packEdge (lineHost (.ofNat i)) (lineHost (.ofNat j)) (triRtt i j) 5

/-- Node `c` connects to both others, which announce their links. -/
def triOps (c : Nat) : List RtOp :=
  [.dhostAddLink 0 (triRtt c (triPeer c 0)) ⟨0, 0⟩, .dhostAddLink 1 (triRtt c (triPeer c 1)) ⟨0, 0⟩,
    .updateEdges [triEdge (triPeer c 0) c, triEdge (triPeer c 0) (triPeer c 1), triEdge (triPeer c 1) c,
      triEdge (triPeer c 1) (triPeer c 0)]]

/-- The weights of the links from `i` to `j`. -/
def weights (s : Routing) (i j : Nat) : List Nat :=
  ((s.linksAt i).filter fun l => LeadsTo s j l).map fun l => l.rttUs.toNat

theorem mem_weights {w : Nat} : w ∈ s.weights i j ↔ Arc s i j w := by
  simp [weights, Arc, and_assoc]

/-- What node `c` knows then. -/
structure TriTable (c : Nat) (s : Routing) : Prop where
  ct : s.hosts.ct = 3
  self : s.localHost = s.hosts.items[c]?
  macs : s.hosts.items.map (s.mac? (triExt c)) = [some (pairMac 0), some (pairMac 1), some (pairMac 2)]
  rtts : ∀ i < 3, ∀ j < 3, s.weights i j = (triLast i j).toList.map UInt32.toNat ∧ s.lastRtt i j = triLast i j

/-- The tables of the three nodes, computed. -/
theorem triOps_run (c : Nat) (hc : c < 3) : ∃ s, runFrom .insertion (triExt c) (triOps c) = .ok s ∧ TriTable c s := by
  have h : (do
      let s ← runFrom .insertion (triExt c) (triOps c)
      pure (s.hosts.ct, decide (s.localHost = s.hosts.items[c]?), s.hosts.items.map (s.mac? (triExt c)),
        decide (∀ i ∈ List.range 3, ∀ j ∈ List.range 3, s.weights i j = (triLast i j).toList.map UInt32.toNat ∧
          s.lastRtt i j = triLast i j)))
      = Except.ok (3, true, [some (pairMac 0), some (pairMac 1), some (pairMac 2)], true) := by
    match c, hc with
    | 0, _ => decide +kernel
    | 1, _ => decide +kernel
    | 2, _ => decide +kernel
  obtain ⟨s, hs, h⟩ := bind_eq_ok.mp h
  simp only [pure_eq_ok, Except.ok.injEq, Prod.mk.injEq, decide_eq_true_eq, List.mem_range] at h
  exact ⟨s, hs, h.1, h.2.1, h.2.2.1, h.2.2.2⟩

/-- All three have the same links between the same positions, -/
theorem TriTable.arc_eq {c : Nat} (h : TriTable c s) : Arc s = triArc := by
  funext i j w
  rw [eq_iff_iff]
  by_cases hij : i < 3 ∧ j < 3
  · rw [← mem_weights, (h.rtts i hij.1 j hij.2).1, triLast, triArc]
    by_cases hne : i ≠ j
    · simp [hij.1, hij.2, hne]
    · simp [hne]
  · constructor
    · intro harc
      have := harc.lt
      rw [h.ct] at this
      exact absurd this hij
    · exact fun harc => absurd ⟨harc.1, harc.2.1⟩ hij

/-- and the same last listed link. -/
theorem TriTable.last_eq {c : Nat} (h : TriTable c s) : s.lastRtt = triLast := by
  funext i j
  by_cases hij : i < 3 ∧ j < 3
  · exact (h.rtts i hij.1 j hij.2).2
  · rw [triLast, if_neg fun hl => hij ⟨hl.1, hl.2.1⟩]
    cases hl : s.lastRtt i j with
    | none => rfl
    | some w =>
        have := (arc_of_lastRtt hl).lt
        rw [h.ct] at this
        exact absurd this hij

/-- **The three nodes hold the same link graph.** -/
theorem tri_sameGraph : ∃ node, SameGraph .insertion 3 pairMac triArc triLast node := by
  have hnode : ∀ c, ∃ s, c < 3 → runFrom .insertion (triExt c) (triOps c) = .ok s ∧ TriTable c s := by
    intro c
    by_cases hc : c < 3
    · obtain ⟨s, hs⟩ := triOps_run c hc
      exact ⟨s, fun _ => hs⟩
    · exact ⟨lineTable, fun h => absurd h hc⟩
  choose rd hrd using hnode
  refine ⟨fun c => ⟨triExt c, rd c⟩, fun c hc => reach_runFrom (hrd c hc).1, fun c hc => (hrd c hc).2.ct,
    fun c hc => (hrd c hc).2.self, fun c hc i id hid => ?_, fun c hc => (hrd c hc).2.arc_eq,
    fun c hc => (hrd c hc).2.last_eq⟩
  have hi : i < 3 := (hrd c hc).2.ct ▸ (List.getElem?_eq_some_iff.mp hid).1
  have hm : ((rd c).hosts.items.map ((rd c).mac? (triExt c)))[i]? = some ((rd c).mac? (triExt c) id) := by
    rw [List.getElem?_map, hid]
    rfl
  rw [(hrd c hc).2.macs] at hm
  match i, hi with
  | 0, _ => exact (Option.some.inj hm).symm
  | 1, _ => exact (Option.some.inj hm).symm
  | 2, _ => exact (Option.some.inj hm).symm

end Routing

end P2pVn
