import P2pVn.Routing.Network

/-!
# `Routing.Multicast` — a multicast frame in a network of nodes

Copies of the frame are in flight; in any order, a node that holds a copy sends it to the hosts that its
own `rt_dhosts_to_host` names, and each of them then holds one more. The frame starts at its source, which
asks its own table like every other node.

- `multicast_source`: asked for the source itself, the multicast branch names nobody, because no path from
  the source has the source as an intermediate.
- `spread_run`: so the first step is the last one.
- `multicast_once_iff`: everybody gets the frame exactly if there is nobody to get it.
-/

namespace P2pVn
open CUb WeightedGraph

namespace Routing

variable {env : ExtMem} {q : Qsort} {s s' : Routing} {L : HostId} {i j k : Nat}

/-! ## The multicast branch at the source -/

/-- The path from the source to itself is the source. -/
theorem Routed.srcToCur_self (hr : Routed s) (hg : GraphOk env s) (hi : i < s.hosts.ct) (fuel : Nat)
    (path : Da Nat) :
    ∃ path', s.srcToCur i (fuel + 1) i path [] = .ok (path', []) ∧ path'.items = path.items ++ [i] := by
  obtain ⟨path', hadd, hitems⟩ := path.addToEnd_nil i
  refine ⟨path', ?_, hitems⟩
  unfold srcToCur
  rw [hr.next i i hi hi, cells_diag (hg.diag i), ok_bind, hadd]
  rfl

/-- No path from `i` begins with `i`. -/
theorem Routed.startsWith_self (hr : Routed s) (hi : i < s.hosts.ct)
    (hj : j < s.hosts.ct) (ps : List Nat) : s.startsWith j (i :: ps) i = .ok false := by
  unfold startsWith
  rw [hr.next i j hi hj, ok_bind]
  cases hn : (cells s.startAt s.hosts.ct i j).2 with
  | none => rfl
  | some p =>
      obtain ⟨-, hne, -⟩ := cells_next hn
      simp only [ne_eq, hne, not_false_eq_true, if_true]
      rfl

theorem collectDsts_none {path : List Nat} {srcI : Nat} {d : Da Nat} {al : AllocScript} :
    ∀ (is : List Nat), (∀ j ∈ is, s.startsWith j path srcI = .ok false) →
      s.collectDsts path srcI is d al = .ok (d, al) := by
  intro is
  induction is with
  | nil => exact fun _ => rfl
  | cons j is ih =>
      intro h
      unfold collectDsts
      rw [h j (by simp), ok_bind]
      exact ih fun j' hj' => h j' (by simp [hj'])

/-- **Asked for the frames of local itself, the multicast branch names nobody.** -/
theorem multicast_source (hs : Sound env s L) (hr : Routed s) {id : HostId} {srcMac : EtherAddr}
    (hi : s.hosts.items[i]? = some id) (hm : s.mac? env id = some srcMac) :
    ∃ s', s.multicast env i srcMac = .ok (⟨0, [], true⟩, s') := by
  have hg := hs.graphOk
  have hlt : i < s.hosts.ct := (List.getElem?_eq_some_iff.mp hi).1
  obtain ⟨path, hpath, hitems⟩ := hr.srcToCur_self hg hlt s.mCt ⟨[], 8⟩
  have hitems : path.items = [i] := hitems
  have hdsts : s.collectDsts path.items i (List.range s.mCt) ⟨[], s.mCt⟩ [] = .ok (⟨[], s.mCt⟩, []) := by
    refine collectDsts_none _ fun j hj => ?_
    rw [List.mem_range, hr.mCt] at hj
    rw [hitems]
    exact hr.startsWith_self hlt hj []
  unfold multicast
  simp only [hg.toHostsOk.findHost_index hi hm, hr.path i i hlt hlt, cells_diag (hg.diag i), ok_bind,
    hs.allocs, Da.init, takeAlloc, Bool.not_true, Bool.false_eq_true, if_false,
    if_neg (show pathMin ≠ pathDiscon by decide), hpath, hdsts, hostList]
  exact ⟨_, rfl⟩

/-- At the source the whole call names nobody, and leaves the table and its links as they are. -/
theorem rtDhostsToHost_source (hs : Sound env s L) (hi : s.hosts.items[i]? = some L)
    {srcMac dstMac : EtherAddr} (hm : s.mac? env L = some srcMac)
    (hcast : etherAddrIsMcast dstMac = true) :
    ∃ f s', s.rtDhostsToHost env srcMac dstMac = .ok (f, s') ∧ f.res = [] := by
  obtain ⟨s1, hsame, hs1, hr1, hrun⟩ := rtDhostsToHost_eq hs hi srcMac dstMac
  obtain ⟨s', h⟩ := multicast_source hs1 hr1 (hsame.hosts ▸ hi) ((hsame.mac? L).trans hm)
  exact ⟨_, s', by rw [hrun, if_pos hcast, h], rfl⟩

/-! ## Copies in flight -/

/-- The network while a frame spreads: the nodes, the nodes that hold a copy they have not processed (one
    entry for each copy), and how many copies each node was sent so far. -/
structure Spreading where
  node : Nat → Node
  pending : List Nat
  received : Nat → Nat

/-- The frame is at its source. -/
def Spreading.start (node : Nat → Node) (src : Nat) : Spreading := ⟨node, [src], fun _ => 0⟩

/-- Node `c`, after its table went on to `s`. -/
def setTable (node : Nat → Node) (c : Nat) (s : Routing) : Nat → Node :=
  fun c' => if c' = c then { node c with rd := s } else node c'

/-- Any one pending copy is processed: its node sends it to exactly the hosts that its table names (an
    error names nobody). -/
inductive Spread (n : Nat) (mac : Nat → EtherAddr) (srcMac dstMac : EtherAddr) : Spreading → Spreading → Prop where
  | process {m : Spreading} {pre post : List Nat} {c : Nat} {f : Forwards} {s1 : Routing} {dsts : List Nat}
      (hp : m.pending = pre ++ c :: post)
      (hrun : (m.node c).rd.rtDhostsToHost (m.node c).env srcMac dstMac = .ok (f, s1))
      (hto : List.Forall₂ (fun ptr p => p < n ∧ ∃ ip, HostPtr.deref (m.node c).env ptr = some ip ∧ ip.mac = mac p)
        f.res dsts) :
      Spread n mac srcMac dstMac m
        ⟨setTable m.node c s1, pre ++ post ++ dsts, fun p => m.received p + dsts.count p⟩

/-- What multicast is to do: the exchange stops, however the copies are processed; the source never gets
    the frame back; and at the end every other host that is reachable from it has got it once. -/
structure MulticastOnce (n : Nat) (mac : Nat → EtherAddr) (arc : Nat → Nat → Nat → Prop) (node : Nat → Node)
    (src : Nat) (dstMac : EtherAddr) : Prop where
  stops : Acc (fun m' m => Spread n mac (mac src) dstMac m m') (.start node src)
  goes : ∀ m, Relation.ReflTransGen (Spread n mac (mac src) dstMac) (.start node src) m →
    m.pending ≠ [] → ∃ m', Spread n mac (mac src) dstMac m m'
  source : ∀ m, Relation.ReflTransGen (Spread n mac (mac src) dstMac) (.start node src) m →
    m.received src = 0
  once : ∀ m, Relation.ReflTransGen (Spread n mac (mac src) dstMac) (.start node src) m → m.pending = [] →
    ∀ c, c ≠ src → Reachable arc src c → m.received c = 1

section

variable {n : Nat} {mac : Nat → EtherAddr} {arc : Nat → Nat → Nat → Prop}
  {last : Nat → Nat → Option UInt32} {node : Nat → Node} {src : Nat} {dstMac : EtherAddr}

/-- At the source nobody is named. -/
theorem SameGraph.source_run (h : SameGraph q n mac arc last node) (hsrc : src < n)
    (hcast : etherAddrIsMcast dstMac = true) :
    ∃ f s', (node src).rd.rtDhostsToHost (node src).env (mac src) dstMac = .ok (f, s') ∧ f.res = [] := by
  obtain ⟨L, hs, hi⟩ := h.sound hsrc
  exact rtDhostsToHost_source hs hi (h.macs src hsrc src L hi) hcast

/-- **Step lemma.** The first step leaves no copy behind. -/
theorem SameGraph.spread_start (h : SameGraph q n mac arc last node) (hsrc : src < n)
    (hcast : etherAddrIsMcast dstMac = true) {m : Spreading}
    (hstep : Spread n mac (mac src) dstMac (.start node src) m) :
    m.pending = [] ∧ m.received = fun _ => 0 := by
  obtain ⟨f, s1, hrun, hnil⟩ := h.source_run hsrc hcast
  cases hstep with
  | process hp hrun' hto =>
      rename_i pre post c f' s1' dsts
      -- there is one copy only, at the source
      have hlen : [src].length = (pre ++ c :: post).length := congrArg List.length hp
      simp only [List.length_cons, List.length_nil, List.length_append] at hlen
      have hpre : pre = [] := List.eq_nil_of_length_eq_zero (by omega)
      have hpost : post = [] := List.eq_nil_of_length_eq_zero (by omega)
      subst hpre hpost
      cases hp
      cases hrun.symm.trans hrun'
      rw [hnil] at hto
      cases hto
      exact ⟨rfl, rfl⟩

theorem spread_stuck {srcMac : EtherAddr} {m m' : Spreading} (hp : m.pending = [])
    (h : Spread n mac srcMac dstMac m m') : False := by
  cases h with
  | process hp' _ _ =>
      rw [hp] at hp'
      exact absurd hp'.symm (by simp)

/-- **Run lemma.** The frame is at its source, or nowhere and received by nobody. -/
theorem SameGraph.spread_run (h : SameGraph q n mac arc last node) (hsrc : src < n)
    (hcast : etherAddrIsMcast dstMac = true) {m : Spreading}
    (hrun : Relation.ReflTransGen (Spread n mac (mac src) dstMac) (.start node src) m) :
    m = .start node src ∨ (m.pending = [] ∧ m.received = fun _ => 0) := by
  induction hrun with
  | refl => exact Or.inl rfl
  | tail _ hstep ih =>
      rcases ih with rfl | ⟨hp, -⟩
      · exact Or.inr (h.spread_start hsrc hcast hstep)
      · exact absurd hstep fun hs => spread_stuck hp hs

theorem SameGraph.spread_goes (h : SameGraph q n mac arc last node) {src : Nat} (hsrc : src < n)
    (hcast : etherAddrIsMcast dstMac = true) :
    ∃ m, Spread n mac (mac src) dstMac (.start node src) m := by
  obtain ⟨f, s1, hrun, hnil⟩ := h.source_run hsrc hcast
  refine ⟨_, .process (show [src] = [] ++ src :: [] from rfl) hrun (?_ : List.Forall₂ _ f.res [])⟩
  rw [hnil]
  exact .nil

/-- **Multicast reaches every reachable host once exactly if there is none to reach.** -/
theorem multicast_once_iff (h : SameGraph q n mac arc last node) (hsrc : src < n)
    (hcast : etherAddrIsMcast dstMac = true) :
    MulticastOnce n mac arc node src dstMac ↔ ∀ c, c ≠ src → ¬ Reachable arc src c := by
  constructor
  · intro honce c hne hr
    obtain ⟨m, hstep⟩ := h.spread_goes hsrc hcast
    obtain ⟨hp, hreceived⟩ := h.spread_start hsrc hcast hstep
    have h1 := honce.once m (.single hstep) hp c hne hr
    rw [hreceived] at h1
    cases h1
  · intro hnone
    refine ⟨.intro _ fun m hstep => ?_, fun m hrun hp => ?_, fun m hrun => ?_, fun m hrun hp c hne hr => ?_⟩
    · obtain ⟨hp, -⟩ := h.spread_start hsrc hcast hstep
      exact .intro _ fun m' hstep' => (spread_stuck hp hstep').elim
    · rcases h.spread_run hsrc hcast hrun with rfl | ⟨hnil, -⟩
      · exact h.spread_goes hsrc hcast
      · exact absurd hnil hp
    · rcases h.spread_run hsrc hcast hrun with rfl | ⟨-, hreceived⟩
      · rfl
      · rw [hreceived]
    · exact absurd hr (hnone c hne)

end

/-- The broadcast address. -/
def broadcastMac : EtherAddr := ⟨Vector.replicate 6 0xff⟩

theorem multicast_once_iff_pair : ∃ node, SameGraph .insertion 2 pairMac pairArc pairLast node ∧
    (MulticastOnce 2 pairMac pairArc node 0 broadcastMac ↔ ∀ c, c ≠ 0 → ¬ Reachable pairArc 0 c) := by
  obtain ⟨node, h⟩ := pair_sameGraph
  exact ⟨node, h, multicast_once_iff h (by decide) (by decide)⟩

/-- **A broadcast of host `0` does not get to host `1`**, its peer: it is sent to nobody. -/
theorem multicast_pair_lost : ∃ node, SameGraph .insertion 2 pairMac pairArc pairLast node ∧
    Reachable pairArc 0 1 ∧ etherAddrIsMcast broadcastMac = true ∧
    (∃ m, Spread 2 pairMac (pairMac 0) broadcastMac (.start node 0) m ∧ m.pending = [] ∧ m.received 1 = 0) ∧
    ¬ MulticastOnce 2 pairMac pairArc node 0 broadcastMac := by
  obtain ⟨node, h⟩ := pair_sameGraph
  have hcast : etherAddrIsMcast broadcastMac = true := by decide
  have hreach : Reachable pairArc 0 1 := reachable_of_arc (w := 10) ⟨Or.inl ⟨rfl, rfl⟩, rfl⟩
  obtain ⟨m, hstep⟩ := h.spread_goes (show 0 < 2 by decide) hcast
  obtain ⟨hp, hreceived⟩ := h.spread_start (by decide) hcast hstep
  have hzero : m.received 1 = 0 := by rw [hreceived]
  refine ⟨node, h, hreach, hcast, ⟨m, hstep, hp, hzero⟩, fun honce => ?_⟩
  have h1 := honce.once m (.single hstep) hp 1 (by decide) hreach
  rw [hzero] at h1
  cases h1

end Routing

end P2pVn
