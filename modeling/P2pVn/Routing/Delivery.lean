import P2pVn.Lib.Simulation
import P2pVn.Routing.Multicast
import P2pVn.Routing.Returning
import Mathlib.Order.WithBot

/-!
# `Routing.Delivery` — unicast frames in a network of nodes

Any number of frames are under way between nodes that hold the same link graph. In any order, a node that holds
a frame for somebody else looks it up in its own table and sends it to the direct peer that it is handed.

The peer is the intermediate that `next` records, which need not be on a shortest path. Still the frame gets
nearer: the entry of that peer has a smaller `rank`, and the matrices are the same everywhere.

- `SameGraph.lookup`: one lookup hands out nobody, or the next node of the frame's trail (`toward`).
- `Underway.sent`, `Transit.Inv.step`: the step lemmas; `Transit.Inv.run`: the run lemma.
- `unicast_arrives`: a frame between linked nodes arrives, through no node twice; any other one is dropped by
  its source.
-/

namespace P2pVn
open CUb Following

namespace Routing

variable {q : Qsort} {s' : Routing} {A : Nat → Nat → UInt32} {n c d p : Nat}

/-! ## The trail of a frame -/

/-- The node that `c` sends a frame for `d` to, in a network of `n` nodes. -/
def toward (A : Nat → Nat → UInt32) (n d c : Nat) : Option Nat :=
  if c = d then none else some ((cells A n c d).2.getD d)

/-- How far a frame for `d` is from it: nothing is nearer than `d` itself. -/
def remoteness (A : Nat → Nat → UInt32) (n d c : Nat) : WithBot (Nat ×ₗ Nat) :=
  if c = d then ⊥ else (rank (cells A n c d) : WithBot (Nat ×ₗ Nat))

section

variable (hdiag : ∀ i, A i i = pathMin)
include hdiag

/-- A node that a frame is sent to has a link to the destination, or is the destination. -/
theorem toward_connected (hd : d < n) : ∀ a b, (a < n ∧ A a d ≠ pathDiscon) → toward A n d a = some b →
    b < n ∧ A b d ≠ pathDiscon := by
  intro a b _ hab
  unfold toward at hab
  split at hab
  · cases hab
  · cases hnext : (cells A n a d).2 with
    | none =>
        rw [hnext, Option.getD_none, Option.some.injEq] at hab
        subst hab
        exact ⟨hd, by rw [hdiag]; decide⟩
    | some p =>
        rw [hnext, Option.getD_some, Option.some.injEq] at hab
        subst hab
        obtain ⟨hp, -, -, -, hpd⟩ := cells_next hnext
        exact ⟨hp, hpd⟩

omit hdiag in
/-- **Every hop is a step nearer.** -/
theorem remoteness_lt {a b : Nat} (hab : toward A n d a = some b) :
    remoteness A n d b < remoteness A n d a := by
  unfold toward at hab
  split at hab
  · cases hab
  · rename_i hne
    rw [Option.some.injEq] at hab
    subst hab
    unfold remoteness
    rw [if_neg hne]
    split
    · exact WithBot.bot_lt_coe _
    · rename_i hb
      cases hnext : (cells A n a d).2 with
      | none => exact absurd (by rw [hnext]; rfl) hb
      | some p => exact WithBot.coe_lt_coe.mpr (rank_lt hnext)

theorem exists_way (hc : c < n) (hd : d < n) (hcd : A c d ≠ pathDiscon) :
    ∃ vs, Trail (toward A n d) c vs :=
  exists_trail (μ := remoteness A n d) (toward_connected hdiag hd) (fun _ _ _ => remoteness_lt) c ⟨hc, hcd⟩

/-- A trail visits no node twice, so at most all of them. -/
theorem way_nodup (hc : c < n) (hd : d < n) (hcd : A c d ≠ pathDiscon) {vs : List Nat}
    (h : Trail (toward A n d) c vs) : vs.Nodup ∧ vs.length ≤ n := by
  have hnodup := h.nodup (toward_connected hdiag hd) (μ := remoteness A n d) (fun _ _ _ => remoteness_lt) ⟨hc, hcd⟩
  have hall := h.all (toward_connected hdiag hd) ⟨hc, hcd⟩
  exact ⟨hnodup, length_le_of_nodup hnodup fun v hv => (hall v hv).1⟩

end

/-! ## One lookup -/

section

variable {mac : Nat → EtherAddr} {arc : Nat → Nat → Nat → Prop} {last : Nat → Nat → Option UInt32}
  {node : Nat → Node}

theorem SameGraph.startAt (h : SameGraph q n mac arc last node) (hc : c < n) :
    (node c).rd.startAt = adjacency last := by
  rw [startAt_eq, h.lasts c hc]

theorem SameGraph.diag (h : SameGraph q n mac arc last node) (hc : c < n) (i : Nat) :
    adjacency last i i = pathMin := by
  obtain ⟨L, hs, -⟩ := h.sound hc
  rw [← h.startAt hc]
  exact hs.graphOk.diag i

/-- **A lookup for another node** hands out nobody where there is no entry, and otherwise the direct peer that
    is next on the trail. -/
theorem SameGraph.lookup (h : SameGraph q n mac arc last node) (hc : c < n) (hd : d < n) (hne : c ≠ d)
    (hcast : etherAddrIsMcast (mac d) = false) (srcMac : EtherAddr) :
    ∃ f s', (node c).rd.rtDhostsToHost (node c).env srcMac (mac d) = .ok (f, s') ∧
      (adjacency last c d = pathDiscon → f.res = []) ∧
      (adjacency last c d ≠ pathDiscon → ∃ k ip p, f.res = [.env (.dp k)] ∧ (node c).env (.dp k) = some ip ∧
        ip.mac = mac p ∧ p < n ∧ toward (adjacency last) n d c = some p) := by
  obtain ⟨L, hs, hi⟩ := h.sound hc
  obtain ⟨id, hj, hm⟩ := h.item hc hd
  obtain ⟨s1, hsame, hs1, hr1, hrun⟩ := rtDhostsToHost_eq hs hi srcMac (mac d)
  rw [hcast, if_neg (by decide)] at hrun
  have hct : s1.hosts.ct = n := hsame.ct.trans (h.ct c hc)
  have hstart : s1.startAt = adjacency last := hsame.startAt.trans (h.startAt hc)
  obtain ⟨f, s', hu, hret, hnone, hsome⟩ := unicast_result hs1 hr1 (hct ▸ hc) (hsame.hosts ▸ hj)
    ((hsame.mac? id).trans hm)
  have hlook := hrun.trans hu
  refine ⟨f, s', hlook, fun h0 => hnone ?_, fun h1 => ?_⟩
  · have hpos : ¬ 0 < pathAt s1 s1.hosts.ct c d := by
      rw [pathAt_pos, hstart]
      exact not_not.mpr h0
    omega
  · obtain ⟨r, ⟨idp, hp, hget⟩, hres⟩ := hsome (by rw [pathAt_pos, hstart]; exact h1)
    -- the frame is not for `c` itself, so whoever is handed out is a peer
    have hother : ¬ IsLocalMac (node c).env (node c).rd (mac d) := by
      rintro ⟨L', hL', hmac⟩
      rw [hs.table.isLocal, Option.some.injEq] at hL'
      subst hL'
      exact hne (hs.table.strict.index_inj hi hj hmac hm)
    obtain ⟨k, ip, hptr, hip⟩ := rtDhostsToHost_peersOnly (h.reach c hc) hlook (by omega) (Or.inr hother) r.host
      (by rw [hres]; exact List.mem_singleton_self _)
    rw [hsame.hosts] at hp
    have hpmac := h.macs c hc _ idp hp
    obtain ⟨r', ip', hr', hip', hipmac⟩ := get_of_mac? hpmac
    rw [hsame.get idp, hr', Option.some.injEq] at hget
    subst hget
    rw [hptr] at hip'
    obtain rfl : ip' = ip := Option.some.inj (hip'.symm.trans hip)
    refine ⟨k, ip', _, by rw [hres, hptr], hip, hipmac, ?_, ?_⟩
    · rw [← h.ct c hc]
      exact (List.getElem?_eq_some_iff.mp hp).1
    · rw [toward, if_neg hne, nextAt, hstart, hct]

/-- A lookup leaves the link graphs as they are. -/
theorem SameGraph.setTable (h : SameGraph q n mac arc last node) {srcMac dstMac : EtherAddr} {f : Forwards}
    (hrun : (node c).rd.rtDhostsToHost (node c).env srcMac dstMac = .ok (f, s')) :
    SameGraph q n mac arc last (setTable node c s') := by
  have hsame := rtDhostsToHost_same hrun
  have hcase : ∀ {P : Node → Prop}, ∀ a, P (node a) → (a = c → P { node c with rd := s' }) →
      P (Routing.setTable node c s' a) := by
    intro P a hother hself
    unfold Routing.setTable
    split
    · rename_i ha
      exact hself ha
    · exact hother
  refine ⟨fun a ha => ?_, fun a ha => ?_, fun a ha => ?_, fun a ha => ?_, fun a ha => ?_, fun a ha => ?_⟩
  · refine hcase (P := fun nd => Reach q nd.env [] nd.rd) a (h.reach a ha) ?_
    rintro rfl
    exact (h.reach a ha).forward hrun
  · refine hcase (P := fun nd => nd.rd.hosts.ct = n) a (h.ct a ha) ?_
    rintro rfl
    exact hsame.ct.trans (h.ct a ha)
  · refine hcase (P := fun nd => nd.rd.localHost = nd.rd.hosts.items[a]?) a (h.self a ha) ?_
    rintro rfl
    exact hsame.localHost.trans ((h.self a ha).trans (by rw [hsame.hosts]))
  · refine hcase (P := fun nd => ∀ i id, nd.rd.hosts.items[i]? = some id → nd.rd.mac? nd.env id = some (mac i)) a
      (h.macs a ha) ?_
    rintro rfl i id hi
    exact (hsame.mac? id).trans (h.macs a ha i id (hsame.hosts ▸ hi))
  · refine hcase (P := fun nd => Arc nd.rd = arc) a (h.arcs a ha) ?_
    rintro rfl
    exact hsame.arc_eq.trans (h.arcs a ha)
  · refine hcase (P := fun nd => nd.rd.lastRtt = last) a (h.lasts a ha) ?_
    rintro rfl
    funext i j
    exact (hsame.lastRtt i j).trans (by rw [h.lasts a ha])

end

/-! ## Frames under way -/

/-- A frame from node `src` to node `dst`: where it is, and the nodes that it has come through. -/
structure InTransit where
  src : Nat
  dst : Nat
  cur : Nat
  seen : List Nat

/-- Its two ends. -/
def InTransit.ends (fr : InTransit) : Nat × Nat := (fr.src, fr.dst)

/-- The frame, after its node has sent it to node `p`. -/
def InTransit.sentTo (fr : InTransit) (p : Nat) : InTransit :=
  { fr with cur := p, seen := fr.seen ++ [fr.cur] }

/-- The network while frames are carried. -/
structure Transit where
  node : Nat → Node
  frames : List InTransit

/-- Every frame is at its source. -/
def Transit.start (node : Nat → Node) (ends : List (Nat × Nat)) : Transit :=
  ⟨node, ends.map fun e => ⟨e.1, e.2, e.1, []⟩⟩

/-- Node `c` sends on any one of the frames that it has for somebody else, to the peers that its table names. -/
inductive Transit.Send (n : Nat) (mac : Nat → EtherAddr) : Transit → Nat → Transit → Prop where
  | send {m : Transit} {pre post : List InTransit} {fr : InTransit} {f : Forwards} {s1 : Routing} {dsts : List Nat}
      (hp : m.frames = pre ++ fr :: post) (haway : fr.cur ≠ fr.dst)
      (hrun : (m.node fr.cur).rd.rtDhostsToHost (m.node fr.cur).env (mac fr.src) (mac fr.dst) = .ok (f, s1))
      (hto : List.Forall₂ (fun ptr p => p < n ∧ ∃ k ip, ptr = HostPtr.env (.dp k) ∧
        (m.node fr.cur).env (.dp k) = some ip ∧ ip.mac = mac p) f.res dsts) :
      Transit.Send n mac m fr.cur ⟨setTable m.node fr.cur s1, pre ++ dsts.map fr.sentTo ++ post⟩

/-- The runs, by the nodes that have sent something. -/
def transit (n : Nat) (mac : Nat → EtherAddr) (node : Nat → Node) (ends : List (Nat × Nat)) : Lts Transit Nat where
  start m := m = .start node ends
  step := Transit.Send n mac

/-- What is known of a frame under way: its ends are nodes, the destination is not a multicast, and it is on its
    trail, or at its source if there is no trail. -/
structure Underway (A : Nat → Nat → UInt32) (n : Nat) (mac : Nat → EtherAddr) (fr : InTransit) : Prop where
  src : fr.src < n
  dst : fr.dst < n
  cast : etherAddrIsMcast (mac fr.dst) = false
  way : A fr.src fr.dst ≠ pathDiscon → ∃ vs, Trail (toward A n fr.dst) fr.cur vs ∧
    Trail (toward A n fr.dst) fr.src (fr.seen ++ vs)
  stay : A fr.src fr.dst = pathDiscon → fr.cur = fr.src ∧ fr.seen = []

/-- How many more hops the frames can take. -/
def Transit.hopsLeft (n : Nat) (frames : List InTransit) : Nat := (frames.map fun fr => n - fr.seen.length).sum

/-- Whether the last listed link from the one end to the other takes some time. -/
def connects (last : Nat → Nat → Option UInt32) (e : Nat × Nat) : Bool :=
  decide (adjacency last e.1 e.2 ≠ pathDiscon)

theorem connects_iff {last : Nat → Nat → Option UInt32} {fr : InTransit} :
    connects last fr.ends = true ↔ adjacency last fr.src fr.dst ≠ pathDiscon :=
  decide_eq_true_iff

theorem connects_false_iff {last : Nat → Nat → Option UInt32} {fr : InTransit} :
    connects last fr.ends = false ↔ adjacency last fr.src fr.dst = pathDiscon := by
  rw [← Bool.not_eq_true, connects_iff, not_not]

namespace Underway

variable {mac : Nat → EtherAddr} {fr : InTransit} (hdiag : ∀ i, A i i = pathMin) (h : Underway A n mac fr)
include hdiag h

/-- A frame on its trail is at a node with an entry for the destination, and has come through other nodes only. -/
theorem at_node (hway : A fr.src fr.dst ≠ pathDiscon) :
    fr.cur < n ∧ A fr.cur fr.dst ≠ pathDiscon ∧ (fr.seen ++ [fr.cur]).Nodup ∧ fr.seen.length < n := by
  obtain ⟨vs, hcur, hall⟩ := h.way hway
  obtain ⟨vs', rfl⟩ := hcur.head
  have hstep := toward_connected hdiag h.dst
  obtain ⟨hnodup, hlen⟩ := way_nodup hdiag h.src h.dst hway hall
  obtain ⟨hlt, hne⟩ := hall.all hstep ⟨h.src, hway⟩ fr.cur (by simp)
  rw [List.length_append, List.length_cons] at hlen
  refine ⟨hlt, hne, hnodup.sublist ?_, by omega⟩
  exact List.Sublist.append_left (by simp) fr.seen

omit hdiag in
/-- **Step lemma, of one frame.** It is on its trail where it was sent to. -/
theorem sent (hway : A fr.src fr.dst ≠ pathDiscon) (hp : toward A n fr.dst fr.cur = some p) :
    Underway A n mac (fr.sentTo p) := by
  refine ⟨h.src, h.dst, h.cast, fun _ => ?_, fun h0 => absurd h0 hway⟩
  obtain ⟨vs, hcur, hall⟩ := h.way hway
  obtain ⟨vs', rfl, hrest⟩ := hcur.tail hp
  exact ⟨vs', hrest, by simpa [InTransit.sentTo] using hall⟩

end Underway

/-! ## Runs -/

section

variable {mac : Nat → EtherAddr} {arc : Nat → Nat → Nat → Prop} {last : Nat → Nat → Option UInt32}
  {node : Nat → Node} {ends : List (Nat × Nat)} {sent : List Nat} {m m' : Transit}

/-- The invariant: the link graphs, every frame, which of the frames with a trail there are, and how many more
    hops there can be. -/
structure Transit.Inv (q : Qsort) (n : Nat) (mac : Nat → EtherAddr) (arc : Nat → Nat → Nat → Prop)
    (last : Nat → Nat → Option UInt32) (ends : List (Nat × Nat)) (sent : List Nat) (m : Transit) : Prop where
  same : SameGraph q n mac arc last m.node
  under : ∀ fr ∈ m.frames, Underway (adjacency last) n mac fr
  kept : (m.frames.map InTransit.ends).filter (connects last) = ends.filter (connects last)
  hops : sent.length + Transit.hopsLeft n m.frames ≤ n * ends.length

/-- What a lookup for a frame under way hands out: nobody for a frame without a trail, and otherwise the peer
    that is next on it. -/
theorem SameGraph.lookup_frame (h : SameGraph q n mac arc last node) {fr : InTransit}
    (hu : Underway (adjacency last) n mac fr) (haway : fr.cur ≠ fr.dst) :
    ∃ f s', (node fr.cur).rd.rtDhostsToHost (node fr.cur).env (mac fr.src) (mac fr.dst) = .ok (f, s') ∧
      (connects last fr.ends = false → f.res = []) ∧
      (connects last fr.ends = true → ∃ k ip p, f.res = [.env (.dp k)] ∧
        (node fr.cur).env (.dp k) = some ip ∧ ip.mac = mac p ∧ p < n ∧
        toward (adjacency last) n fr.dst fr.cur = some p) := by
  have hdiag := h.diag hu.src
  by_cases hway : adjacency last fr.src fr.dst = pathDiscon
  · obtain ⟨hcur, -⟩ := hu.stay hway
    obtain ⟨f, s', hrun, hnone, -⟩ := h.lookup (hcur ▸ hu.src) hu.dst haway hu.cast (mac fr.src)
    exact ⟨f, s', hrun, fun _ => hnone (hcur ▸ hway), fun hc => absurd hway (connects_iff.mp hc)⟩
  · obtain ⟨hlt, hne, -⟩ := hu.at_node hdiag hway
    obtain ⟨f, s', hrun, -, hsome⟩ := h.lookup hlt hu.dst haway hu.cast (mac fr.src)
    exact ⟨f, s', hrun, fun hc => absurd (connects_false_iff.mp hc) hway, fun _ => hsome hne⟩

/-- **Step lemma.** A frame that has no trail is dropped, and any other one goes one node further on it. -/
theorem Transit.Send.sent_on (hstep : Transit.Send n mac m c m') (h : SameGraph q n mac arc last m.node)
    (hu : ∀ fr ∈ m.frames, Underway (adjacency last) n mac fr) :
    ∃ pre fr post, m.frames = pre ++ fr :: post ∧ SameGraph q n mac arc last m'.node ∧
      ((connects last fr.ends = false ∧ m'.frames = pre ++ post) ∨
        ∃ p, connects last fr.ends = true ∧ toward (adjacency last) n fr.dst fr.cur = some p ∧
          m'.frames = pre ++ fr.sentTo p :: post) := by
  cases hstep with
  | @send pre post fr f s1 dsts hp haway hrun hto =>
      have hfr := hu fr (by rw [hp]; simp)
      refine ⟨pre, fr, post, hp, h.setTable hrun, ?_⟩
      obtain ⟨f', s', hrun', hnone, hsome⟩ := h.lookup_frame hfr haway
      cases hrun.symm.trans hrun'
      cases hc : connects last fr.ends with
      | false =>
          rw [hnone hc] at hto
          cases hto
          exact Or.inl ⟨rfl, by simp⟩
      | true =>
          obtain ⟨k, ip, p, hres, hip, hmac, hlt, htoward⟩ := hsome hc
          rw [hres] at hto
          obtain ⟨p', ds, ⟨hlt', k', ip', hptr, hip', hmac'⟩, hds, rfl⟩ := List.forall₂_cons_left_iff.mp hto
          cases hds
          -- the peer's MAC tells which node it is
          cases hptr
          obtain rfl : ip' = ip := Option.some.inj (hip'.symm.trans hip)
          obtain rfl := h.mac_inj hlt hlt' (hmac.symm.trans hmac')
          exact Or.inr ⟨p, rfl, htoward, by simp⟩

theorem hopsLeft_append (n : Nat) (xs ys : List InTransit) :
    Transit.hopsLeft n (xs ++ ys) = Transit.hopsLeft n xs + Transit.hopsLeft n ys := by
  simp [Transit.hopsLeft]

theorem hopsLeft_cons (n : Nat) (fr : InTransit) (frs : List InTransit) :
    Transit.hopsLeft n (fr :: frs) = (n - fr.seen.length) + Transit.hopsLeft n frs := by
  simp [Transit.hopsLeft]

/-- At the start every frame can take a hop for each node. -/
theorem hopsLeft_start (n : Nat) (node : Nat → Node) (ends : List (Nat × Nat)) :
    Transit.hopsLeft n (Transit.start node ends).frames = n * ends.length := by
  unfold Transit.start
  induction ends with
  | nil => rfl
  | cons e es ih =>
      rw [List.map_cons, hopsLeft_cons, ih, List.length_cons, Nat.mul_succ, Nat.add_comm]
      rfl

/-- **Step lemma, of the invariant.** -/
theorem Transit.Inv.step (hi : Transit.Inv q n mac arc last ends sent m) (hstep : Transit.Send n mac m c m') :
    Transit.Inv q n mac arc last ends (c :: sent) m' := by
  obtain ⟨pre, fr, post, hp, hsame, hcase⟩ := hstep.sent_on hi.same hi.under
  have hu := hi.under fr (by rw [hp]; simp)
  have hhops := hi.hops
  have hkept := hi.kept
  rw [hp, hopsLeft_append, hopsLeft_cons] at hhops
  rw [hp, List.map_append, List.map_cons, List.filter_append] at hkept
  have hothers : ∀ x, x ∈ pre ∨ x ∈ post → Underway (adjacency last) n mac x := fun x hx =>
    hi.under x (by rw [hp, List.mem_append, List.mem_cons]; exact hx.imp_right Or.inr)
  rcases hcase with ⟨hc, hframes⟩ | ⟨p, hc, htoward, hframes⟩
  · -- nobody has sent the frame before
    have hseen : fr.seen = [] := (hu.stay (connects_false_iff.mp hc)).2
    have hn := hu.src
    refine ⟨hsame, fun x hx => ?_, ?_, ?_⟩
    · rw [hframes, List.mem_append] at hx
      exact hothers x hx
    · rw [List.filter_cons_of_neg (by rw [hc]; decide)] at hkept
      rw [hframes, List.map_append, List.filter_append, hkept]
    · rw [hframes, hopsLeft_append, List.length_cons]
      rw [hseen, List.length_nil] at hhops
      omega
  · have hway := connects_iff.mp hc
    obtain ⟨-, -, -, hlen⟩ := hu.at_node (hi.same.diag hu.src) hway
    refine ⟨hsame, fun x hx => ?_, ?_, ?_⟩
    · rw [hframes, List.mem_append, List.mem_cons] at hx
      rcases hx with hx | rfl | hx
      · exact hothers x (Or.inl hx)
      · exact hu.sent hway htoward
      · exact hothers x (Or.inr hx)
    · rw [hframes, List.map_append, List.map_cons, List.filter_append]
      exact hkept
    · have hseen : (fr.sentTo p).seen.length = fr.seen.length + 1 := by simp [InTransit.sentTo]
      rw [hframes, hopsLeft_append, hopsLeft_cons, List.length_cons]
      omega

theorem Transit.Inv.start (h : SameGraph q n mac arc last node)
    (hends : ∀ e ∈ ends, e.1 < n ∧ e.2 < n ∧ etherAddrIsMcast (mac e.2) = false) :
    Transit.Inv q n mac arc last ends [] (.start node ends) := by
  refine ⟨h, fun fr hfr => ?_, ?_, ?_⟩
  · obtain ⟨e, he, rfl⟩ := List.mem_map.mp hfr
    obtain ⟨hsrc, hdst, hcast⟩ := hends e he
    refine ⟨hsrc, hdst, hcast, fun hway => ?_, fun _ => ⟨rfl, rfl⟩⟩
    obtain ⟨vs, hvs⟩ := exists_way (h.diag hsrc) hsrc hdst hway
    exact ⟨vs, hvs, hvs⟩
  · simp [Transit.start, InTransit.ends, Function.comp_def]
  · rw [hopsLeft_start, List.length_nil, Nat.zero_add]

/-- **Run lemma.** -/
theorem Transit.Inv.run (h : SameGraph q n mac arc last node)
    (hends : ∀ e ∈ ends, e.1 < n ∧ e.2 < n ∧ etherAddrIsMcast (mac e.2) = false)
    (hrun : (transit n mac node ends).Run sent m) : Transit.Inv q n mac arc last ends sent m := by
  refine hrun.inv (P := fun sent m => Transit.Inv q n mac arc last ends sent m) ?_ ?_
  · rintro _ rfl
    exact .start h hends
  · intro _ _ _ _ _ hi hstep
    exact hi.step hstep

/-- **Unicast frames between linked nodes arrive, and no frame goes round in circles.** Any number of frames are
    carried by nodes that hold one link graph, in any order. A run has at most `n` steps for each frame; no frame
    gets to a node twice; a frame that is not at its destination can always be sent on, or dropped; and when there
    is no such frame any more, the frames that are there are exactly those whose source is linked to the
    destination (or is the destination), each of them once. -/
theorem unicast_arrives (h : SameGraph q n mac arc last node)
    (hends : ∀ e ∈ ends, e.1 < n ∧ e.2 < n ∧ etherAddrIsMcast (mac e.2) = false)
    (hrun : (transit n mac node ends).Run sent m) :
    sent.length ≤ n * ends.length ∧
    (∀ fr ∈ m.frames, (fr.seen ++ [fr.cur]).Nodup) ∧
    (∀ fr ∈ m.frames, fr.cur ≠ fr.dst → ∃ m', Transit.Send n mac m fr.cur m') ∧
    ((∀ fr ∈ m.frames, fr.cur = fr.dst) → m.frames.map InTransit.ends = ends.filter (connects last)) := by
  have hi := Transit.Inv.run h hends hrun
  have hhops := hi.hops
  refine ⟨by omega, fun fr hfr => ?_, fun fr hfr haway => ?_, fun hall => ?_⟩
  · have hu := hi.under fr hfr
    by_cases hway : adjacency last fr.src fr.dst = pathDiscon
    · rw [(hu.stay hway).2]
      exact List.nodup_singleton _
    · exact (hu.at_node (h.diag hu.src) hway).2.2.1
  · obtain ⟨pre, post, hp⟩ := List.append_of_mem hfr
    obtain ⟨f, s', hlook, hnone, hsome⟩ := hi.same.lookup_frame (hi.under fr hfr) haway
    cases hc : connects last fr.ends with
    | false =>
        refine ⟨_, .send hp haway hlook (?_ : List.Forall₂ _ f.res [])⟩
        rw [hnone hc]
        exact .nil
    | true =>
        obtain ⟨k, ip, p, hres, hip, hmac, hlt, -⟩ := hsome hc
        refine ⟨_, .send hp haway hlook (?_ : List.Forall₂ _ f.res [p])⟩
        rw [hres]
        exact .cons ⟨hlt, k, ip, rfl, hip, hmac⟩ .nil
  · rw [← hi.kept, List.filter_eq_self.mpr]
    intro e he
    obtain ⟨fr, hfr, rfl⟩ := List.mem_map.mp he
    have hu := hi.under fr hfr
    -- a frame that has no trail is at its source, and that is not the destination
    rw [connects_iff]
    intro hway
    have hsrc : fr.src = fr.dst := (hu.stay hway).1.symm.trans (hall fr hfr)
    rw [hsrc, h.diag hu.src] at hway
    exact absurd hway (by decide)

end

/-- A frame that has a next node on its trail can be sent there. -/
theorem Transit.sends_on {mac : Nat → EtherAddr} {arc : Nat → Nat → Nat → Prop}
    {last : Nat → Nat → Option UInt32} {m : Transit} {fr : InTransit} {post : List InTransit}
    (h : SameGraph q n mac arc last m.node) (hp : m.frames = fr :: post) (hc : fr.cur < n) (hd : fr.dst < n)
    (hcast : etherAddrIsMcast (mac fr.dst) = false) (hne : adjacency last fr.cur fr.dst ≠ pathDiscon)
    (hto : toward (adjacency last) n fr.dst fr.cur = some p) :
    ∃ m', Transit.Send n mac m fr.cur m' ∧ SameGraph q n mac arc last m'.node ∧
      m'.frames = fr.sentTo p :: post := by
  have haway : fr.cur ≠ fr.dst := fun he => by
    rw [toward, if_pos he] at hto
    cases hto
  obtain ⟨f, s', hrun, -, hsome⟩ := h.lookup hc hd haway hcast (mac fr.src)
  obtain ⟨k, ip, p', hres, hip, hmac, hlt, hto'⟩ := hsome hne
  obtain rfl := Option.some.inj (hto'.symm.trans hto)
  have hall : List.Forall₂ (fun ptr p => p < n ∧ ∃ k ip, ptr = HostPtr.env (.dp k) ∧
      (m.node fr.cur).env (.dp k) = some ip ∧ ip.mac = mac p) f.res [p'] := by
    rw [hres]
    exact .cons ⟨hlt, k, ip, rfl, hip, hmac⟩ .nil
  have hfirst : m.frames = [] ++ fr :: post := hp
  exact ⟨_, .send hfirst haway hrun hall, h.setTable hrun, rfl⟩

/-- Two frames are to cross in the network of three. The one from node `0` for node `2` goes through node `1`,
    and is there once both have sent it. -/
theorem unicast_arrives_tri : ∃ node m fr, SameGraph .insertion 3 pairMac triArc triLast node ∧
    (transit 3 pairMac node [(0, 2), (2, 0)]).Run [1, 0] m ∧ fr ∈ m.frames ∧ fr.seen = [0, 1] ∧ fr.cur = 2 ∧
    ∀ fr ∈ m.frames, (fr.seen ++ [fr.cur]).Nodup := by
  obtain ⟨node, h⟩ := tri_sameGraph
  have hends : ∀ e ∈ [(0, 2), (2, 0)], e.1 < 3 ∧ e.2 < 3 ∧ etherAddrIsMcast (pairMac e.2) = false := by decide
  have hcast : etherAddrIsMcast (pairMac 2) = false := by decide
  have hfirst : (Transit.start node [(0, 2), (2, 0)]).frames = ⟨0, 2, 0, []⟩ :: [⟨2, 0, 2, []⟩] := rfl
  obtain ⟨m1, hsend1, h1, hm1⟩ := Transit.sends_on (p := 1) h hfirst (by decide) (by decide) hcast (by decide)
    (by decide)
  obtain ⟨m2, hsend2, h2, hm2⟩ := Transit.sends_on (p := 2) h1 hm1 (by decide) (by decide) hcast (by decide)
    (by decide)
  have hrun : (transit 3 pairMac node [(0, 2), (2, 0)]).Run [1, 0] m2 :=
    .step (.step (.start rfl) hsend1) hsend2
  exact ⟨node, m2, ⟨0, 2, 2, [0, 1]⟩, h, hrun, by rw [hm2]; exact List.mem_cons_self, rfl, rfl,
    (unicast_arrives h hends hrun).2.1⟩

end Routing

end P2pVn
