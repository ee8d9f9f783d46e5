import P2pVn.Routing.MergeView
import P2pVn.Routing.Network
import P2pVn.Routing.OwnLinks

/-!
# `Routing.NewestWins` — which announcements `rt_update_edges` merges

The group of a source is announced as one: the newest of its edges should decide whether it replaces what is
known of the source. `NewestWins` says this of the table before `update_cache`; `newestWins_iff` says on which
batches the code does it. The first edge after the sort decides, and the sort looks at the time stamps as they
lie in the packet, with their bytes reversed.

- **Run lemma.** `Reach.intact`: whichever allocations fail, a state from which an operation can return `0` has
  a sound table with sound links.
-/

namespace P2pVn
open CUb GroupedMerge

namespace Routing

variable {env : ExtMem} {q : Qsort} {s s' : Routing} {L : HostId} {al : AllocScript}

/-! ## Runs in which allocations fail -/

/-- A failed `compute_paths` left matrices that the next one frees again. -/
def Stuck (s : Routing) : Prop := (0 < s.mCt ∧ NotLive s.path) ∨ s.path = .dangling

/-- The table and its links are sound. -/
structure Intact (env : ExtMem) (s : Routing) (L : HostId) : Prop where
  table : TableOk env s L
  links : LinksOk (fun a b => (memcmp a b).isLE) env s

theorem Intact.same (h : Intact env s L) (hs : Same s s') : Intact env s' L :=
  ⟨h.table.same hs, h.links.same hs⟩

theorem Stuck.congr (h : Stuck s) (hm : s'.mCt = s.mCt) (hp : s'.path = s.path) : Stuck s' := by
  unfold Stuck
  rw [hm, hp]
  exact h

/-- The next `compute_paths` does not return. -/
theorem Stuck.not_computes (h : Stuck s) {ret : Int} : s.computePaths env ≠ .ok (ret, s') := by
  intro hc
  obtain ⟨p, hp, hc⟩ := bind_eq_ok.mp hc
  obtain ⟨n, -, hc⟩ := bind_eq_ok.mp hc
  obtain ⟨_, hcheck, -⟩ := bind_eq_ok.mp hc
  rcases h with ⟨hpos, hnot⟩ | hdang
  · unfold MatPtr.freeRows at hp
    rw [if_neg (Nat.ne_of_gt hpos)] at hp
    split at hp
    · rename_i g hlive
      exact hnot _ g hlive
    · cases hp
    · cases hp
    · cases hp
  · rw [hdang] at hp
    rcases freeRows_cases hp with ⟨-, rfl⟩ | ⟨hpos, -⟩
    · cases hcheck
    · rw [MatPtr.freeRows, if_neg (Nat.ne_of_gt hpos)] at hp
      cases hp

/-- Once there are matrices, a `compute_paths` that fails leaves the state stuck. -/
theorem computePaths_stuck {ret : Int} (h : s.computePaths env = .ok (ret, s')) (hpos : 0 < s.mCt)
    (hret : ret ≠ 0) : Stuck s' := by
  cases computePaths_run h with
  | noPath hp _ _ =>
      obtain ⟨h0, -⟩ | ⟨-, rfl⟩ := freeRows_cases hp
      · omega
      · exact Or.inl ⟨hpos, fun _ _ => nofun⟩
  | noNext hp _ _ _ =>
      obtain ⟨h0, -⟩ | ⟨-, rfl⟩ := freeRows_cases hp
      · omega
      · exact Or.inr rfl
  | noRow hp _ _ _ _ _ =>
      obtain ⟨h0, -⟩ | ⟨-, rfl⟩ := freeRows_cases hp
      · omega
      · exact Or.inr rfl
  | computed => exact absurd rfl hret

/-- The invariant of all runs. -/
def Serviceable (env : ExtMem) (s : Routing) : Prop := Stuck s ∨ ∃ L, Intact env s L

theorem Serviceable.compute {ret : Int} (h : Serviceable env s) (hc : s.computePaths env = .ok (ret, s')) :
    Serviceable env s' := by
  rcases h with hst | ⟨L, hl⟩
  · exact absurd hc hst.not_computes
  · exact Or.inr ⟨L, hl.same (computePaths_cases hc).1⟩

theorem Intact.updateCache {ret : Int} (h : Intact env s L) (hc : s.updateCache env = .ok (ret, s')) :
    Serviceable env s' := by
  obtain ⟨s1, r2, s2, htrim, hcomp, hexp⟩ := updateCache_cases hc
  have hafter : Serviceable env s2 := by
    cases htrim with
    | stale _ => exact Serviceable.compute (Or.inr ⟨L, h⟩) hcomp
    | @trimmed _ _ _ s1 heq _ _ _ hloop =>
        obtain ⟨hf, -⟩ := trimLoop_frame _ _ hloop
        have hpos : 0 < s1.mCt := by
          rw [hf.mCt, heq]
          exact List.length_pos_of_mem h.table.localMem
        by_cases hr2 : r2 = 0
        · -- the set-up read every host and every link, so the trim freed none that is left
          obtain ⟨hsame, -, ⟨hneg, -⟩ | ⟨-, ⟨hcomp'⟩⟩⟩ := computePaths_cases hcomp
          · omega
          · obtain ⟨ht1, -, hl1⟩ := (trimLoop_cases _ _ hloop h.table).resolve_left hcomp'.not_hasDead
            exact Or.inr ⟨L, Intact.same ⟨ht1, hcomp'.linksOk (hl1 h.links.orDead)⟩ hsame⟩
        · exact Or.inl (computePaths_stuck hcomp hpos hr2)
  rcases hexp with ⟨-, -, rfl⟩ | ⟨-, -, hexp⟩
  · exact hafter
  · obtain ⟨he, -⟩ := updateExportedEdges_cases hexp
    rcases hafter with hst | ⟨L, hl⟩
    · exact Or.inl (hst.congr he.mCt he.path)
    · exact Or.inr ⟨L, hl.same he.same⟩

theorem Intact.phase {op : RtOp} {ret : Int} (h : Intact env s L) (hp : op.phase q env s = .ok (ret, s')) :
    Intact env s' L :=
  ⟨RtOp.phase_tableOk hp h.table, RtOp.phase_linksOk hp h.table h.links⟩

/-- **Step lemma.** -/
theorem Serviceable.op {op : RtOp} {ret : Int} (h : Serviceable env s) (hrun : op.run q env s = .ok (ret, s')) :
    Serviceable env s' := by
  rcases RtOp.run_cases hrun with ⟨-, hphase⟩ | ⟨s1, r, hphase, hcache, -⟩
  · rcases h with hst | ⟨L, hl⟩
    · have hf := (RtOp.phase_frame hphase).1
      exact Or.inl (hst.congr hf.mCt hf.path)
    · exact Or.inr ⟨L, hl.phase hphase⟩
  · rcases h with hst | ⟨L, hl⟩
    · obtain ⟨s2, r2, s3, htrim, hcomp, -⟩ := updateCache_cases hcache
      have hf := (RtOp.phase_frame hphase).1.trans htrim.frame
      exact absurd hcomp (hst.congr hf.mCt hf.path).not_computes
    · exact (hl.phase hphase).updateCache hcache

theorem AllocsOnly.serviceable (ha : AllocsOnly s s') (h : Serviceable env s) : Serviceable env s' := by
  rcases h with hst | ⟨L, hl⟩
  · obtain ⟨al, rfl, -⟩ := ha
    exact Or.inl hst
  · exact Or.inr ⟨L, hl.same ha.same⟩

theorem Fits.serviceable (hf : Fits env s s') (h : Serviceable env s) : Serviceable env s' := by
  rcases hf with ⟨-, rfl⟩ | ⟨-, hcomp⟩
  · exact h
  · exact h.compute hcomp

/-- **Run lemma.** -/
theorem Reach.serviceable (h : Reach q env al s) : Serviceable env s := by
  induction h with
  | start h =>
      obtain ⟨L, hf, -⟩ := started_cases h
      exact Or.inr ⟨L, hf.table, hf.linksOk⟩
  | op _ hrun ih => exact ih.op hrun
  | forward _ hrun ih =>
      cases rtDhostsToHost_run hrun with
      | stale _ hcomp _ => exact ih.compute hcomp
      | noLocal hfit => exact hfit.serviceable ih
      | looked hfit _ _ _ hbranch => exact (branch_cases hbranch).serviceable (hfit.serviceable ih)

/-- **A state from which an operation returned `0`** has a sound table with sound links. -/
theorem Reach.intact {op : RtOp} (h : Reach q env al s) (hrun : op.run q env s = .ok (0, s')) :
    ∃ L, Intact env s L := by
  rcases h.serviceable with hst | hl
  · obtain ⟨s1, s2, s3, hphase, htrim, hcomp, -⟩ := RtOp.run_zero hrun
    have hf := (RtOp.phase_frame hphase).1.trans htrim.frame
    exact absurd hcomp (hst.congr hf.mCt hf.path).not_computes
  · exact hl

/-! ## The property -/

section Property

variable {edges : List PktEdge} {x : EtherAddr} {s1 s2 : Routing}

/-- The edges of source `x` that lead to another MAC. -/
abbrev groupOf (edges : List PktEdge) (x : EtherAddr) : List PktEdge := group edgeStream edges x

/-- The newest time stamp of the group of `x`, decoded. -/
def newestTs (edges : List PktEdge) (x : EtherAddr) : Nat := newestOf edgeStream 0 (groupOf edges x)

/-- `x` is local, or known with a time stamp that no edge of its group is newer than. -/
def Refuses (env : ExtMem) (s : Routing) (edges : List PktEdge) (x : EtherAddr) : Prop :=
  ∃ id r, HostWith env s x id r ∧ (r.type = .htLocal ∨ newestTs edges x ≤ r.lMaxTsMs.toNat)

/-- One link for each destination of the group, which says what the newest edge to it says. -/
structure NewestLinks (env : ExtMem) (s : Routing) (g : List PktEdge) (links : List RtLink) : Prop where
  one : links.Pairwise fun a b => s.mac? env a.dst ≠ s.mac? env b.dst
  each : ∀ e ∈ g, ∃ l ∈ links, s.mac? env l.dst = some (edgeStream.dst e)
  newest : ∀ l ∈ links, ∃ e ∈ g, linkView env s l = edgeStream.link e ∧
    ∀ e' ∈ g, edgeStream.dst e' = edgeStream.dst e → edgeStream.ts e' ≤ edgeStream.ts e

/-- The hosts of `s` are in `s'`, of the same type, with the same links and the same newest time stamp. -/
def SubTable (env : ExtMem) (s s' : Routing) : Prop :=
  ∀ x id r, HostWith env s x id r → ∃ id' r', HostWith env s' x id' r' ∧ r'.type = r.type ∧
    r'.lMaxTsMs = r.lMaxTsMs ∧ (r'.links.items.map (linkView env s')).Perm (r.links.items.map (linkView env s))

/-- Edges of one source with one time stamp lead to different MACs. -/
def TiesDiffer (edges : List PktEdge) : Prop :=
  edges.Pairwise fun e e' => edgeStream.src e = edgeStream.src e' → edgeStream.ts e = edgeStream.ts e' →
    edgeStream.dst e ≠ edgeStream.dst e'

/-- What merging `edges` is to make of the table `s`: `s1`. -/
structure NewestWins (q : Qsort) (env : ExtMem) (s : Routing) (edges : List PktEdge) (s1 : Routing) : Prop where
  /-- A source that is local or known to be as new keeps its links. -/
  refused : ∀ x id r, HostWith env s x id r → groupOf edges x ≠ [] → Refuses env s edges x →
    ∃ r1, HostWith env s1 x id r1 ∧ r1.links = r.links
  /-- Any other source has the links that were announced, and no others. -/
  merged : ∀ x, groupOf edges x ≠ [] → ¬ Refuses env s edges x → ∃ id1 r1, HostWith env s1 x id1 r1 ∧
    NewestLinks env s1 (groupOf edges x) r1.links.items ∧ r1.lMaxTsMs.toNat = newestTs edges x
  /-- A host that is not a source keeps its links. -/
  others : ∀ x id r, HostWith env s x id r → groupOf edges x = [] → ∃ r1, HostWith env s1 x id r1 ∧ r1.links = r.links
  /-- The order of the batch makes no difference. -/
  anyOrder : TiesDiffer edges → ∀ edges' s1', edges'.Perm edges → s.mergeEdges q env edges' = .ok (0, s1') →
    SubTable env s1 s1' ∧ SubTable env s1' s1

/-- The batches on which the sort by the bytes of the time stamps is no worse than one by the time stamps. -/
structure DecidesRight (env : ExtMem) (s : Routing) (edges : List PktEdge) : Prop where
  /-- The edge of a known source that comes first in the packet's byte order is newer than what is known. -/
  known : ∀ x id r, HostWith env s x id r → ¬ Refuses env s edges x → ∀ e ∈ groupOf edges x,
    (∀ e' ∈ groupOf edges x, e'.tsMs ≤ e.tsMs) → r.lMaxTsMs < ntohll e.tsMs
  /-- An unknown source without time stamps is not a destination of a source that is merged before it. -/
  unknown : ∀ x, (∀ id r, ¬ HostWith env s x id r) → groupOf edges x ≠ [] → newestTs edges x = 0 →
    ∀ y, MacLt y x → ¬ Refuses env s edges y → ∀ e ∈ groupOf edges y, edgeStream.dst e ≠ x

/-- In addition, a group that is to be merged has one edge for each destination. -/
structure MergesRight (env : ExtMem) (s : Routing) (edges : List PktEdge) : Prop where
  decides : DecidesRight env s edges
  single : ∀ x, groupOf edges x ≠ [] → ¬ Refuses env s edges x →
    (groupOf edges x).Pairwise fun e e' => edgeStream.dst e ≠ edgeStream.dst e'

/-! ### Reading the outcome -/

theorem pairwise_linkView {links : List RtLink} :
    (links.map (linkView env s)).Pairwise (fun v v' : LinkView => v.1 ≠ v'.1) ↔
      links.Pairwise fun a b => s.mac? env a.dst ≠ s.mac? env b.dst := List.pairwise_map

theorem group_sort (q : Qsort) (edges : List PktEdge) (x : EtherAddr) :
    (groupOf (q.sort pktEdgesCmpSrc edges) x).Perm (groupOf edges x) := group_perm (q.perm _ _)

theorem newest_sort (q : Qsort) (edges : List PktEdge) (x : EtherAddr) :
    newestOf edgeStream 0 (groupOf (q.sort pktEdgesCmpSrc edges) x) = newestTs edges x :=
  newestOf_perm (group_sort q edges x)

/-- The first edge of a group after the sort has the greatest time stamp as it lies in the packet. -/
theorem first_edge {f : PktEdge} (hf : (groupOf (q.sort pktEdgesCmpSrc edges) x).head? = some f) :
    f ∈ groupOf edges x ∧ ∀ e ∈ groupOf edges x, e.tsMs ≤ f.tsMs := by
  have hperm := group_sort q edges x
  have hsorted := (sorted_edges q edges).filter fun e => edgeStream.src e = x ∧ edgeStream.dst e ≠ x
  refine ⟨hperm.mem_iff.mp (List.mem_of_mem_head? hf), fun e he => ?_⟩
  have he' := hperm.mem_iff.mpr he
  have hsrc : ∀ a ∈ groupOf (q.sort pktEdgesCmpSrc edges) x, a.src.mac = x := fun a ha => (mem_group.mp ha).2.1
  change (groupOf (q.sort pktEdgesCmpSrc edges) x).Pairwise _ at hsorted
  generalize groupOf (q.sort pktEdgesCmpSrc edges) x = g at hf he' hsorted hsrc
  cases g with
  | nil => cases hf
  | cons a g =>
      cases hf
      rcases List.mem_cons.mp he' with rfl | he'
      · exact UInt64.le_refl _
      · rcases (List.pairwise_cons.mp hsorted).1 e he' with ⟨-, hle⟩ | hlt
        · exact hle
        · rw [hsrc f List.mem_cons_self, hsrc e (List.mem_cons_of_mem _ he')] at hlt
          exact absurd hlt (MacLt.irrefl x)

theorem group_head {g : List PktEdge} (h : g ≠ []) : ∃ f, g.head? = some f := by
  cases g with
  | nil => exact absurd rfl h
  | cons f g => exact ⟨f, rfl⟩

theorem first_of_group (q : Qsort) (hx : groupOf edges x ≠ []) :
    ∃ f, (groupOf (q.sort pktEdgesCmpSrc edges) x).head? = some f ∧
      f ∈ groupOf edges x ∧ ∀ e ∈ groupOf edges x, e.tsMs ≤ f.tsMs := by
  have hne : groupOf (q.sort pktEdgesCmpSrc edges) x ≠ [] := by
    intro h0
    exact hx (List.nil_perm.mp (h0 ▸ group_sort q edges x))
  obtain ⟨f, hf⟩ := group_head hne
  exact ⟨f, hf, first_edge hf⟩

/-- What the phase did, and what is known of it. -/
structure Merged (q : Qsort) (env : ExtMem) (s : Routing) (L : HostId) (edges : List PktEdge) (s1 : Routing)
    (tab0 : EtherAddr → Option (Entry LinkView)) (acc : EtherAddr → Prop)
    (tab : EtherAddr → Option (Entry LinkView)) : Prop where
  before : Intact env s L
  after : Intact env s1 L
  shows0 : Shows env s tab0
  shows : Shows env s1 tab
  outcome : Outcome edgeStream MacLt tab0 (q.sort pktEdgesCmpSrc edges) acc tab
  keeps : Keeps s s1 L
  grows : Grows s s1
  bumped : ∀ id r, s.recs.get id = some r → ∃ r', s1.recs.get id = some r' ∧ (r' = r ∨ r.lMaxTsMs < r'.lMaxTsMs)

theorem Intact.merged (h : Intact env s L) {tab0 : EtherAddr → Option (Entry LinkView)} (h0 : Shows env s tab0)
    (hm : s.mergeEdges q env edges = .ok (0, s1)) : ∃ acc tab, Merged q env s L edges s1 tab0 acc tab := by
  obtain ⟨acc, tab, hout, hshows⟩ := mergeEdges_outcome hm h.table h.links h0
  obtain ⟨ht1, hkeeps⟩ := mergeEdges_tableOk hm h.table
  exact ⟨acc, tab, h, ⟨ht1, mergeEdges_linksOk hm h.table h.links⟩, h0, hshows, hout, hkeeps, (mergeEdges_frame hm).2,
    fun id r hr => mergeEdges_bumped hm hr⟩

namespace Merged

variable {tab0 : EtherAddr → Option (Entry LinkView)} {acc : EtherAddr → Prop}
  {tab : EtherAddr → Option (Entry LinkView)} (h : Merged q env s L edges s1 tab0 acc tab)
include h

/-- The same host, in the table after. -/
theorem host {id : HostId} {r : RtHost} (hx : HostWith env s x id r) :
    ∃ r1, HostWith env s1 x id r1 ∧ (r1 = r ∨ r.lMaxTsMs < r1.lMaxTsMs) := by
  obtain ⟨r1, hr1, hle⟩ := h.bumped id r hx.get
  exact ⟨r1, ⟨h.grows.hosts id hx.mem, h.keeps.mac hx.mac, hr1⟩, hle⟩

/-- A host whose group was not taken has the record that it had. -/
theorem host_kept {id : HostId} {r : RtHost} (hx : HostWith env s x id r) (hacc : ¬ acc x) : HostWith env s1 x id r := by
  obtain ⟨r1, hx1, hle⟩ := h.host hx
  obtain ⟨a, ha, hd⟩ := h.shows0.entry h.before.table hx
  obtain ⟨a1, ha1, hd1⟩ := h.shows.entry h.after.table hx1
  have he : a1 = a := Option.some.inj (ha1.symm.trans (h.outcome.kept x a ha hacc))
  rcases hle with rfl | hlt
  · exact hx1
  · have h1 := hd1.newest
    rw [he, hd.newest] at h1
    exact absurd (UInt64.lt_iff_toNat_lt.mp hlt) (by omega)

theorem absent_iff : tab0 x = none ↔ ∀ id r, ¬ HostWith env s x id r := by
  constructor
  · exact fun h0 => h.shows0.absent h0
  · intro hno
    cases h0 : tab0 x with
    | none => rfl
    | some a =>
        obtain ⟨id, r, hx, -⟩ := h.shows0.host h0
        exact absurd hx (hno id r)

/-- No group of a source that is to keep its links is taken. -/
theorem taken_not_refuses (hacc : acc x) : ¬ Refuses env s edges x := by
  rintro ⟨id, r, hx, hor⟩
  obtain ⟨a, ha, hd⟩ := h.shows0.entry h.before.table hx
  obtain ⟨f, hf⟩ := group_head (h.outcome.sub x hacc)
  obtain ⟨hfix, hlt⟩ := (h.outcome.decided x a f ha hf).mp hacc
  rw [hd.fixed] at hfix
  rw [hd.newest] at hlt
  rcases hor with hloc | hle
  · exact of_decide_eq_false hfix hloc
  · have hts : edgeStream.ts f ≤ newestTs edges x := le_newestOf (first_edge hf).1
    omega

/-- A host whose group was taken has the group's links, and its newest time stamp. -/
theorem taken_host (hacc : acc x) : ∃ id1 r1, HostWith env s1 x id1 r1 ∧
    (r1.links.items.map (linkView env s1)).Perm ((groupOf edges x).map edgeStream.link) ∧
    r1.lMaxTsMs.toNat = newestTs edges x := by
  cases h0 : tab0 x with
  | none =>
      obtain ⟨id1, r1, hx1, hd1⟩ := h.shows.host (h.outcome.made x h0 hacc)
      exact ⟨id1, r1, hx1, hd1.links.trans ((group_sort q edges x).map _), hd1.newest.symm.trans (newest_sort q edges x)⟩
  | some a =>
      obtain ⟨id1, r1, hx1, hd1⟩ := h.shows.host (h.outcome.taken x a h0 hacc)
      obtain ⟨f, hf⟩ := group_head (h.outcome.sub x hacc)
      obtain ⟨-, hlt⟩ := (h.outcome.decided x a f h0 hf).mp hacc
      refine ⟨id1, r1, hx1, hd1.links.trans ((group_sort q edges x).map _), hd1.newest.symm.trans ?_⟩
      have hle : a.newest ≤ newestOf edgeStream 0 (groupOf (q.sort pktEdgesCmpSrc edges) x) :=
        Nat.le_trans (Nat.le_of_lt hlt) (le_newestOf (List.mem_of_mem_head? hf))
      exact (newestOf_of_le hle).trans (newest_sort q edges x)

/-- A host that was made without its group being taken has no links. -/
theorem made_host {id1 : HostId} {r1 : RtHost} (hno : ∀ id r, ¬ HostWith env s x id r) (hacc : ¬ acc x)
    (hx1 : HostWith env s1 x id1 r1) : r1.links.items = [] := by
  obtain ⟨a1, ha1, hd1⟩ := h.shows.entry h.after.table hx1
  have h0 := h.absent_iff.mpr hno
  by_cases hn : Named edgeStream (q.sort pktEdgesCmpSrc edges) acc x
  · rw [h.outcome.named x h0 hacc hn, Option.some.injEq] at ha1
    subst ha1
    exact List.map_eq_nil_iff.mp hd1.links.eq_nil
  · rw [h.outcome.absent x h0 hacc hn] at ha1
    cases ha1

end Merged

/-! ### Where the property holds -/

namespace Merged

variable {tab0 : EtherAddr → Option (Entry LinkView)} {acc : EtherAddr → Prop}
  {tab : EtherAddr → Option (Entry LinkView)} (h : Merged q env s L edges s1 tab0 acc tab)
include h

/-- On these batches the groups that are to be merged are taken. -/
theorem taken_iff (hr : DecidesRight env s edges) : acc x ↔ groupOf edges x ≠ [] ∧ ¬ Refuses env s edges x := by
  constructor
  · intro hacc
    refine ⟨fun h0 => h.outcome.sub x hacc ?_, h.taken_not_refuses hacc⟩
    exact List.perm_nil.mp (h0 ▸ group_sort q edges x)
  · rintro ⟨hne, href⟩
    obtain ⟨f, hf, hmem, hmax⟩ := first_of_group q hne
    cases h0 : tab0 x with
    | some a =>
        obtain ⟨id, r, hx, hd⟩ := h.shows0.host h0
        refine (h.outcome.decided x a f h0 hf).mpr ⟨?_, ?_⟩
        · rw [hd.fixed]
          exact decide_eq_false fun hloc => href ⟨id, r, hx, Or.inl hloc⟩
        · rw [hd.newest]
          exact UInt64.lt_iff_toNat_lt.mp (hr.known x id r hx href f hmem hmax)
    | none =>
        refine (h.outcome.welcome x f h0 hf).mpr ?_
        by_cases hpos : 0 < edgeStream.ts f
        · exact Or.inl hpos
        · right
          rintro ⟨y, hlt, hacc, e, he, rfl⟩
          -- the first edge has no time stamp, so no edge has
          have hzero : newestTs edges (edgeStream.dst e) = 0 := by
            refine Nat.le_zero.mp (newestOf_le.mpr ⟨Nat.le_refl _, fun e' he' => ?_⟩)
            have hf0 : f.tsMs = 0 := by
              have h0 : ntohll f.tsMs = 0 := UInt64.toNat_inj.mp (by simpa [edgeStream] using hpos)
              rw [← ntohll_htonll f.tsMs, show htonll f.tsMs = 0 from h0]
              rfl
            have he0 : e'.tsMs = 0 := UInt64.le_zero_iff.mp (hf0 ▸ hmax e' he')
            show (ntohll e'.tsMs).toNat ≤ 0
            rw [he0]
            decide
          exact hr.unknown _ (h.absent_iff.mp h0) hne hzero y hlt (h.taken_not_refuses hacc) e
            ((group_sort q edges y).mem_iff.mp he) rfl

/-- A group of which each edge leads elsewhere is its own newest edges. -/
theorem newestLinks (hacc : acc x) (hone : (groupOf edges x).Pairwise fun e e' => edgeStream.dst e ≠ edgeStream.dst e') :
    ∃ id1 r1, HostWith env s1 x id1 r1 ∧ NewestLinks env s1 (groupOf edges x) r1.links.items ∧
      r1.lMaxTsMs.toNat = newestTs edges x := by
  obtain ⟨id1, r1, hx1, hperm, hnew⟩ := h.taken_host hacc
  refine ⟨id1, r1, hx1, ⟨?_, fun e he => ?_, fun l hl => ?_⟩, hnew⟩
  · have hviews : ((groupOf edges x).map edgeStream.link).Pairwise fun v v' : LinkView => v.1 ≠ v'.1 :=
      List.pairwise_map.mpr (hone.imp fun hne he => hne (Option.some.inj he))
    have hsymm : ∀ v v' : LinkView, v.1 ≠ v'.1 → v'.1 ≠ v.1 := fun _ _ => Ne.symm
    exact pairwise_linkView.mp ((hperm.pairwise_iff (hsymm _ _)).mpr hviews)
  · obtain ⟨l, hl, hle⟩ := List.mem_map.mp (hperm.mem_iff.mpr (List.mem_map_of_mem he))
    exact ⟨l, hl, congrArg Prod.fst hle⟩
  · obtain ⟨e, he, hle⟩ := List.mem_map.mp (hperm.mem_iff.mp (List.mem_map_of_mem hl))
    refine ⟨e, he, hle.symm, fun e' he' hdst => ?_⟩
    by_cases hee : e' = e
    · rw [hee]
    · have hsymm : Std.Symm fun e e' : PktEdge => edgeStream.dst e ≠ edgeStream.dst e' := ⟨fun _ _ => Ne.symm⟩
      exact absurd hdst (hone.forall he' he hee)

/-- Conversely, where the property holds the groups that are to be merged are taken. -/
theorem taken_of_wins (hw : NewestWins q env s edges s1) (hne : groupOf edges x ≠ [])
    (href : ¬ Refuses env s edges x) : acc x := by
  by_contra hacc
  obtain ⟨id1, r1, hx1, hlinks, hnew⟩ := hw.merged x hne href
  by_cases hknown : ∃ id r, HostWith env s x id r
  · -- the record would be what it was, and its time stamp too old
    obtain ⟨id, r, hx⟩ := hknown
    obtain ⟨-, rfl⟩ := h.after.table.hostWith_inj hx1 (h.host_kept hx hacc)
    exact href ⟨id, r1, hx, Or.inr (Nat.le_of_eq hnew.symm)⟩
  · -- a host that is only named has no links
    have hnil := h.made_host (fun id r hx => hknown ⟨id, r, hx⟩) hacc hx1
    obtain ⟨e, he⟩ := List.exists_mem_of_ne_nil _ hne
    obtain ⟨l, hl, -⟩ := hlinks.each e he
    rw [hnil] at hl
    cases hl

end Merged

theorem MergesRight.perm {edges' : List PktEdge} (h : MergesRight env s edges) (hp : edges'.Perm edges) :
    MergesRight env s edges' := by
  have hgroup : ∀ x, (groupOf edges' x).Perm (groupOf edges x) := fun x => group_perm hp
  have hnew : ∀ x, newestTs edges' x = newestTs edges x := fun x => newestOf_perm (hgroup x)
  have href : ∀ x, Refuses env s edges' x ↔ Refuses env s edges x := by
    intro x
    simp only [Refuses, hnew]
  have hne : ∀ x, groupOf edges' x ≠ [] → groupOf edges x ≠ [] := by
    intro x hx h0
    exact hx (List.perm_nil.mp (h0 ▸ hgroup x))
  refine ⟨⟨?_, ?_⟩, ?_⟩
  · intro x id r hx hr e he hmax
    exact h.decides.known x id r hx (mt (href x).mpr hr) e ((hgroup x).mem_iff.mp he)
      fun e' he' => hmax e' ((hgroup x).mem_iff.mpr he')
  · intro x hx hg h0 y hlt hr e he
    exact h.decides.unknown x hx (hne x hg) ((hnew x).symm.trans h0) y hlt (mt (href y).mpr hr) e
      ((hgroup y).mem_iff.mp he)
  · intro x hx hr
    have hsymm : ∀ e e' : PktEdge, edgeStream.dst e ≠ edgeStream.dst e' → edgeStream.dst e' ≠ edgeStream.dst e :=
      fun _ _ => Ne.symm
    exact ((hgroup x).pairwise_iff (hsymm _ _)).mpr (h.single x (hne x hx) (mt (href x).mpr hr))

/-- Two maps of which the second says what the first says, up to the order of links. -/
theorem subTable_of_shows {tab1 tab2 : EtherAddr → Option (Entry LinkView)} (h1 : Shows env s1 tab1)
    (h2 : Shows env s2 tab2) (ht1 : TableOk env s1 L) (htype : ∀ x id r id' r', HostWith env s1 x id r →
      HostWith env s2 x id' r' → r'.type = r.type)
    (h : ∀ x a, tab1 x = some a → ∃ a', tab2 x = some a' ∧ a'.newest = a.newest ∧ a'.links.Perm a.links) :
    SubTable env s1 s2 := by
  intro x id r hx
  obtain ⟨a, ha, hd⟩ := h1.entry ht1 hx
  obtain ⟨a', ha', hnew, hlinks⟩ := h x a ha
  obtain ⟨id', r', hx', hd'⟩ := h2.host ha'
  refine ⟨id', r', hx', htype x id r id' r' hx hx', ?_, hd'.links.trans (hlinks.trans hd.links.symm)⟩
  exact UInt64.toNat_inj.mp (hd'.newest.symm.trans (hnew.trans hd.newest))

/-- The types of the hosts do not depend on what was merged. -/
theorem mergeEdges_type {edges' : List PktEdge} (h : Intact env s L) (hm : s.mergeEdges q env edges = .ok (0, s1))
    (hm' : s.mergeEdges q env edges' = .ok (0, s2)) (x : EtherAddr) (id : HostId) (r : RtHost) (id' : HostId)
    (r' : RtHost) (hx : HostWith env s1 x id r) (hx' : HostWith env s2 x id' r') : r'.type = r.type := by
  obtain ⟨ht1, hk1⟩ := mergeEdges_tableOk hm h.table
  obtain ⟨ht2, hk2⟩ := mergeEdges_tableOk hm' h.table
  -- local and direct hosts were there before, under the same MAC
  have hside : ∀ {sa sb : Routing} {ia ib : HostId} {ra rb : RtHost}, TableOk env sa L → TableOk env sb L →
      Keeps s sa L → Keeps s sb L → Grows s sb → (∀ i p, DirectAt sa i p ↔ DirectAt s i p) →
      HostWith env sa x ia ra → HostWith env sb x ib rb → ra.type ≠ .htNormal → rb.type = ra.type := by
    intro sa sb ia ib ra rb hta htb hka hkb hgb hdir hxa hxb hne
    have hold : ∃ r0, ia ∈ s.hosts.items ∧ s.recs.get ia = some r0 := by
      cases htype : ra.type with
      | htNormal => exact absurd htype hne
      | htLocal =>
          have hia := hta.onlyLocal ia hxa.mem ra hxa.get htype
          obtain ⟨r0, hr0⟩ := h.table.get L h.table.localMem
          exact ⟨r0, hia ▸ h.table.localMem, hia ▸ hr0⟩
      | htDirect =>
          obtain ⟨hmem, r0, hr0, -⟩ := (hdir ia ra.host).mp ⟨hxa.mem, ra, hxa.get, htype, rfl⟩
          exact ⟨r0, hmem, hr0⟩
    obtain ⟨r0, hmem0, hr0⟩ := hold
    obtain ⟨y, hy⟩ := h.table.live ia hmem0
    have hyx : y = x := Option.some.inj ((hka.mac hy).symm.trans hxa.mac)
    subst hyx
    obtain ⟨ra', hra', -, hta'⟩ := hka.kind ia r0 hr0
    obtain ⟨rb', hrb', -, htb'⟩ := hkb.kind ia r0 hr0
    have hrae : ra' = ra := Option.some.inj (hra'.symm.trans hxa.get)
    obtain ⟨-, hrbe⟩ := htb.hostWith_inj hxb ⟨hgb.hosts ia hmem0, hkb.mac hy, hrb'⟩
    rw [hrbe, htb', ← hta', hrae]
  by_cases hn : r.type = .htNormal
  · by_cases hn' : r'.type = .htNormal
    · rw [hn, hn']
    · exact (hside ht2 ht1 hk2 hk1 (mergeEdges_frame hm).2 (fun _ _ => mergeEdges_directAt hm' ) hx' hx hn').symm
  · exact hside ht1 ht2 hk1 hk2 (mergeEdges_frame hm').2 (fun _ _ => mergeEdges_directAt hm) hx hx' hn

/-- Two batches of which the same groups are taken, and which announce the same in them, make the same of a
    table. -/
theorem Merged.subTable {edges' : List PktEdge} {tab0 tab1 tab2 : EtherAddr → Option (Entry LinkView)}
    {acc1 acc2 : EtherAddr → Prop} (h1 : Merged q env s L edges s1 tab0 acc1 tab1)
    (h2 : Merged q env s L edges' s2 tab0 acc2 tab2) (hp : edges'.Perm edges) (hacc : ∀ x, acc1 x ↔ acc2 x)
    (htype : ∀ x id r id' r', HostWith env s1 x id r → HostWith env s2 x id' r' → r'.type = r.type) :
    SubTable env s1 s2 := by
  -- sorted, both batches have the same groups, each in some order
  have hgroup : ∀ x, (groupOf (q.sort pktEdgesCmpSrc edges') x).Perm (groupOf (q.sort pktEdgesCmpSrc edges) x) :=
    fun x => (group_sort q edges' x).trans ((group_perm hp).trans (group_sort q edges x).symm)
  have hnamed : ∀ x, Named edgeStream (q.sort pktEdgesCmpSrc edges) acc1 x ↔
      Named edgeStream (q.sort pktEdgesCmpSrc edges') acc2 x := by
    intro x
    refine exists_congr fun y => and_congr (hacc y) (exists_congr fun e => ?_)
    rw [(hgroup y).mem_iff]
  refine subTable_of_shows h1.shows h2.shows h1.after.table htype fun x a ha => ?_
  by_cases htaken : acc1 x
  · rw [h1.outcome.entry htaken, Option.some.injEq] at ha
    subst ha
    refine ⟨_, h2.outcome.entry ((hacc x).mp htaken), ?_, ?_⟩
    · cases tab0 x with
      | none => exact newestOf_perm (hgroup x)
      | some r => exact newestOf_perm (hgroup x)
    · cases tab0 x with
      | none => exact (hgroup x).map _
      | some r => exact (hgroup x).map _
  · have htaken' : ¬ acc2 x := mt (hacc x).mpr htaken
    cases h0 : tab0 x with
    | some r =>
        rw [h1.outcome.kept x r h0 htaken] at ha
        cases ha
        exact ⟨a, h2.outcome.kept x a h0 htaken', rfl, List.Perm.refl _⟩
    | none =>
        by_cases hn : Named edgeStream (q.sort pktEdgesCmpSrc edges) acc1 x
        · rw [h1.outcome.named x h0 htaken hn] at ha
          cases ha
          exact ⟨_, h2.outcome.named x h0 htaken' ((hnamed x).mp hn), rfl, List.Perm.refl _⟩
        · rw [h1.outcome.absent x h0 htaken hn] at ha
          cases ha

/-- **Newest wins, per source, exactly on the batches on which the first edge after the sort is as good as the
    newest**: for every reachable state (also of runs in which allocations fail) and every batch on which
    `rt_update_edges` returns `0`, with `s1` the table just before `update_cache`. -/
theorem newestWins_iff (h : Reach q env al s) {s' : Routing} (hm : s.mergeEdges q env edges = .ok (0, s1))
    (hrun : s.rtUpdateEdges q env edges = .ok (0, s')) : NewestWins q env s edges s1 ↔ MergesRight env s edges := by
  have hrun' : (RtOp.updateEdges edges).run q env s = .ok (0, s') := hrun
  obtain ⟨L, hint⟩ := h.intact hrun'
  obtain ⟨tab0, h0⟩ := exists_shows env s
  obtain ⟨acc, tab, hmer⟩ := hint.merged h0 hm
  constructor
  · intro hw
    refine ⟨⟨fun x id r hx href e he hmax => ?_, fun x hno hne hzero y hlt href e he hdst => ?_⟩, fun x hne href => ?_⟩
    · have hne : groupOf edges x ≠ [] := List.ne_nil_of_mem he
      obtain ⟨a, ha, hd⟩ := h0.entry hint.table hx
      obtain ⟨f, hf, hmem, hfmax⟩ := first_of_group q hne
      obtain ⟨-, hlt⟩ := (hmer.outcome.decided x a f ha hf).mp (hmer.taken_of_wins hw hne href)
      -- both come first in the packet's byte order
      have hef : e.tsMs = f.tsMs := UInt64.le_antisymm (hfmax e he) (hmax f hmem)
      rw [hef]
      rw [hd.newest] at hlt
      exact UInt64.lt_iff_toNat_lt.mpr hlt
    · obtain ⟨f, hf, hmem, -⟩ := first_of_group q hne
      have hnone := hmer.absent_iff.mpr hno
      rcases (hmer.outcome.welcome x f hnone hf).mp (hmer.taken_of_wins hw hne (fun ⟨id, r, hx, _⟩ => hno id r hx)) with hpos | hnot
      · have hle : edgeStream.ts f ≤ newestTs edges x := le_newestOf hmem
        omega
      · refine hnot ⟨y, hlt, hmer.taken_of_wins hw (List.ne_nil_of_mem he) href, e, ?_, hdst⟩
        exact (group_sort q edges y).mem_iff.mpr he
    · -- the links lead to different MACs, and they are the group's
      obtain ⟨id1, r1, hx1, hlinks, -⟩ := hw.merged x hne href
      obtain ⟨id1', r1', hx1', hperm, -⟩ := hmer.taken_host (hmer.taken_of_wins hw hne href)
      obtain ⟨-, rfl⟩ := hmer.after.table.hostWith_inj hx1 hx1'
      have hone : (r1.links.items.map (linkView env s1)).Pairwise fun v v' : LinkView => v.1 ≠ v'.1 :=
        pairwise_linkView.mpr hlinks.one
      have hsymm : ∀ v v' : LinkView, v.1 ≠ v'.1 → v'.1 ≠ v.1 := fun _ _ => Ne.symm
      have hgroup := List.pairwise_map.mp ((hperm.pairwise_iff (hsymm _ _)).mp hone)
      exact hgroup.imp fun hne' he => hne' (congrArg some he)
  · intro hr
    refine ⟨fun x id r hx hne href => ?_, fun x hne href => ?_, fun x id r hx hnil => ?_, fun _ edges' s1' hp hm' => ?_⟩
    · exact ⟨r, hmer.host_kept hx fun hacc => hmer.taken_not_refuses hacc href, rfl⟩
    · exact hmer.newestLinks ((hmer.taken_iff hr.decides).mpr ⟨hne, href⟩) (hr.single x hne href)
    · exact ⟨r, hmer.host_kept hx fun hacc => ((hmer.taken_iff hr.decides).mp hacc).1 hnil, rfl⟩
    · obtain ⟨acc', tab', hmer'⟩ := hint.merged h0 hm'
      have hacc : ∀ x, acc x ↔ acc' x := by
        intro x
        rw [hmer.taken_iff hr.decides, hmer'.taken_iff (hr.perm hp).decides]
        have hgroup : (groupOf edges' x).Perm (groupOf edges x) := group_perm hp
        have hnew : newestTs edges' x = newestTs edges x := newestOf_perm hgroup
        refine and_congr (not_congr ⟨fun h0 => ?_, fun h0 => ?_⟩) (not_congr ?_)
        · exact List.perm_nil.mp (h0 ▸ hgroup)
        · exact List.nil_perm.mp (h0 ▸ hgroup)
        · simp only [Refuses, hnew]
      exact ⟨hmer.subTable hmer' hp hacc (mergeEdges_type hint hm hm'),
        hmer'.subTable hmer hp.symm (fun x => (hacc x).symm) (mergeEdges_type hint hm' hm)⟩

/-! ### Two batches on a line -/

/-- Four sources announce at once: local itself, host `1` with both of its links, host `2`, which is known but
    has announced nothing so far, and host `3`, which is new. -/
def newerEdges : List PktEdge :=
  [packEdge (lineHost 3) (lineHost 1) 40 7, packEdge (lineHost 1) (lineHost 2) 20 9,
    packEdge (lineHost 0) (lineHost 2) 5 300, packEdge (lineHost 2) (lineHost 1) 30 4,
    packEdge (lineHost 1) (lineHost 0) 10 6]

/-- Host `1` announces its link to host `2` again, and a link back to local. -/
def lateEdges : List PktEdge :=
  [packEdge (lineHost 1) (lineHost 2) 20 1, packEdge (lineHost 1) (lineHost 0) 10 256]

/-- The hosts of the line, in a table that is still as it was. -/
theorem lineRecs_hosts (hitems : s.hosts.items = [0, 1, 2]) (hrecs : s.recs = lineRecs) {id : HostId} {r : RtHost}
    (hx : HostWith lineExt s x id r) :
    (x = (lineHost 0).mac ∧ r.type = .htLocal) ∨
    (x = (lineHost 1).mac ∧ r.type = .htDirect ∧ r.lMaxTsMs = 5) ∨
    (x = (lineHost 2).mac ∧ r.type = .htNormal ∧ r.lMaxTsMs = 0) := by
  obtain ⟨hmem, hmac, hget⟩ := hx
  unfold mac? at hmac
  rw [hrecs] at hmac hget
  rw [hitems] at hmem
  simp only [List.mem_cons, List.not_mem_nil, or_false] at hmem
  rcases hmem with rfl | rfl | rfl
  · cases hget
    exact Or.inl ⟨(Option.some.inj hmac).symm, rfl⟩
  · cases hget
    exact Or.inr (Or.inl ⟨(Option.some.inj hmac).symm, rfl, rfl⟩)
  · cases hget
    exact Or.inr (Or.inr ⟨(Option.some.inj hmac).symm, rfl, rfl⟩)

/-- Every group of the batch is judged by its newest edge, and names every destination once. -/
theorem newerEdges_right (hitems : s.hosts.items = [0, 1, 2]) (hrecs : s.recs = lineRecs) :
    MergesRight lineExt s newerEdges := by
  have hts : ∀ e ∈ newerEdges, 0 < edgeStream.ts e := by decide +kernel
  have hone : newerEdges.Pairwise fun e e' => edgeStream.src e = edgeStream.src e' →
      edgeStream.dst e ≠ edgeStream.dst e' := by
    decide +kernel
  refine ⟨⟨fun x id r hx href e he hmax => ?_, fun x _ hne hzero => ?_⟩, fun x _ _ => ?_⟩
  · rcases lineRecs_hosts hitems hrecs hx with ⟨rfl, hr⟩ | ⟨rfl, -, hr⟩ | ⟨rfl, -, hr⟩
    · exact absurd ⟨id, r, hx, Or.inl hr⟩ href
    · have hnew : ∀ e ∈ groupOf newerEdges (lineHost 1).mac,
          (∀ e' ∈ groupOf newerEdges (lineHost 1).mac, e'.tsMs ≤ e.tsMs) → 5 < ntohll e.tsMs := by
        decide +kernel
      exact hr ▸ hnew e he hmax
    · have hnew : ∀ e ∈ groupOf newerEdges (lineHost 2).mac, 0 < ntohll e.tsMs := by decide +kernel
      exact hr ▸ hnew e he
  · -- no group is without a time stamp
    obtain ⟨e, he⟩ := List.exists_mem_of_ne_nil _ hne
    have hle : edgeStream.ts e ≤ newestTs newerEdges x := le_newestOf he
    have hpos := hts e (mem_group.mp he).1
    omega
  · refine (List.Pairwise.filter _ hone).imp_of_mem fun {e e'} he he' hdiffer => hdiffer ?_
    exact (mem_group.mp he).2.1.trans (mem_group.mp he').2.1.symm

theorem newestWins_iff_line : ∃ s s1 s', Reach .insertion lineExt [] s ∧
    s.mergeEdges .insertion lineExt newerEdges = .ok (0, s1) ∧
    s.rtUpdateEdges .insertion lineExt newerEdges = .ok (0, s') ∧
    (NewestWins .insertion lineExt s newerEdges s1 ↔ MergesRight lineExt s newerEdges) ∧
    MergesRight lineExt s newerEdges := by
  have h : (do
      let s ← runFrom .insertion lineExt lineOps
      let a ← s.mergeEdges .insertion lineExt newerEdges
      let b ← s.rtUpdateEdges .insertion lineExt newerEdges
      pure (a.1, b.1, s.hosts.items, s.recs)) = Except.ok (0, 0, [0, 1, 2], lineRecs) := by
    decide +kernel
  obtain ⟨s, hs, h⟩ := bind_eq_ok.mp h
  obtain ⟨⟨ret, s1⟩, hm, h⟩ := bind_eq_ok.mp h
  obtain ⟨⟨ret', s'⟩, hrun, h⟩ := bind_eq_ok.mp h
  simp only [pure_eq_ok, Except.ok.injEq, Prod.mk.injEq] at h
  obtain ⟨rfl, rfl, hitems, hrecs⟩ := h
  exact ⟨s, s1, s', reach_runFrom hs, hm, hrun, newestWins_iff (reach_runFrom hs) hm hrun,
    newerEdges_right hitems hrecs⟩

/-- Host `1` of the line, in a table that is still as it was. -/
theorem lineRecs_host (hitems : s.hosts.items = [0, 1, 2]) (hrecs : s.recs = lineRecs) {id : HostId} {r : RtHost}
    (hx : HostWith lineExt s (lineHost 1).mac id r) : r.type = .htDirect ∧ r.lMaxTsMs = 5 := by
  rcases lineRecs_hosts hitems hrecs hx with ⟨h, -⟩ | ⟨-, hr⟩ | ⟨h, -⟩
  · exact absurd h (by decide)
  · exact hr
  · exact absurd h (by decide)

/-- **A newer announcement is refused** when an older edge comes with it whose time stamp has the greater bytes
    in front: `1` before `256`. -/
theorem newestWins_late_refused : ∃ s s1 s', Reach .insertion lineExt [] s ∧
    s.mergeEdges .insertion lineExt lateEdges = .ok (0, s1) ∧
    s.rtUpdateEdges .insertion lineExt lateEdges = .ok (0, s') ∧
    ¬ NewestWins .insertion lineExt s lateEdges s1 := by
  have h : (do
      let s ← runFrom .insertion lineExt lineOps
      let a ← s.mergeEdges .insertion lineExt lateEdges
      let b ← s.rtUpdateEdges .insertion lineExt lateEdges
      pure ([a.1, b.1], [s.hosts.items, a.2.hosts.items], s.recs, a.2.recs))
      = Except.ok ([0, 0], [[0, 1, 2], [0, 1, 2]], lineRecs, lineRecs) := by
    decide +kernel
  obtain ⟨s, hs, h⟩ := bind_eq_ok.mp h
  obtain ⟨⟨ret, s1⟩, hm, h⟩ := bind_eq_ok.mp h
  obtain ⟨⟨ret', s'⟩, hrun, h⟩ := bind_eq_ok.mp h
  simp only [pure_eq_ok, Except.ok.injEq, Prod.mk.injEq, List.cons.injEq, and_true] at h
  obtain ⟨⟨rfl, rfl⟩, ⟨hitems, hitems1⟩, hrecs, hrecs1⟩ := h
  have hnew : newestTs lateEdges (lineHost 1).mac = 256 := by decide +kernel
  refine ⟨s, s1, s', reach_runFrom hs, hm, hrun, fun hw => ?_⟩
  have href : ¬ Refuses lineExt s lateEdges (lineHost 1).mac := by
    rintro ⟨id, r, hx, hor⟩
    obtain ⟨htype, hmax⟩ := lineRecs_host hitems hrecs hx
    rw [htype, hmax, hnew] at hor
    exact absurd hor (by decide)
  obtain ⟨id1, r1, hx1, -, hmax1⟩ := hw.merged (lineHost 1).mac (by decide +kernel) href
  obtain ⟨-, hmax⟩ := lineRecs_host hitems1 hrecs1 hx1
  rw [hmax, hnew] at hmax1
  exact absurd hmax1 (by decide)

end Property

end Routing

end P2pVn
