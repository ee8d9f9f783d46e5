import P2pVn.Routing.Connected
import P2pVn.Routing.NewestWins

/-!
# `Routing.Converging` — the same announcements in another order

Neighbours deliver the same edges in different orders, and repeatedly. `rtUpdateEdges_converges`: two batches
merged in either order leave the hosts with the same links, and a batch merged twice leaves what it left the
first time, if no call is misled by the byte order of the time stamps (`DecidesRight`) and none trims a host by
the matrices from before (`TrimsNobody`).

- **Spec lemma.** `Reach.quietCall`: such a call is a fair merge, and nothing else.
-/

namespace P2pVn
open CUb GroupedMerge

namespace Routing

variable {env : ExtMem} {q : Qsort} {s s' s1 s2 s11 s12 s21 : Routing} {L : HostId} {al : AllocScript}
  {edges : List PktEdge}

/-! ## Calls that trim nobody -/

/-- The merge meets a MAC that is not in the table: as a source, or as a destination of a source it merges. -/
def AddsHost (env : ExtMem) (s : Routing) (edges : List PktEdge) : Prop :=
  ∃ x, (∀ id r, ¬ HostWith env s x id r) ∧
    (groupOf edges x ≠ [] ∨ ∃ y, ¬ Refuses env s edges y ∧ ∃ e ∈ groupOf edges y, edgeStream.dst e = x)

/-- The merge adds a host, so that the matrices do not fit any more, or they show no normal host as
    disconnected. -/
def TrimsNobody (env : ExtMem) (s : Routing) (edges : List PktEdge) : Prop :=
  AddsHost env s edges ∨ ∀ i id r, s.hosts.items[i]? = some id → s.recs.get id = some r → r.type = .htNormal →
    ¬ OldDisconnected s i

/-- A call that is not misled, neither by the byte order nor by the matrices from before. -/
structure Orderly (env : ExtMem) (s : Routing) (edges : List PktEdge) : Prop where
  decides : DecidesRight env s edges
  trims : TrimsNobody env s edges

theorem trimLoop_nobody {srcI : Nat} (hno : ∀ i, ¬ ToTrim s srcI i) (fuel dstI : Nat)
    (h : trimLoop env srcI fuel dstI s = .ok s') : s' = s := by
  refine trimLoop_induct (P := fun t => t = s) ?_ fuel dstI h rfl
  rintro i t t' h0 hne h1 rfl
  -- a disconnected host that is left alone is not a normal one
  obtain ⟨id, r, hi, hr, ⟨-, he⟩ | ⟨hn, -⟩⟩ := trimHost_cases h1
  · exact he
  · exact absurd ⟨hne, h0, id, r, hi, hr, hn⟩ (hno i)

theorem TrimRun.nobody (h : TrimRun env s s') (ht : TableOk env s L)
    (hno : ∀ i id r, s.hosts.items[i]? = some id → s.recs.get id = some r → r.type = .htNormal →
      ¬ OldDisconnected s i) : s' = s := by
  cases h with
  | stale => rfl
  | @trimmed L' m srcI _ hct hL hm hf hloop =>
      refine trimLoop_nobody ?_ _ _ hloop
      rintro i ⟨-, h0, id, r, hi, hr, hn⟩
      obtain ⟨-, hsrc⟩ := ht.found_local hL hm hf
      exact hno i id r hi hr hn ⟨hct, srcI, hsrc.trans ht.isLocal.symm, h0⟩

/-- Where there are no usable matrices, none of their rows is read. -/
theorem TrimRun.notLive (h : TrimRun env s s') (hp : NotLive s.path) : s' = s := by
  cases h with
  | stale => rfl
  | trimmed _ _ _ _ hloop =>
      refine trimLoop_nobody ?_ _ _ hloop
      rintro i ⟨-, h0, -⟩
      exact hp.entry _ _ _ h0

/-- There are never more rows than hosts in matrices that can be used. -/
theorem Reach.mCt_le (h : Reach q env al s) : NotLive s.path ∨ s.mCt ≤ s.hosts.ct := by
  obtain ⟨L, ⟨hp, -⟩ | ⟨-, -, hle, -⟩⟩ := h.guided
  · exact Or.inl hp
  · exact Or.inr hle

theorem Merged.addsHost {tab0 : EtherAddr → Option (Entry LinkView)} {acc : EtherAddr → Prop}
    {tab : EtherAddr → Option (Entry LinkView)} (h : Merged q env s L edges s1 tab0 acc tab)
    (hr : DecidesRight env s edges) (hadd : AddsHost env s edges) : s.hosts.ct < s1.hosts.ct := by
  obtain ⟨x, hno, hor⟩ := hadd
  have h0 := h.absent_iff.mpr hno
  -- the host is in the table after
  have hafter : ∃ a, tab x = some a := by
    by_cases hacc : acc x
    · exact ⟨_, h.outcome.entry hacc⟩
    · refine ⟨_, h.outcome.named x h0 hacc ?_⟩
      rcases hor with hne | ⟨y, href, e, he, rfl⟩
      · exact absurd ((h.taken_iff hr).mpr ⟨hne, fun ⟨id, r, hx, _⟩ => hno id r hx⟩) hacc
      · exact ⟨y, (h.taken_iff hr).mpr ⟨List.ne_nil_of_mem he, href⟩, e, (group_sort q edges y).mem_iff.mpr he, rfl⟩
  obtain ⟨a, ha⟩ := hafter
  obtain ⟨id, r, hx, -⟩ := h.shows.host ha
  rcases h.grows.size with hitems | hlt
  · -- else it was there before
    obtain ⟨y, r0, hy⟩ := h.before.table.hostWith (hitems ▸ hx.mem)
    have hyx : y = x := Option.some.inj ((h.keeps.mac hy.mac).symm.trans hx.mac)
    exact absurd (hyx ▸ hy) (hno id r0)
  · exact hlt

/-- A call on a batch that trims nobody leaves the table as the merge made it. -/
theorem Reach.trimsNobody (h : Reach q env al s) {tab0 : EtherAddr → Option (Entry LinkView)}
    {acc : EtherAddr → Prop} {tab : EtherAddr → Option (Entry LinkView)}
    (hm : Merged q env s L edges s1 tab0 acc tab) (hf : Frame s s1) (htrim : TrimRun env s1 s2)
    (ho : Orderly env s edges) : s2 = s1 := by
  rcases hm.grows.size with hitems | hlt
  · have hct : s1.hosts.ct = s.hosts.ct := by rw [Da.ct, hitems, Da.ct]
    have hno := ho.trims.resolve_left fun hadd => Nat.lt_irrefl _ (hct ▸ hm.addsHost ho.decides hadd)
    refine htrim.nobody hm.after.table fun i id r hi hr hn hold => ?_
    rw [hitems] at hi
    obtain ⟨r0, hr0⟩ := hm.before.table.get id (List.mem_of_getElem? hi)
    obtain ⟨r', hr', -, htype⟩ := hm.keeps.kind id r0 hr0
    rw [hr] at hr'
    cases hr'
    refine hno i id r0 hi hr0 (htype.symm.trans hn) ?_
    rw [OldDisconnected, hf.mCt, hct, hitems, hf.localHost, hf.path] at hold
    exact hold
  · -- there are more hosts than rows
    rcases h.mCt_le with hp | hle
    · exact htrim.notLive (hf.path ▸ hp)
    · refine htrim.nobody hm.after.table fun i id r _ _ _ hold => ?_
      have hfit := hold.1
      rw [hf.mCt] at hfit
      omega

/-- All time stamps of the batch are positive. -/
def PositiveTs (edges : List PktEdge) : Prop := ∀ e ∈ edges, 0 < edgeStream.ts e

instance : DecidablePred PositiveTs := fun edges => inferInstanceAs (Decidable (∀ e ∈ edges, 0 < edgeStream.ts e))

theorem Merged.fair {tab0 : EtherAddr → Option (Entry LinkView)} {acc : EtherAddr → Prop}
    {tab : EtherAddr → Option (Entry LinkView)} (h : Merged q env s L edges s1 tab0 acc tab)
    (hr : DecidesRight env s edges) : Fair edgeStream tab0 (q.sort pktEdgesCmpSrc edges) acc := by
  intro x
  rw [h.taken_iff hr]
  refine and_congr (not_congr ⟨fun h0 => ?_, fun h0 => ?_⟩) ?_
  · exact List.perm_nil.mp (h0 ▸ group_sort q edges x)
  · exact List.nil_perm.mp (h0 ▸ group_sort q edges x)
  · rw [newest_sort]
    constructor
    · intro href a ha
      obtain ⟨id, r, hx, hd⟩ := h.shows0.host ha
      refine ⟨?_, Nat.lt_of_not_le fun hle => href ⟨id, r, hx, Or.inr (hd.newest ▸ hle)⟩⟩
      rw [hd.fixed]
      exact decide_eq_false fun hloc => href ⟨id, r, hx, Or.inl hloc⟩
    · rintro hnew ⟨id, r, hx, hor⟩
      obtain ⟨a, ha, hd⟩ := h.shows0.entry h.before.table hx
      obtain ⟨hfix, hlt⟩ := hnew a ha
      rw [hd.fixed] at hfix
      rw [hd.newest] at hlt
      rcases hor with hloc | hle
      · exact of_decide_eq_false hfix hloc
      · omega

/-- **What an orderly call does**: a fair merge. -/
theorem Reach.quietCall (h : Reach q env al s) (hrun : s.rtUpdateEdges q env edges = .ok (0, s'))
    (ho : Orderly env s edges) {tab0 : EtherAddr → Option (Entry LinkView)} (h0 : Shows env s tab0) :
    ∃ L s1 acc tab, Merged q env s L edges s1 tab0 acc tab ∧
      Fair edgeStream tab0 (q.sort pktEdgesCmpSrc edges) acc ∧ Same s1 s' := by
  have hrun' : (RtOp.updateEdges edges).run q env s = .ok (0, s') := hrun
  obtain ⟨L, hint⟩ := h.intact hrun'
  obtain ⟨s1, s2, s3, hphase, htrim, hcomp, hexp⟩ := RtOp.run_zero hrun'
  have hm : s.mergeEdges q env edges = .ok (0, s1) := hphase
  obtain ⟨acc, tab, hmer⟩ := hint.merged h0 hm
  have hs2 := h.trimsNobody hmer (mergeEdges_frame hm).1 htrim ho
  have hsame : Same s2 s3 := (computePaths_cases hcomp).1
  refine ⟨L, s1, acc, tab, hmer, hmer.fair ho.decides, ?_⟩
  rw [← hs2]
  exact hsame.trans (updateExportedEdges_cases hexp).1.same

/-! ## Convergence -/

/-- The hosts that are in both tables have the same links. -/
def LinksAgree (env : ExtMem) (s s' : Routing) : Prop :=
  ∀ x id r id' r', HostWith env s x id r → HostWith env s' x id' r' →
    (r.links.items.map (linkView env s)).Perm (r'.links.items.map (linkView env s'))

theorem positive_sort {edges : List PktEdge} (hpos : PositiveTs edges) (q : Qsort) :
    ∀ e ∈ q.sort pktEdgesCmpSrc edges, 0 < edgeStream.ts e :=
  fun e he => hpos e ((q.perm _ _).mem_iff.mp he)

/-- A map that shows a table shows the same table after. -/
theorem Merged.shown {tab0 : EtherAddr → Option (Entry LinkView)} {acc : EtherAddr → Prop}
    {tab : EtherAddr → Option (Entry LinkView)} (h : Merged q env s L edges s1 tab0 acc tab) (hs : Same s1 s') :
    Shows env s' tab ∧ TableOk env s' L := ⟨h.shows.same hs, h.after.table.same hs⟩

theorem HostWith.same {x : EtherAddr} {id : HostId} {r : RtHost} (h : HostWith env s x id r) (hs : Same s s') :
    HostWith env s' x id r :=
  ⟨hs.hosts ▸ h.mem, (hs.mac? id).trans h.mac, (hs.get id).trans h.get⟩

variable {edges' : List PktEdge}

/-- Where two maps that show two tables agree, the tables do. -/
theorem linksAgree_of_shows {tab tab' : EtherAddr → Option (Entry LinkView)} {L' : HostId} (h : Shows env s tab)
    (h' : Shows env s' tab') (ht : TableOk env s L) (ht' : TableOk env s' L')
    (he : ∀ x a a', tab x = some a → tab' x = some a' → a = a') : LinksAgree env s s' := by
  intro x id r id' r' hx hx'
  obtain ⟨a, ha, hd⟩ := h.entry ht hx
  obtain ⟨a', ha', hd'⟩ := h'.entry ht' hx'
  obtain rfl := he x a a' ha ha'
  exact hd.links.trans hd'.links.symm

/-- **Link state converges.** From every reachable state (whichever allocations fail), for any two batches with
    positive time stamps of which no source has the same newest one in both: if the calls return `0` and each is
    orderly in the state in which it is made, then the hosts that are in the table after either order (with them
    those that local reaches in both) have the same links after both, and a batch merged twice leaves the same
    hosts and links as merged once. -/
theorem rtUpdateEdges_converges (h : Reach q env al s) (hpos : PositiveTs edges) (hpos' : PositiveTs edges')
    (hnew : ∀ x, groupOf edges x ≠ [] → groupOf edges' x ≠ [] → newestTs edges x ≠ newestTs edges' x)
    (hrun1 : s.rtUpdateEdges q env edges = .ok (0, s1)) (hrun12 : s1.rtUpdateEdges q env edges' = .ok (0, s12))
    (hrun2 : s.rtUpdateEdges q env edges' = .ok (0, s2)) (hrun21 : s2.rtUpdateEdges q env edges = .ok (0, s21))
    (hrun11 : s1.rtUpdateEdges q env edges = .ok (0, s11))
    (ho1 : Orderly env s edges) (ho12 : Orderly env s1 edges') (ho2 : Orderly env s edges')
    (ho21 : Orderly env s2 edges) (ho11 : Orderly env s1 edges) :
    LinksAgree env s12 s21 ∧ SubTable env s1 s11 ∧ SubTable env s11 s1 := by
  have hreach : ∀ {sa sb : Routing} {es : List PktEdge}, Reach q env al sa → sa.rtUpdateEdges q env es = .ok (0, sb) →
      Reach q env al sb := fun ha hrun => ha.op (show (RtOp.updateEdges _).run q env _ = .ok (0, _) from hrun)
  obtain ⟨tab0, h0⟩ := exists_shows env s
  obtain ⟨L1, m1, acc1, tab1, hm1, hf1, hs1⟩ := h.quietCall hrun1 ho1 h0
  obtain ⟨L2, m2, acc2, tab2, hm2, hf2, hs2⟩ := h.quietCall hrun2 ho2 h0
  obtain ⟨hshow1, ht1⟩ := hm1.shown hs1
  obtain ⟨hshow2, -⟩ := hm2.shown hs2
  obtain ⟨L12, m12, acc12, tab12, hm12, hf12, hs12⟩ := (hreach h hrun1).quietCall hrun12 ho12 hshow1
  obtain ⟨L21, m21, acc21, tab21, hm21, hf21, hs21⟩ := (hreach h hrun2).quietCall hrun21 ho21 hshow2
  obtain ⟨L11, m11, acc11, tab11, hm11, hf11, hs11⟩ := (hreach h hrun1).quietCall hrun11 ho11 hshow1
  obtain ⟨hshow12, ht12⟩ := hm12.shown hs12
  obtain ⟨hshow21, ht21⟩ := hm21.shown hs21
  obtain ⟨hshow11, ht11⟩ := hm11.shown hs11
  constructor
  · refine linksAgree_of_shows hshow12 hshow21 ht12 ht21 fun x a a' ha ha' => ?_
    refine outcome_comm hm1.outcome hm12.outcome hm2.outcome hm21.outcome hf1 hf12 hf2 hf21 (positive_sort hpos q)
      (positive_sort hpos' q) (fun hne hne' => ?_) ha ha'
    rw [newest_sort, newest_sort]
    refine hnew x (fun h0 => hne ?_) (fun h0 => hne' ?_)
    · exact List.perm_nil.mp (h0 ▸ group_sort q edges x)
    · exact List.perm_nil.mp (h0 ▸ group_sort q edges' x)
  · -- the second time no group is taken, and nobody is named
    have hidem := outcome_idem hm1.outcome hm11.outcome hf1 hf11 (positive_sort hpos q)
    have hnone : ∀ x id r, HostWith env s1 x id r → HostWith env s11 x id r := by
      intro x id r hx
      obtain ⟨a, ha, hd⟩ := hshow1.entry ht1 hx
      obtain ⟨r', hx', hor⟩ := hm11.host hx
      obtain ⟨a', ha', hd'⟩ := hm11.shows.entry hm11.after.table hx'
      rw [hidem x, ha, Option.some.injEq] at ha'
      subst ha'
      rcases hor with rfl | hlt
      · exact hx'.same hs11
      · have hts := UInt64.lt_iff_toNat_lt.mp hlt
        rw [← hd'.newest, hd.newest] at hts
        exact absurd hts (Nat.lt_irrefl _)
    -- what a link of `s1` leads to is in `s1`, and so it says the same in `s11`
    have hview : ∀ x id r, HostWith env s1 x id r →
        r.links.items.map (linkView env s11) = r.links.items.map (linkView env s1) := by
      intro x id r hx
      refine linkViews_congr hm11.before.table hm11.before.links (fun j y hj => ?_) hx.mem hx.get
      exact (hs11.mac? j).trans (hm11.keeps.mac hj)
    refine ⟨fun x id r hx => ⟨id, r, hnone x id r hx, rfl, rfl, ?_⟩, fun x id r hx => ?_⟩
    · rw [hview x id r hx]
    · obtain ⟨a, ha, -⟩ := hshow11.entry ht11 hx
      obtain ⟨id', r', hx', -⟩ := hshow1.host ((hidem x).symm.trans ha)
      obtain ⟨rfl, rfl⟩ := ht11.hostWith_inj hx (hnone x id' r' hx')
      refine ⟨id, r, hx', rfl, rfl, ?_⟩
      rw [hview x id r hx']

/-! ### Two batches on a line -/

/-- A batch is decided right in every state if for each source the bytes of the time stamps are in the order of
    the time stamps. -/
theorem decidesRight_of_sameOrder (hpos : PositiveTs edges)
    (h : ∀ e ∈ edges, ∀ e' ∈ edges, edgeStream.src e = edgeStream.src e' → e'.tsMs ≤ e.tsMs →
      edgeStream.ts e' ≤ edgeStream.ts e) : DecidesRight env s edges := by
  constructor
  · intro x id r hx href e he hmax
    obtain ⟨hmem, hsrc, -⟩ := mem_group.mp he
    have hle : newestTs edges x ≤ edgeStream.ts e := by
      refine newestOf_le.mpr ⟨Nat.zero_le _, fun e' he' => ?_⟩
      obtain ⟨hmem', hsrc', -⟩ := mem_group.mp he'
      exact h e hmem e' hmem' (hsrc.trans hsrc'.symm) (hmax e' he')
    have hlt : r.lMaxTsMs.toNat < newestTs edges x := Nat.lt_of_not_le fun hge => href ⟨id, r, hx, Or.inr hge⟩
    exact UInt64.lt_iff_toNat_lt.mpr (Nat.lt_of_lt_of_le hlt hle)
  · intro x _ hne hzero
    have hlt : 0 < newestTs edges x := newestOf_pos hpos hne
    omega

/-- The types of the hosts of the table, in its order. -/
def hostTypes (s : Routing) : List (Option HostType) := s.hosts.items.map fun id => (s.recs.get id).map RtHost.type

/-- Nobody is trimmed where there are only direct peers. -/
theorem trimsNobody_of_direct (h : some .htNormal ∉ hostTypes s) : TrimsNobody env s edges := by
  refine Or.inr fun i id r hi hr hn _ => h ?_
  exact List.mem_map.mpr ⟨id, List.mem_of_getElem? hi, by rw [hr, Option.map_some, hn]⟩

/-- Hosts `1` and `2` connect to host `0`. -/
def trioOps : List RtOp := [.dhostAddLink 0 10 ⟨0, 0⟩, .dhostAddLink 1 10 ⟨0, 0⟩]

/-- Host `1` announces its links to hosts `2` and `0`. -/
def trioEdges (rttUs : UInt32) (tsMs tsMs' : UInt64) : List PktEdge :=
  [packEdge (lineHost 1) (lineHost 2) rttUs tsMs, packEdge (lineHost 1) (lineHost 0) 10 tsMs']

theorem groupOf_trio {x : EtherAddr} {rttUs : UInt32} {tsMs tsMs' : UInt64}
    (h : groupOf (trioEdges rttUs tsMs tsMs') x ≠ []) : x = (lineHost 1).mac := by
  obtain ⟨e, he⟩ := List.exists_mem_of_ne_nil _ h
  obtain ⟨hmem, hsrc, -⟩ := mem_group.mp he
  rcases List.mem_cons.mp hmem with rfl | hmem
  · exact hsrc.symm
  · rw [List.mem_singleton] at hmem
    rw [hmem] at hsrc
    exact hsrc.symm

theorem rtUpdateEdges_converges_trio : ∃ s s1 s11 s12 s2 s21, Reach .insertion lineExt [] s ∧
    s.rtUpdateEdges .insertion lineExt (trioEdges 20 6 9) = .ok (0, s1) ∧
    s1.rtUpdateEdges .insertion lineExt (trioEdges 30 7 12) = .ok (0, s12) ∧
    s.rtUpdateEdges .insertion lineExt (trioEdges 30 7 12) = .ok (0, s2) ∧
    s2.rtUpdateEdges .insertion lineExt (trioEdges 20 6 9) = .ok (0, s21) ∧
    s1.rtUpdateEdges .insertion lineExt (trioEdges 20 6 9) = .ok (0, s11) ∧
    LinksAgree lineExt s12 s21 ∧ SubTable lineExt s1 s11 ∧ SubTable lineExt s11 s1 := by
  have h : (do
      let s ← runFrom .insertion lineExt trioOps
      let a ← s.rtUpdateEdges .insertion lineExt (trioEdges 20 6 9)
      let ab ← a.2.rtUpdateEdges .insertion lineExt (trioEdges 30 7 12)
      let b ← s.rtUpdateEdges .insertion lineExt (trioEdges 30 7 12)
      let ba ← b.2.rtUpdateEdges .insertion lineExt (trioEdges 20 6 9)
      let aa ← a.2.rtUpdateEdges .insertion lineExt (trioEdges 20 6 9)
      pure ([a.1, ab.1, b.1, ba.1, aa.1], hostTypes s, hostTypes a.2, hostTypes b.2))
      = Except.ok ([0, 0, 0, 0, 0], [some .htLocal, some .htDirect, some .htDirect],
        [some .htLocal, some .htDirect, some .htDirect], [some .htLocal, some .htDirect, some .htDirect]) := by
    decide +kernel
  obtain ⟨s, hs, h⟩ := bind_eq_ok.mp h
  obtain ⟨⟨r1, s1⟩, h1, h⟩ := bind_eq_ok.mp h
  obtain ⟨⟨r12, s12⟩, h12, h⟩ := bind_eq_ok.mp h
  obtain ⟨⟨r2, s2⟩, h2, h⟩ := bind_eq_ok.mp h
  obtain ⟨⟨r21, s21⟩, h21, h⟩ := bind_eq_ok.mp h
  obtain ⟨⟨r11, s11⟩, h11, h⟩ := bind_eq_ok.mp h
  simp only [pure_eq_ok, Except.ok.injEq, Prod.mk.injEq, List.cons.injEq, and_true] at h
  obtain ⟨⟨rfl, rfl, rfl, rfl, rfl⟩, ht, ht1, ht2⟩ := h
  have hpos : PositiveTs (trioEdges 20 6 9) := by decide +kernel
  have hpos' : PositiveTs (trioEdges 30 7 12) := by decide +kernel
  have hright : ∀ sa, DecidesRight lineExt sa (trioEdges 20 6 9) :=
    fun sa => decidesRight_of_sameOrder hpos (by decide +kernel)
  have hright' : ∀ sa, DecidesRight lineExt sa (trioEdges 30 7 12) :=
    fun sa => decidesRight_of_sameOrder hpos' (by decide +kernel)
  have hnobody : ∀ {sa : Routing} {es : List PktEdge},
      hostTypes sa = [some .htLocal, some .htDirect, some .htDirect] → TrimsNobody lineExt sa es :=
    fun ha => trimsNobody_of_direct (by rw [ha]; decide)
  refine ⟨s, s1, s11, s12, s2, s21, reach_runFrom hs, h1, h12, h2, h21, h11,
    rtUpdateEdges_converges (reach_runFrom hs) hpos hpos' (fun x hx _ => ?_) h1 h12 h2 h21 h11
      ⟨hright _, hnobody ht⟩ ⟨hright' _, hnobody ht1⟩ ⟨hright' _, hnobody ht⟩ ⟨hright _, hnobody ht2⟩
      ⟨hright _, hnobody ht1⟩⟩
  rw [groupOf_trio hx]
  decide +kernel

/-- The records of the three hosts when host `1` was last heard of at `newest`. -/
def trioRecs (newest tsMs : UInt64) (rttUs : UInt32) : CellHeap RtHost :=
  ⟨[some ⟨.env .lhost, .htLocal, 0, ⟨[⟨1, 10, 0⟩, ⟨2, 10, 0⟩], 8⟩⟩,
    some ⟨.env (.dp 0), .htDirect, newest, ⟨[⟨0, 10, newest⟩, ⟨2, rttUs, tsMs⟩], 8⟩⟩,
    some ⟨.env (.dp 1), .htDirect, 0, ⟨[], 8⟩⟩]⟩

theorem reaches_trio (hlocal : s.localHost = some 0) {newest tsMs : UInt64} {rttUs : UInt32}
    (hrecs : s.recs = trioRecs newest tsMs rttUs) : Reaches s 1 :=
  ⟨0, hlocal, .single ⟨_, by rw [hrecs]; rfl, ⟨1, 10, 0⟩, by simp, rfl, by decide⟩⟩

theorem hostWith_trio (hitems : s.hosts.items = [0, 1, 2]) {newest tsMs : UInt64} {rttUs : UInt32}
    (hrecs : s.recs = trioRecs newest tsMs rttUs) : HostWith lineExt s (lineHost 1).mac 1
      ⟨.env (.dp 0), .htDirect, newest, ⟨[⟨0, 10, newest⟩, ⟨2, rttUs, tsMs⟩], 8⟩⟩ := by
  have hget : s.recs.get 1 = some ⟨.env (.dp 0), .htDirect, newest, ⟨[⟨0, 10, newest⟩, ⟨2, rttUs, tsMs⟩], 8⟩⟩ := by
    rw [hrecs]
    rfl
  exact ⟨by rw [hitems]; decide, mac?_of_get hget (show lineExt (.dp 0) = some (lineHost 1) from rfl), hget⟩

/-- **The order in which two announcements arrive decides** which of them is known in the end, when each has an
    edge whose time stamp has the greater bytes in front: `6` before `512`, and `7` before `256`. -/
theorem rtUpdateEdges_order_matters : ∃ s s1 s12 s2 s21, Reach .insertion lineExt [] s ∧
    s.rtUpdateEdges .insertion lineExt (trioEdges 20 6 512) = .ok (0, s1) ∧
    s1.rtUpdateEdges .insertion lineExt (trioEdges 30 7 256) = .ok (0, s12) ∧
    s.rtUpdateEdges .insertion lineExt (trioEdges 30 7 256) = .ok (0, s2) ∧
    s2.rtUpdateEdges .insertion lineExt (trioEdges 20 6 512) = .ok (0, s21) ∧
    PositiveTs (trioEdges 20 6 512) ∧ PositiveTs (trioEdges 30 7 256) ∧
    newestTs (trioEdges 20 6 512) (lineHost 1).mac ≠ newestTs (trioEdges 30 7 256) (lineHost 1).mac ∧
    Reaches s12 1 ∧ Reaches s21 1 ∧ ¬ LinksAgree lineExt s12 s21 := by
  have h : (do
      let s ← runFrom .insertion lineExt trioOps
      let a ← s.rtUpdateEdges .insertion lineExt (trioEdges 20 6 512)
      let ab ← a.2.rtUpdateEdges .insertion lineExt (trioEdges 30 7 256)
      let b ← s.rtUpdateEdges .insertion lineExt (trioEdges 30 7 256)
      let ba ← b.2.rtUpdateEdges .insertion lineExt (trioEdges 20 6 512)
      pure (decide ([a.1, ab.1, b.1, ba.1] = [0, 0, 0, 0] ∧ ab.2.hosts.items = [0, 1, 2] ∧
        ba.2.hosts.items = [0, 1, 2] ∧ ab.2.localHost = some 0 ∧ ba.2.localHost = some 0 ∧
        ab.2.recs = trioRecs 512 6 20 ∧ ba.2.recs = trioRecs 256 7 30))) = Except.ok true := by
    decide +kernel
  obtain ⟨s, hs, h⟩ := bind_eq_ok.mp h
  obtain ⟨⟨r1, s1⟩, h1, h⟩ := bind_eq_ok.mp h
  obtain ⟨⟨r12, s12⟩, h12, h⟩ := bind_eq_ok.mp h
  obtain ⟨⟨r2, s2⟩, h2, h⟩ := bind_eq_ok.mp h
  obtain ⟨⟨r21, s21⟩, h21, h⟩ := bind_eq_ok.mp h
  simp only [pure_eq_ok, Except.ok.injEq, decide_eq_true_eq, List.cons.injEq, and_true] at h
  obtain ⟨⟨rfl, rfl, rfl, rfl⟩, hitems, hitems', hlocal, hlocal', hrecs, hrecs'⟩ := h
  refine ⟨s, s1, s12, s2, s21, reach_runFrom hs, h1, h12, h2, h21, by decide +kernel, by decide +kernel,
    by decide +kernel, reaches_trio hlocal hrecs, reaches_trio hlocal' hrecs', fun hagree => ?_⟩
  -- the rtt and the time of the first link
  have hperm := (hagree _ _ _ _ _ (hostWith_trio hitems hrecs) (hostWith_trio hitems' hrecs')).map Prod.snd
  simp only [List.map_cons, List.map_nil, linkView] at hperm
  exact absurd hperm (by decide)

end Routing

end P2pVn
