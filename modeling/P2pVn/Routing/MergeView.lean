import P2pVn.Lib.GroupedMerge
import P2pVn.Routing.Merging

/-!
# `Routing.MergeView` — the table phase of `rt_update_edges`, by MAC

Seen by MAC, the loop over the sorted edges is the grouped merge of `Lib.GroupedMerge`: the table is the map
from the MACs of the hosts to their records (`Shows`), a link is what it leads to, its rtt and its time
(`linkView`), and the pieces of state that the loop carries are those of the merge (`MergeSim`).

- **Step lemma.** `EdgeStep.sim`: an iteration that goes on is one `step` of the merge.
- **Run lemma.** `mergeLoop_sim`; `mergeEdges_outcome`: what a phase that returns `0` made of the table.
-/

namespace P2pVn
open CUb GroupedMerge

namespace Routing

variable {env : ExtMem} {q : Qsort} {s s' : Routing} {L : HostId} {m m' : MergeState}

/-! ## A table by MAC -/

/-- What a link says: the MAC that it leads to, its rtt and its time. -/
abbrev LinkView := Option EtherAddr × UInt32 × UInt64

/-- A link as the table shows it. -/
def linkView (env : ExtMem) (s : Routing) (l : RtLink) : LinkView := (s.mac? env l.dst, l.rttUs, l.tsMs)

/-- What the merge reads of an edge of a packet. -/
def edgeStream : Stream EtherAddr PktEdge LinkView where
  src e := (pktIpv4Unpack e.src).mac
  dst e := (pktIpv4Unpack e.dst).mac
  ts e := (ntohll e.tsMs).toNat
  link e := (some (pktIpv4Unpack e.dst).mac, ntohl e.rttUs, ntohll e.tsMs)

/-- `id` is in the table, with MAC `x` and record `r`. -/
structure HostWith (env : ExtMem) (s : Routing) (x : EtherAddr) (id : HostId) (r : RtHost) : Prop where
  mem : id ∈ s.hosts.items
  mac : s.mac? env id = some x
  get : s.recs.get id = some r

/-- The entry says of the record what there is to say; links of one record to one MAC come in any order. -/
structure Describes (env : ExtMem) (s : Routing) (r : RtHost) (a : Entry LinkView) : Prop where
  fixed : a.fixed = decide (r.type = .htLocal)
  newest : a.newest = r.lMaxTsMs.toNat
  links : (r.links.items.map (linkView env s)).Perm a.links

/-- What is known of `x` is `o`. -/
def ShowsAt (env : ExtMem) (s : Routing) (x : EtherAddr) (o : Option (Entry LinkView)) : Prop :=
  match o with
  | none => ∀ id r, ¬ HostWith env s x id r
  | some a => ∃ id r, HostWith env s x id r ∧ Describes env s r a

/-- The map shows the table. -/
def Shows (env : ExtMem) (s : Routing) (tab : EtherAddr → Option (Entry LinkView)) : Prop :=
  ∀ x, ShowsAt env s x (tab x)

/-- A MAC belongs to one host only. -/
theorem TableOk.hostWith_inj (ht : TableOk env s L) {x : EtherAddr} {id id' : HostId} {r r' : RtHost}
    (h : HostWith env s x id r) (h' : HostWith env s x id' r') : id = id' ∧ r = r' := by
  have he : id = id' := ht.strict.inj h.mem h'.mem h.mac h'.mac
  subst he
  exact ⟨rfl, Option.some.inj (h.get.symm.trans h'.get)⟩

/-- A host of the table, by its MAC. -/
theorem TableOk.hostWith (ht : TableOk env s L) {id : HostId} (hid : id ∈ s.hosts.items) :
    ∃ x r, HostWith env s x id r := by
  obtain ⟨x, hx⟩ := ht.live id hid
  obtain ⟨r, hr⟩ := ht.get id hid
  exact ⟨x, r, hid, hx, hr⟩

/-- Every table is shown by some map. -/
theorem exists_shows (env : ExtMem) (s : Routing) : ∃ tab, Shows env s tab := by
  classical
  have hone : ∀ x, ∃ o, ShowsAt env s x o := by
    intro x
    by_cases h : ∃ id r, HostWith env s x id r
    · obtain ⟨id, r, h⟩ := h
      exact ⟨some ⟨decide (r.type = .htLocal), r.lMaxTsMs.toNat, r.links.items.map (linkView env s)⟩,
        id, r, h, rfl, rfl, List.Perm.refl _⟩
    · exact ⟨none, fun id r hat => h ⟨id, r, hat⟩⟩
  exact ⟨fun x => (hone x).choose, fun x => (hone x).choose_spec⟩

/-- A host of the table has an entry that describes it. -/
theorem Shows.entry {tab : EtherAddr → Option (Entry LinkView)} (h : Shows env s tab) (ht : TableOk env s L)
    {x : EtherAddr} {id : HostId} {r : RtHost} (hat : HostWith env s x id r) :
    ∃ a, tab x = some a ∧ Describes env s r a := by
  have hx := h x
  cases ha : tab x with
  | none =>
      rw [ha] at hx
      exact absurd hat (hx id r)
  | some a =>
      rw [ha] at hx
      obtain ⟨id', r', hat', hd⟩ := hx
      obtain ⟨-, rfl⟩ := ht.hostWith_inj hat hat'
      exact ⟨a, rfl, hd⟩

/-- Without an entry there is no host. -/
theorem Shows.absent {tab : EtherAddr → Option (Entry LinkView)} (h : Shows env s tab) {x : EtherAddr}
    (hx : tab x = none) (id : HostId) (r : RtHost) : ¬ HostWith env s x id r := by
  have hat := h x
  rw [hx] at hat
  exact hat id r

/-- And every entry is that of a host. -/
theorem Shows.host {tab : EtherAddr → Option (Entry LinkView)} (h : Shows env s tab) {x : EtherAddr}
    {a : Entry LinkView} (hx : tab x = some a) : ∃ id r, HostWith env s x id r ∧ Describes env s r a := by
  have hat := h x
  rw [hx] at hat
  exact hat

/-- The links of a host say the same as long as no MAC changes. -/
theorem linkViews_congr {R : EtherAddr → EtherAddr → Prop} (ht : TableOk env s L) (hl : LinksOk R env s)
    (hmac : ∀ id x, s.mac? env id = some x → s'.mac? env id = some x) {id : HostId} {r : RtHost}
    (hid : id ∈ s.hosts.items) (hr : s.recs.get id = some r) :
    r.links.items.map (linkView env s') = r.links.items.map (linkView env s) := by
  refine List.map_congr_left fun l hlm => ?_
  obtain ⟨x, (hx : s.mac? env l.dst = some x)⟩ := ht.live l.dst (hl.dst id hid r hr l hlm).1
  simp only [linkView, hx, hmac _ x hx]

/-! ## The three changes -/

section Changes

variable {R : EtherAddr → EtherAddr → Prop} {tab : EtherAddr → Option (Entry LinkView)}

/-- `host_add` of a copied address makes an empty entry. -/
theorem HostAdded.shows {ip : Ipv4Host} {nh : HostId} (ha : HostAdded env s (.heap ip) .htNormal nh s')
    (h : Shows env s tab) (ht : TableOk env s L) (hl : LinksOk R env s) :
    Shows env s' (Function.update tab ip.mac (some .empty)) := by
  intro x
  by_cases hx : x = ip.mac
  · subst hx
    rw [Function.update_self]
    refine ⟨nh, ha.record, ⟨ha.mem_new, ha.mac_heap, ha.get_new⟩, ?_, ?_, ?_⟩
    · rw [ha.fresh.type]
      rfl
    · rw [ha.fresh.lMax]
      rfl
    · rw [ha.fresh.links]
      exact List.Perm.refl _
  · rw [Function.update_of_ne hx]
    -- of the other MACs the table has the hosts that it had
    have hback : ∀ id r, HostWith env s' x id r → HostWith env s x id r := by
      intro id r hat
      rcases ha.mem.mp hat.mem with hid | rfl
      · obtain ⟨r0, hr0⟩ := ht.get id hid
        have hr : r0 = r := Option.some.inj ((ha.get_old hr0).symm.trans hat.get)
        exact ⟨hid, (ha.mac_congr ht.live hid).symm.trans hat.mac, hr ▸ hr0⟩
      · exact absurd (Option.some.inj (ha.mac_heap.symm.trans hat.mac)).symm hx
    cases hta : tab x with
    | none => exact fun id r hat => h.absent hta id r (hback id r hat)
    | some a =>
        obtain ⟨id, r, hat, hd⟩ := h.host hta
        refine ⟨id, r, ⟨ha.mem.mpr (Or.inl hat.mem), ha.mac_old hat.mac, ha.get_old hat.get⟩, hd.fixed, hd.newest, ?_⟩
        rw [linkViews_congr ht hl (fun _ _ => ha.mac_old) hat.mem hat.get]
        exact hd.links

/-- Overwriting the record of `x`, without changing where it leads, changes what is known of `x` only. -/
theorem Shows.store (h : Shows env s tab) {x : EtherAddr} {id : HostId} {r r' : RtHost}
    (hat : HostWith env s x id r) (hhost : r'.host = r.host) {a : Entry LinkView}
    (hd : Describes env s r' a) : Shows env (s.store id r') (Function.update tab x (some a)) := by
  have hmac : ∀ j, (s.store id r').mac? env j = s.mac? env j := mac?_store_of_eq hat.get (by rw [hhost])
  have hview : linkView env (s.store id r') = linkView env s := by
    funext l
    simp only [linkView, hmac]
  intro y
  by_cases hy : y = x
  · subst hy
    rw [Function.update_self]
    refine ⟨id, r', ⟨hat.mem, (hmac id).trans hat.mac, ?_⟩, hd.fixed, hd.newest, ?_⟩
    · rw [get_store hat.get, if_pos rfl]
    · rw [hview]
      exact hd.links
  · rw [Function.update_of_ne hy]
    -- nobody else's record is touched
    have hother : ∀ j rj, HostWith env (s.store id r') y j rj ↔ HostWith env s y j rj := by
      intro j rj
      have hne : s.mac? env j = some y → j ≠ id := by
        rintro hj rfl
        exact hy (Option.some.inj (hj.symm.trans hat.mac))
      constructor
      · intro hj
        have hjy := (hmac j).symm.trans hj.mac
        have hget := hj.get
        rw [get_store hat.get, if_neg (hne hjy)] at hget
        exact ⟨hj.mem, hjy, hget⟩
      · intro hj
        refine ⟨hj.mem, (hmac j).trans hj.mac, ?_⟩
        rw [get_store hat.get, if_neg (hne hj.mac)]
        exact hj.get
    cases hty : tab y with
    | none => exact fun j rj hj => h.absent hty j rj ((hother j rj).mp hj)
    | some b =>
        obtain ⟨j, rj, hj, hdj⟩ := h.host hty
        refine ⟨j, rj, (hother j rj).mpr hj, hdj.fixed, hdj.newest, ?_⟩
        rw [hview]
        exact hdj.links

theorem Shows.same (h : Shows env s tab) (hs : Same s s') : Shows env s' tab := by
  have hview : linkView env s' = linkView env s := by
    funext l
    simp only [linkView, hs.mac?]
  have hat : ∀ x id r, HostWith env s' x id r ↔ HostWith env s x id r := by
    intro x id r
    constructor
    · rintro ⟨hmem, hmac, hget⟩
      exact ⟨hs.hosts ▸ hmem, hs.mac? id ▸ hmac, hs.get id ▸ hget⟩
    · rintro ⟨hmem, hmac, hget⟩
      exact ⟨hs.hosts ▸ hmem, (hs.mac? id).trans hmac, (hs.get id).trans hget⟩
  intro x
  cases hx : tab x with
  | none => exact fun id r h' => h.absent hx id r ((hat x id r).mp h')
  | some a =>
      obtain ⟨id, r, h', hd⟩ := h.host hx
      refine ⟨id, r, (hat x id r).mpr h', hd.fixed, hd.newest, ?_⟩
      rw [hview]
      exact hd.links

/-- `link_add` appends to the entry of its source. -/
theorem LinkAdded.shows {src dst : HostId} {rttUs : UInt32} {tsMs : UInt64}
    (ha : LinkAdded env s src dst rttUs tsMs s') (h : Shows env s tab) (ht : TableOk env s L) {x y : EtherAddr}
    (hmem : src ∈ s.hosts.items) (hsrc : s.mac? env src = some x) (hdst : s.mac? env dst = some y) :
    Shows env s' (Function.update tab x
      ((tab x).map fun a => ⟨a.fixed, max a.newest tsMs.toNat, a.links ++ [(some y, rttUs, tsMs)]⟩)) := by
  have hat : HostWith env s x src ha.before := ⟨hmem, hsrc, ha.get⟩
  obtain ⟨a, hta, hd⟩ := h.entry ht hat
  rw [hta]
  refine Shows.same (h.store hat ha.host ⟨?_, ?_, ?_⟩) ha.same
  · rw [ha.type]
    exact hd.fixed
  · -- the newer of the two time stamps
    show max a.newest tsMs.toNat = ha.after.lMaxTsMs.toNat
    rw [ha.lMax, hd.newest]
    split
    · rename_i hlt
      exact Nat.max_eq_right (Nat.le_of_lt (UInt64.lt_iff_toNat_lt.mp hlt))
    · rename_i hge
      exact Nat.max_eq_left (Nat.le_of_not_lt fun hlt => hge (UInt64.lt_iff_toNat_lt.mpr hlt))
  · have hperm := ha.perm.map (linkView env s)
    rw [List.map_append, List.map_singleton] at hperm
    refine hperm.trans ?_
    rw [linkView, hdst]
    exact hd.links.append_right _

end Changes

/-! ## The loop -/

/-- The loop's state and the merge's. -/
structure MergeSim (env : ExtMem) (m : MergeState) (st : State EtherAddr LinkView) : Prop where
  shows : Shows env m.rd st.tab
  /-- No source was met yet, or the current one is the merge's. -/
  cur : (m.curHostSrc = none ∧ m.contToNewSrc = false ∧ st.cur = none) ∨
    (m.curHostSrc.isSome ∧ st.cur = some m.curIpSrc ∧ st.skip = m.contToNewSrc)

/-- An edge of another source than the one before starts a new group. -/
theorem MergeSim.new {st : State EtherAddr LinkView} (h : MergeSim env m st) {x : EtherAddr}
    (hnew : m.curHostSrc = none ∨ x ≠ m.curIpSrc) : st.cur ≠ some x := by
  rcases h.cur with ⟨-, -, hc⟩ | ⟨hsome, hc, -⟩
  · rw [hc]
    exact nofun
  · rcases hnew with hnone | hne
    · rw [hnone] at hsome
      cases hsome
    · rw [hc]
      intro he
      exact hne (Option.some.inj he).symm

section Step

variable {R : EtherAddr → EtherAddr → Prop} {st : State EtherAddr LinkView} {e : PktEdge}

/-- The source that is added to is the one the merge adds to, in the same table. -/
theorem SourceReady.sim {cur : HostId} (h : SourceReady env m (pktIpv4Unpack e.src) (ntohll e.tsMs) cur s')
    (hm : MergeOk env m L) (hl : LinksOk R env m.rd) (hs : MergeSim env m st)
    (hne : edgeStream.src e ≠ edgeStream.dst e) :
    ∃ tab1, Shows env s' tab1 ∧ step edgeStream st e = ⟨addLink edgeStream tab1 e, some (edgeStream.src e), false⟩ := by
  cases h with
  | current hcur hsrc hcont =>
      rcases hs.cur with ⟨hnone, -, -⟩ | ⟨-, hc, hskip⟩
      · rw [hnone] at hcur
        cases hcur
      · have hc' : st.cur = some (edgeStream.src e) := hc.trans (congrArg some hsrc.symm)
        exact ⟨st.tab, hs.shows, step_current hne hc' (hskip.trans hcont)⟩
  | created hnew ha _ =>
      -- a source that no lookup finds is absent from the abstract table
      have hnone : st.tab (edgeStream.src e) = none := by
        cases hta : st.tab (edgeStream.src e) with
        | none => rfl
        | some a =>
            obtain ⟨id, r, hat, -⟩ := hs.shows.host hta
            have hip := Option.some.inj ha.addr
            have habs := hm.table.findHost_none ha.absent id hat.mem
            rw [← hip] at habs
            exact absurd hat.mac habs
      exact ⟨_, ha.shows hs.shows hm.table hl, step_created hne (hs.new hnew) hnone⟩
  | @wiped r hnew hmem hmac hget htype hts =>
      have hat : HostWith env m.rd (edgeStream.src e) cur r := ⟨hmem, hmac, hget⟩
      obtain ⟨a, hta, hd⟩ := hs.shows.entry hm.table hat
      refine ⟨_, hs.shows.store hat (by rfl)
        (show Describes env m.rd { r with links := r.links.clear } { a with links := [] } from
          ⟨hd.fixed, hd.newest, List.Perm.refl _⟩), ?_⟩
      have hcond : a.fixed = false ∧ a.newest < edgeStream.ts e := by
        refine ⟨?_, ?_⟩
        · rw [hd.fixed]
          exact decide_eq_false htype
        · rw [hd.newest]
          exact UInt64.lt_iff_toNat_lt.mp hts
      exact step_wiped hne (hs.new hnew) hta hcond

/-- So is the destination. -/
theorem DstReady.shows {dst : Ipv4Host} {id : HostId} {tab : EtherAddr → Option (Entry LinkView)}
    (h : DstReady env s dst id s') (hs : Shows env s tab) (ht : TableOk env s L) (hl : LinksOk R env s) :
    Shows env s' (if (tab dst.mac).isNone then Function.update tab dst.mac (some .empty) else tab) := by
  cases h with
  | known hmem hmac =>
      obtain ⟨r, hr⟩ := ht.get id hmem
      obtain ⟨a, hta, -⟩ := hs.entry ht ⟨hmem, hmac, hr⟩
      rw [hta]
      exact hs
  | created ha _ =>
      have hnone : tab dst.mac = none := by
        cases hta : tab dst.mac with
        | none => rfl
        | some a =>
            obtain ⟨j, r, hat, -⟩ := hs.host hta
            have hip := Option.some.inj ha.addr
            have habs := ht.findHost_none ha.absent j hat.mem
            rw [← hip] at habs
            exact absurd hat.mac habs
      rw [hnone]
      exact ha.shows hs ht hl

/-- **Step lemma.** An iteration that goes on is a step of the merge. -/
theorem EdgeStep.sim {ret : Int} (h : EdgeStep q env m e ret m') (hret : ret = 0) (hm : MergeOk env m L)
    (hl : LinksOk R env m.rd) (hs : MergeSim env m st) : MergeSim env m' (step edgeStream st e) := by
  cases h with
  | doubledBack h =>
      rw [step_doubledBack (show edgeStream.src e = edgeStream.dst e from h)]
      exact hs
  | skipped hcont hsrc =>
      rcases hs.cur with ⟨-, hfalse, -⟩ | ⟨-, hc, hskip⟩
      · rw [hcont] at hfalse
        cases hfalse
      · -- the group is being skipped in the abstract merge, too
        have hc' : st.cur = some (edgeStream.src e) := hc.trans (congrArg some hsrc.symm)
        rw [step_skipped hc' (hskip.trans hcont)]
        exact hs
  | srcFailed => exact absurd hret (by decide)
  | rejected hne hnew hmem hmac hget hold =>
      obtain ⟨a, hta, hd⟩ := hs.shows.entry hm.table ⟨hmem, hmac, hget⟩
      -- the type or the timestamp has refused the edge, which `fixed` and `newest` show
      have hcond : ¬ (a.fixed = false ∧ a.newest < edgeStream.ts e) := by
        rintro ⟨hfix, hlt⟩
        rw [hd.fixed] at hfix
        rw [hd.newest] at hlt
        rcases hold with hloc | hge
        · exact of_decide_eq_false hfix hloc
        · exact hge (UInt64.lt_iff_toNat_lt.mpr hlt)
      have hta' : st.tab (edgeStream.src e) = some a := hta
      have hne' : edgeStream.src e ≠ edgeStream.dst e := hne
      rw [step_rejected hne' (hs.new hnew) hta' hcond]
      exact ⟨hs.shows, Or.inr ⟨rfl, rfl, rfl⟩⟩
  | @linked cur s1 dst s2 r2 s3 hne hsrc hdst hlink =>
      obtain ⟨tab1, hshows1, hstep⟩ := hsrc.sim hm hl hs hne
      obtain ⟨ht1, -, hmem1, -, hmac1⟩ := hsrc.ok hm
      obtain ⟨ht2, hk2, hmem2, hmac2⟩ := hdst.ok ht1
      have hshows2 := hdst.shows hshows1 ht1 (hsrc.linksOk hm hl)
      obtain ⟨-, ⟨rfl, -⟩ | ⟨-, ⟨ha⟩⟩⟩ := linkAdd_cases hlink
      · exact absurd hret (by decide)
      · rw [hstep]
        exact ⟨ha.shows hshows2 ht2 (hdst.frame.2.hosts _ hmem1) (hk2.mac hmac1) hmac2, Or.inr ⟨rfl, rfl, rfl⟩⟩

/-- **Run lemma.** A loop that returns `0` is a run of the merge. -/
theorem mergeLoop_sim : ∀ (es : List PktEdge) {m m' : MergeState} {st : State EtherAddr LinkView},
    mergeLoop q env es m = .ok (0, m') → MergeOk env m L → LinksOk (fun a b => (memcmp a b).isLE) env m.rd →
    MergeSim env m st → MergeSim env m' (es.foldl (step edgeStream) st) := by
  intro es
  induction es with
  | nil =>
      intro m m' st h _ _ hs
      cases h
      exact hs
  | cons e es ih =>
      intro m m' st h hm hl hs
      obtain ⟨⟨r1, m1⟩, h1, h⟩ := bind_eq_ok.mp h
      by_cases hr : r1 = 0
      · simp only [hr, ne_eq, not_true_eq_false, if_false] at h
        have hstep := mergeEdge_step h1
        obtain ⟨ht1, -, hc1⟩ := hstep.tableOk hm
        exact ih h ⟨ht1, hc1 hr⟩ (hstep.linksOk hm hl) (hstep.sim hr hm hl hs)
      · simp only [ne_eq, hr, not_false_eq_true, if_true] at h
        cases h
        exact absurd rfl hr

end Step

/-! ## Records that are not added to -/

/-- A record of the table as it was is still that record, or is known to be newer; the record of the source
    that is being merged is. -/
def Bumped (s : Routing) (m : MergeState) : Prop :=
  ∀ id r, s.recs.get id = some r → ∃ r', m.rd.recs.get id = some r' ∧ (r' = r ∨ r.lMaxTsMs < r'.lMaxTsMs) ∧
    (m.curHostSrc = some id → m.contToNewSrc = false → r.lMaxTsMs < r'.lMaxTsMs)

/-- `l_max_ts_ms` never goes down, and is at least the time stamp that was added. -/
theorem LinkAdded.lMax_le {src dst : HostId} {rttUs : UInt32} {tsMs : UInt64}
    (ha : LinkAdded env s src dst rttUs tsMs s') :
    ha.before.lMaxTsMs ≤ ha.after.lMaxTsMs ∧ tsMs ≤ ha.after.lMaxTsMs := by
  rw [ha.lMax]
  split
  · rename_i hlt
    exact ⟨UInt64.le_of_lt hlt, UInt64.le_refl _⟩
  · rename_i hge
    exact ⟨UInt64.le_refl _, UInt64.not_lt.mp hge⟩

/-- No record is changed where the destination is made ready. -/
theorem DstReady.get {dst : Ipv4Host} {id : HostId} (h : DstReady env s dst id s') {j : HostId} {r : RtHost}
    (hr : s.recs.get j = some r) : s'.recs.get j = some r := by
  cases h with
  | known => exact hr
  | created ha _ => exact ha.get_old hr

/-- **Step lemma.** -/
theorem EdgeStep.bumped {e : PktEdge} {ret : Int} (h : EdgeStep q env m e ret m') (hret : ret = 0)
    (hb : Bumped s m) : Bumped s m' := by
  intro id r hr
  obtain ⟨r1, hr1, hle, hcur⟩ := hb id r hr
  cases h with
  | doubledBack => exact ⟨r1, hr1, hle, hcur⟩
  | skipped => exact ⟨r1, hr1, hle, hcur⟩
  | srcFailed => exact absurd hret (by decide)
  | rejected => exact ⟨r1, hr1, hle, fun _ => nofun⟩
  | @linked cur s1 dst s2 r2 s3 hne hsrc hdst hlink =>
      obtain ⟨-, ⟨rfl, -⟩ | ⟨-, ⟨ha⟩⟩⟩ := linkAdd_cases hlink
      · exact absurd hret (by decide)
      -- the link is added to a record that is newer by then, or becomes so
      by_cases hid : id = cur
      · subst hid
        refine ⟨ha.after, by rw [ha.getRec, if_pos rfl], ?_⟩
        suffices hlt : r.lMaxTsMs < ha.after.lMaxTsMs from ⟨Or.inr hlt, fun _ _ => hlt⟩
        obtain ⟨hbefore, hts⟩ := ha.lMax_le
        cases hsrc with
        | current hc _ hcont =>
            have he : r1 = ha.before := Option.some.inj ((hdst.get hr1).symm.trans ha.get)
            exact UInt64.lt_of_lt_of_le (hcur hc hcont) (he ▸ hbefore)
        | created _ hadd _ => exact absurd rfl (hadd.ne_new hr1)
        | @wiped r0 _ _ _ hget _ hold =>
            rw [hget] at hr1
            cases hr1
            refine UInt64.lt_of_lt_of_le ?_ hts
            rcases hle with rfl | hlt
            · exact hold
            · exact UInt64.lt_trans hlt hold
      · have hr2 : s1.recs.get id = some r1 := by
          cases hsrc with
          | current => exact hr1
          | created _ hadd _ => exact hadd.get_old hr1
          | wiped _ _ _ hget _ _ => rw [get_store hget, if_neg hid, hr1]
        refine ⟨r1, by rw [ha.getRec, if_neg hid, hdst.get hr2], hle, fun hc _ => ?_⟩
        exact absurd (Option.some.inj hc).symm hid

/-- **Run lemma.** A record of the table as it was is still that record, or is known to be newer. -/
theorem mergeEdges_bumped {edges : List PktEdge} (h : s.mergeEdges q env edges = .ok (0, s')) {id : HostId}
    {r : RtHost} (hr : s.recs.get id = some r) :
    ∃ r', s'.recs.get id = some r' ∧ (r' = r ∨ r.lMaxTsMs < r'.lMaxTsMs) := by
  obtain ⟨m', hm, rfl⟩ := mergeEdges_loop h
  have hb : (0 : Int) = 0 → Bumped s m' :=
    mergeLoop_rule (P := Bumped s) (Q := fun ret m1 => ret = 0 → Bumped s m1) (fun _ hb _ => hb) _
      (fun m1 e _ ret m2 hb hstep => ⟨fun h0 => hstep.bumped h0 hb, fun h0 h1 => absurd h1 h0⟩) hm
      fun id r hr => ⟨r, hr, Or.inl rfl, nofun⟩
  obtain ⟨r', hr', hle, -⟩ := hb rfl id r hr
  exact ⟨r', hr', hle⟩

/-! ## The phase -/

instance : Std.TransCmp pktEdgesCmpSrc :=
  haveI : Std.TransCmp fun e1 e2 : PktEdge => memcmp e1.src.mac e2.src.mac :=
    { eq_swap := Std.OrientedCmp.eq_swap, isLE_trans := Std.TransCmp.isLE_trans }
  haveI : Std.TransCmp fun e1 e2 : PktEdge => compare e2.tsMs e1.tsMs :=
    { eq_swap := Std.OrientedCmp.eq_swap, isLE_trans := fun h1 h2 => Std.TransCmp.isLE_trans h2 h1 }
  inferInstanceAs (Std.TransCmp (compareLex (fun e1 e2 : PktEdge => memcmp e1.src.mac e2.src.mac)
    fun e1 e2 => compare e2.tsMs e1.tsMs))

/-- Of two edges in order, the sources are in order; if they are equal, the greater time stamp (as it lies in
    the packet) comes first. -/
theorem pktEdgesCmpSrc_isLE {e1 e2 : PktEdge} (h : (pktEdgesCmpSrc e1 e2).isLE) :
    (e1.src.mac = e2.src.mac ∧ e2.tsMs ≤ e1.tsMs) ∨ MacLt e1.src.mac e2.src.mac := by
  unfold pktEdgesCmpSrc at h
  cases hc : memcmp e1.src.mac e2.src.mac with
  | lt => exact Or.inr hc
  | gt =>
      rw [hc] at h
      cases h
  | eq =>
      rw [hc, Ordering.eq_then, Std.isLE_compare] at h
      exact Or.inl ⟨memcmp_eq.mp hc, h⟩

/-- What the comparator makes of the batch: sources in the order of their MACs, and for one source the greatest time
    stamp in the packet's bytes first. -/
theorem sorted_edges (q : Qsort) (edges : List PktEdge) : (q.sort pktEdgesCmpSrc edges).Pairwise fun e1 e2 =>
    (e1.src.mac = e2.src.mac ∧ e2.tsMs ≤ e1.tsMs) ∨ MacLt e1.src.mac e2.src.mac :=
  (q.sorted pktEdgesCmpSrc edges).imp pktEdgesCmpSrc_isLE

/-- **What a phase that returns `0` made of the table**, by MAC: the outcome of the grouped merge of the sorted
    edges. -/
theorem mergeEdges_outcome {edges : List PktEdge} (h : s.mergeEdges q env edges = .ok (0, s'))
    (ht : TableOk env s L) (hl : LinksOk (fun a b => (memcmp a b).isLE) env s)
    {tab0 : EtherAddr → Option (Entry LinkView)} (h0 : Shows env s tab0) :
    ∃ acc tab, Outcome edgeStream MacLt tab0 (q.sort pktEdgesCmpSrc edges) acc tab ∧ Shows env s' tab := by
  obtain ⟨m', hm, rfl⟩ := mergeEdges_loop h
  have hsim := mergeLoop_sim _ hm (.start ht _) hl
    (show MergeSim env _ ⟨tab0, none, false⟩ from ⟨h0, Or.inl ⟨rfl, rfl, rfl⟩⟩)
  have hsorted : (q.sort pktEdgesCmpSrc edges).Pairwise fun e1 e2 =>
      edgeStream.src e1 = edgeStream.src e2 ∨ MacLt (edgeStream.src e1) (edgeStream.src e2) :=
    (sorted_edges q edges).imp fun h => h.imp_left And.left
  have hasymm : ∀ a b, MacLt a b → ¬ MacLt b a := fun _ _ h => h.asymm
  obtain ⟨acc, hout, -⟩ := merge_outcome hasymm tab0 _ hsorted
  exact ⟨acc, _, hout, hsim.shows⟩

end Routing

end P2pVn
