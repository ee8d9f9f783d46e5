import P2pVn.Routing.Adding

/-!
# `Routing.Merging` — the table phase of `rt_update_edges`

The loop over the sorted edges, edge by edge. `EdgeStep` lists what one iteration can do; what it does to the
table is split into the record it adds to (`SourceReady`) and the record it adds a link to (`DstReady`).

- **Step and run.** `EdgeStep.tableOk` / `mergeLoop_tableOk`: the table stays sound, and nobody is promoted,
  demoted or removed. `EdgeStep.linksOk` / `mergeLoop_linksOk`: so do the links, up to parallel ones.
- **Progress.** `mergeEdges_ok`: on a sound table, without allocation failures, the phase returns `0`.
-/

namespace P2pVn
open CUb

namespace Routing

variable {env : ExtMem} {q : Qsort} {s s' : Routing} {L : HostId} {m m' : MergeState}

/-! ## What one iteration can do -/

/-- The record that the links of source `src` go to, and the table at that point. -/
inductive SourceReady (env : ExtMem) (m : MergeState) (src : Ipv4Host) (tsMs : UInt64) :
    HostId → Routing → Prop where
  | current {cur} (hcur : m.curHostSrc = some cur) (hsrc : src.mac = m.curIpSrc)
      (hcont : m.contToNewSrc = false) : SourceReady env m src tsMs cur m.rd
  | created {nh s1} (hnew : m.curHostSrc = none ∨ src.mac ≠ m.curIpSrc)
      (ha : HostAdded env m.rd (.heap src) .htNormal nh s1) (hf : Frame m.rd s1) :
      SourceReady env m src tsMs nh s1
  | wiped {id h} (hnew : m.curHostSrc = none ∨ src.mac ≠ m.curIpSrc) (hmem : id ∈ m.rd.hosts.items)
      (hmac : m.rd.mac? env id = some src.mac) (hget : m.rd.recs.get id = some h)
      (htype : h.type ≠ .htLocal) (hts : h.lMaxTsMs < tsMs) :
      SourceReady env m src tsMs id (m.rd.store id { h with links := h.links.clear })

/-- The record of the destination `dst`, and the table at that point. -/
inductive DstReady (env : ExtMem) (s : Routing) (dst : Ipv4Host) : HostId → Routing → Prop where
  | known {id} (hmem : id ∈ s.hosts.items) (hmac : s.mac? env id = some dst.mac) : DstReady env s dst id s
  | created {nh s1} (ha : HostAdded env s (.heap dst) .htNormal nh s1) (hf : Frame s s1) :
      DstReady env s dst nh s1

/-- Every way in which the iteration for edge `e` can return. -/
inductive EdgeStep (q : Qsort) (env : ExtMem) (m : MergeState) (e : PktEdge) : Int → MergeState → Prop where
  | doubledBack (h : (pktIpv4Unpack e.src).mac = (pktIpv4Unpack e.dst).mac) : EdgeStep q env m e 0 m
  | skipped (hcont : m.contToNewSrc = true) (hsrc : (pktIpv4Unpack e.src).mac = m.curIpSrc) :
      EdgeStep q env m e 0 m
  | srcFailed {rd} (hf : Frame m.rd rd) (hs : Same m.rd rd) :
      EdgeStep q env m e (-1) ⟨rd, (pktIpv4Unpack e.src).mac, m.curHostSrc, false⟩
  | rejected {id h} (hne : (pktIpv4Unpack e.src).mac ≠ (pktIpv4Unpack e.dst).mac)
      (hnew : m.curHostSrc = none ∨ (pktIpv4Unpack e.src).mac ≠ m.curIpSrc) (hmem : id ∈ m.rd.hosts.items)
      (hmac : m.rd.mac? env id = some (pktIpv4Unpack e.src).mac)
      (hget : m.rd.recs.get id = some h) (hold : h.type = .htLocal ∨ ¬ h.lMaxTsMs < ntohll e.tsMs) :
      EdgeStep q env m e 0 ⟨m.rd, (pktIpv4Unpack e.src).mac, some id, true⟩
  | linked {cur s1 dst s2 ret s3} (hne : (pktIpv4Unpack e.src).mac ≠ (pktIpv4Unpack e.dst).mac)
      (hsrc : SourceReady env m (pktIpv4Unpack e.src) (ntohll e.tsMs) cur s1)
      (hdst : DstReady env s1 (pktIpv4Unpack e.dst) dst s2)
      (hlink : s2.linkAdd q env cur dst (ntohl e.rttUs) (ntohll e.tsMs) = .ok (ret, s3)) :
      EdgeStep q env m e (if ret ≠ 0 then -2 else 0) ⟨s3, (pktIpv4Unpack e.src).mac, some cur, false⟩

/-- What one edge did once its source is there: the destination was found or made, and a link to it added. -/
theorem mergeLink_cases {cur : HostId} {dst : Ipv4Host} {rttUs : UInt32} {tsMs : UInt64} {ret : Int}
    (h : mergeLink q env m cur dst rttUs tsMs = .ok (ret, m')) :
    ∃ id s1 r s2, DstReady env m.rd dst id s1 ∧ s1.linkAdd q env cur id rttUs tsMs = .ok (r, s2) ∧
      ret = (if r ≠ 0 then -2 else 0) ∧ m' = { m with rd := s2 } := by
  unfold mergeLink at h
  obtain ⟨fd, hfd, h⟩ := bind_eq_ok.mp h
  cases fd with
  | none =>
      obtain ⟨⟨r1, nh, s1⟩, hadd, h⟩ := bind_eq_ok.mp h
      obtain ⟨hf, ⟨hr, -⟩ | ⟨rfl, ⟨ha⟩⟩⟩ := hostAdd_cases hadd
      · simp only [ne_eq, hr, not_false_eq_true, if_true] at h
        cases h
      · simp only [ne_eq, not_true_eq_false, if_false] at h
        obtain ⟨⟨r2, s2⟩, hlink, h⟩ := bind_eq_ok.mp h
        cases h
        exact ⟨nh, s1, r2, s2, .created ha hf, hlink, rfl, rfl⟩
  | some i =>
      obtain ⟨id, hid, h⟩ := bind_eq_ok.mp h
      obtain ⟨⟨r2, s2⟩, hlink, h⟩ := bind_eq_ok.mp h
      cases h
      obtain ⟨id', hid', hmac⟩ := findHost_some hfd
      rw [itemAt_eq_ok.mp hid, Option.some.injEq] at hid'
      subst hid'
      exact ⟨id, m.rd, r2, s2, .known (List.mem_of_getElem? (itemAt_eq_ok.mp hid)) hmac, hlink, rfl, rfl⟩

/-- What the lookup of a new source can return. -/
theorem newSource_cases {src : Ipv4Host} {tsMs : UInt64} {ret : Int} {go : Option HostId}
    (hcont : m.contToNewSrc = false) (hnew : m.curHostSrc = none ∨ src.mac ≠ m.curIpSrc)
    (h : newSource q env m src tsMs = .ok (ret, go, m')) :
    (ret = -1 ∧ ∃ rd, Frame m.rd rd ∧ Same m.rd rd ∧ m' = ⟨rd, src.mac, m.curHostSrc, false⟩) ∨
    (ret = 0 ∧ go = none ∧ ∃ id r, id ∈ m.rd.hosts.items ∧ m.rd.mac? env id = some src.mac ∧ m.rd.recs.get id = some r ∧
      (r.type = .htLocal ∨ ¬ r.lMaxTsMs < tsMs) ∧ m' = ⟨m.rd, src.mac, some id, true⟩) ∨
    (ret = 0 ∧ ∃ cur s1, go = some cur ∧ SourceReady env m src tsMs cur s1 ∧
      m' = ⟨s1, src.mac, some cur, false⟩) := by
  obtain ⟨rd0, cur0, host0, cont0⟩ := m
  simp only at hcont hnew
  subst hcont
  unfold newSource at h
  obtain ⟨fs, hfs, h⟩ := bind_eq_ok.mp h
  cases fs with
  | none =>
      obtain ⟨⟨r1, nh, s1⟩, hadd, h⟩ := bind_eq_ok.mp h
      obtain ⟨hf, ⟨hr, hs⟩ | ⟨rfl, ⟨ha⟩⟩⟩ := hostAdd_cases hadd
      · simp only [ne_eq, hr, not_false_eq_true, if_true] at h
        cases h
        exact Or.inl ⟨rfl, s1, hf, hs, rfl⟩
      · simp only [ne_eq, not_true_eq_false, if_false] at h
        cases h
        exact Or.inr (Or.inr ⟨rfl, nh, s1, rfl, .created hnew ha hf, rfl⟩)
  | some i =>
      obtain ⟨id, hid, h⟩ := bind_eq_ok.mp h
      obtain ⟨r, hr, h⟩ := bind_eq_ok.mp h
      obtain ⟨id', hid', hmac⟩ := findHost_some hfs
      rw [itemAt_eq_ok.mp hid, Option.some.injEq] at hid'
      subst hid'
      have hmem := List.mem_of_getElem? (itemAt_eq_ok.mp hid)
      -- a known source is emptied if it is not local and the edge is newer, and skipped otherwise
      split at h
      · rename_i hc
        cases h
        exact Or.inr (Or.inr ⟨rfl, id, _, rfl,
          .wiped hnew hmem hmac (host_eq_ok.mp hr) hc.1 hc.2, rfl⟩)
      · rename_i hc
        cases h
        refine Or.inr (Or.inl ⟨rfl, rfl, id, r, hmem, hmac, host_eq_ok.mp hr, ?_, rfl⟩)
        by_cases htype : r.type = .htLocal
        · exact Or.inl htype
        · exact Or.inr fun hlt => hc ⟨htype, hlt⟩

/-- A new source does not depend on whether the previous one was being skipped. -/
theorem SourceReady.of_new {src : Ipv4Host} {tsMs : UInt64} {cur : HostId}
    (h : SourceReady env { m with contToNewSrc := false } src tsMs cur s')
    (hnew : m.curHostSrc = none ∨ src.mac ≠ m.curIpSrc) : SourceReady env m src tsMs cur s' := by
  cases h with
  | current hcur hsame _ =>
      rcases hnew with hnone | hdiff
      · rw [hnone] at hcur; cases hcur
      · exact absurd hsame hdiff
  | created hn ha hf => exact .created hn ha hf
  | wiped hn hmem hmac hget htype hts => exact .wiped hn hmem hmac hget htype hts

/-- Inversion of the loop's body: one step as described. -/
theorem mergeEdge_step {e : PktEdge} {ret : Int} (h : mergeEdge q env m e = .ok (ret, m')) :
    EdgeStep q env m e ret m' := by
  unfold mergeEdge at h
  simp only at h
  split at h
  · rename_i hself
    cases h
    exact .doubledBack hself
  rename_i hne
  split at h
  · rename_i hskip
    cases h
    exact .skipped hskip.1 hskip.2
  rename_i hskip
  by_cases hnew : m.curHostSrc.isNone = true ∨ (pktIpv4Unpack e.src).mac ≠ m.curIpSrc
  · rw [if_pos hnew] at h
    obtain ⟨⟨r1, go, m1⟩, hready, h⟩ := bind_eq_ok.mp h
    rcases newSource_cases rfl (by simpa using hnew) hready with
      ⟨rfl, rd, hf, hs, rfl⟩ | ⟨rfl, rfl, id, r, hmem, hmac, hget, hold, rfl⟩ |
      ⟨rfl, cur, s1, rfl, hsrc, rfl⟩
    · cases h
      exact .srcFailed hf hs
    · cases h
      exact .rejected hne (by simpa using hnew) hmem hmac hget hold
    · simp only [ne_eq, not_true_eq_false, if_false] at h
      obtain ⟨id, s1', r, s2, hdst, hlink, rfl, rfl⟩ := mergeLink_cases h
      exact .linked hne (hsrc.of_new (by simpa using hnew)) hdst hlink
  · rw [if_neg hnew] at h
    simp only [not_or, Bool.not_eq_true, Option.isNone_eq_false_iff, Option.isSome_iff_exists,
      Decidable.not_not] at hnew
    obtain ⟨⟨cur, hcur⟩, hsame⟩ := hnew
    simp only [pure_eq_ok, ok_bind, ne_eq, not_true_eq_false, if_false, hcur] at h
    obtain ⟨id, s1', r, s2, hdst, hlink, rfl, rfl⟩ := mergeLink_cases h
    -- an edge of a group that is being skipped was dealt with above
    have hcont : m.contToNewSrc = false := by
      cases hc : m.contToNewSrc with
      | false => rfl
      | true => exact absurd ⟨hc, hsame⟩ hskip
    rw [← hsame]
    exact .linked hne (.current hcur hsame hcont) hdst hlink

/-! ## What an iteration leaves alone -/

/-- Making ready the source leaves the matrices and the exported edges alone, and drops nobody. -/
theorem SourceReady.frame {src : Ipv4Host} {tsMs : UInt64} {cur : HostId}
    (h : SourceReady env m src tsMs cur s') : Frame m.rd s' ∧ Grows m.rd s' := by
  cases h with
  | current _ _ _ => exact ⟨Frame.refl _, Grows.refl _⟩
  | created _ ha hf => exact ⟨hf, ha.grows⟩
  | wiped _ _ _ hget _ _ => exact ⟨frame_store _ _ _, grows_store hget _⟩

/-- So does making ready the destination. -/
theorem DstReady.frame {dst : Ipv4Host} {id : HostId} (h : DstReady env s dst id s') :
    Frame s s' ∧ Grows s s' := by
  cases h with
  | known _ _ => exact ⟨Frame.refl _, Grows.refl _⟩
  | created ha hf => exact ⟨hf, ha.grows⟩

/-- An iteration changes hosts and links only, and removes nothing. -/
theorem EdgeStep.frame {e : PktEdge} {ret : Int} (h : EdgeStep q env m e ret m') :
    Frame m.rd m'.rd ∧ Grows m.rd m'.rd := by
  cases h with
  | doubledBack _ => exact ⟨Frame.refl _, Grows.refl _⟩
  | skipped _ _ => exact ⟨Frame.refl _, Grows.refl _⟩
  | srcFailed hf hs => exact ⟨hf, hs.grows⟩
  | rejected => exact ⟨Frame.refl _, Grows.refl _⟩
  | linked _ hsrc hdst hlink =>
      obtain ⟨hf1, hg1⟩ := hsrc.frame
      obtain ⟨hf2, hg2⟩ := hdst.frame
      obtain ⟨hf3, hg3⟩ := linkAdd_frame hlink
      exact ⟨hf1.trans (hf2.trans hf3), hg1.trans (hg2.trans hg3)⟩

/-- **Loop rule.** What an iteration that goes on preserves, and what every exit then has. -/
theorem mergeLoop_rule {P : MergeState → Prop} {Q : Int → MergeState → Prop} (hdone : ∀ m, P m → Q 0 m) :
    ∀ (es : List PktEdge) {m m' : MergeState} {ret : Int},
      (∀ m, ∀ e ∈ es, ∀ ret m', P m → EdgeStep q env m e ret m' →
        (ret = 0 → P m') ∧ (ret ≠ 0 → Q ret m')) →
      mergeLoop q env es m = .ok (ret, m') → P m → Q ret m' := by
  intro es
  induction es with
  | nil =>
      intro m m' ret _ h hm
      cases h
      exact hdone m hm
  | cons e es ih =>
      intro m m' ret hstep h hm
      obtain ⟨⟨r1, m1⟩, h1, h⟩ := bind_eq_ok.mp h
      obtain ⟨hgo, hexit⟩ := hstep m e List.mem_cons_self r1 m1 hm (mergeEdge_step h1)
      by_cases hr : r1 = 0
      · simp only [hr, ne_eq, not_true_eq_false, if_false] at h
        exact ih (fun m e he => hstep m e (List.mem_cons_of_mem _ he)) h (hgo hr)
      · simp only [ne_eq, hr, not_false_eq_true, if_true] at h
        cases h
        exact hexit hr

/-- The loop changes hosts and links only, and removes nothing. -/
theorem mergeLoop_frame {es : List PktEdge} {ret : Int} (h : mergeLoop q env es m = .ok (ret, m')) :
    Frame m.rd m'.rd ∧ Grows m.rd m'.rd := by
  refine mergeLoop_rule (P := fun m1 => Frame m.rd m1.rd ∧ Grows m.rd m1.rd)
    (Q := fun _ m1 => Frame m.rd m1.rd ∧ Grows m.rd m1.rd) (fun _ h => h) es ?_ h
    ⟨Frame.refl _, Grows.refl _⟩
  intro m1 e _ r m2 hm1 hs
  obtain ⟨hf, hg⟩ := hs.frame
  exact ⟨fun _ => ⟨hm1.1.trans hf, hm1.2.trans hg⟩, fun _ => ⟨hm1.1.trans hf, hm1.2.trans hg⟩⟩

/-! ## The table stays sound -/

/-- While links are being added, the current source is a record of the table other than local's. -/
def CurOk (env : ExtMem) (m : MergeState) (L : HostId) : Prop :=
  m.contToNewSrc = false → ∀ cur, m.curHostSrc = some cur →
    cur ∈ m.rd.hosts.items ∧ cur ≠ L ∧ m.rd.mac? env cur = some m.curIpSrc

/-- The invariant of the loop. -/
structure MergeOk (env : ExtMem) (m : MergeState) (L : HostId) : Prop where
  table : TableOk env m.rd L
  cur : CurOk env m L

/-- The source's record is ready to be added to. -/
theorem SourceReady.ok {src : Ipv4Host} {tsMs : UInt64} {cur : HostId}
    (h : SourceReady env m src tsMs cur s') (hm : MergeOk env m L) :
    TableOk env s' L ∧ Keeps m.rd s' L ∧ cur ∈ s'.hosts.items ∧ cur ≠ L ∧
      s'.mac? env cur = some src.mac := by
  obtain ⟨r, -, hgL, -⟩ := hm.table.local_live
  cases h with
  | current hcur hsrc hcont =>
      obtain ⟨hmem, hne, hmac⟩ := hm.cur hcont cur hcur
      exact ⟨hm.table, Keeps.refl _ _, hmem, hne, hsrc ▸ hmac⟩
  | created _ ha _ =>
      exact ⟨ha.tableOk hm.table (by decide) nofun, ha.keeps hgL, ha.mem_new, (ha.ne_new hgL).symm,
        ha.mac_heap⟩
  | @wiped h _ hmem hmac hget htype _ =>
      have hne : cur ≠ L := hm.table.direct_ne_local hget htype
      refine ⟨?_, keeps_store hget rfl rfl hne, hmem, hne, ?_⟩
      · refine hm.table.store hget rfl Iff.rfl ((hm.table.kind cur hmem _ hget).congr rfl rfl) ?_
          (fun he => absurd he hne)
        by_cases hd : h.type = .htDirect
        · exact Or.inl hd
        · right
          rintro r' hr' l hl rfl
          exact hd ((hm.table.localDirect r' hr' l hl).2 _ hget)
      · have hsame : (m.rd.store cur { h with links := h.links.clear }).mac? env cur = m.rd.mac? env cur :=
          mac?_store_of_eq hget (by rfl) cur
        exact hsame.trans hmac

/-- A source that is new has no links yet, and one that is known has lost its own; the others are as before. -/
theorem SourceReady.linksOk {R : EtherAddr → EtherAddr → Prop} {src : Ipv4Host} {tsMs : UInt64}
    {cur : HostId} (h : SourceReady env m src tsMs cur s') (hm : MergeOk env m L)
    (hl : LinksOk R env m.rd) : LinksOk R env s' := by
  cases h with
  | current _ _ _ => exact hl
  | created _ ha _ => exact ha.linksOk hm.table hl
  | wiped _ _ _ hget _ _ => exact hl.store hget rfl (fun _ hlm => by cases hlm) List.Pairwise.nil

/-- The destination's record is ready to be linked to. -/
theorem DstReady.ok {dst : Ipv4Host} {id : HostId} (h : DstReady env s dst id s') (ht : TableOk env s L) :
    TableOk env s' L ∧ Keeps s s' L ∧ id ∈ s'.hosts.items ∧ s'.mac? env id = some dst.mac := by
  obtain ⟨r, -, hgL, -⟩ := ht.local_live
  cases h with
  | known hmem hmac => exact ⟨ht, Keeps.refl _ _, hmem, hmac⟩
  | created ha _ =>
      exact ⟨ha.tableOk ht (by decide) nofun, ha.keeps hgL, ha.mem_new, ha.mac_heap⟩

theorem DstReady.linksOk {R : EtherAddr → EtherAddr → Prop} {dst : Ipv4Host} {id : HostId}
    (h : DstReady env s dst id s') (ht : TableOk env s L) (hl : LinksOk R env s) :
    LinksOk R env s' := by
  cases h with
  | known _ _ => exact hl
  | created ha _ => exact ha.linksOk ht hl

/-- **Step lemma.** An iteration keeps the table sound, and nobody is promoted or demoted. -/
theorem EdgeStep.tableOk {e : PktEdge} {ret : Int} (h : EdgeStep q env m e ret m') (hm : MergeOk env m L) :
    TableOk env m'.rd L ∧ Keeps m.rd m'.rd L ∧ (ret = 0 → CurOk env m' L) := by
  cases h with
  | doubledBack _ => exact ⟨hm.table, Keeps.refl _ _, fun _ => hm.cur⟩
  | skipped _ _ => exact ⟨hm.table, Keeps.refl _ _, fun _ => hm.cur⟩
  | srcFailed _ hs => exact ⟨hm.table.same hs, hs.keeps L, nofun⟩
  | rejected => exact ⟨hm.table, Keeps.refl _ _, nofun⟩
  | linked hne hsrc hdst hlink =>
      obtain ⟨ht1, hk1, hmem1, hneL, hmac1⟩ := hsrc.ok hm
      obtain ⟨ht2, hk2, hmem2, hmac2⟩ := hdst.ok ht1
      have hmem : _ ∈ _ := hdst.frame.2.hosts _ hmem1
      have hmac := hk2.mac hmac1
      obtain ⟨-, ⟨hr, hs⟩ | ⟨hr, ⟨ha⟩⟩⟩ := linkAdd_cases hlink
      · refine ⟨ht2.same hs, hk1.trans (hk2.trans (hs.keeps L)), fun h0 => ?_⟩
        simp [hr] at h0
      · refine ⟨ha.tableOk ht2 hmem fun he => absurd he hneL,
          hk1.trans (hk2.trans (ha.keeps hneL)), fun _ _ cur hcur => ?_⟩
        cases hcur
        exact ⟨ha.hosts ▸ hmem, hneL, (ha.mac? _).trans hmac⟩

/-- **Step lemma.** An iteration keeps the links sound, up to parallel ones. -/
theorem EdgeStep.linksOk {e : PktEdge} {ret : Int} (h : EdgeStep q env m e ret m') (hm : MergeOk env m L)
    (hl : LinksOk (fun a b => (memcmp a b).isLE) env m.rd) :
    LinksOk (fun a b => (memcmp a b).isLE) env m'.rd := by
  cases h with
  | doubledBack _ => exact hl
  | skipped _ _ => exact hl
  | srcFailed _ hs => exact hl.same hs
  | rejected => exact hl
  | linked hne hsrc hdst hlink =>
      obtain ⟨ht1, hk1, hmem1, hneL, hmac1⟩ := hsrc.ok hm
      obtain ⟨ht2, hk2, hmem2, hmac2⟩ := hdst.ok ht1
      have hl2 := hdst.linksOk ht1 (hsrc.linksOk hm hl)
      obtain ⟨-, ⟨-, hs⟩ | ⟨-, ⟨ha⟩⟩⟩ := linkAdd_cases hlink
      · exact hl2.same hs
      · refine ha.linksOk hl2 (hdst.frame.2.hosts _ hmem1) hmem2 ?_ ha.sorted
        rintro rfl
        rw [hk2.mac hmac1, Option.some.injEq] at hmac2
        exact hne hmac2

/-- **Run lemma.** The loop keeps the table sound, and nobody is promoted or demoted. -/
theorem mergeLoop_tableOk {es : List PktEdge} {ret : Int} (h : mergeLoop q env es m = .ok (ret, m'))
    (hm : MergeOk env m L) : TableOk env m'.rd L ∧ Keeps m.rd m'.rd L := by
  refine mergeLoop_rule (P := fun m1 => MergeOk env m1 L ∧ Keeps m.rd m1.rd L)
    (Q := fun _ m1 => TableOk env m1.rd L ∧ Keeps m.rd m1.rd L) (fun _ h => ⟨h.1.table, h.2⟩) es ?_ h
    ⟨hm, Keeps.refl _ _⟩
  intro m1 e _ r m2 hm1 hs
  obtain ⟨ht, hk, hc⟩ := hs.tableOk hm1.1
  exact ⟨fun h0 => ⟨⟨ht, hc h0⟩, hm1.2.trans hk⟩, fun _ => ⟨ht, hm1.2.trans hk⟩⟩

/-- **Run lemma.** It keeps the links sound, up to parallel ones. -/
theorem mergeLoop_linksOk {es : List PktEdge} {ret : Int} (h : mergeLoop q env es m = .ok (ret, m'))
    (hm : MergeOk env m L) (hl : LinksOk (fun a b => (memcmp a b).isLE) env m.rd) :
    LinksOk (fun a b => (memcmp a b).isLE) env m'.rd := by
  refine mergeLoop_rule
    (P := fun m1 => MergeOk env m1 L ∧ LinksOk (fun a b => (memcmp a b).isLE) env m1.rd)
    (Q := fun _ m1 => LinksOk (fun a b => (memcmp a b).isLE) env m1.rd) (fun _ h => h.2) es ?_ h
    ⟨hm, hl⟩
  intro m1 e _ r m2 hm1 hs
  obtain ⟨ht, -, hc⟩ := hs.tableOk hm1.1
  exact ⟨fun h0 => ⟨⟨ht, hc h0⟩, hs.linksOk hm1.1 hm1.2⟩, fun _ => hs.linksOk hm1.1 hm1.2⟩

/-! ## Progress -/

/-- Progress: without allocation failures a new source is taken up. -/
theorem newSource_ok (src : Ipv4Host) (tsMs : UInt64) (ht : TableOk env m.rd L) (hal : m.rd.allocs = []) :
    ∃ go m1, newSource q env m src tsMs = .ok (0, go, m1) ∧ m1.rd.allocs = [] := by
  obtain ⟨fs, hfs⟩ := ht.findHost_ok src.mac
  unfold newSource
  rw [hfs, ok_bind]
  cases fs with
  | none =>
      obtain ⟨nh, s1, hadd, hal1⟩ :=
        hostAdd_ok q .htNormal hal ht.live (show (HostPtr.heap src).deref env = some src from rfl) hfs
      exact ⟨some nh, ⟨s1, src.mac, some nh, m.contToNewSrc⟩, by simp [hadd], hal1⟩
  | some i =>
      obtain ⟨id, hid, hmac⟩ := findHost_some hfs
      obtain ⟨r, hr⟩ := ht.get id (List.mem_of_getElem? hid)
      simp only [itemAt_eq_ok.mpr hid, host_eq_ok.mpr hr, ok_bind]
      split
      · exact ⟨_, _, rfl, hal⟩
      · exact ⟨_, _, rfl, hal⟩

/-- A record of the table can be given one more link. -/
theorem TableOk.linkAdd_ok {R : EtherAddr → EtherAddr → Prop} (ht : TableOk env s L)
    (hl : LinksOk R env s) (hal : s.allocs = []) {cur dst : HostId} (hcur : cur ∈ s.hosts.items)
    (hdst : dst ∈ s.hosts.items) (rttUs : UInt32) (tsMs : UInt64) :
    ∃ s', s.linkAdd q env cur dst rttUs tsMs = .ok (0, s') ∧ s'.allocs = [] := by
  obtain ⟨r, hr⟩ := ht.get cur hcur
  refine Routing.linkAdd_ok hal hr fun l hlm => ?_
  rw [List.mem_append, List.mem_singleton] at hlm
  rcases hlm with hlm | rfl
  · exact ht.live l.dst (hl.dst cur hcur r hr l hlm).1
  · exact ht.live dst hdst

/-- Progress: without allocation failures the link is added. -/
theorem mergeLink_ok {R : EtherAddr → EtherAddr → Prop} {cur : HostId} {dst : Ipv4Host} {rttUs : UInt32}
    {tsMs : UInt64} (ht : TableOk env m.rd L) (hl : LinksOk R env m.rd) (hal : m.rd.allocs = [])
    (hcur : cur ∈ m.rd.hosts.items) :
    ∃ m1, mergeLink q env m cur dst rttUs tsMs = .ok (0, m1) ∧ m1.rd.allocs = [] := by
  obtain ⟨fd, hfd⟩ := ht.findHost_ok dst.mac
  unfold mergeLink
  rw [hfd, ok_bind]
  cases fd with
  | none =>
      obtain ⟨nh, s1, hadd, hal1⟩ :=
        hostAdd_ok q .htNormal hal ht.live (show (HostPtr.heap dst).deref env = some dst from rfl) hfd
      obtain ⟨-, ⟨hr, -⟩ | ⟨-, ⟨ha⟩⟩⟩ := hostAdd_cases hadd
      · exact absurd rfl hr
      · obtain ⟨s2, hlink, hal2⟩ := (ha.tableOk ht (by decide) nofun).linkAdd_ok (q := q)
          (ha.linksOk ht hl) hal1 (ha.grows.hosts cur hcur) ha.mem_new rttUs tsMs
        exact ⟨{ m with rd := s2 }, by simp [hadd, hlink], hal2⟩
  | some i =>
      obtain ⟨id, hid, hmac⟩ := findHost_some hfd
      obtain ⟨s2, hlink, hal2⟩ := ht.linkAdd_ok (q := q) hl hal hcur (List.mem_of_getElem? hid) rttUs tsMs
      exact ⟨{ m with rd := s2 }, by simp [itemAt_eq_ok.mpr hid, hlink], hal2⟩

/-- **Progress of one iteration.** -/
theorem mergeEdge_ok {R : EtherAddr → EtherAddr → Prop} (hm : MergeOk env m L) (hl : LinksOk R env m.rd)
    (hal : m.rd.allocs = []) (e : PktEdge) :
    ∃ m1, mergeEdge q env m e = .ok (0, m1) ∧ m1.rd.allocs = [] := by
  unfold mergeEdge
  simp only
  split
  · exact ⟨m, rfl, hal⟩
  split
  · exact ⟨m, rfl, hal⟩
  rename_i hskip
  by_cases hnew : m.curHostSrc.isNone = true ∨ (pktIpv4Unpack e.src).mac ≠ m.curIpSrc
  · rw [if_pos hnew]
    have hnew' : m.curHostSrc = none ∨ (pktIpv4Unpack e.src).mac ≠ m.curIpSrc := by simpa using hnew
    obtain ⟨go, m1, h1, hal1⟩ := newSource_ok (q := q) (m := { m with contToNewSrc := false })
      (pktIpv4Unpack e.src) (ntohll e.tsMs) hm.table hal
    simp only [h1, ok_bind, ne_eq, not_true_eq_false, if_false]
    rcases newSource_cases (m := { m with contToNewSrc := false }) rfl hnew' h1 with ⟨h0, -⟩ | ⟨-, rfl, -⟩ | ⟨-, cur, s1, rfl, hsrc, rfl⟩
    · exact absurd h0 (by decide)
    · exact ⟨m1, rfl, hal1⟩
    · have hsrc' := hsrc.of_new hnew'
      obtain ⟨ht1, -, hmem1, -, -⟩ := hsrc'.ok hm
      exact mergeLink_ok ht1 (hsrc'.linksOk hm hl) hal1 hmem1
  · rw [if_neg hnew]
    simp only [not_or, Bool.not_eq_true, Option.isNone_eq_false_iff, Option.isSome_iff_exists,
      Decidable.not_not] at hnew
    obtain ⟨⟨cur, hcur⟩, hsame⟩ := hnew
    -- an edge of a group that is being skipped was dealt with above
    have hcont : m.contToNewSrc = false := by
      cases hc : m.contToNewSrc with
      | false => rfl
      | true => exact absurd ⟨hc, hsame⟩ hskip
    simp only [pure_eq_ok, ok_bind, ne_eq, not_true_eq_false, if_false, hcur]
    exact mergeLink_ok hm.table hl hal (hm.cur hcont cur hcur).1

/-- **Progress of the loop.** -/
theorem mergeLoop_ok (es : List PktEdge) : ∀ {m : MergeState}, MergeOk env m L →
    LinksOk (fun a b => (memcmp a b).isLE) env m.rd → m.rd.allocs = [] →
    ∃ m1, mergeLoop q env es m = .ok (0, m1) ∧ m1.rd.allocs = [] := by
  induction es with
  | nil => exact fun _ _ hal => ⟨_, rfl, hal⟩
  | cons e es ih =>
      intro m hm hl hal
      obtain ⟨m1, h1, hal1⟩ := mergeEdge_ok (q := q) hm hl hal e
      have hs := mergeEdge_step h1
      obtain ⟨ht, -, hc⟩ := hs.tableOk hm
      obtain ⟨m2, h2, hal2⟩ := ih ⟨ht, hc rfl⟩ (hs.linksOk hm hl) hal1
      exact ⟨m2, by simp [mergeLoop, h1, h2], hal2⟩

/-! ## The phase -/

/-- The loop starts without a current source. -/
theorem MergeOk.start (ht : TableOk env s L) (mac : EtherAddr) : MergeOk env ⟨s, mac, none, false⟩ L :=
  ⟨ht, fun _ _ h => by cases h⟩

section

variable {edges : List PktEdge} {ret : Int}

/-- `rt_update_edges`, up to the update of the cache, is the loop over the sorted batch. -/
theorem mergeEdges_loop (h : s.mergeEdges q env edges = .ok (ret, s')) :
    ∃ m', mergeLoop q env (q.sort pktEdgesCmpSrc edges) ⟨s, ⟨Vector.replicate 6 0⟩, none, false⟩
      = .ok (ret, m') ∧ m'.rd = s' := by
  obtain ⟨⟨r, m'⟩, hm, h⟩ := bind_eq_ok.mp h
  cases h
  exact ⟨m', hm, rfl⟩

/-- Whatever it returns, the merge leaves the matrices and the exported edges alone, and drops nobody. -/
theorem mergeEdges_frame (h : s.mergeEdges q env edges = .ok (ret, s')) : Frame s s' ∧ Grows s s' := by
  obtain ⟨m', hm, rfl⟩ := mergeEdges_loop h
  exact mergeLoop_frame hm

/-- **The table phase of `rt_update_edges` keeps the table sound**, and nobody is promoted or demoted. -/
theorem mergeEdges_tableOk (h : s.mergeEdges q env edges = .ok (ret, s')) (ht : TableOk env s L) :
    TableOk env s' L ∧ Keeps s s' L := by
  obtain ⟨m', hm, rfl⟩ := mergeEdges_loop h
  exact mergeLoop_tableOk hm (.start ht _)

/-- **It keeps the links sound, up to parallel ones.** -/
theorem mergeEdges_linksOk (h : s.mergeEdges q env edges = .ok (ret, s')) (ht : TableOk env s L)
    (hl : LinksOk (fun a b => (memcmp a b).isLE) env s) :
    LinksOk (fun a b => (memcmp a b).isLE) env s' := by
  obtain ⟨m', hm, rfl⟩ := mergeEdges_loop h
  exact mergeLoop_linksOk hm (.start ht _) hl

/-- **On a sound table, without allocation failures, the table phase of `rt_update_edges` returns `0`**,
    whatever the edges. -/
theorem mergeEdges_ok (ht : TableOk env s L) (hl : LinksOk (fun a b => (memcmp a b).isLE) env s)
    (hal : s.allocs = []) (edges : List PktEdge) :
    ∃ s', s.mergeEdges q env edges = .ok (0, s') ∧ s'.allocs = [] := by
  obtain ⟨m', hm, hal'⟩ := mergeLoop_ok (q := q) (q.sort pktEdgesCmpSrc edges)
    (.start ht ⟨Vector.replicate 6 0⟩) hl hal
  exact ⟨m'.rd, by simp [mergeEdges, hm], hal'⟩

end

end Routing

end P2pVn
