import P2pVn.Routing.DirectPeers

/-!
# `Routing.OwnLinks` — local's own links, and the records of direct peers

Two facts about who is a direct peer (`DirectAt`) and whom local links to (`LocalTo`).

- `rtUpdateEdges_ownLinks`: received link state changes neither, in any state of any run. The merge creates
  normal records only and never adds to local's; a trim that leaves no freed record in the table removes
  normal hosts only, and `compute_paths` would read a freed one.
- `Reach.direct_iff`: without allocation failures the two are the same in every state of every run. Each first
  phase keeps that (`LinkPhase.directLinked`, `UnlinkPhase.directLinked`), and so does the trim.
-/

namespace P2pVn
open CUb

namespace Routing

variable {env : ExtMem} {q : Qsort} {s s' : Routing} {L id : HostId} {ptr : HostPtr}

/-! ## Direct peers and local's links -/

/-- `id` is a record of the table, of type `HT_DIRECT`, with this host pointer. -/
def DirectAt (s : Routing) (id : HostId) (ptr : HostPtr) : Prop :=
  id ∈ s.hosts.items ∧ ∃ r, s.recs.get id = some r ∧ r.type = .htDirect ∧ r.host = ptr

/-- Local's list has a link to `id`. -/
def LocalTo (s : Routing) (L id : HostId) : Prop :=
  ∃ r, s.recs.get L = some r ∧ ∃ l ∈ r.links.items, l.dst = id

theorem Same.directAt (h : Same s s') : DirectAt s' id ptr ↔ DirectAt s id ptr := by
  unfold DirectAt
  rw [h.hosts, h.get]

theorem Same.localTo (h : Same s s') : LocalTo s' L id ↔ LocalTo s L id := by
  unfold LocalTo
  rw [h.get]

/-- Overwriting a record without changing its type and its pointer. -/
theorem directAt_store {j : HostId} {h h' : RtHost} (hg : s.recs.get j = some h) (htype : h'.type = h.type)
    (hhost : h'.host = h.host) : DirectAt (s.store j h') id ptr ↔ DirectAt s id ptr := by
  unfold DirectAt
  rw [get_store hg]
  refine and_congr Iff.rfl ?_
  split
  · rename_i he
    subst he
    simp [hg, htype, hhost]
  · exact Iff.rfl

theorem LinkAdded.directAt {src dst : HostId} {rttUs : UInt32} {tsMs : UInt64}
    (ha : LinkAdded env s src dst rttUs tsMs s') : DirectAt s' id ptr ↔ DirectAt s id ptr :=
  ha.same.directAt.trans (directAt_store ha.get ha.type ha.host)

/-- `link_add` makes nobody a direct peer, and leaves those there are. -/
theorem linkAdd_directAt {src dst : HostId} {rttUs : UInt32} {tsMs : UInt64} {ret : Int}
    (h : s.linkAdd q env src dst rttUs tsMs = .ok (ret, s')) : DirectAt s' id ptr ↔ DirectAt s id ptr := by
  obtain ⟨-, ⟨-, hs⟩ | ⟨-, ⟨ha⟩⟩⟩ := linkAdd_cases h
  · exact hs.directAt
  · exact ha.directAt

/-- A new record of the table is direct if it was made so; nobody else changes. -/
theorem HostAdded.directAt {ipHost : HostPtr} {type : HostType} {nh : HostId}
    (ha : HostAdded env s ipHost type nh s') (h : DirectAt s' id ptr) :
    (id = nh ∧ type = .htDirect) ∨ DirectAt s id ptr := by
  obtain ⟨hmem, r, hr, htype, hhost⟩ := h
  rw [ha.get] at hr
  split at hr
  · rename_i he
    cases hr
    exact Or.inl ⟨he, ha.fresh.type.symm.trans htype⟩
  · rename_i hne
    rw [ha.perm.mem_iff, List.mem_append, List.mem_singleton] at hmem
    exact Or.inr ⟨hmem.resolve_right hne, r, hr, htype, hhost⟩

/-- Who was direct stays direct. -/
theorem HostAdded.directAt_old {ipHost : HostPtr} {type : HostType} {nh : HostId}
    (ha : HostAdded env s ipHost type nh s') (h : DirectAt s id ptr) : DirectAt s' id ptr := by
  obtain ⟨hmem, r, hr, hrest⟩ := h
  exact ⟨ha.perm.mem_iff.mpr (List.mem_append_left _ hmem), r, ha.get_old hr, hrest⟩

theorem HostAdded.directAt_normal {ipHost : HostPtr} {nh : HostId} (ha : HostAdded env s ipHost .htNormal nh s') :
    DirectAt s' id ptr ↔ DirectAt s id ptr := by
  refine ⟨fun h => ?_, ha.directAt_old⟩
  rcases ha.directAt h with ⟨-, hn⟩ | h
  · cases hn
  · exact h

/-! ## The merge -/

theorem SourceReady.directAt {m : MergeState} {src : Ipv4Host} {tsMs : UInt64} {cur : HostId}
    (h : SourceReady env m src tsMs cur s') : DirectAt s' id ptr ↔ DirectAt m.rd id ptr := by
  cases h with
  | current => exact Iff.rfl
  | created _ ha _ => exact ha.directAt_normal
  | wiped _ _ _ hget _ _ => exact directAt_store hget rfl rfl

theorem DstReady.directAt {dst : Ipv4Host} {j : HostId} (h : DstReady env s dst j s') :
    DirectAt s' id ptr ↔ DirectAt s id ptr := by
  cases h with
  | known => exact Iff.rfl
  | created ha _ => exact ha.directAt_normal

/-- **Step lemma.** An iteration of the merge makes nobody a direct peer, and leaves those there are. -/
theorem EdgeStep.directAt {m m' : MergeState} {e : PktEdge} {ret : Int} (h : EdgeStep q env m e ret m') :
    DirectAt m'.rd id ptr ↔ DirectAt m.rd id ptr := by
  cases h with
  | doubledBack => exact Iff.rfl
  | skipped => exact Iff.rfl
  | srcFailed _ hs => exact hs.directAt
  | rejected => exact Iff.rfl
  | linked _ hsrc hdst hlink =>
      rw [← hsrc.directAt, ← hdst.directAt]
      exact linkAdd_directAt hlink

theorem mergeEdges_directAt {edges : List PktEdge} {ret : Int} (h : s.mergeEdges q env edges = .ok (ret, s')) :
    DirectAt s' id ptr ↔ DirectAt s id ptr := by
  obtain ⟨m', hm, rfl⟩ := mergeEdges_loop h
  exact mergeLoop_rule (P := fun m => DirectAt m.rd id ptr ↔ DirectAt s id ptr)
    (Q := fun _ m => DirectAt m.rd id ptr ↔ DirectAt s id ptr) (fun _ h => h) _
    (fun _ _ _ _ _ hP hstep => ⟨fun _ => hstep.directAt.trans hP, fun _ => hstep.directAt.trans hP⟩) hm Iff.rfl

/-! ## The trim -/

/-- **A trim that leaves no freed record in the table removes no direct peer**, nor changes local's record. -/
theorem TrimRun.directAt (h : TrimRun env s s') (ht : TableOk env s L) (hd : ¬ HasDead s') :
    s'.recs.get L = s.recs.get L ∧ ∀ id ptr, DirectAt s' id ptr ↔ DirectAt s id ptr := by
  obtain ⟨-, -, hout⟩ := h.cases (R := fun _ _ => True) ht
  obtain ⟨-, htrims, -⟩ := hout.resolve_left hd
  refine ⟨htrims.localRec, fun id ptr => ⟨?_, ?_⟩⟩
  · rintro ⟨hmem, r', hr', htype, hhost⟩
    have hmem0 := htrims.sub.subset hmem
    obtain ⟨r, hr⟩ := ht.get id hmem0
    obtain ⟨r1, hr1, hh1, ht1, -⟩ := htrims.kind id hmem r hr
    rw [hr'] at hr1
    cases hr1
    exact ⟨hmem0, r, hr, ht1 ▸ htype, hh1 ▸ hhost⟩
  · rintro ⟨hmem, r, hr, htype, hhost⟩
    have hmem' : id ∈ s'.hosts.items := by
      cases h with
      | stale _ => exact hmem
      | trimmed _ _ _ _ hloop =>
          obtain ⟨i, hi⟩ := List.getElem?_of_mem hmem
          refine ((trimLoop_trimmed ht.hostsOk _ 0 hloop hd (by omega)).2 i id hi).mpr ?_
          -- only normal hosts are to be trimmed
          rintro ⟨-, -, -, j, rj, hj, hrj, hn⟩
          rw [hi] at hj
          cases hj
          rw [hr] at hrj
          cases hrj
          rw [htype] at hn
          cases hn
    obtain ⟨r', hr', hh', ht', -⟩ := htrims.kind id hmem' r hr
    exact ⟨hmem', r', hr', ht'.trans htype, hh'.trans hhost⟩

/-- The same for all of `update_cache`, where it returns `0`. -/
theorem updateCache_directAt {s1 s2 s3 : Routing} (htrim : TrimRun env s1 s2)
    (hcomp : s2.computePaths env = .ok (0, s3)) (hexp : s3.updateExportedEdges env = .ok (0, s'))
    (hs : Settled env s1 L) : TableOk env s1 L ∧ TableOk env s' L ∧ s'.recs.get L = s1.recs.get L ∧
      ∀ id ptr, DirectAt s' id ptr ↔ DirectAt s1 id ptr := by
  obtain ⟨hsame, -, ⟨hneg, -⟩ | ⟨-, ⟨hc⟩⟩⟩ := computePaths_cases hcomp
  · exact absurd hneg (by decide)
  have hdead := hc.not_hasDead
  have ht := hs.resolve_left fun hd => hdead (htrim.hasDead hd)
  have hsame' := hsame.trans (updateExportedEdges_cases hexp).1.same
  obtain ⟨hL, hdirect⟩ := htrim.directAt ht hdead
  exact ⟨ht, ((htrim.settled hs).resolve_left hdead).same hsame', (hsame'.get L).trans hL,
    fun id ptr => hsame'.directAt.trans (hdirect id ptr)⟩

/-- Local links to every direct peer. -/
def DirectLinked (s : Routing) (L : HostId) : Prop := ∀ id ptr, DirectAt s id ptr → LocalTo s L id

theorem DirectLinked.same (h : DirectLinked s L) (hs : Same s s') : DirectLinked s' L :=
  fun id ptr hd => hs.localTo.mpr (h id ptr (hs.directAt.mp hd))

/-- Local's new link leads to `dst`; its old ones still lead where they led. -/
theorem LinkAdded.localTo {dst : HostId} {rttUs : UInt32} {tsMs : UInt64}
    (ha : LinkAdded env s L dst rttUs tsMs s') (h : id = dst ∨ LocalTo s L id) : LocalTo s' L id := by
  refine ⟨ha.after, by rw [ha.getRec, if_pos rfl], ?_⟩
  rcases h with rfl | ⟨r, hr, l, hl, he⟩
  · exact ⟨_, ha.mem.mpr (Or.inr rfl), rfl⟩
  · rw [ha.get] at hr
    cases hr
    exact ⟨l, ha.mem.mpr (Or.inl hl), he⟩

theorem LinkPhase.directLinked {d : Nat} {rttUs : UInt32} {now : Timeval}
    (h : LinkPhase q env s L d rttUs now 0 s') (ht : TableOk env s L) (hd : DirectLinked s L) :
    DirectLinked s' L := by
  -- the link that was added is to the one record that may have been without
  have hadded : ∀ {s1 : Routing} {dst : HostId} {ret : Int},
      s1.linkAdd q env L dst rttUs (tvMs now) = .ok (ret, s') → (if ret ≠ 0 then (-3 : Int) else 0) = 0 →
      (∀ id ptr, DirectAt s1 id ptr → id = dst ∨ LocalTo s1 L id) → DirectLinked s' L := by
    intro s1 dst ret hlink hret hd1 id ptr hid
    obtain ⟨-, ⟨hr, -⟩ | ⟨-, ⟨ha⟩⟩⟩ := linkAdd_cases hlink
    · rw [hr] at hret
      exact absurd hret (by decide)
    · exact ha.localTo (hd1 id ptr (ha.directAt.mp hid))
  generalize hret0 : (0 : Int) = ret0 at h
  cases h with
  | refused hret _ => exact absurd hret (by omega)
  | added hadd hp hlink =>
      refine hadded hlink hret0.symm fun id ptr hid => ?_
      refine (hadd.directAt hid).imp And.left fun hid => ?_
      obtain ⟨r, hr, hl⟩ := hd id ptr hid
      exact ⟨r, hadd.get_old hr, hl⟩
  | @promoted dst dstRec _ _ ip hip hmem hmac hget hn hp hlink =>
      refine hadded hlink hret0.symm fun id ptr hid => ?_
      by_cases he : id = dst
      · exact Or.inl he
      · right
        obtain ⟨hidm, r, hr, hrest⟩ := hid
        rw [get_store hget, if_neg he] at hr
        obtain ⟨rL, hrL, hl⟩ := hd id ptr ⟨hidm, r, hr, hrest⟩
        have hneL : L ≠ dst := (ht.direct_ne_local hget (by rw [hn]; decide)).symm
        exact ⟨rL, by rw [get_store hget, if_neg hneL, hrL], hl⟩
  | joined hip hmac hp hlink => exact hadded hlink hret0.symm fun id ptr hid => Or.inr (hd id ptr hid)
  | @refreshed r0 l0 i ip hip hg hi hmac =>
      intro id ptr hid
      have hkept := (directAt_store hg (by rfl) (by rfl)).mp hid
      obtain ⟨r, hr, l, hl, he⟩ := hd id ptr hkept
      rw [hg] at hr
      cases hr
      refine ⟨_, by rw [get_store hg, if_pos rfl], ?_⟩
      -- a refresh changes no destination
      obtain ⟨k, hk⟩ := List.getElem?_of_mem hl
      refine ⟨_, List.mem_of_getElem? (i := k) (by rw [Da.items_withItems, List.getElem?_modify, hk]; rfl), ?_⟩
      split
      · exact he
      · exact he

theorem UnlinkPhase.directLinked {dmac : EtherAddr} {ret : Int} (h : UnlinkPhase env s L dmac ret s')
    (ht : TableOk env s L) (hd : DirectLinked s L) : DirectLinked s' L := by
  cases h with
  | refused _ hs => exact hd.same hs
  | @removed r i l h ip _ hg hi hmac hget hdir hip hs =>
      refine DirectLinked.same ?_ hs
      have hne : l.dst ≠ L := ht.direct_ne_local hget (by rw [hdir]; decide)
      have hget' : (s.store L { r with links := r.links.remove i }).recs.get l.dst = some h := by
        rw [get_store hg, if_neg hne, hget]
      rintro id ptr ⟨hmem, r1, hr1, htype, hhost⟩
      rw [get_store hget'] at hr1
      split at hr1
      · -- the record that was demoted
        cases hr1
        cases htype
      · rename_i hidl
        have hid : DirectAt s id ptr :=
          (directAt_store hg (by rfl) (by rfl)).mp (show DirectAt (s.store L { r with links := r.links.remove i }) id ptr from
            ⟨hmem, r1, hr1, htype, hhost⟩)
        obtain ⟨rL, hrL, l0, hl0, he⟩ := hd id ptr hid
        rw [hg] at hrL
        cases hrL
        obtain ⟨k, hk⟩ := List.getElem?_of_mem hl0
        have hki : k ≠ i := by
          rintro rfl
          rw [hi] at hk
          cases hk
          exact hidl he.symm
        refine ⟨_, by rw [get_store hget', if_neg hne.symm, get_store hg, if_pos rfl], l0, ?_, he⟩
        rw [Da.items_remove]
        exact List.mem_eraseIdx_iff_getElem?.mpr ⟨k, hki, hk⟩

/-- **Step lemma.** An operation keeps local linked to every direct peer, if no allocation fails. -/
theorem DirectLinked.op {op : RtOp} {ret : Int} (hd : DirectLinked s L) (hs : Sound env s L)
    (hrun : op.run q env s = .ok (ret, s')) : DirectLinked s' L := by
  have ht := hs.table
  obtain ⟨-, ⟨-, rfl⟩ | ⟨rfl, -⟩⟩ := RtOp.sound hrun hs
  · exact hd
  obtain ⟨s1, s2, s3, hphase, htrim, hcomp, hexp⟩ := RtOp.run_zero hrun
  have hd1 : DirectLinked s1 L := by
    cases op with
    | dhostAddLink d rttUs now => exact ((linkDhost_run hphase).phase ht).directLinked ht hd
    | updateEdges edges =>
        intro id ptr hid
        obtain ⟨r, hr, hl⟩ := hd id ptr ((mergeEdges_directAt hphase).mp hid)
        exact ⟨r, (mergeEdges_tableOk hphase ht).2.localRec.trans hr, hl⟩
    | dhostRemove dmac => exact ((unlinkDhost_run hphase).phase ht).directLinked ht hd
  obtain ⟨-, -, hL, hdirect⟩ := updateCache_directAt htrim hcomp hexp (Or.inr (RtOp.phase_tableOk hphase ht))
  intro id ptr hid
  obtain ⟨r, hr, hl⟩ := hd1 id ptr ((hdirect id ptr).mp hid)
  exact ⟨r, hL.trans hr, hl⟩

/-- Matrices do not matter. -/
theorem DirectLinked.forward {srcMac dstMac : EtherAddr} {f : Forwards} (hd : DirectLinked s L)
    (hrun : s.rtDhostsToHost env srcMac dstMac = .ok (f, s')) : DirectLinked s' L := by
  have hfits : ∀ {s1}, Fits env s s1 → DirectLinked s1 L := by
    rintro s1 (⟨-, rfl⟩ | ⟨-, hcomp⟩)
    · exact hd
    · exact hd.same (computePaths_cases hcomp).1
  cases rtDhostsToHost_run hrun with
  | stale _ hcomp _ => exact hd.same (computePaths_cases hcomp).1
  | noLocal hfit => exact hfits hfit
  | looked hfit _ _ _ hbranch => exact (hfits hfit).same (branch_cases hbranch).same

/-- In the beginning there is nobody but local. -/
theorem Fledgling.directLinked (h : Fledgling env s L) : DirectLinked s L := by
  rintro id ptr ⟨hmem, r, hr, htype, -⟩
  rw [h.hosts, List.mem_singleton] at hmem
  subst hmem
  rw [h.table.localType r hr] at htype
  cases htype

/-- **Run lemma.** -/
theorem Reach.directLinked (h : Reach q env [] s) : ∃ L, Sound env s L ∧ DirectLinked s L := by
  induction h with
  | start h =>
      obtain ⟨L, hf, hal⟩ := started_cases h
      exact ⟨L, ⟨hal rfl, hf.table, hf.linksOk, Or.inl hf.unset⟩, hf.directLinked⟩
  | op _ hrun ih =>
      obtain ⟨L, hs, hd⟩ := ih
      exact ⟨L, (RtOp.sound hrun hs).1, hd.op hs hrun⟩
  | forward _ hrun ih =>
      obtain ⟨L, hs, hd⟩ := ih
      exact ⟨L, forward_sound hrun hs, hd.forward hrun⟩

/-- **A record other than local is of type `HT_DIRECT` if and only if local has a link to it**, in every state
    of every run in which no allocation fails, whatever the operations were called with and returned. -/
theorem Reach.direct_iff (h : Reach q env [] s) : ∃ L, s.localHost = some L ∧
    ∀ id ∈ s.hosts.items, id ≠ L → ∀ r, s.recs.get id = some r →
      (r.type = .htDirect ↔ LocalTo s L id) := by
  obtain ⟨L, hs, hd⟩ := h.directLinked
  refine ⟨L, hs.table.isLocal, fun id hid _ r hr => ⟨fun htype => ?_, ?_⟩⟩
  · exact hd id r.host ⟨hid, r, hr, htype, rfl⟩
  · rintro ⟨rL, hrL, l, hl, rfl⟩
    exact (hs.table.localDirect rL hrL l hl).2 r hr

theorem direct_iff_line : ∃ s, Reach .insertion lineExt [] s ∧ s.hosts.items = [0, 1, 2] ∧
    ∃ L, s.localHost = some L ∧ ∀ id ∈ s.hosts.items, id ≠ L → ∀ r, s.recs.get id = some r →
      (r.type = .htDirect ↔ LocalTo s L id) := by
  obtain ⟨s, hs, hitems, -⟩ := lineOps_run
  exact ⟨s, reach_runFrom hs, hitems, Reach.direct_iff (reach_runFrom hs)⟩

end Routing

end P2pVn
