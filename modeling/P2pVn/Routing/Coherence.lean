import P2pVn.Routing.GivingUp
import P2pVn.Routing.Network

/-!
# `Routing.Coherence` — the matrices as a cache, when allocations fail

The matrices are a cache of what `compute_paths` makes of the table, and `m_ct == hosts.ct` is its only
freshness test. `Coherent` says what that test relies on: `m_ct` live rows, pointers that the next call may
free and reallocate, and, where the numbers agree, entries of the current links.

Two things break it, both on an allocation failure:

- in `compute_paths`, once there are matrices: their rows are freed first, and the pointers are only
  published at the end (`ComputeSafe` rules that out);
- in the merge of `rt_update_edges`, after it wiped links and before it added a host: the call returns without
  `update_cache` (`MergeSpared` rules that out; the other two operations never do this).

`GuardedRun.coherent`: in a run of calls with neither, every state is coherent.
-/

namespace P2pVn
open CUb

namespace Routing

variable {env : ExtMem} {q : Qsort} {al : AllocScript} {s s' : Routing}

/-! ## What the set-up reads -/

/-- A row of the adjacency matrix, by what it reads. -/
theorem setupRow_linkRtts (s : Routing) {n : Nat} (g : Grid UInt32 n) (i : Nat) : s.setupRow env g i = (do
    let id ← s.itemAt i
    match s.linkRtts id with
    | none => .error .useAfterFree
    | some ls => ls.foldlM (fun g l => do
        match ← s.findHostByAddr env (← s.macOf env l.1) with
        | some dstI => pure (g.set i dstI l.2)
        | none => .error .nullDeref) (g.set i i pathMin)) := by
  unfold setupRow
  cases s.itemAt i with
  | error e => rfl
  | ok id =>
      simp only [ok_bind]
      unfold Routing.host Routing.linkRtts
      cases s.recs.get id with
      | none => rfl
      | some r =>
          simp only [ok_bind, Option.map_some]
          refine Eq.trans ?_ (List.foldlM_map (m := Ub) ..).symm
          rfl

theorem SameLinks.setupRow (h : SameLinks env s s') {n : Nat} (g : Grid UInt32 n) (i : Nat) :
    s'.setupRow env g i = s.setupRow env g i := by
  have hmac : s'.macOf env = s.macOf env := by
    funext id
    rw [macOf, macOf, h.mac]
  have hitem : s'.itemAt i = s.itemAt i := by rw [itemAt, itemAt, h.hosts]
  have hfind : s'.findHostByAddr env = s.findHostByAddr env := by
    funext mac
    rw [findHostByAddr, findHostByAddr, hmac, h.hosts]
  rw [setupRow_linkRtts, setupRow_linkRtts, hitem, hmac, hfind]
  simp only [h.links]

/-! ## Coherence -/

/-- The matrices are what `compute_paths` makes of the first `n` hosts and their links. -/
def ComputedFor (env : ExtMem) (s : Routing) (n : Nat) : Prop :=
  ∃ adj : Grid UInt32 n, (List.range n).foldlM (s.setupRow env) (Grid.const n pathDiscon) = .ok adj ∧
    ∀ i j, i < n → j < n →
      s.path.entry i j = .ok ((Matrices.floydWarshall ⟨adj, Grid.const n none⟩).path.get i j) ∧
      s.next.entry i j = .ok ((Matrices.floydWarshall ⟨adj, Grid.const n none⟩).next.get i j)

theorem SameLinks.computedFor (h : SameLinks env s s') (hp : s'.path = s.path) (hn : s'.next = s.next) {n : Nat}
    (hc : ComputedFor env s n) : ComputedFor env s' n := by
  obtain ⟨adj, hadj, hentry⟩ := hc
  have hrow : s'.setupRow env (n := n) = s.setupRow env := by
    funext g i
    exact h.setupRow g i
  exact ⟨adj, hrow ▸ hadj, by rw [hp, hn]; exact hentry⟩

/-- What `m_ct == hosts.ct` is taken for, and what the next `compute_paths` relies on. -/
structure Coherent (env : ExtMem) (s : Routing) : Prop where
  /-- `path` and `next` each own `m_ct` live rows of `m_ct` entries. -/
  rows : s.mCt = 0 ∨ ∃ (g : Grid UInt32 s.mCt) (g' : Grid (Option Nat) s.mCt), s.path = .live g ∧ s.next = .live g'
  /-- The rows can be freed and the row tables reallocated. -/
  frees : ∃ p n, s.path.freeRows s.mCt = .ok p ∧ s.next.freeRows s.mCt = .ok n ∧ p.checkTable = .ok () ∧
    n.checkTable = .ok ()
  /-- Matrices that fit are those of the current hosts and links. -/
  fresh : s.mCt = s.hosts.ct → ∃ adj : Grid UInt32 s.hosts.ct, s.setupPaths env = .ok adj ∧
    ∀ i j, i < s.hosts.ct → j < s.hosts.ct →
      s.path.entry i j = .ok ((Matrices.floydWarshall ⟨adj, Grid.const s.hosts.ct none⟩).path.get i j) ∧
      s.next.entry i j = .ok ((Matrices.floydWarshall ⟨adj, Grid.const s.hosts.ct none⟩).next.get i j)

/-- The invariant: as `Coherent`, and the matrices never have more rows than there are hosts. -/
structure CacheOk (env : ExtMem) (s : Routing) : Prop where
  ready : CacheReady s
  le : s.mCt ≤ s.hosts.ct
  fresh : s.mCt = s.hosts.ct → ComputedFor env s s.hosts.ct

theorem CacheOk.toCoherent (h : CacheOk env s) : Coherent env s := by
  refine ⟨?_, ?_, h.fresh⟩
  · rcases h.ready with ⟨h0, -, -⟩ | hlive
    · exact Or.inl h0
    · exact Or.inr hlive
  · rcases h.ready with ⟨h0, hp, hn⟩ | ⟨g, g', hp, hn⟩
    · exact ⟨.null, .null, by rw [hp, h0]; rfl, by rw [hn, h0]; rfl, rfl, rfl⟩
    · rw [hp, hn]
      by_cases h0 : s.mCt = 0
      · exact ⟨.live g, .live g', by simp [MatPtr.freeRows, h0], by simp [MatPtr.freeRows, h0], rfl, rfl⟩
      · exact ⟨.rowsFreed, .rowsFreed, by simp [MatPtr.freeRows, h0], by simp [MatPtr.freeRows, h0], rfl, rfl⟩

/-- With an unchanged graph and unchanged matrices. -/
theorem CacheOk.same (h : CacheOk env s) (hs : SameLinks env s s') (hm : s'.mCt = s.mCt) (hp : s'.path = s.path)
    (hn : s'.next = s.next) : CacheOk env s' := by
  have hct := hs.ct
  refine ⟨?_, by rw [hm, hct]; exact h.le, fun heq => ?_⟩
  · unfold CacheReady
    rw [hm, hp, hn]
    exact h.ready
  · rw [hm, hct] at heq
    rw [hct]
    exact hs.computedFor hp hn (h.fresh heq)

/-- With more hosts than before, the matrices do not fit any more. -/
theorem CacheOk.grow (h : CacheOk env s) (hf : Frame s s') (hct : s.hosts.ct < s'.hosts.ct) : CacheOk env s' := by
  have hle := h.le
  refine ⟨?_, by rw [hf.mCt]; omega, fun heq => ?_⟩
  · unfold CacheReady
    rw [hf.mCt, hf.path, hf.next]
    exact h.ready
  · rw [hf.mCt] at heq
    omega

/-! ## `compute_paths` -/

/-- While there are no matrices, allocations may fail; from then on all that `compute_paths` makes succeed. -/
def ComputeSafe (s : Routing) : Prop := Unset s ∨ ∀ b ∈ s.allocs.take (2 * s.hosts.ct + 2), b = true

theorem allocRows_granted : ∀ (n : Nat) {s : Routing}, (∀ b ∈ s.allocs.take (2 * n), b = true) →
    ∃ s', allocRows n s = (none, s') := by
  intro n
  induction n with
  | zero => exact fun _ => ⟨_, rfl⟩
  | succ n ih =>
      intro s hal
      obtain ⟨al1, h1, hal1⟩ := takeAlloc_granted (n := 2 * n + 1) hal
      obtain ⟨al2, h2, hal2⟩ := takeAlloc_granted hal1
      obtain ⟨s', hs'⟩ := ih (s := { s with allocs := al2 }) hal2
      refine ⟨s', ?_⟩
      unfold allocRows malloc
      simp only [h1, h2, Bool.not_true, Bool.false_eq_true, if_false]
      exact hs'

/-- A call all of whose allocations succeed returns `0`. -/
theorem computePaths_granted {ret : Int} (h : s.computePaths env = .ok (ret, s'))
    (hal : ∀ b ∈ s.allocs.take (2 * s.hosts.ct + 2), b = true) : ret = 0 := by
  obtain ⟨al1, h1, hal1⟩ := takeAlloc_granted hal
  obtain ⟨al2, h2, hal2⟩ := takeAlloc_granted hal1
  obtain ⟨s1, hs1⟩ := allocRows_granted s.hosts.ct (s := { s with allocs := al2 }) hal2
  cases computePaths_run h with
  | noPath _ _ h1' => cases h1.symm.trans h1'
  | noNext _ _ h1' h2' =>
      cases h1.symm.trans h1'
      cases h2.symm.trans h2'
  | noRow _ _ h1' h2' hrows _ =>
      cases h1.symm.trans h1'
      cases h2.symm.trans h2'
      cases hs1.symm.trans hrows
  | computed => rfl

/-- A call that fails while there are no matrices leaves none. -/
theorem computePaths_unset {ret : Int} (h : s.computePaths env = .ok (ret, s')) (hret : ret ≠ 0)
    (hu : Unset s) : Unset s' := by
  obtain ⟨h0, hp0, hn0⟩ := hu
  have hpath : ∀ {p}, s.path.freeRows s.mCt = .ok p → p = .null := by
    intro p hp
    rw [hp0, h0] at hp
    exact (Except.ok.inj hp).symm
  have hnext : ∀ {n}, s.next.freeRows s.mCt = .ok n → n = .null := by
    intro n hn
    rw [hn0, h0] at hn
    exact (Except.ok.inj hn).symm
  cases computePaths_run h with
  | noPath hp hn _ => exact ⟨h0, hpath hp, hnext hn⟩
  | noNext hp hn _ _ => exact ⟨h0, by rw [hpath hp]; rfl, hnext hn⟩
  | noRow hp hn _ _ _ _ => exact ⟨rfl, by rw [hpath hp]; rfl, by rw [hnext hn]; rfl⟩
  | computed => exact absurd rfl hret

/-- Without matrices there is nothing to be stale. -/
theorem Unset.cacheOk (hu : Unset s) : CacheOk env s := by
  refine ⟨Or.inl hu, by rw [hu.1]; exact Nat.zero_le _, fun heq => ?_⟩
  rw [← heq, hu.1]
  exact ⟨_, rfl, fun i _ hi => absurd hi (Nat.not_lt_zero i)⟩

/-- **`compute_paths` leaves the cache coherent**, where its allocations may not fail or there is none yet. -/
theorem ComputeSafe.cacheOk {ret : Int} (hsafe : ComputeSafe s)
    (h : s.computePaths env = .ok (ret, s')) : CacheOk env s' := by
  obtain ⟨hsame, -, ⟨hneg, -⟩ | ⟨-, ⟨hcomp⟩⟩⟩ := computePaths_cases h
  · have hu : Unset s := by
      refine hsafe.resolve_right fun hal => ?_
      have := computePaths_granted h hal
      omega
    exact (computePaths_unset h (by omega) hu).cacheOk
  · have hct : s'.hosts.ct = s.hosts.ct := (show SameLinks env s s' from hsame.sameLinks).ct
    have hrow : s'.setupRow env (n := s.hosts.ct) = s.setupRow env := by
      funext g i
      exact (show SameLinks env s s' from hsame.sameLinks).setupRow g i
    refine ⟨Or.inr ?_, ?_, fun _ => ?_⟩
    · rw [hcomp.mCt]
      exact ⟨_, _, hcomp.path, hcomp.next⟩
    · rw [hcomp.mCt, hct]
    · rw [hct]
      refine ⟨hcomp.adj, hrow ▸ hcomp.setup, fun i j hi hj => ?_⟩
      rw [hcomp.path, hcomp.next, MatPtr.entry, MatPtr.entry, if_pos ⟨hi, hj⟩, if_pos ⟨hi, hj⟩]
      exact ⟨rfl, rfl⟩

/-! ## A table phase that gives up -/

/-- **A table phase that gives up leaves the cache coherent**, if the merge was spared where the matrices fit. -/
theorem CacheOk.gaveUp {op : RtOp} {ret : Int} (hc : CacheOk env s)
    (hspared : ∀ edges, op = .updateEdges edges → s.mCt = s.hosts.ct → MergeSpared q env s edges)
    (h : op.phase q env s = .ok (ret, s')) (hret : ret ≠ 0) : CacheOk env s' := by
  obtain ⟨hf, hgrows⟩ := RtOp.phase_frame h
  rcases Nat.lt_or_ge s.hosts.ct s'.hosts.ct with hlt | hge
  · exact hc.grow hf hlt
  have hct : s'.hosts.ct = s.hosts.ct := Nat.le_antisymm hge hgrows.ct_le
  -- only matrices that fit still have to be those of the links
  have hsame : s.mCt = s.hosts.ct → SameLinks env s s' := by
    intro hfits
    cases op with
    | dhostAddLink d rttUs now => exact (linkDhost_run h).gaveUp hret hct
    | updateEdges edges =>
        exact (mergeEdges_spared (hspared edges rfl hfits) h hret).resolve_left (by omega)
    | dhostRemove dmac => exact (unlinkDhost_run h).gaveUp hret
  by_cases hfits : s.mCt = s.hosts.ct
  · exact hc.same (hsame hfits) hf.mCt hf.path hf.next
  · have hle := hc.le
    refine ⟨?_, by rw [hf.mCt]; omega, fun heq => ?_⟩
    · unfold CacheReady
      rw [hf.mCt, hf.path, hf.next]
      exact hc.ready
    · rw [hf.mCt] at heq
      omega

/-! ## Runs -/

/-- A call of one of the functions, with its arguments. -/
inductive RtCall where
  | lhostAdd (p : ExtPtr)
  | op (o : RtOp)
  | dhostsToHost (srcMac dstMac : EtherAddr)

/-- The table that the call leaves, whatever it returns. -/
def RtCall.run (q : Qsort) (env : ExtMem) (s : Routing) : RtCall → Ub Routing
  | lhostAdd p => do
    let (_, s) ← s.rtLhostAdd q env (.env p)
    pure s
  | op o => do
    let (_, s) ← o.run q env s
    pure s
  | dhostsToHost srcMac dstMac => do
    let (_, s) ← s.rtDhostsToHost env srcMac dstMac
    pure s

/-- The allocations of the call do not fail where that would break the cache: not in `compute_paths` once there
    are matrices (`s2` is the table when it is called), nor, if the matrices fit, in a merge between the first
    links that it wipes and the first host that it adds. -/
def RtCall.Guarded (q : Qsort) (env : ExtMem) (s : Routing) : RtCall → Prop
  | lhostAdd _ => True
  | op o => (∀ s1 s2, o.phase q env s = .ok (0, s1) → TrimRun env s1 s2 → ComputeSafe s2) ∧
      ∀ edges, o = .updateEdges edges → s.mCt = s.hosts.ct → MergeSpared q env s edges
  | dhostsToHost _ _ => s.mCt ≠ s.hosts.ct → ComputeSafe s

/-- The states reached from `rt_init` by guarded calls, in any order. -/
inductive GuardedRun (q : Qsort) (env : ExtMem) (al : AllocScript) : Routing → Prop where
  | init {s1 : Routing} (h : rtInit al = (0, s1)) : GuardedRun q env al s1
  | call {s1 s2 : Routing} {c : RtCall} (h : GuardedRun q env al s1) (hguard : c.Guarded q env s1)
      (hrun : c.run q env s1 = .ok s2) : GuardedRun q env al s2

/-- **Step lemma.** -/
theorem CacheOk.op {o : RtOp} {ret : Int} (hc : CacheOk env s) (hguard : (RtCall.op o).Guarded q env s)
    (h : o.run q env s = .ok (ret, s')) : CacheOk env s' := by
  obtain ⟨hsafe, hspared⟩ := hguard
  rcases RtOp.run_cases h with ⟨hret, hphase⟩ | ⟨s1, r, hphase, hcache, -⟩
  · exact hc.gaveUp hspared hphase hret
  · obtain ⟨s2, r2, s3, htrim, hcomp, hexp⟩ := updateCache_cases hcache
    have hc3 := (hsafe s1 s2 hphase htrim).cacheOk hcomp
    rcases hexp with ⟨-, -, rfl⟩ | ⟨-, -, hexp⟩
    · exact hc3
    · have he := (updateExportedEdges_cases hexp).1
      exact hc3.same he.same.sameLinks he.mCt he.path he.next

/-- **Step lemma.** -/
theorem CacheOk.dhostsToHost {srcMac dstMac : EtherAddr} {f : Forwards} (hc : CacheOk env s)
    (hguard : (RtCall.dhostsToHost srcMac dstMac).Guarded q env s)
    (h : s.rtDhostsToHost env srcMac dstMac = .ok (f, s')) : CacheOk env s' := by
  have hfit : ∀ {s1}, Fits env s s1 → CacheOk env s1 := by
    rintro s1 (⟨-, rfl⟩ | ⟨hne, hcomp⟩)
    · exact hc
    · exact (hguard hne).cacheOk hcomp
  cases rtDhostsToHost_run h with
  | stale hne hcomp _ => exact (hguard hne).cacheOk hcomp
  | noLocal h1 => exact hfit h1
  | looked h1 _ _ _ hbranch =>
      have ha := branch_cases hbranch
      have hsame : SameLinks env _ _ := ha.same.sameLinks
      obtain ⟨al, rfl, -⟩ := ha
      exact (hfit h1).same hsame rfl rfl rfl

/-- **Step lemma.** -/
theorem CacheOk.lhostAdd {p : ExtPtr} {ret : Int} (hc : CacheOk env s)
    (h : s.rtLhostAdd q env (.env p) = .ok (ret, s')) : CacheOk env s' := by
  obtain ⟨⟨r, nh, s1⟩, hadd, h⟩ := bind_eq_ok.mp h
  obtain ⟨hf, hcase⟩ := hostAdd_cases hadd
  have hc1 : CacheOk env s1 := by
    rcases hcase with ⟨-, hsame⟩ | ⟨-, ⟨ha⟩⟩
    · exact hc.same hsame.sameLinks hf.mCt hf.path hf.next
    · exact hc.grow hf ha.ct_lt
  simp only at h
  split at h
  · cases h
    exact hc1.same ⟨rfl, fun _ => rfl, fun _ => rfl⟩ rfl rfl rfl
  · cases h
    exact hc1

theorem GuardedRun.cacheOk (h : GuardedRun q env al s) : CacheOk env s := by
  induction h with
  | init h => exact (rtInit_cases h).2.2.1.cacheOk
  | @call _ _ c _ hguard hrun ih =>
      cases c with
      | lhostAdd p =>
          obtain ⟨⟨r, s1⟩, h1, hrun⟩ := bind_eq_ok.mp hrun
          cases hrun
          exact ih.lhostAdd h1
      | op o =>
          obtain ⟨⟨r, s1⟩, h1, hrun⟩ := bind_eq_ok.mp hrun
          cases hrun
          exact ih.op hguard h1
      | dhostsToHost srcMac dstMac =>
          obtain ⟨⟨r, s1⟩, h1, hrun⟩ := bind_eq_ok.mp hrun
          cases hrun
          exact ih.dhostsToHost hguard h1

/-- **The path matrices are a coherent cache** after every sequence of calls, whichever allocations fail, if
    none fails in `compute_paths` once there are matrices, nor in a merge between the first links that it wipes
    and the first host that it adds: `m_ct` live rows, pointers that may be freed and reallocated, and
    matrices that fit are those of the current hosts and links. -/
theorem GuardedRun.coherent (h : GuardedRun q env al s) : Coherent env s := h.cacheOk.toCoherent

/-! ### Three short runs -/

/-- `rt_init`, `rt_lhost_add`, and then the calls of a list, with these outcomes of the allocations. -/
def runFromAllocs (q : Qsort) (env : ExtMem) (al : AllocScript) (os : List RtOp) : Ub Routing := do
  let (ret, s) ← (rtInit al).2.rtLhostAdd q env (.env .lhost)
  if ret ≠ 0 then .error .uninitialised else runOps q env os s

theorem started_runFromAllocs {os : List RtOp} (h0 : (rtInit al).1 = 0)
    (h : runFromAllocs q env al os = .ok s) : ∃ s1, Started q env al s1 ∧ runOps q env os s1 = .ok s := by
  obtain ⟨⟨ret, s1⟩, h1, h⟩ := bind_eq_ok.mp h
  by_cases hret : ret = 0
  · subst hret
    simp only [ne_eq, not_true_eq_false, if_false] at h
    exact ⟨s1, ⟨_, Prod.ext h0 rfl, h1⟩, h⟩
  · simp only [ne_eq, hret, not_false_eq_true, if_true] at h
    cases h

/-- An operation called before there are matrices is guarded if its merge cannot give up. -/
theorem Unset.guarded (hu : Unset s) {d : Nat} {rttUs : UInt32} {now : Timeval} :
    (RtCall.op (.dhostAddLink d rttUs now)).Guarded q env s := by
  refine ⟨fun s1 s2 hphase htrim => Or.inl ?_, nofun⟩
  have hf := (RtOp.phase_frame hphase).1.trans htrim.frame
  exact ⟨hf.mCt.trans hu.1, hf.path.trans hu.2.1, hf.next.trans hu.2.2⟩

/-- There are no matrices yet, as a test. -/
def unset (s : Routing) : Bool :=
  match s.path, s.next with
  | .null, .null => s.mCt = 0
  | _, _ => false

theorem unset_of_test (h : s.unset = true) : Unset s := by
  unfold unset at h
  split at h
  · rename_i hp hn
    exact ⟨by simpa using h, hp, hn⟩
  · cases h

/-- Hosts `3` and `4`, which nobody knows, are linked to host `1`. -/
def newcomers : List PktEdge := [packEdge (lineHost 3) (lineHost 1) 10 5, packEdge (lineHost 4) (lineHost 1) 10 5]

/-- The very first `compute_paths` fails; the next one does not; then a merge adds host `3` and fails for want of
    a record for host `4`. -/
def coherentAllocs : AllocScript := List.replicate 6 true ++ [false] ++ List.replicate 9 true ++ [false]

/-- **Three calls of which two fail leave the cache coherent**: there is a host more than the matrices have. -/
theorem coherent_twice_failed : ∃ s, GuardedRun .insertion lineExt coherentAllocs s ∧ s.hosts.ct = 3 ∧ s.mCt = 2 ∧
    Coherent lineExt s := by
  have h : (do
      let s1 ← runFromAllocs .insertion lineExt coherentAllocs [.dhostAddLink 0 10 ⟨0, 0⟩]
      let (_, s2) ← s1.rtDhostAddLink .insertion lineExt (.env (.dp 0)) 10 ⟨1, 0⟩
      let (r, s3) ← s2.rtUpdateEdges .insertion lineExt newcomers
      let (r', _) ← s2.mergeEdges .insertion lineExt newcomers
      pure (s1.unset, spared lineExt s2 (Qsort.insertion.sort pktEdgesCmpSrc newcomers) none false s2.allocs, r, r',
        s3.hosts.ct, s3.mCt)) = Except.ok (true, true, -1, -1, 3, 2) := by
    decide +kernel
  obtain ⟨s1, hs1, h⟩ := bind_eq_ok.mp h
  obtain ⟨⟨r2, s2⟩, hs2, h⟩ := bind_eq_ok.mp h
  obtain ⟨⟨r3, s3⟩, hs3, h⟩ := bind_eq_ok.mp h
  obtain ⟨⟨r4, s4⟩, hs4, h⟩ := bind_eq_ok.mp h
  simp only [pure_eq_ok, Except.ok.injEq, Prod.mk.injEq] at h
  obtain ⟨hunset, hspared, -, rfl, hct, hm⟩ := h
  obtain ⟨s0, hstart, hops⟩ := started_runFromAllocs (by decide) hs1
  obtain ⟨L, hf, -⟩ := started_cases hstart
  obtain ⟨si, hinit, hadd⟩ := hstart
  obtain ⟨⟨ret, s1'⟩, hrun, hops⟩ := bind_eq_ok.mp hops
  cases hops
  have h1 : GuardedRun .insertion lineExt coherentAllocs s0 :=
    .call (c := .lhostAdd .lhost) (.init hinit) trivial (by simp [RtCall.run, hadd])
  have h2 := GuardedRun.call (c := .op (.dhostAddLink 0 10 ⟨0, 0⟩)) h1 hf.unset.guarded
    (by simp only [RtCall.run, hrun, ok_bind]; rfl)
  have h3 : GuardedRun .insertion lineExt coherentAllocs s2 :=
    .call (c := .op (.dhostAddLink 0 10 ⟨1, 0⟩)) h2 (unset_of_test hunset).guarded
      (by simp only [RtCall.run, RtOp.run, hs2, ok_bind]; rfl)
  have h4 : GuardedRun .insertion lineExt coherentAllocs s3 := by
    refine .call (c := .op (.updateEdges newcomers)) h3 ⟨fun s5 s6 hphase _ => ?_, fun edges he _ => ?_⟩
      (by simp only [RtCall.run, RtOp.run, hs3, ok_bind]; rfl)
    · cases hs4.symm.trans hphase
    · cases he
      exact hspared
  exact ⟨s3, h4, hct, hm, GuardedRun.coherent h4⟩

/-- The fault in which a computation ends. -/
def faultOf {α : Type} : Ub α → Option Fault
  | .ok _ => none
  | .error e => some e

/-- **The cache is lost** when the first reallocation of the second `compute_paths` fails (the rows are freed
    and `m_ct` still says that they are there, so the next call uses them), and when `rt_update_edges`
    gives up after it changed a link (the old matrices still fit). -/
theorem coherent_lost :
    (∃ s, Reach .insertion lineExt (List.replicate 12 true ++ [false]) s ∧ ¬ Coherent lineExt s ∧
      faultOf ((RtOp.dhostAddLink 0 30 ⟨2, 0⟩).run .insertion lineExt s) = some .useAfterFree) ∧
    ∃ s, Reach .insertion lineExt (List.replicate 23 true ++ [false]) s ∧ s.mCt = s.hosts.ct ∧
      s.path.entry 1 2 = .ok 10 ∧ ¬ Coherent lineExt s := by
  constructor
  · have h : (do
        let s ← runFromAllocs .insertion lineExt (List.replicate 12 true ++ [false])
          [.dhostAddLink 0 10 ⟨0, 0⟩, .dhostAddLink 0 20 ⟨1, 0⟩]
        pure (faultOf (s.path.freeRows s.mCt),
          faultOf ((RtOp.dhostAddLink 0 30 ⟨2, 0⟩).run .insertion lineExt s)))
        = Except.ok (some .doubleFree, some .useAfterFree) := by
      decide +kernel
    obtain ⟨s, hs, h⟩ := bind_eq_ok.mp h
    simp only [pure_eq_ok, Except.ok.injEq, Prod.mk.injEq] at h
    obtain ⟨s1, hstart, hops⟩ := started_runFromAllocs (by decide) hs
    refine ⟨s, Reach.runOps _ (.start hstart) hops, fun hc => ?_, h.2⟩
    obtain ⟨p, -, hp, -⟩ := hc.frees
    rw [hp] at h
    cases h.1
  · have h : (do
        let s ← runFromAllocs .insertion lineExt (List.replicate 23 true ++ [false])
          (lineOps ++ [.updateEdges [packEdge (lineHost 1) (lineHost 2) 20 9, packEdge (lineHost 3) (lineHost 1) 10 5]])
        let adj ← s.setupPaths lineExt
        pure (s.mCt, s.hosts.ct, ← s.path.entry 1 2,
          (Matrices.floydWarshall ⟨adj, Grid.const s.hosts.ct none⟩).path.get 1 2)) = Except.ok (3, 3, 10, 20) := by
      decide +kernel
    obtain ⟨s, hs, h⟩ := bind_eq_ok.mp h
    obtain ⟨adj, hadj, h⟩ := bind_eq_ok.mp h
    obtain ⟨v, hv, h⟩ := bind_eq_ok.mp h
    simp only [pure_eq_ok, Except.ok.injEq, Prod.mk.injEq] at h
    obtain ⟨hm, hct, rfl, hnew⟩ := h
    obtain ⟨s1, hstart, hops⟩ := started_runFromAllocs (by decide) hs
    refine ⟨s, Reach.runOps _ (.start hstart) hops, hm.trans hct.symm, hv, fun hc => ?_⟩
    obtain ⟨adj', hadj', hentry⟩ := hc.fresh (hm.trans hct.symm)
    rw [hadj] at hadj'
    cases hadj'
    have h12 := (hentry 1 2 (by omega) (by omega)).1
    rw [hv, hnew] at h12
    cases h12

end Routing

end P2pVn
