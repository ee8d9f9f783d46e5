import P2pVn.Routing.OwnLinks

/-!
# `Routing.Connected` — which hosts a call leaves in the table

`update_cache` is to keep local, the direct peers and whoever local can reach (`KeepsConnected`). But it trims
first and computes the paths afterwards, so what it trims by is the matrix that an earlier call left, or
nothing where the number of hosts changed since. `keepsConnected_iff` says when the outcome is right anyway
(`OldPathsAgree`), for a call of any operation in any state of any run.
-/

namespace P2pVn
open CUb

namespace Routing

variable {env : ExtMem} {q : Qsort} {s s' s1 : Routing} {L : HostId}

/-! ## What is to be kept -/

/-- Record `a` has a link of positive rtt to `b`. -/
def LinkTo (s : Routing) (a b : HostId) : Prop :=
  ∃ r, s.recs.get a = some r ∧ ∃ l ∈ r.links.items, l.dst = b ∧ l.rttUs ≠ 0

/-- Local reaches `id` over the links of the table. -/
def Reaches (s : Routing) (id : HostId) : Prop := ∃ L, s.localHost = some L ∧ Relation.ReflTransGen (LinkTo s) L id

/-- Of the hosts of `s1`, `s'` has exactly local, the direct peers, and those that local reaches in `s1`. -/
def KeepsConnected (s1 s' : Routing) : Prop :=
  ∀ id ∈ s1.hosts.items, ∀ r, s1.recs.get id = some r →
    (id ∈ s'.hosts.items ↔ s1.localHost = some id ∨ r.type = .htDirect ∨ Reaches s1 id)

/-- The matrices fit the host list, and local's row has no path for position `i`. -/
def OldDisconnected (s : Routing) (i : Nat) : Prop :=
  s.mCt = s.hosts.ct ∧ ∃ srcI, s.hosts.items[srcI]? = s.localHost ∧ s.path.entry srcI i = .ok pathDiscon

/-- The matrices from before agree with the links of now: the normal hosts that they show as disconnected are
    those that local does not reach. -/
def OldPathsAgree (s : Routing) : Prop :=
  ∀ i id r, s.hosts.items[i]? = some id → s.recs.get id = some r → r.type = .htNormal →
    (OldDisconnected s i ↔ ¬ Reaches s id)

/-! ## What is kept -/

/-- **A trim that leaves no freed record in the table** keeps everybody but the normal hosts that its
    matrices show as disconnected. -/
theorem TrimRun.mem_iff (h : TrimRun env s s') (ht : TableOk env s L) (hd : ¬ HasDead s') {i : Nat} {id : HostId}
    {r : RtHost} (hi : s.hosts.items[i]? = some id) (hr : s.recs.get id = some r) :
    id ∈ s'.hosts.items ↔ ¬ (r.type = .htNormal ∧ OldDisconnected s i) := by
  cases h with
  | stale hct => exact ⟨fun _ hold => hct hold.2.1, fun _ => List.mem_of_getElem? hi⟩
  | @trimmed L' m srcI _ hct hL hm hf hloop =>
      obtain ⟨-, hsrc⟩ := ht.found_local hL hm hf
      have hiff : ToTrim s srcI i ↔ r.type = .htNormal ∧ OldDisconnected s i := by
        constructor
        · rintro ⟨-, h0, id', r', hi', hr', hn⟩
          rw [hi] at hi'
          cases hi'
          rw [hr] at hr'
          cases hr'
          exact ⟨hn, hct, srcI, hsrc.trans ht.isLocal.symm, h0⟩
        · rintro ⟨hn, -, srcI', hsrc', h0⟩
          obtain ⟨hlt, -⟩ := List.getElem?_eq_some_iff.mp hsrc
          obtain rfl : srcI = srcI' := (List.getElem?_inj hlt ht.nodup).mp (hsrc.trans (ht.isLocal.symm.trans hsrc'.symm))
          refine ⟨?_, h0, id, r, hi, hr, hn⟩
          rintro rfl
          -- local is not a normal host
          rw [hsrc] at hi
          cases hi
          rw [ht.localType r hr] at hn
          cases hn
      have htrimmed := (trimLoop_trimmed ht.hostsOk _ 0 hloop hd (by omega)).2 i id hi
      rw [htrimmed, ← hiff]
      exact not_congr ⟨And.right, fun h => ⟨Nat.zero_le i, h⟩⟩

/-- **The host table is the connected part of the graph if and only if the old matrices agree with the new
    links.** In every state of every run (whichever allocations fail), for every call of an operation that
    returns `0`: of the hosts that are in the table when the call reaches `update_cache`, in state `s1`,
    exactly local, the direct peers and those that local reaches in `s1` are still there in the end, if and
    only if among the normal hosts of `s1` those without a path in the matrices from before (if these fit the
    host list) are those that local does not reach. -/
theorem keepsConnected_iff {al : AllocScript} (h : Reach q env al s) {op : RtOp}
    (hphase : op.phase q env s = .ok (0, s1)) (hrun : op.run q env s = .ok (0, s')) :
    KeepsConnected s1 s' ↔ OldPathsAgree s1 := by
  obtain ⟨L, hg⟩ := h.guided
  obtain ⟨s1', s2, s3, hphase', htrim, hcomp, hexp⟩ := RtOp.run_zero hrun
  cases hphase.symm.trans hphase'
  obtain ⟨ht, -, -, -⟩ := updateCache_directAt htrim hcomp hexp (RtOp.phase_settled hphase hg.lagging.2)
  obtain ⟨hsame, -, ⟨hneg, -⟩ | ⟨-, ⟨hc⟩⟩⟩ := computePaths_cases hcomp
  · exact absurd hneg (by decide)
  have hhosts : s'.hosts.items = s2.hosts.items :=
    (updateExportedEdges_cases hexp).1.same.hosts.trans hsame.hosts
  -- who is in the table in the end
  have hmem : ∀ {i id r}, s1.hosts.items[i]? = some id → s1.recs.get id = some r →
      (id ∈ s'.hosts.items ↔ ¬ (r.type = .htNormal ∧ OldDisconnected s1 i)) := by
    intro i id r hi hr
    rw [hhosts]
    exact htrim.mem_iff ht hc.not_hasDead hi hr
  constructor
  · intro hkeeps i id r hi hr hn
    have h1 := hkeeps id (List.mem_of_getElem? hi) r hr
    rw [hmem hi hr] at h1
    have hlocal : s1.localHost ≠ some id := ht.localHost_ne hr (by rw [hn]; decide)
    have h2 : ¬ OldDisconnected s1 i ↔ Reaches s1 id := by simpa [hn, hlocal] using h1
    exact (not_iff_comm.mp h2).symm
  · intro hagree id hid r hr
    obtain ⟨i, hi⟩ := List.getElem?_of_mem hid
    rw [hmem hi hr]
    by_cases hn : r.type = .htNormal
    · have h1 := hagree i id r hi hr hn
      have hlocal : s1.localHost ≠ some id := ht.localHost_ne hr (by rw [hn]; decide)
      simp [hn, hlocal, h1]
    · -- who is not normal is local or direct, and stays
      refine ⟨fun _ => ?_, fun _ h => hn h.1⟩
      cases htype : r.type with
      | htLocal => exact Or.inl (ht.onlyLocal id hid r hr htype ▸ ht.isLocal)
      | htDirect => exact Or.inr (Or.inl rfl)
      | htNormal => exact absurd htype hn

/-- The records of the line when the rtt of local's link to host `1` was refreshed. -/
def refreshedRecs : CellHeap RtHost :=
  ⟨[some ⟨.env .lhost, .htLocal, 0, ⟨[⟨1, 20, 1000⟩], 8⟩⟩,
    some ⟨.env (.dp 0), .htDirect, 5, ⟨[⟨2, 10, 5⟩], 8⟩⟩,
    some ⟨.heap (lineHost 2), .htNormal, 0, ⟨[], 8⟩⟩]⟩

/-- The refresh, when it reaches `update_cache` and when it returns. -/
theorem lineOps_refreshed : ∃ s s1 s', Reach .insertion lineExt [] s ∧
    (RtOp.dhostAddLink 0 20 ⟨1, 0⟩).phase .insertion lineExt s = .ok (0, s1) ∧
    (RtOp.dhostAddLink 0 20 ⟨1, 0⟩).run .insertion lineExt s = .ok (0, s') ∧
    s1.hosts.items = [0, 1, 2] ∧ s1.localHost = some 0 ∧ s1.recs = refreshedRecs ∧ s'.hosts.items = [0, 1] := by
  have h : (do
      let s ← runFrom .insertion lineExt lineOps
      let a ← (RtOp.dhostAddLink 0 20 ⟨1, 0⟩).phase .insertion lineExt s
      pure (a.1, a.2.hosts.items, a.2.localHost, a.2.recs)) = Except.ok (0, [0, 1, 2], some 0, refreshedRecs) := by
    decide +kernel
  have h' : (do
      let s ← runFrom .insertion lineExt lineOps
      let a ← (RtOp.dhostAddLink 0 20 ⟨1, 0⟩).run .insertion lineExt s
      pure (a.1, a.2.hosts.items)) = Except.ok (0, [0, 1]) := by
    decide +kernel
  obtain ⟨s, hs, h⟩ := bind_eq_ok.mp h
  obtain ⟨⟨ret, s1⟩, hphase, h⟩ := bind_eq_ok.mp h
  obtain ⟨s0, hs0, h'⟩ := bind_eq_ok.mp h'
  cases hs.symm.trans hs0
  obtain ⟨⟨ret', s'⟩, hrun, h'⟩ := bind_eq_ok.mp h'
  simp only [pure_eq_ok, Except.ok.injEq, Prod.mk.injEq] at h h'
  obtain ⟨rfl, hitems, hlocal, hrecs⟩ := h
  obtain ⟨rfl, hitems'⟩ := h'
  exact ⟨s, s1, s', reach_runFrom hs, hphase, hrun, hitems, hlocal, hrecs, hitems'⟩

theorem keepsConnected_iff_line : ∃ s s1 s', Reach .insertion lineExt [] s ∧
    (RtOp.dhostAddLink 0 20 ⟨1, 0⟩).run .insertion lineExt s = .ok (0, s') ∧
    (KeepsConnected s1 s' ↔ OldPathsAgree s1) := by
  obtain ⟨s, s1, s', hs, hphase, hrun, -⟩ := lineOps_refreshed
  exact ⟨s, s1, s', hs, hrun, keepsConnected_iff hs hphase hrun⟩

/-- **A host two links away is dropped** by a mere refresh of local's first link. -/
theorem keepsConnected_line_dropped : ∃ s s1 s', Reach .insertion lineExt [] s ∧
    (RtOp.dhostAddLink 0 20 ⟨1, 0⟩).phase .insertion lineExt s = .ok (0, s1) ∧
    (RtOp.dhostAddLink 0 20 ⟨1, 0⟩).run .insertion lineExt s = .ok (0, s') ∧
    Reaches s1 2 ∧ 2 ∈ s1.hosts.items ∧ 2 ∉ s'.hosts.items ∧ ¬ KeepsConnected s1 s' := by
  obtain ⟨s, s1, s', hs, hphase, hrun, hitems, hlocal, hrecs, hitems'⟩ := lineOps_refreshed
  have h01 : LinkTo s1 0 1 := ⟨_, by rw [hrecs]; rfl, ⟨1, 20, 1000⟩, by simp, rfl, by decide⟩
  have h12 : LinkTo s1 1 2 := ⟨_, by rw [hrecs]; rfl, ⟨2, 10, 5⟩, by simp, rfl, by decide⟩
  have hreach : Reaches s1 2 := ⟨0, hlocal, .tail (.single h01) h12⟩
  have hmem : 2 ∈ s1.hosts.items := by simp [hitems]
  have hnot : 2 ∉ s'.hosts.items := by simp [hitems']
  refine ⟨s, s1, s', hs, hphase, hrun, hreach, hmem, hnot, fun hkeeps => hnot ?_⟩
  exact (hkeeps 2 hmem _ (by rw [hrecs]; rfl)).mpr (Or.inr (Or.inr hreach))

end Routing

end P2pVn
