import P2pVn.Routing.Computing
import P2pVn.Routing.Exporting
import P2pVn.Routing.Forward
import P2pVn.Routing.Trimming

/-!
# `Routing.Updating` — `update_cache`, the three operations as one kind of step, and their runs

`RtOp` names a call of one of the three operations with its arguments; `Started` is the state after
`rt_init` and `rt_lhost_add`. The script of allocation outcomes is fixed at the start and consumed on the way.
-/

namespace P2pVn
open CUb

namespace Routing

variable {env : ExtMem} {q : Qsort} {s s' : Routing} {L : HostId}

/-! ## `update_cache` -/

/-- What `trim_disjoint_hosts` does: nothing where the matrices do not fit, else the loop. -/
inductive TrimRun (env : ExtMem) (s : Routing) : Routing → Prop where
  | stale (h : s.mCt ≠ s.hosts.ct) : TrimRun env s s
  | trimmed {L m srcI s'} (h : s.mCt = s.hosts.ct) (hL : s.theLocal = .ok L) (hm : s.macOf env L = .ok m)
      (hf : s.findHostByAddr env m = .ok (some srcI))
      (hloop : trimLoop env srcI s.hosts.ct 0 s = .ok s') : TrimRun env s s'

theorem trimDisjointHosts_cases {ret : Int} (h : s.trimDisjointHosts env = .ok (ret, s')) :
    0 ≤ ret ∧ TrimRun env s s' := by
  unfold trimDisjointHosts at h
  obtain ⟨L', hL, h⟩ := bind_eq_ok.mp h
  obtain ⟨m, hm, h⟩ := bind_eq_ok.mp h
  obtain ⟨fs, hfs, h⟩ := bind_eq_ok.mp h
  split at h
  · rename_i hne
    cases h
    exact ⟨by decide, .stale hne⟩
  · rename_i heq
    cases fs with
    | none => cases h
    | some srcI =>
        obtain ⟨s1, h1, h⟩ := bind_eq_ok.mp h
        cases h
        exact ⟨by decide, .trimmed (Decidable.not_not.mp heq) hL hm hfs h1⟩

theorem TrimRun.frame (h : TrimRun env s s') : Frame s s' := by
  cases h with
  | stale _ => exact Frame.refl s
  | trimmed _ _ _ _ hloop => exact (trimLoop_frame _ _ hloop).1

/-- **Trim, compute, export, in this order**, until one of them fails. -/
theorem updateCache_cases {ret : Int} (h : s.updateCache env = .ok (ret, s')) :
    ∃ s1 r2 s2, TrimRun env s s1 ∧ s1.computePaths env = .ok (r2, s2) ∧
      ((r2 < 0 ∧ ret = r2 ∧ s' = s2) ∨
        (r2 = 0 ∧ ret ≤ 0 ∧ s2.updateExportedEdges env = .ok (ret, s'))) := by
  unfold updateCache at h
  obtain ⟨⟨r1, s1⟩, h1, h⟩ := bind_eq_ok.mp h
  obtain ⟨hr1, htrim⟩ := trimDisjointHosts_cases h1
  simp only [show ¬ r1 < 0 by omega, if_false] at h
  obtain ⟨⟨r2, s2⟩, h2, h⟩ := bind_eq_ok.mp h
  refine ⟨s1, r2, s2, htrim, h2, ?_⟩
  obtain ⟨-, -, ⟨hneg, -⟩ | ⟨rfl, -⟩⟩ := computePaths_cases h2
  · simp only [hneg, if_true] at h
    cases h
    exact Or.inl ⟨hneg, rfl, rfl⟩
  · simp only [Int.lt_irrefl, if_false] at h
    obtain ⟨⟨r3, s3⟩, h3, h⟩ := bind_eq_ok.mp h
    obtain ⟨-, rfl | ⟨rfl, -⟩⟩ := updateExportedEdges_cases h3
    · cases h
      exact Or.inr ⟨rfl, by simp, h3⟩
    · cases h
      exact Or.inr ⟨rfl, by simp, h3⟩

/-! ## The operations -/

/-- A call of one of the operations that change the table; a peer is named by where its address is kept. -/
inductive RtOp where
  | dhostAddLink (d : Nat) (rttUs : UInt32) (now : Timeval)
  | updateEdges (edges : List PktEdge)
  | dhostRemove (dmac : EtherAddr)

namespace RtOp

/-- The call. -/
def run (q : Qsort) (env : ExtMem) (s : Routing) : RtOp → Ub (Int × Routing)
  | dhostAddLink d rttUs now => s.rtDhostAddLink q env (.env (.dp d)) rttUs now
  | updateEdges edges => s.rtUpdateEdges q env edges
  | dhostRemove dmac => s.rtDhostRemove env dmac

/-- The part of it before `update_cache`. -/
def phase (q : Qsort) (env : ExtMem) (s : Routing) : RtOp → Ub (Int × Routing)
  | dhostAddLink d rttUs now => s.linkDhost q env (.env (.dp d)) rttUs now
  | updateEdges edges => s.mergeEdges q env edges
  | dhostRemove dmac => s.unlinkDhost env dmac

/-- What it returns when `update_cache` fails. -/
def cacheError : RtOp → Int
  | dhostAddLink _ _ _ => -5
  | updateEdges _ => -5
  | dhostRemove _ => -2

theorem cacheError_ne_zero (op : RtOp) : op.cacheError ≠ 0 := by cases op <;> simp [cacheError]

theorem run_eq (op : RtOp) : op.run q env s = (do
    let (ret, s) ← op.phase q env s
    if ret ≠ 0 then pure (ret, s)
    else
      let (ret, s) ← s.updateCache env
      if ret ≠ 0 then pure (op.cacheError, s) else pure (0, s)) := by
  cases op <;> rfl

/-- **An operation that returns** either gave up in its first phase, or went through `update_cache`. -/
theorem run_cases {op : RtOp} {ret : Int} (h : op.run q env s = .ok (ret, s')) :
    (ret ≠ 0 ∧ op.phase q env s = .ok (ret, s')) ∨
    ∃ s1 r, op.phase q env s = .ok (0, s1) ∧ s1.updateCache env = .ok (r, s') ∧
      ((r ≠ 0 ∧ ret = op.cacheError) ∨ (r = 0 ∧ ret = 0)) := by
  rw [run_eq] at h
  obtain ⟨⟨r1, s1⟩, h1, h⟩ := bind_eq_ok.mp h
  by_cases hr1 : r1 = 0
  · subst hr1
    simp only [ne_eq, not_true_eq_false, if_false] at h
    obtain ⟨⟨r2, s2⟩, h2, h⟩ := bind_eq_ok.mp h
    simp only at h
    split at h
    · rename_i hr2
      cases h
      exact Or.inr ⟨s1, r2, h1, h2, Or.inl ⟨hr2, rfl⟩⟩
    · rename_i hr2
      cases h
      exact Or.inr ⟨s1, r2, h1, h2, Or.inr ⟨Decidable.not_not.mp hr2, rfl⟩⟩
  · simp only [ne_eq, hr1, not_false_eq_true, if_true] at h
    cases h
    exact Or.inl ⟨hr1, h1⟩

/-- **An operation that returns `0`** went through all of it. -/
theorem run_zero {op : RtOp} (h : op.run q env s = .ok (0, s')) :
    ∃ s1 s2 s3, op.phase q env s = .ok (0, s1) ∧ TrimRun env s1 s2 ∧ s2.computePaths env = .ok (0, s3) ∧
      s3.updateExportedEdges env = .ok (0, s') := by
  rcases run_cases h with ⟨hne, -⟩ | ⟨s1, r, hphase, hcache, ⟨-, hret⟩ | ⟨rfl, -⟩⟩
  · exact absurd rfl hne
  · exact absurd hret.symm op.cacheError_ne_zero
  · obtain ⟨s2, r2, s3, htrim, hcomp, ⟨hneg, h0, -⟩ | ⟨rfl, -, hexp⟩⟩ := updateCache_cases hcache
    · omega
    · exact ⟨s1, s2, s3, hphase, htrim, hcomp, hexp⟩

/-- The first phase changes hosts and links only, and removes nothing. -/
theorem phase_frame {op : RtOp} {ret : Int} (h : op.phase q env s = .ok (ret, s')) :
    Frame s s' ∧ Grows s s' := by
  cases op with
  | dhostAddLink d rttUs now => exact (linkDhost_run h).frame
  | updateEdges edges => exact mergeEdges_frame h
  | dhostRemove dmac => exact (unlinkDhost_run h).frame

/-- **The first phase keeps the table sound.** -/
theorem phase_tableOk {op : RtOp} {ret : Int} (h : op.phase q env s = .ok (ret, s'))
    (ht : TableOk env s L) : TableOk env s' L := by
  cases op with
  | dhostAddLink d rttUs now => exact ((linkDhost_run h).phase ht).tableOk ht
  | updateEdges edges => exact (mergeEdges_tableOk h ht).1
  | dhostRemove dmac => exact ((unlinkDhost_run h).phase ht).tableOk ht

/-- **It keeps the links sound, up to parallel ones.** -/
theorem phase_linksOk {op : RtOp} {ret : Int} (h : op.phase q env s = .ok (ret, s'))
    (ht : TableOk env s L) (hl : LinksOk (fun a b => (memcmp a b).isLE) env s) :
    LinksOk (fun a b => (memcmp a b).isLE) env s' := by
  cases op with
  | dhostAddLink d rttUs now => exact ((linkDhost_run h).phase ht).linksOk (fun _ _ hlt => hlt.isLE) ht hl
  | updateEdges edges => exact mergeEdges_linksOk h ht hl
  | dhostRemove dmac => exact ((unlinkDhost_run h).phase ht).linksOk ht hl

end RtOp

/-! ## Runs -/

/-- The state after a successful `rt_init` and `rt_lhost_add`. -/
def Started (q : Qsort) (env : ExtMem) (al : AllocScript) (s : Routing) : Prop :=
  ∃ s0, rtInit al = (0, s0) ∧ s0.rtLhostAdd q env (.env .lhost) = .ok (0, s)

/-- The states reached by calls of the operations and of `rt_dhosts_to_host` (which may compute the
    matrices), whatever the arguments. -/
inductive Reach (q : Qsort) (env : ExtMem) (al : AllocScript) : Routing → Prop where
  | start {s1 : Routing} (h : Started q env al s1) : Reach q env al s1
  | op {s1 s2 : Routing} {o : RtOp} {ret : Int} (h : Reach q env al s1)
      (hrun : o.run q env s1 = .ok (ret, s2)) : Reach q env al s2
  | forward {s1 s2 : Routing} {srcMac dstMac : EtherAddr} {f : Forwards} (h : Reach q env al s1)
      (hrun : s1.rtDhostsToHost env srcMac dstMac = .ok (f, s2)) : Reach q env al s2

/-- The calls of a list, one after the other, whatever they return. -/
def runOps (q : Qsort) (env : ExtMem) : List RtOp → Routing → Ub Routing
  | [], s => pure s
  | o :: os, s => do
    let (_, s) ← o.run q env s
    runOps q env os s

theorem Reach.runOps {al : AllocScript} : ∀ (os : List RtOp) {s s' : Routing}, Reach q env al s →
    runOps q env os s = .ok s' → Reach q env al s' := by
  intro os
  induction os with
  | nil =>
      intro s s' h hrun
      cases hrun
      exact h
  | cons o os ih =>
      intro s s' h hrun
      obtain ⟨⟨ret, s1⟩, h1, hrun⟩ := bind_eq_ok.mp hrun
      exact ih (h.op h1) hrun

/-- `rt_init`, `rt_lhost_add`, and then the calls of a list, without allocation failures. -/
def runFrom (q : Qsort) (env : ExtMem) (os : List RtOp) : Ub Routing := do
  let (ret, s) ← (rtInit []).2.rtLhostAdd q env (.env .lhost)
  if ret ≠ 0 then .error .uninitialised else runOps q env os s

theorem reach_runFrom {os : List RtOp} (h : runFrom q env os = .ok s) : Reach q env [] s := by
  obtain ⟨⟨ret, s1⟩, h1, h⟩ := bind_eq_ok.mp h
  by_cases hret : ret = 0
  · subst hret
    simp only [ne_eq, not_true_eq_false, if_false] at h
    exact Reach.runOps os (.start ⟨_, rfl, h1⟩) h
  · simp only [ne_eq, hret, not_false_eq_true, if_true] at h
    cases h

end Routing

end P2pVn
