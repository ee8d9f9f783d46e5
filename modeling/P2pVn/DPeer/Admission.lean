import P2pVn.DPeer.Handshake
import P2pVn.Routing.Provenance

/-!
# `DPeer.Admission` — how long a node can be joined

`rd->edges` only grows: every operation appends what it exports, and nothing takes an edge away. All of it is the
link state that answers a join, so a node that has exported too much turns away everybody that connects to it.

- **Step lemma.** `RtOp.edges_append`, whichever allocations fail.
- **Run lemma.** `Later.edges`: the edges grow by one at least with each operation that exports something.
- `lockedOut`: with `1821` such operations, the node cannot be joined any more, up to the point where the 16-bit
  count starts again.
-/

namespace P2pVn
open CUb Dialogue

namespace Routing

variable {env : ExtMem} {q : Qsort} {s s' s1 : Routing}

/-! ## The exported edges only grow -/

/-- The edges of `s`, and possibly more. -/
def EdgesKept (s s' : Routing) : Prop := s.edges.items <+: s'.edges.items

theorem exportLinks_kept {i : Nat} {src : Ipv4Host} : ∀ (ls : List RtLink) (j : Nat) {s s' : Routing} {ret : Int},
    exportLinks env i src j ls s = .ok (ret, s') → EdgesKept s s' := by
  intro ls
  induction ls with
  | nil =>
      intro j s s' ret h
      cases h
      exact List.prefix_refl _
  | cons l ls ih =>
      intro j s s' ret h
      unfold exportLinks at h
      obtain ⟨p, -, h⟩ := bind_eq_ok.mp h
      split at h
      · exact ih (j + 1) h
      · obtain ⟨dr, -, h⟩ := bind_eq_ok.mp h
        obtain ⟨dst, -, h⟩ := bind_eq_ok.mp h
        obtain ⟨al', ⟨d', hadd, hitems⟩ | hfail⟩ := s.edges.addToEnd_cases (packEdge src dst l.rttUs l.tsMs) s.allocs
        · simp only [hadd, Bool.false_eq_true, if_false] at h
          have hrest : d'.items <+: s'.edges.items := ih (j + 1) h
          rw [hitems] at hrest
          exact (List.prefix_append _ _).trans hrest
        · simp only [hfail, if_true] at h
          cases h
          exact List.prefix_refl _

theorem exportHosts_kept : ∀ (ids : List HostId) (i : Nat) {s s' : Routing} {ret : Int},
    exportHosts env i ids s = .ok (ret, s') → EdgesKept s s' := by
  intro ids
  induction ids with
  | nil =>
      intro i s s' ret h
      cases h
      exact List.prefix_refl _
  | cons id ids ih =>
      intro i s s' ret h
      unfold exportHosts at h
      obtain ⟨r, -, h⟩ := bind_eq_ok.mp h
      obtain ⟨src, -, h⟩ := bind_eq_ok.mp h
      obtain ⟨⟨r1, s1⟩, h1, h⟩ := bind_eq_ok.mp h
      have hkept := exportLinks_kept _ _ h1
      simp only at h
      split at h
      · cases h
        exact hkept
      · exact List.IsPrefix.trans hkept (ih (i + 1) h)

/-- **Step lemma.** Whichever allocations fail, an operation appends to the edges; if it returns `0`, then what there
    is to export. -/
theorem RtOp.edges_append {op : RtOp} {ret : Int} (h : op.run q env s = .ok (ret, s')) :
    ∃ more, s'.edges.items = s.edges.items ++ more ∧ (ret = 0 → more = exports env s') := by
  by_cases hret : ret = 0
  · subst hret
    obtain ⟨s1, s2, s3, hphase, htrim, hcomp, hexp⟩ := RtOp.run_zero h
    obtain ⟨he, hneg | ⟨-, hitems⟩⟩ := updateExportedEdges_cases hexp
    · exact absurd hneg (by decide)
    · refine ⟨exports env s', ?_, fun _ => rfl⟩
      rw [hitems, he.exports, (computePaths_cases hcomp).2.1, htrim.frame.edges, (RtOp.phase_frame hphase).1.edges]
  · have hkept : EdgesKept s s' := by
      rcases RtOp.run_cases h with ⟨-, hphase⟩ | ⟨s1, r, hphase, hcache, -⟩
      · unfold EdgesKept
        rw [(RtOp.phase_frame hphase).1.edges]
      · obtain ⟨s2, r2, s3, htrim, hcomp, hexp⟩ := updateCache_cases hcache
        have h3 : s3.edges = s.edges := by
          rw [(computePaths_cases hcomp).2.1, htrim.frame.edges, (RtOp.phase_frame hphase).1.edges]
        unfold EdgesKept
        rw [← h3]
        rcases hexp with ⟨-, -, rfl⟩ | ⟨-, -, hexp⟩
        · exact List.prefix_refl _
        · exact exportHosts_kept _ _ hexp
    obtain ⟨more, hmore⟩ := hkept
    exact ⟨more, hmore.symm, fun h0 => absurd h0 hret⟩

/-- A lookup leaves the edges. -/
theorem forward_edges {srcMac dstMac : EtherAddr} {f : Forwards}
    (h : s.rtDhostsToHost env srcMac dstMac = .ok (f, s')) : s'.edges = s.edges := by
  have hfit : ∀ {s1}, Fits env s s1 → s1.edges = s.edges := by
    rintro s1 (⟨-, rfl⟩ | ⟨-, hcomp⟩)
    · rfl
    · exact (computePaths_cases hcomp).2.1
  cases rtDhostsToHost_run h with
  | stale _ hcomp _ => exact (computePaths_cases hcomp).2.1
  | noLocal hf => exact hfit hf
  | looked hf _ _ _ hbranch =>
      have hedges := hfit hf
      obtain ⟨al, rfl, -⟩ := branch_cases hbranch
      exact hedges

/-! ## Runs -/

/-- `s'` is reached from `s`, and `n` of the operations on the way have returned `0` and exported something. -/
inductive Later (q : Qsort) (env : ExtMem) : Nat → Routing → Routing → Prop
  | refl {s : Routing} : Later q env 0 s s
  | op {n : Nat} {s s1 s2 : Routing} {o : RtOp} {ret : Int} (h : Later q env n s s1)
      (hrun : o.run q env s1 = .ok (ret, s2)) :
      Later q env (if ret = 0 ∧ exports env s2 ≠ [] then n + 1 else n) s s2
  | forward {n : Nat} {s s1 s2 : Routing} {srcMac dstMac : EtherAddr} {f : Forwards} (h : Later q env n s s1)
      (hrun : s1.rtDhostsToHost env srcMac dstMac = .ok (f, s2)) : Later q env n s s2

/-- **Run lemma. The exported edges only grow**, by one at least with each operation that exports something. -/
theorem Later.edges {n : Nat} (h : Later q env n s s') :
    ∃ more, s'.edges.items = s.edges.items ++ more ∧ n ≤ more.length := by
  induction h with
  | refl => exact ⟨[], (List.append_nil _).symm, Nat.le_refl 0⟩
  | @op n s s1 s2 o ret _ hrun ih =>
      obtain ⟨more, hs1, hn⟩ := ih
      obtain ⟨new, hs2, hnew⟩ := RtOp.edges_append hrun
      refine ⟨more ++ new, by rw [hs2, hs1, List.append_assoc], ?_⟩
      rw [List.length_append]
      split
      · rename_i hcount
        have hpos := List.length_pos_of_ne_nil hcount.2
        rw [← hnew hcount.1] at hpos
        omega
      · omega
  | forward _ hrun ih =>
      obtain ⟨more, hs1, hn⟩ := ih
      exact ⟨more, by rw [forward_edges hrun, hs1], hn⟩

end Routing

/-! ## Nobody gets in -/

/-- **A node that has exported too much turns away everybody.** Of a run from any state, whichever allocations fail: if
    the edges that were there and the operations that have exported something are more than `1820` together, and
    fewer than `65536` edges are there now, then in every run of every handshake with this node, the node that
    connects does not get to its main loop. -/
theorem lockedOut {q : Qsort} {env : ExtMem} {n : Nat} {s s' : Routing} (h : Routing.Later q env n s s')
    (hn : 1820 < s.edges.items.length + n) (hct : s'.edges.items.length < 2 ^ 16) {a b : End}
    (ha : a.entry ≠ .incoming) (hb : b.entry = .incoming) (hedges : b.edges = s'.rtGetEdges.2) {m : Nat}
    {t : Pair UInt8 Outcome} (hrun : Steps (Step Outcome.hangsUp) m (meeting a b) t) (c : Conn) :
    t.here ≠ .done (.entered c) := by
  obtain ⟨more, hmore, hlen⟩ := h.edges
  have hct' : namedCt b.edges = s'.edges.items.length := by
    rw [hedges]
    exact Nat.mod_eq_of_lt hct
  intro hentered
  obtain ⟨oa, ob, x, y, ⟨n, hn⟩, hends⟩ := handshake_runs ha hb
  obtain ⟨k, -, hk⟩ := settles hn hrun
  -- who has entered has entered at the end
  have hoa : (⟨.done oa, .done ob, x, y⟩ : Pair UInt8 Outcome).here = .done (.entered c) := here_stays hk hentered
  cases hoa
  obtain ⟨-, hfew, -⟩ := hends.here.mp ⟨c, rfl⟩
  rw [hct', hmore, List.length_append] at hfew
  omega

/-- As many edges as a link state has room for. -/
def fullEdges : Da PktEdge :=
  ⟨List.replicate 1820 (Routing.packEdge (Routing.lineHost 0) (Routing.lineHost 1) 10 0), 2048⟩

/-- Host `0` of the line measures the link to its peer once more, with that many edges exported before: host `2`
    does not get in. -/
theorem lockedOut_line : ∃ s s', Routing.Later .insertion Routing.lineExt 1 s s' ∧ s.edges = fullEdges ∧
    ∀ m t, Steps (Step Outcome.hangsUp) m
        (meeting (lineEnd .initial 2) { lineEnd .incoming 0 with edges := s'.rtGetEdges.2 }) t →
      ∀ c, t.here ≠ .done (.entered c) := by
  have hrun : (do
      let s ← Routing.runFrom .insertion Routing.lineExt [.dhostAddLink 0 10 ⟨0, 0⟩]
      let a ← (Routing.RtOp.dhostAddLink 0 10 ⟨1, 0⟩).run .insertion Routing.lineExt { s with edges := fullEdges }
      pure (a.1, a.2.edges.items.length, (Routing.exports Routing.lineExt a.2).length)) = Except.ok (0, 1821, 1) := by
    decide +kernel
  obtain ⟨s, -, hrun⟩ := bind_eq_ok.mp hrun
  obtain ⟨⟨ret, s'⟩, hop, hrun⟩ := bind_eq_ok.mp hrun
  simp only [pure_eq_ok, Except.ok.injEq, Prod.mk.injEq] at hrun
  obtain ⟨rfl, hct, hexports⟩ := hrun
  have hne : Routing.exports Routing.lineExt s' ≠ [] := by
    intro hnil
    rw [hnil] at hexports
    cases hexports
  have hlater := Routing.Later.op .refl hop
  rw [if_pos ⟨rfl, hne⟩] at hlater
  refine ⟨_, s', hlater, rfl, fun m t hsteps c => ?_⟩
  refine lockedOut hlater ?_ ?_ (by decide) rfl rfl hsteps c
  · show 1820 < (List.replicate 1820 _).length + 1
    rw [List.length_replicate]
    decide
  · rw [hct]
    decide

end P2pVn
