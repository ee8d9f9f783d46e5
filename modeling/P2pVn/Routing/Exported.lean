import P2pVn.Routing.Network

/-!
# `Routing.Exported` — the exported edges and the current graph

`graphEdges` is what the array should hold after an update: one entry for each link whose destination is not
shown as disconnected. What one update appends is `exports`, which looks at the column with the position of
the link, and it is appended to what earlier updates left there.

- `exports_eq_graphEdges`: where the columns agree, an update appends exactly the current graph.
- `edges_exact`: so after any run, an update that starts from an empty array leaves exactly the current graph.
-/

namespace P2pVn
open CUb

namespace Routing

variable {env : ExtMem} {q : Qsort} {s s' : Routing} {L : HostId}

/-! ## The current graph -/

/-- The entry for a link of the host at position `i`, if its destination is not disconnected. -/
def graphLink (env : ExtMem) (s : Routing) (i : Nat) (src : Ipv4Host) (l : RtLink) : List PktEdge :=
  if s.pathVal i (s.hosts.items.idxOf l.dst) = pathDiscon then []
  else match s.addr? env l.dst with
    | some dst => [packEdge src dst l.rttUs l.tsMs]
    | none => []

/-- The entries for the links of host `id` at position `i`. -/
def graphHost (env : ExtMem) (s : Routing) (i : Nat) (id : HostId) : List PktEdge :=
  match s.recs.get id, s.addr? env id with
  | some h, some src => h.links.items.flatMap (graphLink env s i src)
  | _, _ => []

/-- One entry for each host of the table and each link of it whose destination is not disconnected. -/
def graphEdges (env : ExtMem) (s : Routing) : List PktEdge :=
  s.hosts.items.zipIdx.flatMap fun p => graphHost env s p.2 p.1

/-- The exported edges are the current graph, and the look-ups by position were inside the matrix. -/
structure EdgesExact (env : ExtMem) (s : Routing) : Prop where
  perm : s.rtGetEdges.2.Perm (graphEdges env s)
  inside : ∀ i j, j < (s.linksAt i).length → i < s.mCt ∧ j < s.mCt

/-! ## Columns by position and by destination -/

/-- The position of a link in its host's list is a column of the matrix that is set up exactly if the column
    of its destination is. -/
def ColumnsFit (s : Routing) : Prop :=
  ∀ i j l, (s.linksAt i)[j]? = some l → j < s.hosts.ct ∧
    (s.startAt i j = 0 ↔ s.startAt i (s.hosts.items.idxOf l.dst) = 0)

theorem Routed.pathVal_eq_zero (hr : Routed s) {i j : Nat} (hi : i < s.hosts.ct) (hj : j < s.hosts.ct) :
    s.pathVal i j = 0 ↔ s.startAt i j = 0 := by
  rw [entry_eq_ok (hr.path i j hi hj)]
  exact not_iff_not.mp (cells_ne_zero s.hosts.ct i j)

theorem exportList_eq {i : Nat} {src : Ipv4Host} : ∀ (ls : List RtLink) (j : Nat),
    (∀ j' l, ls[j']? = some l →
      (s.pathVal i (j + j') = 0 ↔ s.pathVal i (s.hosts.items.idxOf l.dst) = 0)) →
    exportList env s i src j ls = ls.flatMap (graphLink env s i src) := by
  intro ls
  induction ls with
  | nil => exact fun _ _ => rfl
  | cons l ls ih =>
      intro j h
      have h0 := h 0 l rfl
      rw [Nat.add_zero] at h0
      have hone : exportOne env s i src j l = graphLink env s i src l := by
        unfold exportOne graphLink pathDiscon
        by_cases hz : s.pathVal i (s.hosts.items.idxOf l.dst) = 0
        · rw [if_pos (h0.mpr hz), if_pos hz]
        · exact (if_neg (mt h0.mp hz)).trans (if_neg hz).symm
      have hrest := ih (j + 1) fun j' l' hl' => by
        rw [show j + 1 + j' = j + (j' + 1) by omega]
        exact h (j' + 1) l' hl'
      rw [exportList, hone, hrest, List.flatMap_cons]

theorem exportsFrom_eq : ∀ (ids : List HostId) (i : Nat),
    (∀ i' id r, ids[i']? = some id → s.recs.get id = some r → ∀ j l, r.links.items[j]? = some l →
      (s.pathVal (i + i') j = 0 ↔ s.pathVal (i + i') (s.hosts.items.idxOf l.dst) = 0)) →
    exportsFrom env s i ids = (ids.zipIdx i).flatMap fun p => graphHost env s p.2 p.1 := by
  intro ids
  induction ids with
  | nil => exact fun _ _ => rfl
  | cons id ids ih =>
      intro i h
      have hrest := ih (i + 1) fun i' id' r hi' => by
        rw [show i + 1 + i' = i + (i' + 1) by omega]
        exact h (i' + 1) id' r hi'
      rw [exportsFrom, hrest, List.zipIdx_cons, List.flatMap_cons]
      congr 1
      unfold graphHost
      cases hg : s.recs.get id with
      | none => rfl
      | some r =>
          cases s.addr? env id with
          | none => rfl
          | some src =>
              refine exportList_eq _ 0 fun j l hl => ?_
              rw [Nat.zero_add]
              exact h 0 id r rfl hg j l hl

/-- **Where the columns agree, an update exports exactly the current graph.** -/
theorem exports_eq_graphEdges (hg : GraphOk env s) (hr : Routed s) (hc : ColumnsFit s) :
    exports env s = graphEdges env s := by
  refine exportsFrom_eq _ 0 fun i id r hi hget j l hl => ?_
  rw [Nat.zero_add]
  have hlink : (s.linksAt i)[j]? = some l := by rw [linksAt_eq hi hget]; exact hl
  obtain ⟨hj, hiff⟩ := hc i j l hlink
  have hi' : i < s.hosts.ct := (List.getElem?_eq_some_iff.mp hi).1
  -- the destination is a record of the table, so it has an index
  obtain ⟨d, -, hd⟩ := hg.dst i l (List.mem_of_getElem? hlink)
  have hidx : s.hosts.items.idxOf l.dst < s.hosts.ct := List.idxOf_lt_length_of_mem (List.mem_of_getElem? hd)
  rw [hr.pathVal_eq_zero hi' hj, hr.pathVal_eq_zero hi' hidx, hiff]

/-- On a sound table, with a column for every link, all that the loops read is there. -/
theorem GraphOk.exportable (hg : GraphOk env s) (hr : Routed s)
    (hcol : ∀ i j, j < (s.linksAt i).length → j < s.hosts.ct) {i : Nat} {id : HostId}
    (hi : s.hosts.items[i]? = some id) : Exportable env s i id := by
  have haddr : ∀ j ∈ s.hosts.items, ∃ ip, s.addr? env j = some ip := by
    intro j hj
    obtain ⟨m, (hm : s.mac? env j = some m)⟩ := hg.live j hj
    obtain ⟨r, ip, hr', hip, -⟩ := get_of_mac? hm
    exact ⟨ip, addr?_of_get hr' hip⟩
  refine ⟨haddr id (List.mem_of_getElem? hi), fun r hget l hl => ?_, fun r hget j hj => ?_⟩
  · obtain ⟨d, -, hd⟩ := hg.dst i l (by rw [linksAt_eq hi hget]; exact hl)
    exact haddr l.dst (List.mem_of_getElem? hd)
  · have hj' := hcol i j (by rw [linksAt_eq hi hget]; exact hj)
    exact ⟨_, hr.path i j (List.getElem?_eq_some_iff.mp hi).1 hj'⟩

/-! ## Runs -/

/-- `s2` is the state in which `update_exported_edges` is entered when `o` is called in `s`. -/
def EntersExport (q : Qsort) (env : ExtMem) (s : Routing) (o : RtOp) (s2 : Routing) : Prop :=
  ∃ s0 s1, o.phase q env s = .ok (0, s0) ∧ TrimRun env s0 s1 ∧ s1.computePaths env = .ok (0, s2)

/-- The array is empty and the columns agree. -/
def ExportsCleanly (s : Routing) : Prop := s.edges.items = [] ∧ ColumnsFit s

theorem ColumnsFit.same (h : ColumnsFit s) (hs : Same s s') : ColumnsFit s' := by
  intro i j l hl
  rw [hs.linksAt] at hl
  rw [hs.ct, hs.startAt, hs.hosts]
  exact h i j l hl

/-- An operation that returned `0` went through `update_exported_edges`. -/
theorem RtOp.enters {o : RtOp} (h : o.run q env s = .ok (0, s')) :
    ∃ s2, EntersExport q env s o s2 ∧ s2.updateExportedEdges env = .ok (0, s') := by
  rcases RtOp.run_cases h with ⟨hne, -⟩ | ⟨s0, r, hp, hc, ⟨-, he⟩ | ⟨rfl, -⟩⟩
  · exact absurd rfl hne
  · exact absurd he.symm o.cacheError_ne_zero
  · obtain ⟨s1, r2, s2, htrim, hcomp, ⟨hneg, he, -⟩ | ⟨rfl, -, hexp⟩⟩ := updateCache_cases hc
    · exact absurd (he ▸ hneg) (Int.lt_irrefl 0)
    · exact ⟨s2, ⟨s0, s1, hp, htrim, hcomp⟩, hexp⟩

/-- The state in which `update_exported_edges` is entered is sound, with the matrices of its graph. -/
theorem EntersExport.sound {o : RtOp} {s2 : Routing} (h : EntersExport q env s o s2) (hs : Sound env s L) :
    s2.allocs = [] ∧ TableOk env s2 L ∧ GraphOk env s2 ∧ Routed s2 := by
  obtain ⟨s0, s1, hp, htrim, hcomp⟩ := h
  have ht0 := RtOp.phase_tableOk hp hs.table
  have hl0 := RtOp.phase_linksOk hp hs.table hs.links
  obtain ⟨hal0, -⟩ := RtOp.phase_sound hp hs
  obtain ⟨-, hal1, hout⟩ := htrim.cases (R := fun a b => (memcmp a b).isLE) ht0
  obtain ⟨-, hal2⟩ := computePaths_nofail hcomp (hal1.trans hal0)
  obtain ⟨hsame, -, ⟨hneg, -⟩ | ⟨-, ⟨hc⟩⟩⟩ := computePaths_cases hcomp
  · exact absurd hneg (by decide)
  obtain ⟨ht1, -, hl1⟩ := hout.resolve_left hc.not_hasDead
  have hg1 := ht1.graphOk (hc.linksOk (hl1 hl0.orDead))
  exact ⟨hal2, ht1.same hsame, (ht1.same hsame).graphOk ((hc.linksOk (hl1 hl0.orDead)).same hsame),
    hc.routed hsame hg1⟩

/-- **After any run, an update that starts from an empty array, with agreeing columns, exports exactly the
    current graph**, and looks up nothing outside the matrix. -/
theorem edges_exact (h : Reach q env [] s) (o : RtOp)
    (hclean : ∀ s2, EntersExport q env s o s2 → ExportsCleanly s2) :
    (∀ s2, EntersExport q env s o s2 → ∃ s3, s2.updateExportedEdges env = .ok (0, s3)) ∧
      ∀ s', o.run q env s = .ok (0, s') → EdgesExact env s' := by
  obtain ⟨L, hs⟩ := h.sound
  constructor
  · intro s2 hs2
    obtain ⟨hal, ht, hg, hr⟩ := hs2.sound hs
    obtain ⟨-, hcols⟩ := hclean s2 hs2
    obtain ⟨s3, h3, -⟩ := updateExportedEdges_ok hal fun i id hi =>
      hg.exportable hr (fun i j hj => (hcols i j _ (List.getElem?_eq_getElem hj)).1) hi
    exact ⟨s3, h3⟩
  · intro s' hrun
    obtain ⟨s2, hs2, hexp⟩ := RtOp.enters hrun
    obtain ⟨hal, ht, hg, hr⟩ := hs2.sound hs
    obtain ⟨hempty, hcols⟩ := hclean s2 hs2
    obtain ⟨he, hret | ⟨-, hitems⟩⟩ := updateExportedEdges_cases hexp
    · exact absurd hret (by decide)
    have hr' : Routed s' := hr.same he.same he.mCt he.path he.next
    have hcols' := hcols.same he.same
    obtain ⟨hs', -⟩ := RtOp.sound hrun hs
    refine ⟨?_, fun i j hj => ?_⟩
    · show s'.edges.items.Perm _
      rw [hitems, hempty, List.nil_append, ← he.exports, exports_eq_graphEdges hs'.graphOk hr' hcols']
    · have hl : (s'.linksAt i)[j]? = some _ := List.getElem?_eq_getElem hj
      obtain ⟨id, _, hi, -, -⟩ := mem_linksAt (List.mem_of_getElem? hl)
      -- a link that is looked up is one of a host of the table
      rw [hr'.mCt]
      exact ⟨(List.getElem?_eq_some_iff.mp hi).1, (hcols' i j _ hl).1⟩

/-- The condition can be checked link by link. -/
theorem columnsFit_of_checked (h : ∀ i ∈ List.range s.hosts.ct, ∀ x ∈ (s.linksAt i).zipIdx, x.2 < s.hosts.ct ∧
    (s.startAt i x.2 = 0 ↔ s.startAt i (s.hosts.items.idxOf x.1.dst) = 0)) : ColumnsFit s := by
  intro i j l hl
  obtain ⟨id, _, hi, -, -⟩ := mem_linksAt (List.mem_of_getElem? hl)
  exact h i (List.mem_range.mpr (List.getElem?_eq_some_iff.mp hi).1) (l, j) (List.mem_zipIdx_iff_getElem?.mpr hl)

/-- Four links, between host `0`, which has told of none yet, and two others. -/
def firstEdges : List PktEdge :=
  [packEdge (lineHost 1) (lineHost 0) 10 5, packEdge (lineHost 1) (lineHost 2) 20 5,
    packEdge (lineHost 2) (lineHost 0) 30 6, packEdge (lineHost 2) (lineHost 1) 40 6]

/-- The first link states that host `0` gets are exported cleanly. -/
theorem edges_exact_first : ∃ s s', Reach .insertion lineExt [] s ∧
    (RtOp.updateEdges firstEdges).run .insertion lineExt s = .ok (0, s') ∧ s'.rtGetEdges.2 = firstEdges ∧
      EdgesExact lineExt s' := by
  have hrun : (do
      let s ← runFrom .insertion lineExt []
      let a ← (RtOp.updateEdges firstEdges).phase .insertion lineExt s
      let b ← a.2.computePaths lineExt
      let c ← (RtOp.updateEdges firstEdges).run .insertion lineExt s
      pure (a.1, b.1, c.1, decide (a.2.mCt ≠ a.2.hosts.ct ∧ b.2.edges.items = [] ∧ c.2.rtGetEdges.2 = firstEdges),
        decide (∀ i ∈ List.range a.2.hosts.ct, ∀ x ∈ (a.2.linksAt i).zipIdx, x.2 < a.2.hosts.ct ∧
          (a.2.startAt i x.2 = 0 ↔ a.2.startAt i (a.2.hosts.items.idxOf x.1.dst) = 0)))) = Except.ok
        ((0 : Int), (0 : Int), (0 : Int), true, true) := by
    decide +kernel
  obtain ⟨s, hs, hrun⟩ := bind_eq_ok.mp hrun
  obtain ⟨⟨r0, s0⟩, hphase, hrun⟩ := bind_eq_ok.mp hrun
  obtain ⟨⟨r2, s2⟩, hcomp, hrun⟩ := bind_eq_ok.mp hrun
  obtain ⟨⟨r, s'⟩, hop, hrun⟩ := bind_eq_ok.mp hrun
  simp only [pure_eq_ok, Except.ok.injEq, Prod.mk.injEq, decide_eq_true_eq] at hrun
  obtain ⟨rfl, rfl, rfl, ⟨hstale, hedges, hexported⟩, hchecked⟩ := hrun
  refine ⟨s, s', reach_runFrom hs, hop, hexported, (edges_exact (reach_runFrom hs) _ ?_).2 s' hop⟩
  rintro s2_ ⟨s0_, s1, hphase_, htrim, hcomp_⟩
  cases hphase.symm.trans hphase_
  -- the matrices are stale, so nothing is trimmed
  have hs1 : s1 = s0 := by
    cases htrim with
    | stale _ => rfl
    | trimmed he _ _ _ _ => exact absurd he hstale
  rw [hs1] at hcomp_
  cases hcomp.symm.trans hcomp_
  exact ⟨hedges, (columnsFit_of_checked hchecked).same (computePaths_cases hcomp).1⟩

/-- **A second update leaves the edges of the first one in the array**: two entries for the one link. -/
theorem edges_twice : ∃ s, runFrom .insertion lineExt [.dhostAddLink 0 10 ⟨0, 0⟩, .dhostAddLink 0 20 ⟨1, 0⟩] = .ok s ∧
    s.rtGetEdges.2 = [packEdge (lineHost 0) (lineHost 1) 10 0, packEdge (lineHost 0) (lineHost 1) 20 1000] ∧
    graphEdges lineExt s = [packEdge (lineHost 0) (lineHost 1) 20 1000] ∧ ¬ EdgesExact lineExt s := by
  have hrun : (do
      let s ← runFrom .insertion lineExt [.dhostAddLink 0 10 ⟨0, 0⟩, .dhostAddLink 0 20 ⟨1, 0⟩]
      pure (s.rtGetEdges.2, graphEdges lineExt s)) = Except.ok
        ([packEdge (lineHost 0) (lineHost 1) 10 0, packEdge (lineHost 0) (lineHost 1) 20 1000],
          [packEdge (lineHost 0) (lineHost 1) 20 1000]) := by
    decide +kernel
  obtain ⟨s, hs, hrun⟩ := bind_eq_ok.mp hrun
  simp only [pure_eq_ok, Except.ok.injEq, Prod.mk.injEq] at hrun
  refine ⟨s, hs, hrun.1, hrun.2, fun h => ?_⟩
  have hlen := h.perm.length_eq
  rw [hrun.1, hrun.2] at hlen
  cases hlen

end Routing

end P2pVn
