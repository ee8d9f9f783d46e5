import P2pVn.Routing.Updating

/-!
# `Routing.Running` — runs without allocation failures

`Sound` holds of every state that a run without allocation failures reaches, whatever the arguments of the
calls: the table is sound, its links lead to other hosts of the table (in order, possibly several to one
destination), and the matrices are absent or those of the current link graph (`Routed`).

- **Step lemmas.** `RtOp.sound`, `forward_sound`.
- **Run lemma.** `Reach.sound`.

A lookup changes the state too: it computes the matrices where `m_ct` is not the number of hosts (`Fits`). What
it does after that only reads the table and uses up outcomes of the allocations (`AllocsOnly`), so its exits are
listed once (`MulticastRun`, `UnicastRun`, `ForwardRun`) and every later module that asks what a lookup returned
goes through these lists, whichever allocations fail.
-/

namespace P2pVn
open CUb

namespace Routing

variable {env : ExtMem} {q : Qsort} {s s' : Routing} {L : HostId}

/-! ## The graph of a sound table -/

/-- The links of a sound table lead to hosts of the table, so the graph on its positions is well defined. -/
theorem HostsOk.graphOk {R : EtherAddr → EtherAddr → Prop} (hh : HostsOk env s) (hl : LinksOk R env s) :
    GraphOk env s where
  toHostsOk := hh
  dst i l hlm := by
    obtain ⟨id, h, hi, hg, hlm⟩ := mem_linksAt hlm
    obtain ⟨hmem, hne⟩ := hl.dst id (List.mem_of_getElem? hi) h hg l hlm
    obtain ⟨j, hj⟩ := List.getElem?_of_mem hmem
    refine ⟨j, ?_, hj⟩
    rintro rfl
    rw [hi] at hj
    exact hne (Option.some.inj hj).symm

theorem TableOk.graphOk {R : EtherAddr → EtherAddr → Prop} (ht : TableOk env s L) (hl : LinksOk R env s) :
    GraphOk env s := ht.hostsOk.graphOk hl

namespace Same

variable (h : Same s s')
include h

theorem ct : s'.hosts.ct = s.hosts.ct := by rw [Da.ct, h.hosts, Da.ct]

theorem linksAt (i : Nat) : s'.linksAt i = s.linksAt i := by
  unfold Routing.linksAt
  rw [h.hosts]
  cases s.hosts.items[i]? with
  | none => rfl
  | some id => rw [Option.bind_some, Option.bind_some, h.get]

theorem leadsTo (j : Nat) (l : RtLink) : LeadsTo s' j l ↔ LeadsTo s j l := by
  unfold LeadsTo
  rw [h.hosts]

/-- Two tables that are the same have the same arcs between the same positions. -/
theorem arc (i j w : Nat) : Arc s' i j w ↔ Arc s i j w := by
  unfold Arc
  simp only [h.linksAt, h.leadsTo]

theorem lastRtt (i j : Nat) : s'.lastRtt i j = s.lastRtt i j := by
  unfold Routing.lastRtt
  simp only [h.linksAt, h.leadsTo]

/-- They have the same adjacency matrix. -/
theorem startAt : s'.startAt = s.startAt := by
  funext i j
  rw [Routing.startAt, Routing.startAt, h.lastRtt]

theorem theLocal : s'.theLocal = s.theLocal := by
  unfold Routing.theLocal
  rw [h.localHost]

theorem macOf (id : HostId) : s'.macOf env id = s.macOf env id := by
  unfold Routing.macOf
  rw [h.mac?]

theorem findHost (mac : EtherAddr) : s'.findHostByAddr env mac = s.findHostByAddr env mac := by
  unfold findHostByAddr
  simp only [h.hosts, h.macOf]

end Same

/-! ## The matrices of the current graph -/

/-- The matrices are those of the current link graph. -/
structure Routed (s : Routing) : Prop where
  mCt : s.mCt = s.hosts.ct
  ready : ∃ (g : Grid UInt32 s.mCt) (g' : Grid (Option Nat) s.mCt), s.path = .live g ∧ s.next = .live g'
  path : ∀ i j, i < s.hosts.ct → j < s.hosts.ct →
    s.path.entry i j = .ok (cells s.startAt s.hosts.ct i j).1
  next : ∀ i j, i < s.hosts.ct → j < s.hosts.ct →
    s.next.entry i j = .ok (cells s.startAt s.hosts.ct i j).2

/-- No matrices were computed yet. -/
def Unset (s : Routing) : Prop := s.mCt = 0 ∧ s.path = .null ∧ s.next = .null

/-- Matrices that fit go on fitting while the table stays the same. -/
theorem Routed.same (hr : Routed s) (h : Same s s') (hm : s'.mCt = s.mCt) (hp : s'.path = s.path)
    (hn : s'.next = s.next) : Routed s' where
  mCt := hm.trans (hr.mCt.trans h.ct.symm)
  ready := by rw [hm, hp, hn]; exact hr.ready
  path i j hi hj := by
    rw [h.ct] at hi hj ⊢
    rw [hp, h.startAt]
    exact hr.path i j hi hj
  next i j hi hj := by
    rw [h.ct] at hi hj ⊢
    rw [hn, h.startAt]
    exact hr.next i j hi hj

/-- No host has a link to itself, so the diagonal is `PATH_MIN`. -/
theorem GraphOk.diag (hg : GraphOk env s) (i : Nat) : s.startAt i i = pathMin := by
  rw [startAt, hg.lastRtt_self, if_pos rfl]

/-- **Matrices computed from a sound graph are those of the graph.** -/
theorem Computed.routed (hc : Computed env s s') (hs : Same s s') (hg : GraphOk env s) : Routed s' := by
  obtain ⟨adj, hadj, hget⟩ := hg.setupPaths_ok
  have he : hc.adj = adj := by
    have h := hc.setup
    rw [hadj] at h
    cases h
    rfl
  have hcell : ∀ i j, i < s.hosts.ct → j < s.hosts.ct →
      (Matrices.floydWarshall ⟨hc.adj, Grid.const s.hosts.ct none⟩).cell i j
        = cells s.startAt s.hosts.ct i j := by
    intro i j hi hj
    rw [he, floydWarshall_cells adj hi hj]
    exact cells_congr hget s.hosts.ct (Nat.le_refl _) i j hi hj
  have hct : s'.mCt = s'.hosts.ct := hc.mCt.trans hs.ct.symm
  have hlive : ∃ (g : Grid UInt32 s'.mCt) (g' : Grid (Option Nat) s'.mCt),
      s'.path = .live g ∧ s'.next = .live g' := by
    rw [hc.mCt]
    exact ⟨_, _, hc.path, hc.next⟩
  refine ⟨hct, hlive, fun i j hi hj => ?_, fun i j hi hj => ?_⟩
  · rw [hs.ct] at hi hj ⊢
    rw [hc.path, MatPtr.entry, if_pos ⟨hi, hj⟩, hs.startAt, ← hcell i j hi hj]
    rfl
  · rw [hs.ct] at hi hj ⊢
    rw [hc.next, MatPtr.entry, if_pos ⟨hi, hj⟩, hs.startAt, ← hcell i j hi hj]
    rfl

/-! ## The invariant -/

/-- The invariant of runs without allocation failures. -/
structure Sound (env : ExtMem) (s : Routing) (L : HostId) : Prop where
  allocs : s.allocs = []
  table : TableOk env s L
  links : LinksOk (fun a b => (memcmp a b).isLE) env s
  cache : Unset s ∨ Routed s

theorem Sound.graphOk (h : Sound env s L) : GraphOk env s := h.table.graphOk h.links

/-- Without allocation failures the first phase of an operation changes nothing or returns `0`. -/
theorem RtOp.phase_sound {op : RtOp} {ret : Int} (h : op.phase q env s = .ok (ret, s')) (hs : Sound env s L) :
    s'.allocs = [] ∧ (ret ≠ 0 → s' = s) := by
  cases op with
  | dhostAddLink d rttUs now =>
      obtain ⟨ip, hip⟩ : ∃ ip, env (.dp d) = some ip := linkDhost_addr h hs.table
      obtain ⟨r1, s1, h1, hal, hsame⟩ := linkDhost_ok (q := q) hs.table hs.allocs hip rttUs now
      cases h.symm.trans h1
      exact ⟨hal, hsame⟩
  | updateEdges edges =>
      obtain ⟨s1, h1, hal⟩ := mergeEdges_ok (q := q) hs.table hs.links hs.allocs edges
      cases h.symm.trans h1
      exact ⟨hal, fun h0 => absurd rfl h0⟩
  | dhostRemove dmac =>
      obtain ⟨r1, s1, h1, hal, hsame⟩ := unlinkDhost_ok hs.table hs.allocs dmac
      cases h.symm.trans h1
      exact ⟨hal, hsame⟩

/-- What a trim leaves: a freed record that is still in the table, or a sound table with fewer hosts. -/
theorem TrimRun.cases {R : EtherAddr → EtherAddr → Prop} (h : TrimRun env s s') (ht : TableOk env s L) :
    Frame s s' ∧ s'.allocs = s.allocs ∧ (HasDead s' ∨ (TableOk env s' L ∧ Trims s s' L ∧
      (LinksOrDead R env s → LinksOrDead R env s'))) := by
  cases h with
  | stale _ => exact ⟨Frame.refl s, rfl, Or.inr ⟨ht, Trims.refl s L, fun hl => hl⟩⟩
  | trimmed _ _ _ _ hloop =>
      obtain ⟨hf, hal⟩ := trimLoop_frame _ _ hloop
      exact ⟨hf, hal, trimLoop_cases _ _ hloop ht⟩

/-- A set-up reads every host, so none of them was freed. -/
theorem Computed.not_hasDead (hc : Computed env s s') : ¬ HasDead s := by
  rintro ⟨id, hid, -, hg⟩
  obtain ⟨r, hr, -⟩ := setupPaths_live hc.setup id hid
  rw [hg] at hr
  cases hr

/-- It also reads the destination of every link, so no link leads to a freed record. -/
theorem Computed.linksOk {R : EtherAddr → EtherAddr → Prop} (hc : Computed env s s')
    (hl : LinksOrDead R env s) : LinksOk R env s := by
  refine hl.ok fun id hid h hh l hlm h0 => ?_
  obtain ⟨r, hr, hlive⟩ := setupPaths_live hc.setup id hid
  rw [hh] at hr
  cases hr
  obtain ⟨m, hm⟩ := hlive l hlm
  obtain ⟨r', _, hr', -, -⟩ := get_of_mac? hm
  rw [h0] at hr'
  cases hr'

/-- Filling the array of exported edges does not change what is to be exported. -/
theorem EdgesOnly.exports (h : EdgesOnly s s') : exports env s' = exports env s := by
  rw [Routing.exports, Routing.exports, h.hosts, h.exportsFrom]

/-- **`update_cache` brings the matrices up to date**: it leaves a table from which hosts may have been
    trimmed, and exports its every edge after those of before. -/
theorem updateCache_sound {ret : Int} (h : s.updateCache env = .ok (ret, s')) (hal : s.allocs = [])
    (ht : TableOk env s L) (hl : LinksOk (fun a b => (memcmp a b).isLE) env s) :
    ret = 0 ∧ Sound env s' L ∧ Routed s' ∧ s'.edges.items = s.edges.items ++ exports env s' ∧
      ∃ s1, TrimRun env s s1 ∧ TableOk env s1 L ∧ Trims s s1 L ∧ Same s1 s' := by
  obtain ⟨s1, r2, s2, htrim, hcomp, hexp⟩ := updateCache_cases h
  obtain ⟨hf1, hal1, hout⟩ := htrim.cases (R := fun a b => (memcmp a b).isLE) ht
  obtain ⟨rfl, hal2⟩ := computePaths_nofail hcomp (hal1.trans hal)
  obtain ⟨hsame2, hedges2, ⟨hneg, -⟩ | ⟨-, ⟨hc⟩⟩⟩ := computePaths_cases hcomp
  · exact absurd hneg (by decide)
  obtain ⟨ht1, htrims, hl1⟩ := hout.resolve_left hc.not_hasDead
  have hl1 := hc.linksOk (hl1 hl.orDead)
  have hr2 := hc.routed hsame2 (ht1.graphOk hl1)
  obtain ⟨hneg, -⟩ | ⟨-, -, hexp⟩ := hexp
  · exact absurd hneg (by decide)
  obtain ⟨rfl, hal3⟩ := exportHosts_nofail hexp hal2
  obtain ⟨he, hret | ⟨-, hitems⟩⟩ := updateExportedEdges_cases hexp
  · exact absurd hret (by decide)
  have hr3 := hr2.same he.same he.mCt he.path he.next
  refine ⟨rfl, ⟨hal3, (ht1.same hsame2).same he.same, (hl1.same hsame2).same he.same, Or.inr hr3⟩, hr3, ?_,
    s1, htrim, ht1, htrims, hsame2.trans he.same⟩
  rw [hitems, he.exports, hedges2, hf1.edges]

/-- **Step lemma.** An operation that returns `0` has brought everything up to date; one that returns an
    error has changed nothing. -/
theorem RtOp.sound {op : RtOp} {ret : Int} (h : op.run q env s = .ok (ret, s')) (hs : Sound env s L) :
    Sound env s' L ∧ ((ret ≠ 0 ∧ s' = s) ∨
      (ret = 0 ∧ Routed s' ∧ s'.edges.items = s.edges.items ++ exports env s')) := by
  rcases run_cases h with ⟨hr, hp⟩ | ⟨s1, r, hp, hc, hret⟩
  · obtain ⟨-, hsame⟩ := phase_sound hp hs
    have he := hsame hr
    exact ⟨he ▸ hs, Or.inl ⟨hr, he⟩⟩
  · obtain ⟨hal, -⟩ := phase_sound hp hs
    obtain ⟨rfl, hs', hr', hedges, -⟩ :=
      updateCache_sound hc hal (phase_tableOk hp hs.table) (phase_linksOk hp hs.table hs.links)
    obtain ⟨hne, -⟩ | ⟨-, rfl⟩ := hret
    · exact absurd rfl hne
    · exact ⟨hs', Or.inr ⟨rfl, hr', by rw [hedges, (phase_frame hp).1.edges]⟩⟩

/-! ## `rt_dhosts_to_host` -/

/-- The walk along the path only uses up outcomes of the allocations. -/
theorem srcToCur_suffix {curI : Nat} : ∀ (fuel nextI : Nat) {path path' : Da Nat} {al al' : AllocScript},
    s.srcToCur curI fuel nextI path al = .ok (path', al') → al' <:+ al := by
  intro fuel
  induction fuel with
  | zero => intro nextI path path' al al' h; cases h
  | succ fuel ih =>
      intro nextI path path' al al' h
      unfold srcToCur at h
      obtain ⟨k, -, h⟩ := bind_eq_ok.mp h
      cases k with
      | none =>
          cases h
          exact path.addToEnd_suffix curI al
      | some k => exact (ih _ h).trans (path.addToEnd_suffix k al)

/-- So does the choice of the destinations. -/
theorem collectDsts_suffix {path : List Nat} {srcI : Nat} : ∀ (is : List Nat) {d d' : Da Nat}
    {al al' : AllocScript}, s.collectDsts path srcI is d al = .ok (d', al') → al' <:+ al := by
  intro is
  induction is with
  | nil =>
      intro d d' al al' h
      cases h
      exact List.suffix_rfl
  | cons i is ih =>
      intro d d' al al' h
      unfold collectDsts at h
      obtain ⟨b, -, h⟩ := bind_eq_ok.mp h
      cases b with
      | true => exact (ih h).trans (d.addToEnd_suffix i al)
      | false => exact ih h

/-- So does the list that is handed out. -/
theorem hostList_suffix : ∀ (is : List Nat) {al al' : AllocScript} {hs : List HostPtr},
    s.hostList is al = .ok (hs, al') → al' <:+ al := by
  intro is
  induction is with
  | nil =>
      intro al al' hs h
      cases h
      exact List.suffix_rfl
  | cons i is ih =>
      intro al al' hs h
      unfold hostList at h
      simp only at h
      split at h
      · cases h
      · obtain ⟨id, -, h⟩ := bind_eq_ok.mp h
        obtain ⟨r, -, h⟩ := bind_eq_ok.mp h
        obtain ⟨⟨hs', al1⟩, h1, h⟩ := bind_eq_ok.mp h
        cases h
        exact (ih h1).trans (takeAlloc_suffix al)

/-- Every way in which the multicast branch can return. -/
inductive MulticastRun (env : ExtMem) (s : Routing) (curI : Nat) (srcMac : EtherAddr) :
    Forwards → Routing → Prop where
  | unknown (hf : s.findHostByAddr env srcMac = .ok none) :
      MulticastRun env s curI srcMac (.error (-2)) s
  | noPath {i al1} (hf : s.findHostByAddr env srcMac = .ok (some i))
      (hal : takeAlloc s.allocs = (false, al1)) :
      MulticastRun env s curI srcMac (.error (-33)) { s with allocs := al1 }
  | discon {i al1} (hf : s.findHostByAddr env srcMac = .ok (some i))
      (hal : takeAlloc s.allocs = (true, al1)) (hp : s.path.entry i curI = .ok pathDiscon) :
      MulticastRun env s curI srcMac (.error 0) { s with allocs := al1 }
  | noDsts {i al1 v path al2 al3} (hf : s.findHostByAddr env srcMac = .ok (some i))
      (hal : takeAlloc s.allocs = (true, al1)) (hp : s.path.entry i curI = .ok v)
      (hwalk : s.srcToCur curI (s.mCt + 1) i ⟨[], 8⟩ al1 = .ok (path, al2))
      (hal2 : takeAlloc al2 = (false, al3)) :
      MulticastRun env s curI srcMac (.error (-34)) { s with allocs := al3 }
  | sent {i al1 v path al2 al3 dsts al4 hs al5} (hf : s.findHostByAddr env srcMac = .ok (some i))
      (hal : takeAlloc s.allocs = (true, al1)) (hp : s.path.entry i curI = .ok v)
      (hwalk : s.srcToCur curI (s.mCt + 1) i ⟨[], 8⟩ al1 = .ok (path, al2))
      (hal2 : takeAlloc al2 = (true, al3))
      (hcollect : s.collectDsts path.items i (List.range s.mCt) ⟨[], s.mCt⟩ al3 = .ok (dsts, al4))
      (hlist : s.hostList dsts.items al4 = .ok (hs, al5)) :
      MulticastRun env s curI srcMac ⟨0, hs, true⟩ { s with allocs := al5 }

/-- Inversion: a multicast lookup that returns took one of these exits. -/
theorem multicast_run {curI : Nat} {srcMac : EtherAddr} {f : Forwards}
    (h : s.multicast env curI srcMac = .ok (f, s')) : MulticastRun env s curI srcMac f s' := by
  unfold multicast at h
  obtain ⟨fs, hf, h⟩ := bind_eq_ok.mp h
  cases fs with
  | none => cases h; exact .unknown hf
  | some i =>
    obtain ⟨⟨ok, al1⟩, hal⟩ : ∃ x, takeAlloc s.allocs = x := ⟨_, rfl⟩
    simp only [Da.init, hal] at h
    cases ok with
    | false => cases h; exact .noPath hf hal
    | true =>
      simp only [Bool.not_true, Bool.false_eq_true, if_false] at h
      obtain ⟨v, hp, h⟩ := bind_eq_ok.mp h
      split at h
      · rename_i hdis
        cases h
        exact .discon hf hal (hdis ▸ hp)
      · obtain ⟨⟨path, al2⟩, hwalk, h⟩ := bind_eq_ok.mp h
        obtain ⟨⟨ok, al3⟩, hal2⟩ : ∃ x, takeAlloc al2 = x := ⟨_, rfl⟩
        simp only [hal2] at h
        cases ok with
        | false => cases h; exact .noDsts hf hal hp hwalk hal2
        | true =>
          simp only [Bool.not_true, Bool.false_eq_true, if_false] at h
          obtain ⟨⟨dsts, al4⟩, hcollect, h⟩ := bind_eq_ok.mp h
          obtain ⟨⟨hs, al5⟩, hlist, h⟩ := bind_eq_ok.mp h
          cases h
          exact .sent hf hal hp hwalk hal2 hcollect hlist

/-- Every way in which the unicast branch can return. -/
inductive UnicastRun (env : ExtMem) (s : Routing) (curI : Nat) (dstMac : EtherAddr) :
    Forwards → Routing → Prop where
  | unknown (hf : s.findHostByAddr env dstMac = .ok none) :
      UnicastRun env s curI dstMac (.error (-1)) s
  | discon {dstI nextI} (hf : s.findHostByAddr env dstMac = .ok (some dstI))
      (hn : s.next.entry curI dstI = .ok nextI) (hp : s.path.entry curI dstI = .ok pathDiscon) :
      UnicastRun env s curI dstMac ⟨0, [], true⟩ s
  | noMemory {dstI v al1} (hf : s.findHostByAddr env dstMac = .ok (some dstI))
      (hp : s.path.entry curI dstI = .ok v) (hal : takeAlloc s.allocs = (false, al1)) :
      UnicastRun env s curI dstMac (.error (-3)) { s with allocs := al1 }
  | sent {dstI nextI v al1 id r} (hf : s.findHostByAddr env dstMac = .ok (some dstI))
      (hn : s.next.entry curI dstI = .ok nextI) (hp : s.path.entry curI dstI = .ok v) (hv : v ≠ pathDiscon)
      (hal : takeAlloc s.allocs = (true, al1)) (hid : s.hosts.items[nextI.getD dstI]? = some id)
      (hr : s.recs.get id = some r) :
      UnicastRun env s curI dstMac ⟨0, [r.host], true⟩ { s with allocs := al1 }

/-- Inversion: a unicast lookup that returns took one of these exits. -/
theorem unicast_run {curI : Nat} {dstMac : EtherAddr} {f : Forwards}
    (h : s.unicast env curI dstMac = .ok (f, s')) : UnicastRun env s curI dstMac f s' := by
  unfold unicast at h
  obtain ⟨fd, hf, h⟩ := bind_eq_ok.mp h
  cases fd with
  | none => cases h; exact .unknown hf
  | some dstI =>
    obtain ⟨nextI, hn, h⟩ := bind_eq_ok.mp h
    obtain ⟨v, hp, h⟩ := bind_eq_ok.mp h
    split at h
    · rename_i hdis
      cases h
      exact .discon hf hn (hdis ▸ hp)
    · rename_i hv
      obtain ⟨⟨ok, al1⟩, hal⟩ : ∃ x, takeAlloc s.allocs = x := ⟨_, rfl⟩
      simp only [malloc, hal] at h
      cases ok with
      | false => cases h; exact .noMemory hf hp hal
      | true =>
        simp only [Bool.not_true, Bool.false_eq_true, if_false] at h
        obtain ⟨id, hid, h⟩ := bind_eq_ok.mp h
        obtain ⟨r, hr, h⟩ := bind_eq_ok.mp h
        cases h
        exact .sent hf hn hp hv hal (itemAt_eq_ok.mp hid) (host_eq_ok.mp hr)

/-- `s'` is `s` after some allocations. -/
def AllocsOnly (s s' : Routing) : Prop := ∃ al, s' = { s with allocs := al } ∧ (s.allocs = [] → al = [])

theorem AllocsOnly.refl (s : Routing) : AllocsOnly s s := ⟨s.allocs, rfl, fun h => h⟩

theorem AllocsOnly.of_suffix {al : AllocScript} (h : al <:+ s.allocs) : AllocsOnly s { s with allocs := al } :=
  ⟨al, rfl, fun hnil => List.suffix_nil.mp (hnil ▸ h)⟩

theorem AllocsOnly.same (h : AllocsOnly s s') : Same s s' := by
  obtain ⟨al, rfl, -⟩ := h
  exact ⟨rfl, rfl, fun _ => rfl, Nat.le_refl _⟩

/-- A multicast lookup changes nothing but the script of allocations. -/
theorem multicast_cases {curI : Nat} {srcMac : EtherAddr} {f : Forwards}
    (h : s.multicast env curI srcMac = .ok (f, s')) : AllocsOnly s s' := by
  cases multicast_run h with
  | unknown _ => exact AllocsOnly.refl _
  | noPath _ hal => exact .of_suffix (suffix_of_takeAlloc hal)
  | discon _ hal _ => exact .of_suffix (suffix_of_takeAlloc hal)
  | noDsts _ hal _ hwalk hal2 =>
      have hsuf := (srcToCur_suffix _ _ hwalk).trans (suffix_of_takeAlloc hal)
      exact .of_suffix ((suffix_of_takeAlloc hal2).trans hsuf)
  | sent _ hal _ hwalk hal2 hcollect hlist =>
      have hsuf := (srcToCur_suffix _ _ hwalk).trans (suffix_of_takeAlloc hal)
      have hdsts := (collectDsts_suffix _ hcollect).trans ((suffix_of_takeAlloc hal2).trans hsuf)
      exact .of_suffix ((hostList_suffix _ hlist).trans hdsts)

/-- Nor does a unicast lookup. -/
theorem unicast_cases {curI : Nat} {dstMac : EtherAddr} {f : Forwards}
    (h : s.unicast env curI dstMac = .ok (f, s')) : AllocsOnly s s' := by
  cases unicast_run h with
  | unknown _ => exact AllocsOnly.refl _
  | discon _ _ _ => exact AllocsOnly.refl _
  | noMemory _ _ hal => exact .of_suffix (suffix_of_takeAlloc hal)
  | sent _ _ _ _ hal _ _ => exact .of_suffix (suffix_of_takeAlloc hal)

/-- The table with matrices that fit: as it is, or after computing them. -/
def Fits (env : ExtMem) (s s1 : Routing) : Prop :=
  (s.mCt = s.hosts.ct ∧ s1 = s) ∨ (s.mCt ≠ s.hosts.ct ∧ s.computePaths env = .ok (0, s1))

/-- Computing the matrices for a lookup leaves the hosts and links as they are. -/
theorem Fits.same {s1 : Routing} (hf : Fits env s s1) : Same s s1 := by
  rcases hf with ⟨-, rfl⟩ | ⟨-, hcomp⟩
  · exact Same.refl _
  · exact (computePaths_cases hcomp).1

/-- Every way in which `rt_dhosts_to_host` can return. -/
inductive ForwardRun (env : ExtMem) (s : Routing) (srcMac dstMac : EtherAddr) :
    Forwards → Routing → Prop where
  | stale {r s1} (hne : s.mCt ≠ s.hosts.ct) (hcomp : s.computePaths env = .ok (r, s1)) (hr : r ≠ 0) :
      ForwardRun env s srcMac dstMac (.error r) s1
  | noLocal {s1} (hfit : Fits env s s1) : ForwardRun env s srcMac dstMac (.error (-13)) s1
  | looked {s1 L m curI f s2} (hfit : Fits env s s1) (hL : s1.theLocal = .ok L) (hm : s1.macOf env L = .ok m)
      (hf : s1.findHostByAddr env m = .ok (some curI))
      (hbranch : (if etherAddrIsMcast dstMac then s1.multicast env curI srcMac
        else s1.unicast env curI dstMac) = .ok (f, s2)) : ForwardRun env s srcMac dstMac f s2

/-- The part of the call after the matrices. -/
theorem Fits.forwardRun {s1 : Routing} (hfit : Fits env s s1) {srcMac dstMac : EtherAddr} {f : Forwards}
    (h : (do
      match ← s1.findHostByAddr env (← s1.macOf env (← s1.theLocal)) with
      | none => pure (Forwards.error (-13), s1)
      | some curI =>
        if etherAddrIsMcast dstMac then s1.multicast env curI srcMac
        else s1.unicast env curI dstMac : Ub (Forwards × Routing)) = .ok (f, s')) :
    ForwardRun env s srcMac dstMac f s' := by
  obtain ⟨L', hL, h⟩ := bind_eq_ok.mp h
  obtain ⟨m, hm, h⟩ := bind_eq_ok.mp h
  obtain ⟨fc, hfc, h⟩ := bind_eq_ok.mp h
  cases fc with
  | none => cases h; exact .noLocal hfit
  | some curI => exact .looked hfit hL hm hfc h

/-- Inversion of the whole call. -/
theorem rtDhostsToHost_run {srcMac dstMac : EtherAddr} {f : Forwards}
    (h : s.rtDhostsToHost env srcMac dstMac = .ok (f, s')) : ForwardRun env s srcMac dstMac f s' := by
  unfold rtDhostsToHost at h
  by_cases hne : s.mCt ≠ s.hosts.ct
  · rw [if_pos hne] at h
    obtain ⟨⟨r, s1⟩, hcomp, h⟩ := bind_eq_ok.mp h
    by_cases hr : r = 0
    · subst hr
      exact Fits.forwardRun (Or.inr ⟨hne, hcomp⟩) h
    · simp only [ne_eq, hr, not_false_eq_true, if_true] at h
      cases h
      exact .stale hne hcomp hr
  · rw [if_neg hne] at h
    exact Fits.forwardRun (Or.inl ⟨Decidable.not_not.mp hne, rfl⟩) h

/-- Whatever branch is taken, only allocations are made after the matrices fit. -/
theorem branch_cases {curI : Nat} {srcMac dstMac : EtherAddr} {f : Forwards}
    (h : (if etherAddrIsMcast dstMac then s.multicast env curI srcMac else s.unicast env curI dstMac)
      = .ok (f, s')) : AllocsOnly s s' := by
  split at h
  · exact multicast_cases h
  · exact unicast_cases h

/-- **Matrices that fit are those of the graph.** -/
theorem Fits.sound {s1 : Routing} (h : Fits env s s1) (hs : Sound env s L) : Sound env s1 L ∧ Routed s1 := by
  rcases h with ⟨hct, rfl⟩ | ⟨-, hcomp⟩
  · refine ⟨hs, hs.cache.resolve_left fun hu => ?_⟩
    have hlen : 0 < s1.hosts.ct := List.length_pos_of_mem hs.table.localMem
    rw [← hct, hu.1] at hlen
    exact absurd hlen (Nat.lt_irrefl 0)
  · obtain ⟨-, hal⟩ := computePaths_nofail hcomp hs.allocs
    obtain ⟨hsame, -, ⟨hneg, -⟩ | ⟨-, ⟨hc⟩⟩⟩ := computePaths_cases hcomp
    · exact absurd hneg (by decide)
    · have hr := hc.routed hsame hs.graphOk
      exact ⟨⟨hal, hs.table.same hsame, hs.links.same hsame, Or.inr hr⟩, hr⟩

/-- A lookup keeps the invariant. -/
theorem AllocsOnly.sound (h : AllocsOnly s s') (hs : Sound env s L) : Sound env s' L := by
  have hsame := h.same
  obtain ⟨al, rfl, hal⟩ := h
  refine ⟨hal hs.allocs, hs.table.same hsame, hs.links.same hsame, ?_⟩
  exact hs.cache.imp_right fun hr => hr.same hsame rfl rfl rfl

/-- **Step lemma.** `rt_dhosts_to_host` keeps the state sound. -/
theorem forward_sound {srcMac dstMac : EtherAddr} {f : Forwards}
    (h : s.rtDhostsToHost env srcMac dstMac = .ok (f, s')) (hs : Sound env s L) : Sound env s' L := by
  cases rtDhostsToHost_run h with
  | stale _ hcomp hr => exact absurd (computePaths_nofail hcomp hs.allocs).1 hr
  | noLocal hfit => exact (hfit.sound hs).1
  | looked hfit _ _ _ hbranch => exact (branch_cases hbranch).sound (hfit.sound hs).1

/-! ## The start -/

/-- What `rt_init` leaves. -/
theorem rtInit_cases {al : AllocScript} (h : rtInit al = (0, s)) :
    s.hosts.items = [] ∧ s.edges.items = [] ∧ Unset s ∧ (al = [] → s.allocs = []) := by
  unfold rtInit Da.init at h
  simp only at h
  split at h
  · cases h
  · split at h
    · cases h
    · cases h
      exact ⟨rfl, rfl, ⟨rfl, rfl, rfl⟩, fun h0 => by rw [h0]; rfl⟩

/-- The start: one host, local's, without links. -/
structure Fledgling (env : ExtMem) (s : Routing) (L : HostId) : Prop where
  table : TableOk env s L
  hosts : s.hosts.items = [L]
  local_ : ∃ r, s.recs.get L = some r ∧ r.host = .env .lhost ∧ r.links.items = []
  edges : s.edges.items = []
  unset : Unset s

/-- What `rt_init` and `rt_lhost_add` leave: a table with local alone. -/
theorem started_cases {al : AllocScript} (h : Started q env al s) :
    ∃ L, Fledgling env s L ∧ (al = [] → s.allocs = []) := by
  obtain ⟨s0, hinit, hlhost⟩ := h
  obtain ⟨hhosts, hedges, hunset, hal0⟩ := rtInit_cases hinit
  obtain ⟨⟨p, nh, s1⟩, hadd, h⟩ := bind_eq_ok.mp hlhost
  obtain ⟨hf, ⟨hp, -⟩ | ⟨rfl, ⟨ha⟩⟩⟩ := hostAdd_cases hadd
  · simp only [hp, if_false] at h
    cases h
    exact absurd rfl hp
  simp only [if_true] at h
  cases h
  have hitems : s1.hosts.items = [nh] := by
    have hperm := ha.perm
    rw [hhosts, List.nil_append] at hperm
    exact List.perm_singleton.mp hperm
  -- the table has the new host and nobody else
  have hmem : ∀ {id}, id ∈ s1.hosts.items → id = nh := by
    intro id hid
    rw [hitems] at hid
    exact List.mem_singleton.mp hid
  have hhost : ha.record.host = .env .lhost := ha.fresh.points (by decide)
  have hrec : ∀ {r}, s1.recs.get nh = some r → r = ha.record := by
    intro r hr
    rw [ha.get_new] at hr
    exact (Option.some.inj hr).symm
  have ht : TableOk env { s1 with localHost := some nh } nh := by
    constructor
    · intro id hid
      rw [hmem hid]
      exact ⟨_, ha.mac_new⟩
    · show MacStrict env _ _ s1.hosts.items
      rw [hitems]
      exact List.pairwise_singleton _ _
    · rfl
    · exact ha.mem_new
    · intro r hr
      rw [hrec hr]
      exact ha.fresh.type
    · exact fun id hid _ _ _ => hmem hid
    · intro id hid r hr
      rw [hmem hid] at hr
      rw [hrec hr, KindOk, ha.fresh.type]
      trivial
    · intro r hr
      rw [hrec hr, ha.fresh.links]
      exact List.Pairwise.nil
    · intro r hr l hl
      rw [hrec hr, ha.fresh.links] at hl
      cases hl
  refine ⟨nh, ⟨ht, hitems, ⟨ha.record, ha.get_new, hhost, ha.fresh.links⟩, hf.edges ▸ hedges,
    hf.mCt ▸ hunset.1, hf.path ▸ hunset.2.1, hf.next ▸ hunset.2.2⟩, fun h0 => ?_⟩
  obtain ⟨nh', s1', hadd', hal'⟩ := hostAdd_ok q .htLocal (hal0 h0)
    (by rw [hhosts]; exact nofun) ha.addr ha.absent
  cases hadd.symm.trans hadd'
  exact hal'

theorem Fledgling.linksOk {R : EtherAddr → EtherAddr → Prop} (h : Fledgling env s L) : LinksOk R env s := by
  have hlinks : ∀ id ∈ s.hosts.items, ∀ r, s.recs.get id = some r → r.links.items = [] := by
    intro id hid r hr
    rw [h.hosts, List.mem_singleton] at hid
    obtain ⟨r', hr', -, hl⟩ := h.local_
    rw [hid, hr'] at hr
    cases hr
    exact hl
  constructor
  · intro id hid r hr l hl
    rw [hlinks id hid r hr] at hl
    cases hl
  · intro id hid r hr
    rw [hlinks id hid r hr]
    exact List.Pairwise.nil

/-- **Run lemma. Every state reached without allocation failures is sound.** -/
theorem Reach.sound (h : Reach q env [] s) : ∃ L, Sound env s L := by
  induction h with
  | start h =>
      obtain ⟨L, hf, hal⟩ := started_cases h
      exact ⟨L, hal rfl, hf.table, hf.linksOk, Or.inl hf.unset⟩
  | op _ hrun ih =>
      obtain ⟨L, hs⟩ := ih
      exact ⟨L, (RtOp.sound hrun hs).1⟩
  | forward _ hrun ih =>
      obtain ⟨L, hs⟩ := ih
      exact ⟨L, forward_sound hrun hs⟩

end Routing

end P2pVn
