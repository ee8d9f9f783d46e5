import P2pVn.Routing.Table

/-!
# `Routing.Exporting` — `update_exported_edges`

The list that one call appends to `edges` is a function of the state it starts from (`exports`), because
nothing that the loops read changes while they run.

- `updateExportedEdges_cases`: what a call that returns has done.
- `updateExportedEdges_ok`: it returns, on live records, if no host has more links than the matrix has
  columns; the filter looks at the column with the link's position.

The array itself is never emptied: a call appends behind what earlier calls have left, and when it runs out of
memory the edges appended so far stay. So what is said here is what one call adds. Of the matrix the filter
reads one entry for each link, and a read outside of it is a fault; the inversion therefore also tells that the
entries of all links were there.
-/

namespace P2pVn
open CUb

namespace Routing

variable {env : ExtMem} {s s' : Routing}

/-! ## What is exported -/

/-- `*host->host` of a record. -/
def addr? (env : ExtMem) (s : Routing) (id : HostId) : Option Ipv4Host :=
  (s.recs.get id).bind fun h => h.host.deref env

/-- `path[i][j]`, where there is such an entry. -/
def pathVal (s : Routing) (i j : Nat) : UInt32 :=
  match s.path with
  | .live g => g.get i j
  | _ => pathDiscon

/-- What is exported for one link at position `j`. -/
def exportOne (env : ExtMem) (s : Routing) (i : Nat) (src : Ipv4Host) (j : Nat) (l : RtLink) : List PktEdge :=
  if s.pathVal i j = 0 then []
  else match s.addr? env l.dst with
    | some dst => [packEdge src dst l.rttUs l.tsMs]
    | none => []

/-- What is exported for the links from position `j` on. -/
def exportList (env : ExtMem) (s : Routing) (i : Nat) (src : Ipv4Host) : Nat → List RtLink → List PktEdge
  | _, [] => []
  | j, l :: ls => exportOne env s i src j l ++ exportList env s i src (j + 1) ls

/-- What is exported for the hosts from position `i` on. -/
def exportsFrom (env : ExtMem) (s : Routing) : Nat → List HostId → List PktEdge
  | _, [] => []
  | i, id :: ids =>
    (match s.recs.get id, s.addr? env id with
      | some h, some src => exportList env s i src 0 h.links.items
      | _, _ => []) ++ exportsFrom env s (i + 1) ids

/-- Everything one call exports. -/
def exports (env : ExtMem) (s : Routing) : List PktEdge := exportsFrom env s 0 s.hosts.items

/-- A look-up that stays inside the matrix reads the entry. -/
theorem entry_eq_ok {i j : Nat} {p : UInt32} (h : s.path.entry i j = .ok p) : s.pathVal i j = p := by
  unfold MatPtr.entry at h
  unfold pathVal
  split at h
  · split at h
    · cases h
      rename_i hp _
      rw [hp]
    · cases h
  · cases h
  · cases h
  · cases h

theorem addr?_of_get {id : HostId} {h : RtHost} {ip : Ipv4Host} (hg : s.recs.get id = some h)
    (hip : h.host.deref env = some ip) : s.addr? env id = some ip := by
  rw [addr?, hg, Option.bind_some, hip]

/-! ## What a call that returns has done -/

/-- The two states differ in `edges` and in the allocations to come only. -/
structure EdgesOnly (s s' : Routing) : Prop where
  hosts : s'.hosts = s.hosts
  localHost : s'.localHost = s.localHost
  mCt : s'.mCt = s.mCt
  path : s'.path = s.path
  next : s'.next = s.next
  recs : s'.recs = s.recs

namespace EdgesOnly

theorem refl (s : Routing) : EdgesOnly s s := ⟨rfl, rfl, rfl, rfl, rfl, rfl⟩

theorem trans {s'' : Routing} (h : EdgesOnly s s') (h' : EdgesOnly s' s'') : EdgesOnly s s'' :=
  ⟨h'.hosts.trans h.hosts, h'.localHost.trans h.localHost, h'.mCt.trans h.mCt, h'.path.trans h.path,
    h'.next.trans h.next, h'.recs.trans h.recs⟩

variable (h : EdgesOnly s s')
include h

/-- What the export leaves alone is all of the table. -/
theorem same : Same s s' := ⟨by rw [h.hosts], h.localHost, fun _ => by rw [h.recs], by rw [h.recs]⟩

theorem addr? (id : HostId) : s'.addr? env id = s.addr? env id := by
  rw [Routing.addr?, Routing.addr?, h.recs]

/-- What is exported of a link does not depend on what was exported before. -/
theorem exportOne (i : Nat) (src : Ipv4Host) (j : Nat) (l : RtLink) :
    exportOne env s' i src j l = exportOne env s i src j l := by
  rw [Routing.exportOne, Routing.exportOne, pathVal, pathVal, h.path, h.addr?]

theorem exportList (i : Nat) (src : Ipv4Host) : ∀ (ls : List RtLink) (j : Nat),
    exportList env s' i src j ls = exportList env s i src j ls := by
  intro ls
  induction ls with
  | nil => exact fun _ => rfl
  | cons l ls ih => intro j; rw [Routing.exportList, Routing.exportList, h.exportOne, ih]

theorem exportsFrom : ∀ (ids : List HostId) (i : Nat), exportsFrom env s' i ids = exportsFrom env s i ids := by
  intro ids
  induction ids with
  | nil => exact fun _ => rfl
  | cons id ids ih =>
      intro i
      rw [Routing.exportsFrom, Routing.exportsFrom, h.addr?, h.recs, ih]
      simp only [h.exportList]

end EdgesOnly

/-- What the loop over the links of one host did if it returned: it ran out of memory, or it appended the edges
    of these links to the array, behind whatever was there. -/
theorem exportLinks_cases {i : Nat} {src : Ipv4Host} : ∀ (ls : List RtLink) (j : Nat) {s s' : Routing}
    {ret : Int}, exportLinks env i src j ls s = .ok (ret, s') →
      EdgesOnly s s' ∧ ((ret = -1) ∨
        (ret = 0 ∧ s'.edges.items = s.edges.items ++ exportList env s i src j ls)) := by
  intro ls
  induction ls with
  | nil =>
      intro j s s' ret h
      cases h
      exact ⟨EdgesOnly.refl s, Or.inr ⟨rfl, by simp [exportList]⟩⟩
  | cons l ls ih =>
      intro j s s' ret h
      unfold exportLinks at h
      obtain ⟨p, hp, h⟩ := bind_eq_ok.mp h
      have hval := entry_eq_ok hp
      split at h
      · rename_i h0
        -- an entry that is zero exports nothing
        obtain ⟨he, hret⟩ := ih (j + 1) h
        refine ⟨he, hret.imp_right fun ⟨hr, hitems⟩ => ⟨hr, ?_⟩⟩
        rw [hitems, exportList, exportOne, if_pos (hval.trans h0), List.nil_append]
      · rename_i h0
        obtain ⟨dr, hdr, h⟩ := bind_eq_ok.mp h
        obtain ⟨dst, hdst, h⟩ := bind_eq_ok.mp h
        have hone : exportOne env s i src j l = [packEdge src dst l.rttUs l.tsMs] := by
          rw [exportOne, if_neg (by rw [hval]; exact h0),
            addr?_of_get (host_eq_ok.mp hdr) (ipOf_eq_ok.mp hdst)]
        obtain ⟨al', ⟨d', hadd, hitems'⟩ | hfail⟩ :=
          s.edges.addToEnd_cases (packEdge src dst l.rttUs l.tsMs) s.allocs
        · simp only [hadd, Bool.false_eq_true, if_false] at h
          obtain ⟨he, hret⟩ := ih (j + 1) h
          have he0 : EdgesOnly s { s with edges := d', allocs := al' } := ⟨rfl, rfl, rfl, rfl, rfl, rfl⟩
          refine ⟨he0.trans he, hret.imp_right fun ⟨hr, hitems⟩ => ⟨hr, ?_⟩⟩
          rw [hitems, he0.exportList, exportList, hone, ← List.append_assoc]
          rw [← hitems']
        · simp only [hfail, if_true] at h
          cases h
          exact ⟨⟨rfl, rfl, rfl, rfl, rfl, rfl⟩, Or.inl rfl⟩

/-- The same of the loop over the hosts. -/
theorem exportHosts_cases : ∀ (ids : List HostId) (i : Nat) {s s' : Routing} {ret : Int},
    exportHosts env i ids s = .ok (ret, s') →
      EdgesOnly s s' ∧ ((ret = -1) ∨
        (ret = 0 ∧ s'.edges.items = s.edges.items ++ exportsFrom env s i ids)) := by
  intro ids
  induction ids with
  | nil =>
      intro i s s' ret h
      cases h
      exact ⟨EdgesOnly.refl s, Or.inr ⟨rfl, by simp [exportsFrom]⟩⟩
  | cons id ids ih =>
      intro i s s' ret h
      unfold exportHosts at h
      obtain ⟨r, hr, h⟩ := bind_eq_ok.mp h
      obtain ⟨src, hsrc, h⟩ := bind_eq_ok.mp h
      obtain ⟨⟨r1, s1⟩, h1, h⟩ := bind_eq_ok.mp h
      have hg := host_eq_ok.mp hr
      have haddr := addr?_of_get hg (ipOf_eq_ok.mp hsrc)
      obtain ⟨he1, rfl | ⟨rfl, hitems1⟩⟩ := exportLinks_cases _ _ h1
      · cases h
        exact ⟨he1, Or.inl rfl⟩
      · simp only [ne_eq, not_true_eq_false, if_false] at h
        obtain ⟨he2, hret⟩ := ih (i + 1) h
        refine ⟨he1.trans he2, hret.imp_right fun ⟨h0, hitems⟩ => ⟨h0, ?_⟩⟩
        rw [hitems, hitems1, he1.exportsFrom, exportsFrom, hg, haddr, List.append_assoc]

/-- **What a call of `update_exported_edges` that returns has done**: on success, it appended `exports`. -/
theorem updateExportedEdges_cases {ret : Int} (h : s.updateExportedEdges env = .ok (ret, s')) :
    EdgesOnly s s' ∧ ((ret = -1) ∨ (ret = 0 ∧ s'.edges.items = s.edges.items ++ exports env s)) :=
  exportHosts_cases _ _ h

/-! ## Where the allocations succeed -/

/-- The loop fails only for want of memory. -/
theorem exportLinks_granted {i : Nat} {src : Ipv4Host} : ∀ (ls : List RtLink) (j : Nat) {s s' : Routing}
    {ret : Int}, exportLinks env i src j ls s = .ok (ret, s') → Granted s.allocs →
      ret = 0 ∧ s'.allocs <:+ s.allocs := by
  intro ls
  induction ls with
  | nil =>
      intro j s s' ret h hal
      cases h
      exact ⟨rfl, List.suffix_rfl⟩
  | cons l ls ih =>
      intro j s s' ret h hal
      unfold exportLinks at h
      obtain ⟨p, -, h⟩ := bind_eq_ok.mp h
      split at h
      · exact ih (j + 1) h hal
      · obtain ⟨dr, -, h⟩ := bind_eq_ok.mp h
        obtain ⟨dst, -, h⟩ := bind_eq_ok.mp h
        obtain ⟨d', al', hadd, -⟩ := s.edges.addToEnd_granted (packEdge src dst l.rttUs l.tsMs) (n := 0)
          fun b hb => hal b (List.mem_of_mem_take hb)
        have hsuf := s.edges.addToEnd_suffix (packEdge src dst l.rttUs l.tsMs) s.allocs
        rw [hadd] at hsuf
        simp only [hadd, Bool.false_eq_true, if_false] at h
        obtain ⟨hret, hrest⟩ := ih (j + 1) h (hal.suffix hsuf)
        exact ⟨hret, hrest.trans hsuf⟩

/-- A call all of whose allocations succeed returns `0`. -/
theorem exportHosts_granted : ∀ (ids : List HostId) (i : Nat) {s s' : Routing} {ret : Int},
    exportHosts env i ids s = .ok (ret, s') → Granted s.allocs → ret = 0 ∧ s'.allocs <:+ s.allocs := by
  intro ids
  induction ids with
  | nil =>
      intro i s s' ret h _
      cases h
      exact ⟨rfl, List.suffix_rfl⟩
  | cons id ids ih =>
      intro i s s' ret h hal
      unfold exportHosts at h
      obtain ⟨r, -, h⟩ := bind_eq_ok.mp h
      obtain ⟨src, -, h⟩ := bind_eq_ok.mp h
      obtain ⟨⟨r1, s1⟩, h1, h⟩ := bind_eq_ok.mp h
      obtain ⟨rfl, hsuf⟩ := exportLinks_granted _ _ h1 hal
      simp only [ne_eq, not_true_eq_false, if_false] at h
      obtain ⟨hret, hrest⟩ := ih (i + 1) h (hal.suffix hsuf)
      exact ⟨hret, hrest.trans hsuf⟩

/-- Without allocation failures the export succeeds. -/
theorem exportHosts_nofail {ids : List HostId} {i : Nat} {ret : Int}
    (h : exportHosts env i ids s = .ok (ret, s')) (hal : s.allocs = []) : ret = 0 ∧ s'.allocs = [] := by
  obtain ⟨hret, hsuf⟩ := exportHosts_granted _ _ h (hal ▸ nofun)
  exact ⟨hret, List.suffix_nil.mp (hal ▸ hsuf)⟩

/-! ## When a call returns -/

/-- What the loops read is there: the path entries by position, and the addresses. -/
structure Exportable (env : ExtMem) (s : Routing) (i : Nat) (id : HostId) : Prop where
  src : ∃ ip, s.addr? env id = some ip
  dst : ∀ r, s.recs.get id = some r → ∀ l ∈ r.links.items, ∃ ip, s.addr? env l.dst = some ip
  column : ∀ r, s.recs.get id = some r → ∀ j < r.links.ct, ∃ p, s.path.entry i j = .ok p

/-- What can be exported stays so while the array is filled. -/
theorem Exportable.edgesOnly {i : Nat} {id : HostId} (hx : Exportable env s i id) (h : EdgesOnly s s') :
    Exportable env s' i id where
  src := by rw [h.addr?]; exact hx.src
  dst r hr l hl := by rw [h.addr?]; exact hx.dst r (h.recs ▸ hr) l hl
  column r hr j hj := by rw [h.path]; exact hx.column r (h.recs ▸ hr) j hj

theorem addr?_eq_some {id : HostId} {ip : Ipv4Host} (h : s.addr? env id = some ip) :
    ∃ r, s.host id = .ok r ∧ ipOf env r.host = .ok ip := by
  obtain ⟨r, hr, hip⟩ := Option.bind_eq_some_iff.mp h
  exact ⟨r, host_eq_ok.mpr hr, ipOf_eq_ok.mpr hip⟩

/-- Progress: the loop over the links of one host returns, if the addresses can be read and each link's position
    is a column of the matrix. -/
theorem exportLinks_ok {i : Nat} (src : Ipv4Host) : ∀ (ls : List RtLink) (j : Nat) {s : Routing},
    s.allocs = [] → (∀ l ∈ ls, ∃ ip, s.addr? env l.dst = some ip) →
    (∀ j' < ls.length, ∃ p, s.path.entry i (j + j') = .ok p) →
    ∃ s', exportLinks env i src j ls s = .ok (0, s') ∧ s'.allocs = [] := by
  intro ls
  induction ls with
  | nil => exact fun _ _ hal _ _ => ⟨_, rfl, hal⟩
  | cons l ls ih =>
      intro j s hal hdst hcol
      obtain ⟨p, hp⟩ := hcol 0 (by simp)
      have hcol' : ∀ j' < ls.length, ∃ p, s.path.entry i (j + 1 + j') = .ok p := by
        intro j' hj'
        obtain ⟨p', hp'⟩ := hcol (j' + 1) (by simpa using hj')
        exact ⟨p', by rw [show j + 1 + j' = j + (j' + 1) by omega]; exact hp'⟩
      unfold exportLinks
      rw [Nat.add_zero] at hp
      rw [hp, ok_bind]
      split
      · exact ih (j + 1) hal (fun l' hl' => hdst l' (by simp [hl'])) hcol'
      · obtain ⟨dst, hd⟩ := hdst l (by simp)
        obtain ⟨dr, hdr, hip⟩ := addr?_eq_some hd
        obtain ⟨d', hadd, -⟩ := s.edges.addToEnd_nil (packEdge src dst l.rttUs l.tsMs)
        simp only [hdr, hip, ok_bind, hal, hadd, Bool.false_eq_true, if_false]
        exact ih (j + 1) (s := { s with edges := d', allocs := [] }) rfl
          (fun l' hl' => hdst l' (by simp [hl'])) hcol'

/-- Progress of the loop over the hosts. -/
theorem exportHosts_ok : ∀ (ids : List HostId) (i : Nat) {s : Routing}, s.allocs = [] →
    (∀ i' id, ids[i']? = some id → Exportable env s (i + i') id) →
    ∃ s', exportHosts env i ids s = .ok (0, s') ∧ s'.allocs = [] := by
  intro ids
  induction ids with
  | nil => exact fun _ _ hal _ => ⟨_, rfl, hal⟩
  | cons id ids ih =>
      intro i s hal hx
      have h0 := hx 0 id rfl
      obtain ⟨src, hsrc⟩ := h0.src
      obtain ⟨r, hr, hip⟩ := addr?_eq_some hsrc
      have hg := host_eq_ok.mp hr
      obtain ⟨s1, h1, hal1⟩ := exportLinks_ok (i := i) src r.links.items 0 hal (h0.dst r hg)
        (fun j' hj' => by rw [Nat.zero_add]; exact h0.column r hg j' hj')
      obtain ⟨he, -⟩ := exportLinks_cases _ _ h1
      obtain ⟨s2, h2, hal2⟩ := ih (i + 1) hal1 (fun i' id' hi' => by
        rw [show i + 1 + i' = i + (i' + 1) by omega]
        exact (hx (i' + 1) id' hi').edgesOnly he)
      exact ⟨s2, by simp [exportHosts, hr, hip, h1, h2], hal2⟩

/-- **Without allocation failures `update_exported_edges` returns `0`** where all that it reads is there. -/
theorem updateExportedEdges_ok (hal : s.allocs = [])
    (hx : ∀ i id, s.hosts.items[i]? = some id → Exportable env s i id) :
    ∃ s', s.updateExportedEdges env = .ok (0, s') ∧ s'.allocs = [] :=
  exportHosts_ok _ 0 hal fun i id hi => by rw [Nat.zero_add]; exact hx i id hi

end Routing

end P2pVn
