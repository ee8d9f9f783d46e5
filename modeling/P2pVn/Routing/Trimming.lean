import P2pVn.Routing.Peering
import P2pVn.Routing.Merging

/-!
# `Routing.Trimming` — `trim_disjoint_hosts`

`trim_host` frees the record that follows the trimmed one (`*h` is read again after the array moved down),
unless the trimmed one is the last. So a trim ends in one of two kinds of states: `HasDead`, where the table
holds a freed record and nearly every later call faults; or a smaller sound table (`Trims`), where links to
the freed record may be left over only if they are parallel to a removed one (`LinksOrDead`).

- `trimLoop_cases`: one of the two, for every trim that returns.
- `trimLoop_ok`: if only the last host is to be trimmed, the trim returns and everything stays sound.
-/

namespace P2pVn
open CUb

namespace Routing

variable {env : ExtMem} {q : Qsort} {s s' : Routing} {L : HostId} {R : EtherAddr → EtherAddr → Prop}

/-! ## Removing the links to a host -/

/-- What the loop over the other hosts does to one of them: the first link to the host, found by its MAC, is
    removed if there is one. -/
theorem unlinkFrom_cases {h src : HostId} (hu : s.unlinkFrom env h src = .ok s') :
    ∃ r m, s.recs.get src = some r ∧ s.mac? env h = some m ∧
      ((s.findLinkByAddr env r.links.items m = .ok none ∧ s' = s) ∨
        ∃ i l, r.links.items[i]? = some l ∧ s.mac? env l.dst = some m ∧
          s' = s.store src { r with links := r.links.remove i }) := by
  unfold unlinkFrom at hu
  obtain ⟨r, hr, hu⟩ := bind_eq_ok.mp hu
  obtain ⟨m, hm, hu⟩ := bind_eq_ok.mp hu
  obtain ⟨fl, hfl, hu⟩ := bind_eq_ok.mp hu
  refine ⟨r, m, host_eq_ok.mp hr, macOf_eq_ok.mp hm, ?_⟩
  cases fl with
  | none => cases hu; exact Or.inl ⟨hfl, rfl⟩
  | some i =>
      obtain ⟨l, hi, hmac⟩ := findLink_some hfl
      obtain ⟨r', hr', rfl⟩ := linkRemove_cases hu
      rw [host_eq_ok.mp hr, Option.some.injEq] at hr'
      subst hr'
      exact Or.inr ⟨i, l, hi, hmac, rfl⟩

/-- Records keep everything but some of their links. -/
structure Thins (s s' : Routing) : Prop where
  hosts : s'.hosts = s.hosts
  localHost : s'.localHost = s.localHost
  dead : ∀ id, s.recs.get id = none → s'.recs.get id = none
  thin : ∀ id r, s.recs.get id = some r → ∃ r', s'.recs.get id = some r' ∧ r'.host = r.host ∧
    r'.type = r.type ∧ r'.links.items.Sublist r.links.items
  frame : Frame s s'
  allocs : s'.allocs = s.allocs

namespace Thins

theorem refl (s : Routing) : Thins s s :=
  ⟨rfl, rfl, fun _ h => h, fun _ r hr => ⟨r, hr, rfl, rfl, List.Sublist.refl _⟩, Frame.refl s, rfl⟩

theorem trans {s'' : Routing} (h : Thins s s') (h' : Thins s' s'') : Thins s s'' where
  hosts := h'.hosts.trans h.hosts
  localHost := h'.localHost.trans h.localHost
  dead id hid := h'.dead id (h.dead id hid)
  thin id r hr := by
    obtain ⟨r1, hr1, hh1, ht1, hs1⟩ := h.thin id r hr
    obtain ⟨r2, hr2, hh2, ht2, hs2⟩ := h'.thin id r1 hr1
    exact ⟨r2, hr2, hh2.trans hh1, ht2.trans ht1, hs2.trans hs1⟩
  frame := h.frame.trans h'.frame
  allocs := h'.allocs.trans h.allocs

theorem mac? (h : Thins s s') (id : HostId) : s'.mac? env id = s.mac? env id := by
  unfold Routing.mac?
  cases hg : s.recs.get id with
  | none => rw [h.dead id hg]
  | some r =>
      obtain ⟨r', hr', hh, -, -⟩ := h.thin id r hg
      rw [hr', Option.bind_some, Option.bind_some, hh]

end Thins

/-- Nothing but links is lost by that. -/
theorem unlinkFrom_thins {h src : HostId} (hu : s.unlinkFrom env h src = .ok s') : Thins s s' := by
  obtain ⟨r, m, hr, -, ⟨-, rfl⟩ | ⟨i, l, -, -, rfl⟩⟩ := unlinkFrom_cases hu
  · exact Thins.refl _
  · refine ⟨rfl, rfl, fun id hid => ?_, fun id r0 hr0 => ?_, frame_store _ _ _, rfl⟩
    · rw [get_store hr, if_neg, hid]
      rintro rfl
      rw [hr] at hid
      cases hid
    · rw [get_store hr]
      split
      · rename_i he
        subst he
        rw [hr] at hr0
        cases hr0
        exact ⟨_, rfl, rfl, rfl, List.eraseIdx_sublist _ _⟩
      · exact ⟨r0, hr0, rfl, rfl, List.Sublist.refl _⟩

/-- The loop over all hosts thins, and reads every record on its way. -/
theorem unlinkAll_thins {h : HostId} : ∀ (ids : List HostId) {s s' : Routing},
    ids.foldlM (unlinkFrom env h) s = .ok s' →
      Thins s s' ∧ ∀ id ∈ ids, ∃ r, s.recs.get id = some r := by
  intro ids
  induction ids with
  | nil =>
      intro s s' hf
      cases hf
      exact ⟨Thins.refl s, nofun⟩
  | cons id ids ih =>
      intro s s' hf
      rw [List.foldlM_cons] at hf
      obtain ⟨s1, h1, hf⟩ := bind_eq_ok.mp hf
      have hthin := unlinkFrom_thins h1
      obtain ⟨hthin', hlive⟩ := ih hf
      obtain ⟨r, -, hr, -⟩ := unlinkFrom_cases h1
      refine ⟨hthin.trans hthin', fun j hj => ?_⟩
      rcases List.mem_cons.mp hj with rfl | hj
      · exact ⟨r, hr⟩
      · obtain ⟨r1, hr1⟩ := hlive j hj
        cases hg : s.recs.get j with
        | none => rw [hthin.dead j hg] at hr1; cases hr1
        | some r0 => exact ⟨r0, rfl⟩

/-- Thinning keeps the table sound. -/
theorem TableOk.thins (ht : TableOk env s L) (h : Thins s s') : TableOk env s' L := by
  -- every record that is there was there, with at least these links
  have hback : ∀ {id r'}, s'.recs.get id = some r' →
      ∃ r, s.recs.get id = some r ∧ r'.host = r.host ∧ r'.type = r.type ∧
        r'.links.items.Sublist r.links.items := by
    intro id r' hr'
    cases hg : s.recs.get id with
    | none => rw [h.dead id hg] at hr'; cases hr'
    | some r =>
        obtain ⟨r1, hr1, hrest⟩ := h.thin id r hg
        rw [hr1] at hr'
        cases hr'
        exact ⟨r, rfl, hrest⟩
  constructor
  · rw [h.hosts]; exact ht.live.congr fun id _ => h.mac? id
  · rw [h.hosts]; exact ht.strict.congr fun id _ => h.mac? id
  · exact h.localHost.trans ht.isLocal
  · rw [h.hosts]; exact ht.localMem
  · intro r' hr'
    obtain ⟨r, hr, -, htype, -⟩ := hback hr'
    rw [htype]
    exact ht.localType r hr
  · intro id hid r' hr' hloc
    obtain ⟨r, hr, -, htype, -⟩ := hback hr'
    exact ht.onlyLocal id (h.hosts ▸ hid) r hr (htype ▸ hloc)
  · intro id hid r' hr'
    obtain ⟨r, hr, hhost, htype, -⟩ := hback hr'
    exact (ht.kind id (h.hosts ▸ hid) r hr).congr htype hhost
  · intro r' hr'
    obtain ⟨r, hr, -, -, hsub⟩ := hback hr'
    exact ((ht.localStrict r hr).sublist hsub).congr fun l _ => h.mac? l.dst
  · intro r' hr' l hl
    obtain ⟨r, hr, -, -, hsub⟩ := hback hr'
    obtain ⟨hmem, hdir⟩ := ht.localDirect r hr l (hsub.subset hl)
    refine ⟨h.hosts ▸ hmem, fun r1 hr1 => ?_⟩
    obtain ⟨r2, hr2, -, htype, -⟩ := hback hr1
    rw [htype]
    exact hdir r2 hr2

/-- Nothing is unlinked from local's record when the host is not a direct peer. -/
theorem unlinkFrom_local (ht : TableOk env s L) {h : HostId} {r : RtHost} (hmem : h ∈ s.hosts.items)
    (hg : s.recs.get h = some r) (hn : r.type = .htNormal) {src : HostId}
    (hu : s.unlinkFrom env h src = .ok s') : s'.recs.get L = s.recs.get L := by
  obtain ⟨r0, m, hr0, hm, ⟨-, rfl⟩ | ⟨i, l, hi, hmac, rfl⟩⟩ := unlinkFrom_cases hu
  · rfl
  · rw [get_store hr0, if_neg]
    rintro rfl
    obtain ⟨hlmem, hdir⟩ := ht.localDirect r0 hr0 l (List.mem_of_getElem? hi)
    -- the link found leads to the host itself, which is not direct
    have he : l.dst = h := ht.strict.inj hlmem hmem hmac hm
    rw [he] at hdir
    rw [hdir r hg] at hn
    cases hn

/-- Local has no link to a normal host, so its record stays as it was. -/
theorem unlinkAll_local {h : HostId} : ∀ (ids : List HostId) {s s' : Routing} {r : RtHost},
    TableOk env s L → h ∈ s.hosts.items → s.recs.get h = some r → r.type = .htNormal →
    ids.foldlM (unlinkFrom env h) s = .ok s' → s'.recs.get L = s.recs.get L := by
  intro ids
  induction ids with
  | nil =>
      intro s s' r _ _ _ _ hf
      cases hf
      rfl
  | cons id ids ih =>
      intro s s' r ht hmem hg hn hf
      rw [List.foldlM_cons] at hf
      obtain ⟨s1, h1, hf⟩ := bind_eq_ok.mp hf
      have hthin := unlinkFrom_thins h1
      obtain ⟨r1, hr1, -, htype, -⟩ := hthin.thin h r hg
      rw [ih (ht.thins hthin) (hthin.hosts ▸ hmem) hr1 (htype.trans hn) hf]
      exact unlinkFrom_local ht hmem hg hn h1

/-! ## Links that may lead to a freed record -/

/-- As `LinksOk`, but a link may also lead to a freed record. -/
structure LinksOrDead (R : EtherAddr → EtherAddr → Prop) (env : ExtMem) (s : Routing) : Prop where
  dst : ∀ id ∈ s.hosts.items, ∀ h, s.recs.get id = some h → ∀ l ∈ h.links.items,
    (l.dst ∈ s.hosts.items ∨ s.recs.get l.dst = none) ∧ l.dst ≠ id
  ordered : ∀ id ∈ s.hosts.items, ∀ h, s.recs.get id = some h →
    MacOrdered R env s RtLink.dst h.links.items

theorem LinksOk.orDead (hl : LinksOk R env s) : LinksOrDead R env s :=
  ⟨fun id hid h hh l hlm => ⟨Or.inl (hl.dst id hid h hh l hlm).1, (hl.dst id hid h hh l hlm).2⟩, hl.ordered⟩

/-- Where no link of the table leads to a freed record, the links are sound. -/
theorem LinksOrDead.ok (hl : LinksOrDead R env s)
    (hlive : ∀ id ∈ s.hosts.items, ∀ h, s.recs.get id = some h → ∀ l ∈ h.links.items,
      s.recs.get l.dst ≠ none) : LinksOk R env s :=
  ⟨fun id hid h hh l hlm =>
    ⟨(hl.dst id hid h hh l hlm).1.resolve_right (hlive id hid h hh l hlm), (hl.dst id hid h hh l hlm).2⟩,
    hl.ordered⟩

/-- Links that lead to hosts or to freed records still do when there are fewer of them. -/
theorem LinksOrDead.thins (hl : LinksOrDead R env s) (hlive : ∀ id ∈ s.hosts.items, ∃ r, s.recs.get id = some r)
    (h : Thins s s') : LinksOrDead R env s' := by
  have hback : ∀ {id r'}, id ∈ s.hosts.items → s'.recs.get id = some r' →
      ∃ r, s.recs.get id = some r ∧ r'.links.items.Sublist r.links.items := by
    intro id r' hid hr'
    obtain ⟨r, hg⟩ := hlive id hid
    obtain ⟨r1, hr1, -, -, hsub⟩ := h.thin id r hg
    rw [hr1] at hr'
    cases hr'
    exact ⟨r, hg, hsub⟩
  constructor
  · intro id hid r' hr' l hlm
    rw [h.hosts] at hid ⊢
    obtain ⟨r, hr, hsub⟩ := hback hid hr'
    obtain ⟨hdst, hne⟩ := hl.dst id hid r hr l (hsub.subset hlm)
    exact ⟨hdst.imp_right (h.dead l.dst), hne⟩
  · intro id hid r' hr'
    rw [h.hosts] at hid
    obtain ⟨r, hr, hsub⟩ := hback hid hr'
    exact ((hl.ordered id hid r hr).sublist hsub).congr fun l _ => h.mac? l.dst

/-! ## Dropping the last host -/

/-- `id` left the table and was freed; nothing else changed. -/
structure Dropped (s s' : Routing) (id : HostId) : Prop where
  mem : ∀ j, j ∈ s'.hosts.items ↔ j ∈ s.hosts.items ∧ j ≠ id
  sub : s'.hosts.items.Sublist s.hosts.items
  localHost : s'.localHost = s.localHost
  get : ∀ j, s'.recs.get j = if j = id then none else s.recs.get j

namespace Dropped

variable {id : HostId} (hd : Dropped s s' id)
include hd

/-- Of the records only the one that was freed is gone. -/
theorem get_ne {j : HostId} (hj : j ≠ id) : s'.recs.get j = s.recs.get j := by
  rw [hd.get, if_neg hj]

theorem get_back {j : HostId} {r : RtHost} (hr : s'.recs.get j = some r) : s.recs.get j = some r := by
  rw [hd.get] at hr
  split at hr
  · cases hr
  · exact hr

theorem mac_ne {j : HostId} (hj : j ≠ id) : s'.mac? env j = s.mac? env j := by
  unfold Routing.mac?
  rw [hd.get_ne hj]

theorem mac_back {j : HostId} {m : EtherAddr} (hm : s'.mac? env j = some m) : s.mac? env j = some m := by
  obtain ⟨r, ip, hr, hip, rfl⟩ := get_of_mac? hm
  exact mac?_of_get (hd.get_back hr) hip

/-- Taking out and freeing a normal host keeps the table sound. -/
theorem tableOk (ht : TableOk env s L) {r : RtHost} (hg : s.recs.get id = some r)
    (hn : r.type = .htNormal) : TableOk env s' L := by
  have hneL : L ≠ id := (ht.direct_ne_local hg (by rw [hn]; decide)).symm
  constructor
  · intro j hj
    obtain ⟨hj, hne⟩ := (hd.mem j).mp hj
    obtain ⟨m, hm⟩ := ht.live j hj
    exact ⟨m, (hd.mac_ne hne).trans hm⟩
  · exact (ht.strict.sublist hd.sub).congr fun j hj => hd.mac_ne ((hd.mem j).mp hj).2
  · exact hd.localHost.trans ht.isLocal
  · exact (hd.mem L).mpr ⟨ht.localMem, hneL⟩
  · intro h hh
    exact ht.localType h (hd.get_back hh)
  · intro j hj h hh hloc
    exact ht.onlyLocal j ((hd.mem j).mp hj).1 h (hd.get_back hh) hloc
  · intro j hj h hh
    exact ht.kind j ((hd.mem j).mp hj).1 h (hd.get_back hh)
  · intro h hh
    exact List.Pairwise.imp
      (fun hab m m' hm hm' => hab m m' (hd.mac_back hm) (hd.mac_back hm')) (ht.localStrict h (hd.get_back hh))
  · intro h hh l hl
    obtain ⟨hmem, hdir⟩ := ht.localDirect h (hd.get_back hh) l hl
    refine ⟨(hd.mem l.dst).mpr ⟨hmem, ?_⟩, fun r' hr' => hdir r' (hd.get_back hr')⟩
    intro he
    rw [he] at hdir
    rw [hdir r hg] at hn
    cases hn

theorem linksOrDead (hl : LinksOrDead R env s) : LinksOrDead R env s' := by
  constructor
  · intro j hj h hh l hlm
    obtain ⟨hj, hne⟩ := (hd.mem j).mp hj
    obtain ⟨hdst, hne'⟩ := hl.dst j hj h (hd.get_back hh) l hlm
    refine ⟨?_, hne'⟩
    by_cases he : l.dst = id
    · right
      rw [hd.get, if_pos he]
    · rw [hd.get_ne he]
      exact hdst.imp_left fun hmem => (hd.mem l.dst).mpr ⟨hmem, he⟩
  · intro j hj h hh
    exact List.Pairwise.imp
      (fun hab m m' hm hm' => hab m m' (hd.mac_back hm) (hd.mac_back hm'))
      (hl.ordered j ((hd.mem j).mp hj).1 h (hd.get_back hh))

end Dropped

/-! ## `trim_host` -/

/-- The table holds a freed record. -/
def HasDead (s : Routing) : Prop := ∃ id ∈ s.hosts.items, id < s.recs.fresh ∧ s.recs.get id = none

instance (s : Routing) : Decidable (HasDead s) :=
  inferInstanceAs (Decidable (∃ id ∈ s.hosts.items, id < s.recs.fresh ∧ s.recs.get id = none))

/-- A freed record stays in a table that only grows. -/
theorem Grows.hasDead (h : Grows s s') (hd : HasDead s) : HasDead s' := by
  obtain ⟨id, hid, hlt, hg⟩ := hd
  exact ⟨id, h.hosts id hid, Nat.lt_of_lt_of_le hlt h.fresh, h.dead id hlt hg⟩

/-- A smaller table in which everybody is who they were. -/
structure Trims (s s' : Routing) (L : HostId) : Prop where
  frame : Frame s s'
  allocs : s'.allocs = s.allocs
  sub : s'.hosts.items.Sublist s.hosts.items
  localRec : s'.recs.get L = s.recs.get L
  kind : ∀ id ∈ s'.hosts.items, ∀ r, s.recs.get id = some r → ∃ r', s'.recs.get id = some r' ∧
    r'.host = r.host ∧ r'.type = r.type ∧ r'.links.items.Sublist r.links.items

theorem Trims.refl (s : Routing) (L : HostId) : Trims s s L :=
  ⟨Frame.refl s, rfl, List.Sublist.refl _, rfl, fun _ _ r hr => ⟨r, hr, rfl, rfl, List.Sublist.refl _⟩⟩

theorem Trims.trans {s'' : Routing} (h : Trims s s' L) (h' : Trims s' s'' L) : Trims s s'' L where
  frame := h.frame.trans h'.frame
  allocs := h'.allocs.trans h.allocs
  sub := h'.sub.trans h.sub
  localRec := h'.localRec.trans h.localRec
  kind id hid r hr := by
    obtain ⟨r1, hr1, hh1, ht1, hl1⟩ := h.kind id (h'.sub.subset hid) r hr
    obtain ⟨r2, hr2, hh2, ht2, hl2⟩ := h'.kind id hid r1 hr1
    exact ⟨r2, hr2, hh2.trans hh1, ht2.trans ht1, hl2.trans hl1⟩

/-- `trim_host` of a normal host: the links to it are removed, it leaves the table, and a record with an address
    of its own is freed. -/
theorem trimHost_cases {i : Nat} (h : s.trimHost env i = .ok s') :
    ∃ id r, s.hosts.items[i]? = some id ∧ s.recs.get id = some r ∧
      ((r.type ≠ .htNormal ∧ s' = s) ∨
        (r.type = .htNormal ∧ ∃ s1 victim, s.hosts.items.foldlM (unlinkFrom env id) s = .ok s1 ∧
          ((s.hosts.items.eraseIdx i)[i]? = some victim ∨
            ((s.hosts.items.eraseIdx i)[i]? = none ∧ victim = id)) ∧
          (∃ rv ip, s1.recs.get victim = some rv ∧ rv.host = .heap ip) ∧
          s' = { s1.hostRemove i with recs := s1.recs.free victim })) := by
  unfold trimHost at h
  obtain ⟨id, hid, h⟩ := bind_eq_ok.mp h
  obtain ⟨r, hr, h⟩ := bind_eq_ok.mp h
  refine ⟨id, r, itemAt_eq_ok.mp hid, host_eq_ok.mp hr, ?_⟩
  split at h
  · rename_i hn
    cases h
    exact Or.inl ⟨hn, rfl⟩
  · rename_i hn
    obtain ⟨s1, h1, h⟩ := bind_eq_ok.mp h
    have hhosts : (s1.hostRemove i).hosts.items = s.hosts.items.eraseIdx i := by
      rw [hostRemove, Da.items_remove, (unlinkAll_thins _ h1).1.hosts]
    -- `free_host` reads the record first, and frees an address of its own only
    have hfree : ∀ victim, (s1.hostRemove i).freeHost victim = .ok s' →
        (∃ rv ip, s1.recs.get victim = some rv ∧ rv.host = .heap ip) ∧
          s' = { s1.hostRemove i with recs := s1.recs.free victim } := by
      intro victim hv
      obtain ⟨rv, hrv, hv⟩ := bind_eq_ok.mp hv
      cases hhost : rv.host with
      | env p =>
          simp only [hhost] at hv
          cases hv
      | heap ip =>
          simp only [hhost] at hv
          cases hv
          exact ⟨⟨rv, ip, host_eq_ok.mp hrv, hhost⟩, rfl⟩
    refine Or.inr ⟨Decidable.not_not.mp hn, s1, ?_⟩
    simp only [hhosts] at h
    -- the second lookup of the index finds the neighbour, if there is one
    split at h
    · rename_i victim hv
      exact ⟨victim, h1, Or.inl hv, hfree victim h⟩
    · rename_i hv
      exact ⟨id, h1, Or.inr ⟨hv, rfl⟩, hfree id h⟩

/-- On a table with a freed record nothing is trimmed: `trim_host` would read that record. -/
theorem trimHost_of_hasDead {i : Nat} (h : s.trimHost env i = .ok s') (hd : HasDead s) : s' = s := by
  obtain ⟨id, r, -, -, ⟨-, rfl⟩ | ⟨-, s1, victim, h1, -⟩⟩ := trimHost_cases h
  · rfl
  · obtain ⟨j, hj, -, hg⟩ := hd
    obtain ⟨rj, hrj⟩ := (unlinkAll_thins _ h1).2 j hj
    rw [hg] at hrj
    cases hrj

/-- In a list without duplicates, erasing a position erases its element. -/
theorem mem_eraseIdx_of_nodup {l : List HostId} (hn : l.Nodup) {i : Nat} {id : HostId}
    (hi : l[i]? = some id) (j : HostId) : j ∈ l.eraseIdx i ↔ j ∈ l ∧ j ≠ id := by
  rw [List.mem_eraseIdx_iff_getElem?]
  constructor
  · rintro ⟨k, hki, hk⟩
    refine ⟨List.mem_of_getElem? hk, ?_⟩
    rintro rfl
    obtain ⟨hk', -⟩ := List.getElem?_eq_some_iff.mp hk
    exact hki ((List.getElem?_inj hk' hn).mp (hk.trans hi.symm))
  · rintro ⟨hj, hne⟩
    obtain ⟨k, hk⟩ := List.getElem?_of_mem hj
    refine ⟨k, ?_, hk⟩
    rintro rfl
    rw [hi] at hk
    exact hne (Option.some.inj hk).symm

/-- Behind the last element nothing moved down, so the trimmed record itself is freed. -/
theorem dropped_of_thins (ht : HostsOk env s) {s1 : Routing} (h1 : Thins s s1) {i : Nat} {id : HostId}
    (hi : s.hosts.items[i]? = some id) :
    Dropped s1 { s1.hostRemove i with recs := s1.recs.free id } id where
  mem j := by
    show j ∈ s1.hosts.items.eraseIdx i ↔ _
    rw [h1.hosts]
    exact mem_eraseIdx_of_nodup ht.nodup hi j
  sub := List.eraseIdx_sublist _ _
  localHost := rfl
  get j := CellHeap.get_free _ _ _

/-- A record that stays in the table is freed: its neighbour was trimmed. -/
theorem Thins.hasDead_freed {s1 : Routing} (h : Thins s s1) (ht : HostsOk env s) {i : Nat} {victim : HostId}
    (hv : victim ∈ s.hosts.items.eraseIdx i) : HasDead { s1.hostRemove i with recs := s1.recs.free victim } := by
  obtain ⟨r, hr⟩ := ht.get victim (List.mem_of_mem_eraseIdx hv)
  obtain ⟨r1, hr1, -⟩ := h.thin victim r hr
  refine ⟨victim, ?_, ?_, by rw [CellHeap.get_free, if_pos rfl]⟩
  · show victim ∈ s1.hosts.items.eraseIdx i
    rw [h.hosts]
    exact hv
  · rw [CellHeap.fresh_free]
    exact CellHeap.lt_fresh hr1

theorem Thins.trims (h : Thins s s') (hL : s'.recs.get L = s.recs.get L) : Trims s s' L :=
  ⟨h.frame, h.allocs, by rw [h.hosts], hL, fun id _ r hr => h.thin id r hr⟩

theorem Dropped.trims {id : HostId} (hd : Dropped s s' id) (hf : Frame s s')
    (hal : s'.allocs = s.allocs) (hne : L ≠ id) : Trims s s' L :=
  ⟨hf, hal, hd.sub, hd.get_ne hne, fun j hj r hr =>
    ⟨r, by rw [hd.get_ne ((hd.mem j).mp hj).2, hr], rfl, rfl, List.Sublist.refl _⟩⟩

/-- **What `trim_host` leaves behind**: a freed record in the table, or a smaller sound table. -/
theorem trimHost_outcome {i : Nat} (h : s.trimHost env i = .ok s') (ht : TableOk env s L) :
    HasDead s' ∨ (TableOk env s' L ∧ Trims s s' L ∧
      (LinksOrDead R env s → LinksOrDead R env s')) := by
  obtain ⟨id, r, hi, hg, ⟨-, rfl⟩ | ⟨hn, s1, victim, h1, hv, -, rfl⟩⟩ := trimHost_cases h
  · exact Or.inr ⟨ht, Trims.refl _ _, fun hl => hl⟩
  · have hmem := List.mem_of_getElem? hi
    obtain ⟨hthin, hlive⟩ := unlinkAll_thins _ h1
    have hne : L ≠ id := (ht.direct_ne_local hg (by rw [hn]; decide)).symm
    rcases hv with hv | ⟨-, rfl⟩
    · exact Or.inl (hthin.hasDead_freed ht.hostsOk (List.mem_of_getElem? hv))
    · right
      have hd := dropped_of_thins ht.hostsOk hthin hi
      obtain ⟨r1, hr1, -, htype, -⟩ := hthin.thin victim r hg
      have hloc := unlinkAll_local _ ht hmem hg hn h1
      refine ⟨hd.tableOk (ht.thins hthin) hr1 (htype.trans hn), ?_, fun hl => ?_⟩
      · exact (hthin.trims hloc).trans (hd.trims ⟨rfl, rfl, rfl, rfl, rfl⟩ rfl hne)
      · exact hd.linksOrDead (hl.thins hlive hthin)

/-! ## The loop -/

/-- Trimming changes hosts and records only. -/
theorem trimHost_frame {i : Nat} (h : s.trimHost env i = .ok s') : Frame s s' ∧ s'.allocs = s.allocs := by
  obtain ⟨id, r, -, -, ⟨-, rfl⟩ | ⟨-, s1, victim, h1, -, -, rfl⟩⟩ := trimHost_cases h
  · exact ⟨Frame.refl _, rfl⟩
  · have hthin := (unlinkAll_thins _ h1).1
    exact ⟨hthin.frame.trans ⟨rfl, rfl, rfl, rfl, rfl⟩, hthin.allocs⟩

/-- **Induction over the loop**: what each trim of a disconnected host keeps, the loop keeps. -/
theorem trimLoop_induct {P : Routing → Prop} {srcI : Nat}
    (hstep : ∀ {i : Nat} {s s' : Routing}, s.path.entry srcI i = .ok 0 → i ≠ srcI → s.trimHost env i = .ok s' →
      P s → P s') : ∀ (fuel dstI : Nat) {s s' : Routing}, trimLoop env srcI fuel dstI s = .ok s' → P s → P s' := by
  intro fuel
  induction fuel with
  | zero =>
      intro dstI s s' h hs
      cases h
      exact hs
  | succ fuel ih =>
      intro dstI s s' h hs
      unfold trimLoop at h
      split at h
      · obtain ⟨path, hp, h⟩ := bind_eq_ok.mp h
        split at h
        · rename_i hdis
          obtain ⟨s1, h1, h⟩ := bind_eq_ok.mp h
          exact ih _ h (hstep (hdis.1 ▸ hp) hdis.2 h1 hs)
        · exact ih _ h hs
      · cases h
        exact hs

/-- Trimming allocates nothing and leaves the matrices alone. -/
theorem trimLoop_frame {srcI : Nat} (fuel dstI : Nat) (h : trimLoop env srcI fuel dstI s = .ok s') :
    Frame s s' ∧ s'.allocs = s.allocs := by
  refine trimLoop_induct (P := fun t => Frame s t ∧ t.allocs = s.allocs) ?_ fuel dstI h ⟨Frame.refl _, rfl⟩
  rintro i t t' - - h1 ⟨hf, hal⟩
  obtain ⟨hf1, hal1⟩ := trimHost_frame h1
  exact ⟨hf.trans hf1, hal1.trans hal⟩

/-- Once a freed record is in the table, nothing more is trimmed by a loop that returns: it would read it. -/
theorem trimLoop_of_hasDead {srcI : Nat} (fuel dstI : Nat) (h : trimLoop env srcI fuel dstI s = .ok s')
    (hd : HasDead s) : s' = s := by
  refine trimLoop_induct (P := fun t => t = s) ?_ fuel dstI h rfl
  rintro i t t' - - h1 rfl
  exact trimHost_of_hasDead h1 hd

/-- **Run lemma: what trimming leaves behind.** -/
theorem trimLoop_cases {srcI : Nat} (fuel dstI : Nat) (h : trimLoop env srcI fuel dstI s = .ok s')
    (ht : TableOk env s L) : HasDead s' ∨ (TableOk env s' L ∧ Trims s s' L ∧
      (LinksOrDead R env s → LinksOrDead R env s')) := by
  refine trimLoop_induct (P := fun t => HasDead t ∨ (TableOk env t L ∧ Trims s t L ∧
    (LinksOrDead R env s → LinksOrDead R env t))) ?_ fuel dstI h (Or.inr ⟨ht, Trims.refl _ _, id⟩)
  rintro i t t' - - h1 (hd | ⟨ht1, hk1, hl1⟩)
  · -- nothing is trimmed any more
    exact Or.inl (trimHost_of_hasDead h1 hd ▸ hd)
  · rcases trimHost_outcome (R := R) h1 ht1 with hd | ⟨ht2, hk2, hl2⟩
    · exact Or.inl hd
    · exact Or.inr ⟨ht2, hk1.trans hk2, fun hl => hl2 (hl1 hl)⟩

/-- Which hosts the loop is about to trim: normal ones that the matrix shows as disconnected. -/
def ToTrim (s : Routing) (srcI i : Nat) : Prop :=
  i ≠ srcI ∧ s.path.entry srcI i = .ok 0 ∧
    ∃ id r, s.hosts.items[i]? = some id ∧ s.recs.get id = some r ∧ r.type = .htNormal

theorem ToTrim.lt {srcI i : Nat} (h : ToTrim s srcI i) : i < s.hosts.ct := by
  obtain ⟨-, -, id, r, hid, -⟩ := h
  exact (List.getElem?_eq_some_iff.mp hid).1

/-- A host that is not normal is left alone. -/
theorem trimHost_kept {i : Nat} {id : HostId} {r : RtHost} (hi : s.hosts.items[i]? = some id)
    (hg : s.recs.get id = some r) (hn : r.type ≠ .htNormal) : s.trimHost env i = .ok s := by
  simp only [trimHost, itemAt_eq_ok.mpr hi, host_eq_ok.mpr hg, ok_bind, ne_eq, hn, not_false_eq_true, if_true]
  rfl

/-- Trimming a normal host unlinks it, takes it out, and frees the record that is then at its position, or
    the host itself where it was the last one. -/
theorem trimHost_normal {i : Nat} {id : HostId} {r : RtHost} (hi : s.hosts.items[i]? = some id)
    (hg : s.recs.get id = some r) (hn : r.type = .htNormal) (h : s.trimHost env i = .ok s') :
    ∃ s1 victim, Thins s s1 ∧ s' = { s1.hostRemove i with recs := s1.recs.free victim } ∧
      (s.hosts.items[i + 1]? = some victim ∨ (s.hosts.items[i + 1]? = none ∧ victim = id)) := by
  obtain ⟨id', r', hi', hg', ⟨hn', -⟩ | ⟨-, s1, victim, h1, hv, -, he⟩⟩ := trimHost_cases h
  · rw [hi] at hi'
    cases hi'
    rw [hg] at hg'
    cases hg'
    exact absurd hn hn'
  · rw [hi] at hi'
    cases hi'
    have hnext : (s.hosts.items.eraseIdx i)[i]? = s.hosts.items[i + 1]? := by
      rw [List.getElem?_eraseIdx, if_neg (Nat.lt_irrefl i)]
    exact ⟨s1, victim, (unlinkAll_thins _ h1).1, he, hnext ▸ hv⟩

/-- **The wrong record is freed** when the trimmed host is not the last: one that stays in the table. -/
theorem trimHost_not_last {i : Nat} {id : HostId} {r : RtHost} (ht : HostsOk env s)
    (hi : s.hosts.items[i]? = some id) (hg : s.recs.get id = some r) (hn : r.type = .htNormal)
    (hlt : i + 1 < s.hosts.ct) (h : s.trimHost env i = .ok s') : HasDead s' := by
  obtain ⟨s1, victim, hthin, rfl, hv | ⟨hv, -⟩⟩ := trimHost_normal hi hg hn h
  · have hvmem : victim ∈ s.hosts.items.eraseIdx i :=
      List.mem_eraseIdx_iff_getElem?.mpr ⟨i + 1, by omega, hv⟩
    exact hthin.hasDead_freed ht hvmem
  · rw [List.getElem?_eq_getElem hlt] at hv
    cases hv

/-- The last host is taken out and freed, and the table gets shorter. -/
theorem trimHost_last {i : Nat} {id : HostId} {r : RtHost} (ht : HostsOk env s)
    (hi : s.hosts.items[i]? = some id) (hg : s.recs.get id = some r) (hn : r.type = .htNormal)
    (hend : i + 1 = s.hosts.ct) (h : s.trimHost env i = .ok s') :
    s'.hosts.ct ≤ i ∧ ∀ j, j ∈ s'.hosts.items ↔ j ∈ s.hosts.items ∧ j ≠ id := by
  obtain ⟨s1, victim, hthin, rfl, hv⟩ := trimHost_normal hi hg hn h
  have hlt : i < s.hosts.items.length := (List.getElem?_eq_some_iff.mp hi).1
  rw [List.getElem?_eq_none (show s.hosts.items.length ≤ i + 1 by rw [Da.ct] at hend; omega)] at hv
  obtain rfl := (hv.resolve_left (by simp)).2
  have hd := dropped_of_thins ht hthin hi
  refine ⟨?_, fun j => by rw [hd.mem, hthin.hosts]⟩
  show (s1.hosts.items.eraseIdx i).length ≤ i
  rw [hthin.hosts, List.length_eraseIdx_of_lt hlt]
  rw [Da.ct] at hend
  omega

/-- Behind the last host the loop ends. -/
theorem trimLoop_stop {srcI dstI : Nat} (fuel : Nat) (hle : s.hosts.ct ≤ dstI) :
    trimLoop env srcI fuel dstI s = .ok s := by
  cases fuel with
  | zero => rfl
  | succ fuel =>
      unfold trimLoop
      rw [if_neg (by omega)]
      rfl

/-- A host that is not to be trimmed is passed over. -/
theorem trimLoop_pass {srcI fuel dstI : Nat} (ht : HostsOk env s) (hlt : dstI < s.hosts.ct) {p : UInt32}
    (hp : s.path.entry srcI dstI = .ok p) (hno : ¬ ToTrim s srcI dstI) :
    trimLoop env srcI (fuel + 1) dstI s = trimLoop env srcI fuel (dstI + 1) s := by
  obtain ⟨id, hid⟩ : ∃ id, s.hosts.items[dstI]? = some id := ⟨_, List.getElem?_eq_getElem hlt⟩
  obtain ⟨r, hr⟩ := ht.get id (List.mem_of_getElem? hid)
  conv_lhs => unfold trimLoop
  rw [if_pos hlt, hp, ok_bind]
  split
  · rename_i hdis
    have hn : r.type ≠ .htNormal := fun hn => hno ⟨hdis.2, hdis.1 ▸ hp, id, r, hid, hr, hn⟩
    rw [trimHost_kept hid hr hn, ok_bind]
  · rfl

/-- Before the last host the loop reads the matrix. -/
theorem trimLoop_read {srcI fuel dstI : Nat} (h : trimLoop env srcI (fuel + 1) dstI s = .ok s')
    (hlt : dstI < s.hosts.ct) : ∃ p, s.path.entry srcI dstI = .ok p := by
  unfold trimLoop at h
  rw [if_pos hlt] at h
  obtain ⟨p, hp, -⟩ := bind_eq_ok.mp h
  exact ⟨p, hp⟩

/-- A host that is to be trimmed is trimmed. -/
theorem trimLoop_trim {srcI fuel dstI : Nat} (htrim : ToTrim s srcI dstI) :
    trimLoop env srcI (fuel + 1) dstI s = s.trimHost env dstI >>= trimLoop env srcI fuel (dstI + 1) := by
  have hlt : dstI < s.hosts.ct := htrim.lt
  obtain ⟨hne, h0, -⟩ := htrim
  conv_lhs => unfold trimLoop
  rw [if_pos hlt, h0, ok_bind, if_pos ⟨rfl, hne⟩]

/-- From `dst_i` on, exactly the hosts of `s` that are to be trimmed are removed, at most the last one. -/
def Trimmed (s s' : Routing) (srcI dstI : Nat) : Prop :=
  (∀ i, dstI ≤ i → ToTrim s srcI i → i + 1 = s.hosts.ct) ∧
    ∀ i id, s.hosts.items[i]? = some id → (id ∈ s'.hosts.items ↔ ¬ (dstI ≤ i ∧ ToTrim s srcI i))

/-- Where no host from here on is to be trimmed, nothing is. -/
theorem Trimmed.done {srcI dstI : Nat} (hno : ∀ i, dstI ≤ i → ¬ ToTrim s srcI i) : Trimmed s s srcI dstI :=
  ⟨fun i hi h => absurd h (hno i hi), fun i _ hid =>
    ⟨fun _ h => hno i h.1 h.2, fun _ => List.mem_of_getElem? hid⟩⟩

/-- Passing over a host that is not to be trimmed. -/
theorem Trimmed.pass {srcI dstI : Nat} (hno : ¬ ToTrim s srcI dstI) (h : Trimmed s s' srcI (dstI + 1)) :
    Trimmed s s' srcI dstI := by
  have hiff : ∀ i, (dstI ≤ i ∧ ToTrim s srcI i) ↔ (dstI + 1 ≤ i ∧ ToTrim s srcI i) := by
    intro i
    refine ⟨fun hi => ⟨?_, hi.2⟩, fun hi => ⟨by omega, hi.2⟩⟩
    rcases Nat.lt_or_eq_of_le hi.1 with hlt | rfl
    · exact hlt
    · exact absurd hi.2 hno
  exact ⟨fun i hi ht => h.1 i ((hiff i).mp ⟨hi, ht⟩).1 ht, fun i id hid => by rw [h.2 i id hid, hiff]⟩

/-- Removing the last host, which is to be trimmed. -/
theorem Trimmed.last {srcI dstI : Nat} {id : HostId} (ht : HostsOk env s) (hid : s.hosts.items[dstI]? = some id)
    (hend : dstI + 1 = s.hosts.ct) (htrim : ToTrim s srcI dstI)
    (hmem : ∀ j, j ∈ s'.hosts.items ↔ j ∈ s.hosts.items ∧ j ≠ id) : Trimmed s s' srcI dstI := by
  refine ⟨fun i hi h => by have := h.lt; omega, fun i idi hidi => ?_⟩
  have hilt : i < s.hosts.ct := (List.getElem?_eq_some_iff.mp hidi).1
  have hiff : idi = id ↔ i = dstI := by
    constructor
    · rintro rfl
      exact (List.getElem?_inj hilt ht.nodup).mp (hidi.trans hid.symm)
    · rintro rfl
      rw [hid] at hidi
      exact (Option.some.inj hidi).symm
  rw [hmem, ne_eq, hiff]
  constructor
  · rintro ⟨-, hne⟩ ⟨hle, -⟩
    omega
  · intro hnot
    refine ⟨List.mem_of_getElem? hidi, ?_⟩
    rintro rfl
    exact hnot ⟨Nat.le_refl _, htrim⟩

/-- **Run lemma: which hosts a trim removes** that leaves no freed record behind: those it is to trim, and
    that is at most the last one. -/
theorem trimLoop_trimmed {srcI : Nat} (ht : HostsOk env s) : ∀ (fuel dstI : Nat) {s' : Routing},
    trimLoop env srcI fuel dstI s = .ok s' → ¬ HasDead s' → s.hosts.ct ≤ dstI + fuel →
    Trimmed s s' srcI dstI := by
  have hbehind : ∀ dstI, s.hosts.ct ≤ dstI → ∀ i, dstI ≤ i → ¬ ToTrim s srcI i := by
    intro dstI hle i hi h
    have := h.lt
    omega
  intro fuel
  induction fuel with
  | zero =>
      intro dstI s' h _ hfuel
      cases h
      exact .done (hbehind dstI (by omega))
  | succ fuel ih =>
      intro dstI s' h hdead hfuel
      by_cases hlt : dstI < s.hosts.ct
      · obtain ⟨p, hp⟩ := trimLoop_read h hlt
        by_cases htrim : ToTrim s srcI dstI
        · rw [trimLoop_trim htrim] at h
          obtain ⟨s1, h1, hrest⟩ := bind_eq_ok.mp h
          obtain ⟨-, -, id, r, hid, hr, hn⟩ := id htrim
          by_cases hend : dstI + 1 = s.hosts.ct
          · obtain ⟨hct, hmem⟩ := trimHost_last ht hid hr hn hend h1
            rw [trimLoop_stop fuel (by omega)] at hrest
            cases hrest
            exact .last ht hid hend htrim hmem
          · have hdead1 := trimHost_not_last ht hid hr hn (by omega) h1
            obtain rfl := trimLoop_of_hasDead _ _ hrest hdead1
            exact absurd hdead1 hdead
        · rw [trimLoop_pass ht hlt hp htrim] at h
          exact .pass htrim (ih (dstI + 1) h hdead (by omega))
      · rw [trimLoop_stop _ (by omega)] at h
        cases h
        exact .done (hbehind dstI (by omega))

/-! ## Trimming the last host only -/

theorem HostsOk.thins (ht : HostsOk env s) (h : Thins s s') : HostsOk env s' where
  live := h.hosts ▸ ht.live.congr fun id _ => h.mac? id
  strict := h.hosts ▸ ht.strict.congr fun id _ => h.mac? id

/-- Fewer links stay sound. -/
theorem LinksOk.thins (hl : LinksOk R env s) (ht : HostsOk env s) (h : Thins s s') :
    LinksOk R env s' := by
  refine (hl.orDead.thins ht.get h).ok fun id hid r' hr' l hlm => ?_
  rw [h.hosts] at hid
  obtain ⟨r, hr⟩ := ht.get id hid
  obtain ⟨r1, hr1, -, -, hsub⟩ := h.thin id r hr
  rw [hr1] at hr'
  cases hr'
  obtain ⟨rd, hrd⟩ := ht.get l.dst (hl.dst id hid r hr l (hsub.subset hlm)).1
  obtain ⟨rd', hrd', -⟩ := h.thin l.dst rd hrd
  rw [hrd']
  exact nofun

/-- Progress: in a sound table the loop over the other hosts returns, and removes every link to the host. -/
theorem unlinkFrom_ok (ht : HostsOk env s) (hl : LinksOk MacLt env s) {h src : HostId} {m : EtherAddr}
    (hm : s.mac? env h = some m) (hsrc : src ∈ s.hosts.items) :
    ∃ s', s.unlinkFrom env h src = .ok s' ∧ s'.allocs = s.allocs ∧
      ∀ r, s'.recs.get src = some r → ∀ l ∈ r.links.items, s.mac? env l.dst ≠ some m := by
  obtain ⟨r, hr⟩ := ht.get src hsrc
  have hlive : MacLive env s RtLink.dst r.links.items :=
    fun l hlm => ht.live l.dst (hl.dst src hsrc r hr l hlm).1
  have hord : MacStrict env s RtLink.dst r.links.items := hl.ordered src hsrc r hr
  obtain ⟨fl, hfl⟩ : ∃ fl, s.findLinkByAddr env r.links.items m = .ok fl := search_ok hlive
  unfold unlinkFrom
  simp only [host_eq_ok.mpr hr, macOf_eq_ok.mpr hm, hfl, ok_bind]
  cases fl with
  | none =>
      refine ⟨s, rfl, rfl, fun r' hr' => ?_⟩
      rw [hr] at hr'
      cases hr'
      exact search_none hlive hord.sorted hfl
  | some i =>
      obtain ⟨l0, hi, hmac⟩ := findLink_some hfl
      simp only [linkRemove, host_eq_ok.mpr hr, ok_bind]
      refine ⟨_, rfl, rfl, fun r' hr' => ?_⟩
      rw [get_store hr, if_pos rfl] at hr'
      cases hr'
      exact hord.eraseIdx_ne hi hmac

/-- On a table with strictly ordered links, the loop removes every link to the host. -/
theorem unlinkAll_ok {h : HostId} {m : EtherAddr} : ∀ (ids : List HostId) {s : Routing},
    HostsOk env s → LinksOk MacLt env s → s.mac? env h = some m → (∀ j ∈ ids, j ∈ s.hosts.items) →
    ∃ s', ids.foldlM (unlinkFrom env h) s = .ok s' ∧ s'.allocs = s.allocs ∧
      ∀ j ∈ ids, ∀ r, s'.recs.get j = some r → ∀ l ∈ r.links.items, s.mac? env l.dst ≠ some m := by
  intro ids
  induction ids with
  | nil => exact fun _ _ _ _ => ⟨_, rfl, rfl, nofun⟩
  | cons id ids ih =>
      intro s ht hl hm hids
      obtain ⟨s1, h1, hal1, hgone⟩ := unlinkFrom_ok ht hl hm (hids id (by simp))
      have hthin := unlinkFrom_thins h1
      obtain ⟨s2, h2, hal2, hrest⟩ := ih (ht.thins hthin) (hl.thins ht hthin)
        ((hthin.mac? h).trans hm) (fun j hj => hthin.hosts ▸ hids j (by simp [hj]))
      have hthin2 := (unlinkAll_thins _ h2).1
      refine ⟨s2, by rw [List.foldlM_cons, h1, ok_bind, h2], hal2.trans hal1, fun j hj r hr l hlm => ?_⟩
      rcases List.mem_cons.mp hj with rfl | hj
      · obtain ⟨r0, hr0⟩ := ht.get j (hids j (by simp))
        obtain ⟨r1, hr1, -⟩ := hthin.thin j r0 hr0
        obtain ⟨r2, hr2, -, -, hsub⟩ := hthin2.thin j r1 hr1
        rw [hr] at hr2
        cases hr2
        exact hgone r1 hr1 l (hsub.subset hlm)
      · rw [← hthin.mac? l.dst]
        exact hrest j hj r hr l hlm

end Routing

end P2pVn
