import P2pVn.Routing.Types

/-!
# `Routing.Lookup` — what the binary searches of the table find

Hosts and links are both searched by the MAC of a record, a host directly and a link through its `dst`. The
facts are proved once, for elements that lead to a record by a function `f`.

- `MacSorted` / `MacStrict`: the elements are in (strict) order of their MACs.
- `findHost_some`, `findLink_some`: what is found has the MAC, on any table.
- `findHost_none`, `findLink_none`: on a sorted table of live records, nothing found means not there.

A search reads the MACs of the records that it passes, so on a table with a freed record it may fault
(`MacLive` is what rules that out). What it finds needs no order: the comparison said so. Only what it does not
find depends on the array being sorted, which is why a MAC that is changed in place after its record was sorted
in gets lost, and the record with it.
-/

namespace P2pVn
open CUb

namespace Routing

variable {env : ExtMem} {s : Routing} {α : Type} {f : α → HostId} {l : List α} {mac : EtherAddr}

/-- Reading a MAC returns exactly where the table has one. -/
theorem macOf_eq_ok {id : HostId} {m : EtherAddr} : s.macOf env id = .ok m ↔ s.mac? env id = some m := by
  unfold macOf
  split
  · rename_i m' hm; rw [hm]; simp
  · rename_i hm; rw [hm]; simp

theorem host_eq_ok {id : HostId} {h : RtHost} : s.host id = .ok h ↔ s.recs.get id = some h := by
  unfold host
  split
  · rename_i h' hh; rw [hh]; simp
  · rename_i hh; rw [hh]; simp

theorem ipOf_eq_ok {p : HostPtr} {ip : Ipv4Host} : ipOf env p = .ok ip ↔ p.deref env = some ip := by
  unfold ipOf
  split
  · rename_i ip' hip; rw [hip]; simp
  · rename_i hip; rw [hip]; simp

theorem itemAt_eq_ok {i : Nat} {id : HostId} : s.itemAt i = .ok id ↔ s.hosts.items[i]? = some id := by
  unfold itemAt
  split
  · rename_i id' hid; rw [hid]; simp
  · rename_i hid; rw [hid]; simp

theorem theLocal_eq_ok {id : HostId} : s.theLocal = .ok id ↔ s.localHost = some id := by
  unfold theLocal
  split
  · rename_i id' hid; rw [hid]; simp
  · rename_i hid; rw [hid]; simp

theorem mac?_of_get {id : HostId} {h : RtHost} {ip : Ipv4Host} (hg : s.recs.get id = some h)
    (hip : h.host.deref env = some ip) : s.mac? env id = some ip.mac := by
  simp [mac?, hg, hip]

/-- A record with a MAC is live. -/
theorem get_of_mac? {id : HostId} {m : EtherAddr} (h : s.mac? env id = some m) :
    ∃ r ip, s.recs.get id = some r ∧ r.host.deref env = some ip ∧ ip.mac = m := by
  unfold mac? at h
  obtain ⟨r, hr, h⟩ := Option.bind_eq_some_iff.mp h
  obtain ⟨ip, hip, rfl⟩ := Option.map_eq_some_iff.mp h
  exact ⟨r, ip, hr, hip, rfl⟩

/-! ## Order by MAC -/

/-- Every element leads to a record with a readable MAC. -/
def MacLive (env : ExtMem) (s : Routing) (f : α → HostId) (l : List α) : Prop :=
  ∀ a ∈ l, ∃ m, s.mac? env (f a) = some m

/-- The elements are ordered by `R` on their MACs. -/
def MacOrdered (R : EtherAddr → EtherAddr → Prop) (env : ExtMem) (s : Routing) (f : α → HostId)
    (l : List α) : Prop :=
  l.Pairwise fun a b => ∀ m m', s.mac? env (f a) = some m → s.mac? env (f b) = some m' → R m m'

/-- In order, possibly with several elements of one MAC. -/
abbrev MacSorted (env : ExtMem) (s : Routing) (f : α → HostId) (l : List α) : Prop :=
  MacOrdered (fun m m' => (memcmp m m').isLE) env s f l

/-- In strict order: no MAC twice. -/
abbrev MacStrict (env : ExtMem) (s : Routing) (f : α → HostId) (l : List α) : Prop :=
  MacOrdered MacLt env s f l

/-- A weaker order. -/
theorem MacOrdered.imp {R R' : EtherAddr → EtherAddr → Prop} (h : MacOrdered R env s f l)
    (hR : ∀ m m', R m m' → R' m m') : MacOrdered R' env s f l :=
  List.Pairwise.imp (fun hab m m' hm hm' => hR m m' (hab m m' hm hm')) h

/-- Removing hosts keeps the order. -/
theorem MacOrdered.sublist {R : EtherAddr → EtherAddr → Prop} {l' : List α} (h : MacOrdered R env s f l)
    (hs : l'.Sublist l) : MacOrdered R env s f l' := List.Pairwise.sublist hs h

/-- A strict order is an order. -/
theorem MacStrict.sorted (h : MacStrict env s f l) : MacSorted env s f l :=
  h.imp fun _ _ hlt => hlt.isLE

/-- Sorted, and no MAC twice, is strictly sorted. -/
theorem MacSorted.strict (h : MacSorted env s f l)
    (hne : l.Pairwise fun a b => ∀ m, s.mac? env (f a) = some m → s.mac? env (f b) ≠ some m) :
    MacStrict env s f l := by
  refine (h.and hne).imp ?_
  rintro a b ⟨hle, hne⟩ m m' hm hm'
  exact MacLt.of_isLE_ne (hle m m' hm hm') (fun he => hne m hm (he ▸ hm'))

/-- In a strictly sorted list no two elements share a MAC. -/
theorem MacStrict.ne (h : MacStrict env s f l) :
    l.Pairwise fun a b => ∀ m, s.mac? env (f a) = some m → s.mac? env (f b) ≠ some m :=
  List.Pairwise.imp (fun hab m hm hm' => MacLt.irrefl m (hab m m hm hm')) h

/-- In a strictly sorted list an element is determined by its MAC. -/
theorem MacStrict.inj (h : MacStrict env s f l) {a b : α} {m : EtherAddr} (ha : a ∈ l) (hb : b ∈ l)
    (hma : s.mac? env (f a) = some m) (hmb : s.mac? env (f b) = some m) : a = b := by
  obtain ⟨i, hi, rfl⟩ := List.getElem_of_mem ha
  obtain ⟨j, hj, rfl⟩ := List.getElem_of_mem hb
  rcases Nat.lt_trichotomy i j with hij | rfl | hij
  · exact absurd (List.pairwise_iff_getElem.mp h i j hi hj hij m m hma hmb) (MacLt.irrefl m)
  · rfl
  · exact absurd (List.pairwise_iff_getElem.mp h j i hj hi hij m m hmb hma) (MacLt.irrefl m)

/-- So are positions. -/
theorem MacStrict.index_inj (h : MacStrict env s f l) {i j : Nat} {a b : α} {m : EtherAddr}
    (ha : l[i]? = some a) (hb : l[j]? = some b)
    (hma : s.mac? env (f a) = some m) (hmb : s.mac? env (f b) = some m) : i = j := by
  obtain ⟨hi, rfl⟩ := List.getElem?_eq_some_iff.mp ha
  obtain ⟨hj, rfl⟩ := List.getElem?_eq_some_iff.mp hb
  rcases Nat.lt_trichotomy i j with hij | hij | hij
  · exact absurd (List.pairwise_iff_getElem.mp h i j hi hj hij m m hma hmb) (MacLt.irrefl m)
  · exact hij
  · exact absurd (List.pairwise_iff_getElem.mp h j i hj hi hij m m hmb hma) (MacLt.irrefl m)

/-- A strictly sorted list of live elements has no duplicates. -/
theorem MacStrict.nodup (h : MacStrict env s f l) (hl : MacLive env s f l) : l.Nodup := by
  refine List.Pairwise.imp_of_mem ?_ h
  rintro a b ha _ hab rfl
  obtain ⟨m, hm⟩ := hl a ha
  exact MacLt.irrefl m (hab m m hm hm)

/-! ## The searches -/

/-- The comparison that both searches make. -/
def cmpMac (env : ExtMem) (s : Routing) (mac : EtherAddr) (f : α → HostId) (a : α) : Ub Ordering := do
  let m ← s.macOf env (f a)
  pure (memcmp mac m)

/-- What the binary search finds has the MAC, whether the array is sorted or not. -/
theorem search_some {i : Nat} (h : bsearch (s.cmpMac env mac f) l = .ok (some i)) :
    ∃ a, l[i]? = some a ∧ s.mac? env (f a) = some mac := by
  obtain ⟨a, ha, hc⟩ := bsearch_eq h
  obtain ⟨m, hm, hcm⟩ := bind_eq_ok.mp hc
  simp only [pure_eq_ok, Except.ok.injEq] at hcm
  rw [memcmp_eq.mp hcm]
  exact ⟨a, ha, macOf_eq_ok.mp hm⟩

/-- The search returns if every MAC that it may read is there. -/
theorem search_ok (hl : MacLive env s f l) : ∃ r, bsearch (s.cmpMac env mac f) l = .ok r := by
  refine bsearch_ok fun a ha => ?_
  obtain ⟨m, hm⟩ := hl a ha
  exact ⟨memcmp mac m, by rw [cmpMac, macOf_eq_ok.mpr hm]; rfl⟩

/-- In a sorted array what it does not find is not there. -/
theorem search_none (hl : MacLive env s f l) (hs : MacSorted env s f l)
    (h : bsearch (s.cmpMac env mac f) l = .ok none) : ∀ a ∈ l, s.mac? env (f a) ≠ some mac := by
  -- read the MACs through a total function: the elements of `l` all have one
  let key : α → EtherAddr := fun a => (s.mac? env (f a)).getD EtherAddr.junk
  have hkey : ∀ a ∈ l, s.mac? env (f a) = some (key a) := by
    intro a ha
    obtain ⟨m, hm⟩ := hl a ha
    simp [key, hm]
  have hcmp : ∀ a ∈ l, s.cmpMac env mac f a = .ok (memcmp mac (key a)) := by
    intro a ha
    rw [cmpMac, macOf_eq_ok.mpr (hkey a ha)]
    rfl
  have hsorted : l.Pairwise fun a b => (memcmp (key a) (key b)).isLE :=
    List.Pairwise.imp_of_mem (fun ha hb hab => hab _ _ (hkey _ ha) (hkey _ hb)) hs
  intro a ha hm
  refine bsearch_none hcmp (keyOrdered_of_sorted hsorted mac) h a ha ?_
  rw [hkey a ha, Option.some.injEq] at hm
  exact memcmp_eq.mpr hm.symm

/-- `find_host_by_addr` finds a host with the MAC. -/
theorem findHost_some {i : Nat} (h : s.findHostByAddr env mac = .ok (some i)) :
    ∃ id, s.hosts.items[i]? = some id ∧ s.mac? env id = some mac := search_some h

/-- `find_link_by_addr` finds a link to a host with the MAC. -/
theorem findLink_some {links : List RtLink} {i : Nat}
    (h : s.findLinkByAddr env links mac = .ok (some i)) :
    ∃ l, links[i]? = some l ∧ s.mac? env l.dst = some mac := search_some h

/-! ## The table of hosts -/

/-- The records of the table are live and strictly ordered by MAC. -/
structure HostsOk (env : ExtMem) (s : Routing) : Prop where
  live : MacLive env s id s.hosts.items
  strict : MacStrict env s id s.hosts.items

namespace HostsOk

variable (hh : HostsOk env s)
include hh

theorem findHost_ok (mac : EtherAddr) : ∃ r, s.findHostByAddr env mac = .ok r := search_ok hh.live

theorem findHost_none (h : s.findHostByAddr env mac = .ok none) :
    ∀ id ∈ s.hosts.items, s.mac? env id ≠ some mac := search_none hh.live hh.strict.sorted h

/-- **A record of the table is found at its position.** -/
theorem findHost_index {i : Nat} {id : HostId} (hi : s.hosts.items[i]? = some id)
    (hm : s.mac? env id = some mac) : s.findHostByAddr env mac = .ok (some i) := by
  obtain ⟨r, hr⟩ := hh.findHost_ok mac
  cases r with
  | none => exact absurd hm (hh.findHost_none hr id (List.mem_of_getElem? hi))
  | some j =>
      obtain ⟨id', hj, hm'⟩ := findHost_some hr
      rw [hr, hh.strict.index_inj hi hj hm hm']

/-- Every host in the table has its record. -/
theorem get (id : HostId) (hid : id ∈ s.hosts.items) : ∃ h, s.recs.get id = some h := by
  obtain ⟨m, hm⟩ := hh.live id hid
  obtain ⟨h, _, hg, -, -⟩ := get_of_mac? hm
  exact ⟨h, hg⟩

/-- No host is in the table twice. -/
theorem nodup : s.hosts.items.Nodup := hh.strict.nodup hh.live

end HostsOk

end Routing

end P2pVn
