import P2pVn.Routing.Ops
import P2pVn.Routing.Lookup

/-!
# `Routing.Table` — the representation invariant of the table, and what each helper does to it

`TableOk` is what every lookup relies on: the records of `hosts` are live and strictly ordered by MAC, the
local record is the one of type `HT_LOCAL`, and local's own links lead to direct peers of the table.
`LinksOk R` says the same of everybody's links, ordered by `R`: weakly (parallel links possible) or
strictly. Neither mentions matrices, exported edges or allocations.

Beside them stand the relations between the states before and after a helper: `Frame` (the matrices and
the exported edges are left alone), `Same` (the table is), `Grows` (nobody disappears from it) and `Keeps`
(nobody is promoted or demoted, and local's record is untouched). An invariant that speaks of hosts,
records and MACs only follows the table along `Same` by itself (`TableOk.same`, `LinksOk.same`).

Every helper has an inversion lemma (`…_cases`, `…_inv`) that says all it can do when it returns; the
invariants are preserved by what the inversion lemmas describe, and no proof below unfolds a helper twice.
-/

namespace P2pVn
open CUb

namespace Routing

variable {env : ExtMem} {q : Qsort} {s s' : Routing} {L : HostId}

/-! ## The invariants -/

/-- A normal record owns a copy of its address, a direct one points into its peer. -/
def KindOk (h : RtHost) : Prop :=
  match h.type with
  | .htNormal => ∃ ip, h.host = .heap ip
  | .htDirect => ∃ d, h.host = .env (.dp d)
  | .htLocal => True

/-- Whether a record's address is of the right kind depends on its type and its pointer alone. -/
theorem KindOk.congr {h h' : RtHost} (hk : KindOk h) (ht : h'.type = h.type) (hh : h'.host = h.host) :
    KindOk h' := by
  unfold KindOk at hk ⊢
  rw [ht, hh]
  exact hk

/-- The table is sound, and `L` is the local record. -/
structure TableOk (env : ExtMem) (s : Routing) (L : HostId) : Prop where
  live : MacLive env s id s.hosts.items
  strict : MacStrict env s id s.hosts.items
  isLocal : s.localHost = some L
  localMem : L ∈ s.hosts.items
  localType : ∀ h, s.recs.get L = some h → h.type = .htLocal
  onlyLocal : ∀ id ∈ s.hosts.items, ∀ h, s.recs.get id = some h → h.type = .htLocal → id = L
  kind : ∀ id ∈ s.hosts.items, ∀ h, s.recs.get id = some h → KindOk h
  localStrict : ∀ h, s.recs.get L = some h → MacStrict env s RtLink.dst h.links.items
  localDirect : ∀ h, s.recs.get L = some h → ∀ l ∈ h.links.items,
    l.dst ∈ s.hosts.items ∧ ∀ r, s.recs.get l.dst = some r → r.type = .htDirect

/-- Every link of the table leads to another record of the table, and the links of a record are ordered. -/
structure LinksOk (R : EtherAddr → EtherAddr → Prop) (env : ExtMem) (s : Routing) : Prop where
  dst : ∀ id ∈ s.hosts.items, ∀ h, s.recs.get id = some h → ∀ l ∈ h.links.items,
    l.dst ∈ s.hosts.items ∧ l.dst ≠ id
  ordered : ∀ id ∈ s.hosts.items, ∀ h, s.recs.get id = some h →
    MacOrdered R env s RtLink.dst h.links.items

/-- What table changes leave alone. -/
structure Frame (s s' : Routing) : Prop where
  localHost : s'.localHost = s.localHost
  mCt : s'.mCt = s.mCt
  path : s'.path = s.path
  next : s'.next = s.next
  edges : s'.edges = s.edges

/-- The two states hold the same table. -/
structure Same (s s' : Routing) : Prop where
  hosts : s'.hosts.items = s.hosts.items
  localHost : s'.localHost = s.localHost
  get : ∀ id, s'.recs.get id = s.recs.get id
  fresh : s.recs.fresh ≤ s'.recs.fresh

/-- No host leaves the table and no freed record comes back. -/
structure Grows (s s' : Routing) : Prop where
  hosts : ∀ id ∈ s.hosts.items, id ∈ s'.hosts.items
  size : s'.hosts.items = s.hosts.items ∨ s.hosts.ct < s'.hosts.ct
  dead : ∀ id < s.recs.fresh, s.recs.get id = none → s'.recs.get id = none
  fresh : s.recs.fresh ≤ s'.recs.fresh

theorem Frame.refl (s : Routing) : Frame s s := ⟨rfl, rfl, rfl, rfl, rfl⟩

theorem Frame.trans {s'' : Routing} (h : Frame s s') (h' : Frame s' s'') : Frame s s'' :=
  ⟨h'.localHost.trans h.localHost, h'.mCt.trans h.mCt, h'.path.trans h.path, h'.next.trans h.next,
    h'.edges.trans h.edges⟩

theorem Same.refl (s : Routing) : Same s s := ⟨rfl, rfl, fun _ => rfl, Nat.le_refl _⟩

theorem Same.trans {s'' : Routing} (h : Same s s') (h' : Same s' s'') : Same s s'' :=
  ⟨h'.hosts.trans h.hosts, h'.localHost.trans h.localHost, fun id => (h'.get id).trans (h.get id),
    Nat.le_trans h.fresh h'.fresh⟩

theorem Same.grows (h : Same s s') : Grows s s' :=
  ⟨fun _ hid => h.hosts ▸ hid, Or.inl h.hosts, fun id _ hg => (h.get id).trans hg, h.fresh⟩

theorem Grows.refl (s : Routing) : Grows s s := (Same.refl s).grows

/-- A table that grows has at least as many hosts. -/
theorem Grows.ct_le (h : Grows s s') : s.hosts.ct ≤ s'.hosts.ct := by
  rcases h.size with he | hlt
  · simp only [Da.ct, he, Nat.le_refl]
  · exact Nat.le_of_lt hlt

theorem Grows.trans {s'' : Routing} (h : Grows s s') (h' : Grows s' s'') : Grows s s'' where
  hosts id hid := h'.hosts id (h.hosts id hid)
  size := by
    rcases h.size with he | hlt
    · rcases h'.size with he' | hlt'
      · exact Or.inl (he'.trans he)
      · right
        simpa only [Da.ct, he] using hlt'
    · exact Or.inr (Nat.lt_of_lt_of_le hlt h'.ct_le)
  dead id hid hg := h'.dead id (Nat.lt_of_lt_of_le hid h.fresh) (h.dead id hid hg)
  fresh := Nat.le_trans h.fresh h'.fresh

/-- Two tables that are the same have the same MACs. -/
theorem Same.mac? (h : Same s s') (id : HostId) : s'.mac? env id = s.mac? env id := by
  unfold Routing.mac?
  rw [h.get]

/-- The order of a list by MACs carries over to a table in which these hosts have the same MACs. -/
theorem MacOrdered.congr {α : Type} {R : EtherAddr → EtherAddr → Prop} {f : α → HostId} {l : List α}
    (h : MacOrdered R env s f l) (hm : ∀ a ∈ l, s'.mac? env (f a) = s.mac? env (f a)) :
    MacOrdered R env s' f l :=
  List.Pairwise.imp_of_mem
    (fun ha hb hab m m' hma hmb => hab m m' ((hm _ ha) ▸ hma) ((hm _ hb) ▸ hmb)) h

/-- So does having a MAC. -/
theorem MacLive.congr {α : Type} {f : α → HostId} {l : List α} (h : MacLive env s f l)
    (hm : ∀ a ∈ l, s'.mac? env (f a) = s.mac? env (f a)) : MacLive env s' f l := by
  intro a ha
  rw [hm a ha]
  exact h a ha

/-- The invariant speaks of hosts, records and MACs only. -/
theorem TableOk.same (ht : TableOk env s L) (h : Same s s') : TableOk env s' L where
  live := h.hosts ▸ ht.live.congr fun a _ => h.mac? a
  strict := h.hosts ▸ ht.strict.congr fun a _ => h.mac? a
  isLocal := h.localHost.trans ht.isLocal
  localMem := h.hosts ▸ ht.localMem
  localType r hr := ht.localType r (h.get L ▸ hr)
  onlyLocal id hid r hr := ht.onlyLocal id (h.hosts ▸ hid) r (h.get id ▸ hr)
  kind id hid r hr := ht.kind id (h.hosts ▸ hid) r (h.get id ▸ hr)
  localStrict r hr := (ht.localStrict r (h.get L ▸ hr)).congr fun l _ => h.mac? l.dst
  localDirect r hr l hl := by
    obtain ⟨hmem, hdir⟩ := ht.localDirect r (h.get L ▸ hr) l hl
    exact ⟨h.hosts ▸ hmem, fun r' hr' => hdir r' (h.get l.dst ▸ hr')⟩

/-- So does the one of the links. -/
theorem LinksOk.same {R : EtherAddr → EtherAddr → Prop} (hl : LinksOk R env s) (h : Same s s') :
    LinksOk R env s' where
  dst id hid r hr l hlm := by
    rw [h.hosts] at hid ⊢
    exact hl.dst id hid r (h.get id ▸ hr) l hlm
  ordered id hid r hr :=
    (hl.ordered id (h.hosts ▸ hid) r (h.get id ▸ hr)).congr fun l _ => h.mac? l.dst

/-! ## Consequences -/

namespace TableOk

variable (ht : TableOk env s L)
include ht

theorem hostsOk : HostsOk env s := ⟨ht.live, ht.strict⟩

/-- Every host in the table has its record. -/
theorem get (id : HostId) (hid : id ∈ s.hosts.items) : ∃ h, s.recs.get id = some h :=
  ht.hostsOk.get id hid

theorem nodup : s.hosts.items.Nodup := ht.hostsOk.nodup

/-- The binary search reads only records that are there. -/
theorem findHost_ok (mac : EtherAddr) : ∃ r, s.findHostByAddr env mac = .ok r := ht.hostsOk.findHost_ok mac

/-- What it does not find is not there. -/
theorem findHost_none {mac : EtherAddr} (h : s.findHostByAddr env mac = .ok none) :
    ∀ id ∈ s.hosts.items, s.mac? env id ≠ some mac := ht.hostsOk.findHost_none h

/-- What is there it finds, at its position. -/
theorem findHost_index {i : Nat} {id : HostId} {mac : EtherAddr} (hi : s.hosts.items[i]? = some id)
    (hm : s.mac? env id = some mac) : s.findHostByAddr env mac = .ok (some i) :=
  ht.hostsOk.findHost_index hi hm

/-- Local has a record and a MAC. -/
theorem local_live : ∃ h m, s.recs.get L = some h ∧ s.mac? env L = some m := by
  obtain ⟨h, hg⟩ := ht.get L ht.localMem
  obtain ⟨m, hm⟩ := ht.live L ht.localMem
  exact ⟨h, m, hg, hm⟩

/-- Local's links lead to hosts with a MAC. -/
theorem localLinks_live {h : RtHost} (hg : s.recs.get L = some h) :
    MacLive env s RtLink.dst h.links.items :=
  fun l hl => ht.live l.dst (ht.localDirect h hg l hl).1

/-- Nobody but `L` is local, and `L` is not a direct peer. -/
theorem direct_ne_local {id : HostId} {h : RtHost} (hg : s.recs.get id = some h)
    (hd : h.type ≠ .htLocal) : id ≠ L := by
  rintro rfl
  exact hd (ht.localType h hg)

/-- `find_host_by_addr(&rd->hosts, rd->local->host->mac)` finds the local record. -/
theorem find_local : ∃ i m, s.theLocal = .ok L ∧ s.macOf env L = .ok m ∧
    s.findHostByAddr env m = .ok (some i) ∧ s.hosts.items[i]? = some L := by
  obtain ⟨_, m, -, hm⟩ := ht.local_live
  obtain ⟨i, hi⟩ := List.getElem?_of_mem ht.localMem
  exact ⟨i, m, theLocal_eq_ok.mpr ht.isLocal, macOf_eq_ok.mpr hm, ht.findHost_index hi hm, hi⟩

/-- Whatever these lookups found, it is local's position. -/
theorem found_local {id : HostId} {m : EtherAddr} {i : Nat} (hL : s.theLocal = .ok id) (hm : s.macOf env id = .ok m)
    (hf : s.findHostByAddr env m = .ok (some i)) : id = L ∧ s.hosts.items[i]? = some L := by
  obtain rfl : id = L := Option.some.inj ((theLocal_eq_ok.mp hL).symm.trans ht.isLocal)
  obtain ⟨j, hi, hj⟩ := findHost_some hf
  obtain rfl : j = id := ht.strict.inj (List.mem_of_getElem? hi) ht.localMem hj (macOf_eq_ok.mp hm)
  exact ⟨rfl, hi⟩

/-- A host that is normal or direct is not the local one. -/
theorem localHost_ne {id : HostId} {h : RtHost} (hg : s.recs.get id = some h) (ht' : h.type ≠ .htLocal) :
    s.localHost ≠ some id := by
  rw [ht.isLocal]
  intro he
  exact ht.direct_ne_local hg ht' (Option.some.inj he).symm

end TableOk

/-! ## Changes that promote and demote nobody -/

/-- Local's record is untouched, and every record leads to the address it led to. -/
structure Keeps (s s' : Routing) (L : HostId) : Prop where
  localRec : s'.recs.get L = s.recs.get L
  kind : ∀ id r, s.recs.get id = some r →
    ∃ r', s'.recs.get id = some r' ∧ r'.host = r.host ∧ r'.type = r.type

namespace Keeps

theorem refl (s : Routing) (L : HostId) : Keeps s s L := ⟨rfl, fun _ r hr => ⟨r, hr, rfl, rfl⟩⟩

theorem trans {s'' : Routing} (h : Keeps s s' L) (h' : Keeps s' s'' L) : Keeps s s'' L where
  localRec := h'.localRec.trans h.localRec
  kind id r hr := by
    obtain ⟨r1, hr1, hh1, ht1⟩ := h.kind id r hr
    obtain ⟨r2, hr2, hh2, ht2⟩ := h'.kind id r1 hr1
    exact ⟨r2, hr2, hh2.trans hh1, ht2.trans ht1⟩

/-- A host that is kept has the MAC that it had. -/
theorem mac (h : Keeps s s' L) {id : HostId} {m : EtherAddr} (hm : s.mac? env id = some m) :
    s'.mac? env id = some m := by
  obtain ⟨r, ip, hr, hip, rfl⟩ := get_of_mac? hm
  obtain ⟨r', hr', hh, -⟩ := h.kind id r hr
  exact mac?_of_get hr' (hh ▸ hip)

end Keeps

theorem Same.keeps (h : Same s s') (L : HostId) : Keeps s s' L :=
  ⟨h.get L, fun id r hr => ⟨r, (h.get id).trans hr, rfl, rfl⟩⟩

/-! ## Overwriting a record -/

/-- Storing a record changes the MAC of that host only. -/
theorem mac?_store {id : HostId} {h h' : RtHost} (hg : s.recs.get id = some h) (j : HostId) :
    (s.store id h').mac? env j
      = if j = id then (h'.host.deref env).map Ipv4Host.mac else s.mac? env j := by
  unfold mac? store
  simp only [CellHeap.get_set hg]
  split <;> rfl

/-- Overwriting a record without changing the MAC it leads to changes no MAC. -/
theorem mac?_store_of_eq {id : HostId} {h h' : RtHost} (hg : s.recs.get id = some h)
    (hm : (h'.host.deref env).map Ipv4Host.mac = (h.host.deref env).map Ipv4Host.mac) (j : HostId) :
    (s.store id h').mac? env j = s.mac? env j := by
  rw [mac?_store hg]
  split
  · rename_i hj
    subst hj
    rw [hm]
    simp [mac?, hg]
  · rfl

theorem frame_store (s : Routing) (id : HostId) (h : RtHost) : Frame s (s.store id h) :=
  ⟨rfl, rfl, rfl, rfl, rfl⟩

theorem get_store {id : HostId} {h : RtHost} (hg : s.recs.get id = some h) (h' : RtHost) (j : HostId) :
    (s.store id h').recs.get j = if j = id then some h' else s.recs.get j := CellHeap.get_set hg h' j

theorem grows_store {id : HostId} {h : RtHost} (hg : s.recs.get id = some h) (h' : RtHost) :
    Grows s (s.store id h') := by
  refine ⟨fun _ hid => hid, Or.inl rfl, fun j _ hj => ?_, Nat.le_of_eq (CellHeap.fresh_set _ _ _).symm⟩
  rw [get_store hg, if_neg, hj]
  rintro rfl
  rw [hg] at hj
  cases hj

/-- Overwriting another record than local's, but for where it leads, promotes and demotes nobody. -/
theorem keeps_store {id : HostId} {h h' : RtHost} (hg : s.recs.get id = some h) (hhost : h'.host = h.host)
    (htype : h'.type = h.type) (hne : id ≠ L) : Keeps s (s.store id h') L where
  localRec := by rw [get_store hg, if_neg hne.symm]
  kind j r hr := by
    rw [get_store hg]
    split
    · rename_i he
      subst he
      rw [hg] at hr
      cases hr
      exact ⟨h', rfl, hhost, htype⟩
    · exact ⟨r, hr, rfl, rfl⟩

/-- **Overwriting a record keeps the table sound** if it keeps its MAC and stays local or not local, if no
    peer that local links to is demoted, and if local's links stay in order when the record is local's. -/
theorem TableOk.store (ht : TableOk env s L) {id : HostId} {h h' : RtHost} (hg : s.recs.get id = some h)
    (hm : (h'.host.deref env).map Ipv4Host.mac = (h.host.deref env).map Ipv4Host.mac)
    (htype : h'.type = .htLocal ↔ h.type = .htLocal) (hkind : KindOk h')
    (hdir : h'.type = .htDirect ∨ ∀ r, s.recs.get L = some r → ∀ l ∈ r.links.items, l.dst ≠ id)
    (hloc : id = L → MacStrict env s RtLink.dst h'.links.items ∧ ∀ l ∈ h'.links.items,
      l.dst ∈ s.hosts.items ∧ ∀ r, s.recs.get l.dst = some r → r.type = .htDirect) :
    TableOk env (s.store id h') L := by
  have hmac : ∀ j, (s.store id h').mac? env j = s.mac? env j := mac?_store_of_eq hg hm
  have hget := get_store hg h'
  have hL : ∀ r, (s.store id h').recs.get L = some r → (id = L ∧ r = h') ∨ s.recs.get L = some r := by
    intro r hr
    rw [hget] at hr
    split at hr
    · rename_i he; cases hr; exact Or.inl ⟨he.symm, rfl⟩
    · exact Or.inr hr
  refine
    { live := ht.live.congr fun j _ => hmac j
      strict := ht.strict.congr fun j _ => hmac j
      isLocal := ht.isLocal
      localMem := ht.localMem
      localType := ?_, onlyLocal := ?_, kind := ?_, localStrict := ?_, localDirect := ?_ }
  · intro r hr
    rcases hL r hr with ⟨rfl, rfl⟩ | hr
    · exact htype.mpr (ht.localType h hg)
    · exact ht.localType r hr
  · intro j hj r hr hrt
    rw [hget] at hr
    split at hr
    · rename_i he
      subst he
      cases hr
      exact ht.onlyLocal j hj h hg (htype.mp hrt)
    · exact ht.onlyLocal j hj r hr hrt
  · intro j hj r hr
    rw [hget] at hr
    split at hr
    · cases hr; exact hkind
    · exact ht.kind j hj r hr
  · intro r hr
    refine MacOrdered.congr ?_ fun l _ => hmac l.dst
    rcases hL r hr with ⟨he, rfl⟩ | hr
    · exact (hloc he).1
    · exact ht.localStrict r hr
  · intro r hr l hl
    have hold : l.dst ∈ s.hosts.items ∧ ∀ r', s.recs.get l.dst = some r' → r'.type = .htDirect := by
      rcases hL r hr with ⟨he, rfl⟩ | hr'
      · exact (hloc he).2 l hl
      · exact ht.localDirect r hr' l hl
    refine ⟨hold.1, fun r' hr' => ?_⟩
    rw [hget] at hr'
    split at hr'
    · rename_i he
      cases hr'
      rcases hdir with hd | hd
      · exact hd
      · -- `h'` is not direct, so nothing of local's may lead to it
        rcases hL r hr with ⟨he', rfl⟩ | hr''
        · have hdirL := hold.2 h (he ▸ hg)
          have hlocL : h.type = .htLocal := ht.localType h (he' ▸ hg)
          rw [hlocL] at hdirL
          cases hdirL
        · exact absurd he (hd r hr'' l hl)
    · exact hold.2 r' hr'

/-- **Overwriting a record keeps the links sound** if it keeps its MAC and its new links are sound. -/
theorem LinksOk.store {R : EtherAddr → EtherAddr → Prop} (hl : LinksOk R env s) {id : HostId}
    {h h' : RtHost} (hg : s.recs.get id = some h)
    (hm : (h'.host.deref env).map Ipv4Host.mac = (h.host.deref env).map Ipv4Host.mac)
    (hdst : ∀ l ∈ h'.links.items, l.dst ∈ s.hosts.items ∧ l.dst ≠ id)
    (hord : MacOrdered R env s RtLink.dst h'.links.items) : LinksOk R env (s.store id h') := by
  have hmac : ∀ j, (s.store id h').mac? env j = s.mac? env j := mac?_store_of_eq hg hm
  constructor
  · intro j hj r hr
    rw [get_store hg] at hr
    split at hr
    · rename_i he; cases hr; exact he ▸ hdst
    · exact hl.dst j hj r hr
  · intro j hj r hr
    refine MacOrdered.congr ?_ fun l _ => hmac l.dst
    rw [get_store hg] at hr
    split at hr
    · cases hr; exact hord
    · exact hl.ordered j hj r hr

/-! ## The representation invariant with strictly ordered links -/

/-- The table by itself: the hosts strictly ordered by MAC, everybody's links strictly ordered by destination
    MAC and leading to other hosts of the table, one local record, and a copy of the address in every
    normal one. -/
structure RepOk (env : ExtMem) (s : Routing) (L : HostId) : Prop where
  hosts : HostsOk env s
  links : LinksOk MacLt env s
  isLocal : s.localHost = some L
  localMem : L ∈ s.hosts.items
  localType : ∀ h, s.recs.get L = some h → h.type = .htLocal
  onlyLocal : ∀ id ∈ s.hosts.items, ∀ h, s.recs.get id = some h → h.type = .htLocal → id = L
  kind : ∀ id ∈ s.hosts.items, ∀ h, s.recs.get id = some h → KindOk h

/-- With strictly ordered links the table represents a graph. -/
theorem TableOk.repOk (ht : TableOk env s L) (hl : LinksOk MacLt env s) : RepOk env s L :=
  ⟨ht.hostsOk, hl, ht.isLocal, ht.localMem, ht.localType, ht.onlyLocal, ht.kind⟩

end Routing

end P2pVn
