import P2pVn.Routing.Table

/-!
# `Routing.Adding` — `link_add` and `host_add`

For each of the two an inversion lemma (what a call that returns has done), a progress lemma (when no
allocation fails it returns `0`), and the preservation of the invariants.

Both make room in an array, put the new element at its end and sort. The room is made first, so a call that
fails has changed nothing: `host_alloc` frees what it had allocated, and a record that could not be inserted is
not in the table. Neither looks whether the element is there already. That is why `link_add` keeps a list only
weakly ordered (`LinkAdded.sorted`); that it stays strict where no link led to the destination is a lemma of its
own (`LinkAdded.strict`), and its callers have to see to it.

- `linkAdd_cases`, `hostAdd_cases`: the inversions, whose results are `LinkAdded` and `HostAdded`.
- `LinkAdded.tableOk`, `LinkAdded.linksOk`, `HostAdded.tableOk`, `HostAdded.linksOk`: the invariants.
-/

namespace P2pVn
open CUb

namespace Routing

variable {env : ExtMem} {q : Qsort} {s s' : Routing} {L : HostId}

/-! ## `link_add` -/

/-- What a successful `link_add` did: record `src` has one more link, and its list was sorted. -/
structure LinkAdded (env : ExtMem) (s : Routing) (src dst : HostId) (rttUs : UInt32) (tsMs : UInt64)
    (s' : Routing) where
  before : RtHost
  after : RtHost
  get : s.recs.get src = some before
  host : after.host = before.host
  type : after.type = before.type
  lMax : after.lMaxTsMs = if tsMs > before.lMaxTsMs then tsMs else before.lMaxTsMs
  perm : after.links.items.Perm (before.links.items ++ [⟨dst, rttUs, tsMs⟩])
  live : MacLive env s RtLink.dst after.links.items
  sorted : MacSorted env s RtLink.dst after.links.items
  same : Same (s.store src after) s'

/-- What `link_add` did if it returned: with `-1` nothing, since the array did not grow; with `0` the link is in
    the array, the array is sorted again, and `l_max_ts_ms` is no smaller than its time stamp. -/
theorem linkAdd_cases {src dst : HostId} {rttUs : UInt32} {tsMs : UInt64} {ret : Int}
    (h : s.linkAdd q env src dst rttUs tsMs = .ok (ret, s')) :
    Frame s s' ∧ ((ret = -1 ∧ Same s s') ∨
      (ret = 0 ∧ Nonempty (LinkAdded env s src dst rttUs tsMs s'))) := by
  unfold linkAdd at h
  obtain ⟨r, hr, h⟩ := bind_eq_ok.mp h
  have hg := host_eq_ok.mp hr
  obtain ⟨al', ⟨d', hadd, hitems⟩ | hfail⟩ := r.links.addToEnd_cases ⟨dst, rttUs, tsMs⟩ s.allocs
  · rw [hadd] at h
    simp only [Bool.false_eq_true, if_false] at h
    obtain ⟨items, hsort, h⟩ := bind_eq_ok.mp h
    cases h
    refine ⟨⟨rfl, rfl, rfl, rfl, rfl⟩, Or.inr ⟨rfl, ⟨?_⟩⟩⟩
    have hperm := sortBy_perm hsort
    refine
      { before := r
        after := { r with
          links := d'.withItems items
          lMaxTsMs := if tsMs > r.lMaxTsMs then tsMs else r.lMaxTsMs }
        get := hg, host := rfl, type := rfl, lMax := rfl
        perm := by rw [← hitems]; exact hperm
        live := ?_, sorted := ?_, same := ⟨rfl, rfl, fun _ => rfl, Nat.le_refl _⟩ }
    · -- `qsort` compared every link, so each destination has a MAC
      intro l hl
      obtain ⟨m, hm⟩ := sortBy_keys hsort l (hperm.mem_iff.mp hl)
      exact ⟨m, macOf_eq_ok.mp hm⟩
    · exact List.Pairwise.imp
        (fun hab m m' hm hm' => hab m m' (macOf_eq_ok.mpr hm) (macOf_eq_ok.mpr hm'))
        (sortBy_sorted hsort)
  · rw [hfail] at h
    simp only [if_true, pure_eq_ok, Except.ok.injEq, Prod.mk.injEq] at h
    obtain ⟨rfl, rfl⟩ := h
    exact ⟨⟨rfl, rfl, rfl, rfl, rfl⟩, Or.inl ⟨rfl, rfl, rfl, fun _ => rfl, Nat.le_refl _⟩⟩

/-- Without allocation failures `link_add` returns `0`, if the destinations' MACs can be read. -/
theorem linkAdd_ok {src dst : HostId} {rttUs : UInt32} {tsMs : UInt64} {h : RtHost}
    (hal : s.allocs = []) (hg : s.recs.get src = some h)
    (hlive : MacLive env s RtLink.dst (h.links.items ++ [⟨dst, rttUs, tsMs⟩])) :
    ∃ s', s.linkAdd q env src dst rttUs tsMs = .ok (0, s') ∧ s'.allocs = [] := by
  obtain ⟨d', hadd, hitems⟩ := h.links.addToEnd_nil ⟨dst, rttUs, tsMs⟩
  have hk : ∀ l ∈ d'.items, ∃ m, s.macOf env l.dst = Except.ok m := by
    intro l hl
    obtain ⟨m, hm⟩ := hlive l (hitems ▸ hl)
    exact ⟨m, macOf_eq_ok.mpr hm⟩
  obtain ⟨items, hsort⟩ := sortBy_ok q memcmp hk
  refine ⟨{ s.store src { h with
      links := d'.withItems items
      lMaxTsMs := if tsMs > h.lMaxTsMs then tsMs else h.lMaxTsMs } with allocs := [] }, ?_, rfl⟩
  rw [linkAdd, host_eq_ok.mpr hg, ok_bind, hal, hadd]
  simp only [Bool.false_eq_true, if_false, hsort, ok_bind]
  rfl

namespace LinkAdded

variable {src dst : HostId} {rttUs : UInt32} {tsMs : UInt64} (ha : LinkAdded env s src dst rttUs tsMs s')
include ha

theorem mac_eq : (ha.after.host.deref env).map Ipv4Host.mac
    = (ha.before.host.deref env).map Ipv4Host.mac := by rw [ha.host]

/-- No MAC changes: the record of `src` keeps its address. -/
theorem mac? (j : HostId) : s'.mac? env j = s.mac? env j :=
  (ha.same.mac? j).trans (mac?_store_of_eq ha.get ha.mac_eq j)

theorem hosts : s'.hosts.items = s.hosts.items := ha.same.hosts

/-- All other records stay as they were. -/
theorem getRec (j : HostId) :
    s'.recs.get j = if j = src then some ha.after else s.recs.get j :=
  (ha.same.get j).trans (get_store ha.get ha.after j)

theorem grows : Grows s s' := (grows_store ha.get ha.after).trans ha.same.grows

theorem keeps (hne : src ≠ L) : Keeps s s' L :=
  (keeps_store ha.get ha.host ha.type hne).trans (ha.same.keeps L)

theorem mem {l : RtLink} : l ∈ ha.after.links.items ↔
    l ∈ ha.before.links.items ∨ l = ⟨dst, rttUs, tsMs⟩ := by
  rw [ha.perm.mem_iff, List.mem_append, List.mem_singleton]

/-- If no link of `src` led to `dst` and the list was strictly ordered, it is so again. -/
theorem strict (hold : MacStrict env s RtLink.dst ha.before.links.items) {m : EtherAddr}
    (hd : s.mac? env dst = some m) (hnew : ∀ l ∈ ha.before.links.items, s.mac? env l.dst ≠ some m) :
    MacStrict env s RtLink.dst ha.after.links.items := by
  have hsymm : ∀ a b : RtLink,
      (∀ x, s.mac? env a.dst = some x → s.mac? env b.dst ≠ some x) →
      (∀ x, s.mac? env b.dst = some x → s.mac? env a.dst ≠ some x) :=
    fun a b h x hx hx' => h x hx' hx
  refine MacSorted.strict ha.sorted ((ha.perm.pairwise_iff (hsymm _ _)).mpr ?_)
  rw [List.pairwise_append]
  refine ⟨hold.ne, List.pairwise_singleton _ _, fun a hal b hb x hx => ?_⟩
  rw [List.mem_singleton] at hb
  subst hb
  intro hd'
  rw [hd] at hd'
  cases hd'
  exact hnew a hal hx

/-- **`link_add` keeps the table sound.** -/
theorem tableOk (ht : TableOk env s L) (hsrc : src ∈ s.hosts.items)
    (hloc : src = L → MacStrict env s RtLink.dst ha.after.links.items ∧ dst ∈ s.hosts.items ∧
      ∀ r, s.recs.get dst = some r → r.type = .htDirect) : TableOk env s' L := by
  refine (ht.store ha.get ha.mac_eq (by rw [ha.type]) ?_ ?_ ?_).same ha.same
  · exact (ht.kind src hsrc _ ha.get).congr ha.type ha.host
  · rw [ha.type]
    by_cases hd : ha.before.type = .htDirect
    · exact Or.inl hd
    · right
      rintro r hr l hl rfl
      exact hd ((ht.localDirect r hr l hl).2 _ ha.get)
  · intro he
    obtain ⟨hs, hmem, hdir⟩ := hloc he
    refine ⟨hs, fun l hl => ?_⟩
    rcases ha.mem.mp hl with hl | rfl
    · exact ht.localDirect _ (he ▸ ha.get) l hl
    · exact ⟨hmem, hdir⟩

/-- **`link_add` keeps the links sound.** -/
theorem linksOk {R : EtherAddr → EtherAddr → Prop} (hl : LinksOk R env s) (hsrc : src ∈ s.hosts.items)
    (hdst : dst ∈ s.hosts.items) (hne : dst ≠ src)
    (hord : MacOrdered R env s RtLink.dst ha.after.links.items) : LinksOk R env s' := by
  refine (hl.store ha.get ha.mac_eq (fun l hl' => ?_) hord).same ha.same
  rcases ha.mem.mp hl' with hl' | rfl
  · exact hl.dst src hsrc _ ha.get l hl'
  · exact ⟨hdst, hne⟩

end LinkAdded

/-! ## `host_add` -/

/-- The record that `host_alloc` makes. -/
structure Fresh (env : ExtMem) (ipHost : HostPtr) (ty : HostType) (h : RtHost) : Prop where
  type : h.type = ty
  host : h.host = ipHost ∨ (ty = .htNormal ∧ ∃ ip, ipHost.deref env = some ip ∧ h.host = .heap ip)
  owned : ty = .htNormal → ∃ ip, h.host = .heap ip
  links : h.links.items = []
  lMax : h.lMaxTsMs = 0

/-- Copied or not, the address has the MAC that it was given with. -/
theorem Fresh.mac {ipHost : HostPtr} {type : HostType} {h : RtHost} (hf : Fresh env ipHost type h) :
    (h.host.deref env).map Ipv4Host.mac = (ipHost.deref env).map Ipv4Host.mac := by
  rcases hf.host with he | ⟨-, ip, hip, he⟩
  · rw [he]
  · rw [he, hip]; rfl

/-- Only the address of a normal host is copied. -/
theorem Fresh.points {ipHost : HostPtr} {type : HostType} {h : RtHost} (hf : Fresh env ipHost type h)
    (hn : type ≠ .htNormal) : h.host = ipHost := hf.host.resolve_right fun hcopy => hn hcopy.1

/-- What `host_alloc` did if it returned: the record is allocated, but nobody points to it yet. On a failure
    what it had allocated so far is freed again. -/
theorem hostAlloc_cases {ipHost : HostPtr} {type : HostType} {ret : Int} {nh : HostId}
    (h : s.hostAlloc env ipHost type = .ok (ret, nh, s')) :
    Frame s s' ∧ s'.hosts = s.hosts ∧ ((ret < 0 ∧ s'.recs = s.recs) ∨
      (ret = 0 ∧ nh = s.recs.fresh ∧ ∃ r, Fresh env ipHost type r ∧ s'.recs = s.recs.alloc r)) := by
  unfold hostAlloc malloc Da.init at h
  simp only at h
  split at h
  · cases h
    exact ⟨⟨rfl, rfl, rfl, rfl, rfl⟩, rfl, Or.inl ⟨by decide, rfl⟩⟩
  · split at h
    · cases h
      exact ⟨⟨rfl, rfl, rfl, rfl, rfl⟩, rfl, Or.inl ⟨by decide, rfl⟩⟩
    · split at h
      · rename_i htype
        cases h
        refine ⟨⟨rfl, rfl, rfl, rfl, rfl⟩, rfl, Or.inr ⟨rfl, rfl, _, ?_, rfl⟩⟩
        refine ⟨rfl, Or.inl rfl, ?_, rfl, rfl⟩
        rintro rfl
        simp at htype
      · rename_i htype
        split at h
        · cases h
          exact ⟨⟨rfl, rfl, rfl, rfl, rfl⟩, rfl, Or.inl ⟨by decide, rfl⟩⟩
        · obtain ⟨ip, hip, h⟩ := bind_eq_ok.mp h
          cases h
          refine ⟨⟨rfl, rfl, rfl, rfl, rfl⟩, rfl, Or.inr ⟨rfl, rfl, _, ?_, rfl⟩⟩
          -- the address is copied for `HT_NORMAL` only
          have hn : type = .htNormal := by cases type <;> simp_all
          exact ⟨rfl, Or.inr ⟨hn, ip, ipOf_eq_ok.mp hip, rfl⟩, fun _ => ⟨ip, rfl⟩, rfl, rfl⟩

/-- What a successful `host_add` did: a new record without links, sorted into the table. -/
structure HostAdded (env : ExtMem) (s : Routing) (ipHost : HostPtr) (type : HostType) (nh : HostId)
    (s' : Routing) where
  ip : Ipv4Host
  addr : ipHost.deref env = some ip
  absent : s.findHostByAddr env ip.mac = .ok none
  record : RtHost
  fresh : Fresh env ipHost type record
  isNew : nh = s.recs.fresh
  localHost : s'.localHost = s.localHost
  get : ∀ j, s'.recs.get j = if j = nh then some record else s.recs.get j
  freshLe : s.recs.fresh ≤ s'.recs.fresh
  perm : s'.hosts.items.Perm (s.hosts.items ++ [nh])
  sorted : MacSorted env s' (fun j => j) s'.hosts.items

/-- What `host_insert_unchecked` did if it returned: the host is in the array, which is sorted again, or the
    array did not grow. -/
theorem hostInsertUnchecked_cases {nh : HostId} {ret : Int}
    (h : s.hostInsertUnchecked q env nh = .ok (ret, s')) :
    Frame s s' ∧ s'.recs = s.recs ∧ ((ret = -1 ∧ s'.hosts = s.hosts) ∨
      (ret = 0 ∧ s'.hosts.items.Perm (s.hosts.items ++ [nh]) ∧
        MacSorted env s (fun j => j) s'.hosts.items)) := by
  unfold hostInsertUnchecked at h
  obtain ⟨al', ⟨d', hadd, hitems⟩ | hfail⟩ := s.hosts.addToEnd_cases nh s.allocs
  · rw [hadd] at h
    simp only [Bool.false_eq_true, if_false] at h
    obtain ⟨items, hsort, h⟩ := bind_eq_ok.mp h
    cases h
    refine ⟨⟨rfl, rfl, rfl, rfl, rfl⟩, rfl, Or.inr ⟨rfl, ?_, ?_⟩⟩
    · rw [← hitems]; exact sortBy_perm hsort
    · exact List.Pairwise.imp
        (fun hab m m' hm hm' => hab m m' (macOf_eq_ok.mpr hm) (macOf_eq_ok.mpr hm'))
        (sortBy_sorted hsort)
  · rw [hfail] at h
    simp only [if_true, pure_eq_ok, Except.ok.injEq, Prod.mk.injEq] at h
    obtain ⟨rfl, rfl⟩ := h
    exact ⟨⟨rfl, rfl, rfl, rfl, rfl⟩, rfl, Or.inl ⟨rfl, rfl⟩⟩

/-- What `host_add` did if it returned: any failure leaves the table as it was. -/
theorem hostAdd_cases {ipHost : HostPtr} {type : HostType} {ret : Int} {nh : HostId}
    (h : s.hostAdd q env ipHost type = .ok (ret, nh, s')) :
    Frame s s' ∧ ((ret ≠ 0 ∧ Same s s') ∨
      (ret = 0 ∧ Nonempty (HostAdded env s ipHost type nh s'))) := by
  unfold hostAdd at h
  obtain ⟨ip, hip, h⟩ := bind_eq_ok.mp h
  obtain ⟨dup, hdup, h⟩ := bind_eq_ok.mp h
  cases dup with
  | some i =>
      cases h
      exact ⟨Frame.refl s, Or.inl ⟨by decide, Same.refl s⟩⟩
  | none =>
      obtain ⟨⟨ret1, nh1, s1⟩, halloc, h⟩ := bind_eq_ok.mp h
      obtain ⟨hf1, hh1, hc1⟩ := hostAlloc_cases halloc
      rcases hc1 with ⟨hneg, hrecs1⟩ | ⟨rfl, rfl, r, hfresh, hrecs1⟩
      · simp only [ne_eq, show ret1 ≠ 0 by omega, not_false_eq_true, if_true] at h
        cases h
        exact ⟨hf1, Or.inl ⟨by decide, ⟨by rw [hh1], hf1.localHost, fun _ => by rw [hrecs1],
          by rw [hrecs1]⟩⟩⟩
      · simp only [ne_eq, not_true_eq_false, if_false] at h
        obtain ⟨⟨ret2, s2⟩, hins, h⟩ := bind_eq_ok.mp h
        obtain ⟨hf2, hrecs2, hc2⟩ := hostInsertUnchecked_cases hins
        rcases hc2 with ⟨rfl, hh2⟩ | ⟨rfl, hperm, hsorted⟩
        · -- the insertion failed, and the new record is freed
          simp only [Int.reduceNeg, Int.reduceLT, if_true] at h
          cases h
          have hf := hf1.trans hf2
          refine ⟨⟨hf.localHost, hf.mCt, hf.path, hf.next, hf.edges⟩,
            Or.inl ⟨by decide, ⟨?_, hf.localHost, ?_, ?_⟩⟩⟩
          · show s2.hosts.items = s.hosts.items
            rw [hh2, hh1]
          · intro id
            show (s2.recs.free s.recs.fresh).get id = s.recs.get id
            rw [hrecs2, hrecs1, CellHeap.get_free, CellHeap.get_alloc]
            split
            · rename_i hid; rw [hid, CellHeap.get_fresh]
            · rfl
          · show s.recs.fresh ≤ (s2.recs.free s.recs.fresh).fresh
            rw [hrecs2, hrecs1, CellHeap.fresh_free, CellHeap.fresh_alloc]
            exact Nat.le_succ _
        · simp only [Int.lt_irrefl, if_false] at h
          cases h
          have hget : ∀ j, s'.recs.get j = if j = s.recs.fresh then some r else s.recs.get j := by
            intro j
            rw [hrecs2, hrecs1, CellHeap.get_alloc]
          refine ⟨hf1.trans hf2, Or.inr ⟨rfl, ⟨?_⟩⟩⟩
          exact
            { ip := ip, addr := ipOf_eq_ok.mp hip, absent := hdup, record := r, fresh := hfresh
              isNew := rfl, localHost := hf2.localHost.trans hf1.localHost
              get := hget
              freshLe := by rw [hrecs2, hrecs1, CellHeap.fresh_alloc]; exact Nat.le_succ _
              perm := by rw [← hh1]; exact hperm
              sorted := hsorted.congr fun j _ => by
                unfold Routing.mac?
                rw [hrecs2] }

/-- Without allocation failures `host_add` of an absent MAC returns `0`. -/
theorem hostAdd_ok (q : Qsort) {ipHost : HostPtr} (type : HostType) {ip : Ipv4Host} (hal : s.allocs = [])
    (hlive : MacLive env s (fun j => j) s.hosts.items) (hip : ipHost.deref env = some ip)
    (habs : s.findHostByAddr env ip.mac = .ok none) :
    ∃ nh s', s.hostAdd q env ipHost type = .ok (0, nh, s') ∧ s'.allocs = [] := by
  -- the allocation
  have halloc : ∃ r s1, s.hostAlloc env ipHost type = .ok (0, s.recs.fresh, s1) ∧ s1.allocs = [] ∧
      Fresh env ipHost type r ∧ s1.recs = s.recs.alloc r ∧ s1.hosts = s.hosts := by
    have hok : ∃ s1, s.hostAlloc env ipHost type = .ok (0, s.recs.fresh, s1) ∧ s1.allocs = [] := by
      unfold hostAlloc malloc Da.init
      simp only [hal, takeAlloc, Bool.not_true, Bool.false_eq_true, if_false, ipOf_eq_ok.mpr hip, ok_bind]
      split
      · exact ⟨_, rfl, rfl⟩
      · exact ⟨_, rfl, rfl⟩
    obtain ⟨s1, h1, hal1⟩ := hok
    obtain ⟨-, hh1, ⟨hneg, -⟩ | ⟨-, -, r, hfresh, hrecs⟩⟩ := hostAlloc_cases h1
    · exact absurd hneg (by decide)
    · exact ⟨r, s1, h1, hal1, hfresh, hrecs, hh1⟩
  obtain ⟨r, s1, h1, hal1, hfresh, hrecs, hh1⟩ := halloc
  -- the insertion
  have hins : ∃ s2, s1.hostInsertUnchecked q env s.recs.fresh = .ok (0, s2) ∧ s2.allocs = [] := by
    obtain ⟨d', hadd, hitems⟩ := s1.hosts.addToEnd_nil s.recs.fresh
    have hk : ∀ j ∈ d'.items, ∃ m, s1.macOf env j = Except.ok m := by
      intro j hj
      rw [hitems, List.mem_append, List.mem_singleton, hh1] at hj
      have hmac : s1.mac? env j = if j = s.recs.fresh then some ip.mac else s.mac? env j := by
        unfold Routing.mac?
        rw [hrecs, CellHeap.get_alloc]
        split
        · rw [Option.bind_some, hfresh.mac, hip]; rfl
        · rfl
      by_cases hjn : j = s.recs.fresh
      · exact ⟨ip.mac, macOf_eq_ok.mpr (by rw [hmac, if_pos hjn])⟩
      · obtain ⟨m, hm⟩ := hlive j (hj.resolve_right hjn)
        exact ⟨m, macOf_eq_ok.mpr (by rw [hmac, if_neg hjn, hm])⟩
    obtain ⟨items, hsort⟩ := sortBy_ok q memcmp hk
    refine ⟨{ s1 with hosts := d'.withItems items, allocs := [] }, ?_, rfl⟩
    rw [hostInsertUnchecked, hal1, hadd]
    simp only [Bool.false_eq_true, if_false, hsort, ok_bind]
    rfl
  obtain ⟨s2, h2, hal2⟩ := hins
  refine ⟨s.recs.fresh, s2, ?_, hal2⟩
  rw [hostAdd, ipOf_eq_ok.mpr hip, ok_bind, habs, ok_bind]
  simp only [h1, ok_bind, ne_eq, not_true_eq_false, if_false, h2, Int.lt_irrefl]
  rfl

namespace HostAdded

variable {ipHost : HostPtr} {type : HostType} {nh : HostId} (ha : HostAdded env s ipHost type nh s')
include ha

theorem mem {j : HostId} : j ∈ s'.hosts.items ↔ j ∈ s.hosts.items ∨ j = nh := by
  rw [ha.perm.mem_iff, List.mem_append, List.mem_singleton]

theorem ct_eq : s'.hosts.ct = s.hosts.ct + 1 := by
  simpa [Da.ct] using ha.perm.length_eq

theorem ct_lt : s.hosts.ct < s'.hosts.ct := by
  rw [ha.ct_eq]
  exact Nat.lt_succ_self _

theorem grows : Grows s s' := by
  refine ⟨fun j hj => ha.mem.mpr (Or.inl hj), Or.inr ha.ct_lt, fun j hj hg => ?_, ha.freshLe⟩
  rw [ha.get, if_neg, hg]
  rintro rfl
  rw [ha.isNew] at hj
  exact Nat.lt_irrefl _ hj

theorem mem_new : nh ∈ s'.hosts.items := ha.mem.mpr (Or.inr rfl)

theorem get_new : s'.recs.get nh = some ha.record := by rw [ha.get, if_pos rfl]

/-- A record that was there is still there, as it was. -/
theorem get_old {j : HostId} {h : RtHost} (hg : s.recs.get j = some h) : s'.recs.get j = some h := by
  rw [ha.get, if_neg, hg]
  rintro rfl
  rw [ha.isNew, CellHeap.get_fresh] at hg
  cases hg

/-- The new record is none of those that were there. -/
theorem ne_new {j : HostId} {h : RtHost} (hg : s.recs.get j = some h) : j ≠ nh := by
  rintro rfl
  rw [ha.isNew, CellHeap.get_fresh] at hg
  cases hg

theorem keeps {r : RtHost} (hg : s.recs.get L = some r) : Keeps s s' L :=
  ⟨(ha.get_old hg).trans hg.symm, fun _ r hr => ⟨r, ha.get_old hr, rfl, rfl⟩⟩

theorem mac_new : s'.mac? env nh = some ha.ip.mac := by
  unfold Routing.mac?
  rw [ha.get_new, Option.bind_some, ha.fresh.mac, ha.addr]
  rfl

omit ha in
/-- A copied address. -/
theorem mac_heap {ip : Ipv4Host} (ha : HostAdded env s (.heap ip) type nh s') :
    s'.mac? env nh = some ip.mac := by
  have he : ip = ha.ip := Option.some.inj ha.addr
  exact ha.mac_new.trans (congrArg (fun ip' : Ipv4Host => some ip'.mac) he.symm)

theorem mac_old {j : HostId} {m : EtherAddr} (hm : s.mac? env j = some m) : s'.mac? env j = some m := by
  obtain ⟨r, ip, hg, hip, rfl⟩ := get_of_mac? hm
  exact mac?_of_get (ha.get_old hg) hip

/-- No host that was in the table changes its MAC. -/
theorem mac_congr (hlive : MacLive env s id s.hosts.items) {j : HostId} (hj : j ∈ s.hosts.items) :
    s'.mac? env j = s.mac? env j := by
  obtain ⟨m, (hm : s.mac? env j = some m)⟩ := hlive j hj
  rw [hm, ha.mac_old hm]

/-- **`host_add` keeps the table sound.** -/
theorem tableOk (ht : TableOk env s L) (htype : type ≠ .htLocal)
    (hkind : type = .htDirect → ∃ d, ipHost = .env (.dp d)) : TableOk env s' L := by
  have hold : ∀ j ∈ s.hosts.items, ∀ h, s'.recs.get j = some h → s.recs.get j = some h := by
    intro j hj h hh
    obtain ⟨h', hg⟩ := ht.get j hj
    rw [ha.get_old hg] at hh
    rw [hg, hh]
  have hmac : ∀ j ∈ s.hosts.items, s'.mac? env j = s.mac? env j := fun j hj => ha.mac_congr ht.live hj
  have hLlinks : ∀ h, s'.recs.get L = some h → s.recs.get L = some h := hold L ht.localMem
  have hsymm : ∀ a b : HostId, (∀ m, s'.mac? env a = some m → s'.mac? env b ≠ some m) →
      (∀ m, s'.mac? env b = some m → s'.mac? env a ≠ some m) := fun a b h m hm hm' => h m hm' hm
  constructor
  · -- live
    intro j hj
    rcases ha.mem.mp hj with hj | rfl
    · obtain ⟨m, hm⟩ := ht.live j hj
      exact ⟨m, ha.mac_old hm⟩
    · exact ⟨_, ha.mac_new⟩
  · -- strict
    refine MacSorted.strict ha.sorted ((ha.perm.pairwise_iff (hsymm _ _)).mpr ?_)
    rw [List.pairwise_append]
    refine ⟨?_, List.pairwise_singleton _ _, fun a hal b hb m hm => ?_⟩
    · have hold' : MacStrict env s' id s.hosts.items := ht.strict.congr fun j hj => hmac j hj
      exact MacStrict.ne hold'
    · rw [List.mem_singleton] at hb
      subst hb
      show s'.mac? env b ≠ some m
      rw [ha.mac_new]
      rintro ⟨⟩
      exact ht.findHost_none ha.absent a hal ((hmac a hal).symm.trans hm)
  · -- isLocal
    rw [← ht.isLocal]
    exact ha.localHost
  · exact ha.mem.mpr (Or.inl ht.localMem)
  · intro h hh
    exact ht.localType h (hLlinks h hh)
  · intro j hj h hh hloc
    rcases ha.mem.mp hj with hj | rfl
    · exact ht.onlyLocal j hj h (hold j hj h hh) hloc
    · rw [ha.get_new] at hh
      cases hh
      exact absurd (ha.fresh.type.symm.trans hloc) htype
  · intro j hj h hh
    rcases ha.mem.mp hj with hj | rfl
    · exact ht.kind j hj h (hold j hj h hh)
    · rw [ha.get_new] at hh
      cases hh
      have hf := ha.fresh
      unfold KindOk
      rw [hf.type]
      cases type with
      | htLocal => trivial
      | htDirect =>
          obtain ⟨d, rfl⟩ := hkind rfl
          rcases hf.host with he | ⟨hn, -⟩
          · exact ⟨d, he⟩
          · cases hn
      | htNormal => exact hf.owned rfl
  · intro h hh
    exact (ht.localStrict h (hLlinks h hh)).congr fun l hl =>
      hmac l.dst (ht.localDirect h (hLlinks h hh) l hl).1
  · intro h hh l hl
    obtain ⟨hmem, hdir⟩ := ht.localDirect h (hLlinks h hh) l hl
    exact ⟨ha.mem.mpr (Or.inl hmem), fun r hr => hdir r (hold l.dst hmem r hr)⟩

/-- **`host_add` keeps the links sound.** -/
theorem linksOk {R : EtherAddr → EtherAddr → Prop} (ht : TableOk env s L) (hl : LinksOk R env s) :
    LinksOk R env s' := by
  have hold : ∀ j ∈ s.hosts.items, ∀ h, s'.recs.get j = some h → s.recs.get j = some h := by
    intro j hj h hh
    obtain ⟨h', hg⟩ := ht.get j hj
    rw [ha.get_old hg] at hh
    rw [hg, hh]
  constructor
  · intro j hj h hh l hlm
    rcases ha.mem.mp hj with hj | rfl
    · obtain ⟨hmem, hne⟩ := hl.dst j hj h (hold j hj h hh) l hlm
      exact ⟨ha.mem.mpr (Or.inl hmem), hne⟩
    · rw [ha.get_new] at hh
      cases hh
      rw [ha.fresh.links] at hlm
      cases hlm
  · intro j hj h hh
    rcases ha.mem.mp hj with hj | rfl
    · have hh' := hold j hj h hh
      exact (hl.ordered j hj h hh').congr fun l hlm =>
        ha.mac_congr ht.live (hl.dst j hj h hh' l hlm).1
    · rw [ha.get_new] at hh
      cases hh
      rw [MacOrdered, ha.fresh.links]
      exact List.Pairwise.nil

end HostAdded

/-! ## Both change hosts and links only, and remove nothing -/

/-- Whatever `link_add` returns, it leaves the matrices and the exported edges alone, and nobody disappears. -/
theorem linkAdd_frame {src dst : HostId} {rttUs : UInt32} {tsMs : UInt64} {ret : Int}
    (h : s.linkAdd q env src dst rttUs tsMs = .ok (ret, s')) : Frame s s' ∧ Grows s s' := by
  obtain ⟨hf, ⟨-, hsame⟩ | ⟨-, ⟨ha⟩⟩⟩ := linkAdd_cases h
  · exact ⟨hf, hsame.grows⟩
  · exact ⟨hf, ha.grows⟩

/-- The same of `host_add`. -/
theorem hostAdd_frame {p : HostPtr} {type : HostType} {nh : HostId} {ret : Int}
    (h : s.hostAdd q env p type = .ok (ret, nh, s')) :
    Frame s s' ∧ Grows s s' := by
  obtain ⟨hf, ⟨-, hsame⟩ | ⟨-, ⟨ha⟩⟩⟩ := hostAdd_cases h
  · exact ⟨hf, hsame.grows⟩
  · exact ⟨hf, ha.grows⟩

end Routing

end P2pVn
