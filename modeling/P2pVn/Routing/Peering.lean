import P2pVn.Routing.Adding

/-!
# `Routing.Peering` — the table phases of `rt_dhost_add_link` and `rt_dhost_remove`

`LinkRun` and `UnlinkRun` list the ways the two phases can return, with what was looked up on the way. The
invariants, the frame and the fate of every record are read off these lists (`LinkPhase`, `UnlinkPhase`).

What makes the first of the two delicate is that a record changes hands: a host that was known by hearsay is
promoted by letting its pointer point into the peer (`ihost_to_dhost`), which keeps the order of the table only
because both addresses have the same MAC (`mac_promote`); and if the link to it cannot be added afterwards, the
promotion stays. A peer with local's own MAC is refused, before anything is changed.

- `linkDhost_run`, `unlinkDhost_run`: the inversions; `LinkRun.phase`, `UnlinkRun.phase`: what they come to.
- `linkDhost_ok`, `unlinkDhost_ok`: progress.
-/

namespace P2pVn
open CUb

namespace Routing

variable {env : ExtMem} {q : Qsort} {s s' : Routing} {L : HostId}

/-! ## `rt_dhost_add_link` -/

/-- The lookups both outcomes of the link search share. -/
structure LocalFound (env : ExtMem) (s : Routing) (sh : HostId) (shRec : RtHost) : Prop where
  found : ∃ m i L, s.theLocal = .ok L ∧ s.macOf env L = .ok m ∧
    s.findHostByAddr env m = .ok (some i) ∧ s.hosts.items[i]? = some sh
  get : s.recs.get sh = some shRec

/-- On a sound table the record found for local's MAC is local's record. -/
theorem LocalFound.eq_local {sh : HostId} {shRec : RtHost} (h : LocalFound env s sh shRec)
    (ht : TableOk env s L) : sh = L := by
  obtain ⟨m, i, L', hL, hm, hf, hi⟩ := h.found
  obtain ⟨-, hi'⟩ := ht.found_local hL hm hf
  exact Option.some.inj (hi.symm.trans hi')

/-- Every way in which `linkDhost` can return. -/
inductive LinkRun (q : Qsort) (env : ExtMem) (s : Routing) (p : HostPtr) (rttUs : UInt32)
    (now : Timeval) : Int → Routing → Prop where
  | refused {ret} (hret : ret < 0) : LinkRun q env s p rttUs now ret s
  | notAdded {ret1 nh s'} (hadd : s.hostAdd q env p .htDirect = .ok (ret1, nh, s')) (hret : ret1 ≠ 0) :
      LinkRun q env s p rttUs now (-2) s'
  | added {sh shRec nh s1 s' ret ip} (hl : LocalFound env s sh shRec) (hip : p.deref env = some ip)
      (hfind : s.findLinkByAddr env shRec.links.items ip.mac = .ok none)
      (hadd : HostAdded env s p .htDirect nh s1) (hframe : Frame s s1)
      (hrun : s.hostAdd q env p .htDirect = .ok (0, nh, s1))
      (hlink : s1.linkAdd q env sh nh rttUs (tvMs now) = .ok (ret, s')) :
      LinkRun q env s p rttUs now (if ret ≠ 0 then -3 else 0) s'
  | joined {sh shRec dst dstRec s1 s' ret ip} (hl : LocalFound env s sh shRec)
      (hip : p.deref env = some ip) (hne : s.mac? env sh ≠ some ip.mac)
      (hfind : s.findLinkByAddr env shRec.links.items ip.mac = .ok none)
      (hmem : dst ∈ s.hosts.items) (hmac : s.mac? env dst = some ip.mac)
      (hget : s.recs.get dst = some dstRec)
      (hs1 : s1 = if dstRec.type = .htNormal
        then s.store dst { dstRec with host := p, type := .htDirect } else s)
      (hlink : s1.linkAdd q env sh dst rttUs (tvMs now) = .ok (ret, s')) :
      LinkRun q env s p rttUs now (if ret ≠ 0 then -3 else 0) s'
  | refreshed {sh shRec l i ip} (hl : LocalFound env s sh shRec) (hip : p.deref env = some ip)
      (hi : shRec.links.items[i]? = some l) (hmac : s.mac? env l.dst = some ip.mac) :
      LinkRun q env s p rttUs now 0
        (s.store sh { shRec with
          links := shRec.links.withItems
            (shRec.links.items.modify i fun l => { l with rttUs := rttUs, tsMs := tvMs now }) })

/-- After `link_add`, only the code is left to be set. -/
theorem linkAdd_code {ret2 ret : Int} {s2 : Routing}
    (h : (if ret2 ≠ 0 then pure (-3, s2) else pure (0, s2) : Ub (Int × Routing)) = .ok (ret, s')) :
    ret = (if ret2 ≠ 0 then -3 else 0) ∧ s' = s2 := by
  split at h
  · rename_i hr
    cases h
    exact ⟨(if_pos hr).symm, rfl⟩
  · rename_i hr
    cases h
    exact ⟨(if_neg hr).symm, rfl⟩

/-- A code that is not zero means that the link was not added. -/
theorem linkAdd_failed {src dst : HostId} {rttUs : UInt32} {tsMs : UInt64} {ret2 : Int}
    (h : s.linkAdd q env src dst rttUs tsMs = .ok (ret2, s')) (hne : (if ret2 ≠ 0 then (-3 : Int) else 0) ≠ 0) :
    Same s s' := by
  obtain ⟨-, ⟨-, hsame⟩ | ⟨h0, -⟩⟩ := linkAdd_cases h
  · exact hsame
  · rw [h0] at hne
    exact absurd rfl hne

/-- Inversion: `rt_dhost_add_link`, up to the update of the cache, took one of these ways. -/
theorem linkDhost_run {p : HostPtr} {rttUs : UInt32} {now : Timeval} {ret : Int}
    (h : s.linkDhost q env p rttUs now = .ok (ret, s')) : LinkRun q env s p rttUs now ret s' := by
  unfold linkDhost at h
  obtain ⟨L', hL', h⟩ := bind_eq_ok.mp h
  obtain ⟨m, hm, h⟩ := bind_eq_ok.mp h
  obtain ⟨fi, hfi, h⟩ := bind_eq_ok.mp h
  cases fi with
  | none => cases h; exact .refused (by decide)
  | some srcI =>
    obtain ⟨sh, hsh, h⟩ := bind_eq_ok.mp h
    obtain ⟨dst, hdst, h⟩ := bind_eq_ok.mp h
    obtain ⟨msh, hmsh, h⟩ := bind_eq_ok.mp h
    split at h
    · cases h; exact .refused (by decide)
    · rename_i hne
      obtain ⟨shRec, hshRec, h⟩ := bind_eq_ok.mp h
      have hl : LocalFound env s sh shRec :=
        ⟨⟨m, srcI, L', hL', hm, hfi, itemAt_eq_ok.mp hsh⟩, host_eq_ok.mp hshRec⟩
      have hip := ipOf_eq_ok.mp hdst
      obtain ⟨fl, hfl, h⟩ := bind_eq_ok.mp h
      cases fl with
      | some i =>
          cases h
          obtain ⟨l, hi, hmac⟩ := findLink_some hfl
          exact .refreshed hl hip hi hmac
      | none =>
        obtain ⟨fd, hfd, h⟩ := bind_eq_ok.mp h
        cases fd with
        | none =>
            obtain ⟨⟨ret1, nh, s1⟩, hadd, h⟩ := bind_eq_ok.mp h
            obtain ⟨hframe, ⟨hr1, -⟩ | ⟨rfl, ⟨ha⟩⟩⟩ := hostAdd_cases hadd
            · simp only [ne_eq, hr1, not_false_eq_true, if_true] at h
              cases h
              exact .notAdded hadd hr1
            · simp only [ne_eq, not_true_eq_false, if_false] at h
              obtain ⟨⟨ret2, s2⟩, hlink, h⟩ := bind_eq_ok.mp h
              obtain ⟨rfl, rfl⟩ := linkAdd_code h
              exact .added hl hip hfl ha hframe hadd hlink
        | some dstI =>
            obtain ⟨dstHost, hdh, h⟩ := bind_eq_ok.mp h
            obtain ⟨s1, hs1, h⟩ := bind_eq_ok.mp h
            obtain ⟨⟨ret2, s2⟩, hlink, h⟩ := bind_eq_ok.mp h
            obtain ⟨rfl, rfl⟩ := linkAdd_code h
            obtain ⟨id, hid, hmac⟩ := findHost_some hfd
            rw [itemAt_eq_ok.mp hdh, Option.some.injEq] at hid
            subst hid
            unfold ihostToDhost at hs1
            obtain ⟨dr, hdr, hs1⟩ := bind_eq_ok.mp hs1
            refine .joined hl hip ?_ hfl (List.mem_of_getElem? (itemAt_eq_ok.mp hdh)) hmac
              (host_eq_ok.mp hdr) ?_ hlink
            · rw [macOf_eq_ok.mp hmsh]
              exact fun he => hne (Option.some.inj he)
            · split at hs1 <;> rename_i ht <;> cases hs1 <;> simp [ht]

section

variable {p : HostPtr} {rttUs : UInt32} {now : Timeval} {ret : Int}

/-- The phase changes hosts and links only, and removes nothing. -/
theorem LinkRun.frame (h : LinkRun q env s p rttUs now ret s') : Frame s s' ∧ Grows s s' := by
  cases h with
  | refused => exact ⟨Frame.refl s, Grows.refl s⟩
  | notAdded hadd _ => exact hostAdd_frame hadd
  | added _ _ _ hadd hframe _ hlink =>
      obtain ⟨hf, hg⟩ := linkAdd_frame hlink
      exact ⟨hframe.trans hf, hadd.grows.trans hg⟩
  | joined _ _ _ _ _ _ hget hs1 hlink =>
      obtain ⟨hf, hg⟩ := linkAdd_frame hlink
      subst hs1
      split at hf
      · rename_i hn
        rw [if_pos hn] at hg
        exact ⟨(frame_store _ _ _).trans hf, (grows_store hget _).trans hg⟩
      · rename_i hn
        rw [if_neg hn] at hg
        exact ⟨hf, hg⟩
  | refreshed hl _ _ _ => exact ⟨frame_store _ _ _, grows_store hl.get _⟩

/-! ### Refreshing a link -/

/-- The destinations of a link list after one entry was refreshed are the same, in the same order. -/
theorem map_dst_modify (links : List RtLink) (i : Nat) (rttUs : UInt32) (tsMs : UInt64) :
    (links.modify i fun l => { l with rttUs := rttUs, tsMs := tsMs }).map RtLink.dst
      = links.map RtLink.dst := by
  induction links generalizing i with
  | nil => simp
  | cons l ls ih => cases i with
    | zero => rfl
    | succ i => simp [List.modify_succ_cons, ih]

/-- The order of links is the order of the hosts they lead to. -/
theorem macOrdered_map {R : EtherAddr → EtherAddr → Prop} {links : List RtLink} :
    MacOrdered R env s RtLink.dst links ↔ MacOrdered R env s (fun j => j) (links.map RtLink.dst) := by
  unfold MacOrdered
  rw [List.pairwise_map]

/-- Refreshing a link keeps the order, and leads to the same records. -/
theorem macOrdered_modify {R : EtherAddr → EtherAddr → Prop} {links : List RtLink}
    (h : MacOrdered R env s RtLink.dst links) (i : Nat) (rttUs : UInt32) (tsMs : UInt64) :
    MacOrdered R env s RtLink.dst
      (links.modify i fun l => { l with rttUs := rttUs, tsMs := tsMs }) := by
  rw [macOrdered_map, map_dst_modify, ← macOrdered_map]
  exact h

/-- Changing a link's numbers does not change where it leads. -/
theorem mem_modify_dst {links : List RtLink} {i : Nat} {rttUs : UInt32} {tsMs : UInt64} {l : RtLink}
    (h : l ∈ links.modify i fun l => { l with rttUs := rttUs, tsMs := tsMs }) :
    ∃ l' ∈ links, l'.dst = l.dst := by
  have hm : l.dst ∈ (links.modify i fun l => { l with rttUs := rttUs, tsMs := tsMs }).map RtLink.dst :=
    List.mem_map_of_mem h
  rw [map_dst_modify] at hm
  exact List.mem_map.mp hm

/-! ### Promoting a record -/

/-- The peer's address has the MAC of the record that is to point to it. -/
theorem mac_promote {p : HostPtr} {ip : Ipv4Host} {dst : HostId} {dstRec : RtHost}
    (hip : p.deref env = some ip) (hmac : s.mac? env dst = some ip.mac)
    (hget : s.recs.get dst = some dstRec) :
    (p.deref env).map Ipv4Host.mac = (dstRec.host.deref env).map Ipv4Host.mac := by
  rw [hip]
  simpa [mac?, hget] using hmac.symm

/-- Promoting the record of the peer's MAC to a direct peer keeps the table sound. -/
theorem TableOk.promote (ht : TableOk env s L) {d : Nat} {ip : Ipv4Host} {dst : HostId}
    {dstRec : RtHost} (hip : HostPtr.deref env (.env (.dp d)) = some ip)
    (hmac : s.mac? env dst = some ip.mac) (hget : s.recs.get dst = some dstRec)
    (hn : dstRec.type = .htNormal) :
    TableOk env (s.store dst { dstRec with host := .env (.dp d), type := .htDirect }) L := by
  have hneL : dst ≠ L := ht.direct_ne_local hget (by rw [hn]; decide)
  exact ht.store hget (mac_promote hip hmac hget) (by simp [hn]) ⟨d, rfl⟩ (Or.inl rfl)
    (fun he => absurd he hneL)

/-- Making a record point into the peer keeps the links sound: its MAC stays the same. -/
theorem LinksOk.promote {R : EtherAddr → EtherAddr → Prop} (hl : LinksOk R env s) {p : HostPtr}
    {ip : Ipv4Host} {dst : HostId} {dstRec : RtHost} (hip : p.deref env = some ip)
    (hmem : dst ∈ s.hosts.items) (hmac : s.mac? env dst = some ip.mac)
    (hget : s.recs.get dst = some dstRec) :
    LinksOk R env (s.store dst { dstRec with host := p, type := .htDirect }) :=
  hl.store hget (mac_promote hip hmac hget) (hl.dst dst hmem dstRec hget)
    (hl.ordered dst hmem dstRec hget)

/-! ### Adding local's link -/

/-- A sound table in which local's record has no link to the direct peer `dst` yet. -/
structure Prepared (env : ExtMem) (s : Routing) (L dst : HostId) : Prop where
  tableOk : TableOk env s L
  mem : dst ∈ s.hosts.items
  ne : dst ≠ L
  direct : ∀ r, s.recs.get dst = some r → r.type = .htDirect
  absent : ∀ r m, s.recs.get L = some r → s.mac? env dst = some m →
    ∀ l ∈ r.links.items, s.mac? env l.dst ≠ some m

namespace Prepared

variable {dst : HostId} (hp : Prepared env s L dst)
include hp

/-- Local's links are strictly ordered again: the new one leads to a host that had none. -/
theorem strict {rttUs : UInt32} {tsMs : UInt64} (ha : LinkAdded env s L dst rttUs tsMs s') :
    MacStrict env s RtLink.dst ha.after.links.items := by
  obtain ⟨m, hm⟩ := hp.tableOk.live dst hp.mem
  exact ha.strict (hp.tableOk.localStrict _ ha.get) hm (hp.absent _ m ha.get hm)

theorem tableOk_added {rttUs : UInt32} {tsMs : UInt64} (ha : LinkAdded env s L dst rttUs tsMs s') :
    TableOk env s' L :=
  ha.tableOk hp.tableOk hp.tableOk.localMem fun _ => ⟨hp.strict ha, hp.mem, hp.direct⟩

theorem linksOk_added {R : EtherAddr → EtherAddr → Prop} (hR : ∀ m m', MacLt m m' → R m m')
    (hl : LinksOk R env s) {rttUs : UInt32} {tsMs : UInt64}
    (ha : LinkAdded env s L dst rttUs tsMs s') : LinksOk R env s' :=
  ha.linksOk hl hp.tableOk.localMem hp.mem hp.ne ((hp.strict ha).imp hR)

/-- Without allocation failures the link is added. -/
theorem linkAdd_ok (hal : s.allocs = []) (rttUs : UInt32) (tsMs : UInt64) :
    ∃ s', s.linkAdd q env L dst rttUs tsMs = .ok (0, s') ∧ s'.allocs = [] := by
  obtain ⟨r, -, hg, -⟩ := hp.tableOk.local_live
  refine Routing.linkAdd_ok hal hg fun l hl => ?_
  rw [List.mem_append, List.mem_singleton] at hl
  rcases hl with hl | rfl
  · exact hp.tableOk.localLinks_live hg l hl
  · exact hp.tableOk.live dst hp.mem

end Prepared

/-- A new direct peer is prepared. -/
theorem HostAdded.prepared {d : Nat} {nh : HostId} (ha : HostAdded env s (.env (.dp d)) .htDirect nh s')
    (ht : TableOk env s L) {r : RtHost} (hg : s.recs.get L = some r)
    (hfind : s.findLinkByAddr env r.links.items ha.ip.mac = .ok none) : Prepared env s' L nh where
  tableOk := ha.tableOk ht (by decide) (fun _ => ⟨d, rfl⟩)
  mem := ha.mem_new
  ne := (ha.ne_new hg).symm
  direct r' hr' := by
    rw [ha.get_new] at hr'
    cases hr'
    exact ha.fresh.type
  absent r' m hr' hm l hl := by
    rw [ha.get_old hg] at hr'
    cases hr'
    rw [ha.mac_new] at hm
    cases hm
    rw [ha.mac_congr ht.live (ht.localDirect _ hg l hl).1]
    exact search_none (ht.localLinks_live hg) (ht.localStrict _ hg).sorted hfind l hl

/-- So is a direct peer of the table that local has no link to. -/
theorem TableOk.prepared (ht : TableOk env s L) {dst : HostId} {m : EtherAddr} {r dstRec : RtHost}
    (hg : s.recs.get L = some r) (hfind : s.findLinkByAddr env r.links.items m = .ok none)
    (hmem : dst ∈ s.hosts.items) (hne : dst ≠ L) (hmac : s.mac? env dst = some m)
    (hget : s.recs.get dst = some dstRec) (hn : dstRec.type ≠ .htNormal) : Prepared env s L dst where
  tableOk := ht
  mem := hmem
  ne := hne
  direct r' hr' := by
    rw [hget] at hr'
    cases hr'
    cases htype : dstRec.type with
    | htLocal => exact absurd (ht.onlyLocal dst hmem dstRec hget htype) hne
    | htDirect => rfl
    | htNormal => exact absurd htype hn
  absent r' m' hr' hm l hl := by
    rw [hg] at hr'
    cases hr'
    rw [hmac] at hm
    cases hm
    exact search_none (ht.localLinks_live hg) (ht.localStrict _ hg).sorted hfind l hl

/-- So is a record that was just promoted. -/
theorem TableOk.prepared_promote (ht : TableOk env s L) {d : Nat} {ip : Ipv4Host} {dst : HostId}
    {r dstRec : RtHost} (hip : HostPtr.deref env (.env (.dp d)) = some ip) (hg : s.recs.get L = some r)
    (hfind : s.findLinkByAddr env r.links.items ip.mac = .ok none) (hmem : dst ∈ s.hosts.items)
    (hmac : s.mac? env dst = some ip.mac) (hget : s.recs.get dst = some dstRec)
    (hn : dstRec.type = .htNormal) :
    Prepared env (s.store dst { dstRec with host := .env (.dp d), type := .htDirect }) L dst := by
  have hneL : dst ≠ L := ht.direct_ne_local hget (by rw [hn]; decide)
  have hmacEq : ∀ j, (s.store dst { dstRec with host := .env (.dp d), type := .htDirect }).mac? env j = s.mac? env j :=
    mac?_store_of_eq hget (mac_promote hip hmac hget)
  refine ⟨ht.promote hip hmac hget hn, hmem, hneL, ?_, ?_⟩
  · intro r' hr'
    rw [get_store hget, if_pos rfl] at hr'
    cases hr'
    rfl
  · intro r' m hr' hm l hl
    rw [get_store hget, if_neg hneL.symm, hg] at hr'
    cases hr'
    rw [hmacEq, hmac] at hm
    cases hm
    rw [hmacEq]
    exact search_none (ht.localLinks_live hg) (ht.localStrict _ hg).sorted hfind l hl

/-! ### The phase on a sound table -/

/-- **Every way in which the table phase of `rt_dhost_add_link` can return on a sound table.** -/
inductive LinkPhase (q : Qsort) (env : ExtMem) (s : Routing) (L : HostId) (d : Nat) (rttUs : UInt32)
    (now : Timeval) : Int → Routing → Prop where
  | refused {ret2 s2} (hret : ret2 < 0) (hs : Same s s2) : LinkPhase q env s L d rttUs now ret2 s2
  | added {nh s1 s2 ret2} (hadd : HostAdded env s (.env (.dp d)) .htDirect nh s1)
      (hp : Prepared env s1 L nh) (hlink : s1.linkAdd q env L nh rttUs (tvMs now) = .ok (ret2, s2)) :
      LinkPhase q env s L d rttUs now (if ret2 ≠ 0 then -3 else 0) s2
  | promoted {dst dstRec s2 ret2 ip} (hip : env (.dp d) = some ip) (hmem : dst ∈ s.hosts.items)
      (hmac : s.mac? env dst = some ip.mac) (hget : s.recs.get dst = some dstRec)
      (hn : dstRec.type = .htNormal)
      (hp : Prepared env (s.store dst { dstRec with host := .env (.dp d), type := .htDirect }) L dst)
      (hlink : (s.store dst { dstRec with host := .env (.dp d), type := .htDirect }).linkAdd q env L dst
        rttUs (tvMs now) = .ok (ret2, s2)) :
      LinkPhase q env s L d rttUs now (if ret2 ≠ 0 then -3 else 0) s2
  | joined {dst s2 ret2 ip} (hip : env (.dp d) = some ip) (hmac : s.mac? env dst = some ip.mac)
      (hp : Prepared env s L dst) (hlink : s.linkAdd q env L dst rttUs (tvMs now) = .ok (ret2, s2)) :
      LinkPhase q env s L d rttUs now (if ret2 ≠ 0 then -3 else 0) s2
  | refreshed {r l i ip} (hip : env (.dp d) = some ip) (hg : s.recs.get L = some r)
      (hi : r.links.items[i]? = some l) (hmac : s.mac? env l.dst = some ip.mac) :
      LinkPhase q env s L d rttUs now 0
        (s.store L { r with
          links := r.links.withItems
            (r.links.items.modify i fun l => { l with rttUs := rttUs, tsMs := tvMs now }) })

/-- Every way it takes is a phase as described: the table stays sound, and says what was measured. -/
theorem LinkRun.phase {d : Nat} (h : LinkRun q env s (.env (.dp d)) rttUs now ret s')
    (ht : TableOk env s L) : LinkPhase q env s L d rttUs now ret s' := by
  cases h with
  | refused hret => exact .refused hret (Same.refl s)
  | notAdded hadd hret =>
      obtain ⟨-, ⟨-, hsame⟩ | ⟨h0, -⟩⟩ := hostAdd_cases hadd
      · exact .refused (by decide) hsame
      · exact absurd h0 hret
  | added hl hip hfind hadd _ _ hlink =>
      have hLe := hl.eq_local ht
      subst hLe
      have hipEq := Option.some.inj (hadd.addr.symm.trans hip)
      exact .added hadd (hadd.prepared ht hl.get (hipEq ▸ hfind)) hlink
  | @joined sh shRec dst dstRec s1 _ _ _ hl hip hne hfind hmem hmac hget hs1 hlink =>
      have hLe := hl.eq_local ht
      subst hLe
      -- the peer does not have the MAC of local, so it is another host
      have hneL : dst ≠ sh := by
        rintro rfl
        exact hne hmac
      subst hs1
      by_cases hn : dstRec.type = .htNormal
      · rw [if_pos hn] at hlink
        exact .promoted hip hmem hmac hget hn
          (ht.prepared_promote hip hl.get hfind hmem hmac hget hn) hlink
      · rw [if_neg hn] at hlink
        exact .joined hip hmac (ht.prepared hl.get hfind hmem hneL hmac hget hn) hlink
  | refreshed hl hip hi hmac =>
      have hLe := hl.eq_local ht
      subst hLe
      exact .refreshed hip hl.get hi hmac

/-- **The table phase of `rt_dhost_add_link` keeps the table sound.** -/
theorem LinkPhase.tableOk {d : Nat} (h : LinkPhase q env s L d rttUs now ret s')
    (ht : TableOk env s L) : TableOk env s' L := by
  have hadded : ∀ {s1 s2 : Routing} {dst : HostId} {ret : Int}, Prepared env s1 L dst →
      s1.linkAdd q env L dst rttUs (tvMs now) = .ok (ret, s2) → TableOk env s2 L := by
    intro s1 s2 dst ret hp hlink
    obtain ⟨-, ⟨-, hsame⟩ | ⟨-, ⟨ha⟩⟩⟩ := linkAdd_cases hlink
    · exact hp.tableOk.same hsame
    · exact hp.tableOk_added ha
  cases h with
  | refused _ hs => exact ht.same hs
  | added _ hp hlink => exact hadded hp hlink
  | promoted _ _ _ _ _ hp hlink => exact hadded hp hlink
  | joined _ _ hp hlink => exact hadded hp hlink
  | refreshed _ hg hi hmac =>
      refine ht.store hg rfl Iff.rfl ((ht.kind L ht.localMem _ hg).congr rfl rfl)
        (Or.inr ?_) ?_
      · rintro r hr l hlm rfl
        exact ht.direct_ne_local hg (by rw [(ht.localDirect r hr l hlm).2 _ hg]; decide) rfl
      · intro _
        refine ⟨macOrdered_modify (ht.localStrict _ hg) _ _ _, fun l' hl' => ?_⟩
        obtain ⟨l0, hl0, hdst⟩ := mem_modify_dst hl'
        exact hdst ▸ ht.localDirect _ hg l0 hl0

/-- **It keeps the links sound**, whether they are ordered strictly or weakly. -/
theorem LinkPhase.linksOk {R : EtherAddr → EtherAddr → Prop} (hR : ∀ m m', MacLt m m' → R m m') {d : Nat}
    (h : LinkPhase q env s L d rttUs now ret s') (ht : TableOk env s L) (hl : LinksOk R env s) :
    LinksOk R env s' := by
  have hadded : ∀ {s1 s2 : Routing} {dst : HostId} {ret : Int}, Prepared env s1 L dst →
      LinksOk R env s1 → s1.linkAdd q env L dst rttUs (tvMs now) = .ok (ret, s2) →
      LinksOk R env s2 := by
    intro s1 s2 dst ret hp hl1 hlink
    obtain ⟨-, ⟨-, hsame⟩ | ⟨-, ⟨ha⟩⟩⟩ := linkAdd_cases hlink
    · exact hl1.same hsame
    · exact hp.linksOk_added hR hl1 ha
  cases h with
  | refused _ hs => exact hl.same hs
  | added hadd hp hlink => exact hadded hp (hadd.linksOk ht hl) hlink
  | promoted hip hmem hmac hget _ hp hlink => exact hadded hp (hl.promote hip hmem hmac hget) hlink
  | joined _ _ hp hlink => exact hadded hp hl hlink
  | refreshed _ hg hi hmac =>
      refine hl.store hg rfl (fun l' hl' => ?_) ?_
      · obtain ⟨l0, hl0, hdst⟩ := mem_modify_dst hl'
        exact hdst ▸ hl.dst L ht.localMem _ hg l0 hl0
      · exact macOrdered_modify (hl.ordered L ht.localMem _ hg) _ _ _

end

/-- A call that returns has read the peer's address. -/
theorem linkDhost_addr {d : Nat} {rttUs : UInt32} {now : Timeval} {ret : Int}
    (h : s.linkDhost q env (.env (.dp d)) rttUs now = .ok (ret, s')) (ht : TableOk env s L) :
    ∃ ip, env (.dp d) = some ip := by
  obtain ⟨i, m, hL, hm, hf, hi⟩ := ht.find_local
  unfold linkDhost at h
  simp only [hL, hm, hf, ok_bind, itemAt_eq_ok.mpr hi] at h
  obtain ⟨ip, hip, -⟩ := bind_eq_ok.mp h
  exact ⟨ip, ipOf_eq_ok.mp hip⟩

/-- **On a sound table, without allocation failures, the table phase of `rt_dhost_add_link` returns `0`** for
    a live peer, unless the peer has local's MAC. -/
theorem linkDhost_zero (ht : TableOk env s L) (hal : s.allocs = []) {d : Nat} {ip : Ipv4Host}
    (hip : env (.dp d) = some ip) (hother : s.mac? env L ≠ some ip.mac) (rttUs : UInt32) (now : Timeval) :
    ∃ s', s.linkDhost q env (.env (.dp d)) rttUs now = .ok (0, s') ∧ s'.allocs = [] := by
  have hipd : HostPtr.deref env (.env (.dp d)) = some ip := hip
  obtain ⟨i, m, hL, hm, hf, hi⟩ := ht.find_local
  obtain ⟨r, -, hg, -⟩ := ht.local_live
  have hself : m ≠ ip.mac := by
    rintro rfl
    exact hother (macOf_eq_ok.mp hm)
  unfold linkDhost
  simp only [hL, hm, hf, ok_bind, itemAt_eq_ok.mpr hi, ipOf_eq_ok.mpr hipd]
  rw [if_neg hself, host_eq_ok.mpr hg, ok_bind]
  obtain ⟨fl, hfl⟩ : ∃ fl, s.findLinkByAddr env r.links.items ip.mac = .ok fl :=
    search_ok (ht.localLinks_live hg)
  rw [hfl, ok_bind]
  cases fl with
  -- the link is there already: only its fields are set
  | some j => exact ⟨_, rfl, hal⟩
  | none =>
    obtain ⟨fd, hfd⟩ := ht.findHost_ok ip.mac
    simp only [hfd, ok_bind]
    cases fd with
    | none =>
        obtain ⟨nh, s1, hadd, hal1⟩ := hostAdd_ok q .htDirect hal ht.live hipd hfd
        obtain ⟨-, ⟨h0, -⟩ | ⟨-, ⟨ha⟩⟩⟩ := hostAdd_cases hadd
        · exact absurd rfl h0
        · have hipEq := Option.some.inj (ha.addr.symm.trans hipd)
          obtain ⟨s2, hlink, hal2⟩ := (ha.prepared ht hg (hipEq ▸ hfl)).linkAdd_ok (q := q) hal1
            rttUs (tvMs now)
          exact ⟨s2, by simp [hadd, hlink], hal2⟩
    | some j =>
        obtain ⟨dst, hj, hmac⟩ := findHost_some hfd
        have hmem := List.mem_of_getElem? hj
        obtain ⟨dstRec, hget⟩ := ht.get dst hmem
        have hneL : dst ≠ L := by
          rintro rfl
          exact hother hmac
        simp only [itemAt_eq_ok.mpr hj, ok_bind, ihostToDhost, host_eq_ok.mpr hget]
        -- a host that was known from edges becomes direct before it is linked
        by_cases hn : dstRec.type = .htNormal
        · obtain ⟨s2, hlink, hal2⟩ :=
            (ht.prepared_promote hipd hg hfl hmem hmac hget hn).linkAdd_ok (q := q) hal rttUs (tvMs now)
          exact ⟨s2, by simp [hn, hlink], hal2⟩
        · obtain ⟨s2, hlink, hal2⟩ :=
            (ht.prepared hg hfl hmem hneL hmac hget hn).linkAdd_ok (q := q) hal rttUs (tvMs now)
          exact ⟨s2, by simp [hn, hlink], hal2⟩

/-- **It does not fault**, whichever live peer it is called for. -/
theorem linkDhost_ok (ht : TableOk env s L) (hal : s.allocs = []) {d : Nat} {ip : Ipv4Host}
    (hip : env (.dp d) = some ip) (rttUs : UInt32) (now : Timeval) :
    ∃ ret s', s.linkDhost q env (.env (.dp d)) rttUs now = .ok (ret, s') ∧ s'.allocs = [] ∧
      (ret ≠ 0 → s' = s) := by
  by_cases hself : s.mac? env L = some ip.mac
  · have hipd : HostPtr.deref env (.env (.dp d)) = some ip := hip
    obtain ⟨i, m, hL, hm, hf, hi⟩ := ht.find_local
    obtain rfl : m = ip.mac := Option.some.inj ((macOf_eq_ok.mp hm).symm.trans hself)
    refine ⟨-2, s, ?_, hal, fun _ => rfl⟩
    unfold linkDhost
    simp only [hL, hm, hf, ok_bind, itemAt_eq_ok.mpr hi, ipOf_eq_ok.mpr hipd, if_true]
    rfl
  · obtain ⟨s', h, hal'⟩ := linkDhost_zero (q := q) ht hal hip hself rttUs now
    exact ⟨0, s', h, hal', fun h0 => absurd rfl h0⟩

/-! ## `rt_dhost_remove` -/

/-- What `link_remove` did if it returned: the link at this position is gone, the order of the others is kept. -/
theorem linkRemove_cases {src : HostId} {i : Nat} (h : s.linkRemove src i = .ok s') :
    ∃ r, s.recs.get src = some r ∧ s' = s.store src { r with links := r.links.remove i } := by
  obtain ⟨r, hr, h⟩ := bind_eq_ok.mp h
  cases h
  exact ⟨r, host_eq_ok.mp hr, rfl⟩

/-- Every way in which `unlinkDhost` can return. -/
inductive UnlinkRun (env : ExtMem) (s : Routing) (dmac : EtherAddr) : Int → Routing → Prop where
  | refused {ret s2} (hret : ret ≠ 0) (hf : Frame s s2) (hs : Same s s2) : UnlinkRun env s dmac ret s2
  | removed {sh shRec i l h ip s1 s2} (hl : LocalFound env s sh shRec)
      (hi : shRec.links.items[i]? = some l) (hmac : s.mac? env l.dst = some dmac)
      (hget : s.recs.get l.dst = some h) (hd : h.type = .htDirect) (hip : h.host.deref env = some ip)
      (hf : Frame s s1) (hs : Same s s1)
      (hrm : (s1.store l.dst { h with host := .heap ip, type := .htNormal }).linkRemove sh i = .ok s2) :
      UnlinkRun env s dmac 0 s2

/-- Inversion: `rt_dhost_remove`, up to the update of the cache. -/
theorem unlinkDhost_run {dmac : EtherAddr} {ret : Int} (h : s.unlinkDhost env dmac = .ok (ret, s')) :
    UnlinkRun env s dmac ret s' := by
  unfold unlinkDhost at h
  obtain ⟨L', hL', h⟩ := bind_eq_ok.mp h
  obtain ⟨m, hm, h⟩ := bind_eq_ok.mp h
  obtain ⟨fi, hfi, h⟩ := bind_eq_ok.mp h
  cases fi with
  | none => cases h; exact .refused (by decide) (Frame.refl s) (Same.refl s)
  | some srcI =>
    obtain ⟨sh, hsh, h⟩ := bind_eq_ok.mp h
    obtain ⟨shRec, hshRec, h⟩ := bind_eq_ok.mp h
    have hl : LocalFound env s sh shRec :=
      ⟨⟨m, srcI, L', hL', hm, hfi, itemAt_eq_ok.mp hsh⟩, host_eq_ok.mp hshRec⟩
    obtain ⟨fl, hfl, h⟩ := bind_eq_ok.mp h
    cases fl with
    | none => cases h; exact .refused (by decide) (Frame.refl s) (Same.refl s)
    | some i =>
      obtain ⟨l, hi, hmac⟩ := findLink_some hfl
      simp only [hi] at h
      obtain ⟨r, hr, h⟩ := bind_eq_ok.mp h
      split at h
      · cases h; exact .refused (by decide) (Frame.refl s) (Same.refl s)
      · rename_i hd
        have hsame : Same s s.malloc.2 := ⟨rfl, rfl, fun _ => rfl, Nat.le_refl _⟩
        have hframe : Frame s s.malloc.2 := ⟨rfl, rfl, rfl, rfl, rfl⟩
        split at h
        · cases h; exact .refused (by decide) hframe hsame
        · obtain ⟨ip, hip, h⟩ := bind_eq_ok.mp h
          obtain ⟨s2, hrm, h⟩ := bind_eq_ok.mp h
          cases h
          exact .removed hl hi hmac (host_eq_ok.mp hr) (Decidable.not_not.mp hd) (ipOf_eq_ok.mp hip)
            hframe hsame hrm

section

variable {dmac : EtherAddr} {ret : Int}

/-- The phase changes hosts and links only, and removes no record. -/
theorem UnlinkRun.frame (h : UnlinkRun env s dmac ret s') : Frame s s' ∧ Grows s s' := by
  cases h with
  | refused _ hf hs => exact ⟨hf, hs.grows⟩
  | removed _ _ _ hget _ _ hf hs hrm =>
      obtain ⟨r, hr, rfl⟩ := linkRemove_cases hrm
      refine ⟨hf.trans ((frame_store _ _ _).trans (frame_store _ _ _)), ?_⟩
      exact hs.grows.trans ((grows_store ((hs.get _).trans hget) _).trans (grows_store hr _))

/-- **Every way in which the table phase of `rt_dhost_remove` can return on a sound table.** -/
inductive UnlinkPhase (env : ExtMem) (s : Routing) (L : HostId) (dmac : EtherAddr) :
    Int → Routing → Prop where
  | refused {ret2 s2} (hret : ret2 ≠ 0) (hs : Same s s2) : UnlinkPhase env s L dmac ret2 s2
  | removed {r i l h ip s2} (hg : s.recs.get L = some r) (hi : r.links.items[i]? = some l)
      (hmac : s.mac? env l.dst = some dmac) (hget : s.recs.get l.dst = some h)
      (hd : h.type = .htDirect) (hip : h.host.deref env = some ip)
      (hs : Same ((s.store L { r with links := r.links.remove i }).store l.dst
        { h with host := .heap ip, type := .htNormal }) s2) : UnlinkPhase env s L dmac 0 s2

theorem UnlinkRun.phase (h : UnlinkRun env s dmac ret s') (ht : TableOk env s L) :
    UnlinkPhase env s L dmac ret s' := by
  cases h with
  | refused hret _ hs => exact .refused hret hs
  | @removed sh shRec i l h ip s1 _ hl hi hmac hget hd hip _ hs hrm =>
      have hLe := hl.eq_local ht
      subst hLe
      refine .removed hl.get hi hmac hget hd hip ?_
      -- the two records differ, so the order of the two writes does not matter
      have hne : l.dst ≠ sh := ht.direct_ne_local hget (by rw [hd]; decide)
      obtain ⟨r, hr, rfl⟩ := linkRemove_cases hrm
      have hget1 : s1.recs.get l.dst = some h := (hs.get _).trans hget
      have hr' : r = shRec := by
        rw [get_store hget1, if_neg hne.symm, hs.get, hl.get] at hr
        exact (Option.some.inj hr).symm
      subst hr'
      have hgetL : (s.store sh { r with links := r.links.remove i }).recs.get l.dst = some h := by
        rw [get_store hl.get, if_neg hne, hget]
      refine ⟨hs.hosts, hs.localHost, fun j => ?_, ?_⟩
      · rw [get_store hr, get_store hget1, get_store hgetL, get_store hl.get, hs.get]
        by_cases hjL : j = sh
        · rw [if_pos hjL, if_neg (by rintro rfl; exact hne hjL), if_pos hjL]
        · rw [if_neg hjL, if_neg hjL]
      · simpa only [store, CellHeap.fresh_set] using hs.fresh

/-- The state in which local's link is gone and its destination is not demoted yet. -/
theorem TableOk.unlink (ht : TableOk env s L) {r : RtHost} (hg : s.recs.get L = some r) (i : Nat) :
    TableOk env (s.store L { r with links := r.links.remove i }) L := by
  refine ht.store hg rfl Iff.rfl ((ht.kind L ht.localMem _ hg).congr rfl rfl) (Or.inr ?_) ?_
  · rintro r' hr' l hl rfl
    exact ht.direct_ne_local hg (by rw [(ht.localDirect r' hr' l hl).2 _ hg]; decide) rfl
  · intro _
    exact ⟨(ht.localStrict r hg).sublist (List.eraseIdx_sublist _ _),
      fun l hl => ht.localDirect r hg l (List.mem_of_mem_eraseIdx hl)⟩

/-- The destination of a link that was at position `i` is no destination of what remains. -/
theorem MacStrict.eraseIdx_ne {links : List RtLink} (h : MacStrict env s RtLink.dst links) {i : Nat}
    {l : RtLink} (hi : links[i]? = some l) {m : EtherAddr} (hm : s.mac? env l.dst = some m) :
    ∀ l' ∈ links.eraseIdx i, s.mac? env l'.dst ≠ some m := by
  intro l' hl' hm'
  obtain ⟨j, hji, hj⟩ := List.mem_eraseIdx_iff_getElem?.mp hl'
  exact hji (h.index_inj hj hi hm' hm)

/-- **The table phase of `rt_dhost_remove` keeps the table sound.** -/
theorem UnlinkPhase.tableOk (h : UnlinkPhase env s L dmac ret s') (ht : TableOk env s L) :
    TableOk env s' L := by
  cases h with
  | refused _ hs => exact ht.same hs
  | @removed r i l h ip s2 hg hi hmac hget hd hip hs =>
      have hne : l.dst ≠ L := ht.direct_ne_local hget (by rw [hd]; decide)
      have hget' : (s.store L { r with links := r.links.remove i }).recs.get l.dst = some h := by
        rw [get_store hg, if_neg hne, hget]
      refine TableOk.same ?_ hs
      refine (ht.unlink hg i).store hget' (by rw [hip]; rfl) (by simp [hd]) ⟨ip, rfl⟩ (Or.inr ?_)
        (fun he => absurd he hne)
      intro r' hr' l' hl' he
      rw [get_store hg, if_pos rfl] at hr'
      cases hr'
      exact (ht.localStrict r hg).eraseIdx_ne hi hmac l' hl' (he ▸ hmac)

/-- **It keeps the links sound.** -/
theorem UnlinkPhase.linksOk {R : EtherAddr → EtherAddr → Prop} (h : UnlinkPhase env s L dmac ret s')
    (ht : TableOk env s L) (hl : LinksOk R env s) : LinksOk R env s' := by
  cases h with
  | refused _ hs => exact hl.same hs
  | @removed r i l h ip s2 hg hi hmac hget hd hip hs =>
      have hne : l.dst ≠ L := ht.direct_ne_local hget (by rw [hd]; decide)
      have hmem : l.dst ∈ s.hosts.items := (ht.localDirect r hg l (List.mem_of_getElem? hi)).1
      have hget' : (s.store L { r with links := r.links.remove i }).recs.get l.dst = some h := by
        rw [get_store hg, if_neg hne, hget]
      have h1 : LinksOk R env (s.store L { r with links := r.links.remove i }) :=
        hl.store hg rfl (fun l' hl' => hl.dst L ht.localMem r hg l' (List.mem_of_mem_eraseIdx hl'))
          ((hl.ordered L ht.localMem r hg).sublist (List.eraseIdx_sublist _ _))
      refine LinksOk.same ?_ hs
      exact h1.store hget' (by rw [hip]; rfl) (h1.dst l.dst hmem h hget') (h1.ordered l.dst hmem h hget')

end

/-- **On a sound table, without allocation failures, the table phase of `rt_dhost_remove` does not
    fault.** -/
theorem unlinkDhost_ok (ht : TableOk env s L) (hal : s.allocs = []) (dmac : EtherAddr) :
    ∃ ret s', s.unlinkDhost env dmac = .ok (ret, s') ∧ s'.allocs = [] ∧ (ret ≠ 0 → s' = s) := by
  obtain ⟨i, m, hL, hm, hf, hi⟩ := ht.find_local
  obtain ⟨r, -, hg, -⟩ := ht.local_live
  unfold unlinkDhost
  simp only [hL, hm, hf, ok_bind, itemAt_eq_ok.mpr hi, host_eq_ok.mpr hg]
  obtain ⟨fl, hfl⟩ : ∃ fl, s.findLinkByAddr env r.links.items dmac = .ok fl :=
    search_ok (ht.localLinks_live hg)
  rw [hfl, ok_bind]
  cases fl with
  | none => exact ⟨1, s, rfl, hal, fun _ => rfl⟩
  | some j =>
    obtain ⟨l, hj, hmac⟩ := findLink_some hfl
    obtain ⟨h, ip, hget, hip, -⟩ := get_of_mac? hmac
    simp only [hj, host_eq_ok.mpr hget, ok_bind, malloc, hal, takeAlloc, Bool.not_true,
      Bool.false_eq_true, if_false, ipOf_eq_ok.mpr hip]
    split
    · exact ⟨-5, s, rfl, hal, fun _ => rfl⟩
    · have hgetL : ∃ r', ({ s with allocs := [] }.store l.dst
          { h with host := .heap ip, type := .htNormal }).recs.get L = some r' := by
        rw [get_store (s := { s with allocs := [] }) hget]
        split
        · exact ⟨_, rfl⟩
        · exact ⟨r, hg⟩
      obtain ⟨r', hr'⟩ := hgetL
      rw [linkRemove, host_eq_ok.mpr hr', ok_bind]
      exact ⟨0, _, rfl, rfl, fun h => absurd rfl h⟩

end Routing

end P2pVn
