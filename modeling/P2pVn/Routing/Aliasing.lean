import P2pVn.Routing.Coherence
import P2pVn.Routing.OwnLinks

/-!
# `Routing.Aliasing` — records that point into a peer

A record of type `HT_DIRECT` has no copy of its address: its host pointer leads into the `dp_t` of its peer,
so the peer may be freed only when no record points into it. `Aliased` says that the table is sound and that
whoever is pointed into is linked to; the lemmas say what each operation does to the set of peers pointed into.

- `Aliased.addLink`: `rt_dhost_add_link` makes a record point into its peer only if it returns `0`, on the
  condition `PointsSafely`: some allocations may fail, and some may not.
- `Aliased.removeLink`: after `rt_dhost_remove` nobody points into the peer, unless its `malloc` failed.
- `Aliased.updateEdges`, `Aliased.dhostsToHost`: the other two make nobody point anywhere.

A trim can leave a freed record in the table (`HasDead`); nothing is said about the table then, only about
who is pointed into.
-/

namespace P2pVn
open CUb

namespace Routing

variable {env env' : ExtMem} {q : Qsort} {s s' : Routing} {L id : HostId} {d : Nat}

/-! ## Who is pointed into -/

/-- A record of the table points into peer `d`. -/
def PointsInto (s : Routing) (d : Nat) : Prop :=
  ∃ id ∈ s.hosts.items, ∃ r, s.recs.get id = some r ∧ r.host = .env (.dp d)

instance (s : Routing) (d : Nat) : Decidable (PointsInto s d) :=
  decidable_of_iff (∃ id ∈ s.hosts.items, (s.recs.get id).map RtHost.host = some (.env (.dp d))) (by
    simp [PointsInto])

/-- The table is sound, local links to every direct peer, and local's own record points to local's address. -/
structure Aliased (env : ExtMem) (s : Routing) (L : HostId) : Prop where
  table : TableOk env s L
  linked : DirectLinked s L
  own : ∀ r, s.recs.get L = some r → r.host = .env .lhost

/-- A direct record for a peer points into it. -/
theorem DirectAt.pointsInto (h : DirectAt s id (.env (.dp d))) : PointsInto s d := by
  obtain ⟨hmem, r, hr, -, hhost⟩ := h
  exact ⟨id, hmem, r, hr, hhost⟩

/-- On a sound table it is direct records that point into peers. -/
theorem Aliased.direct (h : Aliased env s L) (hp : PointsInto s d) : ∃ id, DirectAt s id (.env (.dp d)) := by
  obtain ⟨id, hmem, r, hr, hhost⟩ := hp
  refine ⟨id, hmem, r, hr, ?_, hhost⟩
  have hkind := h.table.kind id hmem r hr
  cases htype : r.type with
  | htDirect => rfl
  | htNormal =>
      simp only [KindOk, htype, hhost] at hkind
      obtain ⟨ip, hip⟩ := hkind
      cases hip
  | htLocal =>
      -- local's record points elsewhere
      obtain rfl := h.table.onlyLocal id hmem r hr htype
      rw [h.own r hr] at hhost
      cases hhost

theorem Same.pointsInto (h : Same s s') : PointsInto s' d ↔ PointsInto s d := by
  unfold PointsInto
  simp only [h.hosts, h.get]

theorem Aliased.same (h : Aliased env s L) (hs : Same s s') : Aliased env s' L :=
  ⟨h.table.same hs, h.linked.same hs, fun r hr => h.own r (hs.get L ▸ hr)⟩

/-- The MACs of the records may change, as long as their order does not. -/
theorem Aliased.reorder (h : Aliased env s L) (f : EtherAddr → EtherAddr)
    (hmac : ∀ id ∈ s.hosts.items, s.mac? env' id = (s.mac? env id).map f)
    (hlt : ∀ a ∈ s.hosts.items, ∀ b ∈ s.hosts.items, ∀ m m', s.mac? env a = some m → s.mac? env b = some m' →
      MacLt m m' → MacLt (f m) (f m')) : Aliased env' s L := by
  have ht := h.table
  -- what the old MACs put in order the new ones do, too
  have hpair : ∀ a ∈ s.hosts.items, ∀ b ∈ s.hosts.items,
      (∀ m m', s.mac? env a = some m → s.mac? env b = some m' → MacLt m m') →
      ∀ m m', s.mac? env' a = some m → s.mac? env' b = some m' → MacLt m m' := by
    intro a ha b hb hab m m' hm hm'
    obtain ⟨n, hn⟩ := ht.live a ha
    obtain ⟨n', hn'⟩ := ht.live b hb
    rw [hmac a ha, show s.mac? env a = some n from hn, Option.map_some, Option.some.injEq] at hm
    rw [hmac b hb, show s.mac? env b = some n' from hn', Option.map_some, Option.some.injEq] at hm'
    subst hm hm'
    exact hlt a ha b hb n n' hn hn' (hab n n' hn hn')
  refine ⟨?_, h.linked, h.own⟩
  constructor
  · intro id hmem
    show ∃ m, s.mac? env' id = some m
    obtain ⟨m, hm⟩ := ht.live id hmem
    exact ⟨f m, by rw [hmac id hmem, show s.mac? env id = some m from hm, Option.map_some]⟩
  · exact List.Pairwise.imp_of_mem (fun ha hb hab => hpair _ ha _ hb hab) ht.strict
  · exact ht.isLocal
  · exact ht.localMem
  · exact ht.localType
  · exact ht.onlyLocal
  · exact ht.kind
  · intro r hr
    refine List.Pairwise.imp_of_mem (fun ha hb hab => ?_) (ht.localStrict r hr)
    exact hpair _ (ht.localDirect r hr _ ha).1 _ (ht.localDirect r hr _ hb).1 hab
  · exact ht.localDirect

/-- A record that does not point into the peer that changes keeps its MAC. -/
theorem mac?_elsewhere {r : RtHost} (henv : ∀ p, p ≠ .dp d → env' p = env p) (hr : s.recs.get id = some r)
    (hhost : r.host ≠ .env (.dp d)) : s.mac? env' id = s.mac? env id := by
  simp only [mac?, hr, Option.bind_some]
  cases hh : r.host with
  | heap ip => rfl
  | env p =>
      rw [HostPtr.deref, HostPtr.deref, henv p]
      rintro rfl
      exact hhost hh

/-- What a peer is does not matter to a table that does not point into it. -/
theorem Aliased.elsewhere (h : Aliased env s L) (hp : ¬ PointsInto s d)
    (henv : ∀ p, p ≠ .dp d → env' p = env p) : Aliased env' s L := by
  refine h.reorder (fun m => m) (fun id hmem => ?_) fun _ _ _ _ _ _ _ _ hlt => hlt
  obtain ⟨r, hr⟩ := h.table.get id hmem
  rw [mac?_elsewhere henv hr fun hhost => hp ⟨id, hmem, r, hr, hhost⟩, Option.map_id_fun', id_def]

/-- Among the MACs of the table, `new` would stand where `old` stands. -/
def SameRank (env : ExtMem) (s : Routing) (old new : EtherAddr) : Prop :=
  ∀ id ∈ s.hosts.items, ∀ m, s.mac? env id = some m → m ≠ old → memcmp new m = memcmp old m

/-- **A peer that is pointed into may change its MAC** if the new one stands where the old one stands. -/
theorem Aliased.rename {ip ip' : Ipv4Host} (h : Aliased env s L) (hp : PointsInto s d)
    (henv : ∀ p, p ≠ .dp d → env' p = env p) (hip : env (.dp d) = some ip) (hip' : env' (.dp d) = some ip')
    (hrank : SameRank env s ip.mac ip'.mac) : Aliased env' s L := by
  obtain ⟨id0, hmem0, r0, hr0, hhost0⟩ := hp
  have hmac0 : s.mac? env id0 = some ip.mac := mac?_of_get hr0 (by rw [hhost0, HostPtr.deref, hip])
  have hmac0' : s.mac? env' id0 = some ip'.mac := mac?_of_get hr0 (by rw [hhost0, HostPtr.deref, hip'])
  refine h.reorder (fun m => if m = ip.mac then ip'.mac else m) (fun id hmem => ?_) ?_
  · obtain ⟨r, hr⟩ := h.table.get id hmem
    by_cases hid : id = id0
    · subst hid
      rw [hmac0, hmac0']
      simp
    · -- nobody else has this MAC, so nobody else points into the peer
      have hne : s.mac? env id ≠ some ip.mac := fun hm => hid (h.table.strict.inj hmem hmem0 hm hmac0)
      have hhost : r.host ≠ .env (.dp d) := fun hh => hne (mac?_of_get hr (by rw [hh, HostPtr.deref, hip]))
      rw [mac?_elsewhere henv hr hhost]
      cases hm : s.mac? env id with
      | none => rfl
      | some m =>
          have hmne : m ≠ ip.mac := fun he => hne (he ▸ hm)
          simp [hmne]
  · intro a ha b hb m m' hm hm' hlt
    by_cases hold : m = ip.mac
    · have hold' : m' ≠ ip.mac := fun he => hlt.ne (hold.trans he.symm)
      simp only [if_pos hold, if_neg hold']
      show memcmp ip'.mac m' = .lt
      rw [hrank b hb m' hm' hold', ← hold]
      exact hlt
    · by_cases hold' : m' = ip.mac
      · simp only [if_neg hold, if_pos hold']
        apply Std.OrientedCmp.gt_iff_lt.mp
        rw [hrank a ha m hm hold, ← hold']
        exact Std.OrientedCmp.gt_iff_lt.mpr hlt
      · simp only [if_neg hold, if_neg hold']
        exact hlt

/-! ## `update_cache` -/

/-- Trimming makes no record point anywhere. -/
theorem trimHost_pointsInto {i : Nat} (h : s.trimHost env i = .ok s') (hp : PointsInto s' d) : PointsInto s d := by
  obtain ⟨id, r, -, -, ⟨-, rfl⟩ | ⟨-, s1, victim, h1, -, -, rfl⟩⟩ := trimHost_cases h
  · exact hp
  · obtain ⟨j, hj, rj, hrj, hhost⟩ := hp
    have hthin := (unlinkAll_thins _ h1).1
    have hj1 : j ∈ s1.hosts.items := List.mem_of_mem_eraseIdx hj
    rw [CellHeap.get_free] at hrj
    split at hrj
    · cases hrj
    · -- a record that was thinned out points where it pointed
      cases hg : s.recs.get j with
      | none => rw [hthin.dead j hg] at hrj; cases hrj
      | some r0 =>
          obtain ⟨r1, hr1, hh1, -⟩ := hthin.thin j r0 hg
          rw [hr1] at hrj
          cases hrj
          exact ⟨j, hthin.hosts ▸ hj1, r0, hg, hh1 ▸ hhost⟩

theorem trimLoop_pointsInto {srcI : Nat} (fuel dstI : Nat) (h : trimLoop env srcI fuel dstI s = .ok s') :
    PointsInto s' d → PointsInto s d := by
  refine trimLoop_induct (P := fun t => PointsInto t d → PointsInto s d) ?_ fuel dstI h id
  intro i t t' _ _ h1 hback hp
  exact hback (trimHost_pointsInto h1 hp)

/-- **`update_cache` makes nobody point into a peer**, whatever it returns, and keeps the table sound unless
    its trim leaves a freed record in it. -/
theorem Aliased.updateCache {ret : Int} (h : Aliased env s L) (hc : s.updateCache env = .ok (ret, s')) :
    (HasDead s' ∨ Aliased env s' L) ∧ ∀ d, PointsInto s' d → PointsInto s d := by
  obtain ⟨s1, r2, s2, htrim, hcomp, hexp⟩ := updateCache_cases hc
  have hsame : Same s1 s' := by
    obtain ⟨hsame, -⟩ := computePaths_cases hcomp
    rcases hexp with ⟨-, -, rfl⟩ | ⟨-, -, hexp⟩
    · exact hsame
    · exact hsame.trans (updateExportedEdges_cases hexp).1.same
  have hsub : ∀ d, PointsInto s1 d → PointsInto s d := by
    intro d hp
    cases htrim with
    | stale _ => exact hp
    | trimmed _ _ _ _ hloop => exact trimLoop_pointsInto _ _ hloop hp
  refine ⟨?_, fun d hp => hsub d (hsame.pointsInto.mp hp)⟩
  by_cases hdead : HasDead s1
  · exact Or.inl (hsame.grows.hasDead hdead)
  · obtain ⟨hL, hdirect⟩ := htrim.directAt h.table hdead
    have ht1 := (htrim.settled (Or.inr h.table)).resolve_left hdead
    refine Or.inr (Aliased.same ⟨ht1, ?_, fun r hr => h.own r (hL ▸ hr)⟩ hsame)
    intro id ptr hid
    obtain ⟨r, hr, hl⟩ := h.linked id ptr ((hdirect id ptr).mp hid)
    exact ⟨r, hL.trans hr, hl⟩

/-- An operation whose first phase keeps the table sound, and lets records point only into the peers `P`. -/
theorem Aliased.run (op : RtOp) {ret : Int} {P : Nat → Prop} (hrun : op.run q env s = .ok (ret, s'))
    (hphase : ∀ r s1, op.phase q env s = .ok (r, s1) → Aliased env s1 L ∧ ∀ d, PointsInto s1 d → P d) :
    (HasDead s' ∨ Aliased env s' L) ∧ ∀ d, PointsInto s' d → P d := by
  rcases RtOp.run_cases hrun with ⟨-, hp⟩ | ⟨s1, r, hp, hcache, -⟩
  · obtain ⟨h1, hP⟩ := hphase ret s' hp
    exact ⟨Or.inr h1, hP⟩
  · obtain ⟨h1, hP⟩ := hphase 0 s1 hp
    obtain ⟨hout, hsub⟩ := h1.updateCache hcache
    exact ⟨hout, fun d hd => hP d (hsub d hd)⟩

/-! ## `rt_update_edges` and `rt_dhosts_to_host` -/

/-- The merge keeps the table sound. -/
theorem Aliased.mergeEdges {edges : List PktEdge} {ret : Int} (h : Aliased env s L)
    (hp : s.mergeEdges q env edges = .ok (ret, s')) : Aliased env s' L := by
  obtain ⟨ht', hkeeps⟩ := mergeEdges_tableOk hp h.table
  refine ⟨ht', ?_, fun r hr => h.own r (hkeeps.localRec ▸ hr)⟩
  intro id ptr hid
  obtain ⟨r, hr, hl⟩ := h.linked id ptr ((mergeEdges_directAt hp).mp hid)
  exact ⟨r, hkeeps.localRec.trans hr, hl⟩

/-- **Received link state makes nobody point into a peer.** -/
theorem Aliased.updateEdges {edges : List PktEdge} {ret : Int} (h : Aliased env s L)
    (hrun : s.rtUpdateEdges q env edges = .ok (ret, s')) :
    (HasDead s' ∨ Aliased env s' L) ∧ ∀ d, PointsInto s' d → PointsInto s d := by
  refine Aliased.run (.updateEdges edges) hrun ?_
  intro r s1 hp
  have h1 := h.mergeEdges hp
  refine ⟨h1, fun d hd => ?_⟩
  obtain ⟨id, hid⟩ := h1.direct hd
  exact ((mergeEdges_directAt hp).mp hid).pointsInto

/-- Looking up routes changes no record. -/
theorem rtDhostsToHost_same {srcMac dstMac : EtherAddr} {f : Forwards}
    (hrun : s.rtDhostsToHost env srcMac dstMac = .ok (f, s')) : Same s s' := by
  cases rtDhostsToHost_run hrun with
  | stale _ hcomp _ => exact (computePaths_cases hcomp).1
  | noLocal hfit => exact hfit.same
  | looked hfit _ _ _ hbranch => exact hfit.same.trans (branch_cases hbranch).same

/-! ## `rt_dhost_remove` -/

/-- Who is pointed into is found: `rt_dhost_remove` of its MAC gets as far as `update_cache`, unless its
    `malloc` fails. -/
theorem Aliased.unlinkDhost_found (h : Aliased env s L) (hp : PointsInto s d) {ip : Ipv4Host}
    (hip : env (.dp d) = some ip) (hal : s.allocs.head? ≠ some false) {ret : Int}
    (hrun : s.unlinkDhost env ip.mac = .ok (ret, s')) : ret = 0 := by
  have ht := h.table
  obtain ⟨id, hid⟩ := h.direct hp
  obtain ⟨r, hr, l, hl, hdst⟩ := h.linked id _ hid
  have hmac : s.mac? env l.dst = some ip.mac := by
    obtain ⟨-, rd, hrd, -, hhost⟩ := hid
    rw [hdst]
    exact mac?_of_get hrd (by rw [hhost]; exact hip)
  obtain ⟨i, m, hL, hm, hf, hi⟩ := ht.find_local
  unfold unlinkDhost at hrun
  simp only [hL, hm, hf, ok_bind, itemAt_eq_ok.mpr hi, host_eq_ok.mpr hr] at hrun
  -- the link is looked up by the MAC of its destination, which is the peer's
  obtain ⟨fl, hfl, hrun⟩ := bind_eq_ok.mp hrun
  cases fl with
  | none => exact absurd hmac (search_none (ht.localLinks_live hr) (ht.localStrict r hr).sorted hfl l hl)
  | some j =>
      obtain ⟨l', hj, -⟩ := findLink_some hfl
      simp only [hj] at hrun
      obtain ⟨rd, hrd, hrun⟩ := bind_eq_ok.mp hrun
      have htype : rd.type = .htDirect :=
        (ht.localDirect r hr l' (List.mem_of_getElem? hj)).2 rd (host_eq_ok.mp hrd)
      have hok : (takeAlloc s.allocs).1 = true := by
        cases hs : s.allocs with
        | nil => rfl
        | cons b bs =>
            rw [hs] at hal
            cases b with
            | true => rfl
            | false => exact absurd rfl hal
      simp only [htype, ne_eq, not_true_eq_false, if_false, malloc, hok, Bool.not_true, Bool.false_eq_true] at hrun
      obtain ⟨ip', -, hrun⟩ := bind_eq_ok.mp hrun
      obtain ⟨s2, -, hrun⟩ := bind_eq_ok.mp hrun
      cases hrun
      rfl

/-- The table phase keeps the table sound. -/
theorem Aliased.unlinkDhost (h : Aliased env s L) {dmac : EtherAddr} {ret : Int}
    (hp : s.unlinkDhost env dmac = .ok (ret, s')) : Aliased env s' L := by
  have hphase := (unlinkDhost_run hp).phase h.table
  refine ⟨hphase.tableOk h.table, hphase.directLinked h.table h.linked, fun rL hrL => ?_⟩
  cases hphase with
  | refused _ hs => exact h.own rL (hs.get L ▸ hrL)
  | @removed r i l rd ip' _ hr hi hmac hget htype hip' hs =>
      have hne : l.dst ≠ L := h.table.direct_ne_local hget (by rw [htype]; decide)
      have hget1 : (s.store L { r with links := r.links.remove i }).recs.get l.dst = some rd := by
        rw [get_store hr, if_neg hne, hget]
      rw [hs.get, get_store hget1, if_neg hne.symm, get_store hr, if_pos rfl] at hrL
      cases hrL
      exact h.own r hr

/-- **After `rt_dhost_remove` of a peer's MAC nobody points into the peer**, unless its `malloc` failed, and
    nobody points into a peer that was not pointed into. -/
theorem Aliased.removeLink (h : Aliased env s L) {ip : Ipv4Host} (hip : env (.dp d) = some ip)
    (hal : PointsInto s d → s.allocs.head? ≠ some false) {ret : Int}
    (hrun : s.rtDhostRemove env ip.mac = .ok (ret, s')) :
    (HasDead s' ∨ Aliased env s' L) ∧ ∀ e, PointsInto s' e → PointsInto s e ∧ e ≠ d := by
  refine Aliased.run (q := .insertion) (.dhostRemove ip.mac) hrun ?_
  intro ret1 s1 hp
  have h1 := h.unlinkDhost hp
  refine ⟨h1, ?_⟩
  cases (unlinkDhost_run hp).phase h.table with
  | refused hret hs =>
      intro e he
      have he' := hs.pointsInto.mp he
      refine ⟨he', ?_⟩
      rintro rfl
      exact hret (h.unlinkDhost_found he' hip (hal he') hp)
  | @removed r i l rd ip' _ hr hi hmac hget htype hip' hs =>
      have hne : l.dst ≠ L := h.table.direct_ne_local hget (by rw [htype]; decide)
      have hget1 : (s.store L { r with links := r.links.remove i }).recs.get l.dst = some rd := by
        rw [get_store hr, if_neg hne, hget]
      intro e he
      obtain ⟨id, hid⟩ := h1.direct he
      obtain ⟨hmem, re, hre, hdirect, hhost⟩ := hs.directAt.mp hid
      rw [get_store hget1] at hre
      split at hre
      · -- the record that was demoted points nowhere
        cases hre
        cases hdirect
      · rename_i hidl
        have hold : DirectAt s id (.env (.dp e)) :=
          (directAt_store hr (by rfl) (by rfl)).mp
            (show DirectAt (s.store L { r with links := r.links.remove i }) id _ from
              ⟨hmem, re, hre, hdirect, hhost⟩)
        refine ⟨hold.pointsInto, ?_⟩
        rintro rfl
        -- two records with the MAC of one peer would be one record
        obtain ⟨-, r0, hr0, -, hh0⟩ := hold
        have hm0 : s.mac? env id = some ip.mac := mac?_of_get hr0 (by rw [hh0]; exact hip)
        have hlmem := (h.table.localDirect r hr l (List.mem_of_getElem? hi)).1
        exact hidl (h.table.strict.inj hmem hlmem hm0 hmac)

/-! ## `rt_dhost_add_link` -/

/-- The records that are direct after the table phase: those that were, and one that points into the peer. -/
theorem LinkPhase.directAt {rttUs : UInt32} {now : Timeval} {ret : Int} {ptr : HostPtr}
    (h : LinkPhase q env s L d rttUs now ret s') (hid : DirectAt s' id ptr) :
    DirectAt s id ptr ∨ ptr = .env (.dp d) := by
  cases h with
  | refused _ hs => exact Or.inl (hs.directAt.mp hid)
  | @added nh s1 _ _ hadd hp hlink =>
      have hid1 := (linkAdd_directAt hlink).mp hid
      rcases hadd.directAt hid1 with ⟨rfl, -⟩ | hold
      · obtain ⟨-, r, hr, htype, hhost⟩ := hid1
        rw [hadd.get_new] at hr
        cases hr
        exact Or.inr (hhost.symm.trans (hadd.fresh.points (by decide)))
      · exact Or.inl hold
  | @promoted dst dstRec _ _ ip hip hmem hmac hget hn hp hlink =>
      obtain ⟨hidm, r, hr, htype, hhost⟩ := (linkAdd_directAt hlink).mp hid
      rw [get_store hget] at hr
      split at hr
      · cases hr
        exact Or.inr hhost.symm
      · exact Or.inl ⟨hidm, r, hr, htype, hhost⟩
  | joined _ _ _ hlink => exact Or.inl ((linkAdd_directAt hlink).mp hid)
  | refreshed _ hg _ _ => exact Or.inl ((directAt_store hg (by rfl) (by rfl)).mp hid)

/-- Local's record points where it pointed. -/
theorem LinkPhase.own {rttUs : UInt32} {now : Timeval} {ret : Int}
    (h : LinkPhase q env s L d rttUs now ret s') (ht : TableOk env s L) {r' : RtHost}
    (hr' : s'.recs.get L = some r') : ∃ r, s.recs.get L = some r ∧ r'.host = r.host := by
  obtain ⟨r, -, hr, -⟩ := ht.local_live
  refine ⟨r, hr, ?_⟩
  -- `link_add` changes nothing of local's record but the list
  have hlinked : ∀ {s1 : Routing} {dst : HostId} {ret2 : Int},
      s1.linkAdd q env L dst rttUs (tvMs now) = .ok (ret2, s') → s1.recs.get L = some r → r'.host = r.host := by
    intro s1 dst ret2 hlink hr1
    obtain ⟨-, ⟨-, hs⟩ | ⟨-, ⟨ha⟩⟩⟩ := linkAdd_cases hlink
    · rw [hs.get, hr1] at hr'
      cases hr'
      rfl
    · rw [ha.getRec, if_pos rfl] at hr'
      cases hr'
      rw [ha.host]
      have hb := ha.get.symm.trans hr1
      cases hb
      rfl
  cases h with
  | refused _ hs =>
      rw [hs.get, hr] at hr'
      cases hr'
      rfl
  | added hadd hp hlink => exact hlinked hlink (hadd.get_old hr)
  | promoted _ _ _ hget hn hp hlink =>
      refine hlinked hlink ?_
      rw [get_store hget, if_neg, hr]
      exact (ht.direct_ne_local hget (by rw [hn]; decide)).symm
  | joined _ _ _ hlink => exact hlinked hlink hr
  | refreshed _ hg _ _ =>
      rw [get_store hg, if_pos rfl] at hr'
      cases hr'
      rw [hg] at hr
      cases hr
      rfl

/-- **A table phase that returns `0`** keeps everything, and lets one record more point into the peer. -/
theorem Aliased.linkDhost (h : Aliased env s L) {rttUs : UInt32} {now : Timeval}
    (hp : s.linkDhost q env (.env (.dp d)) rttUs now = .ok (0, s')) :
    Aliased env s' L ∧ ∀ e, PointsInto s' e → PointsInto s e ∨ e = d := by
  have hphase := (linkDhost_run hp).phase h.table
  have h1 : Aliased env s' L := by
    refine ⟨hphase.tableOk h.table, hphase.directLinked h.table h.linked, fun r' hr' => ?_⟩
    obtain ⟨r, hr, hhost⟩ := hphase.own h.table hr'
    exact hhost.trans (h.own r hr)
  refine ⟨h1, fun e he => ?_⟩
  obtain ⟨id, hid⟩ := h1.direct he
  rcases hphase.directAt hid with hold | heq
  · exact Or.inl hold.pointsInto
  · cases heq
    exact Or.inr rfl

/-! ### When allocations fail, and when not -/

/-- Only outcomes of allocations are used up. -/
theorem hostAlloc_suffix {p : HostPtr} {type : HostType} {ret : Int} {nh : HostId}
    (h : s.hostAlloc env p type = .ok (ret, nh, s')) : s'.allocs <:+ s.allocs := by
  have h1 := takeAlloc_suffix s.allocs
  have h2 := (takeAlloc_suffix (takeAlloc s.allocs).2).trans h1
  have h3 := (takeAlloc_suffix (takeAlloc (takeAlloc s.allocs).2).2).trans h2
  unfold hostAlloc malloc Da.init at h
  simp only at h
  split at h
  · cases h; exact h1
  split at h
  · cases h; exact h2
  split at h
  · cases h; exact h2
  split at h
  · cases h; exact h3
  · obtain ⟨ip, -, h⟩ := bind_eq_ok.mp h
    cases h
    exact h3

theorem hostInsertUnchecked_suffix {nh : HostId} {ret : Int}
    (h : s.hostInsertUnchecked q env nh = .ok (ret, s')) : s'.allocs <:+ s.allocs := by
  have h1 := s.hosts.addToEnd_suffix nh s.allocs
  unfold hostInsertUnchecked at h
  simp only at h
  split at h
  · cases h; exact h1
  · obtain ⟨items, -, h⟩ := bind_eq_ok.mp h
    cases h
    exact h1

theorem hostAdd_suffix {p : HostPtr} {type : HostType} {ret : Int} {nh : HostId}
    (h : s.hostAdd q env p type = .ok (ret, nh, s')) : s'.allocs <:+ s.allocs := by
  obtain ⟨ip, -, h⟩ := bind_eq_ok.mp h
  obtain ⟨dup, -, h⟩ := bind_eq_ok.mp h
  cases dup with
  | some i => cases h; exact List.suffix_rfl
  | none =>
      obtain ⟨⟨r1, nh1, s1⟩, halloc, h⟩ := bind_eq_ok.mp h
      have h1 := hostAlloc_suffix halloc
      simp only at h
      split at h
      · cases h; exact h1
      · obtain ⟨⟨r2, s2⟩, hins, h⟩ := bind_eq_ok.mp h
        have h2 := (hostInsertUnchecked_suffix hins).trans h1
        simp only at h
        split at h
        · cases h; exact h2
        · cases h; exact h2

/-- If its allocation is granted, `link_add` succeeds. -/
theorem linkAdd_granted {src dst : HostId} {rttUs : UInt32} {tsMs : UInt64} {ret : Int}
    (h : s.linkAdd q env src dst rttUs tsMs = .ok (ret, s')) (hal : Granted s.allocs) :
    ret = 0 ∧ Granted s'.allocs := by
  obtain ⟨r, -, h⟩ := bind_eq_ok.mp h
  obtain ⟨d', al', hadd, -⟩ := r.links.addToEnd_granted ⟨dst, rttUs, tsMs⟩ (n := 0)
    fun b hb => hal b (List.mem_of_mem_take hb)
  have hsuf := r.links.addToEnd_suffix ⟨dst, rttUs, tsMs⟩ s.allocs
  rw [hadd] at hsuf
  simp only [hadd, Bool.false_eq_true, if_false] at h
  obtain ⟨items, -, h⟩ := bind_eq_ok.mp h
  cases h
  exact ⟨rfl, hal.suffix hsuf⟩

/-- **An `update_cache` all of whose allocations succeed returns `0`**, on any table. -/
theorem updateCache_granted {ret : Int} (h : s.updateCache env = .ok (ret, s')) (hal : Granted s.allocs) :
    ret = 0 := by
  obtain ⟨s1, r2, s2, htrim, hcomp, hexp⟩ := updateCache_cases h
  have hal1 : s1.allocs = s.allocs := by
    cases htrim with
    | stale _ => rfl
    | trimmed _ _ _ _ hloop => exact (trimLoop_frame _ _ hloop).2
  have hr2 : r2 = 0 := computePaths_granted hcomp fun b hb => hal b (hal1 ▸ List.mem_of_mem_take hb)
  subst hr2
  rcases hexp with ⟨hneg, -⟩ | ⟨-, -, hexp⟩
  · exact absurd hneg (by decide)
  · refine (exportHosts_granted _ _ hexp (hal.suffix ?_)).1
    rw [(computePaths_spends hcomp).2, hal1]
    exact List.drop_suffix _ _

/-- If one of them fails, so does `host_add`. -/
theorem hostAdd_denied {p : HostPtr} {ret : Int} {nh : HostId} {k : Nat}
    (h : s.hostAdd q env p .htDirect = .ok (ret, nh, s')) (hk : k < s.hostAddAllocs)
    (hal : s.allocs[k]? = some false) : ret ≠ 0 := by
  obtain ⟨ip, -, h⟩ := bind_eq_ok.mp h
  obtain ⟨dup, -, h⟩ := bind_eq_ok.mp h
  cases dup with
  | some i => cases h; decide
  | none =>
      unfold hostAlloc malloc Da.init hostInsertUnchecked at h
      unfold hostAddAllocs at hk
      cases hs : s.allocs with
      | nil => simp [hs] at hal
      | cons b al =>
      cases b with
      | false =>
          simp [hs, takeAlloc] at h
          omega
      | true =>
      rw [hs] at hal
      cases al with
      | nil => cases k <;> simp at hal
      | cons b al =>
      cases b with
      | false =>
          simp [hs, takeAlloc] at h
          omega
      | true =>
          -- only the growth of the array is left to fail
          obtain _ | _ | k := k
          · simp at hal
          · simp at hal
          by_cases hfull : s.hosts.ct + 1 > s.hosts.mem
          · rw [if_pos hfull] at hk
            obtain rfl : k = 0 := by omega
            cases al with
            | nil => simp at hal
            | cons b al =>
                simp at hal
                subst hal
                simp [hs, takeAlloc, Da.addToEnd_denied hfull] at h
                omega
          · rw [if_neg hfull] at hk
            omega

/-- Local is the host with this MAC, or has a link to it. -/
def Met (env : ExtMem) (s : Routing) (mac : EtherAddr) : Prop :=
  ∃ L, s.localHost = some L ∧ (s.mac? env L = some mac ∨
    ∃ r, s.recs.get L = some r ∧ ∃ l ∈ r.links.items, s.mac? env l.dst = some mac)

/-- The table does not know the MAC, and there is no memory for a record. -/
def CannotAdd (env : ExtMem) (s : Routing) (mac : EtherAddr) : Prop :=
  (∀ id ∈ s.hosts.items, s.mac? env id ≠ some mac) ∧ ∃ k < s.hostAddAllocs, s.allocs[k]? = some false

/-- A call of `rt_dhost_add_link` for this MAC either makes no record point into the peer, or none of its
    allocations fails. -/
def PointsSafely (env : ExtMem) (s : Routing) (mac : EtherAddr) : Prop :=
  Met env s mac ∨ CannotAdd env s mac ∨ Granted s.allocs

/-- A table phase that finds the link already, or no memory for a record, changes nobody's host pointer. -/
theorem Aliased.linkDhost_unpointed (h : Aliased env s L) {ip : Ipv4Host} (hip : env (.dp d) = some ip)
    (hno : Met env s ip.mac ∨ CannotAdd env s ip.mac) {rttUs : UInt32} {now : Timeval} {ret : Int}
    (hp : s.linkDhost q env (.env (.dp d)) rttUs now = .ok (ret, s')) :
    Aliased env s' L ∧ ∀ e, PointsInto s' e → PointsInto s e := by
  have ht := h.table
  have hkept : ∀ {s1}, Same s s1 → Aliased env s1 L ∧ ∀ e, PointsInto s1 e → PointsInto s e :=
    fun hs => ⟨h.same hs, fun e he => hs.pointsInto.mp he⟩
  -- a search for the link that fails contradicts `Met`
  have hmet : ∀ {r}, s.recs.get L = some r → s.mac? env L ≠ some ip.mac →
      s.findLinkByAddr env r.links.items ip.mac = .ok none → ¬ Met env s ip.mac := by
    rintro r hr hself hfind ⟨L', hL', hcase⟩
    rw [ht.isLocal] at hL'
    cases hL'
    rcases hcase with hmac | ⟨r', hr', l, hl, hmac⟩
    · exact hself hmac
    · rw [hr] at hr'
      cases hr'
      exact search_none (ht.localLinks_live hr) (ht.localStrict r hr).sorted hfind l hl hmac
  cases linkDhost_run hp with
  | refused _ => exact hkept (Same.refl s)
  | notAdded hadd hret =>
      obtain ⟨-, ⟨-, hs⟩ | ⟨h0, -⟩⟩ := hostAdd_cases hadd
      · exact hkept hs
      · exact absurd h0 hret
  | @added sh shRec nh s1 _ _ ip' hl hip' hfind hadd _ hrun hlink =>
      have hLe := hl.eq_local ht
      subst hLe
      obtain rfl : ip = ip' := Option.some.inj (hip.symm.trans hip')
      have hipEq : hadd.ip = ip := Option.some.inj (hadd.addr.symm.trans hip')
      have hself := ht.findHost_none (hipEq ▸ hadd.absent) sh ht.localMem
      rcases hno with hm | ⟨-, k, hk, hal⟩
      · exact absurd hm (hmet hl.get hself hfind)
      · exact absurd rfl (hostAdd_denied hrun hk hal)
  | @joined sh shRec dst dstRec s1 _ _ ip' hl hip' hne hfind hmem hmac _ _ _ =>
      have hLe := hl.eq_local ht
      subst hLe
      obtain rfl : ip = ip' := Option.some.inj (hip.symm.trans hip')
      rcases hno with hm | ⟨habs, -⟩
      · exact absurd hm (hmet hl.get hne hfind)
      · exact absurd hmac (habs dst hmem)
  | refreshed hl _ _ _ =>
      obtain ⟨h1, -⟩ := h.linkDhost hp
      refine ⟨h1, fun e he => ?_⟩
      obtain ⟨id, hid⟩ := h1.direct he
      exact ((directAt_store hl.get (by rfl) (by rfl)).mp hid).pointsInto

/-- A table phase whose allocations succeed returns `0`, or has changed nothing. -/
theorem linkDhost_granted {p : HostPtr} {rttUs : UInt32} {now : Timeval} {ret : Int}
    (hp : s.linkDhost q env p rttUs now = .ok (ret, s')) (hal : Granted s.allocs) :
    (ret ≠ 0 ∧ Same s s') ∨ (ret = 0 ∧ Granted s'.allocs) := by
  cases linkDhost_run hp with
  | refused hret => exact Or.inl ⟨by omega, Same.refl s⟩
  | notAdded hadd hret =>
      obtain ⟨-, ⟨-, hs⟩ | ⟨h0, -⟩⟩ := hostAdd_cases hadd
      · exact Or.inl ⟨by decide, hs⟩
      · exact absurd h0 hret
  | added _ _ _ _ _ hrun hlink =>
      obtain ⟨rfl, hal'⟩ := linkAdd_granted hlink (hal.suffix (hostAdd_suffix hrun))
      exact Or.inr ⟨by simp, hal'⟩
  | joined _ _ _ _ _ _ _ hs1 hlink =>
      subst hs1
      split at hlink
      · obtain ⟨rfl, hal'⟩ := linkAdd_granted hlink hal
        exact Or.inr ⟨by simp, hal'⟩
      · obtain ⟨rfl, hal'⟩ := linkAdd_granted hlink hal
        exact Or.inr ⟨by simp, hal'⟩
  | refreshed => exact Or.inr ⟨rfl, hal⟩

/-- `rt_dhost_add_link` reads the address of the peer. -/
theorem Aliased.addLink_addr (h : Aliased env s L) {rttUs : UInt32} {now : Timeval} {ret : Int}
    (hrun : s.rtDhostAddLink q env (.env (.dp d)) rttUs now = .ok (ret, s')) : ∃ ip, env (.dp d) = some ip := by
  have hop : (RtOp.dhostAddLink d rttUs now).run q env s = .ok (ret, s') := hrun
  rcases RtOp.run_cases hop with ⟨-, hp⟩ | ⟨s1, r, hp, -⟩
  · exact linkDhost_addr hp h.table
  · exact linkDhost_addr hp h.table

/-- **`rt_dhost_add_link` makes a record point into its peer only if it returns `0`**, and into no other peer,
    on the condition that it points safely. -/
theorem Aliased.addLink (h : Aliased env s L) {ip : Ipv4Host} (hip : env (.dp d) = some ip)
    (hsafe : PointsSafely env s ip.mac) {rttUs : UInt32} {now : Timeval} {ret : Int}
    (hrun : s.rtDhostAddLink q env (.env (.dp d)) rttUs now = .ok (ret, s')) :
    (HasDead s' ∨ Aliased env s' L) ∧ ∀ e, PointsInto s' e → PointsInto s e ∨ (ret = 0 ∧ e = d) := by
  rcases or_assoc.mpr hsafe with hno | hal
  · obtain ⟨hout, hsub⟩ := Aliased.run (.dhostAddLink d rttUs now) hrun
      fun _ _ hp => h.linkDhost_unpointed hip hno hp
    exact ⟨hout, fun e he => Or.inl (hsub e he)⟩
  · have hop : (RtOp.dhostAddLink d rttUs now).run q env s = .ok (ret, s') := hrun
    rcases RtOp.run_cases hop with ⟨hret, hp⟩ | ⟨s1, r, hp, hcache, hret⟩
    · rcases linkDhost_granted hp hal with ⟨-, hs⟩ | ⟨h0, -⟩
      · exact ⟨Or.inr (h.same hs), fun e he => Or.inl (hs.pointsInto.mp he)⟩
      · exact absurd h0 hret
    · obtain ⟨h1, hsub⟩ := h.linkDhost hp
      obtain ⟨hout, hsub'⟩ := h1.updateCache hcache
      obtain ⟨hne, -⟩ | ⟨-, hal'⟩ := linkDhost_granted hp hal
      · exact absurd rfl hne
      -- `update_cache` does not fail either
      obtain ⟨hr, -⟩ | ⟨-, rfl⟩ := hret
      · exact absurd (updateCache_granted hcache hal') hr
      · refine ⟨hout, fun e he => ?_⟩
        rcases hsub e (hsub' e he) with hold | heq
        · exact Or.inl hold
        · exact Or.inr ⟨rfl, heq⟩

end Routing

end P2pVn
