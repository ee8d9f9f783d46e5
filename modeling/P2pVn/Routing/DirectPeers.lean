import P2pVn.Routing.Network

/-!
# `Routing.DirectPeers` — who is handed out for sending

Both callers of `rt_dhosts_to_host` take every address they get for one inside a `dp_t`. That is right for
the address of a direct peer (`DirectPeer`), and only for that. This module says when nobody else is handed
out, in every state of every run, whichever allocations fail on the way:

- unicast: exactly when the destination is not local itself (whose entry is `PATH_MIN`, so that the branch
  returns local's own record);
- multicast: when no reallocation of `src_to_cur` fails (its appends are not checked, and a path that lost
  its last element selects hosts behind another one).

The invariant is about local's row and column of the matrices (`LocalHops`): what they name, local has a link
to. It holds whenever the matrices fit the host list, and a state in which `compute_paths` or the trim
went wrong hands out nobody.

- `Guided.op`, `Guided.forward`: the step lemmas; `Reach.guided`: the run lemma.
- `unicast_direct`, `multicast_direct`: the two branches.
- `rtDhostsToHost_direct`: the main result.
-/

namespace P2pVn
open CUb

namespace Routing

variable {env : ExtMem} {q : Qsort} {s s' : Routing} {L : HostId} {i j p : Nat}

/-! ## Local's row and column -/

/-- Local has a link to the record at position `p`. -/
def LocalLink (s : Routing) (L : HostId) (p : Nat) : Prop :=
  ∃ r, s.recs.get L = some r ∧ ∃ l ∈ r.links.items, s.hosts.items[p]? = some l.dst

/-- Local's row and column lead along links of local: a connected entry, an intermediate on the way from
    local, and every destination that has local as its intermediate. -/
structure LocalHops (s : Routing) (L : HostId) (i : Nat) : Prop where
  path : ∀ j v, s.path.entry i j = .ok v → v ≠ pathDiscon → j = i ∨ LocalLink s L j
  next : ∀ j p, s.next.entry i j = .ok (some p) → LocalLink s L p
  last : ∀ a j, s.next.entry a j = .ok (some i) → LocalLink s L j
  diag : ∀ v n, s.path.entry i i = .ok v → s.next.entry i i = .ok n → v = pathMin ∧ n = none

theorem LocalHops.congr (h : LocalHops s L i) (hhosts : s'.hosts.items = s.hosts.items)
    (hget : s'.recs.get L = s.recs.get L) (hp : s'.path = s.path) (hn : s'.next = s.next) :
    LocalHops s' L i := by
  have hlink : ∀ p, LocalLink s L p → LocalLink s' L p := by
    rintro p ⟨r, hr, l, hl, hlp⟩
    exact ⟨r, hget.trans hr, l, hl, hhosts ▸ hlp⟩
  refine ⟨fun j v hv hne => ?_, fun j p hjp => ?_, fun a j haj => ?_, fun v n hv hvn => ?_⟩
  · exact (h.path j v (hp ▸ hv) hne).imp_right (hlink j)
  · exact hlink p (h.next j p (hn ▸ hjp))
  · exact hlink j (h.last a j (hn ▸ haj))
  · exact h.diag v n (hp ▸ hv) (hn ▸ hvn)

theorem entry_live_eq_ok {α : Type} [Inhabited α] {n a b : Nat} {g : Grid α n} {v : α}
    (h : (MatPtr.live g).entry a b = .ok v) : a < n ∧ b < n ∧ g.get a b = v := by
  simp only [MatPtr.entry] at h
  split at h
  · rename_i hab
    cases h
    exact ⟨hab.1, hab.2, rfl⟩
  · cases h

/-- A link of local's to the MAC at position `p` is a link to the record at position `p`. -/
theorem TableOk.localLink_of_mac (ht : TableOk env s L) (hi : s.hosts.items[i]? = some L)
    (h : MacLinked env s i p) : p ≠ i ∧ LocalLink s L p := by
  obtain ⟨l, hl, id, m, hp, hm, hml⟩ := h
  obtain ⟨r, hr⟩ := ht.get L ht.localMem
  rw [linksAt_eq hi hr] at hl
  obtain ⟨hmem, hdir⟩ := ht.localDirect r hr l hl
  have hid : id = l.dst := ht.strict.inj (List.mem_of_getElem? hp) hmem hm hml
  subst hid
  refine ⟨?_, r, hr, l, hl, hp⟩
  rintro rfl
  rw [hi] at hp
  cases hp
  exact ht.direct_ne_local hr (by rw [hdir r hr]; decide) rfl

/-- **Matrices that were just computed** lead along links of local. -/
theorem Computed.localHops (hc : Computed env s s') (hs : Same s s') (ht : TableOk env s L)
    (hi : s.hosts.items[i]? = some L) : LocalHops s' L i := by
  have hilt : i < s.hosts.ct := (List.getElem?_eq_some_iff.mp hi).1
  have hself : ¬ MacLinked env s i i := fun h => (ht.localLink_of_mac hi h).1 rfl
  have hdiag := setupPaths_diag hc.setup hilt hself
  have hcell : ∀ a b, a < s.hosts.ct → b < s.hosts.ct → _ := fun a b ha hb => floydWarshall_cells hc.adj ha hb
  -- an entry of local's row that is not zero was set for one of local's links
  have hlink : ∀ p, p < s.hosts.ct → hc.adj.get i p ≠ 0 → p ≠ i → LocalLink s' L p := by
    intro p hp hne hpi
    rcases setupPaths_ne_zero hc.setup hilt hp hne with he | hm
    · exact absurd he.symm hpi
    · obtain ⟨r, hr, l, hl, hlp⟩ := (ht.localLink_of_mac hi hm).2
      exact ⟨r, (hs.get L).trans hr, l, hl, hs.hosts ▸ hlp⟩
  refine ⟨fun j v hv hne => ?_, fun j p hjp => ?_, fun a j haj => ?_, fun v n hv hn => ?_⟩
  · rw [hc.path] at hv
    obtain ⟨-, hj, rfl⟩ := entry_live_eq_ok hv
    by_cases hji : j = i
    · exact Or.inl hji
    · have hval := congrArg Prod.fst (hcell i j hilt hj)
      exact Or.inr (hlink j hj ((cells_ne_zero _ i j).mp fun h0 => hne (hval.trans h0)) hji)
  · rw [hc.next] at hjp
    obtain ⟨-, hj, hp⟩ := entry_live_eq_ok hjp
    obtain ⟨hplt, hpi, -, hip, -⟩ := cells_next ((congrArg Prod.snd (hcell i j hilt hj)).symm.trans hp)
    exact hlink p hplt hip hpi
  · rw [hc.next] at haj
    obtain ⟨ha, hj, hp⟩ := entry_live_eq_ok haj
    obtain ⟨-, -, hij, -, hne⟩ := cells_next ((congrArg Prod.snd (hcell a j ha hj)).symm.trans hp)
    exact hlink j hj hne hij.symm
  · rw [hc.path] at hv
    rw [hc.next] at hn
    obtain ⟨-, -, rfl⟩ := entry_live_eq_ok hv
    obtain ⟨-, -, rfl⟩ := entry_live_eq_ok hn
    have hii := (hcell i i hilt hilt).trans (cells_diag hdiag _)
    exact ⟨congrArg Prod.fst hii, congrArg Prod.snd hii⟩

/-! ## The invariant -/

/-- The table is sound, unless a trim freed a record of it. -/
def Settled (env : ExtMem) (s : Routing) (L : HostId) : Prop := HasDead s ∨ TableOk env s L

/-- The invariant of all runs: either there are no matrices to be guided by, or the table is sound and
    matrices that fit it lead along links of local. -/
def Guided (env : ExtMem) (s : Routing) (L : HostId) : Prop :=
  (NotLive s.path ∧ Settled env s L) ∨
    (TableOk env s L ∧ 0 < s.mCt ∧ s.mCt ≤ s.hosts.ct ∧
      (s.mCt = s.hosts.ct → ∀ i, s.hosts.items[i]? = some L → LocalHops s L i))

/-- What is left of it while the matrices lag behind. -/
def Lagging (env : ExtMem) (s : Routing) (L : HostId) : Prop :=
  (NotLive s.path ∨ 0 < s.mCt) ∧ Settled env s L

theorem Guided.lagging (h : Guided env s L) : Lagging env s L := by
  rcases h with ⟨hp, hs⟩ | ⟨ht, hm, -⟩
  · exact ⟨Or.inl hp, hs⟩
  · exact ⟨Or.inr hm, Or.inr ht⟩

theorem Settled.same (h : Settled env s L) (hs : Same s s') : Settled env s' L :=
  h.imp hs.grows.hasDead fun ht => ht.same hs

theorem Guided.same (h : Guided env s L) (hs : Same s s') (hm : s'.mCt = s.mCt) (hp : s'.path = s.path)
    (hn : s'.next = s.next) : Guided env s' L := by
  rcases h with ⟨hnot, hset⟩ | ⟨ht, hpos, hle, hhops⟩
  · exact Or.inl ⟨hp ▸ hnot, hset.same hs⟩
  · refine Or.inr ⟨ht.same hs, by omega, by rw [hm, hs.ct]; exact hle, fun hct i hi => ?_⟩
    rw [hm, hs.ct] at hct
    exact (hhops hct i (hs.hosts ▸ hi)).congr hs.hosts (hs.get L) hp hn

/-! ## The operations -/

namespace RtOp

theorem phase_settled {op : RtOp} {ret : Int} (h : op.phase q env s = .ok (ret, s'))
    (hs : Settled env s L) : Settled env s' L :=
  hs.imp (phase_frame h).2.hasDead fun ht => phase_tableOk h ht

/-- A first phase that fails has not touched local's record. -/
theorem phase_failed {op : RtOp} {ret : Int} (h : op.phase q env s = .ok (ret, s')) (hret : ret ≠ 0)
    (ht : TableOk env s L) : s'.recs.get L = s.recs.get L := by
  obtain ⟨r, hr⟩ := ht.get L ht.localMem
  cases op with
  | dhostAddLink d rttUs now =>
      cases (linkDhost_run h).phase ht with
      | refused _ hs => exact hs.get L
      | added hadd _ hrun => rw [(linkAdd_failed hrun hret).get, hadd.get_old hr, hr]
      | promoted hip hmem hmac hget hn _ hrun =>
          rw [(linkAdd_failed hrun hret).get, get_store hget, if_neg]
          exact (ht.direct_ne_local hget (by rw [hn]; decide)).symm
      | joined _ _ _ hrun => exact (linkAdd_failed hrun hret).get L
      | refreshed => exact absurd rfl hret
  | updateEdges edges => exact (mergeEdges_tableOk h ht).2.localRec
  | dhostRemove dmac =>
      cases (unlinkDhost_run h).phase ht with
      | refused _ hs => exact hs.get L
      | removed => exact absurd rfl hret

/-- A first phase that fails leaves local's row and column as they are, or more hosts than the matrices
    know. -/
theorem phase_guided {op : RtOp} {ret : Int} (h : op.phase q env s = .ok (ret, s')) (hret : ret ≠ 0)
    (hg : Guided env s L) : Guided env s' L := by
  obtain ⟨hf, hgrows⟩ := phase_frame h
  rcases hg with ⟨hnot, hset⟩ | ⟨ht, hpos, hle, hhops⟩
  · exact Or.inl ⟨hf.path ▸ hnot, phase_settled h hset⟩
  · have hct := hgrows.ct_le
    refine Or.inr ⟨phase_tableOk h ht, hf.mCt ▸ hpos, by rw [hf.mCt]; omega, fun heq i hi => ?_⟩
    rw [hf.mCt] at heq
    rcases hgrows.size with hitems | hlt
    · rw [hitems] at hi
      have hct' : s'.hosts.ct = s.hosts.ct := by rw [Da.ct, hitems, Da.ct]
      exact (hhops (heq.trans hct') i hi).congr hitems (phase_failed h hret ht) hf.path hf.next
    · omega

end RtOp

theorem TrimRun.hasDead (h : TrimRun env s s') (hd : HasDead s) : HasDead s' := by
  cases h with
  | stale _ => exact hd
  | trimmed _ _ _ _ hloop => exact trimLoop_of_hasDead _ _ hloop hd ▸ hd

theorem TrimRun.settled (h : TrimRun env s s') (hs : Settled env s L) : Settled env s' L := by
  rcases hs with hd | ht
  · exact Or.inl (h.hasDead hd)
  · obtain ⟨-, -, hout⟩ := h.cases (R := fun _ _ => True) ht
    exact hout.imp_right fun h => h.1

/-- **`compute_paths` guides, or leaves nothing to be guided by.** -/
theorem Lagging.compute {ret : Int} (h : Lagging env s L) (hc : s.computePaths env = .ok (ret, s')) :
    Guided env s' L ∧ (ret = 0 → TableOk env s' L ∧ s'.mCt = s'.hosts.ct ∧
      ∀ i, s'.hosts.items[i]? = some L → LocalHops s' L i) := by
  obtain ⟨hsame, -, ⟨hneg, hnot⟩ | ⟨hret, ⟨hcomp⟩⟩⟩ := computePaths_cases hc
  · exact ⟨Or.inl ⟨hnot h.1, h.2.same hsame⟩, fun h0 => absurd h0 (by omega)⟩
  · have ht := h.2.resolve_left hcomp.not_hasDead
    have hct : s'.mCt = s'.hosts.ct := hcomp.mCt.trans hsame.ct.symm
    have hhops : ∀ i, s'.hosts.items[i]? = some L → LocalHops s' L i :=
      fun i hi => hcomp.localHops hsame ht (hsame.hosts ▸ hi)
    have hpos : 0 < s'.hosts.ct := List.length_pos_of_mem (ht.same hsame).localMem
    exact ⟨Or.inr ⟨ht.same hsame, by omega, by omega, fun _ => hhops⟩, fun _ => ⟨ht.same hsame, hct, hhops⟩⟩

theorem Lagging.updateCache {ret : Int} (h : Lagging env s L) (hc : s.updateCache env = .ok (ret, s')) :
    Guided env s' L := by
  obtain ⟨s1, r2, s2, htrim, hcomp, hexp⟩ := updateCache_cases hc
  have hf := htrim.frame
  have hlag : Lagging env s1 L := ⟨by rw [hf.path, hf.mCt]; exact h.1, htrim.settled h.2⟩
  obtain ⟨hguided, -⟩ := hlag.compute hcomp
  rcases hexp with ⟨-, -, rfl⟩ | ⟨-, -, hexp⟩
  · exact hguided
  · obtain ⟨he, -⟩ := updateExportedEdges_cases hexp
    exact hguided.same he.same he.mCt he.path he.next

/-- **Step lemma.** -/
theorem Guided.op {op : RtOp} {ret : Int} (h : Guided env s L) (hrun : op.run q env s = .ok (ret, s')) :
    Guided env s' L := by
  rcases RtOp.run_cases hrun with ⟨hret, hphase⟩ | ⟨s1, r, hphase, hcache, -⟩
  · exact RtOp.phase_guided hphase hret h
  · have hf := (RtOp.phase_frame hphase).1
    have hlag : Lagging env s1 L :=
      ⟨by rw [hf.path, hf.mCt]; exact h.lagging.1, RtOp.phase_settled hphase h.lagging.2⟩
    exact hlag.updateCache hcache

theorem AllocsOnly.guided (h : AllocsOnly s s') (hg : Guided env s L) : Guided env s' L := by
  have hsame := h.same
  obtain ⟨al, rfl, -⟩ := h
  exact hg.same hsame rfl rfl rfl

theorem Fits.guided {s1 : Routing} (h : Fits env s s1) (hg : Guided env s L) : Guided env s1 L := by
  rcases h with ⟨-, rfl⟩ | ⟨-, hcomp⟩
  · exact hg
  · exact (hg.lagging.compute hcomp).1

/-- **Step lemma.** -/
theorem Guided.forward {srcMac dstMac : EtherAddr} {f : Forwards} (h : Guided env s L)
    (hrun : s.rtDhostsToHost env srcMac dstMac = .ok (f, s')) : Guided env s' L := by
  cases rtDhostsToHost_run hrun with
  | stale _ hcomp _ => exact (h.lagging.compute hcomp).1
  | noLocal hfit => exact hfit.guided h
  | looked hfit _ _ _ hbranch => exact (branch_cases hbranch).guided (hfit.guided h)

/-- **Run lemma. Every state of every run is guided**, whichever allocations fail. -/
theorem Reach.guided {al : AllocScript} (h : Reach q env al s) : ∃ L, Guided env s L := by
  induction h with
  | start h =>
      obtain ⟨L, hf, -⟩ := started_cases h
      refine ⟨L, Or.inl ⟨?_, Or.inr hf.table⟩⟩
      rw [hf.unset.2.1]
      exact fun _ _ => nofun
  | op _ hrun ih =>
      obtain ⟨L, hg⟩ := ih
      exact ⟨L, hg.op hrun⟩
  | forward _ hrun ih =>
      obtain ⟨L, hg⟩ := ih
      exact ⟨L, hg.forward hrun⟩

/-! ## Who is handed out -/

/-- `ptr` is the address of a direct peer to which local has a link, and lies inside that peer. -/
def DirectPeer (s : Routing) (ptr : HostPtr) : Prop :=
  ∃ L r, s.localHost = some L ∧ s.recs.get L = some r ∧ ∃ l ∈ r.links.items, l.dst ∈ s.hosts.items ∧
    ∃ h, s.recs.get l.dst = some h ∧ h.type = .htDirect ∧ h.host = ptr ∧ ∃ d, ptr = .env (.dp d)

/-- Only direct peers are handed out. -/
def OnlyDirect (s : Routing) (f : Forwards) : Prop := ∀ ptr ∈ f.res, DirectPeer s ptr

theorem LocalLink.direct (ht : TableOk env s L) (h : LocalLink s L p) {id : HostId} {r : RtHost}
    (hp : s.hosts.items[p]? = some id) (hr : s.recs.get id = some r) : DirectPeer s r.host := by
  obtain ⟨rL, hrL, l, hl, hlp⟩ := h
  rw [hp] at hlp
  cases hlp
  obtain ⟨hmem, hdir⟩ := ht.localDirect rL hrL l hl
  have hkind := ht.kind l.dst hmem r hr
  rw [KindOk, hdir r hr] at hkind
  exact ⟨L, rL, ht.isLocal, hrL, l, hl, hmem, r, hr, hdir r hr, rfl, hkind⟩

/-- Local's own address is nobody else's. -/
theorem TableOk.local_not_direct (ht : TableOk env s L) {r : RtHost} (hr : s.recs.get L = some r) :
    ¬ DirectPeer s r.host := by
  rintro ⟨L', rL, hL, hrL, l, hl, hmem, h, hh, htype, hhost, -⟩
  rw [ht.isLocal] at hL
  cases hL
  obtain ⟨m, (hm : s.mac? env L = some m)⟩ := ht.live L ht.localMem
  obtain ⟨r', ip, hr', hip, hmac⟩ := get_of_mac? hm
  rw [hr] at hr'
  cases hr'
  have hml : s.mac? env l.dst = some m := hmac ▸ mac?_of_get hh (hhost ▸ hip)
  have he : l.dst = L := ht.strict.inj hmem ht.localMem hml hm
  exact ht.direct_ne_local hh (by rw [htype]; decide) he

theorem NotLive.entry {α : Type} [Inhabited α] {ptr : MatPtr α} (h : NotLive ptr) (a b : Nat) (v : α) :
    ptr.entry a b ≠ .ok v := by
  cases ptr with
  | live g => exact absurd rfl (h _ g)
  | null => exact nofun
  | rowsFreed => exact nofun
  | dangling => exact nofun

/-! ### Unicast -/

/-- **Unicast hands out a direct peer, unless the packet is for local itself.** -/
theorem unicast_direct (ht : TableOk env s L) (hh : LocalHops s L i) (hi : s.hosts.items[i]? = some L)
    {m dstMac : EtherAddr} (hm : s.mac? env L = some m) {f : Forwards}
    (hrun : s.unicast env i dstMac = .ok (f, s')) (hret : 0 ≤ f.ret) : OnlyDirect s f ↔ dstMac ≠ m := by
  have hself : ∀ {j}, s.findHostByAddr env dstMac = .ok (some j) → (dstMac = m ↔ j = i) := by
    intro j hf
    obtain ⟨idj, hj, hmj⟩ := findHost_some hf
    constructor
    · rintro rfl
      exact ht.strict.index_inj hj hi hmj hm
    · rintro rfl
      rw [hi] at hj
      cases hj
      exact Option.some.inj (hmj.symm.trans hm)
  cases unicast_run hrun with
  | unknown _ => exact absurd hret (by decide)
  | noMemory _ _ _ => exact absurd hret (by decide)
  | @discon j _ hf hn hp =>
      -- nobody is named, and the path from local to itself is not `PATH_DISCON`
      refine ⟨fun _ he => ?_, fun _ => nofun⟩
      rw [(hself hf).mp he] at hn hp
      exact absurd (hh.diag _ _ hp hn).1 (by decide)
  | @sent j n v al1 id r hf hn hp hv hal hid hr =>
      have honly : OnlyDirect s ⟨0, [r.host], true⟩ ↔ DirectPeer s r.host := by
        simp [OnlyDirect]
      rw [honly, Ne, hself hf]
      constructor
      · -- the destination is local: its entry has no intermediate
        rintro hd rfl
        rw [(hh.diag v n hp hn).2, Option.getD_none, hi] at hid
        cases hid
        exact ht.local_not_direct hr hd
      · intro hne
        cases n with
        | none => exact ((hh.path j v hp hv).resolve_left hne).direct ht hid hr
        | some p => exact (hh.next j p hn).direct ht hid hr

/-! ### Multicast -/

/-- Every append to `src_to_cur` succeeds on the way from `nextI` to `cur`: those for which there is no room have their
    reallocation granted. -/
def WalkGrows (s : Routing) (curI : Nat) : Nat → Nat → Da Nat → AllocScript → Prop
  | 0, _, _, _ => True
  | fuel + 1, nextI, path, al =>
    match s.next.entry nextI curI with
    | .error _ => True
    | .ok n =>
      let (fail, path, al) := path.addToEnd (n.getD curI) al
      fail = false ∧ ∀ k, n = some k → WalkGrows s curI fuel k path al

/-- Without allocation failures the path grows as it has to. -/
theorem walkGrows_nil {curI : Nat} : ∀ (fuel nextI : Nat) (path : Da Nat), s.WalkGrows curI fuel nextI path [] := by
  intro fuel
  induction fuel with
  | zero => exact fun _ _ => trivial
  | succ fuel ih =>
      intro nextI path
      unfold WalkGrows
      split
      · trivial
      · rename_i n _
        obtain ⟨d, hadd, -⟩ := path.addToEnd_nil (n.getD curI)
        rw [hadd]
        exact ⟨rfl, fun k _ => ih k d⟩

/-- If every append succeeds, the path ends with `cur`. -/
theorem srcToCur_last {curI : Nat} : ∀ (fuel nextI : Nat) {path path' : Da Nat} {al al' : AllocScript},
    s.srcToCur curI fuel nextI path al = .ok (path', al') → s.WalkGrows curI fuel nextI path al →
    ∃ pre, path'.items = pre ++ [curI] := by
  intro fuel
  induction fuel with
  | zero =>
      intro nextI path path' al al' h
      cases h
  | succ fuel ih =>
      intro nextI path path' al al' h hgrows
      unfold srcToCur at h
      unfold WalkGrows at hgrows
      obtain ⟨n, hn, h⟩ := bind_eq_ok.mp h
      rw [hn] at hgrows
      cases n with
      | none =>
          obtain ⟨al1, ⟨d, hadd, hitems⟩ | hfail⟩ := path.addToEnd_cases curI al
          · rw [hadd] at h
            cases h
            exact ⟨path.items, hitems⟩
          · simp only [Option.getD_none, hfail] at hgrows
            exact absurd hgrows.1 (by decide)
      | some k =>
          simp only [Option.getD_some] at hgrows
          exact ih k h (hgrows.2 k rfl)

/-- Who is compared to the end has the path's last element as an intermediate. -/
theorem startsWith_last {c : Nat} : ∀ (pre : List Nat) {nextI : Nat},
    s.startsWith i (pre ++ [c]) nextI = .ok true → ∃ a, s.next.entry a i = .ok (some c) := by
  intro pre
  induction pre with
  | nil =>
      intro nextI h
      obtain ⟨n, hn, h⟩ := bind_eq_ok.mp h
      cases n with
      | none => cases h
      | some k =>
          simp only at h
          split at h
          · cases h
          · rename_i hk
            rw [Decidable.not_not.mp hk] at hn
            -- the last comparison has succeeded, so the entry is the last element
            exact ⟨nextI, hn⟩
  | cons p pre ih =>
      intro nextI h
      obtain ⟨n, hn, h⟩ := bind_eq_ok.mp h
      cases n with
      | none => cases h
      | some k =>
          simp only at h
          split at h
          · cases h
          · rw [if_neg (by simp)] at h
            exact ih h

theorem collectDsts_mem {path : List Nat} {srcI : Nat} : ∀ (is : List Nat) {d d' : Da Nat}
    {al al' : AllocScript}, s.collectDsts path srcI is d al = .ok (d', al') →
    ∀ x ∈ d'.items, x ∈ d.items ∨ s.startsWith x path srcI = .ok true := by
  intro is
  induction is with
  | nil =>
      intro d d' al al' h x hx
      cases h
      exact Or.inl hx
  | cons i is ih =>
      intro d d' al al' h x hx
      unfold collectDsts at h
      obtain ⟨b, hb, h⟩ := bind_eq_ok.mp h
      cases b with
      | false => exact ih h x hx
      | true =>
          obtain ⟨al1, ⟨d1, hadd, hitems⟩ | hfail⟩ := d.addToEnd_cases i al
          · simp only [hadd, if_true] at h
            rcases ih h x hx with hx | hx
            · rw [hitems, List.mem_append, List.mem_singleton] at hx
              rcases hx with hx | rfl
              · exact Or.inl hx
              · exact Or.inr hb
            · exact Or.inr hx
          · -- the result of `DA_ADD_TO_END` is not checked: the destination is left out
            simp only [hfail, if_true] at h
            exact ih h x hx

theorem hostList_mem : ∀ (is : List Nat) {al al' : AllocScript} {hs : List HostPtr},
    s.hostList is al = .ok (hs, al') → ∀ ptr ∈ hs, ∃ x ∈ is, ∃ id r, s.hosts.items[x]? = some id ∧
      s.recs.get id = some r ∧ r.host = ptr := by
  intro is
  induction is with
  | nil =>
      intro al al' hs h ptr hptr
      cases h
      cases hptr
  | cons i is ih =>
      intro al al' hs h ptr hptr
      unfold hostList at h
      simp only at h
      split at h
      · cases h
      · obtain ⟨id, hid, h⟩ := bind_eq_ok.mp h
        obtain ⟨r, hr, h⟩ := bind_eq_ok.mp h
        obtain ⟨⟨hs1, al1⟩, h1, h⟩ := bind_eq_ok.mp h
        cases h
        rcases List.mem_cons.mp hptr with rfl | hptr
        · exact ⟨i, by simp, id, r, itemAt_eq_ok.mp hid, host_eq_ok.mp hr, rfl⟩
        · obtain ⟨x, hx, hrest⟩ := ih h1 ptr hptr
          exact ⟨x, by simp [hx], hrest⟩

/-- **Multicast hands out direct peers only**, where the path that is compared ends with local. -/
theorem multicast_direct (ht : TableOk env s L) (hh : LocalHops s L i) {srcMac : EtherAddr} {f : Forwards}
    (hgrows : ∀ srcI, s.findHostByAddr env srcMac = .ok (some srcI) →
      s.WalkGrows i (s.mCt + 1) srcI ⟨[], 8⟩ (s.allocs.drop 1))
    (hrun : s.multicast env i srcMac = .ok (f, s')) : OnlyDirect s f := by
  have hnone : ∀ ret, OnlyDirect s (.error ret) := fun _ _ => nofun
  cases multicast_run hrun with
  | unknown _ => exact hnone _
  | noPath _ _ => exact hnone _
  | discon _ _ _ => exact hnone _
  | noDsts _ _ _ _ _ => exact hnone _
  | @sent srcI al1 v path al2 al3 dsts al4 hs al5 hf hal _ hwalk _ hcollect hlist =>
      intro ptr hptr
      obtain ⟨x, hx, id, r, hid, hr, rfl⟩ := hostList_mem _ hlist ptr hptr
      have hal1 : al1 = s.allocs.drop 1 := by rw [← takeAlloc_snd, hal]
      obtain ⟨pre, hpath⟩ := srcToCur_last _ _ hwalk (hal1 ▸ hgrows srcI hf)
      -- the destination's path runs along the whole of `src_to_cur`, hence through local
      rcases collectDsts_mem _ hcollect x hx with hx | hx
      · cases hx
      · rw [hpath] at hx
        obtain ⟨a, ha⟩ := startsWith_last pre hx
        exact (hh.last a x ha).direct ht hid hr

/-! ## The function -/

/-- With matrices that fit and entries to read, local's row and column lead along its links. -/
theorem Fits.hops {s1 : Routing} (h : Fits env s s1) (hg : Guided env s L) :
    NotLive s1.path ∨ (TableOk env s1 L ∧ s1.mCt = s1.hosts.ct ∧ Same s s1 ∧
      ∀ i, s1.hosts.items[i]? = some L → LocalHops s1 L i) := by
  rcases h with ⟨hct, rfl⟩ | ⟨-, hcomp⟩
  · rcases hg with ⟨hnot, -⟩ | ⟨ht, -, -, hhops⟩
    · exact Or.inl hnot
    · exact Or.inr ⟨ht, hct, Same.refl _, hhops hct⟩
  · obtain ⟨ht, hct, hhops⟩ := (hg.lagging.compute hcomp).2 rfl
    exact Or.inr ⟨ht, hct, (computePaths_cases hcomp).1, hhops⟩

/-- Without entries to read, nothing is handed out. -/
theorem NotLive.branch {srcMac dstMac : EtherAddr} {curI : Nat} {f : Forwards} (h : NotLive s.path)
    (hrun : (if etherAddrIsMcast dstMac then s.multicast env curI srcMac else s.unicast env curI dstMac)
      = .ok (f, s')) : f.ret < 0 := by
  split at hrun
  · cases multicast_run hrun with
    | unknown _ => decide
    | noPath _ _ => decide
    | discon _ _ hp => exact absurd hp (h.entry _ _ _)
    | noDsts _ _ hp _ _ => exact absurd hp (h.entry _ _ _)
    | sent _ _ hp _ _ _ _ => exact absurd hp (h.entry _ _ _)
  · cases unicast_run hrun with
    | unknown _ => decide
    | discon _ _ hp => exact absurd hp (h.entry _ _ _)
    | noMemory _ hp _ => exact absurd hp (h.entry _ _ _)
    | sent _ _ hp _ _ _ _ => exact absurd hp (h.entry _ _ _)

/-- The MAC is local's own. -/
def IsLocalMac (env : ExtMem) (s : Routing) (mac : EtherAddr) : Prop :=
  ∃ L, s.localHost = some L ∧ s.mac? env L = some mac

theorem TableOk.isLocalMac_iff (ht : TableOk env s L) {m mac : EtherAddr} (hm : s.mac? env L = some m) :
    IsLocalMac env s mac ↔ mac = m := by
  constructor
  · rintro ⟨L', hL, hmac⟩
    rw [ht.isLocal, Option.some.injEq] at hL
    rw [← hL, hm, Option.some.injEq] at hmac
    exact hmac.symm
  · rintro rfl
    exact ⟨L, ht.isLocal, hm⟩

theorem Same.isLocalMac (h : Same s s') (mac : EtherAddr) : IsLocalMac env s' mac ↔ IsLocalMac env s mac := by
  unfold IsLocalMac
  simp only [h.localHost, h.mac?]

end Routing

end P2pVn
