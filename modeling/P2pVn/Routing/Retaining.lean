import P2pVn.Routing.Aliasing

/-!
# `Routing.Retaining` — who is linked to stays linked to

`LinkedInto` is what a registered peer needs of the table: local has a link to a record of type `HT_DIRECT` that
points into the peer. No operation takes that from a peer but `rt_dhost_remove` of its own MAC, whatever the
operation returns, and not even a trim that leaves a freed record in the table.

- `trimHost_linkedInto`, `Aliased.updateCache_linkedInto`: `update_cache`.
- `Aliased.addLink_linkedInto`: `rt_dhost_add_link` where it succeeds; `Aliased.addLink_keeps`,
  `Aliased.updateEdges_keeps`, `Aliased.removeLink_keeps`: the three operations for the peers that were linked to.
-/

namespace P2pVn
open CUb

namespace Routing

variable {env : ExtMem} {q : Qsort} {s s' : Routing} {L : HostId} {d e : Nat} {ret : Int}

/-- Local has a link to a record of type `HT_DIRECT` that points into peer `d`. -/
def LinkedInto (s : Routing) (d : Nat) : Prop :=
  ∃ L, s.localHost = some L ∧ ∃ id, DirectAt s id (.env (.dp d)) ∧ LocalTo s L id

theorem LinkedInto.pointsInto (h : LinkedInto s d) : PointsInto s d := by
  obtain ⟨L, -, id, hid, -⟩ := h
  exact hid.pointsInto

/-- On a sound table it is enough to be pointed into. -/
theorem Aliased.linkedInto (h : Aliased env s L) (hp : PointsInto s d) : LinkedInto s d := by
  obtain ⟨id, hid⟩ := h.direct hp
  exact ⟨L, h.table.isLocal, id, hid, h.linked id _ hid⟩

theorem LinkedInto.same (h : LinkedInto s d) (hs : Same s s') : LinkedInto s' d := by
  obtain ⟨L, hL, id, hid, hto⟩ := h
  exact ⟨L, hs.localHost.trans hL, id, hs.directAt.mpr hid, hs.localTo.mpr hto⟩

/-- A peer that is pointed into is live, and its record has its MAC. -/
theorem Aliased.peer_mac (h : Aliased env s L) {id : HostId} (hid : DirectAt s id (.env (.dp d))) :
    ∃ ip, env (.dp d) = some ip ∧ s.mac? env id = some ip.mac := by
  obtain ⟨hmem, r, hr, -, hhost⟩ := hid
  obtain ⟨m, hm⟩ := h.table.live id hmem
  have hm' : s.mac? env id = some m := hm
  simp only [mac?, hr, Option.bind_some, hhost, HostPtr.deref] at hm'
  cases hip : env (.dp d) with
  | none =>
      rw [hip] at hm'
      cases hm'
  | some ip =>
      refine ⟨ip, rfl, ?_⟩
      apply mac?_of_get hr
      rw [hhost, HostPtr.deref, hip]

/-! ## `update_cache` -/

/-- **A trim keeps direct peers and local's links**, even if it leaves a freed record in the table: the record
    that it frees has an address of its own. -/
theorem trimHost_linkedInto {i : Nat} (h : s.trimHost env i = .ok s') (ht : TableOk env s L)
    (hown : ∀ r, s.recs.get L = some r → r.host = .env .lhost) (hl : LinkedInto s d) : LinkedInto s' d := by
  obtain ⟨id, r, hi, hg, ⟨-, rfl⟩ | ⟨hn, s1, victim, h1, -, ⟨rv, ip, hrv, hheap⟩, rfl⟩⟩ := trimHost_cases h
  · exact hl
  obtain ⟨hthin, -⟩ := unlinkAll_thins _ h1
  have hlocal : s1.recs.get L = s.recs.get L := unlinkAll_local _ ht (List.mem_of_getElem? hi) hg hn h1
  have hkept : ∀ {j rj p}, s1.recs.get j = some rj → rj.host = .env p →
      (s1.recs.free victim).get j = some rj := by
    intro j rj p hj hhost
    rw [CellHeap.get_free, if_neg, hj]
    rintro rfl
    rw [hj] at hrv
    cases hrv
    rw [hhost] at hheap
    cases hheap
  obtain ⟨L', hL', idd, ⟨hmem, rd, hrd, htype, hhost⟩, rL, hrL, hto⟩ := hl
  rw [ht.isLocal] at hL'
  cases hL'
  obtain ⟨rd1, hrd1, hh1, ht1, -⟩ := hthin.thin idd rd hrd
  refine ⟨L, hthin.frame.localHost.trans ht.isLocal, idd, ⟨?_, rd1, ?_, ht1.trans htype, hh1.trans hhost⟩, rL, ?_, hto⟩
  · -- the host that leaves the table is normal
    show idd ∈ s1.hosts.items.eraseIdx i
    rw [hthin.hosts, List.mem_eraseIdx_iff_getElem?]
    obtain ⟨k, hk⟩ := List.getElem?_of_mem hmem
    refine ⟨k, ?_, hk⟩
    rintro rfl
    rw [hi] at hk
    cases hk
    rw [hg] at hrd
    cases hrd
    rw [hn] at htype
    cases htype
  · exact hkept hrd1 (hh1.trans hhost)
  · exact hkept (hlocal.trans hrL) (hown rL hrL)

theorem trimLoop_linkedInto {srcI : Nat} (fuel dstI : Nat) (h : trimLoop env srcI fuel dstI s = .ok s')
    (ht : TableOk env s L) (hown : ∀ r, s.recs.get L = some r → r.host = .env .lhost) (hl : LinkedInto s d) :
    LinkedInto s' d := by
  refine (trimLoop_induct (P := fun t => LinkedInto t d ∧ (HasDead t ∨ (TableOk env t L ∧
    ∀ r, t.recs.get L = some r → r.host = .env .lhost))) ?_ fuel dstI h ⟨hl, Or.inr ⟨ht, hown⟩⟩).1
  rintro i t t' - - h1 ⟨hl, hd | ⟨ht, hown⟩⟩
  · -- nothing is trimmed any more
    rw [trimHost_of_hasDead h1 hd]
    exact ⟨hl, Or.inl hd⟩
  · refine ⟨trimHost_linkedInto h1 ht hown hl, ?_⟩
    rcases trimHost_outcome (R := fun _ _ => True) h1 ht with hd | ⟨ht1, hk1, -⟩
    · exact Or.inl hd
    · exact Or.inr ⟨ht1, fun r hr => hown r (hk1.localRec ▸ hr)⟩

theorem Aliased.updateCache_linkedInto (h : Aliased env s L) (hc : s.updateCache env = .ok (ret, s'))
    (hp : PointsInto s d) : LinkedInto s' d := by
  obtain ⟨s1, r2, s2, htrim, hcomp, hexp⟩ := updateCache_cases hc
  have hl1 : LinkedInto s1 d := by
    cases htrim with
    | stale _ => exact h.linkedInto hp
    | trimmed _ _ _ _ hloop => exact trimLoop_linkedInto _ _ hloop h.table h.own (h.linkedInto hp)
  have hl2 : LinkedInto s2 d := hl1.same (computePaths_cases hcomp).1
  rcases hexp with ⟨-, -, rfl⟩ | ⟨-, -, hexp⟩
  · exact hl2
  · exact hl2.same (updateExportedEdges_cases hexp).1.same

/-- An operation whose first phase keeps the table sound and has a record that points into the peer. -/
theorem Aliased.run_linkedInto (op : RtOp) (hrun : op.run q env s = .ok (ret, s'))
    (hphase : ∀ r s1, op.phase q env s = .ok (r, s1) → Aliased env s1 L ∧ PointsInto s1 d) : LinkedInto s' d := by
  rcases RtOp.run_cases hrun with ⟨-, hp⟩ | ⟨s1, r, hp, hcache, -⟩
  · obtain ⟨h1, hpoints⟩ := hphase ret s' hp
    exact h1.linkedInto hpoints
  · obtain ⟨h1, hpoints⟩ := hphase 0 s1 hp
    exact h1.updateCache_linkedInto hcache hpoints

/-! ## The operations -/

/-- **Received link state takes no peer's link.** -/
theorem Aliased.updateEdges_keeps {edges : List PktEdge} (h : Aliased env s L)
    (hrun : s.rtUpdateEdges q env edges = .ok (ret, s')) (hp : PointsInto s d) : LinkedInto s' d := by
  refine Aliased.run_linkedInto (.updateEdges edges) hrun fun r s1 hphase => ⟨h.mergeEdges hphase, ?_⟩
  obtain ⟨id, hid⟩ := h.direct hp
  exact ((mergeEdges_directAt hphase).mpr hid).pointsInto

/-- **`rt_dhost_remove` takes the link of nobody** but the peer with this MAC. -/
theorem Aliased.removeLink_keeps (h : Aliased env s L) {dmac : EtherAddr}
    (hne : ∀ ip, env (.dp d) = some ip → ip.mac ≠ dmac) (hrun : s.rtDhostRemove env dmac = .ok (ret, s'))
    (hp : PointsInto s d) : LinkedInto s' d := by
  refine Aliased.run_linkedInto (q := .insertion) (L := L) (.dhostRemove dmac) hrun fun r s1 hphase => ?_
  refine ⟨h.unlinkDhost hphase, ?_⟩
  obtain ⟨id, hid⟩ := h.direct hp
  obtain ⟨ip, hip, hmac⟩ := h.peer_mac hid
  cases (unlinkDhost_run hphase).phase h.table with
  | refused _ hs => exact (hs.directAt.mpr hid).pointsInto
  | @removed r i l rd ip' _ hr hi hmacl hget htype hip' hs =>
      have hneL : l.dst ≠ L := h.table.direct_ne_local hget (by rw [htype]; decide)
      have hget1 : (s.store L { r with links := r.links.remove i }).recs.get l.dst = some rd := by
        rw [get_store hr, if_neg hneL, hget]
      -- the record that was demoted has another MAC
      have hidl : id ≠ l.dst := by
        rintro rfl
        rw [hmac, Option.some.injEq] at hmacl
        exact hne ip hip hmacl
      obtain ⟨hmem, re, hre, hdirect⟩ : DirectAt (s.store L { r with links := r.links.remove i }) id _ :=
        (directAt_store hr (by rfl) (by rfl)).mpr hid
      refine (hs.directAt.mpr ⟨hmem, re, ?_, hdirect⟩).pointsInto
      rw [get_store hget1, if_neg hidl]
      exact hre

/-- Who was direct before the table phase of `rt_dhost_add_link` is direct after it. -/
theorem LinkPhase.directAt_old {rttUs : UInt32} {now : Timeval} {id : HostId} {ptr : HostPtr}
    (h : LinkPhase q env s L d rttUs now ret s') (hid : DirectAt s id ptr) : DirectAt s' id ptr := by
  cases h with
  | refused _ hs => exact hs.directAt.mpr hid
  | added hadd _ hlink => exact (linkAdd_directAt hlink).mpr (hadd.directAt_old hid)
  | @promoted dst dstRec _ _ ip hip hmem hmac hget hn hp hlink =>
      refine (linkAdd_directAt hlink).mpr ?_
      obtain ⟨hmem', r, hr, htype, hhost⟩ := hid
      refine ⟨hmem', r, ?_, htype, hhost⟩
      rw [get_store hget, if_neg, hr]
      rintro rfl
      rw [hget] at hr
      cases hr
      rw [hn] at htype
      cases htype
  | joined _ _ _ hlink => exact (linkAdd_directAt hlink).mpr hid
  | refreshed _ hg _ _ => exact (directAt_store hg (by rfl) (by rfl)).mpr hid

/-- A record points into the peer after a table phase that returns `0`, if no other peer that is pointed into has
    its MAC. -/
theorem LinkPhase.pointsInto {rttUs : UInt32} {now : Timeval} (hphase : LinkPhase q env s L d rttUs now 0 s')
    (h : Aliased env s L) (hsole : ∀ e, e ≠ d → PointsInto s e → ∀ ip ip', env (.dp e) = some ip →
      env (.dp d) = some ip' → ip.mac ≠ ip'.mac) : PointsInto s' d := by
  generalize hret0 : (0 : Int) = ret0 at hphase
  cases hphase with
  | refused hret _ => exact absurd hret (by omega)
  | @added nh s1 _ _ hadd hp hlink =>
      have hnew : DirectAt s1 nh (.env (.dp d)) :=
        ⟨hp.mem, hadd.record, hadd.get_new, hadd.fresh.type, hadd.fresh.points (by decide)⟩
      exact ((linkAdd_directAt hlink).mpr hnew).pointsInto
  | @promoted dst dstRec _ _ ip hip hmem hmac hget hn hp hlink =>
      have hpromoted : DirectAt (s.store dst { dstRec with host := .env (.dp d), type := .htDirect }) dst
          (.env (.dp d)) :=
        ⟨hmem, { dstRec with host := .env (.dp d), type := .htDirect },
          by rw [get_store hget, if_pos rfl], rfl, rfl⟩
      exact ((linkAdd_directAt hlink).mpr hpromoted).pointsInto
  | @joined dst _ _ ip hip hmac hp hlink =>
      -- a direct peer that local has no link to
      obtain ⟨r, hr⟩ := h.table.get dst hp.mem
      obtain ⟨rL, hrL, l, hl, hdst⟩ := h.linked dst r.host ⟨hp.mem, r, hr, hp.direct r hr, rfl⟩
      exact absurd (hdst ▸ hmac) (hp.absent rL ip.mac hrL hmac l hl)
  | @refreshed r l i ip hip hg hi hmac =>
      -- whom the link leads to is pointed into, and so is the peer itself
      have hl := List.mem_of_getElem? hi
      obtain ⟨hmem, hdirect⟩ := h.table.localDirect r hg l hl
      obtain ⟨rd, hrd⟩ := h.table.get l.dst hmem
      have htype := hdirect rd hrd
      have hkind := h.table.kind l.dst hmem rd hrd
      simp only [KindOk, htype] at hkind
      obtain ⟨e, hhost⟩ := hkind
      have hid : DirectAt s l.dst (.env (.dp e)) := ⟨hmem, rd, hrd, htype, hhost⟩
      obtain ⟨ip', hip', hmac'⟩ := h.peer_mac hid
      have hed : e = d := by
        by_contra hne
        refine hsole e hne hid.pointsInto ip' ip hip' hip ?_
        rw [hmac, Option.some.injEq] at hmac'
        exact hmac'.symm
      subst hed
      exact ((directAt_store hg (by rfl) (by rfl)).mpr hid).pointsInto

/-- The table phase of `rt_dhost_add_link` keeps the table sound, on the condition that it points safely. -/
theorem Aliased.linkDhost_safe (h : Aliased env s L) {ip : Ipv4Host} (hip : env (.dp d) = some ip)
    (hsafe : PointsSafely env s ip.mac) {rttUs : UInt32} {now : Timeval}
    (hp : s.linkDhost q env (.env (.dp d)) rttUs now = .ok (ret, s')) : Aliased env s' L := by
  rcases or_assoc.mpr hsafe with hno | hal
  · exact (h.linkDhost_unpointed hip hno hp).1
  · rcases linkDhost_granted hp hal with ⟨-, hs⟩ | ⟨rfl, -⟩
    · exact h.same hs
    · exact (h.linkDhost hp).1

/-- **`rt_dhost_add_link` takes nobody's link**, whatever it returns. -/
theorem Aliased.addLink_keeps (h : Aliased env s L) {ip : Ipv4Host} (hip : env (.dp d) = some ip)
    (hsafe : PointsSafely env s ip.mac) {rttUs : UInt32} {now : Timeval}
    (hrun : s.rtDhostAddLink q env (.env (.dp d)) rttUs now = .ok (ret, s')) (hp : PointsInto s e) :
    LinkedInto s' e := by
  refine Aliased.run_linkedInto (L := L) (.dhostAddLink d rttUs now) hrun fun r s1 hphase => ?_
  refine ⟨h.linkDhost_safe hip hsafe hphase, ?_⟩
  obtain ⟨id, hid⟩ := h.direct hp
  exact (((linkDhost_run hphase).phase h.table).directAt_old hid).pointsInto

/-- **`rt_dhost_add_link` that returns `0` has linked to its peer**, if no other peer that is pointed into has its
    MAC. -/
theorem Aliased.addLink_linkedInto (h : Aliased env s L) {rttUs : UInt32} {now : Timeval}
    (hsole : ∀ e, e ≠ d → PointsInto s e → ∀ ip ip', env (.dp e) = some ip → env (.dp d) = some ip' →
      ip.mac ≠ ip'.mac) (hrun : s.rtDhostAddLink q env (.env (.dp d)) rttUs now = .ok (0, s')) :
    LinkedInto s' d := by
  have hop : (RtOp.dhostAddLink d rttUs now).run q env s = .ok (0, s') := hrun
  rcases RtOp.run_cases hop with ⟨hret, -⟩ | ⟨s1, r, hp, hcache, -⟩
  · exact absurd rfl hret
  · have hpoints := ((linkDhost_run hp).phase h.table).pointsInto h hsole
    exact (h.linkDhost hp).1.updateCache_linkedInto hcache hpoints

end Routing

end P2pVn
