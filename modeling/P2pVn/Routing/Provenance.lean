import P2pVn.Routing.DirectPeers

/-!
# `Routing.Provenance` — where the links of a table come from

A table holds links that it was told of: by its own peers' probes, or by edges of others. What a link says is
named by MACs here (`Announced`), because records come, go and are promoted while MACs stay.

`Vouched A` says that everything a table holds or exports was announced, for a set `A` of announcements. It needs
no sound table, so it holds whichever allocations fail, and of states that keep freed records too.

- **Changes.** `Vouched.change`: a new state whose records are explained by the old one is vouched for again.
  `HostAdded.vouched`, `LinkAdded.vouched`, `trimHost_vouched`: the changes that tables are made of.
- **Step lemma.** `RtOp.vouched`: an operation needs what it brings in to be announced (`RtOp.Brings`).
- **Run lemma.** `told_vouched`.
-/

namespace P2pVn
open CUb

/-- What an edge says, by the MACs of its ends. -/
structure Announced where
  src : EtherAddr
  dst : EtherAddr
  rttUs : UInt32
  tsMs : UInt64
  deriving DecidableEq

/-- What an edge on the wire says. -/
def PktEdge.announced (e : PktEdge) : Announced where
  src := (pktIpv4Unpack e.src).mac
  dst := (pktIpv4Unpack e.dst).mac
  rttUs := ntohl e.rttUs
  tsMs := ntohll e.tsMs

namespace Routing

variable {env : ExtMem} {q : Qsort} {s s' : Routing} {A B : Announced → Prop}

/-- An exported edge says what its link says. -/
theorem announced_packEdge (src dst : Ipv4Host) (rttUs : UInt32) (tsMs : UInt64) :
    (packEdge src dst rttUs tsMs).announced = ⟨src.mac, dst.mac, rttUs, tsMs⟩ := by
  unfold packEdge PktEdge.announced
  simp only [pktIpv4Unpack_mac, pktIpv4Pack_mac, ntohl_htonl, ntohll_htonll]

/-- The link from record `id` that `l` stands for was announced, if both ends have a MAC. -/
def LinkVouched (A : Announced → Prop) (env : ExtMem) (s : Routing) (id : HostId) (l : RtLink) : Prop :=
  ∀ x y, s.mac? env id = some x → s.mac? env l.dst = some y → A ⟨x, y, l.rttUs, l.tsMs⟩

/-- The newest timestamp of record `id` is that of a link that was announced from it. -/
def NewestVouched (A : Announced → Prop) (env : ExtMem) (s : Routing) (id : HostId) (tsMs : UInt64) : Prop :=
  ∀ x, s.mac? env id = some x → ∃ y rttUs, A ⟨x, y, rttUs, tsMs⟩

/-- Everything that the table holds or exports was announced. No link leads to a record that is yet to be
    allocated. -/
structure Vouched (A : Announced → Prop) (env : ExtMem) (s : Routing) : Prop where
  dst : ∀ id r, s.recs.get id = some r → ∀ l ∈ r.links.items, l.dst < s.recs.fresh
  links : ∀ id r, s.recs.get id = some r → ∀ l ∈ r.links.items, LinkVouched A env s id l
  newest : ∀ id r, s.recs.get id = some r → r.lMaxTsMs = 0 ∨ NewestVouched A env s id r.lMaxTsMs
  exported : ∀ e ∈ s.edges.items, A e.announced

/-- What was announced stays so. -/
theorem Vouched.mono (h : Vouched A env s) (hAB : ∀ a, A a → B a) : Vouched B env s where
  dst := h.dst
  links id r hr l hl x y hx hy := hAB _ (h.links id r hr l hl x y hx hy)
  newest id r hr := by
    refine (h.newest id r hr).imp_right fun hn x hx => ?_
    obtain ⟨y, rttUs, ha⟩ := hn x hx
    exact ⟨y, rttUs, hAB _ ha⟩
  exported e he := hAB _ (h.exported e he)

/-! ## Changes -/

/-- Nobody's MAC is another one than before. -/
def MacsKept (env : ExtMem) (s s' : Routing) : Prop :=
  ∀ id < s.recs.fresh, ∀ x, s'.mac? env id = some x → s.mac? env id = some x

/-- The record `r'` at `id` holds what the record there held, and what was announced. -/
structure Explained (A : Announced → Prop) (env : ExtMem) (s s' : Routing) (id : HostId) (r' : RtHost) : Prop where
  links : ∀ l ∈ r'.links.items, (∃ r, s.recs.get id = some r ∧ l ∈ r.links.items) ∨
    (l.dst < s'.recs.fresh ∧ LinkVouched A env s' id l)
  newest : r'.lMaxTsMs = 0 ∨ (∃ r, s.recs.get id = some r ∧ r'.lMaxTsMs = r.lMaxTsMs) ∨
    NewestVouched A env s' id r'.lMaxTsMs

/-- A record that is as it was. -/
theorem Explained.same {id : HostId} {r' : RtHost} (h : s.recs.get id = some r') : Explained A env s s' id r' :=
  ⟨fun _ hl => Or.inl ⟨r', h, hl⟩, Or.inr (Or.inl ⟨r', h, rfl⟩)⟩

/-- **A state whose records are explained by a state that is vouched for** is so too. -/
theorem Vouched.change (h : Vouched A env s) (hfresh : s.recs.fresh ≤ s'.recs.fresh) (hmac : MacsKept env s s')
    (hrecs : ∀ id r', s'.recs.get id = some r' → Explained A env s s' id r')
    (hedges : ∀ e ∈ s'.edges.items, A e.announced) : Vouched A env s' where
  dst id r' hr' l hl := by
    rcases (hrecs id r' hr').links l hl with ⟨r, hr, hl⟩ | ⟨hlt, -⟩
    · exact Nat.lt_of_lt_of_le (h.dst id r hr l hl) hfresh
    · exact hlt
  links id r' hr' l hl x y hx hy := by
    rcases (hrecs id r' hr').links l hl with ⟨r, hr, hl⟩ | ⟨-, hv⟩
    · -- both ends have had these MACs before
      refine h.links id r hr l hl x y ?_ ?_
      · exact hmac id (CellHeap.lt_fresh hr) x hx
      · exact hmac l.dst (h.dst id r hr l hl) y hy
    · exact hv x y hx hy
  newest id r' hr' := by
    rcases (hrecs id r' hr').newest with h0 | ⟨r, hr, he⟩ | hv
    · exact Or.inl h0
    · rw [he]
      exact (h.newest id r hr).imp_right fun hn x hx => hn x (hmac id (CellHeap.lt_fresh hr) x hx)
    · exact Or.inr hv
  exported := hedges

theorem Same.macsKept (h : Same s s') : MacsKept env s s' := by
  intro id _ x hx
  rw [h.mac?] at hx
  exact hx

theorem Vouched.same (h : Vouched A env s) (hs : Same s s') (he : ∀ e ∈ s'.edges.items, A e.announced) :
    Vouched A env s' := by
  refine h.change hs.fresh hs.macsKept (fun id r' hr' => ?_) he
  rw [hs.get] at hr'
  exact Explained.same hr'

/-- A table without records, where nothing was exported. -/
theorem vouched_empty (hrecs : ∀ id, s.recs.get id = none) (hedges : s.edges.items = []) : Vouched A env s := by
  have hnone : ∀ id r, s.recs.get id ≠ some r := by
    intro id r hr
    rw [hrecs] at hr
    cases hr
  constructor
  · exact fun id r hr => absurd hr (hnone id r)
  · exact fun id r hr => absurd hr (hnone id r)
  · exact fun id r hr => absurd hr (hnone id r)
  · rw [hedges]
    exact nofun

/-- **Overwriting a record** that keeps its MAC. -/
theorem Vouched.store (h : Vouched A env s) {id : HostId} {r r' : RtHost} (hg : s.recs.get id = some r)
    (hm : (r'.host.deref env).map Ipv4Host.mac = (r.host.deref env).map Ipv4Host.mac)
    (hx : Explained A env s (s.store id r') id r') : Vouched A env (s.store id r') := by
  have hmac : ∀ j, (s.store id r').mac? env j = s.mac? env j := mac?_store_of_eq hg hm
  refine h.change (Nat.le_of_eq (CellHeap.fresh_set _ _ _).symm) (fun j _ x hj => hmac j ▸ hj) ?_ h.exported
  intro j rj hj
  rw [get_store hg] at hj
  split at hj
  · rename_i he
    cases hj
    subst he
    exact hx
  · exact Explained.same hj

/-- Overwriting a record with one that has some of its links, and the same newest timestamp. -/
theorem Vouched.store_sub (h : Vouched A env s) {id : HostId} {r r' : RtHost} (hg : s.recs.get id = some r)
    (hm : (r'.host.deref env).map Ipv4Host.mac = (r.host.deref env).map Ipv4Host.mac)
    (hl : ∀ l ∈ r'.links.items, l ∈ r.links.items) (hts : r'.lMaxTsMs = r.lMaxTsMs) :
    Vouched A env (s.store id r') :=
  h.store hg hm ⟨fun l hl' => Or.inl ⟨r, hg, hl l hl'⟩, Or.inr (Or.inl ⟨r, hg, hts⟩)⟩

/-- **`host_add`** needs no announcement: the new record has no links. -/
theorem HostAdded.vouched {p : HostPtr} {type : HostType} {nh : HostId} (ha : HostAdded env s p type nh s')
    (h : Vouched A env s) (he : s'.edges = s.edges) : Vouched A env s' := by
  refine h.change ha.freshLe ?_ ?_ (he ▸ h.exported)
  · intro id hlt x hx
    have hne : id ≠ nh := by
      rintro rfl
      rw [ha.isNew] at hlt
      exact Nat.lt_irrefl _ hlt
    have hmac : s'.mac? env id = s.mac? env id := by
      unfold Routing.mac?
      rw [ha.get, if_neg hne]
    rw [← hmac]
    exact hx
  · intro id r' hr'
    rw [ha.get] at hr'
    split at hr'
    · cases hr'
      refine ⟨fun l hl => ?_, Or.inl ha.fresh.lMax⟩
      rw [ha.fresh.links] at hl
      cases hl
    · exact Explained.same hr'

/-- **`link_add`** needs its link to be announced. -/
theorem LinkAdded.vouched {src dst : HostId} {rttUs : UInt32} {tsMs : UInt64}
    (ha : LinkAdded env s src dst rttUs tsMs s') (h : Vouched A env s) (he : s'.edges = s.edges)
    (hA : LinkVouched A env s src ⟨dst, rttUs, tsMs⟩) : Vouched A env s' := by
  -- `qsort` has read the destination's MAC
  obtain ⟨y, hy⟩ := ha.live _ (ha.mem.mpr (Or.inr rfl))
  have hstore : Vouched A env (s.store src ha.after) := by
    have hmac : ∀ j, (s.store src ha.after).mac? env j = s.mac? env j := mac?_store_of_eq ha.get ha.mac_eq
    refine h.store ha.get ha.mac_eq ⟨fun l hl => ?_, ?_⟩
    · rcases ha.mem.mp hl with hl | rfl
      · exact Or.inl ⟨ha.before, ha.get, hl⟩
      · refine Or.inr ⟨?_, fun x y hx hy => ?_⟩
        · obtain ⟨r, _, hr, -, -⟩ := get_of_mac? hy
          show dst < (s.recs.set src ha.after).fresh
          rw [CellHeap.fresh_set]
          exact CellHeap.lt_fresh hr
        · rw [hmac] at hx hy
          exact hA x y hx hy
    · rw [ha.lMax]
      split
      · refine Or.inr (Or.inr fun x hx => ?_)
        rw [hmac] at hx
        exact ⟨y, rttUs, hA x y hx hy⟩
      · exact Or.inr (Or.inl ⟨ha.before, ha.get, rfl⟩)
  refine hstore.same ha.same ?_
  rw [he]
  exact h.exported

/-- `link_add`, whether it succeeds or not. -/
theorem linkAdd_vouched {src dst : HostId} {rttUs : UInt32} {tsMs : UInt64} {ret : Int}
    (hadd : s.linkAdd q env src dst rttUs tsMs = .ok (ret, s')) (h : Vouched A env s)
    (hA : LinkVouched A env s src ⟨dst, rttUs, tsMs⟩) : Vouched A env s' := by
  obtain ⟨hf, ⟨-, hs⟩ | ⟨-, ⟨ha⟩⟩⟩ := linkAdd_cases hadd
  · apply h.same hs
    rw [hf.edges]
    exact h.exported
  · exact ha.vouched h hf.edges hA

/-! ## Merging edges -/

section Merging

variable {m m' : MergeState}

/-- While links are being added, the current source has the MAC that they were announced from. -/
def CurMac (env : ExtMem) (m : MergeState) : Prop :=
  m.contToNewSrc = false → ∀ cur, m.curHostSrc = some cur → m.rd.mac? env cur = some m.curIpSrc

theorem SourceReady.vouched {src : Ipv4Host} {tsMs : UInt64} {cur : HostId} (h : SourceReady env m src tsMs cur s')
    (hc : CurMac env m) (hv : Vouched A env m.rd) : Vouched A env s' ∧ s'.mac? env cur = some src.mac := by
  cases h with
  | current hcur hsrc hcont =>
      refine ⟨hv, ?_⟩
      rw [hsrc]
      exact hc hcont cur hcur
  | created _ ha hf => exact ⟨ha.vouched hv hf.edges, ha.mac_heap⟩
  | wiped _ _ hmac hget _ _ =>
      refine ⟨hv.store_sub hget rfl (fun l hl => by cases hl) rfl, ?_⟩
      rw [mac?_store_of_eq hget (by rfl)]
      exact hmac

theorem DstReady.vouched {dst : Ipv4Host} {id : HostId} (h : DstReady env s dst id s') (hv : Vouched A env s) :
    Vouched A env s' ∧ s'.mac? env id = some dst.mac ∧ ∀ j x, s.mac? env j = some x → s'.mac? env j = some x := by
  cases h with
  | known _ hmac => exact ⟨hv, hmac, fun _ _ hx => hx⟩
  | created ha hf => exact ⟨ha.vouched hv hf.edges, ha.mac_heap, fun _ _ hx => ha.mac_old hx⟩

/-- **Step lemma.** An iteration adds the link that its edge announces, or none. -/
theorem EdgeStep.vouched {e : PktEdge} {ret : Int} (h : EdgeStep q env m e ret m') (hc : CurMac env m)
    (hv : Vouched A env m.rd) (hA : A e.announced) : Vouched A env m'.rd ∧ (ret = 0 → CurMac env m') := by
  cases h with
  | doubledBack _ => exact ⟨hv, fun _ => hc⟩
  | skipped _ _ => exact ⟨hv, fun _ => hc⟩
  | srcFailed hf hs =>
      refine ⟨hv.same hs ?_, nofun⟩
      rw [hf.edges]
      exact hv.exported
  | rejected => exact ⟨hv, fun _ hcont => by cases hcont⟩
  | linked _ hsrc hdst hlink =>
      obtain ⟨hv1, hmac1⟩ := hsrc.vouched hc hv
      obtain ⟨hv2, hmac2, hold⟩ := hdst.vouched hv1
      have hcur := hold _ _ hmac1
      refine ⟨linkAdd_vouched hlink hv2 fun x y hx hy => ?_, fun hret _ cur hcur' => ?_⟩
      · rw [hcur] at hx
        rw [hmac2] at hy
        cases hx
        cases hy
        exact hA
      · cases hcur'
        obtain ⟨-, ⟨hr, -⟩ | ⟨-, ⟨ha⟩⟩⟩ := linkAdd_cases hlink
        · rw [hr] at hret
          cases hret
        · rw [ha.mac?]
          exact hcur

/-- **Run lemma.** The table phase of `rt_update_edges` adds links that its edges announce. -/
theorem mergeEdges_vouched {edges : List PktEdge} {ret : Int} (h : s.mergeEdges q env edges = .ok (ret, s'))
    (hv : Vouched A env s) (hA : ∀ e ∈ edges, A e.announced) : Vouched A env s' := by
  obtain ⟨m', hm, rfl⟩ := mergeEdges_loop h
  refine mergeLoop_rule (P := fun m1 => Vouched A env m1.rd ∧ CurMac env m1)
    (Q := fun _ m1 => Vouched A env m1.rd) (fun _ h => h.1) _ ?_ hm ⟨hv, fun _ _ hcur => by cases hcur⟩
  intro m1 e he r m2 hm1 hs
  have hmem : e ∈ edges := (q.perm pktEdgesCmpSrc edges).mem_iff.mp he
  obtain ⟨hv2, hc2⟩ := hs.vouched hm1.2 hm1.1 (hA e hmem)
  exact ⟨fun h0 => ⟨hv2, hc2 h0⟩, fun _ => hv2⟩

end Merging

/-! ## Direct peers -/

/-- The record that local's links are added to has local's MAC. -/
theorem LocalFound.isLocalMac {sh : HostId} {shRec : RtHost} (h : LocalFound env s sh shRec) :
    ∃ m, IsLocalMac env s m ∧ s.mac? env sh = some m := by
  obtain ⟨m, i, L, hL, hm, hf, hi⟩ := h.found
  obtain ⟨id, hid, hmac⟩ := findHost_some hf
  rw [hi] at hid
  cases hid
  exact ⟨m, ⟨L, theLocal_eq_ok.mp hL, macOf_eq_ok.mp hm⟩, hmac⟩

/-- A refreshed list has its old links, but for the one with the new measurement. -/
theorem mem_modify_link {links : List RtLink} {i : Nat} {rttUs : UInt32} {tsMs : UInt64} {l : RtLink}
    (h : l ∈ links.modify i fun l => { l with rttUs := rttUs, tsMs := tsMs }) :
    l ∈ links ∨ ∃ l0, links[i]? = some l0 ∧ l = { l0 with rttUs := rttUs, tsMs := tsMs } := by
  obtain ⟨j, hj⟩ := List.getElem?_of_mem h
  rw [List.getElem?_modify] at hj
  obtain ⟨l0, hl0, he⟩ := Option.map_eq_some_iff.mp hj
  by_cases hij : i = j
  · subst hij
    refine Or.inr ⟨l0, hl0, ?_⟩
    simpa using he.symm
  · left
    simp only [hij, if_false] at he
    exact he ▸ List.mem_of_getElem? hl0

/-- **The table phase of `rt_dhost_add_link`** adds or refreshes the link from local to the peer. -/
theorem LinkRun.vouched {p : HostPtr} {rttUs : UInt32} {now : Timeval} {ret : Int}
    (h : LinkRun q env s p rttUs now ret s') (hv : Vouched A env s)
    (hA : ∀ x ip, IsLocalMac env s x → p.deref env = some ip → A ⟨x, ip.mac, rttUs, tvMs now⟩) :
    Vouched A env s' := by
  cases h with
  | refused => exact hv
  | notAdded hadd hret =>
      obtain ⟨hf, ⟨-, hs⟩ | ⟨h0, -⟩⟩ := hostAdd_cases hadd
      · apply hv.same hs
        rw [hf.edges]
        exact hv.exported
      · exact absurd h0 hret
  | added hl hip _ hadd hframe _ hlink =>
      obtain ⟨m, hm, hmac⟩ := hl.isLocalMac
      refine linkAdd_vouched hlink (hadd.vouched hv hframe.edges) fun x y hx hy => ?_
      rw [hadd.mac_old hmac] at hx
      rw [hadd.mac_new] at hy
      cases hx
      cases hy
      exact hA m hadd.ip hm hadd.addr
  | @joined sh shRec dst dstRec s1 _ _ _ hl hip _ _ _ hmacDst hget hs1 hlink =>
      obtain ⟨m, hm, hmac⟩ := hl.isLocalMac
      -- promoting the peer's record changes nobody's MAC
      have hs1' : Vouched A env s1 ∧ ∀ j, s1.mac? env j = s.mac? env j := by
        rw [hs1]
        split
        · have he := mac_promote hip hmacDst hget
          exact ⟨hv.store_sub hget he (fun _ hl => hl) rfl, mac?_store_of_eq hget he⟩
        · exact ⟨hv, fun _ => rfl⟩
      refine linkAdd_vouched hlink hs1'.1 fun x y hx hy => ?_
      rw [hs1'.2, hmac] at hx
      rw [hs1'.2, hmacDst] at hy
      cases hx
      cases hy
      exact hA m _ hm hip
  | @refreshed sh shRec l i ip hl hip hi hmacDst =>
      obtain ⟨m, hm, hmac⟩ := hl.isLocalMac
      refine hv.store hl.get rfl ⟨fun l' hl' => ?_, Or.inr (Or.inl ⟨shRec, hl.get, rfl⟩)⟩
      rcases mem_modify_link hl' with hl' | ⟨l0, hl0, rfl⟩
      · exact Or.inl ⟨shRec, hl.get, hl'⟩
      · rw [hi] at hl0
        cases hl0
        refine Or.inr ⟨?_, fun x y hx hy => ?_⟩
        · show l.dst < (s.recs.set sh _).fresh
          rw [CellHeap.fresh_set]
          exact hv.dst sh shRec hl.get l (List.mem_of_getElem? hi)
        · rw [mac?_store_of_eq hl.get (by rfl), hmac] at hx
          rw [mac?_store_of_eq hl.get (by rfl), hmacDst] at hy
          cases hx
          cases hy
          exact hA m ip hm hip

/-- **The table phase of `rt_dhost_remove`** adds nothing. -/
theorem UnlinkRun.vouched {dmac : EtherAddr} {ret : Int} (h : UnlinkRun env s dmac ret s')
    (hv : Vouched A env s) : Vouched A env s' := by
  cases h with
  | refused _ hf hs =>
      apply hv.same hs
      rw [hf.edges]
      exact hv.exported
  | @removed sh shRec i l h ip s1 s2 _ _ _ hget _ hip hf hs hrm =>
      have hv1 : Vouched A env s1 := by
        apply hv.same hs
        rw [hf.edges]
        exact hv.exported
      have hget1 : s1.recs.get l.dst = some h := (hs.get _).trans hget
      -- the peer becomes a normal host, and then local's link goes
      have hv2 : Vouched A env (s1.store l.dst { h with host := .heap ip, type := .htNormal }) :=
        hv1.store_sub hget1 (by rw [hip]; rfl) (fun _ hl => hl) rfl
      obtain ⟨r, hr, rfl⟩ := linkRemove_cases hrm
      exact hv2.store_sub hr rfl (fun _ hl => List.mem_of_mem_eraseIdx hl) rfl

/-! ## The cache -/

/-- The loop over all hosts removes links only. -/
theorem unlinkAll_vouched {h : HostId} : ∀ (ids : List HostId) {s s' : Routing},
    ids.foldlM (unlinkFrom env h) s = .ok s' → Vouched A env s → Vouched A env s' := by
  intro ids s s' hf hv
  refine foldlM_inv (Vouched A env) ids hf hv fun src _ t t' ht hstep => ?_
  obtain ⟨r, m, hr, -, ⟨-, rfl⟩ | ⟨i, l, -, -, rfl⟩⟩ := unlinkFrom_cases hstep
  · exact ht
  · exact ht.store_sub hr rfl (fun _ hl => List.mem_of_mem_eraseIdx hl) rfl

/-- **`trim_host`** adds nothing, whichever record it frees. -/
theorem trimHost_vouched {i : Nat} (h : s.trimHost env i = .ok s') (hv : Vouched A env s) : Vouched A env s' := by
  obtain ⟨id, r, -, -, ⟨-, rfl⟩ | ⟨-, s1, victim, h1, -, -, rfl⟩⟩ := trimHost_cases h
  · exact hv
  · have hv1 := unlinkAll_vouched _ h1 hv
    -- who is still live is who they were
    have hget : ∀ j rj, (s1.recs.free victim).get j = some rj → s1.recs.get j = some rj := by
      intro j rj hj
      rw [CellHeap.get_free] at hj
      split at hj
      · cases hj
      · exact hj
    refine hv1.change (Nat.le_of_eq (CellHeap.fresh_free _ _).symm) (fun j _ x hx => ?_)
      (fun j rj hj => Explained.same (hget j rj hj)) hv1.exported
    obtain ⟨rj, ip, hj, hip, rfl⟩ := get_of_mac? hx
    exact mac?_of_get (hget j rj hj) hip

theorem TrimRun.vouched (h : TrimRun env s s') (hv : Vouched A env s) : Vouched A env s' := by
  cases h with
  | stale _ => exact hv
  | trimmed _ _ _ _ hloop =>
      exact trimLoop_induct (P := Vouched A env) (fun _ _ h1 hs => trimHost_vouched h1 hs) _ _ hloop hv

/-- Whether a call of the inner loop fails on its way or not, the edges it has appended are announced. -/
theorem exportLinks_vouched (id : HostId) {i : Nat} {src : Ipv4Host} : ∀ (ls : List RtLink) (j : Nat)
    {s s' : Routing} {ret : Int}, exportLinks env i src j ls s = .ok (ret, s') →
      s.mac? env id = some src.mac → (∀ l ∈ ls, LinkVouched A env s id l) →
      (∀ e ∈ s.edges.items, A e.announced) → EdgesOnly s s' ∧ ∀ e ∈ s'.edges.items, A e.announced := by
  intro ls
  induction ls with
  | nil =>
      intro j s s' ret h _ _ hedges
      cases h
      exact ⟨EdgesOnly.refl s, hedges⟩
  | cons l ls ih =>
      intro j s s' ret h hmac hls hedges
      have hrest : ∀ l' ∈ ls, LinkVouched A env s id l' := fun l' hl' => hls l' (List.mem_cons_of_mem l hl')
      unfold exportLinks at h
      obtain ⟨p, -, h⟩ := bind_eq_ok.mp h
      split at h
      · exact ih (j + 1) h hmac hrest hedges
      · obtain ⟨dr, hdr, h⟩ := bind_eq_ok.mp h
        obtain ⟨dst, hdst, h⟩ := bind_eq_ok.mp h
        obtain ⟨al', ⟨d', hadd, hitems⟩ | hfail⟩ :=
          s.edges.addToEnd_cases (packEdge src dst l.rttUs l.tsMs) s.allocs
        · simp only [hadd, Bool.false_eq_true, if_false] at h
          have hnew : A (packEdge src dst l.rttUs l.tsMs).announced := by
            rw [announced_packEdge]
            exact hls l List.mem_cons_self _ _ hmac (mac?_of_get (host_eq_ok.mp hdr) (ipOf_eq_ok.mp hdst))
          have he0 : EdgesOnly s { s with edges := d', allocs := al' } := ⟨rfl, rfl, rfl, rfl, rfl, rfl⟩
          obtain ⟨he, hall⟩ := ih (j + 1) h hmac hrest (fun e he => by
            rw [hitems, List.mem_append, List.mem_singleton] at he
            rcases he with he | rfl
            · exact hedges e he
            · exact hnew)
          exact ⟨he0.trans he, hall⟩
        · simp only [hfail, if_true] at h
          cases h
          exact ⟨⟨rfl, rfl, rfl, rfl, rfl, rfl⟩, hedges⟩

theorem EdgesOnly.vouched (h : EdgesOnly s s') (hv : Vouched A env s) (he : ∀ e ∈ s'.edges.items, A e.announced) :
    Vouched A env s' := hv.same h.same he

theorem exportHosts_vouched : ∀ (ids : List HostId) (i : Nat) {s s' : Routing} {ret : Int},
    exportHosts env i ids s = .ok (ret, s') → Vouched A env s → Vouched A env s' := by
  intro ids
  induction ids with
  | nil =>
      intro i s s' ret h hv
      cases h
      exact hv
  | cons id ids ih =>
      intro i s s' ret h hv
      unfold exportHosts at h
      obtain ⟨r, hr, h⟩ := bind_eq_ok.mp h
      obtain ⟨src, hsrc, h⟩ := bind_eq_ok.mp h
      obtain ⟨⟨r1, s1⟩, h1, h⟩ := bind_eq_ok.mp h
      have hg := host_eq_ok.mp hr
      obtain ⟨he, hall⟩ := exportLinks_vouched id _ _ h1 (mac?_of_get hg (ipOf_eq_ok.mp hsrc))
        (hv.links id r hg) hv.exported
      have hv1 := he.vouched hv hall
      simp only at h
      split at h
      · cases h
        exact hv1
      · exact ih (i + 1) h hv1

/-- **`update_cache`** adds nothing that was not announced, whichever of its parts fails. -/
theorem updateCache_vouched {ret : Int} (h : s.updateCache env = .ok (ret, s')) (hv : Vouched A env s) :
    Vouched A env s' := by
  obtain ⟨s1, r2, s2, htrim, hcomp, hexp⟩ := updateCache_cases h
  obtain ⟨hsame, hedges, -⟩ := computePaths_cases hcomp
  have hv1 := htrim.vouched hv
  have hv2 : Vouched A env s2 := by
    apply hv1.same hsame
    rw [hedges]
    exact hv1.exported
  rcases hexp with ⟨-, -, rfl⟩ | ⟨-, -, hexp⟩
  · exact hv2
  · exact exportHosts_vouched _ _ hexp hv2

/-! ## The operations -/

/-- What a call brings in: the link from local to the peer, as it was just measured, or the edges of a packet. -/
def RtOp.Brings (env : ExtMem) (s : Routing) : RtOp → Announced → Prop
  | .dhostAddLink d rttUs now, a => ∃ ip, env (.dp d) = some ip ∧ IsLocalMac env s a.src ∧
      a = ⟨a.src, ip.mac, rttUs, tvMs now⟩
  | .updateEdges edges, a => ∃ e ∈ edges, e.announced = a
  | .dhostRemove _, _ => False

/-- **Step lemma.** An operation keeps everything vouched for, if what it brings in is announced. -/
theorem RtOp.vouched (op : RtOp) {ret : Int} (h : op.run q env s = .ok (ret, s')) (hv : Vouched A env s)
    (hA : ∀ a, op.Brings env s a → A a) : Vouched A env s' := by
  have hphase : ∀ {r s1}, op.phase q env s = .ok (r, s1) → Vouched A env s1 := by
    intro r s1 hp
    cases op with
    | dhostAddLink d rttUs now =>
        exact (linkDhost_run hp).vouched hv fun x ip hx hip => hA _ ⟨ip, hip, hx, rfl⟩
    | updateEdges edges => exact mergeEdges_vouched hp hv fun e he => hA _ ⟨e, he, rfl⟩
    | dhostRemove dmac => exact (unlinkDhost_run hp).vouched hv
  rcases run_cases h with ⟨-, hp⟩ | ⟨s1, r, hp, hcache, -⟩
  · exact hphase hp
  · exact updateCache_vouched hcache (hphase hp)

/-- **Step lemma.** A lookup keeps everything vouched for. -/
theorem forward_vouched {srcMac dstMac : EtherAddr} {f : Forwards}
    (h : s.rtDhostsToHost env srcMac dstMac = .ok (f, s')) (hv : Vouched A env s) : Vouched A env s' := by
  have hfit : ∀ {s1}, Fits env s s1 → Vouched A env s1 := by
    intro s1 hf
    apply hv.same hf.same
    rcases hf with ⟨-, rfl⟩ | ⟨-, hcomp⟩
    · exact hv.exported
    · rw [(computePaths_cases hcomp).2.1]
      exact hv.exported
  cases rtDhostsToHost_run h with
  | stale _ hcomp _ =>
      obtain ⟨hsame, hedges, -⟩ := computePaths_cases hcomp
      apply hv.same hsame
      rw [hedges]
      exact hv.exported
  | noLocal hf => exact hfit hf
  | looked hf _ _ _ hbranch =>
      have ha := branch_cases hbranch
      apply (hfit hf).same ha.same
      obtain ⟨al, rfl, -⟩ := ha
      exact (hfit hf).exported

/-! ## Runs -/

/-- The states of a table, with everything that its calls have brought in so far. -/
inductive Told (q : Qsort) (env : ExtMem) (al : AllocScript) : (Announced → Prop) → Routing → Prop where
  | start {s1 : Routing} (h : Started q env al s1) : Told q env al (fun _ => False) s1
  | op {A : Announced → Prop} {s1 s2 : Routing} {o : RtOp} {ret : Int} (h : Told q env al A s1)
      (hrun : o.run q env s1 = .ok (ret, s2)) : Told q env al (fun a => A a ∨ o.Brings env s1 a) s2
  | forward {A : Announced → Prop} {s1 s2 : Routing} {srcMac dstMac : EtherAddr} {f : Forwards}
      (h : Told q env al A s1) (hrun : s1.rtDhostsToHost env srcMac dstMac = .ok (f, s2)) : Told q env al A s2

/-- What was brought in can be kept of every run. -/
theorem Reach.told {al : AllocScript} (h : Reach q env al s) : ∃ A, Told q env al A s := by
  induction h with
  | start h => exact ⟨_, .start h⟩
  | op _ hrun ih =>
      obtain ⟨A, hA⟩ := ih
      exact ⟨_, hA.op hrun⟩
  | forward _ hrun ih =>
      obtain ⟨A, hA⟩ := ih
      exact ⟨A, hA.forward hrun⟩

theorem Started.vouched {al : AllocScript} (h : Started q env al s) : Vouched A env s := by
  obtain ⟨s0, hinit, hlhost⟩ := h
  have h0 : Vouched A env s0 := by
    apply vouched_empty
    · intro id
      unfold rtInit at hinit
      simp only at hinit
      split at hinit
      · cases hinit
      · split at hinit
        · cases hinit
        · cases hinit
          rfl
    · exact (rtInit_cases hinit).2.1
  obtain ⟨⟨p, nh, s1⟩, hadd, h⟩ := bind_eq_ok.mp hlhost
  have h1 : Vouched A env s1 := by
    obtain ⟨hf, ⟨-, hs⟩ | ⟨-, ⟨ha⟩⟩⟩ := hostAdd_cases hadd
    · apply h0.same hs
      rw [hf.edges]
      exact h0.exported
    · exact ha.vouched h0 hf.edges
  simp only at h
  split at h
  · cases h
    exact ⟨h1.dst, h1.links, h1.newest, h1.exported⟩
  · cases h
    exact h1

/-- **Run lemma. Every table is vouched for by what it was told.** -/
theorem told_vouched {al : AllocScript} (h : Told q env al A s) : Vouched A env s := by
  induction h with
  | start h => exact h.vouched
  | op _ hrun ih => exact RtOp.vouched _ hrun (ih.mono fun _ => Or.inl) fun _ => Or.inr
  | forward _ hrun ih => exact forward_vouched hrun ih

/-- On the line: what was exported is the link that host `0` measured, and that link was brought in. -/
theorem told_vouched_line : ∃ A s, Told .insertion lineExt [] A s ∧ Vouched A lineExt s ∧
    packEdge (lineHost 0) (lineHost 1) 10 0 ∈ s.edges.items ∧
    A ⟨(lineHost 0).mac, (lineHost 1).mac, 10, 0⟩ := by
  have hrun : (do
      let s ← runFrom .insertion lineExt [.dhostAddLink 0 10 ⟨0, 0⟩]
      pure s.edges.items) = Except.ok [packEdge (lineHost 0) (lineHost 1) 10 0] := by
    decide +kernel
  obtain ⟨s, hs, hedges⟩ := bind_eq_ok.mp hrun
  simp only [pure_eq_ok, Except.ok.injEq] at hedges
  obtain ⟨A, hA⟩ := (reach_runFrom hs).told
  have hmem : packEdge (lineHost 0) (lineHost 1) 10 0 ∈ s.edges.items := by
    rw [hedges]
    exact List.mem_singleton_self _
  have hv : Vouched A lineExt s := told_vouched hA
  have ha := hv.exported _ hmem
  rw [announced_packEdge] at ha
  exact ⟨A, s, hA, hv, hmem, ha⟩

end Routing

end P2pVn
