import P2pVn.Routing.Aliasing
import P2pVn.Routing.Following
import P2pVn.Routing.Representation

/-!
# `Routing.Returning` — which calls succeed, when no allocation fails

The calls that `dp_recv_packet` makes, with exactly when they give it what it needs.

- `rtDhostsToHost_deliverable_iff`: a call always returns; it hands out peers only, with a code that is not
  negative, for a multicast from a known source and a unicast to a known host other than local (`Deliverable`).
- `RtOp.zero_iff`: an operation whose first phase returns `0`, and leaves no two links of one host to one
  destination, returns `0` unless a host in the middle of the table is to be trimmed.
-/

namespace P2pVn
open CUb GroupedMerge

namespace Routing

variable {env : ExtMem} {q : Qsort} {s s' s1 : Routing} {L : HostId} {i : Nat} {f : Forwards}
  {srcMac dstMac : EtherAddr}

/-! ## `rt_dhosts_to_host` -/

/-- In a sound table the list of hosts to hand out can be put together. -/
theorem Sound.hostList_ok (hs : Sound env s L) : ∀ (is : List Nat), (∀ i ∈ is, i < s.hosts.ct) →
    ∃ ps, s.hostList is [] = .ok (ps, []) := by
  intro is
  induction is with
  | nil => exact fun _ => ⟨[], rfl⟩
  | cons i is ih =>
      intro hlt
      obtain ⟨ps, hps⟩ := ih fun j hj => hlt j (List.mem_cons_of_mem i hj)
      obtain ⟨h, id, hid, hg⟩ := hs.table.hostAt (hlt i List.mem_cons_self)
      refine ⟨h.host :: ps, ?_⟩
      simp only [hostList, takeAlloc, Bool.not_true, Bool.false_eq_true, if_false, itemAt_eq_ok.mpr hid,
        host_eq_ok.mpr hg, hps, ok_bind]
      rfl

/-- A destination that is compared has an entry in the matrix. -/
theorem startsWith_lt {path : List Nat} {srcI : Nat} (hc : ∀ a b (v : Option Nat), s.next.entry a b = .ok v →
    b < s.hosts.ct) {b : Bool} (h : s.startsWith i path srcI = .ok b) : i < s.hosts.ct := by
  cases path with
  | nil => cases h
  | cons p ps =>
      obtain ⟨v, hv, -⟩ := bind_eq_ok.mp h
      exact hc srcI i v hv

/-- **The multicast branch returns `0` for every known source**, whether there is a path or not. -/
theorem multicast_zero (hs : Sound env s L) (hr : Routed s) (hi : i < s.hosts.ct) {srcI : Nat}
    (hf : s.findHostByAddr env srcMac = .ok (some srcI)) :
    ∃ f s', s.multicast env i srcMac = .ok (f, s') ∧ f.ret = 0 := by
  obtain ⟨id, hid, -⟩ := findHost_some hf
  have hsrc : srcI < s.hosts.ct := (List.getElem?_eq_some_iff.mp hid).1
  have hcol : ∀ a b (v : Option Nat), s.next.entry a b = .ok v → b < s.hosts.ct := by
    intro a b v hv
    obtain ⟨_, g, -, hg⟩ := hr.ready
    rw [hg] at hv
    exact hr.mCt ▸ (entry_live_lt hv).2
  have hal := hs.allocs
  unfold multicast
  simp only [hf, ok_bind, hr.path srcI i hsrc hi, Da.init, hal, takeAlloc, Bool.not_true, Bool.false_eq_true,
    if_false]
  by_cases h0 : (cells s.startAt s.hosts.ct srcI i).1 = pathDiscon
  · rw [if_pos h0]
    exact ⟨_, _, rfl, rfl⟩
  · rw [if_neg h0]
    obtain ⟨path, al1, hpath, -, hcollect⟩ := hr.cellsOf.collects [] (hr.path srcI i hsrc hi) h0
    obtain rfl : al1 = [] := List.suffix_nil.mp (srcToCur_suffix _ _ hpath)
    obtain ⟨⟨dsts, al2⟩, hdsts⟩ := hcollect ⟨[], s.mCt⟩ []
    obtain rfl : al2 = [] := List.suffix_nil.mp (collectDsts_suffix _ hdsts)
    obtain ⟨ps, hps⟩ := hs.hostList_ok dsts.items fun x hx => by
      rcases collectDsts_mem _ hdsts x hx with hx | hx
      · cases hx
      · exact startsWith_lt hcol hx
    exact ⟨⟨0, ps, true⟩, { s with allocs := [] }, by simp [hpath, hdsts, hps], rfl⟩

/-- Everything handed out is the address of a peer that is there, inside its `dp_t`. -/
def PeersOnly (env : ExtMem) (ps : List HostPtr) : Prop :=
  ∀ ptr ∈ ps, ∃ d ip, ptr = .env (.dp d) ∧ env (.dp d) = some ip

/-- The address of a direct host lies in a peer. -/
theorem OnlyDirect.peersOnly (h : OnlyDirect s f) (ht : TableOk env s L) : PeersOnly env f.res := by
  intro ptr hptr
  obtain ⟨_, _, -, -, l, -, hmem, r, hr, -, rfl, d, hd⟩ := h ptr hptr
  obtain ⟨m, (hm : s.mac? env l.dst = some m)⟩ := ht.live l.dst hmem
  obtain ⟨r', ip, hr', hip, -⟩ := get_of_mac? hm
  rw [hr] at hr'
  cases hr'
  rw [hd] at hip
  exact ⟨d, ip, hd, hip⟩

/-- A frame that can be sent on: a multicast from a host of the table, or a unicast to one that is not local. -/
def Deliverable (env : ExtMem) (s : Routing) (srcMac dstMac : EtherAddr) : Prop :=
  if etherAddrIsMcast dstMac then Knows env s srcMac else Knows env s dstMac ∧ ¬ IsLocalMac env s dstMac

/-- Who is known is found by the binary search. -/
theorem TableOk.knows_iff (ht : TableOk env s L) {x : EtherAddr} :
    Knows env s x ↔ ∃ i, s.findHostByAddr env x = .ok (some i) := by
  constructor
  · rintro ⟨id, r, hx⟩
    obtain ⟨i, hi⟩ := List.getElem?_of_mem hx.mem
    exact ⟨i, ht.findHost_index hi hx.mac⟩
  · rintro ⟨i, hi⟩
    obtain ⟨id, hid, hm⟩ := findHost_some hi
    obtain ⟨r, hr⟩ := ht.get id (List.mem_of_getElem? hid)
    exact ⟨id, r, List.mem_of_getElem? hid, hm, hr⟩

theorem Fledgling.aliased (h : Fledgling env s L) : Aliased env s L := by
  obtain ⟨r0, hr0, hown, -⟩ := h.local_
  refine ⟨h.table, h.directLinked, fun r hr => ?_⟩
  rw [Option.some.inj (hr.symm.trans hr0)]
  exact hown

/-- An operation, up to the update of the cache, keeps records and peers apart. -/
theorem RtOp.phase_aliased {op : RtOp} {ret : Int} (hp : op.phase q env s = .ok (ret, s1)) (hs : Sound env s L)
    (ha : Aliased env s L) : Aliased env s1 L := by
  by_cases hret : ret = 0
  · subst hret
    cases op with
    | dhostAddLink d rttUs now => exact (ha.linkDhost hp).1
    | updateEdges edges => exact ha.mergeEdges hp
    | dhostRemove dmac => exact ha.unlinkDhost hp
  · rw [(RtOp.phase_sound hp hs).2 hret]
    exact ha

/-- **Run lemma.** Without allocation failures local's own record always points to local's address, and local
    is linked to whomever it points into. -/
theorem Reach.aliased (h : Reach q env [] s) : ∃ L, Sound env s L ∧ Aliased env s L := by
  induction h with
  | start h =>
      obtain ⟨L, hf, hal⟩ := started_cases h
      exact ⟨L, ⟨hal rfl, hf.table, hf.linksOk, Or.inl hf.unset⟩, hf.aliased⟩
  | op _ hrun ih =>
      obtain ⟨L, hs, ha⟩ := ih
      have hs' := (RtOp.sound hrun hs).1
      refine ⟨L, hs', (Aliased.run (P := fun _ => True) _ hrun fun r s3 hp => ?_).1.resolve_left ?_⟩
      · exact ⟨RtOp.phase_aliased hp hs ha, fun _ _ => trivial⟩
      · rintro ⟨id, hid, -, hnone⟩
        obtain ⟨r, hr⟩ := hs'.table.get id hid
        rw [hnone] at hr
        cases hr
  | forward _ hrun ih =>
      obtain ⟨L, hs, ha⟩ := ih
      exact ⟨L, forward_sound hrun hs, ha.same (rtDhostsToHost_same hrun)⟩

/-- A frame for local itself is handed out with local's own address. -/
theorem unicast_local (hs : Sound env s L) (hr : Routed s) (ha : Aliased env s L)
    (hi : s.hosts.items[i]? = some L) {m : EtherAddr} (hm : s.mac? env L = some m) (hrun : s.unicast env i m = .ok (f, s')) :
    f.res = [.env .lhost] := by
  have hlt : i < s.hosts.ct := (List.getElem?_eq_some_iff.mp hi).1
  have hdiag : cells s.startAt s.hosts.ct i i = (pathMin, none) := cells_diag (hs.graphOk.diag i) _
  obtain ⟨f1, s1, hrun1, -, -, hsome⟩ := unicast_result hs hr hlt hi hm
  obtain ⟨h, ⟨id, hid, hget⟩, hres⟩ := hsome (by rw [pathAt, hdiag]; decide)
  cases hrun.symm.trans hrun1
  rw [nextAt, hdiag, Option.getD_none, hi, Option.some.injEq] at hid
  rw [hres, ha.own h (hid ▸ hget)]

/-- The multicast branch hands out peers, with a code that is not negative, if the source is known. -/
theorem multicast_deliverable_iff (hs : Sound env s L) (hr : Routed s) (hi : i < s.hosts.ct)
    (hpeers : ∀ {f s'}, s.multicast env i srcMac = .ok (f, s') → 0 ≤ f.ret → PeersOnly env f.res) :
    ∃ f s', s.multicast env i srcMac = .ok (f, s') ∧ ((0 ≤ f.ret ∧ PeersOnly env f.res) ↔ Knows env s srcMac) := by
  obtain ⟨fs, hfs⟩ := hs.table.findHost_ok srcMac
  rw [hs.table.knows_iff, hfs]
  cases fs with
  | none =>
      refine ⟨.error (-2), s, by simp [multicast, hfs], ?_⟩
      simp [Forwards.error]
  | some srcI =>
      obtain ⟨f, s', hrun, hret⟩ := multicast_zero hs hr hi hfs
      have h0 : 0 ≤ f.ret := by omega
      exact ⟨f, s', hrun, fun _ => ⟨srcI, rfl⟩, fun _ => ⟨h0, hpeers hrun h0⟩⟩

/-- The unicast branch does, if the destination is known and not local. -/
theorem unicast_deliverable_iff (hs : Sound env s L) (hr : Routed s) (ha : Aliased env s L)
    (hi : s.hosts.items[i]? = some L)
    (hpeers : ∀ {f s'}, s.unicast env i dstMac = .ok (f, s') → 0 ≤ f.ret → ¬ IsLocalMac env s dstMac →
      PeersOnly env f.res) :
    ∃ f s', s.unicast env i dstMac = .ok (f, s') ∧
      ((0 ≤ f.ret ∧ PeersOnly env f.res) ↔ Knows env s dstMac ∧ ¬ IsLocalMac env s dstMac) := by
  have hlt : i < s.hosts.ct := (List.getElem?_eq_some_iff.mp hi).1
  obtain ⟨fd, hfd⟩ := hs.table.findHost_ok dstMac
  rw [hs.table.knows_iff, hfd]
  cases fd with
  | none =>
      refine ⟨.error (-1), s, by simp [unicast, hfd], ?_⟩
      simp [Forwards.error]
  | some j =>
      obtain ⟨id, hid, hmac⟩ := findHost_some hfd
      obtain ⟨f, s', hrun, hret, -⟩ := unicast_result hs hr hlt hid hmac
      have h0 : 0 ≤ f.ret := by omega
      refine ⟨f, s', hrun, ?_, fun ⟨_, hother⟩ => ⟨h0, hpeers hrun h0 hother⟩⟩
      rintro ⟨-, honly⟩
      refine ⟨⟨j, rfl⟩, fun hlocal => ?_⟩
      obtain ⟨m, hm⟩ := hs.table.live L (List.mem_of_getElem? hi)
      obtain rfl := (hs.table.isLocalMac_iff hm).mp hlocal
      have hres := unicast_local hs hr ha hi hm hrun
      obtain ⟨d, _, hd, -⟩ := honly (.env .lhost) (by rw [hres]; exact List.mem_singleton_self _)
      cases hd

/-- **The matrices of the current graph** lead along links of local. -/
theorem Routed.localHops (hr : Routed s) (hs : Sound env s L) (hi : s.hosts.items[i]? = some L) :
    LocalHops s L i := by
  have hg := hs.graphOk
  have hc := hr.cellsOf
  have hlt : i < s.mCt := hr.mCt ▸ (List.getElem?_eq_some_iff.mp hi).1
  have hnextlt : ∀ {a b : Nat} {v : Option Nat}, s.next.entry a b = .ok v → a < s.mCt ∧ b < s.mCt := by
    intro a b v hv
    obtain ⟨_, g, -, hg'⟩ := hr.ready
    rw [hg'] at hv
    exact entry_live_lt hv
  -- an entry of local's row that is not zero was set for one of local's links
  have hlink : ∀ p, s.startAt i p ≠ 0 → p ≠ i → LocalLink s L p := by
    intro p hne hpi
    cases hl : s.lastRtt i p with
    | none =>
        rw [startAt, hl, if_neg (Ne.symm hpi)] at hne
        exact absurd rfl hne
    | some w =>
        obtain ⟨l, hmem, hto, -⟩ := arc_of_lastRtt hl
        obtain ⟨r, hL⟩ := hs.table.get L hs.table.localMem
        rw [linksAt_eq hi hL] at hmem
        exact ⟨r, hL, l, hmem, hto⟩
  refine ⟨fun j v hv hne => ?_, fun j p hp => ?_, fun a j ha => ?_, fun v n hv hn => ?_⟩
  · rw [hc.path i j hlt (hc.lt hv).2, Except.ok.injEq] at hv
    by_cases hji : j = i
    · exact Or.inl hji
    · exact Or.inr (hlink j ((cells_ne_zero _ i j).mp fun h0 => hne (hv.symm.trans h0)) hji)
  · rw [hc.next i j hlt (hnextlt hp).2, Except.ok.injEq] at hp
    obtain ⟨-, hpi, -, hip, -⟩ := cells_next hp
    exact hlink p hip hpi
  · obtain ⟨halt, hjlt⟩ := hnextlt ha
    rw [hc.next a j halt hjlt, Except.ok.injEq] at ha
    obtain ⟨-, -, hij, -, hne⟩ := cells_next ha
    exact hlink j hne hij.symm
  · have hdiag := cells_diag (hg.diag i) s.mCt
    rw [hc.path i i hlt hlt, hdiag, Except.ok.injEq] at hv
    rw [hc.next i i hlt hlt, hdiag, Except.ok.injEq] at hn
    exact ⟨hv.symm, hn.symm⟩

/-- Without allocation failures a lookup that is not refused hands out peers, unless it is for local itself. -/
theorem rtDhostsToHost_peersOnly (h : Reach q env [] s) (hrun : s.rtDhostsToHost env srcMac dstMac = .ok (f, s'))
    (hret : 0 ≤ f.ret) (hother : etherAddrIsMcast dstMac = true ∨ ¬ IsLocalMac env s dstMac) :
    PeersOnly env f.res := by
  obtain ⟨L, hs⟩ := h.sound
  obtain ⟨i, m, -, hm, -, hi⟩ := hs.table.find_local
  obtain ⟨s1, hsame, hs1, hr1, heq⟩ := rtDhostsToHost_eq hs hi srcMac dstMac
  have hi1 : s1.hosts.items[i]? = some L := hsame.hosts ▸ hi
  have hhops := hr1.localHops hs1 hi1
  rw [heq] at hrun
  by_cases hcast : etherAddrIsMcast dstMac = true
  · rw [if_pos hcast] at hrun
    have hgrows : ∀ srcI, s1.findHostByAddr env srcMac = .ok (some srcI) →
        s1.WalkGrows i (s1.mCt + 1) srcI ⟨[], 8⟩ (s1.allocs.drop 1) := by
      intro srcI _
      rw [hs1.allocs]
      exact walkGrows_nil _ srcI _
    exact (multicast_direct hs1.table hhops hgrows hrun).peersOnly hs1.table
  · rw [if_neg hcast] at hrun
    have hm1 : s1.mac? env L = some m := (hsame.mac? L).trans (macOf_eq_ok.mp hm)
    have hne : dstMac ≠ m := fun he =>
      hother.resolve_left hcast ((hs.table.isLocalMac_iff (macOf_eq_ok.mp hm)).mpr he)
    exact ((unicast_direct hs1.table hhops hi1 hm1 hrun hret).mpr hne).peersOnly hs1.table

/-- **When a frame can be sent on.** In every state that is reached without allocation failures the call
    returns; it hands out peers only, with a code that is not negative, exactly if the frame is deliverable. -/
theorem rtDhostsToHost_deliverable_iff (h : Reach q env [] s) (srcMac dstMac : EtherAddr) :
    ∃ f s', s.rtDhostsToHost env srcMac dstMac = .ok (f, s') ∧
      ((0 ≤ f.ret ∧ PeersOnly env f.res) ↔ Deliverable env s srcMac dstMac) := by
  obtain ⟨L, hs, ha⟩ := h.aliased
  obtain ⟨i, m, -, hm, -, hi⟩ := hs.table.find_local
  obtain ⟨s1, hsame, hs1, hr1, heq⟩ := rtDhostsToHost_eq hs hi srcMac dstMac
  have hi1 : s1.hosts.items[i]? = some L := hsame.hosts ▸ hi
  have hlt1 : i < s1.hosts.ct := (List.getElem?_eq_some_iff.mp hi1).1
  have hknows : ∀ x, Knows env s1 x ↔ Knows env s x := by
    intro x
    rw [hs.table.knows_iff, hs1.table.knows_iff, hsame.findHost]
  have hlocal : IsLocalMac env s1 dstMac ↔ IsLocalMac env s dstMac := by
    have hm1 : s1.mac? env L = some m := (hsame.mac? L).trans (macOf_eq_ok.mp hm)
    rw [hs.table.isLocalMac_iff (macOf_eq_ok.mp hm), hs1.table.isLocalMac_iff hm1]
  unfold Deliverable
  by_cases hcast : etherAddrIsMcast dstMac = true
  · rw [if_pos hcast] at heq ⊢
    rw [heq, ← hknows]
    exact multicast_deliverable_iff hs1 hr1 hlt1 fun hrun hret =>
      rtDhostsToHost_peersOnly h (heq.trans hrun) hret (Or.inl hcast)
  · rw [if_neg hcast] at heq ⊢
    rw [heq, ← hknows, ← hlocal]
    exact unicast_deliverable_iff hs1 hr1 (ha.same hsame) hi1 fun hrun hret hother =>
      rtDhostsToHost_peersOnly h (heq.trans hrun) hret (Or.inr (hlocal.not.mp hother))

/-! ## The operations -/

/-- The groups that are merged are determined: whether a group is depends on groups of smaller sources only,
    and fewer edges have those. -/
theorem Takes.unique {edges : List PktEdge} {acc acc' : EtherAddr → Prop} (h : Takes env s edges acc)
    (h' : Takes env s edges acc') (x : EtherAddr) : acc x ↔ acc' x := by
  have hfewer : ∀ {x y : EtherAddr}, MacLt y x → ∀ e ∈ groupOf edges y,
      (edges.filter fun e => MacLt (edgeStream.src e) y).length
        < (edges.filter fun e => MacLt (edgeStream.src e) x).length := by
    intro x y hlt e he
    obtain ⟨hmem, rfl, -⟩ := mem_group.mp he
    have hsub : (edges.filter fun e' => MacLt (edgeStream.src e') (edgeStream.src e)).Sublist
        (edges.filter fun e' => MacLt (edgeStream.src e') x) :=
      List.monotone_filter_right edges fun e' he' => by
        simp only [decide_eq_true_eq] at he' ⊢
        exact he'.trans hlt
    -- `e` itself is in the longer list only
    refine Nat.lt_of_le_of_ne hsub.length_le fun hlen => ?_
    have hin : e ∈ edges.filter fun e' => MacLt (edgeStream.src e') x :=
      List.mem_filter.mpr ⟨hmem, decide_eq_true hlt⟩
    rw [← hsub.eq_of_length hlen, List.mem_filter, decide_eq_true_eq] at hin
    exact MacLt.irrefl _ hin.2
  induction hn : (edges.filter fun e => MacLt (edgeStream.src e) x).length using Nat.strong_induction_on generalizing x with
  | _ n ih =>
      subst hn
      have hnamed : (∃ y, MacLt y x ∧ acc y ∧ ∃ e' ∈ groupOf edges y, edgeStream.dst e' = x) ↔
          ∃ y, MacLt y x ∧ acc' y ∧ ∃ e' ∈ groupOf edges y, edgeStream.dst e' = x := by
        refine exists_congr fun y => and_congr_right fun hlt => ?_
        constructor
        · rintro ⟨hacc, e', he', hdst⟩
          exact ⟨(ih _ (hfewer hlt e' he') y rfl).mp hacc, e', he', hdst⟩
        · rintro ⟨hacc, e', he', hdst⟩
          exact ⟨(ih _ (hfewer hlt e' he') y rfl).mpr hacc, e', he', hdst⟩
      rw [h x, h' x]
      simp only [hnamed]

/-- Where everybody that the merged groups name was known, no host is added. -/
theorem Merged.items {edges : List PktEdge} {tab0 : EtherAddr → Option (Entry LinkView)} {acc : EtherAddr → Prop}
    {tab : EtherAddr → Option (Entry LinkView)} (h : Merged q env s L edges s1 tab0 acc tab)
    (hknown : ∀ x, acc x → Knows env s x ∧ ∀ e ∈ groupOf edges x, Knows env s (edgeStream.dst e)) :
    s1.hosts.items = s.hosts.items := by
  have hback : ∀ id ∈ s1.hosts.items, id ∈ s.hosts.items := by
    intro id hid
    obtain ⟨x, r1, hx1⟩ := h.after.table.hostWith hid
    obtain ⟨a, ha, -⟩ := h.shows.entry h.after.table hx1
    have hx : Knows env s x := by
      by_contra hno
      have h0 : tab0 x = none := h.absent_iff.mpr fun id r hx => hno ⟨id, r, hx⟩
      have hacc : ¬ acc x := fun hacc => hno (hknown x hacc).1
      have hnot : ¬ Named edgeStream (q.sort pktEdgesCmpSrc edges) acc x := by
        rintro ⟨y, hy, e, he, rfl⟩
        exact hno ((hknown y hy).2 e ((group_sort q edges y).mem_iff.mp he))
      rw [h.outcome.absent x h0 hacc hnot] at ha
      cases ha
    obtain ⟨id0, r0, hx0⟩ := hx
    obtain ⟨r0', hx0', -⟩ := h.host hx0
    rw [(h.after.table.hostWith_inj hx1 hx0').1]
    exact hx0.mem
  refine h.grows.size.resolve_right fun hlt => ?_
  have hle := (h.after.table.nodup.subperm hback).length_le
  have hlt : s.hosts.items.length < s1.hosts.items.length := hlt
  omega

namespace RtOp

variable {op : RtOp}

/-- **A call that keeps the hosts adds none.** -/
theorem items_of_keeps (hp : op.phase q env s = .ok (0, s1)) (hs : Sound env s L) (hk : op.KeepsHosts env s) :
    s1.hosts.items = s.hosts.items := by
  cases op with
  | dhostAddLink d rttUs now =>
      obtain ⟨⟨ip, hip, hnone⟩, -⟩ | ⟨hitems, -⟩ := ((linkDhost_run hp).phase hs.table).peer hs.table
      · obtain ⟨ip', id, r, hip', hx, -⟩ := hk
        rw [hip] at hip'
        cases hip'
        exact absurd hx.mac (hs.table.findHost_none hnone id hx.mem)
      · exact hitems
  | updateEdges edges =>
      obtain ⟨tab0, h0⟩ := exists_shows env s
      obtain ⟨acc, tab, hm⟩ := Intact.merged ⟨hs.table, hs.links⟩ h0 hp
      obtain ⟨acc', htakes, hknown⟩ := hk
      exact hm.items fun x hacc => hknown x ((hm.takes.unique htakes x).mp hacc)
  | dhostRemove dmac =>
      obtain ⟨_, _, -, -, -, hhosts, -⟩ := ((unlinkDhost_run hp).phase hs.table).peer hs.table
      exact hhosts

/-- **Who is normal by the call's account is normal**, where no host was added. -/
theorem normal_of_after (hp : op.phase q env s = .ok (0, s1)) (hs : Sound env s L)
    (hitems : s1.hosts.items = s.hosts.items) {m : EtherAddr} {id : HostId} {r r1 : RtHost}
    (hx : HostWith env s m id r) (hr1 : s1.recs.get id = some r1) (hafter : op.typeAfter env m r.type = .htNormal) :
    r1.type = .htNormal := by
  cases op with
  | dhostAddLink d rttUs now =>
      obtain ⟨-, hlen⟩ | ⟨-, dst, hd⟩ := ((linkDhost_run hp).phase hs.table).peer hs.table
      · rw [hitems] at hlen
        omega
      obtain ⟨ip, rd, hip, hdst, -⟩ := hd.host
      cases hr : r.type with
      | htNormal =>
          rw [hr] at hafter
          by_cases hid : id = dst
          · -- it would be the peer
            subst hid
            have hm : ip.mac = m := Option.some.inj (hdst.mac.symm.trans hx.mac)
            simp [typeAfter, hip, hm] at hafter
          · rw [hd.others id hid r r1 hx.get hr1, hr]
      | htDirect =>
          rw [hr] at hafter
          cases hafter
      | htLocal =>
          rw [hr] at hafter
          cases hafter
  | updateEdges edges =>
      obtain ⟨tab0, h0⟩ := exists_shows env s
      obtain ⟨acc, tab, hm⟩ := Intact.merged ⟨hs.table, hs.links⟩ h0 hp
      obtain ⟨r', hr', -, htype⟩ := hm.keeps.kind id r hx.get
      obtain rfl := Option.some.inj (hr'.symm.trans hr1)
      exact htype.trans hafter
  | dhostRemove dmac =>
      obtain ⟨dst, rd, -, hpeer, -, -, htype⟩ := ((unlinkDhost_run hp).phase hs.table).peer hs.table
      rw [htype id r r1 hx.get hr1]
      by_cases hid : id = dst
      · rw [if_pos hid]
      · rw [if_neg hid]
        have hother : dmac ≠ m := by
          rintro rfl
          exact hid (hs.table.hostWith_inj hx hpeer).1
        cases hr : r.type with
        | htNormal => rfl
        | htDirect => simp [hr, typeAfter, hother] at hafter
        | htLocal =>
            rw [hr] at hafter
            cases hafter

/-- **An operation returns `0`** on a table without parallel links, and after a first phase that leaves none,
    exactly if the hosts that it would trim are none or the last one. -/
theorem zero_iff (hp : op.phase q env s = .ok (0, s1)) (hs : Sound env s L) (hl : LinksOk MacLt env s)
    (honce : op.NamesOnce env s) :
    (∃ s', op.run q env s = .ok (0, s')) ↔ (op.KeepsHosts env s → op.TrimsLast env s) := by
  constructor
  · rintro ⟨s', hrun⟩ hk srcI hsrc i hne h0 id m r hid hx hafter
    obtain ⟨s1', s2, s3, hp', htrim, hcomp, -⟩ := run_zero hrun
    cases hp.symm.trans hp'
    have hf := (phase_frame hp).1
    have hitems := items_of_keeps hp hs hk
    have ht1 := phase_tableOk hp hs.table
    -- the matrices are those of the table, which has as many hosts as before
    have hct : s.mCt = s.hosts.ct := by
      rcases hs.cache with hu | hr
      · rw [hu.2.1] at h0
        cases h0
      · exact hr.mCt
    have hct1 : s1.mCt = s1.hosts.ct := by rw [hf.mCt, hct, Da.ct, Da.ct, hitems]
    obtain ⟨r1, hr1⟩ := ht1.get id (hitems ▸ List.mem_of_getElem? hid)
    have hi : ToTrim s1 srcI i :=
      ⟨hne, hf.path ▸ h0, id, r1, hitems ▸ hid, hr1, normal_of_after hp hs hitems hx hr1 hafter⟩
    obtain ⟨-, -, ⟨hneg, -⟩ | ⟨-, ⟨hc⟩⟩⟩ := computePaths_cases hcomp
    · exact absurd hneg (by decide)
    -- what is computed reads every record, so none was freed
    cases htrim with
    | stale hne => exact absurd hct1 hne
    | @trimmed L' m' srcI' _ _ hL hm hf' hloop =>
        obtain ⟨rfl, hsrc'⟩ := ht1.found_local hL hm hf'
        obtain rfl : srcI = srcI' := by
          rw [hs.table.isLocal, ← hitems] at hsrc
          exact ht1.strict.index_inj hsrc hsrc' (macOf_eq_ok.mp hm) (macOf_eq_ok.mp hm)
        have hlast := (trimLoop_trimmed ht1.hostsOk _ 0 hloop hc.not_hasDead (by omega)).1 i (Nat.zero_le i) hi
        rw [Da.ct, hitems] at hlast
        exact hlast
  · intro hlast
    obtain ⟨s', hrun, -⟩ := finishes hs hl ⟨honce, hlast⟩ hp
    exact ⟨s', hrun⟩

end RtOp

end Routing

end P2pVn
