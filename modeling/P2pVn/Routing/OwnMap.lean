import P2pVn.Routing.OwnLinks
import P2pVn.Routing.Provenance

/-!
# `Routing.OwnMap` — local's links as a map from MAC to measurement

What the routing code keeps for a node's own links is a map (`OwnMap`): which peers there are, by MAC, and what
was last measured to each of them. `rt_dhost_add_link` puts an entry, `rt_dhost_remove` takes one away, and the
link state of others leaves the map alone (`RtOp.after`).

The table implements it: `Owns` relates a state to a map, through local's sorted list of links and the records
that they lead to.

- **Table changes.** `LinkAdded.ownLink`, `ownLink_store`, `HostAdded.ownLink`.
- **Step lemma.** `Owns.op`: by the ways in which a first phase returns. The cache is then brought up to date,
  which touches neither local's record nor a direct peer (`Owns.kept`).
- **Run lemma.** `OwnRun.sound`; `ownRun_links` reads it off, with what the next operation returns.
-/

namespace P2pVn
open CUb

namespace Routing

variable {env : ExtMem} {q : Qsort} {s s' : Routing} {L : HostId} {m : EtherAddr} {v : UInt32 × UInt64}

/-! ## The map -/

/-- What was last measured to the peer with a MAC: the round trip time, and when. -/
abbrev OwnMap := EtherAddr → Option (UInt32 × UInt64)

/-- The map after an operation that returned `0`. -/
def RtOp.after (env : ExtMem) (own : OwnMap) : RtOp → OwnMap
  | .dhostAddLink d rttUs now =>
      match env (.dp d) with
      | some ip => Function.update own ip.mac (some (rttUs, tvMs now))
      | none => own
  | .updateEdges _ => own
  | .dhostRemove dmac => Function.update own dmac none

/-- What it returns: an error for a peer with the MAC of the node itself, and `1` for a peer that is not there. -/
def RtOp.code (env : ExtMem) (own : OwnMap) (me : EtherAddr) : RtOp → Int
  | .dhostAddLink d _ _ => if (env (.dp d)).map Ipv4Host.mac = some me then -2 else 0
  | .updateEdges _ => 0
  | .dhostRemove dmac => if (own dmac).isSome then 0 else 1

/-- The states of a run in which no allocation fails, with the map that its operations make. An operation that
    fails leaves the map alone. -/
inductive OwnRun (q : Qsort) (env : ExtMem) : OwnMap → Routing → Prop where
  | start {s1 : Routing} (h : Started q env [] s1) : OwnRun q env (fun _ => none) s1
  | op {own : OwnMap} {s1 s2 : Routing} {o : RtOp} {ret : Int} (h : OwnRun q env own s1)
      (hrun : o.run q env s1 = .ok (ret, s2)) : OwnRun q env (if ret = 0 then o.after env own else own) s2
  | forward {own : OwnMap} {s1 s2 : Routing} {srcMac dstMac : EtherAddr} {f : Forwards}
      (h : OwnRun q env own s1) (hrun : s1.rtDhostsToHost env srcMac dstMac = .ok (f, s2)) : OwnRun q env own s2

theorem OwnRun.reach {own : OwnMap} (h : OwnRun q env own s) : Reach q env [] s := by
  induction h with
  | start h => exact .start h
  | op _ hrun ih => exact ih.op hrun
  | forward _ hrun ih => exact ih.forward hrun

/-! ## What the table says of it -/

/-- One of these links has this measurement, and leads to a record with this MAC. -/
def Says (env : ExtMem) (s : Routing) (links : List RtLink) (m : EtherAddr) (v : UInt32 × UInt64) : Prop :=
  ∃ l ∈ links, s.mac? env l.dst = some m ∧ (l.rttUs, l.tsMs) = v

/-- One of the links of record `L` does. -/
def OwnLink (env : ExtMem) (s : Routing) (L : HostId) (m : EtherAddr) (v : UInt32 × UInt64) : Prop :=
  ∃ r, s.recs.get L = some r ∧ Says env s r.links.items m v

/-- The links of record `L` are the entries of the map. -/
def Owns (env : ExtMem) (s : Routing) (L : HostId) (own : OwnMap) : Prop :=
  ∀ m v, OwnLink env s L m v ↔ own m = some v

theorem ownLink_of_get {r : RtHost} (hr : s.recs.get L = some r) :
    OwnLink env s L m v ↔ Says env s r.links.items m v := by
  unfold OwnLink
  simp only [hr, Option.some.injEq, exists_eq_left']

/-- A record and the MACs of its neighbours decide what its links say. -/
theorem ownLink_congr {r : RtHost} (hr : s.recs.get L = some r) (hr' : s'.recs.get L = some r)
    (hmac : ∀ l ∈ r.links.items, s'.mac? env l.dst = s.mac? env l.dst) :
    OwnLink env s' L m v ↔ OwnLink env s L m v := by
  rw [ownLink_of_get hr, ownLink_of_get hr']
  constructor
  · rintro ⟨l, hl, hm, hv⟩
    exact ⟨l, hl, (hmac l hl).symm.trans hm, hv⟩
  · rintro ⟨l, hl, hm, hv⟩
    exact ⟨l, hl, (hmac l hl).trans hm, hv⟩

theorem Same.ownLink (h : Same s s') : OwnLink env s' L m v ↔ OwnLink env s L m v := by
  unfold OwnLink Says
  simp only [h.get, h.mac?]

/-- Overwriting another record, without changing its MAC. -/
theorem ownLink_store {id : HostId} {r r' : RtHost} (hg : s.recs.get id = some r) (hne : L ≠ id)
    (hm : (r'.host.deref env).map Ipv4Host.mac = (r.host.deref env).map Ipv4Host.mac) :
    OwnLink env (s.store id r') L m v ↔ OwnLink env s L m v := by
  unfold OwnLink Says
  simp only [get_store hg, if_neg hne, mac?_store_of_eq hg hm]

/-- Overwriting the links of the record itself. -/
theorem ownLink_withLinks {r : RtHost} {links : Da RtLink} (hg : s.recs.get L = some r) :
    OwnLink env (s.store L { r with links := links }) L m v ↔ Says env s links.items m v := by
  have hmac : ∀ j, (s.store L { r with links := links }).mac? env j = s.mac? env j :=
    mac?_store_of_eq hg (by rfl)
  have hget : (s.store L { r with links := links }).recs.get L = some { r with links := links } := by
    rw [get_store hg, if_pos rfl]
  rw [ownLink_of_get hget]
  unfold Says
  simp only [hmac]

/-- **`host_add`** leaves a record and what its links say. -/
theorem HostAdded.ownLink {p : HostPtr} {type : HostType} {nh : HostId} (ha : HostAdded env s p type nh s')
    (ht : TableOk env s L) : OwnLink env s' L m v ↔ OwnLink env s L m v := by
  obtain ⟨r, hr⟩ := ht.get L ht.localMem
  refine ownLink_congr hr (ha.get_old hr) fun l hl => ?_
  obtain ⟨x, hx⟩ := ht.live l.dst (ht.localDirect r hr l hl).1
  exact (ha.mac_old hx).trans hx.symm

/-- **`link_add`** adds what the new link says. -/
theorem LinkAdded.ownLink {dst : HostId} {rttUs : UInt32} {tsMs : UInt64}
    (ha : LinkAdded env s L dst rttUs tsMs s') :
    OwnLink env s' L m v ↔ OwnLink env s L m v ∨ (s.mac? env dst = some m ∧ (rttUs, tsMs) = v) := by
  have hget : s'.recs.get L = some ha.after := by rw [ha.getRec, if_pos rfl]
  rw [ownLink_of_get hget, ownLink_of_get ha.get]
  unfold Says
  simp only [ha.mac?, ha.mem]
  constructor
  · rintro ⟨l, hl | rfl, hrest⟩
    · exact Or.inl ⟨l, hl, hrest⟩
    · exact Or.inr hrest
  · rintro (⟨l, hl, hrest⟩ | hrest)
    · exact ⟨l, Or.inl hl, hrest⟩
    · exact ⟨_, Or.inr rfl, hrest⟩

/-! ### One entry of a list -/

section Entry

variable {links : List RtLink} {i : Nat} {l0 : RtLink} {m0 : EtherAddr} (hs : MacStrict env s RtLink.dst links)
  (hi : links[i]? = some l0) (hm0 : s.mac? env l0.dst = some m0)

include hs hi hm0

/-- Only the link at position `i` says anything of its MAC. -/
theorem entry_unique {k : Nat} {l : RtLink} (hk : links[k]? = some l) : s.mac? env l.dst = some m0 ↔ k = i := by
  constructor
  · exact fun hm => hs.index_inj hk hi hm hm0
  · rintro rfl
    rw [hi] at hk
    cases hk
    exact hm0

/-- A refreshed link says what was measured. -/
theorem says_modify_at {rttUs : UInt32} {tsMs : UInt64} :
    Says env s (links.modify i fun l => { l with rttUs := rttUs, tsMs := tsMs }) m0 v ↔ (rttUs, tsMs) = v := by
  constructor
  · rintro ⟨l, hl, hm, hv⟩
    obtain ⟨k, hk⟩ := List.getElem?_of_mem hl
    rw [List.getElem?_modify] at hk
    obtain ⟨l1, hl1, he⟩ := Option.map_eq_some_iff.mp hk
    by_cases hki : i = k
    · rw [if_pos hki] at he
      subst he
      exact hv
    · rw [if_neg hki] at he
      subst he
      exact absurd ((entry_unique hs hi hm0 hl1).mp hm).symm hki
  · intro hv
    have hk : (links.modify i fun l => { l with rttUs := rttUs, tsMs := tsMs })[i]?
        = some { l0 with rttUs := rttUs, tsMs := tsMs } := by
      rw [List.getElem?_modify, hi]
      show some (if i = i then _ else l0) = _
      rw [if_pos rfl]
    exact ⟨_, List.mem_of_getElem? hk, hm0, hv⟩

/-- The other links say what they said. -/
theorem says_modify_other {f : RtLink → RtLink} (hf : ∀ l, (f l).dst = l.dst) (hm : m ≠ m0) :
    Says env s (links.modify i f) m v ↔ Says env s links m v := by
  constructor
  · rintro ⟨l, hl, hlm, hv⟩
    obtain ⟨k, hk⟩ := List.getElem?_of_mem hl
    rw [List.getElem?_modify] at hk
    obtain ⟨l1, hl1, he⟩ := Option.map_eq_some_iff.mp hk
    by_cases hki : i = k
    · -- this one has the MAC of the refreshed link
      rw [if_pos hki] at he
      rw [← he, hf, (entry_unique hs hi hm0 hl1).mpr hki.symm, Option.some.injEq] at hlm
      exact absurd hlm.symm hm
    · rw [if_neg hki] at he
      subst he
      exact ⟨l1, List.mem_of_getElem? hl1, hlm, hv⟩
  · rintro ⟨l, hl, hlm, hv⟩
    obtain ⟨k, hk⟩ := List.getElem?_of_mem hl
    have hki : i ≠ k := by
      rintro rfl
      rw [(entry_unique hs hi hm0 hk).mpr rfl, Option.some.injEq] at hlm
      exact hm hlm.symm
    refine ⟨l, List.mem_of_getElem? (i := k) ?_, hlm, hv⟩
    rw [List.getElem?_modify, hk]
    show some (if i = k then f l else l) = some l
    rw [if_neg hki]

/-- Without the link at position `i` nothing is said of its MAC, and the same of the others. -/
theorem says_eraseIdx : Says env s (links.eraseIdx i) m v ↔ m ≠ m0 ∧ Says env s links m v := by
  constructor
  · rintro ⟨l, hl, hlm, hv⟩
    obtain ⟨k, hki, hk⟩ := List.mem_eraseIdx_iff_getElem?.mp hl
    refine ⟨?_, l, List.mem_of_getElem? hk, hlm, hv⟩
    rintro rfl
    exact hki ((entry_unique hs hi hm0 hk).mp hlm)
  · rintro ⟨hm, l, hl, hlm, hv⟩
    obtain ⟨k, hk⟩ := List.getElem?_of_mem hl
    refine ⟨l, List.mem_eraseIdx_iff_getElem?.mpr ⟨k, ?_, hk⟩, hlm, hv⟩
    rintro rfl
    rw [(entry_unique hs hi hm0 hk).mpr rfl, Option.some.injEq] at hlm
    exact hm hlm.symm

end Entry

/-- A change of what is said of one MAC is a change of its entry. -/
theorem Owns.update {own : OwnMap} {m0 : EtherAddr} {e : Option (UInt32 × UInt64)} (h : Owns env s L own)
    (hat : ∀ v, OwnLink env s' L m0 v ↔ e = some v)
    (hother : ∀ m ≠ m0, ∀ v, OwnLink env s' L m v ↔ OwnLink env s L m v) :
    Owns env s' L (Function.update own m0 e) := by
  intro m v
  by_cases hm : m = m0
  · subst hm
    rw [Function.update_self]
    exact hat v
  · rw [Function.update_of_ne hm, hother m hm v]
    exact h m v

/-! ## The first phases -/

/-- In a table that local's new link can be added to, none leads to the peer. -/
theorem Prepared.not_ownLink {dst : HostId} (hp : Prepared env s L dst) (hm : s.mac? env dst = some m) :
    ¬ OwnLink env s L m v := by
  rintro ⟨r, hr, l, hl, hlm, -⟩
  exact hp.absent r m hr hm l hl hlm

/-- **The first phase of `rt_dhost_add_link`** puts the measurement. -/
theorem LinkPhase.owns {own : OwnMap} {d : Nat} {rttUs : UInt32} {now : Timeval}
    (h : LinkPhase q env s L d rttUs now 0 s') (ht : TableOk env s L) (ho : Owns env s L own) :
    Owns env s' L ((RtOp.dhostAddLink d rttUs now).after env own) := by
  -- the three cases in which a link is added, from a table that says the same of local's links
  have hadded : ∀ {s1 : Routing} {dst : HostId} {ret : Int} {ip : Ipv4Host}, env (.dp d) = some ip →
      s1.mac? env dst = some ip.mac → Prepared env s1 L dst →
      (∀ m v, OwnLink env s1 L m v ↔ OwnLink env s L m v) →
      s1.linkAdd q env L dst rttUs (tvMs now) = .ok (ret, s') → (if ret ≠ 0 then (-3 : Int) else 0) = 0 →
      Owns env s' L ((RtOp.dhostAddLink d rttUs now).after env own) := by
    intro s1 dst ret ip hip hmac hp hsame hlink hret
    obtain ⟨-, ⟨hr, -⟩ | ⟨-, ⟨ha⟩⟩⟩ := linkAdd_cases hlink
    · rw [hr] at hret
      exact absurd hret (by decide)
    · simp only [RtOp.after, hip]
      apply ho.update
      · intro v
        rw [ha.ownLink, hmac, Option.some.injEq]
        constructor
        · rintro (hold | ⟨-, rfl⟩)
          · exact absurd hold (hp.not_ownLink hmac)
          · rfl
        · intro hv
          exact Or.inr ⟨rfl, Option.some.inj hv⟩
      · intro m hm v
        rw [ha.ownLink, hmac, Option.some.injEq, hsame]
        constructor
        · rintro (hold | ⟨he, -⟩)
          · exact hold
          · exact absurd he.symm hm
        · exact Or.inl
  generalize hret0 : (0 : Int) = ret0 at h
  cases h with
  | refused hret _ => exact absurd hret (by omega)
  | added hadd hp hlink =>
      exact hadded hadd.addr hadd.mac_new hp (fun m v => hadd.ownLink ht) hlink hret0.symm
  | @promoted dst dstRec _ _ ip hip hmem hmac hget hn hp hlink =>
      have hne : L ≠ dst := (ht.direct_ne_local hget (by rw [hn]; decide)).symm
      have heq := mac_promote (p := .env (.dp d)) hip hmac hget
      refine hadded hip ?_ hp (fun m v => ownLink_store hget hne heq) hlink hret0.symm
      exact (mac?_store_of_eq hget heq dst).trans hmac
  | joined hip hmac hp hlink => exact hadded hip hmac hp (fun _ _ => Iff.rfl) hlink hret0.symm
  | @refreshed r l i ip hip hg hi hmac =>
      have hstrict := ht.localStrict r hg
      simp only [RtOp.after, hip]
      apply ho.update
      · intro v
        rw [ownLink_withLinks hg, Da.items_withItems, says_modify_at hstrict hi hmac, Option.some.injEq]
      · intro m hm v
        rw [ownLink_withLinks hg, Da.items_withItems, ownLink_of_get hg]
        exact says_modify_other hstrict hi hmac (fun _ => rfl) hm

/-- **The first phase of `rt_dhost_remove`** takes the entry away. -/
theorem UnlinkPhase.owns {own : OwnMap} {dmac : EtherAddr}
    (h : UnlinkPhase env s L dmac 0 s') (ht : TableOk env s L) (ho : Owns env s L own) :
    Owns env s' L ((RtOp.dhostRemove dmac).after env own) := by
  generalize hret0 : (0 : Int) = ret0 at h
  cases h with
  | refused hret _ => exact absurd hret0.symm hret
  | @removed r i l h ip _ hg hi hmac hget hdir hip hs =>
      have hne : l.dst ≠ L := ht.direct_ne_local hget (by rw [hdir]; decide)
      have hget' : (s.store L { r with links := r.links.remove i }).recs.get l.dst = some h := by
        rw [get_store hg, if_neg hne, hget]
      -- the peer's record becomes a normal host with the MAC that it has
      have hown : ∀ m v, OwnLink env s' L m v ↔ m ≠ dmac ∧ OwnLink env s L m v := by
        intro m v
        rw [hs.ownLink, ownLink_store hget' hne.symm (by rw [hip]; rfl), ownLink_withLinks hg, Da.items_remove,
          says_eraseIdx (ht.localStrict r hg) hi hmac, ownLink_of_get hg]
      show Owns env s' L (Function.update own dmac none)
      apply ho.update
      · intro v
        rw [hown]
        exact ⟨fun h => absurd rfl h.1, nofun⟩
      · intro m hm v
        rw [hown]
        exact and_iff_right hm

/-- **Changes that touch neither local's record nor a direct peer** leave what is said. -/
theorem Owns.kept {own : OwnMap} (h : Owns env s L own) (ht : TableOk env s L) (hL : s'.recs.get L = s.recs.get L)
    (hdirect : ∀ id ptr, DirectAt s' id ptr ↔ DirectAt s id ptr) : Owns env s' L own := by
  obtain ⟨r, hr⟩ := ht.get L ht.localMem
  intro m v
  rw [← h m v]
  refine ownLink_congr hr (hL.trans hr) fun l hl => ?_
  -- whom local links to is a direct peer, and has kept its address
  obtain ⟨hmem, htype⟩ := ht.localDirect r hr l hl
  obtain ⟨rd, hrd⟩ := ht.get l.dst hmem
  obtain ⟨-, rd', hrd', -, hhost⟩ := (hdirect l.dst rd.host).mpr ⟨hmem, rd, hrd, htype rd hrd, rfl⟩
  unfold Routing.mac?
  simp only [hrd, hrd', Option.bind_some, hhost]

/-! ## Return codes -/

section Code

variable {own : OwnMap} {me : EtherAddr} {ret : Int} (hs : Sound env s L) (hme : s.mac? env L = some me)
include hs hme

/-- `rt_dhost_add_link` refuses only a peer with local's MAC. -/
theorem linkDhost_code {d : Nat} {rttUs : UInt32} {now : Timeval}
    (h : s.linkDhost q env (.env (.dp d)) rttUs now = .ok (ret, s')) :
    ret = (RtOp.dhostAddLink d rttUs now).code env own me := by
  have ht := hs.table
  obtain ⟨ip, hip⟩ : ∃ ip, env (.dp d) = some ip := linkDhost_addr h ht
  simp only [RtOp.code, hip, Option.map_some, Option.some.injEq]
  by_cases hself : ip.mac = me
  · rw [if_pos hself]
    subst hself
    obtain ⟨i, m, hL, hm, hf, hi⟩ := ht.find_local
    obtain rfl : m = ip.mac := Option.some.inj ((macOf_eq_ok.mp hm).symm.trans hme)
    have hipd : HostPtr.deref env (.env (.dp d)) = some ip := hip
    unfold linkDhost at h
    simp only [hL, hm, hf, ok_bind, itemAt_eq_ok.mpr hi, ipOf_eq_ok.mpr hipd, if_true] at h
    cases h
    rfl
  · rw [if_neg hself]
    have hne : s.mac? env L ≠ some ip.mac := by
      rw [hme]
      exact fun he => hself (Option.some.inj he).symm
    obtain ⟨s1, h1, -⟩ := linkDhost_zero (q := q) ht hs.allocs hip hne rttUs now
    cases h.symm.trans h1
    rfl

omit hme in
/-- `rt_dhost_remove` refuses only a peer that local has no link to. -/
theorem unlinkDhost_code {dmac : EtherAddr} (ho : Owns env s L own)
    (h : s.unlinkDhost env dmac = .ok (ret, s')) : ret = (RtOp.dhostRemove dmac).code env own me := by
  have ht := hs.table
  obtain ⟨i, m, hL, hm, hf, hi⟩ := ht.find_local
  obtain ⟨r, -, hg, -⟩ := ht.local_live
  have hsome : (own dmac).isSome ↔ ∃ l ∈ r.links.items, s.mac? env l.dst = some dmac := by
    rw [Option.isSome_iff_exists]
    constructor
    · rintro ⟨v, hv⟩
      obtain ⟨l, hl, hlm, -⟩ := (ownLink_of_get hg).mp ((ho dmac v).mpr hv)
      exact ⟨l, hl, hlm⟩
    · rintro ⟨l, hl, hlm⟩
      exact ⟨_, (ho dmac _).mp ((ownLink_of_get hg).mpr ⟨l, hl, hlm, rfl⟩)⟩
  unfold unlinkDhost at h
  simp only [hL, hm, hf, ok_bind, itemAt_eq_ok.mpr hi, host_eq_ok.mpr hg] at h
  obtain ⟨fl, hfl, h⟩ := bind_eq_ok.mp h
  cases fl with
  | none =>
      cases h
      refine (if_neg fun hsm => ?_).symm
      obtain ⟨l, hl, hlm⟩ := hsome.mp hsm
      exact search_none (ht.localLinks_live hg) (ht.localStrict r hg).sorted hfl l hl hlm
  | some j =>
      obtain ⟨l, hj, hlm⟩ := findLink_some hfl
      have hmem := List.mem_of_getElem? hj
      simp only [hj] at h
      obtain ⟨rd, hrd, h⟩ := bind_eq_ok.mp h
      -- whom local links to is direct, and no allocation fails
      have htype : rd.type = .htDirect := (ht.localDirect r hg l hmem).2 rd (host_eq_ok.mp hrd)
      simp only [htype, ne_eq, not_true_eq_false, if_false, malloc, hs.allocs, takeAlloc, Bool.not_true,
        Bool.false_eq_true] at h
      obtain ⟨ip, -, h⟩ := bind_eq_ok.mp h
      obtain ⟨s2, -, h⟩ := bind_eq_ok.mp h
      cases h
      exact (if_pos (hsome.mpr ⟨l, hmem, hlm⟩)).symm

/-- **An operation returns what the map says.** -/
theorem Owns.code {o : RtOp} (ho : Owns env s L own) (hrun : o.run q env s = .ok (ret, s')) :
    ret = o.code env own me := by
  -- what the first phase returns is returned
  obtain ⟨s1, hphase⟩ : ∃ s1, o.phase q env s = .ok (ret, s1) := by
    rcases RtOp.run_cases hrun with ⟨-, hp⟩ | ⟨s1, r, hp, hcache, hret⟩
    · exact ⟨s', hp⟩
    · obtain ⟨hal, -⟩ := RtOp.phase_sound hp hs
      obtain ⟨rfl, -⟩ :=
        updateCache_sound hcache hal (RtOp.phase_tableOk hp hs.table) (RtOp.phase_linksOk hp hs.table hs.links)
      obtain ⟨hne, -⟩ | ⟨-, rfl⟩ := hret
      · exact absurd rfl hne
      · exact ⟨s1, hp⟩
  cases o with
  | dhostAddLink d rttUs now => exact linkDhost_code hs hme hphase
  | updateEdges edges =>
      obtain ⟨s2, h2, -⟩ := mergeEdges_ok (q := q) hs.table hs.links hs.allocs edges
      cases hphase.symm.trans h2
      rfl
  | dhostRemove dmac => exact unlinkDhost_code hs ho hphase

end Code

/-! ## Runs -/

/-- **Step lemma.** -/
theorem Owns.op {own : OwnMap} {o : RtOp} {ret : Int} (h : Owns env s L own) (hs : Sound env s L)
    (hrun : o.run q env s = .ok (ret, s')) : Owns env s' L (if ret = 0 then o.after env own else own) := by
  have ht := hs.table
  obtain ⟨-, ⟨hret, rfl⟩ | ⟨rfl, -⟩⟩ := RtOp.sound hrun hs
  · rw [if_neg hret]
    exact h
  · rw [if_pos rfl]
    obtain ⟨s1, s2, s3, hphase, htrim, hcomp, hexp⟩ := RtOp.run_zero hrun
    have h1 : Owns env s1 L (o.after env own) := by
      cases o with
      | dhostAddLink d rttUs now => exact ((linkDhost_run hphase).phase ht).owns ht h
      | updateEdges edges =>
          apply h.kept ht
          · exact (mergeEdges_tableOk hphase ht).2.localRec
          · exact fun _ _ => mergeEdges_directAt hphase
      | dhostRemove dmac => exact ((unlinkDhost_run hphase).phase ht).owns ht h
    have ht1 := RtOp.phase_tableOk hphase ht
    obtain ⟨-, -, hL, hdirect⟩ := updateCache_directAt htrim hcomp hexp (Or.inr ht1)
    exact h1.kept ht1 hL hdirect

/-- **Step lemma.** Matrices do not matter. -/
theorem Owns.forward {own : OwnMap} {srcMac dstMac : EtherAddr} {f : Forwards} (h : Owns env s L own)
    (hrun : s.rtDhostsToHost env srcMac dstMac = .ok (f, s')) : Owns env s' L own := by
  have hsame : Same s s' := by
    have hfit : ∀ {s1}, Fits env s s1 → Same s s1 := fun hf => hf.same
    cases rtDhostsToHost_run hrun with
    | stale _ hcomp _ => exact (computePaths_cases hcomp).1
    | noLocal hf => exact hfit hf
    | looked hf _ _ _ hbranch => exact (hfit hf).trans (branch_cases hbranch).same
  intro m v
  rw [hsame.ownLink]
  exact h m v

/-- In the beginning there are no links. -/
theorem Fledgling.owns (h : Fledgling env s L) : Owns env s L fun _ => none := by
  obtain ⟨r, hr, -, hnil⟩ := h.local_
  intro m v
  rw [ownLink_of_get hr, hnil]
  constructor
  · rintro ⟨l, hl, -⟩
    cases hl
  · exact nofun

/-- **Run lemma.** -/
theorem OwnRun.sound {own : OwnMap} (h : OwnRun q env own s) : ∃ L, Sound env s L ∧ Owns env s L own := by
  induction h with
  | start h =>
      obtain ⟨L, hf, hal⟩ := started_cases h
      exact ⟨L, ⟨hal rfl, hf.table, hf.linksOk, Or.inl hf.unset⟩, hf.owns⟩
  | op _ hrun ih =>
      obtain ⟨L, hs, ho⟩ := ih
      exact ⟨L, (RtOp.sound hrun hs).1, ho.op hs hrun⟩
  | forward _ hrun ih =>
      obtain ⟨L, hs, ho⟩ := ih
      exact ⟨L, forward_sound hrun hs, ho.forward hrun⟩

/-- **A node's own links are the last measurements of the peers that it has.** After every run without allocation
    failures, whatever its calls were given and returned: local's record has a link with a measurement to a
    MAC if and only if the map says so that the successful calls make, in their order; and the map decides what
    the next operation returns. -/
theorem ownRun_links {own : OwnMap} (h : OwnRun q env own s) : ∃ L me, s.localHost = some L ∧
    s.mac? env L = some me ∧ (∀ m v, OwnLink env s L m v ↔ own m = some v) ∧
    ∀ (o : RtOp) ret s', o.run q env s = .ok (ret, s') → ret = o.code env own me := by
  obtain ⟨L, hs, ho⟩ := h.sound
  obtain ⟨me, (hme : s.mac? env L = some me)⟩ := hs.table.live L hs.table.localMem
  exact ⟨L, me, hs.table.isLocal, hme, ho, fun o ret s' hrun => ho.code hs hme hrun⟩

/-- Host `0` of the line measures the link to its peer twice, with link state of the peer in between. -/
theorem ownRun_links_line : ∃ own s L, OwnRun .insertion lineExt own s ∧ s.localHost = some L ∧
    own (lineHost 1).mac = some (20, 3000) ∧ OwnLink lineExt s L (lineHost 1).mac (20, 3000) ∧
    ∀ ret s', s.rtDhostRemove lineExt (lineHost 2).mac = .ok (ret, s') → ret = 1 := by
  have hrun : (do
      let s ← runFrom .insertion lineExt []
      let a ← (RtOp.dhostAddLink 0 10 ⟨0, 0⟩).run .insertion lineExt s
      let b ← (RtOp.updateEdges [packEdge (lineHost 1) (lineHost 2) 10 5]).run .insertion lineExt a.2
      let c ← (RtOp.dhostAddLink 0 20 ⟨3, 0⟩).run .insertion lineExt b.2
      pure (a.1, b.1, c.1)) = Except.ok (0, 0, 0) := by
    decide +kernel
  obtain ⟨s, hs, hrun⟩ := bind_eq_ok.mp hrun
  obtain ⟨⟨_, s1⟩, h1, hrun⟩ := bind_eq_ok.mp hrun
  obtain ⟨⟨_, s2⟩, h2, hrun⟩ := bind_eq_ok.mp hrun
  obtain ⟨⟨_, s3⟩, h3, hrun⟩ := bind_eq_ok.mp hrun
  cases hrun
  have hstart : OwnRun .insertion lineExt (fun _ => none) s := by
    obtain ⟨⟨ret, s0⟩, h0, hs⟩ := bind_eq_ok.mp hs
    by_cases hret : ret = 0
    · subst hret
      cases hs
      exact .start ⟨_, rfl, h0⟩
    · simp only [ne_eq, hret, not_false_eq_true, if_true] at hs
      cases hs
  have hown := ((hstart.op h1).op h2).op h3
  obtain ⟨L, me, hL, -, ho, hcode⟩ := ownRun_links hown
  refine ⟨_, s3, L, hown, hL, ?_, (ho _ _).mpr ?_, fun ret s' hr => ?_⟩
  · decide
  · decide
  · -- the map has no entry for that host
    have hret := hcode (.dhostRemove (lineHost 2).mac) ret s' hr
    simp only [RtOp.code] at hret
    rw [hret]
    apply if_neg
    decide

end Routing

end P2pVn
