import P2pVn.Routing.Exported
import P2pVn.Routing.Freeing
import P2pVn.Routing.NewestWins

/-!
# `Routing.Representation` — the representation invariant in runs of the operations

Without allocation failures the operations keep `RepOk` but for two defects: a batch that names a destination
twice in a group that is merged leaves two links to it, and a host that is trimmed from the middle of the table
is not freed, its neighbour is. `RtOp.Careful` says of the arguments of a call and of the table before it that
neither happens.

- **Step lemma.** `RtOp.finishes`: a careful call returns, and leaves everybody's links strictly ordered.
- **Run lemma.** `CarefulRun.strict`.
-/

namespace P2pVn
open CUb GroupedMerge

namespace Routing

variable {env : ExtMem} {q : Qsort} {s s' s1 : Routing} {L : HostId} {edges : List PktEdge} {x : EtherAddr}

/-! ## Careful calls -/

/-- The table has a host with this MAC. -/
def Knows (env : ExtMem) (s : Routing) (x : EtherAddr) : Prop := ∃ id r, HostWith env s x id r

/-- `acc` holds of the sources whose groups are merged: the greatest time stamp of the group, as it lies in the
    packet, is newer than what is known of the source; of a source that is not known, only one without a time
    stamp is refused, and only if a source that is merged before names it. -/
def Takes (env : ExtMem) (s : Routing) (edges : List PktEdge) (acc : EtherAddr → Prop) : Prop :=
  ∀ x, acc x ↔ ∃ e ∈ groupOf edges x, (∀ e' ∈ groupOf edges x, e'.tsMs ≤ e.tsMs) ∧
    (∀ id r, HostWith env s x id r → r.type ≠ .htLocal ∧ r.lMaxTsMs < ntohll e.tsMs) ∧
    (Knows env s x ∨ 0 < edgeStream.ts e ∨
      ¬ ∃ y, MacLt y x ∧ acc y ∧ ∃ e' ∈ groupOf edges y, edgeStream.dst e' = x)

namespace RtOp

/-- No group that is merged has two edges to one destination. -/
def NamesOnce (env : ExtMem) (s : Routing) : RtOp → Prop
  | updateEdges edges => ∀ acc, Takes env s edges acc → ∀ x, acc x →
    (groupOf edges x).Pairwise fun e e' => edgeStream.dst e ≠ edgeStream.dst e'
  | _ => True

/-- The call gets to `update_cache` with the hosts that the table had. -/
def KeepsHosts (env : ExtMem) (s : Routing) : RtOp → Prop
  | dhostAddLink d _ _ => ∃ ip id r, env (.dp d) = some ip ∧ HostWith env s ip.mac id r ∧ r.type ≠ .htLocal
  | updateEdges edges => ∃ acc, Takes env s edges acc ∧
    ∀ x, acc x → Knows env s x ∧ ∀ e ∈ groupOf edges x, Knows env s (edgeStream.dst e)
  | dhostRemove dmac => ∃ L id, s.localHost = some L ∧ LocalTo s L id ∧ s.mac? env id = some dmac

/-- The type by then of a host of the table. -/
def typeAfter (env : ExtMem) : RtOp → EtherAddr → HostType → HostType
  | dhostAddLink d _ _, m, .htNormal => if (env (.dp d)).map Ipv4Host.mac = some m then .htDirect else .htNormal
  | dhostRemove dmac, m, .htDirect => if dmac = m then .htNormal else .htDirect
  | _, _, type => type

/-- Of the hosts that are disconnected in the matrix, only the last is a normal one by then. -/
def TrimsLast (env : ExtMem) (s : Routing) (op : RtOp) : Prop :=
  ∀ srcI, s.hosts.items[srcI]? = s.localHost → ∀ i ≠ srcI, s.path.entry srcI i = .ok 0 →
    ∀ id m r, s.hosts.items[i]? = some id → HostWith env s m id r → op.typeAfter env m r.type = .htNormal →
      i + 1 = s.hosts.ct

/-- The call reaches neither defect. -/
structure Careful (env : ExtMem) (s : Routing) (op : RtOp) : Prop where
  once : op.NamesOnce env s
  last : op.KeepsHosts env s → op.TrimsLast env s

/-- The peer that the call is for is there. -/
def Valid (env : ExtMem) : RtOp → Prop
  | dhostAddLink d _ _ => ∃ ip, env (.dp d) = some ip
  | _ => True

end RtOp

/-- The states that careful calls reach without allocation failures. -/
inductive CarefulRun (q : Qsort) (env : ExtMem) : Routing → Prop where
  | start {s1 : Routing} (h : Started q env [] s1) : CarefulRun q env s1
  | op {s1 s2 : Routing} {o : RtOp} {ret : Int} (h : CarefulRun q env s1) (hc : o.Careful env s1)
      (hrun : o.run q env s1 = .ok (ret, s2)) : CarefulRun q env s2

/-- These runs are runs without allocation failures. -/
theorem CarefulRun.reach (h : CarefulRun q env s) : Reach q env [] s := by
  induction h with
  | start h => exact .start h
  | op _ _ hrun ih => exact ih.op hrun

/-! ## Merging -/

theorem namedBefore_sort {acc : EtherAddr → Prop} :
    NamedBefore edgeStream MacLt (q.sort pktEdgesCmpSrc edges) acc x ↔
      ∃ y, MacLt y x ∧ acc y ∧ ∃ e ∈ groupOf edges y, edgeStream.dst e = x := by
  unfold NamedBefore
  simp only [(group_sort q edges _).mem_iff]

namespace Merged

variable {tab0 : EtherAddr → Option (Entry LinkView)} {acc : EtherAddr → Prop}
  {tab : EtherAddr → Option (Entry LinkView)} (h : Merged q env s L edges s1 tab0 acc tab)
include h

/-- The groups that were merged are those that the batch and the table say. -/
theorem takes : Takes env s edges acc := by
  intro x
  constructor
  · intro hacc
    have hne : groupOf edges x ≠ [] := by
      intro h0
      exact h.outcome.sub x hacc (List.perm_nil.mp (h0 ▸ group_sort q edges x))
    obtain ⟨f, hf, hmem, hmax⟩ := first_of_group q hne
    refine ⟨f, hmem, hmax, fun id r hx => ?_, ?_⟩
    · obtain ⟨a, ha, hd⟩ := h.shows0.entry h.before.table hx
      obtain ⟨hfix, hlt⟩ := (h.outcome.decided x a f ha hf).mp hacc
      rw [hd.fixed] at hfix
      rw [hd.newest] at hlt
      exact ⟨of_decide_eq_false hfix, UInt64.lt_iff_toNat_lt.mpr hlt⟩
    · cases h0 : tab0 x with
      | some a =>
          obtain ⟨id, r, hx, -⟩ := h.shows0.host h0
          exact Or.inl ⟨id, r, hx⟩
      | none =>
          right
          rw [← namedBefore_sort (q := q)]
          exact (h.outcome.welcome x f h0 hf).mp hacc
  · rintro ⟨e, he, hmax, hold, hnew⟩
    obtain ⟨f, hf, hmem, hmaxf⟩ := first_of_group q (List.ne_nil_of_mem he)
    -- edges of equal time stamps decide alike
    have hts : f.tsMs = e.tsMs := UInt64.le_antisymm (hmax f hmem) (hmaxf e he)
    have htsf : edgeStream.ts f = edgeStream.ts e := congrArg (fun t => (ntohll t).toNat) hts
    cases h0 : tab0 x with
    | some a =>
        obtain ⟨id, r, hx, hd⟩ := h.shows0.host h0
        obtain ⟨htype, hlt⟩ := hold id r hx
        refine (h.outcome.decided x a f h0 hf).mpr ⟨?_, ?_⟩
        · rw [hd.fixed]
          exact decide_eq_false htype
        · rw [hd.newest, htsf]
          exact UInt64.lt_iff_toNat_lt.mp hlt
    | none =>
        refine (h.outcome.welcome x f h0 hf).mpr ?_
        rw [htsf, namedBefore_sort]
        refine hnew.resolve_left ?_
        rintro ⟨id, r, hx⟩
        exact h.absent_iff.mp h0 id r hx

/-- **Merging keeps links strictly ordered** where no group that is merged names a destination twice. -/
theorem linksOk (hl : LinksOk MacLt env s)
    (hone : ∀ x, acc x → (groupOf edges x).Pairwise fun e e' => edgeStream.dst e ≠ edgeStream.dst e') :
    LinksOk MacLt env s1 := by
  refine ⟨h.after.links.dst, fun id hid r hr => ?_⟩
  obtain ⟨x, (hx : s1.mac? env id = some x)⟩ := h.after.table.live id hid
  have hat : HostWith env s1 x id r := ⟨hid, hx, hr⟩
  by_cases hacc : acc x
  · -- merged: one link for each edge
    obtain ⟨id1, r1, hx1, hlinks, -⟩ := h.newestLinks hacc (hone x hacc)
    obtain ⟨rfl, rfl⟩ := h.after.table.hostWith_inj hat hx1
    refine MacSorted.strict (h.after.links.ordered id hid r hr) (hlinks.one.imp ?_)
    intro a b hne m hm hm'
    exact hne (hm.trans hm'.symm)
  · by_cases hknown : Knows env s x
    · obtain ⟨id0, r0, hx0⟩ := hknown
      obtain ⟨rfl, rfl⟩ := h.after.table.hostWith_inj hat (h.host_kept hx0 hacc)
      refine (hl.ordered id hx0.mem r hx0.get).congr fun l hlm => ?_
      obtain ⟨m, (hm : s.mac? env l.dst = some m)⟩ := h.before.table.live l.dst (hl.dst id hx0.mem r hx0.get l hlm).1
      rw [hm, h.keeps.mac hm]
    · rw [h.made_host (fun id r hx => hknown ⟨id, r, hx⟩) hacc hat]
      exact List.Pairwise.nil

/-- Where no host was added, everybody that the merged groups name was known. -/
theorem knows (hitems : s1.hosts.items = s.hosts.items) (hacc : acc x) :
    Knows env s x ∧ ∀ e ∈ groupOf edges x, Knows env s (edgeStream.dst e) := by
  have hback : ∀ {y id}, id ∈ s1.hosts.items → s1.mac? env id = some y → Knows env s y := by
    intro y id hid hy
    rw [hitems] at hid
    obtain ⟨m, (hm : s.mac? env id = some m)⟩ := h.before.table.live id hid
    obtain ⟨r, hr⟩ := h.before.table.get id hid
    obtain rfl : m = y := Option.some.inj ((h.keeps.mac hm).symm.trans hy)
    exact ⟨id, r, hid, hm, hr⟩
  obtain ⟨id1, r1, hx1, hperm, -⟩ := h.taken_host hacc
  refine ⟨hback hx1.mem hx1.mac, fun e he => ?_⟩
  -- the link that was made of the edge leads to a host of the table
  obtain ⟨l, hl, hle⟩ := List.mem_map.mp (hperm.mem_iff.mpr (List.mem_map_of_mem he))
  exact hback (h.after.links.dst id1 hx1.mem r1 hx1.get l hl).1 (congrArg Prod.fst hle)

end Merged

/-! ## The first phase -/

namespace RtOp

variable {op : RtOp} {ret : Int}

/-- **The first phase of a careful call keeps links strictly ordered.** -/
theorem phase_strict (hp : op.phase q env s = .ok (ret, s1)) (hs : Sound env s L) (hl : LinksOk MacLt env s)
    (honce : op.NamesOnce env s) : LinksOk MacLt env s1 := by
  cases op with
  | dhostAddLink d rttUs now => exact ((linkDhost_run hp).phase hs.table).linksOk (fun _ _ h => h) hs.table hl
  | updateEdges edges =>
      obtain ⟨s2, hp', -⟩ := mergeEdges_ok (q := q) hs.table hs.links hs.allocs edges
      cases hp.symm.trans hp'
      obtain ⟨tab0, h0⟩ := exists_shows env s
      obtain ⟨acc, tab, hm⟩ := Intact.merged ⟨hs.table, hs.links⟩ h0 hp
      exact hm.linksOk hl (honce acc hm.takes)
  | dhostRemove dmac => exact ((unlinkDhost_run hp).phase hs.table).linksOk hs.table hl

/-- **It does not fault.** -/
theorem phase_ok (hs : Sound env s L) (hv : op.Valid env) : ∃ ret s1, op.phase q env s = .ok (ret, s1) := by
  cases op with
  | dhostAddLink d rttUs now =>
      obtain ⟨ip, hip⟩ := hv
      obtain ⟨ret, s1, h, -⟩ := linkDhost_ok (q := q) hs.table hs.allocs hip rttUs now
      exact ⟨ret, s1, h⟩
  | updateEdges edges =>
      obtain ⟨s1, h, -⟩ := mergeEdges_ok (q := q) hs.table hs.links hs.allocs edges
      exact ⟨0, s1, h⟩
  | dhostRemove dmac =>
      obtain ⟨ret, s1, h, -⟩ := unlinkDhost_ok hs.table hs.allocs dmac
      exact ⟨ret, s1, h⟩

end RtOp

/-- A host that is added makes the table larger. -/
theorem HostAdded.length_items {p : HostPtr} {type : HostType} {nh : HostId} (ha : HostAdded env s p type nh s') :
    s'.hosts.items.length = s.hosts.items.length + 1 := by
  rw [ha.perm.length_eq, List.length_append, List.length_singleton]

/-- What a phase that returned `0` and added no host shows of the table before it. -/
structure Kept (env : ExtMem) (s s1 : Routing) (op : RtOp) : Prop where
  keeps : op.KeepsHosts env s
  /-- The normal hosts are those that the call says. -/
  normal : ∀ m id r r1, HostWith env s m id r → s1.recs.get id = some r1 → r1.type = .htNormal →
    op.typeAfter env m r.type = .htNormal

/-- The peer was there, as `dst`: it is no normal host by then, and nobody else's type changed. -/
structure PeerThere (env : ExtMem) (s s1 : Routing) (d : Nat) (dst : HostId) : Prop where
  host : ∃ ip rd, env (.dp d) = some ip ∧ HostWith env s ip.mac dst rd ∧ rd.type ≠ .htLocal
  direct : ∀ r1, s1.recs.get dst = some r1 → r1.type ≠ .htNormal
  others : ∀ id ≠ dst, ∀ r r1, s.recs.get id = some r → s1.recs.get id = some r1 → r1.type = r.type

/-- A peer that was in the table before brings nobody in. -/
theorem PeerThere.kept {d : Nat} {rttUs : UInt32} {now : Timeval} {dst : HostId} (h : PeerThere env s s1 d dst)
    (ht : TableOk env s L) : Kept env s s1 (.dhostAddLink d rttUs now) := by
  obtain ⟨ip, rd, hip, hdst, hloc⟩ := h.host
  refine ⟨⟨ip, dst, rd, hip, hdst, hloc⟩, fun m id r r1 hx hr1 hn => ?_⟩
  have hne : id ≠ dst := by
    rintro rfl
    exact h.direct r1 hr1 hn
  have hr : r.type = .htNormal := (h.others id hne r r1 hx.get hr1).symm.trans hn
  have hmac : (env (.dp d)).map Ipv4Host.mac ≠ some m := by
    rw [hip]
    rintro ⟨⟩
    exact hne (ht.hostWith_inj hx hdst).1
  simp only [hr, RtOp.typeAfter, if_neg hmac]

/-- Adding a link changes no type. -/
theorem linkAdd_type {src dst : HostId} {rttUs : UInt32} {tsMs : UInt64} {ret : Int}
    (h : s.linkAdd q env src dst rttUs tsMs = .ok (ret, s1)) {id : HostId} {r1 : RtHost}
    (hr1 : s1.recs.get id = some r1) : ∃ r, s.recs.get id = some r ∧ r1.type = r.type := by
  obtain ⟨-, ⟨-, hsame⟩ | ⟨-, ⟨ha⟩⟩⟩ := linkAdd_cases h
  · exact ⟨r1, (hsame.get id).symm.trans hr1, rfl⟩
  · by_cases hid : id = src
    · rw [ha.getRec, if_pos hid] at hr1
      obtain rfl := Option.some.inj hr1
      exact ⟨ha.before, hid ▸ ha.get, ha.type⟩
    · rw [ha.getRec, if_neg hid] at hr1
      exact ⟨r1, hr1, rfl⟩

theorem linkAdd_items {src dst : HostId} {rttUs : UInt32} {tsMs : UInt64} {ret : Int}
    (h : s.linkAdd q env src dst rttUs tsMs = .ok (ret, s1)) : s1.hosts.items = s.hosts.items := by
  obtain ⟨-, ⟨-, hs⟩ | ⟨-, ⟨ha⟩⟩⟩ := linkAdd_cases h
  · exact hs.hosts
  · exact ha.hosts

/-- **A phase that returned `0`** has added the peer, which was not there, or the peer was there. -/
theorem LinkPhase.peer {d : Nat} {rttUs : UInt32} {now : Timeval} (h : LinkPhase q env s L d rttUs now 0 s1)
    (ht : TableOk env s L) :
    ((∃ ip, env (.dp d) = some ip ∧ s.findHostByAddr env ip.mac = .ok none) ∧
      s1.hosts.items.length = s.hosts.items.length + 1) ∨
    (s1.hosts.items = s.hosts.items ∧ ∃ dst, PeerThere env s s1 d dst) := by
  generalize hret0 : (0 : Int) = ret0 at h
  cases h with
  | refused hret _ => exact absurd hret (by omega)
  | added hadd hp hlink =>
      refine Or.inl ⟨⟨hadd.ip, hadd.addr, hadd.absent⟩, ?_⟩
      rw [linkAdd_items hlink]
      exact hadd.length_items
  -- the host that was promoted was normal before and is direct now
  | @promoted dst dstRec _ _ ip hip hmem hmac hget hn hp hlink =>
      have hitems : s1.hosts.items = s.hosts.items := (linkAdd_items hlink).trans rfl
      refine Or.inr ⟨hitems, dst, ⟨ip, dstRec, hip, ⟨hmem, hmac, hget⟩, by rw [hn]; decide⟩, fun r1 hr1 => ?_,
        fun id hne r r1 hr hr1 => ?_⟩
      · obtain ⟨r, hr, htype⟩ := linkAdd_type hlink hr1
        rw [htype, hp.direct r hr]
        decide
      · obtain ⟨r', hr', htype⟩ := linkAdd_type hlink hr1
        rw [get_store hget, if_neg hne, hr] at hr'
        rw [htype, Option.some.inj hr']
  | @joined dst _ _ ip hip hmac hp hlink =>
      obtain ⟨rd, hrd⟩ := ht.get dst hp.mem
      refine Or.inr ⟨linkAdd_items hlink, dst, ⟨ip, rd, hip, ⟨hp.mem, hmac, hrd⟩, by rw [hp.direct rd hrd]; decide⟩,
        fun r1 hr1 => ?_, fun id _ r r1 hr hr1 => ?_⟩
      · obtain ⟨r, hr, htype⟩ := linkAdd_type hlink hr1
        rw [htype, hp.direct r hr]
        decide
      · obtain ⟨r', hr', htype⟩ := linkAdd_type hlink hr1
        rw [hr] at hr'
        rw [htype, Option.some.inj hr']
  | @refreshed r0 l i ip hip hg hi hmac =>
      obtain ⟨hmem, hdir⟩ := ht.localDirect r0 hg l (List.mem_of_getElem? hi)
      obtain ⟨rd, hrd⟩ := ht.get l.dst hmem
      have hne : l.dst ≠ L := ht.direct_ne_local hrd (by rw [hdir rd hrd]; decide)
      refine Or.inr ⟨rfl, l.dst, ⟨ip, rd, hip, ⟨hmem, hmac, hrd⟩, by rw [hdir rd hrd]; decide⟩, fun r1 hr1 => ?_,
        fun id _ r r1 hr hr1 => ?_⟩
      · rw [get_store hg, if_neg hne] at hr1
        rw [hdir r1 hr1]
        decide
      · rw [get_store hg] at hr1
        split at hr1
        · rename_i hid
          obtain rfl := Option.some.inj hr1
          rw [hid, hg] at hr
          show r0.type = r.type
          rw [Option.some.inj hr]
        · rw [hr] at hr1
          rw [Option.some.inj hr1]

/-- If no host comes in, `rt_dhost_add_link` has changed local's links only. -/
theorem LinkPhase.kept {d : Nat} {rttUs : UInt32} {now : Timeval} (h : LinkPhase q env s L d rttUs now 0 s1)
    (ht : TableOk env s L) (hitems : s1.hosts.items = s.hosts.items) : Kept env s s1 (.dhostAddLink d rttUs now) := by
  obtain ⟨-, hlen⟩ | ⟨-, dst, hd⟩ := h.peer ht
  · rw [hitems] at hlen
    omega
  · exact hd.kept ht

/-- **A phase that returned `0`** has made the peer a normal host, and no other host's type is changed. -/
theorem UnlinkPhase.peer {dmac : EtherAddr} (h : UnlinkPhase env s L dmac 0 s1) (ht : TableOk env s L) :
    ∃ dst rd, LocalTo s L dst ∧ HostWith env s dmac dst rd ∧ rd.type = .htDirect ∧ s1.hosts.items = s.hosts.items ∧
      ∀ id r r1, s.recs.get id = some r → s1.recs.get id = some r1 →
        r1.type = if id = dst then .htNormal else r.type := by
  generalize hret0 : (0 : Int) = ret0 at h
  cases h with
  | refused hret _ => exact absurd hret0.symm hret
  | @removed r0 i l h ip _ hg hi hmac hget hd hip hs =>
      have hl : l ∈ r0.links.items := List.mem_of_getElem? hi
      have hne : l.dst ≠ L := ht.direct_ne_local hget (by rw [hd]; decide)
      have hget' : (s.store L { r0 with links := r0.links.remove i }).recs.get l.dst = some h := by
        rw [get_store hg, if_neg hne, hget]
      refine ⟨l.dst, h, ⟨r0, hg, l, hl, rfl⟩, ⟨(ht.localDirect r0 hg l hl).1, hmac, hget⟩, hd, hs.hosts,
        fun id r r1 hr hr1 => ?_⟩
      rw [hs.get, get_store hget', get_store hg] at hr1
      split at hr1
      · rename_i hid
        rw [if_pos hid, ← Option.some.inj hr1]
      · rename_i hid
        rw [if_neg hid]
        split at hr1
        · rename_i hidL
          have hrL : r = r0 := Option.some.inj (hr.symm.trans (hidL ▸ hg))
          rw [← Option.some.inj hr1, hrL]
        · rw [hr] at hr1
          rw [Option.some.inj hr1]

/-- So has `rt_dhost_remove`. -/
theorem UnlinkPhase.kept {dmac : EtherAddr} (h : UnlinkPhase env s L dmac 0 s1) (ht : TableOk env s L) :
    Kept env s s1 (.dhostRemove dmac) := by
  obtain ⟨dst, rd, hlocal, hpeer, hdirect, -, htype⟩ := h.peer ht
  refine ⟨⟨L, dst, ht.isLocal, hlocal, hpeer.mac⟩, fun m id r r1 hx hr1 hn => ?_⟩
  rw [htype id r r1 hx.get hr1] at hn
  by_cases hid : id = dst
  · -- the peer, which was a direct one
    subst hid
    have hr : r = rd := Option.some.inj (hx.get.symm.trans hpeer.get)
    have hm : dmac = m := Option.some.inj (hpeer.mac.symm.trans hx.mac)
    simp only [hr, hdirect, RtOp.typeAfter, if_pos hm]
  · rw [if_neg hid] at hn
    rw [hn]
    rfl

/-- If no host comes in, `rt_update_edges` has changed links between hosts that were there. -/
theorem Merged.kept {tab0 : EtherAddr → Option (Entry LinkView)} {acc : EtherAddr → Prop}
    {tab : EtherAddr → Option (Entry LinkView)} (h : Merged q env s L edges s1 tab0 acc tab)
    (hitems : s1.hosts.items = s.hosts.items) : Kept env s s1 (.updateEdges edges) := by
  refine ⟨⟨acc, h.takes, fun x hacc => h.knows hitems hacc⟩, fun m id r r1 hx hr1 hn => ?_⟩
  obtain ⟨r', hr', -, htype⟩ := h.keeps.kind id r hx.get
  obtain rfl := Option.some.inj (hr'.symm.trans hr1)
  exact htype.symm.trans hn

/-- The three together. -/
theorem RtOp.phase_kept {op : RtOp} (hp : op.phase q env s = .ok (0, s1)) (hs : Sound env s L)
    (hitems : s1.hosts.items = s.hosts.items) : Kept env s s1 op := by
  cases op with
  | dhostAddLink d rttUs now => exact ((linkDhost_run hp).phase hs.table).kept hs.table hitems
  | updateEdges edges =>
      obtain ⟨tab0, h0⟩ := exists_shows env s
      obtain ⟨acc, tab, hm⟩ := Intact.merged ⟨hs.table, hs.links⟩ h0 hp
      exact hm.kept hitems
  | dhostRemove dmac => exact ((unlinkDhost_run hp).phase hs.table).kept hs.table

/-! ## The second phase -/

/-- Where a host is to be trimmed, it is the last one. -/
def LastOnly (s : Routing) : Prop :=
  ∀ srcI, s.hosts.items[srcI]? = s.localHost → ∀ i, ToTrim s srcI i → i + 1 = s.hosts.ct

theorem CacheReady.frame (h : CacheReady s) (hf : Frame s s') : CacheReady s' := by
  unfold CacheReady
  rw [hf.mCt, hf.path, hf.next]
  exact h

/-- Trimming keeps the invariant. -/
theorem RepOk.trims (hrep : RepOk env s L) (hc : CacheReady s) (hlast : s.mCt = s.hosts.ct → LastOnly s) :
    ∃ ret s', s.trimDisjointHosts env = .ok (ret, s') ∧ 0 ≤ ret ∧ RepOk env s' L ∧ Frame s s' ∧
      s'.allocs = s.allocs := by
  obtain ⟨srcI, hsrc⟩ := List.getElem?_of_mem hrep.localMem
  by_cases hct : s.mCt = s.hosts.ct
  · have hpos : 0 < s.hosts.ct := List.length_pos_of_mem hrep.localMem
    have hlt : srcI < s.hosts.ct := (List.getElem?_eq_some_iff.mp hsrc).1
    have hpath : ∀ i < s.hosts.ct, ∃ p, s.path.entry srcI i = .ok p := by
      intro i hi
      rcases hc with ⟨h0, -⟩ | ⟨g, _, hg, -⟩
      · omega
      · rw [hg, MatPtr.entry, if_pos ⟨by omega, by omega⟩]
        exact ⟨_, rfl⟩
    obtain ⟨s', h, hal, hw, -⟩ := trimLoop_exact hrep hpath (hlast hct srcI (hsrc.trans hrep.isLocal.symm)) s.hosts.ct 0
      (by omega) fun _ _ => Nat.zero_le _
    refine ⟨0, s', ?_, Int.le_refl 0, hw.repOk hrep hrep.local_not_gone, (trimLoop_frame _ _ h).1, hal⟩
    rw [trimDisjointHosts_eq hrep hsrc hct, h, ok_bind]
    rfl
  · refine ⟨1, s, ?_, by decide, hrep, Frame.refl s, rfl⟩
    rw [← trimDisjointHostsLogged_snd, trimDisjointHostsLogged_stale hrep hsrc hct]

/-- A row of the matrix has a column for every link: the links lead to different hosts. -/
theorem RepOk.length_linksAt (hrep : RepOk env s L) (i : Nat) : (s.linksAt i).length ≤ s.hosts.ct := by
  unfold linksAt
  cases hi : s.hosts.items[i]? with
  | none => exact Nat.zero_le _
  | some id =>
      have hid := List.mem_of_getElem? hi
      obtain ⟨r, hr⟩ := hrep.hosts.get id hid
      simp only [Option.bind_some, hr]
      have hstrict : MacStrict env s (fun j => j) (r.links.items.map RtLink.dst) :=
        macOrdered_map.mp (hrep.links.ordered id hid r hr)
      have hmem : ∀ j ∈ r.links.items.map RtLink.dst, j ∈ s.hosts.items := by
        intro j hj
        obtain ⟨l, hl, rfl⟩ := List.mem_map.mp hj
        exact (hrep.links.dst id hid r hr l hl).1
      have hnodup := hstrict.nodup fun j hj => hrep.hosts.live j (hmem j hj)
      rw [← List.length_map (f := RtLink.dst)]
      exact (hnodup.subperm hmem).length_le

theorem RepOk.same (hrep : RepOk env s L) (h : Same s s') : RepOk env s' L where
  hosts := ⟨h.hosts ▸ hrep.hosts.live.congr fun id _ => h.mac? id, h.hosts ▸ hrep.hosts.strict.congr fun id _ => h.mac? id⟩
  links := hrep.links.same h
  isLocal := h.localHost.trans hrep.isLocal
  localMem := h.hosts ▸ hrep.localMem
  localType r hr := hrep.localType r (h.get L ▸ hr)
  onlyLocal id hid r hr := hrep.onlyLocal id (h.hosts ▸ hid) r (h.get id ▸ hr)
  kind id hid r hr := hrep.kind id (h.hosts ▸ hid) r (h.get id ▸ hr)

/-- **`update_cache` returns `0` and keeps the invariant.** -/
theorem RepOk.updateCache_ok (hrep : RepOk env s L) (hal : s.allocs = []) (hc : CacheReady s)
    (hlast : s.mCt = s.hosts.ct → LastOnly s) : ∃ s', s.updateCache env = .ok (0, s') ∧ RepOk env s' L := by
  obtain ⟨r1, s1, htrim, hr1, hrep1, hf1, hal1⟩ := hrep.trims hc hlast
  obtain ⟨s2, hcomp, hsame2, hr2⟩ := computePaths_routed (hrep1.hosts.graphOk hrep1.links) (hc.frame hf1) (hal1.trans hal)
  obtain ⟨-, hal2⟩ := computePaths_nofail hcomp (hal1.trans hal)
  have hrep2 := hrep1.same hsame2
  have hcol : ∀ i j, j < (s2.linksAt i).length → j < s2.hosts.ct :=
    fun i j hj => Nat.lt_of_lt_of_le hj (hrep2.length_linksAt i)
  obtain ⟨s3, hexp, -⟩ := updateExportedEdges_ok hal2 fun i id hi =>
    (hrep2.hosts.graphOk hrep2.links).exportable hr2 hcol hi
  obtain ⟨he, -⟩ := updateExportedEdges_cases hexp
  refine ⟨s3, ?_, hrep2.same he.same⟩
  have h1 : ¬ r1 < 0 := by omega
  simp only [updateCache, htrim, hcomp, hexp, ok_bind, if_neg h1, Int.lt_irrefl, if_false]
  rfl

/-! ## Careful runs -/

/-- After the first phase of a careful call at most the last host is to be trimmed. -/
theorem RtOp.Careful.lastOnly {op : RtOp} (hc : op.Careful env s) (hp : op.phase q env s = .ok (0, s1))
    (hs : Sound env s L) (hct : s1.mCt = s1.hosts.ct) : LastOnly s1 := by
  obtain ⟨hf, hgrows⟩ := RtOp.phase_frame hp
  have hpos : 0 < s.hosts.ct := List.length_pos_of_mem hs.table.localMem
  have hle := hgrows.ct_le
  -- the matrices fitted before, so no host was added
  have hm : s.mCt = s.hosts.ct := by
    rcases hs.cache with hu | hr
    · have h0 := hf.mCt.trans hu.1
      omega
    · exact hr.mCt
  have hitems : s1.hosts.items = s.hosts.items := by
    refine hgrows.size.resolve_right fun hlt => ?_
    have hmct := hf.mCt
    omega
  have hkept := RtOp.phase_kept hp hs hitems
  intro srcI hsrc i htrim
  obtain ⟨hne, h0, id, r1, hid, hr1, hn⟩ := htrim
  rw [hitems, hf.localHost] at hsrc
  rw [hf.path] at h0
  rw [hitems] at hid
  have hmem := List.mem_of_getElem? hid
  obtain ⟨m, (hm : s.mac? env id = some m)⟩ := hs.table.live id hmem
  obtain ⟨r, hr⟩ := hs.table.get id hmem
  have hx : HostWith env s m id r := ⟨hmem, hm, hr⟩
  have hend := hc.last hkept.keeps srcI hsrc i hne h0 id m r hid hx (hkept.normal m id r r1 hx hr1 hn)
  rw [Da.ct, hitems]
  exact hend

/-- **Step lemma. A careful call whose first phase returns returns** the same, and keeps the invariant. -/
theorem RtOp.finishes {op : RtOp} {ret : Int} (hs : Sound env s L) (hl : LinksOk MacLt env s)
    (hc : op.Careful env s) (hp : op.phase q env s = .ok (ret, s1)) :
    ∃ s', op.run q env s = .ok (ret, s') ∧ RepOk env s' L := by
  have hrep1 : RepOk env s1 L :=
    (RtOp.phase_tableOk hp hs.table).repOk (RtOp.phase_strict hp hs hl hc.once)
  rw [RtOp.run_eq, hp]
  by_cases hret : ret = 0
  · subst hret
    obtain ⟨hal, -⟩ := RtOp.phase_sound hp hs
    obtain ⟨hf, -⟩ := RtOp.phase_frame hp
    obtain ⟨s', hcache, hrep'⟩ := hrep1.updateCache_ok hal (hs.cacheReady.frame hf) (hc.lastOnly hp hs)
    exact ⟨s', by simp [hcache], hrep'⟩
  · exact ⟨s1, by simp [hret], hrep1⟩

/-- **Run lemma.** -/
theorem CarefulRun.strict (h : CarefulRun q env s) : LinksOk MacLt env s := by
  induction h with
  | start h =>
      obtain ⟨L, hf, -⟩ := started_cases h
      exact hf.linksOk
  | @op s1 s2 o ret h hc hrun hl =>
      obtain ⟨L, hs⟩ := h.reach.sound
      have hrun' := hrun
      rw [RtOp.run_eq] at hrun'
      obtain ⟨⟨r, s1'⟩, hp, -⟩ := bind_eq_ok.mp hrun'
      -- the call that returned is the one that keeps the invariant
      obtain ⟨s', hfin, hrep⟩ := RtOp.finishes hs hl hc hp
      cases hrun.symm.trans hfin
      exact hrep.links

/-- **The representation invariant.** In every run of careful calls, without allocation failures, every state
    satisfies it: the hosts strictly ordered by MAC, everybody's links strictly ordered by destination MAC and
    leading to other hosts of the table, and one local record, which is local's. And the run goes on: the next
    careful call does not fault. -/
theorem CarefulRun.represents (h : CarefulRun q env s) : ∃ L, RepOk env s L ∧
    ∀ op : RtOp, op.Valid env → op.Careful env s → ∃ ret s', op.run q env s = .ok (ret, s') := by
  obtain ⟨L, hs⟩ := h.reach.sound
  have hl := h.strict
  refine ⟨L, hs.table.repOk hl, fun op hv hc => ?_⟩
  obtain ⟨r, s1, hp⟩ := RtOp.phase_ok (q := q) hs hv
  obtain ⟨s', hrun, -⟩ := RtOp.finishes hs hl hc hp
  exact ⟨r, s', hrun⟩

/-! ## Runs on fixed inputs -/

/-- From a state of one host nothing is trimmed. -/
theorem Fledgling.trimsLast (h : Fledgling env s L) (op : RtOp) : op.TrimsLast env s := by
  intro srcI hsrc i hne _ id m r hid _ _
  rw [h.hosts] at hsrc hid
  rw [h.table.isLocal] at hsrc
  have h0 : ∀ {j : Nat} {id : HostId}, [L][j]? = some id → j = 0 := by
    intro j id hj
    match j, hj with
    | 0, _ => rfl
  exact absurd ((h0 hid).trans (h0 hsrc).symm) hne

/-- A batch of one edge names nobody twice. -/
theorem namesOnce_single (env : ExtMem) (s : Routing) (e : PktEdge) : (RtOp.updateEdges [e]).NamesOnce env s :=
  fun _ _ _ _ => (List.pairwise_singleton _ _).sublist List.filter_sublist

/-- The line is a careful run. -/
theorem represents_line : ∃ s, CarefulRun .insertion lineExt s ∧ s.hosts.items = [0, 1, 2] ∧
    ∃ L, RepOk lineExt s L ∧
      ∀ op : RtOp, op.Valid lineExt → op.Careful lineExt s → ∃ ret s', op.run .insertion lineExt s = .ok (ret, s') := by
  have hrun : (do
      let a ← (rtInit []).2.rtLhostAdd .insertion lineExt (.env .lhost)
      let b ← (RtOp.dhostAddLink 0 10 ⟨0, 0⟩).run .insertion lineExt a.2
      let c ← (RtOp.updateEdges [packEdge (lineHost 1) (lineHost 2) 10 5]).run .insertion lineExt b.2
      pure ((a.1, b.2.hosts.items, b.2.localHost), b.2.recs, c.2.hosts.items)) = Except.ok ((0, [0, 1], some 0),
        ⟨[some ⟨.env .lhost, .htLocal, 0, ⟨[⟨1, 10, 0⟩], 8⟩⟩, some ⟨.env (.dp 0), .htDirect, 0, ⟨[], 8⟩⟩]⟩,
        [0, 1, 2]) := by
    decide +kernel
  obtain ⟨⟨ret, s0⟩, h0, hrun⟩ := bind_eq_ok.mp hrun
  obtain ⟨⟨ret1, s1⟩, h1, hrun⟩ := bind_eq_ok.mp hrun
  obtain ⟨⟨ret2, s2⟩, h2, hrun⟩ := bind_eq_ok.mp hrun
  simp only [pure_eq_ok, Except.ok.injEq, Prod.mk.injEq] at hrun
  obtain ⟨⟨rfl, hitems, hlocal⟩, hrecs, hhosts⟩ := hrun
  have hstart : Started .insertion lineExt [] s0 := ⟨_, rfl, h0⟩
  obtain ⟨L, hf, -⟩ := started_cases hstart
  have hc0 : (RtOp.dhostAddLink 0 10 ⟨0, 0⟩).Careful lineExt s0 := ⟨trivial, fun _ => hf.trimsLast _⟩
  have hr1 := (CarefulRun.start hstart).op hc0 h1
  have htrims : (RtOp.updateEdges [packEdge (lineHost 1) (lineHost 2) 10 5]).TrimsLast lineExt s1 := by
    intro srcI hsrc i hne _ id m r hid hx hn
    rw [hitems] at hsrc hid
    rw [hlocal] at hsrc
    have hi : i < 2 := (List.getElem?_eq_some_iff.mp hid).1
    have hsrcI : srcI < 2 := (List.getElem?_eq_some_iff.mp hsrc).1
    obtain rfl | rfl : i = 0 ∨ i = 1 := by omega
    · obtain rfl : srcI = 1 := by omega
      cases hsrc
    · -- a direct peer
      cases hid
      have hr := hx.get
      rw [hrecs] at hr
      cases hr
      cases hn
  have hr2 := hr1.op ⟨namesOnce_single _ _ _, fun _ => htrims⟩ h2
  exact ⟨s2, hr2, hhosts, hr2.represents⟩

/-- **A batch with one edge twice leaves two links to one host**; and a call that trims a host in the middle of
    the table does not return: the record it frees is the neighbour's, whose address is not its own. -/
theorem represents_lost :
    (∃ s, runFrom .insertion lineExt [.dhostAddLink 0 10 ⟨0, 0⟩, .updateEdges
        [packEdge (lineHost 1) (lineHost 2) 10 5, packEdge (lineHost 1) (lineHost 2) 10 5]] = .ok s ∧
      ∀ L, ¬ RepOk lineExt s L) ∧
    ∃ s, runFrom .insertion starExt starOps = .ok s ∧
      ∀ ret s', (RtOp.updateEdges []).run .insertion starExt s ≠ .ok (ret, s') := by
  constructor
  · have hrun : (do
        let s ← runFrom .insertion lineExt [.dhostAddLink 0 10 ⟨0, 0⟩, .updateEdges
          [packEdge (lineHost 1) (lineHost 2) 10 5, packEdge (lineHost 1) (lineHost 2) 10 5]]
        pure (s.hosts.items, s.recs)) = Except.ok ([0, 1, 2],
          ⟨[some ⟨.env .lhost, .htLocal, 0, ⟨[⟨1, 10, 0⟩], 8⟩⟩,
            some ⟨.env (.dp 0), .htDirect, 5, ⟨[⟨2, 10, 5⟩, ⟨2, 10, 5⟩], 8⟩⟩,
            some ⟨.heap (lineHost 2), .htNormal, 0, ⟨[], 8⟩⟩]⟩) := by
      decide +kernel
    obtain ⟨s, hs, hrun⟩ := bind_eq_ok.mp hrun
    simp only [pure_eq_ok, Except.ok.injEq, Prod.mk.injEq] at hrun
    obtain ⟨hitems, hrecs⟩ := hrun
    refine ⟨s, hs, fun L hrep => ?_⟩
    have hmac : s.mac? lineExt 2 = some (lineHost 2).mac := by rw [mac?, hrecs]; rfl
    have hord := hrep.links.ordered 1 (by rw [hitems]; decide) _ (by rw [hrecs]; rfl)
    exact MacLt.irrefl _ ((List.pairwise_cons.mp hord).1 ⟨2, 10, 5⟩ (List.mem_singleton.mpr rfl) _ _ hmac hmac)
  · have hrun : (do
        let s ← runFrom .insertion starExt starOps
        pure ((RtOp.updateEdges []).run .insertion starExt s).isOk) = Except.ok false := by
      decide +kernel
    obtain ⟨s, hs, hrun⟩ := bind_eq_ok.mp hrun
    simp only [pure_eq_ok, Except.ok.injEq] at hrun
    refine ⟨s, hs, fun ret s' h => ?_⟩
    rw [h] at hrun
    cases hrun

end Routing

end P2pVn
