import P2pVn.Routing.MergeView
import P2pVn.Routing.Peering

/-!
# `Routing.GivingUp` — what a table phase leaves when it gives up

An operation whose table phase fails returns without `update_cache`, so it had better leave the links as they
were. `rt_dhost_add_link` and `rt_dhost_remove` do, unless they added a host. A merge that fails part way does
not: by then it may have wiped a known host's links.

Whether it can is decided by the batch, the table before the call and the outcomes of the allocations. As long
as every MAC is known, a merge adds no host, so `spared` can follow it on the table before the call: the group
that the edge belongs to (`groupAt`), and the array of its links, as far as it has to grow.

- `Opening.step`: one iteration, as long as no host was added.
- `mergeEdges_spared`: a spared merge that gives up has added a host or left every link.
-/

namespace P2pVn
open CUb

namespace Da

variable {α : Type}

/-- The array without its elements: how many there are, and how many there is room for. -/
def slots (d : Da α) : Da Unit := ⟨List.replicate d.ct (), d.mem⟩

@[simp] theorem ct_slots (d : Da α) : d.slots.ct = d.ct := List.length_replicate

/-- Whether an append fails depends on the slots only. -/
theorem addToEnd_slots (d : Da α) (item : α) (al : AllocScript) :
    d.slots.addToEnd () al
      = ((d.addToEnd item al).1, (d.addToEnd item al).2.1.slots, (d.addToEnd item al).2.2) := by
  have hsnoc : ∀ n, List.replicate n () ++ [()] = List.replicate (n + 1) () := fun n =>
    List.replicate_succ'.symm
  have hct : ∀ mem, (⟨d.items ++ [item], mem⟩ : Da α).slots = ⟨List.replicate d.ct () ++ [()], mem⟩ := by
    intro mem
    rw [slots, ct, List.length_append, hsnoc]
    rfl
  unfold addToEnd
  rw [ct_slots]
  show (if d.ct + 1 > d.mem then _ else _) = _
  split
  · obtain ⟨⟨ok, al'⟩, h⟩ : ∃ r, takeAlloc al = r := ⟨_, rfl⟩
    simp only [h]
    cases ok with
    | false => rfl
    | true =>
        simp only [if_true, hct]
        rfl
  · simp only [hct]
    rfl

/-- Rearranging elements does not change the slots. -/
theorem slots_withItems (d : Da α) {l : List α} (h : l.Perm d.items) : (d.withItems l).slots = d.slots := by
  rw [slots, slots, ct, ct, items_withItems, h.length_eq]
  rfl

end Da

namespace Routing

variable {env : ExtMem} {q : Qsort} {s s' : Routing} {m m' : MergeState}

/-! ## Tables with one graph -/

/-- The destinations and weights of a record's links. -/
def linkRtts (s : Routing) (id : HostId) : Option (List (HostId × UInt32)) :=
  (s.recs.get id).map fun r => r.links.items.map fun l => (l.dst, l.rttUs)

/-- The two states hold the same graph: hosts, MACs, destinations and weights. -/
structure SameLinks (env : ExtMem) (s s' : Routing) : Prop where
  hosts : s'.hosts.items = s.hosts.items
  mac : ∀ id, s'.mac? env id = s.mac? env id
  links : ∀ id, s'.linkRtts id = s.linkRtts id

theorem SameLinks.ct (h : SameLinks env s s') : s'.hosts.ct = s.hosts.ct := by rw [Da.ct, h.hosts, Da.ct]

theorem Same.linkRtts (h : Same s s') (id : HostId) : s'.linkRtts id = s.linkRtts id := by
  unfold Routing.linkRtts
  rw [h.get]

theorem Same.sameLinks (h : Same s s') : SameLinks env s s' := ⟨h.hosts, h.mac?, h.linkRtts⟩

/-! ## The two operations on local's links -/

/-- `rt_dhost_add_link` that gives up has added a host, or left every link and every MAC. -/
theorem LinkRun.gaveUp {p : HostPtr} {rttUs : UInt32} {now : Timeval} {ret : Int}
    (h : LinkRun q env s p rttUs now ret s') (hret : ret ≠ 0) (hct : s'.hosts.ct = s.hosts.ct) :
    SameLinks env s s' := by
  cases h with
  | refused => exact (Same.refl _).sameLinks
  | notAdded hadd hne =>
      obtain ⟨-, ⟨-, hsame⟩ | ⟨h0, -⟩⟩ := hostAdd_cases hadd
      · exact hsame.sameLinks
      · exact absurd h0 hne
  | added _ _ _ hadd _ _ hlink =>
      have h1 := hadd.ct_lt
      have h2 := (linkAdd_frame hlink).2.ct_le
      omega
  | @joined sh shRec dst dstRec s1 _ _ _ _ hip _ _ _ hmac hget hs1 hlink =>
      have hsame := linkAdd_failed hlink hret
      subst hs1
      split at hsame
      · -- the peer's record was promoted, which changes neither its MAC nor its links
        refine ⟨hsame.hosts, fun id => (hsame.mac? id).trans ?_, fun id => (hsame.linkRtts id).trans ?_⟩
        · exact mac?_store_of_eq hget
            (show ({ dstRec with host := p, type := .htDirect : RtHost }.host.deref env).map Ipv4Host.mac = _ from
              mac_promote hip hmac hget) id
        · unfold linkRtts
          rw [get_store hget]
          split
          · rename_i he
            rw [he, hget]
            rfl
          · rfl
      · exact hsame.sameLinks
  | refreshed => exact absurd rfl hret

/-- So has `rt_dhost_remove`. -/
theorem UnlinkRun.gaveUp {dmac : EtherAddr} {ret : Int} (h : UnlinkRun env s dmac ret s') (hret : ret ≠ 0) :
    SameLinks env s s' := by
  cases h with
  | refused _ _ hs => exact hs.sameLinks
  | removed => exact absurd rfl hret

/-! ## A merge as long as every MAC is known -/

/-- `find_host_by_addr`, and the record that it finds. -/
def known (env : ExtMem) (s : Routing) (mac : EtherAddr) : Option RtHost :=
  match s.findHostByAddr env mac with
  | .ok (some i) => (s.hosts.items[i]?).bind s.recs.get
  | _ => none

/-- A group of edges of one source: either it is skipped, or its source's links were wiped and are added anew,
    to an array with these slots. -/
inductive Group where
  | refused (src : EtherAddr)
  | merged (src : EtherAddr) (links : Da Unit)

def Group.src : Group → EtherAddr
  | refused src => src
  | merged src _ => src

/-- The group that the edge belongs to, after one of group `g`; none if its source is not known. -/
def groupAt (env : ExtMem) (s : Routing) (g : Option Group) (e : PktEdge) : Option Group :=
  if g.map Group.src = some (pktIpv4Unpack e.src).mac then g
  else (s.known env (pktIpv4Unpack e.src).mac).map fun h =>
    if h.type ≠ .htLocal ∧ h.lMaxTsMs < ntohll e.tsMs then
      .merged (pktIpv4Unpack e.src).mac h.links.clear.slots
    else .refused (pktIpv4Unpack e.src).mac

/-- The allocations that `host_add` makes for a direct peer that the table does not know. -/
def hostAddAllocs (s : Routing) : Nat := if s.hosts.ct + 1 > s.hosts.mem then 3 else 2

/-- **No allocation fails between the first wiped links and the first new host.** The sorted edges are gone
    through on the table as it is before the merge, up to the first one that names an unknown host; `wiped`
    tells whether links were wiped by then, `al` are the outcomes of the allocations from here on. From the
    first wiped links on, none that is made for a longer array of links may fail, nor any for the record of an
    unknown source. (After an unknown destination there is one more host, or the call does not return.) -/
def spared (env : ExtMem) (s : Routing) : List PktEdge → Option Group → Bool → AllocScript → Bool
  | [], _, _, _ => true
  | e :: es, g, wiped, al =>
    if (pktIpv4Unpack e.src).mac = (pktIpv4Unpack e.dst).mac then spared env s es g wiped al
    else match s.groupAt env g e with
      | none => !wiped || (al.take (s.hostAddAllocs + 1)).all id
      | some (.refused src) => spared env s es (some (.refused src)) wiped al
      | some (.merged src links) =>
        if (s.known env (pktIpv4Unpack e.dst).mac).isNone then true
        else
          let (fail, links, al) := links.addToEnd () al
          !fail && spared env s es (some (.merged src links)) true al

/-! ### The loop follows it -/

/-- Sources in order, as `qsort` leaves them. -/
def SrcSorted (es : List PktEdge) : Prop :=
  es.Pairwise fun e1 e2 => e1.src.mac = e2.src.mac ∨ MacLt e1.src.mac e2.src.mac

/-- The loop is in group `g`. -/
def InGroup (env : ExtMem) (s : Routing) (m : MergeState) : Option Group → Prop
  | none => m.curHostSrc = none ∧ m.contToNewSrc = false
  | some (.refused src) => m.curHostSrc ≠ none ∧ m.curIpSrc = src ∧ m.contToNewSrc = true
  | some (.merged src links) => m.curIpSrc = src ∧ m.contToNewSrc = false ∧
    ∃ id r, m.curHostSrc = some id ∧ s.mac? env id = some src ∧ m.rd.recs.get id = some r ∧ r.links.slots = links

/-- **The invariant of the loop while every MAC is known**: no host was added, the records of the sources to come
    are as they were, and so are all links as long as none was wiped. -/
structure Opening (env : ExtMem) (s : Routing) (m : MergeState) (es : List PktEdge) (g : Option Group)
    (wiped : Bool) (al : AllocScript) : Prop where
  hosts : m.rd.hosts = s.hosts
  mac : ∀ id, m.rd.mac? env id = s.mac? env id
  allocs : m.rd.allocs = al
  clean : wiped = false → ∀ id, m.rd.linkRtts id = s.linkRtts id
  kept : ∀ e ∈ es, g.map Group.src ≠ some e.src.mac → ∀ id, s.mac? env id = some e.src.mac →
    m.rd.recs.get id = s.recs.get id
  sorted : SrcSorted es
  after : ∀ src, g.map Group.src = some src → ∀ e ∈ es, src = e.src.mac ∨ MacLt src e.src.mac
  group : InGroup env s m g

variable {es : List PktEdge} {e : PktEdge} {g : Option Group} {wiped : Bool} {al : AllocScript} {ret : Int}

/-- An edge of the same source belongs to the same group. -/
theorem groupAt_same (h : g.map Group.src = some (pktIpv4Unpack e.src).mac) : s.groupAt env g e = g := if_pos h

theorem Opening.sameLinks (h : Opening env s m es g false al) : SameLinks env s m.rd :=
  ⟨congrArg Da.items h.hosts, h.mac, h.clean rfl⟩

theorem Opening.tail (h : Opening env s m (e :: es) g wiped al) : Opening env s m es g wiped al :=
  ⟨h.hosts, h.mac, h.allocs, h.clean, fun e he => h.kept e (List.mem_cons_of_mem _ he), h.sorted.of_cons,
    fun src hs e he => h.after src hs e (List.mem_cons_of_mem _ he), h.group⟩

/-- Searches by MAC find what they found before. -/
theorem findHost_congr (hh : s'.hosts = s.hosts) (hm : ∀ id, s'.mac? env id = s.mac? env id) (mac : EtherAddr) :
    s'.findHostByAddr env mac = s.findHostByAddr env mac := by
  have hmac : s'.macOf env = s.macOf env := by
    funext id
    rw [macOf, macOf, hm]
  rw [findHostByAddr, findHostByAddr, hmac, hh]

/-- A `host_add` whose allocations succeed adds a host that is not there. -/
theorem hostAdd_granted {ip : Ipv4Host} {nh : HostId}
    (h : s.hostAdd q env (.heap ip) .htNormal = .ok (ret, nh, s'))
    (hnew : s.findHostByAddr env ip.mac = .ok none)
    (hal : ∀ b ∈ s.allocs.take (s.hostAddAllocs + 1), b = true) : ret = 0 := by
  have hsucc : s.hostAddAllocs + 1 = (if s.hosts.ct + 1 > s.hosts.mem then 1 else 0) + 1 + 1 + 1 := by
    unfold hostAddAllocs
    split <;> rfl
  rw [hsucc] at hal
  -- the record, its links and the address
  obtain ⟨al1, h1, hal1⟩ := takeAlloc_granted hal
  obtain ⟨al2, h2, hal2⟩ := takeAlloc_granted hal1
  obtain ⟨al3, h3, hal3⟩ := takeAlloc_granted hal2
  have hip : ipOf env (.heap ip) = .ok ip := rfl
  -- and room for one more host, where there is none
  have hroom : ∀ nh : HostId, ∃ d al4, s.hosts.addToEnd nh al3 = (false, d, al4) := by
    intro nh
    by_cases hfull : s.hosts.ct + 1 > s.hosts.mem
    · rw [if_pos hfull] at hal3
      obtain ⟨d, al4, hadd, -⟩ := s.hosts.addToEnd_granted nh hal3
      exact ⟨d, al4, hadd⟩
    · exact ⟨_, _, by rw [Da.addToEnd, if_neg hfull]⟩
  obtain ⟨d, al4, hadd⟩ := hroom s.recs.fresh
  unfold hostAdd hostAlloc malloc Da.init at h
  simp only [hip, ok_bind, hnew, h1, h2, h3, Bool.not_true, Bool.false_eq_true, if_false, reduceCtorEq,
    or_self, pure_bind, ne_eq, not_true_eq_false] at h
  obtain ⟨⟨r, s1⟩, hins, h⟩ := bind_eq_ok.mp h
  unfold hostInsertUnchecked at hins
  simp only [hadd, Bool.false_eq_true, if_false] at hins
  obtain ⟨items, -, hins⟩ := bind_eq_ok.mp hins
  cases hins
  cases h
  rfl

/-- **A link is added to the array that the group has.** -/
theorem Opening.addLink {src : EtherAddr} {links : Da Unit} {cur dst : HostId} {rttUs : UInt32} {tsMs : UInt64}
    (h : Opening env s m es (some (.merged src links)) wiped al) (hcur : m.curHostSrc = some cur)
    {fail : Bool} {links' : Da Unit} {al' : AllocScript} (hadd : links.addToEnd () al = (fail, links', al'))
    (hfail : fail = false) (hrun : m.rd.linkAdd q env cur dst rttUs tsMs = .ok (ret, s')) :
    ret = 0 ∧ Opening env s { m with rd := s' } es (some (.merged src links')) true al' := by
  obtain ⟨hsrc, hcont, id, r, hid, hmac, hget, hslots⟩ := h.group
  obtain rfl := Option.some.inj (hcur.symm.trans hid)
  obtain ⟨r0, hr0, hrun⟩ := bind_eq_ok.mp hrun
  obtain rfl : r0 = r := Option.some.inj ((host_eq_ok.mp hr0).symm.trans hget)
  have hroom := r0.links.addToEnd_slots ⟨dst, rttUs, tsMs⟩ al
  rw [hslots, hadd] at hroom
  rw [h.allocs] at hrun
  obtain ⟨⟨fail0, d0, al0⟩, hreal⟩ : ∃ x, r0.links.addToEnd ⟨dst, rttUs, tsMs⟩ al = x := ⟨_, rfl⟩
  rw [hreal] at hroom
  cases hroom
  subst hfail
  simp only [hreal, Bool.false_eq_true, if_false] at hrun
  obtain ⟨items, hsort, hrun⟩ := bind_eq_ok.mp hrun
  cases hrun
  have hother : ∀ j, j ≠ cur → ∀ r', (m.rd.store cur r').recs.get j = m.rd.recs.get j := fun j hj r' => by
    rw [get_store hget, if_neg hj]
  refine ⟨rfl, h.hosts, fun j => ?_, rfl, nofun, fun e he hne j hj => ?_, h.sorted, h.after, hsrc, hcont, cur, _,
    hcur, hmac, (get_store hget _ cur).trans (if_pos rfl), ?_⟩
  · exact (mac?_store_of_eq hget (by rfl) j).trans (h.mac j)
  · -- a source to come is another host
    refine (hother j (fun he' => hne ?_) _).trans (h.kept e he hne j hj)
    rw [he', hmac] at hj
    exact hj
  · exact Da.slots_withItems _ (sortBy_perm hsort)

/-- What an iteration comes to while no host was added before it: it adds one, or gives up with all links as they
    were, or goes on. -/
inductive Opened (env : ExtMem) (s : Routing) (es : List PktEdge) (m' : MergeState) : Int → Prop
  | grown {ret : Int} (hlt : s.hosts.ct < m'.rd.hosts.ct) : Opened env s es m' ret
  | gaveUp {ret : Int} (hret : ret ≠ 0) (hsame : SameLinks env s m'.rd) : Opened env s es m' ret
  | goesOn {g : Option Group} {wiped : Bool} {al : AllocScript} (h : Opening env s m' es g wiped al)
      (hsp : spared env s es g wiped al = true) : Opened env s es m' 0

/-- What the search finds is known, with a record. -/
theorem findHost_known {mac : EtherAddr} {i : Nat} (h : s.findHostByAddr env mac = .ok (some i)) :
    ∃ id r, s.hosts.items[i]? = some id ∧ s.mac? env id = some mac ∧ s.recs.get id = some r ∧
      s.known env mac = some r := by
  obtain ⟨id, hid, hm⟩ := findHost_some h
  obtain ⟨r, -, hr, -⟩ := get_of_mac? hm
  refine ⟨id, r, hid, hm, hr, ?_⟩
  rw [known, h]
  simp only [hid, Option.bind_some, hr]

/-- One edge that is merged: a host is added, or the link. -/
theorem Opening.merge {src : EtherAddr} {links : Da Unit} {cur : HostId} {dst : Ipv4Host} {rttUs : UInt32}
    {tsMs : UInt64} (h : Opening env s m es (some (.merged src links)) wiped al) (hcur : m.curHostSrc = some cur)
    (hsp : (if (s.known env dst.mac).isNone then true
      else
        let (fail, links, al) := links.addToEnd () al
        !fail && spared env s es (some (.merged src links)) true al) = true)
    (hrun : mergeLink q env m cur dst rttUs tsMs = .ok (ret, m')) : Opened env s es m' ret := by
  unfold mergeLink at hrun
  obtain ⟨found, hfound, hrun⟩ := bind_eq_ok.mp hrun
  cases found with
  | none =>
      obtain ⟨⟨r1, nh, s1⟩, hadd, hrun⟩ := bind_eq_ok.mp hrun
      obtain ⟨-, ⟨hr, -⟩ | ⟨rfl, ⟨ha⟩⟩⟩ := hostAdd_cases hadd
      · simp only [ne_eq, hr, not_false_eq_true, if_true] at hrun
        cases hrun
      · simp only [ne_eq, not_true_eq_false, if_false] at hrun
        obtain ⟨⟨r2, s2⟩, hlink, hrun⟩ := bind_eq_ok.mp hrun
        cases hrun
        have h1 := ha.ct_lt
        have h2 := (linkAdd_frame hlink).2.ct_le
        rw [h.hosts] at h1
        exact .grown (Nat.lt_of_lt_of_le h1 h2)
  | some i =>
      obtain ⟨id, hid, hrun⟩ := bind_eq_ok.mp hrun
      obtain ⟨⟨r2, s2⟩, hlink, hrun⟩ := bind_eq_ok.mp hrun
      cases hrun
      rw [findHost_congr h.hosts h.mac] at hfound
      obtain ⟨id', r, -, -, -, hknown⟩ := findHost_known hfound
      rw [hknown, Option.isNone_some, if_neg Bool.false_ne_true] at hsp
      obtain ⟨⟨fail, links', al'⟩, hadd⟩ : ∃ x, links.addToEnd () al = x := ⟨_, rfl⟩
      rw [hadd] at hsp
      simp only [Bool.and_eq_true, Bool.not_eq_true'] at hsp
      obtain ⟨rfl, hnext⟩ := h.addLink hcur hadd hsp.1 hlink
      exact .goesOn hnext hsp.2

/-! ### A new source -/

/-- The sources to come are this one, or others than the ones before; those have the records that they had. -/
theorem Opening.kept_tail (h : Opening env s m (e :: es) g wiped al) : ∀ e' ∈ es, e.src.mac ≠ e'.src.mac →
    ∀ id, s.mac? env id = some e'.src.mac → m.rd.recs.get id = s.recs.get id := by
  intro e' he' hne id hid
  refine h.kept e' (List.mem_cons_of_mem _ he') (fun hold => ?_) id hid
  have hse := (List.rel_of_pairwise_cons h.sorted he').resolve_left hne
  rcases h.after _ hold e List.mem_cons_self with heq | hlt
  · exact hne heq.symm
  · exact hse.asymm hlt

theorem Opening.after_head (h : Opening env s m (e :: es) g wiped al) {g' : Group} (hsrc : g'.src = e.src.mac) :
    ∀ src, (some g').map Group.src = some src → ∀ e' ∈ es, src = e'.src.mac ∨ MacLt src e'.src.mac := by
  intro src hs e' he'
  obtain rfl := Option.some.inj hs
  rw [hsrc]
  exact List.rel_of_pairwise_cons h.sorted he'

/-- A source that is not known: its host is added, or cannot be while nothing has changed. -/
theorem Opening.admit {src : Ipv4Host} {nh : HostId} (h : Opening env s m es g wiped al)
    (hnone : s.findHostByAddr env src.mac = .ok none)
    (hsp : wiped = true → ∀ b ∈ al.take (s.hostAddAllocs + 1), b = true)
    (hadd : m.rd.hostAdd q env (.heap src) .htNormal = .ok (ret, nh, s')) :
    (ret = 0 ∧ s.hosts.ct < s'.hosts.ct) ∨ (ret ≠ 0 ∧ SameLinks env s s') := by
  rcases (hostAdd_cases hadd).2 with ⟨hne, hsame⟩ | ⟨hr, ⟨ha⟩⟩
  · -- an allocation failed, so no links were wiped
    have hclean : wiped = false := by
      by_contra hw
      refine hne (hostAdd_granted hadd ?_ ?_)
      · rw [findHost_congr (s := s) h.hosts h.mac, hnone]
      · rw [hostAddAllocs, h.hosts, h.allocs]
        exact hsp (by simpa using hw)
    subst hclean
    have hs := h.sameLinks
    exact Or.inr ⟨hne, hsame.hosts.trans hs.hosts, fun id => (hsame.mac? id).trans (hs.mac id),
      fun id => (hsame.linkRtts id).trans (hs.links id)⟩
  · have hlt := ha.ct_lt
    rw [h.hosts] at hlt
    exact Or.inl ⟨hr, hlt⟩

/-- A known source that is older has its links wiped. -/
theorem Opening.wipe {id : HostId} {r : RtHost} (h : Opening env s m (e :: es) g wiped al)
    (hm : s.mac? env id = some e.src.mac) (hget : m.rd.recs.get id = some r) :
    Opening env s ⟨m.rd.store id { r with links := r.links.clear }, e.src.mac, some id, false⟩ es
      (some (.merged e.src.mac r.links.clear.slots)) true al := by
  have hother : ∀ j, j ≠ id → ∀ r', (m.rd.store id r').recs.get j = m.rd.recs.get j := fun j hj r' => by
    rw [get_store hget, if_neg hj]
  refine ⟨h.hosts, fun j => ?_, h.allocs, nofun, fun e' he' hne j hj => ?_, h.sorted.of_cons, h.after_head rfl, rfl,
    rfl, id, _, rfl, hm, (get_store hget _ id).trans (if_pos rfl), rfl⟩
  · exact (mac?_store_of_eq hget (by rfl) j).trans (h.mac j)
  · have hne' : e.src.mac ≠ e'.src.mac := fun he => hne (congrArg some he)
    refine (hother j (fun he => hne' ?_) _).trans (h.kept_tail e' he' hne' j hj)
    rw [he, hm] at hj
    exact Option.some.inj hj

/-- Any other known source has its group skipped. -/
theorem Opening.refuse {id : HostId} (h : Opening env s m (e :: es) g wiped al) :
    Opening env s ⟨m.rd, e.src.mac, some id, true⟩ es (some (.refused e.src.mac)) wiped al :=
  ⟨h.hosts, h.mac, h.allocs, h.clean, fun e' he' hne => h.kept_tail e' he' fun he => hne (congrArg some he),
    h.sorted.of_cons, h.after_head rfl, nofun, rfl, rfl⟩

/-- What the look-up of a new source comes to, with the record that its links go to. -/
inductive Entered (env : ExtMem) (s : Routing) (es : List PktEdge) (e : PktEdge) (g : Option Group) (wiped : Bool)
    (al : AllocScript) (m' : MergeState) : Int → Option HostId → Prop
  | grown {cur : HostId} (hlt : s.hosts.ct < m'.rd.hosts.ct) : Entered env s es e g wiped al m' 0 (some cur)
  | gaveUp {ret : Int} {go : Option HostId} (hret : ret ≠ 0) (hsame : SameLinks env s m'.rd) :
      Entered env s es e g wiped al m' ret go
  | refused (hgroup : s.groupAt env g e = some (.refused e.src.mac))
      (h : Opening env s m' es (some (.refused e.src.mac)) wiped al) : Entered env s es e g wiped al m' 0 none
  | wiped {cur : HostId} {links : Da Unit} (hcur : m'.curHostSrc = some cur)
      (hgroup : s.groupAt env g e = some (.merged e.src.mac links))
      (h : Opening env s m' es (some (.merged e.src.mac links)) true al) :
      Entered env s es e g wiped al m' 0 (some cur)

/-- **A new source**: its host is added, or cannot be while nothing has changed; or its group is skipped; or its
    links are wiped. -/
theorem Opening.enter {go : Option HostId} (h : Opening env s m (e :: es) g wiped al)
    (hnew : g.map Group.src ≠ some e.src.mac)
    (hsp : s.groupAt env g e = none → wiped = true → ∀ b ∈ al.take (s.hostAddAllocs + 1), b = true)
    (hrun : newSource q env { m with contToNewSrc := false } (pktIpv4Unpack e.src) (ntohll e.tsMs) = .ok (ret, go, m')) :
    Entered env s es e g wiped al m' ret go := by
  have hgroup : s.groupAt env g e = (s.known env (pktIpv4Unpack e.src).mac).map fun h =>
      if h.type ≠ .htLocal ∧ h.lMaxTsMs < ntohll e.tsMs then
        .merged (pktIpv4Unpack e.src).mac h.links.clear.slots
      else .refused (pktIpv4Unpack e.src).mac := if_neg hnew
  unfold newSource at hrun
  obtain ⟨found, hfound, hrun⟩ := bind_eq_ok.mp hrun
  rw [findHost_congr (s := s) h.hosts h.mac] at hfound
  cases found with
  | none =>
      have hnone : s.groupAt env g e = none := by rw [hgroup, known, hfound, Option.map_none]
      obtain ⟨⟨r1, nh, s1⟩, hadd, hrun⟩ := bind_eq_ok.mp hrun
      rcases h.admit hfound (hsp hnone) hadd with ⟨rfl, hlt⟩ | ⟨hne, hsame⟩
      · cases hrun
        exact .grown hlt
      · simp only [ne_eq, hne, not_false_eq_true, if_true] at hrun
        cases hrun
        exact .gaveUp (by decide) hsame
  | some i =>
      obtain ⟨id, hid, hrun⟩ := bind_eq_ok.mp hrun
      obtain ⟨r, hr, hrun⟩ := bind_eq_ok.mp hrun
      obtain ⟨id', r', hid', hm, hr', hknown⟩ := findHost_known hfound
      have hitem := itemAt_eq_ok.mp hid
      rw [h.hosts] at hitem
      obtain rfl := Option.some.inj (hid'.symm.trans hitem)
      -- the record is as it was before the merge
      have hget := host_eq_ok.mp hr
      obtain rfl := Option.some.inj (hget.symm.trans ((h.kept e List.mem_cons_self hnew id' hm).trans hr'))
      rw [hknown, Option.map_some] at hgroup
      split at hrun
      · rename_i hc
        cases hrun
        rw [if_pos hc] at hgroup
        exact .wiped rfl hgroup (h.wipe hm hget)
      · rename_i hc
        cases hrun
        rw [if_neg hc] at hgroup
        exact .refused hgroup h.refuse

/-! ### One iteration -/

/-- The loop skips an edge only in a group that is refused, -/
theorem Opening.skips (h : Opening env s m es g wiped al) {mac : EtherAddr} (hcont : m.contToNewSrc = true)
    (hsrc : mac = m.curIpSrc) : g = some (.refused mac) := by
  have hgr := h.group
  match g with
  | none => exact absurd hcont (by rw [hgr.2]; exact Bool.false_ne_true)
  | some (.refused src) => rw [← hgr.2.1, hsrc]
  | some (.merged src links) => exact absurd hcont (by rw [hgr.2.1]; exact Bool.false_ne_true)

/-- looks a source up only where its group begins, -/
theorem Opening.looks (h : Opening env s m es g wiped al) {mac : EtherAddr}
    (hskip : ¬ (m.contToNewSrc = true ∧ mac = m.curIpSrc)) (hnew : m.curHostSrc = none ∨ mac ≠ m.curIpSrc) :
    g.map Group.src ≠ some mac := by
  have hgr := h.group
  intro hg
  match g with
  | some (.refused src) =>
      obtain rfl := Option.some.inj hg
      exact hskip ⟨hgr.2.2, hgr.2.1.symm⟩
  | some (.merged src links) =>
      obtain rfl := Option.some.inj hg
      obtain ⟨hip, -, id, r, hid, -⟩ := hgr
      rcases hnew with hnone | hne
      · rw [hid] at hnone
        cases hnone
      · exact hne hip.symm

/-- and stays with a source only in a group that is merged. -/
theorem Opening.sameSource (h : Opening env s m es g wiped al) {mac : EtherAddr} {cur : HostId}
    (hskip : ¬ (m.contToNewSrc = true ∧ mac = m.curIpSrc)) (hcur : m.curHostSrc = some cur) (hsrc : mac = m.curIpSrc) :
    ∃ links, g = some (.merged mac links) := by
  have hgr := h.group
  match g with
  | none =>
      rw [hgr.1] at hcur
      cases hcur
  | some (.refused src) => exact absurd ⟨hgr.2.2, hsrc⟩ hskip
  | some (.merged src links) => exact ⟨links, by rw [hsrc, hgr.1]⟩

/-- **Step lemma.** One iteration, as long as no host was added. -/
theorem Opening.step (h : Opening env s m (e :: es) g wiped al) (hsp : spared env s (e :: es) g wiped al = true)
    (hrun : mergeEdge q env m e = .ok (ret, m')) : Opened env s es m' ret := by
  unfold mergeEdge at hrun
  unfold spared at hsp
  simp only at hrun
  split at hrun
  · -- an edge from a host to itself
    rename_i hself
    cases hrun
    rw [if_pos hself] at hsp
    exact .goesOn h.tail hsp
  rename_i hself
  rw [if_neg hself] at hsp
  split at hrun
  · -- an edge of a group that is skipped
    rename_i hskip
    cases hrun
    obtain rfl := h.skips hskip.1 hskip.2
    rw [groupAt_same rfl] at hsp
    exact .goesOn h.tail hsp
  rename_i hskip
  by_cases hnew : m.curHostSrc.isNone = true ∨ (pktIpv4Unpack e.src).mac ≠ m.curIpSrc
  · -- the first edge of a group
    rw [if_pos hnew] at hrun
    have hg := h.looks hskip (by simpa using hnew)
    obtain ⟨⟨r1, go, m1⟩, hready, hrun⟩ := bind_eq_ok.mp hrun
    have hfail : s.groupAt env g e = none → wiped = true → ∀ b ∈ al.take (s.hostAddAllocs + 1), b = true := by
      intro hnone hw
      rw [hnone, hw] at hsp
      simpa using hsp
    cases h.enter hg hfail hready with
    | grown hlt =>
        obtain ⟨id, s1, r, s2, hdst, hlink, -, rfl⟩ := mergeLink_cases hrun
        have h1 := hdst.frame.2.ct_le
        have h2 := (linkAdd_frame hlink).2.ct_le
        exact .grown (Nat.lt_of_lt_of_le hlt (Nat.le_trans h1 h2))
    | gaveUp hne hsame =>
        simp only [ne_eq, hne, not_false_eq_true, if_true] at hrun
        cases hrun
        exact .gaveUp hne hsame
    | refused hgroup hnext =>
        cases hrun
        rw [hgroup] at hsp
        exact .goesOn hnext hsp
    | wiped hcur hgroup hnext =>
        rw [hgroup] at hsp
        exact hnext.merge hcur hsp hrun
  · -- the next edge of a group that is merged
    rw [if_neg hnew] at hrun
    simp only [not_or, Bool.not_eq_true, Option.isNone_eq_false_iff, Option.isSome_iff_exists,
      Decidable.not_not] at hnew
    obtain ⟨⟨cur, hcur⟩, hsame⟩ := hnew
    simp only [pure_eq_ok, ok_bind, ne_eq, not_true_eq_false, if_false, hcur] at hrun
    obtain ⟨links, rfl⟩ := h.sameSource hskip hcur hsame
    rw [groupAt_same rfl] at hsp
    have hm : ({ m with contToNewSrc := false, curHostSrc := some cur } : MergeState) = m := by
      rw [← hcur, ← h.group.2.1]
    rw [hm] at hrun
    exact h.tail.merge hcur hsp hrun

/-- **Run lemma.** A spared loop that gives up has added a host or left every link. -/
theorem Opening.loop : ∀ (es : List PktEdge) {m : MergeState} {g : Option Group} {wiped : Bool} {al : AllocScript},
    Opening env s m es g wiped al → spared env s es g wiped al = true → mergeLoop q env es m = .ok (ret, m') →
    ret ≠ 0 → s.hosts.ct < m'.rd.hosts.ct ∨ SameLinks env s m'.rd := by
  intro es
  induction es with
  | nil =>
      intro m g wiped al _ _ hrun hret
      cases hrun
      exact absurd rfl hret
  | cons e es ih =>
      intro m g wiped al h hsp hrun hret
      obtain ⟨⟨r1, m1⟩, h1, hrun⟩ := bind_eq_ok.mp hrun
      cases h.step hsp h1 with
      | grown hlt =>
          left
          by_cases hr : r1 = 0
          · simp only [hr, ne_eq, not_true_eq_false, if_false] at hrun
            exact Nat.lt_of_lt_of_le hlt (mergeLoop_frame hrun).2.ct_le
          · simp only [ne_eq, hr, not_false_eq_true, if_true] at hrun
            cases hrun
            exact hlt
      | gaveUp hne hsame =>
          simp only [ne_eq, hne, not_false_eq_true, if_true] at hrun
          cases hrun
          exact Or.inr hsame
      | goesOn hnext hsp' =>
          simp only [ne_eq, not_true_eq_false, if_false] at hrun
          exact ih hnext hsp' hrun hret

/-- The merge of the batch is spared: the sorted edges, from the start, with the outcomes to come. -/
def MergeSpared (q : Qsort) (env : ExtMem) (s : Routing) (edges : List PktEdge) : Prop :=
  spared env s (q.sort pktEdgesCmpSrc edges) none false s.allocs = true

/-- **A spared merge that gives up has added a host or left every link.** -/
theorem mergeEdges_spared {edges : List PktEdge} (hsp : MergeSpared q env s edges)
    (h : s.mergeEdges q env edges = .ok (ret, s')) (hret : ret ≠ 0) :
    s.hosts.ct < s'.hosts.ct ∨ SameLinks env s s' := by
  obtain ⟨m', hm, rfl⟩ := mergeEdges_loop h
  refine Opening.loop _ ?_ hsp hm hret
  exact ⟨rfl, fun _ => rfl, rfl, fun _ _ => rfl, fun _ _ _ _ _ => rfl,
    (sorted_edges q edges).imp fun h => h.imp_left And.left, nofun, rfl, rfl⟩

end Routing

end P2pVn
