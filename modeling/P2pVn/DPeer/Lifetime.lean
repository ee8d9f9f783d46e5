import P2pVn.DPeer.Threads
import P2pVn.Routing.Aliasing

/-!
# `DPeer.Lifetime` — no reference to a freed peer

When `dp_cleanup_1` frees a peer, no record of the table should point into it and the group should not have it.
That is so in every run whose steps are `Event.Safe`, which excludes this: an allocation fails in
`rt_dhost_add_link` after a record was made to point into the peer, whose ladder then does not call
`rt_dhost_remove`; the `malloc` of `rt_dhost_remove` fails; a link graph packet gives a peer that is in the
table a MAC with which the table is no longer in order; and any operation on a table in which a trim left a
freed record.

- `SharedOk` and `Acted`: what every action of a thread keeps, and what it may acquire.
- `Inv`: whoever is referred to has a thread that will still release it. Step lemma `Inv.step`, run lemma
  `Run.inv`.
- `Run.unreferenced`: the main result; `unreferenced_lost`: runs in which a step is not safe.
-/

namespace P2pVn
open CUb Ladder Routing

/-! ## What is excluded -/

namespace Shared

/-- `rt_dhost_add_link` for `d`: an allocation fails only if no record is made to point into the peer. -/
def LinkSafe (s : Shared) (d : Nat) (al : AllocScript) : Prop :=
  ¬ HasDead s.rd ∧ ∀ mac, dpMac s.env d = .ok mac → PointsSafely s.env (s.table al) mac

/-- `dp_read_pkt_link_graph` for `d`, populating the MAC: a peer in the table gets a MAC that stands where its
    own stands among the MACs of the table. -/
def PopulateSafe (s : Shared) (d : Nat) (i : Input) : Prop :=
  ¬ HasDead s.rd ∧ (PointsInto s.rd d → ∀ plink mac, i.plink = some plink → dpMac s.env d = .ok mac →
    SameRank s.env s.rd mac (vecSrcMac plink))

/-- `rt_dhost_remove` for `d`: its `malloc` succeeds, if a record points into the peer. -/
def UnlinkSafe (s : Shared) (d : Nat) (al : AllocScript) : Prop :=
  ¬ HasDead s.rd ∧ (PointsInto s.rd d → al.head? ≠ some false)

end Shared

def Call.Safe (d : Nat) (i : Input) (s : Shared) : Call → Prop
  | .rtDhostAddLink => s.LinkSafe d i.allocs
  | .dpReadPktLinkGraph => s.PopulateSafe d i
  | _ => True

def LoopCall.Safe (d : Nat) (i : Input) (s : Shared) : LoopCall → Prop
  | .probeResp => s.LinkSafe d i.allocs
  | .linkGraph => ¬ HasDead s.rd
  | _ => True

def Undo.Safe (d : Nat) (al : AllocScript) (s : Shared) : Undo → Prop
  | .rtDhostRemove => s.UnlinkSafe d al
  | .dpgRemove => True

/-- The condition on a step. The table operations are also not to be called on a table that holds a freed
    record. -/
def Event.Safe (s : Peers) : Event → Prop
  | .call d i =>
    match s.thread d with
    | some (.handshake ((c, _) :: _)) => c.Safe d i s.toShared
    | _ => True
  | .loop d c i => c.Safe d i s.toShared
  | .undo d al =>
    match s.thread d with
    | some (.cleanup (u :: _)) => u.Safe d al s.toShared
    | _ => True
  | _ => True

/-! ## What every action keeps -/

variable {q : Qsort} {s s' : Shared} {L : HostId} {d : Nat} {i : Input} {al : AllocScript} {ret : Int}

/-- The table and the group are sound, unless a trim left a freed record in the table. -/
structure SharedOk (s : Shared) (L : HostId) : Prop where
  table : HasDead s.rd ∨ Aliased s.env s.rd L
  dpg : DpgOk s.env s.dps

/-- An action of thread `d`: it keeps everything sound, and adds no reference but those to `d` that it says. -/
structure Acted (s s' : Shared) (L : HostId) (d : Nat) (linked inserted : Prop) : Prop where
  ok : SharedOk s' L
  points : ∀ e, PointsInto s'.rd e → PointsInto s.rd e ∨ (linked ∧ e = d)
  members : ∀ e ∈ s'.dps.items, e ∈ s.dps.items ∨ (inserted ∧ e = d)

theorem Acted.refl (h : SharedOk s L) {linked inserted : Prop} : Acted s s L d linked inserted :=
  ⟨h, fun _ he => Or.inl he, fun _ he => Or.inl he⟩

/-- The allocations ahead of a call do not matter to the table. -/
theorem same_table (s : Shared) (al : AllocScript) : Same s.rd (s.table al) :=
  ⟨rfl, rfl, fun _ => rfl, Nat.le_refl _⟩

theorem SharedOk.aliased (h : SharedOk s L) (hd : ¬ HasDead s.rd) (al : AllocScript) :
    Aliased s.env (s.table al) L :=
  (h.table.resolve_left hd).same (same_table s al)

/-- An action on the table alone. -/
theorem SharedOk.acted (h : SharedOk s L) {rd : Routing} {linked inserted : Prop}
    (hout : HasDead rd ∨ Aliased s.env rd L) (hsub : ∀ e, PointsInto rd e → PointsInto s.rd e ∨ (linked ∧ e = d)) :
    Acted s { s with rd := rd } L d linked inserted :=
  ⟨⟨hout, h.dpg⟩, hsub, fun _ he => Or.inl he⟩

/-! ### The table operations -/

theorem SharedOk.addLink (h : SharedOk s L) (hsafe : s.LinkSafe d i.allocs) {rttUs : UInt32} {inserted : Prop}
    (hrun : s.addLink q d i rttUs = .ok (ret, s')) : Acted s s' L d (ret = 0) inserted := by
  obtain ⟨⟨r, rd⟩, hop, hret⟩ := bind_eq_ok.mp hrun
  cases hret
  have ha := h.aliased hsafe.1 i.allocs
  obtain ⟨ip, hip⟩ := ha.addLink_addr hop
  obtain ⟨hout, hsub⟩ := ha.addLink hip (hsafe.2 ip.mac (dpMac_eq_ok.mpr ⟨ip, hip, rfl⟩)) hop
  exact h.acted hout hsub

/-- After `rt_dhost_remove` nobody points into the peer. -/
theorem SharedOk.removeLink (h : SharedOk s L) (hsafe : s.UnlinkSafe d al) {inserted : Prop}
    (hrun : s.removeLink d al = .ok (ret, s')) : Acted s s' L d False inserted ∧ ¬ PointsInto s'.rd d := by
  obtain ⟨mac, hmac, hrest⟩ := bind_eq_ok.mp hrun
  obtain ⟨⟨r, rd⟩, hop, hret⟩ := bind_eq_ok.mp hrest
  cases hret
  obtain ⟨ip, hip, rfl⟩ := dpMac_eq_ok.mp hmac
  obtain ⟨hout, hsub⟩ := (h.aliased hsafe.1 al).removeLink hip (fun hp => hsafe.2 hp) hop
  exact ⟨h.acted hout fun e he => Or.inl (hsub e he).1, fun he => (hsub d he).2 rfl⟩

theorem SharedOk.updateEdges (h : SharedOk s L) (hd : ¬ HasDead s.rd) {es : List PktEdge}
    (hrun : s.updateEdges q i es = .ok (ret, s')) {linked inserted : Prop} : Acted s s' L d linked inserted := by
  obtain ⟨⟨r, rd⟩, hop, hret⟩ := bind_eq_ok.mp hrun
  cases hret
  obtain ⟨hout, hsub⟩ := (h.aliased hd i.allocs).updateEdges hop
  exact h.acted hout fun e he => Or.inl (hsub e he)

/-- Writing the address of a peer that is not in the group. -/
theorem dpgOk_update (h : DpgOk s.env s.dps) (hm : d ∉ s.dps.items) (x : Option Ipv4Host) :
    DpgOk (Function.update s.env (.dp d) x) s.dps := by
  apply h.congr
  intro e he
  apply Function.update_of_ne
  rintro ⟨⟩
  exact hm he

/-- Writing the address of a peer that nobody refers to. -/
theorem SharedOk.setEnv (h : SharedOk s L) (hp : ¬ PointsInto s.rd d) (hm : d ∉ s.dps.items)
    (x : Option Ipv4Host) : SharedOk { s with env := Function.update s.env (.dp d) x } L := by
  refine ⟨h.table.imp_right fun ha => ha.elsewhere hp fun p hne => ?_, dpgOk_update h.dpg hm x⟩
  exact Function.update_of_ne hne x s.env

theorem SharedOk.setHost (h : SharedOk s L) (hp : ¬ PointsInto s.rd d) (hm : d ∉ s.dps.items)
    (host : Ipv4Host) {linked inserted : Prop} : Acted s (s.setHost d host) L d linked inserted :=
  ⟨h.setEnv hp hm (some host), fun _ he => Or.inl he, fun _ he => Or.inl he⟩

theorem Acted.trans {s'' : Shared} {linked inserted : Prop} (h : Acted s s' L d linked inserted)
    (h' : Acted s' s'' L d linked inserted) : Acted s s'' L d linked inserted where
  ok := h'.ok
  points e he := (h'.points e he).elim (h.points e) Or.inr
  members e he := (h'.members e he).elim (h.members e) Or.inr

/-- All that reading a link graph packet can do: it populates the MAC, if it is to, and then merges the edges, if
    the packet has as many as it says. -/
theorem readPktLinkGraph_cases {populateMac : Bool}
    (hrun : s.readPktLinkGraph q d i populateMac = .ok (ret, s')) :
    s' = s ∨ ∃ plink s1, i.plink = some plink ∧
      ((populateMac = true ∧ s.populate d plink = .ok s1) ∨ (populateMac = false ∧ s1 = s)) ∧
      (s' = s1 ∨ ∃ es, s1.updateEdges q i es = .ok (ret, s')) := by
  have hedges : ∀ {s1 : Shared} {plink}, s1.readEdges q i plink = .ok (ret, s') →
      s' = s1 ∨ ∃ es, s1.updateEdges q i es = .ok (ret, s') := by
    intro s1 plink hread
    unfold Shared.readEdges at hread
    simp only at hread
    split at hread
    · cases hread
      exact Or.inl rfl
    split at hread
    · cases hread
    · exact Or.inr ⟨_, hread⟩
  unfold Shared.readPktLinkGraph at hrun
  cases hplink : i.plink with
  | none =>
      rw [hplink] at hrun
      cases hrun
      exact Or.inl rfl
  | some plink =>
      right
      simp only [hplink] at hrun
      -- a packet that is too short is a read beyond its end
      by_cases hlen : plink.length < if populateMac = true then plLinkGraphStatic else 2
      · rw [if_pos hlen] at hrun
        cases hrun
      rw [if_neg hlen] at hrun
      cases populateMac with
      | false => exact ⟨plink, s, rfl, Or.inr ⟨rfl, rfl⟩, hedges hrun⟩
      | true =>
          obtain ⟨s1, h1, hread⟩ := bind_eq_ok.mp hrun
          exact ⟨plink, s1, rfl, Or.inl ⟨rfl, h1⟩, hedges hread⟩

/-- Populating the MAC changes neither the table nor the group. -/
theorem populate_frame {plink : List UInt8} (hrun : s.populate d plink = .ok s') :
    s'.rd = s.rd ∧ s'.dps = s.dps := by
  obtain ⟨host, -, hret⟩ := bind_eq_ok.mp hrun
  cases hret
  exact ⟨rfl, rfl⟩

/-- The MAC of a peer that is pointed into may change, if the table stays in order. -/
theorem SharedOk.populate (h : SharedOk s L) {plink : List UInt8} (hplink : i.plink = some plink)
    (hsafe : s.PopulateSafe d i) (hm : d ∉ s.dps.items) (hrun : s.populate d plink = .ok s')
    {linked inserted : Prop} : Acted s s' L d linked inserted := by
  obtain ⟨host, hhost, hret⟩ := bind_eq_ok.mp hrun
  cases hret
  have henv : s.env (.dp d) = some host := ipOf_eq_ok.mp hhost
  by_cases hp : PointsInto s.rd d
  · have hrank : SameRank s.env s.rd host.mac { host with mac := vecSrcMac plink }.mac :=
      hsafe.2 hp plink host.mac hplink (dpMac_eq_ok.mpr ⟨host, henv, rfl⟩)
    have ha := (h.table.resolve_left hsafe.1).rename hp (fun p hne => Function.update_of_ne hne _ s.env) henv
      (Function.update_self _ _ _) hrank
    exact ⟨⟨Or.inr ha, dpgOk_update h.dpg hm _⟩, fun _ he => Or.inl he, fun _ he => Or.inl he⟩
  · exact h.setHost hp hm _

/-- Reading a link graph packet; with `populate_mac` the peer is not in the group yet. -/
theorem SharedOk.readPktLinkGraph (h : SharedOk s L) (hd : ¬ HasDead s.rd) {populateMac : Bool}
    (hsafe : populateMac = true → s.PopulateSafe d i ∧ d ∉ s.dps.items)
    (hrun : s.readPktLinkGraph q d i populateMac = .ok (ret, s')) {linked inserted : Prop} :
    Acted s s' L d linked inserted := by
  rcases readPktLinkGraph_cases hrun with rfl | ⟨plink, s1, hplink, hpop, hrest⟩
  · exact Acted.refl h
  obtain ⟨hacted, hrd⟩ : Acted s s1 L d linked inserted ∧ s1.rd = s.rd := by
    rcases hpop with ⟨hm, hpop⟩ | ⟨-, rfl⟩
    · obtain ⟨hpsafe, hno⟩ := hsafe hm
      exact ⟨h.populate hplink hpsafe hno hpop, (populate_frame hpop).1⟩
    · exact ⟨Acted.refl h, rfl⟩
  rcases hrest with rfl | ⟨es, hup⟩
  · exact hacted
  · exact hacted.trans (hacted.ok.updateEdges (hrd ▸ hd) hup)

/-! ### The group -/

theorem SharedOk.dpgInsert (h : SharedOk s L) {dps : Da Nat}
    (hrun : dpgInsert q s.env s.dps d al = .ok (ret, dps)) {linked : Prop} :
    Acted s { s with dps := dps } L d linked (ret = 0) := by
  obtain ⟨hdpg, hcase⟩ := dpgInsert_cases h.dpg hrun
  refine ⟨⟨h.table, hdpg⟩, fun _ he => Or.inl he, fun e he => ?_⟩
  rcases hcase with ⟨-, hitems⟩ | ⟨h0, hmem⟩
  · exact Or.inl (hitems ▸ he)
  · exact ((hmem e).mp he).imp_right fun hed => ⟨h0, hed⟩

/-- After `dpg_remove` the peer is not in the group. -/
theorem SharedOk.dpgRemove (h : SharedOk s L) {dps : Da Nat} (hrun : dpgRemove s.env s.dps d = .ok (ret, dps))
    {linked : Prop} : Acted s { s with dps := dps } L d linked False ∧ d ∉ dps.items := by
  obtain ⟨hdpg, m, hm, hmem⟩ := dpgRemove_cases h.dpg hrun
  exact ⟨⟨⟨h.table, hdpg⟩, fun _ he => Or.inl he, fun e he => Or.inl ((hmem e).mp he).1⟩,
    fun he => ((hmem d).mp he).2 hm⟩

/-! ### The calls of a thread -/

/-- **A call of a handshake**: only `rt_dhost_add_link` can make a record point into the peer, and only
    `dpg_insert` can add the peer to the group, and not if they fail. -/
theorem SharedOk.call (h : SharedOk s L) {c : Call} {ok : Bool} (hsafe : c.Safe d i s)
    (hjoin : c = .dpHandleJoin → ¬ PointsInto s.rd d ∧ d ∉ s.dps.items)
    (hread : c = .dpReadPktLinkGraph → d ∉ s.dps.items) (hrun : c.run q d i s = .ok (ok, s')) :
    Acted s s' L d (c = .rtDhostAddLink ∧ ok = true) (c = .dpgInsert ∧ ok = true) := by
  cases c with
  | connectHost | connectInet | dpSendJoin | dpRecvHeader | dpSendPeerLinkstate | dpSendProbeReq =>
      cases hrun
      exact Acted.refl h
  | dpHandleJoin =>
      cases hrun
      -- a host may be written where nobody points to it yet
      obtain ⟨hp, hm⟩ := hjoin rfl
      split
      · exact h.setHost hp hm i.host
      · exact Acted.refl h
  | dpReadPktLinkGraph =>
      obtain ⟨⟨ret, s1⟩, hop, hret⟩ := bind_eq_ok.mp hrun
      cases hret
      exact h.readPktLinkGraph hsafe.1 (fun _ => ⟨hsafe, hread rfl⟩) hop
  | dpgInsert =>
      obtain ⟨⟨ret, dps⟩, hop, hret⟩ := bind_eq_ok.mp hrun
      cases hret
      simpa using h.dpgInsert hop
  | rtDhostAddLink =>
      obtain ⟨⟨ret, s1⟩, hop, hret⟩ := bind_eq_ok.mp hrun
      cases hret
      simpa using h.addLink hsafe hop

/-- **A call of the loop**: the answer to a probe can make a record point into the peer. -/
theorem SharedOk.loopCall (h : SharedOk s L) {c : LoopCall} {ok : Bool} (hsafe : c.Safe d i s)
    (hrun : c.run q d i s = .ok (ok, s')) : Acted s s' L d True False := by
  cases c with
  | probeResp =>
      obtain ⟨⟨ret, s1⟩, hop, hret⟩ := bind_eq_ok.mp hrun
      cases hret
      have ha : Acted s s' L d (ret = 0) False := h.addLink hsafe hop
      exact ⟨ha.ok, fun e he => (ha.points e he).imp_right fun he => ⟨trivial, he.2⟩, ha.members⟩
  | linkGraph =>
      obtain ⟨⟨ret, s1⟩, hop, hret⟩ := bind_eq_ok.mp hrun
      cases hret
      exact h.readPktLinkGraph hsafe (fun hno => by simp at hno) hop
  | data =>
      obtain ⟨⟨f, rd⟩, hop, hret⟩ := bind_eq_ok.mp hrun
      cases hret
      have hsame := (same_table s i.allocs).trans (rtDhostsToHost_same hop)
      refine h.acted ?_ fun e he => Or.inl (hsame.pointsInto.mp he)
      exact h.table.imp hsame.grows.hasDead fun ha => ha.same hsame
  | other =>
      cases hrun
      exact Acted.refl h

/-- **A rung of a ladder** releases what it is there for. -/
theorem SharedOk.undo (h : SharedOk s L) {u : Undo} (hsafe : u.Safe d al s) (hrun : u.run d al s = .ok s') :
    Acted s s' L d False False ∧ (u = .rtDhostRemove → ¬ PointsInto s'.rd d) ∧
      (u = .dpgRemove → d ∉ s'.dps.items) := by
  cases u with
  | dpgRemove =>
      obtain ⟨⟨ret, dps⟩, hop, hret⟩ := bind_eq_ok.mp hrun
      cases hret
      obtain ⟨hacted, hgone⟩ : Acted s _ L d False False ∧ d ∉ dps.items := h.dpgRemove hop
      exact ⟨hacted, fun hno => (by cases hno), fun _ => hgone⟩
  | rtDhostRemove =>
      obtain ⟨⟨ret, s1⟩, hop, hret⟩ := bind_eq_ok.mp hrun
      cases hret
      obtain ⟨hacted, hgone⟩ : Acted s s' L d False False ∧ ¬ PointsInto s'.rd d := h.removeLink hsafe hop
      exact ⟨hacted, fun _ => hgone, fun hno => (by cases hno)⟩

/-! ## Who may be referred to -/

/-- What the entry functions are checked for. -/
structure ScriptOk (todo : Script Call Undo) : Prop where
  link : Tidy .rtDhostAddLink .rtDhostRemove todo
  insert : Tidy .dpgInsert .dpgRemove todo
  joinLink : Precedes .dpHandleJoin .rtDhostAddLink todo
  joinInsert : Precedes .dpHandleJoin .dpgInsert todo
  readInsert : Precedes .dpReadPktLinkGraph .dpgInsert todo

/-- **The ladders of all three entry functions are right.** -/
theorem scriptOk (entry : EntryPoint) : ScriptOk entry.script := by
  cases entry <;> constructor <;> decide

theorem ScriptOk.tail {x : Call × List Undo} {todo : Script Call Undo} (h : ScriptOk (x :: todo)) :
    ScriptOk todo :=
  ⟨h.link.2.2, h.insert.2.2, h.joinLink.2, h.joinInsert.2, h.readInsert.2⟩

/-- Peer `d` has a thread that may hold the resource, and so will release it. -/
def Peers.Holds (s : Peers) (c : Call) (u : Undo) (d : Nat) : Prop :=
  ∃ t, s.thread d = some t ∧ Ladder.Holds c u t

/-- The state is sound, and whoever is referred to has a thread that will release it. -/
structure Inv (s : Peers) (L : HostId) : Prop where
  shared : SharedOk s.toShared L
  points : ∀ e, PointsInto s.rd e → s.Holds .rtDhostAddLink .rtDhostRemove e
  members : ∀ e ∈ s.dps.items, s.Holds .dpgInsert .dpgRemove e
  script : ∀ e todo, s.thread e = some (.handshake todo) → ScriptOk todo

section

variable {s s' : Peers} {sh : Shared} {t : Thread Call Undo} {c : Call} {u : Undo} {e : Nat}

theorem Peers.thread_put : (s.put d sh t).thread = Function.update s.thread d (some t) := rfl

theorem Peers.holds_put_self : (s.put d sh t).Holds c u d ↔ Ladder.Holds c u t := by
  simp [Peers.Holds, Peers.thread_put]

theorem Peers.holds_put_of_ne (hne : e ≠ d) : (s.put d sh t).Holds c u e ↔ s.Holds c u e := by
  simp [Peers.Holds, Peers.thread_put, hne]

theorem Peers.holds_iff (ht : s.thread d = some t) : s.Holds c u d ↔ Ladder.Holds c u t := by
  simp [Peers.Holds, ht]

/-- Thread `d` acted and has come to `t`: only `d` has to be looked at. -/
theorem Inv.put (h : Inv s L) {linked inserted : Prop} (ha : Acted s.toShared sh L d linked inserted)
    (hlink : PointsInto sh.rd d → Ladder.Holds .rtDhostAddLink .rtDhostRemove t)
    (hinsert : d ∈ sh.dps.items → Ladder.Holds .dpgInsert .dpgRemove t)
    (hscript : ∀ todo, t = .handshake todo → ScriptOk todo) : Inv (s.put d sh t) L where
  shared := ha.ok
  points e he := by
    by_cases hed : e = d
    · subst hed
      exact Peers.holds_put_self.mpr (hlink he)
    · apply (Peers.holds_put_of_ne hed).mpr
      exact h.points e ((ha.points e he).resolve_right fun hno => hed hno.2)
  members e he := by
    by_cases hed : e = d
    · subst hed
      exact Peers.holds_put_self.mpr (hinsert he)
    · apply (Peers.holds_put_of_ne hed).mpr
      exact h.members e ((ha.members e he).resolve_right fun hno => hed hno.2)
  script e todo he := by
    rw [Peers.thread_put] at he
    by_cases hed : e = d
    · subst hed
      rw [Function.update_self, Option.some.injEq] at he
      exact hscript todo he
    · rw [Function.update_of_ne hed] at he
      exact h.script e todo he

/-- Where a thread neither may hold the link nor the membership, nobody refers to its peer. -/
theorem Inv.not_points (h : Inv s L) (hno : ¬ s.Holds .rtDhostAddLink .rtDhostRemove d) : ¬ PointsInto s.rd d :=
  fun he => hno (h.points d he)

theorem Inv.not_member (h : Inv s L) (hno : ¬ s.Holds .dpgInsert .dpgRemove d) : d ∉ s.dps.items :=
  fun he => hno (h.members d he)

/-! ### One step -/

theorem Inv.spawn (h : Inv s L) (ht : s.thread d = none) (entry : EntryPoint) (host : Ipv4Host) (spawned : Bool) :
    Inv (s.put d (s.setHost d host) (if spawned then .handshake entry.script else .cleanup [])) L := by
  -- a peer without a thread is not referred to
  have hno : ∀ c u, ¬ s.Holds c u d := by
    rintro c u ⟨t, ht', -⟩
    simp [ht] at ht'
  have hp := h.not_points (hno _ _)
  have hm := h.not_member (hno _ _)
  have ha : Acted s.toShared (s.setHost d host) L d False False := h.shared.setHost hp hm host
  refine h.put ha (fun he => absurd he hp) (fun he => absurd he hm) fun todo htodo => ?_
  cases spawned with
  | true =>
      cases htodo
      exact scriptOk entry
  | false => cases htodo

/-- `dp_handle_join` is called before anybody refers to the peer, `dp_read_pkt_link_graph` before the peer is in
    the group. -/
theorem Inv.ready (h : Inv s L) {ladder : List Undo} {todo : Script Call Undo}
    (ht : s.thread d = some (.handshake ((c, ladder) :: todo))) :
    (c = .dpHandleJoin → ¬ PointsInto s.rd d ∧ d ∉ s.dps.items) ∧ (c = .dpReadPktLinkGraph → d ∉ s.dps.items) := by
  have hscript := h.script d _ ht
  constructor
  · rintro rfl
    refine ⟨h.not_points ?_, h.not_member ?_⟩
    · rw [Peers.holds_iff ht]
      exact hscript.joinLink.not_held
    · rw [Peers.holds_iff ht]
      exact hscript.joinInsert.not_held
  · rintro rfl
    apply h.not_member
    rw [Peers.holds_iff ht]
    exact hscript.readInsert.not_held

theorem Inv.call (h : Inv s L) {ladder : List Undo} {todo : Script Call Undo} {ok : Bool}
    (ht : s.thread d = some (.handshake ((c, ladder) :: todo))) (hsafe : c.Safe d i s.toShared)
    (hrun : c.run q d i s.toShared = .ok (ok, sh)) :
    Inv (s.put d sh (if ok = true then .goOn todo else .cleanup ladder)) L := by
  have hscript := h.script d _ ht
  obtain ⟨hjoin, hread⟩ := h.ready ht
  have ha := h.shared.call hsafe hjoin hread hrun
  refine h.put ha (fun he => ?_) (fun he => ?_) fun todo' htodo => ?_
  · apply Holds.called hscript.link
    exact (ha.points d he).imp (fun he => (Peers.holds_iff ht).mp (h.points d he)) And.left
  · apply Holds.called hscript.insert
    exact (ha.members d he).imp (fun he => (Peers.holds_iff ht).mp (h.members d he)) And.left
  · cases ok with
    | false => cases htodo
    | true =>
        cases todo with
        | nil => cases htodo
        | cons x todo =>
            cases htodo
            exact hscript.tail

/-- The loop may hold everything, and its clean-up releases everything. -/
theorem Inv.loop (h : Inv s L) {lc : LoopCall} {ok : Bool} (hsafe : lc.Safe d i s.toShared)
    (hrun : lc.run q d i s.toShared = .ok (ok, sh)) :
    Inv (s.put d sh (if ok = true then .loop else .cleanup dpThCleanup)) L := by
  refine h.put (h.shared.loopCall hsafe hrun) (fun _ => ?_) (fun _ => ?_) fun todo htodo => ?_
  · cases ok with
    | true => trivial
    | false => simp [Ladder.Holds, dpThCleanup]
  · cases ok with
    | true => trivial
    | false => simp [Ladder.Holds, dpThCleanup]
  · cases ok with
    | true => cases htodo
    | false => cases htodo

theorem Inv.undo (h : Inv s L) {ladder : List Undo} (ht : s.thread d = some (.cleanup (u :: ladder)))
    (hsafe : u.Safe d al s.toShared) (hrun : u.run d al s.toShared = .ok sh) :
    Inv (s.put d sh (.cleanup ladder)) L := by
  obtain ⟨ha, hunlinked, hremoved⟩ := h.shared.undo hsafe hrun
  refine h.put ha (fun he => ?_) (fun he => ?_) fun todo htodo => ?_
  · have hheld := (Peers.holds_iff ht).mp (h.points d ((ha.points d he).resolve_right fun hno => hno.1))
    exact hheld.undone fun hu => hunlinked hu he
  · have hheld := (Peers.holds_iff ht).mp (h.members d ((ha.members d he).resolve_right fun hno => hno.1))
    exact hheld.undone fun hu => hremoved hu he
  · cases htodo

theorem Inv.free (h : Inv s L) (ht : s.thread d = some (.cleanup [])) :
    Inv (s.put d { s.toShared with env := Function.update s.env (.dp d) none } .freed) L := by
  have hno : ∀ c u, ¬ s.Holds c u d := by
    intro c u
    rw [Peers.holds_iff ht]
    exact List.not_mem_nil
  have hp := h.not_points (hno _ _)
  have hm := h.not_member (hno _ _)
  have ha : Acted s.toShared { s.toShared with env := Function.update s.env (.dp d) none } L d False False :=
    ⟨h.shared.setEnv hp hm none, fun _ he => Or.inl he, fun _ he => Or.inl he⟩
  exact h.put ha (fun he => absurd he hp) (fun he => absurd he hm) fun todo htodo => by cases htodo

/-- **A safe step keeps the invariant.** -/
theorem Inv.step (h : Inv s L) {e : Event} (hsafe : e.Safe s) (hstep : s.step q e = .ok s') : Inv s' L := by
  cases Peers.step_cases hstep with
  | idle => exact h
  | spawn ht => exact h.spawn ht _ _ _
  | call ht hrun =>
      simp only [Event.Safe, ht] at hsafe
      exact h.call ht hsafe hrun
  | loop _ hrun => exact h.loop hsafe hrun
  | undo ht hrun =>
      simp only [Event.Safe, ht] at hsafe
      exact h.undo ht hsafe hrun
  | free ht => exact h.free ht

/-! ### Whole runs -/

namespace Peers

theorem Initial.inv (h : s.Initial q) : ∃ L, Inv s L := by
  obtain ⟨al, hstart⟩ := h.table
  obtain ⟨L, hf, -⟩ := started_cases hstart
  obtain ⟨r, hr, hhost, -⟩ := hf.local_
  have hown : ∀ r, s.rd.recs.get L = some r → r.host = .env .lhost := by
    intro r' hr'
    rw [hr] at hr'
    cases hr'
    exact hhost
  refine ⟨L, ⟨⟨Or.inr ⟨hf.table, hf.directLinked, hown⟩, ?_⟩, ?_, ?_, ?_⟩⟩
  · exact ⟨by simp [h.dps], by simp [h.dps]⟩
  · -- the only record is local's
    rintro e ⟨id, hmem, r', hr', hhost'⟩
    rw [hf.hosts, List.mem_singleton] at hmem
    subst hmem
    rw [hown r' hr'] at hhost'
    cases hhost'
  · simp [h.dps]
  · intro e todo he
    rw [h.thread e] at he
    cases he

/-- **Run lemma.** -/
theorem Run.inv (h : Run q Event.Safe s) : ∃ L, Inv s L := by
  induction h with
  | start h => exact h.inv
  | step _ hsafe hstep ih =>
      obtain ⟨L, hinv⟩ := ih
      exact ⟨L, hinv.step hsafe hstep⟩

/-- **A peer that is about to be freed, or was freed, is not referred to**: no record of the table points into it
    and the group does not have it, after every run of any number of threads in any order, whatever calls fail,
    as long as the steps are safe. -/
theorem Run.unreferenced (h : Run q Event.Safe s)
    (ht : s.thread d = some (.cleanup []) ∨ s.thread d = some .freed) :
    ¬ PointsInto s.rd d ∧ d ∉ s.dps.items := by
  obtain ⟨L, hinv⟩ := h.inv
  have hno : ∀ c u, ¬ s.Holds c u d := by
    intro c u
    rcases ht with ht | ht
    · rw [holds_iff ht]
      exact List.not_mem_nil
    · rw [holds_iff ht]
      exact not_false
  exact ⟨hinv.not_points (hno _ _), hinv.not_member (hno _ _)⟩

/-! ### Four short runs -/

theorem initial_start {host : Ipv4Host} (h : start q host = .ok s) : s.Initial q := by
  obtain ⟨⟨ret, rd⟩, hadd, h⟩ := bind_eq_ok.mp h
  by_cases hret : ret = 0
  · subst hret
    simp only [ne_eq, not_true_eq_false, if_false] at h
    cases h
    exact ⟨⟨[], _, rfl, hadd⟩, rfl, fun _ => rfl, fun _ => rfl⟩
  · simp only [ne_eq, hret, not_false_eq_true, if_true] at h
    cases h

/-- A list of steps that meet the condition where they are taken. -/
theorem Run.steps {P : Peers → Event → Prop} : ∀ {es : List Event} {s : Peers}, Run q P s →
    Peers.steps q es s = .ok s' →
    (∀ k sk e, Peers.steps q (es.take k) s = .ok sk → es[k]? = some e → P sk e) → Run q P s' := by
  intro es
  induction es with
  | nil =>
      intro s h hs _
      cases hs
      exact h
  | cons e es ih =>
      intro s h hs hP
      obtain ⟨s1, h1, hs⟩ := bind_eq_ok.mp hs
      refine ih (h.step (hP 0 s e rfl rfl) h1) hs fun k sk e' hk he => ?_
      exact hP (k + 1) sk e' (by simp [Peers.steps, h1, hk]) he

/-- No allocation fails, and no link graph packet comes. -/
def Plain : Event → Prop
  | .call _ i | .loop _ _ i => i.allocs = [] ∧ i.plink = none
  | .undo _ al => al = []
  | _ => True

theorem Plain.safe {e : Event} (h : Plain e) (hd : ¬ HasDead s.rd) : e.Safe s := by
  -- where no allocation fails, a link may be added for any MAC
  have hlink : ∀ {d : Nat} {i : Input}, i.allocs = [] → s.toShared.LinkSafe d i.allocs := fun hal =>
    ⟨hd, fun mac _ => Or.inr (Or.inr (by simp [Granted, Shared.table, hal]))⟩
  cases e with
  | spawn d entry host spawned => trivial
  | free d => trivial
  | call d i =>
      simp only [Event.Safe]
      split
      next c _ _ _ =>
        cases c with
        | rtDhostAddLink => exact hlink h.1
        | dpReadPktLinkGraph => exact ⟨hd, fun _ plink mac hplink => by simp [h.2] at hplink⟩
        | _ => trivial
      next => trivial
  | loop d c i =>
      cases c with
      | probeResp => exact hlink h.1
      | linkGraph => exact hd
      | _ => trivial
  | undo d al =>
      simp only [Event.Safe]
      split
      next u _ _ =>
        cases u with
        | rtDhostRemove => exact ⟨hd, fun _ => by simp [show al = [] from h]⟩
        | dpgRemove => trivial
      next => trivial

/-- What the surroundings of host `1` decide when all goes well. -/
def fineInput : Input where
  ok := true
  allocs := []
  now := ⟨0, 0⟩
  rttUs := 10
  host := lineHost 1
  plink := none
  srcMac := (lineHost 1).mac
  dstMac := (lineHost 0).mac

/-- An incoming connection, from `dp_create_incoming` into the loop. -/
def incomingEvents : List Event := .spawn 0 .incoming (lineHost 1) true :: List.replicate 5 (.call 0 fineInput)

/-- It is used, and then it breaks. -/
def lifeEvents : List Event :=
  incomingEvents ++ [.loop 0 .data fineInput, .loop 0 .other { fineInput with ok := false }, .undo 0 [], .undo 0 []]

/-- A list of plain steps that leave no freed record in the table. -/
theorem run_safe {host : Ipv4Host} {es : List Event} {s0 : Peers} (h0 : start q host = .ok s0)
    (hs : steps q es s0 = .ok s) (hplain : ∀ e ∈ es, Plain e)
    (hdead : ∀ k < es.length, (do
      let s0 ← start q host
      let s ← steps q (es.take k) s0
      pure (decide (HasDead s.rd))) = Except.ok false) : Run q Event.Safe s := by
  refine Run.steps (.start (initial_start h0)) hs fun k sk e hk he => ?_
  refine (hplain e (List.mem_of_getElem? he)).safe ?_
  obtain ⟨hlt, -⟩ := List.getElem?_eq_some_iff.mp he
  simpa [h0, hk] using hdead k hlt

theorem unreferenced_life : ∃ s, Run .insertion Event.Safe s ∧
    (s.thread 0 = some (.cleanup []) ∨ s.thread 0 = some .freed) ∧ (¬ PointsInto s.rd 0 ∧ 0 ∉ s.dps.items) := by
  have h : (do
      let s0 ← start .insertion (lineHost 0)
      let s ← steps .insertion lifeEvents s0
      pure (s.thread 0)) = Except.ok (some (.cleanup [])) := by
    decide +kernel
  obtain ⟨s0, h0, h⟩ := bind_eq_ok.mp h
  obtain ⟨s, hs, h⟩ := bind_eq_ok.mp h
  simp only [pure_eq_ok, Except.ok.injEq] at h
  have hrun : Run .insertion Event.Safe s := by
    apply run_safe h0 hs
    · simp [lifeEvents, incomingEvents, Plain, fineInput]
    · decide +kernel
  exact ⟨s, hrun, Or.inl h, hrun.unreferenced (Or.inl h)⟩

/-- `compute_paths` has no memory, so `rt_dhost_add_link` returns `-5`, and the record stays and points into the
    peer. -/
def failedLinkEvents : List Event :=
  incomingEvents.dropLast ++ [.call 0 { fineInput with allocs := [true, true, false] }, .undo 0 []]

/-- `rt_dhost_remove` has no memory for the copy of the address. -/
def failedRemoveEvents : List Event := lifeEvents.dropLast ++ [.undo 0 [false]]

/-- Host `0`, linked to first, announces in a short link graph packet that it is host `2`. -/
def renamedEvents : List Event :=
  incomingEvents ++ .spawn 1 .linkstate (lineHost 0) true :: List.replicate 4 (.call 1 fineInput) ++
    [.call 1 { fineInput with plink := some (u16Bytes 1 ++ (pktIpv4Pack (lineHost 2)).bytes) }, .undo 1 []]

/-- These steps of the peers of this host leave a record that points into `d`, which is freed next. -/
def LeavesRecord (host : Ipv4Host) (es : List Event) (d : Nat) : Prop :=
  ∃ s0 s, start .insertion host = .ok s0 ∧ steps .insertion es s0 = .ok s ∧
    Run .insertion (fun _ _ => True) s ∧ s.thread d = some (.cleanup []) ∧ PointsInto s.rd d

theorem leavesRecord {host : Ipv4Host} {es : List Event} (h : (do
    let s0 ← start .insertion host
    let s ← steps .insertion es s0
    pure (s.thread d, decide (PointsInto s.rd d))) = Except.ok (some (.cleanup []), true)) :
    LeavesRecord host es d := by
  obtain ⟨s0, h0, h⟩ := bind_eq_ok.mp h
  obtain ⟨s, hs, h⟩ := bind_eq_ok.mp h
  simp only [pure_eq_ok, Except.ok.injEq, Prod.mk.injEq, decide_eq_true_eq] at h
  refine ⟨s0, s, h0, hs, ?_, h⟩
  exact Run.steps (.start (initial_start h0)) hs fun _ _ _ _ _ => trivial

/-- **Each of the three leaves a record** that points into a peer that is freed next. -/
theorem unreferenced_lost : LeavesRecord (lineHost 0) failedLinkEvents 0 ∧
    LeavesRecord (lineHost 0) failedRemoveEvents 0 ∧ LeavesRecord (lineHost 3) renamedEvents 1 := by
  refine ⟨leavesRecord ?_, leavesRecord ?_, leavesRecord ?_⟩
  · decide +kernel
  · decide +kernel
  · decide +kernel

end Peers

end

end P2pVn
