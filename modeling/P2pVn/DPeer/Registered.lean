import P2pVn.DPeer.Lifetime
import P2pVn.Routing.Retaining

/-!
# `DPeer.Registered` — a registered peer stays registered

A peer that has been through `dpg_insert` and `rt_dhost_add_link` should be in the group, and local should have
a link to a record that points into it, until its own clean-up begins. Both registries go by the MAC, so another
connection to the same host can undo that: by the `dpg_remove` and the `rt_dhost_remove` of its clean-up, which
it calls whether it was inserted or not; and its `rt_dhost_add_link` returns `0` for the link that is there,
although the record points into the other peer. `Event.Own` excludes these.

- `Retains`: what an action leaves to a peer. `SharedOk.call_retains`, `SharedOk.loopCall_retains`,
  `SharedOk.undo_retains`.
- `Kept`: everybody has what their thread has been through. Step lemma `Kept.step`, run lemma `Run.kept`.
- `Run.registered`: the main result; `registered_undone`: two runs with two connections to one host.
-/

namespace P2pVn
open CUb Ladder Routing

/-! ## What is excluded -/

/-- Peer `d` is past its call of `c`, and not in its clean-up. -/
def Peers.Past (s : Peers) (c : Call) (d : Nat) : Prop := ∃ t, s.thread d = some t ∧ Ladder.Past c t

/-- `rt_dhost_add_link` for `d`: no other peer that is pointed into has its MAC. -/
def Call.Own (d : Nat) (s : Shared) : Call → Prop
  | .rtDhostAddLink => ∀ e, e ≠ d → PointsInto s.rd e → dpMac s.env e ≠ dpMac s.env d
  | _ => True

/-- A rung for `d`: no other peer that went through what the rung undoes, and is not in its clean-up, has its
    MAC. -/
def Undo.Own (d : Nat) (s : Peers) : Undo → Prop
  | .rtDhostRemove => ∀ e, e ≠ d → s.Past .rtDhostAddLink e → dpMac s.env e ≠ dpMac s.env d
  | .dpgRemove => ∀ e, e ≠ d → s.Past .dpgInsert e → dpMac s.env e ≠ dpMac s.env d

/-- The condition on a step, besides `Event.Safe`. -/
def Event.Own (s : Peers) : Event → Prop
  | .call d _ =>
    match s.thread d with
    | some (.handshake ((c, _) :: _)) => c.Own d s.toShared
    | _ => True
  | .undo d _ =>
    match s.thread d with
    | some (.cleanup (u :: _)) => u.Own d s
    | _ => True
  | _ => True

def Event.Proper (s : Peers) (e : Event) : Prop := e.Safe s ∧ e.Own s

/-! ## What an action leaves to a peer -/

variable {q : Qsort} {s s' : Shared} {L : HostId} {d e : Nat} {i : Input} {al : AllocScript} {ret : Int}

/-- Peer `d` keeps its link and its place in the group. -/
structure Retains (s s' : Shared) (d : Nat) : Prop where
  linked : LinkedInto s.rd d → LinkedInto s'.rd d
  member : d ∈ s.dps.items → d ∈ s'.dps.items

theorem Retains.refl (s : Shared) (d : Nat) : Retains s s d := ⟨fun h => h, fun h => h⟩

/-- An action on the table that changes no record. -/
theorem retains_of_same {rd : Routing} (hs : Same s.rd rd) : Retains s { s with rd := rd } d :=
  ⟨fun h => h.same hs, fun h => h⟩

theorem SharedOk.addLink_retains (h : SharedOk s L) (hsafe : s.LinkSafe e i.allocs) {rttUs : UInt32}
    (hrun : s.addLink q e i rttUs = .ok (ret, s')) : Retains s s' d := by
  obtain ⟨⟨r, rd⟩, hop, hret⟩ := bind_eq_ok.mp hrun
  cases hret
  have ha := h.aliased hsafe.1 i.allocs
  obtain ⟨ip, hip⟩ := ha.addLink_addr hop
  refine ⟨fun hl => ?_, fun hm => hm⟩
  apply ha.addLink_keeps hip (hsafe.2 ip.mac (dpMac_eq_ok.mpr ⟨ip, hip, rfl⟩)) hop
  exact (same_table s i.allocs).pointsInto.mpr hl.pointsInto

theorem SharedOk.updateEdges_retains (h : SharedOk s L) (hd : ¬ HasDead s.rd) {es : List PktEdge}
    (hrun : s.updateEdges q i es = .ok (ret, s')) : Retains s s' d := by
  obtain ⟨⟨r, rd⟩, hop, hret⟩ := bind_eq_ok.mp hrun
  cases hret
  refine ⟨fun hl => ?_, fun hm => hm⟩
  apply (h.aliased hd i.allocs).updateEdges_keeps hop
  exact (same_table s i.allocs).pointsInto.mpr hl.pointsInto

/-- Reading a link graph packet; with `populate_mac` the peer is not in the group yet. -/
theorem SharedOk.readPktLinkGraph_retains (h : SharedOk s L) (hd : ¬ HasDead s.rd) {populateMac : Bool}
    (hsafe : populateMac = true → s.PopulateSafe e i ∧ e ∉ s.dps.items)
    (hrun : s.readPktLinkGraph q e i populateMac = .ok (ret, s')) : Retains s s' d := by
  rcases readPktLinkGraph_cases hrun with rfl | ⟨plink, s1, hplink, hpop, hrest⟩
  · exact Retains.refl _ d
  obtain ⟨hok, hrd, hdps⟩ : SharedOk s1 L ∧ s1.rd = s.rd ∧ s1.dps = s.dps := by
    rcases hpop with ⟨hm, hpop⟩ | ⟨-, rfl⟩
    · obtain ⟨hpsafe, hno⟩ := hsafe hm
      have ha : Acted s s1 L e False False := h.populate hplink hpsafe hno hpop
      exact ⟨ha.ok, populate_frame hpop⟩
    · exact ⟨h, rfl, rfl⟩
  rcases hrest with rfl | ⟨es, hup⟩
  · exact ⟨fun hl => hrd ▸ hl, fun hm => hdps ▸ hm⟩
  · have hr := hok.updateEdges_retains (d := d) (hrd ▸ hd) hup
    exact ⟨fun hl => hr.linked (hrd ▸ hl), fun hm => hr.member (hdps ▸ hm)⟩

/-- **A call of a handshake** leaves everybody what they have. -/
theorem SharedOk.call_retains (h : SharedOk s L) {c : Call} {ok : Bool} (hsafe : c.Safe e i s)
    (hread : c = .dpReadPktLinkGraph → e ∉ s.dps.items) (hrun : c.run q e i s = .ok (ok, s')) : Retains s s' d := by
  cases c with
  | connectHost | connectInet | dpSendJoin | dpRecvHeader | dpSendPeerLinkstate | dpSendProbeReq =>
      cases hrun
      exact Retains.refl s d
  | dpHandleJoin =>
      cases hrun
      split
      · exact ⟨fun hl => hl, fun hm => hm⟩
      · exact Retains.refl s d
  | dpReadPktLinkGraph =>
      obtain ⟨⟨ret, s1⟩, hop, hret⟩ := bind_eq_ok.mp hrun
      cases hret
      exact h.readPktLinkGraph_retains hsafe.1 (fun _ => ⟨hsafe, hread rfl⟩) hop
  | dpgInsert =>
      obtain ⟨⟨ret, dps⟩, hop, hret⟩ := bind_eq_ok.mp hrun
      cases hret
      refine ⟨fun hl => hl, fun hm => ?_⟩
      show d ∈ dps.items
      obtain ⟨-, ⟨-, hitems⟩ | ⟨-, hmem⟩⟩ := dpgInsert_cases h.dpg hop
      · rw [hitems]
        exact hm
      · exact (hmem d).mpr (Or.inl hm)
  | rtDhostAddLink =>
      obtain ⟨⟨ret, s1⟩, hop, hret⟩ := bind_eq_ok.mp hrun
      cases hret
      exact h.addLink_retains hsafe hop

/-- A `dpg_insert` that succeeds puts its peer into the group. -/
theorem SharedOk.dpgInsert_member (h : SharedOk s L) (hrun : Call.run q e i s .dpgInsert = .ok (true, s')) :
    e ∈ s'.dps.items := by
  obtain ⟨⟨ret, dps⟩, hop, hret⟩ := bind_eq_ok.mp hrun
  simp only [pure_eq_ok, Except.ok.injEq, Prod.mk.injEq, decide_eq_true_eq] at hret
  obtain ⟨h0, rfl⟩ := hret
  obtain ⟨-, ⟨hne, -⟩ | ⟨-, hmem⟩⟩ := dpgInsert_cases h.dpg hop
  · exact absurd h0 hne
  · exact (hmem e).mpr (Or.inr rfl)

/-- A `rt_dhost_add_link` that succeeds links to its peer, if the MAC is the peer's own. -/
theorem SharedOk.addLink_linked (h : SharedOk s L) (hsafe : s.LinkSafe e i.allocs)
    (hown : Call.Own e s .rtDhostAddLink) (hrun : Call.run q e i s .rtDhostAddLink = .ok (true, s')) :
    LinkedInto s'.rd e := by
  obtain ⟨⟨ret, s1⟩, hop, hret⟩ := bind_eq_ok.mp hrun
  simp only [pure_eq_ok, Except.ok.injEq, Prod.mk.injEq, decide_eq_true_eq] at hret
  obtain ⟨rfl, rfl⟩ := hret
  obtain ⟨⟨r, rd⟩, hlink, hret⟩ := bind_eq_ok.mp hop
  cases hret
  refine (h.aliased hsafe.1 i.allocs).addLink_linkedInto (fun x hx hp ip ip' hip hip' heq => ?_) hlink
  apply hown x hx ((same_table s i.allocs).pointsInto.mp hp)
  rw [dpMac_eq_ok.mpr ⟨ip, hip, rfl⟩, dpMac_eq_ok.mpr ⟨ip', hip', rfl⟩, heq]

/-- **A call of the loop** leaves everybody what they have. -/
theorem SharedOk.loopCall_retains (h : SharedOk s L) {c : LoopCall} {ok : Bool} (hsafe : c.Safe e i s)
    (hrun : c.run q e i s = .ok (ok, s')) : Retains s s' d := by
  cases c with
  | probeResp =>
      obtain ⟨⟨ret, s1⟩, hop, hret⟩ := bind_eq_ok.mp hrun
      cases hret
      exact h.addLink_retains hsafe hop
  | linkGraph =>
      obtain ⟨⟨ret, s1⟩, hop, hret⟩ := bind_eq_ok.mp hrun
      cases hret
      exact h.readPktLinkGraph_retains hsafe (fun hno => by simp at hno) hop
  | data =>
      obtain ⟨⟨f, rd⟩, hop, hret⟩ := bind_eq_ok.mp hrun
      cases hret
      exact retains_of_same ((same_table s i.allocs).trans (rtDhostsToHost_same hop))
  | other =>
      cases hrun
      exact Retains.refl s d

/-- **A rung of a ladder** leaves the others what they have, if they have another MAC. -/
theorem SharedOk.undo_retains (h : SharedOk s L) {u : Undo} (hsafe : u.Safe e al s)
    (hrun : u.run e al s = .ok s') :
    (∀ d, (u = .rtDhostRemove → dpMac s.env d ≠ dpMac s.env e) → LinkedInto s.rd d → LinkedInto s'.rd d) ∧
      ∀ d, (u = .dpgRemove → dpMac s.env d ≠ dpMac s.env e) → d ∈ s.dps.items → d ∈ s'.dps.items := by
  cases u with
  | dpgRemove =>
      obtain ⟨⟨ret, dps⟩, hop, hret⟩ := bind_eq_ok.mp hrun
      cases hret
      refine ⟨fun d _ hl => hl, fun d hne hm => ?_⟩
      obtain ⟨-, m, hm', hmem⟩ := dpgRemove_cases h.dpg hop
      refine (hmem d).mpr ⟨hm, fun hd => hne rfl ?_⟩
      rw [hd, hm']
  | rtDhostRemove =>
      obtain ⟨⟨ret, s1⟩, hop, hret⟩ := bind_eq_ok.mp hrun
      cases hret
      obtain ⟨mac, hmac, hrest⟩ := bind_eq_ok.mp hop
      obtain ⟨⟨r, rd⟩, hremove, hret⟩ := bind_eq_ok.mp hrest
      cases hret
      refine ⟨fun d hne hl => ?_, fun d _ hm => hm⟩
      refine (h.aliased hsafe.1 al).removeLink_keeps (fun ip hip heq => ?_) hremove
        ((same_table s al).pointsInto.mpr hl.pointsInto)
      apply hne rfl
      rw [hmac, dpMac_eq_ok.mpr ⟨ip, hip, heq⟩]

/-! ## Who is registered -/

/-- Everybody has what their thread has been through. -/
structure Kept (s : Peers) : Prop where
  linked : ∀ d, s.Past .rtDhostAddLink d → LinkedInto s.rd d
  member : ∀ d, s.Past .dpgInsert d → d ∈ s.dps.items

section

variable {s s' : Peers} {sh : Shared} {t : Thread Call Undo} {c : Call} {u : Undo}

theorem Peers.past_put_self : (s.put e sh t).Past c e ↔ Ladder.Past c t := by
  simp [Peers.Past, Peers.thread_put]

theorem Peers.past_put_of_ne (hne : d ≠ e) : (s.put e sh t).Past c d ↔ s.Past c d := by
  simp [Peers.Past, Peers.thread_put, hne]

theorem Peers.past_iff (ht : s.thread d = some t) : s.Past c d ↔ Ladder.Past c t := by
  simp [Peers.Past, ht]

/-- Thread `e` acted and has come to `t`. -/
theorem Kept.put (hlinked : ∀ d, d ≠ e → s.Past .rtDhostAddLink d → LinkedInto sh.rd d)
    (hmember : ∀ d, d ≠ e → s.Past .dpgInsert d → d ∈ sh.dps.items)
    (hlink : Ladder.Past .rtDhostAddLink t → LinkedInto sh.rd e)
    (hinsert : Ladder.Past .dpgInsert t → e ∈ sh.dps.items) : Kept (s.put e sh t) where
  linked d hd := by
    by_cases hde : d = e
    · subst hde
      exact hlink (Peers.past_put_self.mp hd)
    · exact hlinked d hde ((Peers.past_put_of_ne hde).mp hd)
  member d hd := by
    by_cases hde : d = e
    · subst hde
      exact hinsert (Peers.past_put_self.mp hd)
    · exact hmember d hde ((Peers.past_put_of_ne hde).mp hd)

/-- Nobody is past a call that is still to come in their script. -/
theorem entry_not_past (entry : EntryPoint) (c : Call) (hc : c = .rtDhostAddLink ∨ c = .dpgInsert) :
    ¬ Ladder.Past c (.handshake entry.script : Thread Call Undo) := by
  intro h
  apply h
  rcases hc with rfl | rfl
  · cases entry <;> decide
  · cases entry <;> decide

/-! ### One step -/

theorem Kept.call (h : Kept s) (hinv : Inv s L) {ladder : List Undo} {todo : Script Call Undo} {ok : Bool}
    (ht : s.thread e = some (.handshake ((c, ladder) :: todo))) (hsafe : c.Safe e i s.toShared)
    (hown : c.Own e s.toShared) (hrun : c.run q e i s.toShared = .ok (ok, sh)) :
    Kept (s.put e sh (if ok = true then .goOn todo else .cleanup ladder)) := by
  have hret : ∀ d, Retains s.toShared sh d := fun d => hinv.shared.call_retains hsafe (hinv.ready ht).2 hrun
  refine Kept.put (fun d _ hd => (hret d).linked (h.linked d hd)) (fun d _ hd => (hret d).member (h.member d hd))
    (fun hpast => ?_) (fun hpast => ?_)
  · rcases hpast.called c with hbefore | ⟨rfl, rfl⟩
    · exact (hret e).linked (h.linked e ((Peers.past_iff ht).mpr hbefore))
    · exact hinv.shared.addLink_linked hsafe hown hrun
  · rcases hpast.called c with hbefore | ⟨rfl, rfl⟩
    · exact (hret e).member (h.member e ((Peers.past_iff ht).mpr hbefore))
    · exact hinv.shared.dpgInsert_member hrun

theorem Kept.loop (h : Kept s) (hinv : Inv s L) (ht : s.thread e = some .loop) {lc : LoopCall} {ok : Bool}
    (hsafe : lc.Safe e i s.toShared) (hrun : lc.run q e i s.toShared = .ok (ok, sh)) :
    Kept (s.put e sh (if ok = true then .loop else .cleanup dpThCleanup)) := by
  have hret : ∀ d, Retains s.toShared sh d := fun d => hinv.shared.loopCall_retains hsafe hrun
  -- in the loop a peer is past everything
  have hpast : ∀ c, s.Past c e := fun c => (Peers.past_iff ht).mpr trivial
  exact Kept.put (fun d _ hd => (hret d).linked (h.linked d hd)) (fun d _ hd => (hret d).member (h.member d hd))
    (fun _ => (hret e).linked (h.linked e (hpast _))) (fun _ => (hret e).member (h.member e (hpast _)))

theorem Kept.undo (h : Kept s) (hinv : Inv s L) {ladder : List Undo} (hsafe : u.Safe e al s.toShared)
    (hown : u.Own e s) (hrun : u.run e al s.toShared = .ok sh) : Kept (s.put e sh (.cleanup ladder)) := by
  obtain ⟨hlinked, hmember⟩ := hinv.shared.undo_retains hsafe hrun
  refine Kept.put (fun d hde hd => hlinked d ?_ (h.linked d hd)) (fun d hde hd => hmember d ?_ (h.member d hd))
    False.elim False.elim
  · rintro rfl
    exact hown d hde hd
  · rintro rfl
    exact hown d hde hd

/-- **A proper step keeps everybody's registration.** -/
theorem Kept.step (h : Kept s) (hinv : Inv s L) {ev : Event} (hprop : ev.Proper s) (hstep : s.step q ev = .ok s') :
    Kept s' := by
  obtain ⟨hsafe, hown⟩ := hprop
  cases Peers.step_cases hstep with
  | idle => exact h
  | @spawn e entry _ spawned _ =>
      refine Kept.put (fun d _ hd => h.linked d hd) (fun d _ hd => h.member d hd) (fun hpast => ?_)
        (fun hpast => ?_)
      · cases spawned with
        | true => exact absurd hpast (entry_not_past entry _ (Or.inl rfl))
        | false => exact hpast.elim
      · cases spawned with
        | true => exact absurd hpast (entry_not_past entry _ (Or.inr rfl))
        | false => exact hpast.elim
  | call ht hrun =>
      simp only [Event.Safe, ht] at hsafe
      simp only [Event.Own, ht] at hown
      exact h.call hinv ht hsafe hown hrun
  | loop ht hrun => exact h.loop hinv ht hsafe hrun
  | undo ht hrun =>
      simp only [Event.Safe, ht] at hsafe
      simp only [Event.Own, ht] at hown
      exact h.undo hinv hsafe hown hrun
  | free _ => exact Kept.put (fun d _ hd => h.linked d hd) (fun d _ hd => h.member d hd) False.elim False.elim

/-! ### Whole runs -/

namespace Peers

/-- A run under a condition is a run under a weaker one. -/
theorem Run.imp {P Q : Peers → Event → Prop} (hPQ : ∀ s e, P s e → Q s e) (h : Run q P s) : Run q Q s := by
  induction h with
  | start h => exact .start h
  | step _ hP hstep ih => exact ih.step (hPQ _ _ hP) hstep

/-- **Run lemma.** -/
theorem Run.kept (h : Run q Event.Proper s) : Kept s := by
  induction h with
  | @start s h =>
      have hno : ∀ c d, ¬ s.Past c d := by
        rintro c d ⟨t, ht, -⟩
        rw [h.thread d] at ht
        cases ht
      exact ⟨fun d hd => absurd hd (hno _ d), fun d hd => absurd hd (hno _ d)⟩
  | step hrun hprop hstep ih =>
      obtain ⟨L, hinv⟩ := (hrun.imp fun _ _ h => h.1).inv
      exact ih.step hinv hprop hstep

/-- **A registered peer stays registered**: from its successful `dpg_insert` and `rt_dhost_add_link` until its own
    clean-up begins, the group has it and local has a link to a record of type `HT_DIRECT` that points into it. -/
theorem Run.registered (h : Run q Event.Proper s) (hd : s.Past .dpgInsert d ∧ s.Past .rtDhostAddLink d) :
    d ∈ s.dps.items ∧ LinkedInto s.rd d :=
  ⟨h.kept.member d hd.1, h.kept.linked d hd.2⟩

/-! ### Four short runs -/

/-- The peer whose thread acts. -/
def peerOf : Event → Nat
  | .spawn d _ _ _ | .call d _ | .loop d _ _ | .undo d _ | .free d => d

/-- A step moves no other thread. -/
theorem step_others {ev : Event} (hstep : s.step q ev = .ok s') (hne : d ≠ peerOf ev) : s'.thread d = s.thread d := by
  have hput : ∀ {e : Nat} {sh : Shared} {t : Thread Call Undo}, d ≠ e → (s.put e sh t).thread d = s.thread d :=
    fun hde => Function.update_of_ne hde _ _
  cases Peers.step_cases hstep with
  | idle => rfl
  | spawn _ => exact hput hne
  | call _ _ => exact hput hne
  | loop _ _ => exact hput hne
  | undo _ _ => exact hput hne
  | free _ => exact hput hne

theorem steps_others : ∀ {es : List Event} {s : Peers}, steps q es s = .ok s' → (∀ ev ∈ es, d ≠ peerOf ev) →
    s'.thread d = s.thread d := by
  intro es
  induction es with
  | nil =>
      intro s hs _
      cases hs
      rfl
  | cons ev es ih =>
      intro s hs hne
      obtain ⟨s1, h1, hs⟩ := bind_eq_ok.mp hs
      exact (ih hs fun ev' h' => hne ev' (List.mem_cons_of_mem _ h')).trans (step_others h1 (hne ev (List.mem_cons_self)))

/-- A peer that has its MAC to itself is in nobody's way. -/
theorem own_of_distinct (hinv : Inv s L) {ev : Event} (hown : ∀ e, e ≠ peerOf ev → s.thread e = none ∨
    s.thread (peerOf ev) = none ∨ dpMac s.env e ≠ dpMac s.env (peerOf ev)) : ev.Own s := by
  have hmac : ∀ {t}, s.thread (peerOf ev) = some t → ∀ e, e ≠ peerOf ev → ∀ t', s.thread e = some t' →
      dpMac s.env e ≠ dpMac s.env (peerOf ev) := by
    intro t ht e he t' ht'
    have h := hown e he
    simpa only [ht, ht', reduceCtorEq, false_or] using h
  -- whom the table points into, and who is past a step, is a thread that runs
  cases ev with
  | spawn d entry host spawned => trivial
  | loop d c i => trivial
  | free d => trivial
  | call d i =>
      simp only [Event.Own]
      split
      next c _ _ ht =>
        cases c with
        | rtDhostAddLink =>
            intro e he hp
            obtain ⟨t', ht', -⟩ := hinv.points e hp
            exact hmac ht e he t' ht'
        | _ => trivial
      next => trivial
  | undo d al =>
      simp only [Event.Own]
      split
      next u _ ht =>
        cases u with
        | rtDhostRemove => exact fun e he ⟨t', ht', _⟩ => hmac ht e he t' ht'
        | dpgRemove => exact fun e he ⟨t', ht', _⟩ => hmac ht e he t' ht'
      next => trivial

/-- What the surroundings of host `2` decide when all goes well. -/
def otherInput : Input := { fineInput with host := lineHost 2, srcMac := (lineHost 2).mac }

/-- Host `2` connects while host `1` does, and both threads come to their loops; then the second connection breaks,
    and its thread cleans up. -/
def bothEvents : List Event :=
  [.spawn 0 .incoming (lineHost 1) true, .call 0 fineInput, .call 0 fineInput,
    .spawn 1 .incoming (lineHost 2) true, .call 1 otherInput, .call 0 fineInput, .call 1 otherInput,
    .call 1 otherInput, .call 1 otherInput, .call 0 fineInput, .call 1 otherInput, .call 0 fineInput,
    .loop 0 .data fineInput, .loop 1 .other { otherInput with ok := false }, .undo 1 [], .undo 1 []]

/-- The first of the two is still registered when the second one is about to be freed. -/
theorem registered_both : ∃ s, Run .insertion Event.Proper s ∧ s.thread 1 = some (.cleanup []) ∧
    (s.Past .dpgInsert 0 ∧ s.Past .rtDhostAddLink 0) ∧ (0 ∈ s.dps.items ∧ LinkedInto s.rd 0) := by
  have h : (do
      let s0 ← start .insertion (lineHost 0)
      let s ← steps .insertion bothEvents s0
      pure (s.thread 0, s.thread 1)) = Except.ok (some .loop, some (.cleanup [])) := by
    decide +kernel
  obtain ⟨s0, h0, h⟩ := bind_eq_ok.mp h
  obtain ⟨s, hs, h⟩ := bind_eq_ok.mp h
  simp only [pure_eq_ok, Except.ok.injEq, Prod.mk.injEq] at h
  obtain ⟨hloop, hcleanup⟩ := h
  have hplain : ∀ ev ∈ bothEvents, Plain ev ∧ peerOf ev ≤ 1 := by
    simp [bothEvents, Plain, otherInput, fineInput, peerOf]
  have hstart := initial_start h0
  have hchecked : ∀ k < bothEvents.length, (do
      let s0 ← start .insertion (lineHost 0)
      let s ← steps .insertion (bothEvents.take k) s0
      pure (decide (HasDead s.rd), decide (s.thread 0 = none ∨ s.thread 1 = none ∨
        (dpMac s.env 0).toOption ≠ (dpMac s.env 1).toOption))) = Except.ok (false, true) := by
    decide +kernel
  have hdead : ∀ k < bothEvents.length, (do
      let s0 ← start .insertion (lineHost 0)
      let s ← steps .insertion (bothEvents.take k) s0
      pure (decide (HasDead s.rd))) = Except.ok false := by
    intro k hk
    have hboth := hchecked k hk
    rw [h0, ok_bind] at hboth ⊢
    obtain ⟨sk, hsk, hboth⟩ := bind_eq_ok.mp hboth
    rw [hsk, ok_bind]
    exact congrArg (Except.map Prod.fst) hboth
  have hrun : Run .insertion Event.Proper s := by
    refine Run.steps (.start hstart) hs fun k sk ev hk he => ?_
    obtain ⟨hev, hpeer⟩ := hplain ev (List.mem_of_getElem? he)
    obtain ⟨hlt, -⟩ := List.getElem?_eq_some_iff.mp he
    have hsafe : Run .insertion Event.Safe sk := by
      refine run_safe h0 hk (fun e h' => (hplain e (List.mem_of_mem_take h')).1) fun j hj => ?_
      rw [List.length_take] at hj
      rw [List.take_take, min_eq_left (by omega)]
      exact hdead j (by omega)
    obtain ⟨L, hinv⟩ := hsafe.inv
    have hk' := hchecked k hlt
    simp only [h0, hk, ok_bind, pure_eq_ok, Except.ok.injEq, Prod.mk.injEq, decide_eq_true_eq,
      decide_eq_false_iff_not] at hk'
    obtain ⟨hnodead, hdistinct⟩ := hk'
    have hmacs : sk.thread 0 = none ∨ sk.thread 1 = none ∨ dpMac sk.env 0 ≠ dpMac sk.env 1 :=
      hdistinct.imp_right fun h => h.imp_right fun hne heq => hne (congrArg Except.toOption heq)
    refine ⟨hev.safe hnodead, own_of_distinct hinv fun e hne => ?_⟩
    by_cases he : e ≤ 1
    · obtain ⟨h0', h1'⟩ | ⟨h1', h0'⟩ : (e = 0 ∧ peerOf ev = 1) ∨ (e = 1 ∧ peerOf ev = 0) := by omega
      · rw [h0', h1']
        exact hmacs
      · rw [h0', h1']
        exact or_left_comm.mp (hmacs.imp_right fun h => h.imp_right Ne.symm)
    · -- nobody else was ever created
      left
      refine (steps_others hk fun ev' h' => ?_).trans (hstart.thread e)
      have := (hplain ev' (List.mem_of_mem_take h')).2
      omega
  have hpast : s.Past .dpgInsert 0 ∧ s.Past .rtDhostAddLink 0 := ⟨⟨_, hloop, trivial⟩, ⟨_, hloop, trivial⟩⟩
  exact ⟨s, hrun, hcleanup, hpast, hrun.registered hpast⟩

/-- A link graph packet of host `1` without edges. -/
def graphInput : Input := { fineInput with plink := some (u16Bytes 0 ++ (pktIpv4Pack (lineHost 1)).bytes) }

/-- A second connection to host `1` is rejected by `dpg_insert`, and its clean-up removes the link of the first. -/
def secondEvents : List Event :=
  incomingEvents ++ .spawn 1 .linkstate (lineHost 1) true :: List.replicate 6 (.call 1 graphInput) ++ [.undo 1 []]

/-- A second connection from host `1` breaks before its `dpg_insert`, and its clean-up removes the first from the
    group. -/
def brokenEvents : List Event :=
  incomingEvents ++ [.spawn 1 .incoming (lineHost 1) true, .call 1 fineInput, .call 1 fineInput,
    .call 1 { fineInput with ok := false }, .undo 1 []]

/-- Two connections to host `1`: the record points into the one that came first, the group has the other. -/
def twiceEvents : List Event :=
  .spawn 0 .linkstate (lineHost 1) true :: List.replicate 4 (.call 0 fineInput) ++
    .spawn 1 .linkstate (lineHost 1) true :: List.replicate 6 (.call 1 graphInput)

/-- After these steps of the peers of host `0`, peer `d` is past both calls and yet not registered. -/
def Unregisters (es : List Event) (d : Nat) : Prop :=
  ∃ s0 s, start .insertion (lineHost 0) = .ok s0 ∧ steps .insertion es s0 = .ok s ∧
    Run .insertion (fun _ _ => True) s ∧ (s.Past .dpgInsert d ∧ s.Past .rtDhostAddLink d) ∧
    ¬ (d ∈ s.dps.items ∧ LinkedInto s.rd d)

theorem unregisters {es : List Event} (h : (do
    let s0 ← start .insertion (lineHost 0)
    let s ← steps .insertion es s0
    pure ((s.thread d).map fun t => decide (Ladder.Past .dpgInsert t ∧ Ladder.Past .rtDhostAddLink t),
      decide (d ∈ s.dps.items ∧ PointsInto s.rd d))) = Except.ok (some true, false)) : Unregisters es d := by
  obtain ⟨s0, h0, h⟩ := bind_eq_ok.mp h
  obtain ⟨s, hs, h⟩ := bind_eq_ok.mp h
  simp only [pure_eq_ok, Except.ok.injEq, Prod.mk.injEq, Option.map_eq_some_iff, decide_eq_true_eq,
    decide_eq_false_iff_not] at h
  obtain ⟨⟨t, ht, hinsert, hlink⟩, hno⟩ := h
  refine ⟨s0, s, h0, hs, ?_, ⟨⟨t, ht, hinsert⟩, ⟨t, ht, hlink⟩⟩, fun hreg => hno ⟨hreg.1, hreg.2.pointsInto⟩⟩
  exact Run.steps (.start (initial_start h0)) hs fun _ _ _ _ _ => trivial

/-- **With two connections to one host, either may undo the registration of the other.** -/
theorem registered_undone : Unregisters secondEvents 0 ∧ Unregisters brokenEvents 0 ∧ Unregisters twiceEvents 1 := by
  refine ⟨unregisters ?_, unregisters ?_, unregisters ?_⟩
  · decide +kernel
  · decide +kernel
  · decide +kernel

end Peers

end

end P2pVn
