import P2pVn.DPeer.Dpg
import P2pVn.DPeer.Framing
import P2pVn.Routing.Network

/-!
# `DPeer.Outputs` — packets to several peers (`dpeer.c`, `dpg.c`)

A frame is sent on to the peers that a lookup hands out, and `dpg_send_linkstate` sends the link state to the whole
group. Both send to one peer after the other and go on whatever a call returns, so what a peer gets depends on
its own connection only (`sendAll_apply`).

- `forwardData_sends`, `dpgSendLinkstate_sends`: the two functions, as lists of packets.
- `dpgSendLinkstate_once`: every member of the group gets the link state once, and nobody else.
-/

namespace P2pVn
open CUb

/-! ## Several packets -/

/-- Write packets to peers, one after the other, whatever the calls return. -/
def sendAll (me : Ipv4Host) (ms : List (Nat × Write)) (out : Nat → Outgoing) : Nat → Outgoing :=
  ms.foldl (fun out m => Function.update out m.1 (m.2.send me (out m.1)).2) out

variable {me : Ipv4Host} {env : ExtMem} {ms : List (Nat × Write)} {out : Nat → Outgoing} {d : Nat} {w : Write}

@[simp] theorem sendAll_nil : sendAll me [] out = out := rfl

theorem sendAll_cons (m : Nat × Write) : sendAll me (m :: ms) out
    = sendAll me ms (Function.update out m.1 (m.2.send me (out m.1)).2) := rfl

/-- **What a peer's stream comes to depends on the packets for it, and on nothing else**: no other connection, and
    no failure on one. -/
theorem sendAll_apply (d : Nat) : ∀ (ms : List (Nat × Write)) (out : Nat → Outgoing), sendAll me ms out d
    = ((ms.filter fun m => m.1 = d).map Prod.snd).foldl (fun o w => (Write.send me o w).2) (out d) := by
  intro ms
  induction ms with
  | nil => exact fun _ => rfl
  | cons m ms ih =>
      intro out
      rw [sendAll_cons, ih]
      by_cases hm : m.1 = d
      · subst hm
        simp
      · rw [List.filter_cons_of_neg (by simpa using hm), Function.update_of_ne (Ne.symm hm)]

/-- One packet to everybody of a list. -/
theorem sendAll_once {ds : List Nat} (hn : ds.Nodup) (d : Nat) : sendAll me (ds.map fun e => (e, w)) out d
    = if d ∈ ds then (w.send me (out d)).2 else out d := by
  have hfilter : (ds.map fun e => (e, w)).filter (fun m => m.1 = d)
      = (ds.filter fun e => e = d).map fun e => (e, w) := by
    rw [List.filter_map]
    rfl
  rw [sendAll_apply, hfilter]
  by_cases hd : d ∈ ds
  · have hone : ds.filter (fun e => e = d) = [d] := by
      rw [List.filter_eq, List.count_eq_one_of_mem hn hd]
      rfl
    rw [if_pos hd, hone]
    rfl
  · have hnone : ds.filter (fun e => e = d) = [] := by
      rw [List.filter_eq_nil_iff]
      intro e he
      simp only [decide_eq_true_eq]
      rintro rfl
      exact hd he
    rw [if_neg hd, hnone]
    rfl

/-! ## A frame to the hosts of a lookup -/

/-- The peers in a list of hosts. -/
def peersOf (ps : List HostPtr) : List Nat :=
  ps.filterMap fun
    | .env (.dp d) => some d
    | _ => none

/-- Send a frame on to everybody in the list; errors are only logged. -/
def sendOn (env : ExtMem) (data : List UInt8) : List HostPtr → (Nat → Outgoing) → Ub (Nat → Outgoing)
  | [], out => .ok out
  | .heap _ :: _, _ => .error .typeConfusion
  | .env .lhost :: _, _ => .error .typeConfusion
  | .env (.dp d) :: ps, out =>
    match env (.dp d) with
    | none => .error .useAfterFree
    | some _ => sendOn env data ps (Function.update out d (dpSendData (out d) data data.length).2)

/-- **A frame goes to each of the peers, unchanged.** -/
theorem sendOn_sends {data : List UInt8} : ∀ (ps : List HostPtr) {out out' : Nat → Outgoing},
    sendOn env data ps out = .ok out' → out' = sendAll me ((peersOf ps).map fun d => (d, .packet ptData data)) out := by
  intro ps
  induction ps with
  | nil =>
      intro out out' h
      cases h
      rfl
  | cons p ps ih =>
      intro out out' h
      cases p with
      | heap ip => cases h
      | env p =>
          cases p with
          | lhost => cases h
          | dp d =>
              unfold sendOn at h
              split at h
              · cases h
              · exact ih h

/-- The loop of `dp_recv_packet` is this one. -/
theorem forwardData_eq {data : List UInt8} : ∀ (ps : List HostPtr) (s : Peer),
    forwardData data ps s = (sendOn s.env data ps s.out).map fun out => { s with out := out } := by
  intro ps
  induction ps with
  | nil => exact fun _ => rfl
  | cons p ps ih =>
      intro s
      cases p with
      | heap ip => rfl
      | env p =>
          cases p with
          | lhost => rfl
          | dp d =>
              unfold forwardData sendOn
              cases s.env (.dp d) with
              | none => rfl
              | some ip => exact ih _

theorem forwardData_sends {data : List UInt8} {ps : List HostPtr} {s s' : Peer}
    (h : forwardData data ps s = .ok s') (me : Ipv4Host) :
    s' = { s with out := sendAll me ((peersOf ps).map fun d => (d, .packet ptData data)) s.out } := by
  rw [forwardData_eq] at h
  cases hs : sendOn s.env data ps s.out with
  | error e =>
      rw [hs] at h
      cases h
  | ok out =>
      rw [hs] at h
      cases h
      have hout : out = sendAll me _ s.out := sendOn_sends ps hs
      rw [hout]

/-! ## The link state to the group -/

/-- The loop of `dpg_send_linkstate`. What `dp_send_linkstate` returns is ignored. -/
def sendLinkstates (env : ExtMem) (me : Ipv4Host) (edges : List PktEdge) :
    List Nat → (Nat → Outgoing) → Ub (Nat → Outgoing)
  | [], out => .ok out
  | d :: ds, out =>
    match env (.dp d) with
    | none => .error .useAfterFree
    | some _ => sendLinkstates env me edges ds (Function.update out d (dpSendLinkstate (out d) me edges).2)

/-- `dpg_send_linkstate`. -/
def dpgSendLinkstate (env : ExtMem) (me : Ipv4Host) (rd : Routing) (dps : Da Nat) (out : Nat → Outgoing) :
    Ub (Int × (Nat → Outgoing)) :=
  let (ret, edges) := rd.rtGetEdges
  if ret ≠ 0 then .ok (-2, out)
  else do
    let out ← sendLinkstates env me edges dps.items out
    pure (0, out)

/-- `dp_send_peer_linkstate` of peer `d`. -/
def dpSendPeerLinkstate (me : Ipv4Host) (rd : Routing) (d : Nat) (out : Nat → Outgoing) : Int × (Nat → Outgoing) :=
  let (ret, edges) := rd.rtGetEdges
  if ret < 0 then (-2, out)
  else
    let (ret, o) := dpSendLinkstate (out d) me edges
    (ret, Function.update out d o)

theorem sendLinkstates_sends {edges : List PktEdge} : ∀ (ds : List Nat) {out out' : Nat → Outgoing},
    sendLinkstates env me edges ds out = .ok out' →
      out' = sendAll me (ds.map fun d => (d, .linkstate edges)) out ∧ ∀ d ∈ ds, env (.dp d) ≠ none := by
  intro ds
  induction ds with
  | nil =>
      intro out out' h
      cases h
      exact ⟨rfl, nofun⟩
  | cons d ds ih =>
      intro out out' h
      unfold sendLinkstates at h
      split at h
      · cases h
      · rename_i ip hip
        obtain ⟨he, hlive⟩ := ih h
        refine ⟨he, List.forall_mem_cons.mpr ⟨?_, hlive⟩⟩
        rw [hip]
        exact nofun

theorem sendLinkstates_ok {edges : List PktEdge} : ∀ (ds : List Nat) (out : Nat → Outgoing),
    (∀ d ∈ ds, env (.dp d) ≠ none) → ∃ out', sendLinkstates env me edges ds out = .ok out' := by
  intro ds
  induction ds with
  | nil => exact fun out _ => ⟨out, rfl⟩
  | cons d ds ih =>
      intro out hlive
      unfold sendLinkstates
      split
      · rename_i hnone
        exact absurd hnone (hlive d List.mem_cons_self)
      · exact ih _ fun e he => hlive e (List.mem_cons_of_mem d he)

/-- **`dpg_send_linkstate` sends what `rt_get_edges` gives to each of the group.** -/
theorem dpgSendLinkstate_sends {rd : Routing} {dps : Da Nat} {ret : Int} {out' : Nat → Outgoing}
    (h : dpgSendLinkstate env me rd dps out = .ok (ret, out')) :
    ret = 0 ∧ out' = sendAll me (dps.items.map fun d => (d, .linkstate rd.edges.items)) out := by
  unfold dpgSendLinkstate Routing.rtGetEdges at h
  simp only [ne_eq, not_true_eq_false, if_false] at h
  obtain ⟨out1, h1, h⟩ := bind_eq_ok.mp h
  cases h
  exact ⟨rfl, (sendLinkstates_sends _ h1).1⟩

theorem dpSendPeerLinkstate_sends (rd : Routing) (d : Nat) :
    (dpSendPeerLinkstate me rd d out).2 = sendAll me [(d, .linkstate rd.edges.items)] out := rfl

/-- **Every member of the group gets the link state once**, on a searchable group, whatever `send` does: a member
    whose connection fails costs nobody else theirs, and who is not in the group gets nothing. -/
theorem dpgSendLinkstate_once (me : Ipv4Host) (hg : DpgOk env dps) (rd : Routing) (out : Nat → Outgoing) :
    ∃ out', dpgSendLinkstate env me rd dps out = .ok (0, out') ∧
      ∀ d, out' d = if d ∈ dps.items then (dpSendLinkstate (out d) me rd.edges.items).2 else out d := by
  have hlive : ∀ d ∈ dps.items, env (.dp d) ≠ none := by
    intro d hd hnone
    obtain ⟨m, hm⟩ := hg.live d hd
    obtain ⟨ip, hip, -⟩ := dpMac_eq_ok.mp hm
    rw [hip] at hnone
    cases hnone
  obtain ⟨out', h'⟩ : ∃ out', sendLinkstates env me rd.edges.items dps.items out = .ok out' :=
    sendLinkstates_ok _ out hlive
  have hrun : dpgSendLinkstate env me rd dps out = .ok (0, out') := by
    unfold dpgSendLinkstate Routing.rtGetEdges
    simp only [ne_eq, not_true_eq_false, if_false, h', ok_bind]
    rfl
  refine ⟨out', hrun, fun d => ?_⟩
  rw [(dpgSendLinkstate_sends hrun).2, sendAll_once hg.nodup]
  rfl

/-! ## The group over a run -/

/-- What the group is for: at most one peer for each MAC. -/
abbrev Group := EtherAddr → Option Nat

/-- The runs of `dpg_insert` and `dpg_remove` after `dpg_init`, with any allocation failing, beside what the group is
    for: an insertion that succeeds puts the peer under its MAC, and a removal leaves nobody under it. -/
inductive GroupRun (q : Qsort) (env : ExtMem) : Group → Da Nat → Prop where
  | init : GroupRun q env (fun _ => none) ⟨[], 8⟩
  | insert {group : Group} {g g' : Da Nat} {d : Nat} {al : AllocScript} {ret : Int} {m : EtherAddr}
      (h : GroupRun q env group g) (hm : dpMac env d = .ok m) (hrun : dpgInsert q env g d al = .ok (ret, g')) :
      GroupRun q env (if ret = 0 then Function.update group m (some d) else group) g'
  | remove {group : Group} {g g' : Da Nat} {d : Nat} {ret : Int} {m : EtherAddr} (h : GroupRun q env group g)
      (hm : dpMac env d = .ok m) (hrun : dpgRemove env g d = .ok (ret, g')) :
      GroupRun q env (Function.update group m none) g'

section

variable {q : Qsort} {group : Group} {g g' : Da Nat} {al : AllocScript} {ret : Int} {m : EtherAddr}

/-- An insertion that succeeds finds nobody with the MAC. -/
theorem dpgInsert_absent (hg : DpgOk env g) (hm : dpMac env d = .ok m) (h : dpgInsert q env g d al = .ok (0, g')) :
    ∀ e ∈ g.items, dpMac env e ≠ .ok m := by
  obtain ⟨found, hfound, h⟩ := bind_eq_ok.mp h
  cases found with
  | some i => cases h
  | none =>
      obtain ⟨m', hm', habsent⟩ := bsearchDpg_none hg hfound
      obtain rfl : m = m' := Except.ok.inj (hm.symm.trans hm')
      exact habsent

/-- **The group refines the map**: it stays searchable, and its members are the peers that the map has. -/
theorem GroupRun.implements (h : GroupRun q env group g) :
    DpgOk env g ∧ ∀ d, d ∈ g.items ↔ ∃ m, dpMac env d = .ok m ∧ group m = some d := by
  induction h with
  | init =>
      refine ⟨⟨nofun, List.Pairwise.nil⟩, fun d => ⟨nofun, ?_⟩⟩
      rintro ⟨m, -, hd⟩
      cases hd
  | @insert group g g' d al ret m _ hm hrun ih =>
      obtain ⟨hg, hmem⟩ := ih
      obtain ⟨hg', ⟨hret, hsame⟩ | ⟨rfl, hadded⟩⟩ := dpgInsert_cases hg hrun
      · rw [if_neg hret, hsame]
        exact ⟨hg', hmem⟩
      · refine ⟨hg', fun e => ?_⟩
        have habsent := dpgInsert_absent hg hm hrun
        rw [if_pos rfl, hadded]
        by_cases he : e = d
        · subst he
          exact ⟨fun _ => ⟨m, hm, by rw [Function.update_self]⟩, fun _ => Or.inr rfl⟩
        · rw [hmem, or_iff_left he]
          refine exists_congr fun m' => and_congr_right fun hm' => ?_
          by_cases hmm : m' = m
          · -- nobody else has the MAC, and the map has nobody but the new peer there
            subst hmm
            rw [Function.update_self]
            constructor
            · intro he'
              exact absurd hm' (habsent e ((hmem e).mpr ⟨m', hm', he'⟩))
            · intro he'
              exact absurd (Option.some.inj he').symm he
          · rw [Function.update_of_ne hmm]
  | @remove group g g' d ret m _ hm hrun ih =>
      obtain ⟨hg, hmem⟩ := ih
      obtain ⟨hg', m', hm', hleft⟩ := dpgRemove_cases hg hrun
      obtain rfl : m = m' := Except.ok.inj (hm.symm.trans hm')
      refine ⟨hg', fun e => ?_⟩
      rw [hleft, hmem]
      constructor
      · rintro ⟨⟨x, hx, he⟩, hne⟩
        refine ⟨x, hx, ?_⟩
        rw [Function.update_of_ne]
        · exact he
        · rintro rfl
          exact hne hx
      · rintro ⟨x, hx, he⟩
        by_cases hxm : x = m
        · subst hxm
          rw [Function.update_self] at he
          cases he
        · rw [Function.update_of_ne hxm] at he
          refine ⟨⟨x, hx, he⟩, fun hmx => hxm ?_⟩
          exact Except.ok.inj (hx.symm.trans hmx)

/-- **The link state goes to the peers that are in the group, once to each.** After any run of insertions and
    removals, with any failures, and whatever `send` does: `dpg_send_linkstate` returns `0`; for who is in the group
    under its own MAC `dp_send_linkstate` is called once, and everybody else's stream is as it was. -/
theorem GroupRun.linkstate_once (me : Ipv4Host) (h : GroupRun q env group g) (rd : Routing) (out : Nat → Outgoing) :
    ∃ out', dpgSendLinkstate env me rd g out = .ok (0, out') ∧ ∀ d,
      ((∃ m, dpMac env d = .ok m ∧ group m = some d) → out' d = (dpSendLinkstate (out d) me rd.edges.items).2) ∧
      ((¬ ∃ m, dpMac env d = .ok m ∧ group m = some d) → out' d = out d) := by
  obtain ⟨hg, hmem⟩ := h.implements
  obtain ⟨out', hrun, hout⟩ := dpgSendLinkstate_once me hg rd out
  refine ⟨out', hrun, fun d => ?_⟩
  rw [hout d, ← hmem]
  exact ⟨fun hd => if_pos hd, fun hd => if_neg hd⟩

end

/-- Two peers are inserted, and the first of them is removed: the link state goes to the second one only. -/
theorem GroupRun.linkstate_once_line : ∃ group g, GroupRun .insertion Routing.lineExt group g ∧ g.items = [1] ∧
    ∃ out', dpgSendLinkstate Routing.lineExt (Routing.lineHost 0) (Routing.rtInit []).2 g (fun _ => ⟨[], []⟩)
      = .ok (0, out') ∧ (out' 0).sent.length = 0 ∧ (out' 1).sent.length = 18 := by
  have h0 : dpgInsert .insertion Routing.lineExt ⟨[], 8⟩ 0 [] = .ok (0, ⟨[0], 8⟩) := by decide +kernel
  have h1 : dpgInsert .insertion Routing.lineExt ⟨[0], 8⟩ 1 [] = .ok (0, ⟨[0, 1], 8⟩) := by decide +kernel
  have h2 : dpgRemove Routing.lineExt ⟨[0, 1], 8⟩ 0 = .ok (0, ⟨[1], 8⟩) := by decide +kernel
  have hrun := ((GroupRun.init.insert rfl h0).insert rfl h1).remove rfl h2
  obtain ⟨out', hsend, hout⟩ := GroupRun.linkstate_once (Routing.lineHost 0) hrun (Routing.rtInit []).2
    fun _ => ⟨[], []⟩
  have hmem := hrun.implements.2
  refine ⟨_, _, hrun, rfl, out', hsend, ?_, ?_⟩
  · rw [(hout 0).2 fun hin => absurd ((hmem 0).mpr hin) (by decide)]
    rfl
  · rw [(hout 1).1 ((hmem 1).mp (List.mem_singleton_self 1))]
    decide +kernel

end P2pVn
