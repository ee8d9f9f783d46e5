import P2pVn.Mesh.Network

/-!
# `Mesh.Traffic` — nothing multiplies on its way

Every packet but a link state is there because of something: a frame that a tap gave, or a probe that a timer sent
(`Packet.cause`). A node that takes a packet sends at most one other for the same cause, if the cause is a frame for
one host, or a probe. So there are never more packets under way for a cause than the times it occurred, whichever
tables the nodes have, and in whatever order they act: two nodes that take each other for the next hop pass a frame
back and forth, but it stays one frame.

## Contents
- `rtDhostsToHost_single`: a lookup for a host finds at most one peer.
- `Station.act_caused`, `Station.receive_caused`: the packets of one step, by cause.
- `Site.packets_conserved` and `Site.bytes_conserved`: the packets under way, over a run.
-/

namespace P2pVn
open CUb Bytes Channel Routing

/-! ## Causes -/

/-- What packets are there for. -/
inductive Cause where
  | frame (data : List UInt8)
  | probe (seq : UInt16)
  deriving DecidableEq

/-- A frame that is not for a group, or a probe. -/
def Cause.Single : Cause → Prop
  | .frame data => etherAddrIsMcast (frameDst data) = false
  | .probe _ => True

/-- What a packet is there for; link states are sent again and again to everybody. -/
def Packet.cause : Packet → Option Cause
  | .data frame => some (.frame frame)
  | .linkstate _ => none
  | .probeReq seq => some (.probe seq)
  | .probeResp seq => some (.probe seq)

/-- What an action starts. -/
def Action.starts : Action → Option Cause
  | .tap frame => some (.frame frame)
  | .probe _ rnd _ => some (.probe rnd)
  | _ => none

def Site.Event.starts {ι : Type} : Site.Event ι → Option Cause
  | .act _ a => a.starts
  | .receive _ _ _ _ => none

/-- Whether a packet is there for `k`. -/
def Packet.isFor (k : Cause) (p : Packet) : Bool := p.cause = some k

/-- How many of the packets are there for `k`. -/
def countFor (k : Cause) (ms : List (Nat × Packet)) : Nat := ms.countP fun m => m.2.isFor k

theorem countFor_of_forall {k : Cause} {ms : List (Nat × Packet)} (h : ∀ m ∈ ms, m.2.cause ≠ some k) :
    countFor k ms = 0 := by
  apply List.countP_eq_zero.mpr
  intro m hm
  simpa [Packet.isFor] using h m hm

theorem countFor_singleton (k : Cause) (d : Nat) (p : Packet) :
    countFor k [(d, p)] = if p.isFor k then 1 else 0 := List.countP_singleton

/-- Copies of a frame, of which there is at most one where the frame is for one host. -/
theorem countFor_data {k : Cause} (hk : k.Single) {frame : List UInt8} {ds : List Nat}
    (hds : etherAddrIsMcast (frameDst frame) = false → ds.length ≤ 1) :
    countFor k (ds.map fun d => (d, .data frame)) ≤ if (Packet.data frame).isFor k then 1 else 0 := by
  by_cases hf : k = .frame frame
  · subst hf
    rw [if_pos (by simp [Packet.isFor, Packet.cause])]
    have hlen := hds hk
    have hle : countFor (.frame frame) (ds.map fun d => (d, .data frame)) ≤ _ := List.countP_le_length
    rw [List.length_map] at hle
    exact le_trans hle hlen
  · rw [countFor_of_forall]
    · exact Nat.zero_le _
    · intro m hm hcause
      obtain ⟨d, -, rfl⟩ := List.mem_map.mp hm
      exact hf (Option.some.inj hcause).symm

/-! ## One step -/

section

variable {q : Qsort} {env : ExtMem} {me : Ipv4Host} {d : Nat} {now later : Timeval} {n n' : Station} {a : Action}
  {ms : List (Nat × Packet)} {k : Cause}

theorem length_peersOf_le (ps : List HostPtr) : (peersOf ps).length ≤ ps.length := List.length_filterMap_le _ _

/-- **A lookup for a host finds at most one peer**, in any table. -/
theorem rtDhostsToHost_single {s s' : Routing} {srcMac dstMac : EtherAddr} {f : Forwards}
    (hdst : etherAddrIsMcast dstMac = false) (h : s.rtDhostsToHost env srcMac dstMac = .ok (f, s')) :
    (peersOf f.res).length ≤ 1 := by
  refine le_trans (length_peersOf_le f.res) ?_
  cases rtDhostsToHost_run h with
  | stale _ _ _ => exact Nat.zero_le 1
  | noLocal _ => exact Nat.zero_le 1
  | looked _ _ _ _ hbranch =>
      rw [if_neg (by rw [hdst]; decide)] at hbranch
      cases unicast_run hbranch with
      | unknown _ => exact Nat.zero_le 1
      | discon _ _ _ => exact Nat.zero_le 1
      | noMemory _ _ _ => exact Nat.zero_le 1
      | sent _ _ _ _ _ _ _ => exact Nat.le_refl 1

/-- **What an action sends for a cause** is one packet at most, and none if it does not start it. -/
theorem Station.act_caused (hk : k.Single) (h : n.act q env me a = .ok (n', ms)) :
    countFor k ms ≤ if a.starts = some k then 1 else 0 := by
  cases a with
  | tap frame =>
      obtain ⟨⟨f, rd⟩, hrun, h⟩ := bind_eq_ok.mp h
      cases h
      split
      · exact Nat.zero_le _
      · have hone := countFor_data hk fun hdst => rtDhostsToHost_single hdst hrun
        simpa [Packet.isFor, Packet.cause, Action.starts] using hone
  | probe e rnd now =>
      cases h
      rw [countFor_singleton]
      apply le_of_eq
      simp [Packet.isFor, Packet.cause, Action.starts]
  | announce | announceTo | addLink | removeLink | insert | remove =>
      -- only link states are sent
      rw [countFor_of_forall]
      · exact Nat.zero_le _
      · intro m hm
        obtain ⟨frame, ha, -⟩ | hls | ⟨rnd, now, ha, -⟩ := Station.act_sends h m hm
        · cases ha
        · rw [hls]
          exact nofun
        · cases ha

/-- **What a packet makes its receiver send for a cause** is no more than the packet itself. -/
theorem Station.receive_caused {p : Packet} (hk : k.Single) (h : n.receive q env d now later p = .ok (n', ms)) :
    countFor k ms ≤ if p.isFor k then 1 else 0 := by
  obtain ⟨ret, rd, hhandle⟩ := Station.receive_handles h
  obtain ⟨frame, rfl, -⟩ | ⟨seq, rfl, rfl⟩ | ⟨-, rfl⟩ := Station.receive_sends h
  · obtain ⟨⟨f, rd'⟩, hrun, hhandle⟩ := bind_eq_ok.mp hhandle
    simp only at hhandle
    split at hhandle
    · cases hhandle
      exact Nat.zero_le _
    · cases hhandle
      exact countFor_data hk fun hdst => rtDhostsToHost_single hdst hrun
  · rw [countFor_singleton]
    exact Nat.le_refl _
  · exact Nat.zero_le _

end

/-! ## Runs -/

namespace Site

variable {ι : Type} [DecidableEq ι] {W : Site ι} {q : Qsort} {m : ι → Node} {n n' : Net ι} {k : Cause}

/-- How often the cause has occurred. -/
def started (k : Cause) (es : List (Event ι)) : Nat := es.countP fun e => e.starts = some k

omit [DecidableEq ι] in
theorem countP_mails (c : ι) (ms : List (Nat × Packet)) :
    ((mails c ms).countP fun m => m.2.isFor k) = countFor k ms := by
  rw [mails, List.countP_map]
  rfl

/-- **One step**: what comes into the queues of `E` for a cause was taken from some queue, or the step starts it. -/
theorem PacketStep.conserved {e : Event ι} (hk : k.Single) (h : W.PacketStep q n e n') (E : Finset (ι × Nat)) :
    ∃ E', inFlight (Packet.isFor k) E n'.chan ≤ inFlight (Packet.isFor k) E' n.chan + if e.starts = some k then 1 else 0 := by
  cases h with
  | @act c a st ms _ hact =>
      have hms := Station.act_caused hk hact
      have hput := inFlight_putAll_le (Packet.isFor k) E (mails c ms) n.chan
      rw [countP_mails] at hput
      exact ⟨E, le_trans hput (Nat.add_le_add_left hms _)⟩
  | @receive c d now later p st ms _ _ hnext hne hrecv =>
      have hms := Station.receive_caused hk hrecv
      have hput := inFlight_putAll_le (Packet.isFor k) E (mails c ms)
        (Function.update n.chan (W.other (c, d)) ((n.chan (W.other (c, d))).take hne))
      rw [countP_mails] at hput
      have htake := inFlight_take_le (p := Packet.isFor k) E hnext hne
      refine ⟨insert (W.other (c, d)) E, le_trans hput ?_⟩
      show _ ≤ _ + 0
      omega

/-- **Nothing multiplies.** In a run of the stations there are never more packets under way for a cause than the
    times it has occurred. -/
theorem packets_conserved (hk : k.Single) {es : List (Event ι)} (h : (W.packets q).Run es n) :
    ∀ E, inFlight (Packet.isFor k) E n.chan ≤ started k es := by
  induction h with
  | start hstart =>
      intro E
      apply le_of_eq
      apply Finset.sum_eq_zero
      intro e _
      rw [hstart.2 e, Queue.waits_empty]
  | @step es e n n' _ hstep ih =>
      intro E
      obtain ⟨E', hE⟩ := PacketStep.conserved hk hstep E
      refine le_trans hE ?_
      rw [started, List.countP_cons]
      have hbefore := ih E'
      simp only [decide_eq_true_eq]
      exact Nat.add_le_add_right hbefore _

/-- **Nothing multiplies on the connections.** In a run of the program's nodes, what is still to be read from the
    streams are whole packets; and of these, in any finite number of streams together, no more are there for a frame
    to one host than the times a tap gave it, and for a probe than the times it was sent. -/
theorem bytes_conserved {es : List (Event ι)} (h : (W.bytes q).Run es m) : ∃ waiting : ι × Nat → List Packet,
    (∀ e, (∀ p ∈ waiting e, p.Proper) ∧ (W.stream m e).rest = (waiting e).flatMap (Packet.enc (W.me e.1))) ∧
      ∀ (k : Cause) (E : Finset (ι × Nat)), k.Single →
        ∑ e ∈ E, (waiting e).countP (Packet.isFor k) ≤ started k es := by
  obtain ⟨n, hrun, hlike⟩ := h.follows bytes_follows
  refine ⟨fun e => (n.chan e).waiting, fun e => ⟨fun p hp => ?_, (hlike.carries e).rest⟩, fun k E hk => ?_⟩
  · exact hlike.proper e p (List.mem_of_mem_drop hp)
  · exact packets_conserved hk hrun E

/-- A frame from host `0` to host `1`. -/
def frameTo1 : List UInt8 := (lineHost 1).mac.addr.toList ++ (lineHost 0).mac.addr.toList ++ [8, 0]

/-- Node `0` has a link to node `1`, and its tap gives the frame. -/
def tapEvents : List (Event Bool) := [.act false (.tap frameTo1), .act false (.addLink 0 10 ⟨1, 0⟩)]

theorem bytes_conserved_pair : ∃ (m : Bool → Node) (waiting : Bool × Nat → List Packet), (pair.bytes .insertion).Run tapEvents m ∧
    (pair.stream m (false, 0)).rest = (waiting (false, 0)).flatMap (Packet.enc (lineHost 0)) ∧
    (pair.stream m (false, 0)).rest.length = 18 ∧
      ∑ e ∈ {((false, 0) : Bool × Nat), (true, 0)}, (waiting e).countP (Packet.isFor (.frame frameTo1)) ≤ 1 := by
  have hreplay : (pair.replay .insertion (fun c => aloneAt (pair.env c)) tapEvents).map
      (fun m => (pair.stream m (false, 0)).rest.length) = some 18 := by
    decide +kernel
  obtain ⟨m, hm, hrest⟩ := Option.map_eq_some_iff.mp hreplay
  have hrun := pair.replay_run .insertion pair_start hm
  obtain ⟨waiting, hwaiting, hcount⟩ := bytes_conserved hrun
  have hsingle : (Cause.frame frameTo1).Single := by
    show etherAddrIsMcast (frameDst frameTo1) = false
    decide
  exact ⟨m, waiting, hrun, (hwaiting (false, 0)).2, hrest, hcount (.frame frameTo1) _ hsingle⟩

end Site

end P2pVn
