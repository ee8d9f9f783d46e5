import P2pVn.DPeer.Dpg
import P2pVn.DPeer.Receiving
import P2pVn.Lib.Ladder
import P2pVn.Routing.Updating

/-!
# `DPeer.Threads` — the peer threads and what they share (`dpeer.c`)

Every direct peer has a thread that enters at `dp_th_initial`, `dp_th_linkstate` or `dp_th_incoming`, goes on
in `dp_th` and ends in a clean-up and `free`. What the threads share is the routing table, the group of peers,
and the `remote_host` of every peer, which records of the table point into.

The handshake of an entry function is a list of its calls in their order, each with the ladder of clean-ups
that its failure jumps to; so the lists can be held against the source line by line. A call that touches
nothing but the connection may succeed or fail. All calls that touch shared state hold a lock throughout and
are single steps here; the threads take them in any order.
-/

namespace P2pVn
open CUb Ladder

/-! ## Shared state -/

structure Shared where
  /-- `remote_host` of every live peer, and the local host. -/
  env : ExtMem
  rd : Routing
  /-- `dpg->dps`. -/
  dps : Da Nat

/-- What the surroundings decide about a call: whether a call on the connection succeeds, the outcomes of the
    allocations, the time, the round trip time that was measured, the host in a join packet, the payload of a
    link graph packet (`none` if it could not be received), and the addresses of a data packet. -/
structure Input where
  ok : Bool
  allocs : AllocScript
  now : Timeval
  rttUs : UInt32
  host : Ipv4Host
  plink : Option (List UInt8)
  srcMac : EtherAddr
  dstMac : EtherAddr

/-- `plink->vec_src_host.mac`. -/
def vecSrcMac (plink : List UInt8) : EtherAddr := (PktIpv4Host.ofBytes (plink.drop 2)).mac

namespace Shared

variable (q : Qsort) (s : Shared) (d : Nat) (i : Input)

/-- The table, with the allocations of one call ahead of it. -/
def table (s : Shared) (al : AllocScript) : Routing := { s.rd with allocs := al }

/-- Write `dp->remote_host`. -/
def setHost (s : Shared) (d : Nat) (host : Ipv4Host) : Shared :=
  { s with env := Function.update s.env (.dp d) (some host) }

/-- `rt_dhost_add_link(dp->rd, DP_HOST(dp), rtt_us)`. -/
def addLink (rttUs : UInt32) : Ub (Int × Shared) := do
  let (ret, rd) ← (s.table i.allocs).rtDhostAddLink q s.env (.env (.dp d)) rttUs i.now
  pure (ret, { s with rd := rd })

/-- `rt_dhost_remove(dp->rd, DP_MAC(dp))`. -/
def removeLink (al : AllocScript) : Ub (Int × Shared) := do
  let (ret, rd) ← (s.table al).rtDhostRemove s.env (← dpMac s.env d)
  pure (ret, { s with rd := rd })

/-- `rt_update_edges(dp->rd, es, e_ct)`. -/
def updateEdges (es : List PktEdge) : Ub (Int × Shared) := do
  let (ret, rd) ← (s.table i.allocs).rtUpdateEdges q s.env es
  pure (ret, { s with rd := rd })

/-- The memcpy of `dp_read_pkt_link_graph` into `DP_MAC(dp)`. -/
def populate (s : Shared) (d : Nat) (plink : List UInt8) : Ub Shared := do
  let host ← Routing.ipOf s.env (.env (.dp d))
  pure (s.setHost d { host with mac := vecSrcMac plink })

/-- `dp_read_pkt_link_graph` from the comparison of the edge counts on; whom it connects to get threads of
    their own. -/
def readEdges (plink : List UInt8) : Ub (Int × Shared) :=
  let eCt := linkGraphECt plink.length
  if eCt ≠ ntohs (u16OfBytes plink) then pure (-2, s)
  else if eCt ≠ 0 ∧ plink.length < plLinkGraphStatic + plEdge * eCt.toNat then .error .bufferOverread
  else s.updateEdges q i (linkGraphEdges plink eCt.toNat)

/-- `dp_read_pkt_link_graph(dp, pkt_len, populate_mac)`. -/
def readPktLinkGraph (populateMac : Bool) : Ub (Int × Shared) :=
  match i.plink with
  | none => pure (-1, s)
  | some plink =>
    if plink.length < (if populateMac then plLinkGraphStatic else 2) then .error .bufferOverread
    else if populateMac then do
      let s ← s.populate d plink
      s.readEdges q i plink
    else s.readEdges q i plink

end Shared

/-! ## The entry functions -/

/-- What the clean-up ladders undo. -/
inductive Undo where
  | dpgRemove
  | rtDhostRemove
  deriving DecidableEq, Repr

/-- The calls of a handshake. -/
inductive Call where
  | connectHost
  | connectInet
  | dpSendJoin
  | dpRecvHeader
  | dpHandleJoin
  | dpSendPeerLinkstate
  | dpSendProbeReq
  | dpReadPktLinkGraph
  | dpgInsert
  | rtDhostAddLink
  deriving DecidableEq, Repr

def dpThInitial : Script Call Undo :=
  [(.connectHost, []),
   (.dpSendJoin, []),
   (.dpRecvHeader, []),
   (.dpReadPktLinkGraph, []),
   (.dpgInsert, []),
   (.rtDhostAddLink, [.dpgRemove]),
   (.dpSendProbeReq, [.rtDhostRemove, .dpgRemove])]

def dpThLinkstate : Script Call Undo :=
  [(.connectInet, []),
   (.dpSendJoin, []),
   (.dpRecvHeader, []),
   (.rtDhostAddLink, []),
   (.dpReadPktLinkGraph, [.rtDhostRemove]),
   (.dpgInsert, [.rtDhostRemove]),
   (.dpSendProbeReq, [.dpgRemove, .rtDhostRemove])]

def dpThIncoming : Script Call Undo :=
  [(.dpRecvHeader, []),
   (.dpHandleJoin, []),
   (.dpSendPeerLinkstate, [.dpgRemove]),
   (.dpgInsert, []),
   (.rtDhostAddLink, [.dpgRemove])]

/-- The clean-up of `dp_th`. -/
def dpThCleanup : List Undo := [.dpgRemove, .rtDhostRemove]

inductive EntryPoint where
  | initial
  | linkstate
  | incoming
  deriving DecidableEq, Repr

def EntryPoint.script : EntryPoint → Script Call Undo
  | .initial => dpThInitial
  | .linkstate => dpThLinkstate
  | .incoming => dpThIncoming

/-- `remote_host` at the first call: `dp_create_linkstate` is given all of it, the other two fill the MAC with
    junk. -/
def EntryPoint.remoteHost (host : Ipv4Host) : EntryPoint → Ipv4Host
  | .linkstate => host
  | _ => { host with mac := EtherAddr.junk }

/-- The round trip time that every entry function starts from: one second. -/
def initialRttUs : UInt32 := 1000000

/-- A call of the handshake of peer `d`, and whether it succeeded. -/
def Call.run (q : Qsort) (d : Nat) (i : Input) (s : Shared) : Call → Ub (Bool × Shared)
  | .connectHost | .connectInet | .dpSendJoin | .dpRecvHeader | .dpSendPeerLinkstate | .dpSendProbeReq =>
    pure (i.ok, s)
  | .dpHandleJoin => pure (i.ok, if i.ok then s.setHost d i.host else s)
  | .dpReadPktLinkGraph => do
    let (ret, s) ← s.readPktLinkGraph q d i true
    pure (ret = 0, s)
  | .dpgInsert => do
    let (ret, dps) ← P2pVn.dpgInsert q s.env s.dps d i.allocs
    pure (ret = 0, { s with dps := dps })
  | .rtDhostAddLink => do
    let (ret, s) ← s.addLink q d i initialRttUs
    pure (ret = 0, s)

/-- A rung of a ladder, for peer `d`; its result is ignored. -/
def Undo.run (d : Nat) (al : AllocScript) (s : Shared) : Undo → Ub Shared
  | .dpgRemove => do
    let (_, dps) ← P2pVn.dpgRemove s.env s.dps d
    pure { s with dps := dps }
  | .rtDhostRemove => do
    let (_, s) ← s.removeLink d al
    pure s

/-- What the loop of `dp_th` can do: `dp_handle_probe_resp` with the answer to its own probe, a link graph
    packet, a data packet, or something that touches the connection only. -/
inductive LoopCall where
  | probeResp
  | linkGraph
  | data
  | other
  deriving DecidableEq, Repr

/-- A call of the loop of peer `d`, and whether the loop goes on. -/
def LoopCall.run (q : Qsort) (d : Nat) (i : Input) (s : Shared) : LoopCall → Ub (Bool × Shared)
  | .probeResp => do
    let (ret, s) ← s.addLink q d i i.rttUs
    pure (ret = 0, s)
  | .linkGraph => do
    let (ret, s) ← s.readPktLinkGraph q d i false
    pure (ret = 0, s)
  | .data => do
    let (f, rd) ← (s.table i.allocs).rtDhostsToHost s.env i.srcMac i.dstMac
    pure (¬ f.ret < 0, { s with rd := rd })
  | .other => pure (i.ok, s)

/-! ## Threads -/

/-- The peers and the threads they have, by the address of the peer. -/
structure Peers extends Shared where
  thread : Nat → Option (Thread Call Undo)

/-- What happens next. `spawn` is `dp_create_initial`, `dp_create_linkstate` or `dp_create_incoming`, which
    frees the peer if it cannot start the thread. -/
inductive Event where
  | spawn (d : Nat) (entry : EntryPoint) (host : Ipv4Host) (spawned : Bool)
  | call (d : Nat) (i : Input)
  | loop (d : Nat) (c : LoopCall) (i : Input)
  | undo (d : Nat) (al : AllocScript)
  | free (d : Nat)

namespace Peers

/-- Thread `d` has come to `t`, and the shared state to `sh`. -/
def put (s : Peers) (d : Nat) (sh : Shared) (t : Thread Call Undo) : Peers :=
  ⟨sh, Function.update s.thread d (some t)⟩

/-- One step. An event for which its thread is not ready changes nothing. -/
def step (q : Qsort) (s : Peers) : Event → Ub Peers
  | .spawn d entry host spawned =>
    match s.thread d with
    | none => pure (s.put d (s.setHost d (entry.remoteHost host))
        (if spawned then .handshake entry.script else .cleanup []))
    | some _ => pure s
  | .call d i =>
    match s.thread d with
    | some (.handshake ((c, ladder) :: todo)) => do
      let (ok, sh) ← c.run q d i s.toShared
      pure (s.put d sh (if ok then .goOn todo else .cleanup ladder))
    | _ => pure s
  | .loop d c i =>
    match s.thread d with
    | some .loop => do
      let (ok, sh) ← c.run q d i s.toShared
      pure (s.put d sh (if ok then .loop else .cleanup dpThCleanup))
    | _ => pure s
  | .undo d al =>
    match s.thread d with
    | some (.cleanup (u :: todo)) => do
      let sh ← u.run d al s.toShared
      pure (s.put d sh (.cleanup todo))
    | _ => pure s
  | .free d =>
    match s.thread d with
    | some (.cleanup []) =>
      pure (s.put d { s.toShared with env := Function.update s.env (.dp d) none } .freed)
    | _ => pure s

/-- What a step does: nothing, or what its event is about. -/
inductive Stepped (q : Qsort) (s : Peers) : Event → Peers → Prop where
  | idle {e} : Stepped q s e s
  | spawn {d entry host spawned} (ht : s.thread d = none) : Stepped q s (.spawn d entry host spawned)
      (s.put d (s.setHost d (entry.remoteHost host)) (if spawned then .handshake entry.script else .cleanup []))
  | call {d i c ladder todo ok sh} (ht : s.thread d = some (.handshake ((c, ladder) :: todo)))
      (hrun : c.run q d i s.toShared = .ok (ok, sh)) :
      Stepped q s (.call d i) (s.put d sh (if ok then .goOn todo else .cleanup ladder))
  | loop {d c i ok sh} (ht : s.thread d = some .loop) (hrun : c.run q d i s.toShared = .ok (ok, sh)) :
      Stepped q s (.loop d c i) (s.put d sh (if ok then .loop else .cleanup dpThCleanup))
  | undo {d al u todo sh} (ht : s.thread d = some (.cleanup (u :: todo))) (hrun : u.run d al s.toShared = .ok sh) :
      Stepped q s (.undo d al) (s.put d sh (.cleanup todo))
  | free {d} (ht : s.thread d = some (.cleanup [])) :
      Stepped q s (.free d) (s.put d { s.toShared with env := Function.update s.env (.dp d) none } .freed)

/-- Inversion of the step function. -/
theorem step_cases {q : Qsort} {s s' : Peers} {e : Event} (h : s.step q e = .ok s') : Stepped q s e s' := by
  cases e with
  | spawn d entry host spawned =>
      simp only [step] at h
      split at h
      next ht => cases h; exact .spawn ht
      next => cases h; exact .idle
  | call d i =>
      simp only [step] at h
      split at h
      next ht =>
        obtain ⟨⟨ok, sh⟩, hrun, hret⟩ := bind_eq_ok.mp h
        cases hret
        exact .call ht hrun
      next => cases h; exact .idle
  | loop d c i =>
      simp only [step] at h
      split at h
      next ht =>
        obtain ⟨⟨ok, sh⟩, hrun, hret⟩ := bind_eq_ok.mp h
        cases hret
        exact .loop ht hrun
      next => cases h; exact .idle
  | undo d al =>
      simp only [step] at h
      split at h
      next ht =>
        obtain ⟨sh, hrun, hret⟩ := bind_eq_ok.mp h
        cases hret
        exact .undo ht hrun
      next => cases h; exact .idle
  | free d =>
      simp only [step] at h
      split at h
      next ht => cases h; exact .free ht
      next => cases h; exact .idle

/-- No peer yet: a table that was just started, and an empty group. -/
structure Initial (q : Qsort) (s : Peers) : Prop where
  table : ∃ al, Routing.Started q s.env al s.rd
  dps : s.dps.items = []
  thread : ∀ d, s.thread d = none
  env : ∀ d, s.env (.dp d) = none

/-- The states of the runs in which every step meets the condition `P`. -/
inductive Run (q : Qsort) (P : Peers → Event → Prop) : Peers → Prop where
  | start {s : Peers} (h : s.Initial q) : Run q P s
  | step {s s' : Peers} {e : Event} (h : Run q P s) (hP : P s e) (hstep : s.step q e = .ok s') : Run q P s'

/-- `rt_init`, `rt_lhost_add` for a host with this address, and an empty group. -/
def start (q : Qsort) (host : Ipv4Host) : Ub Peers := do
  let env : ExtMem := fun
    | .lhost => some host
    | .dp _ => none
  let (ret, rd) ← (Routing.rtInit []).2.rtLhostAdd q env (.env .lhost)
  if ret ≠ 0 then .error .uninitialised
  else pure ⟨⟨env, rd, ⟨[], 0⟩⟩, fun _ => none⟩

/-- Take the steps of a list. -/
def steps (q : Qsort) : List Event → Peers → Ub Peers
  | [], s => pure s
  | e :: es, s => do
    let s ← s.step q e
    steps q es s

end Peers

end P2pVn
