import P2pVn.DPeer.Outputs
import P2pVn.DPeer.WriteLock
import P2pVn.Lib.LockOrder
import P2pVn.Routing.ReadLock

/-!
# `DPeer.Locking` — the locks of a node, and the order in which its threads take them

A node has the lock of its group, the lock of its table, a write lock for each connection and the lock of its list of
attempts. Every call that takes one of them is a program of `Lib.LockOrder`; the writes are those of
`DPeer.WriteLock`, with every outcome of `send`.

- `LockedCall.ordered`: the group's lock is taken before the table's, and that one before a connection's.
- `nodeThreads_noDeadlock`, `nodeThreads_return`: no threads ever wait for each other in a circle, and all calls come to an end.

Two things are outside of this. `send` may fail or send a part, but comes back: a peer that stops reading holds up its
lock for as long as it likes. And no frame is forwarded that is cut off (`Routing.CutOff`): its look-up comes back with
`0` and the table's lock released, `rt_hosts_free` releases that lock once more, and from then on nobody may ever get
it for writing.
-/

namespace P2pVn
open Routing

/-! ## The locks -/

inductive NodeLock where
  | dpg
  | rd
  | wlock (d : Nat)
  | pcon
  deriving DecidableEq

/-- Their order. -/
def NodeLock.rank : NodeLock → Nat
  | dpg => 0
  | rd => 1
  | wlock _ => 2
  | pcon => 2

theorem NodeLock.rank_le (l : NodeLock) : l.rank ≤ 2 := by
  cases l with
  | dpg => decide
  | rd => decide
  | wlock d => exact Nat.le_refl 2
  | pcon => exact Nat.le_refl 2

/-! ## The calls -/

/-- What `dp_psend_data` and `dp_psend_start` do with the lock where `send` failed, and then `next`. -/
def afterError (d : Nat) (next : LockOrder.Prog NodeLock) : List WriteLock.Instr → LockOrder.Prog NodeLock
  | [] => next
  | _ :: is => .release (.wlock d) (afterError d next is)

/-- The locks of a write to peer `d`, and then `next`. -/
def writeTo (d : Nat) (next : LockOrder.Prog NodeLock) : List WriteLock.Instr → LockOrder.Prog NodeLock
  | [] => next
  | .lock :: is => .acquire (.wlock d) .exclusive (writeTo d next is)
  | .unlock :: is => .release (.wlock d) (writeTo d next is)
  | .send inStart _ :: is => .choose (writeTo d next is) (afterError d next (WriteLock.errorPath inStart))

/-- Writes to several peers, one after the other. -/
def writeEach (k : WriteLock.SendCall) (next : LockOrder.Prog NodeLock) : List Nat → LockOrder.Prog NodeLock
  | [] => next
  | d :: ds => writeTo d (writeEach k next ds) k.program

/-- The calls that take locks. -/
inductive LockedCall where
  | rtLhostAdd
  | rtDhostAddLink
  | rtUpdateEdges
  | rtDhostRemove
  | dpgInsert
  | dpgRemove
  | pconConnect
  | dpSend (d : Nat) (k : WriteLock.SendCall)
  | dpSendPeerLinkstate (d : Nat) (me : Ipv4Host) (edges : List PktEdge)
  | dpgSendLinkstate (ds : List Nat) (me : Ipv4Host) (edges : List PktEdge)
  | forward (f : Forwards) (data : List UInt8)

/-- A lock that is held for as long as a call lasts. -/
def locked (l : NodeLock) : LockOrder.Prog NodeLock := .acquire l .exclusive (.release l .done)

/-- What a call does with the locks. -/
def LockedCall.program : LockedCall → LockOrder.Prog NodeLock
  | rtLhostAdd => locked .rd
  | rtDhostAddLink => locked .rd
  | rtUpdateEdges => locked .rd
  | rtDhostRemove => locked .rd
  | dpgInsert => locked .dpg
  | dpgRemove => locked .dpg
  | pconConnect => locked .pcon
  | dpSend d k => writeTo d .done k.program
  | dpSendPeerLinkstate d me edges =>
    .acquire .rd .shared (writeTo d (.release .rd .done) (WriteLock.SendCall.linkstate me edges).program)
  | dpgSendLinkstate ds me edges =>
    .acquire .dpg .shared (.acquire .rd .shared
      (writeEach (.linkstate me edges) (.release .rd (.release .dpg .done)) ds))
  | forward f data =>
    .acquire .rd .shared
      -- a code that is not negative leaves the lock to `rt_hosts_free`
      (if f.ret < 0 then .release .rd .done
      else writeEach (.packet ptData (UInt16.ofNat data.length) data) (.release .rd .done) (peersOf f.res))

/-- The sign of a lookup's code tells whether it has left the lock to its caller, so that `rt_hosts_free` does not
    release it a second time. Of the other calls nothing is asked. -/
def LockedCall.Tells : LockedCall → Prop
  | forward f _ => f.SignTells
  | _ => True

/-- This leaves out the frames that are cut off, and no others. -/
theorem LockedCall.tells_forward_iff {env : ExtMem} {s s' : Routing} {srcMac dstMac : EtherAddr} {f : Forwards}
    (hs : Serviceable env s) (hrun : s.rtDhostsToHost env srcMac dstMac = .ok (f, s')) (data : List UInt8) :
    (LockedCall.forward f data).Tells ↔ ¬ CutOff env s srcMac dstMac :=
  signTells_iff hs hrun

/-! ## The order -/

section

variable {d : Nat} {next : LockOrder.Prog NodeLock} {held : List NodeLock}

/-- However many times the lock is given back, the others are still held. -/
theorem ordered_afterError (hnext : next.Ordered NodeLock.rank held) (hd : .wlock d ∉ held) : ∀ is,
    (afterError d next is).Ordered NodeLock.rank held := by
  intro is
  induction is with
  | nil => exact hnext
  | cons i is ih =>
      show (afterError d next is).Ordered NodeLock.rank (held.erase (.wlock d))
      rw [List.erase_of_not_mem hd]
      exact ih

/-- Inside a write its lock is held besides the others. -/
theorem ordered_inside (hnext : next.Ordered NodeLock.rank held) (hd : .wlock d ∉ held) {is : List WriteLock.Instr}
    (h : WriteLock.Inside is) : (writeTo d next is).Ordered NodeLock.rank (.wlock d :: held) := by
  induction h with
  | last =>
      show next.Ordered NodeLock.rank ((.wlock d :: held).erase (.wlock d))
      rw [List.erase_cons_head]
      exact hnext
  | send inStart rem _ ih =>
      refine ⟨ih, ?_⟩
      have hfirst : ∀ is, (afterError d next is).Ordered NodeLock.rank ((.wlock d :: held).erase (.wlock d)) := by
        intro is
        rw [List.erase_cons_head]
        exact ordered_afterError hnext hd is
      cases inStart with
      | true => exact hfirst [.unlock]
      | false => exact hfirst []

/-- **A write takes its lock last**, whatever comes of it. -/
theorem ordered_writeTo (hnext : next.Ordered NodeLock.rank held) (hlow : ∀ l ∈ held, l.rank < 2)
    (k : WriteLock.SendCall) : (writeTo d next k.program).Ordered NodeLock.rank held := by
  obtain ⟨is, his, hinside⟩ := k.program_eq
  have hd : .wlock d ∉ held := fun hmem => absurd (hlow _ hmem) (Nat.lt_irrefl 2)
  rw [his]
  exact ⟨hlow, ordered_inside hnext hd hinside⟩

theorem ordered_writeEach (hnext : next.Ordered NodeLock.rank held) (hlow : ∀ l ∈ held, l.rank < 2)
    (k : WriteLock.SendCall) : ∀ ds, (writeEach k next ds).Ordered NodeLock.rank held := by
  intro ds
  induction ds with
  | nil => exact hnext
  | cons d ds ih => exact ordered_writeTo ih hlow k

end

/-- The last lock is given back. -/
theorem ordered_release {l : NodeLock} {next : LockOrder.Prog NodeLock} {held : List NodeLock}
    (h : next.Ordered NodeLock.rank held) : (LockOrder.Prog.release l next).Ordered NodeLock.rank (l :: held) := by
  show next.Ordered NodeLock.rank ((l :: held).erase l)
  rw [List.erase_cons_head]
  exact h

theorem ordered_locked (l : NodeLock) : (locked l).Ordered NodeLock.rank [] := by
  have hdone : LockOrder.Prog.done.Ordered NodeLock.rank [] := rfl
  exact ⟨nofun, ordered_release hdone⟩

/-- **Every call takes its locks in order, and gives them all back.** -/
theorem LockedCall.ordered (c : LockedCall) : c.program.Ordered NodeLock.rank [] := by
  have hdone : LockOrder.Prog.done.Ordered NodeLock.rank [] := rfl
  have hfree : (LockOrder.Prog.release .rd .done).Ordered NodeLock.rank [.rd] := ordered_release hdone
  have hrd : ∀ l ∈ [NodeLock.rd], l.rank < 2 := by decide
  have hboth : ∀ l ∈ [NodeLock.rd, NodeLock.dpg], l.rank < 2 := by decide
  cases c with
  | rtLhostAdd => exact ordered_locked .rd
  | rtDhostAddLink => exact ordered_locked .rd
  | rtUpdateEdges => exact ordered_locked .rd
  | rtDhostRemove => exact ordered_locked .rd
  | dpgInsert => exact ordered_locked .dpg
  | dpgRemove => exact ordered_locked .dpg
  | pconConnect => exact ordered_locked .pcon
  | dpSend d k => exact ordered_writeTo hdone (fun l hl => nomatch hl) k
  | dpSendPeerLinkstate d me edges => exact ⟨nofun, ordered_writeTo hfree hrd _⟩
  | dpgSendLinkstate ds me edges =>
      have hnext : (LockOrder.Prog.release .rd (.release .dpg .done)).Ordered NodeLock.rank [.rd, .dpg] :=
        ordered_release (ordered_release hdone)
      exact ⟨nofun, by decide, ordered_writeEach hnext hboth _ ds⟩
  | forward f data =>
      refine ⟨nofun, ?_⟩
      show (if f.ret < 0 then _ else _ : LockOrder.Prog NodeLock).Ordered NodeLock.rank [.rd]
      split
      · exact hfree
      · exact ordered_writeEach hfree hrd _ _

/-! ## The threads of a node -/

/-- The threads of a node, making any of the calls, but for the forwarding of a frame that is cut off. -/
def nodeThreads (τ : Type) [DecidableEq τ] : Lts (LockOrder.State τ NodeLock) (LockOrder.Event τ NodeLock) :=
  LockOrder.system fun p => ∃ c : LockedCall, c.Tells ∧ c.program = p

section

variable {τ : Type} [DecidableEq τ] {es : List (LockOrder.Event τ NodeLock)} {s : LockOrder.State τ NodeLock} {t : τ}

theorem nodeThreads_orderly (h : (nodeThreads τ).Run es s) : ∃ held, LockOrder.Orderly NodeLock.rank s held := by
  refine LockOrder.run_orderly ?_ h
  rintro p ⟨c, -, rfl⟩
  exact c.ordered

/-- **No deadlock.** Any number of threads, in any order, with any of the calls and whatever `send` returns: as long
    as no frame was cut off and some call has not returned, some call can go on. -/
theorem nodeThreads_noDeadlock (h : (nodeThreads τ).Run es s) (hbusy : s.prog t ≠ .done) :
    ∃ u s', LockOrder.Step s u s' := by
  obtain ⟨held, ho⟩ := nodeThreads_orderly h
  exact ho.progress NodeLock.rank_le hbusy

/-- **All calls return.** Of finitely many threads, from any state that is reached without a frame that was cut off:
    the calls in progress take a bounded number of steps, each `send` coming back, and when none is left, each of them
    has returned and every lock is free. -/
theorem nodeThreads_return [Fintype τ] (h : (nodeThreads τ).Run es s) {n : Nat} {s' : LockOrder.State τ NodeLock}
    (hn : LockOrder.Steps s n s') : n ≤ LockOrder.left s ∧
      ((∀ u s'', ¬ LockOrder.Step s' u s'') → (∀ t, s'.prog t = .done) ∧ ∀ l, s'.holders l = []) := by
  obtain ⟨held, ho⟩ := nodeThreads_orderly h
  exact ho.settles NodeLock.rank_le hn

end

/-- One thread sends the link state to two peers and has the group's lock; another one waits for it to insert a
    peer. -/
theorem nodeThreads_two : ∃ (es : List (LockOrder.Event Bool NodeLock)) (s : LockOrder.State Bool NodeLock),
    (nodeThreads Bool).Run es s ∧ s.holders .dpg = [(false, .shared)] ∧ s.prog true = locked .dpg := by
  have hstart : (nodeThreads Bool).Run [] ⟨fun _ => .done, fun _ => []⟩ := .start ⟨fun _ => rfl, fun _ => rfl⟩
  have hsend := hstart.step (.call (t := false) rfl
    ⟨.dpgSendLinkstate [0, 1] (lineHost 0) [], trivial, rfl⟩)
  have hinsert := hsend.step (.call (t := true) rfl ⟨.dpgInsert, trivial, rfl⟩)
  have hlock := hinsert.step (.step (.acquire (t := false) rfl fun h hmem => nomatch hmem))
  exact ⟨_, _, hlock, rfl, rfl⟩

theorem nodeThreads_noDeadlock_two : ∃ (es : List (LockOrder.Event Bool NodeLock))
    (s : LockOrder.State Bool NodeLock), (nodeThreads Bool).Run es s ∧ s.holders .dpg = [(false, .shared)] ∧
      s.prog true ≠ .done ∧ ∃ u s', LockOrder.Step s u s' := by
  obtain ⟨es, s, hrun, hheld, hprog⟩ := nodeThreads_two
  have hbusy : s.prog true ≠ .done := by
    rw [hprog]
    exact nofun
  exact ⟨es, s, hrun, hheld, hbusy, nodeThreads_noDeadlock hrun hbusy⟩

theorem nodeThreads_return_two : ∃ (es : List (LockOrder.Event Bool NodeLock))
    (s : LockOrder.State Bool NodeLock), (nodeThreads Bool).Run es s ∧ s.holders .dpg = [(false, .shared)] ∧
      0 ≤ LockOrder.left s ∧
      ((∀ u s'', ¬ LockOrder.Step s u s'') → (∀ t, s.prog t = .done) ∧ ∀ l, s.holders l = []) := by
  obtain ⟨es, s, hrun, hheld, -⟩ := nodeThreads_two
  exact ⟨es, s, hrun, hheld, nodeThreads_return hrun .zero⟩

end P2pVn
