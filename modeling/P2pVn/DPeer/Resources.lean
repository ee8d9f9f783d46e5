import Mathlib.Data.Finset.Prod
import P2pVn.DPeer.Threads
import P2pVn.Lib.Custody

/-!
# `DPeer.Resources` — the memory and the descriptors of the peers (`dpeer.c`, `sock.c`)

What `DPeer.Threads` leaves out: the peer itself and the argument block are allocated by `dp_create_*` and freed by
the threads, the connection and the epoll instance are descriptors. The scripts here are those of the threads, with
the creation before them, `dp_th` behind them, and the rest of every ladder; `life_script` says so. A process has a
limited number of descriptors, and `peer_listener` ends it when a peer cannot be created.

A thread that `pthread_create` could not start, which `dp_create_*` does not notice, is one that never takes a step.

Each peer is followed through what is its own. `dpg_send_linkstate` and the forwarding of a frame also write to other
peers, whose `direct_peer` and `con_fd` they find through the group and the table; whether these are still there is
not a matter of who owns them, and is outside of this; `DPeer.Lifetime` is about it.

- `resources_accounted`: no block is freed twice, no descriptor of somebody else is closed, no peer uses what was its
  own after giving it back, and all that is not given back is known.
- `served_le`: `dp_th` does not close its connection, so a node serves so many connections and no more.
-/

namespace P2pVn
open CUb Ladder Custody

/-! ## What the peers own -/

/-- The `direct_peer`, the argument block of its thread, `con_fd`, the epoll instance, and the socket of a
    `connect_inet` whose `connect` has failed. -/
inductive Resource where
  | dp
  | arg
  | conFd
  | ep
  | sock
  deriving DecidableEq, Repr

/-- Blocks of memory by their addresses, and descriptors. -/
inductive Handle where
  | block (addr : Nat)
  | fd (n : Nat)
  deriving DecidableEq, Repr

def Handle.isFd : Handle → Bool
  | .block _ => false
  | .fd _ => true

def Resource.kind : Resource → Handle → Bool
  | .dp, .block _ => true
  | .arg, .block _ => true
  | .conFd, .fd _ => true
  | .ep, .fd _ => true
  | .sock, .fd _ => true
  | _, _ => false

theorem isFd_of_kind {r : Resource} {x : Handle} (hr : r = .conFd ∨ r = .sock) (h : r.kind x = true) :
    x.isFd = true := by
  cases x with
  | fd n => rfl
  | block addr => rcases hr with rfl | rfl <;> cases h

/-! ## Calls and ladders -/

/-- The calls from a peer's creation to the loop of `dp_th`. -/
inductive LifeCall where
  | accept
  | malloc (r : Resource)
  | mutexInit
  | spawn
  | call (c : Call)
  | freeArg
  | epollCreate
  | epollCtl
  deriving DecidableEq, Repr

/-- The rungs of the ladders: those of `Undo`, `free` or `close` of something (of the peer by `dp_cleanup_1`), and
    `DIE`. -/
inductive LifeUndo where
  | undo (u : Undo)
  | release (r : Resource)
  | die
  deriving DecidableEq, Repr

def dpCreate1 : Script LifeCall LifeUndo :=
  [(.malloc .dp, []),
   (.mutexInit, [.release .dp])]

def dpCreateInitial : Script LifeCall LifeUndo :=
  dpCreate1 ++
  [(.malloc .arg, [.release .dp]),
   (.spawn, [.release .arg, .release .dp])]

def dpCreateLinkstate : Script LifeCall LifeUndo :=
  dpCreate1 ++
  [(.malloc .arg, [.release .dp]),
   (.spawn, [.release .arg, .release .dp])]

def dpCreateIncoming : Script LifeCall LifeUndo :=
  [(.malloc .arg, [])] ++
  fallThrough [.release .arg] dpCreate1 ++
  [(.spawn, [.release .arg, .release .dp])]

/-- A round of `peer_listener`. -/
def peerListener : Script LifeCall LifeUndo :=
  (.accept, [.die]) :: fallThrough [.die] dpCreateIncoming

/-- The calls of a thread that has its connection: its ladders lead on to `cleanup_fd`. -/
def talking (todo : Script Call Undo) : Script LifeCall LifeUndo :=
  todo.map fun x => (.call x.1, x.2.map .undo ++ [.release .conFd, .release .dp, .release .arg])

/-- From the creation of a peer to its call of `dp_th`. The first call of a thread that connects leads on to
    `cleanup_arg`. -/
def EntryPoint.life : EntryPoint → Script LifeCall LifeUndo
  | .initial =>
    dpCreateInitial ++ [(.call .connectHost, [.release .dp, .release .arg])] ++ talking dpThInitial.tail ++
      [(.freeArg, [])]
  | .linkstate =>
    dpCreateLinkstate ++ [(.call .connectInet, [.release .dp, .release .arg])] ++ talking dpThLinkstate.tail ++
      [(.freeArg, [])]
  | .incoming => peerListener ++ talking dpThIncoming ++ [(.freeArg, [])]

/-- `cleanup_1` of `dp_th`. -/
def dpThLeave : List LifeUndo := dpThCleanup.map .undo ++ [.release .dp]

/-- `dp_th` before its loop. -/
def dpTh : Script LifeCall LifeUndo :=
  [(.epollCreate, dpThLeave),
   (.epollCtl, .release .ep :: dpThLeave)]

/-! ## Agreement with the thread model -/

def LifeCall.call? : LifeCall → Option Call
  | .call c => some c
  | _ => none

def LifeUndo.undo? : LifeUndo → Option Undo
  | .undo u => some u
  | _ => none

/-- What `DPeer.Threads` knows of a script. -/
def visible (todo : Script LifeCall LifeUndo) : Script Call Undo :=
  todo.filterMap fun x => x.1.call?.map fun c => (c, x.2.filterMap LifeUndo.undo?)

/-- **The scripts are those of the threads**, and every way out of `dp_th` does its clean-up. -/
theorem life_script (entry : EntryPoint) : visible entry.life = entry.script ∧
    ∀ x ∈ dpTh, x.2.filterMap LifeUndo.undo? = dpThCleanup := by
  cases entry <;> exact ⟨rfl, by decide⟩

/-! ## The rules -/

/-- What a call of the handshake works on, of what the peer owns. -/
def Call.uses : Call → List Resource
  | .connectHost | .connectInet => [.dp, .arg]
  | .dpgInsert | .rtDhostAddLink => [.dp]
  | _ => [.dp, .conFd]

def LifeCall.act : LifeCall → Act Resource
  | .accept => ⟨[], .gets .conFd⟩
  | .malloc r => ⟨[], .gets r⟩
  | .mutexInit => ⟨[.dp], .nothing⟩
  | .spawn => ⟨[.dp, .arg], .nothing⟩
  | .call .connectHost => ⟨Call.connectHost.uses, .gets .conFd⟩
  | .call .connectInet => ⟨Call.connectInet.uses, .gets .conFd⟩
  | .call c => ⟨c.uses, .nothing⟩
  | .freeArg => ⟨[], .gives .arg⟩
  | .epollCreate => ⟨[], .gets .ep⟩
  | .epollCtl => ⟨[.dp, .conFd, .ep], .nothing⟩

/-- What the calls do with the peer's own resources. A turn of `dp_th` may also use those of other peers, which are
    not the peer's to give back. -/
def lifeRules : Rules LifeCall LifeUndo Resource where
  call := LifeCall.act
  succeeds
    | .freeArg => true
    | _ => false
  strands
    -- `connect_inet` does not close its socket where `connect` fails; `connect_host` does
    | .call .connectInet => some .sock
    | _ => none
  uses
    | .undo _ => [.dp]
    | _ => []
  gives
    | .release r => some r
    | _ => none
  dies
    | .die => true
    | _ => false
  main := dpTh
  turn := [.dp, .conFd, .ep]
  leave := .release .ep :: dpThLeave

/-- What a peer may leave over: after a handshake that failed nothing but a stray socket, after `dp_th` its
    connection. -/
def lifeEnds : Stage → Shape Resource → Bool
  | .setup, s => !s .dp && !s .arg && !s .ep && !s .conFd
  | .main, s => !s .dp && !s .arg && !s .ep && s .conFd

theorem lifeEnds_iff {stage : Stage} {s : Shape Resource} : lifeEnds stage s = true ↔
    s .dp = false ∧ s .arg = false ∧ s .ep = false ∧ (s .conFd = true ↔ stage = .main) := by
  cases stage <;> simp [lifeEnds, and_assoc]

/-- **Every way through a peer's life passes the check.** -/
theorem life_checked : lifeRules.Checked lifeEnds EntryPoint.life := by
  intro entry
  cases entry <;> decide

/-! ## Runs -/

/-- A process that starts with the blocks and descriptors `base`, and may have `limit` descriptors. -/
def process (base : Finset Handle) (limit : Nat) (hbase : (base.filter fun x => x.isFd = true).card ≤ limit) :
    System Resource Handle where
  kind := Resource.kind
  counts := Handle.isFd
  limit := limit
  base := base
  base_le := hbase

/-- The lives of any number of peers in a process. -/
abbrev lives (sys : System Resource Handle) : Lts (Pool LifeCall LifeUndo Resource Handle Nat)
    (Move Handle Nat EntryPoint) :=
  lifeRules.pool EntryPoint.life sys

/-- The thread of peer `d` has come to `dp_th`. -/
def Served (p : Pool LifeCall LifeUndo Resource Handle Nat) (d : Nat) : Prop :=
  ∃ j, p.job d = some j ∧ j.stage = .main

/-- Five descriptors are in use, and there may be seven. -/
abbrev smallProcess : System Resource Handle :=
  process {.fd 0, .fd 1, .fd 2, .fd 3, .fd 4} 7 (by decide)

/-- A peer is accepted, comes to `dp_th` and leaves it; then a `connect_inet` fails at its `connect`. -/
def lifeMoves : List (Move Handle Nat EntryPoint) := List.reverse
  [.start 0 .incoming, .call 0 true (some (.fd 5)), .call 0 true (some (.block 1)), .call 0 true (some (.block 2)),
    .call 0 true none, .call 0 true none, .call 0 true none, .call 0 true none, .call 0 true none, .call 0 true none,
    .call 0 true none, .call 0 true none, .call 0 true (some (.fd 6)), .call 0 true none, .turn 0, .leave 0,
    .undo 0, .undo 0, .undo 0, .undo 0, .stop 0,
    .start 1 .linkstate, .call 1 true (some (.block 1)), .call 1 true none, .call 1 true (some (.block 2)),
    .call 1 true none, .call 1 false (some (.fd 6)), .undo 1, .undo 1, .stop 1]

/-- The first of the two has ended after `dp_th`, the second one has left its socket behind. -/
theorem lifeMoves_run : ∃ p, (lives smallProcess).Run lifeMoves p ∧
    (∃ held, p.job 0 = some ⟨.main, .freed, held⟩) ∧ p.holds (1, .sock) ≠ none := by
  have hreplay : (lifeRules.replay EntryPoint.life smallProcess lifeMoves).toOption.map (fun p =>
      ((p.job 0).map fun j => (j.stage, j.thread), p.holds (1, .sock)))
        = some (some (.main, .freed), some (.fd 6)) := by
    decide +kernel
  obtain ⟨p, hp, hobs⟩ := Option.map_eq_some_iff.mp hreplay
  obtain ⟨h0, h1⟩ := Prod.mk.inj hobs
  obtain ⟨⟨stage, thread, held⟩, hj, hat⟩ := Option.map_eq_some_iff.mp h0
  cases hat
  refine ⟨p, lifeRules.replay_run EntryPoint.life smallProcess ?_, ⟨held, hj⟩, h1 ▸ nofun⟩
  cases hrun : lifeRules.replay EntryPoint.life smallProcess lifeMoves with
  | error e => rw [hrun] at hp; cases hp
  | ok p' => rw [hrun] at hp; cases hp; rfl

section

variable {base : Finset Handle} {limit : Nat} {hbase : (base.filter fun x => x.isFd = true).card ≤ limit}
  {ms : List (Move Handle Nat EntryPoint)} {p : Pool LifeCall LifeUndo Resource Handle Nat}

/-- **Nothing is released twice, and nothing is lost but connections.** Any number of peers are created and run side
    by side, and any of their calls fail. No step releases what is not there or not its own, or uses what should be
    its own and was never acquired or is given back; what is in use is what was in use at the start, and what exactly
    one peer holds; and a thread that has ended has released the peer, the argument block and the epoll instance, and
    its connection if and only if it never came to `dp_th`. -/
theorem resources_accounted (h : (lives (process base limit hbase)).Run ms p) :
    (∀ m, ∃ p', (lives (process base limit hbase)).step p m p') ∧
    (∀ x, x ∈ p.live ↔ x ∈ base ∨ ∃ d r, p.holds (d, r) = some x) ∧
    (∀ d r d' r' x, p.holds (d, r) = some x → p.holds (d', r') = some x → d = d' ∧ r = r') ∧
    ∀ d j, p.job d = some j → j.thread = .freed →
      j.held .dp = none ∧ j.held .arg = none ∧ j.held .ep = none ∧ (j.held .conFd ≠ none ↔ Served p d) := by
  have hp := run_inOrder life_checked h
  refine ⟨fun m => ?_, fun x => ?_, fun d r d' r' x hx hx' => ?_, fun d j hj hfreed => ?_⟩
  · obtain ⟨p', hstep, -⟩ := step_inOrder life_checked hp m
    exact ⟨p', hstep⟩
  · rw [hp.accounts.live_iff, Prod.exists]
    rfl
  · exact Prod.mk.inj (hp.accounts.own _ _ _ hx hx')
  · have hserved : Served p d ↔ j.stage = .main := by
      unfold Served
      rw [hj]
      simp
    obtain ⟨hdp, harg, hep, hcon⟩ := lifeEnds_iff.mp (hp.ended hj hfreed)
    rw [hserved, ← hcon, ← Option.isSome_iff_ne_none]
    simp only [Job.shape, Option.isSome_eq_false_iff, Option.isNone_iff_eq_none] at hdp harg hep
    exact ⟨hdp, harg, hep, Iff.rfl⟩

/-- The peer that was served has released all but its connection. -/
theorem resources_accounted_small : ∃ p, (lives smallProcess).Run lifeMoves p ∧ ∃ j, p.job 0 = some j ∧
    j.held .dp = none ∧ j.held .arg = none ∧ j.held .ep = none ∧ (j.held .conFd ≠ none ↔ Served p 0) := by
  obtain ⟨p, hrun, ⟨held, hj⟩, -⟩ := lifeMoves_run
  exact ⟨p, hrun, _, hj, (resources_accounted hrun).2.2.2 0 _ hj rfl⟩

/-- **A node serves so many connections, and no more.** In every run, the peers whose threads have ever come to
    `dp_th` and the sockets that `connect_inet` has left behind are together no more than the descriptors that are
    not in use at the start; when they are that many, there is no descriptor for anything any more; and a peer that
    has come to `dp_th` counts for ever. -/
theorem served_le (h : (lives (process base limit hbase)).Run ms p) {served stray : Finset Nat}
    (hserved : ∀ d ∈ served, Served p d) (hstray : ∀ d ∈ stray, p.holds (d, .sock) ≠ none) :
    (base.filter fun x => x.isFd = true).card + (served.card + stray.card) ≤ limit ∧
    (limit ≤ (base.filter fun x => x.isFd = true).card + (served.card + stray.card) →
      ∀ r n, ¬ (process base limit hbase).Free p.live r (.fd n)) ∧
    ∀ m p', (lives (process base limit hbase)).step p m p' → ∀ d ∈ served, Served p' d := by
  have hp := run_inOrder life_checked h
  have hconFd : ∀ d ∈ served, ∃ x, p.holds (d, .conFd) = some x := by
    intro d hd
    obtain ⟨j, hj, hmain⟩ := hserved d hd
    refine hp.main_holds (fun s hs => ((lifeEnds_iff.mp hs).2.2.2).mpr rfl) ?_ hj hmain
    intro c hc
    cases c with
    | freeArg => nofun
    | _ => cases hc
  have hfds : ∀ x ∈ served ×ˢ {Resource.conFd} ∪ stray ×ˢ {Resource.sock},
      ∃ y, p.holds x = some y ∧ (process base limit hbase).counts y = true := by
    rintro ⟨d, r⟩ hx
    simp only [Finset.mem_union, Finset.mem_product, Finset.mem_singleton] at hx
    rcases hx with ⟨hd, rfl⟩ | ⟨hd, rfl⟩
    · obtain ⟨y, hy⟩ := hconFd d hd
      exact ⟨y, hy, isFd_of_kind (Or.inl rfl) (hp.accounts.kind _ _ hy)⟩
    · obtain ⟨y, hy⟩ := Option.ne_none_iff_exists'.mp (hstray d hd)
      exact ⟨y, hy, isFd_of_kind (Or.inr rfl) (hp.accounts.kind _ _ hy)⟩
  have hcard := hp.accounts.card_le hfds
  rw [Finset.card_union_of_disjoint, Finset.card_product, Finset.card_product, Finset.card_singleton,
    Finset.card_singleton, Nat.mul_one, Nat.mul_one] at hcard
  · refine ⟨Nat.le_trans hcard hp.accounts.room, fun hlimit r n hfree => ?_, fun m p' hstep d hd => ?_⟩
    · have hroom := hfree.2.2 rfl
      exact absurd (Nat.lt_of_le_of_lt (Nat.le_trans hlimit hcard) hroom) (Nat.lt_irrefl _)
    · obtain ⟨j, hj, hmain⟩ := hserved d hd
      exact step_main hstep hj hmain
  · rw [Finset.disjoint_left]
    rintro ⟨d, r⟩ h1 h2
    rw [Finset.mem_product, Finset.mem_singleton] at h1 h2
    cases h1.2.symm.trans h2.2

/-- One peer was served and one socket is left behind, so there is no descriptor any more. -/
theorem served_le_small : ∃ p, (lives smallProcess).Run lifeMoves p ∧
    ∀ r n, ¬ smallProcess.Free p.live r (.fd n) := by
  obtain ⟨p, hrun, ⟨held, hj⟩, hsock⟩ := lifeMoves_run
  have hserved : ∀ d ∈ ({0} : Finset Nat), Served p d := by
    intro d hd
    rw [Finset.mem_singleton.mp hd]
    exact ⟨_, hj, rfl⟩
  have hstray : ∀ d ∈ ({1} : Finset Nat), p.holds (d, .sock) ≠ none := by
    intro d hd
    rwa [Finset.mem_singleton.mp hd]
  exact ⟨p, hrun, (served_le hrun hserved hstray).2.1 (by decide)⟩

end

end P2pVn
