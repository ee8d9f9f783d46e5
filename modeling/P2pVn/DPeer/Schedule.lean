import Mathlib.Data.List.Basic
import P2pVn.Util

/-!
# `DPeer.Schedule` — when `dp_th` sends probes and link states (`dpeer.c`)

The loop of `dp_th`, with its three times and its counter. What the rest of the program does meanwhile is the
input of a turn: whether the probe could be sent, what `epoll_wait` reported, and what the clock said.

A variable that was not written yet is `none`. `DpTh ts s` are the states at the head of the loop, with the
turns so far, the newest first; `DpTh.onTime` is what such a state says about the next turn.
-/

namespace P2pVn
open CUb

/-! ## The loop -/

/-- `DP_TIMEOUT_PROBE`. -/
def timeoutInit : Timeval := ⟨1, 0⟩

def tvZero : Timeval := ⟨0, 0⟩

/-- `DP_TIMEOUT_LINK_MULT`. -/
def dpTimeoutLinkMult : Nat := 10

/-- What `epoll_wait` reports; a packet comes with the result of `dp_recv_packet`. -/
inductive EpollResult where
  | error
  | timeout
  | packet (ret : Int)
  | badEvent
  deriving DecidableEq, Repr

/-- The input of a turn: the result of `dp_send_probe_req` and the reading of the clock after it (used where a
    probe is sent), the event, and the reading at the end. -/
structure Wake where
  probeRet : Int
  probeClock : Timeval
  event : EpollResult
  clock : Timeval

/-- `before`, `after`, `wtime` and `probe_ct` at the head of the loop. -/
structure LoopVars where
  before : Option Timeval
  after : Option Timeval
  wtime : Timeval
  probeCt : Nat

def LoopVars.init : LoopVars := ⟨none, none, tvZero, 0⟩

/-- What a turn does: whether it sends a probe, whether the timer has it send link states to all peers, and for
    how many milliseconds it is ready to wait, where it comes to that. -/
structure Turn where
  probes : Bool
  linkstate : Bool
  wait : Option Int

/-- The part after the wait: `none` where the loop is left. A result other than `0` leaves it, so the branch
    for the result `1` is not reached. -/
def dpThTurnEnd (before wtime : Timeval) (probeCt : Nat) (w : Wake) : Option LoopVars :=
  let next : LoopVars := ⟨some before, some w.clock, timersub wtime (timersub w.clock before), probeCt⟩
  match w.event with
  | .error => some next
  | .timeout => some next
  | .packet ret => if ret ≠ 0 then none else some next
  | .badEvent => none

/-- One turn of the loop. -/
def dpThTurn (s : LoopVars) (w : Wake) : Ub (Turn × Option LoopVars) :=
  if !timerGt s.wtime tvZero then
    if w.probeRet < 0 then pure (⟨true, false, none⟩, none)
    else
      let linkstate := s.probeCt % dpTimeoutLinkMult = 0
      let probeCt := if linkstate then 0 else s.probeCt
      pure (⟨true, linkstate, some (timeoutInit.tvSec * 1000 + timeoutInit.tvUsec.tdiv 1000)⟩,
        dpThTurnEnd w.probeClock timeoutInit (probeCt + 1) w)
  else
    match s.after with
    | none => .error .uninitialised
    | some after =>
      pure (⟨false, false, some (s.wtime.tvSec * 1000 + s.wtime.tvUsec.tdiv 1000)⟩,
        dpThTurnEnd after s.wtime s.probeCt w)

/-! ## Runs -/

/-- The latest reading of the clock. -/
def lastReading (ts : List (Turn × Wake)) : Option Timeval := ts.head?.map fun t => t.2.clock

/-- The reading after the latest probe. -/
def lastProbe (ts : List (Turn × Wake)) : Option Timeval :=
  (ts.find? fun t => t.1.probes).map fun t => t.2.probeClock

/-- The probes so far. -/
def probes (ts : List (Turn × Wake)) : Nat := ts.countP fun t => t.1.probes

/-- The readings of a turn are normalised, and none is earlier than one before it. -/
structure ClockOk (ts : List (Turn × Wake)) (w : Wake) : Prop where
  normal : w.clock.Normal
  probeNormal : w.probeClock.Normal
  order : w.probeClock.us ≤ w.clock.us
  since : ∀ a, lastReading ts = some a → a.us ≤ w.probeClock.us

/-- The states at the head of the loop, in a run in which `dp_recv_packet` returns `0`. -/
inductive DpTh : List (Turn × Wake) → LoopVars → Prop
  | start : DpTh [] .init
  | turn {ts s w t s'} (h : DpTh ts s) (hc : ClockOk ts w) (hrecv : ∀ ret, w.event = .packet ret → ret = 0)
      (ht : dpThTurn s w = .ok (t, some s')) : DpTh ((t, w) :: ts) s'

/-- A probe is due: at the start, and when a second has passed since the last one. -/
def Due (ts : List (Turn × Wake)) : Prop :=
  ∀ p a, lastProbe ts = some p → lastReading ts = some a → 1000000 ≤ a.us - p.us

/-- A turn leaves the loop: a probe is due and cannot be sent, a packet has another result than `0`, or the event
    is no packet. -/
def Turn.Leaves (t : Turn) (w : Wake) : Prop :=
  (t.probes = true ∧ w.probeRet < 0) ∨ (∃ ret, w.event = .packet ret ∧ ret ≠ 0) ∨ w.event = .badEvent

/-- What holds at the head of the loop: `wtime` is what is left of the second since the last probe, and
    `probe_ct` counts the probes since link states were last sent. -/
structure LoopInv (ts : List (Turn × Wake)) (s : LoopVars) : Prop where
  started : ts = [] → s = .init
  left : ts ≠ [] → ∃ p a, lastProbe ts = some p ∧ lastReading ts = some a ∧ p.Normal ∧ a.Normal ∧
    p.us ≤ a.us ∧ s.after = some a ∧ s.wtime = timersub timeoutInit (timersub a p)
  count : s.probeCt = if probes ts = 0 then 0 else (probes ts - 1) % dpTimeoutLinkMult + 1

theorem timeoutInit_normal : timeoutInit.Normal := by decide

/-- **`wtime` is used up exactly when a probe is due.** -/
theorem LoopInv.due_iff {ts : List (Turn × Wake)} {s : LoopVars} (h : LoopInv ts s) :
    timerGt s.wtime tvZero = false ↔ Due ts := by
  by_cases hts : ts = []
  · subst hts
    rw [h.started rfl]
    refine ⟨fun _ p a hp _ => ?_, fun _ => rfl⟩
    cases hp
  · obtain ⟨p, a, hp, ha, hpn, han, -, -, hw⟩ := h.left hts
    have hnormal : s.wtime.Normal := by
      rw [hw]
      exact normal_timersub timeoutInit_normal (normal_timersub han hpn)
    have hgt : timerGt s.wtime tvZero = true ↔ a.us - p.us < 1000000 := by
      rw [timerGt_iff hnormal (by decide), hw, us_timersub, us_timersub]
      simp only [Timeval.us, tvZero, timeoutInit]
      omega
    have hdue : Due ts ↔ 1000000 ≤ a.us - p.us := by
      unfold Due
      simp [hp, ha]
    rw [← Bool.not_eq_true, hgt, hdue]
    omega

/-- Where a turn stays in the loop, it goes on with the times it has taken. -/
theorem turnEnd_some {before wtime : Timeval} {probeCt : Nat} {w : Wake} {s : LoopVars}
    (h : dpThTurnEnd before wtime probeCt w = some s) :
    s = ⟨some before, some w.clock, timersub wtime (timersub w.clock before), probeCt⟩ := by
  unfold dpThTurnEnd at h
  split at h
  · exact (Option.some.inj h).symm
  · exact (Option.some.inj h).symm
  · split at h
    · cases h
    · exact (Option.some.inj h).symm
  · cases h

/-- After the wait a turn stays in the loop, unless a packet was refused or the event is none that is known. -/
theorem turnEnd_none {before wtime : Timeval} {probeCt : Nat} {w : Wake} :
    dpThTurnEnd before wtime probeCt w = none ↔
      (∃ ret, w.event = .packet ret ∧ ret ≠ 0) ∨ w.event = .badEvent := by
  unfold dpThTurnEnd
  cases w.event with
  | error => simp
  | timeout => simp
  | badEvent => simp
  | packet ret =>
      by_cases hret : ret = 0
      · simp [hret]
      · simp [hret]

/-- The turn by itself: it probes when a probe is due, and where it does not, `after` was written. -/
theorem LoopInv.turn_ok {ts : List (Turn × Wake)} {s : LoopVars} (h : LoopInv ts s) (w : Wake) :
    ∃ t o, dpThTurn s w = .ok (t, o) ∧ (t.probes = true ↔ Due ts) ∧
      (0 ≤ w.probeRet → (t.linkstate = true ↔ t.probes = true ∧ probes ts % dpTimeoutLinkMult = 0)) ∧
      (o = none ↔ t.Leaves w) := by
  -- the counter is the number of probes, or ten where it has just come round
  have hmod : s.probeCt % dpTimeoutLinkMult = 0 ↔ probes ts % dpTimeoutLinkMult = 0 := by
    rw [h.count]
    unfold dpTimeoutLinkMult
    split <;> omega
  unfold dpThTurn
  cases hgt : timerGt s.wtime tvZero with
  | false =>
      have hdue := h.due_iff.mp hgt
      simp only [Bool.not_false, if_true]
      by_cases hfail : w.probeRet < 0
      · rw [if_pos hfail]
        exact ⟨_, _, rfl, by simp [hdue], fun h0 => absurd hfail (by omega), by simp [Turn.Leaves, hfail]⟩
      · rw [if_neg hfail]
        exact ⟨_, _, rfl, by simp [hdue], fun _ => by simp [hmod],
          turnEnd_none.trans (or_iff_right fun hnot => hfail hnot.2).symm⟩
  | true =>
      have hdue : ¬ Due ts := by
        rw [← h.due_iff, hgt]
        decide
      have hts : ts ≠ [] := by
        rintro rfl
        rw [h.started rfl] at hgt
        exact absurd hgt (by decide)
      obtain ⟨p, a, -, -, -, -, -, hafter, -⟩ := h.left hts
      simp only [Bool.not_true, Bool.false_eq_true, if_false, hafter]
      exact ⟨_, _, rfl, by simp [hdue], fun _ => by simp,
        turnEnd_none.trans (or_iff_right fun hnot => Bool.false_ne_true hnot.1).symm⟩

/-- The counter after another probe. -/
theorem probeCt_succ {n ct : Nat} (h : ct = if n = 0 then 0 else (n - 1) % dpTimeoutLinkMult + 1) :
    (if ct % dpTimeoutLinkMult = 0 then 0 else ct) + 1
      = if n + 1 = 0 then 0 else (n + 1 - 1) % dpTimeoutLinkMult + 1 := by
  unfold dpTimeoutLinkMult at h ⊢
  rw [if_neg (Nat.succ_ne_zero n)]
  by_cases hn : n = 0
  · rw [if_pos hn] at h
    simp [h, hn]
  · rw [if_neg hn] at h
    split <;> omega

/-- A turn that probes starts a new second. -/
theorem LoopInv.probed {ts : List (Turn × Wake)} {s s' : LoopVars} {w : Wake} {t : Turn} (h : LoopInv ts s)
    (hc : ClockOk ts w) (hgt : timerGt s.wtime tvZero = false) (ht : dpThTurn s w = .ok (t, some s')) :
    LoopInv ((t, w) :: ts) s' := by
  unfold dpThTurn at ht
  simp only [hgt, Bool.not_false, if_true] at ht
  by_cases hfail : w.probeRet < 0
  · -- the loop is left
    rw [if_pos hfail] at ht
    cases ht
  · rw [if_neg hfail] at ht
    simp only [pure_eq_ok, Except.ok.injEq, Prod.mk.injEq] at ht
    obtain ⟨rfl, hend⟩ := ht
    have hs' := turnEnd_some hend
    refine ⟨nofun, fun _ => ⟨w.probeClock, w.clock, rfl, rfl, hc.probeNormal, hc.normal, hc.order, ?_, ?_⟩, ?_⟩
    · rw [hs']
    · rw [hs']
    · -- `probe_ct` goes round once in ten probes
      have hcount := h.count
      rw [hs']
      show (if s.probeCt % dpTimeoutLinkMult = 0 then 0 else s.probeCt) + 1 = _
      unfold probes at hcount ⊢
      rw [List.countP_cons_of_pos rfl]
      generalize List.countP (fun t : Turn × Wake => t.1.probes) ts = n at hcount ⊢
      exact probeCt_succ hcount

/-- A turn that does not probe takes off what passed since the last reading of the clock. -/
theorem LoopInv.waited {ts : List (Turn × Wake)} {s s' : LoopVars} {w : Wake} {t : Turn} (h : LoopInv ts s)
    (hc : ClockOk ts w) (hgt : timerGt s.wtime tvZero = true) (ht : dpThTurn s w = .ok (t, some s')) :
    LoopInv ((t, w) :: ts) s' := by
  -- the first turn probes, so this is not the first
  have hts : ts ≠ [] := by
    rintro rfl
    rw [h.started rfl] at hgt
    exact absurd hgt (by decide)
  obtain ⟨p, a, hp, ha, hpn, han, hle, hafter, hw⟩ := h.left hts
  unfold dpThTurn at ht
  simp only [hgt, Bool.not_true, Bool.false_eq_true, if_false, hafter, pure_eq_ok, Except.ok.injEq,
    Prod.mk.injEq] at ht
  obtain ⟨rfl, hend⟩ := ht
  have hs' := turnEnd_some hend
  have hsince := hc.since a ha
  have horder := hc.order
  refine ⟨nofun, fun _ => ⟨p, w.clock, hp, rfl, hpn, hc.normal, by omega, ?_, ?_⟩, ?_⟩
  · rw [hs']
  · -- what passed up to the last reading, and what passed since then, is what passed since the probe
    rw [hs', hw]
    apply Timeval.Normal.ext
    · exact normal_timersub (normal_timersub timeoutInit_normal (normal_timersub han hpn))
        (normal_timersub hc.normal han)
    · exact normal_timersub timeoutInit_normal (normal_timersub hc.normal hpn)
    · simp only [us_timersub]
      omega
  · rw [hs']
    show s.probeCt = _
    have hsame : probes ((⟨false, false, some (s.wtime.tvSec * 1000 + s.wtime.tvUsec.tdiv 1000)⟩, w) :: ts)
        = probes ts := by simp [probes]
    rw [hsame]
    exact h.count

/-- **One turn keeps the invariant.** -/
theorem LoopInv.turn {ts : List (Turn × Wake)} {s s' : LoopVars} {w : Wake} {t : Turn} (h : LoopInv ts s)
    (hc : ClockOk ts w) (ht : dpThTurn s w = .ok (t, some s')) : LoopInv ((t, w) :: ts) s' := by
  cases hgt : timerGt s.wtime tvZero with
  | false => exact h.probed hc hgt ht
  | true => exact h.waited hc hgt ht

theorem DpTh.inv {ts : List (Turn × Wake)} {s : LoopVars} (h : DpTh ts s) : LoopInv ts s := by
  induction h with
  | start => exact ⟨fun _ => rfl, fun hne => absurd rfl hne, rfl⟩
  | turn _ hc _ ht ih => exact ih.turn hc ht

/-- **The schedule of the peer loop.** At the head of every turn but the first, `wtime` is a second less the
    time from the last probe to the latest reading of the clock. The next turn sends a probe exactly if it is
    the first, or a second has passed since the last one, the timer has link states sent exactly at the 1st,
    11th, 21st probe and so on, and `after` is not read before it is written. After a time-out, an error of
    `epoll_wait` or a packet with the result `0` the loop goes on. -/
theorem DpTh.onTime {ts : List (Turn × Wake)} {s : LoopVars} (h : DpTh ts s) :
    (ts ≠ [] → ∃ p a, lastProbe ts = some p ∧ lastReading ts = some a ∧
      s.wtime = timersub timeoutInit (timersub a p) ∧ s.wtime.us = 1000000 - (a.us - p.us)) ∧
    ∀ w, ∃ t o, dpThTurn s w = .ok (t, o) ∧ (t.probes = true ↔ Due ts) ∧
      (0 ≤ w.probeRet → (t.linkstate = true ↔ t.probes = true ∧ probes ts % dpTimeoutLinkMult = 0)) ∧
      (o = none ↔ t.Leaves w) := by
  refine ⟨fun hts => ?_, fun w => h.inv.turn_ok w⟩
  obtain ⟨p, a, hp, ha, -, -, -, -, hw⟩ := h.inv.left hts
  refine ⟨p, a, hp, ha, hw, ?_⟩
  rw [hw, us_timersub, us_timersub]
  rfl

/-- Two turns on: a packet comes 400 ms after the first probe, and the time-out at the end of the second leaves
    nothing of `wtime`, so the next probe is due. -/
theorem DpTh.onTime_sample : ∃ ts s, DpTh ts s ∧ ts.length = 2 ∧ probes ts = 1 ∧ s.wtime = ⟨0, 0⟩ ∧
    ((ts ≠ [] → ∃ p a, lastProbe ts = some p ∧ lastReading ts = some a ∧
      s.wtime = timersub timeoutInit (timersub a p) ∧ s.wtime.us = 1000000 - (a.us - p.us)) ∧
    ∀ w, ∃ t o, dpThTurn s w = .ok (t, o) ∧ (t.probes = true ↔ Due ts) ∧
      (0 ≤ w.probeRet → (t.linkstate = true ↔ t.probes = true ∧ probes ts % dpTimeoutLinkMult = 0)) ∧
      (o = none ↔ t.Leaves w)) := by
  let w1 : Wake := ⟨0, ⟨10, 500000⟩, .packet 0, ⟨10, 900000⟩⟩
  let w2 : Wake := ⟨0, ⟨10, 900000⟩, .timeout, ⟨11, 500000⟩⟩
  have ht1 : dpThTurn .init w1 = .ok (⟨true, true, some 1000⟩,
      some ⟨some ⟨10, 500000⟩, some ⟨10, 900000⟩, ⟨0, 600000⟩, 1⟩) := rfl
  have ht2 : dpThTurn ⟨some ⟨10, 500000⟩, some ⟨10, 900000⟩, ⟨0, 600000⟩, 1⟩ w2 = .ok (⟨false, false, some 600⟩,
      some ⟨some ⟨10, 900000⟩, some ⟨11, 500000⟩, ⟨0, 0⟩, 1⟩) := rfl
  have hone : DpTh [(⟨true, true, some 1000⟩, w1)] _ :=
    DpTh.start.turn ⟨by decide, by decide, by decide, nofun⟩ (fun ret h => by cases h; rfl) ht1
  have htwo : DpTh [(⟨false, false, some 600⟩, w2), (⟨true, true, some 1000⟩, w1)] _ :=
    hone.turn ⟨by decide, by decide, by decide, fun a ha => by cases ha; decide⟩ nofun ht2
  exact ⟨_, _, htwo, rfl, rfl, rfl, DpTh.onTime htwo⟩

end P2pVn
