import Mathlib.Data.List.Chain
import P2pVn.DPeer.Schedule
import P2pVn.Lib.RateLimit

/-!
# `DPeer.Pacing` — how often `dp_th` sends, and how late (`dpeer.c`)

`DPeer.Schedule` says which turns send a probe. Here is what that comes to over a run, whatever the turns receive
in between: a bound on the probes and on the link states in any window, and a bound on how late a probe can be
where `epoll_wait` is.

## Contents
- `SinceFlood`: the probes since link states were last sent, and the time these took.
- `DpTh.paced`: no more than one probe a second, and no more than one round of link states in ten.
- `DpTh.punctual`: the loop never waits without a timeout, nor past the time of the next probe.
-/

namespace P2pVn
open CUb RateLimit

/-- `DP_TIMEOUT_PROBE` in microseconds. -/
def probePeriod : Int := timeoutInit.us

/-- When probes were sent, in microseconds, the newest first. -/
def probeTimes (ts : List (Turn × Wake)) : List Int :=
  (ts.filter fun t => t.1.probes).map fun t => t.2.probeClock.us

/-- When the timer had link states sent. -/
def linkstateTimes (ts : List (Turn × Wake)) : List Int :=
  (ts.filter fun t => t.1.linkstate).map fun t => t.2.probeClock.us

section Times

variable {t : Turn} {w : Wake} {ts : List (Turn × Wake)}

theorem probeTimes_cons_of (h : t.probes = true) : probeTimes ((t, w) :: ts) = w.probeClock.us :: probeTimes ts := by
  simp [probeTimes, h]

theorem probeTimes_cons_of_not (h : t.probes = false) : probeTimes ((t, w) :: ts) = probeTimes ts := by
  simp [probeTimes, h]

theorem linkstateTimes_cons_of (h : t.linkstate = true) :
    linkstateTimes ((t, w) :: ts) = w.probeClock.us :: linkstateTimes ts := by
  simp [linkstateTimes, h]

theorem linkstateTimes_cons_of_not (h : t.linkstate = false) : linkstateTimes ((t, w) :: ts) = linkstateTimes ts := by
  simp [linkstateTimes, h]

/-- The newest of the times is the last probe's. -/
theorem head?_probeTimes (ts : List (Turn × Wake)) : (probeTimes ts).head? = (lastProbe ts).map Timeval.us := by
  unfold probeTimes lastProbe
  rw [List.head?_map, List.head?_filter, Option.map_map]
  rfl

theorem length_probeTimes (ts : List (Turn × Wake)) : (probeTimes ts).length = probes ts := by
  unfold probeTimes probes
  rw [List.length_map, List.countP_eq_length_filter]

end Times

/-! ## What a turn that goes on did -/

/-- A turn that goes on either sent a probe, where `wtime` was used up, and waits a whole period; or it did not,
    and waits for what is left of `wtime`. -/
theorem turn_cases {s s' : LoopVars} {w : Wake} {t : Turn} (h : dpThTurn s w = .ok (t, some s')) :
    (timerGt s.wtime tvZero = false ∧ t.probes = true ∧ t.wait = some 1000 ∧
      (t.linkstate = true ↔ s.probeCt % dpTimeoutLinkMult = 0) ∧
      s'.probeCt = (if s.probeCt % dpTimeoutLinkMult = 0 then 0 else s.probeCt) + 1) ∨
    (timerGt s.wtime tvZero = true ∧ t.probes = false ∧
      t.wait = some (s.wtime.tvSec * 1000 + s.wtime.tvUsec.tdiv 1000) ∧ t.linkstate = false ∧
      s'.probeCt = s.probeCt) := by
  unfold dpThTurn at h
  cases hgt : timerGt s.wtime tvZero with
  | false =>
      left
      simp only [hgt, Bool.not_false, if_true] at h
      split at h
      · cases h
      · simp only [pure_eq_ok, Except.ok.injEq, Prod.mk.injEq] at h
        obtain ⟨rfl, hend⟩ := h
        have hs' := turnEnd_some hend
        refine ⟨rfl, rfl, rfl, by simp, ?_⟩
        rw [hs']
  | true =>
      right
      simp only [hgt, Bool.not_true, Bool.false_eq_true, if_false] at h
      split at h
      · cases h
      · simp only [pure_eq_ok, Except.ok.injEq, Prod.mk.injEq] at h
        obtain ⟨rfl, hend⟩ := h
        have hs' := turnEnd_some hend
        refine ⟨rfl, rfl, rfl, rfl, ?_⟩
        rw [hs']

/-- A probe comes a whole period after the one before it. -/
theorem LoopInv.apart {ts : List (Turn × Wake)} {s : LoopVars} {w : Wake} (h : LoopInv ts s) (hc : ClockOk ts w)
    (hgt : timerGt s.wtime tvZero = false) :
    ∀ t', (probeTimes ts).head? = some t' → t' + probePeriod ≤ w.probeClock.us := by
  intro t' ht'
  rw [head?_probeTimes, Option.map_eq_some_iff] at ht'
  obtain ⟨p, hp, rfl⟩ := ht'
  have hts : ts ≠ [] := by
    rintro rfl
    cases hp
  obtain ⟨-, a, -, ha, -⟩ := h.left hts
  have hdue := h.due_iff.mp hgt p a hp ha
  have hsince := hc.since a ha
  show p.us + 1000000 ≤ _
  omega

/-! ## Probes and link states in any window -/

/-- Link states are sent at every tenth probe, and the probes since then, `probe_ct` of them, took a period
    each. -/
structure SinceFlood (ts : List (Turn × Wake)) (s : LoopVars) : Prop where
  probes : Spaced probePeriod (probeTimes ts)
  floods : Spaced (dpTimeoutLinkMult * probePeriod) (linkstateTimes ts)
  counted : (linkstateTimes ts).length = (P2pVn.probes ts + 9) / dpTimeoutLinkMult
  took : ∀ u t, (linkstateTimes ts).head? = some u → (probeTimes ts).head? = some t →
    u + (s.probeCt - 1) * probePeriod ≤ t

/-- Link states are sent only with a probe. -/
theorem SinceFlood.nonempty {ts : List (Turn × Wake)} {s : LoopVars} (h : SinceFlood ts s) :
    linkstateTimes ts ≠ [] ↔ P2pVn.probes ts ≠ 0 := by
  rw [← List.length_pos_iff, h.counted]
  unfold dpTimeoutLinkMult
  omega

/-- A turn that probes: at the tenth probe since the last round, ten periods have passed. -/
theorem SinceFlood.probed {ts : List (Turn × Wake)} {s s' : LoopVars} {w : Wake} {t : Turn}
    (h : SinceFlood ts s) (hi : LoopInv ts s) (hc : ClockOk ts w) (hgt : timerGt s.wtime tvZero = false)
    (hp : t.probes = true) (hl : t.linkstate = true ↔ s.probeCt % dpTimeoutLinkMult = 0)
    (hct : s'.probeCt = (if s.probeCt % dpTimeoutLinkMult = 0 then 0 else s.probeCt) + 1) :
    SinceFlood ((t, w) :: ts) s' := by
  have hapart := hi.apart hc hgt
  have hspaced : Spaced probePeriod (probeTimes ((t, w) :: ts)) := by
    rw [probeTimes_cons_of hp]
    exact h.probes.cons (by decide) hapart
  have hcount := hi.count
  have hprobes : P2pVn.probes ((t, w) :: ts) = P2pVn.probes ts + 1 := by
    rw [← length_probeTimes, probeTimes_cons_of hp, List.length_cons, length_probeTimes]
  -- where there was a round, there was a probe, and the time since the round is in `took`
  have hround : ∀ u, (linkstateTimes ts).head? = some u →
      P2pVn.probes ts ≠ 0 ∧ u + s.probeCt * probePeriod ≤ w.probeClock.us := by
    intro u hu
    have hne : P2pVn.probes ts ≠ 0 := by
      apply h.nonempty.mp
      intro hnil
      rw [hnil] at hu
      cases hu
    have hpos : 0 < (probeTimes ts).length := by
      rw [length_probeTimes]
      omega
    obtain ⟨t', ht'⟩ := Option.isSome_iff_exists.mp
      (List.isSome_head?.mpr (List.length_pos_iff.mp hpos))
    have htook := h.took u t' hu ht'
    have hnext := hapart t' ht'
    refine ⟨hne, ?_⟩
    rw [Int.sub_mul, Int.one_mul] at htook
    omega
  by_cases hmod : s.probeCt % dpTimeoutLinkMult = 0
  · have hflood := hl.mpr hmod
    rw [if_pos hmod] at hct
    constructor
    · exact hspaced
    · rw [linkstateTimes_cons_of hflood]
      refine h.floods.cons (by decide) fun u hu => ?_
      obtain ⟨hne, hu⟩ := hround u hu
      -- the counter has come round, so it stands at ten
      have hten : s.probeCt = dpTimeoutLinkMult := by
        rw [if_neg hne] at hcount
        unfold dpTimeoutLinkMult at hcount hmod ⊢
        omega
      rw [hten] at hu
      exact hu
    · rw [linkstateTimes_cons_of hflood, List.length_cons, h.counted, hprobes]
      unfold dpTimeoutLinkMult at hcount hmod ⊢
      split at hcount <;> omega
    · rw [linkstateTimes_cons_of hflood, probeTimes_cons_of hp, hct]
      intro u t' hu ht'
      simp only [List.head?_cons, Option.some.injEq] at hu ht'
      subst hu ht'
      simp
  · have hflood : t.linkstate = false := Bool.eq_false_iff.mpr fun h => hmod (hl.mp h)
    rw [if_neg hmod] at hct
    constructor
    · exact hspaced
    · rw [linkstateTimes_cons_of_not hflood]
      exact h.floods
    · rw [linkstateTimes_cons_of_not hflood, h.counted, hprobes]
      unfold dpTimeoutLinkMult at hcount hmod ⊢
      split at hcount <;> omega
    · rw [linkstateTimes_cons_of_not hflood, probeTimes_cons_of hp, hct]
      intro u t' hu ht'
      simp only [List.head?_cons, Option.some.injEq] at ht'
      subst ht'
      obtain ⟨-, hu⟩ := hround u hu
      rw [Int.natCast_succ, Int.add_sub_cancel]
      exact hu

/-- A turn that does not probe sends nothing. -/
theorem SinceFlood.waited {ts : List (Turn × Wake)} {s s' : LoopVars} {w : Wake} {t : Turn}
    (h : SinceFlood ts s) (hp : t.probes = false) (hl : t.linkstate = false) (hct : s'.probeCt = s.probeCt) :
    SinceFlood ((t, w) :: ts) s' := by
  have hprobes : P2pVn.probes ((t, w) :: ts) = P2pVn.probes ts := by
    rw [← length_probeTimes, probeTimes_cons_of_not hp, length_probeTimes]
  constructor
  · rw [probeTimes_cons_of_not hp]
    exact h.probes
  · rw [linkstateTimes_cons_of_not hl]
    exact h.floods
  · rw [linkstateTimes_cons_of_not hl, hprobes]
    exact h.counted
  · rw [linkstateTimes_cons_of_not hl, probeTimes_cons_of_not hp, hct]
    exact h.took

theorem DpTh.sinceFlood {ts : List (Turn × Wake)} {s : LoopVars} (h : DpTh ts s) : SinceFlood ts s := by
  induction h with
  | start => exact ⟨.nil, .nil, rfl, nofun⟩
  | turn h hc _ ht ih =>
      obtain ⟨hgt, hp, -, hl, hct⟩ | ⟨-, hp, -, hl, hct⟩ := turn_cases ht
      · exact ih.probed h.inv hc hgt hp hl hct
      · exact ih.waited hp hl hct

/-- **The rate of a peer loop.** In a run of the loop, whatever it receives and whatever `epoll_wait` reports, no
    window of `n` seconds has more than `n` probes, and none of `10 * n` seconds has more than `n` rounds of
    link states; there is one round for every ten probes, the first with the first probe. -/
theorem DpTh.paced {ts : List (Turn × Wake)} {s : LoopVars} (h : DpTh ts s) :
    (∀ (x : Int) (n : Nat),
      ((probeTimes ts).filter fun t => x ≤ t ∧ t < x + n * probePeriod).length ≤ n ∧
      ((linkstateTimes ts).filter fun t => x ≤ t ∧ t < x + n * (dpTimeoutLinkMult * probePeriod)).length ≤ n) ∧
    (linkstateTimes ts).length = (probes ts + 9) / dpTimeoutLinkMult := by
  have hsince := h.sinceFlood
  refine ⟨fun x n => ⟨?_, ?_⟩, hsince.counted⟩
  · exact hsince.probes.window (by decide) x n
  · exact hsince.floods.window (by decide) x n

/-- Two turns with a probe: nothing comes in the first, and a packet in the second. -/
def twoTurns : List (Turn × Wake) :=
  [(⟨true, false, some 1000⟩, ⟨0, ⟨11, 600000⟩, .packet 0, ⟨12, 0⟩⟩),
   (⟨true, true, some 1000⟩, ⟨0, ⟨10, 500000⟩, .timeout, ⟨11, 500000⟩⟩)]

theorem twoTurns_run : DpTh twoTurns ⟨some ⟨11, 600000⟩, some ⟨12, 0⟩, ⟨0, 600000⟩, 2⟩ := by
  have hfirst : DpTh twoTurns.tail ⟨some ⟨10, 500000⟩, some ⟨11, 500000⟩, ⟨0, 0⟩, 1⟩ := by
    refine DpTh.start.turn ⟨?_, ?_, ?_, nofun⟩ nofun rfl <;> decide
  refine hfirst.turn ⟨?_, ?_, ?_, ?_⟩ ?_ rfl
  · decide
  · decide
  · decide
  · rintro a ⟨⟩
    decide
  · rintro ret ⟨⟩
    rfl

theorem DpTh.paced_two : linkstateTimes twoTurns = [10500000] ∧
    (∀ (x : Int) (n : Nat),
      ((probeTimes twoTurns).filter fun t => x ≤ t ∧ t < x + n * probePeriod).length ≤ n ∧
      ((linkstateTimes twoTurns).filter fun t =>
        x ≤ t ∧ t < x + n * (dpTimeoutLinkMult * probePeriod)).length ≤ n) ∧
    (linkstateTimes twoTurns).length = (probes twoTurns + 9) / dpTimeoutLinkMult :=
  ⟨rfl, DpTh.paced twoTurns_run⟩

/-! ## Waits -/

/-- The reading a turn's wait is counted from, `before`. -/
def waitStart (t : Turn × Wake) (ts : List (Turn × Wake)) : Option Timeval :=
  if t.1.probes then some t.2.probeClock else lastReading ts

/-- The world keeps up: `epoll_wait`, with what the turn does on its event, returns at most `d` microseconds
    after its timeout, and a probe, with the link states, is sent within `e` microseconds. -/
def Prompt (d e : Int) : List (Turn × Wake) → Prop
  | [] => True
  | t :: ts =>
      (∀ b ms, waitStart t ts = some b → t.1.wait = some ms → t.2.clock.us ≤ b.us + ms * 1000 + d) ∧
      (t.1.probes = true → ∀ a, lastReading ts = some a → t.2.probeClock.us ≤ a.us + e) ∧ Prompt d e ts

/-- A normalised time that is positive and not above a second, in whole milliseconds. -/
theorem ms_bounds {tv : Timeval} (hn : tv.Normal) (hpos : 0 < tv.us) (hle : tv.us ≤ 1000000) :
    0 ≤ tv.tvSec * 1000 + tv.tvUsec.tdiv 1000 ∧ tv.tvSec * 1000 + tv.tvUsec.tdiv 1000 ≤ 1000 ∧
      (tv.tvSec * 1000 + tv.tvUsec.tdiv 1000) * 1000 ≤ tv.us := by
  obtain ⟨h0, h1⟩ := hn
  rw [Int.tdiv_eq_ediv_of_nonneg h0]
  unfold Timeval.us at hpos hle ⊢
  omega

/-- What a turn waits for where it does not probe: not longer than until the next probe is due. -/
theorem LoopInv.wait_le {ts : List (Turn × Wake)} {s : LoopVars} (h : LoopInv ts s)
    (hgt : timerGt s.wtime tvZero = true) :
    ∃ p a, lastProbe ts = some p ∧ lastReading ts = some a ∧
      0 ≤ s.wtime.tvSec * 1000 + s.wtime.tvUsec.tdiv 1000 ∧ s.wtime.tvSec * 1000 + s.wtime.tvUsec.tdiv 1000 ≤ 1000 ∧
      a.us + (s.wtime.tvSec * 1000 + s.wtime.tvUsec.tdiv 1000) * 1000 ≤ p.us + probePeriod := by
  have hts : ts ≠ [] := by
    rintro rfl
    rw [h.started rfl] at hgt
    exact absurd hgt (by decide)
  obtain ⟨p, a, hp, ha, hpn, han, hle, -, hw⟩ := h.left hts
  have hnormal : s.wtime.Normal := by
    rw [hw]
    exact normal_timersub timeoutInit_normal (normal_timersub han hpn)
  have hus : s.wtime.us = probePeriod - (a.us - p.us) := by
    rw [hw, us_timersub, us_timersub]
    rfl
  have hperiod : probePeriod = 1000000 := rfl
  have hpos : 0 < s.wtime.us := (timerGt_iff hnormal (by decide)).mp hgt
  obtain ⟨h0, h1, hms⟩ := ms_bounds hnormal hpos (by omega)
  exact ⟨p, a, hp, ha, h0, h1, by omega⟩

/-- **Every wait has a timeout.** -/
theorem LoopInv.wait_bounds {ts : List (Turn × Wake)} {s : LoopVars} {w : Wake} {t : Turn} {o : Option LoopVars}
    (h : LoopInv ts s) (ht : dpThTurn s w = .ok (t, o)) : ∀ ms, t.wait = some ms → 0 ≤ ms ∧ ms ≤ 1000 := by
  intro ms hms
  unfold dpThTurn at ht
  cases hgt : timerGt s.wtime tvZero with
  | false =>
      simp only [hgt, Bool.not_false, if_true] at ht
      split at ht
      · cases ht
        cases hms
      · cases ht
        cases hms
        decide
  | true =>
      obtain ⟨_, _, -, -, h0, h1, -⟩ := h.wait_le hgt
      simp only [hgt, Bool.not_true, Bool.false_eq_true, if_false] at ht
      split at ht
      · cases ht
      · cases ht
        cases hms
        exact ⟨h0, h1⟩

/-- Where the world keeps up, the latest reading is at most `d` past the time of the next probe. -/
theorem DpTh.late {ts : List (Turn × Wake)} {s : LoopVars} (h : DpTh ts s) {d e : Int} (hk : Prompt d e ts) :
    ∀ p a, lastProbe ts = some p → lastReading ts = some a → a.us ≤ p.us + probePeriod + d := by
  cases h with
  | start =>
      intro p a hp
      cases hp
  | @turn ts s₀ w t s h hc hrecv ht =>
      intro p a hp ha
      obtain ⟨hwait, -⟩ := hk
      obtain rfl : w.clock = a := Option.some.inj ha
      obtain ⟨-, hprobes, hms, -⟩ | ⟨hgt, hprobes, hms, -⟩ := turn_cases ht
      · have hp' : w.probeClock = p := by simpa [lastProbe, hprobes] using hp
        subst hp'
        exact hwait w.probeClock 1000 (by simp [waitStart, hprobes]) hms
      · obtain ⟨p', a', hp', ha', -, -, hle⟩ := h.inv.wait_le hgt
        have hsame : lastProbe ((t, w) :: ts) = lastProbe ts := by simp [lastProbe, hprobes]
        rw [hsame, hp'] at hp
        obtain rfl := Option.some.inj hp
        have hclock : w.clock.us ≤ _ := hwait a' _ (by simpa [waitStart, hprobes] using ha') hms
        omega

/-- Two successive probes: not less than a period apart, and not more than the delays beyond it. -/
theorem DpTh.gaps {ts : List (Turn × Wake)} {s : LoopVars} (h : DpTh ts s) {d e : Int} (hk : Prompt d e ts) :
    (probeTimes ts).IsChain fun t t' => t' + probePeriod ≤ t ∧ t ≤ t' + probePeriod + d + e := by
  induction h with
  | start => exact .nil
  | @turn ts s w t s' h hc _ ht ih =>
      have hrest := ih hk.2.2
      obtain ⟨hgt, hprobes, -⟩ | ⟨-, hprobes, -⟩ := turn_cases ht
      · rw [probeTimes_cons_of hprobes]
        apply List.isChain_cons.mpr
        refine ⟨fun t' ht' => ?_, hrest⟩
        refine ⟨h.inv.apart hc hgt t' ht', ?_⟩
        rw [Option.mem_def, head?_probeTimes, Option.map_eq_some_iff] at ht'
        obtain ⟨p, hp, rfl⟩ := ht'
        have hts : ts ≠ [] := by
          rintro rfl
          cases hp
        obtain ⟨-, a, -, ha, -⟩ := h.inv.left hts
        have hlate := h.late hk.2.2 p a hp ha
        have hsent : w.probeClock.us ≤ a.us + e := hk.2.1 hprobes a ha
        omega
      · rw [probeTimes_cons_of_not hprobes]
        exact hrest

/-- **The loop is never late by itself.** The timeout it hands to `epoll_wait` is between `0` and `1000`, so it
    never waits for ever; and where `epoll_wait` returns at most `d` after its timeout and a probe is sent within
    `e`, successive probes are a second apart, and not more than `d + e` longer, whatever packets arrive in
    between. -/
theorem DpTh.punctual {ts : List (Turn × Wake)} {s : LoopVars} (h : DpTh ts s) :
    (∀ w t o, dpThTurn s w = .ok (t, o) → ∀ ms, t.wait = some ms → 0 ≤ ms ∧ ms ≤ 1000) ∧
    ∀ d e, Prompt d e ts →
      (probeTimes ts).IsChain fun t t' => t' + probePeriod ≤ t ∧ t ≤ t' + probePeriod + d + e :=
  ⟨fun _ _ _ ht => h.inv.wait_bounds ht, fun _ _ hk => h.gaps hk⟩

/-- The second probe is a tenth of a second late, because it took that long to send it. -/
theorem DpTh.punctual_two : ∃ s, DpTh twoTurns s ∧ Prompt 0 100000 twoTurns ∧
    (∀ w t o, dpThTurn s w = .ok (t, o) → ∀ ms, t.wait = some ms → 0 ≤ ms ∧ ms ≤ 1000) ∧
    (probeTimes twoTurns).IsChain fun t t' => t' + probePeriod ≤ t ∧ t ≤ t' + probePeriod + 0 + 100000 := by
  have hprompt : Prompt 0 100000 twoTurns := by
    refine ⟨?_, ?_, ?_, nofun, trivial⟩
    · rintro b ms ⟨⟩ ⟨⟩
      decide
    · rintro - a ⟨⟩
      decide
    · rintro b ms ⟨⟩ ⟨⟩
      decide
  obtain ⟨hwaits, hgaps⟩ := DpTh.punctual twoTurns_run
  exact ⟨_, twoTurns_run, hprompt, hwaits, hgaps 0 100000 hprompt⟩

end P2pVn
