import Mathlib.Logic.Basic

/-!
# `Lib.Simulation` — transition systems, and one following another

A system has states to start in and steps that are labelled with events. A run is the list of its events, the
newest first, and the state it has come to.

- **Run rule.** `Run.inv`: what holds at the start and is kept by every step holds of every run.
- **Forward simulation.** `Run.follows`: if a system answers each step of another one with a step for the same
  event, it has a run with the same events.
-/

/-- States to start in, and steps. -/
structure Lts (σ ε : Type*) where
  start : σ → Prop
  step : σ → ε → σ → Prop

namespace Lts

variable {σ τ ε : Type*} {T : Lts σ ε} {U : Lts τ ε}

/-- The runs, by their events. -/
inductive Run (T : Lts σ ε) : List ε → σ → Prop
  | start {s : σ} (h : T.start s) : Run T [] s
  | step {es : List ε} {e : ε} {s s' : σ} (h : Run T es s) (hstep : T.step s e s') : Run T (e :: es) s'

/-- **Run rule.** -/
theorem Run.inv {P : List ε → σ → Prop} (hstart : ∀ s, T.start s → P [] s)
    (hstep : ∀ es s e s', T.Run es s → P es s → T.step s e s' → P (e :: es) s') {es : List ε} {s : σ}
    (h : T.Run es s) : P es s := by
  induction h with
  | start h => exact hstart _ h
  | step h hs ih => exact hstep _ _ _ _ h ih hs

/-- A relation along which `U` follows `T`. -/
structure Follows (T : Lts σ ε) (U : Lts τ ε) (R : σ → τ → Prop) : Prop where
  start : ∀ s, T.start s → ∃ t, U.start t ∧ R s t
  step : ∀ s e s' t, R s t → T.step s e s' → ∃ t', U.step t e t' ∧ R s' t'

/-- **Forward simulation.** -/
theorem Run.follows {R : σ → τ → Prop} (hR : Follows T U R) {es : List ε} {s : σ} (h : T.Run es s) :
    ∃ t, U.Run es t ∧ R s t := by
  induction h with
  | start h =>
      obtain ⟨t, ht, hst⟩ := hR.start _ h
      exact ⟨t, .start ht, hst⟩
  | step _ hstep ih =>
      obtain ⟨t, hrun, hst⟩ := ih
      obtain ⟨t', ht', hst'⟩ := hR.step _ _ _ t hst hstep
      exact ⟨t', hrun.step ht', hst'⟩

end Lts
