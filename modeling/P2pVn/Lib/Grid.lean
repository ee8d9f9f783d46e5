import Mathlib.Tactic.Common
import Mathlib.Data.List.Basic

/-!
# `Lib.Grid` — square matrices and in-place relaxation

A matrix algorithm of the Floyd–Warshall kind visits `k`, then `i`, then `j`, and overwrites cell `(i, j)`
from the cells `(i, k)`, `(k, j)` and `(i, j)` as it finds them. Because everything happens in one matrix,
the cells it reads may already have been rewritten in the same round.

## Contents
- **`Grid`**: an `n × n` matrix by construction, with `get`/`set`.
- **`rounds`**: the same algorithm with every round computed from the matrix before it.
- **`sweep_eq_rounds`**: the in-place loops compute `rounds`, provided row `k` and column `k` do not change
  in round `k`.
-/

/-- An `n × n` matrix. -/
structure Grid (α : Type) (n : Nat) where
  cells : Vector (Vector α n) n

namespace Grid

variable {α : Type} {n : Nat}

/-- The matrix filled with one value. -/
def const (n : Nat) (a : α) : Grid α n := ⟨Vector.replicate n (Vector.replicate n a)⟩

def get [Inhabited α] (g : Grid α n) (i j : Nat) : α :=
  if hi : i < n then
    if hj : j < n then g.cells[i][j] else default
  else default

def set (g : Grid α n) (i j : Nat) (a : α) : Grid α n :=
  if hi : i < n then ⟨g.cells.set i (g.cells[i].setIfInBounds j a) hi⟩ else g

variable [Inhabited α]

theorem get_const {i j : Nat} (hi : i < n) (hj : j < n) (a : α) : (const n a).get i j = a := by
  unfold get
  rw [dif_pos hi, dif_pos hj]
  simp [const]

theorem get_set {i j a b : Nat} (hi : i < n) (hj : j < n) (g : Grid α n) (v : α) :
    (g.set i j v).get a b = if a = i ∧ b = j then v else g.get a b := by
  unfold set get
  rw [dif_pos hi]
  by_cases ha : a < n
  · rw [dif_pos ha, dif_pos ha]
    by_cases hb : b < n
    · rw [dif_pos hb, dif_pos hb]
      by_cases hai : i = a
      · subst hai
        by_cases hbj : j = b
        · subst hbj; simp
        · simp [hbj, Ne.symm hbj]
      · simp [hai, Ne.symm hai]
    · rw [dif_neg hb, dif_neg hb, if_neg]
      rintro ⟨rfl, rfl⟩
      exact hb hj
  · rw [dif_neg ha, dif_neg ha, if_neg]
    rintro ⟨rfl, rfl⟩
    exact ha hi

end Grid

/-! ## In-place relaxation -/

namespace Relaxation

variable {σ γ : Type} (upd : Nat → γ → γ → γ → γ)

/-- `m` rounds, each computed from the matrix the previous one left. -/
def rounds (M : Nat → Nat → γ) : Nat → Nat → Nat → γ
  | 0, i, j => M i j
  | k + 1, i, j => upd k (rounds M k i k) (rounds M k k j) (rounds M k i j)

/-- The inner two loops of round `k`. -/
def sweepRound (step : Nat → Nat → Nat → σ → σ) (n k : Nat) (s : σ) : σ :=
  (List.range n).foldl (fun s i => (List.range n).foldl (fun s j => step k i j s) s) s

/-- All rounds below `m`. -/
def sweep (step : Nat → Nat → Nat → σ → σ) (n m : Nat) (s : σ) : σ :=
  (List.range m).foldl (fun s k => sweepRound step n k s) s

variable {upd} {step : Nat → Nat → Nat → σ → σ} {rd : σ → Nat → Nat → γ} {n : Nat}

/-- One step overwrites its own cell from three cells, and leaves the others alone. -/
def StepSpec (upd : Nat → γ → γ → γ → γ) (step : Nat → Nat → Nat → σ → σ) (rd : σ → Nat → Nat → γ)
    (n : Nat) : Prop :=
  ∀ k i j s, k < n → i < n → j < n → ∀ a b,
    rd (step k i j s) a b = if a = i ∧ b = j then upd k (rd s i k) (rd s k j) (rd s i j) else rd s a b

/-- In round `k` a cell of row `k` or of column `k` is its own update, whatever the diagonal holds. -/
structure Pivot (upd : Nat → γ → γ → γ → γ) : Prop where
  row : ∀ k d c, upd k d c c = c
  col : ∀ k d c, upd k c d c = c

/-- The cells already visited in round `k` when row `i` is being swept and column `j` is next. -/
def Visited (i j a b : Nat) : Prop := a < i ∨ (a = i ∧ b < j)

/-- Cell `(a, b)` of `s` after the visited cells of round `k` were rewritten, starting from `M`. -/
def Partial (upd : Nat → γ → γ → γ → γ) (rd : σ → Nat → Nat → γ) (n k : Nat) (M : Nat → Nat → γ)
    (i j : Nat) (s : σ) : Prop :=
  ∀ a b, a < n → b < n →
    (Visited i j a b → rd s a b = upd k (M a k) (M k b) (M a b)) ∧
    (¬ Visited i j a b → rd s a b = M a b)

/-- **Step lemma.** Row `k` and column `k` read the same before and after their visit, so a step sees the
    cells of the matrix the round started from. -/
theorem partial_step (hs : StepSpec upd step rd n) (hp : Pivot upd) {k i j : Nat} {M : Nat → Nat → γ}
    {s : σ} (hk : k < n) (hi : i < n) (hj : j < n)
    (h : Partial upd rd n k M i j s) : Partial upd rd n k M i (j + 1) (step k i j s) := by
  have hik : rd s i k = M i k := by
    by_cases hv : Visited i j i k
    · rw [(h i k hi hk).1 hv, hp.col k _ _]
    · exact (h i k hi hk).2 hv
  have hkj : rd s k j = M k j := by
    by_cases hv : Visited i j k j
    · rw [(h k j hk hj).1 hv, hp.row k _ _]
    · exact (h k j hk hj).2 hv
  have hij : rd s i j = M i j := (h i j hi hj).2 (by simp [Visited])
  intro a b ha hb
  rw [hs k i j s hk hi hj a b, hik, hkj, hij]
  by_cases hab : a = i ∧ b = j
  · obtain ⟨rfl, rfl⟩ := hab
    rw [if_pos ⟨rfl, rfl⟩]
    exact ⟨fun _ => rfl, fun hv => absurd (Or.inr ⟨rfl, Nat.lt_succ_self b⟩) hv⟩
  · rw [if_neg hab]
    have hvis : Visited i (j + 1) a b ↔ Visited i j a b := by unfold Visited; omega
    rw [hvis]
    exact h a b ha hb

theorem partial_row (hs : StepSpec upd step rd n) (hp : Pivot upd) {k i : Nat} {M : Nat → Nat → γ}
    (hk : k < n) (hi : i < n) : ∀ (m : Nat) {s : σ}, m ≤ n →
    Partial upd rd n k M i 0 s →
      Partial upd rd n k M i m ((List.range m).foldl (fun s j => step k i j s) s) := by
  intro m
  induction m with
  | zero => exact fun _ h => h
  | succ m ih =>
      intro s hm h
      rw [List.range_succ, List.foldl_append]
      exact partial_step hs hp hk hi (by omega) (ih (by omega) h)

theorem partial_rows (hs : StepSpec upd step rd n) (hp : Pivot upd) {k : Nat} {M : Nat → Nat → γ}
    (hk : k < n) : ∀ (m : Nat) {s : σ}, m ≤ n → Partial upd rd n k M 0 0 s →
      Partial upd rd n k M m 0
        ((List.range m).foldl (fun s i => (List.range n).foldl (fun s j => step k i j s) s) s) := by
  intro m
  induction m with
  | zero => exact fun _ h => h
  | succ m ih =>
      intro s hm h
      rw [List.range_succ, List.foldl_append]
      have hrow := partial_row hs hp hk (show m < n by omega) n (Nat.le_refl n) (ih (by omega) h)
      intro a b ha hb
      have hvis : Visited (m + 1) 0 a b ↔ Visited m n a b := by unfold Visited; omega
      rw [hvis]
      exact hrow a b ha hb

/-- **Round lemma.** The two inner loops compute one round from the matrix they started on. -/
theorem sweepRound_eq (hs : StepSpec upd step rd n) (hp : Pivot upd) {k : Nat} {s : σ} (hk : k < n)
    {i j : Nat} (hi : i < n) (hj : j < n) :
    rd (sweepRound step n k s) i j = upd k (rd s i k) (rd s k j) (rd s i j) := by
  have h0 : Partial upd rd n k (rd s) 0 0 s := fun a b _ _ =>
    ⟨fun hv => by unfold Visited at hv; omega, fun _ => rfl⟩
  exact (partial_rows hs hp hk n (Nat.le_refl n) h0 i j hi hj).1 (Or.inl hi)

/-- **Run lemma.** The in-place loops compute the rounds. -/
theorem sweep_eq_rounds (hs : StepSpec upd step rd n) (hp : Pivot upd) (s : σ) : ∀ (m : Nat), m ≤ n →
    ∀ i j, i < n → j < n → rd (sweep step n m s) i j = rounds upd (rd s) m i j := by
  intro m
  induction m with
  | zero => exact fun _ _ _ _ _ => rfl
  | succ m ih =>
      intro hm i j hi hj
      have heq := ih (by omega)
      have hm' : m < n := by omega
      unfold sweep at heq ⊢
      rw [List.range_succ, List.foldl_append, List.foldl_cons, List.foldl_nil,
        sweepRound_eq hs hp hm' hi hj, heq i m hi hm', heq m j hm' hj, heq i j hi hj]
      rfl

end Relaxation
