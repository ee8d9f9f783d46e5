import P2pVn.Routing.Adjacency

/-!
# `Routing.Relaxing` — what the triple loop of `compute_paths` does to a matrix

`cells A k` is the pair of matrices after `k` rounds from the adjacency matrix `A`, each round computed from
the one before; `floydWarshall_cells` says that the loops, which work in place, compute `cells A n`. On the
way:

- a zero stays zero and a non-zero entry stays non-zero (`cells_ne_zero`), because the comparison is with
  the sentinel itself;
- the diagonal stays at `PATH_MIN` without an intermediate (`cells_diag`);
- an entry of `next` is an intermediate with links on both sides (`cells_next`).
-/

namespace P2pVn
open CUb

namespace Routing

/-! ## The length through an intermediate -/

/-- Lengths through an intermediate, as numbers: the sum up to `UINT32_MAX`, except that two ones give one. -/
def thruNat (a b : Nat) : Nat := if a = 1 ∧ b = 1 then 1 else min (a + b) (2 ^ 32 - 1)

theorem eq_one_iff {a : UInt32} : a = 1 ↔ a.toNat = 1 := by
  rw [← UInt32.toNat_inj]; rfl

theorem ne_zero_iff {a : UInt32} : a ≠ 0 ↔ 0 < a.toNat := by
  rw [Nat.pos_iff_ne_zero, ne_eq, ← UInt32.toNat_inj]; rfl

/-- **`throughLen` never wraps around.** -/
theorem throughLen_toNat {a b : UInt32} (ha : a ≠ 0) (hb : b ≠ 0) :
    (throughLen a b).toNat = thruNat a.toNat b.toNat := by
  have ha' := ne_zero_iff.mp ha
  have hb' := ne_zero_iff.mp hb
  have ha2 := a.toNat_lt
  have hb2 := b.toNat_lt
  unfold throughLen thruNat
  by_cases h1 : a = 1 ∧ b = 1
  · obtain ⟨rfl, rfl⟩ := h1
    decide
  · have h1' : ¬ (a.toNat = 1 ∧ b.toNat = 1) := by
      rw [← eq_one_iff, ← eq_one_iff]; exact h1
    simp only [if_neg h1, if_neg h1']
    have hsum : (a + b).toNat = (a.toNat + b.toNat) % 2 ^ 32 := UInt32.toNat_add a b
    by_cases hover : a.toNat + b.toNat < 2 ^ 32
    · rw [Nat.mod_eq_of_lt hover] at hsum
      have hno : ¬ (a + b < a ∨ a + b < b) := by
        rw [UInt32.lt_iff_toNat_lt, UInt32.lt_iff_toNat_lt, hsum]
        omega
      rw [if_neg hno, hsum]
      omega
    · -- a sum that wrapped is less than either summand
      have hwrap : a + b < a ∨ a + b < b := by
        rw [UInt32.lt_iff_toNat_lt, UInt32.lt_iff_toNat_lt, hsum]
        omega
      have hmax : pathMax.toNat = 2 ^ 32 - 1 := rfl
      rw [if_pos hwrap, hmax]
      omega

theorem throughLen_pos {a b : UInt32} (ha : a ≠ 0) (hb : b ≠ 0) : throughLen a b ≠ 0 := by
  rw [ne_zero_iff, throughLen_toNat ha hb, thruNat]
  have ha' := ne_zero_iff.mp ha
  split <;> omega

/-- A length through a vertex is never shorter than either leg. -/
theorem not_throughLen_lt {a b : UInt32} (ha : a ≠ 0) (hb : b ≠ 0) :
    ¬ throughLen a b < a ∧ ¬ throughLen a b < b := by
  have ha' := ne_zero_iff.mp ha
  have hb' := ne_zero_iff.mp hb
  rw [UInt32.lt_iff_toNat_lt, UInt32.lt_iff_toNat_lt, throughLen_toNat ha hb, thruNat]
  have ha2 := a.toNat_lt
  have hb2 := b.toNat_lt
  split <;> omega

/-! ## One cell -/

variable {k : Nat} {ik kj ij : UInt32 × Option Nat}

/-- Every way in which a cell can be relaxed. -/
theorem relaxCell_cases (k : Nat) (ik kj ij : UInt32 × Option Nat) :
    (relaxCell k ik kj ij = ij ∧
      (ik.1 = 0 ∨ kj.1 = 0 ∨ (ik.1 ≠ 0 ∧ kj.1 ≠ 0 ∧ ¬ throughLen ik.1 kj.1 < ij.1))) ∨
    (ik.1 ≠ 0 ∧ kj.1 ≠ 0 ∧ throughLen ik.1 kj.1 < ij.1 ∧
      relaxCell k ik kj ij = (throughLen ik.1 kj.1, some k)) := by
  unfold relaxCell pathDiscon
  split
  · rename_i h
    exact Or.inl ⟨rfl, h.imp_right Or.inl⟩
  · rename_i h
    rw [not_or] at h
    split
    · rename_i hlt
      exact Or.inr ⟨h.1, h.2, hlt, rfl⟩
    · rename_i hlt
      exact Or.inl ⟨rfl, Or.inr (Or.inr ⟨h.1, h.2, hlt⟩)⟩

/-- Row `k` and column `k` do not change in round `k`, whatever the diagonal holds. -/
theorem relaxCell_pivot : Relaxation.Pivot relaxCell where
  row k d c := by
    rcases relaxCell_cases k d c c with ⟨h, -⟩ | ⟨hd, hc, hlt, -⟩
    · exact h
    · exact absurd hlt (not_throughLen_lt hd hc).2
  col k d c := by
    rcases relaxCell_cases k c d c with ⟨h, -⟩ | ⟨hc, hd, hlt, -⟩
    · exact h
    · exact absurd hlt (not_throughLen_lt hc hd).1

/-! ## Rounds -/

/-- Both matrices after `k` rounds from the adjacency matrix `A`. -/
def cells (A : Nat → Nat → UInt32) : Nat → Nat → Nat → UInt32 × Option Nat :=
  Relaxation.rounds relaxCell fun i j => (A i j, none)

variable {A : Nat → Nat → UInt32} {i j : Nat}

theorem cells_zero (A : Nat → Nat → UInt32) (i j : Nat) : cells A 0 i j = (A i j, none) := rfl

theorem cells_succ (A : Nat → Nat → UInt32) (k i j : Nat) :
    cells A (k + 1) i j = relaxCell k (cells A k i k) (cells A k k j) (cells A k i j) := rfl

/-- The rounds below `n` look at the entries below `n` only. -/
theorem cells_congr {n : Nat} {A B : Nat → Nat → UInt32} (h : ∀ i j, i < n → j < n → A i j = B i j) :
    ∀ k ≤ n, ∀ i j, i < n → j < n → cells A k i j = cells B k i j := by
  intro k
  induction k with
  | zero =>
      intro _ i j hi hj
      rw [cells_zero, cells_zero, h i j hi hj]
  | succ k ih =>
      intro hk i j hi hj
      rw [cells_succ, cells_succ, ih (by omega) i k hi (by omega), ih (by omega) k j (by omega) hj,
        ih (by omega) i j hi hj]

/-- One iteration rewrites its own cell. -/
theorem relax_spec (n : Nat) :
    Relaxation.StepSpec relaxCell Matrices.relax (Matrices.cell (n := n)) n := by
  intro k i j m hk hi hj a b
  unfold Matrices.relax Matrices.cell
  rw [Grid.get_set hi hj, Grid.get_set hi hj]
  split <;> rfl

theorem cell_start {n : Nat} (adj : Grid UInt32 n) (hi : i < n) (hj : j < n) :
    Matrices.cell (⟨adj, Grid.const n none⟩ : Matrices n) i j = (adj.get i j, none) := by
  unfold Matrices.cell
  rw [Grid.get_const hi hj]

/-- **The loops, which work in place, compute the rounds.** -/
theorem floydWarshall_cells {n : Nat} (adj : Grid UInt32 n) (hi : i < n) (hj : j < n) :
    (Matrices.floydWarshall ⟨adj, Grid.const n none⟩).cell i j = cells adj.get n i j := by
  rw [Matrices.floydWarshall,
    Relaxation.sweep_eq_rounds (relax_spec n) relaxCell_pivot _ n (Nat.le_refl n) i j hi hj]
  -- both start from the same matrix below `n`, and a round below `n` only looks there
  have hcongr : ∀ m ≤ n, ∀ a b, a < n → b < n →
      Relaxation.rounds relaxCell (Matrices.cell (⟨adj, Grid.const n none⟩ : Matrices n)) m a b
        = cells adj.get m a b := by
    intro m
    induction m with
    | zero => exact fun _ a b ha hb => cell_start adj ha hb
    | succ m ih =>
        intro hm a b ha hb
        rw [cells_succ, Relaxation.rounds, ih (by omega) a m ha (by omega),
          ih (by omega) m b (by omega) hb, ih (by omega) a b ha hb]
  exact hcongr n (Nat.le_refl n) i j hi hj

/-- **A zero stays zero, and nothing else becomes zero.** -/
theorem cells_ne_zero (k i j : Nat) : (cells A k i j).1 ≠ 0 ↔ A i j ≠ 0 := by
  induction k generalizing i j with
  | zero => rfl
  | succ k ih =>
      rw [cells_succ]
      rcases relaxCell_cases k (cells A k i k) (cells A k k j) (cells A k i j) with
        ⟨h, -⟩ | ⟨hik, hkj, hlt, h⟩
      · rw [h]; exact ih i j
      · rw [h, ← ih i j]
        refine ⟨fun _ h0 => ?_, fun _ => throughLen_pos hik hkj⟩
        rw [h0] at hlt
        exact absurd hlt (by simp)

/-- **The diagonal stays at `PATH_MIN`, without an intermediate.** -/
theorem cells_diag (hd : A i i = pathMin) (k : Nat) : cells A k i i = (pathMin, none) := by
  induction k with
  | zero => rw [cells_zero, hd]
  | succ k ih =>
      rw [cells_succ]
      rcases relaxCell_cases k (cells A k i k) (cells A k k i) (cells A k i i) with
        ⟨h, -⟩ | ⟨hik, hki, hlt, -⟩
      · rw [h, ih]
      · rw [ih] at hlt
        have hlt' : _ < pathMin.toNat := UInt32.lt_iff_toNat_lt.mp hlt
        have hpos := ne_zero_iff.mp (throughLen_pos hik hki)
        have h1 : pathMin.toNat = 1 := rfl
        omega

/-- **An intermediate lies strictly between**: it is neither end, and there are links on both sides. -/
theorem cells_next {p : Nat} (h : (cells A k i j).2 = some p) :
    p < k ∧ p ≠ i ∧ p ≠ j ∧ A i p ≠ 0 ∧ A p j ≠ 0 := by
  induction k generalizing i j with
  | zero => cases h
  | succ k ih =>
      rw [cells_succ] at h
      rcases relaxCell_cases k (cells A k i k) (cells A k k j) (cells A k i j) with
        ⟨he, -⟩ | ⟨hik, hkj, hlt, he⟩
      · rw [he] at h
        obtain ⟨hp, hrest⟩ := ih h
        exact ⟨by omega, hrest⟩
      · rw [he, Option.some.injEq] at h
        subst h
        refine ⟨Nat.lt_succ_self k, ?_, ?_, (cells_ne_zero k i k).mp hik, (cells_ne_zero k k j).mp hkj⟩
        · rintro rfl
          exact (not_throughLen_lt hik hkj).2 hlt
        · rintro rfl
          exact (not_throughLen_lt hik hkj).1 hlt

/-- Rounds only shorten. -/
theorem cells_succ_le (k i j : Nat) : (cells A (k + 1) i j).1.toNat ≤ (cells A k i j).1.toNat := by
  rw [cells_succ]
  rcases relaxCell_cases k (cells A k i k) (cells A k k j) (cells A k i j) with ⟨h, -⟩ | ⟨-, -, hlt, h⟩
  · rw [h]
  · rw [h]
    exact Nat.le_of_lt (UInt32.lt_iff_toNat_lt.mp hlt)

theorem cells_le {m : Nat} (hmk : m ≤ k) (i j : Nat) : (cells A k i j).1.toNat ≤ (cells A m i j).1.toNat := by
  induction hmk with
  | refl => exact Nat.le_refl _
  | step _ ih => exact (cells_succ_le _ i j).trans ih

/-- An entry of one is final: nothing is shorter. -/
theorem cells_one {m : Nat} (hmk : m ≤ k) (h : (cells A m i j).1 = 1) : cells A k i j = cells A m i j := by
  induction hmk with
  | refl => rfl
  | @step k _ ih =>
      rw [cells_succ]
      rcases relaxCell_cases k (cells A k i k) (cells A k k j) (cells A k i j) with
        ⟨he, -⟩ | ⟨hik, hkj, hlt, -⟩
      · rw [he, ih]
      · rw [ih, h] at hlt
        have hlt' : _ < (1 : UInt32).toNat := UInt32.lt_iff_toNat_lt.mp hlt
        have hpos := ne_zero_iff.mp (throughLen_pos hik hkj)
        have h1 : (1 : UInt32).toNat = 1 := rfl
        omega

/-- **The last improvement.** The final entry is the length through the recorded intermediate, as it was in
    that intermediate's round. -/
theorem cells_last {p : Nat} (h : (cells A k i j).2 = some p) :
    (cells A p i p).1 ≠ 0 ∧ (cells A p p j).1 ≠ 0 ∧
      throughLen (cells A p i p).1 (cells A p p j).1 < (cells A p i j).1 ∧
      (cells A k i j).1 = throughLen (cells A p i p).1 (cells A p p j).1 := by
  induction k with
  | zero => cases h
  | succ k ih =>
      rw [cells_succ] at h ⊢
      rcases relaxCell_cases k (cells A k i k) (cells A k k j) (cells A k i j) with
        ⟨he, -⟩ | ⟨hik, hkj, hlt, he⟩
      · rw [he] at h ⊢
        exact ih h
      · rw [he, Option.some.injEq] at h
        subst h
        exact ⟨hik, hkj, hlt, congrArg Prod.fst he⟩

end Routing

end P2pVn
