import P2pVn.Lib.Fault
import Mathlib.Tactic.Common

/-!
# `StdParam` — the binary search that `DEF_BSEARCH` generates (`stdparam.h`)

One definition stands for every instance of the macro: `cmp p` is the comparison of the searched key with
the element `p`, and may fault because it follows pointers. The result is the index of the element the C
function returns a pointer to, and `none` is its `NULL`.

## Contents
- `bsearch_eq` (what is returned compares equal), `bsearch_ok` (no fault unless a comparison faults).
- `bsearch_none`: on an array ordered with respect to the key, `NULL` means that no element compares equal.
  The invariant of the loop is `Narrowed`: what lies below `l` is smaller, what lies from `u` on is larger.
- `defBsearch`: the same search with indices of type `size_t`, which ends only by itself. On arrays of at most
  `SIZE_MAX / 2` elements it is `bsearch` (`defBsearch_eq`), and exact on sorted ones (`defBsearch_exact`).
-/

namespace P2pVn
open CUb

variable {α : Type}

/-- The `while (l < u)` loop. The interval shrinks in every iteration, so `nmemb` rounds suffice. -/
def bsearchLoop (cmp : α → Ub Ordering) (base : List α) : Nat → Nat → Nat → Ub (Option Nat)
  | 0, _, _ => .ok none
  | fuel + 1, l, u =>
    if l < u then
      match base[(l + u) / 2]? with
      | none => .error .outOfBounds
      | some p => do
        match ← cmp p with
        | .lt => bsearchLoop cmp base fuel l ((l + u) / 2)
        | .gt => bsearchLoop cmp base fuel ((l + u) / 2 + 1) u
        | .eq => .ok (some ((l + u) / 2))
    else .ok none

def bsearch (cmp : α → Ub Ordering) (base : List α) : Ub (Option Nat) :=
  bsearchLoop cmp base base.length 0 base.length

variable {cmp : α → Ub Ordering} {base : List α}

/-! ## What is found compares equal -/

theorem bsearchLoop_eq {i : Nat} : ∀ (fuel l u : Nat),
    bsearchLoop cmp base fuel l u = .ok (some i) → ∃ p, base[i]? = some p ∧ cmp p = .ok .eq := by
  intro fuel
  induction fuel with
  | zero => intro l u h; simp [bsearchLoop] at h
  | succ fuel ih =>
      intro l u h
      unfold bsearchLoop at h
      split at h
      · split at h
        · cases h
        · rename_i p hp
          obtain ⟨o, ho, h⟩ := bind_eq_ok.mp h
          cases o with
          | lt => exact ih _ _ h
          | gt => exact ih _ _ h
          | eq =>
              cases h
              exact ⟨p, hp, ho⟩
      · cases h

/-- **A returned element compares equal to the key.** -/
theorem bsearch_eq {i : Nat} (h : bsearch cmp base = .ok (some i)) :
    ∃ p, base[i]? = some p ∧ cmp p = .ok .eq := bsearchLoop_eq _ _ _ h

/-! ## The search does not fault by itself -/

theorem bsearchLoop_ok (hc : ∀ p ∈ base, ∃ o, cmp p = .ok o) : ∀ (fuel l u : Nat), u ≤ base.length →
    ∃ r, bsearchLoop cmp base fuel l u = .ok r := by
  intro fuel
  induction fuel with
  | zero => exact fun _ _ _ => ⟨none, rfl⟩
  | succ fuel ih =>
      intro l u hu
      unfold bsearchLoop
      split
      · rename_i hlu
        have hidx : (l + u) / 2 < base.length := by omega
        rw [List.getElem?_eq_getElem hidx]
        obtain ⟨o, ho⟩ := hc _ (List.getElem_mem hidx)
        simp only [ho, ok_bind]
        cases o with
        | lt => exact ih _ _ (by omega)
        | gt => exact ih _ _ hu
        | eq => exact ⟨_, rfl⟩
      · exact ⟨none, rfl⟩

/-- **The search reads inside the array**: it returns whenever its comparisons do. -/
theorem bsearch_ok (hc : ∀ p ∈ base, ∃ o, cmp p = .ok o) : ∃ r, bsearch cmp base = .ok r :=
  bsearchLoop_ok hc _ _ _ (Nat.le_refl _)

/-! ## On an ordered array `NULL` means absent -/

/-- The comparisons with the key run `.gt … .gt .eq … .eq .lt … .lt` along the array. -/
def KeyOrdered (c : α → Ordering) (base : List α) : Prop :=
  base.Pairwise fun a b => (c a = .lt → c b = .lt) ∧ (c b = .gt → c a = .gt)

/-- The interval invariant: everything below `l` is smaller than the key, everything from `u` on larger. -/
def Narrowed (c : α → Ordering) (base : List α) (l u : Nat) : Prop :=
  ∀ i p, base[i]? = some p → (i < l → c p = .gt) ∧ (u ≤ i → c p = .lt)

theorem KeyOrdered.gt_of_le {c : α → Ordering} (h : KeyOrdered c base) {i j : Nat} {a b : α}
    (ha : base[i]? = some a) (hb : base[j]? = some b) (hij : i ≤ j) (hgt : c b = .gt) : c a = .gt := by
  rcases Nat.lt_or_eq_of_le hij with hlt | rfl
  · obtain ⟨hi, rfl⟩ := List.getElem?_eq_some_iff.mp ha
    obtain ⟨hj, rfl⟩ := List.getElem?_eq_some_iff.mp hb
    exact (List.pairwise_iff_getElem.mp h i j hi hj hlt).2 hgt
  · rw [ha] at hb; cases hb; exact hgt

theorem KeyOrdered.lt_of_le {c : α → Ordering} (h : KeyOrdered c base) {i j : Nat} {a b : α}
    (ha : base[i]? = some a) (hb : base[j]? = some b) (hij : i ≤ j) (hlt : c a = .lt) : c b = .lt := by
  rcases Nat.lt_or_eq_of_le hij with hij | rfl
  · obtain ⟨hi, rfl⟩ := List.getElem?_eq_some_iff.mp ha
    obtain ⟨hj, rfl⟩ := List.getElem?_eq_some_iff.mp hb
    exact (List.pairwise_iff_getElem.mp h i j hi hj hij).1 hlt
  · rw [ha] at hb; cases hb; exact hlt

theorem bsearchLoop_none {c : α → Ordering} (hc : ∀ p ∈ base, cmp p = .ok (c p))
    (hord : KeyOrdered c base) : ∀ (fuel l u : Nat), u ≤ l + fuel → Narrowed c base l u →
      bsearchLoop cmp base fuel l u = .ok none → ∀ p ∈ base, c p ≠ .eq := by
  -- an empty interval leaves nothing that could compare equal
  have hdone : ∀ l u : Nat, u ≤ l → Narrowed c base l u → ∀ p ∈ base, c p ≠ .eq := by
    intro l u hul hn p hp
    obtain ⟨i, hi⟩ := List.getElem?_of_mem hp
    rcases Nat.lt_or_ge i l with hil | hil
    · rw [(hn i p hi).1 hil]; simp
    · rw [(hn i p hi).2 (by omega)]; simp
  intro fuel
  induction fuel with
  | zero => intro l u hul hn _; exact hdone l u (by omega) hn
  | succ fuel ih =>
      intro l u hul hn h
      unfold bsearchLoop at h
      split at h
      · rename_i hlu
        split at h
        · cases h
        · rename_i p hp
          rw [hc p (List.mem_of_getElem? hp), ok_bind] at h
          split at h
          · rename_i hcp
            refine ih l _ (by omega) ?_ h
            intro i q hq
            exact ⟨(hn i q hq).1, fun hi => hord.lt_of_le hp hq hi hcp⟩
          · rename_i hcp
            refine ih _ u (by omega) ?_ h
            intro i q hq
            exact ⟨fun hi => hord.gt_of_le hq hp (by omega) hcp, (hn i q hq).2⟩
          · cases h
      · exact hdone l u (by omega) hn

/-- **`NULL` means absent**, on an array ordered with respect to the key. -/
theorem bsearch_none {c : α → Ordering} (hc : ∀ p ∈ base, cmp p = .ok (c p))
    (hord : KeyOrdered c base) (h : bsearch cmp base = .ok none) : ∀ p ∈ base, c p ≠ .eq := by
  refine bsearchLoop_none hc hord _ 0 _ (by omega) ?_ h
  intro i p hp
  obtain ⟨hi, -⟩ := List.getElem?_eq_some_iff.mp hp
  exact ⟨fun h => absurd h (Nat.not_lt_zero i), fun h => absurd hi (by omega)⟩

/-- An array sorted by key is ordered with respect to every key. -/
theorem keyOrdered_of_sorted {κ : Type} {ord : κ → κ → Ordering} [Std.TransCmp ord] {key : α → κ}
    (h : base.Pairwise fun a b => (ord (key a) (key b)).isLE) (k : κ) :
    KeyOrdered (fun p => ord k (key p)) base := by
  refine h.imp ?_
  intro a b hab
  exact ⟨fun hk => Std.TransCmp.lt_of_lt_of_isLE hk hab, fun hk => by
    have hkb : ord (key b) k = .lt := Std.OrientedCmp.gt_iff_lt.mp hk
    exact Std.OrientedCmp.gt_iff_lt.mpr (Std.TransCmp.lt_of_isLE_of_lt hab hkb)⟩

/-! ## The search over `size_t` -/

/-- `SIZE_MAX`. -/
def sizeMax : Nat := 18446744073709551615

/-- The loop as the machine runs it: `l`, `u` and `idx` are of type `size_t`, a read that is not below the
    end of the array is a fault, and so is a loop that has not ended after `fuel` comparisons. -/
def defBsearchLoop (cmp : α → Ub Ordering) (base : List α) : Nat → UInt64 → UInt64 → Ub (Option UInt64)
  | 0, l, u => if l < u then .error .nonTermination else .ok none
  | fuel + 1, l, u =>
    if l < u then
      let idx := (l + u) / 2
      match base[idx.toNat]? with
      | none => .error .outOfBounds
      | some p => do
        match ← cmp p with
        | .lt => defBsearchLoop cmp base fuel l idx
        | .gt => defBsearchLoop cmp base fuel (idx + 1) u
        | .eq => .ok (some idx)
    else .ok none

/-- `bsearch_##name`, of an array of `nmemb = base.length` elements. -/
def defBsearch (cmp : α → Ub Ordering) (base : List α) (fuel : Nat) : Ub (Option UInt64) :=
  defBsearchLoop cmp base fuel 0 (UInt64.ofNat base.length)

/-- Below `SIZE_MAX / 2` the midpoint does not wrap around. -/
theorem toNat_midpoint {l u : Nat} (hl : l ≤ sizeMax / 2) (hu : u ≤ sizeMax / 2) :
    ((UInt64.ofNat l + UInt64.ofNat u) / 2).toNat = (l + u) / 2 := by
  unfold sizeMax at hl hu
  rw [UInt64.toNat_div, UInt64.toNat_add, UInt64.toNat_ofNat', UInt64.toNat_ofNat']
  simp only [UInt64.reduceToNat]
  omega

/-- With a round for every element of the interval the two loops agree. -/
theorem defBsearchLoop_eq (hsz : base.length ≤ sizeMax / 2) : ∀ (fuel fuel' l u : Nat), l ≤ base.length →
    u ≤ base.length → u ≤ l + fuel → u ≤ l + fuel' →
      defBsearchLoop cmp base fuel (UInt64.ofNat l) (UInt64.ofNat u)
        = (bsearchLoop cmp base fuel' l u).map (Option.map UInt64.ofNat) := by
  have hlt : ∀ l u : Nat, l ≤ base.length → u ≤ base.length →
      (UInt64.ofNat l < UInt64.ofNat u ↔ l < u) := by
    intro l u hl hu
    unfold sizeMax at hsz
    rw [UInt64.lt_iff_toNat_lt, UInt64.toNat_ofNat_of_lt' (by simp only [UInt64.size]; omega),
      UInt64.toNat_ofNat_of_lt' (by simp only [UInt64.size]; omega)]
  -- an empty interval ends both
  have hdone : ∀ fuel fuel' l u : Nat, l ≤ base.length → u ≤ base.length → ¬ l < u →
      defBsearchLoop cmp base fuel (UInt64.ofNat l) (UInt64.ofNat u)
        = (bsearchLoop cmp base fuel' l u).map (Option.map UInt64.ofNat) := by
    intro fuel fuel' l u hl hu hlu
    have hlu' := mt (hlt l u hl hu).mp hlu
    cases fuel <;> cases fuel' <;> simp only [defBsearchLoop, bsearchLoop, if_neg hlu, if_neg hlu'] <;> rfl
  intro fuel
  induction fuel with
  | zero => exact fun fuel' l u hl hu h _ => hdone 0 fuel' l u hl hu (by omega)
  | succ fuel ih =>
      intro fuel' l u hl hu h h'
      by_cases hlu : l < u
      · cases fuel' with
        | zero => omega
        | succ fuel' =>
            have hlu' := (hlt l u hl hu).mpr hlu
            have hmid := toNat_midpoint (Nat.le_trans hl hsz) (Nat.le_trans hu hsz)
            have hidx : (UInt64.ofNat l + UInt64.ofNat u) / 2 = UInt64.ofNat ((l + u) / 2) := by
              rw [← hmid, UInt64.ofNat_toNat]
            have hsucc : UInt64.ofNat ((l + u) / 2) + 1 = UInt64.ofNat ((l + u) / 2 + 1) := by
              rw [UInt64.ofNat_add]
              rfl
            simp only [defBsearchLoop, bsearchLoop, if_pos hlu, if_pos hlu', hmid]
            rw [List.getElem?_eq_getElem (by omega : (l + u) / 2 < base.length)]
            cases hc : cmp base[(l + u) / 2] with
            | error e =>
                simp only [hc, error_bind]
                rfl
            | ok o =>
                simp only [hc, ok_bind, hidx, hsucc]
                cases o with
                | lt => exact ih fuel' l _ hl (by omega) (by omega) (by omega)
                | gt => exact ih fuel' _ u (by omega) hu (by omega) (by omega)
                | eq => rfl
      · exact hdone (fuel + 1) fuel' l u hl hu hlu

/-- **On an array of at most `SIZE_MAX / 2` elements the generated function is `bsearch`.** -/
theorem defBsearch_eq (hsz : base.length ≤ sizeMax / 2) {fuel : Nat} (hfuel : base.length ≤ fuel) :
    defBsearch cmp base fuel = (bsearch cmp base).map (Option.map UInt64.ofNat) :=
  defBsearchLoop_eq hsz fuel base.length 0 base.length (Nat.zero_le _) (Nat.le_refl _) (by omega) (by omega)

/-- **The search is exact on sorted arrays.** For a total preorder and an array of at most `SIZE_MAX / 2`
    elements that it sorts: the loop ends, reads inside the array only, returns an element that compares equal
    to the key, and `NULL` if and only if there is none. -/
theorem defBsearch_exact (cmp : α → α → Ordering) [Std.TransCmp cmp] (base : List α) (key : α)
    (hsorted : base.Pairwise fun a b => (cmp a b).isLE) (hsz : base.length ≤ sizeMax / 2) :
    ∃ r, (∀ fuel ≥ base.length, defBsearch (fun p => .ok (cmp key p)) base fuel = .ok r) ∧
      (∀ i, r = some i → ∃ p, base[i.toNat]? = some p ∧ cmp key p = .eq) ∧
      (r = none ↔ ∀ p ∈ base, cmp key p ≠ .eq) := by
  obtain ⟨r, hr⟩ : ∃ r, bsearch (fun p => .ok (cmp key p)) base = .ok r := bsearch_ok fun p _ => ⟨_, rfl⟩
  refine ⟨r.map UInt64.ofNat, ?_, ?_, ?_⟩
  · intro fuel hfuel
    rw [defBsearch_eq hsz hfuel, hr]
    rfl
  · intro i hi
    obtain ⟨j, rfl, rfl⟩ := Option.map_eq_some_iff.mp hi
    obtain ⟨p, hp, heq⟩ := bsearch_eq hr
    have hj : j < base.length := (List.getElem?_eq_some_iff.mp hp).1
    refine ⟨p, ?_, Except.ok.inj heq⟩
    -- an index of the array is one of `size_t`
    unfold sizeMax at hsz
    rwa [UInt64.toNat_ofNat_of_lt' (by simp only [UInt64.size]; omega)]
  · rw [Option.map_eq_none_iff]
    constructor
    · rintro rfl
      have hord : KeyOrdered (cmp key) base := keyOrdered_of_sorted hsorted key
      exact bsearch_none (fun _ _ => rfl) hord hr
    · intro habsent
      cases r with
      | none => rfl
      | some j =>
          obtain ⟨p, hp, heq⟩ := bsearch_eq hr
          exact absurd (Except.ok.inj heq) (habsent p (List.mem_of_getElem? hp))

/-- Among elements that compare equal, the one in the middle is found. -/
theorem defBsearch_exact_sample :
    ∃ r, r = some 2 ∧ (∀ fuel ≥ 4, defBsearch (fun p => .ok (compare 5 p)) [2, 5, 5, 9] fuel = .ok r) ∧
      (r = none ↔ ∀ p ∈ [2, 5, 5, 9], compare 5 p ≠ .eq) := by
  obtain ⟨r, hr, -, hnone⟩ := defBsearch_exact (compare : Nat → Nat → Ordering) [2, 5, 5, 9] 5
    (by decide) (by decide)
  have h4 : defBsearch (fun p => .ok (compare 5 p)) [2, 5, 5, 9] 4 = .ok (some 2) := by decide +kernel
  rw [hr 4 (by decide)] at h4
  exact ⟨r, Except.ok.inj h4, hr, hnone⟩

end P2pVn
