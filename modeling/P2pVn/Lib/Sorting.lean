import Mathlib.Data.List.Sort
import P2pVn.Lib.Fault

/-!
# `Lib.Sorting` — what a library sort promises

C's `qsort` promises a sorted permutation and nothing else: it need not be stable, and elements that
compare equal come in any order. `Qsort` is such a sort together with its promise. A development takes one
as a parameter, so its results hold for every implementation.

`sortBy` sorts elements by a key that has to be read first (and whose reading may fault), as a comparison
function does that follows a pointer.
-/

namespace CUb

/-- A sorting routine and what it promises for a comparison that is a total preorder. -/
structure Qsort where
  sort : {α : Type} → (α → α → Ordering) → List α → List α
  perm : ∀ {α : Type} (cmp : α → α → Ordering) (l : List α), (sort cmp l).Perm l
  sorted : ∀ {α : Type} (cmp : α → α → Ordering) [Std.TransCmp cmp] (l : List α),
    (sort cmp l).Pairwise fun a b => (cmp a b).isLE

/-- Insertion sort keeps the promise. -/
def Qsort.insertion : Qsort where
  sort cmp l := l.insertionSort fun a b => (cmp a b).isLE
  perm cmp l := List.perm_insertionSort _ l
  sorted cmp _ l := by
    have htot : Std.Total fun a b => ((cmp a b).isLE = true) :=
      ⟨fun a b => by
        have hswap : cmp b a = (cmp a b).swap := Std.OrientedCmp.eq_swap
        rw [hswap]
        cases cmp a b <;> simp⟩
    have htr : IsTrans _ fun a b => ((cmp a b).isLE = true) :=
      ⟨fun a b c h1 h2 => Std.TransCmp.isLE_trans h1 h2⟩
    exact List.pairwise_insertionSort _ l

variable {α κ : Type}

/-- Read the key of every element, then sort by key. -/
def sortBy (q : Qsort) (cmp : κ → κ → Ordering) (key : α → Ub κ) (l : List α) : Ub (List α) := do
  let ks ← l.mapM key
  pure ((q.sort (fun x y => cmp x.2 y.2) (l.zip ks)).map Prod.fst)

section

variable {q : Qsort} {cmp : κ → κ → Ordering} {key : α → Ub κ} {l : List α}

theorem sortBy_ok (q : Qsort) (cmp : κ → κ → Ordering) (hk : ∀ a ∈ l, ∃ k, key a = .ok k) :
    ∃ r, sortBy q cmp key l = .ok r := by
  have hm : ∃ ks, l.mapM key = Except.ok ks := by
    induction l with
    | nil => exact ⟨[], rfl⟩
    | cons a l ih =>
        obtain ⟨k, hk'⟩ := hk a (by simp)
        obtain ⟨ks, hks⟩ := ih (fun b hb => hk b (by simp [hb]))
        exact ⟨k :: ks, by rw [List.mapM_cons, hk', ok_bind, hks]; rfl⟩
  obtain ⟨ks, hks⟩ := hm
  exact ⟨_, by rw [sortBy, hks]; rfl⟩

/-- Every pair of `l.zip ks` holds an element and its own key. -/
theorem key_of_mem_zip {ks : List κ} (h : List.Forall₂ (fun a k => key a = Except.ok k) l ks) :
    ∀ p ∈ l.zip ks, key p.1 = .ok p.2 := by
  induction h with
  | nil => simp
  | cons hab _ ih =>
      intro p hp
      rcases List.mem_cons.mp hp with rfl | hp
      · exact hab
      · exact ih p hp

theorem sortBy_perm {r : List α} (h : sortBy q cmp key l = .ok r) : r.Perm l := by
  obtain ⟨ks, hks, hr⟩ := bind_eq_ok.mp h
  cases hr
  have hlen : l.length = ks.length := (mapM_eq_ok.mp hks).length_eq
  have hp := (q.perm (fun x y => cmp x.2 y.2) (l.zip ks)).map Prod.fst
  rwa [List.map_fst_zip (Nat.le_of_eq hlen)] at hp

/-- Sorting by key read every key. -/
theorem sortBy_keys {r : List α} (h : sortBy q cmp key l = .ok r) : ∀ a ∈ l, ∃ k, key a = .ok k := by
  obtain ⟨ks, hks, -⟩ := bind_eq_ok.mp h
  intro a ha
  obtain ⟨i, hi, rfl⟩ := List.getElem_of_mem ha
  have hf := mapM_eq_ok.mp hks
  exact ⟨ks.get ⟨i, hf.length_eq ▸ hi⟩, hf.get hi _⟩

theorem sortBy_sorted [Std.TransCmp cmp] {r : List α} (h : sortBy q cmp key l = .ok r) :
    r.Pairwise fun a b => ∀ x y, key a = .ok x → key b = .ok y → (cmp x y).isLE := by
  obtain ⟨ks, hks, hr⟩ := bind_eq_ok.mp h
  cases hr
  have htr : Std.TransCmp fun x y : α × κ => cmp x.2 y.2 :=
    { eq_swap := Std.OrientedCmp.eq_swap, isLE_trans := Std.TransCmp.isLE_trans }
  have hkey := key_of_mem_zip (mapM_eq_ok.mp hks)
  have hmem : ∀ p ∈ q.sort (fun x y => cmp x.2 y.2) (l.zip ks), key p.1 = .ok p.2 :=
    fun p hp => hkey p ((q.perm _ _).mem_iff.mp hp)
  rw [List.pairwise_map]
  refine (q.sorted (fun x y : α × κ => cmp x.2 y.2) (l.zip ks)).imp_of_mem ?_
  intro a b ha hb hab x y hx hy
  rw [hmem a ha] at hx
  rw [hmem b hb] at hy
  cases hx; cases hy
  exact hab

end

end CUb
