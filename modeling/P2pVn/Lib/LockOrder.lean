import Mathlib.Algebra.BigOperators.Group.Finset.Basic
import Mathlib.Algebra.Order.BigOperators.Group.Finset
import Mathlib.Logic.Function.Basic
import P2pVn.Lib.Simulation

/-!
# `Lib.LockOrder` — threads that take their locks in one order do not block each other

Any number of threads make calls. A call is a `Prog`: it takes and gives back locks, shared or exclusive, and may
go one way or another. Locks have ranks, and a call is `Ordered` if it takes a lock only above all that it holds,
and holds none at its end.

- **Invariant.** `Orderly` bounds what each thread holds by what its program still gives back (`Orderly.step`,
  `Orderly.call`).
- **Progress.** `Orderly.progress`: if some call is not at its end, some call can take a step. A thread that waits,
  waits for one that waits for a lock of higher rank.
- **End.** `Orderly.settles`: without new calls there are only finitely many steps, and where there is no further
  one, every call is at its end and every lock is free.

A lock that is given back by a thread that does not hold it is free afterwards, whoever held it.
-/

namespace LockOrder

/-! ## Programs -/

inductive Mode where
  | shared
  | exclusive
  deriving DecidableEq

/-- What a call has still to do. -/
inductive Prog (κ : Type) where
  | done
  | acquire (l : κ) (m : Mode) (next : Prog κ)
  | release (l : κ) (next : Prog κ)
  | choose (a b : Prog κ)

variable {τ κ : Type}

namespace Prog

/-- The number of steps that are left at most. -/
def steps : Prog κ → Nat
  | done => 0
  | acquire _ _ p => p.steps + 1
  | release _ p => p.steps + 1
  | choose a b => max a.steps b.steps + 1

/-- Locks are taken in the order of their ranks, `held` being held already, and all are given back. -/
def Ordered [DecidableEq κ] (rank : κ → Nat) : Prog κ → List κ → Prop
  | done, held => held = []
  | acquire l _ p, held => (∀ k ∈ held, rank k < rank l) ∧ p.Ordered rank (l :: held)
  | release l p, held => p.Ordered rank (held.erase l)
  | choose a b, held => a.Ordered rank held ∧ b.Ordered rank held

end Prog

/-! ## Threads -/

/-- What each thread has still to do, and who holds each lock. -/
structure State (τ κ : Type) where
  prog : τ → Prog κ
  holders : κ → List (τ × Mode)

/-- A lock that is held like this can be taken. -/
def Grants (hs : List (τ × Mode)) : Mode → Prop
  | .exclusive => hs = []
  | .shared => ∀ h ∈ hs, h.2 = .shared

variable [DecidableEq τ] [DecidableEq κ]

/-- Who holds a lock after `t` has given it back. -/
def freed (t : τ) (hs : List (τ × Mode)) : List (τ × Mode) :=
  if t ∈ hs.map Prod.fst then hs.filter fun h => h.1 ≠ t else []

/-- The steps of thread `t`. -/
inductive Step (s : State τ κ) (t : τ) : State τ κ → Prop
  | acquire {l : κ} {m : Mode} {p : Prog κ} (h : s.prog t = .acquire l m p) (hfree : Grants (s.holders l) m) :
      Step s t ⟨Function.update s.prog t p, Function.update s.holders l ((t, m) :: s.holders l)⟩
  | release {l : κ} {p : Prog κ} (h : s.prog t = .release l p) :
      Step s t ⟨Function.update s.prog t p, Function.update s.holders l (freed t (s.holders l))⟩
  | left {a b : Prog κ} (h : s.prog t = .choose a b) : Step s t ⟨Function.update s.prog t a, s.holders⟩
  | right {a b : Prog κ} (h : s.prog t = .choose a b) : Step s t ⟨Function.update s.prog t b, s.holders⟩

/-- A thread makes a call, or takes a step. -/
inductive Event (τ κ : Type) where
  | call (t : τ) (p : Prog κ)
  | step (t : τ)

/-- What can happen, if the calls are `calls`. -/
inductive Happens (calls : Prog κ → Prop) (s : State τ κ) : Event τ κ → State τ κ → Prop
  | call {t : τ} {p : Prog κ} (hdone : s.prog t = .done) (hp : calls p) :
      Happens calls s (.call t p) ⟨Function.update s.prog t p, s.holders⟩
  | step {t : τ} {s' : State τ κ} (h : Step s t s') : Happens calls s (.step t) s'

/-- Threads that make the calls `calls`. -/
def system (calls : Prog κ → Prop) : Lts (State τ κ) (Event τ κ) where
  start s := (∀ t, s.prog t = .done) ∧ ∀ l, s.holders l = []
  step := Happens calls

variable {rank : κ → Nat} {s s' : State τ κ} {t u : τ} {l : κ} {held : τ → List κ}

/-! ## The invariant -/

/-- Every thread goes on in order, if it holds `held`, and holds no more than that. -/
structure Orderly (rank : κ → Nat) (s : State τ κ) (held : τ → List κ) : Prop where
  ordered : ∀ t, (s.prog t).Ordered rank (held t)
  holds : ∀ l, ∀ h ∈ s.holders l, l ∈ held h.1

theorem mem_freed {hs : List (τ × Mode)} {h : τ × Mode} (hmem : h ∈ freed t hs) : h ∈ hs ∧ h.1 ≠ t := by
  unfold freed at hmem
  split at hmem
  · rw [List.mem_filter, decide_eq_true_iff] at hmem
    exact hmem
  · cases hmem

/-- A thread that goes on with another program, the locks being as they were. -/
theorem Orderly.goes (h : Orderly rank s held) {p : Prog κ} (hp : p.Ordered rank (held t)) :
    Orderly rank ⟨Function.update s.prog t p, s.holders⟩ held := by
  refine ⟨fun u => ?_, h.holds⟩
  by_cases hu : u = t
  · subst hu
    simp only [Function.update_self]
    exact hp
  · simp only [Function.update_of_ne hu]
    exact h.ordered u

/-- **Step lemma.** -/
theorem Orderly.step (h : Orderly rank s held) (hs : Step s t s') : ∃ held', Orderly rank s' held' := by
  cases hs with
  | @acquire l m p hp hfree =>
      have ho := h.ordered t
      rw [hp] at ho
      refine ⟨Function.update held t (l :: held t), fun u => ?_, fun k g hg => ?_⟩
      · by_cases hu : u = t
        · subst hu
          simp only [Function.update_self]
          exact ho.2
        · simp only [Function.update_of_ne hu]
          exact h.ordered u
      · have hmem : g = (t, m) ∧ k = l ∨ g ∈ s.holders k := by
          by_cases hk : k = l
          · subst hk
            simp only [Function.update_self] at hg
            exact (List.mem_cons.mp hg).imp_left fun he => ⟨he, rfl⟩
          · simp only [Function.update_of_ne hk] at hg
            exact Or.inr hg
        rcases hmem with ⟨rfl, rfl⟩ | hg
        · rw [Function.update_self]
          exact List.mem_cons_self
        · by_cases hu : g.1 = t
          · rw [hu, Function.update_self]
            exact List.mem_cons_of_mem l (hu ▸ h.holds k g hg)
          · rw [Function.update_of_ne hu]
            exact h.holds k g hg
  | @release l p hp =>
      have ho := h.ordered t
      rw [hp] at ho
      refine ⟨Function.update held t ((held t).erase l), fun u => ?_, fun k g hg => ?_⟩
      · by_cases hu : u = t
        · subst hu
          simp only [Function.update_self]
          exact ho
        · simp only [Function.update_of_ne hu]
          exact h.ordered u
      · by_cases hk : k = l
        · -- nobody but others hold what was given back
          subst hk
          simp only [Function.update_self] at hg
          obtain ⟨hg, hne⟩ := mem_freed hg
          rw [Function.update_of_ne hne]
          exact h.holds k g hg
        · simp only [Function.update_of_ne hk] at hg
          by_cases hu : g.1 = t
          · rw [hu, Function.update_self]
            exact (List.mem_erase_of_ne hk).mpr (hu ▸ h.holds k g hg)
          · rw [Function.update_of_ne hu]
            exact h.holds k g hg
  | left hp =>
      have ho := h.ordered t
      rw [hp] at ho
      exact ⟨held, h.goes ho.1⟩
  | right hp =>
      have ho := h.ordered t
      rw [hp] at ho
      exact ⟨held, h.goes ho.2⟩

theorem Orderly.call (h : Orderly rank s held) (hdone : s.prog t = .done) {p : Prog κ} (hp : p.Ordered rank []) :
    Orderly rank ⟨Function.update s.prog t p, s.holders⟩ held := by
  have hnil : held t = [] := by
    have ho := h.ordered t
    rw [hdone] at ho
    exact ho
  exact h.goes (hnil ▸ hp)

/-- **Run lemma.** -/
theorem run_orderly {calls : Prog κ → Prop} (hcalls : ∀ p, calls p → p.Ordered rank []) {es : List (Event τ κ)}
    (h : (system calls).Run es s) : ∃ held, Orderly rank s held := by
  refine h.inv (P := fun _ s => ∃ held, Orderly rank s held)
    (fun s hs => ⟨fun _ => [], fun t => ?_, fun l g hg => ?_⟩) fun es s e s' _ ih hstep => ?_
  · rw [hs.1 t]
    rfl
  · rw [hs.2 l] at hg
    cases hg
  · obtain ⟨held, ho⟩ := ih
    cases hstep with
    | call hdone hp => exact ⟨held, ho.call hdone (hcalls _ hp)⟩
    | step hs => exact ho.step hs

/-! ## Progress -/

/-- A thread that has still something to do can take a step, or waits for a lock that is held. -/
theorem step_or_waits (hne : s.prog t ≠ .done) :
    (∃ s', Step s t s') ∨ ∃ l m p, s.prog t = .acquire l m p ∧ ∃ h, h ∈ s.holders l := by
  cases hp : s.prog t with
  | done => exact absurd hp hne
  | release l p => exact Or.inl ⟨_, .release hp⟩
  | choose a b => exact Or.inl ⟨_, .left hp⟩
  | acquire l m p =>
      by_cases hfree : Grants (s.holders l) m
      · exact Or.inl ⟨_, .acquire hp hfree⟩
      · refine Or.inr ⟨l, m, p, rfl, List.exists_mem_of_ne_nil _ fun hnil => hfree ?_⟩
        rw [hnil]
        cases m with
        | exclusive => rfl
        | shared => exact fun h hmem => nomatch hmem

omit [DecidableEq τ] in
/-- A thread that holds a lock is not at its end. -/
theorem Orderly.not_done (h : Orderly rank s held) (hl : l ∈ held t) : s.prog t ≠ .done := by
  intro hdone
  have ho := h.ordered t
  rw [hdone] at ho
  rw [show held t = [] from ho] at hl
  cases hl

/-- **Some thread can take a step**, if a thread holds a lock, by induction on how many ranks there are above it. -/
theorem Orderly.progress_above (h : Orderly rank s held) {R : Nat} (hR : ∀ l, rank l ≤ R) : ∀ (n : Nat) (t : τ) (l : κ),
    l ∈ held t → R < rank l + n → ∃ u s', Step s u s' := by
  intro n
  induction n with
  | zero => exact fun t l _ hn => absurd hn (Nat.not_lt.mpr (hR l))
  | succ n ih =>
      intro t l hl hn
      rcases step_or_waits (h.not_done hl) with ⟨s', hs'⟩ | ⟨k, m, p, hp, g, hg⟩
      · exact ⟨t, s', hs'⟩
      · -- the lock that it waits for is above, and so is what its holder waits for
        have ho := h.ordered t
        rw [hp] at ho
        have hlt : rank l < rank k := ho.1 l hl
        apply ih g.1 k (h.holds k g hg)
        omega

/-- **No deadlock.** If some call is not at its end, some thread can take a step. -/
theorem Orderly.progress (h : Orderly rank s held) {R : Nat} (hR : ∀ l, rank l ≤ R) (hne : s.prog t ≠ .done) :
    ∃ u s', Step s u s' := by
  rcases step_or_waits hne with ⟨s', hs'⟩ | ⟨l, m, p, -, g, hg⟩
  · exact ⟨t, s', hs'⟩
  · apply h.progress_above hR (R + 1) g.1 l (h.holds l g hg)
    omega

/-! ## The end -/

omit [DecidableEq τ] in
/-- Where every call is at its end, every lock is free. -/
theorem Orderly.free (h : Orderly rank s held) (hdone : ∀ t, s.prog t = .done) (l : κ) : s.holders l = [] := by
  refine List.eq_nil_iff_forall_not_mem.mpr fun g hg => ?_
  exact h.not_done (h.holds l g hg) (hdone g.1)

theorem Step.prog (h : Step s t s') : ∃ p, s'.prog = Function.update s.prog t p ∧ p.steps < (s.prog t).steps := by
  cases h with
  | acquire hp _ => exact ⟨_, rfl, by rw [hp]; exact Nat.lt_succ_self _⟩
  | release hp => exact ⟨_, rfl, by rw [hp]; exact Nat.lt_succ_self _⟩
  | left hp => exact ⟨_, rfl, by rw [hp]; exact Nat.lt_succ_of_le (Nat.le_max_left _ _)⟩
  | right hp => exact ⟨_, rfl, by rw [hp]; exact Nat.lt_succ_of_le (Nat.le_max_right _ _)⟩

/-- Some number of steps, without new calls. -/
inductive Steps (s : State τ κ) : Nat → State τ κ → Prop
  | zero : Steps s 0 s
  | succ {n : Nat} {t : τ} {s1 s2 : State τ κ} (h : Steps s n s1) (hstep : Step s1 t s2) : Steps s (n + 1) s2

theorem Steps.orderly {n : Nat} (hn : Steps s n s') (h : Orderly rank s held) : ∃ held', Orderly rank s' held' := by
  induction hn with
  | zero => exact ⟨held, h⟩
  | succ _ hstep ih =>
      obtain ⟨held1, h1⟩ := ih
      exact h1.step hstep

section

variable [Fintype τ]

/-- The steps that are left in all calls. -/
def left (s : State τ κ) : Nat := ∑ t, (s.prog t).steps

theorem Step.left_lt (h : Step s t s') : LockOrder.left s' < LockOrder.left s := by
  obtain ⟨p, hp, hlt⟩ := h.prog
  refine Finset.sum_lt_sum (fun u _ => ?_) ⟨t, Finset.mem_univ t, ?_⟩
  · by_cases hu : u = t
    · subst hu
      rw [hp, Function.update_self]
      exact Nat.le_of_lt hlt
    · rw [hp, Function.update_of_ne hu]
  · rw [hp, Function.update_self]
    exact hlt

theorem Steps.left_le {n : Nat} (h : Steps s n s') : n + LockOrder.left s' ≤ LockOrder.left s := by
  induction h with
  | zero => rw [Nat.zero_add]
  | succ _ hstep ih =>
      have hlt := hstep.left_lt
      omega

/-- **Everything comes to its end**: the number of steps is bounded, and where no further one can be taken, every call
    is at its end and every lock is free. -/
theorem Orderly.settles (h : Orderly rank s held) {R : Nat} (hR : ∀ l, rank l ≤ R) {n : Nat} (hn : Steps s n s') :
    n ≤ LockOrder.left s ∧
      ((∀ u s'', ¬ Step s' u s'') → (∀ t, s'.prog t = .done) ∧ ∀ l, s'.holders l = []) := by
  refine ⟨Nat.le_trans (Nat.le_add_right _ _) hn.left_le, fun hstuck => ?_⟩
  obtain ⟨held', h'⟩ := hn.orderly h
  have hdone : ∀ t, s'.prog t = .done := by
    intro t
    by_contra hne
    obtain ⟨u, s'', hs⟩ := h'.progress hR hne
    exact hstuck u s'' hs
  exact ⟨hdone, h'.free hdone⟩

end

end LockOrder
