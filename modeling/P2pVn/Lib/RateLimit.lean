import Mathlib.Data.List.Basic
import Mathlib.Tactic.Common

/-!
# `Lib.RateLimit` — logs of a limiter that spaces what it admits

A limiter is asked, at some time and for some key, whether to go ahead. It admits the request if what it
admitted last for the key lies more than `ease` back. Nothing is said about how it remembers that.

A log lists the requests, the newest first. `Limited ease H` says that every decision in `H` is the right one
given what precedes it.

## Contents
- `Limited.spaced`: with a clock that does not run backwards, what is admitted for a key is more than `ease`
  apart.
- `Limited.only`, `Limited.determined`: the requests for one key are by themselves the log of a limiter, and
  times determine decisions; so requests for other keys do not matter.
- `Spaced.window`: of times that are `gap` apart, no window of `n * gap` has more than `n`.
-/

namespace RateLimit

variable {κ : Type} [DecidableEq κ]

/-- A request and what became of it. -/
structure Request (κ : Type) where
  key : κ
  now : Int
  admitted : Bool
  deriving DecidableEq

/-- When a request for `k` was last admitted. -/
def lastAdmitted (k : κ) (H : List (Request κ)) : Option Int :=
  (H.find? fun r => r.key = k && r.admitted).map Request.now

/-- A request at `now` goes ahead if it is the first, or more than `ease` after the last that did. -/
def Elapsed (ease : Int) (last : Option Int) (now : Int) : Prop := ∀ t, last = some t → t + ease < now

/-- A log of right decisions, the newest first. -/
inductive Limited (ease : Int) : List (Request κ) → Prop
  | nil : Limited ease []
  | cons {r H} (hH : Limited ease H) (hr : r.admitted = true ↔ Elapsed ease (lastAdmitted r.key H) r.now) :
      Limited ease (r :: H)

/-- The clock does not run backwards. -/
def Monotone (H : List (Request κ)) : Prop := H.Pairwise fun r r' => r'.now ≤ r.now

variable {ease : Int} {H : List (Request κ)}

theorem lastAdmitted_cons (k : κ) (r : Request κ) (H : List (Request κ)) :
    lastAdmitted k (r :: H) = if r.key = k ∧ r.admitted = true then some r.now else lastAdmitted k H := by
  unfold lastAdmitted
  by_cases h : r.key = k ∧ r.admitted = true
  · simp [h]
  · rw [if_neg h, List.find?_cons_of_neg]
    simpa using h

/-- The decision on any request of a log is right. -/
theorem Limited.decided {r : Request κ} {newer : List (Request κ)} (h : Limited ease (newer ++ r :: H)) :
    r.admitted = true ↔ Elapsed ease (lastAdmitted r.key H) r.now := by
  induction newer with
  | nil =>
      cases h with
      | cons _ hr => exact hr
  | cons _ newer ih =>
      cases h with
      | cons hH _ => exact ih hH

/-- Whatever was admitted was admitted no later than the last. -/
theorem le_lastAdmitted (hm : Monotone H) {r : Request κ} (hr : r ∈ H) (ha : r.admitted = true) :
    ∃ t, lastAdmitted r.key H = some t ∧ r.now ≤ t := by
  induction H with
  | nil => cases hr
  | cons x H ih =>
      obtain ⟨hx, hm⟩ := List.pairwise_cons.mp hm
      rw [lastAdmitted_cons]
      split
      · rcases List.mem_cons.mp hr with rfl | hr
        · exact ⟨_, rfl, Int.le_refl _⟩
        · exact ⟨_, rfl, hx r hr⟩
      · rename_i hne
        rcases List.mem_cons.mp hr with rfl | hr
        · exact absurd ⟨rfl, ha⟩ hne
        · exact ih hm hr

/-- **What is admitted for a key is more than `ease` apart.** -/
theorem Limited.spaced (h : Limited ease H) (hm : Monotone H) :
    H.Pairwise fun r r' => r.key = r'.key → r.admitted = true → r'.admitted = true → r'.now + ease < r.now := by
  induction h with
  | nil => exact .nil
  | @cons r H hH hr ih =>
      obtain ⟨-, hm⟩ := List.pairwise_cons.mp hm
      refine List.pairwise_cons.mpr ⟨fun r' hr' hkey ha ha' => ?_, ih hm⟩
      obtain ⟨t, ht, hle⟩ := le_lastAdmitted hm hr' ha'
      have helapsed : t + ease < r.now := hr.mp ha t (hkey ▸ ht)
      omega

/-- Requests for other keys are not looked at. -/
theorem lastAdmitted_filter (k : κ) (H : List (Request κ)) :
    lastAdmitted k (H.filter fun r => r.key = k) = lastAdmitted k H := by
  induction H with
  | nil => rfl
  | cons r H ih =>
      rw [List.filter_cons]
      by_cases hk : r.key = k
      · simp only [hk, decide_true, if_true, lastAdmitted_cons, true_and, ih]
      · simp only [hk, decide_false, Bool.false_eq_true, if_false, lastAdmitted_cons, false_and, ih]

/-- **The requests for one key are the log of a limiter.** -/
theorem Limited.only (h : Limited ease H) (k : κ) : Limited ease (H.filter fun r => r.key = k) := by
  induction h with
  | nil => exact .nil
  | @cons r H hH hr ih =>
      rw [List.filter_cons]
      split
      · rename_i hk
        obtain rfl : r.key = k := of_decide_eq_true hk
        refine ih.cons ?_
        rw [lastAdmitted_filter]
        exact hr
      · exact ih

/-- **Keys and times determine the decisions.** -/
theorem Limited.determined (h : Limited ease H) : ∀ {H' : List (Request κ)}, Limited ease H' →
    H.map (fun r => (r.key, r.now)) = H'.map (fun r => (r.key, r.now)) → H = H' := by
  induction h with
  | nil =>
      intro H' _ he
      exact (List.map_eq_nil_iff.mp he.symm).symm
  | @cons r H hH hr ih =>
      intro H' h' he
      cases h' with
      | nil => cases he
      | @cons r' H' hH' hr' =>
          simp only [List.map_cons, List.cons.injEq, Prod.mk.injEq] at he
          obtain ⟨⟨hkey, hnow⟩, htail⟩ := he
          obtain rfl := ih hH' htail
          have hadm : r.admitted = r'.admitted := by
            rw [Bool.eq_iff_iff, hr, hr', hkey, hnow]
          obtain ⟨k, n, a⟩ := r
          obtain ⟨k', n', a'⟩ := r'
          simp only at hkey hnow hadm
          rw [hkey, hnow, hadm]

/-! ## Times that are apart -/

/-- Each time lies at least `gap` after those before it, the newest first. -/
def Spaced (gap : Int) (ts : List Int) : Prop := ts.Pairwise fun t t' => t' + gap ≤ t

/-- It is enough to look at the newest. -/
theorem Spaced.cons {gap t : Int} {ts : List Int} (h : Spaced gap ts) (hgap : 0 ≤ gap)
    (ht : ∀ t', ts.head? = some t' → t' + gap ≤ t) : Spaced gap (t :: ts) := by
  apply List.pairwise_cons.mpr
  refine ⟨fun u hu => ?_, h⟩
  cases ts with
  | nil => cases hu
  | cons t' ts =>
      have hnewest := ht t' rfl
      rcases List.mem_cons.mp hu with rfl | hu
      · exact hnewest
      · have hle := (List.pairwise_cons.mp h).1 u hu
        omega

/-- The newest of `n` times is `n - 1` gaps after anything they all lie after. -/
theorem Spaced.newest {gap x t : Int} {ts : List Int} (h : Spaced gap (t :: ts)) (hx : ∀ u ∈ t :: ts, x ≤ u) :
    x + ts.length * gap ≤ t := by
  induction ts generalizing t with
  | nil =>
      have := hx t List.mem_cons_self
      simpa using this
  | cons t' ts ih =>
      obtain ⟨hnewest, hrest⟩ := List.pairwise_cons.mp h
      have hstep := hnewest t' List.mem_cons_self
      have hbelow := ih hrest fun u hu => hx u (List.mem_cons_of_mem _ hu)
      rw [List.length_cons, Int.natCast_succ, Int.add_mul, Int.one_mul]
      omega

/-- **No window of `n` gaps has more than `n` of the times.** -/
theorem Spaced.window {gap : Int} {ts : List Int} (h : Spaced gap ts) (hgap : 0 < gap) (x : Int) (n : Nat) :
    (ts.filter fun t => x ≤ t ∧ t < x + n * gap).length ≤ n := by
  have hspaced : Spaced gap (ts.filter fun t => x ≤ t ∧ t < x + n * gap) := List.Pairwise.filter _ h
  have hin : ∀ u ∈ ts.filter (fun t => x ≤ t ∧ t < x + n * gap), x ≤ u ∧ u < x + n * gap := by
    intro u hu
    simpa using (List.mem_filter.mp hu).2
  generalize ts.filter (fun t => x ≤ t ∧ t < x + n * gap) = us at hspaced hin
  cases us with
  | nil => exact Nat.zero_le n
  | cons t us =>
      have hnewest := hspaced.newest fun u hu => (hin u hu).1
      have hlast := (hin t List.mem_cons_self).2
      have hlt : (us.length : Int) * gap < n * gap := by omega
      have hlen : (us.length : Int) < n := Int.lt_of_mul_lt_mul_right hlt (Int.le_of_lt hgap)
      rw [List.length_cons]
      omega

end RateLimit
