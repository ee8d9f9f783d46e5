import Mathlib.Data.List.Perm.Subperm
import Mathlib.Data.List.Range
import Mathlib.Order.WellFounded

/-!
# `Lib.Following` — following a pointer until it ends

`Trail next a vs` says that following `next` from `a` visits exactly the vertices `vs`, in this order, and
then ends. If every step lowers a measure with values in a well-founded order, the trail exists, and it visits
no vertex twice.
-/

namespace Following

variable {α β : Type} {next : α → Option α}

/-- Following `next` from a vertex visits these vertices and ends. -/
inductive Trail (next : α → Option α) : α → List α → Prop where
  | last {a : α} (h : next a = none) : Trail next a [a]
  | hop {a b : α} {vs : List α} (h : next a = some b) (rest : Trail next b vs) : Trail next a (a :: vs)

theorem Trail.head {a : α} {vs : List α} (h : Trail next a vs) : ∃ vs', vs = a :: vs' := by
  cases h with
  | last _ => exact ⟨[], rfl⟩
  | hop _ _ => exact ⟨_, rfl⟩

theorem Trail.tail {a b : α} {vs : List α} (h : Trail next a vs) (hb : next a = some b) :
    ∃ vs', vs = a :: vs' ∧ Trail next b vs' := by
  cases h with
  | last hn =>
      rw [hb] at hn
      cases hn
  | hop hn rest =>
      rw [hb, Option.some.injEq] at hn
      subst hn
      exact ⟨_, rfl, rest⟩

variable {P : α → Prop}

/-- What every step keeps holds of every vertex of the trail. -/
theorem Trail.all (hstep : ∀ a b, P a → next a = some b → P b) {a : α} {vs : List α}
    (h : Trail next a vs) (ha : P a) : ∀ v ∈ vs, P v := by
  induction h with
  | last _ =>
      intro v hv
      rw [List.mem_singleton.mp hv]
      exact ha
  | @hop a b vs h _ ih =>
      intro v hv
      rcases List.mem_cons.mp hv with rfl | hv
      · exact ha
      · exact ih (hstep _ _ ha h) v hv

variable [Preorder β] {μ : α → β}

/-- A trail on which every step lowers `μ` lies below its first vertex. -/
theorem Trail.le (hstep : ∀ a b, P a → next a = some b → P b)
    (hdown : ∀ a b, P a → next a = some b → μ b < μ a) {a : α} {vs : List α} (h : Trail next a vs)
    (ha : P a) : ∀ v ∈ vs, μ v ≤ μ a := by
  induction h with
  | last _ =>
      intro v hv
      rw [List.mem_singleton.mp hv]
  | @hop a b vs h _ ih =>
      intro v hv
      rcases List.mem_cons.mp hv with rfl | hv
      · exact le_refl _
      · exact (ih (hstep _ _ ha h) v hv).trans (hdown _ _ ha h).le

/-- So it visits no vertex twice. -/
theorem Trail.nodup (hstep : ∀ a b, P a → next a = some b → P b)
    (hdown : ∀ a b, P a → next a = some b → μ b < μ a) {a : α} {vs : List α} (h : Trail next a vs)
    (ha : P a) : vs.Nodup := by
  induction h with
  | last _ => simp
  | @hop a b vs h rest ih =>
      have hb := hstep _ _ ha h
      refine List.nodup_cons.mpr ⟨fun hmem => ?_, ih hb⟩
      exact absurd (rest.le hstep hdown hb a hmem) (hdown _ _ ha h).not_ge

/-- **A pointer that lowers a well-founded measure can be followed to its end.** -/
theorem exists_trail [WellFoundedLT β] (hstep : ∀ a b, P a → next a = some b → P b)
    (hdown : ∀ a b, P a → next a = some b → μ b < μ a) (a : α) (ha : P a) : ∃ vs, Trail next a vs := by
  induction a using (InvImage.wf μ wellFounded_lt).induction with
  | _ a ih =>
      cases hn : next a with
      | none => exact ⟨[a], .last hn⟩
      | some b =>
          obtain ⟨vs, hvs⟩ := ih b (hdown a b ha hn) (hstep a b ha hn)
          exact ⟨a :: vs, .hop hn hvs⟩

/-- Distinct numbers below `n` are at most `n`. -/
theorem length_le_of_nodup {vs : List Nat} {n : Nat} (hn : vs.Nodup) (h : ∀ v ∈ vs, v < n) :
    vs.length ≤ n := by
  have hsub : vs ⊆ List.range n := fun v hv => List.mem_range.mpr (h v hv)
  simpa using (List.subperm_of_subset hn hsub).length_le

end Following
