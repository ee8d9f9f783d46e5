import Mathlib.Tactic.Common

/-!
# `Lib.Ladder` — threads that acquire resources and release them on clean-up ladders

A C function that sets something up calls one function after the other; where a call fails it jumps to a
ladder of clean-up calls that undo what was done so far. A `Script` is such a function: its calls, each with
the ladder its failure jumps to. A thread runs a script, then a main loop, and in the end a ladder.

A resource is acquired by a call `c` and released by a rung `u`. `Holds c u t` says that a thread at `t` may
hold the resource, `Tidy c u` that a script acquires it once and releases it on every later ladder. Both are
decided by looking at the script, so a script is checked by `decide`.

- `Holds.acquired`: the call that acquires.
- `Holds.kept`, `Holds.failed`: any other call, on success and on failure; `Holds.called`: all calls.
- `Holds.undone`: a rung that releases something else.
- `Past c t`: a thread at `t` has called `c`, and has not come to a ladder yet; `Past.called`.
-/

namespace Ladder

variable {C U : Type}

/-- Calls with the ladders that their failures jump to. -/
abbrev Script (C U : Type) := List (C × List U)

def calls (todo : Script C U) : List C := todo.map Prod.fst

/-- The calls of a function that is called by another one: its ladders lead on to one of the caller's. -/
def fallThrough (more : List U) (todo : Script C U) : Script C U := todo.map fun x => (x.1, x.2 ++ more)

/-- Where a thread is: at the first of these calls, in its main loop, at the first of these rungs, or past the
    end of a ladder. -/
inductive Thread (C U : Type) where
  | handshake (todo : Script C U)
  | loop
  | cleanup (todo : List U)
  | freed
  deriving DecidableEq, Repr

/-- After a call that succeeded. -/
def Thread.goOn : Script C U → Thread C U
  | [] => .loop
  | todo => .handshake todo

variable {c c' a : C} {u u' : U} {ladder : List U} {todo : Script C U}

/-- A thread here may hold what `c` acquires and `u` releases. -/
def Holds (c : C) (u : U) : Thread C U → Prop
  | .handshake todo => c ∉ calls todo
  | .loop => True
  | .cleanup todo => u ∈ todo
  | .freed => False

/-- A thread here is past its call of `c`, which succeeded, and has not come to a ladder. -/
def Past (c : C) : Thread C U → Prop
  | .handshake todo => c ∉ calls todo
  | .loop => True
  | _ => False

/-- The script calls `c` once at most, and once it has, a call that fails gets to `u`. -/
def Tidy (c : C) (u : U) : Script C U → Prop
  | [] => True
  | (c', ladder) :: todo =>
    (c' = c → c ∉ calls todo) ∧ (c' ≠ c → c ∉ calls todo → u ∈ ladder) ∧ Tidy c u todo

/-- Every call of `a` comes before a call of `c`. -/
def Precedes (a c : C) : Script C U → Prop
  | [] => True
  | (c', _) :: todo => (c' = a → c ∈ calls todo) ∧ Precedes a c todo

section

variable [DecidableEq C] [DecidableEq U]

instance decidableTidy : ∀ todo : Script C U, Decidable (Tidy c u todo)
  | [] => isTrue trivial
  | (c', ladder) :: todo =>
    have := decidableTidy todo
    inferInstanceAs (Decidable ((c' = c → c ∉ calls todo) ∧ (c' ≠ c → c ∉ calls todo → u ∈ ladder) ∧
      Tidy c u todo))

instance decidablePrecedes : ∀ todo : Script C U, Decidable (Precedes a c todo)
  | [] => isTrue trivial
  | (c', _) :: todo =>
    have := decidablePrecedes todo
    inferInstanceAs (Decidable ((c' = a → c ∈ calls todo) ∧ Precedes a c todo))

instance decidablePast : ∀ t : Thread C U, Decidable (Past c t)
  | .handshake todo => inferInstanceAs (Decidable (c ∉ calls todo))
  | .loop => isTrue trivial
  | .cleanup _ => isFalse not_false
  | .freed => isFalse not_false

end

theorem holds_goOn : Holds c u (Thread.goOn todo) ↔ c ∉ calls todo := by
  cases todo with
  | nil => simp [Thread.goOn, Holds, calls]
  | cons x todo => exact Iff.rfl

/-- After it, it may. -/
theorem Holds.acquired (h : Tidy c u ((c, ladder) :: todo)) : Holds c u (Thread.goOn todo) :=
  holds_goOn.mpr (h.1 rfl)

/-- Another call that succeeds leaves that as it is. -/
theorem Holds.kept (h : Holds c u (.handshake ((c', ladder) :: todo))) : Holds c u (Thread.goOn todo) := by
  apply holds_goOn.mpr
  intro hc
  exact h (List.mem_cons_of_mem _ hc)

/-- **Another call that fails gets to the rung** that releases what the thread may hold. -/
theorem Holds.failed (h : Holds c u (.handshake ((c', ladder) :: todo)))
    (ht : Tidy c u ((c', ladder) :: todo)) : Holds c u (.cleanup ladder) := by
  simp only [Holds, calls, List.map_cons, List.mem_cons, not_or] at h
  exact ht.2.1 (Ne.symm h.1) h.2

/-- **After a call** a thread may hold what it may have held before, and what the call acquired. -/
theorem Holds.called (ht : Tidy c u ((c', ladder) :: todo)) {ok : Bool}
    (h : Holds c u (.handshake ((c', ladder) :: todo)) ∨ (c' = c ∧ ok = true)) :
    Holds c u (if ok = true then Thread.goOn todo else .cleanup ladder) := by
  rcases h with h | ⟨rfl, rfl⟩
  · cases ok with
    | true => exact h.kept
    | false => exact h.failed ht
  · exact Holds.acquired ht

/-- A rung that releases something else leaves the rung to come. -/
theorem Holds.undone (h : Holds c u (.cleanup (u' :: ladder))) (hne : u' ≠ u) : Holds c u (.cleanup ladder) := by
  rcases List.mem_cons.mp h with rfl | h
  · exact absurd rfl hne
  · exact h

/-- **After a call** a thread is past the calls that it was past, and past this one. -/
theorem Past.called {ok : Bool} (h : Past c (if ok = true then Thread.goOn todo else .cleanup ladder)) (c' : C) :
    Past c (.handshake ((c', ladder) :: todo)) ∨ (c' = c ∧ ok = true) := by
  cases ok with
  | false => cases h
  | true =>
      have hc : c ∉ calls todo := by
        cases todo with
        | nil => exact List.not_mem_nil
        | cons x todo => exact h
      by_cases he : c' = c
      · exact Or.inr ⟨he, rfl⟩
      · left
        intro hmem
        rcases List.mem_cons.mp hmem with heq | hmem
        · exact he heq.symm
        · exact hc hmem

theorem Precedes.not_held (h : Precedes a c ((a, ladder) :: todo)) :
    ¬ Holds c u (.handshake ((a, ladder) :: todo)) := by
  intro hc
  exact hc (List.mem_cons_of_mem _ (h.1 rfl))

end Ladder
