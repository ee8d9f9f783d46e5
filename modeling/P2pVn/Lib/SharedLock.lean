import Mathlib.Data.List.Nodup
import Mathlib.Logic.Function.Basic

/-!
# `Lib.SharedLock` — a lock that several threads may hold at once, and what they did with it

The lock itself only counts. Whether each thread takes and gives back in turn is read off its own calls:
`held` says whether they are paired and, if so, whether the last one still holds the lock.

- **`held`.** Once the calls of a thread are not paired they never are again (`held_none`).
- **`Balanced`.** Who holds the lock is a list without repetitions, of the length the lock counts; acquiring and
  releasing in turn keep it (`Balanced.acquire`, `Balanced.release`), and a lock that counts zero is held by
  nobody (`Balanced.free`).
-/

namespace Locking

/-- A call on the lock. -/
inductive LockCall where
  | acquire
  | release
  deriving DecidableEq, Repr

/-- Whether a thread holds the lock after these calls, the latest first; `none` where they are not paired. -/
def held : List LockCall → Option Bool
  | [] => some false
  | .acquire :: l => if held l = some false then some true else none
  | .release :: l => if held l = some true then some false else none

@[simp] theorem held_acquire {l : List LockCall} (h : held l = some false) :
    held (.acquire :: l) = some true := by simp [held, h]

@[simp] theorem held_release {l : List LockCall} (h : held l = some true) :
    held (.release :: l) = some false := by simp [held, h]

/-- Nothing repairs calls that are not paired. -/
theorem held_none {l : List LockCall} (h : held l = none) (c : LockCall) : held (c :: l) = none := by
  cases c <;> simp [held, h]

/-- A release without the lock breaks the pairing. -/
theorem held_release_none {l : List LockCall} (h : held l = some false) : held (.release :: l) = none := by
  simp [held, h]

/-! ## The lock -/

variable {τ : Type} [DecidableEq τ]

/-- The lock: how often it is held, and each thread's calls, the latest first. -/
structure SharedLock (τ : Type) where
  holds : Int
  calls : τ → List LockCall

namespace SharedLock

/-- A lock nobody has used. -/
def new : SharedLock τ := ⟨0, fun _ => []⟩

def acquire (l : SharedLock τ) (t : τ) : SharedLock τ :=
  ⟨l.holds + 1, Function.update l.calls t (.acquire :: l.calls t)⟩

def release (l : SharedLock τ) (t : τ) : SharedLock τ :=
  ⟨l.holds - 1, Function.update l.calls t (.release :: l.calls t)⟩

variable {l : SharedLock τ} {t u : τ} {holders : List τ}

@[simp] theorem acquire_self : (l.acquire t).calls t = .acquire :: l.calls t := by simp [acquire]

@[simp] theorem release_self : (l.release t).calls t = .release :: l.calls t := by simp [release]

@[simp] theorem acquire_other (h : u ≠ t) : (l.acquire t).calls u = l.calls u := by simp [acquire, h]

@[simp] theorem release_other (h : u ≠ t) : (l.release t).calls u = l.calls u := by simp [release, h]

/-- Everybody's calls are paired, and `holders` are those who hold the lock. -/
structure Balanced (l : SharedLock τ) (holders : List τ) : Prop where
  nodup : holders.Nodup
  holds : l.holds = holders.length
  held : ∀ t, held (l.calls t) = some (decide (t ∈ holders))

/-- A new lock is held by nobody. -/
theorem balanced_new : Balanced (new : SharedLock τ) [] where
  nodup := List.nodup_nil
  holds := rfl
  held t := by simp [new, Locking.held]

/-- Who acquires it is one holder more. -/
theorem Balanced.acquire (h : Balanced l holders) (ht : t ∉ holders) : Balanced (l.acquire t) (t :: holders) where
  nodup := List.nodup_cons.mpr ⟨ht, h.nodup⟩
  holds := by
    show l.holds + 1 = ((t :: holders).length : Int)
    simp [h.holds]
  held u := by
    by_cases hu : u = t
    · subst hu
      have hfree : Locking.held (l.calls u) = some false := by rw [h.held, decide_eq_false ht]
      simp [hfree]
    · simp [hu, h.held]

/-- A holder that releases it is one less. -/
theorem Balanced.release (h : Balanced l holders) (ht : t ∈ holders) : Balanced (l.release t) (holders.erase t) where
  nodup := h.nodup.erase t
  holds := by
    have hpos : 0 < holders.length := List.length_pos_of_mem ht
    show l.holds - 1 = ((holders.erase t).length : Int)
    rw [h.holds, List.length_erase_of_mem ht]
    omega
  held u := by
    by_cases hu : u = t
    · subst hu
      have hheld : Locking.held (l.calls u) = some true := by rw [h.held, decide_eq_true ht]
      simp [hheld, h.nodup.mem_erase_iff]
    · simp [hu, h.held, h.nodup.mem_erase_iff]

/-- **A lock that counts zero is held by nobody.** -/
theorem Balanced.free (h : Balanced l holders) (h0 : l.holds = 0) (t : τ) : Locking.held (l.calls t) = some false := by
  have hnil : holders = [] := List.eq_nil_of_length_eq_zero (by have := h.holds; omega)
  rw [h.held, hnil]
  simp

end SharedLock

end Locking
