/-!
# `Lib.CellHeap` — a heap of cells with identities

A store in which every allocation gets an address that was never used before. A freed address stays dead
for ever, so a stale pointer is a pointer to a dead cell and never to somebody else's record.

Each operation has its `get` lemma, and `get` is all that the rest of a development needs to look at.
-/

/-- A store of cells: address `i` is live iff `cells[i]? = some (some _)`. -/
structure CellHeap (α : Type) where
  cells : List (Option α)
  deriving DecidableEq, Repr

namespace CellHeap

variable {α : Type}

/-- The store in which nothing was allocated yet. -/
def empty : CellHeap α := ⟨[]⟩

/-- The content of a live cell. -/
def get (h : CellHeap α) (i : Nat) : Option α := h.cells[i]?.join

/-- The address the next allocation returns. -/
def fresh (h : CellHeap α) : Nat := h.cells.length

def alloc (h : CellHeap α) (a : α) : CellHeap α := ⟨h.cells ++ [some a]⟩

/-- Overwrite cell `i`. -/
def set (h : CellHeap α) (i : Nat) (a : α) : CellHeap α := ⟨h.cells.set i (some a)⟩

def free (h : CellHeap α) (i : Nat) : CellHeap α := ⟨h.cells.set i none⟩

/-- A live address lies below the next fresh one. -/
theorem lt_fresh {h : CellHeap α} {i : Nat} {a : α} (hg : h.get i = some a) : i < h.fresh := by
  unfold get at hg
  by_cases hi : i < h.cells.length
  · exact hi
  · rw [List.getElem?_eq_none (Nat.le_of_not_lt hi)] at hg
    simp at hg

@[simp] theorem get_fresh (h : CellHeap α) : h.get h.fresh = none := by
  simp [get, fresh]

@[simp] theorem fresh_set (h : CellHeap α) (i : Nat) (a : α) : (h.set i a).fresh = h.fresh := by
  simp [set, fresh]

@[simp] theorem fresh_free (h : CellHeap α) (i : Nat) : (h.free i).fresh = h.fresh := by
  simp [free, fresh]

@[simp] theorem fresh_alloc (h : CellHeap α) (a : α) : (h.alloc a).fresh = h.fresh + 1 := by
  simp [alloc, fresh]

theorem get_alloc (h : CellHeap α) (a : α) (j : Nat) :
    (h.alloc a).get j = if j = h.fresh then some a else h.get j := by
  unfold alloc get fresh
  by_cases hj : j = h.cells.length
  · subst hj; simp
  · rw [if_neg hj]
    rcases Nat.lt_or_gt_of_ne hj with hlt | hgt
    · rw [List.getElem?_append_left hlt]
    · rw [List.getElem?_append_right (Nat.le_of_lt hgt), List.getElem?_eq_none (by simp; omega),
        List.getElem?_eq_none (Nat.le_of_lt hgt)]

theorem get_set {h : CellHeap α} {i : Nat} {b : α} (hg : h.get i = some b) (a : α) (j : Nat) :
    (h.set i a).get j = if j = i then some a else h.get j := by
  have hi : i < h.cells.length := lt_fresh hg
  unfold set get
  rw [List.getElem?_set]
  by_cases hj : i = j
  · subst hj; simp [hi]
  · simp [hj, Ne.symm hj]

theorem get_free (h : CellHeap α) (i j : Nat) :
    (h.free i).get j = if j = i then none else h.get j := by
  unfold free get
  rw [List.getElem?_set]
  by_cases hj : i = j
  · subst hj
    rw [if_pos rfl, if_pos rfl]
    by_cases hi : i < h.cells.length
    · simp [hi]
    · simp [hi]
  · simp [hj, Ne.symm hj]

end CellHeap
