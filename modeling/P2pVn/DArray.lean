/-!
# `DArray` — the growable array (`darray.h`)

`items` are the elements below `ct`; what lies between `ct` and `mem` is never read. Whether an allocation
succeeds is decided by a script, one entry for each `malloc` or `realloc` in the order they are made; when
the script is exhausted every allocation succeeds, so the empty script is the run in which none fails.
-/

namespace P2pVn

/-- The outcomes of the allocations to come; beyond its end they all succeed. -/
abbrev AllocScript := List Bool

/-- Make one allocation: whether it succeeded, and the rest of the script. -/
def takeAlloc : AllocScript → Bool × AllocScript
  | [] => (true, [])
  | b :: bs => (b, bs)

/-- All of these allocations succeed. -/
def Granted (al : AllocScript) : Prop := ∀ b ∈ al, b = true

theorem Granted.suffix {al al' : AllocScript} (h : Granted al) (hs : al' <:+ al) : Granted al' :=
  fun b hb => h b (hs.subset hb)

theorem takeAlloc_snd (al : AllocScript) : (takeAlloc al).2 = al.drop 1 := by
  cases al <;> rfl

theorem takeAlloc_suffix (al : AllocScript) : (takeAlloc al).2 <:+ al := by
  rw [takeAlloc_snd]
  exact List.drop_suffix 1 al

theorem suffix_of_takeAlloc {al al' : AllocScript} {ok : Bool} (h : takeAlloc al = (ok, al')) : al' <:+ al := by
  have hs := takeAlloc_suffix al
  rwa [h] at hs

/-- The first of some allocations that succeed. -/
theorem takeAlloc_granted {al : AllocScript} {n : Nat} (h : ∀ b ∈ al.take (n + 1), b = true) :
    ∃ al', takeAlloc al = (true, al') ∧ ∀ b ∈ al'.take n, b = true := by
  cases al with
  | nil => exact ⟨[], rfl, by simp⟩
  | cons b bs =>
      rw [List.take_succ_cons] at h
      obtain rfl : b = true := h b (by simp)
      exact ⟨bs, rfl, fun b hb => h b (List.mem_cons_of_mem _ hb)⟩

/-- `da_t(name)`. -/
structure Da (α : Type) where
  items : List α
  mem : Nat
  deriving DecidableEq, Repr

namespace Da

variable {α : Type}

def ct (d : Da α) : Nat := d.items.length

/-- `DA_INIT`: whether it failed, and the array. -/
def init (initSz : Nat) (al : AllocScript) : Bool × Da α × AllocScript :=
  let (ok, al) := takeAlloc al
  (!ok, ⟨[], initSz⟩, al)

/-- `DA_ADD_TO_END` (with `DA_CHECK_AND_REALLOC`): whether it failed, and the array. -/
def addToEnd (d : Da α) (item : α) (al : AllocScript) : Bool × Da α × AllocScript :=
  if d.ct + 1 > d.mem then
    let (ok, al) := takeAlloc al
    if ok then (false, ⟨d.items ++ [item], 2 * d.mem + 8⟩, al) else (true, d, al)
  else (false, ⟨d.items ++ [item], d.mem⟩, al)

/-- `DA_REMOVE` of the element at position `i`. -/
def remove (d : Da α) (i : Nat) : Da α := ⟨d.items.eraseIdx i, d.mem⟩

/-- `ct = 0`, which keeps the memory. -/
def clear (d : Da α) : Da α := ⟨[], d.mem⟩

/-- `qsort` and other rearrangements in place. -/
def withItems (d : Da α) (items : List α) : Da α := ⟨items, d.mem⟩

@[simp] theorem items_remove (d : Da α) (i : Nat) : (d.remove i).items = d.items.eraseIdx i := rfl
@[simp] theorem items_clear (d : Da α) : d.clear.items = [] := rfl
@[simp] theorem items_withItems (d : Da α) (l : List α) : (d.withItems l).items = l := rfl

/-- An append either fails and changes nothing, or adds its element at the end. -/
theorem addToEnd_cases (d : Da α) (item : α) (al : AllocScript) :
    ∃ al', (∃ d', d.addToEnd item al = (false, d', al') ∧ d'.items = d.items ++ [item]) ∨
      d.addToEnd item al = (true, d, al') := by
  unfold addToEnd
  split
  · cases al with
    | nil => exact ⟨[], Or.inl ⟨_, rfl, rfl⟩⟩
    | cons b bs => cases b with
      | true => exact ⟨bs, Or.inl ⟨_, rfl, rfl⟩⟩
      | false => exact ⟨bs, Or.inr rfl⟩
  · exact ⟨al, Or.inl ⟨_, rfl, rfl⟩⟩

/-- An array that has to grow does not where the allocation fails. -/
theorem addToEnd_denied {d : Da α} (h : d.ct + 1 > d.mem) (item : α) (al : AllocScript) :
    d.addToEnd item (false :: al) = (true, d, al) := by
  unfold addToEnd
  rw [if_pos h]
  rfl

theorem addToEnd_suffix (d : Da α) (item : α) (al : AllocScript) : (d.addToEnd item al).2.2 <:+ al := by
  have hs := takeAlloc_suffix al
  unfold addToEnd
  split
  · obtain ⟨⟨ok, al'⟩, h⟩ : ∃ x, takeAlloc al = x := ⟨_, rfl⟩
    rw [h] at hs
    simp only [h]
    cases ok <;> exact hs
  · exact List.suffix_rfl

/-- An append for which the next allocation is granted succeeds. -/
theorem addToEnd_granted (d : Da α) (item : α) {al : AllocScript} {n : Nat}
    (h : ∀ b ∈ al.take (n + 1), b = true) :
    ∃ d' al', d.addToEnd item al = (false, d', al') ∧ d'.items = d.items ++ [item] ∧
      ∀ b ∈ al'.take n, b = true := by
  unfold addToEnd
  split
  · obtain ⟨al', hal, h'⟩ := takeAlloc_granted h
    simp only [hal, if_true]
    exact ⟨_, _, rfl, rfl, h'⟩
  · exact ⟨_, _, rfl, rfl, fun b hb => h b (List.take_subset_take_left al (Nat.le_succ n) hb)⟩

/-- Without allocation failures an append succeeds. -/
theorem addToEnd_nil (d : Da α) (item : α) :
    ∃ d', d.addToEnd item [] = (false, d', []) ∧ d'.items = d.items ++ [item] := by
  unfold addToEnd
  split
  · exact ⟨_, rfl, rfl⟩
  · exact ⟨_, rfl, rfl⟩

end Da

end P2pVn
