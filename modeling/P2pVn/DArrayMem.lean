import P2pVn.DArray
import P2pVn.Lib.Fault
import Mathlib.Algebra.Ring.Nat
import Mathlib.Data.List.InsertIdx
import Mathlib.Tactic.Common

/-!
# `DArrayMem` — the growable array in its allocation (`darray.h`)

The macros as the machine runs them: `ct`, `mem` and every size in bytes are of type `size_t`, the elements
lie in a block of the allocator, and a store or a `memmove` that leaves the block is a fault. `sz` is the size
of an element.

`Refines c d` relates such an array to the `Da` that the rest of the model uses. Every macro keeps it
(`Refines.step`), so the array behaves as a list through any sequence of operations (`DaRun.refines`).
-/

namespace P2pVn
open CUb

/-! ## Blocks of the allocator -/

/-- A block that holds elements; one that was never written is `none`. -/
abbrev Block (α : Type) := List (Option α)

variable {α : Type}

namespace Block

/-- `malloc(bytes)`, for elements of `sz` bytes. -/
def malloc (sz bytes : UInt64) : Block α := List.replicate (bytes.toNat / sz.toNat) none

/-- `realloc(b, bytes)`: what fits of the old block comes first. -/
def realloc (sz bytes : UInt64) (b : Block α) : Block α :=
  b.take (bytes.toNat / sz.toNat) ++ List.replicate (bytes.toNat / sz.toNat - b.length) none

/-- `b[i] = x`. -/
def store (b : Block α) (i : Nat) (x : α) : Ub (Block α) :=
  if i < b.length then .ok (b.set i (some x)) else .error .outOfBounds

/-- `memmove` of `bytes` bytes, from element `src` to element `dst`. -/
def memmove (sz : UInt64) (b : Block α) (dst src : Nat) (bytes : UInt64) : Ub (Block α) :=
  let n := bytes.toNat / sz.toNat
  if dst + n ≤ b.length ∧ src + n ≤ b.length then
    .ok (b.take dst ++ (b.drop src).take n ++ b.drop (dst + n))
  else .error .outOfBounds

end Block

/-! ## The macros -/

/-- `da_t(name)`, with the block that `items` points to. -/
structure DaMem (α : Type) where
  ct : UInt64
  mem : UInt64
  items : Block α

namespace DaMem

/-- `DA_INIT`: whether it failed, and the array. -/
def init (sz initSz : UInt64) (al : AllocScript) : Bool × DaMem α × AllocScript :=
  let (ok, al) := takeAlloc al
  if ok then (false, ⟨0, initSz, .malloc sz (sz * initSz)⟩, al) else (true, ⟨0, initSz, []⟩, al)

/-- `DA_CHECK_AND_REALLOC`. -/
def checkAndRealloc (sz : UInt64) (d : DaMem α) (newElemCt : UInt64) (al : AllocScript) :
    Bool × DaMem α × AllocScript :=
  if newElemCt > d.mem then
    let attemptSz := 2 * d.mem + 8
    let (ok, al) := takeAlloc al
    if ok then (false, { d with items := d.items.realloc sz (sz * attemptSz), mem := attemptSz }, al)
    else (true, d, al)
  else (false, d, al)

/-- `DA_ADD_TO_END`. -/
def addToEnd (sz : UInt64) (d : DaMem α) (item : α) (al : AllocScript) :
    Ub (Bool × DaMem α × AllocScript) :=
  let (fail, d, al) := d.checkAndRealloc sz (d.ct + 1) al
  if fail then pure (true, d, al)
  else do
    let items ← d.items.store d.ct.toNat item
    pure (false, { d with items := items, ct := d.ct + 1 }, al)

/-- `DA_REMOVE` of the element at position `i`: the count goes down first. -/
def remove (sz : UInt64) (d : DaMem α) (i : Nat) : Ub (DaMem α) := do
  let ct := d.ct - 1
  let ctAhead := UInt64.ofNat i
  let ctToEnd := ct - ctAhead
  let items ← d.items.memmove sz i (i + 1) (ctToEnd * sz)
  pure { d with ct := ct, items := items }

/-- `ct = 0`. -/
def clear (d : DaMem α) : DaMem α := { d with ct := 0 }

end DaMem

/-! ## Operations -/

inductive DaOp (α : Type) where
  | addToEnd (item : α)
  | remove (i : Nat)
  | clear

namespace DaOp

/-- The operation on the array in memory: whether it reports failure, and the array. -/
def onMem (sz : UInt64) (c : DaMem α) (al : AllocScript) : DaOp α → Ub (Bool × DaMem α × AllocScript)
  | .addToEnd item => c.addToEnd sz item al
  | .remove i => do
    let c ← c.remove sz i
    pure (false, c, al)
  | .clear => pure (false, c.clear, al)

/-- The operation on the array of the rest of the model. -/
def onDa (d : Da α) (al : AllocScript) : DaOp α → Bool × Da α × AllocScript
  | .addToEnd item => d.addToEnd item al
  | .remove i => (false, d.remove i, al)
  | .clear => (false, d.clear, al)

/-- What the operation, given whether it reported failure, is to do to the list. -/
def onList (fail : Bool) (l : List α) : DaOp α → List α
  | .addToEnd item => if fail then l else l ++ [item]
  | .remove i => l.eraseIdx i
  | .clear => []

/-- What is asked of an operation: `2 * mem + 8` elements do not overflow `size_t` where it may grow, and
    the position it removes holds an element. -/
def Valid (sz : UInt64) (c : DaMem α) : DaOp α → Prop
  | .addToEnd _ => sz.toNat * (2 * c.mem.toNat + 8) < 2 ^ 64
  | .remove i => i < c.ct.toNat
  | .clear => True

instance (sz : UInt64) (c : DaMem α) : (op : DaOp α) → Decidable (op.Valid sz c)
  | .addToEnd _ => inferInstanceAs (Decidable (sz.toNat * (2 * c.mem.toNat + 8) < 2 ^ 64))
  | .remove i => inferInstanceAs (Decidable (i < c.ct.toNat))
  | .clear => inferInstanceAs (Decidable True)

end DaOp

/-! ## The array in memory and the array of the model -/

/-- The array `c` in memory, with elements of `sz` bytes, is the array `d`. -/
structure Refines (sz : UInt64) (c : DaMem α) (d : Da α) : Prop where
  ct : c.ct.toNat = d.items.length
  mem : c.mem.toNat = d.mem
  ctLe : d.items.length ≤ d.mem
  alloc : d.mem ≤ c.items.length
  bytes : sz.toNat * d.mem < 2 ^ 64
  contents : c.items.take d.items.length = d.items.map some

theorem Block.length_malloc {sz n : UInt64} (hsz : 0 < sz.toNat) (h : sz.toNat * n.toNat < 2 ^ 64) :
    (Block.malloc sz (sz * n) : Block α).length = n.toNat := by
  unfold Block.malloc
  rw [List.length_replicate, UInt64.toNat_mul, Nat.mod_eq_of_lt h, Nat.mul_div_cancel_left _ hsz]

/-- A reallocated block has the size asked for, and keeps what fits. -/
theorem Block.realloc_spec {sz n : UInt64} (hsz : 0 < sz.toNat) (h : sz.toNat * n.toNat < 2 ^ 64)
    (b : Block α) {k : Nat} (hk : k ≤ b.length) (hkn : k ≤ n.toNat) :
    (b.realloc sz (sz * n)).length = n.toNat ∧ (b.realloc sz (sz * n)).take k = b.take k := by
  have hn : (sz * n).toNat / sz.toNat = n.toNat := by
    rw [UInt64.toNat_mul, Nat.mod_eq_of_lt h, Nat.mul_div_cancel_left _ hsz]
  unfold Block.realloc
  rw [hn]
  constructor
  · simp only [List.length_append, List.length_take, List.length_replicate]
    omega
  · rw [List.take_append_of_le_length (by simp only [List.length_take]; omega), List.take_take,
      Nat.min_eq_left hkn]

theorem Block.store_spec {b : Block α} {i : Nat} (hi : i < b.length) (x : α) :
    ∃ b', b.store i x = .ok b' ∧ b'.length = b.length ∧ b'.take (i + 1) = b.take i ++ [some x] := by
  refine ⟨b.set i (some x), if_pos hi, List.length_set, ?_⟩
  rw [List.take_add_one, List.take_set_of_le (Nat.le_refl i), List.getElem?_set_self hi]
  rfl

/-- Moving what follows `i` one down takes the element at `i` out of the first `k`. -/
theorem Block.memmove_spec {sz bytes : UInt64} (hsz : 0 < sz.toNat) {b : Block α} {i k : Nat} (hi : i < k)
    (hk : k ≤ b.length) (hbytes : bytes.toNat = (k - 1 - i) * sz.toNat) :
    ∃ b', b.memmove sz i (i + 1) bytes = .ok b' ∧ b'.length = b.length ∧
      b'.take (k - 1) = (b.take k).eraseIdx i := by
  have hn : bytes.toNat / sz.toNat = k - 1 - i := by rw [hbytes, Nat.mul_div_cancel _ hsz]
  unfold Block.memmove
  simp only [hn]
  refine ⟨_, if_pos (by omega), ?_, ?_⟩
  · simp only [List.length_append, List.length_take, List.length_drop]
    omega
  · have hlen : (b.take i ++ (b.drop (i + 1)).take (k - 1 - i)).length = k - 1 := by
      simp only [List.length_append, List.length_take, List.length_drop]
      omega
    rw [List.take_left' hlen, List.eraseIdx_eq_take_drop_succ, List.take_take, Nat.min_eq_left (by omega),
      List.drop_take]
    congr 2
    omega

section

variable {sz : UInt64} {c : DaMem α} {d : Da α}

theorem refines_init (hsz : 0 < sz.toNat) {initSz : UInt64} (h : sz.toNat * initSz.toNat < 2 ^ 64)
    {al al' : AllocScript} (hi : DaMem.init sz initSz al = (false, c, al')) :
    Refines sz c ⟨[], initSz.toNat⟩ := by
  unfold DaMem.init at hi
  simp only at hi
  split at hi
  · cases hi
    exact
      { ct := rfl
        mem := rfl
        ctLe := Nat.zero_le _
        alloc := Nat.le_of_eq (Block.length_malloc hsz h).symm
        bytes := h
        contents := rfl }
  · cases hi

/-- `DA_CHECK_AND_REALLOC` for one more element: it fails exactly where there is no room and no memory, and
    otherwise makes room. -/
theorem Refines.checkAndRealloc (hsz : 0 < sz.toNat) (h : Refines sz c d)
    (hv : sz.toNat * (2 * c.mem.toNat + 8) < 2 ^ 64) (al : AllocScript) :
    (d.mem < d.ct + 1 ∧ (takeAlloc al).1 = false ∧
        c.checkAndRealloc sz (c.ct + 1) al = (true, c, (takeAlloc al).2)) ∨
      ∃ c' al', c.checkAndRealloc sz (c.ct + 1) al = (false, c', al') ∧
        ((d.ct + 1 ≤ d.mem ∧ c' = c ∧ al' = al) ∨
          (d.mem < d.ct + 1 ∧ (takeAlloc al).1 = true ∧ al' = (takeAlloc al).2 ∧
            Refines sz c' ⟨d.items, 2 * d.mem + 8⟩)) := by
  have hmem := h.mem
  have hct := h.ct
  have hle := h.ctLe
  -- the sizes do not wrap around, since an element has at least one byte
  have hbound : 2 * d.mem + 8 < 2 ^ 64 := by
    rw [← hmem]
    exact Nat.lt_of_le_of_lt (Nat.le_mul_of_pos_left _ hsz) hv
  have hsucc : (c.ct + 1).toNat = d.items.length + 1 := by
    rw [UInt64.toNat_add, hct]
    simp only [UInt64.reduceToNat]
    omega
  have hattempt : (2 * c.mem + 8).toNat = 2 * d.mem + 8 := by
    rw [UInt64.toNat_add, UInt64.toNat_mul, hmem]
    simp only [UInt64.reduceToNat]
    omega
  have hgrow : c.ct + 1 > c.mem ↔ d.mem < d.items.length + 1 := by
    rw [gt_iff_lt, UInt64.lt_iff_toNat_lt, hsucc, hmem]
  unfold DaMem.checkAndRealloc Da.ct
  by_cases hfull : d.mem < d.items.length + 1
  · simp only [if_pos (hgrow.mpr hfull)]
    cases ha : (takeAlloc al).1 with
    | false => exact Or.inl ⟨hfull, rfl, rfl⟩
    | true =>
        refine Or.inr ⟨_, _, rfl, Or.inr ⟨hfull, rfl, rfl, ?_⟩⟩
        have halloc := h.alloc
        have hbytes : sz.toNat * (2 * c.mem + 8).toNat < 2 ^ 64 := by
          rw [hattempt, ← hmem]
          exact hv
        have hre := Block.realloc_spec hsz hbytes c.items (k := d.items.length) (by omega) (by omega)
        exact
          { ct := hct
            mem := hattempt
            ctLe := by show d.items.length ≤ 2 * d.mem + 8; omega
            alloc := Nat.le_of_eq (hre.1.trans hattempt).symm
            bytes := by rw [← hattempt]; exact hbytes
            contents := hre.2.trans h.contents }
  · simp only [if_neg (mt hgrow.mp hfull)]
    exact Or.inr ⟨c, al, rfl, Or.inl ⟨Nat.le_of_not_lt hfull, rfl, rfl⟩⟩

/-- Storing behind the last element appends, where there is room. -/
theorem Refines.store (h : Refines sz c d) (hroom : d.ct + 1 ≤ d.mem) (item : α) :
    ∃ items, c.items.store c.ct.toNat item = .ok items ∧
      Refines sz { c with items := items, ct := c.ct + 1 } ⟨d.items ++ [item], d.mem⟩ := by
  have hct := h.ct
  have halloc := h.alloc
  have hmem := h.mem
  unfold Da.ct at hroom
  obtain ⟨items, hst, hlen, htake⟩ := Block.store_spec (b := c.items) (i := c.ct.toNat) (by omega) item
  refine ⟨items, hst, ?_⟩
  have hlt := c.mem.toNat_lt
  exact
    { ct := by
        show (c.ct + 1).toNat = (d.items ++ [item]).length
        rw [UInt64.toNat_add, List.length_append, hct]
        simp only [UInt64.reduceToNat, List.length_singleton]
        omega
      mem := hmem
      ctLe := by rw [List.length_append]; exact hroom
      alloc := by rw [hlen]; exact halloc
      bytes := h.bytes
      contents := by
        rw [List.length_append, List.length_singleton, ← hct, htake, hct, h.contents, List.map_append]
        rfl }

/-- **`DA_ADD_TO_END`** does what the model's append does, and changes nothing where it fails. -/
theorem Refines.addToEnd (hsz : 0 < sz.toNat) (h : Refines sz c d)
    (hv : sz.toNat * (2 * c.mem.toNat + 8) < 2 ^ 64) (item : α) (al : AllocScript) :
    ∃ fail c' d' al', c.addToEnd sz item al = .ok (fail, c', al') ∧ d.addToEnd item al = (fail, d', al') ∧
      Refines sz c' d' ∧ (fail = true → c' = c ∧ d' = d) := by
  unfold DaMem.addToEnd Da.addToEnd
  rcases h.checkAndRealloc hsz hv al with ⟨hfull, ha, hre⟩ | ⟨c1, al1, hre, hroom⟩
  · refine ⟨true, c, d, (takeAlloc al).2, ?_, ?_, h, fun _ => ⟨rfl, rfl⟩⟩
    · simp only [hre, if_true, pure_eq_ok]
    · simp only [gt_iff_lt, if_pos hfull, ha, Bool.false_eq_true, if_false]
  · rcases hroom with ⟨hle, rfl, rfl⟩ | ⟨hfull, ha, rfl, h1⟩
    · obtain ⟨items, hst, h2⟩ := h.store hle item
      refine ⟨false, _, _, al1, ?_, ?_, h2, nofun⟩
      · simp only [hre, Bool.false_eq_true, if_false, hst, ok_bind, pure_eq_ok]
      · rw [if_neg (by omega)]
    · obtain ⟨items, hst, h2⟩ := h1.store (by have := h.ctLe; unfold Da.ct at *; simp only; omega) item
      refine ⟨false, _, _, (takeAlloc al).2, ?_, ?_, h2, nofun⟩
      · simp only [hre, Bool.false_eq_true, if_false, hst, ok_bind, pure_eq_ok]
      · simp only [gt_iff_lt, if_pos hfull, ha, if_true]

/-- **`DA_REMOVE`** at a valid position takes that element out. -/
theorem Refines.remove (hsz : 0 < sz.toNat) (h : Refines sz c d) {i : Nat} (hi : i < c.ct.toNat) :
    ∃ c', c.remove sz i = .ok c' ∧ Refines sz c' (d.remove i) := by
  have hct := h.ct
  have hle := h.ctLe
  have halloc := h.alloc
  have hlt := c.ct.toNat_lt
  -- `ct` is decremented before the elements to be moved are counted
  have hpred : (c.ct - 1).toNat = d.items.length - 1 := by
    rw [UInt64.toNat_sub_of_le _ _ (by rw [UInt64.le_iff_toNat_le]; simp only [UInt64.reduceToNat]; omega), hct]
    rfl
  have hpos : (UInt64.ofNat i).toNat = i := UInt64.toNat_ofNat_of_lt' (by simp only [UInt64.size]; omega)
  have hend : (c.ct - 1 - UInt64.ofNat i).toNat = d.items.length - 1 - i := by
    rw [UInt64.toNat_sub_of_le _ _ (by rw [UInt64.le_iff_toNat_le, hpred, hpos]; omega), hpred, hpos]
  have hbytes : ((c.ct - 1 - UInt64.ofNat i) * sz).toNat = (d.items.length - 1 - i) * sz.toNat := by
    rw [UInt64.toNat_mul, hend]
    refine Nat.mod_eq_of_lt (Nat.lt_of_le_of_lt ?_ h.bytes)
    rw [Nat.mul_comm]
    exact Nat.mul_le_mul_left _ (by omega)
  obtain ⟨items, hmv, hlen, htake⟩ := Block.memmove_spec (b := c.items) hsz (hct ▸ hi)
    (Nat.le_trans hle halloc) hbytes
  refine ⟨{ c with ct := c.ct - 1, items := items }, ?_, ?_⟩
  · simp only [DaMem.remove, hmv, ok_bind, pure_eq_ok]
  · have herase : (d.items.eraseIdx i).length = d.items.length - 1 :=
      List.length_eraseIdx_of_lt (hct ▸ hi)
    exact
      { ct := by rw [Da.items_remove, herase]; exact hpred
        mem := h.mem
        ctLe := by
          show (d.items.eraseIdx i).length ≤ d.mem
          omega
        alloc := by rw [hlen]; exact halloc
        bytes := h.bytes
        contents := by
          rw [Da.items_remove, herase, htake, h.contents, List.eraseIdx_map] }

theorem Refines.clear (h : Refines sz c d) : Refines sz c.clear d.clear :=
  { ct := rfl
    mem := h.mem
    ctLe := Nat.zero_le _
    alloc := h.alloc
    bytes := h.bytes
    contents := rfl }

/-- **Every operation** runs inside the allocation, and does to the array in memory what it does to the array
    of the model. -/
theorem Refines.step (hsz : 0 < sz.toNat) (h : Refines sz c d) {op : DaOp α} (hv : op.Valid sz c)
    (al : AllocScript) :
    ∃ fail c' d' al', op.onMem sz c al = .ok (fail, c', al') ∧ op.onDa d al = (fail, d', al') ∧
      Refines sz c' d' ∧ d'.items = op.onList fail d.items ∧ (fail = true → c' = c) := by
  cases op with
  | addToEnd item =>
      obtain ⟨fail, c', d', al', hc, hd, hr, hfail⟩ := h.addToEnd hsz hv item al
      refine ⟨fail, c', d', al', hc, hd, hr, ?_, fun hf => (hfail hf).1⟩
      obtain ⟨al1, ⟨d1, h1, hitems⟩ | h1⟩ := d.addToEnd_cases item al
      · rw [hd] at h1
        cases h1
        exact hitems
      · rw [hd] at h1
        cases h1
        rfl
  | remove i =>
      obtain ⟨c', hc, hr⟩ := h.remove hsz hv
      refine ⟨false, c', d.remove i, al, ?_, rfl, hr, rfl, nofun⟩
      show (c.remove sz i >>= fun c => pure (false, c, al)) = _
      rw [hc]
      rfl
  | clear => exact ⟨false, c.clear, d.clear, al, rfl, rfl, h.clear, rfl, nofun⟩

end

/-- An operation of the model fails exactly where an append has to grow the array and is denied the memory. -/
theorem DaOp.onDa_fails_iff (d : Da α) (al : AllocScript) (op : DaOp α) :
    (op.onDa d al).1 = true ↔ (∃ item, op = .addToEnd item) ∧ d.ct + 1 > d.mem ∧ (takeAlloc al).1 = false := by
  cases op with
  | addToEnd item =>
      simp only [DaOp.onDa, Da.addToEnd]
      by_cases hfull : d.ct + 1 > d.mem
      · cases ha : (takeAlloc al).1 <;> simp [hfull]
      · simp [hfull]
  | remove i => simp [DaOp.onDa]
  | clear => simp [DaOp.onDa]

/-! ## Runs -/

/-- What sequences of operations make of a new array of any capacity, with any outcome of every allocation,
    together with the list that the operations describe. -/
inductive DaRun (sz : UInt64) : DaMem α → List α → Prop
  | init {initSz al al' c} (hsz : 0 < sz.toNat) (hcap : sz.toNat * initSz.toNat < 2 ^ 64)
      (h : DaMem.init sz initSz al = (false, c, al')) : DaRun sz c []
  | step {c l op al fail c' al'} (hrun : DaRun sz c l) (hv : DaOp.Valid sz c op)
      (h : op.onMem sz c al = .ok (fail, c', al')) : DaRun sz c' (op.onList fail l)

section

variable {sz : UInt64} {c : DaMem α} {l : List α}

theorem DaRun.size (h : DaRun sz c l) : 0 < sz.toNat := by
  induction h with
  | init hsz => exact hsz
  | step _ _ _ ih => exact ih

/-- Every run has its counterpart in the model. -/
theorem DaRun.refines_da (h : DaRun sz c l) : ∃ d : Da α, Refines sz c d ∧ d.items = l := by
  induction h with
  | init hsz hcap h => exact ⟨_, refines_init hsz hcap h, rfl⟩
  | @step c l op al fail c' al' hrun hv h ih =>
      obtain ⟨d, hr, rfl⟩ := ih
      obtain ⟨fail1, c1, d1, al1, hc, -, hr1, hitems, -⟩ := hr.step hrun.size hv al
      rw [h] at hc
      cases hc
      exact ⟨d1, hr1, hitems⟩

/-- **The dynamic array refines a list.** After any sequence of operations there are at most `mem` elements,
    the allocation holds `mem` of them, and the first `ct` are the list that the operations describe. Every
    further operation runs inside the allocation; it fails exactly where an append finds no room and no
    memory, and then changes nothing. -/
theorem DaRun.refines (h : DaRun sz c l) :
    c.ct ≤ c.mem ∧ c.mem.toNat ≤ c.items.length ∧ c.ct.toNat = l.length ∧
      c.items.take c.ct.toNat = l.map some ∧
      ∀ (op : DaOp α) (al : AllocScript), op.Valid sz c → ∃ fail c' al',
        op.onMem sz c al = .ok (fail, c', al') ∧
        (fail = true ↔ (∃ item, op = .addToEnd item) ∧ c.mem = c.ct ∧ (takeAlloc al).1 = false) ∧
        (fail = true → c' = c) := by
  obtain ⟨d, hr, rfl⟩ := h.refines_da
  have hct := hr.ct
  have hle : c.ct.toNat ≤ c.mem.toNat := by
    rw [hct, hr.mem]
    exact hr.ctLe
  refine ⟨UInt64.le_iff_toNat_le.mpr hle, ?_, hct, ?_, ?_⟩
  · rw [hr.mem]
    exact hr.alloc
  · rw [hct]
    exact hr.contents
  · intro op al hv
    obtain ⟨fail, c', d', al', hc, hd, -, -, hfail⟩ := hr.step h.size hv al
    refine ⟨fail, c', al', hc, ?_, hfail⟩
    -- `ct` never exceeds `mem`, so there is no room only where they are equal
    have hfull : d.ct + 1 > d.mem ↔ c.mem = c.ct := by
      have hle' := hr.ctLe
      rw [← UInt64.toNat_inj, hct, hr.mem]
      unfold Da.ct
      omega
    rw [← hfull]
    have hiff := op.onDa_fails_iff d al
    rwa [hd] at hiff

end

/-- An array with room for one element of eight bytes: the second append is refused for want of memory, then
    granted, the first element is removed and a third appended. -/
theorem DaRun.refines_sample : ∃ c : DaMem Nat, DaRun 8 c [6, 7] ∧ c.ct = 2 ∧ c.mem = 10 ∧
    c.ct ≤ c.mem ∧ c.mem.toNat ≤ c.items.length ∧ c.items.take c.ct.toNat = [some 6, some 7] ∧
    ∃ fail c' al', (DaOp.remove 1).onMem 8 c [false] = .ok (fail, c', al') ∧ ¬ fail = true := by
  have h0 : DaMem.init 8 1 [] = (false, (⟨0, 1, [none]⟩ : DaMem Nat), []) := rfl
  have h1 : (DaOp.addToEnd 5).onMem 8 (⟨0, 1, [none]⟩ : DaMem Nat) [] = .ok (false, ⟨1, 1, [some 5]⟩, []) := rfl
  -- there is no memory to grow the array
  have h2 : (DaOp.addToEnd 6).onMem 8 (⟨1, 1, [some 5]⟩ : DaMem Nat) [false] = .ok (true, ⟨1, 1, [some 5]⟩, []) := rfl
  have h3 : (DaOp.addToEnd 6).onMem 8 (⟨1, 1, [some 5]⟩ : DaMem Nat) []
      = .ok (false, ⟨2, 10, some 5 :: some 6 :: List.replicate 8 none⟩, []) := rfl
  -- the last element stays in the block, behind the count
  have h4 : (DaOp.remove 0).onMem 8 (⟨2, 10, some 5 :: some 6 :: List.replicate 8 none⟩ : DaMem Nat) []
      = .ok (false, ⟨1, 10, some 6 :: some 6 :: List.replicate 8 none⟩, []) := rfl
  have h5 : (DaOp.addToEnd 7).onMem 8 (⟨1, 10, some 6 :: some 6 :: List.replicate 8 none⟩ : DaMem Nat) []
      = .ok (false, ⟨2, 10, some 6 :: some 7 :: List.replicate 8 none⟩, []) := rfl
  have hrun : DaRun 8 _ [6, 7] :=
    (((((DaRun.init (by decide) (by decide) h0).step (by decide) h1).step (by decide) h2).step (by decide)
      h3).step (by decide) h4).step (by decide) h5
  obtain ⟨hle, halloc, -, hcontents, hnext⟩ := DaRun.refines hrun
  obtain ⟨fail, c', al', hop, hfail, -⟩ := hnext (.remove 1) [false] (by decide)
  refine ⟨_, hrun, rfl, rfl, hle, halloc, hcontents, fail, c', al', hop, fun hf => ?_⟩
  obtain ⟨⟨item, hitem⟩, -⟩ := hfail.mp hf
  cases hitem

end P2pVn
