import P2pVn.Routing.Types

/-!
# `Routing.Paths` — `compute_paths`

The three parts of the function in its order: reallocate the matrices, fill in the adjacency matrix, relax.
While it runs, the matrices are local variables; they are published in `rd->path` and `rd->next` at the
end, so a failed call leaves there whatever the reallocations made of the old pointers.
-/

namespace P2pVn
open CUb

namespace Routing

/-! ## Adjacency -/

/-- Row `i`: the minimal path to itself, then one entry for each link, in the order of the list. -/
def setupRow (env : ExtMem) (s : Routing) {n : Nat} (g : Grid UInt32 n) (i : Nat) : Ub (Grid UInt32 n) := do
  let host ← s.host (← s.itemAt i)
  host.links.items.foldlM (fun g l => do
    match ← s.findHostByAddr env (← s.macOf env l.dst) with
    | some dstI => pure (g.set i dstI l.rttUs)
    | none => .error .nullDeref) (g.set i i pathMin)

/-- The adjacency matrix. -/
def setupPaths (env : ExtMem) (s : Routing) : Ub (Grid UInt32 s.hosts.ct) :=
  (List.range s.hosts.ct).foldlM (s.setupRow env) (Grid.const s.hosts.ct pathDiscon)

/-! ## Relaxation -/

/-- The length through `k` of the two lengths `pik` and `pkj`: the sum, with the "len hack" for two ones,
    and clamped where the sum wrapped around. -/
def throughLen (pik pkj : UInt32) : UInt32 :=
  let x := pik + pkj
  let x := if pik = 1 ∧ pkj = 1 then x - 1 else x
  if x < pik ∨ x < pkj then pathMax else x

/-- What iteration `(k, i, j)` makes of `path[i][j]` and `next[i][j]`. -/
def relaxCell (k : Nat) (ik kj ij : UInt32 × Option Nat) : UInt32 × Option Nat :=
  if ik.1 = pathDiscon ∨ kj.1 = pathDiscon then ij
  else if throughLen ik.1 kj.1 < ij.1 then (throughLen ik.1 kj.1, some k) else ij

/-- `path` and `next` while they are being computed. -/
structure Matrices (n : Nat) where
  path : Grid UInt32 n
  next : Grid (Option Nat) n

namespace Matrices

variable {n : Nat}

def cell (m : Matrices n) (i j : Nat) : UInt32 × Option Nat := (m.path.get i j, m.next.get i j)

/-- Iteration `(k, i, j)` of the triple loop. -/
def relax (k i j : Nat) (m : Matrices n) : Matrices n :=
  let c := relaxCell k (m.cell i k) (m.cell k j) (m.cell i j)
  ⟨m.path.set i j c.1, m.next.set i j c.2⟩

/-- `for (k …) for (i …) for (j …)`. -/
def floydWarshall (m : Matrices n) : Matrices n := Relaxation.sweep relax n n m

end Matrices

/-! ## The function -/

/-- The row allocations `path[i] = malloc(…); next[i] = malloc(…)`: the code of the failure, if any. -/
def allocRows : Nat → Routing → Option Int × Routing
  | 0, s => (none, s)
  | n + 1, s =>
    let (okP, s) := s.malloc
    if !okP then (some (-3), s)
    else
      let (okN, s) := s.malloc
      if !okN then (some (-4), s) else allocRows n s

/-- `compute_paths`. -/
def computePaths (env : ExtMem) (s : Routing) : Ub (Int × Routing) := do
  let path ← s.path.freeRows s.mCt
  let next ← s.next.freeRows s.mCt
  path.checkTable
  let (ok, s) := s.malloc
  if !ok then pure (-1, { s with path := path, next := next })
  else
    next.checkTable
    let (ok, s) := s.malloc
    if !ok then pure (-2, { s with path := path.moved, next := next })
    else
      match allocRows s.hosts.ct s with
      | (some ret, s) => pure (ret, { s with mCt := 0, path := path.moved, next := next.moved })
      | (none, s) =>
        let adj ← s.setupPaths env
        let m := Matrices.floydWarshall ⟨adj, Grid.const s.hosts.ct none⟩
        pure (0, { s with mCt := s.hosts.ct, path := .live m.path, next := .live m.next })

end Routing

end P2pVn
