import P2pVn.Lib.Following
import P2pVn.Routing.Forward
import P2pVn.Routing.ShortestPaths
import Mathlib.Data.Prod.Lex

/-!
# `Routing.Following` — the loops that follow `next` end

The multicast branch of `rt_dhosts_to_host` follows `next` in two loops without a bound of their own. Both
end, whatever the links and the weights are. The length of the entry alone is no measure: where both legs
are ones the "len hack" makes the whole as long as the rest. But an entry of one is final, so its
intermediate was recorded in an earlier round; the measure is the pair of length and round (`rank`).

- `rank_lt`: an intermediate's own entry has a smaller rank.
- `computePaths_follows`: the main result, for the matrices of any table.
-/

namespace P2pVn
open CUb Following

namespace Routing

variable {env : ExtMem} {s s' : Routing} {A : Nat → Nat → UInt32} {k i j p : Nat}

/-! ## The measure -/

/-- The length of an entry and, for entries of the same length, the round that recorded its intermediate. -/
def rank (c : UInt32 × Option Nat) : Nat ×ₗ Nat :=
  toLex (c.1.toNat, match c.2 with
    | none => 0
    | some p => p + 1)

/-- **The entry that an intermediate leads to has a smaller rank.** -/
theorem rank_lt (h : (cells A k i j).2 = some p) : rank (cells A k p j) < rank (cells A k i j) := by
  obtain ⟨hip, hpj, hlt, hlen⟩ := cells_last h
  have hpk : p ≤ k := Nat.le_of_lt (cells_next h).1
  have hsum := throughLen_toNat hip hpj
  rw [UInt32.lt_iff_toNat_lt, hsum] at hlt
  rw [← hlen] at hsum
  have hmono := cells_le (A := A) hpk p j
  have hip' := ne_zero_iff.mp hip
  have hbound := (cells A p i j).1.toNat_lt
  rw [Prod.Lex.lt_iff]
  by_cases hone : (cells A p i p).1.toNat = 1 ∧ (cells A p p j).1.toNat = 1
  · -- two ones count as one: the rest is as long, but it is older
    have hfinal := cells_one hpk (eq_one_iff.mpr hone.2)
    refine Or.inr ⟨?_, ?_⟩
    · show (cells A k p j).1.toNat = (cells A k i j).1.toNat
      rw [hsum, thruNat, if_pos hone, hfinal, hone.2]
    · show (match (cells A k p j).2 with | none => 0 | some p => p + 1) <
        (match (cells A k i j).2 with | none => 0 | some p => p + 1)
      rw [h, hfinal]
      cases hq : (cells A p p j).2 with
      | none => exact Nat.succ_pos p
      | some p' =>
          have hp' : p' < p := (cells_next hq).1
          exact Nat.succ_lt_succ hp'
  · -- otherwise the rest is shorter: the sum was not clamped, or it would not have been an improvement
    left
    show (cells A k p j).1.toNat < (cells A k i j).1.toNat
    rw [thruNat, if_neg hone] at hlt hsum
    omega

/-- **Following the intermediates ends**, at vertices that are connected to the destination, none of them
    visited twice. -/
theorem exists_trail_cells {n : Nat} (hi : i < n) (hij : (cells A n i j).1 ≠ 0) :
    ∃ vs, Trail (fun v => (cells A n v j).2) i vs ∧ vs.Nodup ∧ vs.length ≤ n ∧
      ∀ v ∈ vs, v < n ∧ (cells A n v j).1 ≠ 0 := by
  have hstep : ∀ a b, (a < n ∧ (cells A n a j).1 ≠ 0) → (cells A n a j).2 = some b →
      b < n ∧ (cells A n b j).1 ≠ 0 := by
    intro a b _ hab
    obtain ⟨hb, -, -, -, hbj⟩ := cells_next hab
    exact ⟨hb, (cells_ne_zero n b j).mpr hbj⟩
  have hdown : ∀ a b, (a < n ∧ (cells A n a j).1 ≠ 0) → (cells A n a j).2 = some b →
      rank (cells A n b j) < rank (cells A n a j) := fun a b _ hab => rank_lt hab
  obtain ⟨vs, hvs⟩ := exists_trail (μ := fun v => rank (cells A n v j)) hstep hdown i ⟨hi, hij⟩
  have hall := hvs.all hstep ⟨hi, hij⟩
  have hnodup := hvs.nodup (μ := fun v => rank (cells A n v j)) hstep hdown ⟨hi, hij⟩
  exact ⟨vs, hvs, hnodup, length_le_of_nodup hnodup fun v hv => (hall v hv).1, hall⟩

/-! ## The matrices -/

/-- Looking up `next[·][j]` from `i` on visits these indices and then finds `NEXT_DISCON`; every visited
    index is looked up once. -/
inductive Follows (s : Routing) (j : Nat) : Nat → List Nat → Prop where
  | last {v : Nat} (h : s.next.entry v j = .ok none) : Follows s j v [v]
  | hop {v w : Nat} {vs : List Nat} (h : s.next.entry v j = .ok (some w)) (rest : Follows s j w vs) :
      Follows s j v (v :: vs)

/-- The matrices hold the rounds from the adjacency matrix `A`, and only the `m_ct` rows and columns of them
    can be read. -/
structure CellsOf (s : Routing) (A : Nat → Nat → UInt32) : Prop where
  path : ∀ a b, a < s.mCt → b < s.mCt → s.path.entry a b = .ok (cells A s.mCt a b).1
  next : ∀ a b, a < s.mCt → b < s.mCt → s.next.entry a b = .ok (cells A s.mCt a b).2
  lt : ∀ {i j : Nat} {w : UInt32}, s.path.entry i j = .ok w → i < s.mCt ∧ j < s.mCt

theorem entry_live_lt {α : Type} [Inhabited α] {n : Nat} {g : Grid α n} {v : α}
    (h : (MatPtr.live g).entry i j = .ok v) : i < n ∧ j < n := by
  simp only [MatPtr.entry] at h
  split at h
  · assumption
  · cases h

/-- The entries of matrices that were computed by a call of `compute_paths`. -/
theorem computePaths_cellsOf (h : s.computePaths env = .ok (0, s')) : ∃ A, CellsOf s' A := by
  obtain ⟨-, -, ⟨hneg, -⟩ | ⟨-, ⟨hc⟩⟩⟩ := computePaths_cases h
  · exact absurd hneg (by decide)
  refine ⟨hc.adj.get, fun a b ha hb => ?_, fun a b ha hb => ?_, fun hij => ?_⟩
  · rw [hc.mCt] at ha hb ⊢
    rw [hc.path, MatPtr.entry, if_pos ⟨ha, hb⟩, ← floydWarshall_cells hc.adj ha hb]
    rfl
  · rw [hc.mCt] at ha hb ⊢
    rw [hc.next, MatPtr.entry, if_pos ⟨ha, hb⟩, ← floydWarshall_cells hc.adj ha hb]
    rfl
  · rw [hc.path] at hij
    rw [hc.mCt]
    exact entry_live_lt hij

/-- Those of a table whose matrices are those of its links. -/
theorem Routed.cellsOf (hr : Routed s) : CellsOf s s.startAt := by
  refine ⟨fun a b ha hb => ?_, fun a b ha hb => ?_, fun hij => ?_⟩
  · rw [hr.mCt] at ha hb ⊢
    exact hr.path a b ha hb
  · rw [hr.mCt] at ha hb ⊢
    exact hr.next a b ha hb
  · obtain ⟨g, _, hg, -⟩ := hr.ready
    rw [hg] at hij
    exact entry_live_lt hij

theorem Follows.of_trail (hnext : ∀ v, v < s.mCt → s.next.entry v j = .ok (cells A s.mCt v j).2) {vs : List Nat}
    (h : Trail (fun v => (cells A s.mCt v j).2) i vs) (hvs : ∀ v ∈ vs, v < s.mCt) : Follows s j i vs := by
  induction h with
  | last hn => exact .last (hn ▸ hnext _ (hvs _ (by simp)))
  | hop hn _ ih => exact .hop (hn ▸ hnext _ (hvs _ (by simp))) (ih fun v hv => hvs v (by simp [hv]))

/-! ## The loops -/

/-- An append to an array with room for one more element, or one that has elements already, leaves some. -/
theorem addToEnd_items_ne (d : Da Nat) (a : Nat) (al : AllocScript) (hd : d.items ≠ [] ∨ d.ct < d.mem) :
    (d.addToEnd a al).2.1.items ≠ [] := by
  rcases hd with hne | hroom
  · obtain ⟨al', ⟨d', hadd, hitems⟩ | hfail⟩ := d.addToEnd_cases a al
    · rw [hadd, hitems]
      simp
    · rw [hfail]
      exact hne
  · rw [Da.addToEnd, if_neg (by omega)]
    simp

/-- **The loop from the source to `cur`** does at most one look-up for each visited index. -/
theorem Follows.srcToCur {curI nextI : Nat} {vs : List Nat} (h : Follows s curI nextI vs) :
    ∀ {fuel : Nat} (path : Da Nat) (al : AllocScript), vs.length ≤ fuel → path.items ≠ [] ∨ path.ct < path.mem →
    ∃ path' al', s.srcToCur curI fuel nextI path al = .ok (path', al') ∧ path'.items ≠ [] := by
  induction h with
  | last hn =>
      intro fuel path al hfuel hroom
      obtain ⟨fuel, rfl⟩ : ∃ f, fuel = f + 1 := ⟨fuel - 1, by simp at hfuel; omega⟩
      refine ⟨(path.addToEnd curI al).2.1, (path.addToEnd curI al).2.2, ?_, addToEnd_items_ne path curI al hroom⟩
      rw [Routing.srcToCur, hn]
      rfl
  | @hop v w vs hn _ ih =>
      intro fuel path al hfuel hroom
      obtain ⟨fuel, rfl⟩ : ∃ f, fuel = f + 1 := ⟨fuel - 1, by simp at hfuel; omega⟩
      obtain ⟨path', al', hrun, hne⟩ := ih (path.addToEnd w al).2.1 (path.addToEnd w al).2.2
        (by simp at hfuel; omega) (Or.inl (addToEnd_items_ne path w al hroom))
      refine ⟨path', al', ?_, hne⟩
      rw [Routing.srcToCur, hn]
      exact hrun

/-- **The comparison loop** looks up no more than the path has elements. -/
theorem startsWith_ok (hnext : ∀ v, v < s.mCt → ∃ o, s.next.entry v i = .ok o ∧ ∀ k, o = some k → k < s.mCt) :
    ∀ (ps : List Nat) (nextI : Nat), ps ≠ [] → nextI < s.mCt → ∃ b, s.startsWith i ps nextI = .ok b := by
  intro ps
  induction ps with
  | nil => exact fun _ h => absurd rfl h
  | cons p ps ih =>
      intro nextI _ hlt
      obtain ⟨o, ho, hk⟩ := hnext nextI hlt
      unfold startsWith
      rw [ho, ok_bind]
      cases o with
      | none => exact ⟨false, rfl⟩
      | some k =>
          simp only
          split
          · exact ⟨false, rfl⟩
          · split
            · exact ⟨true, rfl⟩
            · rename_i hps
              exact ih k hps (hk k rfl)

theorem collectDsts_ok {path : List Nat} {srcI : Nat} : ∀ (is : List Nat) (dsts : Da Nat) (al : AllocScript),
    (∀ i ∈ is, ∃ b, s.startsWith i path srcI = .ok b) → ∃ r, s.collectDsts path srcI is dsts al = .ok r := by
  intro is
  induction is with
  | nil => exact fun dsts al _ => ⟨_, rfl⟩
  | cons i is ih =>
      intro dsts al h
      obtain ⟨b, hb⟩ := h i (by simp)
      have hrest : ∀ j ∈ is, ∃ b, s.startsWith j path srcI = .ok b := fun j hj => h j (by simp [hj])
      unfold collectDsts
      rw [hb, ok_bind]
      cases b with
      | true => exact ih _ _ hrest
      | false => exact ih _ _ hrest

/-! ## The main result -/

namespace CellsOf

variable (hc : CellsOf s A)
include hc

/-- From every pair of indices with a path, the look-ups reach `NEXT_DISCON`. -/
theorem follows {w : UInt32} (hij : s.path.entry i j = .ok w) (hw : w ≠ pathDiscon) :
    ∃ vs, Follows s j i vs ∧ vs.length ≤ s.mCt ∧ vs.Nodup ∧
      ∀ v ∈ vs, v < s.mCt ∧ ∃ w', s.path.entry v j = .ok w' ∧ w' ≠ pathDiscon := by
  obtain ⟨hi, hj⟩ := hc.lt hij
  rw [hc.path i j hi hj, Except.ok.injEq] at hij
  obtain ⟨vs, hvs, hnodup, hlen, hall⟩ := exists_trail_cells (A := A) hi (show _ ≠ 0 from hij ▸ hw)
  exact ⟨vs, .of_trail (fun v hv => hc.next v j hv hj) hvs fun v hv => (hall v hv).1, hlen, hnodup,
    fun v hv => ⟨(hall v hv).1, _, hc.path v j (hall v hv).1 hj, (hall v hv).2⟩⟩

/-- So the two loops of the multicast branch end. -/
theorem collects {srcI curI : Nat} {w : UInt32} (al : AllocScript) (hw : s.path.entry srcI curI = .ok w)
    (hne : w ≠ pathDiscon) :
    ∃ path al', s.srcToCur curI (s.mCt + 1) srcI ⟨[], 8⟩ al = .ok (path, al') ∧ path.items ≠ [] ∧
      ∀ dsts al'', ∃ r, s.collectDsts path.items srcI (List.range s.mCt) dsts al'' = .ok r := by
  obtain ⟨vs, hvs, hlen, -, -⟩ := hc.follows hw hne
  obtain ⟨path, al', hrun, hpath⟩ := hvs.srcToCur ⟨[], 8⟩ al (show vs.length ≤ s.mCt + 1 by omega)
    (Or.inr (show 0 < 8 by decide))
  refine ⟨path, al', hrun, hpath, fun dsts al'' => collectDsts_ok _ dsts al'' fun i hi => ?_⟩
  rw [List.mem_range] at hi
  exact startsWith_ok (fun v hv => ⟨_, hc.next v i hv hi, fun k hk => (cells_next hk).1⟩) _ _ hpath (hc.lt hw).1

end CellsOf

/-- **Following the next matrix always ends.** After a successful `compute_paths`, for any table: from every
    pair of indices with a path, the look-ups reach `NEXT_DISCON` after at most `m_ct` of them, visiting no
    vertex twice and only vertices with a path to the destination. So for every source with a path to `cur`
    the loop of the multicast branch ends with a path that is not empty, and then the comparison loop ends
    for every destination, both without a fault and whichever allocations fail. -/
theorem computePaths_follows (h : s.computePaths env = .ok (0, s')) :
    (∀ i j w, s'.path.entry i j = .ok w → w ≠ pathDiscon →
      ∃ vs, Follows s' j i vs ∧ vs.length ≤ s'.mCt ∧ vs.Nodup ∧
        ∀ v ∈ vs, v < s'.mCt ∧ ∃ w', s'.path.entry v j = .ok w' ∧ w' ≠ pathDiscon) ∧
    (∀ srcI curI w al, s'.path.entry srcI curI = .ok w → w ≠ pathDiscon →
      ∃ path al', s'.srcToCur curI (s'.mCt + 1) srcI ⟨[], 8⟩ al = .ok (path, al') ∧ path.items ≠ [] ∧
        ∀ dsts al'', ∃ r, s'.collectDsts path.items srcI (List.range s'.mCt) dsts al'' = .ok r) := by
  obtain ⟨A, hc⟩ := computePaths_cellsOf h
  exact ⟨fun _ _ _ hij hw => hc.follows hij hw, fun _ _ _ al hw hne => hc.collects al hw hne⟩

/-- A triangle in which the "len hack" makes the way over `1` as short as its last leg. -/
def hackTable : Routing :=
  { lineTable with
    recs := ⟨[some ⟨.heap (lineHost 0), .htLocal, 0, ⟨[⟨1, 1, 0⟩, ⟨2, 10, 0⟩], 8⟩⟩,
      some ⟨.heap (lineHost 1), .htNormal, 0, ⟨[⟨2, 1, 0⟩], 8⟩⟩,
      some ⟨.heap (lineHost 2), .htNormal, 0, ⟨[], 8⟩⟩]⟩ }

/-- From `0` to `2` the look-ups go over `1`. -/
theorem computePaths_follows_hack : ∃ s', hackTable.computePaths (fun _ => none) = .ok (0, s') ∧
    s'.next.entry 0 2 = .ok (some 1) ∧
    (∃ vs, Follows s' 2 0 vs ∧ vs.length ≤ s'.mCt ∧ vs.Nodup ∧
      ∀ v ∈ vs, v < s'.mCt ∧ ∃ w', s'.path.entry v 2 = .ok w' ∧ w' ≠ pathDiscon) ∧
    ∃ path al', s'.srcToCur 2 (s'.mCt + 1) 0 ⟨[], 8⟩ [] = .ok (path, al') ∧ path.items ≠ [] ∧
      ∀ dsts al'', ∃ r, s'.collectDsts path.items 0 (List.range s'.mCt) dsts al'' = .ok r := by
  have hrun : (do
      let a ← hackTable.computePaths (fun _ => none)
      let w ← a.2.path.entry 0 2
      let n ← a.2.next.entry 0 2
      pure (a.1, w, n)) = Except.ok (0, 1, some 1) := by
    decide +kernel
  obtain ⟨⟨ret, s'⟩, h, hrun⟩ := bind_eq_ok.mp hrun
  obtain ⟨w, hw, hrun⟩ := bind_eq_ok.mp hrun
  obtain ⟨n, hn, hrun⟩ := bind_eq_ok.mp hrun
  simp only [pure_eq_ok, Except.ok.injEq, Prod.mk.injEq] at hrun
  obtain ⟨rfl, rfl, rfl⟩ := hrun
  have hfollows := computePaths_follows h
  exact ⟨s', h, hn, hfollows.1 0 2 1 hw (by decide), hfollows.2 0 2 1 [] hw (by decide)⟩

end Routing

end P2pVn
