import Mathlib.Logic.Relation
import P2pVn.Lib.WeightedGraph
import P2pVn.Routing.Running

/-!
# `Routing.ShortestPaths` — when `compute_paths` computes shortest paths

The matrix starts from one link for each pair of hosts and never fills a zero in, so an entry can only be
the distance where a link exists; and two unit links in a row count as one (the "len hack"). What the rounds
make of an entry is measured against the distance in the link graph:

- `Attained s k i j`: the distance from `i` to `j` is the last listed link's, or was put together in a
  round before `k` from two distances that were attained by then.
- `pathAt_lower`: no entry is below the distance, if a chain of unit links never bypasses a longer link
  (`UnitsShort`).
- `pathAt_eq_iff`: under that condition an entry is the distance exactly if the distance is attained.
- `computePaths_shortest_iff`: all entries are right exactly if, in addition, only linked hosts are reachable.
-/

namespace P2pVn
open CUb WeightedGraph

namespace Routing

variable {env : ExtMem} {s s' : Routing} {i j k : Nat}

/-! ## Entries as numbers -/

/-- `path[i][j]` after `k` rounds. -/
def pathAt (s : Routing) (k i j : Nat) : Nat := (cells s.startAt k i j).1.toNat

/-- `next[i][j]` after `k` rounds. -/
def nextAt (s : Routing) (k i j : Nat) : Option Nat := (cells s.startAt k i j).2

/-- Every link takes some time. -/
def Positive (s : Routing) : Prop := ∀ i j w, Arc s i j w → 0 < w

/-- The largest number an entry can hold is `UINT32_MAX`. -/
def cap (d : Nat) : Nat := min d (2 ^ 32 - 1)

theorem pathAt_lt (s : Routing) (k i j : Nat) : pathAt s k i j < 2 ^ 32 := (cells s.startAt k i j).1.toNat_lt

/-- An entry that starts at zero stays zero, and any other stays positive. -/
theorem pathAt_pos (s : Routing) (k i j : Nat) : 0 < pathAt s k i j ↔ s.startAt i j ≠ 0 := by
  rw [pathAt, ← ne_zero_iff]
  exact cells_ne_zero k i j

theorem startAt_of_lastRtt {w : UInt32} (h : s.lastRtt i j = some w) : s.startAt i j = w := by
  rw [startAt, h]

/-- With positive round trips the entries that do not start at zero are those of linked hosts. -/
theorem startAt_ne_zero (hpos : Positive s) : s.startAt i j ≠ 0 ↔ i = j ∨ Linked s i j := by
  rw [linked_iff]
  cases h : s.lastRtt i j with
  | some w =>
      rw [startAt_of_lastRtt h, ne_zero_iff]
      exact ⟨fun _ => Or.inr ⟨w, rfl⟩, fun _ => hpos i j _ (arc_of_lastRtt h)⟩
  | none =>
      rw [startAt, h]
      by_cases hij : i = j
      · simp [hij, pathMin]
      · simp [hij, pathDiscon]

/-- The diagonal stays `PATH_MIN` in every round. -/
theorem pathAt_diag (hg : GraphOk env s) (k i : Nat) : pathAt s k i i = 1 := by
  rw [pathAt, cells_diag (hg.diag i)]
  rfl

/-- **Step lemma.** One round leaves an entry alone or puts it together from two others. -/
theorem pathAt_succ (s : Routing) (k i j : Nat) :
    (pathAt s (k + 1) i j = pathAt s k i j ∧ nextAt s (k + 1) i j = nextAt s k i j ∧
      (0 < pathAt s k i k → 0 < pathAt s k k j →
        pathAt s k i j ≤ thruNat (pathAt s k i k) (pathAt s k k j))) ∨
    (0 < pathAt s k i k ∧ 0 < pathAt s k k j ∧
      thruNat (pathAt s k i k) (pathAt s k k j) < pathAt s k i j ∧
      pathAt s (k + 1) i j = thruNat (pathAt s k i k) (pathAt s k k j) ∧
      nextAt s (k + 1) i j = some k) := by
  unfold pathAt nextAt
  rw [cells_succ]
  rcases relaxCell_cases k (cells s.startAt k i k) (cells s.startAt k k j) (cells s.startAt k i j) with
    ⟨h, hwhy⟩ | ⟨hik, hkj, hlt, h⟩
  · left
    rw [h]
    refine ⟨rfl, rfl, fun hik hkj => ?_⟩
    rw [← ne_zero_iff] at hik hkj
    rcases hwhy with h0 | h0 | ⟨-, -, hnot⟩
    · exact absurd h0 hik
    · exact absurd h0 hkj
    · rw [UInt32.lt_iff_toNat_lt, throughLen_toNat hik hkj] at hnot
      exact Nat.le_of_not_lt hnot
  · right
    rw [h, ← ne_zero_iff, ← ne_zero_iff, ← throughLen_toNat hik hkj]
    exact ⟨hik, hkj, UInt32.lt_iff_toNat_lt.mp hlt, rfl, rfl⟩

/-- Rounds only improve entries. -/
theorem pathAt_le (s : Routing) {k k' : Nat} (h : k ≤ k') (i j : Nat) : pathAt s k' i j ≤ pathAt s k i j := by
  induction h with
  | refl => exact Nat.le_refl _
  | step _ ih => exact Nat.le_trans (cells_succ_le _ i j) ih

/-- Going through `k` is never worse than what round `k` leaves. -/
theorem pathAt_succ_le (hik : 0 < pathAt s k i k) (hkj : 0 < pathAt s k k j) :
    pathAt s (k + 1) i j ≤ thruNat (pathAt s k i k) (pathAt s k k j) := by
  rcases pathAt_succ s k i j with ⟨h, -, hle⟩ | ⟨-, -, -, h, -⟩
  · rw [h]; exact hle hik hkj
  · rw [h]

/-- A round that changes an entry goes through a third host. -/
theorem thru_ne (hg : GraphOk env s) (hik : 0 < pathAt s k i k) (hkj : 0 < pathAt s k k j)
    (hlt : thruNat (pathAt s k i k) (pathAt s k k j) < pathAt s k i j) : k ≠ i ∧ k ≠ j := by
  have hub := pathAt_lt s k i j
  constructor
  · rintro rfl
    rw [pathAt_diag hg, thruNat] at hlt
    split at hlt <;> omega
  · rintro rfl
    rw [pathAt_diag hg, thruNat] at hlt
    split at hlt <;> omega

/-! ## No entry is below the distance -/

/-- The last listed link from `a` to `b` takes one microsecond. -/
def UnitStep (s : Routing) (a b : Nat) : Prop := s.lastRtt a b = some 1

/-- A chain of unit links never bypasses a link that has no unit link beside it. -/
def UnitsShort (s : Routing) : Prop :=
  ∀ i j, i ≠ j → Linked s i j → Relation.TransGen (UnitStep s) i j → Arc s i j 1

/-- An entry of one is a chain of unit links. -/
theorem unitChain_of_pathAt (hg : GraphOk env s) (hne : i ≠ j) (h : pathAt s k i j = 1) :
    Relation.TransGen (UnitStep s) i j := by
  induction k generalizing i j with
  | zero =>
      refine .single ?_
      unfold UnitStep
      unfold pathAt at h
      rw [cells_zero, startAt] at h
      cases hl : s.lastRtt i j with
      | some w =>
          rw [hl] at h
          exact congrArg some (eq_one_iff.mpr h)
      | none =>
          rw [hl] at h
          simp [hne, pathDiscon] at h
  | succ k ih =>
      rcases pathAt_succ s k i j with ⟨he, -⟩ | ⟨hik, hkj, hlt, he, -⟩
      · exact ih hne (he.symm.trans h)
      · obtain ⟨hki, hkj'⟩ := thru_ne hg hik hkj hlt
        rw [h, thruNat] at he
        split at he
        · rename_i h1
          exact (ih hki.symm h1.1).trans (ih hkj' h1.2)
        · omega

theorem cap_le_of_le {a b : Nat} (h : a ≤ b) : cap a ≤ cap b := by unfold cap; omega

theorem cap_le {a b : Nat} (h : a ≤ b) : cap a ≤ b := by unfold cap; omega

theorem linked_of_pathAt (hpos : Positive s) (hne : i ≠ j) (h : 0 < pathAt s k i j) : Linked s i j :=
  ((startAt_ne_zero hpos).mp ((pathAt_pos s k i j).mp h)).resolve_left hne

theorem reachable_of_linked (h : Linked s i j) : Reachable (Arc s) i j := by
  obtain ⟨w, hw⟩ := h
  exact reachable_of_arc hw

/-- **No entry is below the distance**, if chains of unit links are no shortcut. -/
theorem pathAt_lower (hg : GraphOk env s) (hpos : Positive s) (hu : UnitsShort s) (hne : i ≠ j)
    (h : 0 < pathAt s k i j) : cap (dist (Arc s) i j) ≤ pathAt s k i j := by
  induction k generalizing i j with
  | zero =>
      obtain ⟨w, hw⟩ := linked_iff.mp (linked_of_pathAt hpos hne h)
      rw [pathAt, cells_zero, startAt_of_lastRtt hw]
      exact cap_le (dist_le (.single (arc_of_lastRtt hw)))
  | succ k ih =>
      rcases pathAt_succ s k i j with ⟨he, -⟩ | ⟨hik, hkj, hlt, he, -⟩
      · rw [he] at h ⊢
        exact ih hne h
      · obtain ⟨hki, hkj'⟩ := thru_ne hg hik hkj hlt
        by_cases h1 : pathAt s k i k = 1 ∧ pathAt s k k j = 1
        · -- the "len hack": a unit chain, so there is a unit link
          rw [thruNat, if_pos h1] at he
          have harc := hu i j hne (linked_of_pathAt hpos hne h) (unitChain_of_pathAt hg hne he)
          rw [he]
          exact cap_le (dist_le (.single harc))
        · have hl1 := ih hki.symm hik
          have hl2 := ih hkj' hkj
          have htri := dist_triangle (reachable_of_linked (linked_of_pathAt hpos hki.symm hik))
            (reachable_of_linked (linked_of_pathAt hpos hkj' hkj))
          rw [he, thruNat, if_neg h1]
          unfold cap at hl1 hl2 ⊢
          omega

/-- A walk ends at a host of the table. -/
theorem walk_end_lt {w : Nat} (h : Walk (Arc s) i j w) (hne : i ≠ j) : j < s.hosts.ct := by
  induction h with
  | nil _ => exact absurd rfl hne
  | @cons i m j w x ha _ ih =>
      by_cases hm : m = j
      · subst hm
        exact ha.lt.2
      · exact ih hm

/-! ## When an entry is the distance -/

/-- The distance from `i` to `j` is that of the last listed link, or was put together before round `k`. -/
inductive Attained (s : Routing) : Nat → Nat → Nat → Prop where
  | link {k i j : Nat} {w : UInt32} (hw : s.lastRtt i j = some w)
      (he : w.toNat = cap (dist (Arc s) i j)) : Attained s k i j
  | through {k k' i j : Nat} (hl : Linked s i j) (hk : k' < k) (hi : k' ≠ i) (hj : k' ≠ j)
      (h : Attained s k' i k') (h' : Attained s k' k' j)
      (he : cap (dist (Arc s) i j) = thruNat (cap (dist (Arc s) i k')) (cap (dist (Arc s) k' j))) :
      Attained s k i j

theorem Attained.linked {k i j : Nat} (h : Attained s k i j) : Linked s i j := by
  cases h with
  | link hw _ => exact linked_iff.mpr ⟨_, hw⟩
  | through hl _ _ _ _ _ _ => exact hl

theorem Attained.mono {k k' : Nat} (h : Attained s k i j) (hk : k ≤ k') : Attained s k' i j := by
  cases h with
  | link hw he => exact .link hw he
  | through hl hlt hi hj h h' he => exact .through hl (Nat.lt_of_lt_of_le hlt hk) hi hj h h' he

theorem pathAt_pos_of_linked (hpos : Positive s) (h : Linked s i j) (k : Nat) : 0 < pathAt s k i j :=
  (pathAt_pos s k i j).mpr ((startAt_ne_zero hpos).mpr (Or.inr h))

theorem GraphOk.linked_ne (hg : GraphOk env s) (h : Linked s i j) : i ≠ j := by
  obtain ⟨w, hw⟩ := h
  exact hg.arc_ne hw

/-- An attained distance is the entry. -/
theorem pathAt_of_attained (hg : GraphOk env s) (hpos : Positive s) (hu : UnitsShort s) {k i j : Nat}
    (h : Attained s k i j) : pathAt s k i j = cap (dist (Arc s) i j) := by
  induction h with
  | @link k i j w hw he =>
      have hl := linked_iff.mpr ⟨w, hw⟩
      refine Nat.le_antisymm ?_
        (pathAt_lower hg hpos hu (hg.linked_ne hl) (pathAt_pos_of_linked hpos hl k))
      refine Nat.le_trans (pathAt_le s (Nat.zero_le k) i j) ?_
      rw [pathAt, cells_zero, startAt_of_lastRtt hw, he]
  | @through k k' i j hl hk hi hj h h' he ih ih' =>
      refine Nat.le_antisymm ?_
        (pathAt_lower hg hpos hu (hg.linked_ne hl) (pathAt_pos_of_linked hpos hl k))
      calc pathAt s k i j ≤ pathAt s (k' + 1) i j := pathAt_le s hk i j
        _ ≤ thruNat (pathAt s k' i k') (pathAt s k' k' j) :=
            pathAt_succ_le (pathAt_pos_of_linked hpos h.linked k') (pathAt_pos_of_linked hpos h'.linked k')
        _ = cap (dist (Arc s) i j) := by rw [ih, ih', he]

/-- Two lengths that add up to no more than a distance are distances. -/
theorem eq_of_thru {a b d1 d2 d : Nat} (hub : thruNat a b < 2 ^ 32 - 1) (h1 : cap d1 ≤ a) (h2 : cap d2 ≤ b)
    (hp1 : 0 < d1) (hp2 : 0 < d2) (ha : 0 < a) (hb : 0 < b) (htri : d ≤ d1 + d2)
    (he : thruNat a b = cap d) : a = cap d1 ∧ b = cap d2 := by
  unfold cap at *
  unfold thruNat at hub he
  split at he
  · rename_i h
    omega
  · rename_i h
    rw [if_neg h] at hub
    omega

/-- An entry that is the distance is attained. -/
theorem attained_of_pathAt (hg : GraphOk env s) (hpos : Positive s) (hu : UnitsShort s) {k i j : Nat}
    (hl : Linked s i j) (h : pathAt s k i j = cap (dist (Arc s) i j)) : Attained s k i j := by
  induction k generalizing i j with
  | zero =>
      obtain ⟨w, hw⟩ := linked_iff.mp hl
      rw [pathAt, cells_zero, startAt_of_lastRtt hw] at h
      exact .link hw h
  | succ k ih =>
      rcases pathAt_succ s k i j with ⟨he, -⟩ | ⟨hik, hkj, hlt, he, -⟩
      · exact (ih hl (he.symm.trans h)).mono (Nat.le_succ k)
      · obtain ⟨hki, hkj'⟩ := thru_ne hg hik hkj hlt
        have hl1 := linked_of_pathAt hpos hki.symm hik
        have hl2 := linked_of_pathAt hpos hkj' hkj
        have hr1 := reachable_of_linked hl1
        have hr2 := reachable_of_linked hl2
        have hub := pathAt_lt s k i j
        obtain ⟨h1, h2⟩ := eq_of_thru (by omega) (pathAt_lower hg hpos hu hki.symm hik)
          (pathAt_lower hg hpos hu hkj' hkj) (dist_pos hpos hr1 hki.symm) (dist_pos hpos hr2 hkj') hik hkj
          (dist_triangle hr1 hr2) (he.symm.trans h)
        refine .through hl (Nat.lt_succ_self k) hki hkj' (ih hl1 h1) (ih hl2 h2) ?_
        rw [← h, he, h1, h2]

/-- **Under `UnitsShort`, an entry is the distance exactly if the distance is attained.** -/
theorem pathAt_eq_iff (hg : GraphOk env s) (hpos : Positive s) (hu : UnitsShort s) (hl : Linked s i j) :
    pathAt s k i j = cap (dist (Arc s) i j) ↔ Attained s k i j :=
  ⟨attained_of_pathAt hg hpos hu hl, pathAt_of_attained hg hpos hu⟩

/-! ## All entries -/

/-- What `compute_paths` is for: `PATH_MIN` on the diagonal, elsewhere the distance, up to `UINT32_MAX`,
    where there is a walk of links, and `PATH_DISCON` where there is none. -/
structure ShortestPaths (s s' : Routing) : Prop where
  diag : ∀ i < s.hosts.ct, s'.path.entry i i = .ok pathMin
  pair : ∀ i j, i < s.hosts.ct → j < s.hosts.ct → i ≠ j → ∃ p, s'.path.entry i j = .ok p ∧
    (p ≠ pathDiscon ↔ Reachable (Arc s) i j) ∧
    (Reachable (Arc s) i j → p.toNat = cap (dist (Arc s) i j))

/-- Whoever can be reached can be reached over one link. -/
def OnlyLinkedReachable (s : Routing) : Prop := ∀ i j, i ≠ j → Reachable (Arc s) i j → Linked s i j

/-- **On a sound graph, without allocation failures, `compute_paths` leaves the matrices of the graph.** -/
theorem computePaths_routed (hg : GraphOk env s) (hc : CacheReady s) (hal : s.allocs = []) :
    ∃ s', s.computePaths env = .ok (0, s') ∧ Same s s' ∧ Routed s' := by
  obtain ⟨adj, hadj, -⟩ := hg.setupPaths_ok
  obtain ⟨s', h, -, -⟩ := computePaths_ok hc hal hadj
  obtain ⟨hsame, -, ⟨hneg, -⟩ | ⟨-, ⟨hcomp⟩⟩⟩ := computePaths_cases h
  · exact absurd hneg (by decide)
  · exact ⟨s', h, hsame, hcomp.routed hsame hg⟩

/-- In terms of the entries after all rounds. -/
theorem shortestPaths_iff (hg : GraphOk env s) (hpos : Positive s) (hsame : Same s s') (hr : Routed s') :
    ShortestPaths s s' ↔ ∀ i j, i < s.hosts.ct → j < s.hosts.ct → i ≠ j →
      (Linked s i j ↔ Reachable (Arc s) i j) ∧
      (Reachable (Arc s) i j → pathAt s s.hosts.ct i j = cap (dist (Arc s) i j)) := by
  have hentry : ∀ i j, i < s.hosts.ct → j < s.hosts.ct →
      s'.path.entry i j = .ok (cells s.startAt s.hosts.ct i j).1 := by
    intro i j hi hj
    rw [hr.path i j (hsame.ct ▸ hi) (hsame.ct ▸ hj), hsame.startAt, hsame.ct]
  have hlinked : ∀ i j, i ≠ j → ((cells s.startAt s.hosts.ct i j).1 ≠ pathDiscon ↔ Linked s i j) := by
    intro i j hne
    show (cells s.startAt s.hosts.ct i j).1 ≠ 0 ↔ _
    rw [cells_ne_zero, startAt_ne_zero hpos]
    exact ⟨fun h => h.resolve_left hne, Or.inr⟩
  constructor
  · rintro ⟨-, hpair⟩ i j hi hj hne
    obtain ⟨p, hp, hiff, hval⟩ := hpair i j hi hj hne
    rw [hentry i j hi hj] at hp
    cases hp
    exact ⟨(hlinked i j hne).symm.trans hiff, hval⟩
  · intro h
    refine ⟨fun i hi => by rw [hentry i i hi hi, cells_diag (hg.diag i)], fun i j hi hj hne => ?_⟩
    obtain ⟨hiff, hval⟩ := h i j hi hj hne
    exact ⟨_, hentry i j hi hj, (hlinked i j hne).trans hiff, hval⟩

/-- Where only linked hosts are reachable, every chain of unit links ends up as an entry of one. -/
theorem pathAt_unitChain (hg : GraphOk env s) (hpos : Positive s) (hcl : OnlyLinkedReachable s)
    (hne : i ≠ j) (h : Relation.TransGen (UnitStep s) i j) : pathAt s s.hosts.ct i j = 1 := by
  let unit : Nat → Nat → Nat → Prop := fun a b _ => UnitStep s a b
  have hwalk : Reachable unit i j := by
    induction h using Relation.TransGen.head_induction_on with
    | single h => exact ⟨0 + 0, .cons h (.nil _)⟩
    | head h _ ih =>
        rename_i a c _
        by_cases hc : c = j
        · subst hc
          exact ⟨0 + 0, .cons h (.nil _)⟩
        · obtain ⟨w, hw⟩ := ih hc
          exact ⟨0 + w, .cons h hw⟩
  obtain ⟨w, hw⟩ := hwalk
  obtain ⟨w', hvia, -⟩ := via_of_walk (n := s.hosts.ct)
    (fun a b _ (h : UnitStep s a b) => (arc_of_lastRtt h).lt.1) hw hne
  have hreach : ∀ {k a b : Nat}, pathAt s k a b = 1 → Reachable (Arc s) a b := by
    intro k a b h
    by_cases hab : a = b
    · subst hab
      exact ⟨0, .nil a⟩
    · exact reachable_of_linked (linked_of_pathAt (k := k) hpos hab (by omega))
  -- by induction on the intermediates: a chain of units stays `1`, since `thruNat 1 1 = 1`
  refine via_bound (T := fun k a b _ => pathAt s k a b = 1) ?_ ?_ (fun _ _ _ _ _ _ h => h) ?_
    s.hosts.ct (Nat.le_refl _) i j w' hvia
  · intro a b _ (h : UnitStep s a b)
    rw [pathAt, cells_zero, startAt_of_lastRtt h]
    rfl
  · intro k a b _ (h : pathAt s k a b = 1)
    have hle : pathAt s (k + 1) a b ≤ pathAt s k a b := pathAt_le s (Nat.le_succ k) a b
    have hp := (pathAt_pos s (k + 1) a b).mpr ((pathAt_pos s k a b).mp (by omega))
    show pathAt s (k + 1) a b = 1
    omega
  · intro k a b _ _ _ (ha : pathAt s k a k = 1) (hb : pathAt s k k b = 1)
    by_cases hab : a = b
    · subst hab
      exact pathAt_diag hg _ _
    · -- the composed path has a link, so the entry is not zero, and it is at most `1`
      have hl := hcl a b hab ((hreach ha).trans (hreach hb))
      have hp := pathAt_pos_of_linked hpos hl (k + 1)
      have hle := pathAt_succ_le (s := s) (k := k) (i := a) (j := b) (by omega) (by omega)
      rw [ha, hb, thruNat, if_pos ⟨rfl, rfl⟩] at hle
      omega

/-- The condition under which all entries are right. -/
theorem entries_iff (hg : GraphOk env s) (hpos : Positive s) :
    (∀ i j, i < s.hosts.ct → j < s.hosts.ct → i ≠ j →
      (Linked s i j ↔ Reachable (Arc s) i j) ∧
      (Reachable (Arc s) i j → pathAt s s.hosts.ct i j = cap (dist (Arc s) i j))) ↔
    OnlyLinkedReachable s ∧ UnitsShort s ∧ ∀ i j, Linked s i j → Attained s s.hosts.ct i j := by
  constructor
  · intro h
    have hlt : ∀ {i j}, i ≠ j → Reachable (Arc s) i j → i < s.hosts.ct ∧ j < s.hosts.ct := by
      intro i j hne ⟨w, hw⟩
      obtain ⟨m, a, b, ha, -, -⟩ := hw.first hne
      exact ⟨ha.lt.1, walk_end_lt hw hne⟩
    have hcl : OnlyLinkedReachable s := by
      intro i j hne hr
      obtain ⟨hi, hj⟩ := hlt hne hr
      exact (h i j hi hj hne).1.mpr hr
    have hu : UnitsShort s := by
      intro i j hne hl hchain
      have hr := reachable_of_linked hl
      obtain ⟨hi, hj⟩ := hlt hne hr
      have h1 := (h i j hi hj hne).2 hr
      -- the entry is `1`, so the shortest walk has length `1`, which only one link has
      rw [pathAt_unitChain hg hpos hcl hne hchain] at h1
      have hd : dist (Arc s) i j = 1 := by unfold cap at h1; omega
      exact arc_of_walk_one hpos (hd ▸ dist_walk hr) hne
    refine ⟨hcl, hu, fun i j hl => ?_⟩
    have hne := hg.linked_ne hl
    have hr := reachable_of_linked hl
    obtain ⟨hi, hj⟩ := hlt hne hr
    exact (pathAt_eq_iff hg hpos hu hl).mp ((h i j hi hj hne).2 hr)
  · rintro ⟨hcl, hu, hatt⟩ i j _ _ hne
    refine ⟨⟨reachable_of_linked, hcl i j hne⟩, fun hr => ?_⟩
    have hl := hcl i j hne hr
    exact (pathAt_eq_iff hg hpos hu hl).mpr (hatt i j hl)

/-- **`compute_paths` computes shortest paths exactly if** only linked hosts can reach each other, chains of
    unit links are no shortcut, and every distance is attained in the order of the table. -/
theorem computePaths_shortest_iff (hg : GraphOk env s) (hpos : Positive s) (hc : CacheReady s)
    (hal : s.allocs = []) :
    ∃ s', s.computePaths env = .ok (0, s') ∧ (ShortestPaths s s' ↔
      OnlyLinkedReachable s ∧ UnitsShort s ∧ ∀ i j, Linked s i j → Attained s s.hosts.ct i j) := by
  obtain ⟨s', h, hsame, hr⟩ := computePaths_routed hg hc hal
  exact ⟨s', h, (shortestPaths_iff hg hpos hsame hr).trans (entries_iff hg hpos)⟩

/-! ## At most one link from a host to another -/

/-- No two links of a host to one destination. -/
def SingleLinks (s : Routing) : Prop := ∀ i j w w', Arc s i j w → Arc s i j w' → w = w'

/-- Two capped legs put together are at most the capped sum. -/
theorem thruNat_le_cap {p q a b : Nat} (hp : p ≤ cap a) (hq : q ≤ cap b) (hp0 : 0 < p) :
    thruNat p q ≤ cap (a + b) := by
  unfold cap at *
  unfold thruNat
  split <;> omega

/-- Without parallel links the usual induction over the intermediates attains every distance. -/
theorem attained_of_single (hg : GraphOk env s) (hpos : Positive s) (h1 : SingleLinks s)
    (hcl : OnlyLinkedReachable s) (hu : UnitsShort s) (hl : Linked s i j) :
    Attained s s.hosts.ct i j := by
  have hne := hg.linked_ne hl
  have hr := reachable_of_linked hl
  obtain ⟨w, hvia, hw⟩ := via_of_walk (n := s.hosts.ct) (fun a b _ h => h.lt.1) (dist_walk hr) hne
  have hbound : i = j ∨ (0 < pathAt s s.hosts.ct i j ∧ pathAt s s.hosts.ct i j ≤ cap w) := by
    refine via_bound (T := fun k a b x => a = b ∨ (0 < pathAt s k a b ∧ pathAt s k a b ≤ cap x))
      ?_ ?_ ?_ ?_ s.hosts.ct (Nat.le_refl _) i j w hvia
    · intro a b x h
      right
      obtain ⟨w', hw'⟩ := lastRtt_of_arc h
      have hx := h1 a b _ _ h (arc_of_lastRtt hw')
      have hlt := w'.toNat_lt
      refine ⟨pathAt_pos_of_linked hpos ⟨x, h⟩ 0, ?_⟩
      rw [pathAt, cells_zero, startAt_of_lastRtt hw', hx]
      show w'.toNat ≤ cap w'.toNat
      unfold cap
      omega
    · rintro k a b x (h | ⟨h0, hle⟩)
      · exact Or.inl h
      · exact Or.inr ⟨(pathAt_pos s (k + 1) a b).mpr ((pathAt_pos s k a b).mp h0),
          Nat.le_trans (pathAt_le s (Nat.le_succ k) a b) hle⟩
    · rintro k a b x x' hx (h | ⟨h0, hle⟩)
      · exact Or.inl h
      · exact Or.inr ⟨h0, Nat.le_trans hle (cap_le_of_le hx)⟩
    · intro k a b x y _ ha hb
      by_cases hab : a = b
      · exact Or.inl hab
      right
      -- an end that is `k` itself needs no detour
      rcases ha with rfl | ⟨ha0, hale⟩
      · obtain ⟨hb0, hble⟩ := hb.resolve_left hab
        exact ⟨(pathAt_pos s (a + 1) a b).mpr ((pathAt_pos s a a b).mp hb0),
          Nat.le_trans (pathAt_le s (Nat.le_succ a) a b)
            (Nat.le_trans hble (cap_le_of_le (Nat.le_add_left y x)))⟩
      · rcases hb with rfl | ⟨hb0, hble⟩
        · exact ⟨(pathAt_pos s (k + 1) a k).mpr ((pathAt_pos s k a k).mp ha0),
            Nat.le_trans (pathAt_le s (Nat.le_succ k) a k)
              (Nat.le_trans hale (cap_le_of_le (Nat.le_add_right x y)))⟩
        · have hreach : Reachable (Arc s) a b := by
            have h1' : Reachable (Arc s) a k := by
              by_cases hak : a = k
              · subst hak; exact ⟨0, .nil a⟩
              · exact reachable_of_linked (linked_of_pathAt hpos hak ha0)
            have h2' : Reachable (Arc s) k b := by
              by_cases hkb : k = b
              · subst hkb; exact ⟨0, .nil k⟩
              · exact reachable_of_linked (linked_of_pathAt hpos hkb hb0)
            exact h1'.trans h2'
          exact ⟨pathAt_pos_of_linked hpos (hcl a b hab hreach) (k + 1),
            Nat.le_trans (pathAt_succ_le ha0 hb0) (thruNat_le_cap hale hble ha0)⟩
  obtain ⟨h0, hle⟩ := hbound.resolve_left hne
  refine attained_of_pathAt hg hpos hu hl (Nat.le_antisymm ?_ (pathAt_lower hg hpos hu hne h0))
  exact Nat.le_trans hle (cap_le_of_le hw)

/-- **Without parallel links** the entries are right exactly if only linked hosts are reachable and chains
    of unit links are no shortcut. -/
theorem shortestPaths_single_iff (hg : GraphOk env s) (hpos : Positive s) (h1 : SingleLinks s)
    (hsame : Same s s') (hr : Routed s') :
    ShortestPaths s s' ↔ OnlyLinkedReachable s ∧ UnitsShort s := by
  rw [shortestPaths_iff hg hpos hsame hr, entries_iff hg hpos]
  exact ⟨fun h => ⟨h.1, h.2.1⟩,
    fun h => ⟨h.1, h.2, fun i j hl => attained_of_single hg hpos h1 h.1 h.2 hl⟩⟩

/-! ## Three hosts in a line -/

/-- The host with MAC `02:00:00:00:00:k`. -/
def lineHost (k : UInt8) : Ipv4Host := ⟨⟨#v[2, 0, 0, 0, 0, k]⟩, ⟨afInet, 0, 0⟩⟩

/-- Hosts `0`, `1` and `2`, with links `0 → 1` and `1 → 2`. -/
def lineTable : Routing where
  hosts := ⟨[0, 1, 2], 8⟩
  localHost := some 0
  mCt := 0
  path := .null
  next := .null
  edges := ⟨[], 8⟩
  recs := ⟨[some ⟨.heap (lineHost 0), .htLocal, 0, ⟨[⟨1, 10, 0⟩], 8⟩⟩,
    some ⟨.heap (lineHost 1), .htNormal, 0, ⟨[⟨2, 10, 0⟩], 8⟩⟩,
    some ⟨.heap (lineHost 2), .htNormal, 0, ⟨[], 8⟩⟩]⟩
  allocs := []

theorem lineTable_links {i : Nat} {l : RtLink} (hl : l ∈ lineTable.linksAt i) :
    (i = 0 ∧ l = ⟨1, 10, 0⟩) ∨ (i = 1 ∧ l = ⟨2, 10, 0⟩) := by
  match i, hl with
  | 0, hl => exact Or.inl ⟨rfl, List.mem_singleton.mp hl⟩
  | 1, hl => exact Or.inr ⟨rfl, List.mem_singleton.mp hl⟩
  | 2, hl => exact nomatch hl
  | i + 3, hl =>
      have h0 : lineTable.linksAt (i + 3) = [] := by simp [linksAt, lineTable]
      rw [h0] at hl
      cases hl

theorem lineTable_graphOk : GraphOk (fun _ => none) lineTable where
  live id hid := by
    have hid' : id ∈ [0, 1, 2] := hid
    simp only [List.mem_cons, List.not_mem_nil, or_false] at hid'
    rcases hid' with rfl | rfl | rfl <;> exact ⟨_, rfl⟩
  strict := by
    have h01 : ∀ m m', lineTable.mac? (fun _ => none) 0 = some m →
        lineTable.mac? (fun _ => none) 1 = some m' → MacLt m m' := by
      rintro _ _ ⟨⟩ ⟨⟩; decide
    have h02 : ∀ m m', lineTable.mac? (fun _ => none) 0 = some m →
        lineTable.mac? (fun _ => none) 2 = some m' → MacLt m m' := by
      rintro _ _ ⟨⟩ ⟨⟩; decide
    have h12 : ∀ m m', lineTable.mac? (fun _ => none) 1 = some m →
        lineTable.mac? (fun _ => none) 2 = some m' → MacLt m m' := by
      rintro _ _ ⟨⟩ ⟨⟩; decide
    refine .cons ?_ (.cons ?_ (.cons nofun .nil))
    · intro b hb
      simp only [List.mem_cons, List.not_mem_nil, or_false] at hb
      rcases hb with rfl | rfl
      · exact h01
      · exact h02
    · intro b hb
      rw [List.mem_singleton.mp hb]
      exact h12
  dst i l hl := by
    rcases lineTable_links hl with ⟨rfl, rfl⟩ | ⟨rfl, rfl⟩
    · exact ⟨1, by decide, rfl⟩
    · exact ⟨2, by decide, rfl⟩

theorem lineTable_positive : Positive lineTable := by
  rintro i j w ⟨l, hl, -, rfl⟩
  rcases lineTable_links hl with ⟨rfl, rfl⟩ | ⟨rfl, rfl⟩ <;> decide

/-- **A reachable host that is not linked** is shown as disconnected. -/
theorem computePaths_line_not_shortest :
    GraphOk (fun _ => none) lineTable ∧ Positive lineTable ∧ CacheReady lineTable ∧
      lineTable.allocs = [] ∧ ∃ s', lineTable.computePaths (fun _ => none) = .ok (0, s') ∧
        s'.path.entry 0 2 = .ok pathDiscon ∧ Reachable (Arc lineTable) 0 2 ∧
        ¬ ShortestPaths lineTable s' := by
  have hc : CacheReady lineTable := Or.inl ⟨rfl, rfl, rfl⟩
  have hreach : Reachable (Arc lineTable) 0 2 := by
    have h01 : Arc lineTable 0 1 10 := ⟨⟨1, 10, 0⟩, by decide, rfl, rfl⟩
    have h12 : Arc lineTable 1 2 10 := ⟨⟨2, 10, 0⟩, by decide, rfl, rfl⟩
    exact ⟨10 + (10 + 0), .cons h01 (.cons h12 (.nil 2))⟩
  obtain ⟨s', h, hsame, hr⟩ := computePaths_routed lineTable_graphOk hc rfl
  have hentry : s'.path.entry 0 2 = .ok pathDiscon := by
    rw [hr.path 0 2 (by rw [hsame.ct]; decide) (by rw [hsame.ct]; decide), hsame.startAt]
    have hz : ¬ (cells lineTable.startAt s'.hosts.ct 0 2).1 ≠ 0 := by
      rw [cells_ne_zero]
      decide
    rw [Decidable.not_not.mp hz]
    rfl
  refine ⟨lineTable_graphOk, lineTable_positive, hc, rfl, s', h, hentry, hreach, fun hsp => ?_⟩
  obtain ⟨p, hp, hiff, -⟩ := hsp.pair 0 2 (by decide) (by decide) (by decide)
  rw [hentry] at hp
  cases hp
  exact hiff.mpr hreach rfl

theorem computePaths_shortest_iff_line :
    GraphOk (fun _ => none) lineTable ∧ ∃ s', lineTable.computePaths (fun _ => none) = .ok (0, s') ∧
      (ShortestPaths lineTable s' ↔ OnlyLinkedReachable lineTable ∧ UnitsShort lineTable ∧
        ∀ i j, Linked lineTable i j → Attained lineTable lineTable.hosts.ct i j) :=
  ⟨lineTable_graphOk,
    computePaths_shortest_iff lineTable_graphOk lineTable_positive (Or.inl ⟨rfl, rfl, rfl⟩) rfl⟩

end Routing

end P2pVn
