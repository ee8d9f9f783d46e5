import P2pVn.Routing.Relaxing
import P2pVn.Routing.Table

/-!
# `Routing.Computing` — `compute_paths` as a step

In which ways a call returns (`ComputeRun`), and what it has done (`computePaths_cases`): the table is
untouched; on success the matrices are those of the current link graph (`Computed`), on failure no usable matrix
is left. `Spends` counts the allocations that it made. And when a call returns (`computePaths_ok`).

The order of the steps is what matters: the rows of the old matrices are freed before anything is allocated, so
there is no way back. If the first reallocation fails, `rd->path` points to a table of freed rows while `m_ct`
goes on saying that they are there; if a later one fails, it points to a table that was moved away. `MatPtr` has
a value for each of these, and `NotLive` says that nothing can be read through the pointer. While there are no
matrices yet, a failure does no harm.
-/

namespace P2pVn
open CUb

namespace Routing

variable {env : ExtMem} {s s' : Routing} {L : HostId} {al : AllocScript}

/-! ## Allocations that succeed -/

/-- `n` allocations are made and succeed, which leaves `al'`. -/
def Spends (n : Nat) (al al' : AllocScript) : Prop := (∀ b ∈ al.take n, b = true) ∧ al' = al.drop n

theorem Spends.refl (al : AllocScript) : Spends 0 al al := ⟨by simp, rfl⟩

/-- The allocations of two steps, one after the other. -/
theorem Spends.trans {m n : Nat} {al1 al2 : AllocScript} (h1 : Spends m al al1) (h2 : Spends n al1 al2) :
    Spends (m + n) al al2 := by
  obtain ⟨hm, rfl⟩ := h1
  obtain ⟨hn, rfl⟩ := h2
  refine ⟨fun b hb => ?_, by rw [List.drop_drop]⟩
  rw [List.take_add, List.mem_append] at hb
  exact hb.elim (hm b) (hn b)

/-- A `malloc` that is granted takes one outcome off the script. -/
theorem takeAlloc_spends {al1 : AllocScript} : takeAlloc al = (true, al1) ↔ Spends 1 al al1 := by
  cases al with
  | nil => simp [takeAlloc, Spends, eq_comm]
  | cons b bs => simp [takeAlloc, Spends, eq_comm]

/-- The rows of both matrices take two allocations for each host. -/
theorem allocRows_spends : ∀ (n : Nat) {s s' : Routing}, allocRows n s = (none, s') →
    Spends (2 * n) s.allocs s'.allocs := by
  intro n
  induction n with
  | zero =>
      intro s s' h
      cases h
      exact Spends.refl _
  | succ n ih =>
      intro s s' h
      obtain ⟨⟨ok1, al1⟩, h1⟩ : ∃ x, takeAlloc s.allocs = x := ⟨_, rfl⟩
      obtain ⟨⟨ok2, al2⟩, h2⟩ : ∃ x, takeAlloc al1 = x := ⟨_, rfl⟩
      unfold allocRows malloc at h
      simp only [h1, h2] at h
      cases ok1 with
      | false => cases h
      | true =>
          cases ok2 with
          | false => cases h
          | true =>
              simp only [Bool.not_true, Bool.false_eq_true, if_false] at h
              have hrows := (takeAlloc_spends.mp h1).trans ((takeAlloc_spends.mp h2).trans (ih h))
              rwa [show 1 + (1 + 2 * n) = 2 * (n + 1) by omega] at hrows

/-! ## `compute_paths` -/

/-- The matrices of `s'` were computed from the table of `s`. -/
structure Computed (env : ExtMem) (s s' : Routing) where
  adj : Grid UInt32 s.hosts.ct
  setup : s.setupPaths env = .ok adj
  mCt : s'.mCt = s.hosts.ct
  path : s'.path = .live (Matrices.floydWarshall ⟨adj, Grid.const s.hosts.ct none⟩).path
  next : s'.next = .live (Matrices.floydWarshall ⟨adj, Grid.const s.hosts.ct none⟩).next

/-- There is no usable matrix. -/
def NotLive {α : Type} (p : MatPtr α) : Prop := ∀ n (g : Grid α n), p ≠ .live g

/-- A table that `realloc` has moved away has no rows that can be read. -/
theorem notLive_moved {α : Type} (p : MatPtr α) : NotLive p.moved := by
  cases p <;> exact fun _ _ => nofun

/-- Allocating the rows touches nothing else, and fails with a negative code. -/
theorem allocRows_frame : ∀ (n : Nat) {s s' : Routing} {o : Option Int}, allocRows n s = (o, s') →
    (s' = { s with allocs := s'.allocs }) ∧ ∀ r, o = some r → r < 0 := by
  intro n
  induction n with
  | zero =>
      intro s s' o h
      cases h
      exact ⟨rfl, nofun⟩
  | succ n ih =>
      intro s s' o h
      unfold allocRows malloc at h
      simp only at h
      split at h
      · cases h
        exact ⟨rfl, fun r hr => by cases hr; decide⟩
      · split at h
        · cases h
          exact ⟨rfl, fun r hr => by cases hr; decide⟩
        · obtain ⟨he, hr⟩ := ih h
          exact ⟨he, hr⟩

theorem allocRows_ok : ∀ (n : Nat) {s : Routing}, s.allocs = [] → allocRows n s = (none, s) := by
  intro n
  induction n with
  | zero => exact fun _ => rfl
  | succ n ih =>
      intro s hal
      have hmalloc : s.malloc = (true, s) := by
        unfold malloc
        rw [hal]
        simp only [takeAlloc]
        rw [← hal]
      simp only [allocRows, hmalloc, Bool.not_true, Bool.false_eq_true, if_false, ih hal]

/-- Freeing rows leaves the table of rows as it is while there are none. -/
theorem freeRows_cases {α : Type} {p p' : MatPtr α} {ct : Nat} (h : p.freeRows ct = .ok p') :
    (ct = 0 ∧ p' = p) ∨ (0 < ct ∧ p' = .rowsFreed) := by
  unfold MatPtr.freeRows at h
  split at h
  · rename_i h0
    cases h
    exact Or.inl ⟨h0, rfl⟩
  · rename_i h0
    split at h
    · split at h
      · cases h
        exact Or.inr ⟨Nat.pos_of_ne_zero h0, rfl⟩
      · cases h
    · cases h
    · cases h
    · cases h

/-- Every way in which `compute_paths` can return. The rows of the last call are freed first. -/
inductive ComputeRun (env : ExtMem) (s : Routing) : Int → Routing → Prop where
  | noPath {path next al} (hp : s.path.freeRows s.mCt = .ok path) (hn : s.next.freeRows s.mCt = .ok next)
      (h1 : takeAlloc s.allocs = (false, al)) :
      ComputeRun env s (-1) { s with allocs := al, path := path, next := next }
  | noNext {path next al1 al} (hp : s.path.freeRows s.mCt = .ok path) (hn : s.next.freeRows s.mCt = .ok next)
      (h1 : takeAlloc s.allocs = (true, al1)) (h2 : takeAlloc al1 = (false, al)) :
      ComputeRun env s (-2) { s with allocs := al, path := path.moved, next := next }
  | noRow {path next al1 al2 ret s1} (hp : s.path.freeRows s.mCt = .ok path)
      (hn : s.next.freeRows s.mCt = .ok next) (h1 : takeAlloc s.allocs = (true, al1))
      (h2 : takeAlloc al1 = (true, al2)) (hrows : allocRows s.hosts.ct { s with allocs := al2 } = (some ret, s1))
      (hret : ret < 0) :
      ComputeRun env s ret { s with allocs := s1.allocs, mCt := 0, path := path.moved, next := next.moved }
  | computed {al1 al2 s1 adj} (h1 : takeAlloc s.allocs = (true, al1)) (h2 : takeAlloc al1 = (true, al2))
      (hrows : allocRows s.hosts.ct { s with allocs := al2 } = (none, s1)) (hadj : s.setupPaths env = .ok adj) :
      ComputeRun env s 0 { s with
        allocs := s1.allocs
        mCt := s.hosts.ct
        path := .live (Matrices.floydWarshall ⟨adj, Grid.const s.hosts.ct none⟩).path
        next := .live (Matrices.floydWarshall ⟨adj, Grid.const s.hosts.ct none⟩).next }

/-- Inversion: a call that returns is one of the runs above. -/
theorem computePaths_run {ret : Int} (h : s.computePaths env = .ok (ret, s')) : ComputeRun env s ret s' := by
  unfold computePaths at h
  obtain ⟨path, hp, h⟩ := bind_eq_ok.mp h
  obtain ⟨next, hn, h⟩ := bind_eq_ok.mp h
  obtain ⟨_, -, h⟩ := bind_eq_ok.mp h
  obtain ⟨⟨ok1, al1⟩, h1⟩ : ∃ x, takeAlloc s.allocs = x := ⟨_, rfl⟩
  simp only [malloc, h1] at h
  cases ok1 with
  | false =>
      cases h
      exact .noPath hp hn h1
  | true =>
      simp only [Bool.not_true, Bool.false_eq_true, if_false] at h
      obtain ⟨_, -, h⟩ := bind_eq_ok.mp h
      obtain ⟨⟨ok2, al2⟩, h2⟩ : ∃ x, takeAlloc al1 = x := ⟨_, rfl⟩
      simp only [h2] at h
      cases ok2 with
      | false =>
          cases h
          exact .noNext hp hn h1 h2
      | true =>
          simp only [Bool.not_true, Bool.false_eq_true, if_false] at h
          split at h
          · rename_i r s1 hrows
            obtain ⟨he, hr⟩ := allocRows_frame _ hrows
            cases h
            -- of the table, the rows' allocations change the script only
            obtain ⟨hosts, localHost, mCt, path0, next0, edges, recs, allocs⟩ := s1
            cases he
            exact .noRow hp hn h1 h2 hrows (hr _ rfl)
          · rename_i s1 hrows
            obtain ⟨he, -⟩ := allocRows_frame _ hrows
            obtain ⟨adj, hadj, h⟩ := bind_eq_ok.mp h
            cases h
            obtain ⟨hosts, localHost, mCt, path0, next0, edges, recs, allocs⟩ := s1
            cases he
            exact .computed h1 h2 hrows hadj

/-- **What a call of `compute_paths` that returns has done.** -/
theorem computePaths_cases {ret : Int} (h : s.computePaths env = .ok (ret, s')) :
    Same s s' ∧ s'.edges = s.edges ∧
      ((ret < 0 ∧ (NotLive s.path ∨ 0 < s.mCt → NotLive s'.path)) ∨
        (ret = 0 ∧ Nonempty (Computed env s s'))) := by
  have hsame : ∀ (al : AllocScript) (mCt : Nat) (p : MatPtr UInt32) (n : MatPtr (Option Nat)),
      Same s { s with allocs := al, mCt := mCt, path := p, next := n } :=
    fun _ _ _ _ => ⟨rfl, rfl, fun _ => rfl, Nat.le_refl _⟩
  cases computePaths_run h with
  | noPath hp _ _ =>
      refine ⟨hsame _ _ _ _, rfl, Or.inl ⟨by decide, fun hpre => ?_⟩⟩
      rcases freeRows_cases hp with ⟨h0, rfl⟩ | ⟨-, rfl⟩
      · exact hpre.resolve_right (by omega)
      · exact fun _ _ => nofun
  | @noNext path _ _ _ _ _ _ _ => exact ⟨hsame _ _ _ _, rfl, Or.inl ⟨by decide, fun _ => notLive_moved path⟩⟩
  | @noRow path _ _ _ _ _ _ _ _ _ _ hret =>
      exact ⟨hsame _ _ _ _, rfl, Or.inl ⟨hret, fun _ => notLive_moved path⟩⟩
  | computed _ _ _ hadj => exact ⟨hsame _ _ _ _, rfl, Or.inr ⟨rfl, ⟨_, hadj, rfl, rfl, rfl⟩⟩⟩

/-- **A call of `compute_paths` that returns `0`** has made two allocations, and two for each host. -/
theorem computePaths_spends (h : s.computePaths env = .ok (0, s')) :
    Spends (2 * s.hosts.ct + 2) s.allocs s'.allocs := by
  have hrun := computePaths_run h
  generalize hret0 : (0 : Int) = ret0 at hrun
  cases hrun with
  | noPath => cases hret0
  | noNext => cases hret0
  | noRow _ _ _ _ _ hret => exact absurd hret0.symm (Int.ne_of_lt hret)
  | computed h1 h2 hrows _ =>
      have hspent := (takeAlloc_spends.mp h1).trans ((takeAlloc_spends.mp h2).trans (allocRows_spends _ hrows))
      rwa [show 1 + (1 + 2 * s.hosts.ct) = 2 * s.hosts.ct + 2 by omega] at hspent

/-- Without allocation failures a call that returns returns `0`. -/
theorem computePaths_nofail {ret : Int} (h : s.computePaths env = .ok (ret, s')) (hal : s.allocs = []) :
    ret = 0 ∧ s'.allocs = [] := by
  have hret : ret = 0 := by
    cases computePaths_run h with
    | noPath _ _ h1 =>
        rw [hal] at h1
        cases h1
    | noNext _ _ h1 h2 =>
        rw [hal] at h1
        cases h1
        cases h2
    | noRow _ _ h1 h2 hrows _ =>
        rw [hal] at h1
        cases h1
        cases h2
        rw [allocRows_ok _ rfl] at hrows
        cases hrows
    | computed => rfl
  subst hret
  exact ⟨rfl, by rw [(computePaths_spends h).2, hal, List.drop_nil]⟩

/-- The matrices are absent, or both there with `m_ct` rows. -/
def CacheReady (s : Routing) : Prop :=
  (s.mCt = 0 ∧ s.path = .null ∧ s.next = .null) ∨
    ∃ (g : Grid UInt32 s.mCt) (g' : Grid (Option Nat) s.mCt), s.path = .live g ∧ s.next = .live g'

/-- **Without allocation failures `compute_paths` returns `0`** whenever the set-up returns. -/
theorem computePaths_ok (hc : CacheReady s) (hal : s.allocs = []) {adj : Grid UInt32 s.hosts.ct}
    (hadj : s.setupPaths env = .ok adj) :
    ∃ s', s.computePaths env = .ok (0, s') ∧ s'.allocs = [] ∧ CacheReady s' := by
  -- whatever the old matrices are, they can be freed
  have hfree : ∃ p n, s.path.freeRows s.mCt = .ok p ∧ s.next.freeRows s.mCt = .ok n ∧
      p.checkTable = .ok () ∧ n.checkTable = .ok () := by
    rcases hc with ⟨h0, hp, hn⟩ | ⟨g, g', hp, hn⟩
    · refine ⟨.null, .null, ?_, ?_, rfl, rfl⟩
      · rw [hp, h0]; rfl
      · rw [hn, h0]; rfl
    · rw [hp, hn]
      by_cases h0 : s.mCt = 0
      · exact ⟨.live g, .live g', by simp [MatPtr.freeRows, h0], by simp [MatPtr.freeRows, h0], rfl, rfl⟩
      · exact ⟨.rowsFreed, .rowsFreed, by simp [MatPtr.freeRows, h0], by simp [MatPtr.freeRows, h0],
          rfl, rfl⟩
  obtain ⟨p, n, hp, hn, hcp, hcn⟩ := hfree
  obtain ⟨hosts, localHost, mCt, path0, next0, edges, recs, allocs⟩ := s
  cases hal
  refine ⟨⟨hosts, localHost, hosts.ct, .live (Matrices.floydWarshall ⟨adj, Grid.const hosts.ct none⟩).path,
    .live (Matrices.floydWarshall ⟨adj, Grid.const hosts.ct none⟩).next, edges, recs, []⟩, ?_, rfl,
    Or.inr ⟨_, _, rfl, rfl⟩⟩
  unfold computePaths
  simp only [hp, hn, hcp, hcn, ok_bind, malloc, takeAlloc, Bool.not_true, Bool.false_eq_true, if_false]
  rw [allocRows_ok _ rfl]
  simp only
  rw [show setupPaths env _ = Except.ok adj from hadj]
  rfl

end Routing

end P2pVn
