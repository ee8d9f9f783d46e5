import P2pVn.Routing.Paths
import P2pVn.Routing.Lookup

/-!
# `Routing.Adjacency` — the link graph of a table, and the matrix `compute_paths` starts from

The vertices are positions in `hosts`. A list of links may hold several to one destination; `Arc` is any of
them and `lastRtt` the last one listed, which is the one that ends up in the matrix.

- `setupPaths_ok`: on a sound graph the set-up returns the matrix `startAt`.
- `setupPaths_live`, `setupPaths_ne_zero`: what a set-up that returned says about any table.
-/

namespace P2pVn
open CUb

namespace Routing

variable {env : ExtMem} {s s' : Routing}

/-! ## The graph -/

/-- The links of the host at position `i`. -/
def linksAt (s : Routing) (i : Nat) : List RtLink :=
  match (s.hosts.items[i]?).bind s.recs.get with
  | some h => h.links.items
  | none => []

/-- `l` leads to the host at position `j`. -/
def LeadsTo (s : Routing) (j : Nat) (l : RtLink) : Prop := s.hosts.items[j]? = some l.dst

instance (s : Routing) (j : Nat) (l : RtLink) : Decidable (LeadsTo s j l) := by
  unfold LeadsTo; infer_instance

/-- There is a link of `rtt_us` `w` from position `i` to position `j`. -/
def Arc (s : Routing) (i j w : Nat) : Prop := ∃ l ∈ s.linksAt i, LeadsTo s j l ∧ l.rttUs.toNat = w

/-- The `rtt_us` of the last listed link from `i` to `j`. -/
def lastRtt (s : Routing) (i j : Nat) : Option UInt32 :=
  ((s.linksAt i).reverse.find? fun l => LeadsTo s j l).map RtLink.rttUs

/-- Position `i` has a link to position `j`. -/
def Linked (s : Routing) (i j : Nat) : Prop := ∃ w, Arc s i j w

/-- A table whose links all lead to other hosts of the table. -/
structure GraphOk (env : ExtMem) (s : Routing) : Prop extends HostsOk env s where
  dst : ∀ i l, l ∈ s.linksAt i → ∃ j, j ≠ i ∧ LeadsTo s j l

theorem linksAt_eq {i : Nat} {id : HostId} {h : RtHost} (hi : s.hosts.items[i]? = some id)
    (hg : s.recs.get id = some h) : s.linksAt i = h.links.items := by
  unfold linksAt
  rw [hi, Option.bind_some, hg]

theorem mem_linksAt {i : Nat} {l : RtLink} (hl : l ∈ s.linksAt i) :
    ∃ id h, s.hosts.items[i]? = some id ∧ s.recs.get id = some h ∧ l ∈ h.links.items := by
  unfold linksAt at hl
  split at hl
  · rename_i h hh
    obtain ⟨id, hid, hg⟩ := Option.bind_eq_some_iff.mp hh
    exact ⟨id, h, hid, hg, hl⟩
  · cases hl

theorem LeadsTo.lt {j : Nat} {l : RtLink} (h : LeadsTo s j l) : j < s.hosts.ct :=
  (List.getElem?_eq_some_iff.mp h).1

/-- Both ends of an arc are positions of the table. -/
theorem Arc.lt {i j w : Nat} (h : Arc s i j w) : i < s.hosts.ct ∧ j < s.hosts.ct := by
  obtain ⟨l, hl, hj, -⟩ := h
  obtain ⟨id, _, hi, -, -⟩ := mem_linksAt hl
  exact ⟨(List.getElem?_eq_some_iff.mp hi).1, hj.lt⟩

/-- The last listed link is a link. -/
theorem arc_of_lastRtt {i j : Nat} {w : UInt32} (h : s.lastRtt i j = some w) : Arc s i j w.toNat := by
  obtain ⟨l, hf, rfl⟩ := Option.map_eq_some_iff.mp h
  have hp := List.find?_some hf
  exact ⟨l, List.mem_reverse.mp (List.mem_of_find?_eq_some hf), by simpa using hp, rfl⟩

/-- Where there is a link, there is a last one. -/
theorem lastRtt_of_arc {i j w : Nat} (h : Arc s i j w) : ∃ w', s.lastRtt i j = some w' := by
  obtain ⟨l, hl, hj, -⟩ := h
  unfold lastRtt
  cases hf : (s.linksAt i).reverse.find? fun l => LeadsTo s j l with
  | none =>
      rw [List.find?_eq_none] at hf
      exact absurd (by simpa using hj) (hf l (List.mem_reverse.mpr hl))
  | some l' => exact ⟨l'.rttUs, rfl⟩

/-- Two positions are linked exactly if there is a last listed link. -/
theorem linked_iff {i j : Nat} : Linked s i j ↔ ∃ w, s.lastRtt i j = some w :=
  ⟨fun ⟨_, h⟩ => lastRtt_of_arc h, fun ⟨_, h⟩ => ⟨_, arc_of_lastRtt h⟩⟩

instance (s : Routing) (i j : Nat) : Decidable (Linked s i j) :=
  decidable_of_iff ((s.lastRtt i j).isSome = true) (by rw [linked_iff, Option.isSome_iff_exists])

namespace GraphOk

variable (hg : GraphOk env s)
include hg

/-- A link leads to one position. -/
theorem leadsTo_unique {j j' : Nat} {l : RtLink} (h : LeadsTo s j l) (h' : LeadsTo s j' l) : j = j' :=
  (List.getElem?_inj h.lt hg.toHostsOk.nodup).mp (h.trans h'.symm)

/-- No host has a link to itself. -/
theorem arc_ne {i j w : Nat} (h : Arc s i j w) : i ≠ j := by
  obtain ⟨l, hl, hj, -⟩ := h
  obtain ⟨j', hne, hj'⟩ := hg.dst i l hl
  rw [hg.leadsTo_unique hj hj']
  exact hne.symm

/-- No host has a link to itself. -/
theorem lastRtt_self (i : Nat) : s.lastRtt i i = none := by
  cases h : s.lastRtt i i with
  | none => rfl
  | some w => exact absurd rfl (hg.arc_ne (arc_of_lastRtt h))

end GraphOk

/-! ## The matrix that is set up -/

/-- Entry `(i, j)` of the adjacency matrix. -/
def startAt (s : Routing) (i j : Nat) : UInt32 :=
  match s.lastRtt i j with
  | some w => w
  | none => if i = j then pathMin else pathDiscon

/-- One assignment of the inner loop of the set-up. -/
def setupLink (env : ExtMem) (s : Routing) {n : Nat} (i : Nat) (g : Grid UInt32 n) (l : RtLink) :
    Ub (Grid UInt32 n) := do
  match ← s.findHostByAddr env (← s.macOf env l.dst) with
  | some dstI => pure (g.set i dstI l.rttUs)
  | none => .error .nullDeref

/-- A row is set up from the diagonal entry and then link by link. -/
theorem setupRow_eq {n : Nat} (g : Grid UInt32 n) {i : Nat} {id : HostId} {h : RtHost}
    (hi : s.hosts.items[i]? = some id) (hg : s.recs.get id = some h) :
    s.setupRow env g i = h.links.items.foldlM (setupLink env s i) (g.set i i pathMin) := by
  simp only [setupRow, itemAt_eq_ok.mpr hi, host_eq_ok.mpr hg, ok_bind]
  rfl

namespace GraphOk

variable (hg : GraphOk env s)
include hg

/-- The entry of a link is found by the destination's MAC; a later link to the same host overwrites it. -/
theorem setupLink_ok {n : Nat} (g : Grid UInt32 n) (i : Nat) {j : Nat} {l : RtLink} (hj : LeadsTo s j l) :
    setupLink env s i g l = .ok (g.set i j l.rttUs) := by
  obtain ⟨m, (hm : s.mac? env l.dst = some m)⟩ := hg.live l.dst (List.mem_of_getElem? hj)
  rw [setupLink, macOf_eq_ok.mpr hm, ok_bind, hg.toHostsOk.findHost_index hj hm]
  rfl

/-- The links of one host, assigned in the order of the list: the last one to a destination stays. -/
theorem setupLinks_ok {i : Nat} (hi : i < s.hosts.ct) : ∀ (ls : List RtLink) (g : Grid UInt32 s.hosts.ct),
    (∀ l ∈ ls, ∃ j, LeadsTo s j l) →
    ∃ g', ls.foldlM (setupLink env s i) g = .ok g' ∧ ∀ a b, a < s.hosts.ct → b < s.hosts.ct →
      g'.get a b = if a = i then ((ls.reverse.find? fun l => LeadsTo s b l).map RtLink.rttUs).getD (g.get i b)
        else g.get a b := by
  intro ls
  induction ls with
  | nil =>
      intro g _
      refine ⟨g, rfl, fun a b _ _ => ?_⟩
      split
      · rename_i he; rw [he]; rfl
      · rfl
  | cons l ls ih =>
      intro g hls
      obtain ⟨j, hj⟩ := hls l (by simp)
      obtain ⟨g', hg', hget⟩ := ih (g.set i j l.rttUs) (fun l' hl' => hls l' (by simp [hl']))
      refine ⟨g', ?_, fun a b ha hb => ?_⟩
      · rw [List.foldlM_cons, hg.setupLink_ok g i hj, ok_bind, hg']
      · rw [hget a b ha hb, List.reverse_cons, List.find?_append]
        by_cases hai : a = i
        · rw [if_pos hai, if_pos hai, Grid.get_set hi hj.lt]
          -- a later link to the same destination overwrites this one
          cases hf : ls.reverse.find? fun l => LeadsTo s b l with
          | some l' => simp
          | none =>
              by_cases hb' : b = j
              · subst hb'
                simp [hj]
              · have hnot : ¬ LeadsTo s b l := fun h => hb' (hg.leadsTo_unique h hj)
                simp [hb', hnot]
        · rw [if_neg hai, if_neg hai, Grid.get_set hi hj.lt, if_neg (fun h => hai h.1)]

/-- Progress: the row that is set up is the row of the adjacency matrix, and no other changes. -/
theorem setupRow_ok {i : Nat} (hi : i < s.hosts.ct) (g : Grid UInt32 s.hosts.ct)
    (hzero : ∀ b < s.hosts.ct, g.get i b = pathDiscon) :
    ∃ g', s.setupRow env g i = .ok g' ∧ ∀ a b, a < s.hosts.ct → b < s.hosts.ct →
      g'.get a b = if a = i then s.startAt i b else g.get a b := by
  obtain ⟨id, hid⟩ : ∃ id, s.hosts.items[i]? = some id := ⟨_, List.getElem?_eq_getElem hi⟩
  obtain ⟨h, hh⟩ := hg.toHostsOk.get id (List.mem_of_getElem? hid)
  have hlinks := linksAt_eq hid hh
  obtain ⟨g', hg', hget⟩ := hg.setupLinks_ok hi h.links.items (g.set i i pathMin) (fun l hl => by
    obtain ⟨j, -, hj⟩ := hg.dst i l (hlinks ▸ hl)
    exact ⟨j, hj⟩)
  refine ⟨g', (setupRow_eq g hid hh).trans hg', fun a b ha hb => ?_⟩
  rw [hget a b ha hb]
  by_cases hai : a = i
  · rw [if_pos hai, if_pos hai, startAt, lastRtt, hlinks]
    cases (h.links.items.reverse.find? fun l => LeadsTo s b l) with
    | some l => rfl
    | none =>
        rw [Option.map_none, Option.getD_none, Grid.get_set hi hi]
        by_cases hib : i = b
        · simp [hib]
        · simp [hib, Ne.symm hib, hzero b hb]
  · rw [if_neg hai, if_neg hai, Grid.get_set hi hi, if_neg (fun h => hai h.1)]

/-- **On a sound graph the set-up returns the adjacency matrix.** -/
theorem setupPaths_ok : ∃ g, s.setupPaths env = .ok g ∧ ∀ i j, i < s.hosts.ct → j < s.hosts.ct →
    g.get i j = s.startAt i j := by
  -- after `m` rows: those rows are set up, the others are still zero
  have hrun : ∀ m ≤ s.hosts.ct, ∃ g, (List.range m).foldlM (s.setupRow env)
      (Grid.const s.hosts.ct pathDiscon) = .ok g ∧ ∀ a b, a < s.hosts.ct → b < s.hosts.ct →
        g.get a b = if a < m then s.startAt a b else pathDiscon := by
    intro m
    induction m with
    | zero => exact fun _ => ⟨_, rfl, fun a b ha hb => Grid.get_const ha hb _⟩
    | succ m ih =>
        intro hm
        obtain ⟨g, hfold, hget⟩ := ih (by omega)
        obtain ⟨g', hrow, hget'⟩ := hg.setupRow_ok (show m < s.hosts.ct by omega) g
          (fun b hb => by rw [hget m b (by omega) hb, if_neg (by omega)])
        refine ⟨g', ?_, fun a b ha hb => ?_⟩
        · rw [List.range_succ, List.foldlM_append, hfold, ok_bind, List.foldlM_cons, hrow, ok_bind]
          rfl
        · rw [hget' a b ha hb]
          by_cases ham : a = m
          · subst ham
            rw [if_pos rfl, if_pos (by omega)]
          · rw [if_neg ham, hget a b ha hb]
            by_cases hlt : a < m
            · rw [if_pos hlt, if_pos (by omega)]
            · rw [if_neg hlt, if_neg (by omega)]
  obtain ⟨g, hfold, hget⟩ := hrun s.hosts.ct (Nat.le_refl _)
  exact ⟨g, hfold, fun i j hi hj => by rw [hget i j hi hj, if_pos hi]⟩

end GraphOk

/-! ## What a set-up that returned says -/

/-- Inversion: if a row is set up, its host and its links were there. -/
theorem setupRow_inv {n : Nat} {g g' : Grid UInt32 n} {i : Nat} (h : s.setupRow env g i = .ok g') :
    ∃ id r, s.hosts.items[i]? = some id ∧ s.recs.get id = some r ∧
      r.links.items.foldlM (setupLink env s i) (g.set i i pathMin) = .ok g' := by
  obtain ⟨id, hid, h⟩ := bind_eq_ok.mp h
  obtain ⟨r, hr, h⟩ := bind_eq_ok.mp h
  exact ⟨id, r, itemAt_eq_ok.mp hid, host_eq_ok.mp hr, h⟩

/-- Inversion of one link's entry. -/
theorem setupLink_inv {n : Nat} {g g' : Grid UInt32 n} {i : Nat} {l : RtLink}
    (h : setupLink env s i g l = .ok g') : ∃ j id m, s.hosts.items[j]? = some id ∧
      s.mac? env id = some m ∧ s.mac? env l.dst = some m ∧ g' = g.set i j l.rttUs := by
  obtain ⟨m, hm, h⟩ := bind_eq_ok.mp h
  obtain ⟨fd, hfd, h⟩ := bind_eq_ok.mp h
  cases fd with
  | none => cases h
  | some j =>
      cases h
      obtain ⟨id, hj, hmac⟩ := findHost_some hfd
      exact ⟨j, id, m, hj, hmac, macOf_eq_ok.mp hm, rfl⟩

/-- The inner loop reads the MAC of every link's destination. -/
theorem setupLinks_live {n i : Nat} : ∀ (ls : List RtLink) {g g' : Grid UInt32 n},
    ls.foldlM (setupLink env s i) g = .ok g' → MacLive env s RtLink.dst ls := by
  intro ls
  induction ls with
  | nil => exact fun _ => nofun
  | cons l ls ih =>
      intro g g' h l' hl'
      rw [List.foldlM_cons] at h
      obtain ⟨g1, h1, h⟩ := bind_eq_ok.mp h
      rcases List.mem_cons.mp hl' with rfl | hl'
      · obtain ⟨_, _, m, -, -, hm, -⟩ := setupLink_inv h1
        exact ⟨m, hm⟩
      · exact ih h l' hl'

/-- **A set-up that returned has read every host and the MAC of every link's destination.** -/
theorem setupPaths_live {g : Grid UInt32 s.hosts.ct} (h : s.setupPaths env = .ok g) :
    ∀ id ∈ s.hosts.items, ∃ r, s.recs.get id = some r ∧ MacLive env s RtLink.dst r.links.items := by
  have hrows : ∀ (is : List Nat) {g g' : Grid UInt32 s.hosts.ct},
      is.foldlM (s.setupRow env) g = .ok g' → ∀ i ∈ is, ∃ id r, s.hosts.items[i]? = some id ∧
        s.recs.get id = some r ∧ MacLive env s RtLink.dst r.links.items := by
    intro is
    induction is with
    | nil => exact fun _ => nofun
    | cons i is ih =>
        intro g g' h j hj
        rw [List.foldlM_cons] at h
        obtain ⟨g1, h1, h⟩ := bind_eq_ok.mp h
        rcases List.mem_cons.mp hj with rfl | hj
        · obtain ⟨id, r, hid, hr, hl⟩ := setupRow_inv h1
          exact ⟨id, r, hid, hr, setupLinks_live _ hl⟩
        · exact ih h j hj
  intro id hid
  obtain ⟨i, hi⟩ := List.getElem?_of_mem hid
  obtain ⟨id', r, hid', hr, hl⟩ := hrows _ h i (by
    rw [List.mem_range]; exact (List.getElem?_eq_some_iff.mp hi).1)
  rw [hi] at hid'
  cases hid'
  exact ⟨r, hr, hl⟩

/-- Position `b` has the MAC that a link of position `a` leads to. -/
def MacLinked (env : ExtMem) (s : Routing) (a b : Nat) : Prop :=
  ∃ l ∈ s.linksAt a, ∃ id m, s.hosts.items[b]? = some id ∧ s.mac? env id = some m ∧ s.mac? env l.dst = some m

/-- Off the diagonal there are entries for links only. -/
def OnlyLinkEntries (env : ExtMem) (s : Routing) (g : Grid UInt32 s.hosts.ct) : Prop :=
  ∀ a b, a < s.hosts.ct → b < s.hosts.ct → g.get a b ≠ pathDiscon → a = b ∨ MacLinked env s a b

/-- **An entry that is not zero has a reason**: it is on the diagonal, or there is a link. -/
theorem setupPaths_ne_zero {g : Grid UInt32 s.hosts.ct} (h : s.setupPaths env = .ok g) {a b : Nat}
    (ha : a < s.hosts.ct) (hb : b < s.hosts.ct) (hne : g.get a b ≠ pathDiscon) :
    a = b ∨ MacLinked env s a b := by
  have hrow : ∀ i ∈ List.range s.hosts.ct, ∀ g g', OnlyLinkEntries env s g → s.setupRow env g i = .ok g' →
      OnlyLinkEntries env s g' := by
    intro i hi g g' hg hr
    rw [List.mem_range] at hi
    obtain ⟨id, r, hid, hget, hfold⟩ := setupRow_inv hr
    have hlinks := linksAt_eq hid hget
    -- a row sets its diagonal entry, and then one for each link
    refine foldlM_inv (OnlyLinkEntries env s) r.links.items hfold ?_ ?_
    · intro a b ha hb hne
      rw [Grid.get_set hi hi] at hne
      split at hne
      · rename_i hab
        exact Or.inl (hab.1.trans hab.2.symm)
      · exact hg a b ha hb hne
    · intro l hl g1 g2 hg1 h2 a b ha hb hne
      obtain ⟨j, id', m, hj, hm, hml, rfl⟩ := setupLink_inv h2
      rw [Grid.get_set hi (List.getElem?_eq_some_iff.mp hj).1] at hne
      split at hne
      · rename_i hab
        obtain ⟨rfl, rfl⟩ := hab
        exact Or.inr ⟨l, hlinks ▸ hl, id', m, hj, hm, hml⟩
      · exact hg1 a b ha hb hne
  refine foldlM_inv (OnlyLinkEntries env s) (List.range s.hosts.ct) h ?_ hrow a b ha hb hne
  intro a b ha hb hne
  exact absurd (Grid.get_const ha hb pathDiscon) hne

/-- **A diagonal entry is `PATH_MIN`**, unless a host has a link to its own MAC. -/
theorem setupPaths_diag {g : Grid UInt32 s.hosts.ct} (h : s.setupPaths env = .ok g) {a : Nat}
    (ha : a < s.hosts.ct) (hself : ¬ MacLinked env s a a) : g.get a a = pathMin := by
  -- row `a` writes the entry, and nothing overwrites it
  have hrow : ∀ {i : Nat} {g g' : Grid UInt32 s.hosts.ct}, i < s.hosts.ct → s.setupRow env g i = .ok g' →
      (i = a ∨ g.get a a = pathMin) → g'.get a a = pathMin := by
    intro i g g' hi hr hor
    obtain ⟨id, r, hid, hget, hfold⟩ := setupRow_inv hr
    have hlinks := linksAt_eq hid hget
    refine foldlM_inv (fun g : Grid UInt32 s.hosts.ct => g.get a a = pathMin) r.links.items hfold ?_ ?_
    · rw [Grid.get_set hi hi]
      split
      · rfl
      · rename_i hne
        exact hor.resolve_left fun he => hne ⟨he.symm, he.symm⟩
    · intro l hl g1 g2 hg1 h2
      obtain ⟨j, id', m, hj, hm, hml, rfl⟩ := setupLink_inv h2
      rw [Grid.get_set hi (List.getElem?_eq_some_iff.mp hj).1, if_neg]
      · exact hg1
      · rintro ⟨rfl, rfl⟩
        exact hself ⟨l, hlinks ▸ hl, id', m, hj, hm, hml⟩
  have hrows : ∀ (is : List Nat) {g g' : Grid UInt32 s.hosts.ct}, (∀ i ∈ is, i < s.hosts.ct) →
      is.foldlM (s.setupRow env) g = .ok g' → (a ∈ is ∨ g.get a a = pathMin) → g'.get a a = pathMin := by
    intro is
    induction is with
    | nil =>
        intro g g' _ h hor
        cases h
        exact hor.resolve_left nofun
    | cons i is ih =>
        intro g g' hlt h hor
        rw [List.foldlM_cons] at h
        obtain ⟨g1, h1, h⟩ := bind_eq_ok.mp h
        refine ih (fun j hj => hlt j (by simp [hj])) h ?_
        by_cases hmem : a ∈ is
        · exact Or.inl hmem
        · right
          refine hrow (hlt i (by simp)) h1 (hor.imp_left fun hin => ?_)
          exact ((List.mem_cons.mp hin).resolve_right hmem).symm
  exact hrows _ (fun i hi => List.mem_range.mp hi) h (Or.inl (List.mem_range.mpr ha))

end Routing

end P2pVn
