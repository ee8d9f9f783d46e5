import Mathlib.Data.List.Induction
import Mathlib.Logic.Function.Basic
import Mathlib.Order.Lattice

/-!
# `Lib.GroupedMerge` — merging a sorted stream of edges, group by group

A table knows for each key the links that were last announced for it and the newest time stamp among them. A
stream of edges, sorted by their source, is merged into it in one pass: the first edge of a source's group
decides whether the whole group is taken (`step`), and keys that only occur as destinations get an empty entry.

`merge_outcome` says what the pass makes of the table, key by key (`Outcome`): which groups were taken, and
what every entry is then. The pass carries three pieces of state; none of them is left in the statement.
-/

namespace GroupedMerge

/-- What is read of an edge. -/
structure Stream (κ α β : Type) where
  src : α → κ
  dst : α → κ
  ts : α → ℕ
  link : α → β

/-- What a table knows of a key; a `fixed` entry is never merged into. -/
structure Entry (β : Type) where
  fixed : Bool
  newest : ℕ
  links : List β

/-- An entry without history. -/
def Entry.empty {β : Type} : Entry β := ⟨false, 0, []⟩

/-- The table, the source that is being merged or skipped, and which of the two. -/
structure State (κ β : Type) where
  tab : κ → Option (Entry β)
  cur : Option κ
  skip : Bool

variable {κ α β : Type} [DecidableEq κ] (S : Stream κ α β)

/-- Append the edge to the entry of its source, after making one for its destination where there is none. -/
def addLink (tab : κ → Option (Entry β)) (e : α) : κ → Option (Entry β) :=
  let tab := if (tab (S.dst e)).isNone then Function.update tab (S.dst e) (some .empty) else tab
  Function.update tab (S.src e)
    ((tab (S.src e)).map fun r => ⟨r.fixed, max r.newest (S.ts e), r.links ++ [S.link e]⟩)

/-- One edge. -/
def step (st : State κ β) (e : α) : State κ β :=
  if S.src e = S.dst e then st
  else if st.cur = some (S.src e) then
    if st.skip then st else { st with tab := addLink S st.tab e }
  else match st.tab (S.src e) with
    | none => ⟨addLink S (Function.update st.tab (S.src e) (some .empty)) e, some (S.src e), false⟩
    | some r =>
      if r.fixed = false ∧ r.newest < S.ts e then
        ⟨addLink S (Function.update st.tab (S.src e) (some { r with links := [] })) e, some (S.src e), false⟩
      else ⟨st.tab, some (S.src e), true⟩

/-- The edges of source `x` that lead to another key. -/
def group (es : List α) (x : κ) : List α := es.filter fun e => S.src e = x ∧ S.dst e ≠ x

/-- The newest time stamp of the edges, and `n`. -/
def newestOf (n : ℕ) (g : List α) : ℕ := g.foldl (fun n e => max n (S.ts e)) n

/-- Some group that was taken has an edge to `x`. -/
def Named (es : List α) (acc : κ → Prop) (x : κ) : Prop := ∃ y, acc y ∧ ∃ e ∈ group S es y, S.dst e = x

/-- The same for the groups before that of `x`. -/
def NamedBefore (lt : κ → κ → Prop) (es : List α) (acc : κ → Prop) (x : κ) : Prop :=
  ∃ y, lt y x ∧ acc y ∧ ∃ e ∈ group S es y, S.dst e = x

/-- What merging `es` makes of the table `tab0`, when the groups of the sources in `acc` are taken. -/
structure Outcome (lt : κ → κ → Prop) (tab0 : κ → Option (Entry β)) (es : List α) (acc : κ → Prop)
    (tab : κ → Option (Entry β)) : Prop where
  /-- Only groups that there are are taken. -/
  sub : ∀ x, acc x → group S es x ≠ []
  /-- An entry whose group is taken has exactly the group's links. -/
  taken : ∀ x r, tab0 x = some r → acc x →
    tab x = some ⟨r.fixed, newestOf S r.newest (group S es x), (group S es x).map S.link⟩
  /-- Any other entry is as it was. -/
  kept : ∀ x r, tab0 x = some r → ¬ acc x → tab x = some r
  /-- A new entry whose group is taken has exactly the group's links. -/
  made : ∀ x, tab0 x = none → acc x →
    tab x = some ⟨false, newestOf S 0 (group S es x), (group S es x).map S.link⟩
  /-- A key that is only named gets an empty entry. -/
  named : ∀ x, tab0 x = none → ¬ acc x → Named S es acc x → tab x = some .empty
  /-- There are no other entries. -/
  absent : ∀ x, tab0 x = none → ¬ acc x → ¬ Named S es acc x → tab x = none
  /-- The first edge of a group decides by its time stamp, if there was an entry. -/
  decided : ∀ x r f, tab0 x = some r → (group S es x).head? = some f →
    (acc x ↔ r.fixed = false ∧ r.newest < S.ts f)
  /-- A new source is refused only if it was named before and its first edge has time stamp `0`. -/
  welcome : ∀ x f, tab0 x = none → (group S es x).head? = some f →
    (acc x ↔ 0 < S.ts f ∨ ¬ NamedBefore S lt es acc x)

/-! ## Groups -/

variable {S} {lt : κ → κ → Prop} {es : List α} {e : α} {x y : κ} {acc : κ → Prop}
  {tab tab0 : κ → Option (Entry β)}

theorem mem_group {a : α} : a ∈ group S es x ↔ a ∈ es ∧ S.src a = x ∧ S.dst a ≠ x := by
  simp [group]

theorem group_snoc : group S (es ++ [e]) x = group S es x ++ if S.src e = x ∧ S.dst e ≠ x then [e] else [] := by
  unfold group
  rw [List.filter_append, List.filter_cons, List.filter_nil]
  simp only [decide_eq_true_eq]

theorem group_snoc_other (h : S.src e ≠ x) : group S (es ++ [e]) x = group S es x := by
  rw [group_snoc, if_neg (fun hc => h hc.1), List.append_nil]

theorem group_snoc_self (h : S.src e = S.dst e) : group S (es ++ [e]) x = group S es x := by
  rw [group_snoc, if_neg, List.append_nil]
  rintro ⟨rfl, hne⟩
  exact hne h.symm

theorem group_snoc_src (h : S.src e ≠ S.dst e) : group S (es ++ [e]) (S.src e) = group S es (S.src e) ++ [e] := by
  rw [group_snoc, if_pos ⟨rfl, fun he => h he.symm⟩]

omit [DecidableEq κ] in
theorem head?_append_of_ne_nil {l : List α} (h : l ≠ []) (l' : List α) : (l ++ l').head? = l.head? := by
  cases l with
  | nil => exact absurd rfl h
  | cons a l => rfl

omit [DecidableEq κ] in
@[simp] theorem newestOf_snoc (n : ℕ) (g : List α) : newestOf S n (g ++ [e]) = max (newestOf S n g) (S.ts e) := by
  simp [newestOf]

omit [DecidableEq κ] in
theorem newestOf_le {n k : ℕ} {g : List α} : newestOf S n g ≤ k ↔ n ≤ k ∧ ∀ e ∈ g, S.ts e ≤ k := by
  induction g using List.reverseRecOn with
  | nil => simp [newestOf]
  | append_singleton g e ih =>
      rw [newestOf_snoc, Nat.max_le, ih]
      simp only [List.mem_append, List.mem_singleton, and_assoc]
      refine and_congr_right fun _ => ⟨?_, fun h => ⟨fun a ha => h a (Or.inl ha), h e (Or.inr rfl)⟩⟩
      rintro ⟨hg, he⟩ a (ha | rfl)
      · exact hg a ha
      · exact he

omit [DecidableEq κ] in
theorem le_newestOf {n : ℕ} {g : List α} {a : α} (h : a ∈ g) : S.ts a ≤ newestOf S n g :=
  (newestOf_le.mp (Nat.le_refl _)).2 a h

omit [DecidableEq κ] in
/-- The newest time stamp does not depend on the order. -/
theorem newestOf_perm {n : ℕ} {g g' : List α} (h : g.Perm g') : newestOf S n g = newestOf S n g' := by
  refine Nat.le_antisymm (newestOf_le.mpr ?_) (newestOf_le.mpr ?_)
  · obtain ⟨hn, hg⟩ := newestOf_le.mp (Nat.le_refl (newestOf S n g'))
    exact ⟨hn, fun e he => hg e (h.mem_iff.mp he)⟩
  · obtain ⟨hn, hg⟩ := newestOf_le.mp (Nat.le_refl (newestOf S n g))
    exact ⟨hn, fun e he => hg e (h.mem_iff.mpr he)⟩

omit [DecidableEq κ] in
/-- Where the edges are newer than `n`, the newest of the edges and `n` is the newest of the edges. -/
theorem newestOf_of_le {n : ℕ} {g : List α} (h : n ≤ newestOf S 0 g) : newestOf S n g = newestOf S 0 g := by
  refine Nat.le_antisymm (newestOf_le.mpr ⟨h, fun e he => le_newestOf he⟩) ?_
  exact newestOf_le.mpr ⟨Nat.zero_le _, fun e he => le_newestOf he⟩

/-- The first edge of a group that there was already is what it was. -/
theorem head?_group_snoc (hne : S.src e ≠ S.dst e) {f : α} (hf : (group S (es ++ [e]) x).head? = some f) :
    (group S es x).head? = some f ∨ (x = S.src e ∧ group S es x = [] ∧ f = e) := by
  by_cases hxs : x = S.src e
  · subst hxs
    rw [group_snoc_src hne] at hf
    by_cases hnil : group S es (S.src e) = []
    · rw [hnil] at hf
      cases hf
      exact Or.inr ⟨rfl, hnil, rfl⟩
    · rw [head?_append_of_ne_nil hnil] at hf
      exact Or.inl hf
  · rw [group_snoc_other (Ne.symm hxs)] at hf
    exact Or.inl hf

theorem group_ne_nil {f : α} (hf : (group S es x).head? = some f) : group S es x ≠ [] := by
  intro hnil
  rw [hnil] at hf
  cases hf

/-- Nor do the members of a group. -/
theorem group_perm {es' : List α} (h : es.Perm es') : (group S es x).Perm (group S es' x) := h.filter _

/-! ## The cases of a step -/

section Steps

variable {st : State κ β}

/-- The cases of the step: an edge from a node to itself is left out, -/
theorem step_doubledBack (h : S.src e = S.dst e) : step S st e = st := by
  rw [step, if_pos h]

/-- so is one of a group that was rejected, -/
theorem step_skipped (hc : st.cur = some (S.src e)) (hskip : st.skip = true) : step S st e = st := by
  rw [step, if_pos hc, if_pos hskip]
  exact ite_self st

/-- one of the group at hand adds its link, -/
theorem step_current (hne : S.src e ≠ S.dst e) (hc : st.cur = some (S.src e)) (hskip : st.skip = false) :
    step S st e = ⟨addLink S st.tab e, some (S.src e), false⟩ := by
  rw [step, if_neg hne, if_pos hc, if_neg (by rw [hskip]; exact nofun), hc, hskip]

/-- an unknown source is made, -/
theorem step_created (hne : S.src e ≠ S.dst e) (hc : st.cur ≠ some (S.src e)) (h : st.tab (S.src e) = none) :
    step S st e =
      ⟨addLink S (Function.update st.tab (S.src e) (some .empty)) e, some (S.src e), false⟩ := by
  rw [step, if_neg hne, if_neg hc, h]

/-- a known source that is older loses its links, -/
theorem step_wiped {r : Entry β} (hne : S.src e ≠ S.dst e) (hc : st.cur ≠ some (S.src e))
    (h : st.tab (S.src e) = some r) (hnew : r.fixed = false ∧ r.newest < S.ts e) : step S st e =
      ⟨addLink S (Function.update st.tab (S.src e) (some { r with links := [] })) e, some (S.src e), false⟩ := by
  rw [step, if_neg hne, if_neg hc, h]
  exact if_pos hnew

/-- and any other source has its group rejected. -/
theorem step_rejected {r : Entry β} (hne : S.src e ≠ S.dst e) (hc : st.cur ≠ some (S.src e))
    (h : st.tab (S.src e) = some r) (hold : ¬ (r.fixed = false ∧ r.newest < S.ts e)) :
    step S st e = ⟨st.tab, some (S.src e), true⟩ := by
  rw [step, if_neg hne, if_neg hc, h]
  exact if_neg hold

end Steps

/-! ## Adding a link -/

theorem addLink_src {r : Entry β} (hne : S.src e ≠ S.dst e) (h : tab (S.src e) = some r) :
    addLink S tab e (S.src e) = some ⟨r.fixed, max r.newest (S.ts e), r.links ++ [S.link e]⟩ := by
  unfold addLink
  simp only [Function.update_self]
  split
  · rw [Function.update_of_ne hne, h]
    rfl
  · rw [h]
    rfl

/-- Another entry changes only if it is the destination's and was not there. -/
theorem addLink_other (hx : x ≠ S.src e) : addLink S tab e x =
    if x = S.dst e ∧ tab x = none then some .empty else tab x := by
  unfold addLink
  simp only [Function.update_of_ne hx]
  by_cases hd : x = S.dst e
  · subst hd
    cases h : tab (S.dst e) with
    | none => simp
    | some r => simp [h]
  · split
    · rw [Function.update_of_ne hd, if_neg (fun hc => hd hc.1)]
    · rw [if_neg (fun hc => hd hc.1)]

/-! ## Taking and refusing an edge -/

/-- The sources of the groups so far are `x` and keys before it. -/
def UpTo (S : Stream κ α β) (lt : κ → κ → Prop) (es : List α) (x : κ) : Prop :=
  ∀ z, group S es z ≠ [] → z = x ∨ lt z x

theorem namedBefore_iff_named (hsub : ∀ z, acc z → group S es z ≠ []) (hup : UpTo S lt es x)
    (hnil : group S es x = []) : NamedBefore S lt es acc x ↔ Named S es acc x := by
  constructor
  · rintro ⟨y, -, hy, hrest⟩
    exact ⟨y, hy, hrest⟩
  · rintro ⟨y, hy, hrest⟩
    refine ⟨y, (hup y (hsub y hy)).resolve_left ?_, hy, hrest⟩
    rintro rfl
    exact hsub y hy hnil

/-- The sources taken, with that of `e`. -/
def With (acc : κ → Prop) (x : κ) (z : κ) : Prop := acc z ∨ z = x

omit [DecidableEq κ] in
theorem with_other (h : y ≠ x) : With acc x y ↔ acc y := ⟨fun hy => hy.resolve_right h, Or.inl⟩

theorem named_take (hne : S.src e ≠ S.dst e) (h : acc (S.src e) ∨ group S es (S.src e) = []) :
    Named S (es ++ [e]) (With acc (S.src e)) x ↔ Named S es acc x ∨ x = S.dst e := by
  constructor
  · rintro ⟨y, hy, a, ha, rfl⟩
    by_cases hys : y = S.src e
    · subst hys
      rw [group_snoc_src hne, List.mem_append, List.mem_singleton] at ha
      rcases ha with ha | rfl
      · refine Or.inl ⟨_, h.resolve_right (fun h0 => ?_), a, ha, rfl⟩
        rw [h0] at ha
        cases ha
      · exact Or.inr rfl
    · rw [group_snoc_other (Ne.symm hys)] at ha
      exact Or.inl ⟨y, (with_other hys).mp hy, a, ha, rfl⟩
  · rintro (⟨y, hy, a, ha, rfl⟩ | rfl)
    · refine ⟨y, Or.inl hy, a, ?_, rfl⟩
      rw [group_snoc]
      exact List.mem_append_left _ ha
    · exact ⟨_, Or.inr rfl, e, by rw [group_snoc_src hne]; simp, rfl⟩

theorem namedBefore_take (hasymm : ∀ a b, lt a b → ¬ lt b a) (hx : x = S.src e ∨ lt x (S.src e)) :
    NamedBefore S lt (es ++ [e]) (With acc (S.src e)) x ↔ NamedBefore S lt es acc x := by
  have hys : ∀ y, lt y x → y ≠ S.src e := by
    rintro y hlt rfl
    rcases hx with rfl | hx
    · exact hasymm _ _ hlt hlt
    · exact hasymm _ _ hlt hx
  constructor
  · rintro ⟨y, hlt, hy, a, ha, rfl⟩
    rw [group_snoc_other (hys y hlt).symm] at ha
    exact ⟨y, hlt, (with_other (hys y hlt)).mp hy, a, ha, rfl⟩
  · rintro ⟨y, hlt, hy, a, ha, rfl⟩
    refine ⟨y, hlt, Or.inl hy, a, ?_, rfl⟩
    rw [group_snoc_other (hys y hlt).symm]
    exact ha

/-- The entry of a source that is being merged, after the edges `g`. -/
def entryAfter (S : Stream κ α β) (o : Option (Entry β)) (g : List α) : Entry β :=
  match o with
  | some r => ⟨r.fixed, newestOf S r.newest g, g.map S.link⟩
  | none => ⟨false, newestOf S 0 g, g.map S.link⟩

omit [DecidableEq κ] in
theorem entryAfter_snoc (o : Option (Entry β)) (g : List α) : entryAfter S o (g ++ [e]) =
    ⟨(entryAfter S o g).fixed, max (entryAfter S o g).newest (S.ts e), (entryAfter S o g).links ++ [S.link e]⟩ := by
  cases o <;> simp [entryAfter]

namespace Outcome

/-- A group that was taken. -/
theorem entry (h : Outcome S lt tab0 es acc tab) (hx : acc x) :
    tab x = some (entryAfter S (tab0 x) (group S es x)) := by
  cases h0 : tab0 x with
  | none => exact h.made x h0 hx
  | some r => exact h.taken x r h0 hx

/-- **Taking an edge**: of a group that is being taken, or as the first of a group that is to be. -/
theorem take (h : Outcome S lt tab0 es acc tab) (hasymm : ∀ a b, lt a b → ¬ lt b a) (hne : S.src e ≠ S.dst e)
    (hup : UpTo S lt es (S.src e)) {tab1 : κ → Option (Entry β)} (hother : ∀ z, z ≠ S.src e → tab1 z = tab z)
    (hself : tab1 (S.src e) = some (entryAfter S (tab0 (S.src e)) (group S es (S.src e))))
    (hdec : acc (S.src e) ∨ (group S es (S.src e) = [] ∧
      (∀ r, tab0 (S.src e) = some r → r.fixed = false ∧ r.newest < S.ts e) ∧
      (tab0 (S.src e) = none → 0 < S.ts e ∨ ¬ Named S es acc (S.src e)))) :
    Outcome S lt tab0 (es ++ [e]) (With acc (S.src e)) (addLink S tab1 e) := by
  have hold : ∀ z r, z ≠ S.src e → tab z = some r → addLink S tab1 e z = some r := by
    intro z r hz hr
    rw [addLink_other hz, hother z hz, hr, if_neg (fun hc => nomatch hc.2)]
  have hentry : ∀ z, With acc (S.src e) z →
      addLink S tab1 e z = some (entryAfter S (tab0 z) (group S (es ++ [e]) z)) := by
    intro z hz
    by_cases hzs : z = S.src e
    · subst hzs
      rw [addLink_src hne hself, group_snoc_src hne, entryAfter_snoc]
    · rw [group_snoc_other (Ne.symm hzs)]
      exact hold z _ hzs (h.entry ((with_other hzs).mp hz))
  -- of the groups that there were, the same ones are taken
  have hwith : ∀ z, group S es z ≠ [] → (With acc (S.src e) z ↔ acc z) := by
    intro z hz
    by_cases hzs : z = S.src e
    · subst hzs
      exact iff_of_true (Or.inr rfl) (hdec.resolve_right fun hc => hz hc.1)
    · exact with_other hzs
  have hnamed : ∀ z, Named S (es ++ [e]) (With acc (S.src e)) z ↔ Named S es acc z ∨ z = S.dst e :=
    fun z => named_take hne (hdec.imp_right And.left)
  have hfirst : group S es (S.src e) = [] → _ := fun hnil => hdec.resolve_left fun hacc => h.sub _ hacc hnil
  refine ⟨?_, ?_, ?_, ?_, ?_, ?_, ?_, ?_⟩
  · intro z hz hnil
    rw [group_snoc, List.append_eq_nil_iff] at hnil
    rcases hz with hz | rfl
    · exact h.sub z hz hnil.1
    · rw [if_pos ⟨rfl, fun he => hne he.symm⟩] at hnil
      exact absurd hnil.2 (List.cons_ne_nil _ _)
  · intro z r h0 hz
    rw [hentry z hz, h0]
    rfl
  · intro z r h0 hz
    exact hold z r (fun hzs => hz (Or.inr hzs)) (h.kept z r h0 fun hacc => hz (Or.inl hacc))
  · intro z h0 hz
    rw [hentry z hz, h0]
    rfl
  · intro z h0 hz hnz
    have hzs : z ≠ S.src e := fun hzs => hz (Or.inr hzs)
    have hacc : ¬ acc z := fun hacc => hz (Or.inl hacc)
    by_cases hn : Named S es acc z
    · exact hold z _ hzs (h.named z h0 hacc hn)
    · have hzd := ((hnamed z).mp hnz).resolve_left hn
      rw [addLink_other hzs, hother z hzs, h.absent z h0 hacc hn, if_pos ⟨hzd, rfl⟩]
  · intro z h0 hz hnz
    have hzs : z ≠ S.src e := fun hzs => hz (Or.inr hzs)
    have hacc : ¬ acc z := fun hacc => hz (Or.inl hacc)
    rw [hnamed, not_or] at hnz
    rw [addLink_other hzs, hother z hzs, h.absent z h0 hacc hnz.1, if_neg (fun hc => hnz.2 hc.1)]
  · intro z r f h0 hf
    rcases head?_group_snoc hne hf with hf | ⟨rfl, hnil, rfl⟩
    · rw [hwith z (group_ne_nil hf)]
      exact h.decided z r f h0 hf
    · exact iff_of_true (Or.inr rfl) ((hfirst hnil).2.1 r h0)
  · intro z f h0 hf
    rcases head?_group_snoc hne hf with hf | ⟨rfl, hnil, rfl⟩
    · rw [hwith z (group_ne_nil hf), namedBefore_take hasymm (hup z (group_ne_nil hf))]
      exact h.welcome z f h0 hf
    · rw [namedBefore_take hasymm (Or.inl rfl), namedBefore_iff_named h.sub hup hnil]
      exact iff_of_true (Or.inr rfl) ((hfirst hnil).2.2 h0)

/-- **Refusing an edge**: of a group that is being skipped, or as the first of a group that is to be. -/
theorem refuse (h : Outcome S lt tab0 es acc tab) (hne : S.src e ≠ S.dst e) (hup : UpTo S lt es (S.src e))
    (hacc : ¬ acc (S.src e)) (hdec : group S es (S.src e) ≠ [] ∨
      ((∀ r, tab0 (S.src e) = some r → ¬ (r.fixed = false ∧ r.newest < S.ts e)) ∧
        (tab0 (S.src e) = none → ¬ 0 < S.ts e ∧ Named S es acc (S.src e)))) :
    Outcome S lt tab0 (es ++ [e]) acc tab := by
  -- the groups that are taken do not get the edge
  have hgroup : ∀ z, acc z → group S (es ++ [e]) z = group S es z := by
    intro z hz
    refine group_snoc_other ?_
    rintro rfl
    exact hacc hz
  have hnamed : ∀ z, Named S (es ++ [e]) acc z ↔ Named S es acc z := by
    intro z
    refine exists_congr fun y => and_congr_right fun hy => ?_
    rw [hgroup y hy]
  have hbefore : ∀ z, NamedBefore S lt (es ++ [e]) acc z ↔ NamedBefore S lt es acc z := by
    intro z
    refine exists_congr fun y => and_congr_right fun _ => and_congr_right fun hy => ?_
    rw [hgroup y hy]
  refine ⟨?_, ?_, h.kept, ?_, ?_, ?_, ?_, ?_⟩
  · intro z hz
    rw [hgroup z hz]
    exact h.sub z hz
  · intro z r h0 hz
    rw [hgroup z hz]
    exact h.taken z r h0 hz
  · intro z h0 hz
    rw [hgroup z hz]
    exact h.made z h0 hz
  · intro z h0 hz hn
    exact h.named z h0 hz ((hnamed z).mp hn)
  · intro z h0 hz hn
    exact h.absent z h0 hz (mt (hnamed z).mpr hn)
  · intro z r f h0 hf
    rcases head?_group_snoc hne hf with hf | ⟨rfl, hnil, rfl⟩
    · exact h.decided z r f h0 hf
    · exact iff_of_false hacc ((hdec.resolve_left (fun hc => hc hnil)).1 r h0)
  · intro z f h0 hf
    rw [hbefore]
    rcases head?_group_snoc hne hf with hf | ⟨rfl, hnil, rfl⟩
    · exact h.welcome z f h0 hf
    · obtain ⟨h1, h2⟩ := (hdec.resolve_left (fun hc => hc hnil)).2 h0
      refine iff_of_false hacc ?_
      rw [namedBefore_iff_named h.sub hup hnil]
      exact not_or.mpr ⟨h1, not_not.mpr h2⟩

/-- An edge that leads back to its source. -/
theorem doubledBack (h : Outcome S lt tab0 es acc tab) (he : S.src e = S.dst e) :
    Outcome S lt tab0 (es ++ [e]) acc tab := by
  have hgroup : ∀ z, group S (es ++ [e]) z = group S es z := fun z => group_snoc_self he
  have hnamed : ∀ z, Named S (es ++ [e]) acc z ↔ Named S es acc z := by
    intro z
    simp only [Named, hgroup]
  have hbefore : ∀ z, NamedBefore S lt (es ++ [e]) acc z ↔ NamedBefore S lt es acc z := by
    intro z
    simp only [NamedBefore, hgroup]
  refine ⟨?_, ?_, h.kept, ?_, ?_, ?_, ?_, ?_⟩
  · simpa only [hgroup] using h.sub
  · simpa only [hgroup] using h.taken
  · simpa only [hgroup] using h.made
  · simpa only [hnamed] using h.named
  · simpa only [hnamed] using h.absent
  · simpa only [hgroup] using h.decided
  · simpa only [hgroup, hbefore] using h.welcome

end Outcome

/-! ## The pass -/

/-- What the two other pieces of state say after the edges `es`: the last group, and whether it was taken. -/
def CurOk (S : Stream κ α β) (lt : κ → κ → Prop) (es : List α) (acc : κ → Prop) (cur : Option κ) (skip : Bool) : Prop :=
  match cur with
  | none => ∀ z, group S es z = []
  | some c => group S es c ≠ [] ∧ UpTo S lt es c ∧ (skip = true ↔ ¬ acc c)

/-- The invariant of the pass. -/
def PassOk (S : Stream κ α β) (lt : κ → κ → Prop) (tab0 : κ → Option (Entry β)) (es : List α) (st : State κ β) : Prop :=
  ∃ acc, Outcome S lt tab0 es acc st.tab ∧ CurOk S lt es acc st.cur st.skip

section Pass

variable {st : State κ β} {cur : Option κ} {skip : Bool}

theorem CurOk.doubledBack (h : CurOk S lt es acc cur skip) (he : S.src e = S.dst e) :
    CurOk S lt (es ++ [e]) acc cur skip := by
  have hgroup : ∀ z, group S (es ++ [e]) z = group S es z := fun z => group_snoc_self he
  cases cur with
  | none => exact fun z => (hgroup z).trans (h z)
  | some c => exact ⟨by rw [hgroup]; exact h.1, by simpa only [UpTo, hgroup] using h.2.1, h.2.2⟩

/-- The source of an edge is the last group after it. -/
theorem curOk_src (hne : S.src e ≠ S.dst e) (hup : UpTo S lt es (S.src e)) (hskip : skip = true ↔ ¬ acc (S.src e)) :
    CurOk S lt (es ++ [e]) acc (some (S.src e)) skip := by
  refine ⟨by rw [group_snoc_src hne]; simp, fun z hz => ?_, hskip⟩
  by_cases hzs : z = S.src e
  · exact Or.inl hzs
  · rw [group_snoc_other (Ne.symm hzs)] at hz
    exact hup z hz

/-- A source that is behind all others, and is not the last one, has no group yet. -/
theorem CurOk.group_nil (h : CurOk S lt es acc cur skip) (hasymm : ∀ a b, lt a b → ¬ lt b a) (hup : UpTo S lt es x)
    (hc : cur ≠ some x) : group S es x = [] := by
  by_contra hnn
  cases cur with
  | none => exact hnn (h x)
  | some c =>
      obtain ⟨hcg, hcup, -⟩ := h
      have h1 := (hcup x hnn).resolve_left fun he => hc (congrArg some he.symm)
      have h2 := (hup c hcg).resolve_left fun he => hc (congrArg some he)
      exact hasymm x c h1 h2

/-- An entry without a group that was taken is the one that the table had, or was made for a destination. -/
theorem Outcome.known (h : Outcome S lt tab0 es acc tab) (hacc : ¬ acc x) {r : Entry β} (htab : tab x = some r) :
    tab0 x = some r ∨ (tab0 x = none ∧ Named S es acc x ∧ r = .empty) := by
  classical
  cases h0 : tab0 x with
  | none =>
      by_cases hn : Named S es acc x
      · rw [h.named x h0 hacc hn] at htab
        cases htab
        exact Or.inr ⟨rfl, hn, rfl⟩
      · rw [h.absent x h0 hacc hn] at htab
        cases htab
  | some r0 =>
      rw [h.kept x r0 h0 hacc] at htab
      exact Or.inl htab

/-- A key without an entry had none, and was not named. -/
theorem Outcome.unknown (h : Outcome S lt tab0 es acc tab) (hacc : ¬ acc x) (htab : tab x = none) :
    tab0 x = none ∧ ¬ Named S es acc x := by
  have h0 : tab0 x = none := by
    cases h0 : tab0 x with
    | none => rfl
    | some r =>
        rw [h.kept x r h0 hacc] at htab
        cases htab
  refine ⟨h0, fun hn => ?_⟩
  rw [h.named x h0 hacc hn] at htab
  cases htab

/-- **Step lemma**, for a further edge of the last group. -/
theorem passOk_same (hasymm : ∀ a b, lt a b → ¬ lt b a) (hup : UpTo S lt es (S.src e)) (hne : S.src e ≠ S.dst e)
    (hout : Outcome S lt tab0 es acc st.tab) (hcur : CurOk S lt es acc st.cur st.skip) (hc : st.cur = some (S.src e)) :
    PassOk S lt tab0 (es ++ [e]) (step S st e) := by
  classical
  rw [hc] at hcur
  obtain ⟨hnil, -, hskip⟩ := hcur
  cases hs : st.skip with
  | true =>
      have hacc := hskip.mp hs
      rw [step_skipped hc hs]
      exact ⟨acc, hout.refuse hne hup hacc (Or.inl hnil), by rw [hc, hs]; exact curOk_src hne hup (by simp [hacc])⟩
  | false =>
      have hacc : acc (S.src e) := by
        by_contra hno
        rw [hskip.mpr hno] at hs
        cases hs
      rw [step_current hne hc hs]
      exact ⟨With acc (S.src e), hout.take hasymm hne hup (fun _ _ => rfl) (hout.entry hacc) (Or.inl hacc),
        curOk_src hne hup (by simp [With])⟩

/-- **Step lemma**, for the first edge of a group. -/
theorem passOk_new (hasymm : ∀ a b, lt a b → ¬ lt b a) (hup : UpTo S lt es (S.src e)) (hne : S.src e ≠ S.dst e)
    (hout : Outcome S lt tab0 es acc st.tab) (hnil : group S es (S.src e) = []) (hc : st.cur ≠ some (S.src e)) :
    PassOk S lt tab0 (es ++ [e]) (step S st e) := by
  have hacc : ¬ acc (S.src e) := fun h => hout.sub _ h hnil
  have hother : ∀ (r : Entry β) z, z ≠ S.src e → Function.update st.tab (S.src e) (some r) z = st.tab z :=
    fun r z hz => Function.update_of_ne hz _ _
  have htaken : CurOk S lt (es ++ [e]) (With acc (S.src e)) (some (S.src e)) false :=
    curOk_src hne hup (by simp [With])
  cases htab : st.tab (S.src e) with
  | none =>
      -- created
      obtain ⟨h0, hnamed⟩ := hout.unknown hacc htab
      rw [step_created hne hc htab]
      refine ⟨With acc (S.src e), hout.take hasymm hne hup (hother _) ?_ (Or.inr ⟨hnil, ?_, ?_⟩), htaken⟩
      · rw [Function.update_self, h0, hnil]
        rfl
      · intro r hr
        rw [h0] at hr
        cases hr
      · exact fun _ => Or.inr hnamed
  | some r =>
      have hcases := hout.known hacc htab
      by_cases hts : r.fixed = false ∧ r.newest < S.ts e
      · rw [step_wiped hne hc htab hts]
        refine ⟨With acc (S.src e), hout.take hasymm hne hup (hother _) ?_ (Or.inr ⟨hnil, ?_, ?_⟩), htaken⟩
        · rw [Function.update_self, hnil]
          rcases hcases with h0 | ⟨h0, -, rfl⟩ <;> rw [h0] <;> rfl
        · intro r' hr'
          rcases hcases with h0 | ⟨h0, -, -⟩ <;> rw [h0] at hr' <;> cases hr'
          exact hts
        · intro h0
          rcases hcases with h0' | ⟨-, -, rfl⟩
          · rw [h0] at h0'
            cases h0'
          · exact Or.inl hts.2
      · rw [step_rejected hne hc htab hts]
        refine ⟨acc, hout.refuse hne hup hacc (Or.inr ⟨?_, ?_⟩), curOk_src hne hup (by simp [hacc])⟩
        · intro r' hr'
          rcases hcases with h0 | ⟨h0, -, -⟩ <;> rw [h0] at hr' <;> cases hr'
          exact hts
        · intro h0
          rcases hcases with h0' | ⟨-, hn, rfl⟩
          · rw [h0] at h0'
            cases h0'
          · exact ⟨fun hpos => hts ⟨rfl, hpos⟩, hn⟩

/-- **Step lemma.** -/
theorem PassOk.step (h : PassOk S lt tab0 es st) (hasymm : ∀ a b, lt a b → ¬ lt b a)
    (hlast : ∀ a ∈ es, S.src a = S.src e ∨ lt (S.src a) (S.src e)) :
    PassOk S lt tab0 (es ++ [e]) (step S st e) := by
  obtain ⟨acc, hout, hcur⟩ := h
  by_cases hne : S.src e = S.dst e
  · rw [step_doubledBack hne]
    exact ⟨acc, hout.doubledBack hne, hcur.doubledBack hne⟩
  -- all groups so far are of this source or of earlier ones
  have hup : UpTo S lt es (S.src e) := by
    intro z hz
    obtain ⟨a, ha⟩ := List.exists_mem_of_ne_nil _ hz
    obtain ⟨hmem, rfl, -⟩ := mem_group.mp ha
    exact hlast a hmem
  by_cases hc : st.cur = some (S.src e)
  · exact passOk_same hasymm hup hne hout hcur hc
  · exact passOk_new hasymm hup hne hout (hcur.group_nil hasymm hup hc) hc

/-- No edge makes no difference. -/
theorem passOk_nil : PassOk S lt tab0 [] ⟨tab0, none, false⟩ := by
  refine ⟨fun _ => False, ⟨?_, ?_, ?_, ?_, ?_, ?_, ?_, ?_⟩, fun _ => rfl⟩
  · exact fun _ h => h.elim
  · exact fun _ _ _ h => h.elim
  · exact fun _ _ h _ => h
  · exact fun _ _ h => h.elim
  · exact fun _ _ _ h => h.elim fun _ h => h.1.elim
  · exact fun _ h _ _ => h
  · exact fun _ _ _ _ h => nomatch h
  · exact fun _ _ _ h => nomatch h

end Pass

/-- **What the pass makes of the table**: there is a set of sources whose groups are taken. -/
theorem merge_outcome (hasymm : ∀ a b, lt a b → ¬ lt b a) (tab0 : κ → Option (Entry β)) (es : List α)
    (hsorted : es.Pairwise fun a b => S.src a = S.src b ∨ lt (S.src a) (S.src b)) :
    PassOk S lt tab0 es (es.foldl (step S) ⟨tab0, none, false⟩) := by
  induction es using List.reverseRecOn with
  | nil => exact passOk_nil
  | append_singleton es e ih =>
      rw [List.pairwise_append] at hsorted
      obtain ⟨hsorted, -, hlast⟩ := hsorted
      rw [List.foldl_append, List.foldl_cons, List.foldl_nil]
      exact (ih hsorted).step hasymm fun a ha => hlast a ha e (List.mem_singleton.mpr rfl)

/-! ## Merging in any order -/

/-- The groups that were taken are those that are newer than what was known. -/
def Fair (S : Stream κ α β) (tab0 : κ → Option (Entry β)) (es : List α) (acc : κ → Prop) : Prop :=
  ∀ x, acc x ↔ group S es x ≠ [] ∧ ∀ r, tab0 x = some r → r.fixed = false ∧ r.newest < newestOf S 0 (group S es x)

/-- What a fair merge makes of an entry. -/
def mergeEntry (S : Stream κ α β) (r : Entry β) (g : List α) : Entry β :=
  if r.fixed = false ∧ r.newest < newestOf S 0 g then ⟨false, newestOf S 0 g, g.map S.link⟩ else r

omit [DecidableEq κ] in
@[simp] theorem mergeEntry_nil (r : Entry β) : mergeEntry S r [] = r := by
  unfold mergeEntry
  rw [if_neg]
  rintro ⟨-, hlt⟩
  exact Nat.not_lt_zero _ hlt

omit [DecidableEq κ] in
/-- Merging a group twice is merging it once. -/
theorem mergeEntry_idem (r : Entry β) (g : List α) : mergeEntry S (mergeEntry S r g) g = mergeEntry S r g := by
  by_cases h : r.fixed = false ∧ r.newest < newestOf S 0 g
  · have hnew : mergeEntry S r g = ⟨false, newestOf S 0 g, g.map S.link⟩ := if_pos h
    rw [hnew, mergeEntry, if_neg]
    rintro ⟨-, hlt⟩
    exact Nat.lt_irrefl _ hlt
  · have hold : mergeEntry S r g = r := if_neg h
    rw [hold, hold]

omit [DecidableEq κ] in
/-- **Two groups can be merged in any order**, unless their newest edges are equally new. -/
theorem mergeEntry_comm (r : Entry β) {g g' : List α}
    (h : g ≠ [] → g' ≠ [] → newestOf S 0 g ≠ newestOf S 0 g') :
    mergeEntry S (mergeEntry S r g) g' = mergeEntry S (mergeEntry S r g') g := by
  by_cases hg : g = []
  · rw [hg, mergeEntry_nil, mergeEntry_nil]
  by_cases hg' : g' = []
  · rw [hg', mergeEntry_nil, mergeEntry_nil]
  have hne := h hg hg'
  obtain ⟨fixed, n, links⟩ := r
  cases fixed with
  | true => simp [mergeEntry]
  | false =>
      -- the newest of the two and of what was known wins
      by_cases h1 : n < newestOf S 0 g <;> by_cases h2 : n < newestOf S 0 g'
      · by_cases h3 : newestOf S 0 g < newestOf S 0 g'
        · have h4 : ¬ newestOf S 0 g' < newestOf S 0 g := by omega
          simp [mergeEntry, h1, h2, h3, h4]
        · have h4 : newestOf S 0 g' < newestOf S 0 g := by omega
          simp [mergeEntry, h1, h2, h3, h4]
      · have h3 : ¬ newestOf S 0 g < newestOf S 0 g' := by omega
        simp [mergeEntry, h1, h2, h3]
      · have h3 : ¬ newestOf S 0 g' < newestOf S 0 g := by omega
        simp [mergeEntry, h1, h2, h3]
      · simp [mergeEntry, h1, h2]

section Order

variable {es es' : List α} {tab1 tab2 tab12 tab21 : κ → Option (Entry β)} {acc' acc12 acc21 : κ → Prop}

theorem newestOf_pos (hpos : ∀ e ∈ es, 0 < S.ts e) (h : group S es x ≠ []) : 0 < newestOf S 0 (group S es x) := by
  obtain ⟨a, ha⟩ := List.exists_mem_of_ne_nil _ h
  exact Nat.lt_of_lt_of_le (hpos a (mem_group.mp ha).1) (le_newestOf ha)

/-- **What a fair merge makes of a key**: where there is no entry, there might as well be an empty one. -/
theorem Outcome.getD (h : Outcome S lt tab0 es acc tab) (hf : Fair S tab0 es acc) (hpos : ∀ e ∈ es, 0 < S.ts e) (x : κ) :
    (tab x).getD .empty = mergeEntry S ((tab0 x).getD .empty) (group S es x) := by
  by_cases hacc : acc x
  · obtain ⟨hne, hnew⟩ := (hf x).mp hacc
    rw [h.entry hacc, Option.getD_some]
    cases h0 : tab0 x with
    | none =>
        have hlt : (Entry.empty : Entry β).fixed = false ∧ (Entry.empty : Entry β).newest < newestOf S 0 (group S es x) :=
          ⟨rfl, newestOf_pos hpos hne⟩
        rw [Option.getD_none, mergeEntry, if_pos hlt]
        rfl
    | some r =>
        obtain ⟨hfix, hlt⟩ := hnew r h0
        rw [Option.getD_some, mergeEntry, if_pos ⟨hfix, hlt⟩, entryAfter, newestOf_of_le (Nat.le_of_lt hlt), hfix]
  · cases h0 : tab0 x with
    | some r =>
        rw [h.kept x r h0 hacc, Option.getD_some, mergeEntry, if_neg]
        intro hlt
        refine hacc ((hf x).mpr ⟨?_, fun r' hr' => ?_⟩)
        · intro hnil
          rw [hnil] at hlt
          exact Nat.not_lt_zero _ hlt.2
        · rw [h0] at hr'
          cases hr'
          exact hlt
    | none =>
        -- a new source is taken, so this key has no group
        have hnil : group S es x = [] := by
          by_contra hne
          refine hacc ((hf x).mpr ⟨hne, fun r hr => ?_⟩)
          rw [h0] at hr
          cases hr
        rw [hnil, mergeEntry_nil, Option.getD_none]
        by_cases hn : Named S es acc x
        · rw [h.named x h0 hacc hn]
          rfl
        · rw [h.absent x h0 hacc hn]
          rfl

/-- **Fair merges can be done in any order**: a key that has an entry after both has the same one. -/
theorem outcome_comm (h1 : Outcome S lt tab0 es acc tab1) (h12 : Outcome S lt tab1 es' acc12 tab12)
    (h2 : Outcome S lt tab0 es' acc' tab2) (h21 : Outcome S lt tab2 es acc21 tab21)
    (hf1 : Fair S tab0 es acc) (hf12 : Fair S tab1 es' acc12) (hf2 : Fair S tab0 es' acc') (hf21 : Fair S tab2 es acc21)
    (hpos : ∀ e ∈ es, 0 < S.ts e) (hpos' : ∀ e ∈ es', 0 < S.ts e) {r r' : Entry β}
    (hne : group S es x ≠ [] → group S es' x ≠ [] →
      newestOf S 0 (group S es x) ≠ newestOf S 0 (group S es' x))
    (hr : tab12 x = some r) (hr' : tab21 x = some r') : r = r' := by
  have e12 := h12.getD hf12 hpos' x
  have e21 := h21.getD hf21 hpos x
  rw [h1.getD hf1 hpos x, hr, Option.getD_some] at e12
  rw [h2.getD hf2 hpos' x, hr', Option.getD_some] at e21
  rw [e12, e21]
  exact mergeEntry_comm _ hne

/-- **A fair merge done twice is one done once.** -/
theorem outcome_idem (h1 : Outcome S lt tab0 es acc tab1) (h12 : Outcome S lt tab1 es acc12 tab12)
    (hf1 : Fair S tab0 es acc) (hf12 : Fair S tab1 es acc12) (hpos : ∀ e ∈ es, 0 < S.ts e) (x : κ) :
    tab12 x = tab1 x := by
  have hsome : ∀ y, group S es y ≠ [] → ∃ r, tab1 y = some r := by
    intro y hne
    cases hy : tab1 y with
    | some r => exact ⟨r, rfl⟩
    | none =>
        cases h0 : tab0 y with
        | some r =>
            by_cases hacc : acc y
            · rw [h1.entry hacc] at hy
              cases hy
            · rw [h1.kept y r h0 hacc] at hy
              cases hy
        | none =>
            have hacc : acc y := (hf1 y).mpr ⟨hne, fun r hr => by rw [h0] at hr; cases hr⟩
            rw [h1.entry hacc] at hy
            cases hy
  -- what was merged is as new as the group by now
  have hnone : ∀ y, ¬ acc12 y := by
    intro y hacc
    obtain ⟨hne, hlt⟩ := (hf12 y).mp hacc
    obtain ⟨r, hr⟩ := hsome y hne
    have he := h1.getD hf1 hpos y
    rw [hr, Option.getD_some] at he
    have hidem := mergeEntry_idem (S := S) ((tab0 y).getD .empty) (group S es y)
    rw [← he, mergeEntry, if_pos (hlt r hr)] at hidem
    have hnew := (hlt r hr).2
    rw [← hidem] at hnew
    exact Nat.lt_irrefl _ hnew
  cases hx : tab1 x with
  | some r => exact h12.kept x r hx (hnone x)
  | none => exact h12.absent x hx (hnone x) fun ⟨y, hy, _⟩ => hnone y hy

end Order

end GroupedMerge
