import Mathlib.Data.List.Basic

/-!
# `Lib.Dialogue` — two parties on one connection

A party is a program that sends and receives (`Proc`); between the two there is a stream in each direction. A send
puts its bytes one after the other, so that the other party may read the first before the last are there. A
receive waits until it has all that it asks for, unless the other party has hung up.

Neither party can tell how its steps and the other's interleave.

- **Diamond.** `Local.unique`, `Local.more`: a party has one next step, and more bytes do not change it. Hence
  `Step.diamond`.
- **Descent.** `Steps.descends`, for any relation with this property: if one run comes to an end, all runs are the
  beginning of one that ends there, after the same number of steps. So it is enough to follow one run (`settles`).
- **Running.** `runs_send`, `runs_recv`, `runs_short`, and `Steps.swap` for the other party.
-/

namespace Dialogue

/-! ## Descent -/

section Descent

variable {σ : Type} {r : σ → σ → Prop} {a b c : σ} {n m : Nat}

/-- `n` steps. -/
inductive Steps (r : σ → σ → Prop) : Nat → σ → σ → Prop
  | zero {a : σ} : Steps r 0 a a
  | head {a b c : σ} {n : Nat} (h : r a b) (hs : Steps r n b c) : Steps r (n + 1) a c

theorem Steps.one (h : r a b) : Steps r 1 a b := .head h .zero

theorem Steps.trans (h1 : Steps r n a b) (h2 : Steps r m b c) : Steps r (n + m) a c := by
  induction h1 with
  | zero =>
      rw [Nat.zero_add]
      exact h2
  | head h _ ih =>
      rw [Nat.add_right_comm]
      exact .head h (ih h2)

theorem Steps.eq_of_end (hend : ∀ d, ¬ r a d) (h : Steps r n a b) : b = a := by
  cases h with
  | zero => rfl
  | head h _ => exact absurd h (hend _)

/-- Different steps from one state can be made up for by one step each. -/
def Diamond (r : σ → σ → Prop) : Prop := ∀ a b c, r a b → r a c → b = c ∨ ∃ d, r b d ∧ r c d

/-- A step does not lead away from where a run ends, and shortens it by one. -/
theorem Steps.descend (hr : Diamond r) (hend : ∀ d, ¬ r c d) (h : Steps r n a c) :
    ∀ {b}, r a b → ∃ m, n = m + 1 ∧ Steps r m b c := by
  induction h with
  | zero => exact fun hb => absurd hb (hend _)
  | @head a a1 c n h1 hs ih =>
      intro b hb
      rcases hr _ _ _ h1 hb with rfl | ⟨d, h1d, hbd⟩
      · exact ⟨n, rfl, hs⟩
      · -- the run from `a1` is shortened by the step to `d`
        obtain ⟨m, rfl, hm⟩ := ih hend h1d
        exact ⟨m + 1, rfl, .head hbd hm⟩

/-- **Descent.** All runs are the beginning of one that ends where one run has ended. -/
theorem Steps.descends (hr : Diamond r) (hend : ∀ d, ¬ r c d) (h : Steps r m a b) :
    ∀ {n}, Steps r n a c → ∃ k, n = m + k ∧ Steps r k b c := by
  induction h with
  | zero => exact fun hn => ⟨_, (Nat.zero_add _).symm, hn⟩
  | head h1 _ ih =>
      intro n hn
      obtain ⟨n', rfl, hn'⟩ := hn.descend hr hend h1
      obtain ⟨k, rfl, hk⟩ := ih hn'
      exact ⟨k, Nat.add_right_comm _ _ _, hk⟩

end Descent

/-! ## Parties -/

/-- What a party has still to do. -/
inductive Proc (B α : Type) where
  | done (a : α)
  | send (bs : List B) (next : Proc B α)
  | recv (n : Nat) (next : List B → Proc B α)

variable {B α β : Type}

/-- One after the other. -/
def Proc.bind : Proc B α → (α → Proc B β) → Proc B β
  | .done a, f => f a
  | .send bs next, f => .send bs (next.bind f)
  | .recv n next, f => .recv n fun bs => (next bs).bind f

/-- Two parties, and what waits to be read by each. -/
structure Pair (B α : Type) where
  here : Proc B α
  there : Proc B α
  toHere : List B
  toThere : List B

/-- The pair as the other party sees it. -/
def Pair.swap (s : Pair B α) : Pair B α := ⟨s.there, s.here, s.toThere, s.toHere⟩

/-- The next step of a party, with what waits for it before and after, and what it sends. Where the other has hung
    up (`up`), it gets what there is. -/
inductive Local (up : Prop) : Proc B α → List B → Proc B α → List B → List B → Prop
  | put {b : B} {bs : List B} {p : Proc B α} {x : List B} : Local up (.send (b :: bs) p) x (.send bs p) x [b]
  | sent {p : Proc B α} {x : List B} : Local up (.send [] p) x p x []
  | take {n : Nat} {f : List B → Proc B α} {x : List B} (hn : n ≤ x.length) :
      Local up (.recv n f) x (f (x.take n)) (x.drop n) []
  | short {n : Nat} {f : List B → Proc B α} {x : List B} (hn : x.length < n) (hup : up) :
      Local up (.recv n f) x (f x) [] []

variable {up up' : Prop} {p p' p2 : Proc B α} {x x' x2 out out2 : List B}

/-- A party has one next step. -/
theorem Local.unique (h1 : Local up p x p' x' out) (h2 : Local up p x p2 x2 out2) :
    p' = p2 ∧ x' = x2 ∧ out = out2 := by
  cases h1 with
  | put =>
      cases h2
      exact ⟨rfl, rfl, rfl⟩
  | sent =>
      cases h2
      exact ⟨rfl, rfl, rfl⟩
  | take hn =>
      cases h2 with
      | take _ => exact ⟨rfl, rfl, rfl⟩
      | short hlt _ => exact absurd hn (Nat.not_le.mpr hlt)
  | short hlt _ =>
      cases h2 with
      | take hn => exact absurd hn (Nat.not_le.mpr hlt)
      | short _ _ => exact ⟨rfl, rfl, rfl⟩

/-- Who has not come to an end by hanging up cannot tell that more bytes wait. -/
theorem Local.more (h : Local up p x p' x' out) (hup : ¬ up) (z : List B) :
    Local up' p (x ++ z) p' (x' ++ z) out := by
  cases h with
  | put => exact .put
  | sent => exact .sent
  | @take n f x hn =>
      have htake : (x ++ z).take n = x.take n := List.take_append_of_le_length hn
      rw [← htake, ← List.drop_append_of_le_length hn]
      apply Local.take
      rw [List.length_append]
      exact Nat.le_add_right_of_le hn
  | short _ h => exact absurd h hup

theorem Local.not_done {a : α} : ¬ Local up (.done a) x p' x' out := nofun

/-! ## The two together -/

/-- A party whose result says so has hung up. -/
def HungUp (hangsUp : α → Bool) (p : Proc B α) : Prop := ∃ a, p = .done a ∧ hangsUp a = true

/-- A step of the party that is `here`. -/
def Move (hangsUp : α → Bool) (s t : Pair B α) : Prop :=
  ∃ p x out, Local (HungUp hangsUp s.there) s.here s.toHere p x out ∧ t = ⟨p, s.there, x, s.toThere ++ out⟩

/-- A step of either party. -/
inductive Step (hangsUp : α → Bool) (s t : Pair B α) : Prop
  | here (h : Move hangsUp s t)
  | there (h : Move hangsUp s.swap t.swap)

variable {hangsUp : α → Bool} {s t s1 s2 : Pair B α} {n m : Nat}

theorem Step.swap (h : Step hangsUp s t) : Step hangsUp s.swap t.swap := by
  cases h with
  | here h => exact .there h
  | there h => exact .here h

theorem Steps.swap (h : Steps (Step hangsUp) n s t) : Steps (Step hangsUp) n s.swap t.swap := by
  induction h with
  | zero => exact .zero
  | head h _ ih => exact .head h.swap ih

theorem Move.unique (h1 : Move hangsUp s s1) (h2 : Move hangsUp s s2) : s1 = s2 := by
  obtain ⟨p, x, out, h1, rfl⟩ := h1
  obtain ⟨p2, x2, out2, h2, rfl⟩ := h2
  obtain ⟨rfl, rfl, rfl⟩ := h1.unique h2
  rfl

/-- Who moves is not done. -/
theorem Move.not_done (h : Move hangsUp s t) {a : α} : s.here ≠ .done a := by
  intro ha
  obtain ⟨p, x, out, h, -⟩ := h
  rw [ha] at h
  exact Local.not_done h

theorem Move.not_hungUp (h : Move hangsUp s t) : ¬ HungUp hangsUp s.here := by
  rintro ⟨a, ha, -⟩
  exact h.not_done ha

/-- **The steps of the two do not get in each other's way.** -/
theorem Move.commute (h1 : Move hangsUp s s1) (h2 : Move hangsUp s.swap s2.swap) :
    ∃ t, Step hangsUp s1 t ∧ Step hangsUp s2 t := by
  have hup1 := h1.not_hungUp
  have hup2 := h2.not_hungUp
  obtain ⟨p1, x1, out1, h1, rfl⟩ := h1
  obtain ⟨p2, x2, out2, h2, he⟩ := h2
  obtain rfl : s2 = ⟨s.here, p2, s.toHere ++ out2, x2⟩ := congrArg Pair.swap he
  refine ⟨⟨p1, p2, x1 ++ out2, x2 ++ out1⟩, .there ?_, .here ?_⟩
  · exact ⟨p2, _, _, h2.more hup1 out1, rfl⟩
  · exact ⟨p1, _, _, h1.more hup2 out2, rfl⟩

/-- **Different steps from one state can be made up for.** -/
theorem Step.diamond : Diamond (Step (B := B) hangsUp) := by
  intro s s1 s2 h1 h2
  cases h1 with
  | here h1 =>
      cases h2 with
      | here h2 => exact Or.inl (h1.unique h2)
      | there h2 => exact Or.inr (h1.commute h2)
  | there h1 =>
      cases h2 with
      | here h2 =>
          obtain ⟨t, ht2, ht1⟩ := h2.commute h1
          exact Or.inr ⟨t, ht1, ht2⟩
      | there h2 => exact Or.inl (congrArg Pair.swap (h1.unique h2))

/-- Two parties that are both done go no further. -/
theorem not_step_of_done {a b : α} {x y : List B} (t : Pair B α) : ¬ Step hangsUp ⟨.done a, .done b, x, y⟩ t := by
  intro h
  cases h with
  | here h => exact h.not_done rfl
  | there h => exact h.not_done rfl

/-- **If both parties come to an end in one run, they do so in all**, with the same results and the same bytes
    left. -/
theorem settles {a b : α} {x y : List B} (h : Steps (Step hangsUp) n s ⟨.done a, .done b, x, y⟩)
    (hm : Steps (Step hangsUp) m s t) : ∃ k, n = m + k ∧ Steps (Step hangsUp) k t ⟨.done a, .done b, x, y⟩ :=
  hm.descends Step.diamond not_step_of_done h

/-- Who is done stays so. -/
theorem here_stays {a : α} (h : Steps (Step hangsUp) n s t) (hs : s.here = .done a) : t.here = .done a := by
  induction h with
  | zero => exact hs
  | head h _ ih =>
      apply ih
      cases h with
      | here h => exact absurd hs h.not_done
      | there h =>
          obtain ⟨p, x, out, -, he⟩ := h
          exact (congrArg Pair.there he).trans hs

/-! ## Running -/

variable {q : Proc B α} {y bs : List B}

/-- There is a run from one state to another. -/
def Runs (hangsUp : α → Bool) (s t : Pair B α) : Prop := ∃ n, Steps (Step hangsUp) n s t

theorem Runs.refl : Runs hangsUp s s := ⟨0, .zero⟩

theorem Runs.trans (h1 : Runs hangsUp s t) (h2 : Runs hangsUp t s2) : Runs hangsUp s s2 := by
  obtain ⟨n, h1⟩ := h1
  obtain ⟨m, h2⟩ := h2
  exact ⟨n + m, h1.trans h2⟩

theorem Runs.swap (h : Runs hangsUp s t) : Runs hangsUp s.swap t.swap := by
  obtain ⟨n, h⟩ := h
  exact ⟨n, h.swap⟩

theorem Runs.local (h : Local (HungUp hangsUp q) p x p' x' out) :
    Runs hangsUp ⟨p, q, x, y⟩ ⟨p', q, x', y ++ out⟩ :=
  ⟨1, .one (.here ⟨p', x', out, h, rfl⟩)⟩

/-- A send puts all its bytes. -/
theorem runs_send : ∀ (bs : List B) {y : List B},
    Runs hangsUp ⟨.send bs p, q, x, y⟩ ⟨p, q, x, y ++ bs⟩ := by
  intro bs
  induction bs with
  | nil => exact fun {y} => Runs.local .sent
  | cons b bs ih =>
      intro y
      have h1 : Runs hangsUp ⟨.send (b :: bs) p, q, x, y⟩ ⟨.send bs p, q, x, y ++ [b]⟩ := Runs.local .put
      have h2 := h1.trans ih
      rw [List.append_assoc] at h2
      exact h2

/-- A receive takes what it asks for. -/
theorem runs_recv {f : List B → Proc B α} (hn : bs.length = n) :
    Runs hangsUp ⟨.recv n f, q, bs ++ x, y⟩ ⟨f bs, q, x, y⟩ := by
  have h : Runs hangsUp ⟨.recv n f, q, bs ++ x, y⟩ ⟨_, q, _, y ++ []⟩ := Runs.local (.take (by
    rw [List.length_append]
    omega))
  rw [List.append_nil, List.take_left' hn, List.drop_left' hn] at h
  exact h

/-- Once the other has hung up, it gets what is left. -/
theorem runs_short {f : List B → Proc B α} {a : α} (hn : x.length < n) (ha : hangsUp a = true) :
    Runs hangsUp ⟨.recv n f, .done a, x, y⟩ ⟨f x, .done a, [], y⟩ := by
  have h : Runs hangsUp ⟨.recv n f, .done a, x, y⟩ ⟨_, .done a, _, y ++ []⟩ := Runs.local (.short hn ⟨a, rfl, ha⟩)
  rw [List.append_nil] at h
  exact h

end Dialogue
