import Mathlib.Data.Finset.Card
import P2pVn.Lib.Fault
import P2pVn.Lib.Ladder
import P2pVn.Lib.Simulation

/-!
# `Lib.Custody` — who holds which block of memory, and which descriptor

A C program acquires blocks and descriptors, uses them and gives them back. What it has are names of resources, what
the system knows are handles, and of some kinds of handles (`counts`) the system has a limited number. Here any
number of jobs do so side by side. Each goes by a script of calls and ladders (`Lib.Ladder`): first a set-up, then
a main function with a loop. It is a fault to use or to give back what is not there, or what was not acquired.

`Rules` says what each call and each rung does with the resources. `ScriptOk` checks a script against the rules; it
is evaluated, and follows which resources are held whatever the calls come to.

- `perform_inOrder`, `step_inOrder`: the step lemmas. What the check expects is there, and nobody else has it.
- `run_inOrder`: with scripts that pass, every move of every run is without a fault.
- `InOrder.ended`: what a job has left over is what the check allows.
- `step_main`: a job that has come to the main function stays there.
- `InOrder.main_holds`, `Accounts.card_le`: what the main function never gives back uses up the limit.
-/

namespace Custody
open CUb Ladder

/-! ## Rules -/

/-- What a call does with a resource. -/
inductive Effect (R : Type) where
  | nothing
  | gets (r : R)
  | gives (r : R)

structure Act (R : Type) where
  uses : List R
  effect : Effect R

/-- Before the main function, or in it. -/
inductive Stage where
  | setup
  | main
  deriving DecidableEq, Repr

/-- What a program does with its resources: a call that succeeds, the calls that always do, what a call that fails
    may leave behind, what a rung uses and gives back, the rungs that end the process, the calls of the main function
    before its loop, what a turn of the loop uses, and the ladder that the loop is left to. -/
structure Rules (C U R : Type) where
  call : C → Act R
  succeeds : C → Bool
  strands : C → Option R
  uses : U → List R
  gives : U → Option R
  dies : U → Bool
  main : Script C U
  turn : List R
  leave : List U

namespace Rules

variable {C U R : Type} (rules : Rules C U R)

/-- What a call does, given whether it succeeds and whether the system has a handle for it. -/
def callAct {H : Type} (c : C) (ok : Bool) (h : Option H) : Act R :=
  if ok then rules.call c
  else ⟨(rules.call c).uses, match h, rules.strands c with
    | some _, some r => .gets r
    | _, _ => .nothing⟩

def undoAct (u : U) : Act R :=
  ⟨rules.uses u, match rules.gives u with
    | some r => .gives r
    | none => .nothing⟩

/-- After the last call of the set-up comes the main function. -/
def next : Stage → Script C U → Stage × Thread C U
  | .setup, [] => (.main, .goOn rules.main)
  | stage, todo => (stage, .goOn todo)

end Rules

/-! ## The machine -/

/-- Which handles are for which resource, which of them are limited in number, and those that are in use at the
    start. -/
structure System (R H : Type) where
  kind : R → H → Bool
  counts : H → Bool
  limit : Nat
  base : Finset H
  base_le : (base.filter fun h => counts h = true).card ≤ limit

/-- A handle that the system may give out: it is nobody's, and there is room. -/
def System.Free {R H : Type} (sys : System R H) (live : Finset H) (r : R) (h : H) : Prop :=
  h ∉ live ∧ sys.kind r h = true ∧ (sys.counts h = true → (live.filter fun h => sys.counts h = true).card < sys.limit)

instance {R H : Type} [DecidableEq H] (sys : System R H) (live : Finset H) (r : R) (h : H) :
    Decidable (sys.Free live r h) :=
  inferInstanceAs (Decidable (_ ∧ _ ∧ (_ → _)))

structure Job (C U R H : Type) where
  stage : Stage
  thread : Thread C U
  held : R → Option H

/-- The handles in use, the jobs, and whether the process is still there. -/
structure Pool (C U R H J : Type) where
  live : Finset H
  job : J → Option (Job C U R H)
  running : Bool

/-- What happens next: a job starts, its next call succeeds or fails, its loop takes a turn or is left, its next rung
    is taken, or it has come to the end of its ladder. -/
inductive Move (H J S : Type) where
  | start (d : J) (s : S)
  | call (d : J) (ok : Bool) (h : Option H)
  | turn (d : J)
  | leave (d : J)
  | undo (d : J)
  | stop (d : J)

variable {C U R H J S : Type} [DecidableEq R] [DecidableEq H] [DecidableEq J]

def Pool.put (p : Pool C U R H J) (d : J) (j : Job C U R H) : Pool C U R H J :=
  { p with job := Function.update p.job d (some j) }

/-- What the jobs hold. -/
def Pool.holds (p : Pool C U R H J) (x : J × R) : Option H := (p.job x.1).bind fun j => j.held x.2

/-- Whether job `j` holds all of `rs`, and they are still there. -/
def Pool.has (p : Pool C U R H J) (j : Job C U R H) (rs : List R) : Bool :=
  rs.all fun r => (j.held r).any fun h => decide (h ∈ p.live)

/-- Job `d`, which is `j`, does `a` and goes on at `t`. A call that needs a handle does not succeed without one. -/
def perform (sys : System R H) (p : Pool C U R H J) (d : J) (j : Job C U R H) (stage : Stage) (t : Thread C U)
    (a : Act R) (h : Option H) : Ub (Pool C U R H J) :=
  if p.has j a.uses then
    match a.effect with
    | .nothing => pure (p.put d ⟨stage, t, j.held⟩)
    | .gets r =>
      match h with
      | none => pure p
      | some h =>
        if sys.Free p.live r h then
          pure { p.put d ⟨stage, t, Function.update j.held r (some h)⟩ with live := insert h p.live }
        else pure p
    | .gives r =>
      match j.held r with
      | none => .error .badFree
      | some h =>
        if h ∈ p.live then
          pure { p.put d ⟨stage, t, Function.update j.held r none⟩ with live := p.live.erase h }
        else .error .doubleFree
  else .error .useAfterFree

namespace Rules

variable (rules : Rules C U R) (script : S → Script C U) (sys : System R H)

/-- One move. A move that its job is not ready for changes nothing. -/
def step (p : Pool C U R H J) (m : Move H J S) : Ub (Pool C U R H J) :=
  if p.running then
    match m with
    | .start d s =>
      match p.job d with
      | none => pure (p.put d ⟨.setup, .handshake (script s), fun _ => none⟩)
      | some _ => pure p
    | .call d ok h =>
      match p.job d with
      | some ⟨stage, .handshake ((c, ladder) :: todo), held⟩ =>
        if !ok && rules.succeeds c then pure p
        else
          let (stage', t) := if ok then rules.next stage todo else (stage, .cleanup ladder)
          perform sys p d ⟨stage, .handshake ((c, ladder) :: todo), held⟩ stage' t (rules.callAct c ok h) h
      | _ => pure p
    | .turn d =>
      match p.job d with
      | some ⟨stage, .loop, held⟩ => perform sys p d ⟨stage, .loop, held⟩ stage .loop ⟨rules.turn, .nothing⟩ none
      | _ => pure p
    | .leave d =>
      match p.job d with
      | some ⟨stage, .loop, held⟩ => pure (p.put d ⟨stage, .cleanup rules.leave, held⟩)
      | _ => pure p
    | .undo d =>
      match p.job d with
      | some ⟨stage, .cleanup (u :: us), held⟩ =>
        if rules.dies u then pure { p with running := false }
        else perform sys p d ⟨stage, .cleanup (u :: us), held⟩ stage (.cleanup us) (rules.undoAct u) none
      | _ => pure p
    | .stop d =>
      match p.job d with
      | some ⟨stage, .cleanup [], held⟩ => pure (p.put d ⟨stage, .freed, held⟩)
      | _ => pure p
  else pure p

/-- The runs of a process. -/
def pool : Lts (Pool C U R H J) (Move H J S) where
  start p := p = ⟨sys.base, fun _ => none, true⟩
  step p m p' := rules.step script sys p m = .ok p'

/-- Take the moves of a list. -/
def replay : List (Move H J S) → Ub (Pool C U R H J)
  | [] => pure ⟨sys.base, fun _ => none, true⟩
  | m :: ms => do
    let p ← replay ms
    rules.step script sys p m

theorem replay_run {ms : List (Move H J S)} {p : Pool C U R H J} (h : rules.replay script sys ms = .ok p) :
    (rules.pool script sys).Run ms p := by
  induction ms generalizing p with
  | nil =>
      cases h
      exact .start rfl
  | cons m ms ih =>
      obtain ⟨p', hp', hstep⟩ := bind_eq_ok.mp h
      exact .step (ih hp') hstep

end Rules

/-! ## The check -/

/-- The resources that are held. -/
abbrev Shape (R : Type) := R → Bool

def Job.shape (j : Job C U R H) : Shape R := fun r => (j.held r).isSome

def Effect.after : Effect R → Shape R → Option (Shape R)
  | .nothing, s => some s
  | .gets r, s => if s r then none else some (Function.update s r true)
  | .gives r, s => if s r then some (Function.update s r false) else none

def Act.after (a : Act R) (s : Shape R) : Option (Shape R) := if a.uses.all s then a.effect.after s else none

theorem Act.after_eq_some {a : Act R} {s s' : Shape R} :
    a.after s = some s' ↔ a.uses.all s = true ∧ a.effect.after s = some s' := by
  unfold Act.after
  by_cases h : a.uses.all s = true
  · simp only [h, if_true, true_and]
  · simp only [h, if_false, false_and, reduceCtorEq, Bool.false_eq_true]

namespace Rules

variable (rules : Rules C U R) (ends : Stage → Shape R → Bool)

/-- A ladder gives back what is held, each thing once, down to what `ends` allows, unless it ends the process. The
    main function does not. -/
def LadderOk (stage : Stage) : List U → Shape R → Bool
  | [], s => ends stage s
  | u :: us, s =>
    (rules.dies u && decide (stage = .setup)) ||
      (!rules.dies u && ((rules.undoAct u).after s).any (LadderOk stage us))

/-- Every call of a script has what it uses, and if it can fail, its ladder is right for what is held then; `fin` is
    to hold after the last one. -/
def ScriptOk (stage : Stage) (fin : Shape R → Bool) : Script C U → Shape R → Bool
  | [], s => fin s
  | (c, ladder) :: todo, s =>
    ((rules.call c).after s).any (ScriptOk stage fin todo) &&
      (rules.succeeds c || (rules.LadderOk ends stage ladder s &&
        (rules.strands c).all fun r => !s r && rules.LadderOk ends stage ladder (Function.update s r true)))

def LoopOk (s : Shape R) : Bool := rules.turn.all s && rules.LadderOk ends .main rules.leave s

/-- What is to hold after the calls of a stage. -/
def fin : Stage → Shape R → Bool
  | .setup => rules.ScriptOk ends .main (rules.LoopOk ends) rules.main
  | .main => rules.LoopOk ends

/-- A job with these resources may be at `t`. -/
def At (stage : Stage) (t : Thread C U) (s : Shape R) : Bool :=
  match t with
  | .handshake todo => rules.ScriptOk ends stage (rules.fin ends stage) todo s
  | .loop => decide (stage = .main) && rules.LoopOk ends s
  | .cleanup us => rules.LadderOk ends stage us s
  | .freed => ends stage s

/-- All scripts pass, from nothing. -/
def Checked (script : S → Script C U) : Prop :=
  ∀ s, rules.ScriptOk ends .setup (rules.fin ends .setup) (script s) (fun _ => false) = true

end Rules

/-! ## Accounts -/

section

variable {sys : System R H} {live : Finset H} {g : J × R → Option H} {x : J × R} {h : H}

/-- What is in use is the base and what is held; nothing is held twice, and nothing of the base; every handle is of
    the right kind, and there are not too many. -/
structure Accounts (sys : System R H) (live : Finset H) (g : J × R → Option H) : Prop where
  live_iff : ∀ h, h ∈ live ↔ h ∈ sys.base ∨ ∃ x, g x = some h
  base : ∀ x h, g x = some h → h ∉ sys.base
  own : ∀ x y h, g x = some h → g y = some h → x = y
  kind : ∀ x h, g x = some h → sys.kind x.2 h = true
  room : (live.filter fun h => sys.counts h = true).card ≤ sys.limit

omit [DecidableEq R] [DecidableEq H] [DecidableEq J] in
theorem Accounts.start : Accounts sys sys.base fun _ : J × R => none where
  live_iff := by simp
  base := nofun
  own := nofun
  kind := nofun
  room := sys.base_le

omit [DecidableEq R] [DecidableEq H] [DecidableEq J] in
theorem Accounts.mem_live (ha : Accounts sys live g) (hx : g x = some h) : h ∈ live :=
  (ha.live_iff h).mpr (Or.inr ⟨x, hx⟩)

/-- What was given out is held by one. -/
theorem Accounts.get (ha : Accounts sys live g) (hx : g x = none) (hh : sys.Free live x.2 h) :
    Accounts sys (insert h live) (Function.update g x (some h)) := by
  obtain ⟨hnew, hkind, hroom⟩ := hh
  have hcases : ∀ y h', Function.update g x (some h) y = some h' → (y = x ∧ h' = h) ∨ (y ≠ x ∧ g y = some h') := by
    intro y h' hy
    by_cases hyx : y = x
    · subst hyx
      rw [Function.update_self, Option.some.injEq] at hy
      exact Or.inl ⟨rfl, hy.symm⟩
    · rw [Function.update_of_ne hyx] at hy
      exact Or.inr ⟨hyx, hy⟩
  -- nobody has it yet
  have hnone : ∀ y, g y ≠ some h := fun y hy => hnew (ha.mem_live hy)
  constructor
  · intro h'
    rw [Finset.mem_insert, ha.live_iff]
    constructor
    · rintro (rfl | hb | ⟨y, hy⟩)
      · exact Or.inr ⟨x, Function.update_self ..⟩
      · exact Or.inl hb
      · refine Or.inr ⟨y, ?_⟩
        rw [Function.update_of_ne _, hy]
        rintro rfl
        cases hx.symm.trans hy
    · rintro (hb | ⟨y, hy⟩)
      · exact Or.inr (Or.inl hb)
      · rcases hcases y h' hy with ⟨-, rfl⟩ | ⟨-, hy⟩
        · exact Or.inl rfl
        · exact Or.inr (Or.inr ⟨y, hy⟩)
  · intro y h' hy
    rcases hcases y h' hy with ⟨-, rfl⟩ | ⟨-, hy⟩
    · exact fun hb => hnew ((ha.live_iff h').mpr (Or.inl hb))
    · exact ha.base y h' hy
  · intro y z h' hy hz
    rcases hcases y h' hy with ⟨rfl, rfl⟩ | ⟨-, hy'⟩
    · rcases hcases z h' hz with ⟨rfl, -⟩ | ⟨-, hz'⟩
      · rfl
      · exact absurd hz' (hnone z)
    · rcases hcases z h' hz with ⟨-, rfl⟩ | ⟨-, hz'⟩
      · exact absurd hy' (hnone y)
      · exact ha.own y z h' hy' hz'
  · intro y h' hy
    rcases hcases y h' hy with ⟨rfl, rfl⟩ | ⟨-, hy⟩
    · exact hkind
    · exact ha.kind y h' hy
  · by_cases hc : sys.counts h = true
    · rw [Finset.filter_insert, if_pos hc]
      exact Nat.le_trans (Finset.card_insert_le ..) (hroom hc)
    · rw [Finset.filter_insert, if_neg hc]
      exact ha.room

/-- What was given back is held by nobody. -/
theorem Accounts.give (ha : Accounts sys live g) (hx : g x = some h) :
    Accounts sys (live.erase h) (Function.update g x none) := by
  have hcases : ∀ y h', Function.update g x none y = some h' ↔ y ≠ x ∧ g y = some h' := by
    intro y h'
    by_cases hyx : y = x
    · subst hyx
      simp
    · simp [hyx]
  constructor
  · intro h'
    rw [Finset.mem_erase, ha.live_iff]
    constructor
    · rintro ⟨hne, hb | ⟨y, hy⟩⟩
      · exact Or.inl hb
      · refine Or.inr ⟨y, (hcases y h').mpr ⟨?_, hy⟩⟩
        rintro rfl
        exact hne (Option.some.inj (hy.symm.trans hx))
    · rintro (hb | ⟨y, hy⟩)
      · refine ⟨?_, Or.inl hb⟩
        rintro rfl
        exact ha.base x h' hx hb
      · obtain ⟨hyx, hy⟩ := (hcases y h').mp hy
        refine ⟨?_, Or.inr ⟨y, hy⟩⟩
        rintro rfl
        exact hyx (ha.own y x h' hy hx)
  · exact fun y h' hy => ha.base y h' ((hcases y h').mp hy).2
  · exact fun y z h' hy hz => ha.own y z h' ((hcases y h').mp hy).2 ((hcases z h').mp hz).2
  · exact fun y h' hy => ha.kind y h' ((hcases y h').mp hy).2
  · exact Nat.le_trans (Finset.card_le_card (Finset.filter_subset_filter _ (Finset.erase_subset ..))) ha.room

omit [DecidableEq R] [DecidableEq J] in
/-- **What is held counts**, each thing once. -/
theorem Accounts.card_le (ha : Accounts sys live g) {X : Finset (J × R)}
    (hX : ∀ x ∈ X, ∃ h, g x = some h ∧ sys.counts h = true) :
    (sys.base.filter fun h => sys.counts h = true).card + X.card ≤
      (live.filter fun h => sys.counts h = true).card := by
  have hinj : Set.InjOn g X := by
    intro x hx y _ he
    obtain ⟨h, hh, -⟩ := hX x hx
    exact ha.own x y h hh (he ▸ hh)
  have hsub : X.image g ⊆ ((live \ sys.base).filter fun h => sys.counts h = true).map Function.Embedding.some := by
    intro o ho
    obtain ⟨x, hx, rfl⟩ := Finset.mem_image.mp ho
    obtain ⟨h, hh, hc⟩ := hX x hx
    rw [hh]
    refine Finset.mem_map.mpr ⟨h, Finset.mem_filter.mpr ⟨?_, hc⟩, rfl⟩
    exact Finset.mem_sdiff.mpr ⟨ha.mem_live hh, ha.base x h hh⟩
  have hcard := Finset.card_le_card hsub
  rw [Finset.card_image_of_injOn hinj, Finset.card_map] at hcard
  have hbase : sys.base ⊆ live := fun h hh => (ha.live_iff h).mpr (Or.inl hh)
  calc (sys.base.filter fun h => sys.counts h = true).card + X.card
      ≤ (sys.base.filter fun h => sys.counts h = true).card +
          ((live \ sys.base).filter fun h => sys.counts h = true).card := Nat.add_le_add_left hcard _
    _ = (((live \ sys.base) ∪ sys.base).filter fun h => sys.counts h = true).card := by
        rw [Finset.filter_union, Finset.card_union_of_disjoint
          (Finset.disjoint_filter_filter Finset.sdiff_disjoint), Nat.add_comm]
    _ = (live.filter fun h => sys.counts h = true).card := by rw [Finset.sdiff_union_of_subset hbase]

end

/-! ## One action -/

/-- The accounts are right, and every job is where the check expects what it holds. -/
structure InOrder (rules : Rules C U R) (ends : Stage → Shape R → Bool) (sys : System R H)
    (p : Pool C U R H J) : Prop where
  accounts : Accounts sys p.live p.holds
  at_ok : ∀ d j, p.job d = some j → rules.At ends j.stage j.thread j.shape = true

section

variable {rules : Rules C U R} {ends : Stage → Shape R → Bool} {sys : System R H} {p p' : Pool C U R H J} {d : J}
  {j : Job C U R H} {stage : Stage} {t : Thread C U} {script : S → Script C U}

omit [DecidableEq R] [DecidableEq H] [DecidableEq J] in
theorem holds_of_job {r : R} (hj : p.job d = some j) : p.holds (d, r) = j.held r := by
  simp [Pool.holds, hj]

omit [DecidableEq H] in
/-- What the jobs hold, when the resource `r` of job `d` has changed. -/
theorem holds_put {r : R} {o : Option H} (hj : p.job d = some j) :
    (p.put d ⟨stage, t, Function.update j.held r o⟩).holds = Function.update p.holds (d, r) o := by
  funext ⟨d', r'⟩
  by_cases hd : d' = d
  · subst hd
    by_cases hr : r' = r
    · subst hr
      simp [Pool.holds, Pool.put]
    · simp [Pool.holds, Pool.put, hr, hj]
  · simp [Pool.holds, Pool.put, hd]

omit [DecidableEq R] [DecidableEq H] in
/-- A job that only goes on holds what it held, and a new one holds nothing. -/
theorem holds_put_same (hj : p.job d = some j ∨ p.job d = none ∧ j.held = fun _ => none) :
    (p.put d ⟨stage, t, j.held⟩).holds = p.holds := by
  funext ⟨d', r'⟩
  by_cases hd : d' = d
  · subst hd
    rcases hj with hj | ⟨hj, hheld⟩
    · simp [Pool.holds, Pool.put, hj]
    · simp [Pool.holds, Pool.put, hj, hheld]
  · simp [Pool.holds, Pool.put, hd]

omit [DecidableEq H] in
theorem shape_update {r : R} {o : Option H} :
    Job.shape (⟨stage, t, Function.update j.held r o⟩ : Job C U R H) = Function.update j.shape r o.isSome :=
  Function.comp_update Option.isSome j.held r o

omit [DecidableEq H] in
/-- A job that has come to where it may be leaves the others where they are. -/
theorem InOrder.put_at (hp : InOrder rules ends sys p) (hat : rules.At ends j.stage j.thread j.shape = true) :
    ∀ d' j', (p.put d j).job d' = some j' → rules.At ends j'.stage j'.thread j'.shape = true := by
  intro d' j' hj'
  by_cases hd : d' = d
  · subst hd
    simp only [Pool.put, Function.update_self, Option.some.injEq] at hj'
    subst hj'
    exact hat
  · simp only [Pool.put, Function.update_of_ne hd] at hj'
    exact hp.at_ok d' j' hj'

omit [DecidableEq H] in
/-- A job goes on, or a new one starts. -/
theorem InOrder.put (hp : InOrder rules ends sys p)
    (hj : p.job d = some j ∨ p.job d = none ∧ j.held = fun _ => none)
    (hat : rules.At ends stage t j.shape = true) : InOrder rules ends sys (p.put d ⟨stage, t, j.held⟩) where
  accounts := by
    rw [holds_put_same hj]
    exact hp.accounts
  at_ok := hp.put_at (j := ⟨stage, t, j.held⟩) hat

omit [DecidableEq J] in
/-- What a job holds is still there. -/
theorem InOrder.has (hp : InOrder rules ends sys p) (hj : p.job d = some j) {rs : List R}
    (h : rs.all j.shape = true) : p.has j rs = true := by
  rw [Pool.has, List.all_eq_true]
  intro r hr
  obtain ⟨x, hx⟩ := Option.isSome_iff_exists.mp (List.all_eq_true.mp h r hr)
  rw [hx, Option.any_some, decide_eq_true_iff]
  exact hp.accounts.mem_live ((holds_of_job hj).trans hx)

/-- **Step lemma.** A job that has what the check expects goes on without a fault, to where it may be. -/
theorem perform_inOrder (hp : InOrder rules ends sys p) (hj : p.job d = some j) {a : Act R} {h : Option H}
    (ha : (a.after j.shape).any (rules.At ends stage t) = true) :
    ∃ p', perform sys p d j stage t a h = .ok p' ∧ InOrder rules ends sys p' := by
  obtain ⟨s', hs', hat⟩ := (Option.any_eq_true ..).mp ha
  obtain ⟨huses, hs'⟩ := Act.after_eq_some.mp hs'
  unfold perform
  rw [if_pos (hp.has hj huses)]
  have hshape : ∀ {r : R} {o : Option H}, rules.At ends stage t (Function.update j.shape r o.isSome) = true →
      rules.At ends stage t (Job.shape (⟨stage, t, Function.update j.held r o⟩ : Job C U R H)) = true := by
    intro r o hat
    rw [shape_update]
    exact hat
  cases he : a.effect with
  | nothing =>
      rw [he] at hs'
      obtain rfl : j.shape = s' := Option.some.inj hs'
      exact ⟨_, rfl, hp.put (Or.inl hj) hat⟩
  | gets r =>
      rw [he, Effect.after] at hs'
      split at hs'
      · cases hs'
      · rename_i hfree
        obtain rfl : Function.update j.shape r true = s' := Option.some.inj hs'
        cases h with
        | none => exact ⟨p, rfl, hp⟩
        | some h =>
            by_cases hnew : sys.Free p.live r h
            · refine ⟨_, if_pos hnew, ?_, hp.put_at (hshape hat)⟩
              have hnone : p.holds (d, r) = none := by
                rw [holds_of_job hj]
                exact Option.not_isSome_iff_eq_none.mp hfree
              have haccounts := hp.accounts.get hnone hnew
              rw [← holds_put hj] at haccounts
              exact haccounts
            · exact ⟨p, if_neg hnew, hp⟩
  | gives r =>
      rw [he, Effect.after] at hs'
      split at hs'
      · rename_i hheld
        obtain rfl : Function.update j.shape r false = s' := Option.some.inj hs'
        obtain ⟨x, hx⟩ := Option.isSome_iff_exists.mp hheld
        have hholds : p.holds (d, r) = some x := (holds_of_job hj).trans hx
        simp only [hx]
        refine ⟨_, if_pos (hp.accounts.mem_live hholds), ?_, hp.put_at (hshape hat)⟩
        have haccounts := hp.accounts.give hholds
        rw [← holds_put hj] at haccounts
        exact haccounts
      · cases hs'

/-! ## Every move -/

omit [DecidableEq H] [DecidableEq J] in
/-- After a call of a script that passes, the next one is right, or the main function begins. -/
theorem at_next {todo : Script C U} {s : Shape R}
    (h : rules.ScriptOk ends stage (rules.fin ends stage) todo s = true) :
    rules.At ends (rules.next stage todo).1 (rules.next stage todo).2 s = true := by
  have hgo : ∀ stage todo, todo ≠ [] ∨ stage = .main →
      rules.ScriptOk ends stage (rules.fin ends stage) todo s = true →
        rules.At ends stage (Thread.goOn todo) s = true := by
    intro stage todo hor h
    cases todo with
    | cons x todo => exact h
    | nil =>
        obtain rfl := hor.resolve_left (not_not.mpr rfl)
        simpa [Rules.At, Thread.goOn, Rules.ScriptOk, Rules.fin] using h
  cases stage with
  | main =>
      cases todo with
      | nil => exact hgo .main [] (Or.inr rfl) h
      | cons x todo => exact hgo .main (x :: todo) (Or.inr rfl) h
  | setup =>
      cases todo with
      | nil => exact hgo .main rules.main (Or.inr rfl) h
      | cons x todo => exact hgo .setup (x :: todo) (Or.inl (List.cons_ne_nil x todo)) h

omit [DecidableEq H] [DecidableEq J] in
/-- What a call does, in either case, is what the check has followed. -/
theorem call_checked {c : C} {ladder : List U} {todo : Script C U} {s : Shape R} (ok : Bool) (h : Option H)
    (hs : rules.ScriptOk ends stage (rules.fin ends stage) ((c, ladder) :: todo) s = true)
    (hok : ¬ (!ok && rules.succeeds c) = true) :
    ((rules.callAct c ok h).after s).any
      (if ok then rules.At ends (rules.next stage todo).1 (rules.next stage todo).2
        else rules.At ends stage (.cleanup ladder)) = true := by
  simp only [Rules.ScriptOk, Bool.and_eq_true] at hs
  obtain ⟨hgo, hfail⟩ := hs
  obtain ⟨s', hs', hrest⟩ := (Option.any_eq_true ..).mp hgo
  cases ok with
  | true =>
      simp only [Rules.callAct, if_true, hs', Option.any_some]
      exact at_next hrest
  | false =>
      have huses := (Act.after_eq_some.mp hs').1
      simp only [Bool.not_false, Bool.true_and, Bool.not_eq_true] at hok
      simp only [hok, Bool.false_or, Bool.and_eq_true] at hfail
      obtain ⟨hladder, hstrands⟩ := hfail
      simp only [Rules.callAct, Bool.false_eq_true, if_false, Act.after, huses, if_true]
      split
      · rename_i r _ hr
        rw [hr, Option.all_some, Bool.and_eq_true, Bool.not_eq_true'] at hstrands
        simpa [Effect.after, hstrands.1, Rules.At] using hstrands.2
      · simpa [Effect.after, Rules.At] using hladder

/-- **Step lemma.** With scripts that pass, a move has no fault, and everything stays in order. -/
theorem step_inOrder (hscript : rules.Checked ends script) (hp : InOrder rules ends sys p) (m : Move H J S) :
    ∃ p', rules.step script sys p m = .ok p' ∧ InOrder rules ends sys p' := by
  unfold Rules.step
  split
  · cases m with
    | start d s =>
        simp only
        split
        next hj => exact ⟨_, rfl, hp.put (j := ⟨.setup, .freed, fun _ => none⟩) (Or.inr ⟨hj, rfl⟩) (hscript s)⟩
        next => exact ⟨p, rfl, hp⟩
    | call d ok h =>
        simp only
        split
        next stage c ladder todo held hj =>
          split
          · exact ⟨p, rfl, hp⟩
          · rename_i hok
            have hat := call_checked ok h (hp.at_ok d _ hj) hok
            cases ok with
            | true => exact perform_inOrder hp hj hat
            | false => exact perform_inOrder hp hj hat
        next => exact ⟨p, rfl, hp⟩
    | turn d =>
        simp only
        split
        next stage held hj =>
          have hat := hp.at_ok d _ hj
          have huses : rules.turn.all (Job.shape ⟨stage, (.loop : Thread C U), held⟩) = true := by
            simp only [Rules.At, Rules.LoopOk, Bool.and_eq_true] at hat
            exact hat.2.1
          refine perform_inOrder hp hj ?_
          simpa [Act.after, huses, Effect.after] using hat
        next => exact ⟨p, rfl, hp⟩
    | leave d =>
        simp only
        split
        next stage held hj =>
          have hat := hp.at_ok d _ hj
          simp only [Rules.At, Rules.LoopOk, Bool.and_eq_true, decide_eq_true_iff] at hat
          obtain ⟨rfl, -, hladder⟩ := hat
          exact ⟨_, rfl, hp.put (Or.inl hj) hladder⟩
        next => exact ⟨p, rfl, hp⟩
    | undo d =>
        simp only
        split
        next stage u us held hj =>
          have hat := hp.at_ok d _ hj
          simp only [Rules.At, Rules.LadderOk] at hat
          split
          · exact ⟨_, rfl, hp.accounts, hp.at_ok⟩
          · rename_i hdies
            rw [Bool.not_eq_true] at hdies
            simp only [hdies, Bool.false_and, Bool.false_or, Bool.not_false, Bool.true_and] at hat
            exact perform_inOrder hp hj hat
        next => exact ⟨p, rfl, hp⟩
    | stop d =>
        simp only
        split
        next stage held hj => exact ⟨_, rfl, hp.put (Or.inl hj) (hp.at_ok d _ hj)⟩
        next => exact ⟨p, rfl, hp⟩
  · exact ⟨p, rfl, hp⟩

/-- **Run lemma.** Everything is in order after every run. -/
theorem run_inOrder (hscript : rules.Checked ends script) {ms : List (Move H J S)}
    (h : (rules.pool script sys).Run ms p) : InOrder rules ends sys p := by
  refine h.inv (P := fun _ p => InOrder rules ends sys p) ?_ ?_
  · rintro _ rfl
    exact ⟨Accounts.start, nofun⟩
  · intro _ p m p' _ hp hstep
    obtain ⟨p1, h1, hp1⟩ := step_inOrder hscript hp m
    obtain rfl : p1 = p' := Except.ok.inj (h1.symm.trans hstep)
    exact hp1

/-! ## Stages -/

/-- Whatever an action comes to, it is the action of one job. -/
theorem perform_job {a : Act R} {h : Option H} (hrun : perform sys p d j stage t a h = .ok p') :
    p'.job = p.job ∨ ∃ held, p'.job = Function.update p.job d (some ⟨stage, t, held⟩) := by
  unfold perform at hrun
  split at hrun
  · split at hrun
    · cases hrun
      exact Or.inr ⟨_, rfl⟩
    · split at hrun
      · cases hrun
        exact Or.inl rfl
      · split at hrun
        · cases hrun
          exact Or.inr ⟨_, rfl⟩
        · cases hrun
          exact Or.inl rfl
    · split at hrun
      · cases hrun
      · split at hrun
        · cases hrun
          exact Or.inr ⟨_, rfl⟩
        · cases hrun
  · cases hrun

/-- **Once in the main function, always.** -/
theorem step_main {m : Move H J S} (hstep : rules.step script sys p m = .ok p') (hj : p.job d = some j)
    (hmain : j.stage = .main) : ∃ j', p'.job d = some j' ∧ j'.stage = .main := by
  have hsame : p'.job = p.job → ∃ j', p'.job d = some j' ∧ j'.stage = .main := fun h => ⟨j, h ▸ hj, hmain⟩
  -- the job that has moved was in the main function only if it still is
  have hgo : ∀ {d1 j1}, p'.job = Function.update p.job d1 (some j1) →
      (∀ j, p.job d1 = some j → j.stage = .main → j1.stage = .main) → ∃ j', p'.job d = some j' ∧ j'.stage = .main := by
    intro d1 j1 h hstage
    by_cases hd : d = d1
    · subst hd
      exact ⟨j1, by rw [h, Function.update_self], hstage j hj hmain⟩
    · exact ⟨j, by rw [h, Function.update_of_ne hd, hj], hmain⟩
  have hdone : ∀ {d1 j1 stage t a x}, p.job d1 = some j1 → (j1.stage = .main → stage = .main) →
      perform sys p d1 j1 stage t a x = .ok p' → ∃ j', p'.job d = some j' ∧ j'.stage = .main := by
    intro d1 j1 stage t a x hj1 hstage hrun
    rcases perform_job hrun with h | ⟨held, h⟩
    · exact hsame h
    · refine hgo h fun j hj hmain => hstage ?_
      obtain rfl := Option.some.inj (hj1.symm.trans hj)
      exact hmain
  unfold Rules.step at hstep
  split at hstep
  · cases m with
    | start d1 s =>
        simp only at hstep
        split at hstep
        next hnone =>
          cases hstep
          exact hgo rfl fun j hj => by cases hnone.symm.trans hj
        next => cases hstep; exact hsame rfl
    | call d1 ok x =>
        simp only at hstep
        split at hstep
        next stage c ladder todo held hj1 =>
          split at hstep
          · cases hstep
            exact hsame rfl
          · refine hdone hj1 ?_ hstep
            rintro rfl
            cases ok <;> rfl
        next => cases hstep; exact hsame rfl
    | turn d1 =>
        simp only at hstep
        split at hstep
        next hj1 => exact hdone hj1 id hstep
        next => cases hstep; exact hsame rfl
    | leave d1 =>
        simp only at hstep
        split at hstep
        next hj1 =>
          cases hstep
          refine hgo rfl fun j hj hmain => ?_
          obtain rfl := Option.some.inj (hj1.symm.trans hj)
          exact hmain
        next => cases hstep; exact hsame rfl
    | undo d1 =>
        simp only at hstep
        split at hstep
        next hj1 =>
          split at hstep
          · cases hstep
            exact hsame rfl
          · exact hdone hj1 id hstep
        next => cases hstep; exact hsame rfl
    | stop d1 =>
        simp only at hstep
        split at hstep
        next hj1 =>
          cases hstep
          refine hgo rfl fun j hj hmain => ?_
          obtain rfl := Option.some.inj (hj1.symm.trans hj)
          exact hmain
        next => cases hstep; exact hsame rfl
  · cases hstep
    exact hsame rfl

/-! ## What is left over -/

omit [DecidableEq H] [DecidableEq J] in
/-- A job that has ended holds what the check allows. -/
theorem InOrder.ended (hp : InOrder rules ends sys p) (hj : p.job d = some j) (hfreed : j.thread = .freed) :
    ends j.stage j.shape = true := by
  have hat := hp.at_ok d j hj
  rwa [hfreed] at hat

omit [DecidableEq H] [DecidableEq J] in
/-- What is there after an action that does not acquire it was there before. -/
theorem after_holds {r : R} {e : Effect R} {s s' : Shape R} (hafter : e.after s = some s') (he : e ≠ .gets r)
    (hr : s' r = true) : s r = true := by
  cases e with
  | nothing =>
      obtain rfl := Option.some.inj hafter
      exact hr
  | gets r' =>
      have hne : r ≠ r' := fun h => he (h ▸ rfl)
      simp only [Effect.after] at hafter
      split at hafter
      · cases hafter
      · obtain rfl := Option.some.inj hafter
        rwa [Function.update_of_ne hne] at hr
  | gives r' =>
      simp only [Effect.after] at hafter
      split at hafter
      · obtain rfl := Option.some.inj hafter
        by_cases hne : r = r'
        · subst hne
          assumption
        · rwa [Function.update_of_ne hne] at hr
      · cases hafter

variable {r : R} (hends : ∀ s, ends .main s = true → s r = true)
  (hgets : ∀ c, rules.succeeds c = true → (rules.call c).effect ≠ .gets r)
include hends

omit [DecidableEq H] [DecidableEq J] in
/-- Rungs acquire nothing, so what is there at the end of a ladder was there before. -/
theorem ladder_holds : ∀ {us : List U} {s : Shape R}, rules.LadderOk ends .main us s = true → s r = true
  | [], s, h => hends s h
  | u :: us, s, h => by
      simp only [Rules.LadderOk, Bool.or_eq_true, Bool.and_eq_true, decide_eq_true_iff] at h
      obtain ⟨s', hs', hrest⟩ := (Option.any_eq_true ..).mp (h.resolve_left fun hd => nomatch hd.2).2
      refine after_holds (Act.after_eq_some.mp hs').2 ?_ (ladder_holds hrest)
      unfold Rules.undoAct
      cases rules.gives u <;> nofun

omit [DecidableEq H] [DecidableEq J] in
theorem loop_holds {s : Shape R} (h : rules.LoopOk ends s = true) : s r = true := by
  simp only [Rules.LoopOk, Bool.and_eq_true] at h
  exact ladder_holds hends h.2

include hgets

omit [DecidableEq H] [DecidableEq J] in
/-- A call may fail, and then it is there, or it succeeds, and does not acquire it. -/
theorem script_holds : ∀ {todo : Script C U} {s : Shape R},
    rules.ScriptOk ends .main (rules.LoopOk ends) todo s = true → s r = true
  | [], s, h => loop_holds hends h
  | (c, ladder) :: todo, s, h => by
      simp only [Rules.ScriptOk, Bool.and_eq_true, Bool.or_eq_true] at h
      obtain ⟨hgo, hsucceeds | hfail⟩ := h
      · obtain ⟨s', hs', hrest⟩ := (Option.any_eq_true ..).mp hgo
        exact after_holds (Act.after_eq_some.mp hs').2 (hgets c hsucceeds) (script_holds hrest)
      · exact ladder_holds hends hfail.1

omit [DecidableEq H] [DecidableEq J] in
/-- **What the main function leaves behind it holds from its start on.** -/
theorem InOrder.main_holds (hp : InOrder rules ends sys p) (hj : p.job d = some j) (hmain : j.stage = .main) :
    ∃ h, p.holds (d, r) = some h := by
  have hat := hp.at_ok d j hj
  rw [hmain] at hat
  have hshape : j.shape r = true := by
    cases ht : j.thread with
    | handshake todo =>
        rw [ht] at hat
        exact script_holds hends hgets hat
    | loop =>
        simp only [ht, Rules.At, Bool.and_eq_true] at hat
        exact loop_holds hends hat.2
    | cleanup us =>
        rw [ht] at hat
        exact ladder_holds hends hat
    | freed =>
        rw [ht] at hat
        exact hends _ hat
  obtain ⟨h, hh⟩ := Option.isSome_iff_exists.mp hshape
  exact ⟨h, (holds_of_job hj).trans hh⟩

end

end Custody
