import Mathlib.Logic.Function.Basic
import P2pVn.DPeer.Sending

/-!
# `DPeer.WriteLock` — who holds `wlock` while a packet is written (`dpeer.c`)

The sending functions once more, this time with the lock that they share. A call is the list of what its thread
has still to do: take the lock, write some bytes (as many calls of `send` as that takes), release the lock.
Where `send` fails, `dp_psend_data` releases the lock, and `dp_psend_start`, where it was the caller, releases
it again.

`step` is one step of one of any number of calls in progress on one connection. The log keeps who took and
released the lock and which sends failed; the stream keeps which call wrote each byte.

- `Run.callOk`: what a call has taken and released, at any point of any run.
- `Run.guarded`: where no `send` fails in `dp_psend_start`, the lock is held by the call that is writing.
- `Run.released`: the two together.
-/

namespace P2pVn
open Bytes

namespace WriteLock

/-! ## The functions -/

/-- What a thread does next; `inStart` tells whether `dp_psend_start` is the caller of `dp_psend_data`. -/
inductive Instr where
  | lock
  | send (inStart : Bool) (rem : List UInt8)
  | unlock
  deriving DecidableEq, Repr

/-- What is left to do after a `send` that failed. -/
def errorPath (inStart : Bool) : List Instr := if inStart then [.unlock, .unlock] else [.unlock]

/-- `dp_psend_start`; `data` is `none` for a null pointer. -/
def dpPsendStart (type : PktType) (len : UInt16) (data : Option (List UInt8)) : List Instr :=
  .lock :: .send true (PktHeader.bytes ⟨htons type, htons len⟩) ::
    match data with
    | none => []
    | some data => [.send true data]

/-- `dp_send_packet`. -/
def dpSendPacket (type : PktType) (len : UInt16) (data : List UInt8) : List Instr :=
  dpPsendStart type len (some (data.take len.toNat)) ++ [.unlock]

/-- `dp_send_linkstate`. -/
def dpSendLinkstate (me : Ipv4Host) (edges : List PktEdge) : List Instr :=
  let len := plEdge * edges.length + plLinkGraphStatic
  dpPsendStart ptLinkGraph (UInt16.ofNat len) (some (linkGraphStatic me edges.length)) ++
    [.send false (edges.flatMap PktEdge.bytes), .unlock]

/-- A call of one of the two. -/
inductive SendCall where
  | packet (type : PktType) (len : UInt16) (data : List UInt8)
  | linkstate (me : Ipv4Host) (edges : List PktEdge)

def SendCall.program : SendCall → List Instr
  | .packet type len data => dpSendPacket type len data
  | .linkstate me edges => dpSendLinkstate me edges

/-! ## Calls in progress -/

/-- A release is logged with whoever held the lock, and a failed `send` with where it was. -/
inductive LockEvent where
  | acquire (c : Nat)
  | release (c : Nat) (holder : Option Nat)
  | failed (c : Nat) (inStart : Bool)
  deriving DecidableEq, Repr

/-- A connection: the lock, the calls made so far with what each has still to do, the bytes written with the
    call that wrote them, and the log, the newest first. -/
structure Conn where
  holder : Option Nat
  calls : Nat → Option (List Instr)
  stream : List (Nat × UInt8)
  log : List LockEvent

def Conn.start : Conn := ⟨none, fun _ => none, [], []⟩

/-- A step: a thread makes call number `c`, or a call takes the lock, has `send` accept `n` bytes, has `send`
    fail, or releases the lock. -/
inductive Action where
  | call (c : Nat) (k : SendCall)
  | lock (c : Nat)
  | send (c : Nat) (n : Nat)
  | sendFails (c : Nat)
  | unlock (c : Nat)

/-- What a step leads to, where it can be taken. `pthread_mutex_unlock` frees the lock, whoever holds it. -/
def step (s : Conn) : Action → Option Conn
  | .call c k =>
    match s.calls c with
    | none => some { s with calls := Function.update s.calls c (some k.program) }
    | some _ => none
  | .lock c =>
    match s.calls c, s.holder with
    | some (.lock :: p), none =>
      some { s with holder := some c, calls := Function.update s.calls c (some p), log := .acquire c :: s.log }
    | _, _ => none
  | .send c n =>
    match s.calls c with
    | some (.send inStart rem :: p) =>
      if n ≤ rem.length then
        some { s with
          calls := Function.update s.calls c
            (some (if rem.length ≤ n then p else .send inStart (rem.drop n) :: p))
          stream := s.stream ++ (rem.take n).map fun b => (c, b) }
      else none
    | _ => none
  | .sendFails c =>
    match s.calls c with
    | some (.send inStart _ :: _) =>
      some { s with calls := Function.update s.calls c (some (errorPath inStart)), log := .failed c inStart :: s.log }
    | _ => none
  | .unlock c =>
    match s.calls c with
    | some (.unlock :: p) =>
      some { s with holder := none, calls := Function.update s.calls c (some p), log := .release c s.holder :: s.log }
    | _ => none

/-- The states that are reached by any steps. -/
inductive Run : Conn → Prop
  | start : Run .start
  | step {s s'} (h : Run s) (a : Action) (hs : step s a = some s') : Run s'

/-- How often `c` took the lock. -/
def acquires (c : Nat) (log : List LockEvent) : Nat := log.countP fun e => e = .acquire c

/-- How often `c` released it. -/
def releases (c : Nat) (log : List LockEvent) : Nat :=
  log.countP fun e => match e with
    | .release d _ => d = c
    | _ => false

/-- Between two bytes of a call there are no others. -/
def Unmixed (stream : List (Nat × UInt8)) : Prop :=
  ∀ (i j k : Nat) (a b d : Nat × UInt8), i < j → j < k → stream[i]? = some a → stream[j]? = some b → stream[k]? = some d →
    a.1 = d.1 → b.1 = a.1

/-! ## What a step does -/

section

variable {s s' : Conn} {c n : Nat} {k : SendCall}

/-- Inversion of the steps, one lemma each: a call begins, -/
theorem step_call (h : step s (.call c k) = some s') :
    s.calls c = none ∧ s' = { s with calls := Function.update s.calls c (some k.program) } := by
  simp only [step] at h
  split at h
  · rename_i hc
    exact ⟨hc, (Option.some.inj h).symm⟩
  · cases h

/-- takes the lock that nobody holds, -/
theorem step_lock (h : step s (.lock c) = some s') :
    ∃ p, s.calls c = some (.lock :: p) ∧ s.holder = none ∧ s' =
      { s with holder := some c, calls := Function.update s.calls c (some p), log := .acquire c :: s.log } := by
  simp only [step] at h
  split at h
  · rename_i p hc hfree
    exact ⟨p, hc, hfree, (Option.some.inj h).symm⟩
  · cases h

/-- sends some of what is left to send, -/
theorem step_send (h : step s (.send c n) = some s') :
    ∃ inStart rem p, s.calls c = some (.send inStart rem :: p) ∧ n ≤ rem.length ∧ s' =
      { s with
        calls := Function.update s.calls c (some (if rem.length ≤ n then p else .send inStart (rem.drop n) :: p))
        stream := s.stream ++ (rem.take n).map fun b => (c, b) } := by
  simp only [step] at h
  split at h
  · rename_i inStart rem p hc
    split at h
    · rename_i hn
      exact ⟨inStart, rem, p, hc, hn, (Option.some.inj h).symm⟩
    · cases h
  · cases h

/-- fails to send and goes on with the error path of where it is, -/
theorem step_sendFails (h : step s (.sendFails c) = some s') :
    ∃ inStart rem p, s.calls c = some (.send inStart rem :: p) ∧ s' =
      { s with calls := Function.update s.calls c (some (errorPath inStart)), log := .failed c inStart :: s.log } := by
  simp only [step] at h
  split at h
  · rename_i inStart rem p hc
    exact ⟨inStart, rem, p, hc, (Option.some.inj h).symm⟩
  · cases h

/-- or unlocks, whoever holds the lock. -/
theorem step_unlock (h : step s (.unlock c) = some s') :
    ∃ p, s.calls c = some (.unlock :: p) ∧ s' =
      { s with holder := none, calls := Function.update s.calls c (some p), log := .release c s.holder :: s.log } := by
  simp only [step] at h
  split at h
  · rename_i p hc
    exact ⟨p, hc, (Option.some.inj h).symm⟩
  · cases h

end

/-! ## One call -/

/-- What a call has to do that has the lock and met no error in `dp_psend_start`. -/
inductive Inside : List Instr → Prop
  | last : Inside [.unlock]
  | send {p} (inStart : Bool) (rem : List UInt8) (h : Inside p) : Inside (.send inStart rem :: p)

/-- Both functions begin with the lock, and unlock on every way out. -/
theorem SendCall.program_eq (k : SendCall) : ∃ p, k.program = .lock :: p ∧ Inside p := by
  cases k with
  | packet type len data => exact ⟨_, rfl, .send _ _ (.send _ _ .last)⟩
  | linkstate me edges => exact ⟨_, rfl, .send _ _ (.send _ _ (.send _ _ .last))⟩

/-- What a call has taken, released and met, by what it has still to do. -/
inductive CallOk (c : Nat) (log : List LockEvent) : Option (List Instr) → Prop
  | unmade (ha : acquires c log = 0) (hr : releases c log = 0) (hf : .failed c true ∉ log) : CallOk c log none
  | waiting {p} (hp : Inside p) (ha : acquires c log = 0) (hr : releases c log = 0)
      (hf : .failed c true ∉ log) : CallOk c log (some (.lock :: p))
  | inside {p} (hp : Inside p) (ha : acquires c log = 1) (hr : releases c log = 0)
      (hf : .failed c true ∉ log) : CallOk c log (some p)
  | done (ha : acquires c log = 1) (hr : releases c log = 1) (hf : .failed c true ∉ log) : CallOk c log (some [])
  | failed (n : Nat) (ha : acquires c log = 1) (hr : releases c log + n = 2) (hf : .failed c true ∈ log) :
      CallOk c log (some (List.replicate n .unlock))

/-- An event that is not about a call changes nothing for it. -/
theorem CallOk.cons {c : Nat} {log : List LockEvent} {p : Option (List Instr)} {e : LockEvent}
    (h : CallOk c log p) (ha : e ≠ .acquire c) (hr : ∀ o, e ≠ .release c o) (hf : e ≠ .failed c true) :
    CallOk c (e :: log) p := by
  have hacq : acquires c (e :: log) = acquires c log := by simp [acquires, ha]
  have hrel : releases c (e :: log) = releases c log := by
    unfold releases
    rw [List.countP_cons_of_neg]
    cases e with
    | release d o =>
        intro hd
        rw [of_decide_eq_true hd] at hr
        exact hr o rfl
    | acquire d => exact Bool.false_ne_true
    | failed d st => exact Bool.false_ne_true
  have hfail : LockEvent.failed c true ∈ e :: log ↔ .failed c true ∈ log := by
    rw [List.mem_cons]
    exact or_iff_right (Ne.symm hf)
  cases h with
  | unmade h1 h2 h3 => exact .unmade (hacq ▸ h1) (hrel ▸ h2) (mt hfail.mp h3)
  | waiting hp h1 h2 h3 => exact .waiting hp (hacq ▸ h1) (hrel ▸ h2) (mt hfail.mp h3)
  | inside hp h1 h2 h3 => exact .inside hp (hacq ▸ h1) (hrel ▸ h2) (mt hfail.mp h3)
  | done h1 h2 h3 => exact .done (hacq ▸ h1) (hrel ▸ h2) (mt hfail.mp h3)
  | failed n h1 h2 h3 => exact .failed n (hacq ▸ h1) (hrel ▸ h2) (hfail.mpr h3)

section

variable {c n : Nat} {log : List LockEvent} {inStart : Bool} {rem : List UInt8} {p : List Instr}

/-- A call that is about to take the lock has done nothing yet. -/
theorem CallOk.fresh (h : CallOk c log (some (.lock :: p))) :
    Inside p ∧ acquires c log = 0 ∧ releases c log = 0 ∧ .failed c true ∉ log := by
  generalize ho : some (Instr.lock :: p) = o at h
  cases h with
  | unmade => cases ho
  | waiting hp ha hr hf =>
      cases ho
      exact ⟨hp, ha, hr, hf⟩
  | inside hp =>
      cases ho
      cases hp
  | done => cases ho
  | failed n => cases n <;> cases ho

/-- A call that is writing has the lock, and met no error in `dp_psend_start`. -/
theorem CallOk.sending (h : CallOk c log (some (.send inStart rem :: p))) :
    Inside p ∧ acquires c log = 1 ∧ releases c log = 0 ∧ .failed c true ∉ log := by
  generalize ho : some (Instr.send inStart rem :: p) = o at h
  cases h with
  | unmade => cases ho
  | waiting => cases ho
  | inside hp ha hr hf =>
      cases ho
      cases hp with
      | send _ _ hp => exact ⟨hp, ha, hr, hf⟩
  | done => cases ho
  | failed n => cases n <;> cases ho

/-- A call that is about to release the lock is at its end, or on the error path of `dp_psend_start`. -/
theorem CallOk.releasing (h : CallOk c log (some (.unlock :: p))) :
    acquires c log = 1 ∧ ((p = [] ∧ releases c log = 0 ∧ .failed c true ∉ log) ∨
      ∃ n, p = List.replicate n .unlock ∧ releases c log + (n + 1) = 2 ∧ .failed c true ∈ log) := by
  generalize ho : some (Instr.unlock :: p) = o at h
  cases h with
  | unmade => cases ho
  | waiting => cases ho
  | inside hp ha hr hf =>
      cases ho
      cases hp with
      | last => exact ⟨ha, Or.inl ⟨rfl, hr, hf⟩⟩
  | done => cases ho
  | failed n ha hr hf =>
      cases n with
      | zero => cases ho
      | succ n =>
          cases ho
          exact ⟨ha, Or.inr ⟨n, rfl, hr, hf⟩⟩

/-- A call that is done took the lock once, and released it once or, after an error, twice. -/
theorem CallOk.finished (h : CallOk c log (some [])) :
    acquires c log = 1 ∧ ((releases c log = 1 ∧ .failed c true ∉ log) ∨
      (releases c log = 2 ∧ .failed c true ∈ log)) := by
  generalize ho : some ([] : List Instr) = o at h
  cases h with
  | unmade => cases ho
  | waiting => cases ho
  | inside hp =>
      cases ho
      cases hp
  | done ha hr hf => exact ⟨ha, Or.inl ⟨hr, hf⟩⟩
  | failed n ha hr hf =>
      cases n with
      | zero => exact ⟨ha, Or.inr ⟨hr, hf⟩⟩
      | succ n => cases ho

/-- A call that has taken the lock has done so once. -/
theorem CallOk.locked (h : CallOk c log (some (.lock :: p))) : CallOk c (.acquire c :: log) (some p) := by
  obtain ⟨hp, ha, hr, hf⟩ := h.fresh
  exact .inside hp (by simpa [acquires] using ha) hr (by simpa using hf)

theorem CallOk.sent (h : CallOk c log (some (.send inStart rem :: p))) :
    CallOk c log (some (if rem.length ≤ n then p else .send inStart (rem.drop n) :: p)) := by
  obtain ⟨hp, ha, hr, hf⟩ := h.sending
  split
  · exact .inside hp ha hr hf
  · exact .inside (.send _ _ hp) ha hr hf

/-- An error leads to one unlock more, or two. -/
theorem CallOk.sendFailed (h : CallOk c log (some (.send inStart rem :: p))) :
    CallOk c (.failed c inStart :: log) (some (errorPath inStart)) := by
  obtain ⟨-, ha, hr, hf⟩ := h.sending
  cases inStart with
  | true => exact .failed 2 (by simpa [acquires] using ha) (by simpa [releases] using hr) List.mem_cons_self
  | false =>
      exact .inside .last (by simpa [acquires] using ha) (by simpa [releases] using hr) (by simpa using hf)

theorem CallOk.unlocked (h : CallOk c log (some (.unlock :: p))) (o : Option Nat) :
    CallOk c (.release c o :: log) (some p) := by
  obtain ⟨ha, ⟨rfl, hr, hf⟩ | ⟨n, rfl, hr, hf⟩⟩ := h.releasing
  · exact .done (by simpa [acquires] using ha) (by simpa [releases] using hr) (by simpa using hf)
  · refine .failed n (by simpa [acquires] using ha) ?_ (List.mem_cons_of_mem _ hf)
    simp only [releases, List.countP_cons, decide_true, if_true] at hr ⊢
    omega

end

/-- Run lemma for one call: its own part of the log. -/
theorem Run.callOk {s : Conn} (h : Run s) (c : Nat) : CallOk c s.log (s.calls c) := by
  induction h with
  | start => exact .unmade rfl rfl nofun
  | @step s s' _ a hs ih =>
      cases a with
      | call d k =>
          obtain ⟨hd, rfl⟩ := step_call hs
          by_cases hcd : c = d
          · subst hcd
            rw [hd] at ih
            -- both calls begin by taking the lock
            obtain ⟨p, hp, hin⟩ := k.program_eq
            simp only [Function.update_self, hp]
            cases ih with
            | unmade ha hr hf => exact .waiting hin ha hr hf
          · simp only [Function.update_of_ne hcd]
            exact ih
      | lock d =>
          obtain ⟨p, hd, -, rfl⟩ := step_lock hs
          by_cases hcd : c = d
          · subst hcd
            simp only [Function.update_self]
            rw [hd] at ih
            exact ih.locked
          · simp only [Function.update_of_ne hcd]
            exact ih.cons (by simpa using Ne.symm hcd) nofun nofun
      | send d n =>
          obtain ⟨inStart, rem, p, hd, -, rfl⟩ := step_send hs
          by_cases hcd : c = d
          · subst hcd
            simp only [Function.update_self]
            rw [hd] at ih
            exact ih.sent
          · simp only [Function.update_of_ne hcd]
            exact ih
      | sendFails d =>
          obtain ⟨inStart, rem, p, hd, rfl⟩ := step_sendFails hs
          by_cases hcd : c = d
          · subst hcd
            simp only [Function.update_self]
            rw [hd] at ih
            exact ih.sendFailed
          · simp only [Function.update_of_ne hcd]
            refine ih.cons nofun nofun ?_
            rintro ⟨⟩
            exact hcd rfl
      | unlock d =>
          obtain ⟨p, hd, rfl⟩ := step_unlock hs
          by_cases hcd : c = d
          · subst hcd
            simp only [Function.update_self]
            rw [hd] at ih
            exact ih.unlocked s.holder
          · simp only [Function.update_of_ne hcd]
            refine ih.cons nofun ?_ nofun
            rintro o ⟨⟩
            exact hcd rfl

/-! ## The lock and the stream -/

/-- What holds where no `send` failed in `dp_psend_start`: the lock is held by the call that is between taking
    and releasing it, each release was by the holder, and the bytes of the holder are the last of the stream. -/
structure Guarded (s : Conn) : Prop where
  holder : ∀ c, s.holder = some c ↔ ∃ p, s.calls c = some p ∧ Inside p
  held : ∀ c o, .release c o ∈ s.log → o = some c
  wrote : ∀ e ∈ s.stream, acquires e.1 s.log = 1
  unmixed : Unmixed s.stream
  last : ∀ c, s.holder = some c → ∃ before own, s.stream = before ++ own ∧ (∀ e ∈ before, e.1 ≠ c) ∧ ∀ e ∈ own, e.1 = c

/-- More bytes of the call that wrote last keep the calls apart. -/
theorem Unmixed.append {before own more : List (Nat × UInt8)} {c : Nat} (h : Unmixed (before ++ own))
    (hbefore : ∀ e ∈ before, e.1 ≠ c) (hown : ∀ e ∈ own ++ more, e.1 = c) :
    Unmixed (before ++ (own ++ more)) := by
  intro i j k a b d hij hjk ha hb hd had
  have hpos : ∀ {i : Nat} {a : Nat × UInt8}, (before ++ (own ++ more))[i]? = some a →
      (before[i]? = some a ∧ a.1 ≠ c) ∨ (before.length ≤ i ∧ a.1 = c) := by
    intro i a ha
    rcases Nat.lt_or_ge i before.length with hi | hi
    · rw [List.getElem?_append_left hi] at ha
      exact Or.inl ⟨ha, hbefore a (List.mem_of_getElem? ha)⟩
    · rw [List.getElem?_append_right hi] at ha
      exact Or.inr ⟨hi, hown a (List.mem_of_getElem? ha)⟩
  have hold : ∀ {i : Nat} {a : Nat × UInt8}, before[i]? = some a → (before ++ own)[i]? = some a := by
    intro i a ha
    rw [List.getElem?_append_left (List.getElem?_eq_some_iff.mp ha).1]
    exact ha
  rcases hpos ha with ⟨ha, hac⟩ | ⟨hi, hac⟩
  · -- the two bytes are old ones
    rcases hpos hd with ⟨hd, -⟩ | ⟨-, hdc⟩
    · rcases hpos hb with ⟨hb, -⟩ | ⟨hj, -⟩
      · exact h i j k a b d hij hjk (hold ha) (hold hb) (hold hd) had
      · have := (List.getElem?_eq_some_iff.mp hd).1
        omega
    · exact absurd (had.trans hdc) hac
  · rcases hpos hb with ⟨hb, -⟩ | ⟨-, hbc⟩
    · have := (List.getElem?_eq_some_iff.mp hb).1
      omega
    · rw [hbc, hac]

theorem guarded_start : Guarded .start where
  holder c := by
    constructor
    · exact nofun
    · rintro ⟨p, hp, -⟩
      cases hp
  held := nofun
  wrote := nofun
  unmixed := by
    intro i j k a b d _ _ ha
    cases ha
  last := nofun

/-- A call that is about to write holds the lock. -/
theorem Guarded.writer {s : Conn} (h : Guarded s) (hr : Run s) {c : Nat} {inStart : Bool} {rem : List UInt8}
    {p : List Instr} (hc : s.calls c = some (.send inStart rem :: p)) :
    s.holder = some c ∧ Inside p ∧ acquires c s.log = 1 := by
  have hok := hr.callOk c
  rw [hc] at hok
  obtain ⟨hp, ha, -⟩ := hok.sending
  exact ⟨(h.holder c).mpr ⟨_, hc, .send _ _ hp⟩, hp, ha⟩

theorem not_inside_nil : ¬ Inside [] := nofun

theorem not_inside_lock (p : List Instr) : ¬ Inside (.lock :: p) := nofun

/-- Only the holder is inside, so another call that is would hold the lock too. -/
theorem Guarded.only {s : Conn} (h : Guarded s) {c d : Nat} {p : List Instr} (hd : s.holder = some d)
    (hc : s.calls c = some p) (hp : Inside p) : c = d := by
  have hholder := (h.holder c).mpr ⟨p, hc, hp⟩
  rw [hd] at hholder
  exact (Option.some.inj hholder).symm

theorem Guarded.call {s s' : Conn} (h : Guarded s) {d : Nat} {k : SendCall} (hs : step s (.call d k) = some s') :
    Guarded s' := by
  obtain ⟨hd, rfl⟩ := step_call hs
  refine { h with holder := fun c => ?_ }
  by_cases hcd : c = d
  · subst hcd
    obtain ⟨p, hp, -⟩ := k.program_eq
    simp only [Function.update_self, Option.some.injEq, exists_eq_left', hp, not_inside_lock, iff_false]
    rw [h.holder c, hd]
    exact nofun
  · simp only [Function.update_of_ne hcd]
    exact h.holder c

/-- Step lemma for the lock: who takes it is the only one inside. -/
theorem Guarded.lock {s s' : Conn} (h : Guarded s) (hr : Run s) {d : Nat} (hs : step s (.lock d) = some s') :
    Guarded s' := by
  obtain ⟨p, hd, hfree, rfl⟩ := step_lock hs
  have hok := hr.callOk d
  rw [hd] at hok
  -- nobody else is between taking and releasing the lock
  have hnone : ∀ c q, s.calls c = some q → ¬ Inside q := by
    intro c q hq hin
    have hholder := (h.holder c).mpr ⟨q, hq, hin⟩
    rw [hfree] at hholder
    cases hholder
  obtain ⟨hp, ha, -⟩ := hok.fresh
  -- a call that took the lock only now has written nothing
  have hnew : ∀ e ∈ s.stream, e.1 ≠ d := by
    intro e he hed
    have := h.wrote e he
    rw [hed, ha] at this
    cases this
  constructor
  · intro c
    by_cases hcd : c = d
    · subst hcd
      simp [hp]
    · simp only [Function.update_of_ne hcd, Option.some.injEq]
      exact ⟨fun he => absurd he.symm hcd, fun ⟨q, hq, hin⟩ => absurd hin (hnone c q hq)⟩
  · intro c o he
    rcases List.mem_cons.mp he with he | he
    · cases he
    · exact h.held c o he
  · intro e he
    have hne : LockEvent.acquire d ≠ .acquire e.1 := by
      rintro ⟨⟩
      exact hnew e he rfl
    have := h.wrote e he
    simpa [acquires, hne] using this
  · exact h.unmixed
  · intro c hc
    cases hc
    exact ⟨s.stream, [], (List.append_nil _).symm, hnew, nofun⟩

/-- Step lemma for sending: only the holder sends. -/
theorem Guarded.send {s s' : Conn} (h : Guarded s) (hr : Run s) {d n : Nat}
    (hs : step s (.send d n) = some s') : Guarded s' := by
  obtain ⟨inStart, rem, p, hd, -, rfl⟩ := step_send hs
  obtain ⟨hholder, hp, ha⟩ := h.writer hr hd
  obtain ⟨before, own, hstream, hbefore, hown⟩ := h.last d hholder
  -- what is written comes behind what the call wrote before
  have hmore : ∀ e ∈ own ++ (rem.take n).map fun b => (d, b), e.1 = d := by
    intro e he
    rcases List.mem_append.mp he with he | he
    · exact hown e he
    · obtain ⟨b, -, rfl⟩ := List.mem_map.mp he
      rfl
  have hrest : Inside (if rem.length ≤ n then p else .send inStart (rem.drop n) :: p) := by
    split
    · exact hp
    · exact .send _ _ hp
  constructor
  · intro c
    by_cases hcd : c = d
    · subst hcd
      simp [hholder, hrest]
    · simp only [Function.update_of_ne hcd]
      exact h.holder c
  · exact h.held
  · intro e he
    rcases List.mem_append.mp he with he | he
    · exact h.wrote e he
    · obtain ⟨b, -, rfl⟩ := List.mem_map.mp he
      exact ha
  · simp only [hstream, List.append_assoc]
    exact (hstream ▸ h.unmixed).append hbefore hmore
  · intro c hc
    rw [hholder] at hc
    cases hc
    exact ⟨before, _, by rw [hstream, List.append_assoc], hbefore, hmore⟩

/-- Step lemma for an error that leads to one unlock. -/
theorem Guarded.sendFails {s s' : Conn} (h : Guarded s) (hr : Run s) {d : Nat}
    (hs : step s (.sendFails d) = some s') (hfine : .failed d true ∉ s'.log) : Guarded s' := by
  obtain ⟨inStart, rem, p, hd, rfl⟩ := step_sendFails hs
  obtain ⟨hholder, -, -⟩ := h.writer hr hd
  cases inStart with
  | true => exact absurd List.mem_cons_self hfine
  | false =>
      refine { h with holder := fun c => ?_, held := fun c o he => ?_, wrote := fun e he => ?_ }
      · by_cases hcd : c = d
        · subst hcd
          simp only [Function.update_self, hholder, Option.some.injEq, exists_eq_left', true_iff]
          exact .last
        · simp only [Function.update_of_ne hcd]
          exact h.holder c
      · rcases List.mem_cons.mp he with he | he
        · cases he
        · exact h.held c o he
      · have := h.wrote e he
        simpa [acquires] using this

/-- Step lemma for the unlock: without a second one it is the holder's. -/
theorem Guarded.unlock {s s' : Conn} (h : Guarded s) (hr : Run s) {d : Nat}
    (hs : step s (.unlock d) = some s') (hfine : .failed d true ∉ s.log) : Guarded s' := by
  obtain ⟨p, hd, rfl⟩ := step_unlock hs
  have hok := hr.callOk d
  rw [hd] at hok
  -- without an error in `dp_psend_start` this is the one release of the call
  obtain ⟨-, ⟨rfl, -, -⟩ | ⟨n, -, -, hf⟩⟩ := hok.releasing
  swap
  · exact absurd hf hfine
  have hholder : s.holder = some d := (h.holder d).mpr ⟨_, hd, .last⟩
  constructor
  · intro c
    by_cases hcd : c = d
    · subst hcd
      simp [not_inside_nil]
    · simp only [Function.update_of_ne hcd]
      exact ⟨nofun, fun ⟨q, hq, hin⟩ => absurd (h.only hholder hq hin) hcd⟩
  · intro c o he
    rcases List.mem_cons.mp he with he | he
    · cases he
      exact hholder
    · exact h.held c o he
  · intro e he
    have := h.wrote e he
    simpa [acquires] using this
  · exact h.unmixed
  · intro c hc
    cases hc

/-- What is logged stays logged. -/
theorem step_log {s s' : Conn} {a : Action} (hs : step s a = some s') : ∀ e ∈ s.log, e ∈ s'.log := by
  intro e he
  cases a with
  | call d k =>
      obtain ⟨-, rfl⟩ := step_call hs
      exact he
  | lock d =>
      obtain ⟨p, -, -, rfl⟩ := step_lock hs
      exact List.mem_cons_of_mem _ he
  | send d n =>
      obtain ⟨inStart, rem, p, -, -, rfl⟩ := step_send hs
      exact he
  | sendFails d =>
      obtain ⟨inStart, rem, p, -, rfl⟩ := step_sendFails hs
      exact List.mem_cons_of_mem _ he
  | unlock d =>
      obtain ⟨p, -, rfl⟩ := step_unlock hs
      exact List.mem_cons_of_mem _ he

/-- **Where no `send` fails in `dp_psend_start`, the lock guards the stream.** -/
theorem Run.guarded {s : Conn} (h : Run s) (hfine : ∀ c, .failed c true ∉ s.log) : Guarded s := by
  induction h with
  | start => exact guarded_start
  | @step s s' hr a hs ih =>
      have hbefore : ∀ c, .failed c true ∉ s.log := fun c hc => hfine c (step_log hs _ hc)
      have hg := ih hbefore
      cases a with
      | call d k => exact hg.call hs
      | lock d => exact hg.lock hr hs
      | send d n => exact hg.send hr hs
      | sendFails d => exact hg.sendFails hr hs (hfine d)
      | unlock d => exact hg.unlock hr hs (hbefore d)

/-- **The write lock is released once, by its holder**, in every run in which no `send` fails in
    `dp_psend_start`: a call takes the lock at most once, releases it at most as often, and once each when it is
    done; every release is by the holder; and the bytes of the calls are not mixed. A call in which a `send`
    failed there has released the lock twice when it is done. -/
theorem Run.released {s : Conn} (h : Run s) :
    ((∀ c, .failed c true ∉ s.log) →
      (∀ c, acquires c s.log ≤ 1 ∧ releases c s.log ≤ acquires c s.log) ∧
      (∀ c, s.calls c = some [] → acquires c s.log = 1 ∧ releases c s.log = 1) ∧
      (∀ c o, .release c o ∈ s.log → o = some c) ∧ Unmixed s.stream) ∧
    ∀ c, .failed c true ∈ s.log → s.calls c = some [] → releases c s.log = 2 := by
  constructor
  · intro hfine
    have hg := h.guarded hfine
    refine ⟨fun c => ?_, fun c hc => ?_, hg.held, hg.unmixed⟩
    · have hok := h.callOk c
      generalize s.calls c = o at hok
      cases hok with
      | unmade ha hr => omega
      | waiting _ ha hr => omega
      | inside _ ha hr => omega
      | done ha hr => omega
      | failed n _ _ hf => exact absurd hf (hfine c)
    · -- a call that is done has released once, unless a `send` failed, which none did
      have hok := h.callOk c
      rw [hc] at hok
      obtain ⟨ha, ⟨hr, -⟩ | ⟨-, hf⟩⟩ := hok.finished
      · exact ⟨ha, hr⟩
      · exact absurd hf (hfine c)
  · intro c hf hc
    have hok := h.callOk c
    rw [hc] at hok
    obtain ⟨-, ⟨-, hf'⟩ | ⟨hr, -⟩⟩ := hok.finished
    · exact absurd hf hf'
    · exact hr

/-! ## Sample runs -/

/-- Several steps. -/
def runActions : List Action → Conn → Option Conn
  | [], s => some s
  | a :: as, s => (step s a).bind (runActions as)

theorem Run.steps {s s' : Conn} (h : Run s) (as : List Action) (hs : runActions as s = some s') : Run s' := by
  induction as generalizing s with
  | nil =>
      cases hs
      exact h
  | cons a as ih =>
      obtain ⟨s1, h1, hs⟩ := Option.bind_eq_some_iff.mp hs
      exact ih (h.step a h1) hs

/-- A probe response, as a call. -/
def sampleCall : SendCall := .packet ptProbeResp 2 [1, 2]

/-- Two calls, one after the other. -/
theorem Run.released_sample : ∃ s, Run s ∧ s.calls 0 = some [] ∧ releases 0 s.log = 1 ∧ Unmixed s.stream := by
  have h : (runActions [.call 0 sampleCall, .call 1 sampleCall, .lock 0, .send 0 3, .send 0 1, .send 0 2, .unlock 0,
      .lock 1, .send 1 4] .start).map (fun s => (s.calls 0, s.log))
      = some (some [], [.acquire 1, .release 0 (some 0), .acquire 0]) := by
    decide +kernel
  obtain ⟨s, hs, hlog⟩ := Option.map_eq_some_iff.mp h
  simp only [Prod.mk.injEq] at hlog
  have hrun : Run s := Run.start.steps _ hs
  obtain ⟨-, hdone, -, hunmixed⟩ := (Run.released hrun).1 (by simp [hlog.2])
  exact ⟨s, hrun, hlog.1, (hdone 0 hlog.1).2, hunmixed⟩

/-- **A header that cannot be sent releases another call's lock**, and a third call writes in the middle of
    that one's packet. -/
theorem released_for_another : ∃ s, Run s ∧ .release 0 (some 1) ∈ s.log ∧ ¬ Unmixed s.stream := by
  have h : (runActions [.call 0 sampleCall, .call 1 sampleCall, .call 2 sampleCall, .lock 0, .sendFails 0, .unlock 0,
      .lock 1, .send 1 4, .unlock 0, .lock 2, .send 2 4, .send 1 2] .start).map
        (fun s => (s.log.contains (.release 0 (some 1)), s.stream.map Prod.fst))
      = some (true, [1, 1, 1, 1, 2, 2, 2, 2, 1, 1]) := by
    decide +kernel
  obtain ⟨s, hs, hlog⟩ := Option.map_eq_some_iff.mp h
  simp only [Prod.mk.injEq, List.contains_iff_mem] at hlog
  refine ⟨s, Run.start.steps _ hs, hlog.1, fun hun => ?_⟩
  have hat : ∀ i : Nat, (s.stream[i]?).map Prod.fst = [1, 1, 1, 1, 2, 2, 2, 2, 1, 1][i]? := by
    intro i
    rw [← List.getElem?_map, hlog.2]
  obtain ⟨a, ha, ha1⟩ := Option.map_eq_some_iff.mp (hat 3)
  obtain ⟨b, hb, hb2⟩ := Option.map_eq_some_iff.mp (hat 4)
  obtain ⟨d, hd, hd1⟩ := Option.map_eq_some_iff.mp (hat 8)
  have := hun 3 4 8 a b d (by decide) (by decide) ha hb hd (ha1.trans hd1.symm)
  rw [ha1, hb2] at this
  cases this

end WriteLock

end P2pVn
