import Mathlib.Algebra.BigOperators.Group.Finset.Piecewise
import Mathlib.Algebra.Order.BigOperators.Group.Finset
import Mathlib.Data.List.Basic
import Mathlib.Logic.Function.Basic

/-!
# `Lib.Channel` — queues of messages, and the streams of bytes that carry them

A `Queue` is what a connection is for: the messages that were put in, in their order, and how many of them were
taken out. A `Stream` is what a connection is: the bytes that were sent, and how many of them were read. With a
code `enc` for messages, `Carries` says that a stream is as its queue is.

- **Queues.** `Queue.put` and `Queue.take`; what was taken out is a prefix of what was put in, by construction.
  `putAll` puts messages into the queues of a family.
- **Streams.** `Carries.put`, `Carries.take`: both follow the queue. `Carries.head`: a stream with something
  left begins with the code of the message that is next.
- **Counting.** `inFlight` counts the messages of a kind that wait in some of the queues; `inFlight_putAll_le` and
  `inFlight_take_le` say what putting and taking do to it.
-/

namespace Channel

variable {M ι : Type}

/-! ## Queues -/

/-- The messages that were put in, and the number of those that were taken out. -/
structure Queue (M : Type) where
  log : List M
  taken : Nat
  le : taken ≤ log.length

namespace Queue

/-- The queue into which nothing was put yet. -/
def empty : Queue M := ⟨[], 0, Nat.le_refl 0⟩

def put (c : Queue M) (m : M) : Queue M where
  log := c.log ++ [m]
  taken := c.taken
  le := by
    rw [List.length_append]
    exact Nat.le_add_right_of_le c.le

/-- The message that is next. -/
def next? (c : Queue M) : Option M := c.log[c.taken]?

/-- Take out the message that is next. -/
def take (c : Queue M) (h : c.next? ≠ none) : Queue M where
  log := c.log
  taken := c.taken + 1
  le := by
    rw [next?, ne_eq, List.getElem?_eq_none_iff, Nat.not_le] at h
    exact h

/-- What was taken out. -/
def got (c : Queue M) : List M := c.log.take c.taken

/-- What was not. -/
def waiting (c : Queue M) : List M := c.log.drop c.taken

/-- What was taken and what waits is all that was ever put in. -/
theorem got_append_waiting (c : Queue M) : c.got ++ c.waiting = c.log := List.take_append_drop _ _

@[simp] theorem log_put (c : Queue M) (m : M) : (c.put m).log = c.log ++ [m] := rfl

@[simp] theorem taken_put (c : Queue M) (m : M) : (c.put m).taken = c.taken := rfl

@[simp] theorem log_take (c : Queue M) (h : c.next? ≠ none) : (c.take h).log = c.log := rfl

@[simp] theorem got_put (c : Queue M) (m : M) : (c.put m).got = c.got := List.take_append_of_le_length c.le

theorem waiting_of_next {c : Queue M} {m : M} (h : c.next? = some m) :
    c.waiting = m :: c.log.drop (c.taken + 1) := by
  obtain ⟨hlt, he⟩ := List.getElem?_eq_some_iff.mp h
  rw [waiting, List.drop_eq_getElem_cons hlt, he]

theorem got_take {c : Queue M} {m : M} (h : c.next? = some m) (h' : c.next? ≠ none) :
    (c.take h').got = c.got ++ [m] := by
  show c.log.take (c.taken + 1) = c.log.take c.taken ++ [m]
  rw [List.take_add_one, show c.log[c.taken]? = some m from h]
  rfl

/-- The next message is one that was put in. -/
theorem mem_of_next {c : Queue M} {m : M} (h : c.next? = some m) : m ∈ c.log := List.mem_of_getElem? h

end Queue

/-- Put messages into the queues of a family, one after the other. -/
def putAll [DecidableEq ι] (ms : List (ι × M)) (cs : ι → Queue M) : ι → Queue M :=
  ms.foldl (fun cs m => Function.update cs m.1 ((cs m.1).put m.2)) cs

section

variable [DecidableEq ι]

@[simp] theorem putAll_nil (cs : ι → Queue M) : putAll [] cs = cs := rfl

theorem putAll_cons (m : ι × M) (ms : List (ι × M)) (cs : ι → Queue M) :
    putAll (m :: ms) cs = putAll ms (Function.update cs m.1 ((cs m.1).put m.2)) := rfl

/-- **Each queue gets the messages that are for it, in order**, and nothing is taken out. -/
theorem putAll_apply (i : ι) : ∀ (ms : List (ι × M)) (cs : ι → Queue M),
    (putAll ms cs i).log = (cs i).log ++ (ms.filter fun m => m.1 = i).map Prod.snd ∧
      (putAll ms cs i).taken = (cs i).taken := by
  intro ms
  induction ms with
  | nil =>
      intro cs
      simp
  | cons m ms ih =>
      intro cs
      rw [putAll_cons, (ih _).1, (ih _).2]
      by_cases hm : m.1 = i
      · subst hm
        simp
      · rw [Function.update_of_ne (Ne.symm hm), List.filter_cons_of_neg (by simpa using hm)]
        exact ⟨rfl, rfl⟩

/-- Putting messages in takes none out. -/
theorem putAll_got (ms : List (ι × M)) (cs : ι → Queue M) (i : ι) : (putAll ms cs i).got = (cs i).got := by
  obtain ⟨hlog, htaken⟩ := putAll_apply i ms cs
  rw [Queue.got, hlog, htaken, List.take_append_of_le_length (cs i).le]
  rfl

theorem putAll_log_prefix (ms : List (ι × M)) (cs : ι → Queue M) (i : ι) : (cs i).log <+: (putAll ms cs i).log := by
  rw [(putAll_apply i ms cs).1]
  exact List.prefix_append _ _

/-- Taking a message out leaves what was put in. -/
theorem log_update_take (cs : ι → Queue M) {j : ι} (h : (cs j).next? ≠ none) (i : ι) :
    (Function.update cs j ((cs j).take h) i).log = (cs i).log := by
  by_cases hi : i = j
  · subst hi
    rw [Function.update_self]
    rfl
  · rw [Function.update_of_ne hi]

/-- What is in a queue was there before or was put in. -/
theorem mem_putAll {ms : List (ι × M)} {cs : ι → Queue M} {i : ι} {m : M} (h : m ∈ (putAll ms cs i).log) :
    m ∈ (cs i).log ∨ (i, m) ∈ ms := by
  rw [(putAll_apply i ms cs).1, List.mem_append, List.mem_map] at h
  refine h.imp_right ?_
  rintro ⟨⟨j, m'⟩, hm, rfl⟩
  rw [List.mem_filter] at hm
  obtain ⟨hmem, hj⟩ := hm
  simp only [decide_eq_true_eq] at hj
  exact hj ▸ hmem

end

/-! ## Streams -/

/-- The bytes that were sent, and the number of those that were read. -/
structure Stream where
  sent : List UInt8
  read : Nat

/-- What is left to read. -/
def Stream.rest (st : Stream) : List UInt8 := st.sent.drop st.read

/-- The stream has the codes of the queue's messages, and was read up to the end of one. -/
structure Carries (enc : M → List UInt8) (st : Stream) (c : Queue M) : Prop where
  sent : st.sent = c.log.flatMap enc
  read : st.read = (c.got.flatMap enc).length

namespace Carries

variable {enc : M → List UInt8} {st : Stream} {c : Queue M}

theorem empty : Carries enc ⟨[], 0⟩ .empty := ⟨rfl, rfl⟩

/-- What is left on the stream is what waits in the queue. -/
theorem rest (h : Carries enc st c) : st.rest = c.waiting.flatMap enc := by
  rw [Stream.rest, h.sent, h.read, ← c.got_append_waiting, List.flatMap_append, List.drop_left]

/-- A message that is put in comes behind all bytes that were sent. -/
theorem put (h : Carries enc st c) (m : M) : Carries enc ⟨st.sent ++ enc m, st.read⟩ (c.put m) where
  sent := by rw [h.sent, Queue.log_put, List.flatMap_append, List.flatMap_singleton]
  read := by rw [h.read, Queue.got_put]

/-- Taking the next message reads exactly its bytes. -/
theorem take (h : Carries enc st c) {m : M} (hm : c.next? = some m) (h' : c.next? ≠ none) :
    Carries enc ⟨st.sent, st.read + (enc m).length⟩ (c.take h') where
  sent := h.sent
  read := by rw [h.read, Queue.got_take hm, List.flatMap_append, List.length_append, List.flatMap_singleton]

/-- **A stream with something left begins with the code of the message that is next.** -/
theorem head (h : Carries enc st c) (hne : st.rest ≠ []) :
    ∃ m, c.next? = some m ∧ ∃ tl, st.rest = enc m ++ tl := by
  have hr := h.rest
  cases hn : c.next? with
  | none =>
      rw [Queue.next?, List.getElem?_eq_none_iff] at hn
      rw [Queue.waiting, List.drop_eq_nil_of_le hn] at hr
      exact absurd hr hne
  | some m =>
      rw [Queue.waiting_of_next hn, List.flatMap_cons] at hr
      exact ⟨m, rfl, _, hr⟩

end Carries

/-! ## Counting what waits -/

section

variable {p : M → Bool} {c : Queue M} {m : M}

/-- How many of the messages that wait are of the kind `p`. -/
def Queue.waits (p : M → Bool) (c : Queue M) : Nat := c.waiting.countP p

@[simp] theorem Queue.waits_empty : (Queue.empty : Queue M).waits p = 0 := rfl

theorem Queue.waits_put : (c.put m).waits p = c.waits p + if p m then 1 else 0 := by
  have hwaiting : (c.put m).waiting = c.waiting ++ [m] := List.drop_append_of_le_length c.le
  rw [waits, hwaiting, List.countP_append, List.countP_singleton]
  rfl

theorem Queue.waits_take (hm : c.next? = some m) (h : c.next? ≠ none) :
    c.waits p = (c.take h).waits p + if p m then 1 else 0 := by
  rw [waits, waiting_of_next hm, List.countP_cons]
  rfl

variable [DecidableEq ι] {cs : ι → Queue M} {i : ι}

/-- How many messages of the kind `p` wait in the queues of `E`. -/
def inFlight (p : M → Bool) (E : Finset ι) (cs : ι → Queue M) : Nat := ∑ e ∈ E, (cs e).waits p

/-- Putting one message in adds at most one to what is on the way. -/
theorem inFlight_put_le (E : Finset ι) :
    inFlight p E (Function.update cs i ((cs i).put m)) ≤ inFlight p E cs + if p m then 1 else 0 := by
  have hpoint : ∀ e ∈ E, (Function.update cs i ((cs i).put m) e).waits p
      ≤ (cs e).waits p + if e = i then (if p m then 1 else 0) else 0 := by
    intro e _
    by_cases he : e = i
    · subst he
      rw [Function.update_self, Queue.waits_put, if_pos rfl]
    · rw [Function.update_of_ne he]
      exact Nat.le_add_right _ _
  refine le_trans (Finset.sum_le_sum hpoint) ?_
  rw [Finset.sum_add_distrib, Finset.sum_ite_eq']
  refine Nat.add_le_add_left ?_ _
  split
  · exact Nat.le_refl _
  · exact Nat.zero_le _

/-- **Putting messages in adds no more than there are of the kind.** -/
theorem inFlight_putAll_le (p : M → Bool) (E : Finset ι) : ∀ (ms : List (ι × M)) (cs : ι → Queue M),
    inFlight p E (putAll ms cs) ≤ inFlight p E cs + ms.countP fun m => p m.2 := by
  intro ms
  induction ms with
  | nil => exact fun _ => Nat.le_refl _
  | cons m ms ih =>
      intro cs
      rw [putAll_cons, List.countP_cons]
      have hrest := ih (Function.update cs m.1 ((cs m.1).put m.2))
      have hput : inFlight p E (Function.update cs m.1 ((cs m.1).put m.2)) ≤ _ := inFlight_put_le E
      omega

/-- **Taking a message out makes room for it**, also where its own queue is not counted. -/
theorem inFlight_take_le (E : Finset ι) (hm : (cs i).next? = some m) (h : (cs i).next? ≠ none) :
    inFlight p E (Function.update cs i ((cs i).take h)) + (if p m then 1 else 0) ≤ inFlight p (insert i E) cs := by
  have hpoint : ∀ e ∈ insert i E, (cs e).waits p
      = (Function.update cs i ((cs i).take h) e).waits p + if e = i then (if p m then 1 else 0) else 0 := by
    intro e _
    by_cases he : e = i
    · subst he
      rw [Function.update_self, if_pos rfl, Queue.waits_take hm h]
    · rw [Function.update_of_ne he, if_neg he, Nat.add_zero]
  have hall : inFlight p (insert i E) cs
      = inFlight p (insert i E) (Function.update cs i ((cs i).take h)) + if p m then 1 else 0 := by
    rw [inFlight, Finset.sum_congr rfl hpoint, Finset.sum_add_distrib, Finset.sum_ite_eq',
      if_pos (Finset.mem_insert_self i E)]
    rfl
  have hsub : inFlight p E (Function.update cs i ((cs i).take h))
      ≤ inFlight p (insert i E) (Function.update cs i ((cs i).take h)) :=
    Finset.sum_le_sum_of_subset (Finset.subset_insert i E)
  omega

end

end Channel
