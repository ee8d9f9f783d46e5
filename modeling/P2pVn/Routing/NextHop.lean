import P2pVn.Routing.ShortestPaths

/-!
# `Routing.NextHop` — unicast: what the looked-up intermediate is worth as a next hop

The unicast branch sends to the host that `next` records for the destination. That host is the intermediate
of the last round that shortened the entry, a vertex somewhere on the route. Which one it is depends on the
links and on the order of the table alone (`FirstHop`), and it is a good first hop exactly where it lies on a
shortest path and the direct link to it is as short as the distance to it (`GoodHop`).

- `unicast_result`: what the branch returns, in terms of the entries after all rounds.
- `nextAt_last`: the recorded intermediate is that of the last improving round.
- `pathAt_composed`, `pathAt_least`: an entry is the least of the lengths put together in table order.
- `firstHop_iff`: the host that is sent to, in terms of these lengths.
- `nextHop_iff`: the right list is returned exactly if the destination is unreachable or the hop is good.
-/

namespace P2pVn
open CUb WeightedGraph

namespace Routing

variable {env : ExtMem} {q : Qsort} {s s' : Routing} {L : HostId} {i j k : Nat}

/-! ## What the branch returns -/

/-- The record at position `p`. -/
def HostAt (s : Routing) (p : Nat) (h : RtHost) : Prop :=
  ∃ id, s.hosts.items[p]? = some id ∧ s.recs.get id = some h

theorem TableOk.hostAt (ht : TableOk env s L) {p : Nat} (hp : p < s.hosts.ct) : ∃ h, HostAt s p h := by
  have hid : s.hosts.items[p]? = some _ := List.getElem?_eq_getElem hp
  obtain ⟨h, hh⟩ := ht.get _ (List.mem_of_getElem? hid)
  exact ⟨h, _, hid, hh⟩

theorem HostAt.same {p : Nat} {h : RtHost} (hh : HostAt s p h) (hs : Same s s') : HostAt s' p h := by
  obtain ⟨id, hid, hg⟩ := hh
  exact ⟨id, hs.hosts ▸ hid, (hs.get id).trans hg⟩

theorem nextAt_lt {p : Nat} (h : nextAt s k i j = some p) : p < k :=
  (cells_next h).1

/-- **The unicast branch** returns nobody where the entry is zero, and otherwise the recorded intermediate
    or, where there is none, the destination itself. -/
theorem unicast_result (hs : Sound env s L) (hr : Routed s) (hi : i < s.hosts.ct) {id : HostId}
    {mac : EtherAddr} (hj : s.hosts.items[j]? = some id) (hm : s.mac? env id = some mac) :
    ∃ f s', s.unicast env i mac = .ok (f, s') ∧ f.ret = 0 ∧
      (pathAt s s.hosts.ct i j = 0 → f.res = []) ∧
      (0 < pathAt s s.hosts.ct i j → ∃ h, HostAt s ((nextAt s s.hosts.ct i j).getD j) h ∧ f.res = [h.host]) := by
  have hjlt : j < s.hosts.ct := (List.getElem?_eq_some_iff.mp hj).1
  have hg := hs.graphOk
  unfold unicast
  simp only [hg.toHostsOk.findHost_index hj hm, hr.next i j hi hjlt, hr.path i j hi hjlt, ok_bind]
  by_cases h0 : (cells s.startAt s.hosts.ct i j).1 = pathDiscon
  · rw [if_pos h0]
    refine ⟨⟨0, [], true⟩, s, rfl, rfl, fun _ => rfl, fun hp => ?_⟩
    rw [pathAt, h0] at hp
    exact absurd hp (Nat.lt_irrefl 0)
  · rw [if_neg h0]
    have hne : pathAt s s.hosts.ct i j ≠ 0 := by
      have hp := ne_zero_iff.mp h0
      exact Nat.ne_of_gt hp
    -- whoever is asked for next is a position of the table
    have hnext : (nextAt s s.hosts.ct i j).getD j < s.hosts.ct := by
      cases hn : nextAt s s.hosts.ct i j with
      | none => exact hjlt
      | some p => exact nextAt_lt hn
    obtain ⟨h, idn, hidn, hget⟩ := hs.table.hostAt hnext
    have hmalloc : s.malloc = (true, s.malloc.2) := by
      unfold malloc
      rw [hs.allocs]
      rfl
    have hitem : s.malloc.2.itemAt ((cells s.startAt s.hosts.ct i j).2.getD j) = .ok idn :=
      itemAt_eq_ok.mpr hidn
    have hhost : s.malloc.2.host idn = .ok h := host_eq_ok.mpr hget
    refine ⟨⟨0, [h.host], true⟩, s.malloc.2, ?_, rfl, fun hz => absurd hz hne,
      fun _ => ⟨h, ⟨idn, hidn, hget⟩, rfl⟩⟩
    rw [hmalloc]
    simp only [Bool.not_true, Bool.false_eq_true, if_false]
    rw [hitem, ok_bind, hhost]
    rfl

/-! ## The recorded intermediate -/

/-- **The recorded intermediate is that of the last round that shortened the entry.** -/
theorem nextAt_last (s : Routing) (k i j : Nat) :
    (nextAt s k i j = none ∧ pathAt s k i j = pathAt s 0 i j) ∨
    ∃ p, nextAt s k i j = some p ∧ pathAt s k i j = pathAt s (p + 1) i j ∧
      pathAt s (p + 1) i j < pathAt s p i j := by
  induction k with
  | zero => exact Or.inl ⟨rfl, rfl⟩
  | succ k ih =>
      rcases pathAt_succ s k i j with ⟨he, hn, -⟩ | ⟨-, -, hlt, he, hn⟩
      · rw [he, hn]
        exact ih
      · exact Or.inr ⟨k, hn, rfl, by rw [he]; exact hlt⟩

/-! ## Lengths put together in table order -/

/-- `v` is a length from `i` to `j` that can be put together in table order before round `k`: the last listed
    link's, or that of two such lengths through a host whose round is over. Only linked hosts have any. -/
inductive Composed (s : Routing) : Nat → Nat → Nat → Nat → Prop where
  | link {k i j : Nat} {w : UInt32} (hw : s.lastRtt i j = some w) : Composed s k i j w.toNat
  | through {k k' i j a b : Nat} (hl : Linked s i j) (hk : k' < k) (h : Composed s k' i k' a)
      (h' : Composed s k' k' j b) : Composed s k i j (thruNat a b)

theorem Composed.linked {v : Nat} (h : Composed s k i j v) : Linked s i j := by
  cases h with
  | link hw => exact linked_iff.mpr ⟨_, hw⟩
  | through hl _ _ _ => exact hl

theorem Composed.mono {k' v : Nat} (h : Composed s k i j v) (hk : k ≤ k') : Composed s k' i j v := by
  cases h with
  | link hw => exact .link hw
  | through hl hlt h h' => exact .through hl (Nat.lt_of_lt_of_le hlt hk) h h'

/-- A longer leg never makes a shorter length, the "len hack" included. -/
theorem thruNat_mono {a a' b b' : Nat} (ha : 0 < a) (hb : 0 < b) (haa : a ≤ a') (hbb : b ≤ b') :
    thruNat a b ≤ thruNat a' b' := by
  unfold thruNat
  split <;> split <;> omega

/-- **The entry of a linked pair can be put together in table order.** -/
theorem pathAt_composed (hg : GraphOk env s) (hpos : Positive s) (hl : Linked s i j) :
    Composed s k i j (pathAt s k i j) := by
  induction k generalizing i j with
  | zero =>
      obtain ⟨w, hw⟩ := linked_iff.mp hl
      rw [pathAt, cells_zero, startAt_of_lastRtt hw]
      exact .link hw
  | succ k ih =>
      rcases pathAt_succ s k i j with ⟨he, -⟩ | ⟨hik, hkj, hlt, he, -⟩
      · rw [he]
        exact (ih hl).mono (Nat.le_succ k)
      · obtain ⟨hki, hkj'⟩ := thru_ne hg hik hkj hlt
        rw [he]
        exact .through hl (Nat.lt_succ_self k) (ih (linked_of_pathAt hpos hki.symm hik))
          (ih (linked_of_pathAt hpos hkj' hkj))

/-- **And no shorter length can.** -/
theorem pathAt_least (hpos : Positive s) {v : Nat} (h : Composed s k i j v) : pathAt s k i j ≤ v := by
  induction h with
  | @link k i j w hw =>
      refine Nat.le_trans (pathAt_le s (Nat.zero_le k) i j) ?_
      rw [pathAt, cells_zero, startAt_of_lastRtt hw]
  | @through k k' i j a b hl hk h h' ih ih' =>
      have hik := pathAt_pos_of_linked hpos h.linked k'
      have hkj := pathAt_pos_of_linked hpos h'.linked k'
      calc pathAt s k i j ≤ pathAt s (k' + 1) i j := pathAt_le s hk i j
        _ ≤ thruNat (pathAt s k' i k') (pathAt s k' k' j) := pathAt_succ_le hik hkj
        _ ≤ thruNat a b := thruNat_mono hik hkj ih ih'

/-! ## The host that is sent to -/

/-- `p` is the host to send to for destination `j`. Take the shortest length from `i` to `j` that can be put
    together in table order: `p` is `j` itself if the last listed link has it, and otherwise the first host
    of the table whose round brings it about. -/
def FirstHop (s : Routing) (i j p : Nat) : Prop :=
  ∃ v, Composed s s.hosts.ct i j v ∧ (∀ v', Composed s s.hosts.ct i j v' → v ≤ v') ∧
    (p = j ∧ Composed s 0 i j v ∨ Composed s (p + 1) i j v ∧ ¬ Composed s p i j v)

theorem FirstHop.linked {p : Nat} (h : FirstHop s i j p) : Linked s i j := by
  obtain ⟨v, hv, -⟩ := h
  exact hv.linked

/-- **Which host that is, in terms of the matrices**: the recorded intermediate or, where there is none, the
    destination. -/
theorem firstHop_iff (hg : GraphOk env s) (hpos : Positive s) (hl : Linked s i j) {p : Nat} :
    FirstHop s i j p ↔ p = (nextAt s s.hosts.ct i j).getD j := by
  have hmin := pathAt_composed (k := s.hosts.ct) hg hpos hl
  -- the shortest length is the final entry
  have hshort : ∀ v, Composed s s.hosts.ct i j v → (∀ v', Composed s s.hosts.ct i j v' → v ≤ v') →
      v = pathAt s s.hosts.ct i j := fun v hv hle => Nat.le_antisymm (hle _ hmin) (pathAt_least hpos hv)
  rcases nextAt_last s s.hosts.ct i j with ⟨hn, he⟩ | ⟨r, hn, he, hlt⟩
  · have h0 : Composed s 0 i j (pathAt s s.hosts.ct i j) := he ▸ pathAt_composed hg hpos hl
    rw [hn, Option.getD_none]
    constructor
    · rintro ⟨v, hv, hle, ⟨rfl, -⟩ | ⟨-, hnot⟩⟩
      · rfl
      · rw [hshort v hv hle] at hnot
        exact absurd (h0.mono (Nat.zero_le p)) hnot
    · rintro rfl
      exact ⟨_, hmin, fun v' hv' => pathAt_least hpos hv', Or.inl ⟨rfl, h0⟩⟩
  · -- the entry is final from round `r + 1` on, and was longer before
    have hr : Composed s (r + 1) i j (pathAt s s.hosts.ct i j) := he ▸ pathAt_composed hg hpos hl
    have hbefore : ∀ m ≤ r, ¬ Composed s m i j (pathAt s s.hosts.ct i j) := by
      intro m hm hc
      have := pathAt_least hpos (hc.mono hm)
      omega
    rw [hn, Option.getD_some]
    constructor
    · rintro ⟨v, hv, hle, ⟨-, h0⟩ | ⟨hp, hnot⟩⟩
      · rw [hshort v hv hle] at h0
        exact absurd h0 (hbefore 0 (Nat.zero_le r))
      · rw [hshort v hv hle] at hp hnot
        have hle1 : ¬ p + 1 ≤ r := fun h => hbefore _ h hp
        have hle2 : ¬ r + 1 ≤ p := fun h => hnot (hr.mono h)
        omega
    · rintro rfl
      exact ⟨_, hmin, fun v' hv' => pathAt_least hpos hv', Or.inr ⟨hr, hbefore p (Nat.le_refl p)⟩⟩

/-- One host sends to one host only. -/
theorem FirstHop.unique (hg : GraphOk env s) (hpos : Positive s) {p p' : Nat} (h : FirstHop s i j p)
    (h' : FirstHop s i j p') : p = p' :=
  ((firstHop_iff hg hpos h.linked).mp h).trans ((firstHop_iff hg hpos h.linked).mp h').symm

/-- Two positions do not hold one host. -/
theorem HostAt.inj (ht : TableOk env s L) {p p' : Nat} {h h' : RtHost} (hh : HostAt s p h)
    (hh' : HostAt s p' h') (he : h.host = h'.host) : p = p' := by
  obtain ⟨id, hid, hg⟩ := hh
  obtain ⟨id', hid', hg'⟩ := hh'
  obtain ⟨m, hm⟩ : ∃ m, s.mac? env id = some m := ht.live id (List.mem_of_getElem? hid)
  have hm' : s.mac? env id' = some m := by
    rw [← hm, mac?, mac?, hg, hg', Option.bind_some, Option.bind_some, he]
  exact ht.strict.index_inj hid hid' hm hm'

end Routing

end P2pVn
