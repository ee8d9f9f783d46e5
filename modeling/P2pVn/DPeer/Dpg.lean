import P2pVn.Routing.Lookup

/-!
# `DPeer.Dpg` — the group of direct peers (`dpg.c`)

The group is an array of pointers to peers in order of their MACs. The MACs are read from the peers at every
comparison, so the group is searchable as long as its members are live and keep their MACs (`DpgOk`).

- `dpgInsert_cases`, `dpgRemove_cases`: all that the two operations can do to a searchable group.
-/

namespace P2pVn
open CUb

/-! ## The operations -/

/-- `*DP_MAC(dp)`. -/
def dpMac (env : ExtMem) (d : Nat) : Ub EtherAddr :=
  match env (.dp d) with
  | some host => .ok host.mac
  | none => .error .useAfterFree

/-- `bsearch_dpg`: the position of a peer with the MAC of `d`. -/
def bsearchDpg (env : ExtMem) (dps : Da Nat) (d : Nat) : Ub (Option Nat) := do
  let mac ← dpMac env d
  bsearch (fun e => do
    let m ← dpMac env e
    pure (memcmp mac m)) dps.items

/-- `dpg_insert`; `al` scripts its allocation. -/
def dpgInsert (q : Qsort) (env : ExtMem) (dps : Da Nat) (d : Nat) (al : AllocScript) : Ub (Int × Da Nat) := do
  match ← bsearchDpg env dps d with
  | some _ => pure (1, dps)
  | none =>
    let (fail, dps, _) := dps.addToEnd d al
    if fail then pure (-2, dps)
    else
      let items ← sortBy q memcmp (dpMac env) dps.items
      pure (0, dps.withItems items)

/-- `dpg_remove`. -/
def dpgRemove (env : ExtMem) (dps : Da Nat) (d : Nat) : Ub (Int × Da Nat) := do
  match ← bsearchDpg env dps d with
  | none => pure (-2, dps)
  | some i => pure (0, dps.remove i)

variable {env env' : ExtMem} {q : Qsort} {g g' : Da Nat} {d : Nat} {ret : Int}

theorem dpMac_eq_ok {m : EtherAddr} : dpMac env d = .ok m ↔ ∃ ip, env (.dp d) = some ip ∧ ip.mac = m := by
  unfold dpMac
  cases h : env (.dp d) with
  | none => simp
  | some ip => simp

/-- The MAC of a peer depends on that peer only. -/
theorem dpMac_congr (h : env' (.dp d) = env (.dp d)) : dpMac env' d = dpMac env d := by
  unfold dpMac
  rw [h]

/-! ## A searchable group -/

/-- The members are live and strictly ordered by MAC. -/
structure DpgOk (env : ExtMem) (g : Da Nat) : Prop where
  live : ∀ e ∈ g.items, ∃ m, dpMac env e = .ok m
  strict : g.items.Pairwise fun a b => ∀ m m', dpMac env a = .ok m → dpMac env b = .ok m' → MacLt m m'

/-- What happens to a peer outside the group does not matter to the group. -/
theorem DpgOk.congr (hg : DpgOk env g) (h : ∀ e ∈ g.items, env' (.dp e) = env (.dp e)) : DpgOk env' g := by
  have hmac : ∀ e ∈ g.items, dpMac env' e = dpMac env e := fun e he => dpMac_congr (h e he)
  constructor
  · intro e he
    rw [hmac e he]
    exact hg.live e he
  · refine List.Pairwise.imp_of_mem ?_ hg.strict
    intro a b ha hb hab m m' hm hm'
    exact hab m m' (hmac a ha ▸ hm) (hmac b hb ▸ hm')

/-- No two members have one MAC. -/
theorem DpgOk.inj (hg : DpgOk env g) {a b : Nat} {m : EtherAddr} (ha : a ∈ g.items) (hb : b ∈ g.items)
    (hma : dpMac env a = .ok m) (hmb : dpMac env b = .ok m) : a = b := by
  obtain ⟨i, hi, rfl⟩ := List.getElem_of_mem ha
  obtain ⟨j, hj, rfl⟩ := List.getElem_of_mem hb
  rcases Nat.lt_trichotomy i j with hij | rfl | hij
  · exact absurd (List.pairwise_iff_getElem.mp hg.strict i j hi hj hij m m hma hmb) (MacLt.irrefl m)
  · rfl
  · exact absurd (List.pairwise_iff_getElem.mp hg.strict j i hj hi hij m m hmb hma) (MacLt.irrefl m)

theorem DpgOk.nodup (hg : DpgOk env g) : g.items.Nodup := by
  refine List.Pairwise.imp_of_mem ?_ hg.strict
  rintro a b ha _ hab rfl
  obtain ⟨m, hm⟩ := hg.live a ha
  exact MacLt.irrefl m (hab m m hm hm)

theorem bsearchDpg_some {i : Nat} (h : bsearchDpg env g d = .ok (some i)) :
    ∃ e m, g.items[i]? = some e ∧ dpMac env d = .ok m ∧ dpMac env e = .ok m := by
  obtain ⟨m, hm, h⟩ := bind_eq_ok.mp h
  obtain ⟨e, he, hc⟩ := bsearch_eq h
  obtain ⟨m', hm', hc⟩ := bind_eq_ok.mp hc
  simp only [pure_eq_ok, Except.ok.injEq] at hc
  rw [← memcmp_eq.mp hc] at hm'
  exact ⟨e, m, he, hm, hm'⟩

theorem bsearchDpg_none (hg : DpgOk env g) (h : bsearchDpg env g d = .ok none) :
    ∃ m, dpMac env d = .ok m ∧ ∀ e ∈ g.items, dpMac env e ≠ .ok m := by
  obtain ⟨m, hm, h⟩ := bind_eq_ok.mp h
  refine ⟨m, hm, ?_⟩
  -- the members are live, so their MACs are the values of a total function
  let key : Nat → EtherAddr := fun e => ((env (.dp e)).map Ipv4Host.mac).getD EtherAddr.junk
  have hkey : ∀ e ∈ g.items, dpMac env e = .ok (key e) := by
    intro e he
    obtain ⟨m', hm'⟩ := hg.live e he
    obtain ⟨ip, hip, rfl⟩ := dpMac_eq_ok.mp hm'
    simp [key, hip, hm']
  have hcmp : ∀ e ∈ g.items, (do
      let m' ← dpMac env e
      pure (memcmp m m') : Ub Ordering) = .ok (memcmp m (key e)) := by
    intro e he
    rw [hkey e he]
    rfl
  have hsorted : g.items.Pairwise fun a b => (memcmp (key a) (key b)).isLE :=
    List.Pairwise.imp_of_mem (fun ha hb hab => (hab _ _ (hkey _ ha) (hkey _ hb)).isLE) hg.strict
  intro e he hme
  refine bsearch_none hcmp (keyOrdered_of_sorted hsorted m) h e he ?_
  rw [hkey e he, Except.ok.injEq] at hme
  exact memcmp_eq.mpr hme.symm

/-! ## Inserting and removing -/

/-- **`dpg_insert` adds the peer to the group**, unless it returns an error, and then nothing changes. -/
theorem dpgInsert_cases {al : AllocScript} (hg : DpgOk env g) (h : dpgInsert q env g d al = .ok (ret, g')) :
    DpgOk env g' ∧ ((ret ≠ 0 ∧ g'.items = g.items) ∨
      (ret = 0 ∧ ∀ e, e ∈ g'.items ↔ e ∈ g.items ∨ e = d)) := by
  obtain ⟨found, hfound, h⟩ := bind_eq_ok.mp h
  cases found with
  | some i =>
      cases h
      exact ⟨hg, Or.inl ⟨by decide, rfl⟩⟩
  | none =>
      obtain ⟨m, hm, habsent⟩ := bsearchDpg_none hg hfound
      obtain ⟨al', ⟨g1, hadd, hitems⟩ | hfail⟩ := g.addToEnd_cases d al
      · simp only [hadd, Bool.false_eq_true, if_false] at h
        obtain ⟨items, hsort, h⟩ := bind_eq_ok.mp h
        cases h
        have hperm : items.Perm (g.items ++ [d]) := hitems ▸ sortBy_perm hsort
        have hmem : ∀ e, e ∈ items ↔ e ∈ g.items ∨ e = d := fun e => by simp [hperm.mem_iff]
        -- no member has the MAC of `d`, and sorting keeps it so
        have hne : items.Pairwise fun a b => dpMac env a ≠ dpMac env b := by
          refine (List.Perm.pairwise_iff (fun h => h.symm) hperm).mpr ?_
          rw [List.pairwise_append]
          refine ⟨?_, List.pairwise_singleton _ _, ?_⟩
          · refine List.Pairwise.imp_of_mem ?_ hg.strict
            intro a b ha hb hab heq
            obtain ⟨ma, hma⟩ := hg.live a ha
            exact MacLt.irrefl ma (hab ma ma hma (heq ▸ hma))
          · intro a ha b hb heq
            rw [List.mem_singleton.mp hb, hm] at heq
            exact habsent a ha heq
        refine ⟨⟨?_, ?_⟩, Or.inr ⟨rfl, hmem⟩⟩
        · intro e he
          rcases (hmem e).mp he with he | rfl
          · exact hg.live e he
          · exact ⟨m, hm⟩
        · refine ((sortBy_sorted hsort).and hne).imp ?_
          rintro a b ⟨hle, hne⟩ ma mb hma hmb
          refine MacLt.of_isLE_ne (hle ma mb hma hmb) ?_
          rintro rfl
          exact hne (hma.trans hmb.symm)
      · simp only [hfail, if_true] at h
        cases h
        exact ⟨hg, Or.inl ⟨by decide, rfl⟩⟩

/-- **`dpg_remove` removes the member with the MAC of the peer**, whichever peer that is. -/
theorem dpgRemove_cases (hg : DpgOk env g) (h : dpgRemove env g d = .ok (ret, g')) :
    DpgOk env g' ∧ ∃ m, dpMac env d = .ok m ∧
      ∀ e, e ∈ g'.items ↔ e ∈ g.items ∧ dpMac env e ≠ .ok m := by
  obtain ⟨found, hfound, h⟩ := bind_eq_ok.mp h
  cases found with
  | none =>
      cases h
      obtain ⟨m, hm, habsent⟩ := bsearchDpg_none hg hfound
      refine ⟨hg, m, hm, fun e => ⟨fun he => ⟨he, habsent e he⟩, And.left⟩⟩
  | some i =>
      cases h
      obtain ⟨x, m, hx, hm, hmx⟩ := bsearchDpg_some hfound
      have hxmem := List.mem_of_getElem? hx
      refine ⟨⟨fun e he => hg.live e (List.mem_of_mem_eraseIdx he),
        hg.strict.sublist (List.eraseIdx_sublist _ _)⟩, m, hm, fun e => ?_⟩
      rw [Da.items_remove, List.mem_eraseIdx_iff_getElem?]
      constructor
      · rintro ⟨k, hki, hk⟩
        have he := List.mem_of_getElem? hk
        refine ⟨he, fun hme => hki ?_⟩
        -- another member with this MAC would be the one that was found
        obtain rfl : e = x := hg.inj he hxmem hme hmx
        obtain ⟨hlt, -⟩ := List.getElem?_eq_some_iff.mp hk
        exact (List.getElem?_inj hlt hg.nodup).mp (hk.trans hx.symm)
      · rintro ⟨he, hme⟩
        obtain ⟨k, hk⟩ := List.getElem?_of_mem he
        refine ⟨k, ?_, hk⟩
        rintro rfl
        rw [hx, Option.some.injEq] at hk
        exact hme (hk ▸ hmx)

end P2pVn
