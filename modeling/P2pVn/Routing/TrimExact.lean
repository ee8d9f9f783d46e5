import P2pVn.Routing.Trimming

/-!
# `Routing.TrimExact` — what `trim_disjoint_hosts` removes and what it frees

The loop means to remove the normal hosts that the matrix shows as disconnected, and to free their records. It
does exactly that where at most the last host is one of them. Any other one is taken out by moving the hosts
behind it down, after which `trim_host` reads the record to free from the array again and frees its neighbour.

- **The last host.** `trimHost_last_exact`, `trimLoop_exact`: the host and the links to it are gone, and
  nothing else changed.
- `Without` says what the table is then; it satisfies the invariant again (`Without.repOk`).
-/

namespace P2pVn
open CUb

/-- A record with only its links to some hosts. -/
def RtHost.keepLinks (r : RtHost) (p : HostId → Bool) : RtHost :=
  { r with links := r.links.withItems (r.links.items.filter fun l => p l.dst) }

namespace RtHost

variable {r : RtHost} {p p' : HostId → Bool}

@[simp] theorem keepLinks_host (r : RtHost) (p : HostId → Bool) : (r.keepLinks p).host = r.host := rfl
@[simp] theorem keepLinks_type (r : RtHost) (p : HostId → Bool) : (r.keepLinks p).type = r.type := rfl
@[simp] theorem keepLinks_items (r : RtHost) (p : HostId → Bool) :
    (r.keepLinks p).links.items = r.links.items.filter fun l => p l.dst := rfl

theorem keepLinks_of_all (h : ∀ l ∈ r.links.items, p l.dst = true) : r.keepLinks p = r := by
  have hf : r.links.items.filter (fun l => p l.dst) = r.links.items := List.filter_eq_self.mpr h
  rw [keepLinks, hf]
  rfl

theorem keepLinks_keepLinks (r : RtHost) (p : HostId → Bool) : (r.keepLinks p).keepLinks p = r.keepLinks p :=
  keepLinks_of_all fun _ hl => (List.mem_filter.mp hl).2

theorem keepLinks_congr (h : ∀ l ∈ r.links.items, p l.dst = p' l.dst) : r.keepLinks p = r.keepLinks p' := by
  rw [keepLinks, List.filter_congr h]
  rfl

end RtHost

namespace Routing

variable {env : ExtMem} {s s' : Routing} {L : HostId} {srcI i : Nat}

/-! ## Removing the links to a host -/

/-- Erasing the only element that does not satisfy `p`. -/
theorem eraseIdx_eq_filter {α : Type} {p : α → Bool} : ∀ {l : List α} {i : Nat} {a : α}, l[i]? = some a →
    p a = false → (∀ j b, j ≠ i → l[j]? = some b → p b = true) → l.eraseIdx i = l.filter p := by
  intro l
  induction l with
  | nil => exact fun h => nomatch h
  | cons x l ih =>
      intro i a hi hp hothers
      cases i with
      | zero =>
          cases hi
          rw [List.eraseIdx_cons_zero, List.filter_cons_of_neg (by simp [hp]), List.filter_eq_self.mpr]
          intro b hb
          obtain ⟨j, hj⟩ := List.getElem?_of_mem hb
          exact hothers (j + 1) b (by omega) hj
      | succ i =>
          rw [List.eraseIdx_cons_succ, List.filter_cons_of_pos (hothers 0 x (by omega) rfl)]
          rw [ih hi hp fun j b hj hb => hothers (j + 1) b (by omega) hb]

/-- With strictly ordered links, a record loses exactly its link to the host. -/
theorem unlinkFrom_exact (ht : HostsOk env s) (hl : LinksOk MacLt env s) {h src : HostId}
    (hh : h ∈ s.hosts.items) (hsrc : src ∈ s.hosts.items) (hu : s.unlinkFrom env h src = .ok s')
    {j : HostId} {r : RtHost} (hr : s.recs.get j = some r) :
    s'.recs.get j = some (if j = src then r.keepLinks (· ≠ h) else r) := by
  obtain ⟨r0, m, hr0, hm, hcase⟩ := unlinkFrom_cases hu
  have hdst : ∀ l ∈ r0.links.items, (s.mac? env l.dst = some m ↔ l.dst = h) := by
    intro l hlm
    constructor
    · intro hml
      exact ht.strict.inj (hl.dst src hsrc r0 hr0 l hlm).1 hh hml hm
    · rintro rfl
      exact hm
  have hord : MacStrict env s RtLink.dst r0.links.items := hl.ordered src hsrc r0 hr0
  have hlive : MacLive env s RtLink.dst r0.links.items :=
    fun l hlm => ht.live l.dst (hl.dst src hsrc r0 hr0 l hlm).1
  rcases hcase with ⟨hnone, rfl⟩ | ⟨i, l, hi, hmac, rfl⟩
  · -- there was no link to remove
    by_cases hj : j = src
    · subst hj
      rw [hr0] at hr
      cases hr
      rw [if_pos rfl, hr0, RtHost.keepLinks_of_all]
      intro l hlm
      have hne : l.dst ≠ h := fun he => search_none hlive hord.sorted hnone l hlm ((hdst l hlm).mpr he)
      simp [hne]
    · rw [if_neg hj, hr]
  · rw [get_store hr0]
    by_cases hj : j = src
    · subst hj
      rw [hr0] at hr
      cases hr
      rw [if_pos rfl, if_pos rfl, RtHost.keepLinks]
      have hlh : l.dst = h := (hdst l (List.mem_of_getElem? hi)).mp hmac
      have hfilter : r.links.items.eraseIdx i = r.links.items.filter fun l => decide (l.dst ≠ h) := by
        refine eraseIdx_eq_filter hi (by simp [hlh]) fun k l' hk hl' => ?_
        have hne : l'.dst ≠ h := by
          rintro rfl
          exact hk (hord.index_inj hl' hi hm hmac)
        simp [hne]
      rw [← hfilter]
      rfl
    · rw [if_neg hj, if_neg hj, hr]

/-- The loop over all hosts does so for each of them. -/
theorem unlinkAll_exact {h : HostId} : ∀ (ids : List HostId) {s s' : Routing}, HostsOk env s →
    LinksOk MacLt env s → h ∈ s.hosts.items → (∀ j ∈ ids, j ∈ s.hosts.items) →
    ids.foldlM (unlinkFrom env h) s = .ok s' → ∀ {j : HostId} {r : RtHost}, s.recs.get j = some r →
    s'.recs.get j = some (if j ∈ ids then r.keepLinks (· ≠ h) else r) := by
  intro ids
  induction ids with
  | nil =>
      intro s s' _ _ _ _ hf j r hr
      cases hf
      simpa using hr
  | cons id ids ih =>
      intro s s' ht hl hh hids hf j r hr
      rw [List.foldlM_cons] at hf
      obtain ⟨s1, h1, hf⟩ := bind_eq_ok.mp hf
      have hthin := unlinkFrom_thins h1
      have hr1 := unlinkFrom_exact ht hl hh (hids id (by simp)) h1 hr
      have hrest := ih (ht.thins hthin) (hl.thins ht hthin) (hthin.hosts ▸ hh)
        (fun j hj => hthin.hosts ▸ hids j (by simp [hj])) hf hr1
      rw [hrest]
      -- a record that comes up twice is filtered twice, which is the same
      by_cases hj : j = id
      · subst hj
        by_cases hmem : j ∈ ids
        · simp [hmem, RtHost.keepLinks_keepLinks]
        · simp [hmem]
      · by_cases hmem : j ∈ ids
        · simp [hj, hmem]
        · simp [hj, hmem]

/-! ## Trimming the last host -/

/-- `s'` is the table of `s` without some of its hosts and without the links to these. -/
structure Without (s s' : Routing) (gone : HostId → Prop) : Prop where
  sub : s'.hosts.items.Sublist s.hosts.items
  mem : ∀ id ∈ s.hosts.items, (id ∈ s'.hosts.items ↔ ¬ gone id)
  localHost : s'.localHost = s.localHost
  kept : ∀ id ∈ s'.hosts.items, ∀ r, s.recs.get id = some r →
    s'.recs.get id = some (r.keepLinks (· ∈ s'.hosts.items))

theorem Without.refl (hl : LinksOk MacLt env s) {gone : HostId → Prop}
    (hgone : ∀ id ∈ s.hosts.items, ¬ gone id) : Without s s gone where
  sub := List.Sublist.refl _
  mem id hid := ⟨fun _ => hgone id hid, fun _ => hid⟩
  localHost := rfl
  kept id hid r hr := by
    rw [hr, RtHost.keepLinks_of_all]
    exact fun l hlm => decide_eq_true (hl.dst id hid r hr l hlm).1

/-- Everybody who stays keeps the MAC. -/
theorem Without.mac? {gone : HostId → Prop} (h : Without s s' gone) (ht : HostsOk env s) {id : HostId}
    (hid : id ∈ s'.hosts.items) : s'.mac? env id = s.mac? env id := by
  obtain ⟨r, hr⟩ := ht.get id (h.sub.subset hid)
  unfold Routing.mac?
  rw [hr, h.kept id hid r hr]
  rfl

/-- **What stays is a sound table**, if local stays. -/
theorem Without.repOk {gone : HostId → Prop} (h : Without s s' gone) (hrep : RepOk env s L)
    (hL : ¬ gone L) : RepOk env s' L := by
  have ht := hrep.hosts
  -- a record that stays is the old one without some links
  have hback : ∀ {id r'}, id ∈ s'.hosts.items → s'.recs.get id = some r' →
      ∃ r, s.recs.get id = some r ∧ r' = r.keepLinks (· ∈ s'.hosts.items) := by
    intro id r' hid hr'
    obtain ⟨r, hr⟩ := ht.get id (h.sub.subset hid)
    rw [h.kept id hid r hr] at hr'
    exact ⟨r, hr, (Option.some.inj hr').symm⟩
  have hmac : ∀ id ∈ s'.hosts.items, s'.mac? env id = s.mac? env id := fun id hid => h.mac? ht hid
  have hLmem : L ∈ s'.hosts.items := (h.mem L hrep.localMem).mpr hL
  refine
    { hosts := ⟨fun id hid => ?_, (ht.strict.sublist h.sub).congr fun id hid => hmac id hid⟩
      links := ⟨fun id hid r' hr' l hlm => ?_, fun id hid r' hr' => ?_⟩
      isLocal := h.localHost.trans hrep.isLocal
      localMem := hLmem
      localType := fun r' hr' => ?_
      onlyLocal := fun id hid r' hr' htype => ?_
      kind := fun id hid r' hr' => ?_ }
  · obtain ⟨m, hm⟩ := ht.live id (h.sub.subset hid)
    exact ⟨m, (hmac id hid).trans hm⟩
  · obtain ⟨r, hr, rfl⟩ := hback hid hr'
    obtain ⟨hl, hmem⟩ := List.mem_filter.mp hlm
    exact ⟨of_decide_eq_true hmem, (hrep.links.dst id (h.sub.subset hid) r hr l hl).2⟩
  · obtain ⟨r, hr, rfl⟩ := hback hid hr'
    refine ((hrep.links.ordered id (h.sub.subset hid) r hr).sublist List.filter_sublist).congr fun l hlm => ?_
    exact hmac l.dst (of_decide_eq_true (List.mem_filter.mp hlm).2)
  · obtain ⟨r, hr, rfl⟩ := hback hLmem hr'
    exact hrep.localType r hr
  · obtain ⟨r, hr, rfl⟩ := hback hid hr'
    exact hrep.onlyLocal id (h.sub.subset hid) r hr htype
  · obtain ⟨r, hr, rfl⟩ := hback hid hr'
    exact (hrep.kind id (h.sub.subset hid) r hr).congr rfl rfl

/-- **The last host is removed and freed with all links to it**, and nothing else changes. -/
theorem trimHost_last_exact (hrep : RepOk env s L) {id : HostId} {r : RtHost}
    (hi : s.hosts.items[i]? = some id) (hg : s.recs.get id = some r) (hn : r.type = .htNormal)
    (hend : i + 1 = s.hosts.ct) :
    ∃ s', s.trimHost env i = .ok s' ∧ s'.allocs = s.allocs ∧ Without s s' (· = id) ∧ s'.hosts.ct ≤ i ∧
      s'.recs.get id = none := by
  have hmem := List.mem_of_getElem? hi
  have hlt : i < s.hosts.items.length := (List.getElem?_eq_some_iff.mp hi).1
  obtain ⟨m, (hm : s.mac? env id = some m)⟩ := hrep.hosts.live id hmem
  obtain ⟨s1, h1, hal, -⟩ := unlinkAll_ok s.hosts.items hrep.hosts hrep.links hm fun _ hj => hj
  have hthin := (unlinkAll_thins _ h1).1
  have hexact : ∀ {j r}, s.recs.get j = some r → s1.recs.get j = some
      (if j ∈ s.hosts.items then r.keepLinks (· ≠ id) else r) :=
    unlinkAll_exact s.hosts.items hrep.hosts hrep.links hmem (fun _ hj => hj) h1
  have hitems : (s1.hostRemove i).hosts.items = s.hosts.items.eraseIdx i := by
    rw [hostRemove, Da.items_remove, hthin.hosts]
  -- past the end there is no neighbour, so the record that is freed is its own
  have hnone : (s1.hostRemove i).hosts.items[i]? = none := by
    rw [hitems, List.getElem?_eq_none_iff, List.length_eraseIdx_of_lt hlt]
    rw [Da.ct] at hend
    omega
  obtain ⟨r1, hr1, hh1, htype1, -⟩ := hthin.thin id r hg
  obtain ⟨ip, hip⟩ : ∃ ip, r1.host = .heap ip := by
    have hk := hrep.kind id hmem r hg
    rw [KindOk, hn] at hk
    exact hh1 ▸ hk
  have hfree : (s1.hostRemove i).freeHost id = .ok { s1.hostRemove i with recs := s1.recs.free id } := by
    have hr1' : (s1.hostRemove i).recs.get id = some r1 := hr1
    rw [freeHost, host_eq_ok.mpr hr1', ok_bind, hip]
    rfl
  have hd := dropped_of_thins hrep.hosts hthin hi
  have hmem' : ∀ j, j ∈ s.hosts.items.eraseIdx i ↔ j ∈ s.hosts.items ∧ j ≠ id :=
    mem_eraseIdx_of_nodup hrep.hosts.nodup hi
  refine ⟨{ s1.hostRemove i with recs := s1.recs.free id }, ?_, hal, ⟨?_, fun j hj => ?_, hthin.localHost,
    fun j hj rj hrj => ?_⟩, ?_, by rw [CellHeap.get_free, if_pos rfl]⟩
  · simp only [trimHost, itemAt_eq_ok.mpr hi, host_eq_ok.mpr hg, ok_bind, hn, ne_eq, not_true_eq_false,
      if_false, h1, hnone, hfree]
  · exact hitems ▸ List.eraseIdx_sublist _ _
  · show j ∈ (s1.hostRemove i).hosts.items ↔ _
    rw [hitems, hmem']
    exact ⟨fun h => h.2, fun h => ⟨hj, h⟩⟩
  · have hj' : j ∈ s.hosts.items ∧ j ≠ id := by
      rw [← hmem', ← hitems]
      exact hj
    rw [hd.get, if_neg hj'.2, hexact hrj, if_pos hj'.1]
    refine congrArg some (RtHost.keepLinks_congr fun l hl => ?_)
    show decide (l.dst ≠ id) = decide (l.dst ∈ (s1.hostRemove i).hosts.items)
    have hdst := (hrep.links.dst j hj'.1 rj hrj l hl).1
    rw [hitems, decide_eq_decide, hmem']
    exact ⟨fun h => ⟨hdst, h⟩, fun h => h.2⟩
  · show (s1.hostRemove i).hosts.items.length ≤ i
    rw [hitems, List.length_eraseIdx_of_lt hlt]
    rw [Da.ct] at hend
    omega

/-! ## The loop -/

/-- The host at `id`'s position is to be trimmed. -/
def Gone (s : Routing) (srcI : Nat) (id : HostId) : Prop := ∃ i, s.hosts.items[i]? = some id ∧ ToTrim s srcI i

/-- Where nobody is to be trimmed, nobody is gone. -/
theorem Without.nobody (hrep : RepOk env s L) (hno : ∀ i, ¬ ToTrim s srcI i) :
    Without s s (Gone s srcI) ∧ ∀ id, Gone s srcI id → s.recs.get id = none :=
  ⟨.refl hrep.links fun _ _ ⟨i, _, h⟩ => hno i h, fun _ ⟨i, _, h⟩ => absurd h (hno i)⟩

/-- From the last host on, which is to be trimmed, the loop removes just this one. -/
theorem trimLoop_last (hrep : RepOk env s L) {dstI : Nat} (htrim : ToTrim s srcI dstI)
    (hlast : ∀ i, ToTrim s srcI i → i + 1 = s.hosts.ct) (fuel : Nat) :
    ∃ s', trimLoop env srcI (fuel + 1) dstI s = .ok s' ∧ s'.allocs = s.allocs ∧ Without s s' (Gone s srcI) ∧
      ∀ id, Gone s srcI id → s'.recs.get id = none := by
  have hend := hlast dstI htrim
  obtain ⟨-, -, id, r, hid, hr, hn⟩ := id htrim
  obtain ⟨s1, h1, hal, hw, hct, hnone⟩ := trimHost_last_exact hrep hid hr hn hend
  have hgone : ∀ j ∈ s.hosts.items, (j = id ↔ Gone s srcI j) := by
    intro j hj
    constructor
    · rintro rfl
      exact ⟨dstI, hid, htrim⟩
    · rintro ⟨i, hi, h⟩
      obtain rfl : i = dstI := by
        have := hlast i h
        omega
      rw [hid] at hi
      exact (Option.some.inj hi).symm
  refine ⟨s1, ?_, hal, ⟨hw.sub, fun j hj => by rw [hw.mem j hj, hgone j hj], hw.localHost, hw.kept⟩,
    fun j ⟨i, hi, h⟩ => ?_⟩
  · rw [trimLoop_trim htrim, h1, ok_bind, trimLoop_stop fuel (by omega)]
  · rw [(hgone j (List.mem_of_getElem? hi)).mpr ⟨i, hi, h⟩]
    exact hnone

/-- **If at most the last host is to be trimmed, the loop removes exactly that.** -/
theorem trimLoop_exact (hrep : RepOk env s L) (hpath : ∀ i < s.hosts.ct, ∃ p, s.path.entry srcI i = .ok p)
    (hlast : ∀ i, ToTrim s srcI i → i + 1 = s.hosts.ct) : ∀ (fuel dstI : Nat), s.hosts.ct ≤ dstI + fuel →
    (∀ i, ToTrim s srcI i → dstI ≤ i) →
    ∃ s', trimLoop env srcI fuel dstI s = .ok s' ∧ s'.allocs = s.allocs ∧ Without s s' (Gone s srcI) ∧
      ∀ id, Gone s srcI id → s'.recs.get id = none := by
  -- past the end, or behind all that is to be trimmed, nobody is left to be
  have hdone : ∀ dstI, s.hosts.ct ≤ dstI → (∀ i, ToTrim s srcI i → dstI ≤ i) → ∀ i, ¬ ToTrim s srcI i := by
    intro dstI hle hge i h
    have := h.lt
    have := hge i h
    omega
  intro fuel
  induction fuel with
  | zero =>
      intro dstI hfuel hge
      exact ⟨s, rfl, rfl, Without.nobody hrep (hdone dstI (by omega) hge)⟩
  | succ fuel ih =>
      intro dstI hfuel hge
      by_cases hlt : dstI < s.hosts.ct
      · obtain ⟨p, hp⟩ := hpath dstI hlt
        by_cases htrim : ToTrim s srcI dstI
        · exact trimLoop_last hrep htrim hlast fuel
        · rw [trimLoop_pass hrep.hosts hlt hp htrim]
          refine ih (dstI + 1) (by omega) fun i hi => ?_
          rcases Nat.lt_or_eq_of_le (hge i hi) with hlt | rfl
          · exact hlt
          · exact absurd hi htrim
      · rw [trimLoop_stop _ (by omega)]
        exact ⟨s, rfl, rfl, Without.nobody hrep (hdone dstI (by omega) hge)⟩

end Routing

end P2pVn
