import P2pVn.Routing.Network
import P2pVn.Routing.TrimExact

/-!
# `Routing.Freeing` — when `trim_disjoint_hosts` does what it means to

Exactly where at most the last host is to be trimmed. `trimDisjointHosts_exact_iff` says so of the table that
the call leaves. For the records it frees, the loop is written a second time with a log of what leaves the
array and what is passed to `free_host` (`trimLoopLogged`, equal to the loop but for the log), so that the
calls before a fault count too; `freesRemoved_iff` is the result about the log.
-/

namespace P2pVn
open CUb

namespace Routing

variable {env : ExtMem} {q : Qsort} {s s' : Routing} {L : HostId} {srcI i : Nat}

/-! ## Local -/

/-- Local's position is found. -/
theorem RepOk.find_local (hrep : RepOk env s L) (hL : s.hosts.items[srcI]? = some L) :
    ∃ m, s.theLocal = .ok L ∧ s.macOf env L = .ok m ∧ s.findHostByAddr env m = .ok (some srcI) := by
  obtain ⟨m, (hm : s.mac? env L = some m)⟩ := hrep.hosts.live L hrep.localMem
  exact ⟨m, theLocal_eq_ok.mpr hrep.isLocal, macOf_eq_ok.mpr hm, hrep.hosts.findHost_index hL hm⟩

theorem trimDisjointHosts_eq (hrep : RepOk env s L) (hL : s.hosts.items[srcI]? = some L)
    (hct : s.mCt = s.hosts.ct) : s.trimDisjointHosts env = (do
      let s ← trimLoop env srcI s.hosts.ct 0 s
      pure (0, s)) := by
  obtain ⟨m, h1, h2, h3⟩ := hrep.find_local hL
  simp only [trimDisjointHosts, h1, h2, h3, ok_bind, hct, ne_eq, not_true_eq_false, if_false]

/-- Local is never trimmed. -/
theorem RepOk.local_not_gone (hrep : RepOk env s L) : ¬ Gone s srcI L := by
  rintro ⟨i, hi, -, -, id, r, hid, hr, hn⟩
  rw [hi] at hid
  cases hid
  rw [hrep.localType r hr] at hn
  cases hn

/-! ## Two networks -/

/-- A sound table in which nobody has more than one link satisfies the invariant. -/
theorem Sound.repOk (hs : Sound env s L) (h1 : ∀ id r, s.recs.get id = some r → r.links.items.length ≤ 1) :
    RepOk env s L := by
  refine hs.table.repOk ⟨hs.links.dst, fun id _ r hr => ?_⟩
  have hlen := h1 id r hr
  match hitems : r.links.items, hlen with
  | [], _ => exact List.Pairwise.nil
  | [l], _ => exact List.pairwise_singleton _ _
  | _ :: _ :: _, hlen => simp at hlen

/-- What is needed of a run's final state to trim it: its table, matrices that fit, and one link at most in
    every record. -/
structure Trimmable (env : ExtMem) (s : Routing) (L : HostId) (srcI : Nat) : Prop where
  rep : RepOk env s L
  isLocal : s.hosts.items[srcI]? = some L
  fits : s.mCt = s.hosts.ct
  live : ∃ g : Grid UInt32 s.mCt, s.path = .live g

theorem Reach.trimmable (h : Reach q env [] s) (hL : s.hosts.items[srcI]? = s.localHost) (hpos : 0 < s.mCt)
    (h1 : ∀ id r, s.recs.get id = some r → r.links.items.length ≤ 1) : ∃ L, Trimmable env s L srcI := by
  obtain ⟨L, hs⟩ := h.sound
  rcases hs.cache with hu | hr
  · rw [hu.1] at hpos
    exact absurd hpos (Nat.lt_irrefl 0)
  · obtain ⟨g, _, hg, -⟩ := hr.ready
    exact ⟨L, hs.repOk h1, hL.trans hs.table.isLocal, hr.mCt, ⟨g, hg⟩⟩

/-- Host `0` connects to host `3`, which announces its link to host `1`. -/
def starExt : ExtMem
  | .lhost => some (lineHost 0)
  | .dp _ => some (lineHost 3)

def starOps : List RtOp :=
  [.dhostAddLink 0 10 ⟨0, 0⟩, .updateEdges [packEdge (lineHost 3) (lineHost 1) 10 5]]

/-- The records after this run; host `1`, in the middle of the table, is a normal one without a path. -/
def starRecs : CellHeap RtHost :=
  ⟨[some ⟨.env .lhost, .htLocal, 0, ⟨[⟨1, 10, 0⟩], 8⟩⟩,
    some ⟨.env (.dp 0), .htDirect, 5, ⟨[⟨2, 10, 5⟩], 8⟩⟩,
    some ⟨.heap (lineHost 1), .htNormal, 0, ⟨[], 8⟩⟩]⟩

/-- A host has one link at most in the runs below. -/
theorem links_le_one {recs : CellHeap RtHost} (h : ∀ i < recs.cells.length, ∀ r, recs.get i = some r →
    r.links.items.length ≤ 1) : ∀ id r, recs.get id = some r → r.links.items.length ≤ 1 :=
  fun id r hr => h id (CellHeap.lt_fresh hr) r hr

/-- The states of the two runs: in the star the host to trim is the middle one, in the line the last. -/
theorem starOps_state : ∃ s L, Trimmable starExt s L 0 ∧ s.hosts.items = [0, 2, 1] ∧ ToTrim s 0 1 := by
  have h1 : (do
      let s ← runFrom .insertion starExt starOps
      pure (s.hosts.items, s.localHost, s.recs)) = Except.ok ([0, 2, 1], some 0, starRecs) := by
    decide +kernel
  have h2 : (do
      let s ← runFrom .insertion starExt starOps
      pure (s.mCt, ← s.path.entry 0 1)) = Except.ok (3, 0) := by
    decide +kernel
  obtain ⟨s, hs, h1⟩ := bind_eq_ok.mp h1
  obtain ⟨s', hs', h2⟩ := bind_eq_ok.mp h2
  cases hs.symm.trans hs'
  obtain ⟨p, hp, h2⟩ := bind_eq_ok.mp h2
  simp only [pure_eq_ok, Except.ok.injEq, Prod.mk.injEq] at h1 h2
  obtain ⟨hitems, hlocal, hrecs⟩ := h1
  obtain ⟨hct, rfl⟩ := h2
  have hitem : s.hosts.items[0]? = s.localHost := by rw [hitems, hlocal]; rfl
  obtain ⟨L, htrim⟩ := (reach_runFrom hs).trimmable hitem (by omega)
    (by rw [hrecs]; exact links_le_one (by decide))
  exact ⟨s, L, htrim, hitems, by decide, hp, 2, _, by rw [hitems]; rfl, by rw [hrecs]; rfl, rfl⟩

theorem lineOps_trimmable : ∃ s L, Trimmable lineExt s L 0 ∧ s.hosts.items = [0, 1, 2] ∧
    ∀ i, ToTrim s 0 i → i + 1 = s.hosts.ct := by
  obtain ⟨s, hs, hitems, hlocal, hrecs⟩ := lineOps_run
  have h : (do
      let s ← runFrom .insertion lineExt lineOps
      pure s.mCt) = Except.ok 3 := by
    decide +kernel
  obtain ⟨s', hs', h⟩ := bind_eq_ok.mp h
  cases hs.symm.trans hs'
  simp only [pure_eq_ok, Except.ok.injEq] at h
  have hitem : s.hosts.items[0]? = s.localHost := by rw [hitems, hlocal]; rfl
  obtain ⟨L, htrim⟩ := (reach_runFrom hs).trimmable hitem (by omega)
    (by rw [hrecs]; exact links_le_one (by decide))
  refine ⟨s, L, htrim, hitems, fun i hi => ?_⟩
  have hlt := hi.lt
  obtain ⟨hne, -, id, r, hid, hr, hn⟩ := hi
  rw [Da.ct, hitems] at hlt ⊢
  have hlt : i < 3 := hlt
  obtain rfl | rfl | rfl : i = 0 ∨ i = 1 ∨ i = 2 := by omega
  · exact absurd rfl hne
  · -- a direct peer
    rw [hitems] at hid
    cases hid
    rw [hrecs] at hr
    cases hr
    cases hn
  · rfl

/-! ## The table -/

/-- **`trim_disjoint_hosts` removes exactly the hosts it means to** (the normal ones whose entry in local's
    row is `PATH_DISCON`, with all links to them, and nothing else changes), in any table that satisfies the
    invariant and has matrices that fit, **if and only if** at most the last host is one of them. -/
theorem trimDisjointHosts_exact_iff (hrep : RepOk env s L) (hL : s.hosts.items[srcI]? = some L)
    (hct : s.mCt = s.hosts.ct) (hlive : ∃ g : Grid UInt32 s.mCt, s.path = .live g) :
    (∃ s', s.trimDisjointHosts env = .ok (0, s') ∧ Without s s' (Gone s srcI)) ↔
      ∀ i, ToTrim s srcI i → i + 1 = s.hosts.ct := by
  have hsrc : srcI < s.hosts.ct := (List.getElem?_eq_some_iff.mp hL).1
  have hpath : ∀ i < s.hosts.ct, ∃ p, s.path.entry srcI i = .ok p := by
    intro i hi
    obtain ⟨g, hg⟩ := hlive
    rw [hg, MatPtr.entry, if_pos ⟨by omega, by omega⟩]
    exact ⟨_, rfl⟩
  rw [trimDisjointHosts_eq hrep hL hct]
  constructor
  · rintro ⟨s', h, hw⟩
    obtain ⟨s1, h1, h⟩ := bind_eq_ok.mp h
    cases h
    -- nothing that stays was freed
    have hdead : ¬ HasDead s' := by
      rintro ⟨id, hid, -, hnone⟩
      obtain ⟨r, hr⟩ := hrep.hosts.get id (hw.sub.subset hid)
      rw [hw.kept id hid r hr] at hnone
      cases hnone
    exact fun i hi => (trimLoop_trimmed hrep.hosts _ 0 h1 hdead (by omega)).1 i (Nat.zero_le i) hi
  · intro hlast
    obtain ⟨s1, h1, -, hw, -⟩ := trimLoop_exact hrep hpath hlast s.hosts.ct 0 (by omega) fun _ _ => Nat.zero_le _
    exact ⟨s1, by rw [h1, ok_bind]; rfl, hw⟩

theorem trimDisjointHosts_exact_line : ∃ s L, Trimmable lineExt s L 0 ∧
    ((∃ s', s.trimDisjointHosts lineExt = .ok (0, s') ∧ Without s s' (Gone s 0)) ↔
      ∀ i, ToTrim s 0 i → i + 1 = s.hosts.ct) := by
  obtain ⟨s, L, h, -, -⟩ := lineOps_trimmable
  exact ⟨s, L, h, trimDisjointHosts_exact_iff h.rep h.isLocal h.fits h.live⟩

/-- **A host in the middle of the table is not removed cleanly**: the record freed is that of its neighbour. -/
theorem trimDisjointHosts_star_wrong : ∃ s L, Trimmable starExt s L 0 ∧ ToTrim s 0 1 ∧
    ¬ ∃ s', s.trimDisjointHosts starExt = .ok (0, s') ∧ Without s s' (Gone s 0) := by
  obtain ⟨s, L, h, hitems, htrim⟩ := starOps_state
  refine ⟨s, L, h, htrim, fun hex => ?_⟩
  have hlast := (trimDisjointHosts_exact_iff h.rep h.isLocal h.fits h.live).mp hex 1 htrim
  rw [Da.ct, hitems] at hlast
  exact absurd hlast (by decide)

/-! ## The records that are freed -/

/-- What `trim_host` does with a record: take it out of the array, or pass it to `free_host`. -/
inductive TrimEvent where
  | takenOut (id : HostId)
  | freed (id : HostId)
  deriving DecidableEq, Repr

/-- `trim_host` with a log. -/
def trimHostLogged (env : ExtMem) (s : Routing) (i : Nat) : List TrimEvent × Ub Routing :=
  match (do
      let id ← s.itemAt i
      pure (id, ← s.host id) : Ub (HostId × RtHost)) with
  | .error e => ([], .error e)
  | .ok (id, h) =>
    if h.type ≠ .htNormal then ([], .ok s)
    else match s.hosts.items.foldlM (unlinkFrom env id) s with
      | .error e => ([], .error e)
      | .ok s =>
        let s := s.hostRemove i
        let victim := (s.hosts.items[i]?).getD id
        ([.takenOut id, .freed victim], s.freeHost victim)

/-- The loop with a log; a fault ends it, with the log so far. -/
def trimLoopLogged (env : ExtMem) (srcI : Nat) : Nat → Nat → Routing → List TrimEvent × Ub Routing
  | 0, _, s => ([], .ok s)
  | fuel + 1, dstI, s =>
    if dstI < s.hosts.ct then
      match s.path.entry srcI dstI with
      | .error e => ([], .error e)
      | .ok path =>
        if path = 0 ∧ dstI ≠ srcI then
          match trimHostLogged env s dstI with
          | (log, .error e) => (log, .error e)
          | (log, .ok s) => Prod.map (log ++ ·) id (trimLoopLogged env srcI fuel (dstI + 1) s)
        else trimLoopLogged env srcI fuel (dstI + 1) s
    else ([], .ok s)

/-- `trim_disjoint_hosts` with a log. -/
def trimDisjointHostsLogged (env : ExtMem) (s : Routing) : List TrimEvent × Ub (Int × Routing) :=
  match (do
      s.findHostByAddr env (← s.macOf env (← s.theLocal)) : Ub (Option Nat)) with
  | .error e => ([], .error e)
  | .ok src =>
    if s.mCt ≠ s.hosts.ct then ([], .ok (1, s))
    else match src with
      | none => ([], .error .nullDeref)
      | some srcI => Prod.map id (fun r => do pure (0, ← r)) (trimLoopLogged env srcI s.hosts.ct 0 s)

/-! ### The log changes nothing else -/

theorem trimHostLogged_snd (i : Nat) : (trimHostLogged env s i).2 = s.trimHost env i := by
  unfold trimHostLogged trimHost
  cases hid : s.itemAt i with
  | error e => rfl
  | ok id =>
      cases hr : s.host id with
      | error e => simp [hr]
      | ok r =>
          simp only [hr, ok_bind, pure_eq_ok]
          split
          · rfl
          · cases hu : s.hosts.items.foldlM (unlinkFrom env id) s with
            | error e => rfl
            | ok s1 =>
                simp only [ok_bind]
                cases (s1.hostRemove i).hosts.items[i]? <;> rfl

theorem trimLoopLogged_snd (srcI : Nat) : ∀ (fuel dstI : Nat) (s : Routing),
    (trimLoopLogged env srcI fuel dstI s).2 = trimLoop env srcI fuel dstI s := by
  intro fuel
  induction fuel with
  | zero => exact fun _ _ => rfl
  | succ fuel ih =>
      intro dstI s
      unfold trimLoopLogged trimLoop
      split
      · cases hp : s.path.entry srcI dstI with
        | error e => rfl
        | ok p =>
            simp only [ok_bind]
            split
            · rw [← trimHostLogged_snd]
              obtain ⟨⟨log, out⟩, h⟩ : ∃ x, trimHostLogged env s dstI = x := ⟨_, rfl⟩
              rw [h]
              cases out with
              | error e => rfl
              | ok s1 => simp [ih]
            · exact ih (dstI + 1) s
      · rfl

/-- **The logged call is the call**: it leaves the same table, and faults where the call faults. -/
theorem trimDisjointHostsLogged_snd (env : ExtMem) (s : Routing) :
    (s.trimDisjointHostsLogged env).2 = s.trimDisjointHosts env := by
  unfold trimDisjointHostsLogged trimDisjointHosts
  cases hL : s.theLocal with
  | error e => rfl
  | ok L =>
      cases hm : s.macOf env L with
      | error e => simp [hm]
      | ok m =>
          cases hf : s.findHostByAddr env m with
          | error e => simp [hm, hf]
          | ok src =>
              simp only [hm, hf, ok_bind]
              split
              · rfl
              · cases src with
                | none => rfl
                | some srcI => simp [trimLoopLogged_snd]

/-! ### What the log holds -/

/-- A host that is trimmed is taken out, and what is at its position then is freed. -/
theorem trimHostLogged_normal (hrep : RepOk env s L) {id : HostId} {r : RtHost}
    (hi : s.hosts.items[i]? = some id) (hr : s.recs.get id = some r) (hn : r.type = .htNormal) :
    (trimHostLogged env s i).1 = [.takenOut id, .freed ((s.hosts.items[i + 1]?).getD id)] := by
  obtain ⟨m, (hm : s.mac? env id = some m)⟩ := hrep.hosts.live id (List.mem_of_getElem? hi)
  obtain ⟨s1, h1, -⟩ := unlinkAll_ok s.hosts.items hrep.hosts hrep.links hm fun _ hj => hj
  have hnext : (s1.hostRemove i).hosts.items[i]? = s.hosts.items[i + 1]? := by
    rw [hostRemove, Da.items_remove, (unlinkAll_thins _ h1).1.hosts, List.getElem?_eraseIdx_of_ge (Nat.le_refl i)]
  simp only [trimHostLogged, itemAt_eq_ok.mpr hi, host_eq_ok.mpr hr, ok_bind, pure_eq_ok, hn, ne_eq,
    not_true_eq_false, if_false, h1, hnext]

theorem trimHostLogged_kept {id : HostId} {r : RtHost} (hi : s.hosts.items[i]? = some id)
    (hr : s.recs.get id = some r) (hn : r.type ≠ .htNormal) : trimHostLogged env s i = ([], .ok s) := by
  simp only [trimHostLogged, itemAt_eq_ok.mpr hi, host_eq_ok.mpr hr, ok_bind, pure_eq_ok, ne_eq, hn,
    not_false_eq_true, if_true]

/-- A position that is not to be trimmed is passed over. -/
theorem trimLoopLogged_pass (ht : HostsOk env s) {fuel dstI : Nat} (hlt : dstI < s.hosts.ct) {p : UInt32}
    (hp : s.path.entry srcI dstI = .ok p) (hno : ¬ ToTrim s srcI dstI) :
    trimLoopLogged env srcI (fuel + 1) dstI s = trimLoopLogged env srcI fuel (dstI + 1) s := by
  obtain ⟨id, hid⟩ : ∃ id, s.hosts.items[dstI]? = some id := ⟨_, List.getElem?_eq_getElem hlt⟩
  obtain ⟨r, hr⟩ := ht.get id (List.mem_of_getElem? hid)
  rw [trimLoopLogged, if_pos hlt]
  simp only [hp]
  split
  · rename_i hdis
    have hn : r.type ≠ .htNormal := fun hn => hno ⟨hdis.2, hdis.1 ▸ hp, id, r, hid, hr, hn⟩
    rw [trimHostLogged_kept hid hr hn]
    rfl
  · rfl

theorem trimLoopLogged_none (ht : HostsOk env s) : ∀ (fuel dstI : Nat),
    (∀ i, dstI ≤ i → ¬ ToTrim s srcI i) → (trimLoopLogged env srcI fuel dstI s).1 = [] := by
  intro fuel
  induction fuel with
  | zero => exact fun _ _ => rfl
  | succ fuel ih =>
      intro dstI hno
      by_cases hlt : dstI < s.hosts.ct
      · cases hp : s.path.entry srcI dstI with
        | error e => simp [trimLoopLogged, hlt, hp]
        | ok p =>
            rw [trimLoopLogged_pass ht hlt hp (hno dstI (Nat.le_refl _))]
            exact ih (dstI + 1) fun i hi => hno i (by omega)
      · simp [trimLoopLogged, hlt]

/-- The log begins with the first host that is to be trimmed, and ends with it if this is the last host. -/
theorem trimLoopLogged_first (hrep : RepOk env s L) (htrim : ToTrim s srcI i)
    (hread : ∀ j ≤ i, ∃ p, s.path.entry srcI j = .ok p) :
    ∀ (fuel dstI : Nat), dstI ≤ i → i < dstI + fuel → (∀ j, dstI ≤ j → j < i → ¬ ToTrim s srcI j) →
    ∃ id rest, s.hosts.items[i]? = some id ∧ (trimLoopLogged env srcI fuel dstI s).1 =
      .takenOut id :: .freed ((s.hosts.items[i + 1]?).getD id) :: rest ∧ (i + 1 = s.hosts.ct → rest = []) := by
  intro fuel
  induction fuel with
  | zero =>
      intro dstI hle hfuel
      omega
  | succ fuel ih =>
      intro dstI hle hfuel hmin
      obtain ⟨p, hp⟩ := hread dstI hle
      have hlt : dstI < s.hosts.ct := Nat.lt_of_le_of_lt hle htrim.lt
      rcases Nat.lt_or_eq_of_le hle with hlt' | rfl
      · rw [trimLoopLogged_pass hrep.hosts hlt hp (hmin dstI (Nat.le_refl _) hlt')]
        exact ih (dstI + 1) hlt' (by omega) fun j hj => hmin j (by omega)
      · obtain ⟨hne, h0, id, r, hid, hr, hn⟩ := htrim
        have hlog := trimHostLogged_normal hrep hid hr hn
        rw [trimLoopLogged, if_pos hlt]
        simp only [h0, hne, ne_eq, not_false_eq_true, and_self, if_true]
        match h : trimHostLogged env s dstI with
        | (log, .error e) =>
            rw [h] at hlog
            exact ⟨id, [], hid, hlog, fun _ => rfl⟩
        | (log, .ok s1) =>
            rw [h] at hlog
            refine ⟨id, (trimLoopLogged env srcI fuel (dstI + 1) s1).1, hid, ?_, fun hend => ?_⟩
            · have hlog' : log = [.takenOut id, .freed ((s.hosts.items[dstI + 1]?).getD id)] := hlog
              rw [hlog']
              rfl
            · -- nothing is behind the last host
              obtain ⟨s2, h2, -, -, hct, -⟩ := trimHost_last_exact hrep hid hr hn hend
              have hs : (.ok s1 : Ub Routing) = .ok s2 := by
                rw [← h2, ← trimHostLogged_snd, h]
              cases hs
              cases fuel with
              | zero => rfl
              | succ fuel => rw [trimLoopLogged, if_neg (by omega)]

/-! ### The result -/

/-- The records that a call frees are those it takes out, each freed once and right after it was taken out, and
    none is local, stays in the table, or stays the destination of a link there. -/
def FreesRemoved (env : ExtMem) (s : Routing) : Prop :=
  ∃ ids : List HostId, ids.Nodup ∧
    (s.trimDisjointHostsLogged env).1 = ids.flatMap (fun id => [.takenOut id, .freed id]) ∧
    ∀ id ∈ ids, s.localHost ≠ some id ∧ ∀ ret s', (s.trimDisjointHostsLogged env).2 = .ok (ret, s') →
      s'.localHost ≠ some id ∧ id ∉ s'.hosts.items ∧
      ∀ j ∈ s'.hosts.items, ∀ r, s'.recs.get j = some r → ∀ l ∈ r.links.items, l.dst ≠ id

theorem trimDisjointHostsLogged_stale (hrep : RepOk env s L) (hL : s.hosts.items[srcI]? = some L)
    (hct : s.mCt ≠ s.hosts.ct) : s.trimDisjointHostsLogged env = ([], .ok (1, s)) := by
  obtain ⟨m, h1, h2, h3⟩ := hrep.find_local hL
  simp only [trimDisjointHostsLogged, h1, h2, h3, ok_bind, hct, ne_eq, not_false_eq_true, if_true]

theorem trimDisjointHostsLogged_fst (hrep : RepOk env s L) (hL : s.hosts.items[srcI]? = some L)
    (hct : s.mCt = s.hosts.ct) :
    (s.trimDisjointHostsLogged env).1 = (trimLoopLogged env srcI s.hosts.ct 0 s).1 := by
  obtain ⟨m, h1, h2, h3⟩ := hrep.find_local hL
  simp only [trimDisjointHostsLogged, h1, h2, h3, ok_bind, hct, ne_eq, not_true_eq_false, if_false]
  rfl

/-- The matrix row of a position that is to be trimmed can be read up to there. -/
theorem ToTrim.read (h : ToTrim s srcI i) : ∀ j ≤ i, ∃ p, s.path.entry srcI j = .ok p := by
  obtain ⟨-, h0, -⟩ := h
  intro j hj
  cases hpath : s.path with
  | live g =>
      rw [hpath, MatPtr.entry] at h0
      split at h0
      · rename_i hlt
        rw [MatPtr.entry, if_pos ⟨hlt.1, by omega⟩]
        exact ⟨_, rfl⟩
      · cases h0
  | _ => rw [hpath] at h0; cases h0

/-- A call that frees what it removes trims nothing but the last host. -/
theorem FreesRemoved.last (h : FreesRemoved env s) (hrep : RepOk env s L) (hL : s.hosts.items[srcI]? = some L)
    (hct : s.mCt = s.hosts.ct) (hi : ToTrim s srcI i) : i + 1 = s.hosts.ct := by
  obtain ⟨ids, -, hlog, -⟩ := h
  rw [trimDisjointHostsLogged_fst hrep hL hct] at hlog
  by_contra hend
  -- the first host to be trimmed is not the last host either
  classical
  have hex : ∃ i, ToTrim s srcI i := ⟨i, hi⟩
  have hle : Nat.find hex ≤ i := Nat.find_min' hex hi
  have hfind : ToTrim s srcI (Nat.find hex) := Nat.find_spec hex
  have hlt := hi.lt
  have hlt0 : Nat.find hex + 1 < s.hosts.items.length := by
    rw [Da.ct] at hend hlt
    omega
  obtain ⟨id, rest, hid, hfirst, -⟩ := trimLoopLogged_first hrep hfind hfind.read s.hosts.ct 0 (Nat.zero_le _)
    (by omega) fun j _ hj => Nat.find_min hex hj
  rw [hlog, List.getElem?_eq_getElem hlt0] at hfirst
  cases ids with
  | nil => cases hfirst
  | cons id0 ids =>
      rw [List.flatMap_cons] at hfirst
      obtain ⟨h0, hfirst⟩ := List.cons.inj hfirst
      obtain ⟨h1, -⟩ := List.cons.inj hfirst
      cases h0
      -- the record freed is the next one, and no host is in the table twice
      have hnext : s.hosts.items[Nat.find hex + 1]? = some id := by
        rw [List.getElem?_eq_getElem hlt0]
        exact congrArg some (TrimEvent.freed.inj h1).symm
      have hsame := (List.getElem?_inj hlt0 hrep.hosts.nodup).mp (hnext.trans hid.symm)
      omega

/-- A call with nothing in its log frees what it removes. -/
theorem freesRemoved_nil (h : (s.trimDisjointHostsLogged env).1 = []) : FreesRemoved env s :=
  ⟨[], List.nodup_nil, h, fun _ h => nomatch h⟩

/-- The last host is taken out and freed. -/
theorem freesRemoved_last (hrep : RepOk env s L) (hL : s.hosts.items[srcI]? = some L) (hct : s.mCt = s.hosts.ct)
    (hlast : ∀ i, ToTrim s srcI i → i + 1 = s.hosts.ct) (hi : ToTrim s srcI i) : FreesRemoved env s := by
  have hend := hlast i hi
  have hpath : ∀ j < s.hosts.ct, ∃ p, s.path.entry srcI j = .ok p := fun j hj => hi.read j (by omega)
  obtain ⟨s', h', -, hw, -⟩ := trimLoop_exact hrep hpath hlast s.hosts.ct 0 (by omega) fun _ _ => Nat.zero_le _
  obtain ⟨id, rest, hid, hfirst, hrest⟩ := trimLoopLogged_first hrep hi hi.read s.hosts.ct 0 (Nat.zero_le _)
    (by omega) fun j _ hj hjt => absurd (hlast j hjt) (by omega)
  have hgone : Gone s srcI id := ⟨i, hid, hi⟩
  have hnot : id ∉ s'.hosts.items := fun h => (hw.mem id (hw.sub.subset h)).mp h hgone
  have hnext : s.hosts.items[i + 1]? = none := by
    rw [List.getElem?_eq_none_iff]
    rw [Da.ct] at hend
    omega
  rw [hnext, hrest hend] at hfirst
  refine ⟨[id], List.nodup_singleton id, ?_, fun j hj => ?_⟩
  · rw [trimDisjointHostsLogged_fst hrep hL hct, hfirst]
    rfl
  · obtain rfl := List.mem_singleton.mp hj
    have hlocal : s.localHost ≠ some j := by
      rw [hrep.isLocal]
      intro h
      exact hrep.local_not_gone ((Option.some.inj h) ▸ hgone)
    refine ⟨hlocal, fun ret s2 h2 => ?_⟩
    rw [trimDisjointHostsLogged_snd, trimDisjointHosts_eq hrep hL hct, h', ok_bind] at h2
    cases h2
    refine ⟨hw.localHost ▸ hlocal, hnot, fun k hk r hr l hl hdst => ?_⟩
    -- a link that stays leads to a host that stays
    obtain ⟨r0, hr0⟩ := hrep.hosts.get k (hw.sub.subset hk)
    rw [hw.kept k hk r0 hr0] at hr
    cases hr
    have hmem := of_decide_eq_true (List.mem_filter.mp hl).2
    exact hnot (hdst ▸ hmem)

/-- **Trimming frees exactly the records it removes**, in any table that satisfies the invariant, **if and only
    if** it trims nothing but the last host: the matrices do not fit, or every host that they show as
    disconnected, and that is a normal one, is the last. -/
theorem freesRemoved_iff (hrep : RepOk env s L) (hL : s.hosts.items[srcI]? = some L) :
    FreesRemoved env s ↔ (s.mCt = s.hosts.ct → ∀ i, ToTrim s srcI i → i + 1 = s.hosts.ct) := by
  constructor
  · exact fun h hct i hi => h.last hrep hL hct hi
  · intro hlast
    by_cases hct : s.mCt = s.hosts.ct
    · by_cases hany : ∃ i, ToTrim s srcI i
      · obtain ⟨i, hi⟩ := hany
        exact freesRemoved_last hrep hL hct (hlast hct) hi
      · refine freesRemoved_nil ?_
        rw [trimDisjointHostsLogged_fst hrep hL hct]
        exact trimLoopLogged_none hrep.hosts _ 0 fun i _ hi => hany ⟨i, hi⟩
    · refine freesRemoved_nil ?_
      rw [trimDisjointHostsLogged_stale hrep hL hct]

theorem freesRemoved_iff_line : ∃ s L, RepOk lineExt s L ∧
    (FreesRemoved lineExt s ↔ (s.mCt = s.hosts.ct → ∀ i, ToTrim s 0 i → i + 1 = s.hosts.ct)) := by
  obtain ⟨s, L, h, -, -⟩ := lineOps_trimmable
  exact ⟨s, L, h.rep, freesRemoved_iff h.rep h.isLocal⟩

/-- **In the star the record freed is not the one removed.** -/
theorem freesRemoved_star_wrong : ∃ s L, RepOk starExt s L ∧ ¬ FreesRemoved starExt s := by
  obtain ⟨s, L, h, hitems, htrim⟩ := starOps_state
  refine ⟨s, L, h.rep, fun hex => ?_⟩
  have hlast := (freesRemoved_iff h.rep h.isLocal).mp hex h.fits 1 htrim
  rw [Da.ct, hitems] at hlast
  exact absurd hlast (by decide)

end Routing

end P2pVn
