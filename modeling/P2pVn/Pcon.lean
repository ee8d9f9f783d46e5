import Mathlib.Logic.Function.Basic
import P2pVn.DArray
import P2pVn.Lib.RateLimit
import P2pVn.Lib.Sorting
import P2pVn.PeerProto
import P2pVn.StdParam

/-!
# `Pcon` — how often a host is tried (`pcon.c`)

`pcon_connect` remembers, for every host it was asked to connect to, when it last went ahead, in a list kept
sorted by `host_cmp`. Under the lock it looks the host up, reads the clock and decides; going ahead
(`dp_create_linkstate`) happens after the lock is released and does not touch the list.

`pconConnect_spec` says all that one call does. `PconSys` is any number of threads making such calls, step by
step; `PconSys.Run.inv` is what holds at every point of a run, and the log of a run is that of a limiter
(`RateLimit.Limited`), from which `PconSys.Run.limits` reads off the properties of the component.
-/

namespace P2pVn
open CUb Bytes RateLimit

/-! ## Hosts -/

/-- `struct ip_attempt`. -/
structure IpAttempt where
  attemptTs : Timeval
  host : Ipv4Host
  deriving DecidableEq, Repr

/-- `host_cmp`: the MAC, then the address and the port as they lie in memory. -/
def hostCmp (ia1 ia2 : IpAttempt) : Ordering :=
  let h1 := ia1.host
  let h2 := ia2.host
  let macCmp := memcmp h1.mac h2.mac
  if macCmp ≠ .eq then macCmp
  else
    let ipCmp := compare (u32Bytes h1.addrIn.sinAddr) (u32Bytes h2.addrIn.sinAddr)
    if ipCmp ≠ .eq then ipCmp
    else compare (u16Bytes h1.addrIn.sinPort) (u16Bytes h2.addrIn.sinPort)

/-- MAC, address and port. -/
def Ipv4Host.key (h : Ipv4Host) : EtherAddr × UInt32 × UInt16 := (h.mac, h.addrIn.sinAddr, h.addrIn.sinPort)

theorem u32Bytes_inj {x y : UInt32} (h : u32Bytes x = u32Bytes y) : x = y := by
  have hx := u32OfBytes_append x []
  rw [h, u32OfBytes_append] at hx
  exact hx.symm

theorem u16Bytes_inj {x y : UInt16} (h : u16Bytes x = u16Bytes y) : x = y := by
  have hx := u16OfBytes_append x []
  rw [h, u16OfBytes_append] at hx
  exact hx.symm

/-- `host_cmp` compares lexicographically. -/
theorem hostCmp_lex : hostCmp = compareLex (compareOn fun ia => ia.host.mac.addr.toList)
    (compareLex (compareOn fun ia => u32Bytes ia.host.addrIn.sinAddr)
      (compareOn fun ia => u16Bytes ia.host.addrIn.sinPort)) := by
  funext a b
  have hthen : ∀ o o' : Ordering, (if o ≠ .eq then o else o') = o.then o' := by
    intro o o'
    cases o <;> rfl
  simp only [hostCmp, hthen]
  rfl

instance : Std.TransCmp hostCmp := by
  rw [hostCmp_lex]
  infer_instance

/-- Two attempts compare equal exactly if address, port and MAC are the same. -/
theorem hostCmp_eq {a b : IpAttempt} : hostCmp a b = .eq ↔ a.host.key = b.host.key := by
  simp only [hostCmp_lex, compareLex, compareOn, Ordering.then_eq_eq, Ipv4Host.key, Prod.mk.injEq]
  rw [show compare a.host.mac.addr.toList b.host.mac.addr.toList = memcmp a.host.mac b.host.mac from rfl,
    memcmp_eq, Std.LawfulEqCmp.compare_eq_iff_eq, Std.LawfulEqCmp.compare_eq_iff_eq]
  exact ⟨fun ⟨hm, hi, hp⟩ => ⟨hm, u32Bytes_inj hi, u16Bytes_inj hp⟩, fun ⟨hm, hi, hp⟩ => ⟨hm, hi ▸ rfl, hp ▸ rfl⟩⟩

/-! ## `pcon_connect` -/

/-- `PC_INIT_SZ`. -/
def pcInitSz : Nat := 8

/-- `PC_CON_EASE_SEC`. -/
def pcConEaseSec : Int := 2

/-- `struct peer_cons`, without its lock. -/
structure Pcon where
  ipas : Da IpAttempt
  deriving DecidableEq, Repr

/-- `pcon_init`, where memory is had. -/
def pconInit : Pcon := ⟨⟨[], pcInitSz⟩⟩

/-- The lookup: `nh`'s time is not compared. -/
def pconSearch (host : Ipv4Host) (pc : Pcon) : Ub (Option Nat) :=
  bsearch (fun p => .ok (hostCmp ⟨⟨0, 0⟩, host⟩ p)) pc.ipas.items

/-- Whether it has been too long: `timercmp(&tdiff, &out, >)`. -/
def pconElapsed (now attemptTs : Timeval) : Bool := timerGt (timersub now attemptTs) ⟨pcConEaseSec, 0⟩

/-- The rest of the locked part, given what was found and the time: the result, and the list. An append that
    fails goes unnoticed. -/
def pconCommit (q : Qsort) (host : Ipv4Host) (fh : Option Nat) (now : Timeval) (pc : Pcon)
    (al : AllocScript) : Ub (Int × Pcon × AllocScript) :=
  match fh with
  | some i =>
    match pc.ipas.items[i]? with
    | none => .error .outOfBounds
    | some e =>
      if pconElapsed now e.attemptTs then
        pure (0, ⟨pc.ipas.withItems (pc.ipas.items.set i { e with attemptTs := now })⟩, al)
      else pure (1, pc, al)
  | none =>
    let (_, ipas, al) := pc.ipas.addToEnd ⟨now, host⟩ al
    pure (0, ⟨ipas.withItems (q.sort hostCmp ipas.items)⟩, al)

/-- `pcon_connect` called at `now`; where it returns `0` it goes on to `dp_create_linkstate`. -/
def pconConnect (q : Qsort) (now : Timeval) (host : Ipv4Host) (pc : Pcon) (al : AllocScript) :
    Ub (Int × Pcon × AllocScript) := do
  let fh ← pconSearch host pc
  pconCommit q host fh now pc al

namespace Pcon

/-- Strictly sorted: one entry for each host. -/
def Sorted (pc : Pcon) : Prop := pc.ipas.items.Pairwise fun a b => hostCmp a b = .lt

/-- The entry for `k` says `ts`. -/
def Holds (pc : Pcon) (k : EtherAddr × UInt32 × UInt16) (ts : Timeval) : Prop :=
  ∃ e ∈ pc.ipas.items, e.host.key = k ∧ e.attemptTs = ts

/-- Whether the order is strict depends on the hosts alone. -/
theorem sorted_iff {pc : Pcon} : pc.Sorted ↔
    (pc.ipas.items.map IpAttempt.host).Pairwise fun h h' => hostCmp ⟨⟨0, 0⟩, h⟩ ⟨⟨0, 0⟩, h'⟩ = .lt := by
  rw [List.pairwise_map]
  rfl

/-- In a sorted array no host is there twice. -/
theorem Sorted.index_inj {pc : Pcon} (h : pc.Sorted) {i j : Nat} {a b : IpAttempt}
    (ha : pc.ipas.items[i]? = some a) (hb : pc.ipas.items[j]? = some b) (he : a.host.key = b.host.key) :
    i = j := by
  obtain ⟨hi, rfl⟩ := List.getElem?_eq_some_iff.mp ha
  obtain ⟨hj, rfl⟩ := List.getElem?_eq_some_iff.mp hb
  have hne : ∀ {a b : IpAttempt}, hostCmp a b = .lt → a.host.key ≠ b.host.key := by
    intro a b hlt hk
    rw [hostCmp_eq.mpr hk] at hlt
    cases hlt
  rcases Nat.lt_trichotomy i j with hij | hij | hij
  · exact absurd he (hne (List.pairwise_iff_getElem.mp h i j hi hj hij))
  · exact hij
  · exact absurd he.symm (hne (List.pairwise_iff_getElem.mp h j i hj hi hij))

end Pcon

/-! ## One call -/

section

variable {q : Qsort} {pc : Pcon} {host : Ipv4Host} {now : Timeval}

theorem pconSearch_ok (host : Ipv4Host) (pc : Pcon) : ∃ r, pconSearch host pc = .ok r :=
  bsearch_ok fun _ _ => ⟨_, rfl⟩

/-- What the search finds is this host, -/
theorem pconSearch_some {i : Nat} (h : pconSearch host pc = .ok (some i)) :
    ∃ e, pc.ipas.items[i]? = some e ∧ e.host.key = host.key := by
  obtain ⟨e, he, hcmp⟩ := bsearch_eq h
  exact ⟨e, he, (hostCmp_eq.mp (Except.ok.inj hcmp)).symm⟩

/-- and in a sorted array what it does not find is not there. -/
theorem pconSearch_none (hs : pc.Sorted) (h : pconSearch host pc = .ok none) :
    ∀ e ∈ pc.ipas.items, e.host.key ≠ host.key := by
  have hle : pc.ipas.items.Pairwise fun a b => (hostCmp a b).isLE := by
    refine List.Pairwise.imp ?_ hs
    intro a b hab
    rw [hab]
    rfl
  have hord : KeyOrdered (hostCmp ⟨⟨0, 0⟩, host⟩) pc.ipas.items := keyOrdered_of_sorted hle _
  intro e he hk
  exact bsearch_none (fun _ _ => rfl) hord h e he (hostCmp_eq.mpr hk.symm)

/-- Writing a time into an entry. -/
theorem touch_spec (hs : pc.Sorted) {i : Nat} {e : IpAttempt} (he : pc.ipas.items[i]? = some e) (now : Timeval) :
    let pc' : Pcon := ⟨pc.ipas.withItems (pc.ipas.items.set i { e with attemptTs := now })⟩
    pc'.Sorted ∧ ∀ k ts, pc'.Holds k ts ↔ if k = e.host.key then ts = now else pc.Holds k ts := by
  obtain ⟨hi, hget⟩ := List.getElem?_eq_some_iff.mp he
  constructor
  · have hmap : (pc.ipas.items.set i { e with attemptTs := now }).map IpAttempt.host
        = pc.ipas.items.map IpAttempt.host := by
      rw [List.map_set]
      apply List.ext_getElem?
      intro j
      rw [List.getElem?_set]
      split
      · rename_i hj
        subst hj
        simp [hi, hget]
      · rfl
    rw [Pcon.sorted_iff] at hs ⊢
    rwa [Da.items_withItems, hmap]
  · intro k ts
    unfold Pcon.Holds
    simp only [Da.items_withItems, List.mem_iff_getElem?]
    constructor
    · rintro ⟨e', ⟨j, hj⟩, rfl, rfl⟩
      rw [List.getElem?_set] at hj
      split at hj
      · simp only [Option.some.injEq] at hj
        rw [← hj, if_pos rfl]
      · rename_i hne
        rw [if_neg fun hk => hne (hs.index_inj he hj hk.symm)]
        exact ⟨e', ⟨j, hj⟩, rfl, rfl⟩
    · split
      · rintro rfl
        rename_i hk
        exact ⟨{ e with attemptTs := ts }, ⟨i, by simp [hi]⟩, hk.symm, rfl⟩
      · rintro ⟨e', ⟨j, hj⟩, rfl, rfl⟩
        rename_i hk
        refine ⟨e', ⟨j, ?_⟩, rfl, rfl⟩
        rw [List.getElem?_set, if_neg, hj]
        rintro rfl
        rw [he] at hj
        exact hk (congrArg (fun ia => ia.host.key) (Option.some.inj hj).symm)

/-- Adding an entry for a host that has none. -/
theorem insert_spec (hs : pc.Sorted) (hnew : ∀ e ∈ pc.ipas.items, e.host.key ≠ host.key) (now : Timeval)
    {pc' : Pcon} (hitems : pc'.ipas.items = q.sort hostCmp (pc.ipas.items ++ [⟨now, host⟩])) :
    pc'.Sorted ∧ ∀ k ts, pc'.Holds k ts ↔ if k = host.key then ts = now else pc.Holds k ts := by
  have hperm : pc'.ipas.items.Perm (pc.ipas.items ++ [⟨now, host⟩]) := hitems ▸ q.perm _ _
  constructor
  · have hle : pc'.ipas.items.Pairwise fun a b => (hostCmp a b).isLE := hitems ▸ q.sorted _ _
    -- the host is new, so no two entries compare equal
    have hne : List.Pairwise (fun a b => hostCmp a b ≠ .eq) (pc.ipas.items ++ [⟨now, host⟩]) := by
      refine List.pairwise_append.mpr ⟨?_, List.pairwise_singleton _ _, ?_⟩
      · refine List.Pairwise.imp ?_ hs
        intro a b hab
        rw [hab]
        decide
      · intro a ha b hb hab
        rw [List.mem_singleton.mp hb] at hab
        exact hnew a ha (hostCmp_eq.mp hab)
    have hsymm : ∀ {a b : IpAttempt}, hostCmp a b ≠ .eq → hostCmp b a ≠ .eq :=
      fun hab hba => hab (hostCmp_eq.mpr (hostCmp_eq.mp hba).symm)
    have hne' := (hperm.pairwise_iff hsymm).mpr hne
    refine List.Pairwise.imp ?_ (hle.and hne')
    rintro a b ⟨hab, hab'⟩
    cases hc : hostCmp a b with
    | lt => rfl
    | eq => exact absurd hc hab'
    | gt =>
        rw [hc] at hab
        cases hab
  · intro k ts
    unfold Pcon.Holds
    simp only [hperm.mem_iff, List.mem_append, List.mem_singleton]
    constructor
    · rintro ⟨e, he | rfl, rfl, rfl⟩
      · rw [if_neg (hnew e he)]
        exact ⟨e, he, rfl, rfl⟩
      · rw [if_pos rfl]
    · split
      · rintro rfl
        rename_i hk
        exact ⟨⟨ts, host⟩, Or.inr rfl, hk.symm, rfl⟩
      · rintro ⟨e, he, rfl, rfl⟩
        exact ⟨e, Or.inl he, rfl, rfl⟩

/-- What one call makes of a sorted list, where memory is had: it goes ahead unless the host's entry is
    recent, and its entry then says `now`. -/
structure Decided (pc : Pcon) (host : Ipv4Host) (now : Timeval) (ret : Int) (pc' : Pcon) : Prop where
  sorted : pc'.Sorted
  outcome : (ret = 1 ∧ pc' = pc ∧ ∃ ts, pc.Holds host.key ts ∧ pconElapsed now ts = false) ∨
    (ret = 0 ∧ (∀ ts, pc.Holds host.key ts → pconElapsed now ts = true) ∧
      ∀ k ts, pc'.Holds k ts ↔ if k = host.key then ts = now else pc.Holds k ts)

/-- What `pcon_connect` does once it has looked the host up. -/
theorem pconCommit_spec (q : Qsort) (hs : pc.Sorted) {fh : Option Nat} (hf : pconSearch host pc = .ok fh)
    (now : Timeval) :
    ∃ ret pc', pconCommit q host fh now pc [] = .ok (ret, pc', []) ∧ Decided pc host now ret pc' := by
  cases fh with
  | some i =>
      obtain ⟨e, he, hk⟩ := pconSearch_some hf
      have hlook : pconCommit q host (some i) now pc []
          = if pconElapsed now e.attemptTs then
              .ok (0, ⟨pc.ipas.withItems (pc.ipas.items.set i { e with attemptTs := now })⟩, [])
            else .ok (1, pc, []) := by
        simp only [pconCommit, he, pure_eq_ok]
      rw [hlook]
      -- the list has one entry for the host, the one that was found
      have honly : ∀ ts, pc.Holds host.key ts → ts = e.attemptTs := by
        rintro ts ⟨e', he', hk', rfl⟩
        obtain ⟨j, hj⟩ := List.getElem?_of_mem he'
        obtain rfl := hs.index_inj he hj (hk.trans hk'.symm)
        rw [he] at hj
        rw [Option.some.inj hj]
      cases hel : pconElapsed now e.attemptTs with
      | false => exact ⟨1, pc, rfl, hs, Or.inl ⟨rfl, rfl, _, ⟨e, List.mem_of_getElem? he, hk, rfl⟩, hel⟩⟩
      | true =>
          obtain ⟨hs', hholds⟩ := touch_spec hs he now
          rw [hk] at hholds
          exact ⟨0, _, rfl, hs', Or.inr ⟨rfl, fun ts hts => (honly ts hts) ▸ hel, hholds⟩⟩
  | none =>
      have hnew := pconSearch_none hs hf
      obtain ⟨ipas, hadd, hitems⟩ := Da.addToEnd_nil pc.ipas (⟨now, host⟩ : IpAttempt)
      have hlook : pconCommit q host none now pc []
          = .ok (0, ⟨ipas.withItems (q.sort hostCmp ipas.items)⟩, []) := by
        simp only [pconCommit, hadd, pure_eq_ok]
      rw [hlook]
      have hsorted : (ipas.withItems (q.sort hostCmp ipas.items)).items
          = q.sort hostCmp (pc.ipas.items ++ [⟨now, host⟩]) := by rw [Da.items_withItems, hitems]
      obtain ⟨hs', hholds⟩ := insert_spec hs hnew now hsorted
      refine ⟨0, _, rfl, hs', Or.inr ⟨rfl, ?_, hholds⟩⟩
      rintro ts ⟨e, he, hk, -⟩
      exact absurd hk (hnew e he)

/-- **One call of `pcon_connect`.** -/
theorem pconConnect_spec (q : Qsort) (hs : pc.Sorted) (host : Ipv4Host) (now : Timeval) :
    ∃ ret pc', pconConnect q now host pc [] = .ok (ret, pc', []) ∧ Decided pc host now ret pc' := by
  obtain ⟨fh, hf⟩ := pconSearch_ok host pc
  unfold pconConnect
  rw [hf, ok_bind]
  exact pconCommit_spec q hs hf now

end

/-- What `timercmp` decides, in microseconds. -/
theorem pconElapsed_iff {now ts : Timeval} (hn : now.Normal) (hts : ts.Normal) :
    pconElapsed now ts = true ↔ ts.us + 1000000 * pcConEaseSec < now.us := by
  unfold pconElapsed
  rw [timerGt_iff (normal_timersub hn hts) (by decide), us_timersub]
  simp only [Timeval.us, pcConEaseSec]
  omega

/-! ## Threads -/

/-- How far a thread is in `pcon_connect`. -/
inductive PconPhase where
  | outside
  | locked (host : Ipv4Host)
  | searched (host : Ipv4Host) (fh : Option Nat)
  | timed (host : Ipv4Host) (fh : Option Nat) (now : Timeval)

/-- A call that has decided: with which host, at what time, and what it returns. -/
structure Attempt where
  host : Ipv4Host
  now : Timeval
  ret : Int

/-- The list, its lock, the threads, the last reading of the clock, and the calls so far, the newest first. -/
structure PconSys where
  pc : Pcon
  holder : Option Nat
  phase : Nat → PconPhase
  clock : Timeval
  log : List Attempt

namespace PconSys

/-- A step of some thread. No allocation fails, and the clock is normalised and does not run backwards. -/
inductive Step (q : Qsort) : PconSys → PconSys → Prop
  | lock {s t} (host : Ipv4Host) (hfree : s.holder = none) (hp : s.phase t = .outside) :
      Step q s { s with holder := some t, phase := Function.update s.phase t (.locked host) }
  | search {s t host fh} (hp : s.phase t = .locked host) (h : pconSearch host s.pc = .ok fh) :
      Step q s { s with phase := Function.update s.phase t (.searched host fh) }
  | clock {s t host fh} (now : Timeval) (hp : s.phase t = .searched host fh) (hn : now.Normal)
      (hle : s.clock.us ≤ now.us) :
      Step q s { s with phase := Function.update s.phase t (.timed host fh now), clock := now }
  | commit {s t host fh now ret pc al} (hp : s.phase t = .timed host fh now)
      (h : pconCommit q host fh now s.pc [] = .ok (ret, pc, al)) :
      Step q s { s with pc := pc, holder := none, phase := Function.update s.phase t .outside,
                        log := ⟨host, now, ret⟩ :: s.log }

/-- The states that are reached from `pcon_init`, whatever the threads do. -/
inductive Run (q : Qsort) : PconSys → Prop
  | init (start : Timeval) (hn : start.Normal) : Run q ⟨pconInit, none, fun _ => .outside, start, []⟩
  | step {s s'} (h : Run q s) (hs : Step q s s') : Run q s'

end PconSys

/-- A call as a limiter sees it. -/
def Attempt.request (a : Attempt) : Request (EtherAddr × UInt32 × UInt16) := ⟨a.host.key, a.now.us, a.ret = 0⟩

/-- The latest call for `k` that went ahead. -/
def lastSuccess (k : EtherAddr × UInt32 × UInt16) (log : List Attempt) : Option Attempt :=
  log.find? fun a => a.host.key = k && a.ret = 0

theorem lastAdmitted_request (k : EtherAddr × UInt32 × UInt16) (log : List Attempt) :
    lastAdmitted k (log.map Attempt.request) = (lastSuccess k log).map fun a => a.now.us := by
  unfold lastAdmitted lastSuccess
  rw [List.find?_map, Option.map_map]
  rfl

namespace PconSys

/-- What holds at every point of a run: the list is that of a limiter with the calls so far as its log, and
    whoever is between the lookup and the decision still knows where the host is. -/
structure Inv (s : PconSys) : Prop where
  sorted : s.pc.Sorted
  normal : s.clock.Normal
  nows : ∀ a ∈ s.log, a.now.us ≤ s.clock.us
  monotone : Monotone (s.log.map Attempt.request)
  limited : Limited (1000000 * pcConEaseSec) (s.log.map Attempt.request)
  stored : ∀ k ts, s.pc.Holds k ts → ts.Normal
  recalled : ∀ k t, lastAdmitted k (s.log.map Attempt.request) = some t ↔ ∃ ts, s.pc.Holds k ts ∧ ts.us = t
  codes : ∀ a ∈ s.log, a.ret = 0 ∨ a.ret = 1
  critical : ∀ t, s.phase t ≠ .outside → s.holder = some t
  searched : ∀ t host fh, s.phase t = .searched host fh → pconSearch host s.pc = .ok fh
  timed : ∀ t host fh now, s.phase t = .timed host fh now → pconSearch host s.pc = .ok fh ∧ s.clock = now

theorem inv_init {start : Timeval} (hn : start.Normal) : Inv ⟨pconInit, none, fun _ => .outside, start, []⟩ where
  sorted := List.Pairwise.nil
  normal := hn
  nows := nofun
  monotone := List.Pairwise.nil
  limited := .nil
  stored k ts h := by
    obtain ⟨e, he, -⟩ := h
    cases he
  recalled k t := by
    constructor
    · exact nofun
    · rintro ⟨ts, ⟨e, he, -⟩, -⟩
      cases he
  codes := nofun
  critical _ h := absurd rfl h
  searched := nofun
  timed := nofun

/-- Whoever is inside is there alone. -/
theorem Inv.alone {s : PconSys} (h : Inv s) {t u : Nat} (hin : s.phase t ≠ .outside) (hut : u ≠ t) :
    s.phase u = .outside := by
  by_contra hu
  have hholder := h.critical t hin
  rw [h.critical u hu] at hholder
  exact hut (Option.some.inj hholder)

/-- A step of `t` that leaves it inside keeps the phases in order, if its new phase is. -/
theorem Inv.phase {s : PconSys} (h : Inv s) {t : Nat} {p : PconPhase} {clock : Timeval}
    (hin : s.phase t ≠ .outside) (hn : clock.Normal) (hle : s.clock.us ≤ clock.us)
    (hsearched : ∀ host fh, p = .searched host fh → pconSearch host s.pc = .ok fh)
    (htimed : ∀ host fh now, p = .timed host fh now → pconSearch host s.pc = .ok fh ∧ clock = now) :
    Inv { s with phase := Function.update s.phase t p, clock := clock } := by
  have hholder := h.critical t hin
  exact
    { sorted := h.sorted
      normal := hn
      nows := fun a ha => Int.le_trans (h.nows a ha) hle
      monotone := h.monotone
      limited := h.limited
      stored := h.stored
      recalled := h.recalled
      codes := h.codes
      critical := by
        intro u hu
        simp only at hu ⊢
        by_cases hut : u = t
        · rw [hut]
          exact hholder
        · rw [Function.update_of_ne hut] at hu
          exact h.critical u hu
      searched := by
        intro u host fh hu
        simp only at hu ⊢
        -- nobody but the holder is inside
        by_cases hut : u = t
        · rw [hut, Function.update_self] at hu
          exact hsearched host fh hu
        · rw [Function.update_of_ne hut, h.alone hin hut] at hu
          cases hu
      timed := by
        intro u host fh now hu
        simp only at hu ⊢
        by_cases hut : u = t
        · rw [hut, Function.update_self] at hu
          exact htimed host fh now hu
        · rw [Function.update_of_ne hut, h.alone hin hut] at hu
          cases hu }

section

variable {s : PconSys} {host : Ipv4Host} {now : Timeval} {ret : Int} {pc : Pcon}

/-- The decision is the right one. -/
theorem Inv.admits (h : Inv s) (hnow : now.Normal) (hd : Decided s.pc host now ret pc) : ret = 0 ↔
    Elapsed (1000000 * pcConEaseSec) (lastAdmitted host.key (s.log.map Attempt.request)) now.us := by
  rcases hd.outcome with ⟨rfl, -, ts, hts, hel⟩ | ⟨rfl, hel, -⟩
  · refine ⟨fun h0 => absurd h0 (by decide), fun hall => ?_⟩
    have hlast := (h.recalled host.key ts.us).mpr ⟨ts, hts, rfl⟩
    have := (pconElapsed_iff hnow (h.stored _ _ hts)).mpr (hall _ hlast)
    rw [hel] at this
    cases this
  · refine ⟨fun _ t' ht' => ?_, fun _ => rfl⟩
    obtain ⟨ts, hts, rfl⟩ := (h.recalled host.key t').mp ht'
    exact (pconElapsed_iff hnow (h.stored _ _ hts)).mp (hel ts hts)

/-- The list remembers it. -/
theorem Inv.recalls (h : Inv s) (hd : Decided s.pc host now ret pc) (k : EtherAddr × UInt32 × UInt16) (t : Int) :
    lastAdmitted k (Attempt.request ⟨host, now, ret⟩ :: s.log.map Attempt.request) = some t ↔
      ∃ ts, pc.Holds k ts ∧ ts.us = t := by
  rw [lastAdmitted_cons]
  simp only [Attempt.request, decide_eq_true_eq]
  rcases hd.outcome with ⟨rfl, rfl, -⟩ | ⟨rfl, -, hholds⟩
  · rw [if_neg (by simp)]
    exact h.recalled k t
  · simp only [hholds]
    by_cases hk : k = host.key
    · subst hk
      simp
    · rw [if_neg fun he => hk he.1.symm]
      simp only [if_neg hk]
      exact h.recalled k t

/-- Every time in the list stays normalised. -/
theorem Inv.stores (h : Inv s) (hnow : now.Normal) (hd : Decided s.pc host now ret pc)
    {k : EtherAddr × UInt32 × UInt16} {ts : Timeval} (hts : pc.Holds k ts) : ts.Normal := by
  rcases hd.outcome with ⟨-, rfl, -⟩ | ⟨-, -, hholds⟩
  · exact h.stored k ts hts
  · have hts' := (hholds k ts).mp hts
    split at hts'
    · rw [hts']
      exact hnow
    · exact h.stored k ts hts'

/-- The call is logged, the list is the new one, and the thread is outside. -/
theorem Inv.commit (h : Inv s) {t : Nat} (hin : s.phase t ≠ .outside) (hclock : s.clock = now)
    (hd : Decided s.pc host now ret pc) :
    Inv { s with pc := pc, holder := none, phase := Function.update s.phase t .outside,
                 log := ⟨host, now, ret⟩ :: s.log } := by
  have hnow : now.Normal := hclock ▸ h.normal
  -- the thread leaves, and it was the only one inside
  have hout : ∀ u, Function.update s.phase t .outside u = .outside := by
    intro u
    by_cases hut : u = t
    · rw [hut, Function.update_self]
    · rw [Function.update_of_ne hut]
      exact h.alone hin hut
  exact
    { sorted := hd.sorted
      normal := h.normal
      nows := by
        intro a ha
        rcases List.mem_cons.mp ha with rfl | ha
        · rw [hclock]
        · exact h.nows a ha
      monotone := by
        refine List.pairwise_cons.mpr ⟨?_, h.monotone⟩
        intro r hr
        obtain ⟨a, ha, rfl⟩ := List.mem_map.mp hr
        show a.now.us ≤ now.us
        rw [← hclock]
        exact h.nows a ha
      limited := h.limited.cons (by simpa [Attempt.request] using h.admits hnow hd)
      stored := fun k ts hts => h.stores hnow hd hts
      recalled := h.recalls hd
      codes := by
        intro a ha
        rcases List.mem_cons.mp ha with rfl | ha
        · rcases hd.outcome with ⟨hret, -⟩ | ⟨hret, -⟩
          · exact Or.inr hret
          · exact Or.inl hret
        · exact h.codes a ha
      critical := fun u hu => absurd (hout u) hu
      searched := by
        intro u host' fh hu
        simp only [hout u] at hu
        cases hu
      timed := by
        intro u host' fh now' hu
        simp only [hout u] at hu
        cases hu }

end

/-- **Step lemma.** -/
theorem Inv.step {q : Qsort} {s s' : PconSys} (h : Inv s) (hs : Step q s s') : Inv s' := by
  cases hs with
  | @lock t host hfree hp =>
      -- the lock is free, so nobody is inside
      have hout : ∀ u, s.phase u = .outside := by
        intro u
        by_contra hu
        rw [h.critical u hu] at hfree
        cases hfree
      exact
        { h with
          critical := by
            intro u hu
            by_cases hut : u = t
            · rw [hut]
            · simp only [Function.update_of_ne hut] at hu
              exact absurd (hout u) hu
          searched := by
            intro u host' fh hu
            simp only at hu
            by_cases hut : u = t
            · rw [hut, Function.update_self] at hu
              cases hu
            · rw [Function.update_of_ne hut, hout u] at hu
              cases hu
          timed := by
            intro u host' fh now hu
            simp only at hu
            by_cases hut : u = t
            · rw [hut, Function.update_self] at hu
              cases hu
            · rw [Function.update_of_ne hut, hout u] at hu
              cases hu }
  | @search t host fh hp hsearch =>
      refine h.phase (by rw [hp]; exact nofun) h.normal (Int.le_refl _) ?_ nofun
      intro host' fh' he
      cases he
      exact hsearch
  | @clock t host fh now hp hn hle =>
      refine h.phase (by rw [hp]; exact nofun) hn hle nofun ?_
      intro host' fh' now' he
      cases he
      exact ⟨h.searched t host fh hp, rfl⟩
  | @commit t host fh now ret pc al hp hcommit =>
      obtain ⟨hfound, hclock⟩ := h.timed t host fh now hp
      obtain ⟨ret', pc', hcommit', hd⟩ := pconCommit_spec q h.sorted hfound now
      rw [hcommit] at hcommit'
      cases hcommit'
      exact h.commit (by rw [hp]; exact nofun) hclock hd

/-- **Run lemma.** -/
theorem Run.inv {q : Qsort} {s : PconSys} (h : Run q s) : Inv s := by
  induction h with
  | init start hn => exact inv_init hn
  | step _ hs ih => exact ih.step hs

/-- The calls for `k` are those of a limiter by themselves. -/
theorem filter_request (k : EtherAddr × UInt32 × UInt16) (log : List Attempt) :
    (log.map Attempt.request).filter (fun r => r.key = k)
      = (log.filter fun a => a.host.key = k).map Attempt.request := by
  rw [List.filter_map]
  rfl

/-- A call returned `1` if and only if the latest one that went ahead was recent. -/
theorem Inv.recent_iff {s : PconSys} (h : Inv s) {newer older : List Attempt} {a : Attempt}
    (hlog : s.log = newer ++ a :: older) :
    a.ret = 1 ↔ ∃ b, lastSuccess a.host.key older = some b ∧ a.now.us ≤ b.now.us + 1000000 * pcConEaseSec := by
  have hcode := h.codes a (by simp [hlog])
  have hlimited := h.limited
  rw [hlog, List.map_append, List.map_cons] at hlimited
  have hright := hlimited.decided
  rw [show a.request.key = a.host.key from rfl, lastAdmitted_request] at hright
  have hzero : a.ret = 0 ↔ Elapsed (1000000 * pcConEaseSec)
      ((lastSuccess a.host.key older).map fun a => a.now.us) a.now.us := by
    simpa [Attempt.request] using hright
  have hone : a.ret = 1 ↔ ¬ a.ret = 0 := by omega
  rw [hone, hzero]
  unfold Elapsed
  cases lastSuccess a.host.key older with
  | none => simp
  | some b => simp

/-- What a call returned can be read off its request. -/
theorem Inv.rets {s : PconSys} (h : Inv s) (k : EtherAddr × UInt32 × UInt16) :
    (s.log.filter fun a => a.host.key = k).map Attempt.ret
      = ((s.log.filter fun a => a.host.key = k).map Attempt.request).map fun r => if r.admitted then 0 else 1 := by
  rw [List.map_map]
  refine List.map_congr_left fun a ha => ?_
  rcases h.codes a (List.mem_filter.mp ha).1 with hr | hr
  · simp [Attempt.request, hr]
  · simp [Attempt.request, hr]

/-- The calls for a host return what their times determine. -/
theorem Inv.rets_eq {s s' : PconSys} (h : Inv s) (h' : Inv s') {k : EtherAddr × UInt32 × UInt16}
    (hnow : (s.log.filter fun a => a.host.key = k).map Attempt.now
      = (s'.log.filter fun a => a.host.key = k).map Attempt.now) :
    (s.log.filter fun a => a.host.key = k).map Attempt.ret
      = (s'.log.filter fun a => a.host.key = k).map Attempt.ret := by
  have hdet := (h.limited.only k).determined (h'.limited.only k)
  rw [filter_request, filter_request] at hdet
  have hkeys : ∀ log : List Attempt, ((log.filter fun a => a.host.key = k).map Attempt.request).map
      (fun r => (r.key, r.now)) = ((log.filter fun a => a.host.key = k).map Attempt.now).map fun n => (k, n.us) := by
    intro log
    rw [List.map_map, List.map_map]
    refine List.map_congr_left fun a ha => ?_
    rw [List.mem_filter] at ha
    show (a.host.key, a.now.us) = (k, a.now.us)
    rw [of_decide_eq_true ha.2]
  rw [h.rets, h'.rets, hdet (by rw [hkeys, hkeys, hnow])]

/-- **Connection attempts are rate limited for each host.** At any point of any run of any number of threads:
    two calls for one host that went ahead are more than `PC_CON_EASE_SEC` apart; a call returned `1` if and
    only if the latest one for its host that went ahead was at most that long ago, and `0` otherwise; in any
    other run, the calls for a host return the same if they are made at the same times; the list is strictly
    sorted, so that it has one entry for a host; and whoever is inside can go on. -/
theorem Run.limits {q : Qsort} {s : PconSys} (h : Run q s) :
    (s.log.Pairwise fun a b => a.host.key = b.host.key → a.ret = 0 → b.ret = 0 →
      b.now.us + 1000000 * pcConEaseSec < a.now.us) ∧
    (∀ newer a older, s.log = newer ++ a :: older →
      (a.ret = 1 ↔ ∃ b, lastSuccess a.host.key older = some b ∧ a.now.us ≤ b.now.us + 1000000 * pcConEaseSec) ∧
      (a.ret = 0 ∨ a.ret = 1)) ∧
    (∀ s' k, Run q s' →
      (s.log.filter fun a => a.host.key = k).map Attempt.now = (s'.log.filter fun a => a.host.key = k).map Attempt.now →
      (s.log.filter fun a => a.host.key = k).map Attempt.ret = (s'.log.filter fun a => a.host.key = k).map Attempt.ret) ∧
    s.pc.Sorted ∧
    (∀ t host, s.phase t = .locked host → ∃ fh, pconSearch host s.pc = .ok fh) ∧
    ∀ t host fh now, s.phase t = .timed host fh now →
      ∃ ret pc, pconCommit q host fh now s.pc [] = .ok (ret, pc, []) := by
  have hi := h.inv
  refine ⟨?_, ?_, ?_, hi.sorted, fun _ host _ => pconSearch_ok host s.pc, ?_⟩
  · refine (List.pairwise_map.mp (hi.limited.spaced hi.monotone)).imp ?_
    intro a b hab hk ha hb
    exact hab hk (decide_eq_true ha) (decide_eq_true hb)
  · intro newer a older hlog
    exact ⟨hi.recent_iff hlog, hi.codes a (by simp [hlog])⟩
  · intro s' k h' hnow
    exact hi.rets_eq h'.inv hnow
  · intro t host fh now hp
    obtain ⟨hfound, -⟩ := hi.timed t host fh now hp
    obtain ⟨ret, pc, hc, -⟩ := pconCommit_spec q hi.sorted hfound now
    exact ⟨ret, pc, hc⟩

/-- A thread that nobody interrupts makes the call as `pconConnect` describes it. -/
theorem Run.uninterrupted {q : Qsort} {s : PconSys} (h : Run q s) {t : Nat} (hfree : s.holder = none)
    (hp : s.phase t = .outside) {host : Ipv4Host} {now : Timeval} (hn : now.Normal) (hle : s.clock.us ≤ now.us)
    {ret : Int} {pc : Pcon} {al : AllocScript} (hc : pconConnect q now host s.pc [] = .ok (ret, pc, al)) :
    Run q { s with pc := pc, clock := now, log := ⟨host, now, ret⟩ :: s.log } := by
  obtain ⟨fh, hsearch, hcommit⟩ := bind_eq_ok.mp hc
  have hlock := h.step (.lock (t := t) host hfree hp)
  have hfound := hlock.step (.search (t := t) (Function.update_self ..) hsearch)
  have htimed := hfound.step (.clock (t := t) now (Function.update_self ..) hn hle)
  have hdone := htimed.step (.commit (t := t) (Function.update_self ..) hcommit)
  simp only [Function.update_idem] at hdone
  rwa [show Function.update s.phase t .outside = s.phase from hp ▸ Function.update_eq_self t s.phase,
    show (none : Option Nat) = s.holder from hfree.symm] at hdone

/-- One second after it was tried, a host is not tried again; three seconds after, it is. -/
theorem Run.limits_sample : ∃ s : PconSys, s.log.map Attempt.ret = [0, 1, 0] ∧ s.pc.Sorted ∧
    s.log.Pairwise fun a b => a.host.key = b.host.key → a.ret = 0 → b.ret = 0 →
      b.now.us + 1000000 * pcConEaseSec < a.now.us := by
  let host : Ipv4Host := ⟨.junk, ⟨afInet, 1, 2⟩⟩
  have h1 : pconConnect .insertion ⟨10, 0⟩ host pconInit [] = .ok (0, ⟨⟨[⟨⟨10, 0⟩, host⟩], 8⟩⟩, []) := by
    decide +kernel
  have h2 : pconConnect .insertion ⟨11, 0⟩ host ⟨⟨[⟨⟨10, 0⟩, host⟩], 8⟩⟩ []
      = .ok (1, ⟨⟨[⟨⟨10, 0⟩, host⟩], 8⟩⟩, []) := by
    decide +kernel
  have h3 : pconConnect .insertion ⟨13, 0⟩ host ⟨⟨[⟨⟨10, 0⟩, host⟩], 8⟩⟩ []
      = .ok (0, ⟨⟨[⟨⟨13, 0⟩, host⟩], 8⟩⟩, []) := by
    decide +kernel
  have r0 : Run .insertion ⟨pconInit, none, fun _ => .outside, ⟨0, 0⟩, []⟩ := .init ⟨0, 0⟩ (by decide)
  have r1 := r0.uninterrupted (t := 0) rfl rfl (by decide) (by decide) h1
  have r2 := r1.uninterrupted (t := 0) rfl rfl (by decide) (by decide) h2
  have r3 := r2.uninterrupted (t := 0) rfl rfl (by decide) (by decide) h3
  obtain ⟨hspaced, -, -, hsorted, -, -⟩ := Run.limits r3
  exact ⟨_, rfl, hsorted, hspaced⟩

end PconSys

end P2pVn
