import P2pVn.Lib.SharedLock
import P2pVn.Routing.Coherence
import P2pVn.Routing.Multicast
import P2pVn.Routing.NewestWins

/-!
# `Routing.ReadLock` — who holds the routing read lock, and who releases it

`rt_dhosts_to_host` returns with the read lock held or released, and its two callers, `vnet_reader_th` and the
`PT_DATA` branch of `dp_recv_packet`, release it with `rt_hosts_free` whenever the code is not negative. One
exit breaks this: a multicast from a known source that has no path to local goes through `error_ret` with `0`.

- `CutOff` is when a call takes that exit, said of the state before it.
- `ReadSys` is the callers' runs over one table and one lock; `readLock_iff` says that the sign of a call's code
  tells whether the lock is held, and that a run's acquisitions are all released once, unless a call is cut off.
-/

namespace P2pVn
open CUb Locking

namespace Routing

variable {env : ExtMem} {q : Qsort} {al : AllocScript} {s s' : Routing} {L : HostId} {f : Forwards}
  {srcMac dstMac : EtherAddr}

/-! ## The exits -/

/-- The sign of the code tells whether the read lock is held. -/
def Forwards.SignTells (f : Forwards) : Prop := f.rdlock = true ↔ 0 ≤ f.ret

theorem Forwards.signTells_error {ret : Int} : (Forwards.error ret).SignTells ↔ ret < 0 := by
  simp [SignTells, error]

/-- The exits of the multicast branch: the sign tells, but for a known source without a path to local. -/
theorem multicast_exits {curI : Nat} {srcMac : EtherAddr} {f : Forwards}
    (h : s.multicast env curI srcMac = .ok (f, s')) : f.SignTells ∨ (f = .error 0 ∧
      ∃ srcI al1, s.findHostByAddr env srcMac = .ok (some srcI) ∧ Spends 1 s.allocs al1 ∧
        s.path.entry srcI curI = .ok pathDiscon) := by
  cases multicast_run h with
  | unknown _ => exact Or.inl (Forwards.signTells_error.mpr (by decide))
  | noPath _ _ => exact Or.inl (Forwards.signTells_error.mpr (by decide))
  | noDsts _ _ _ _ _ => exact Or.inl (Forwards.signTells_error.mpr (by decide))
  | sent _ _ _ _ _ _ _ => exact Or.inl (by simp [Forwards.SignTells])
  | discon hf hal hp => exact Or.inr ⟨rfl, _, _, hf, takeAlloc_spends.mp hal, hp⟩

theorem multicast_cutOff {srcI curI : Nat} {srcMac : EtherAddr} {al1 : AllocScript}
    (hf : s.findHostByAddr env srcMac = .ok (some srcI)) (hal : Spends 1 s.allocs al1)
    (hp : s.path.entry srcI curI = .ok pathDiscon) :
    s.multicast env curI srcMac = .ok (.error 0, { s with allocs := al1 }) := by
  unfold multicast
  simp only [hf, ok_bind, Da.init, takeAlloc_spends.mpr hal, Bool.not_true, Bool.false_eq_true, if_false, hp,
    if_true, pure_eq_ok]

/-- In the unicast branch the sign tells. -/
theorem unicast_exits {curI : Nat} {dstMac : EtherAddr} {f : Forwards}
    (h : s.unicast env curI dstMac = .ok (f, s')) : f.SignTells := by
  cases unicast_run h with
  | unknown _ => exact Forwards.signTells_error.mpr (by decide)
  | noMemory _ _ _ => exact Forwards.signTells_error.mpr (by decide)
  | discon _ _ _ => simp [Forwards.SignTells]
  | sent _ _ _ _ _ _ _ => simp [Forwards.SignTells]

/-! ## Calls that are cut off -/

/-- The path from position `i` to position `c` is `PATH_DISCON` when a call looks at it: in the stored matrices
    where they fit, and else in those that the links give. -/
def Discon (s : Routing) (i c : Nat) : Prop :=
  if s.mCt = s.hosts.ct then s.path.entry i c = .ok pathDiscon else s.startAt i c = pathDiscon

/-- A multicast from a source that is in the table, but has no path to local; and the allocations up to where
    the call finds that out succeed: those of the matrices, if they do not fit, and that of `src_to_cur`. -/
structure CutOff (env : ExtMem) (s : Routing) (srcMac dstMac : EtherAddr) : Prop where
  mcast : etherAddrIsMcast dstMac = true
  allocs : ∀ b ∈ s.allocs.take (if s.mCt = s.hosts.ct then 1 else 2 * s.hosts.ct + 2 + 1), b = true
  discon : ∃ L m c i, s.theLocal = .ok L ∧ s.macOf env L = .ok m ∧ s.findHostByAddr env m = .ok (some c) ∧
    s.findHostByAddr env srcMac = .ok (some i) ∧ Discon s i c

theorem not_cutOff_unicast (h : etherAddrIsMcast dstMac = false) : ¬ CutOff env s srcMac dstMac := fun hcut =>
  absurd (h.symm.trans hcut.mcast) (by decide)

/-- What fits is made of what the matrices need. -/
theorem Fits.spends {s1 : Routing} (hf : Fits env s s1) :
    Spends (if s.mCt = s.hosts.ct then 0 else 2 * s.hosts.ct + 2) s.allocs s1.allocs := by
  rcases hf with ⟨heq, rfl⟩ | ⟨hne, hcomp⟩
  · rw [if_pos heq]
    exact Spends.refl _
  · rw [if_neg hne]
    exact computePaths_spends hcomp

/-- The allocations up to where a call looks for the path are granted: those of the matrices and the next. -/
theorem Fits.granted_iff {s1 : Routing} (hf : Fits env s s1) :
    (∀ b ∈ s.allocs.take (if s.mCt = s.hosts.ct then 1 else 2 * s.hosts.ct + 2 + 1), b = true) ↔
      Spends 1 s1.allocs (s1.allocs.drop 1) := by
  have hcount : (if s.mCt = s.hosts.ct then 1 else 2 * s.hosts.ct + 2 + 1) =
      (if s.mCt = s.hosts.ct then 0 else 2 * s.hosts.ct + 2) + 1 := by
    split
    · rfl
    · rfl
  rw [hcount]
  constructor
  · intro h
    refine ⟨fun b hb => h b ?_, rfl⟩
    rw [hf.spends.2, List.take_drop] at hb
    exact List.mem_of_mem_drop hb
  · intro h
    exact (hf.spends.trans h).1

theorem Fits.discon_iff {s1 : Routing} {i c : Nat} (hf : Fits env s s1) (hs : Serviceable env s)
    (hi : i < s.hosts.ct) (hc : c < s.hosts.ct) : Discon s i c ↔ s1.path.entry i c = .ok pathDiscon := by
  rcases hf with ⟨heq, rfl⟩ | ⟨hne, hcomp⟩
  · rw [Discon, if_pos heq]
  · obtain ⟨L, hl⟩ := hs.resolve_left fun hst => hst.not_computes hcomp
    have hg : GraphOk env s := hl.table.graphOk hl.links
    obtain ⟨hsame, -, ⟨hneg, -⟩ | ⟨-, ⟨hc1⟩⟩⟩ := computePaths_cases hcomp
    · exact absurd hneg (by decide)
    have hr := hc1.routed hsame hg
    rw [Discon, if_neg hne, hr.path i c (by rwa [hsame.ct]) (by rwa [hsame.ct]), hsame.startAt, Except.ok.injEq]
    exact (not_iff_not.mp (cells_ne_zero _ i c)).symm

/-- The branch that a call which is cut off takes on matrices that fit. -/
theorem CutOff.branch (h : CutOff env s srcMac dstMac) (hs : Serviceable env s) {s1 : Routing}
    (hfit : Fits env s s1) : ∃ s2, (do
      match ← s1.findHostByAddr env (← s1.macOf env (← s1.theLocal)) with
      | none => pure (Forwards.error (-13), s1)
      | some curI =>
        if etherAddrIsMcast dstMac then s1.multicast env curI srcMac
        else s1.unicast env curI dstMac : Ub (Forwards × Routing)) = .ok (.error 0, s2) := by
  obtain ⟨L, m, c, i, hL, hm, hc, hi, hd⟩ := h.discon
  have hsame := hfit.same
  have hspent := hfit.granted_iff.mp h.allocs
  obtain ⟨_, hid, -⟩ := findHost_some hi
  obtain ⟨_, hid', -⟩ := findHost_some hc
  have hdis := (hfit.discon_iff hs (List.getElem?_eq_some_iff.mp hid).1 (List.getElem?_eq_some_iff.mp hid').1).mp hd
  refine ⟨{ s1 with allocs := s1.allocs.drop 1 }, ?_⟩
  simp only [hsame.theLocal, hL, ok_bind, hsame.macOf, hm, hsame.findHost, hc, h.mcast, if_true]
  exact multicast_cutOff ((hsame.findHost srcMac).trans hi) hspent hdis

/-- **A call that is cut off** returns `0` with the lock released. -/
theorem CutOff.forward (h : CutOff env s srcMac dstMac) (hs : Serviceable env s)
    (hrun : s.rtDhostsToHost env srcMac dstMac = .ok (f, s')) : f = .error 0 := by
  unfold rtDhostsToHost at hrun
  by_cases hne : s.mCt ≠ s.hosts.ct
  · rw [if_pos hne] at hrun
    obtain ⟨⟨r, s1⟩, hcomp, hrun⟩ := bind_eq_ok.mp hrun
    -- the matrices' allocations succeed
    have hr : r = 0 := by
      refine computePaths_granted hcomp fun b hb => h.allocs b ?_
      rw [if_neg hne]
      exact List.take_subset_take_left _ (Nat.le_succ _) hb
    subst hr
    obtain ⟨s2, hbranch⟩ := h.branch hs (Or.inr ⟨hne, hcomp⟩)
    simp only [ne_eq, not_true_eq_false, if_false] at hrun
    cases hrun.symm.trans hbranch
    rfl
  · rw [if_neg hne] at hrun
    obtain ⟨s2, hbranch⟩ := h.branch hs (Or.inl ⟨Decidable.not_not.mp hne, rfl⟩)
    cases hrun.symm.trans hbranch
    rfl

/-- **The sign of the code tells whether the lock is held**, unless the call is cut off. -/
theorem signTells_iff (hs : Serviceable env s) (hrun : s.rtDhostsToHost env srcMac dstMac = .ok (f, s')) :
    f.SignTells ↔ ¬ CutOff env s srcMac dstMac := by
  constructor
  · intro htells hcut
    rw [hcut.forward hs hrun, Forwards.signTells_error] at htells
    exact absurd htells (by decide)
  · intro hcut
    cases rtDhostsToHost_run hrun with
    | stale _ hcomp hr =>
        obtain ⟨-, -, ⟨hneg, -⟩ | ⟨h0, -⟩⟩ := computePaths_cases hcomp
        · exact Forwards.signTells_error.mpr hneg
        · exact absurd h0 hr
    | noLocal _ => exact Forwards.signTells_error.mpr (by decide)
    | @looked s1 L m curI f s2 hfit hL hm hf hbranch =>
        have hsame := hfit.same
        split at hbranch
        · rename_i hmcast
          obtain htells | ⟨-, srcI, al1, hsrc, hspent, hdis⟩ := multicast_exits hbranch
          · exact htells
          · rw [hsame.theLocal] at hL
            rw [hsame.macOf] at hm
            rw [hsame.findHost] at hf hsrc
            obtain ⟨id, hid, -⟩ := findHost_some hf
            obtain ⟨id', hid', -⟩ := findHost_some hsrc
            have hd := (hfit.discon_iff hs (List.getElem?_eq_some_iff.mp hid').1
              (List.getElem?_eq_some_iff.mp hid).1).mpr hdis
            have hgrant := hfit.granted_iff.mpr (hspent.2 ▸ hspent)
            exact absurd ⟨hmcast, hgrant, L, m, curI, srcI, hL, hm, hf, hsrc, hd⟩ hcut
        · exact unicast_exits hbranch

end Routing

/-! ## The callers -/

open Routing

/-- The threads that call `rt_dhosts_to_host`: the one that reads the tap, and one for each peer. -/
inductive Caller where
  | vnetReaderTh
  | dpTh (d : Nat)
  deriving DecidableEq, Repr

/-- Where a caller is: before its next frame, between `rt_dhosts_to_host` and `rt_hosts_free`, or at its end. -/
inductive Phase where
  | looping
  | forwarding (hosts : List HostPtr)
  | left
  deriving DecidableEq, Repr

def Phase.isForwarding : Phase → Bool
  | .forwarding _ => true
  | _ => false

namespace Caller

/-- `src_mac` and `dst_mac`: the tap's own address and `ether_dhost`, or `ether_shost` and `ether_dhost`. -/
def macs (vnetMac : EtherAddr) (frame : List UInt8) : Caller → EtherAddr × EtherAddr
  | vnetReaderTh => (vnetMac, EtherAddr.ofBytes frame)
  | dpTh _ => (EtherAddr.ofBytes (frame.drop 6), EtherAddr.ofBytes frame)

/-- Where a negative code leads: `continue`, or out of `dp_recv_packet` with `-1`. -/
def refused : Caller → Phase
  | vnetReaderTh => .looping
  | dpTh _ => .left

end Caller

/-- The table, its lock, and where the callers are. -/
structure ReadSys where
  rd : Routing
  lock : SharedLock Caller
  phase : Caller → Phase

/-- A call of `rt_dhosts_to_host`: the table before it, and the addresses. -/
structure FrameCall where
  rd : Routing
  srcMac : EtherAddr
  dstMac : EtherAddr

namespace ReadSys

/-- Caller `t` gets `f` back; the call has taken the lock, and released it if `f` says so. -/
def returned (sys : ReadSys) (t : Caller) (f : Forwards) (rd : Routing) : ReadSys where
  rd := rd
  lock := if f.rdlock then sys.lock.acquire t else (sys.lock.acquire t).release t
  phase := Function.update sys.phase t (if f.ret < 0 then t.refused else .forwarding f.res)

/-- `rt_hosts_free`, after the frame was sent on to the hosts. -/
def rtHostsFree (sys : ReadSys) (t : Caller) : ReadSys :=
  { sys with lock := sys.lock.release t, phase := Function.update sys.phase t .looping }

/-- The runs, with the calls that were made in them. Operations that change the table take the write lock, so
    they wait until nobody holds the read lock. -/
inductive Run (q : Qsort) (env : ExtMem) (vnetMac : EtherAddr) (al : AllocScript) :
    List FrameCall → ReadSys → Prop where
  | start {rd} (h : Started q env al rd) : Run q env vnetMac al [] ⟨rd, .new, fun _ => .looping⟩
  | call {calls sys t frame f rd} (h : Run q env vnetMac al calls sys) (hphase : sys.phase t = .looping)
      (hrun : sys.rd.rtDhostsToHost env (t.macs vnetMac frame).1 (t.macs vnetMac frame).2 = .ok (f, rd)) :
      Run q env vnetMac al (⟨sys.rd, (t.macs vnetMac frame).1, (t.macs vnetMac frame).2⟩ :: calls)
        (sys.returned t f rd)
  | free {calls sys t hosts} (h : Run q env vnetMac al calls sys) (hphase : sys.phase t = .forwarding hosts) :
      Run q env vnetMac al calls (sys.rtHostsFree t)
  | op {calls sys ret rd} {o : RtOp} (h : Run q env vnetMac al calls sys) (hfree : sys.lock.holds = 0)
      (hrun : o.run q env sys.rd = .ok (ret, rd)) : Run q env vnetMac al calls { sys with rd := rd }

/-- **Every acquisition is matched by exactly one release**, but for those that last: of each caller that is
    between `rt_dhosts_to_host` and `rt_hosts_free` one, and of the others none. -/
def Matched (sys : ReadSys) : Prop := ∀ t, held (sys.lock.calls t) = some (sys.phase t).isForwarding

/-- The lock counts the callers that are forwarding. -/
def Counted (sys : ReadSys) : Prop :=
  ∃ holders, sys.lock.Balanced holders ∧ ∀ t, t ∈ holders ↔ (sys.phase t).isForwarding = true

/-- Caller `t` has released what it did not hold, or is about to. -/
def Broken (sys : ReadSys) (t : Caller) : Prop :=
  held (sys.lock.calls t) = none ∨
    (held (sys.lock.calls t) = some false ∧ (sys.phase t).isForwarding = true)

variable {env : ExtMem} {q : Qsort} {vnetMac : EtherAddr} {al : AllocScript} {calls : List FrameCall}
  {sys : ReadSys} {t u : Caller} {f : Forwards} {rd : Routing}

theorem Counted.matched (h : sys.Counted) : sys.Matched := by
  obtain ⟨holders, hb, hmem⟩ := h
  intro t
  rw [hb.held, Option.some.injEq, Bool.eq_iff_iff, decide_eq_true_iff]
  exact hmem t

theorem Broken.not_matched (h : sys.Broken t) : ¬ sys.Matched := by
  intro hm
  rcases h with h | ⟨h, hf⟩
  · rw [hm t] at h
    cases h
  · rw [hm t, hf] at h
    cases h

theorem refused_not_forwarding (t : Caller) : t.refused.isForwarding = false := by cases t <;> rfl

/-! ## Steps -/

/-- **Step lemma.** A call whose code tells keeps the count. -/
theorem Counted.returned (h : sys.Counted) (hphase : sys.phase t = .looping) (htells : f.SignTells) :
    (sys.returned t f rd).Counted := by
  obtain ⟨holders, hb, hmem⟩ := h
  have ht : t ∉ holders := by
    rw [hmem, hphase]
    simp [Phase.isForwarding]
  by_cases hlock : f.rdlock = true
  · have hret : ¬ f.ret < 0 := Int.not_lt.mpr (htells.mp hlock)
    refine ⟨t :: holders, ?_, fun u => ?_⟩
    · simpa [ReadSys.returned, hlock] using hb.acquire ht
    · by_cases hu : u = t
      · simp [ReadSys.returned, hu, hret, Phase.isForwarding]
      · simp [ReadSys.returned, hu, hmem]
  · have hret : f.ret < 0 := Int.not_le.mp (mt htells.mpr hlock)
    refine ⟨holders, ?_, fun u => ?_⟩
    · have hback := (hb.acquire ht).release (List.mem_cons_self)
      rw [List.erase_cons_head] at hback
      simpa [ReadSys.returned, hlock] using hback
    · by_cases hu : u = t
      · simp [ReadSys.returned, hu, hret, refused_not_forwarding, ht]
      · simp [ReadSys.returned, hu, hmem]

/-- **Step lemma.** -/
theorem Counted.rtHostsFree (h : sys.Counted) {hosts : List HostPtr} (hphase : sys.phase t = .forwarding hosts) :
    (sys.rtHostsFree t).Counted := by
  obtain ⟨holders, hb, hmem⟩ := h
  have ht : t ∈ holders := by
    rw [hmem, hphase]
    rfl
  refine ⟨holders.erase t, hb.release ht, fun u => ?_⟩
  by_cases hu : u = t
  · simp [ReadSys.rtHostsFree, hu, hb.nodup.mem_erase_iff, Phase.isForwarding]
  · simp [ReadSys.rtHostsFree, hu, hb.nodup.mem_erase_iff, hmem]

/-- **A call that is cut off breaks its caller's pairing.** -/
theorem Matched.cutOff (h : sys.Matched) (hphase : sys.phase t = .looping) :
    (sys.returned t (.error 0) rd).Broken t := by
  have hfree : held (sys.lock.calls t) = some false := by
    rw [h t, hphase]
    rfl
  refine Or.inr ⟨?_, ?_⟩
  · simp [ReadSys.returned, Forwards.error, hfree]
  · simp [ReadSys.returned, Forwards.error, Phase.isForwarding]

/-- **Step lemma.** Nothing repairs it. -/
theorem Broken.returned (h : sys.Broken u) (hphase : sys.phase t = .looping) : (sys.returned t f rd).Broken u := by
  by_cases hu : u = t
  · subst hu
    rcases h with h | ⟨-, hf⟩
    · left
      simp only [ReadSys.returned]
      split
      · simp [held_none h]
      · simp [held_none (held_none h .acquire)]
    · rw [hphase] at hf
      cases hf
  · have hcalls : (sys.returned t f rd).lock.calls u = sys.lock.calls u := by
      simp only [ReadSys.returned]
      split
      · simp [hu]
      · simp [hu]
    have hsame : (sys.returned t f rd).phase u = sys.phase u := by simp [ReadSys.returned, hu]
    rw [Broken, hcalls, hsame]
    exact h

/-- **Step lemma.** -/
theorem Broken.rtHostsFree (h : sys.Broken u) : (sys.rtHostsFree t).Broken u := by
  by_cases hu : u = t
  · subst hu
    left
    rcases h with h | ⟨h, -⟩
    · simp [ReadSys.rtHostsFree, held_none h]
    · simp [ReadSys.rtHostsFree, held_release_none h]
  · simpa [Broken, ReadSys.rtHostsFree, hu] using h

/-! ## Runs -/

theorem Run.reach (h : Run q env vnetMac al calls sys) : Reach q env al sys.rd := by
  induction h with
  | start h => exact .start h
  | call _ _ hrun ih => exact ih.forward hrun
  | free _ _ ih => exact ih
  | op _ _ hrun ih => exact ih.op hrun

/-- While nobody holds the lock, any operations may come in. -/
theorem Run.ops : ∀ (os : List RtOp) {sys : ReadSys} {rd : Routing}, Run q env vnetMac al calls sys →
    sys.lock.holds = 0 → runOps q env os sys.rd = .ok rd → Run q env vnetMac al calls { sys with rd := rd } := by
  intro os
  induction os with
  | nil =>
      intro sys rd h _ hrun
      cases hrun
      exact h
  | cons o os ih =>
      intro sys rd h hfree hrun
      obtain ⟨⟨ret, rd1⟩, h1, hrun⟩ := bind_eq_ok.mp hrun
      have hrest := ih (h.op hfree h1) hfree hrun
      exact hrest

/-- **Run lemma.** While no call was cut off, the lock counts the callers that are forwarding; and one call
    that was cut off leaves its caller broken. -/
theorem Run.counted (h : Run q env vnetMac al calls sys) :
    ((∀ c ∈ calls, ¬ CutOff env c.rd c.srcMac c.dstMac) ∧ sys.Counted) ∨
      ((∃ c ∈ calls, CutOff env c.rd c.srcMac c.dstMac) ∧ ∃ t, sys.Broken t) := by
  induction h with
  | start h => exact Or.inl ⟨nofun, [], SharedLock.balanced_new, by simp [Phase.isForwarding]⟩
  | @call calls sys t frame f rd h hphase hrun ih =>
      rcases ih with ⟨hnone, hc⟩ | ⟨⟨c, hmem, hcut⟩, u, hu⟩
      · by_cases hcut : CutOff env sys.rd (t.macs vnetMac frame).1 (t.macs vnetMac frame).2
        · right
          refine ⟨⟨_, List.mem_cons_self, hcut⟩, t, ?_⟩
          rw [hcut.forward h.reach.serviceable hrun]
          exact hc.matched.cutOff hphase
        · left
          refine ⟨List.forall_mem_cons.mpr ⟨hcut, hnone⟩, hc.returned hphase ?_⟩
          exact (signTells_iff h.reach.serviceable hrun).mpr hcut
      · exact Or.inr ⟨⟨c, List.mem_cons_of_mem _ hmem, hcut⟩, u, hu.returned hphase⟩
  | free h hphase ih =>
      rcases ih with ⟨hnone, hc⟩ | ⟨hsome, u, hu⟩
      · exact Or.inl ⟨hnone, hc.rtHostsFree hphase⟩
      · exact Or.inr ⟨hsome, u, hu.rtHostsFree⟩
  | op h hfree hrun ih =>
      rcases ih with ⟨hnone, holders, hb, hmem⟩ | ⟨hsome, u, hu⟩
      · exact Or.inl ⟨hnone, holders, hb, hmem⟩
      · exact Or.inr ⟨hsome, u, hu⟩

/-- **Nobody changes the table under a caller's hands**: in a run without a call that is cut off, an operation
    that gets the write lock finds no caller forwarding. -/
theorem Run.exclusive (h : Run q env vnetMac al calls sys)
    (hcut : ∀ c ∈ calls, ¬ CutOff env c.rd c.srcMac c.dstMac) (hfree : sys.lock.holds = 0) (t : Caller) :
    (sys.phase t).isForwarding = false := by
  obtain ⟨-, holders, hb, hmem⟩ | ⟨⟨c, hc, hcut'⟩, -⟩ := h.counted
  · have hm : sys.Matched := Counted.matched ⟨holders, hb, hmem⟩
    exact Option.some.inj ((hm t).symm.trans (hb.free hfree t))
  · exact absurd hcut' (hcut c hc)

/-- **The read lock is held exactly when the result must be freed**: of every call in every reachable state
    the sign of the code tells whether the lock is held, and in every run all acquisitions are matched by
    exactly one release, if and only if the call, or no call of the run, is cut off. -/
theorem readLock_iff (q : Qsort) (env : ExtMem) (vnetMac : EtherAddr) (al : AllocScript) :
    (∀ {s s' : Routing} {srcMac dstMac : EtherAddr} {f : Forwards}, Reach q env al s →
      s.rtDhostsToHost env srcMac dstMac = .ok (f, s') →
      ((f.rdlock = true ↔ 0 ≤ f.ret) ↔ ¬ CutOff env s srcMac dstMac)) ∧
    (∀ {calls : List FrameCall} {sys : ReadSys}, Run q env vnetMac al calls sys →
      (sys.Matched ↔ ∀ c ∈ calls, ¬ CutOff env c.rd c.srcMac c.dstMac)) := by
  constructor
  · intro s s' srcMac dstMac f h hrun
    exact signTells_iff h.serviceable hrun
  · intro calls sys h
    obtain ⟨hnone, hc⟩ | ⟨⟨c, hmem, hcut⟩, t, ht⟩ := h.counted
    · exact ⟨fun _ => hnone, fun _ => hc.matched⟩
    · exact ⟨fun hm => absurd hm ht.not_matched, fun hnone => absurd hcut (hnone c hmem)⟩

/-! ### A run on the line -/

theorem macs_tap (vnetMac dst src : EtherAddr) :
    Caller.vnetReaderTh.macs vnetMac (dst.bytes ++ src.bytes) = (vnetMac, dst) :=
  congrArg (Prod.mk vnetMac) (EtherAddr.ofBytes_append dst src.bytes)

theorem macs_peer (vnetMac dst src : EtherAddr) (d : Nat) :
    (Caller.dpTh d).macs vnetMac (dst.bytes ++ src.bytes) = (src, dst) := by
  have hsrc : EtherAddr.ofBytes (src.bytes ++ []) = src := EtherAddr.ofBytes_append src []
  rw [List.append_nil] at hsrc
  unfold Caller.macs
  rw [List.drop_left' dst.length_bytes, hsrc, EtherAddr.ofBytes_append]

theorem Run.looks {frame : List UInt8} {src dst : EtherAddr} (h : Run q env vnetMac al calls sys)
    (hphase : sys.phase t = .looping) (hmacs : t.macs vnetMac frame = (src, dst))
    (hrun : sys.rd.rtDhostsToHost env src dst = .ok (f, rd)) :
    Run q env vnetMac al (⟨sys.rd, src, dst⟩ :: calls) (sys.returned t f rd) := by
  obtain ⟨rfl, rfl⟩ := Prod.mk.inj hmacs.symm
  exact h.call hphase hrun

/-- On the line, a frame from the tap goes to host `1`; while it is forwarded, peer `1` passes one on for host
    `9`, which nobody knows. Up to here all is matched. Then a broadcast of host `2` comes in from peer `0`. -/
theorem readLock_iff_line : ∃ s f s', Reach .insertion lineExt [] s ∧
    s.rtDhostsToHost lineExt (lineHost 0).mac (lineHost 1).mac = .ok (f, s') ∧
    ((f.rdlock = true ↔ 0 ≤ f.ret) ↔ ¬ CutOff lineExt s (lineHost 0).mac (lineHost 1).mac) ∧
    ∃ calls sys c sys', Run .insertion lineExt (lineHost 0).mac [] calls sys ∧ calls.length = 2 ∧
      (sys.Matched ↔ ∀ c ∈ calls, ¬ CutOff lineExt c.rd c.srcMac c.dstMac) ∧ sys.Matched ∧
      Run .insertion lineExt (lineHost 0).mac [] (c :: calls) sys' ∧
      (sys'.Matched ↔ ∀ c' ∈ c :: calls, ¬ CutOff lineExt c'.rd c'.srcMac c'.dstMac) ∧ ¬ sys'.Matched := by
  have hline : (do
      let a ← (rtInit []).2.rtLhostAdd .insertion lineExt (.env .lhost)
      let s ← runOps .insertion lineExt lineOps a.2
      let b ← s.rtDhostsToHost lineExt (lineHost 0).mac (lineHost 1).mac
      let c ← b.2.rtDhostsToHost lineExt (lineHost 2).mac (lineHost 9).mac
      let d ← c.2.rtDhostsToHost lineExt (lineHost 2).mac broadcastMac
      pure (a.1, b.1, c.1, d.1))
      = Except.ok (0, ⟨0, [.env (.dp 0)], true⟩, Forwards.error (-1), Forwards.error 0) := by
    decide +kernel
  obtain ⟨⟨ret, s0⟩, hadd, hline⟩ := bind_eq_ok.mp hline
  obtain ⟨s, hops, hline⟩ := bind_eq_ok.mp hline
  obtain ⟨⟨f, s1⟩, h1, hline⟩ := bind_eq_ok.mp hline
  obtain ⟨⟨f2, s2⟩, h2, hline⟩ := bind_eq_ok.mp hline
  obtain ⟨⟨f3, s3⟩, h3, hline⟩ := bind_eq_ok.mp hline
  simp only [pure_eq_ok, Except.ok.injEq, Prod.mk.injEq] at hline
  obtain ⟨rfl, rfl, rfl, rfl⟩ := hline
  have hstart : Started .insertion lineExt [] s0 := ⟨_, rfl, hadd⟩
  have hready : Run .insertion lineExt (lineHost 0).mac [] [] ⟨s, .new, fun _ => .looping⟩ :=
    (Run.start hstart).ops lineOps rfl hops
  have hread := hready.looks rfl (macs_tap _ (lineHost 1).mac (lineHost 0).mac) h1
  have hboth := (hread.looks rfl (macs_peer _ (lineHost 9).mac (lineHost 2).mac 1) h2).free (t := .vnetReaderTh) rfl
  have hcut := hboth.looks rfl (macs_peer _ broadcastMac (lineHost 2).mac 0) h3
  have hnone : ∀ c ∈ [(⟨s1, (lineHost 2).mac, (lineHost 9).mac⟩ : FrameCall),
        ⟨s, (lineHost 0).mac, (lineHost 1).mac⟩],
      ¬ CutOff lineExt c.rd c.srcMac c.dstMac := by
    have hcast : etherAddrIsMcast (lineHost 9).mac = false ∧ etherAddrIsMcast (lineHost 1).mac = false := by decide
    exact List.forall_mem_cons.mpr ⟨not_cutOff_unicast hcast.1,
      List.forall_mem_singleton.mpr (not_cutOff_unicast hcast.2)⟩
  obtain ⟨htells, hmatched⟩ := readLock_iff .insertion lineExt (lineHost 0).mac []
  refine ⟨s, _, s1, Reach.runOps lineOps (.start hstart) hops, h1, htells hready.reach h1, _, _, _, _, hboth, rfl,
    hmatched hboth, (hmatched hboth).mpr hnone, hcut, hmatched hcut, fun hm => ?_⟩
  -- the sign does not tell of the last call
  have hnot := (hmatched hcut).mp hm _ List.mem_cons_self
  exact absurd ((htells hboth.reach h3).mpr hnot) (by decide)

/-- **Released, and to be freed**: host `2` is known but has no link to local, and its broadcast comes in. -/
theorem readLock_cutOff : ∃ s f s', Reach .insertion lineExt [] s ∧
    s.rtDhostsToHost lineExt (lineHost 2).mac broadcastMac = .ok (f, s') ∧ 0 ≤ f.ret ∧ f.rdlock = false ∧
    ¬ (f.rdlock = true ↔ 0 ≤ f.ret) := by
  have hcall : (do
      let s ← runFrom .insertion lineExt lineOps
      let a ← s.rtDhostsToHost lineExt (lineHost 2).mac broadcastMac
      pure a.1) = Except.ok (Forwards.error 0) := by
    decide +kernel
  obtain ⟨s, hrun, hcall⟩ := bind_eq_ok.mp hcall
  obtain ⟨⟨f, s'⟩, hfwd, hcall⟩ := bind_eq_ok.mp hcall
  obtain rfl : f = Forwards.error 0 := by simpa using hcall
  exact ⟨s, _, s', reach_runFrom hrun, hfwd, by decide, rfl, by decide⟩

end ReadSys

end P2pVn
