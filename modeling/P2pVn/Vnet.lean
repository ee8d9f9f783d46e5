import P2pVn.DPeer.Outputs
import P2pVn.Routing.Returning

/-!
# `Vnet` — frames from the tap (`vnet.c`)

`vnet_reader_th` reads one frame after the other into one buffer, looks up where the frame is to go, and sends it
to each host of the answer. The buffer is reused, so the addresses of a frame too short to have them are what
lies in it from before.

- `vnetReaderTurn_cases`: all that a turn does with a frame that has its destination address.
- `vnetReaderTurn_iff`: on a table reached without allocation failures, a turn goes wrong for a frame to local
  itself and for no other one.
-/

namespace P2pVn
open CUb Routing

/-! ## The thread -/

/-- `DATA_MAX_LEN`. -/
def dataMaxLen : Nat := 65535

/-- `vnet_recv`: the code, the buffer, and `*nbyte`. `tap` is the frame that `read` finds, `none` where it fails.
    A buffer that could not be allocated is a null pointer, and `read` fails for it. -/
def vnetRecv (tap data : Option (List UInt8)) (nbyte : Nat) : Int × Option (List UInt8) × Nat :=
  match tap, data with
  | some frame, some old =>
    (0, some (frame.take nbyte ++ old.drop (frame.take nbyte).length), (frame.take nbyte).length)
  | _, _ => (-1, data, nbyte)

/-- What the reader works on: its buffer, the table, and everybody's outgoing streams. -/
structure VnetReader where
  data : Option (List UInt8)
  rd : Routing
  out : Nat → Outgoing

/-- A turn of `vnet_reader_th`, and whether another one follows; `mac` is the MAC of the tap. -/
def vnetReaderTurn (env : ExtMem) (mac : EtherAddr) (tap : Option (List UInt8)) (s : VnetReader) :
    Ub (Bool × VnetReader) :=
  let (r, data, pktLen) := vnetRecv tap s.data dataMaxLen
  let s := { s with data := data }
  if r < 0 then .ok (false, s)
  else
    match data with
    | none => .error .nullDeref
    | some buf => do
      let (f, rd) ← s.rd.rtDhostsToHost env mac (EtherAddr.ofBytes buf)
      let s := { s with rd := rd }
      if f.ret < 0 then pure (true, s)
      else
        let out ← sendOn env (buf.take pktLen) f.res s.out
        pure (true, { s with out := out })

variable {q : Qsort} {env : ExtMem} {me : Ipv4Host} {mac : EtherAddr} {s s' : VnetReader} {frame buf : List UInt8}
  {go : Bool}

/-! ## A turn -/

/-- An address at the front of a buffer is that of the frame, if the frame has one. -/
theorem ofBytes_frame (h : 6 ≤ frame.length) (rest : List UInt8) :
    EtherAddr.ofBytes (frame ++ rest) = EtherAddr.ofBytes frame := by
  unfold EtherAddr.ofBytes
  congr 1
  ext i hi
  simp only [Vector.getElem_ofFn, List.getD_eq_getElem?_getD]
  rw [List.getElem?_append_left (by omega)]

/-- The frame is looked up with its own destination, and is sent whole. -/
theorem vnetReaderTurn_eq (hbuf : s.data = some buf) (hlen : 6 ≤ frame.length) (hmax : frame.length ≤ dataMaxLen) :
    vnetReaderTurn env mac (some frame) s = (do
      let (f, rd) ← s.rd.rtDhostsToHost env mac (EtherAddr.ofBytes frame)
      let s := { s with data := some (frame ++ buf.drop frame.length), rd := rd }
      if f.ret < 0 then pure (true, s)
      else
        let out ← sendOn env frame f.res s.out
        pure (true, { s with out := out })) := by
  have htake : frame.take dataMaxLen = frame := List.take_of_length_le hmax
  unfold vnetReaderTurn vnetRecv
  simp only [hbuf, htake, Int.lt_irrefl, if_false, ofBytes_frame hlen, List.take_left]

/-- **What a turn does with a frame**: it goes on, the frame is sent unchanged to the peers that were looked up,
    one after the other, and to nobody if the lookup returned an error. -/
theorem vnetReaderTurn_cases (me : Ipv4Host) (hbuf : s.data = some buf) (hlen : 6 ≤ frame.length)
    (hmax : frame.length ≤ dataMaxLen) (h : vnetReaderTurn env mac (some frame) s = .ok (go, s')) :
    go = true ∧ ∃ f, s.rd.rtDhostsToHost env mac (EtherAddr.ofBytes frame) = .ok (f, s'.rd) ∧
      s'.data = some (frame ++ buf.drop frame.length) ∧ s'.out = sendAll me
        (if f.ret < 0 then [] else (peersOf f.res).map fun d => (d, .packet ptData frame)) s.out := by
  rw [vnetReaderTurn_eq hbuf hlen hmax] at h
  obtain ⟨⟨f, rd⟩, hrun, h⟩ := bind_eq_ok.mp h
  simp only at h
  by_cases hret : f.ret < 0
  · rw [if_pos hret] at h
    cases h
    refine ⟨rfl, f, hrun, rfl, ?_⟩
    rw [if_pos hret]
    rfl
  · rw [if_neg hret] at h
    obtain ⟨out, hout, h⟩ := bind_eq_ok.mp h
    cases h
    refine ⟨rfl, f, hrun, rfl, ?_⟩
    rw [if_neg hret]
    exact sendOn_sends f.res hout

/-- A frame is sent on to the peers of a list of their addresses, and to no other list. -/
theorem sendOn_ok_iff (data : List UInt8) (ps : List HostPtr) (out : Nat → Outgoing) :
    (∃ out', sendOn env data ps out = .ok out') ↔ PeersOnly env ps := by
  induction ps generalizing out with
  | nil => exact ⟨fun _ => nofun, fun _ => ⟨out, rfl⟩⟩
  | cons p ps ih =>
      have hcons : PeersOnly env (p :: ps) ↔ (∃ d ip, p = .env (.dp d) ∧ env (.dp d) = some ip) ∧
          PeersOnly env ps := List.forall_mem_cons
      rw [hcons]
      cases p with
      | heap ip => simp [sendOn]
      | env p =>
          cases p with
          | lhost => simp [sendOn]
          | dp d =>
              unfold sendOn
              cases hd : env (.dp d) with
              | none => simp [hd]
              | some ip =>
                  rw [ih]
                  simp [hd]

/-! ## When a turn goes wrong -/

/-- A lookup for local's own MAC gives local's own address. -/
theorem lookup_local {rd : Routing} (h : Reach q env [] rd) (srcMac : EtherAddr) {dstMac : EtherAddr}
    (hcast : etherAddrIsMcast dstMac = false) (hlocal : IsLocalMac env rd dstMac) :
    ∃ f rd', rd.rtDhostsToHost env srcMac dstMac = .ok (f, rd') ∧ f.ret = 0 ∧ f.res = [.env .lhost] := by
  obtain ⟨L, hs, ha⟩ := h.aliased
  obtain ⟨i, m, -, hm, -, hi⟩ := hs.table.find_local
  obtain rfl := (hs.table.isLocalMac_iff (macOf_eq_ok.mp hm)).mp hlocal
  obtain ⟨s1, hsame, hs1, hr1, heq⟩ := rtDhostsToHost_eq hs hi srcMac dstMac
  rw [hcast, if_neg (by decide)] at heq
  have hi1 : s1.hosts.items[i]? = some L := hsame.hosts ▸ hi
  have hm1 : s1.mac? env L = some dstMac := (hsame.mac? L).trans (macOf_eq_ok.mp hm)
  have hlt1 : i < s1.hosts.ct := (List.getElem?_eq_some_iff.mp hi1).1
  obtain ⟨f, rd', hrun, hret, -⟩ := unicast_result hs1 hr1 hlt1 hi1 hm1
  exact ⟨f, rd', heq.trans hrun, hret, unicast_local hs1 hr1 (ha.same hsame) hi1 hm1 hrun⟩

/-- **The reader survives every frame but those to local itself.** On every table that is reached without allocation
    failures, for every frame with a destination address: the turn returns, and goes on to the next frame, exactly
    if the frame is a multicast or its destination is not local's own MAC. -/
theorem vnetReaderTurn_iff {env : ExtMem} {mac : EtherAddr} {s : VnetReader} {frame buf : List UInt8}
    (h : Reach q env [] s.rd) (hbuf : s.data = some buf) (hlen : 6 ≤ frame.length)
    (hmax : frame.length ≤ dataMaxLen) :
    (∃ s', vnetReaderTurn env mac (some frame) s = .ok (true, s')) ↔
      etherAddrIsMcast (EtherAddr.ofBytes frame) = true ∨ ¬ IsLocalMac env s.rd (EtherAddr.ofBytes frame) := by
  obtain ⟨f, rd, hrun, -⟩ := rtDhostsToHost_deliverable_iff h mac (EtherAddr.ofBytes frame)
  rw [vnetReaderTurn_eq hbuf hlen hmax, hrun, ok_bind]
  constructor
  · rintro ⟨s', hs'⟩
    by_contra hno
    rw [not_or, Bool.not_eq_true, Classical.not_not] at hno
    obtain ⟨f', rd', hrun', hret, hres⟩ := lookup_local h mac hno.1 hno.2
    cases hrun.symm.trans hrun'
    simp only [hret, Int.lt_irrefl, if_false, hres] at hs'
    cases hs'
  · intro hother
    by_cases hret : f.ret < 0
    · simp only [hret, if_true]
      exact ⟨_, rfl⟩
    · simp only [hret, if_false]
      obtain ⟨out, hout⟩ := (sendOn_ok_iff frame f.res s.out).mpr
        (rtDhostsToHost_peersOnly h hrun (by omega) hother)
      rw [hout]
      exact ⟨_, rfl⟩

/-- On the line: a frame to host `1` is no trouble, and a frame to host `0` itself is. -/
theorem vnetReaderTurn_iff_line : ∃ s, Reach .insertion lineExt [] s ∧
    (∃ s', vnetReaderTurn lineExt (lineHost 0).mac (some ((lineHost 1).mac.addr.toList ++ List.replicate 8 0))
      ⟨some [], s, fun _ => ⟨[], []⟩⟩ = .ok (true, s')) ∧
    ¬ ∃ s', vnetReaderTurn lineExt (lineHost 0).mac (some ((lineHost 0).mac.addr.toList ++ List.replicate 8 0))
      ⟨some [], s, fun _ => ⟨[], []⟩⟩ = .ok (true, s') := by
  obtain ⟨s, hs, -, hlocal, hrecs⟩ := lineOps_run
  have hr : Reach .insertion lineExt [] s := reach_runFrom hs
  have hmac : s.mac? lineExt 0 = some (lineHost 0).mac := by
    rw [mac?, hrecs]
    rfl
  have hme : ∀ m, IsLocalMac lineExt s m → m = (lineHost 0).mac := by
    rintro m ⟨L, hL, hm⟩
    obtain rfl : 0 = L := Option.some.inj (hlocal.symm.trans hL)
    exact Option.some.inj (hm.symm.trans hmac)
  refine ⟨s, hr, (vnetReaderTurn_iff hr rfl (by decide) (by decide)).mpr (Or.inr fun h => ?_), fun h => ?_⟩
  · exact absurd (hme _ h) (by decide)
  · rcases (vnetReaderTurn_iff hr rfl (by decide) (by decide)).mp h with hcast | hno
    · exact absurd hcast (by decide)
    · exact hno ⟨0, hlocal, hmac⟩

end P2pVn
