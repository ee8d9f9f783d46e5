import P2pVn.DPeer.Alignment
import P2pVn.Routing.GivingUp
import P2pVn.Routing.Network

/-!
# `DPeer.Probing` — which responses give a round-trip time (`dpeer.c`)

`dp_send_probe_req` remembers the number and the time of the probe it sends, and `dp_handle_probe_resp` takes
any response with that number for its answer; nothing marks a probe as answered. What it records with
`rt_dhost_add_link` is a sample; `Records` says of a call of the handler which one that is, or that it records
none.

`ProbeRun seq0 H s` are the states of a peer in any sequence of probes and responses, `H` being the history,
the newest first, and `seq0` what lay in `probe_seq` before the first probe. A response's entry holds what the
handler recorded. `Genuine` is what is asked of the samples in a history; `ProbeRun.genuine_iff` says for which
sequences they are as asked.
-/

namespace P2pVn
open CUb Bytes

/-! ## The two functions -/

/-- `dp_send_probe_req`: `rnd` is the 16 bits taken of `rand()`, `now` the reading of the clock. -/
def dpSendProbeReq (me : Nat) (rnd : UInt16) (now : Timeval) (s : Peer) : Int × Peer :=
  let s := { s with probeSeq := rnd, probeSendTime := now }
  s.sendPacket me ptProbeReq (UInt16.ofNat plProbeReq) (u16Bytes rnd)

/-- The number of the response that comes next on the connection. -/
def Incoming.probeSeq (i : Incoming) : UInt16 := u16OfBytes (i.bytes.take 2)

/-! ## What the handler records -/

/-- What `dp_handle_probe_resp` does with the response that comes next, whatever table it finds: it hands a
    round-trip time to `rt_dhost_add_link` and keeps it in `rtt_us`, or it leaves both as they are. -/
def Records (q : Qsort) (me : Nat) (now : Timeval) (s : Peer) (sample : Option UInt32) : Prop :=
  ∀ (env : ExtMem) (rd : Routing) (later : Timeval),
    (dpHandleProbeResp q me now later { s with env := env, rd := rd }).2 =
      (match sample with
      | none => .ok (0, { s with env := env, rd := rd, con := { s.con with bytes := s.con.bytes.drop 2 } })
      | some rttUs => do
        let (ret, rd) ← rd.rtDhostAddLink q env (.env (.dp me)) rttUs later
        pure (ret, { s with env := env, rd := rd, con := { s.con with bytes := s.con.bytes.drop 2 },
                            rttUs := rttUs }))

/-- The time since the last probe, if the response has its number. -/
def probeSample (s : Peer) (seq : UInt16) (now : Timeval) : Option UInt32 :=
  if seq = s.probeSeq then some (tvUs (timersub now s.probeSendTime)) else none

theorem records_probeSample {q : Qsort} {me : Nat} {now : Timeval} {s : Peer} (h : 2 ≤ s.con.bytes.length) :
    Records q me now s (probeSample s s.con.probeSeq now) := by
  intro env rd later
  have hrecv : s.con.recv plProbeResp
      = (((plProbeReq : Nat) : Int), s.con.bytes.take 2, { s.con with bytes := s.con.bytes.drop 2 }) :=
    recv_full (Incoming.has_of_pos (by decide) h)
  unfold dpHandleProbeResp probeSample Incoming.probeSeq
  simp only [hrecv, ne_eq, not_true_eq_false, if_false]
  split <;> rfl

/-- A table that knows local but has no hosts: nothing can be added to it, and `rt_dhost_add_link` says so. -/
def bareTable : Routing :=
  { (Routing.rtInit []).2 with
    localHost := some 0
    recs := CellHeap.empty.alloc ⟨.env .lhost, .htLocal, 0, ⟨[], 0⟩⟩ }

theorem bareTable_refuses (q : Qsort) {env : ExtMem} {local' : Ipv4Host} (henv : env .lhost = some local')
    (p : HostPtr) (rttUs : UInt32) (now : Timeval) :
    bareTable.rtDhostAddLink q env p rttUs now = .ok (-1, bareTable) := by
  have hmac : bareTable.macOf env 0 = .ok local'.mac :=
    Routing.macOf_eq_ok.mpr (congrArg (Option.map Ipv4Host.mac) henv)
  unfold Routing.rtDhostAddLink Routing.linkDhost
  rw [show bareTable.theLocal = .ok 0 from rfl, ok_bind, hmac]
  rfl

theorem started_without_local (q : Qsort) (env : ExtMem) (p : HostPtr) (rttUs : UInt32) (now : Timeval) :
    (Routing.rtInit []).2.rtDhostAddLink q env p rttUs now = .error .uninitialised := rfl

/-- **A call of the handler records one thing only**: on a table that turns every link down, and on one without
    memory for local, the outcomes tell the samples apart. -/
theorem Records.sample {q : Qsort} {me : Nat} {now : Timeval} {s : Peer} {sample : Option UInt32}
    (h : Records q me now s sample) (hfull : 2 ≤ s.con.bytes.length) :
    sample = probeSample s s.con.probeSeq now := by
  have hrec : Records q me now s (probeSample s s.con.probeSeq now) := records_probeSample hfull
  have heq := fun env rd later => (h env rd later).symm.trans (hrec env rd later)
  generalize probeSample s s.con.probeSeq now = taken at heq ⊢
  have hnowhere := heq (fun _ => none) (Routing.rtInit []).2 now
  cases sample with
  | none =>
      cases taken with
      | none => rfl
      | some r' =>
          simp only [started_without_local] at hnowhere
          cases hnowhere
  | some r =>
      cases taken with
      | none =>
          simp only [started_without_local] at hnowhere
          cases hnowhere
      | some r' =>
          let anyMem : ExtMem := fun _ => some ⟨.junk, ⟨afInet, 0, 0⟩⟩
          have hmem : anyMem .lhost = some ⟨.junk, ⟨afInet, 0, 0⟩⟩ := rfl
          have hbare := heq anyMem bareTable now
          simp only [bareTable_refuses q hmem, ok_bind, pure_eq_ok, Except.ok.injEq, Prod.mk.injEq] at hbare
          exact congrArg (fun p : Peer => some p.rttUs) hbare.2

/-! ## The sample of an elapsed time -/

/-- The microseconds between two readings, as far as 32 bits hold them. -/
theorem tvUs_timersub (a b : Timeval) : tvUs (timersub a b) = UInt32.ofInt (a.us - b.us) := by
  rw [← us_timersub]
  rfl

theorem toNat_ofInt (x : Int) : (UInt32.ofInt x).toNat = (x % 4294967296).toNat := by
  show (UInt32.ofNat (x % 4294967296).toNat).toNat = _
  rw [UInt32.toNat_ofNat']
  omega

/-- A sample is zero exactly for the multiples of 2^32 microseconds. -/
theorem ofInt_eq_zero (x : Int) : UInt32.ofInt x = 0 ↔ (4294967296 : Int) ∣ x := by
  rw [← UInt32.toNat_inj, toNat_ofInt]
  show (x % 4294967296).toNat = 0 ↔ _
  omega

theorem toNat_ofInt_of_lt {x : Int} (h0 : 0 ≤ x) (h : x < 4294967296) : ((UInt32.ofInt x).toNat : Int) = x := by
  rw [toNat_ofInt]
  omega

/-! ## Histories -/

/-- A probe that was sent, or a response that came in, with what was recorded for it. -/
inductive ProbeEntry where
  | sent (seq : UInt16) (now : Timeval)
  | answered (seq : UInt16) (now : Timeval) (sample : Option UInt32)
  deriving DecidableEq

/-- The probe that was sent last. -/
def lastSent : List ProbeEntry → Option (UInt16 × Timeval)
  | [] => none
  | .sent seq now :: _ => some (seq, now)
  | .answered _ _ _ :: H => lastSent H

/-- Whether a sample was recorded since. -/
def sampledSince : List ProbeEntry → Bool
  | [] => false
  | .sent _ _ :: _ => false
  | .answered _ _ sample :: H => sample.isSome || sampledSince H

/-- Whether a response with this number came in since. -/
def echoedSince (seq : UInt16) : List ProbeEntry → Bool
  | [] => false
  | .sent _ _ :: _ => false
  | .answered seq' _ _ :: H => seq' = seq || echoedSince seq H

/-- **What is asked of samples.** Each is for a response with the number of the probe sent last, of which there
    is no sample yet; it is the time since that probe, in microseconds, where 32 bits can hold it, and never
    zero. -/
def Genuine : List ProbeEntry → Prop
  | [] => True
  | .sent _ _ :: H => Genuine H
  | .answered _ _ none :: H => Genuine H
  | .answered seq now (some rttUs) :: H => Genuine H ∧ sampledSince H = false ∧ rttUs ≠ 0 ∧
    ∃ at', lastSent H = some (seq, at') ∧
      (0 < now.us - at'.us → now.us - at'.us < 4294967296 → (rttUs.toNat : Int) = now.us - at'.us)

/-- The number that is taken for an answer: that of the probe sent last, and before the first one what lies
    in the field. -/
def currentSeq (seq0 : UInt16) (H : List ProbeEntry) : UInt16 := ((lastSent H).map Prod.fst).getD seq0

/-- **The sequences for which this is so.** A response with the number that is taken for an answer comes after
    a probe was sent, is the first one since, and does not come a multiple of 2^32 microseconds after it. -/
def Orderly (seq0 : UInt16) : List ProbeEntry → Prop
  | [] => True
  | .sent _ _ :: H => Orderly seq0 H
  | .answered seq now _ :: H => Orderly seq0 H ∧ (seq = currentSeq seq0 H → echoedSince seq H = false ∧
    ∃ at', lastSent H = some (seq, at') ∧ ¬ (4294967296 : Int) ∣ now.us - at'.us)

/-! ## Runs -/

/-- The states of a peer after a sequence of probes and responses, whatever else happens to it. With a response
    the history gets what the handler recorded. -/
inductive ProbeRun (q : Qsort) (me : Nat) (seq0 : UInt16) : List ProbeEntry → Peer → Prop
  | start {s} (hs : s.probeSeq = seq0) : ProbeRun q me seq0 [] s
  | send {H s} (h : ProbeRun q me seq0 H s) (rnd : UInt16) (now : Timeval) :
      ProbeRun q me seq0 (.sent rnd now :: H) (dpSendProbeReq me rnd now s).2
  | response {H s sample ret s'} (h : ProbeRun q me seq0 H s) (now later : Timeval)
      (hfull : 2 ≤ s.con.bytes.length) (hrec : Records q me now s sample)
      (hr : (dpHandleProbeResp q me now later s).2 = .ok (ret, s')) :
      ProbeRun q me seq0 (.answered s.con.probeSeq now sample :: H) s'
  | other {H s s'} (h : ProbeRun q me seq0 H s) (hseq : s'.probeSeq = s.probeSeq)
      (htime : s'.probeSendTime = s.probeSendTime) : ProbeRun q me seq0 H s'

/-- What a peer remembers of its probes. -/
structure Remembers (seq0 : UInt16) (H : List ProbeEntry) (s : Peer) : Prop where
  seq : s.probeSeq = currentSeq seq0 H
  time : ∀ seq now, lastSent H = some (seq, now) → s.probeSendTime = now
  sampled : sampledSince H = echoedSince s.probeSeq H

/-- A probe that is begun overwrites both fields, whether it can be sent or not. -/
theorem dpSendProbeReq_fields (me : Nat) (rnd : UInt16) (now : Timeval) (s : Peer) :
    (dpSendProbeReq me rnd now s).2.probeSeq = rnd ∧ (dpSendProbeReq me rnd now s).2.probeSendTime = now :=
  ⟨rfl, rfl⟩

/-- A response leaves number and time of the probe as they were. -/
theorem dpHandleProbeResp_fields {q : Qsort} {me : Nat} {now later : Timeval} {s s' : Peer} {ret : Int}
    (hfull : 2 ≤ s.con.bytes.length) (h : (dpHandleProbeResp q me now later s).2 = .ok (ret, s')) :
    s'.probeSeq = s.probeSeq ∧ s'.probeSendTime = s.probeSendTime := by
  rw [show (dpHandleProbeResp q me now later s).2 = _ from records_probeSample hfull s.env s.rd later] at h
  split at h
  · cases h
    exact ⟨rfl, rfl⟩
  · obtain ⟨⟨ret1, rd⟩, -, h⟩ := bind_eq_ok.mp h
    cases h
    exact ⟨rfl, rfl⟩

/-- Run lemma: the peer has the number and the time of the last probe. -/
theorem ProbeRun.remembers {q : Qsort} {me : Nat} {seq0 : UInt16} {H : List ProbeEntry} {s : Peer}
    (h : ProbeRun q me seq0 H s) : Remembers seq0 H s := by
  induction h with
  | start hs => exact ⟨hs, nofun, rfl⟩
  | @send H s _ rnd now ih =>
      obtain ⟨hseq, htime⟩ := dpSendProbeReq_fields me rnd now s
      refine ⟨hseq, fun seq at' he => ?_, rfl⟩
      cases he
      exact htime
  | @response H s sample ret s' _ now later hfull hrec hr ih =>
      obtain ⟨hseq, htime⟩ := dpHandleProbeResp_fields hfull hr
      obtain rfl := hrec.sample hfull
      refine ⟨hseq.trans ih.seq, fun seq at' he => htime.trans (ih.time seq at' he), ?_⟩
      simp only [sampledSince, echoedSince, hseq, ih.sampled]
      congr 1
      unfold probeSample
      split
      · rename_i he
        simp [he]
      · rename_i he
        simp [he]
  | other _ hseq htime ih =>
      refine ⟨hseq.trans ih.seq, fun seq at' he => htime.trans (ih.time seq at' he), ?_⟩
      rw [hseq]
      exact ih.sampled

/-- **Samples come from the outstanding probe, once**, exactly in the orderly sequences. -/
theorem ProbeRun.genuine_iff {q : Qsort} {me : Nat} {seq0 : UInt16} {H : List ProbeEntry} {s : Peer}
    (h : ProbeRun q me seq0 H s) : Genuine H ↔ Orderly seq0 H := by
  induction h with
  | start => exact Iff.rfl
  | send _ _ _ ih => exact ih
  | @response H s sample ret s' hrun now later hfull hrec _ ih =>
      have hr := hrun.remembers
      obtain rfl := hrec.sample hfull
      unfold probeSample
      split
      · -- the number is that of the current probe: there is a sample
        rename_i hcur
        have hcur' : s.con.probeSeq = currentSeq seq0 H := hcur.trans hr.seq
        simp only [Genuine, Orderly, ih, tvUs_timersub]
        refine and_congr_right fun _ => ?_
        rw [hr.sampled, ← hcur]
        constructor
        · rintro ⟨hfresh, hne, at', hlast, -⟩ _
          refine ⟨hfresh, at', hlast, fun hdvd => hne ?_⟩
          rw [hr.time _ _ hlast]
          exact (ofInt_eq_zero _).mpr hdvd
        · intro hright
          obtain ⟨hfresh, at', hlast, hdvd⟩ := hright hcur'
          have htime := hr.time _ _ hlast
          refine ⟨hfresh, fun h0 => hdvd ?_, at', hlast, fun h0 hlt => ?_⟩
          · rw [htime] at h0
            exact (ofInt_eq_zero _).mp h0
          · rw [htime]
            exact toNat_ofInt_of_lt (Int.le_of_lt h0) hlt
      · -- another number is passed over
        rename_i hcur
        have hcur' : s.con.probeSeq ≠ currentSeq seq0 H := fun he => hcur (he.trans hr.seq.symm)
        simp only [Genuine, Orderly, ih]
        exact ⟨fun h => ⟨h, fun he => absurd he hcur'⟩, fun h => h.1⟩
  | other _ _ _ ih => exact ih

/-- A node connected to one peer, with `bytes` on the connection. -/
def probedPeer (rd : Routing) (bytes : List UInt8) : Peer :=
  { samplePeer bytes with env := Routing.pairExt 0, rd := rd }

/-- A probe with the number 7, sent at ten seconds. -/
def probed (rd : Routing) (bytes : List UInt8) : Peer := (dpSendProbeReq 0 7 ⟨10, 0⟩ (probedPeer rd bytes)).2

theorem probed_run (q : Qsort) (rd : Routing) (bytes : List UInt8) :
    ProbeRun q 0 0 [.sent 7 ⟨10, 0⟩] (probed rd bytes) := by
  have hstart : ProbeRun q 0 0 [] (probedPeer rd bytes) := .start rfl
  exact hstart.send 7 ⟨10, 0⟩

/-- The first response, after fifty milliseconds, with the number of the probe. -/
theorem probed_answered {q : Qsort} {rd : Routing} {rest : List UInt8} {later : Timeval} {ret : Int} {s : Peer}
    (h : (dpHandleProbeResp q 0 ⟨10, 50000⟩ later (probed rd (7 :: 0 :: rest))).2 = .ok (ret, s)) :
    ProbeRun q 0 0 [.answered 7 ⟨10, 50000⟩ (some 50000), .sent 7 ⟨10, 0⟩] s ∧
      s.probeSeq = 7 ∧ s.probeSendTime = ⟨10, 0⟩ := by
  have hfull : 2 ≤ (probed rd (7 :: 0 :: rest)).con.bytes.length := Nat.le_add_left 2 rest.length
  obtain ⟨hseq, htime⟩ := dpHandleProbeResp_fields hfull h
  exact ⟨(probed_run q rd (7 :: 0 :: rest)).response ⟨10, 50000⟩ later hfull (records_probeSample hfull) h,
    hseq, htime⟩

/-- One response after fifty milliseconds gives the sample that it should, and another number after it none. -/
theorem ProbeRun.genuine_iff_sample : ∃ s, ProbeRun .insertion 0 0
      [.answered 9 ⟨10, 60000⟩ none, .answered 7 ⟨10, 50000⟩ (some 50000), .sent 7 ⟨10, 0⟩] s ∧
    Genuine [.answered 9 ⟨10, 60000⟩ none, .answered 7 ⟨10, 50000⟩ (some 50000), .sent 7 ⟨10, 0⟩] := by
  have h : (do
      let rd ← Routing.runFrom .insertion (Routing.pairExt 0) (Routing.pairOps 0)
      let (_, s) ← (dpHandleProbeResp .insertion 0 ⟨10, 50000⟩ ⟨10, 50000⟩ (probed rd [7, 0, 9, 0])).2
      let (ret, _) ← (dpHandleProbeResp .insertion 0 ⟨10, 60000⟩ ⟨10, 60000⟩ s).2
      pure (ret, s.con.bytes)) = Except.ok (0, [9, 0]) := by
    decide +kernel
  obtain ⟨rd, -, h⟩ := bind_eq_ok.mp h
  obtain ⟨⟨ret, s⟩, hresp, h⟩ := bind_eq_ok.mp h
  obtain ⟨⟨ret', s'⟩, hresp', h⟩ := bind_eq_ok.mp h
  simp only [pure_eq_ok, Except.ok.injEq, Prod.mk.injEq] at h
  have hbytes : s.con.bytes = [9, 0] := h.2
  have hfull : 2 ≤ s.con.bytes.length := by rw [hbytes]; decide
  obtain ⟨hfirst, hseq, -⟩ := probed_answered hresp
  have hrun := hfirst.response ⟨10, 60000⟩ ⟨10, 60000⟩ hfull (records_probeSample hfull) hresp'
  have hnext : s.con.probeSeq = 9 := by
    rw [Incoming.probeSeq, hbytes]
    rfl
  rw [hnext, probeSample, if_neg (by rw [hseq]; decide)] at hrun
  refine ⟨s', hrun, (ProbeRun.genuine_iff hrun).mpr ⟨⟨trivial, fun _ => ⟨rfl, ⟨10, 0⟩, rfl, ?_⟩⟩, ?_⟩⟩
  · decide
  · exact fun hcur => absurd hcur (by decide)

/-- **A response that is repeated half a second later is recorded again**, as a round-trip time ten times as
    long, which is what the table then has for the link to the peer. -/
theorem repeated_sampled : ∃ s, ProbeRun .insertion 0 0
      [.answered 7 ⟨10, 500000⟩ (some 500000), .answered 7 ⟨10, 50000⟩ (some 50000), .sent 7 ⟨10, 0⟩] s ∧
    s.rd.linkRtts 0 = some [(1, 500000)] ∧
    ¬ Genuine [.answered 7 ⟨10, 500000⟩ (some 500000), .answered 7 ⟨10, 50000⟩ (some 50000), .sent 7 ⟨10, 0⟩] := by
  have h : (do
      let rd ← Routing.runFrom .insertion (Routing.pairExt 0) (Routing.pairOps 0)
      let (_, s) ← (dpHandleProbeResp .insertion 0 ⟨10, 50000⟩ ⟨10, 50000⟩ (probed rd [7, 0, 7, 0])).2
      let (ret, s') ← (dpHandleProbeResp .insertion 0 ⟨10, 500000⟩ ⟨10, 500000⟩ s).2
      pure (ret, s.con.bytes, s'.rd.linkRtts 0)) = Except.ok (0, [7, 0], some [(1, 500000)]) := by
    decide +kernel
  obtain ⟨rd, -, h⟩ := bind_eq_ok.mp h
  obtain ⟨⟨ret, s⟩, hresp, h⟩ := bind_eq_ok.mp h
  obtain ⟨⟨ret', s'⟩, hresp', h⟩ := bind_eq_ok.mp h
  simp only [pure_eq_ok, Except.ok.injEq, Prod.mk.injEq] at h
  obtain ⟨-, hbytes, hlinks⟩ := h
  have hfull : 2 ≤ s.con.bytes.length := by rw [hbytes]; decide
  -- the second response meets the fields that the first one left
  obtain ⟨hfirst, hseq, htime⟩ := probed_answered hresp
  have hsecond := hfirst.response ⟨10, 500000⟩ ⟨10, 500000⟩ hfull (records_probeSample hfull) hresp'
  have hnext : s.con.probeSeq = 7 := by
    rw [Incoming.probeSeq, hbytes]
    rfl
  have hsample : probeSample s 7 ⟨10, 500000⟩ = some 500000 := by
    unfold probeSample
    rw [hseq, htime]
    rfl
  rw [hnext, hsample] at hsecond
  exact ⟨s', hsecond, hlinks, fun hg => absurd hg.2.1 (by decide)⟩

end P2pVn
