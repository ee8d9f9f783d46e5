import P2pVn.DPeer.Framing

/-!
# `DPeer.Alignment` — what a call of `dp_recv_packet` reads, and where it leaves the connection

`Aligned` is what the comment at `error_recv_flush` asks for ("read entire packet to maintain alignment"),
together with reading inside the payload: a call that returns `0` has consumed the header and the payload it
announces, and no handler reads beyond that payload.

One lemma for each handler says exactly when it keeps to this (`recvData_aligned`, `linkGraph_aligned`,
`recvFlush_aligned`, `probe_aligned`); `dpRecvPacket_aligned_iff` puts them together.
-/

namespace P2pVn
open CUb Bytes

/-! ## Aligned calls -/

/-- A handler, started with `len` bytes of payload announced, reads below `len` only, and has consumed the
    whole payload when it returns `0`. -/
structure HandlerOk (s : Peer) (len : Nat) (out : Nat × Ub (Int × Peer)) : Prop where
  reads : out.1 ≤ len
  consumes : ∀ s', out.2 = .ok (0, s') → len ≤ s.con.bytes.length ∧ s'.con.bytes = s.con.bytes.drop len

/-- A call of `dp_recv_packet` stays aligned and in bounds. -/
structure Aligned (s : Peer) (out : Nat × Ub (Int × Peer)) : Prop where
  reads : ∀ type len con, dpRecvHeader s.con = (0, some (type, len), con) → out.1 ≤ len.toNat
  consumes : ∀ s', out.2 = .ok (0, s') → ∃ type len con, dpRecvHeader s.con = (0, some (type, len), con) ∧
    plHeader + len.toNat ≤ s.con.bytes.length ∧ s'.con.bytes = s.con.bytes.drop (plHeader + len.toNat)

/-! ## Receiving -/

/-- `recv` returns the number it was asked for exactly if there are that many bytes to be had. -/
theorem recv_eq_iff (i : Incoming) (n : Nat) : (i.recv n).1 = n ↔ i.Has n := by
  unfold Incoming.recv Incoming.Has
  split
  · rename_i h
    obtain ⟨hb, hnil⟩ := h
    simp only [hb, hnil, List.length_nil]
    exact ⟨fun h => by omega, fun h => absurd rfl (h.2 trivial)⟩
  · rename_i h
    rw [List.length_take]
    exact ⟨fun hn => ⟨by omega, fun hb hnil => h ⟨hb, hnil⟩⟩, fun hn => by omega⟩

/-- A probe's number is there or it is not: two bytes are to be had exactly if there are two. -/
theorem recv_two_iff (i : Incoming) : (i.recv 2).1 = (2 : Nat) ↔ 2 ≤ i.bytes.length := by
  rw [recv_eq_iff]
  exact ⟨And.left, Incoming.has_of_pos (by decide)⟩

theorem recv_length (i : Incoming) (n : Nat) : (i.recv n).2.1.length = min n i.bytes.length := by
  unfold Incoming.recv
  split
  · rename_i h
    simp [h.2]
  · exact List.length_take

/-- A header that is read takes four bytes. -/
theorem dpRecvHeader_some {i con : Incoming} {r : Int} {type : PktType} {len : UInt16}
    (h : dpRecvHeader i = (r, some (type, len), con)) :
    r = 0 ∧ plHeader ≤ i.bytes.length ∧ con.bytes = i.bytes.drop plHeader := by
  unfold dpRecvHeader at h
  simp only at h
  split at h
  · cases h
  · split at h
    · cases h
    · rename_i hshort
      have hle : plHeader ≤ i.bytes.length := by
        by_contra hlt
        have hlen : (i.recv plHeader).1 < plHeader := by
          unfold Incoming.recv
          split
          · show (-1 : Int) < plHeader
            decide
          · simp only [List.length_take]
            omega
        exact hshort hlen
      rw [recv_full (Incoming.has_of_pos (by decide) hle)] at h
      cases h
      exact ⟨rfl, hle, rfl⟩

theorem dpRecvHeader_none {i con : Incoming} {r : Int} (h : dpRecvHeader i = (r, none, con)) : r ≠ 0 := by
  unfold dpRecvHeader at h
  simp only at h
  split at h
  · cases h; decide
  · split at h
    · cases h; decide
    · cases h

/-! ## The handlers -/

variable {q : Qsort} {me : Nat} {now later : Timeval} {s : Peer} {len : Nat}

/-- Whether the `malloc` of a handler succeeds. -/
def Peer.mallocOk (s : Peer) : Prop := s.rd.malloc.1 = true

/-- A call that reads inside the payload and returns an error keeps to it. -/
theorem HandlerOk.error {reach : Nat} {ret : Int} {s' : Peer} (hreach : reach ≤ len) (hret : ret ≠ 0) :
    HandlerOk s len (reach, .ok (ret, s')) where
  reads := hreach
  consumes _ h := by
    cases h
    exact absurd rfl hret

/-- A call that reads inside the payload, and leaves behind it whatever it returns, keeps to it. -/
theorem HandlerOk.drop {reach : Nat} {out : Ub (Int × Peer)} (hreach : reach ≤ len)
    (hfull : len ≤ s.con.bytes.length)
    (hout : ∀ ret s', out = .ok (ret, s') → s'.con.bytes = s.con.bytes.drop len) :
    HandlerOk s len (reach, out) where
  reads := hreach
  consumes s' h := ⟨hfull, hout 0 s' h⟩

/-- When the data handler keeps to its payload: it has room for two addresses, or is never had. -/
def DataOk (s : Peer) (len : Nat) : Prop := 12 ≤ len ∨ ¬ s.con.Has len ∨ (¬ s.mallocOk ∧ 0 < len)

/-- Sending a packet on changes outgoing streams only. -/
theorem forwardData_out {data : List UInt8} : ∀ (ps : List HostPtr) {s s' : Peer},
    forwardData data ps s = .ok s' → s' = { s with out := s'.out } := by
  intro ps
  induction ps with
  | nil =>
      intro s s' h
      cases h
      rfl
  | cons p ps ih =>
      intro s s' h
      cases p with
      | heap ip => cases h
      | env p =>
          cases p with
          | lhost => cases h
          | dp d =>
              unfold forwardData at h
              split at h
              · cases h
              · have hout := ih h
                exact hout

theorem recvData_ok_iff : HandlerOk s len (recvData s len) ↔ DataOk s len := by
  unfold recvData DataOk Peer.mallocOk
  obtain ⟨⟨ok, rd⟩, hm⟩ : ∃ x, s.rd.malloc = x := ⟨_, rfl⟩
  simp only [hm]
  by_cases hnull : (!ok) = true ∧ 0 < len
  · rw [if_pos hnull]
    have hok : ¬ ok = true := by simpa using hnull.1
    exact ⟨fun _ => Or.inr (Or.inr ⟨hok, hnull.2⟩), fun _ => .error (Nat.zero_le len) (by decide)⟩
  rw [if_neg hnull]
  by_cases hfull : s.con.Has len
  · simp only [recv_full hfull, ne_eq, not_true_eq_false, if_false]
    constructor
    · exact fun h => Or.inl h.reads
    · intro h
      -- the two MACs of the frame are read
      have hlen : 12 ≤ len := by
        rcases h with h | h | ⟨hok, h⟩
        · exact h
        · exact absurd hfull h
        · exact absurd ⟨by simpa using hok, h⟩ hnull
      refine .drop hlen hfull.1 fun ret s' h => ?_
      rw [if_neg (Nat.not_lt.mpr hlen)] at h
      obtain ⟨⟨f, rd1⟩, -, h⟩ := bind_eq_ok.mp h
      simp only at h
      split at h
      · cases h
        rfl
      · obtain ⟨s1, hs1, h⟩ := bind_eq_ok.mp h
        cases h
        rw [forwardData_out _ hs1]
  · have hne : (s.con.recv len).1 ≠ len := mt (recv_eq_iff _ _).mp hfull
    simp only [ne_eq, hne, not_false_eq_true, if_true]
    exact ⟨fun _ => Or.inr (Or.inl hfull), fun _ => .error (Nat.zero_le len) (by decide)⟩

/-- The flushing handler always keeps to the payload. -/
theorem recvFlush_ok : HandlerOk s len (recvFlush s len) := by
  unfold recvFlush
  obtain ⟨⟨ok, rd⟩, hm⟩ : ∃ x, s.rd.malloc = x := ⟨_, rfl⟩
  simp only [hm]
  by_cases hnull : (!ok) = true ∧ 0 < len
  · rw [if_pos hnull]
    exact .error (Nat.zero_le len) (by decide)
  rw [if_neg hnull]
  by_cases hfull : s.con.Has len
  · simp only [recv_full hfull, ne_eq, not_true_eq_false, if_false]
    refine .drop (Nat.zero_le len) hfull.1 fun ret s' h => ?_
    cases h
    rfl
  · have hne : (s.con.recv len).1 ≠ len := mt (recv_eq_iff _ _).mp hfull
    simp only [ne_eq, hne, not_false_eq_true, if_true]
    exact .error (Nat.zero_le len) (by decide)

/-- The count that the length of a packet without room for the static fields wraps around to. -/
def wrappedECt : UInt16 := 50972

/-- When the link-graph handler keeps to its payload: the payload has room for the static fields, or is
    never had, or it has room for a count, which is not the one that its length wraps around to. -/
def LinkGraphOk (s : Peer) (len : Nat) : Prop :=
  plLinkGraphStatic ≤ len ∨ ¬ s.mallocOk ∨ ¬ s.con.Has len ∨
    (2 ≤ len ∧ ntohs (u16OfBytes (s.con.bytes.take len)) ≠ wrappedECt)

/-- With room for the static fields the count is how many edges fit behind them. -/
theorem linkGraphECt_toNat (h : plLinkGraphStatic ≤ len) (hlen : len < 2 ^ 16) :
    (linkGraphECt len).toNat = (len - plLinkGraphStatic) / plEdge := by
  have hge : 14 ≤ len := h
  show (((UInt64.ofNat len - 14) / 36).toUInt16).toNat = (len - 14) / 36
  have hle : (14 : UInt64) ≤ UInt64.ofNat len := by
    rw [UInt64.le_iff_toNat_le, UInt64.toNat_ofNat']
    simp only [UInt64.reduceToNat]
    omega
  rw [UInt64.toNat_toUInt16, UInt64.toNat_div, UInt64.toNat_sub_of_le _ _ hle, UInt64.toNat_ofNat']
  simp only [UInt64.reduceToNat]
  omega

theorem linkGraphECt_fits (h : plLinkGraphStatic ≤ len) (hlen : len < 2 ^ 16) :
    plLinkGraphStatic + plEdge * (linkGraphECt len).toNat ≤ len := by
  have := Nat.mul_div_le (len - plLinkGraphStatic) plEdge
  rw [linkGraphECt_toNat h hlen]
  omega

/-- Without, it wraps around. -/
theorem linkGraphECt_wraps (h : len < plLinkGraphStatic) (h2 : 2 ≤ len) : linkGraphECt len = wrappedECt := by
  have hall : ∀ len < 14, 2 ≤ len → linkGraphECt len = wrappedECt := by decide
  exact hall len h h2

theorem dpReadPktLinkGraph_ok_iff (hlen : len < 2 ^ 16) :
    HandlerOk s len (dpReadPktLinkGraph q s len) ↔ LinkGraphOk s len := by
  unfold dpReadPktLinkGraph LinkGraphOk Peer.mallocOk
  obtain ⟨⟨ok, rd⟩, hm⟩ : ∃ x, s.rd.malloc = x := ⟨_, rfl⟩
  simp only [hm]
  cases ok with
  | false =>
      simp only [Bool.not_false, if_true]
      exact ⟨fun _ => Or.inr (Or.inl (by decide)), fun _ => .error (Nat.zero_le len) (by decide)⟩
  | true =>
      simp only [Bool.not_true, Bool.false_eq_true, if_false, not_true_eq_false, false_or]
      by_cases hfull : s.con.Has len
      · simp only [recv_full hfull, ne_eq, not_true_eq_false, if_false]
        by_cases h2 : len < 2
        · -- the count itself is beyond the payload
          rw [if_pos h2]
          constructor
          · exact fun h => absurd h.reads (Nat.not_le.mpr h2)
          · rintro (h | h | ⟨h, -⟩)
            · exact absurd (show 14 ≤ len from h) (by omega)
            · exact absurd hfull h
            · omega
        rw [if_neg h2]
        have h2 : 2 ≤ len := Nat.le_of_not_lt h2
        by_cases hect : linkGraphECt len = ntohs (u16OfBytes (s.con.bytes.take len))
        · simp only [hect, not_true_eq_false, if_false]
          by_cases hstatic : plLinkGraphStatic ≤ len
          · refine ⟨fun _ => Or.inl hstatic, fun _ => ?_⟩
            have hfits := linkGraphECt_fits hstatic hlen
            rw [hect] at hfits
            split
            · refine .drop h2 hfull.1 fun ret s' h => ?_
              obtain ⟨⟨r1, rd1⟩, -, h⟩ := bind_eq_ok.mp h
              cases h
              rfl
            · refine .drop hfits hfull.1 fun ret s' h => ?_
              rw [if_neg (Nat.not_lt.mpr hfits)] at h
              obtain ⟨⟨r1, rd1⟩, -, h⟩ := bind_eq_ok.mp h
              cases h
              rfl
          · -- the wrapped count leads beyond the payload
            have hwrap : ntohs (u16OfBytes (s.con.bytes.take len)) = wrappedECt :=
              hect ▸ linkGraphECt_wraps (Nat.lt_of_not_le hstatic) h2
            have hbig : ¬ plLinkGraphStatic + plEdge * wrappedECt.toNat ≤ len := by
              have : plLinkGraphStatic + plEdge * wrappedECt.toNat = 1835006 := rfl
              omega
            rw [hwrap, if_neg (by decide)]
            constructor
            · exact fun h => absurd h.reads hbig
            · rintro (h | h | ⟨-, h⟩)
              · exact absurd h hstatic
              · exact absurd hfull h
              · exact absurd rfl h
        · simp only [hect, not_false_eq_true, if_true]
          refine ⟨fun _ => ?_, fun _ => .error h2 (by decide)⟩
          by_cases hstatic : plLinkGraphStatic ≤ len
          · exact Or.inl hstatic
          · refine Or.inr (Or.inr ⟨h2, fun h => hect ?_⟩)
            rw [h, linkGraphECt_wraps (Nat.lt_of_not_le hstatic) h2]
      · have hne : (s.con.recv len).1 ≠ len := mt (recv_eq_iff _ _).mp hfull
        simp only [ne_eq, hne, not_false_eq_true, if_true]
        exact ⟨fun _ => Or.inr (Or.inl hfull),
          fun _ => .error (Nat.zero_le len) (by decide)⟩

/-- When a handler that reads two bytes from the connection keeps to its payload: where there are two, the
    payload has room for them, and is no longer unless the handler fails. -/
def ProbeOk (s : Peer) (len : Nat) (fails : Prop) : Prop :=
  (s.con.bytes.length < 2 ∧ s.con.bytes.length ≤ len) ∨
    (2 ≤ s.con.bytes.length ∧ 2 ≤ len ∧ (len = 2 ∨ fails))

/-- **A handler that reads two bytes from the connection**, whatever the payload's length. -/
theorem probe_ok_iff {out : Nat × Ub (Int × Peer)} {fails : Prop}
    (hshort : s.con.bytes.length < 2 → ∃ ret s', ret ≠ 0 ∧ out = (s.con.bytes.length, .ok (ret, s')))
    (hfull : 2 ≤ s.con.bytes.length → out.1 = 2 ∧
      (∀ s', out.2 = .ok (0, s') → s'.con.bytes = s.con.bytes.drop 2) ∧
      (fails ↔ ∀ s', out.2 ≠ .ok (0, s'))) :
    HandlerOk s len out ↔ ProbeOk s len fails := by
  by_cases h2 : 2 ≤ s.con.bytes.length
  · obtain ⟨hreach, hcon, hfails⟩ := hfull h2
    constructor
    · intro h
      have hle : 2 ≤ len := hreach ▸ h.reads
      refine Or.inr ⟨h2, hle, ?_⟩
      -- a call that returned `0` has taken two bytes of a payload of `len`
      by_cases hf : fails
      · exact Or.inr hf
      · left
        rw [hfails] at hf
        push Not at hf
        obtain ⟨s', hs'⟩ := hf
        obtain ⟨hlen, hdrop⟩ := h.consumes s' hs'
        rw [hcon s' hs'] at hdrop
        have := congrArg List.length hdrop
        rw [List.length_drop, List.length_drop] at this
        omega
    · rintro (⟨h, -⟩ | ⟨-, hle, hor⟩)
      · omega
      · refine ⟨hreach ▸ hle, fun s' hs' => ?_⟩
        rcases hor with rfl | hf
        · exact ⟨h2, hcon s' hs'⟩
        · exact absurd hs' (hfails.mp hf s')
  · obtain ⟨ret, s', hret, rfl⟩ := hshort (Nat.lt_of_not_le h2)
    constructor
    · exact fun h => Or.inl ⟨Nat.lt_of_not_le h2, h.reads⟩
    · rintro (⟨-, h⟩ | ⟨h, -⟩)
      · exact .error h hret
      · exact absurd h h2

/-- The response to a probe request cannot be sent. -/
def ResponseFails (me : Nat) (s : Peer) : Prop :=
  (dpSendPacket (s.out me) ptProbeResp (UInt16.ofNat plProbeResp)
    (u16Bytes (u16OfBytes (s.con.bytes.take 2)))).1 ≠ 0

theorem dpHandleProbeReq_ok_iff :
    HandlerOk s len (dpHandleProbeReq me s) ↔ ProbeOk s len (ResponseFails me s) := by
  refine probe_ok_iff (fun h => ?_) (fun h => ?_)
  · have hne : (s.con.recv plProbeReq).1 ≠ plProbeReq :=
      mt (recv_two_iff _).mp (Nat.not_le.mpr h)
    refine ⟨-1, { s with con := (s.con.recv plProbeReq).2.2 }, by decide, ?_⟩
    simp only [dpHandleProbeReq, ne_eq, hne, not_false_eq_true, if_true, Prod.mk.injEq, and_true]
    rw [recv_length]
    exact Nat.min_eq_right (Nat.le_of_lt h)
  · have hrecv : s.con.recv plProbeReq = (2, s.con.bytes.take 2, _) := recv_full (Incoming.has_of_pos (by decide) h)
    unfold dpHandleProbeReq
    rw [hrecv]
    refine ⟨by simp only [List.length_take]; omega, ?_⟩
    simp only [show ¬ (2 : Int) ≠ (plProbeReq : Nat) from by decide, if_false, Peer.sendPacket,
      Except.ok.injEq, Prod.mk.injEq]
    refine ⟨fun s' hs' => ?_, ?_⟩
    · rw [← hs'.2]
      rfl
    · unfold ResponseFails
      exact ⟨fun h0 s' hs' => h0 (Except.ok.inj hs' |> congrArg Prod.fst), fun h0 hr => h0 _ (by rw [hr])⟩

/-- The response answers the outstanding probe, and the link it measures cannot be added. -/
def AddLinkFails (q : Qsort) (me : Nat) (now later : Timeval) (s : Peer) : Prop :=
  u16OfBytes (s.con.bytes.take 2) = s.probeSeq ∧
    ∀ rd, s.rd.rtDhostAddLink q s.env (.env (.dp me)) (tvUs (timersub now s.probeSendTime)) later
      ≠ .ok (0, rd)

theorem dpHandleProbeResp_ok_iff :
    HandlerOk s len (dpHandleProbeResp q me now later s) ↔ ProbeOk s len (AddLinkFails q me now later s) := by
  refine probe_ok_iff (fun h => ?_) (fun h => ?_)
  · have hne : (s.con.recv plProbeResp).1 ≠ plProbeReq :=
      mt (recv_two_iff _).mp (Nat.not_le.mpr h)
    refine ⟨-1, { s with con := (s.con.recv plProbeResp).2.2 }, by decide, ?_⟩
    simp only [dpHandleProbeResp, ne_eq, hne, not_false_eq_true, if_true, Prod.mk.injEq, and_true]
    rw [recv_length]
    exact Nat.min_eq_right (Nat.le_of_lt h)
  · have hrecv : s.con.recv plProbeResp = (2, s.con.bytes.take 2, _) := recv_full (Incoming.has_of_pos (by decide) h)
    unfold dpHandleProbeResp
    rw [hrecv]
    refine ⟨by simp only [List.length_take]; omega, ?_⟩
    simp only [show ¬ (2 : Int) ≠ (plProbeReq : Nat) from by decide, if_false]
    unfold AddLinkFails
    -- only the number of the last probe gets as far as `rt_dhost_add_link`
    by_cases hseq : u16OfBytes (s.con.bytes.take 2) = s.probeSeq
    · simp only [hseq, if_true, true_and]
      refine ⟨fun s' hs' => ?_, ?_⟩
      · obtain ⟨⟨ret, rd⟩, -, h⟩ := bind_eq_ok.mp hs'
        cases h
        rfl
      · constructor
        · intro h0 s' hs'
          obtain ⟨⟨ret, rd⟩, hrd, h⟩ := bind_eq_ok.mp hs'
          cases h
          exact h0 rd hrd
        · intro h0 rd hrd
          refine h0 _ (bind_eq_ok.mpr ⟨(0, rd), hrd, rfl⟩)
    · simp only [hseq, if_false, false_and, false_iff]
      refine ⟨fun s' hs' => ?_, fun h0 => h0 _ rfl⟩
      cases hs'
      rfl

/-! ## The call -/

/-- When the handler of the packet's type keeps to its payload. -/
def HandlerFits (q : Qsort) (me : Nat) (now later : Timeval) (s : Peer) (type : PktType) (len : Nat) : Prop :=
  if type = ptData then DataOk s len
  else if type = ptLinkGraph then LinkGraphOk s len
  else if type = ptProbeReq then ProbeOk s len (ResponseFails me s)
  else if type = ptProbeResp then ProbeOk s len (AddLinkFails q me now later s)
  else True

theorem dispatch_ok_iff (q : Qsort) (me : Nat) (now later : Timeval) (s : Peer) (type : PktType)
    (hlen : len < 2 ^ 16) :
    HandlerOk s len (dispatch q me now later s type len) ↔ HandlerFits q me now later s type len := by
  unfold dispatch HandlerFits
  by_cases hdata : type = ptData
  · simp only [hdata, if_true]
    exact recvData_ok_iff
  by_cases hgraph : type = ptLinkGraph
  · subst hgraph
    simp only [hdata, if_false, if_true]
    exact dpReadPktLinkGraph_ok_iff hlen
  simp only [hdata, hgraph, if_false]
  by_cases hjoin : type = ptJoinPart
  · subst hjoin
    simp only [if_true, show ¬ ptJoinPart = ptProbeReq by decide, show ¬ ptJoinPart = ptProbeResp by decide,
      if_false, iff_true]
    exact recvFlush_ok
  by_cases hquit : type = ptQuit
  · subst hquit
    simp only [if_true, hjoin, show ¬ ptQuit = ptProbeReq by decide, show ¬ ptQuit = ptProbeResp by decide,
      if_false, iff_true]
    exact recvFlush_ok
  simp only [hjoin, hquit, if_false]
  -- the two probes, and whatever is flushed
  split
  · exact dpHandleProbeReq_ok_iff
  · split
    · exact dpHandleProbeResp_ok_iff
    · exact ⟨fun _ => trivial, fun _ => recvFlush_ok⟩

/-- When a call stays aligned and in bounds: no header is had, or the handler keeps to its payload. -/
def StaysAligned (q : Qsort) (me : Nat) (now later : Timeval) (s : Peer) : Prop :=
  ∀ type len con, dpRecvHeader s.con = (0, some (type, len), con) →
    HandlerFits q me now later { s with con := con } type len.toNat

/-- **A call of `dp_recv_packet` stays aligned and in bounds exactly if** the handler of the packet's type
    fits the payload. -/
theorem dpRecvPacket_aligned_iff (q : Qsort) (me : Nat) (now later : Timeval) (s : Peer) :
    Aligned s (dpRecvPacket q me now later s) ↔ StaysAligned q me now later s := by
  obtain ⟨⟨r, header, con⟩, hh⟩ : ∃ x, dpRecvHeader s.con = x := ⟨_, rfl⟩
  unfold dpRecvPacket StaysAligned
  cases header with
  | none =>
      simp only [hh]
      constructor
      · exact fun _ _ _ _ h => by cases h
      · intro _
        refine ⟨fun _ _ _ h => ?_, fun s' h => ?_⟩
        · rw [hh] at h
          cases h
        · cases h
          exact absurd rfl (dpRecvHeader_none hh)
  | some header =>
      obtain ⟨type, len⟩ := header
      obtain ⟨rfl, hle, hcon⟩ := dpRecvHeader_some hh
      have hok := dispatch_ok_iff q me now later { s with con := con } type len.toNat_lt
      simp only [hh]
      -- the header that was read is the only one to be considered
      have hfits : (∀ t l c, ((0 : Int), some (type, len), con) = (0, some (t, l), c) →
          HandlerFits q me now later { s with con := c } t l.toNat) ↔
          HandlerFits q me now later { s with con := con } type len.toNat := by
        constructor
        · exact fun h => h type len con rfl
        · rintro h _ _ _ ⟨⟩
          exact h
      rw [hfits, ← hok]
      have hlen : con.bytes.length = s.con.bytes.length - plHeader := by rw [hcon, List.length_drop]
      have hdrop : con.bytes.drop len.toNat = s.con.bytes.drop (plHeader + len.toNat) := by
        rw [hcon, List.drop_drop]
      constructor
      · intro h
        refine ⟨h.reads type len con hh, fun s' hs' => ?_⟩
        obtain ⟨t, l, c, hh', hle', hdrop'⟩ := h.consumes s' hs'
        rw [hh] at hh'
        cases hh'
        refine ⟨?_, hdrop'.trans hdrop.symm⟩
        show len.toNat ≤ con.bytes.length
        omega
      · intro h
        refine ⟨fun t l c hh' => ?_, fun s' hs' => ?_⟩
        · rw [hh] at hh'
          cases hh'
          exact h.reads
        · obtain ⟨hle', hdrop'⟩ := h.consumes s' hs'
          have hle' : len.toNat ≤ con.bytes.length := hle'
          exact ⟨type, len, con, hh, by omega, hdrop'.trans hdrop⟩

/-- A peer that has just started, with `bytes` on its connection. -/
def samplePeer (bytes : List UInt8) : Peer where
  env := fun _ => none
  rd := (Routing.rtInit []).2
  con := ⟨bytes, false⟩
  out := fun _ => ⟨[], []⟩
  probeSeq := 0
  probeSendTime := ⟨0, 0⟩
  rttUs := 0
  attempts := []

/-- A probe request that announces four bytes of payload, and has them. -/
def longProbe : List UInt8 := headerBytes ptProbeReq 4 ++ [7, 8, 9, 10]

/-- **A probe request with four bytes of payload leaves two of them on the connection**, where the next
    header is expected. -/
theorem longProbe_misaligned :
    (∃ s', (dpRecvPacket .insertion 0 ⟨0, 0⟩ ⟨0, 0⟩ (samplePeer longProbe)).2 = .ok (0, s') ∧
      s'.con.bytes = [9, 10]) ∧
    ¬ Aligned (samplePeer longProbe) (dpRecvPacket .insertion 0 ⟨0, 0⟩ ⟨0, 0⟩ (samplePeer longProbe)) := by
  have hh : dpRecvHeader (samplePeer longProbe).con = (0, some (ptProbeReq, 4), ⟨[7, 8, 9, 10], false⟩) :=
    dpRecvHeader_append ptProbeReq 4 [7, 8, 9, 10] false
  have hrun : ∃ s', (dpRecvPacket .insertion 0 ⟨0, 0⟩ ⟨0, 0⟩ (samplePeer longProbe)).2 = .ok (0, s') ∧
      s'.con.bytes = [9, 10] := by
    unfold dpRecvPacket
    rw [hh]
    exact ⟨_, rfl, rfl⟩
  refine ⟨hrun, fun h => ?_⟩
  obtain ⟨s', hs', hbytes⟩ := hrun
  obtain ⟨type, len, con, hh', -, hdrop⟩ := h.consumes s' hs'
  rw [hh] at hh'
  cases hh'
  rw [hbytes] at hdrop
  exact absurd hdrop (by decide)

end P2pVn
