import P2pVn.Pkt

/-!
# `DPeer.Sending` — writing packets to a peer (`dpeer.c`)

Every `send` may accept fewer bytes than it is offered; `dp_psend_data` repeats it until all are out. A
`SendScript` says what the calls to come will do. The write lock, which is held from a packet's header to its
last byte and keeps the packets of several threads apart, is not part of the model.

- `psendLoop_ok`: without errors everything is written, in order, however the bytes are split up.
- `dpSendPacket_ok`, `dpSendLinkstate_ok`: the bytes that each kind of packet puts on the stream.
-/

namespace P2pVn
open Bytes

/-! ## The connection, outgoing -/

/-- What the calls of `send` to come will do: `some n` accepts `n` bytes (all, where there are fewer) and
    `none` is an error. Beyond the script, everything is accepted at once. -/
abbrev SendScript := List (Option Nat)

/-- The bytes on the stream so far, and what `send` will do. -/
structure Outgoing where
  sent : List UInt8
  sends : SendScript

/-- The loop of `dp_psend_data`, with `rem` still to be sent. -/
def psendLoop : SendScript → List UInt8 → List UInt8 → Int × Outgoing
  | [], sent, rem => (0, ⟨sent ++ rem, []⟩)
  | none :: sends, sent, _ => (-1, ⟨sent, sends⟩)
  | some n :: sends, sent, rem =>
    if 0 < (rem.drop n).length then psendLoop sends (sent ++ rem.take n) (rem.drop n)
    else (0, ⟨sent ++ rem.take n, sends⟩)

/-- `dp_psend_data`. -/
def dpPsendData (o : Outgoing) (data : List UInt8) : Int × Outgoing := psendLoop o.sends o.sent data

/-- `dp_psend_start`; `data` is `none` for a null pointer. -/
def dpPsendStart (o : Outgoing) (type : PktType) (len : UInt16) (data : Option (List UInt8)) :
    Int × Outgoing :=
  let (ret, o) := dpPsendData o (PktHeader.bytes ⟨htons type, htons len⟩)
  if ret < 0 then (ret, o)
  else
    match data with
    | none => (0, o)
    | some data =>
      let (ret, o) := dpPsendData o data
      if ret < 0 then (ret, o) else (0, o)

/-- `dp_send_packet`, which sends the first `len` bytes that `data` points to. -/
def dpSendPacket (o : Outgoing) (type : PktType) (len : UInt16) (data : List UInt8) : Int × Outgoing :=
  dpPsendStart o type len (some (data.take len.toNat))

/-- `dp_send_data`. -/
def dpSendData (o : Outgoing) (data : List UInt8) (len : Nat) : Int × Outgoing :=
  dpSendPacket o ptData (UInt16.ofNat len) data

/-! ## The packets -/

/-- The `joining_host` that `dp_send_join` fills in, byte by byte from the local address. -/
def joiningHost (myMac : EtherAddr) (sai : SockaddrIn) : PktIpv4Host where
  ip := sai.sinAddr
  port := sai.sinPort
  mac := myMac

/-- `dp_send_join`. -/
def dpSendJoin (o : Outgoing) (myMac : EtherAddr) (sai : SockaddrIn) : Int × Outgoing :=
  dpSendPacket o ptJoin (UInt16.ofNat plJoin) (joiningHost myMac sai).bytes

/-- The fields of `struct pkt_link_graph` before the edges. -/
def linkGraphStatic (me : Ipv4Host) (eCt : Nat) : List UInt8 :=
  u16Bytes (htons (UInt16.ofNat eCt)) ++ (pktIpv4Pack me).bytes

/-- `dp_send_linkstate`. The length is computed as a `size_t` and passed on as a `uint16_t`. -/
def dpSendLinkstate (o : Outgoing) (me : Ipv4Host) (edges : List PktEdge) : Int × Outgoing :=
  let len := plEdge * edges.length + plLinkGraphStatic
  let (ret, o) := dpPsendStart o ptLinkGraph (UInt16.ofNat len) (some (linkGraphStatic me edges.length))
  if ret < 0 then (-1, o)
  else
    let (ret, o) := dpPsendData o (edges.flatMap PktEdge.bytes)
    if ret < 0 then (-2, o) else (0, o)

/-- The static fields have the size that the header counts for them. -/
theorem length_linkGraphStatic (me : Ipv4Host) (eCt : Nat) :
    (linkGraphStatic me eCt).length = plLinkGraphStatic := by
  simp [linkGraphStatic, plLinkGraphStatic]

theorem length_edgeBytes (edges : List PktEdge) :
    (edges.flatMap PktEdge.bytes).length = plEdge * edges.length := by
  induction edges with
  | nil => rfl
  | cons e es ih =>
      rw [List.flatMap_cons, List.length_append, ih, PktEdge.length_bytes, List.length_cons, Nat.mul_succ,
        Nat.add_comm]

/-! ## What is written -/

/-- No call of `send` fails. -/
def NoErrors (sends : SendScript) : Prop := none ∉ sends

/-- **However `send` splits them up, all bytes are written, in order.** -/
theorem psendLoop_ok {sends : SendScript} (h : NoErrors sends) : ∀ (sent rem : List UInt8),
    ∃ sends', NoErrors sends' ∧ psendLoop sends sent rem = (0, ⟨sent ++ rem, sends'⟩) := by
  induction sends with
  | nil => exact fun _ _ => ⟨[], nofun, rfl⟩
  | cons x sends ih =>
      intro sent rem
      have hrest : NoErrors sends := fun hm => h (List.mem_cons_of_mem x hm)
      cases x with
      | none => exact absurd List.mem_cons_self h
      | some n =>
          unfold psendLoop
          by_cases hrem : 0 < (rem.drop n).length
          · rw [if_pos hrem]
            obtain ⟨sends', h', hrun⟩ := ih hrest (sent ++ rem.take n) (rem.drop n)
            refine ⟨sends', h', ?_⟩
            rw [hrun, List.append_assoc, List.take_append_drop]
          · rw [if_neg hrem]
            have hall : rem.take n = rem := by
              rw [List.length_drop] at hrem
              exact List.take_of_length_le (by omega)
            exact ⟨sends, hrest, by rw [hall]⟩

/-- Without errors all bytes are sent, however many calls of `send` it takes. -/
theorem dpPsendData_ok {o : Outgoing} (h : NoErrors o.sends) (data : List UInt8) :
    ∃ sends', NoErrors sends' ∧ dpPsendData o data = (0, ⟨o.sent ++ data, sends'⟩) :=
  psendLoop_ok h _ _

/-- The header, and what goes with it. -/
theorem dpPsendStart_ok {o : Outgoing} (h : NoErrors o.sends) (type : PktType) (len : UInt16)
    (data : List UInt8) :
    ∃ sends', NoErrors sends' ∧ dpPsendStart o type len (some data)
      = (0, ⟨o.sent ++ (PktHeader.bytes ⟨htons type, htons len⟩ ++ data), sends'⟩) := by
  obtain ⟨sends1, h1, hrun1⟩ := dpPsendData_ok h (PktHeader.bytes ⟨htons type, htons len⟩)
  obtain ⟨sends2, h2, hrun2⟩ := dpPsendData_ok
    (o := ⟨o.sent ++ PktHeader.bytes ⟨htons type, htons len⟩, sends1⟩) h1 data
  refine ⟨sends2, h2, ?_⟩
  simp only [dpPsendStart, hrun1, hrun2, List.append_assoc, Int.lt_irrefl, if_false]

/-- A whole packet: the header, and as much of the data as it says. -/
theorem dpSendPacket_ok {o : Outgoing} (h : NoErrors o.sends) (type : PktType) (len : UInt16)
    (data : List UInt8) :
    ∃ sends', NoErrors sends' ∧ dpSendPacket o type len data
      = (0, ⟨o.sent ++ (PktHeader.bytes ⟨htons type, htons len⟩ ++ data.take len.toNat), sends'⟩) :=
  dpPsendStart_ok h type len _

/-- A link state: the count in the header is that of the edges modulo `2 ^ 16`, but all edges are sent. -/
theorem dpSendLinkstate_ok {o : Outgoing} (h : NoErrors o.sends) (me : Ipv4Host) (edges : List PktEdge) :
    ∃ sends', NoErrors sends' ∧ dpSendLinkstate o me edges
      = (0, ⟨o.sent ++ (PktHeader.bytes ⟨htons ptLinkGraph,
          htons (UInt16.ofNat (plEdge * edges.length + plLinkGraphStatic))⟩ ++
          (linkGraphStatic me edges.length ++ edges.flatMap PktEdge.bytes)), sends'⟩) := by
  obtain ⟨sends1, h1, hrun1⟩ := dpPsendStart_ok h ptLinkGraph
    (UInt16.ofNat (plEdge * edges.length + plLinkGraphStatic)) (linkGraphStatic me edges.length)
  obtain ⟨sends2, h2, hrun2⟩ := dpPsendData_ok (o := ⟨_, sends1⟩) h1 (edges.flatMap PktEdge.bytes)
  refine ⟨sends2, h2, ?_⟩
  simp only [dpSendLinkstate, hrun1, Int.lt_irrefl, if_false]
  rw [hrun2]
  simp only [List.append_assoc, Int.lt_irrefl, if_false]

end P2pVn
