import P2pVn.DPeer.Receiving

/-!
# `DPeer.Framing` — from the packets one side writes to those the other side reads

A `Write` is a call of `dp_send_packet` or `dp_send_linkstate`. The reader takes a header with
`dp_recv_header` and then as many bytes as it says.

- **Step.** `Write.send_ok`: a call puts its header and its payload on the stream, and
  `parseStream_frame`: a header that names the length of its payload is read back.
- **Run.** `writeAll_ok` and `parseStream_frames`, by induction over the calls.
- `delivered_iff`: the packets arrive as they were sent exactly if no link-state packet has more than `1820`
  edges, which is what a 16-bit length has room for.
-/

namespace P2pVn
open Bytes

/-! ## Writing -/

/-- A call that writes one packet. -/
inductive Write where
  | packet (type : PktType) (data : List UInt8)
  | linkstate (edges : List PktEdge)

namespace Write

variable (me : Ipv4Host)

/-- The call. -/
def send (o : Outgoing) : Write → Int × Outgoing
  | packet type data => dpSendPacket o type (UInt16.ofNat data.length) data
  | linkstate edges => dpSendLinkstate o me edges

/-- The type of the packet. -/
def type : Write → PktType
  | packet type _ => type
  | linkstate _ => ptLinkGraph

/-- The payload that is to arrive. -/
def payload : Write → List UInt8
  | packet _ data => data
  | linkstate edges => linkGraphStatic me edges.length ++ edges.flatMap PktEdge.bytes

/-- The bytes that the call puts on a stream. -/
def frame (w : Write) : List UInt8 := (w.send me ⟨[], []⟩).2.sent

/-- A packet of `dp_send_packet` has a 16-bit length. -/
def Sized : Write → Prop
  | packet _ data => data.length < 2 ^ 16
  | linkstate _ => True

end Write

/-- The calls of a list, until one fails. -/
def writeAll (me : Ipv4Host) : List Write → Outgoing → Int × Outgoing
  | [], o => (0, o)
  | w :: ws, o =>
    let (ret, o) := w.send me o
    if ret < 0 then (ret, o) else writeAll me ws o

/-! ## Reading -/

/-- A header, then its payload, as long as the stream has them; `fuel` bounds the number of packets. -/
def parseStream : Nat → List UInt8 → List (PktType × List UInt8) × List UInt8
  | 0, bs => ([], bs)
  | fuel + 1, bs =>
    match dpRecvHeader ⟨bs, false⟩ with
    | (_, none, _) => ([], bs)
    | (_, some (type, len), i) =>
      if len.toNat ≤ i.bytes.length then
        ((type, i.bytes.take len.toNat) :: (parseStream fuel (i.bytes.drop len.toNat)).1,
          (parseStream fuel (i.bytes.drop len.toNat)).2)
      else ([], bs)

/-- The packets of a stream, and what is left of it. A packet takes four bytes at least. -/
def parse (bs : List UInt8) : List (PktType × List UInt8) × List UInt8 := parseStream bs.length bs

/-! ## One packet -/

/-- The bytes of a header. -/
def headerBytes (type : PktType) (len : UInt16) : List UInt8 := PktHeader.bytes ⟨htons type, htons len⟩

theorem length_headerBytes (type : PktType) (len : UInt16) : (headerBytes type len).length = plHeader :=
  PktHeader.length_bytes _

/-- **A header is read as it was written.** -/
theorem dpRecvHeader_append (type : PktType) (len : UInt16) (bs : List UInt8) (broken : Bool) :
    dpRecvHeader ⟨headerBytes type len ++ bs, broken⟩ = (0, some (type, len), ⟨bs, broken⟩) := by
  have hload : PktHeader.ofBytes (headerBytes type len) = ⟨htons type, htons len⟩ := by
    have := PktHeader.ofBytes_append ⟨htons type, htons len⟩ []
    rwa [List.append_nil] at this
  unfold dpRecvHeader
  rw [recv_append (length_headerBytes type len) (by decide)]
  simp only [hload, show ntohs (htons type) = type from ntohs_htons type,
    show ntohs (htons len) = len from ntohs_htons len]
  rfl

/-- **A packet whose header names the length of its payload is read back.** -/
theorem parseStream_frame (fuel : Nat) (type : PktType) {len : UInt16} {payload : List UInt8}
    (hlen : len.toNat = payload.length) (bs : List UInt8) :
    parseStream (fuel + 1) (headerBytes type len ++ (payload ++ bs))
      = ((type, payload) :: (parseStream fuel bs).1, (parseStream fuel bs).2) := by
  rw [parseStream, dpRecvHeader_append]
  simp only [hlen, List.length_append, Nat.le_add_right, if_true, List.take_left, List.drop_left]

theorem length_linkstate (me : Ipv4Host) (edges : List PktEdge) :
    (Write.payload me (.linkstate edges)).length = plEdge * edges.length + plLinkGraphStatic := by
  simp only [Write.payload, List.length_append, length_linkGraphStatic, length_edgeBytes]
  omega

/-- What a call writes: the header's length field is the payload's length, up to 16 bits. -/
theorem Write.send_ok (me : Ipv4Host) {w : Write} (hw : w.Sized) {o : Outgoing} (h : NoErrors o.sends) :
    ∃ sends', NoErrors sends' ∧ w.send me o
      = (0, ⟨o.sent ++ (headerBytes w.type (UInt16.ofNat (w.payload me).length) ++ w.payload me), sends'⟩) := by
  cases w with
  | packet type data =>
      obtain ⟨sends', h', hrun⟩ := dpSendPacket_ok h type (UInt16.ofNat data.length) data
      have hlen : (UInt16.ofNat data.length).toNat = data.length := UInt16.toNat_ofNat_of_lt' hw
      rw [hlen, List.take_length] at hrun
      exact ⟨sends', h', hrun⟩
  | linkstate edges =>
      obtain ⟨sends', h', hrun⟩ := dpSendLinkstate_ok h me edges
      refine ⟨sends', h', ?_⟩
      rw [length_linkstate]
      exact hrun

theorem Write.frame_eq (me : Ipv4Host) {w : Write} (hw : w.Sized) :
    w.frame me = headerBytes w.type (UInt16.ofNat (w.payload me).length) ++ w.payload me := by
  obtain ⟨sends', -, hrun⟩ := Write.send_ok me hw (o := ⟨[], []⟩) (show NoErrors [] from nofun)
  rw [Write.frame, hrun]
  rfl

/-! ## A run of packets -/

/-- **Run lemma.** However `send` splits the bytes up, the stream holds the frames one after the other. -/
theorem writeAll_ok (me : Ipv4Host) : ∀ (ws : List Write) {o : Outgoing}, (∀ w ∈ ws, w.Sized) →
    NoErrors o.sends → ∃ sends', NoErrors sends' ∧
      writeAll me ws o = (0, ⟨o.sent ++ ws.flatMap (Write.frame me), sends'⟩) := by
  intro ws
  induction ws with
  | nil =>
      intro o _ h
      exact ⟨o.sends, h, by simp [writeAll]⟩
  | cons w ws ih =>
      intro o hws h
      obtain ⟨sends1, h1, hrun1⟩ := Write.send_ok me (hws w List.mem_cons_self) h
      rw [← Write.frame_eq me (hws w List.mem_cons_self)] at hrun1
      obtain ⟨sends2, h2, hrun2⟩ := ih (o := ⟨o.sent ++ w.frame me, sends1⟩)
        (fun w' hw' => hws w' (List.mem_cons_of_mem w hw')) h1
      refine ⟨sends2, h2, ?_⟩
      simp only [writeAll, hrun1, Int.lt_irrefl, if_false, hrun2, List.flatMap_cons, List.append_assoc]

/-- The payload's length fits into the header. -/
def Write.Fits (me : Ipv4Host) (w : Write) : Prop := (w.payload me).length < 2 ^ 16

/-- **Run lemma.** Frames of packets that fit are read back one after the other. -/
theorem parseStream_frames (me : Ipv4Host) : ∀ (ws : List Write) (fuel : Nat), (∀ w ∈ ws, w.Sized) →
    (∀ w ∈ ws, w.Fits me) → ws.length ≤ fuel →
    parseStream fuel (ws.flatMap (Write.frame me)) = (ws.map fun w => (w.type, w.payload me), []) := by
  intro ws
  induction ws with
  | nil =>
      intro fuel _ _ _
      cases fuel with
      | zero => rfl
      | succ fuel => rfl
  | cons w ws ih =>
      intro fuel hsized hfits hfuel
      obtain ⟨fuel, rfl⟩ : ∃ f, fuel = f + 1 := ⟨fuel - 1, by simp at hfuel; omega⟩
      have hlen : (UInt16.ofNat (w.payload me).length).toNat = (w.payload me).length :=
        UInt16.toNat_ofNat_of_lt' (hfits w List.mem_cons_self)
      rw [List.flatMap_cons, Write.frame_eq me (hsized w List.mem_cons_self), List.append_assoc,
        parseStream_frame fuel _ hlen,
        ih fuel (fun w' hw' => hsized w' (List.mem_cons_of_mem w hw'))
          (fun w' hw' => hfits w' (List.mem_cons_of_mem w hw')) (by simp at hfuel; omega)]
      rfl

theorem length_frames (me : Ipv4Host) : ∀ (ws : List Write), (∀ w ∈ ws, w.Sized) →
    ws.length ≤ (ws.flatMap (Write.frame me)).length := by
  intro ws
  induction ws with
  | nil => exact fun _ => Nat.le_refl 0
  | cons w ws ih =>
      intro hsized
      have hw := ih fun w' hw' => hsized w' (List.mem_cons_of_mem w hw')
      have hframe : plHeader ≤ (w.frame me).length := by
        rw [Write.frame_eq me (hsized w List.mem_cons_self), List.length_append, length_headerBytes]
        exact Nat.le_add_right _ _
      rw [List.flatMap_cons, List.length_append, List.length_cons]
      unfold plHeader at hframe
      omega

/-! ## Delivery -/

/-- The writes all succeed, what arrives is what was sent and nothing else, every header names the number of
    bytes that follow it, and every link-state packet the number of its edges. -/
structure Delivered (me : Ipv4Host) (ws : List Write) (sends : SendScript) : Prop where
  ret : (writeAll me ws ⟨[], sends⟩).1 = 0
  parsed : parse (writeAll me ws ⟨[], sends⟩).2.sent = (ws.map fun w => (w.type, w.payload me), [])
  length : ∀ w ∈ ws, (ntohs (PktHeader.ofBytes (w.frame me)).len).toNat + plHeader = (w.frame me).length
  edgeCt : ∀ edges, .linkstate edges ∈ ws →
    (ntohs (u16OfBytes ((Write.frame me (.linkstate edges)).drop plHeader))).toNat = edges.length

theorem frame_header (me : Ipv4Host) {w : Write} (hw : w.Sized) :
    ntohs (PktHeader.ofBytes (w.frame me)).len = UInt16.ofNat (w.payload me).length := by
  rw [Write.frame_eq me hw, headerBytes, PktHeader.ofBytes_append]
  exact ntohs_htons _

theorem frame_edgeCt (me : Ipv4Host) (edges : List PktEdge) :
    ntohs (u16OfBytes ((Write.frame me (.linkstate edges)).drop plHeader)) = UInt16.ofNat edges.length := by
  have hw : (Write.linkstate edges).Sized := trivial
  rw [Write.frame_eq me hw, List.drop_left' (length_headerBytes _ _), Write.payload, linkGraphStatic,
    List.append_assoc, u16OfBytes_append]
  exact ntohs_htons _

/-- A link-state packet fits if it has at most `1820` edges. -/
theorem fits_linkstate (me : Ipv4Host) (edges : List PktEdge) :
    Write.Fits me (.linkstate edges) ↔ edges.length ≤ 1820 := by
  rw [Write.Fits, length_linkstate]
  simp only [plEdge, plHost, plLinkGraphStatic]
  omega

theorem delivered_of_fits (me : Ipv4Host) {ws : List Write} (hsized : ∀ w ∈ ws, w.Sized)
    (hfits : ∀ w ∈ ws, w.Fits me) {sends : SendScript} (h : NoErrors sends) : Delivered me ws sends := by
  obtain ⟨sends', -, hrun⟩ := writeAll_ok me ws (o := ⟨[], sends⟩) hsized h
  refine ⟨by rw [hrun], ?_, fun w hw => ?_, fun edges hmem => ?_⟩
  · rw [hrun]
    exact parseStream_frames me ws _ hsized hfits (length_frames me ws hsized)
  · rw [frame_header me (hsized w hw), UInt16.toNat_ofNat_of_lt' (hfits w hw),
      Write.frame_eq me (hsized w hw), List.length_append, length_headerBytes, Nat.add_comm]
  · have hlt : edges.length ≤ 1820 := (fits_linkstate me edges).mp (hfits _ hmem)
    rw [frame_edgeCt]
    exact UInt16.toNat_ofNat_of_lt' (Nat.lt_of_le_of_lt hlt (by decide))

/-- A packet that does not fit has a header that does not name its length. -/
theorem fits_of_header (me : Ipv4Host) {w : Write} (hw : w.Sized)
    (h : (ntohs (PktHeader.ofBytes (w.frame me)).len).toNat + plHeader = (w.frame me).length) :
    w.Fits me := by
  rw [frame_header me hw, Write.frame_eq me hw, List.length_append, length_headerBytes] at h
  have hlt := (UInt16.ofNat (w.payload me).length).toNat_lt
  unfold Write.Fits
  omega

/-- **Packets arrive as they were sent, however `send` splits them up, exactly if** no link-state packet has
    more than `1820` edges. -/
theorem delivered_iff (me : Ipv4Host) (ws : List Write) (hsized : ∀ w ∈ ws, w.Sized) :
    (∀ sends, NoErrors sends → Delivered me ws sends) ↔
      ∀ edges, .linkstate edges ∈ ws → edges.length ≤ 1820 := by
  constructor
  · intro h edges hmem
    have hd := h [] nofun
    exact (fits_linkstate me edges).mp (fits_of_header me (hsized _ hmem) (hd.length _ hmem))
  · intro h sends hs
    refine delivered_of_fits me hsized (fun w hw => ?_) hs
    cases w with
    | packet type data => exact hsized _ hw
    | linkstate edges => exact (fits_linkstate me edges).mpr (h edges hw)

/-- The sender `10.0.0.1`, port `1234`. -/
def sampleHost : Ipv4Host := ⟨⟨#v[2, 0, 0, 0, 0, 1]⟩, ⟨afInet, 0xd204, 0x0100000a⟩⟩

/-- A data packet of two bytes, and a link-state packet without edges. -/
def sampleWrites : List Write := [.packet ptData [1, 2], .linkstate []]

theorem delivered_iff_sample :
    (∀ sends, NoErrors sends → Delivered sampleHost sampleWrites sends) ↔
      ∀ edges, .linkstate edges ∈ sampleWrites → edges.length ≤ 1820 :=
  delivered_iff sampleHost sampleWrites (by
    intro w hw
    simp only [sampleWrites, List.mem_cons, List.not_mem_nil, or_false] at hw
    rcases hw with rfl | rfl
    · show 2 < 2 ^ 16
      decide
    · exact trivial)

/-- The smallest number of edges that is too many. -/
def tooManyEdges : List PktEdge :=
  List.replicate 1821 ⟨pktIpv4Pack sampleHost, pktIpv4Pack sampleHost, htonl 10, htonll 0⟩

/-- **A link-state packet of `1821` edges is not read back**: its header announces `34` bytes. -/
theorem linkstate_1821_misframed :
    (ntohs (PktHeader.ofBytes (Write.frame sampleHost (.linkstate tooManyEdges))).len).toNat = 34 ∧
      (Write.payload sampleHost (.linkstate tooManyEdges)).length = 65570 ∧
      ¬ Delivered sampleHost [.linkstate tooManyEdges] [] := by
  have hw : (Write.linkstate tooManyEdges).Sized := trivial
  have hlen : (Write.payload sampleHost (.linkstate tooManyEdges)).length = 65570 := by
    rw [length_linkstate, tooManyEdges, List.length_replicate]
    rfl
  refine ⟨by rw [frame_header sampleHost hw, hlen]; rfl, hlen, fun hd => ?_⟩
  have hfits := fits_of_header sampleHost hw (hd.length _ List.mem_cons_self)
  rw [Write.Fits, hlen] at hfits
  exact absurd hfits (by decide)

end P2pVn
