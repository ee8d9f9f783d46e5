import P2pVn.DPeer.Framing
import P2pVn.Routing.ShortestPaths

/-!
# `Routing.Relay` — addresses and links that travel from table to table

A node exports its links as packed edges, and its neighbours import them: `relay` is one such hop, on a link
with the addresses of its two ends. `Relayed` is the same with real tables: each node's is reached by calls of
the operations, exports the edge, and the next node imports a batch with it by `rt_update_edges`.

- `Agrees`: what a table says about the two hosts and the link between them is what the edge says. Every
  iteration of the merge loop preserves it (`EdgeStep.agrees`), hence a whole call (`rtUpdateEdges_agrees`).
- `relayed_eq`: after `n` hops a table holds what `relay` makes of the edge in `n` steps.
- `relay_iff`: which is the original exactly if its addresses and ports read the same in either byte order.
-/

namespace P2pVn
open CUb

namespace Routing

variable {env : ExtMem} {q : Qsort} {s s' : Routing} {L : HostId}

/-! ## One hop, on values -/

/-- A link with the addresses of its two ends. -/
structure StoredEdge where
  src : Ipv4Host
  dst : Ipv4Host
  rttUs : UInt32
  tsMs : UInt64
  deriving DecidableEq, Repr

/-- What `update_exported_edges` makes of a link. -/
def exportEdge (e : StoredEdge) : PktEdge := packEdge e.src e.dst e.rttUs e.tsMs

/-- What `rt_update_edges` makes of an edge. -/
def importEdge (p : PktEdge) : StoredEdge :=
  ⟨pktIpv4Unpack p.src, pktIpv4Unpack p.dst, ntohl p.rttUs, ntohll p.tsMs⟩

/-- One hop. -/
def relay (e : StoredEdge) : StoredEdge := importEdge (exportEdge e)

/-- The same MAC, IP address and port. -/
def SameHost (h h' : Ipv4Host) : Prop :=
  h.mac = h'.mac ∧ h.addrIn.sinAddr = h'.addrIn.sinAddr ∧ h.addrIn.sinPort = h'.addrIn.sinPort

/-- The same hosts, `rtt_us` and `ts_ms`. -/
def SameEdge (e e' : StoredEdge) : Prop :=
  SameHost e.src e'.src ∧ SameHost e.dst e'.dst ∧ e.rttUs = e'.rttUs ∧ e.tsMs = e'.tsMs

/-- Address and port are byte palindromes: the two byte orders agree on them. -/
def Palindromic (h : Ipv4Host) : Prop :=
  htonl h.addrIn.sinAddr = h.addrIn.sinAddr ∧ htons h.addrIn.sinPort = h.addrIn.sinPort

instance (h : Ipv4Host) : Decidable (Palindromic h) := by unfold Palindromic; infer_instance

/-- A hop keeps MACs, `rtt_us` and `ts_ms`, and reverses addresses and ports. -/
theorem relay_eq (e : StoredEdge) : relay e =
    ⟨⟨e.src.mac, ⟨afInet, htons e.src.addrIn.sinPort, htonl e.src.addrIn.sinAddr⟩⟩,
      ⟨e.dst.mac, ⟨afInet, htons e.dst.addrIn.sinPort, htonl e.dst.addrIn.sinAddr⟩⟩, e.rttUs, e.tsMs⟩ := by
  unfold relay importEdge exportEdge packEdge
  simp only [ntohl_htonl, ntohll_htonll]
  rfl

/-- One hop keeps the edge exactly if the addresses and ports of its ends are palindromes. -/
theorem sameEdge_relay (e : StoredEdge) : SameEdge (relay e) e ↔ Palindromic e.src ∧ Palindromic e.dst := by
  rw [relay_eq]
  unfold SameEdge SameHost Palindromic
  simp only [true_and, and_true]

theorem SameEdge.relay_of {e e' : StoredEdge} (h : SameEdge e e') (hs : Palindromic e'.src)
    (hd : Palindromic e'.dst) : SameEdge (relay e) e' := by
  obtain ⟨⟨hm, ha, hp⟩, ⟨hm', ha', hp'⟩, hr, ht⟩ := h
  rw [relay_eq]
  refine ⟨⟨hm, ?_, ?_⟩, ⟨hm', ?_, ?_⟩, hr, ht⟩
  · rw [ha]; exact hs.1
  · rw [hp]; exact hs.2
  · rw [ha']; exact hd.1
  · rw [hp']; exact hd.2

/-- **Any number of hops keeps the edge exactly if** addresses and ports are palindromes. -/
theorem sameEdge_relays (e : StoredEdge) :
    (∀ n, SameEdge (relay^[n] e) e) ↔ Palindromic e.src ∧ Palindromic e.dst := by
  constructor
  · intro h
    exact (sameEdge_relay e).mp (h 1)
  · rintro ⟨hs, hd⟩ n
    induction n with
    | zero => exact ⟨⟨rfl, rfl, rfl⟩, ⟨rfl, rfl, rfl⟩, rfl, rfl⟩
    | succ n ih =>
        rw [Function.iterate_succ_apply']
        exact ih.relay_of hs hd

/-! ## Joining -/

/-- `dp_send_join` and `pkt_ipv4_pack` encode a host in the same way. -/
def EncodersAgree (h : Ipv4Host) : Prop := joiningHost h.mac h.addrIn = pktIpv4Pack h

theorem encodersAgree_iff (h : Ipv4Host) : EncodersAgree h ↔ Palindromic h := by
  unfold EncodersAgree joiningHost pktIpv4Pack Palindromic
  simp only [PktIpv4Host.mk.injEq, and_true]
  exact ⟨fun ⟨h1, h2⟩ => ⟨h1.symm, h2.symm⟩, fun ⟨h1, h2⟩ => ⟨h1.symm, h2.symm⟩⟩

theorem dpHandleJoin_joiningHost (mac : EtherAddr) (sai : SockaddrIn) (rest : List UInt8) (broken : Bool) :
    ∃ h, dpHandleJoin ⟨(joiningHost mac sai).bytes ++ rest, broken⟩ = (0, some h, ⟨rest, broken⟩) ∧
      SameHost h ⟨mac, sai⟩ := by
  have hload := PktIpv4Host.ofBytes_append (joiningHost mac sai) []
  rw [List.append_nil] at hload
  refine ⟨pktIpv4Unpack (joiningHost mac sai), ?_, rfl, rfl, rfl⟩
  unfold dpHandleJoin
  rw [recv_append (n := plJoin) (PktIpv4Host.length_bytes (joiningHost mac sai)) (by decide)]
  simp only [hload, Int.lt_irrefl, if_false]

/-- The receiver of the join packet of `h` stores `h`. -/
def JoinStored (h : Ipv4Host) : Prop :=
  ∃ con h', dpRecvHeader ⟨(dpSendJoin ⟨[], []⟩ h.mac h.addrIn).2.sent, false⟩
      = (0, some (ptJoin, UInt16.ofNat plJoin), con) ∧ (dpHandleJoin con).2.1 = some h' ∧ SameHost h' h

/-- **A host that joins is stored as it announced itself.** -/
theorem joinStored (h : Ipv4Host) : JoinStored h := by
  obtain ⟨sends', -, hsend⟩ := dpSendPacket_ok (o := ⟨[], []⟩) (show NoErrors [] from nofun) ptJoin
    (UInt16.ofNat plJoin) (joiningHost h.mac h.addrIn).bytes
  obtain ⟨h', hjoin, hsame⟩ := dpHandleJoin_joiningHost h.mac h.addrIn [] false
  have htake : (joiningHost h.mac h.addrIn).bytes.take (UInt16.ofNat plJoin).toNat
      = (joiningHost h.mac h.addrIn).bytes ++ [] := by
    rw [List.append_nil]
    exact List.take_of_length_le (Nat.le_of_eq (PktIpv4Host.length_bytes _))
  refine ⟨_, h', ?_, congrArg (fun r => r.2.1) hjoin, hsame⟩
  unfold dpSendJoin
  rw [hsend, htake]
  exact dpRecvHeader_append ptJoin (UInt16.ofNat plJoin) _ false

/-! ## What a table says about an edge -/

/-- What the table says about the two hosts of `e`, and about links from one to the other, is what `e` says. -/
structure Agrees (env : ExtMem) (s : Routing) (e : StoredEdge) : Prop where
  addr : ∀ id ∈ s.hosts.items, ∀ ip, s.addr? env id = some ip →
    (ip.mac = e.src.mac → ip = e.src) ∧ (ip.mac = e.dst.mac → ip = e.dst)
  link : ∀ id ∈ s.hosts.items, ∀ r, s.recs.get id = some r → ∀ l ∈ r.links.items, ∀ a b,
    s.addr? env id = some a → s.addr? env l.dst = some b → a.mac = e.src.mac → b.mac = e.dst.mac →
    l.rttUs = e.rttUs ∧ l.tsMs = e.tsMs

/-- The table has a link that is `e`. -/
def Stores (env : ExtMem) (s : Routing) (e : StoredEdge) : Prop :=
  ∃ id r l, id ∈ s.hosts.items ∧ s.recs.get id = some r ∧ l ∈ r.links.items ∧
    s.addr? env id = some e.src ∧ s.addr? env l.dst = some e.dst ∧ l.rttUs = e.rttUs ∧ l.tsMs = e.tsMs

/-- Neither of the two hosts of `e` is in the table. -/
def Unknown (env : ExtMem) (s : Routing) (e : PktEdge) : Prop :=
  ∀ id ∈ s.hosts.items, ∀ ip, s.addr? env id = some ip → ip.mac ≠ e.src.mac ∧ ip.mac ≠ e.dst.mac

/-- Everything that the batch says about the two hosts of `e`, and the link between them, is `e`. -/
def OnlyWord (es : List PktEdge) (e : PktEdge) : Prop :=
  ∀ e' ∈ es, (e'.src.mac = e.src.mac → e'.src = e.src) ∧ (e'.dst.mac = e.src.mac → e'.dst = e.src) ∧
    (e'.src.mac = e.dst.mac → e'.src = e.dst) ∧ (e'.dst.mac = e.dst.mac → e'.dst = e.dst) ∧
    (e'.src.mac = e.src.mac → e'.dst.mac = e.dst.mac → e' = e)

variable {e : StoredEdge}

/-- **A table that agrees with an edge stores no other one between its hosts.** -/
theorem Agrees.eq_of_stores {R : EtherAddr → EtherAddr → Prop} (h : Agrees env s e) (hl : LinksOk R env s)
    {e' : StoredEdge} (he : Stores env s e') (hsrc : e'.src.mac = e.src.mac)
    (hdst : e'.dst.mac = e.dst.mac) : e' = e := by
  obtain ⟨id, r, l, hid, hr, hlm, ha, hb, hrtt, hts⟩ := he
  obtain ⟨hmem, -⟩ := hl.dst id hid r hr l hlm
  have h1 : e'.src = e.src := (h.addr id hid _ ha).1 hsrc
  have h2 : e'.dst = e.dst := (h.addr l.dst hmem _ hb).2 hdst
  obtain ⟨h3, h4⟩ := h.link id hid r hr l hlm _ _ ha hb hsrc hdst
  obtain ⟨src, dst, rtt, ts⟩ := e
  obtain ⟨src', dst', rtt', ts'⟩ := e'
  simp only at h1 h2 h3 h4 hrtt hts
  rw [h1, h2, ← hrtt, ← hts, h3, h4]

theorem Agrees.of_unknown {p : PktEdge} (h : Unknown env s p) : Agrees env s (importEdge p) where
  addr id hid ip hip := by
    obtain ⟨h1, h2⟩ := h id hid ip hip
    exact ⟨fun he => absurd he h1, fun he => absurd he h2⟩
  link id hid _ _ _ _ a _ ha _ hsrc _ := absurd hsrc (h id hid a ha).1

theorem Same.addr? (h : Same s s') (id : HostId) : s'.addr? env id = s.addr? env id := by
  unfold Routing.addr?
  rw [h.get]

theorem Agrees.same (h : Agrees env s e) (hs : Same s s') : Agrees env s' e where
  addr id hid ip hip := h.addr id (hs.hosts ▸ hid) ip ((hs.addr? id).symm.trans hip)
  link id hid r hr l hlm a b ha hb :=
    h.link id (hs.hosts ▸ hid) r (hs.get id ▸ hr) l hlm a b ((hs.addr? id).symm.trans ha)
      ((hs.addr? l.dst).symm.trans hb)

theorem addr?_store {id : HostId} {h h' : RtHost} (hg : s.recs.get id = some h) (hhost : h'.host = h.host)
    (j : HostId) : (s.store id h').addr? env j = s.addr? env j := by
  unfold addr?
  rw [get_store hg]
  split
  · rename_i hj
    rw [hj, hg, Option.bind_some, Option.bind_some, hhost]
  · rfl

/-- A record may be overwritten by one with the same host if its links agree as well. -/
theorem Agrees.store (h : Agrees env s e) {id : HostId} {r r' : RtHost} (hg : s.recs.get id = some r)
    (hhost : r'.host = r.host) (hlinks : ∀ l ∈ r'.links.items, l ∈ r.links.items ∨
      ∀ a b, s.addr? env id = some a → s.addr? env l.dst = some b → a.mac = e.src.mac →
        b.mac = e.dst.mac → l.rttUs = e.rttUs ∧ l.tsMs = e.tsMs) : Agrees env (s.store id r') e where
  addr j hj ip hip := h.addr j hj ip ((addr?_store hg hhost j).symm.trans hip)
  link j hj r1 hr1 l hlm a b ha hb hsrc hdst := by
    rw [addr?_store hg hhost] at ha hb
    rw [get_store hg] at hr1
    split at hr1
    · rename_i he
      cases hr1
      subst he
      rcases hlinks l hlm with hold | hnew
      · exact h.link j hj r hg l hold a b ha hb hsrc hdst
      · exact hnew a b ha hb hsrc hdst
    · exact h.link j hj r1 hr1 l hlm a b ha hb hsrc hdst

theorem HostAdded.addr_new {ip : Ipv4Host} {type : HostType} {nh : HostId}
    (ha : HostAdded env s (.heap ip) type nh s') : s'.addr? env nh = some ip := by
  refine addr?_of_get ha.get_new ?_
  rcases ha.fresh.host with he | ⟨-, ip', hip', he⟩
  · rw [he]; rfl
  · rw [he]; exact hip'.symm

theorem HostAdded.addr_old {p : HostPtr} {type : HostType} {nh : HostId} (ha : HostAdded env s p type nh s')
    {j : HostId} {r : RtHost} (hg : s.recs.get j = some r) : s'.addr? env j = s.addr? env j := by
  unfold addr?
  rw [ha.get_old hg, hg]

/-- A host may be added if what it says agrees. -/
theorem Agrees.added {R : EtherAddr → EtherAddr → Prop} (h : Agrees env s e) (ht : TableOk env s L)
    (hl : LinksOk R env s) {ip0 : Ipv4Host} {type : HostType} {nh : HostId}
    (ha : HostAdded env s (.heap ip0) type nh s')
    (hip0 : (ip0.mac = e.src.mac → ip0 = e.src) ∧ (ip0.mac = e.dst.mac → ip0 = e.dst)) : Agrees env s' e where
  addr id hid ip hip := by
    rcases ha.mem.mp hid with hold | rfl
    · obtain ⟨r, hr⟩ := ht.get id hold
      exact h.addr id hold ip ((ha.addr_old hr).symm.trans hip)
    · rw [ha.addr_new] at hip
      cases hip
      exact hip0
  link id hid r hr l hlm a b hA hB hsrc hdst := by
    rcases ha.mem.mp hid with hold | rfl
    · obtain ⟨r0, hr0⟩ := ht.get id hold
      rw [ha.get_old hr0] at hr
      cases hr
      obtain ⟨hmem, -⟩ := hl.dst id hold r hr0 l hlm
      obtain ⟨rd, hrd⟩ := ht.get l.dst hmem
      exact h.link id hold r hr0 l hlm a b ((ha.addr_old hr0).symm.trans hA)
        ((ha.addr_old hrd).symm.trans hB) hsrc hdst
    · rw [ha.get_new] at hr
      cases hr
      rw [ha.fresh.links] at hlm
      cases hlm

/-- What is left after trimming agrees as before. -/
theorem Agrees.trims {R : EtherAddr → EtherAddr → Prop} (h : Agrees env s e) (ht : TableOk env s L)
    {s1 : Routing} (htr : Trims s s1 L) (hs : Same s1 s') (hl : LinksOk R env s') : Agrees env s' e := by
  have hback : ∀ id ∈ s'.hosts.items, ∃ r r', s.recs.get id = some r ∧ s'.recs.get id = some r' ∧
      id ∈ s.hosts.items ∧ s'.addr? env id = s.addr? env id ∧ r'.links.items.Sublist r.links.items := by
    intro id hid
    rw [hs.hosts] at hid
    obtain ⟨r, hr⟩ := ht.get id (htr.sub.subset hid)
    obtain ⟨r', hr', hhost, -, hsub⟩ := htr.kind id hid r hr
    refine ⟨r, r', hr, (hs.get id).trans hr', htr.sub.subset hid, ?_, hsub⟩
    rw [hs.addr?, Routing.addr?, Routing.addr?, hr, hr', Option.bind_some, Option.bind_some, hhost]
  constructor
  · intro id hid ip hip
    obtain ⟨-, -, -, -, hold, ha, -⟩ := hback id hid
    exact h.addr id hold ip (ha.symm.trans hip)
  · intro id hid r1 hr1 l hlm a b hA hB hsrc hdst
    obtain ⟨r, r', hr, hr', hold, ha, hsub⟩ := hback id hid
    rw [hr'] at hr1
    cases hr1
    obtain ⟨-, -, -, -, -, hb, -⟩ := hback l.dst (hl.dst id hid r1 hr' l hlm).1
    exact h.link id hold r hr l (hsub.subset hlm) a b (ha.symm.trans hA) (hb.symm.trans hB) hsrc hdst

/-! ## Importing a batch -/

theorem mac?_eq_addr? (s : Routing) (id : HostId) : s.mac? env id = (s.addr? env id).map Ipv4Host.mac := by
  unfold mac? addr?
  cases s.recs.get id with
  | none => rfl
  | some h => rfl

theorem mac_of_addr? {id : HostId} {ip : Ipv4Host} {m : EtherAddr} (ha : s.addr? env id = some ip)
    (hm : s.mac? env id = some m) : ip.mac = m := by
  rw [mac?_eq_addr?, ha] at hm
  exact Option.some.inj hm

/-- **Step lemma.** An iteration for an edge that says nothing else keeps the table in agreement. -/
theorem EdgeStep.agrees {m m' : MergeState} {p p' : PktEdge} {ret : Int} (h : EdgeStep q env m p' ret m')
    (hm : MergeOk env m L) (hl : LinksOk (fun a b => (memcmp a b).isLE) env m.rd)
    (hword : OnlyWord [p'] p) (ha : Agrees env m.rd (importEdge p)) : Agrees env m'.rd (importEdge p) := by
  obtain ⟨hss, hds, hsd, hdd, hboth⟩ := hword p' (List.mem_singleton_self p')
  have hsrcIp : ((pktIpv4Unpack p'.src).mac = (importEdge p).src.mac → pktIpv4Unpack p'.src = (importEdge p).src) ∧
      ((pktIpv4Unpack p'.src).mac = (importEdge p).dst.mac → pktIpv4Unpack p'.src = (importEdge p).dst) :=
    ⟨fun h => congrArg pktIpv4Unpack (hss h), fun h => congrArg pktIpv4Unpack (hsd h)⟩
  have hdstIp : ((pktIpv4Unpack p'.dst).mac = (importEdge p).src.mac → pktIpv4Unpack p'.dst = (importEdge p).src) ∧
      ((pktIpv4Unpack p'.dst).mac = (importEdge p).dst.mac → pktIpv4Unpack p'.dst = (importEdge p).dst) :=
    ⟨fun h => congrArg pktIpv4Unpack (hds h), fun h => congrArg pktIpv4Unpack (hdd h)⟩
  cases h with
  | doubledBack _ => exact ha
  | skipped _ _ => exact ha
  | srcFailed _ hs => exact ha.same hs
  | rejected => exact ha
  | @linked cur s1 dst s2 ret s3 hne hsrc hdst hlink =>
      obtain ⟨ht1, -, hmem1, -, hmac1⟩ := hsrc.ok hm
      have hl1 := hsrc.linksOk hm hl
      obtain ⟨ht2, hk2, hmem2, hmac2⟩ := hdst.ok ht1
      have ha1 : Agrees env s1 (importEdge p) := by
        cases hsrc with
        | current _ _ _ => exact ha
        | created _ hadd _ => exact ha.added hm.table hl hadd hsrcIp
        | wiped _ _ _ hget _ _ => exact ha.store hget rfl fun _ hlm => by cases hlm
      have ha2 : Agrees env s2 (importEdge p) := by
        cases hdst with
        | known _ _ => exact ha1
        | created hadd _ => exact ha1.added ht1 hl1 hadd hdstIp
      obtain ⟨-, ⟨-, hs⟩ | ⟨-, ⟨hadd⟩⟩⟩ := linkAdd_cases hlink
      · exact ha2.same hs
      · refine Agrees.same (ha2.store hadd.get hadd.host fun l hlm => ?_) hadd.same
        rcases hadd.mem.mp hlm with hold | rfl
        · exact Or.inl hold
        · -- the new link: if it leads from the one host to the other, the edge is `p`
          refine Or.inr fun a b hA hB hsrc' hdst' => ?_
          have h1 : (pktIpv4Unpack p'.src).mac = a.mac := (mac_of_addr? hA (hk2.mac hmac1)).symm
          have h2 : (pktIpv4Unpack p'.dst).mac = b.mac := (mac_of_addr? hB hmac2).symm
          have he : p' = p := hboth (h1.trans hsrc') (h2.trans hdst')
          subst he
          exact ⟨rfl, rfl⟩

/-- **Run lemma.** So does the loop, for a batch that says nothing else. -/
theorem mergeEdges_agrees {es : List PktEdge} {p : PktEdge} {ret : Int}
    (h : s.mergeEdges q env es = .ok (ret, s')) (ht : TableOk env s L)
    (hl : LinksOk (fun a b => (memcmp a b).isLE) env s) (hword : OnlyWord es p)
    (ha : Agrees env s (importEdge p)) : Agrees env s' (importEdge p) := by
  obtain ⟨m', hm, rfl⟩ := mergeEdges_loop h
  refine mergeLoop_rule
    (P := fun m => MergeOk env m L ∧ LinksOk (fun a b => (memcmp a b).isLE) env m.rd ∧
      Agrees env m.rd (importEdge p))
    (Q := fun _ m => Agrees env m.rd (importEdge p)) (fun _ h => h.2.2) _ ?_ hm ⟨.start ht _, hl, ha⟩
  rintro m1 e he r m2 ⟨hm1, hl1, ha1⟩ hs
  obtain ⟨ht2, -, hc⟩ := hs.tableOk hm1
  have hword1 : OnlyWord [e] p := by
    intro e' he'
    rw [List.mem_singleton] at he'
    exact he' ▸ hword e ((q.perm pktEdgesCmpSrc es).mem_iff.mp he)
  have ha2 := hs.agrees hm1 hl1 hword1 ha1
  exact ⟨fun h0 => ⟨⟨ht2, hc h0⟩, hs.linksOk hm1 hl1, ha2⟩, fun _ => ha2⟩

/-- **A table that knew neither host agrees, after a batch with one word about them, with that word.** -/
theorem rtUpdateEdges_agrees {es : List PktEdge} {p : PktEdge} (hs : Sound env s L)
    (hnew : Unknown env s p) (hword : OnlyWord es p) (h : s.rtUpdateEdges q env es = .ok (0, s')) :
    Sound env s' L ∧ Agrees env s' (importEdge p) := by
  have hrun : (RtOp.updateEdges es).run q env s = .ok (0, s') := h
  refine ⟨(RtOp.sound hrun hs).1, ?_⟩
  rcases RtOp.run_cases hrun with ⟨hne, -⟩ | ⟨s1, r, hp, hc, -⟩
  · exact absurd rfl hne
  · have ht1 := RtOp.phase_tableOk hp hs.table
    have hl1 := RtOp.phase_linksOk hp hs.table hs.links
    have ha1 := mergeEdges_agrees hp hs.table hs.links hword (.of_unknown hnew)
    obtain ⟨hal1, -⟩ := RtOp.phase_sound hp hs
    obtain ⟨-, hs', -, -, s2, -, -, htr, hsame⟩ := updateCache_sound hc hal1 ht1 hl1
    exact ha1.trims ht1 htr hsame hs'.links

/-! ## From table to table -/

/-- `e0` has travelled over `n` hops: a table stores it; a table that stores what arrived exports it, and
    another one, which knew neither host, imports a batch with one word about them. -/
inductive Relayed (q : Qsort) (e0 : StoredEdge) : Nat → ExtMem → Routing → StoredEdge → Prop where
  | origin {ext0 : ExtMem} {s0 : Routing} (h : Stores ext0 s0 e0) : Relayed q e0 0 ext0 s0 e0
  | hop {n : Nat} {ext1 ext2 : ExtMem} {s1 s2 s3 : Routing} {e1 e2 : StoredEdge} {es : List PktEdge}
      (h : Relayed q e0 n ext1 s1 e1) (hexport : exportEdge e1 ∈ s1.rtGetEdges.2)
      (hmem : exportEdge e1 ∈ es) (hword : OnlyWord es (exportEdge e1))
      (hreach : Reach q ext2 [] s2) (hnew : Unknown ext2 s2 (exportEdge e1))
      (hrun : s2.rtUpdateEdges q ext2 es = .ok (0, s3)) (hstore : Stores ext2 s3 e2)
      (hsrc : e2.src.mac = e1.src.mac) (hdst : e2.dst.mac = e1.dst.mac) :
      Relayed q e0 (n + 1) ext2 s3 e2

/-- **After `n` hops a table stores what `relay` makes of the edge in `n` steps.** -/
theorem relayed_eq {n : Nat} {e0 : StoredEdge} (h : Relayed q e0 n env s e) : e = relay^[n] e0 := by
  induction h with
  | origin _ => rfl
  | hop _ _ _ hword hreach hnew hrun hstore hsrc hdst ih =>
      obtain ⟨L, hs⟩ := hreach.sound
      obtain ⟨hs', ha⟩ := rtUpdateEdges_agrees hs hnew hword hrun
      rw [Function.iterate_succ_apply', ← ih]
      exact ha.eq_of_stores hs'.links hstore hsrc hdst

/-- The edge survives any number of hops, and its hosts are announced when they join as they are exported. -/
structure Survives (e : StoredEdge) : Prop where
  relays : ∀ n, SameEdge (relay^[n] e) e
  joins : JoinStored e.src ∧ JoinStored e.dst
  encoders : EncodersAgree e.src ∧ EncodersAgree e.dst

/-- **An edge survives relaying exactly if its addresses and ports read the same in either byte order**, and
    what `n` hops from table to table make of it is what `relay` makes of it in `n` steps. -/
theorem relay_survives_iff (q : Qsort) (e : StoredEdge) :
    (Survives e ↔ Palindromic e.src ∧ Palindromic e.dst) ∧
      ∀ n env s e', Relayed q e n env s e' → e' = relay^[n] e := by
  refine ⟨⟨fun h => (sameEdge_relays e).mp h.relays, fun h => ?_⟩, fun n env s e' h => relayed_eq h⟩
  exact ⟨(sameEdge_relays e).mpr h, ⟨joinStored _, joinStored _⟩,
    (encodersAgree_iff _).mpr h.1, (encodersAgree_iff _).mpr h.2⟩

/-! ## One hop from `10.0.0.1` -/

/-- `10.0.0.1`, port `1234`, with MAC `02:00:00:00:00:k`. -/
def relayHost (k : UInt8) : Ipv4Host := { lineHost k with addrIn := ⟨afInet, 0xd204, 0x0100000a⟩ }

/-- The callers' memory at the node whose own host is number `k`; its peers are all number `1`. -/
def relayExt (k : UInt8) : ExtMem
  | .lhost => some (relayHost k)
  | .dp _ => some (relayHost 1)

/-- The link from host `0` to host `1`. -/
def relayEdge : StoredEdge := ⟨relayHost 0, relayHost 1, 10, 5⟩

/-- The records of host `0` after it connected to host `1`. -/
def relayRecs0 : CellHeap RtHost :=
  ⟨[some ⟨.env .lhost, .htLocal, 5, ⟨[⟨1, 10, 5⟩], 8⟩⟩, some ⟨.env (.dp 0), .htDirect, 0, ⟨[], 8⟩⟩]⟩

/-- The records of host `2` after it imported the link. -/
def relayRecs2 : CellHeap RtHost :=
  ⟨[some ⟨.env .lhost, .htLocal, 0, ⟨[], 8⟩⟩,
    some ⟨.heap (relay relayEdge).src, .htNormal, 5, ⟨[⟨2, 10, 5⟩], 8⟩⟩,
    some ⟨.heap (relay relayEdge).dst, .htNormal, 0, ⟨[], 8⟩⟩]⟩

/-- Host `0` connects to host `1` and exports the link; host `2` imports it. -/
theorem relay_hop_run : ∃ s1 s2 s3, runFrom .insertion (relayExt 0) [.dhostAddLink 0 10 ⟨0, 5000⟩] = .ok s1 ∧
    runFrom .insertion (relayExt 2) [] = .ok s2 ∧
    s2.rtUpdateEdges .insertion (relayExt 2) [exportEdge relayEdge] = .ok (0, s3) ∧
    (s1.hosts.items = [0, 1] ∧ s1.recs = relayRecs0 ∧ s1.edges.items = [exportEdge relayEdge]) ∧
    (s2.hosts.items = [0] ∧ s2.recs = ⟨[some ⟨.env .lhost, .htLocal, 0, ⟨[], 8⟩⟩]⟩) ∧
    s3.hosts.items = [1, 2, 0] ∧ s3.recs = relayRecs2 := by
  have hrun : (do
      let s1 ← runFrom .insertion (relayExt 0) [.dhostAddLink 0 10 ⟨0, 5000⟩]
      pure (s1.hosts.items, s1.recs, s1.edges.items)) = Except.ok ([0, 1], relayRecs0, [exportEdge relayEdge]) := by
    decide +kernel
  have hrun' : (do
      let s2 ← runFrom .insertion (relayExt 2) []
      let a ← s2.rtUpdateEdges .insertion (relayExt 2) [exportEdge relayEdge]
      pure (a.1, s2.hosts.items, s2.recs, a.2.hosts.items, a.2.recs)) = Except.ok ((0 : Int), [0],
        ⟨[some ⟨.env .lhost, .htLocal, 0, ⟨[], 8⟩⟩]⟩, [1, 2, 0], relayRecs2) := by
    decide +kernel
  obtain ⟨s1, h1, hrun⟩ := bind_eq_ok.mp hrun
  obtain ⟨s2, h2, hrun'⟩ := bind_eq_ok.mp hrun'
  obtain ⟨⟨r, s3⟩, h3, hrun'⟩ := bind_eq_ok.mp hrun'
  simp only [pure_eq_ok, Except.ok.injEq, Prod.mk.injEq] at hrun hrun'
  obtain ⟨rfl, h4, h5, h6⟩ := hrun'
  exact ⟨s1, s2, s3, h1, h2, h3, hrun, ⟨h4, h5⟩, h6⟩

/-- **One hop turns `10.0.0.1` into `1.0.0.10`**, from a table reached by calls to another one. -/
theorem relay_reverses : ∃ s1 s3, Reach .insertion (relayExt 0) [] s1 ∧
    Relayed .insertion relayEdge 0 (relayExt 0) s1 relayEdge ∧
    Relayed .insertion relayEdge 1 (relayExt 2) s3 (relay relayEdge) ∧
    relayEdge.src.addrIn.sinAddr = 0x0100000a ∧ (relay relayEdge).src.addrIn.sinAddr = 0x0a000001 ∧
    ¬ SameEdge (relay relayEdge) relayEdge ∧ ¬ Survives relayEdge := by
  obtain ⟨s1, s2, s3, h1, h2, h3, ⟨hhosts1, hrecs1, hedges1⟩, ⟨hhosts2, hrecs2⟩, hhosts3, hrecs3⟩ := relay_hop_run
  have hsame : ¬ SameEdge (relay relayEdge) relayEdge := by
    rw [sameEdge_relay]
    decide
  have hstore1 : Stores (relayExt 0) s1 relayEdge := by
    refine ⟨0, ⟨.env .lhost, .htLocal, 5, ⟨[⟨1, 10, 5⟩], 8⟩⟩, ⟨1, 10, 5⟩, ?_, ?_, List.mem_singleton_self _, ?_, ?_,
      rfl, rfl⟩
    · rw [hhosts1]; decide
    · rw [hrecs1]; rfl
    · rw [addr?, hrecs1]; rfl
    · rw [addr?, hrecs1]; rfl
  have hstore3 : Stores (relayExt 2) s3 (relay relayEdge) := by
    refine ⟨1, ⟨.heap (relay relayEdge).src, .htNormal, 5, ⟨[⟨2, 10, 5⟩], 8⟩⟩, ⟨2, 10, 5⟩, ?_, ?_,
      List.mem_singleton_self _, ?_, ?_, by decide, by decide⟩
    · rw [hhosts3]; decide
    · rw [hrecs3]; rfl
    · rw [addr?, hrecs3]; rfl
    · rw [addr?, hrecs3]; rfl
  -- the third node knows nobody but itself before
  have hnew : Unknown (relayExt 2) s2 (exportEdge relayEdge) := by
    intro id hid ip hip
    rw [hhosts2, List.mem_singleton] at hid
    subst hid
    rw [addr?, hrecs2] at hip
    cases hip
    decide
  have horigin : Relayed .insertion relayEdge 0 (relayExt 0) s1 relayEdge := .origin hstore1
  -- the batch has one edge only, so no other claims the same words
  have hword : OnlyWord [exportEdge relayEdge] (exportEdge relayEdge) := by
    intro e' he'
    rw [List.mem_singleton] at he'
    subst he'
    decide
  refine ⟨s1, s3, reach_runFrom h1, horigin, ?_, rfl, by decide, hsame, fun h => hsame (h.relays 1)⟩
  exact .hop horigin (by rw [rtGetEdges, hedges1]; exact List.mem_singleton_self _)
    (List.mem_singleton_self _) hword (reach_runFrom h2) hnew h3 hstore3 rfl rfl

end Routing

end P2pVn
