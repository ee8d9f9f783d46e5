import P2pVn.Mesh.Network
import P2pVn.Routing.Multicast
import P2pVn.Routing.Provenance

/-!
# `Mesh.Origins` — nothing in the network is made up

Packets go through any number of nodes, and tables are merged from what others say. Everything that is found
anywhere comes from the node that it is about:

- `packets_origins`: every link of a table or a link state was measured by the node that it starts from, with the
  round-trip time and the timestamp of that measurement; every frame that is under way was read from a tap; every
  answer to a probe was asked for, and every probe that was taken is answered once, in order.
- `bytes_vouched`, `bytes_origins`: the same of the nodes as the program has them, through `bytes_follows`.
- `bytes_unicast`: no frame for a group gets onto a stream, since no tap sends one and nobody else has one to send on.

A measurement is an event: a link that was added by hand-shake, or a packet that was taken and is the answer to the
last probe (`Measured`). The step lemmas are `Honest.act` and `Honest.receive`.
-/

namespace P2pVn
open CUb Bytes Channel Routing

namespace Site

variable {ι : Type} {W : Site ι} {q : Qsort} {c : ι} {d : Nat}

/-! ## The tables -/

/-- A table's own MAC is that of its node. -/
theorem isLocalMac_me {s : Routing} {mac : EtherAddr} (h : Reach q (W.env c) [] s) (hm : IsLocalMac (W.env c) s mac) :
    mac = (W.me c).mac := by
  obtain ⟨L, -, ha⟩ := h.aliased
  obtain ⟨L', hL, hmac⟩ := hm
  obtain rfl : L = L' := Option.some.inj (ha.table.isLocal.symm.trans hL)
  obtain ⟨r, ip, hr, hip, rfl⟩ := get_of_mac? hmac
  rw [ha.own r hr] at hip
  have hme : some (W.me c) = some ip := (W.lhost c).symm.trans hip
  rw [Option.some.inj hme]

/-- **A station's own actions** put no links into its table but those that it measures. -/
theorem act_vouched {A : Announced → Prop} {n n' : Station} {a : Action} {ms : List (Nat × Packet)}
    (hv : Vouched A (W.env c) n.rd) (hr : Reach q (W.env c) [] n.rd)
    (hA : ∀ d rttUs now ip, a = .addLink d rttUs now → W.env c (.dp d) = some ip →
      A ⟨(W.me c).mac, ip.mac, rttUs, tvMs now⟩)
    (h : n.act q (W.env c) (W.me c) a = .ok (n', ms)) : Vouched A (W.env c) n'.rd := by
  cases a with
  | tap frame =>
      obtain ⟨⟨f, rd⟩, hrun, h⟩ := bind_eq_ok.mp h
      cases h
      exact forward_vouched hrun hv
  | probe d rnd now =>
      cases h
      exact hv
  | announce =>
      cases h
      exact hv
  | announceTo d =>
      cases h
      exact hv
  | addLink d rttUs now =>
      obtain ⟨⟨ret, rd⟩, hrun, h⟩ := bind_eq_ok.mp h
      cases h
      refine RtOp.vouched (.dhostAddLink d rttUs now) hrun hv ?_
      rintro a ⟨ip, hip, hlocal, ha⟩
      rw [isLocalMac_me hr hlocal] at ha
      rw [ha]
      exact hA d rttUs now ip rfl hip
  | removeLink dmac =>
      obtain ⟨⟨ret, rd⟩, hrun, h⟩ := bind_eq_ok.mp h
      cases h
      exact RtOp.vouched (q := q) (.dhostRemove dmac) hrun hv nofun
  | insert d al =>
      obtain ⟨⟨ret, dps⟩, -, h⟩ := bind_eq_ok.mp h
      cases h
      exact hv
  | remove d =>
      obtain ⟨⟨ret, dps⟩, -, h⟩ := bind_eq_ok.mp h
      cases h
      exact hv

/-- **A packet** puts no links into its receiver's table but those that it carries, or that it ends the measurement
    of. -/
theorem handle_vouched {A : Announced → Prop} {n : Station} {p : Packet} {now later : Timeval} {ret : Int}
    {rd : Routing} {ms : List (Nat × Packet)} (hv : Vouched A (W.env c) n.rd) (hr : Reach q (W.env c) [] n.rd)
    (hedges : ∀ edges, p = .linkstate edges → ∀ x ∈ edges, A x.announced)
    (hresp : ∀ seq sent ip, p = .probeResp seq → n.probe d = some (seq, sent) → W.env c (.dp d) = some ip →
      A ⟨(W.me c).mac, ip.mac, tvUs (timersub now sent), tvMs later⟩)
    (h : n.handle q (W.env c) d now later p = .ok (ret, rd, ms)) : Vouched A (W.env c) rd := by
  cases p with
  | data frame =>
      obtain ⟨⟨f, rd'⟩, hrun, h⟩ := bind_eq_ok.mp h
      have hv' := forward_vouched hrun hv
      simp only at h
      split at h
      · cases h
        exact hv'
      · cases h
        exact hv'
  | linkstate edges =>
      obtain ⟨⟨ret', rd'⟩, hrun, h⟩ := bind_eq_ok.mp h
      cases h
      refine RtOp.vouched (.updateEdges edges) hrun hv ?_
      rintro a ⟨x, hx, rfl⟩
      exact hedges edges rfl x hx
  | probeReq seq =>
      cases h
      exact hv
  | probeResp seq =>
      unfold Station.handle at h
      simp only at h
      split at h
      · cases h
        exact hv
      · rename_i probeSeq sent hprobe
        split at h
        · rename_i hseq
          obtain ⟨⟨ret', rd'⟩, hrun, h⟩ := bind_eq_ok.mp h
          cases h
          refine RtOp.vouched (.dhostAddLink d (tvUs (timersub now sent)) later) hrun hv ?_
          rintro a ⟨ip, hip, hlocal, ha⟩
          rw [isLocalMac_me hr hlocal] at ha
          rw [ha]
          exact hresp probeSeq sent ip (hseq ▸ rfl) hprobe hip
        · cases h
          exact hv

theorem receive_vouched {A : Announced → Prop} {n n' : Station} {p : Packet} {now later : Timeval}
    {ms : List (Nat × Packet)} (hv : Vouched A (W.env c) n.rd) (hr : Reach q (W.env c) [] n.rd)
    (hedges : ∀ edges, p = .linkstate edges → ∀ x ∈ edges, A x.announced)
    (hresp : ∀ seq sent ip, p = .probeResp seq → n.probe d = some (seq, sent) → W.env c (.dp d) = some ip →
      A ⟨(W.me c).mac, ip.mac, tvUs (timersub now sent), tvMs later⟩)
    (h : n.receive q (W.env c) d now later p = .ok (n', ms)) : Vouched A (W.env c) n'.rd := by
  obtain ⟨⟨ret, rd, ms'⟩, hhandle, h⟩ := bind_eq_ok.mp h
  have hv1 := handle_vouched hv hr hedges hresp hhandle
  simp only at h
  split at h
  · cases h
    exact hv1
  · obtain ⟨⟨r1, dps⟩, -, h⟩ := bind_eq_ok.mp h
    obtain ⟨m, -, h⟩ := bind_eq_ok.mp h
    obtain ⟨⟨r2, rd2⟩, hremove, h⟩ := bind_eq_ok.mp h
    cases h
    exact RtOp.vouched (q := q) (.dhostRemove m) hremove hv1 nofun

/-- Local is in the table, under the MAC of its node. -/
theorem exists_local {s : Routing} (h : Reach q (W.env c) [] s) : ∃ (L : HostId) (i : Nat),
    Sound (W.env c) s L ∧ s.hosts.items[i]? = some L ∧ s.mac? (W.env c) L = some (W.me c).mac := by
  obtain ⟨L, hs⟩ := h.sound
  obtain ⟨i, m, -, hm, -, hi⟩ := hs.table.find_local
  have hmac := macOf_eq_ok.mp hm
  obtain rfl := isLocalMac_me h ⟨L, hs.table.isLocal, hmac⟩
  exact ⟨L, i, hs, hi, hmac⟩

/-- **A frame of a node's own tap is sent to hosts only**: for a group, the lookup of the source names nobody. -/
theorem act_unicast {n n' : Station} {a : Action} {ms : List (Nat × Packet)} (hr : Reach q (W.env c) [] n.rd)
    (h : n.act q (W.env c) (W.me c) a = .ok (n', ms)) {d : Nat} {frame : List UInt8} (hm : (d, .data frame) ∈ ms) :
    etherAddrIsMcast (frameDst frame) = false := by
  rcases Station.act_sends h _ hm with ⟨frame', rfl, hframe⟩ | hls | ⟨rnd, now, -, hprobe⟩
  · cases hframe
    rw [← Bool.not_eq_true]
    intro hcast
    obtain ⟨L, i, hs, hi, hmac⟩ := exists_local hr
    obtain ⟨f, rd, hrun, hnone⟩ := rtDhostsToHost_source hs hi hmac hcast
    obtain ⟨⟨f', rd'⟩, hrun', h⟩ := bind_eq_ok.mp h
    cases hrun.symm.trans hrun'
    cases h
    simp [hnone, peersOf] at hm
  · cases hls
  · cases hprobe

/-! ## What things come from -/

variable [DecidableEq ι] {es : List (Event ι)} {e : Event ι} {log log' : ι × Nat → List Packet}

/-- The last probe to peer `d` of node `c`, with the time at which it was sent. The newest event comes first. -/
def lastProbe (c : ι) (d : Nat) (es : List (Event ι)) : Option (UInt16 × Timeval) :=
  es.findSome? fun
    | .act c' (.probe d' rnd now) => if c' = c ∧ d' = d then some (rnd, now) else none
    | _ => none

/-- How many packets the thread of peer `d` of node `c` has taken. -/
def packetsTaken (c : ι) (d : Nat) (es : List (Event ι)) : Nat :=
  es.countP fun
    | .receive c' d' _ _ => c' = c ∧ d' = d
    | _ => false

/-- What was measured: by node `c`, of its own link to peer `d`. A round trip starts with the last probe, and ends with
    the packet that is taken next on the connection, if that is an answer with the number of the probe; `log` has the
    packets that each end has sent. -/
inductive Measured (W : Site ι) (log : ι × Nat → List Packet) (es : List (Event ι)) : Announced → Prop
  | added {c : ι} {d : Nat} {rttUs : UInt32} {now : Timeval} {ip : Ipv4Host}
      (h : .act c (.addLink d rttUs now) ∈ es) (hip : W.env c (.dp d) = some ip) :
      Measured W log es ⟨(W.me c).mac, ip.mac, rttUs, tvMs now⟩
  | probed {c : ι} {d : Nat} {now later start : Timeval} {seq : UInt16} {ip : Ipv4Host} {pre : List (Event ι)}
      (h : .receive c d now later :: pre <:+ es) (hprobe : lastProbe c d pre = some (seq, start))
      (hanswer : (log (W.other (c, d)))[packetsTaken c d pre]? = some (.probeResp seq))
      (hip : W.env c (.dp d) = some ip) :
      Measured W log es ⟨(W.me c).mac, ip.mac, tvUs (timersub now start), tvMs later⟩

/-- What was measured stays so, as time goes on and more is sent. -/
theorem Measured.mono {a : Announced} (h : Measured W log es a) (hsent : ∀ x, log x <+: log' x) (e : Event ι) :
    Measured W log' (e :: es) a := by
  cases h with
  | added h hip => exact .added (List.mem_cons_of_mem e h) hip
  | probed h hprobe hanswer hip =>
      refine .probed (h.trans (List.suffix_cons e es)) hprobe ?_ hip
      obtain ⟨more, hmore⟩ := hsent (W.other (_, _))
      rw [← hmore, List.getElem?_append_left (List.getElem?_eq_some_iff.mp hanswer).1, hanswer]

/-- The numbers of the probes among packets, and of the answers. -/
def asked (ps : List Packet) : List UInt16 :=
  ps.filterMap fun
    | .probeReq seq => some seq
    | _ => none

def answered (ps : List Packet) : List UInt16 :=
  ps.filterMap fun
    | .probeResp seq => some seq
    | _ => none

/-- Where a packet on the way from `c` to its peer `d` comes from. -/
def Origin (W : Site ι) (log : ι × Nat → List Packet) (es : List (Event ι)) (c : ι) (d : Nat) : Packet → Prop
  | .data frame => ∃ c, .act c (.tap frame) ∈ es
  | .linkstate edges => ∀ x ∈ edges, Measured W log es x.announced
  | .probeReq seq => ∃ now, .act c (.probe d seq now) ∈ es
  | .probeResp _ => True

theorem Origin.mono {p : Packet} (h : Origin W log es c d p) (hsent : ∀ x, log x <+: log' x) (e : Event ι) :
    Origin W log' (e :: es) c d p := by
  cases p with
  | data frame => exact h.imp fun c hc => List.mem_cons_of_mem e hc
  | linkstate edges => exact fun x hx => (h x hx).mono hsent e
  | probeReq seq => exact h.imp fun now hnow => List.mem_cons_of_mem e hnow
  | probeResp seq => trivial

/-- The packets that each end has sent. -/
def Net.sent (n : Net ι) (x : ι × Nat) : List Packet := (n.chan x).log

/-- Everything in the network comes from where it should. -/
structure Honest (W : Site ι) (q : Qsort) (es : List (Event ι)) (n : Net ι) : Prop where
  reach : ∀ c, Reach q (W.env c) [] (n.station c).rd
  proper : ∀ x, ∀ p ∈ n.sent x, p.Proper
  probe : ∀ c d, (n.station c).probe d = lastProbe c d es
  taken : ∀ c d, (n.chan (W.other (c, d))).taken = packetsTaken c d es
  vouched : ∀ c, Vouched (Measured W n.sent es) (W.env c) (n.station c).rd
  origin : ∀ c d, ∀ p ∈ n.sent (c, d), Origin W n.sent es c d p
  answers : ∀ x, answered (n.sent x) = asked (n.chan (W.other x)).got

/-! ## The packets -/

section

variable {chan : ι × Nat → Queue Packet} {ms : List (Nat × Packet)} {x : ι × Nat}

/-- What is new in a queue was sent. -/
theorem mem_mails {p : Packet} (h : p ∈ (putAll (mails c ms) chan x).log) :
    p ∈ (chan x).log ∨ x.1 = c ∧ (x.2, p) ∈ ms := by
  refine (mem_putAll h).imp_right fun hmem => ?_
  obtain ⟨m, hm, he⟩ := List.mem_map.mp hmem
  cases he
  exact ⟨rfl, hm⟩

theorem putAll_mails_one (p : Packet) :
    putAll (mails c [(d, p)]) chan = Function.update chan (c, d) ((chan (c, d)).put p) := rfl

/-- Without an answer among what is sent, there are no new ones. -/
theorem answered_mails (h : ∀ m ∈ ms, ∀ seq, m.2 ≠ .probeResp seq) :
    answered (putAll (mails c ms) chan x).log = answered (chan x).log := by
  have hnone : answered (((mails c ms).filter fun m => m.1 = x).map Prod.snd) = [] := by
    apply List.filterMap_eq_nil_iff.mpr
    intro p hp
    obtain ⟨m, hm, rfl⟩ := List.mem_map.mp hp
    obtain ⟨m', hm', rfl⟩ := List.mem_map.mp (List.mem_filter.mp hm).1
    have hno := h m' hm'
    show (match m'.2 with | .probeResp seq => some seq | _ => none) = none
    split
    · rename_i seq heq
      exact absurd heq (hno seq)
    · rfl
  have happend : ∀ ps ps', answered (ps ++ ps') = answered ps ++ answered ps' := fun _ _ => List.filterMap_append
  rw [(putAll_apply x _ chan).1, happend, hnone, List.append_nil]

omit [DecidableEq ι] in
theorem asked_got_take {n : Net ι} {p : Packet} {y : ι × Nat} (hnext : (n.chan y).next? = some p)
    (hne : (n.chan y).next? ≠ none) : asked ((n.chan y).take hne).got = asked (n.chan y).got ++ asked [p] := by
  rw [Queue.got_take hnext]
  exact List.filterMap_append

end

/-! ## The probes -/

theorem lastProbe_cons (hno : ∀ rnd now, e ≠ .act c (.probe d rnd now)) :
    lastProbe c d (e :: es) = lastProbe c d es := by
  cases e with
  | receive c' d' now later => rfl
  | act c' a =>
      cases a with
      | probe d' rnd now =>
          have hne : ¬ (c' = c ∧ d' = d) := by
            rintro ⟨rfl, rfl⟩
            exact hno rnd now rfl
          simp only [lastProbe, List.findSome?_cons, if_neg hne]
      | _ => rfl

theorem lastProbe_act {c : ι} {d : Nat} {rnd : UInt16} {now : Timeval} :
    lastProbe c d (.act c (.probe d rnd now) :: es) = some (rnd, now) := by
  simp only [lastProbe, List.findSome?_cons, and_self, if_true]

@[simp] theorem packetsTaken_act {c' : ι} {a : Action} :
    packetsTaken c d (.act c' a :: es) = packetsTaken c d es := rfl

theorem packetsTaken_receive {c' : ι} {d' : Nat} {now later : Timeval} :
    packetsTaken c d (.receive c' d' now later :: es)
      = packetsTaken c d es + if c' = c ∧ d' = d then 1 else 0 := by
  simp [packetsTaken, List.countP_cons]

/-- What a station knows of its probes after an action. -/
theorem act_probe {env : ExtMem} {me : Ipv4Host} {n n' : Station} {a : Action} {ms : List (Nat × Packet)}
    (h : n.act q env me a = .ok (n', ms)) :
    (∃ d rnd now, a = .probe d rnd now ∧ n'.probe = Function.update n.probe d (some (rnd, now))) ∨
      (∀ d rnd now, a ≠ .probe d rnd now) ∧ n'.probe = n.probe := by
  cases a with
  | probe d rnd now =>
      cases h
      exact Or.inl ⟨d, rnd, now, rfl, rfl⟩
  | tap frame =>
      obtain ⟨⟨f, rd⟩, -, h⟩ := bind_eq_ok.mp h
      cases h
      exact Or.inr ⟨nofun, rfl⟩
  | announce =>
      cases h
      exact Or.inr ⟨nofun, rfl⟩
  | announceTo d =>
      cases h
      exact Or.inr ⟨nofun, rfl⟩
  | addLink d rttUs now =>
      obtain ⟨⟨ret, rd⟩, -, h⟩ := bind_eq_ok.mp h
      cases h
      exact Or.inr ⟨nofun, rfl⟩
  | removeLink dmac =>
      obtain ⟨⟨ret, rd⟩, -, h⟩ := bind_eq_ok.mp h
      cases h
      exact Or.inr ⟨nofun, rfl⟩
  | insert d al =>
      obtain ⟨⟨ret, dps⟩, -, h⟩ := bind_eq_ok.mp h
      cases h
      exact Or.inr ⟨nofun, rfl⟩
  | remove d =>
      obtain ⟨⟨ret, dps⟩, -, h⟩ := bind_eq_ok.mp h
      cases h
      exact Or.inr ⟨nofun, rfl⟩

/-- A packet changes nothing of the probes. -/
theorem receive_probe {env : ExtMem} {n n' : Station} {p : Packet} {now later : Timeval} {ms : List (Nat × Packet)}
    (h : n.receive q env d now later p = .ok (n', ms)) : n'.probe = n.probe := by
  obtain ⟨⟨ret, rd, ms'⟩, -, h⟩ := bind_eq_ok.mp h
  simp only at h
  split at h
  · cases h
    rfl
  · obtain ⟨⟨r1, dps⟩, -, h⟩ := bind_eq_ok.mp h
    obtain ⟨m, -, h⟩ := bind_eq_ok.mp h
    obtain ⟨⟨r2, rd2⟩, -, h⟩ := bind_eq_ok.mp h
    cases h
    rfl

/-! ## One step -/

section

variable {n : Net ι} {st : Station} {ms : List (Nat × Packet)} {chan : ι × Nat → Queue Packet}

/-- The net in which station `c` has become `st` and has sent `ms`, the queues having been `chan` before. -/
def Net.after (n : Net ι) (c : ι) (st : Station) (ms : List (Nat × Packet)) (chan : ι × Nat → Queue Packet) :
    Net ι :=
  ⟨Function.update n.station c st, putAll (mails c ms) chan⟩

theorem Net.sent_prefix (hlog : ∀ x, (chan x).log = n.sent x) (x : ι × Nat) :
    n.sent x <+: (n.after c st ms chan).sent x :=
  hlog x ▸ putAll_log_prefix (mails c ms) chan x

theorem Honest.reach_after (h : W.Honest q es n) (hkept : StationKept q (W.env c) st ms) (c' : ι) :
    Reach q (W.env c') [] ((n.after c st ms chan).station c').rd := by
  unfold Net.after
  by_cases hc : c' = c
  · subst hc
    simp only [Function.update_self]
    exact hkept.reach
  · simp only [Function.update_of_ne hc]
    exact h.reach c'

theorem Honest.proper_after (h : W.Honest q es n) (hkept : StationKept q (W.env c) st ms)
    (hlog : ∀ x, (chan x).log = n.sent x) (x : ι × Nat) : ∀ p ∈ (n.after c st ms chan).sent x, p.Proper := by
  intro p hp
  rcases mem_mails hp with hp | ⟨-, hp⟩
  · exact h.proper x p (hlog x ▸ hp)
  · exact hkept.proper _ hp

/-- The tables of the others are vouched for as they were; that of station `c` has to be. -/
theorem Honest.vouched_after (h : W.Honest q es n) (e : Event ι) (hlog : ∀ x, (chan x).log = n.sent x)
    (hst : Vouched (Measured W (n.after c st ms chan).sent (e :: es)) (W.env c) (n.station c).rd →
      Vouched (Measured W (n.after c st ms chan).sent (e :: es)) (W.env c) st.rd) (c' : ι) :
    Vouched (Measured W (n.after c st ms chan).sent (e :: es)) (W.env c')
      ((n.after c st ms chan).station c').rd := by
  have hprefix : ∀ x, n.sent x <+: (n.after c st ms chan).sent x := Net.sent_prefix hlog
  have hold := (h.vouched c').mono fun _ hm => hm.mono hprefix e
  by_cases hc : c' = c
  · subst hc
    simp only [Net.after, Function.update_self]
    exact hst hold
  · simp only [Net.after, Function.update_of_ne hc]
    exact hold

/-- What was sent before keeps its origin; what is new has to have one. -/
theorem Honest.origin_after (h : W.Honest q es n) (e : Event ι) (hlog : ∀ x, (chan x).log = n.sent x)
    (hnew : ∀ d p, (d, p) ∈ ms → Origin W (n.after c st ms chan).sent (e :: es) c d p) (c' : ι) (d' : Nat) :
    ∀ p ∈ (n.after c st ms chan).sent (c', d'), Origin W (n.after c st ms chan).sent (e :: es) c' d' p := by
  intro p hp
  rcases mem_mails hp with hold | ⟨hc, hmem⟩
  · exact (h.origin c' d' p (hlog _ ▸ hold)).mono (Net.sent_prefix hlog) e
  · obtain rfl : c' = c := hc
    exact hnew d' p hmem

/-! ### Actions -/

theorem Honest.probe_act (h : W.Honest q es n) {a : Action}
    (hact : (n.station c).act q (W.env c) (W.me c) a = .ok (st, ms)) (c' : ι) (d' : Nat) :
    (Function.update n.station c st c').probe d' = lastProbe c' d' (.act c a :: es) := by
  by_cases hc : c' = c
  · subst hc
    simp only [Function.update_self]
    rcases act_probe hact with ⟨d, rnd, now, rfl, hprobe⟩ | ⟨hno, hprobe⟩
    · by_cases hd : d' = d
      · subst hd
        rw [hprobe, Function.update_self, lastProbe_act]
      · rw [hprobe, Function.update_of_ne hd, lastProbe_cons, h.probe]
        intro rnd' now' he
        cases he
        exact hd rfl
    · rw [hprobe, lastProbe_cons, h.probe]
      intro rnd now he
      cases he
      exact hno _ _ _ rfl
  · simp only [Function.update_of_ne hc]
    rw [lastProbe_cons, h.probe]
    intro rnd now he
    cases he
    exact hc rfl

/-- What an action sends has its origin in the action, or in the table. -/
theorem Honest.origin_act (h : W.Honest q es n) {a : Action}
    (hact : (n.station c).act q (W.env c) (W.me c) a = .ok (st, ms)) (d : Nat) (p : Packet) (hmem : (d, p) ∈ ms) :
    Origin W (n.after c st ms n.chan).sent (.act c a :: es) c d p := by
  rcases Station.act_sends hact _ hmem with ⟨frame, rfl, rfl⟩ | rfl | ⟨rnd, now, rfl, rfl⟩
  · exact ⟨c, List.mem_cons_self⟩
  · exact fun x hx => ((h.vouched c).exported x hx).mono (Net.sent_prefix fun _ => rfl) _
  · exact ⟨now, List.mem_cons_self⟩

/-- **Step lemma.** -/
theorem Honest.act (h : W.Honest q es n) {a : Action} (ha : a.Allowed (n.station c))
    (hact : (n.station c).act q (W.env c) (W.me c) a = .ok (st, ms)) :
    W.Honest q (.act c a :: es) (n.after c st ms n.chan) where
  reach := h.reach_after (Station.act_kept ha (h.reach c) hact)
  proper := h.proper_after (Station.act_kept ha (h.reach c) hact) fun _ => rfl
  probe := h.probe_act hact
  taken c' d' := ((putAll_apply _ _ _).2).trans (h.taken c' d')
  vouched := h.vouched_after _ (fun _ => rfl) fun hold =>
    act_vouched hold (h.reach c) (fun _ _ _ _ he hip => .added (he ▸ List.mem_cons_self) hip) hact
  origin := h.origin_after _ (fun _ => rfl) (h.origin_act hact)
  answers x := by
    show answered (putAll (mails c ms) n.chan x).log = asked (putAll (mails c ms) n.chan (W.other x)).got
    rw [putAll_got, answered_mails, ← h.answers]
    · rfl
    · intro m hm seq he
      rcases Station.act_sends hact m hm with ⟨frame, -, hm⟩ | hm | ⟨rnd, now, -, hm⟩
      · cases hm.symm.trans he
      · cases hm.symm.trans he
      · cases hm.symm.trans he

/-! ### Packets -/

section

variable {now later : Timeval} {p : Packet} (hnext : (n.chan (W.other (c, d))).next? = some p)
  (hne : (n.chan (W.other (c, d))).next? ≠ none)
  (hrecv : (n.station c).receive q (W.env c) d now later p = .ok (st, ms))

/-- The queues once the packet for peer `d` of node `c` was taken. -/
def Net.without (n : Net ι) (W : Site ι) (c : ι) (d : Nat) (hne : (n.chan (W.other (c, d))).next? ≠ none) :
    ι × Nat → Queue Packet :=
  Function.update n.chan (W.other (c, d)) ((n.chan (W.other (c, d))).take hne)

theorem Net.without_log (x : ι × Nat) : (n.without W c d hne x).log = n.sent x := log_update_take n.chan hne x

include hrecv in
theorem Honest.probe_receive (h : W.Honest q es n) (c' : ι) (d' : Nat) :
    (Function.update n.station c st c').probe d' = lastProbe c' d' (.receive c d now later :: es) := by
  rw [lastProbe_cons (e := .receive c d now later) (fun _ _ he => nomatch he), ← h.probe]
  by_cases hc : c' = c
  · subst hc
    simp only [Function.update_self]
    rw [receive_probe hrecv]
  · simp only [Function.update_of_ne hc]

/-- One more packet was taken, on this connection only. -/
theorem Honest.taken_receive (h : W.Honest q es n) (c' : ι) (d' : Nat) :
    (putAll (mails c ms) (n.without W c d hne) (W.other (c', d'))).taken
      = packetsTaken c' d' (.receive c d now later :: es) := by
  rw [(putAll_apply _ _ _).2, packetsTaken_receive, ← h.taken]
  by_cases he : c = c' ∧ d = d'
  · obtain ⟨rfl, rfl⟩ := he
    rw [if_pos ⟨rfl, rfl⟩, Net.without, Function.update_self]
    rfl
  · have hother : W.other (c', d') ≠ W.other (c, d) := by
      intro heq
      have hback := congrArg W.other heq
      rw [W.other_other, W.other_other] at hback
      cases hback
      exact he ⟨rfl, rfl⟩
    rw [if_neg he, Net.without, Function.update_of_ne hother]
    rfl

include hnext hrecv in
/-- The table has what the packet carried, or ended the measurement of. -/
theorem Honest.vouched_receive (h : W.Honest q es n)
    (hold : Vouched (Measured W (n.after c st ms (n.without W c d hne)).sent (.receive c d now later :: es))
      (W.env c) (n.station c).rd) :
    Vouched (Measured W (n.after c st ms (n.without W c d hne)).sent (.receive c d now later :: es))
      (W.env c) st.rd := by
  have hsent : ∀ x, n.sent x <+: (n.after c st ms (n.without W c d hne)).sent x :=
    Net.sent_prefix (Net.without_log hne)
  -- the packet was on its way, so it has an origin
  have horigin : Origin W n.sent es (W.other (c, d)).1 (W.other (c, d)).2 p :=
    h.origin _ _ p (Queue.mem_of_next hnext)
  refine receive_vouched hold (h.reach c) ?_ ?_ hrecv
  · rintro edges rfl x hx
    exact (horigin x hx).mono hsent _
  · rintro seq start ip rfl hprobe hip
    rw [h.probe] at hprobe
    refine .probed (List.suffix_refl _) hprobe ?_ hip
    -- it is the one behind those that were taken before
    have hnth : (n.sent (W.other (c, d)))[packetsTaken c d es]? = some (.probeResp seq) := h.taken c d ▸ hnext
    obtain ⟨more, hmore⟩ := hsent (W.other (c, d))
    rw [← hmore, List.getElem?_append_left (List.getElem?_eq_some_iff.mp hnth).1, hnth]

include hnext hrecv in
/-- What is sent on has the origin of the packet; an answer needs none. -/
theorem Honest.origin_receive (h : W.Honest q es n) (d' : Nat) (p' : Packet) (hmem : (d', p') ∈ ms) :
    Origin W (n.after c st ms (n.without W c d hne)).sent (.receive c d now later :: es) c d' p' := by
  have horigin : Origin W n.sent es (W.other (c, d)).1 (W.other (c, d)).2 p :=
    h.origin _ _ p (Queue.mem_of_next hnext)
  rcases Station.receive_sends hrecv with ⟨frame, rfl, hall⟩ | ⟨seq, rfl, rfl⟩ | ⟨-, rfl⟩
  · have hframe : p' = .data frame := hall _ hmem
    subst hframe
    exact horigin.imp fun c hc => List.mem_cons_of_mem _ hc
  · cases List.mem_singleton.mp hmem
    trivial
  · cases hmem

include hnext in
/-- What was asked for is what was taken. -/
theorem asked_without (x : ι × Nat) : asked (n.without W c d hne (W.other x)).got
    = asked (n.chan (W.other x)).got ++ if x = (c, d) then asked [p] else [] := by
  unfold Net.without
  by_cases hx : x = (c, d)
  · subst hx
    rw [Function.update_self, if_pos rfl, asked_got_take hnext]
  · have hother : W.other x ≠ W.other (c, d) := by
      intro he
      apply hx
      rw [← W.other_other x, he, W.other_other]
    rw [Function.update_of_ne hother, if_neg hx, List.append_nil]

include hnext hrecv in
/-- A probe is answered when it is taken, and nothing else is an answer. -/
theorem Honest.answers_receive (h : W.Honest q es n) (x : ι × Nat) :
    answered (putAll (mails c ms) (n.without W c d hne) x).log
      = asked (putAll (mails c ms) (n.without W c d hne) (W.other x)).got := by
  rw [putAll_got, asked_without hnext hne, ← h.answers, ← Net.without_log (W := W) hne x]
  rcases Station.receive_sends hrecv with ⟨frame, rfl, hall⟩ | ⟨seq, rfl, rfl⟩ | ⟨hno, rfl⟩
  · have hframes : ∀ m ∈ ms, ∀ seq, m.2 ≠ .probeResp seq := by
      intro m hm seq he
      cases (hall m hm).symm.trans he
    rw [answered_mails hframes, show asked [.data frame] = [] from rfl, ite_self, List.append_nil]
  · -- the one packet that is an answer
    simp only [putAll_mails_one]
    by_cases hx : x = (c, d)
    · subst hx
      rw [if_pos rfl, Function.update_self]
      exact List.filterMap_append
    · rw [if_neg hx, List.append_nil, Function.update_of_ne hx]
  · have hnone : asked [p] = [] := by
      apply List.filterMap_eq_nil_iff.mpr
      intro p' hp'
      rw [List.mem_singleton.mp hp']
      split
      · rename_i seq
        exact absurd rfl (hno seq)
      · rfl
    rw [hnone, ite_self, List.append_nil]
    rfl

include hnext hrecv in
/-- **Step lemma.** -/
theorem Honest.receive (h : W.Honest q es n) :
    W.Honest q (.receive c d now later :: es) (n.after c st ms (n.without W c d hne)) := by
  have hkept := Station.receive_kept (h.proper _ p (Queue.mem_of_next hnext)) (h.reach c) hrecv
  exact
    { reach := h.reach_after hkept
      proper := h.proper_after hkept (Net.without_log hne)
      probe := h.probe_receive hrecv
      taken := h.taken_receive hne
      vouched := h.vouched_after _ (Net.without_log hne) (h.vouched_receive hnext hne hrecv)
      origin := h.origin_after _ (Net.without_log hne) (h.origin_receive hnext hne hrecv)
      answers := h.answers_receive hnext hne hrecv }

end

/-! ## The run -/

theorem Honest.start (h : (W.packets q).start n) : W.Honest q [] n := by
  obtain ⟨hstations, hchan⟩ := h
  have hsent : ∀ x, n.sent x = [] := fun x => congrArg Queue.log (hchan x)
  constructor
  · exact fun c => .start (hstations c).table
  · intro x p hp
    rw [hsent] at hp
    cases hp
  · exact fun c d => (hstations c).probe d
  · intro c d
    rw [hchan]
    rfl
  · exact fun c => (hstations c).table.vouched
  · intro c d p hp
    rw [hsent] at hp
    cases hp
  · intro x
    rw [hsent, hchan]
    rfl

/-- **Run lemma. Everything comes from where it should**, in every run of the stations. -/
theorem packets_origins (h : (W.packets q).Run es n) : W.Honest q es n := by
  refine h.inv (fun n hn => Honest.start hn) fun es n e n' _ hn hstep => ?_
  cases hstep with
  | act ha hact => exact hn.act ha hact
  | receive _ _ hnext hne hrecv => exact hn.receive hnext hne hrecv

/-! ## The nodes -/

variable {m : ι → Node}

/-- **Every link of a table was measured by the node that it starts from.** In every run of the program's nodes the
    streams consist of packets, and no link is in any table, and no edge in any link state that is sent, whatever way
    it went through the network, but with the round-trip time and the timestamp of a measurement of that node, and of
    its own peer. -/
theorem bytes_vouched (h : (W.bytes q).Run es m) : ∃ chan : ι × Nat → Queue Packet,
    (∀ x, Carries (Packet.enc (W.me x.1)) (W.stream m x) (chan x)) ∧
      ∀ c, Vouched (Measured W (fun x => (chan x).log) es) (W.env c) (m c).rd := by
  obtain ⟨n, hrun, hlike⟩ := h.follows bytes_follows
  refine ⟨n.chan, hlike.carries, fun c => ?_⟩
  have hv := (packets_origins hrun).vouched c
  rw [hlike.station] at hv
  exact hv

/-- Node `1` of the two exports the link that it measured with its probe, which took 700 µs. -/
theorem bytes_vouched_pair : ∃ (m : Bool → Node) (chan : Bool × Nat → Queue Packet),
    (pair.bytes .insertion).Run pairEvents m ∧
    packEdge (lineHost 1) (lineHost 0) 700 3000 ∈ (m true).rd.edges.items ∧
    (∀ x, Carries (Packet.enc (pair.me x.1)) (pair.stream m x) (chan x)) ∧
      Vouched (Measured pair (fun x => (chan x).log) pairEvents) (pair.env true) (m true).rd := by
  have hreplay : (pair.replay .insertion (fun c => aloneAt (pair.env c)) pairEvents).map
      (fun m => (m true).rd.edges.items.getLast?) = some (some (packEdge (lineHost 1) (lineHost 0) 700 3000)) := by
    decide +kernel
  obtain ⟨m, hm, hlast⟩ := Option.map_eq_some_iff.mp hreplay
  have hrun := pair.replay_run .insertion pair_start hm
  obtain ⟨chan, hcarries, hvouched⟩ := bytes_vouched hrun
  exact ⟨m, chan, hrun, List.mem_of_getLast? hlast, hcarries, hvouched true⟩

/-- **Frames and probes.** In every run the streams consist of packets; each frame among them was read from the tap
    of some node, unchanged; and on each connection the numbers of the answers sent are those of the probes taken, in
    the same order. -/
theorem bytes_origins (h : (W.bytes q).Run es m) : ∃ chan : ι × Nat → Queue Packet,
    (∀ x, Carries (Packet.enc (W.me x.1)) (W.stream m x) (chan x)) ∧
      (∀ x frame, .data frame ∈ (chan x).log → ∃ c, .act c (.tap frame) ∈ es) ∧
      (∀ x seq, .probeReq seq ∈ (chan x).log → ∃ now, .act x.1 (.probe x.2 seq now) ∈ es) ∧
        ∀ x, answered (chan x).log = asked (chan (W.other x)).got := by
  obtain ⟨n, hrun, hlike⟩ := h.follows bytes_follows
  have hn := packets_origins hrun
  refine ⟨n.chan, hlike.carries, fun x frame hx => ?_, fun x seq hx => ?_, hn.answers⟩
  · exact hn.origin x.1 x.2 _ hx
  · exact hn.origin x.1 x.2 _ hx

/-- Each of the two takes the probe of the other one and answers it. -/
theorem bytes_origins_pair : ∃ (m : Bool → Node) (chan : Bool × Nat → Queue Packet),
    (pair.bytes .insertion).Run pairEvents m ∧
    (∀ x, Carries (Packet.enc (pair.me x.1)) (pair.stream m x) (chan x)) ∧ ((m true).out 0).sent.length = 12 ∧
      answered (chan (false, 0)).log = asked (chan (true, 0)).got := by
  have hreplay : (pair.replay .insertion (fun c => aloneAt (pair.env c)) pairEvents).map
      (fun m => ((m true).out 0).sent.length) = some 12 := by
    decide +kernel
  obtain ⟨m, hm, hsent⟩ := Option.map_eq_some_iff.mp hreplay
  have hrun := pair.replay_run .insertion pair_start hm
  obtain ⟨chan, hcarries, -, -, hanswers⟩ := bytes_origins hrun
  exact ⟨m, chan, hrun, hcarries, hsent, hanswers (false, 0)⟩

end

/-! ## Frames for a group -/

/-- **No frame for a group gets into a queue**: no tap sends one, and nobody else has one to send on. -/
theorem packets_unicast {n : Net ι} (h : (W.packets q).Run es n) : ∀ x frame, .data frame ∈ (n.chan x).log →
    etherAddrIsMcast (frameDst frame) = false := by
  refine h.inv (P := fun _ n => ∀ x frame, .data frame ∈ (n.chan x).log →
    etherAddrIsMcast (frameDst frame) = false) (fun n hn x frame hx => ?_) fun es n e n' hrun hn hstep => ?_
  · rw [hn.2 x] at hx
    cases hx
  · cases hstep with
    | @act c a st ms ha hact =>
        intro x frame hx
        rcases mem_mails hx with hold | ⟨-, hnew⟩
        · exact hn x frame hold
        · exact act_unicast ((packets_origins hrun).reach c) hact hnew
    | @receive c d now later p st ms _ _ hnext hne hrecv =>
        intro x frame hx
        rcases mem_mails hx with hold | ⟨-, hnew⟩
        · by_cases he : x = W.other (c, d)
          · subst he
            rw [Function.update_self] at hold
            exact hn _ frame hold
          · rw [Function.update_of_ne he] at hold
            exact hn x frame hold
        · -- it was taken from the queue at the other end
          rcases Station.receive_sends hrecv with ⟨frame', rfl, hall⟩ | ⟨seq, -, rfl⟩ | ⟨-, rfl⟩
          · cases hall _ hnew
            exact hn _ frame (Queue.mem_of_next hnext)
          · cases List.mem_singleton.mp hnew
          · cases hnew

/-- **Broadcasts never leave a node.** In every run of the program's nodes, whatever their tables say, the streams
    consist of packets, and no frame among them has a group address as its destination. -/
theorem bytes_unicast {m : ι → Node} (h : (W.bytes q).Run es m) : ∃ chan : ι × Nat → Queue Packet,
    (∀ x, Carries (Packet.enc (W.me x.1)) (W.stream m x) (chan x)) ∧
      ∀ x frame, .data frame ∈ (chan x).log → etherAddrIsMcast (frameDst frame) = false := by
  obtain ⟨n, hrun, hlike⟩ := h.follows bytes_follows
  exact ⟨n.chan, hlike.carries, packets_unicast hrun⟩

/-- A broadcast, from the tap of host `0`. -/
def groupFrame : List UInt8 := broadcastMac.addr.toList ++ (lineHost 0).mac.addr.toList ++ [8, 6]

/-- The tap of node `0` gives a broadcast, and the link to node `1` is there. -/
def groupEvents : List (Event Bool) := [.act false (.tap groupFrame), .act false (.addLink 0 10 ⟨1, 0⟩)]

/-- Node `1` does not get it. -/
theorem bytes_unicast_pair : ∃ (m : Bool → Node) (chan : Bool × Nat → Queue Packet),
    (pair.bytes .insertion).Run groupEvents m ∧ ((m false).out 0).sent = [] ∧
    (∀ x, Carries (Packet.enc (pair.me x.1)) (pair.stream m x) (chan x)) ∧
      ∀ x frame, .data frame ∈ (chan x).log → etherAddrIsMcast (frameDst frame) = false := by
  have hreplay : (pair.replay .insertion (fun c => aloneAt (pair.env c)) groupEvents).map
      (fun m => ((m false).out 0).sent) = some [] := by
    decide +kernel
  obtain ⟨m, hm, hsent⟩ := Option.map_eq_some_iff.mp hreplay
  have hrun := pair.replay_run .insertion pair_start hm
  obtain ⟨chan, hcarries, hunicast⟩ := bytes_unicast hrun
  exact ⟨m, chan, hrun, hsent, hcarries, hunicast⟩

end Site

end P2pVn
