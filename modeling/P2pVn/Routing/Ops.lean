import P2pVn.Routing.Cache

/-!
# `Routing.Ops` — the operations that change the table

`rt_lhost_add`, `rt_dhost_add_link`, `rt_update_edges` and `rt_dhost_remove`. Each of the last three runs
under the write lock, changes hosts and links, and ends in `update_cache`; the part before that call is a
definition of its own (`linkDhost`, `mergeEdges`, `unlinkDhost`), which returns `0` where the operation goes
on to `update_cache`.
-/

namespace P2pVn
open CUb

namespace Routing

/-! ## Adding hosts and links -/

/-- `host_alloc`: the code, and the new record. `ipHost` is the pointer passed in; a temporary of the caller
    is a `HostPtr.heap`. -/
def hostAlloc (env : ExtMem) (s : Routing) (ipHost : HostPtr) (type : HostType) :
    Ub (Int × HostId × Routing) := do
  let (ok, s) := s.malloc
  if !ok then pure (-1, 0, s)
  else
    let (fail, links, al) := Da.init rtLinkInit s.allocs
    let s := { s with allocs := al }
    if fail then pure (-1, 0, s)
    else if type = .htDirect ∨ type = .htLocal then
      pure (0, s.recs.fresh,
        { s with recs := s.recs.alloc { host := ipHost, type := type, lMaxTsMs := 0, links := links } })
    else
      let (ok, s) := s.malloc
      if !ok then pure (-4, 0, s)
      else
        let ip ← ipOf env ipHost
        pure (0, s.recs.fresh,
          { s with recs := s.recs.alloc { host := .heap ip, type := type, lMaxTsMs := 0, links := links } })

/-- `link_add`. -/
def linkAdd (q : Qsort) (env : ExtMem) (s : Routing) (src dst : HostId) (rttUs : UInt32)
    (tsMs : UInt64) : Ub (Int × Routing) := do
  let h ← s.host src
  let (fail, links, al) := h.links.addToEnd ⟨dst, rttUs, tsMs⟩ s.allocs
  if fail then pure (-1, { s with allocs := al })
  else
    let lMaxTsMs := if tsMs > h.lMaxTsMs then tsMs else h.lMaxTsMs
    let items ← sortBy q memcmp (fun l => s.macOf env l.dst) links.items
    let s := s.store src { h with links := links.withItems items, lMaxTsMs := lMaxTsMs }
    pure (0, { s with allocs := al })

/-- `host_insert_unchecked`. -/
def hostInsertUnchecked (q : Qsort) (env : ExtMem) (s : Routing) (newHost : HostId) :
    Ub (Int × Routing) := do
  let (fail, hosts, al) := s.hosts.addToEnd newHost s.allocs
  if fail then pure (-1, { s with allocs := al })
  else
    let items ← sortBy q memcmp (s.macOf env) hosts.items
    pure (0, { s with hosts := hosts.withItems items, allocs := al })

/-- `host_add`: the code, and the new record. -/
def hostAdd (q : Qsort) (env : ExtMem) (s : Routing) (ipHost : HostPtr) (type : HostType) :
    Ub (Int × HostId × Routing) := do
  let ip ← ipOf env ipHost
  match ← s.findHostByAddr env ip.mac with
  | some _ => pure (1, 0, s)
  | none =>
    let (ret, nh, s) ← s.hostAlloc env ipHost type
    if ret ≠ 0 then pure (-3, 0, s)
    else
      let (ret, s) ← s.hostInsertUnchecked q env nh
      if ret < 0 then pure (ret, 0, { s with recs := s.recs.free nh }) else pure (0, nh, s)

/-! ## The local host -/

/-- `rt_init`; `al` scripts the allocations from here on. -/
def rtInit (al : AllocScript) : Int × Routing :=
  let (failH, hosts, al) := Da.init rtHostInit al
  let (failE, edges, al) := Da.init daInitMem al
  let s : Routing := ⟨hosts, none, 0, .null, .null, edges, CellHeap.empty, al⟩
  if failH then (-1, s) else if failE then (-2, s) else (0, s)

/-- `rt_lhost_add`. -/
def rtLhostAdd (q : Qsort) (env : ExtMem) (s : Routing) (ipHost : HostPtr) : Ub (Int × Routing) := do
  let (p, h, s) ← s.hostAdd q env ipHost .htLocal
  if p = 0 then pure (p, { s with localHost := some h }) else pure (p, s)

/-! ## Direct peers -/

/-- `ihost_to_dhost`. -/
def ihostToDhost (s : Routing) (id : HostId) (ipHost : HostPtr) : Ub Routing := do
  let h ← s.host id
  if h.type = .htNormal then pure (s.store id { h with host := ipHost, type := .htDirect }) else pure s

/-- `rt_dhost_add_link` before `update_cache`; `now` is what `gettimeofday` returns. -/
def linkDhost (q : Qsort) (env : ExtMem) (s : Routing) (dstIpHost : HostPtr) (rttUs : UInt32)
    (now : Timeval) : Ub (Int × Routing) := do
  match ← s.findHostByAddr env (← s.macOf env (← s.theLocal)) with
  | none => pure (-1, s)
  | some srcI =>
    let sh ← s.itemAt srcI
    let dst ← ipOf env dstIpHost
    if (← s.macOf env sh) = dst.mac then pure (-2, s)
    else
      let shRec ← s.host sh
      match ← s.findLinkByAddr env shRec.links.items dst.mac with
      | none =>
        match ← s.findHostByAddr env dst.mac with
        | none =>
          let (ret, dstHost, s) ← s.hostAdd q env dstIpHost .htDirect
          if ret ≠ 0 then pure (-2, s)
          else
            let (ret, s) ← s.linkAdd q env sh dstHost rttUs (tvMs now)
            if ret ≠ 0 then pure (-3, s) else pure (0, s)
        | some dstI =>
          let dstHost ← s.itemAt dstI
          let s ← s.ihostToDhost dstHost dstIpHost
          let (ret, s) ← s.linkAdd q env sh dstHost rttUs (tvMs now)
          if ret ≠ 0 then pure (-3, s) else pure (0, s)
      | some i =>
        let items := shRec.links.items.modify i fun l => { l with rttUs := rttUs, tsMs := tvMs now }
        pure (0, s.store sh { shRec with links := shRec.links.withItems items })

/-- `rt_dhost_add_link`. -/
def rtDhostAddLink (q : Qsort) (env : ExtMem) (s : Routing) (dstIpHost : HostPtr) (rttUs : UInt32)
    (now : Timeval) : Ub (Int × Routing) := do
  let (ret, s) ← s.linkDhost q env dstIpHost rttUs now
  if ret ≠ 0 then pure (ret, s)
  else
    let (ret, s) ← s.updateCache env
    if ret ≠ 0 then pure (-5, s) else pure (0, s)

/-- `rt_dhost_remove` before `update_cache`. -/
def unlinkDhost (env : ExtMem) (s : Routing) (dmac : EtherAddr) : Ub (Int × Routing) := do
  match ← s.findHostByAddr env (← s.macOf env (← s.theLocal)) with
  | none => pure (-10, s)
  | some srcI =>
    let sh ← s.itemAt srcI
    let shRec ← s.host sh
    match ← s.findLinkByAddr env shRec.links.items dmac with
    | none => pure (1, s)
    | some i =>
      match shRec.links.items[i]? with
      | none => .error .outOfBounds
      | some l =>
        let h ← s.host l.dst
        if h.type ≠ .htDirect then pure (-5, s)
        else
          let (ok, s) := s.malloc
          if !ok then pure (-3, s)
          else
            let ip ← ipOf env h.host
            let s := s.store l.dst { h with host := .heap ip, type := .htNormal }
            let s ← s.linkRemove sh i
            pure (0, s)

/-- `rt_dhost_remove`. -/
def rtDhostRemove (env : ExtMem) (s : Routing) (dmac : EtherAddr) : Ub (Int × Routing) := do
  let (ret, s) ← s.unlinkDhost env dmac
  if ret ≠ 0 then pure (ret, s)
  else
    let (ret, s) ← s.updateCache env
    if ret ≠ 0 then pure (-2, s) else pure (0, s)

/-! ## Link state from neighbours -/

/-- `pkt_edges_cmp_src`: by source, then the greater time stamp (as it lies in the packet) first. -/
def pktEdgesCmpSrc (e1 e2 : PktEdge) : Ordering :=
  (memcmp e1.src.mac e2.src.mac).then (compare e2.tsMs e1.tsMs)

/-- The state that the loop of `rt_update_edges` carries from edge to edge. -/
structure MergeState where
  rd : Routing
  curIpSrc : EtherAddr
  curHostSrc : Option HostId
  contToNewSrc : Bool

/-- What the loop does with an edge whose source it is to merge: find or create the destination and add
    the link. `host_add`'s result is ignored, so a failure leaves `dst_host` uninitialised. -/
def mergeLink (q : Qsort) (env : ExtMem) (m : MergeState) (curHost : HostId) (dst : Ipv4Host)
    (rttUs : UInt32) (tsMs : UInt64) : Ub (Int × MergeState) := do
  match ← m.rd.findHostByAddr env dst.mac with
  | none =>
    let (ret, dstHost, rd) ← m.rd.hostAdd q env (.heap dst) .htNormal
    if ret ≠ 0 then .error .uninitialised
    else
      let (ret, rd) ← rd.linkAdd q env curHost dstHost rttUs tsMs
      pure (if ret ≠ 0 then -2 else 0, { m with rd := rd })
  | some dstI =>
    let dstHost ← m.rd.itemAt dstI
    let (ret, rd) ← m.rd.linkAdd q env curHost dstHost rttUs tsMs
    pure (if ret ≠ 0 then -2 else 0, { m with rd := rd })

/-- The source of an edge is not the current one: look it up. The second component tells whether the
    edge is to be merged (`some` record) or skipped. -/
def newSource (q : Qsort) (env : ExtMem) (m : MergeState) (src : Ipv4Host) (tsMs : UInt64) :
    Ub (Int × Option HostId × MergeState) := do
  match ← m.rd.findHostByAddr env src.mac with
  | none =>
    let (ret, nh, rd) ← m.rd.hostAdd q env (.heap src) .htNormal
    if ret ≠ 0 then pure (-1, none, { m with rd := rd, curIpSrc := src.mac })
    else pure (0, some nh, { m with rd := rd, curIpSrc := src.mac, curHostSrc := some nh })
  | some i =>
    let id ← m.rd.itemAt i
    let h ← m.rd.host id
    if h.type ≠ .htLocal ∧ h.lMaxTsMs < tsMs then
      pure (0, some id, { m with
        rd := m.rd.store id { h with links := h.links.clear }
        curIpSrc := src.mac
        curHostSrc := some id })
    else
      pure (0, none, { m with curIpSrc := src.mac, curHostSrc := some id, contToNewSrc := true })

/-- One iteration of the loop over the sorted edges. -/
def mergeEdge (q : Qsort) (env : ExtMem) (m : MergeState) (e : PktEdge) : Ub (Int × MergeState) := do
  let rttUs := ntohl e.rttUs
  let tsMs := ntohll e.tsMs
  let src := pktIpv4Unpack e.src
  let dst := pktIpv4Unpack e.dst
  if src.mac = dst.mac then pure (0, m)
  else if m.contToNewSrc = true ∧ src.mac = m.curIpSrc then pure (0, m)
  else
    let m := { m with contToNewSrc := false }
    let (ret, go, m) ←
      if m.curHostSrc.isNone ∨ src.mac ≠ m.curIpSrc then newSource q env m src tsMs
      else pure (0, m.curHostSrc, m)
    if ret ≠ 0 then pure (ret, m)
    else match go with
      | none => pure (0, m)
      | some cur => mergeLink q env m cur dst rttUs tsMs

/-- The loop, which an error leaves at once. -/
def mergeLoop (q : Qsort) (env : ExtMem) : List PktEdge → MergeState → Ub (Int × MergeState)
  | [], m => pure (0, m)
  | e :: es, m => do
    let (ret, m) ← mergeEdge q env m e
    if ret ≠ 0 then pure (ret, m) else mergeLoop q env es m

/-- `rt_update_edges` before `update_cache`. -/
def mergeEdges (q : Qsort) (env : ExtMem) (s : Routing) (edges : List PktEdge) : Ub (Int × Routing) := do
  let (ret, m) ← mergeLoop q env (q.sort pktEdgesCmpSrc edges) ⟨s, ⟨Vector.replicate 6 0⟩, none, false⟩
  pure (ret, m.rd)

/-- `rt_update_edges`. -/
def rtUpdateEdges (q : Qsort) (env : ExtMem) (s : Routing) (edges : List PktEdge) :
    Ub (Int × Routing) := do
  let (ret, s) ← s.mergeEdges q env edges
  if ret ≠ 0 then pure (ret, s)
  else
    let (ret, s) ← s.updateCache env
    if ret ≠ 0 then pure (-5, s) else pure (0, s)

end Routing

end P2pVn
