import P2pVn.Routing.Paths

/-!
# `Routing.Cache` — exporting edges, trimming hosts, `update_cache`

What every table operation does at its end: drop the hosts that the previous path matrix shows as
disconnected, compute the paths again, and append the current links to the exported edges.
-/

namespace P2pVn
open CUb

namespace Routing

/-! ## Exported edges -/

/-- The `_pkt_edge` that `update_exported_edges` writes for a link. -/
def packEdge (src dst : Ipv4Host) (rttUs : UInt32) (tsMs : UInt64) : PktEdge where
  src := pktIpv4Pack src
  dst := pktIpv4Pack dst
  rttUs := htonl rttUs
  tsMs := htonll tsMs

/-- The inner loop for host `i` with packed address `src`: links from position `j` on. -/
def exportLinks (env : ExtMem) (i : Nat) (src : Ipv4Host) :
    Nat → List RtLink → Routing → Ub (Int × Routing)
  | _, [], s => pure (0, s)
  | j, link :: links, s => do
    -- the filter looks at column `j`, the position of the link in the list
    if (← s.path.entry i j) = 0 then exportLinks env i src (j + 1) links s
    else
      let dstHost ← s.host link.dst
      let dst ← ipOf env dstHost.host
      let (fail, edges, al) := s.edges.addToEnd (packEdge src dst link.rttUs link.tsMs) s.allocs
      if fail then pure (-1, { s with allocs := al })
      else exportLinks env i src (j + 1) links { s with edges := edges, allocs := al }

/-- The outer loop: hosts from position `i` on. -/
def exportHosts (env : ExtMem) : Nat → List HostId → Routing → Ub (Int × Routing)
  | _, [], s => pure (0, s)
  | i, id :: ids, s => do
    let h ← s.host id
    let src ← ipOf env h.host
    let (ret, s) ← exportLinks env i src 0 h.links.items s
    if ret ≠ 0 then pure (ret, s) else exportHosts env (i + 1) ids s

/-- `update_exported_edges`. -/
def updateExportedEdges (env : ExtMem) (s : Routing) : Ub (Int × Routing) :=
  exportHosts env 0 s.hosts.items s

/-! ## Removing hosts -/

/-- `link_remove` of the link at position `i` of `src`. -/
def linkRemove (s : Routing) (src : HostId) (i : Nat) : Ub Routing := do
  let h ← s.host src
  pure (s.store src { h with links := h.links.remove i })

/-- `free_host`: a copy of the address can be freed, a caller's address cannot. -/
def freeHost (s : Routing) (id : HostId) : Ub Routing := do
  let h ← s.host id
  match h.host with
  | .env _ => .error .badFree
  | .heap _ => pure { s with recs := s.recs.free id }

/-- `host_remove` of the element at position `i`. -/
def hostRemove (s : Routing) (i : Nat) : Routing := { s with hosts := s.hosts.remove i }

/-- Remove from record `src` the link to the host `h`, if a search finds one. -/
def unlinkFrom (env : ExtMem) (h : HostId) (s : Routing) (src : HostId) : Ub Routing := do
  let posSrc ← s.host src
  match ← s.findLinkByAddr env posSrc.links.items (← s.macOf env h) with
  | some link => s.linkRemove src link
  | none => pure s

/-- `trim_host` of the element at position `i`. -/
def trimHost (env : ExtMem) (s : Routing) (i : Nat) : Ub Routing := do
  let id ← s.itemAt i
  let h ← s.host id
  if h.type ≠ .htNormal then pure s
  else
    let s ← s.hosts.items.foldlM (unlinkFrom env id) s
    let s := s.hostRemove i
    -- `*h` is read again after the elements behind it moved down; behind the last one it still is `id`
    match s.hosts.items[i]? with
    | some id' => s.freeHost id'
    | none => s.freeHost id

/-- The loop of `trim_disjoint_hosts` from `dst_i` on. Its bound never grows, so the entry count of hosts
    is enough rounds. -/
def trimLoop (env : ExtMem) (srcI : Nat) : Nat → Nat → Routing → Ub Routing
  | 0, _, s => pure s
  | fuel + 1, dstI, s =>
    if dstI < s.hosts.ct then do
      let path ← s.path.entry srcI dstI
      if path = 0 ∧ dstI ≠ srcI then
        trimLoop env srcI fuel (dstI + 1) (← s.trimHost env dstI)
      else trimLoop env srcI fuel (dstI + 1) s
    else pure s

/-- `trim_disjoint_hosts`. -/
def trimDisjointHosts (env : ExtMem) (s : Routing) : Ub (Int × Routing) := do
  let src ← s.findHostByAddr env (← s.macOf env (← s.theLocal))
  if s.mCt ≠ s.hosts.ct then pure (1, s)
  else match src with
    | none => .error .nullDeref
    | some srcI => do
      let s ← trimLoop env srcI s.hosts.ct 0 s
      pure (0, s)

/-! ## `update_cache` -/

/-- `update_cache`. -/
def updateCache (env : ExtMem) (s : Routing) : Ub (Int × Routing) := do
  let (ret, s) ← s.trimDisjointHosts env
  if ret < 0 then pure (ret, s)
  else
    let (ret, s) ← s.computePaths env
    if ret < 0 then pure (ret, s)
    else
      let (ret, s) ← s.updateExportedEdges env
      if ret < 0 then pure (ret, s) else pure (0, s)

end Routing

end P2pVn
