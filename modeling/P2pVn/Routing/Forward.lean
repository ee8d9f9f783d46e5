import P2pVn.Routing.Ops

/-!
# `Routing.Forward` — `rt_dhosts_to_host` and `rt_get_edges`

To whom a frame is to be sent. The result says whether the read lock is still held: the callers release it
with `rt_hosts_free` whenever the code is not negative.
-/

namespace P2pVn
open CUb

namespace Routing

/-- What `rt_dhosts_to_host` returns: code, list of addresses, and whether the read lock is held. -/
structure Forwards where
  ret : Int
  res : List HostPtr
  rdlock : Bool
  deriving DecidableEq, Repr

/-- The exit `error_ret`. -/
def Forwards.error (ret : Int) : Forwards := ⟨ret, [], false⟩

/-! ## The multicast branch -/

/-- The path from `next_i` to `cur`, appended to `src_to_cur`; the loop has no bound of its own. -/
def srcToCur (s : Routing) (curI : Nat) : Nat → Nat → Da Nat → AllocScript → Ub (Da Nat × AllocScript)
  | 0, _, _, _ => .error .nonTermination
  | fuel + 1, nextI, path, al => do
    match ← s.next.entry nextI curI with
    | none =>
      let (_, path, al) := path.addToEnd curI al
      pure (path, al)
    | some k =>
      let (_, path, al) := path.addToEnd k al
      srcToCur s curI fuel k path al

/-- Whether the path from `next_i` to `i` starts with all of `src_to_cur`. -/
def startsWith (s : Routing) (i : Nat) : List Nat → Nat → Ub Bool
  | [], _ => .error .uninitialised
  | p :: ps, nextI => do
    match ← s.next.entry nextI i with
    | none => pure false
    | some k => if k ≠ p then pure false else if ps = [] then pure true else startsWith s i ps k

/-- The destinations below `m_ct` that are reached through `cur`. -/
def collectDsts (s : Routing) (path : List Nat) (srcI : Nat) :
    List Nat → Da Nat → AllocScript → Ub (Da Nat × AllocScript)
  | [], dsts, al => pure (dsts, al)
  | i :: is, dsts, al => do
    if ← s.startsWith i path srcI then
      let (_, dsts, al) := dsts.addToEnd i al
      collectDsts s path srcI is dsts al
    else collectDsts s path srcI is dsts al

/-- The list of `rt_hosts`; the result of `malloc` is not checked. -/
def hostList (s : Routing) : List Nat → AllocScript → Ub (List HostPtr × AllocScript)
  | [], al => pure ([], al)
  | i :: is, al => do
    let (ok, al) := takeAlloc al
    if !ok then .error .nullDeref
    else
      let h ← s.host (← s.itemAt i)
      let (hs, al) ← hostList s is al
      pure (h.host :: hs, al)

/-- The multicast branch, from `cur`'s index on. -/
def multicast (env : ExtMem) (s : Routing) (curI : Nat) (srcMac : EtherAddr) : Ub (Forwards × Routing) := do
  match ← s.findHostByAddr env srcMac with
  | none => pure (.error (-2), s)
  | some srcI =>
    let (fail, path, al) := Da.init (α := Nat) 8 s.allocs
    if fail then pure (.error (-33), { s with allocs := al })
    else if (← s.path.entry srcI curI) = pathDiscon then pure (.error 0, { s with allocs := al })
    else
      let (path, al) ← s.srcToCur curI (s.mCt + 1) srcI path al
      let (fail, dsts, al) := Da.init (α := Nat) s.mCt al
      if fail then pure (.error (-34), { s with allocs := al })
      else
        let (dsts, al) ← s.collectDsts path.items srcI (List.range s.mCt) dsts al
        let (hs, al) ← s.hostList dsts.items al
        pure (⟨0, hs, true⟩, { s with allocs := al })

/-! ## The unicast branch -/

/-- The unicast branch, from `cur`'s index on. -/
def unicast (env : ExtMem) (s : Routing) (curI : Nat) (dstMac : EtherAddr) : Ub (Forwards × Routing) := do
  match ← s.findHostByAddr env dstMac with
  | none => pure (.error (-1), s)
  | some dstI =>
    let nextI ← s.next.entry curI dstI
    if (← s.path.entry curI dstI) = pathDiscon then pure (⟨0, [], true⟩, s)
    else
      -- `NEXT_DISCON`: a direct route
      let next := nextI.getD dstI
      let (ok, s) := s.malloc
      if !ok then pure (.error (-3), s)
      else
        let h ← s.host (← s.itemAt next)
        pure (⟨0, [h.host], true⟩, s)

/-! ## The function -/

/-- `rt_dhosts_to_host`. -/
def rtDhostsToHost (env : ExtMem) (s : Routing) (srcMac dstMac : EtherAddr) :
    Ub (Forwards × Routing) := do
  let (ret, s) ← if s.mCt ≠ s.hosts.ct then s.computePaths env else pure (0, s)
  if ret ≠ 0 then pure (.error ret, s)
  else
    match ← s.findHostByAddr env (← s.macOf env (← s.theLocal)) with
    | none => pure (.error (-13), s)
    | some curI =>
      if etherAddrIsMcast dstMac then s.multicast env curI srcMac else s.unicast env curI dstMac

/-- `rt_get_edges`, which leaves the read lock held. -/
def rtGetEdges (s : Routing) : Int × List PktEdge := (0, s.edges.items)

end Routing

end P2pVn
