import P2pVn.Lib.CellHeap
import P2pVn.Lib.Grid
import P2pVn.Lib.Sorting
import P2pVn.DArray
import P2pVn.Pkt
import P2pVn.StdParam

/-!
# `Routing.Types` — the routing table and its memory (`routing.h`)

A host record (`struct _rt_host`) is a cell of a store and is known by its address, as it is in C: the table
`hosts` and the links hold addresses. A record's `host` field points either to a copy that the record owns
(`HostPtr.heap`) or into memory of the caller (`HostPtr.env`: the `remote_host` of a direct peer, or the
address of the local host). The caller's memory is not part of the table; it is a parameter `env`, so that
"nobody changes it from outside" is a statement about `env`.

Every access goes through `Routing.host`, `Routing.macOf` or `MatPtr.entry`, which fault where the C program
would use freed memory or leave an array.
-/

namespace P2pVn
open CUb

/-! ## Pointers to host addresses -/

/-- An `ipv4_host` that a caller owns: `main`'s own, or `&dp->remote_host` of peer `d`. -/
inductive ExtPtr where
  | lhost
  | dp (d : Nat)
  deriving DecidableEq, Repr

/-- The callers' memory; `none` is freed memory. -/
abbrev ExtMem := ExtPtr → Option Ipv4Host

/-- What `_rt_host.host` points to. -/
inductive HostPtr where
  | heap (ip : Ipv4Host)
  | env (p : ExtPtr)
  deriving DecidableEq, Repr

/-- The address a host pointer leads to. -/
def HostPtr.deref (env : ExtMem) : HostPtr → Option Ipv4Host
  | .heap ip => some ip
  | .env p => env p

/-! ## Records -/

/-- The address of a host record. -/
abbrev HostId := Nat

/-- `struct _rt_link`. -/
structure RtLink where
  dst : HostId
  rttUs : UInt32
  tsMs : UInt64
  deriving DecidableEq, Repr

/-- `enum host_type`. -/
inductive HostType where
  | htLocal
  | htDirect
  | htNormal
  deriving DecidableEq, Repr

/-- `struct _rt_host`. -/
structure RtHost where
  host : HostPtr
  type : HostType
  lMaxTsMs : UInt64
  links : Da RtLink
  deriving DecidableEq, Repr

/-! ## Path matrices -/

/-- A matrix held as a table of row pointers: never allocated, usable, with its rows freed, or moved away. -/
inductive MatPtr (α : Type) where
  | null
  | live {n : Nat} (g : Grid α n)
  | rowsFreed
  | dangling

namespace MatPtr

variable {α : Type}

/-- `path[i][j]`. -/
def entry [Inhabited α] (p : MatPtr α) (i j : Nat) : Ub α :=
  match p with
  | .live (n := n) g => if i < n ∧ j < n then .ok (g.get i j) else .error .outOfBounds
  | .null => .error .nullDeref
  | .rowsFreed => .error .useAfterFree
  | .dangling => .error .useAfterFree

/-- `free(path[i])` for every `i < ct`. -/
def freeRows (p : MatPtr α) (ct : Nat) : Ub (MatPtr α) :=
  if ct = 0 then .ok p
  else match p with
    | .live (n := n) _ => if ct ≤ n then .ok .rowsFreed else .error .outOfBounds
    | .null => .error .nullDeref
    | .rowsFreed => .error .doubleFree
    | .dangling => .error .useAfterFree

/-- `realloc` may be given a null pointer or a table, but not one that was moved away. -/
def checkTable : MatPtr α → Ub Unit
  | .dangling => .error .useAfterFree
  | _ => .ok ()

/-- What the old pointer is worth once `realloc` has succeeded: a null pointer stays one. -/
def moved : MatPtr α → MatPtr α
  | .null => .null
  | _ => .dangling

end MatPtr

/-! ## The table -/

/-- `routing_t`, with the store its records live in and the outcomes of the allocations to come. -/
structure Routing where
  hosts : Da HostId
  /-- `rd->local`, which `rt_init` leaves uninitialised. -/
  localHost : Option HostId
  mCt : Nat
  path : MatPtr UInt32
  /-- `none` is `NEXT_DISCON` (`SIZE_MAX`, never an index). -/
  next : MatPtr (Option Nat)
  edges : Da PktEdge
  recs : CellHeap RtHost
  allocs : AllocScript

/-- `RT_HOST_INIT`, `RT_LINK_INIT`, `DA_INIT_MEM`. -/
def rtHostInit : Nat := 8
def rtLinkInit : Nat := 8
def daInitMem : Nat := 8

/-- `PATH_DISCON`, `PATH_MAX`, `PATH_MIN`. -/
def pathDiscon : UInt32 := 0
def pathMax : UInt32 := 0xFFFFFFFF
def pathMin : UInt32 := 1

namespace Routing

/-- Follow a record pointer. -/
def host (s : Routing) (id : HostId) : Ub RtHost :=
  match s.recs.get id with
  | some h => .ok h
  | none => .error .useAfterFree

/-- The MAC of a record, where the record and the address it points to are both live. -/
def mac? (env : ExtMem) (s : Routing) (id : HostId) : Option EtherAddr :=
  (s.recs.get id).bind fun h => (h.host.deref env).map Ipv4Host.mac

/-- `host->host->mac`. -/
def macOf (env : ExtMem) (s : Routing) (id : HostId) : Ub EtherAddr :=
  match s.mac? env id with
  | some m => .ok m
  | none => .error .useAfterFree

/-- `*host->host`. -/
def ipOf (env : ExtMem) (p : HostPtr) : Ub Ipv4Host :=
  match p.deref env with
  | some ip => .ok ip
  | none => .error .useAfterFree

/-- `rd->local`. -/
def theLocal (s : Routing) : Ub HostId :=
  match s.localHost with
  | some id => .ok id
  | none => .error .uninitialised

/-- `rd->hosts.items[i]`. -/
def itemAt (s : Routing) (i : Nat) : Ub HostId :=
  match s.hosts.items[i]? with
  | some id => .ok id
  | none => .error .outOfBounds

/-- Overwrite a record. -/
def store (s : Routing) (id : HostId) (h : RtHost) : Routing := { s with recs := s.recs.set id h }

/-- `malloc` or `realloc`: whether it succeeded. -/
def malloc (s : Routing) : Bool × Routing :=
  let (ok, al) := takeAlloc s.allocs
  (ok, { s with allocs := al })

/-! ## Lookups -/

/-- `find_host_by_addr`: the position in `hosts`. -/
def findHostByAddr (env : ExtMem) (s : Routing) (mac : EtherAddr) : Ub (Option Nat) :=
  bsearch (fun id => do
    let m ← s.macOf env id
    pure (memcmp mac m)) s.hosts.items

/-- `find_link_by_addr`: the position in `links`. -/
def findLinkByAddr (env : ExtMem) (s : Routing) (links : List RtLink) (mac : EtherAddr) :
    Ub (Option Nat) :=
  bsearch (fun l => do
    let m ← s.macOf env l.dst
    pure (memcmp mac m)) links

end Routing

end P2pVn
