import P2pVn.Lib.Bytes
import P2pVn.Lib.Fault

/-!
# `Util` — addresses, times and byte order (`util.h`)

The machine is little-endian: `htonl`, `htons` and `htonll` reverse the bytes of their argument, and so do
their inverses. A comparison function of C returns a sign; `Ordering` is that sign.
-/

namespace P2pVn
open CUb Bytes

/-! ## Ethernet addresses -/

/-- `ether_addr_t`: the `ETH_ALEN` bytes of a MAC address. -/
structure EtherAddr where
  addr : Vector UInt8 6
  deriving DecidableEq, Repr

/-- `memcmp(a, b, ETH_ALEN)`: the sign of the first difference, bytes taken as unsigned. -/
def memcmp (a b : EtherAddr) : Ordering := compare a.addr.toList b.addr.toList

instance : Std.TransCmp memcmp where
  eq_swap := Std.OrientedOrd.eq_swap
  isLE_trans := Std.TransOrd.isLE_trans

instance : Std.LawfulEqCmp memcmp where
  compare_self := Std.ReflOrd.compare_self
  eq_of_compare {a b} h := by
    have hl : a.addr.toList = b.addr.toList := Std.LawfulEqOrd.eq_of_compare h
    obtain ⟨⟨⟨la⟩, _⟩⟩ := a
    obtain ⟨⟨⟨lb⟩, _⟩⟩ := b
    simp only [Vector.toList_mk] at hl
    subst hl
    rfl

theorem memcmp_eq {a b : EtherAddr} : memcmp a b = .eq ↔ a = b := Std.LawfulEqCmp.compare_eq_iff_eq

/-- The order that sorted tables keep: `a` comes strictly before `b`. -/
def MacLt (a b : EtherAddr) : Prop := memcmp a b = .lt

instance : DecidableRel MacLt := fun a b => inferInstanceAs (Decidable (memcmp a b = .lt))

theorem MacLt.irrefl (a : EtherAddr) : ¬ MacLt a a := by
  unfold MacLt
  rw [memcmp_eq.mpr rfl]
  simp

theorem MacLt.trans {a b c : EtherAddr} (h1 : MacLt a b) (h2 : MacLt b c) : MacLt a c :=
  Std.TransCmp.lt_trans h1 h2

theorem MacLt.asymm {a b : EtherAddr} (h : MacLt a b) : ¬ MacLt b a := fun h' => MacLt.irrefl a (h.trans h')

theorem MacLt.ne {a b : EtherAddr} (h : MacLt a b) : a ≠ b := fun he => MacLt.irrefl b (he ▸ h)

/-- Weakly ordered and different is strictly ordered. -/
theorem MacLt.of_isLE_ne {a b : EtherAddr} (h : (memcmp a b).isLE) (hne : a ≠ b) : MacLt a b := by
  unfold MacLt
  cases hc : memcmp a b with
  | lt => rfl
  | eq => exact absurd (memcmp_eq.mp hc) hne
  | gt => rw [hc] at h; cases h

theorem MacLt.isLE {a b : EtherAddr} (h : MacLt a b) : (memcmp a b).isLE := by
  rw [show memcmp a b = .lt from h]
  rfl

/-- `ether_addr_is_mcast`. -/
def etherAddrIsMcast (a : EtherAddr) : Bool := a.addr[0] &&& 1 != 0

/-- The all-ones address with which a peer's MAC is filled before it is known. -/
def EtherAddr.junk : EtherAddr := ⟨Vector.replicate 6 0xFF⟩

/-! ## Internet addresses -/

/-- `AF_INET`. -/
def afInet : UInt16 := 2

/-- `struct sockaddr_in`; address and port as the machine loads them from network order. -/
structure SockaddrIn where
  sinFamily : UInt16
  sinPort : UInt16
  sinAddr : UInt32
  deriving DecidableEq, Repr

/-- `struct ipv4_host`. -/
structure Ipv4Host where
  mac : EtherAddr
  addrIn : SockaddrIn
  deriving DecidableEq, Repr

/-! ## Times -/

/-- `struct timeval`. -/
structure Timeval where
  tvSec : Int
  tvUsec : Int
  deriving DecidableEq, Repr

/-- `tv_ms`, converted to `uint64_t`. -/
def tvMs (tv : Timeval) : UInt64 := UInt64.ofInt (tv.tvSec * 1000 + tv.tvUsec.tdiv 1000)

/-- `tv_us`, converted to `uint32_t`. -/
def tvUs (tv : Timeval) : UInt32 := UInt32.ofInt (tv.tvSec * 1000000 + tv.tvUsec)

/-- `timersub`. -/
def timersub (a b : Timeval) : Timeval :=
  let sec := a.tvSec - b.tvSec
  let usec := a.tvUsec - b.tvUsec
  if usec < 0 then ⟨sec - 1, usec + 1000000⟩ else ⟨sec, usec⟩

/-- `timercmp(a, b, >)`. -/
def timerGt (a b : Timeval) : Bool := if a.tvSec = b.tvSec then a.tvUsec > b.tvUsec else a.tvSec > b.tvSec

namespace Timeval

/-- The time in microseconds. -/
def us (tv : Timeval) : Int := tv.tvSec * 1000000 + tv.tvUsec

/-- Normalised, as `gettimeofday` reports times. -/
def Normal (tv : Timeval) : Prop := 0 ≤ tv.tvUsec ∧ tv.tvUsec < 1000000

instance (tv : Timeval) : Decidable tv.Normal := inferInstanceAs (Decidable (_ ∧ _))

/-- A normalised time is determined by its microseconds. -/
theorem Normal.ext {a b : Timeval} (ha : a.Normal) (hb : b.Normal) (h : a.us = b.us) : a = b := by
  obtain ⟨sa, ua⟩ := a
  obtain ⟨sb, ub⟩ := b
  simp only [Normal, us] at ha hb h
  simp only [mk.injEq]
  omega

end Timeval

@[simp] theorem us_timersub (a b : Timeval) : (timersub a b).us = a.us - b.us := by
  unfold timersub Timeval.us
  simp only
  split <;> simp only <;> omega

theorem normal_timersub {a b : Timeval} (ha : a.Normal) (hb : b.Normal) : (timersub a b).Normal := by
  obtain ⟨ha0, ha1⟩ := ha
  obtain ⟨hb0, hb1⟩ := hb
  unfold timersub Timeval.Normal
  simp only
  split <;> simp only <;> omega

/-- `timercmp` compares normalised times. -/
theorem timerGt_iff {a b : Timeval} (ha : a.Normal) (hb : b.Normal) : timerGt a b = true ↔ b.us < a.us := by
  obtain ⟨ha0, ha1⟩ := ha
  obtain ⟨hb0, hb1⟩ := hb
  unfold timerGt Timeval.us
  split <;> simp only [decide_eq_true_eq] <;> omega

/-! ## Byte order -/

def htons (x : UInt16) : UInt16 := UInt16.ofNat (byteSwap 2 x.toNat)
def ntohs (x : UInt16) : UInt16 := UInt16.ofNat (byteSwap 2 x.toNat)
def htonl (x : UInt32) : UInt32 := UInt32.ofNat (byteSwap 4 x.toNat)
def ntohl (x : UInt32) : UInt32 := UInt32.ofNat (byteSwap 4 x.toNat)

/-- The `htonll` macro for a machine that is not big-endian. -/
def htonll (x : UInt64) : UInt64 :=
  ((htonl x.toUInt32).toUInt64 <<< 32) + (htonl (x >>> 32).toUInt32).toUInt64

def ntohll (x : UInt64) : UInt64 :=
  ((ntohl x.toUInt32).toUInt64 <<< 32) + (ntohl (x >>> 32).toUInt32).toUInt64

theorem htons_toNat (x : UInt16) : (htons x).toNat = byteSwap 2 x.toNat := by
  have h := byteSwap_lt 2 x.toNat
  simp only [htons, UInt16.toNat_ofNat']
  omega

theorem htonl_toNat (x : UInt32) : (htonl x).toNat = byteSwap 4 x.toNat := by
  have h := byteSwap_lt 4 x.toNat
  simp only [htonl, UInt32.toNat_ofNat']
  omega

theorem ntohs_htons (x : UInt16) : ntohs (htons x) = x := by
  apply UInt16.toNat_inj.mp
  have hx : x.toNat < 256 ^ 2 := x.toNat_lt
  rw [show ntohs (htons x) = htons (htons x) from rfl, htons_toNat, htons_toNat, byteSwap_byteSwap hx]

theorem ntohl_htonl (x : UInt32) : ntohl (htonl x) = x := by
  apply UInt32.toNat_inj.mp
  have hx : x.toNat < 256 ^ 4 := x.toNat_lt
  rw [show ntohl (htonl x) = htonl (htonl x) from rfl, htonl_toNat, htonl_toNat, byteSwap_byteSwap hx]

/-- The two halves of `htonll x` are the swapped halves of `x`, exchanged. -/
theorem htonll_toNat (x : UInt64) :
    (htonll x).toNat = (htonl x.toUInt32).toNat * 2 ^ 32 + (htonl (x >>> 32).toUInt32).toNat := by
  have h1 : (htonl x.toUInt32).toNat < 2 ^ 32 := (htonl x.toUInt32).toNat_lt
  have h2 : (htonl (x >>> 32).toUInt32).toNat < 2 ^ 32 := (htonl (x >>> 32).toUInt32).toNat_lt
  simp only [htonll, UInt64.toNat_add, UInt64.toNat_shiftLeft, UInt32.toNat_toUInt64]
  simp only [UInt64.reduceToNat, Nat.shiftLeft_eq, Nat.reduceMod]
  omega

theorem ntohll_htonll (x : UInt64) : ntohll (htonll x) = x := by
  apply UInt64.toNat_inj.mp
  have hx : x.toNat < 2 ^ 64 := x.toNat_lt
  have hlo : (htonll x).toUInt32 = htonl (x >>> 32).toUInt32 := by
    apply UInt32.toNat_inj.mp
    have h := (htonl (x >>> 32).toUInt32).toNat_lt
    rw [UInt64.toNat_toUInt32, htonll_toNat]
    omega
  have hhi : (htonll x >>> 32).toUInt32 = htonl x.toUInt32 := by
    apply UInt32.toNat_inj.mp
    have h := (htonl (x >>> 32).toUInt32).toNat_lt
    have h' := (htonl x.toUInt32).toNat_lt
    rw [UInt64.toNat_toUInt32, UInt64.toNat_shiftRight, htonll_toNat]
    simp only [UInt64.reduceToNat, Nat.shiftRight_eq_div_pow, Nat.reduceMod]
    omega
  rw [show ntohll (htonll x) = htonll (htonll x) from rfl, htonll_toNat, hlo, hhi,
    show htonl (htonl (x >>> 32).toUInt32) = (x >>> 32).toUInt32 from ntohl_htonl _,
    show htonl (htonl x.toUInt32) = x.toUInt32 from ntohl_htonl _,
    UInt64.toNat_toUInt32, UInt64.toNat_toUInt32, UInt64.toNat_shiftRight]
  simp only [UInt64.reduceToNat, Nat.shiftRight_eq_div_pow, Nat.reduceMod]
  omega

end P2pVn
