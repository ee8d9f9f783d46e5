import Mathlib.Tactic.Common
import Mathlib.Algebra.Ring.Nat

/-!
# `Lib.Bytes` — numbers as byte strings

The memory of a little-endian machine holds an `n`-byte number as `leBytes n x`, lowest byte first; loading
those bytes again is `ofLeBytes`. The two are inverse to each other on numbers of `n` bytes. Reversing the
byte string in between is `byteSwap`, which is its own inverse.
-/

namespace Bytes

/-- The `n` bytes of `x`, lowest first. -/
def leBytes : Nat → Nat → List UInt8
  | 0, _ => []
  | n + 1, x => UInt8.ofNat x :: leBytes n (x / 256)

/-- The number whose bytes, lowest first, are `bs`. -/
def ofLeBytes : List UInt8 → Nat
  | [] => 0
  | b :: bs => b.toNat + 256 * ofLeBytes bs

@[simp] theorem length_leBytes (n x : Nat) : (leBytes n x).length = n := by
  induction n generalizing x with
  | zero => rfl
  | succ n ih => simp [leBytes, ih]

theorem ofLeBytes_lt (bs : List UInt8) : ofLeBytes bs < 256 ^ bs.length := by
  induction bs with
  | nil => simp [ofLeBytes]
  | cons b bs ih =>
      have hb : b.toNat < 256 := b.toNat_lt
      simp only [ofLeBytes, List.length_cons, pow_succ]
      omega

theorem ofLeBytes_leBytes {n x : Nat} (hx : x < 256 ^ n) : ofLeBytes (leBytes n x) = x := by
  induction n generalizing x with
  | zero => simp at hx; simp [leBytes, ofLeBytes, hx]
  | succ n ih =>
      have hdiv : x / 256 < 256 ^ n := by
        rw [pow_succ] at hx
        exact Nat.div_lt_of_lt_mul (by omega)
      have hmod : (UInt8.ofNat x).toNat = x % 256 := by simp
      rw [leBytes, ofLeBytes, ih hdiv, hmod]
      omega

theorem leBytes_ofLeBytes (bs : List UInt8) : leBytes bs.length (ofLeBytes bs) = bs := by
  induction bs with
  | nil => rfl
  | cons b bs ih =>
      have hb : b.toNat < 256 := b.toNat_lt
      have hdiv : (b.toNat + 256 * ofLeBytes bs) / 256 = ofLeBytes bs := by omega
      have hlow : UInt8.ofNat (b.toNat + 256 * ofLeBytes bs) = b := by
        apply UInt8.toNat_inj.mp
        have : (UInt8.ofNat (b.toNat + 256 * ofLeBytes bs)).toNat
            = (b.toNat + 256 * ofLeBytes bs) % 256 := by simp
        omega
      rw [List.length_cons, ofLeBytes, leBytes, hdiv, ih, hlow]

/-- `x` with its `n` bytes in the opposite order. -/
def byteSwap (n x : Nat) : Nat := ofLeBytes (leBytes n x).reverse

theorem byteSwap_lt (n x : Nat) : byteSwap n x < 256 ^ n := by
  have h := ofLeBytes_lt (leBytes n x).reverse
  rwa [List.length_reverse, length_leBytes] at h

theorem leBytes_byteSwap (n x : Nat) : leBytes n (byteSwap n x) = (leBytes n x).reverse := by
  have h := leBytes_ofLeBytes (leBytes n x).reverse
  rwa [List.length_reverse, length_leBytes] at h

/-- **Swapping the bytes twice changes nothing.** -/
theorem byteSwap_byteSwap {n x : Nat} (hx : x < 256 ^ n) : byteSwap n (byteSwap n x) = x := by
  unfold byteSwap
  rw [show leBytes n (ofLeBytes (leBytes n x).reverse) = (leBytes n x).reverse from leBytes_byteSwap n x,
    List.reverse_reverse, ofLeBytes_leBytes hx]

end Bytes
