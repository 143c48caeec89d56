import Mathlib.Data.List.Basic
import Mathlib.Data.Nat.Notation
import Mathlib.Algebra.Order.Ring.Nat

/-!
# Words in memory

A machine stores a word of several bytes with the least byte first or last. What
was stored is loaded again when the word fits in its bytes.
-/

set_option autoImplicit false

namespace EraseCure.WordBytes

inductive ByteOrder where
  | little | big
  deriving DecidableEq

def leastFirst : ℕ → ℕ → List UInt8
  | 0, _ => []
  | width+1, n => UInt8.ofNat n::leastFirst width (n/256)

def value : List UInt8 → ℕ
  | [] => 0
  | b::bs => b.toNat+256*value bs

def stored (order : ByteOrder) (width n : ℕ) : List UInt8 :=
  match order with
  | .little => leastFirst width n
  | .big => (leastFirst width n).reverse

def loaded (order : ByteOrder) (bs : List UInt8) : ℕ :=
  match order with
  | .little => value bs
  | .big => value bs.reverse

theorem leastFirst_length (width n : ℕ) : (leastFirst width n).length = width := by
  induction width generalizing n with
  | zero => rfl
  | succ width ih => rw [leastFirst, List.length_cons, ih]

theorem stored_length (order : ByteOrder) (width n : ℕ) :
    (stored order width n).length = width := by
  cases order with
  | little => exact leastFirst_length width n
  | big => rw [stored, List.length_reverse, leastFirst_length]

theorem value_leastFirst (width n : ℕ) (h : n < 256^width) : value (leastFirst width n) = n := by
  induction width generalizing n with
  | zero =>
    rw [pow_zero] at h
    rw [leastFirst, value]
    omega
  | succ width ih =>
    rw [pow_succ, Nat.mul_comm] at h
    rw [leastFirst, value, ih _ (Nat.div_lt_of_lt_mul h), UInt8.toNat_ofNat']
    exact Nat.mod_add_div n 256

theorem loaded_stored (order : ByteOrder) (width n : ℕ) (h : n < 256^width) :
    loaded order (stored order width n) = n := by
  cases order with
  | little => exact value_leastFirst width n h
  | big => rw [stored, loaded, List.reverse_reverse, value_leastFirst width n h]

theorem value_lt (bs : List UInt8) : value bs < 256^bs.length := by
  induction bs with
  | nil => exact Nat.zero_lt_one
  | cons b bs ih =>
    have hb := b.toNat_lt
    rw [value, List.length_cons, pow_succ]
    omega

theorem loaded_lt (order : ByteOrder) (bs : List UInt8) : loaded order bs < 256^bs.length := by
  cases order with
  | little => exact value_lt bs
  | big =>
    have h := value_lt bs.reverse
    rwa [List.length_reverse] at h

end EraseCure.WordBytes
