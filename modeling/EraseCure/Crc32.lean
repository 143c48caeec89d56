import EraseCure.FileSystems
import Mathlib.Logic.Function.Iterate

/-!
# The CRC-32 checksum

The reflected polynomial division with which chunks are checked, bit by bit.
-/

set_option autoImplicit false

namespace EraseCure.Crc32
open EraseCure.FileSystems

def crcBit (c : ℕ) : ℕ := if c%2 = 1 then (c/2) ^^^ 0xEDB88320 else c/2

def crcByte (c : ℕ) (b : UInt8) : ℕ := crcBit^[8] (c ^^^ b.toNat)

def crc32 (data : Bytes) : ℕ := data.foldl crcByte 0xFFFFFFFF ^^^ 0xFFFFFFFF

theorem crcBit_lt (c : ℕ) (h : c < 2^32) : crcBit c < 2^32 := by
  rw [crcBit]
  split
  · exact Nat.xor_lt_two_pow (by omega) (by norm_num)
  · omega

theorem crcBits_lt (n c : ℕ) (h : c < 2^32) : crcBit^[n] c < 2^32 := by
  induction n generalizing c with
  | zero => exact h
  | succ n ih => exact ih _ (crcBit_lt c h)

theorem crcByte_lt (c : ℕ) (b : UInt8) (h : c < 2^32) : crcByte c b < 2^32 := by
  have hb := b.toNat_lt
  exact crcBits_lt 8 _ (Nat.xor_lt_two_pow h (by omega))

theorem crcBytes_lt (data : Bytes) (c : ℕ) (h : c < 2^32) : data.foldl crcByte c < 2^32 := by
  induction data generalizing c with
  | nil => exact h
  | cons b data ih => exact ih _ (crcByte_lt c b h)

theorem crc32_lt (data : Bytes) : crc32 data < 2^32 :=
  Nat.xor_lt_two_pow (crcBytes_lt data _ (by norm_num)) (by norm_num)

/-- The check value of this checksum: that of the digits from one to nine. -/
example : crc32 [0x31, 0x32, 0x33, 0x34, 0x35, 0x36, 0x37, 0x38, 0x39] = 0xCBF43926 := by
  decide +kernel

end EraseCure.Crc32
