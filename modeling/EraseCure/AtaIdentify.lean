import EraseCure.AtaPassthrough
import Mathlib.Data.List.DropRight
import Mathlib.Data.Nat.Bitwise

/-!
# IDENTIFY DEVICE

The reply to the command is read as 256 words of 16 bits. Texts have the bytes
of their words swapped and lose the spaces at their end, flags are single bits,
and sector sizes are reported when their word is valid.
-/

set_option autoImplicit false

namespace EraseCure.AtaIdentify
open EraseCure.ErrorCodes EraseCure.FileSystems EraseCure.CheckedReads EraseCure.AtaPassthrough

structure AtaIdentifyData where
  model : Bytes
  serial : Bytes
  firmware : Bytes
  lbaCapacity : UInt64
  logicalSectorSize : UInt32
  physicalSectorSize : UInt32
  securitySupported : Bool
  securityEnabled : Bool
  securityLocked : Bool
  securityFrozen : Bool
  securityCountExpired : Bool
  enhancedEraseSupported : Bool
  eraseTimeNormal : UInt16
  eraseTimeEnhanced : UInt16
  sanitizeSupported : Bool
  sanitizeCryptoScramble : Bool
  sanitizeBlockErase : Bool
  sanitizeOverwrite : Bool
  rawWords : List UInt16

/-- The loop over the spaces at the end, from the byte before `i` down. -/
def stripSpaces : ℕ → Bytes → Bytes
  | 0, dest => dest
  | i+1, dest => if dest[i]? = some 0x20 then stripSpaces i (dest.set i 0) else dest

def byteswapString (src : List UInt16) : Bytes :=
  let dest := src.flatMap (fun w : UInt16 => [(w >>> 8).toUInt8, (w &&& 0xFF).toUInt8])
  stripSpaces dest.length (dest++[0])

/-- A byte of the buffer, which is zero where nothing was transferred. -/
def byteAt (buffer : Bytes) (i : ℕ) : UInt8 := buffer.getD i 0

def rawWord (buffer : Bytes) (i : ℕ) : UInt16 :=
  (byteAt buffer (i*2+1)).toUInt16 <<< 8 ||| (byteAt buffer (i*2)).toUInt16

def hasBit (w : UInt16) (i : ℕ) : Bool := w &&& UInt16.ofNat (2^i) ≠ 0

def words (buffer : Bytes) (first count : ℕ) : List UInt16 :=
  (List.range' first count).map (rawWord buffer)

def lbaCapacityOf (buffer : Bytes) : UInt64 :=
  if hasBit (rawWord buffer 83) 10 then
    (rawWord buffer 103).toUInt64 <<< 48 ||| (rawWord buffer 102).toUInt64 <<< 32 |||
      (rawWord buffer 101).toUInt64 <<< 16 ||| (rawWord buffer 100).toUInt64
  else 0

def sectorSizes (buffer : Bytes) : UInt32 × UInt32 :=
  let w := rawWord buffer 106
  if hasBit w 12 then
    if hasBit w 14 ∧ ¬ hasBit w 15 then
      let logicalSize := (rawWord buffer 118).toUInt32 <<< 16 ||| (rawWord buffer 117).toUInt32
      let logical := logicalSize*2
      if hasBit w 13 then
        let exp := (w &&& 0x0F).toUInt8
        (logical, logical*UInt32.ofNat (2^exp.toNat))
      else (logical, logical)
    else (512, 512)
  else (512, 512)

def identifyData (buffer : Bytes) : AtaIdentifyData :=
  let w := rawWord buffer
  let sanitize : Bool := w 59 &&& 0xC000 = 0x4000
  { rawWords := words buffer 0 256
    serial := byteswapString (words buffer 10 10)
    firmware := byteswapString (words buffer 23 4)
    model := byteswapString (words buffer 27 20)
    lbaCapacity := lbaCapacityOf buffer
    logicalSectorSize := (sectorSizes buffer).1
    physicalSectorSize := (sectorSizes buffer).2
    securitySupported := hasBit (w 82) 1
    securityEnabled := hasBit (w 85) 1
    securityLocked := hasBit (w 128) 2
    securityFrozen := hasBit (w 128) 3
    securityCountExpired := hasBit (w 128) 4
    enhancedEraseSupported := hasBit (w 128) 5
    eraseTimeNormal := w 89 &&& 0x7FFF
    eraseTimeEnhanced := w 90 &&& 0x7FFF
    sanitizeSupported := sanitize && hasBit (w 59) 12
    sanitizeCryptoScramble := sanitize && hasBit (w 59) 13
    sanitizeBlockErase := sanitize && hasBit (w 59) 14
    sanitizeOverwrite := sanitize && hasBit (w 59) 15 }

def identifyCommand : AtaCommand :=
  { ataCommandInit with
    command := 0xEC
    protocol := 4
    direction := -3
    hasBuffer := true
    dataLen := 512
    count := 1 }

def ataIdentifyDevice (outcome : OpenOutcome) (sgIo : SgRequest → Except IoctlFailure SgReply)
    (fuel : ℕ) : Checked (Except ErasecureError AtaIdentifyData) := do
  let executed ← ataExecutePath outcome sgIo identifyCommand fuel
  match executed with
  | .error e => return .error e
  | .ok (result, buffer) =>
    if result.success = true then return .ok (identifyData buffer)
    else return .error .ioctlFailed

def wordValue (buffer : Bytes) (i : ℕ) : ℕ :=
  (byteAt buffer (i*2+1)).toNat*256+(byteAt buffer (i*2)).toNat

theorem rawWord_value (buffer : Bytes) (i : ℕ) :
    (rawWord buffer i).toNat = wordValue buffer i := by
  have hhigh := (byteAt buffer (i*2+1)).toNat_lt
  have hlow := (byteAt buffer (i*2)).toNat_lt
  rw [rawWord, wordValue, UInt16.toNat_or, UInt16.toNat_shiftLeft, UInt8.toNat_toUInt16,
    UInt8.toNat_toUInt16]
  have hshift : (byteAt buffer (i*2+1)).toNat <<< ((8 : UInt16).toNat%16)%2^16 =
      (byteAt buffer (i*2+1)).toNat <<< 8 := by
    rw [show (8 : UInt16).toNat%16 = 8 from rfl, Nat.shiftLeft_eq]
    exact Nat.mod_eq_of_lt (by omega)
  rw [hshift, ← Nat.shiftLeft_add_eq_or_of_lt hlow, Nat.shiftLeft_eq]

theorem hasBit_testBit (w : UInt16) (i : ℕ) (hi : i < 16) : hasBit w i = w.toNat.testBit i := by
  have hpow : (UInt16.ofNat (2^i)).toNat = 2^i := by
    rw [UInt16.toNat_ofNat']
    exact Nat.mod_eq_of_lt (Nat.pow_lt_pow_right (by decide) hi)
  have hzero : w &&& UInt16.ofNat (2^i) = 0 ↔ w.toNat.testBit i = false := by
    rw [← UInt16.toNat_inj, UInt16.toNat_and, hpow, Nat.and_two_pow]
    cases w.toNat.testBit i <;> simp
  rw [hasBit, Bool.eq_iff_iff, decide_eq_true_eq, ne_eq, hzero, Bool.not_eq_false]

end EraseCure.AtaIdentify
