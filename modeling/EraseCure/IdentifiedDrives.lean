import EraseCure.AtaIdentify

/-!
# What IDENTIFY DEVICE reports

Texts and security flags are decoded as they are laid out. The flags for
sanitizing are read in one state of their two upper bits only, the physical
sector size only where a logical one is given, and both sizes as words of 32
bits.
-/

set_option autoImplicit false

namespace EraseCure.IdentifiedDrives
open EraseCure.ErrorCodes EraseCure.FileSystems EraseCure.CheckedReads EraseCure.AtaPassthrough
open EraseCure.AtaIdentify

theorem stripSpaces_eq (text rest : Bytes) : stripSpaces text.length (text++rest) =
    text.rdropWhile (fun c => c = 0x20)++
      List.replicate (text.length-(text.rdropWhile (fun c => c = 0x20)).length) 0++rest := by
  induction text using List.reverseRecOn generalizing rest with
  | nil => rfl
  | append_singleton text c ih =>
    have hat : (text++[c]++rest)[text.length]? = some c := by
      rw [List.append_assoc, List.getElem?_append_right (Nat.le_refl _), Nat.sub_self]
      rfl
    rw [List.length_append, List.length_singleton, stripSpaces, hat]
    by_cases hc : c = 0x20
    · have hset : (text++[c]++rest).set text.length 0 = text++0::rest := by
        rw [List.append_assoc, List.set_append_right _ _ (Nat.le_refl _), Nat.sub_self]
        rfl
      have hle := (List.rdropWhile_prefix (fun c : UInt8 => c = 0x20) (l := text)).length_le
      rw [if_pos (congrArg some hc), hset, ih, List.rdropWhile_concat_pos _ _ _ (by simpa using hc)]
      rw [Nat.succ_sub hle, List.replicate_succ']
      simp only [List.append_assoc, List.singleton_append]
    · rw [if_neg (fun h => hc (Option.some.inj h)),
        List.rdropWhile_concat_neg _ _ _ (by simpa using hc), List.length_append,
        List.length_singleton, Nat.sub_self, List.replicate_zero, List.append_nil]

def swappedBytes (buffer : Bytes) (first count : ℕ) : Bytes :=
  (List.range' first count).flatMap (fun i => [byteAt buffer (i*2+1), byteAt buffer (i*2)])

def padded (size : ℕ) (text : Bytes) : Bytes :=
  text.rdropWhile (fun c => c = 0x20)++
    List.replicate (size-(text.rdropWhile (fun c => c = 0x20)).length) 0

theorem swapped_word (buffer : Bytes) (i : ℕ) :
    [(rawWord buffer i >>> 8).toUInt8, (rawWord buffer i &&& 0xFF).toUInt8] =
      [byteAt buffer (i*2+1), byteAt buffer (i*2)] := by
  have hvalue := rawWord_value buffer i
  have hhigh := (byteAt buffer (i*2+1)).toNat_lt
  have hlow := (byteAt buffer (i*2)).toNat_lt
  rw [wordValue] at hvalue
  have h1 : (rawWord buffer i >>> 8).toUInt8 = byteAt buffer (i*2+1) := by
    rw [← UInt8.toNat_inj, UInt16.toNat_toUInt8, UInt16.toNat_shiftRight, hvalue,
      show (8 : UInt16).toNat%16 = 8 from rfl, Nat.shiftRight_eq_div_pow]
    omega
  have h2 : (rawWord buffer i &&& 0xFF).toUInt8 = byteAt buffer (i*2) := by
    rw [← UInt8.toNat_inj, UInt16.toNat_toUInt8, UInt16.toNat_and, hvalue,
      show (0xFF : UInt16).toNat = 2^8-1 from rfl, Nat.and_two_pow_sub_one_eq_mod]
    omega
  rw [h1, h2]

theorem swappedBytes_length (buffer : Bytes) (first count : ℕ) :
    (swappedBytes buffer first count).length = 2*count := by
  rw [swappedBytes, List.length_flatMap]
  simp [Nat.mul_comm]

theorem byteswapString_words (buffer : Bytes) (first count : ℕ) :
    byteswapString (words buffer first count) =
      padded (2*count+1) (swappedBytes buffer first count) := by
  have hdest : (words buffer first count).flatMap
      (fun w : UInt16 => [(w >>> 8).toUInt8, (w &&& 0xFF).toUInt8]) =
        swappedBytes buffer first count := by
    rw [words, List.flatMap_map, swappedBytes]
    congr 1
    funext i
    exact swapped_word buffer i
  have hle := (List.rdropWhile_prefix (fun c : UInt8 => c = 0x20)
    (l := swappedBytes buffer first count)).length_le
  rw [byteswapString, hdest, stripSpaces_eq, padded, List.append_assoc, ← List.replicate_succ',
    swappedBytes_length]
  rw [swappedBytes_length] at hle
  rw [Nat.succ_sub hle]

def sectorWords (buffer : Bytes) : ℕ := wordValue buffer 118*2^16+wordValue buffer 117

def SectorsValid (buffer : Bytes) : Prop :=
  (wordValue buffer 106).testBit 14 = true ∧ (wordValue buffer 106).testBit 15 = false

def logicalSize (buffer : Bytes) : ℕ :=
  if (wordValue buffer 106).testBit 12 then 2*sectorWords buffer else 512

def physicalSize (buffer : Bytes) : ℕ :=
  if (wordValue buffer 106).testBit 13 then logicalSize buffer*2^(wordValue buffer 106%16)
  else logicalSize buffer

structure Documented (buffer : Bytes) (data : AtaIdentifyData) : Prop where
  model : data.model = padded 41 (swappedBytes buffer 27 20)
  serial : data.serial = padded 21 (swappedBytes buffer 10 10)
  firmware : data.firmware = padded 9 (swappedBytes buffer 23 4)
  securitySupported : data.securitySupported = (wordValue buffer 82).testBit 1
  securityEnabled : data.securityEnabled = (wordValue buffer 85).testBit 1
  securityLocked : data.securityLocked = (wordValue buffer 128).testBit 2
  securityFrozen : data.securityFrozen = (wordValue buffer 128).testBit 3
  securityCountExpired : data.securityCountExpired = (wordValue buffer 128).testBit 4
  enhancedEraseSupported : data.enhancedEraseSupported = (wordValue buffer 128).testBit 5
  sanitizeSupported : data.sanitizeSupported = (wordValue buffer 59).testBit 12
  sanitizeCryptoScramble : data.sanitizeCryptoScramble = (wordValue buffer 59).testBit 13
  sanitizeBlockErase : data.sanitizeBlockErase = (wordValue buffer 59).testBit 14
  sanitizeOverwrite : data.sanitizeOverwrite = (wordValue buffer 59).testBit 15
  logical : SectorsValid buffer → data.logicalSectorSize.toNat = logicalSize buffer
  physical : SectorsValid buffer → data.physicalSectorSize.toNat = physicalSize buffer

/-- The upper bits of the word for sanitizing are those that the decoder wants,
or no flag is set in it. -/
def SanitizeRead (buffer : Bytes) : Prop :=
  ((wordValue buffer 59).testBit 14 = true ∧ (wordValue buffer 59).testBit 15 = false) ∨
    ∀ i, 12 ≤ i → i < 16 → (wordValue buffer 59).testBit i = false

/-- The sizes fit 32 bits, and a larger physical size comes with a logical one. -/
def SectorsRead (buffer : Bytes) : Prop :=
  SectorsValid buffer →
    if (wordValue buffer 106).testBit 12 then
      2*sectorWords buffer < 2^32 ∧ ((wordValue buffer 106).testBit 13 = true →
        2*sectorWords buffer*2^(wordValue buffer 106%16) < 2^32)
    else (wordValue buffer 106).testBit 13 = true → wordValue buffer 106%16 = 0

section Flags
variable (buffer : Bytes)

theorem flag_read (i bit : ℕ) (hbit : bit < 16) :
    hasBit (rawWord buffer i) bit = (wordValue buffer i).testBit bit := by
  rw [hasBit_testBit _ _ hbit, rawWord_value]

/-- The two upper bits of a word are the pattern that is asked for. -/
theorem sanitize_guard : rawWord buffer 59 &&& 0xC000 = 0x4000 ↔
    (wordValue buffer 59).testBit 14 = true ∧ (wordValue buffer 59).testBit 15 = false := by
  rw [← UInt16.toNat_inj, UInt16.toNat_and, rawWord_value,
    show (0xC000 : UInt16).toNat = 2^14 ||| 2^15 from by decide,
    show (0x4000 : UInt16).toNat = 2^14 from by decide, Nat.and_or_distrib_left, Nat.and_two_pow,
    Nat.and_two_pow]
  cases (wordValue buffer 59).testBit 14 <;> cases (wordValue buffer 59).testBit 15 <;> decide

theorem sanitize_documented :
    (∀ i, 12 ≤ i → i < 16 →
      (decide (rawWord buffer 59 &&& 0xC000 = 0x4000) && hasBit (rawWord buffer 59) i) =
        (wordValue buffer 59).testBit i) ↔ SanitizeRead buffer := by
  have hguard := sanitize_guard buffer
  constructor
  · intro hall
    by_cases hg : rawWord buffer 59 &&& 0xC000 = 0x4000
    · exact Or.inl (hguard.mp hg)
    · refine Or.inr fun i h1 h2 => ?_
      rw [← hall i h1 h2, decide_eq_false hg, Bool.false_and]
  · intro hread i h1 h2
    rw [flag_read buffer 59 i h2]
    rcases hread with hg | hnone
    · rw [decide_eq_true (hguard.mpr hg), Bool.true_and]
    · rw [hnone i h1 h2, Bool.and_false]

end Flags

section Sizes
variable (buffer : Bytes)

theorem wordValue_lt (i : ℕ) : wordValue buffer i < 2^16 := by
  have hhigh := (byteAt buffer (i*2+1)).toNat_lt
  have hlow := (byteAt buffer (i*2)).toNat_lt
  rw [wordValue]
  omega

theorem sectorWords_read : ((rawWord buffer 118).toUInt32 <<< 16 |||
    (rawWord buffer 117).toUInt32).toNat = sectorWords buffer := by
  have hhigh := wordValue_lt buffer 118
  have hlow := wordValue_lt buffer 117
  rw [UInt32.toNat_or, UInt32.toNat_shiftLeft, UInt16.toNat_toUInt32, UInt16.toNat_toUInt32,
    rawWord_value, rawWord_value, show (16 : UInt32).toNat%32 = 16 from rfl, sectorWords,
    Nat.shiftLeft_eq, Nat.mod_eq_of_lt (by omega), ← Nat.shiftLeft_eq,
    ← Nat.shiftLeft_add_eq_or_of_lt hlow]

theorem exponent_read :
    ((rawWord buffer 106 &&& 0x0F).toUInt8).toNat = wordValue buffer 106%16 := by
  rw [UInt16.toNat_toUInt8, UInt16.toNat_and, rawWord_value,
    show (0x0F : UInt16).toNat = 2^4-1 from rfl, Nat.and_two_pow_sub_one_eq_mod]
  omega

theorem factor_read (e : ℕ) (he : e < 16) : (UInt32.ofNat (2^e)).toNat = 2^e := by
  rw [UInt32.toNat_ofNat']
  exact Nat.mod_eq_of_lt (Nat.pow_lt_pow_right (by decide) (by omega))

/-- A product of 32 bits is exact when it does not wrap, and neither did its factor. -/
theorem products_fit (a e : ℕ) :
    (a%2^32 = a ∧ a%2^32*2^e%2^32 = a*2^e) ↔ (a < 2^32 ∧ a*2^e < 2^32) := by
  rw [Nat.mod_eq_iff_lt (by decide)]
  apply and_congr_right
  intro ha
  rw [Nat.mod_eq_of_lt ha, Nat.mod_eq_iff_lt (by decide)]

theorem power_unit (e : ℕ) :
    ((512 : UInt32).toNat = 512 ∧ (512 : UInt32).toNat = 512*2^e) ↔ e = 0 := by
  rw [show (512 : UInt32).toNat = 512 from rfl]
  constructor
  · rintro ⟨_, hpow⟩
    have hone : 2^e = 1 := by omega
    exact (Nat.pow_eq_one.mp hone).resolve_left (by decide)
  · rintro rfl
    exact ⟨rfl, rfl⟩

theorem sectors_documented :
    ((SectorsValid buffer → (sectorSizes buffer).1.toNat = logicalSize buffer) ∧
      (SectorsValid buffer → (sectorSizes buffer).2.toNat = physicalSize buffer)) ↔
      SectorsRead buffer := by
  by_cases hv : SectorsValid buffer
  · have hexp : wordValue buffer 106%16 < 16 := Nat.mod_lt _ (by decide)
    have hvalid : hasBit (rawWord buffer 106) 14 = true ∧
        ¬ hasBit (rawWord buffer 106) 15 = true := by
      rw [flag_read buffer 106 14 (by decide), flag_read buffer 106 15 (by decide)]
      exact ⟨hv.1, by rw [hv.2]; simp⟩
    have h12 := flag_read buffer 106 12 (by decide)
    have h13 := flag_read buffer 106 13 (by decide)
    have hdouble : (((rawWord buffer 118).toUInt32 <<< 16 |||
        (rawWord buffer 117).toUInt32)*2).toNat = 2*sectorWords buffer%2^32 := by
      rw [UInt32.toNat_mul, sectorWords_read, Nat.mul_comm]
      rfl
    simp only [SectorsRead, hv, forall_const, sectorSizes, h12, h13, logicalSize, physicalSize]
    by_cases hb12 : (wordValue buffer 106).testBit 12 = true
    · rw [if_pos hb12, if_pos hvalid, if_pos hb12, if_pos hb12]
      by_cases hb13 : (wordValue buffer 106).testBit 13 = true
      · rw [if_pos hb13, if_pos hb13]
        dsimp only
        rw [hdouble, UInt32.toNat_mul, hdouble, exponent_read, factor_read _ hexp]
        simp only [hb13, forall_const]
        exact products_fit _ _
      · rw [if_neg hb13, if_neg hb13]
        dsimp only
        rw [hdouble, and_self, Nat.mod_eq_iff_lt (by decide)]
        simp [hb13]
    · rw [if_neg hb12, if_neg hb12, if_neg hb12]
      by_cases hb13 : (wordValue buffer 106).testBit 13 = true
      · rw [if_pos hb13]
        simp only [hb13, forall_const]
        exact power_unit _
      · simp [hb13]
  · simp [SectorsRead, hv]

end Sizes

theorem identifyData_documented (buffer : Bytes) :
    Documented buffer (identifyData buffer) ↔ SanitizeRead buffer ∧ SectorsRead buffer := by
  have hsanitize := sanitize_documented buffer
  have hsectors := sectors_documented buffer
  constructor
  · intro h
    refine ⟨hsanitize.mp fun i h1 h2 => ?_, hsectors.mp ⟨h.logical, h.physical⟩⟩
    obtain rfl | rfl | rfl | rfl : i = 12 ∨ i = 13 ∨ i = 14 ∨ i = 15 := by omega
    · exact h.sanitizeSupported
    · exact h.sanitizeCryptoScramble
    · exact h.sanitizeBlockErase
    · exact h.sanitizeOverwrite
  · rintro ⟨hs, hr⟩
    have hflags := hsanitize.mpr hs
    exact {
      model := byteswapString_words buffer 27 20
      serial := byteswapString_words buffer 10 10
      firmware := byteswapString_words buffer 23 4
      securitySupported := flag_read buffer 82 1 (by decide)
      securityEnabled := flag_read buffer 85 1 (by decide)
      securityLocked := flag_read buffer 128 2 (by decide)
      securityFrozen := flag_read buffer 128 3 (by decide)
      securityCountExpired := flag_read buffer 128 4 (by decide)
      enhancedEraseSupported := flag_read buffer 128 5 (by decide)
      sanitizeSupported := hflags 12 (by decide) (by decide)
      sanitizeCryptoScramble := hflags 13 (by decide) (by decide)
      sanitizeBlockErase := hflags 14 (by decide) (by decide)
      sanitizeOverwrite := hflags 15 (by decide) (by decide)
      logical := (hsectors.mpr hr).1
      physical := (hsectors.mpr hr).2 }

/-- A reply that is reported as good is decoded, and as documented exactly when
its flags for sanitizing and its sector sizes are read. -/
theorem identify_documented_iff (outcome : OpenOutcome)
    (sgIo : SgRequest → Except IoctlFailure SgReply) (fuel : ℕ) (result : AtaResult)
    (buffer : Bytes)
    (h : ataExecutePath outcome sgIo identifyCommand fuel = .ok (.ok (result, buffer)))
    (hsuccess : result.success = true) :
    ∃ data, ataIdentifyDevice outcome sgIo fuel = .ok (.ok data) ∧
      (Documented buffer data ↔ SanitizeRead buffer ∧ SectorsRead buffer) := by
  refine ⟨identifyData buffer, ?_, identifyData_documented buffer⟩
  rw [ataIdentifyDevice, h, ok_bind]
  dsimp only
  rw [if_pos hsuccess]
  rfl

def sectorReply (high low : UInt8) : Bytes :=
  List.replicate 212 0++[low, high]++List.replicate 298 0

theorem sectorReply_length (high low : UInt8) : (sectorReply high low).length = 512 := by
  rw [sectorReply, List.length_append, List.length_append, List.length_replicate,
    List.length_replicate]
  rfl

def transfers (data : Bytes) : SgRequest → Except IoctlFailure SgReply :=
  fun _ => .ok ⟨0, [], by decide, data⟩

theorem transfers_executed (data : Bytes) (hlen : data.length = 512) (fuel : ℕ) :
    ataExecutePath .opened (transfers data) identifyCommand fuel =
      .ok (.ok (⟨0, 0, 0, 0, 0, 0, 0, 0, 0, 0, true, 0⟩, data)) := by
  have htake : data.take identifyCommand.dataLen = data :=
    List.take_of_length_le (Nat.le_of_eq hlen)
  simp only [ataExecutePath, ataExecute, transfers, htake]
  rfl

theorem identify_documented_native :
    SanitizeRead (sectorReply 0x40 0x00) ∧ SectorsRead (sectorReply 0x40 0x00) ∧
      ∃ data, ataIdentifyDevice .opened (transfers (sectorReply 0x40 0x00)) 1 = .ok (.ok data) ∧
        (Documented (sectorReply 0x40 0x00) data ↔
          SanitizeRead (sectorReply 0x40 0x00) ∧ SectorsRead (sectorReply 0x40 0x00)) :=
  ⟨Or.inr (by decide), by
      intro _
      rw [if_neg (by decide)]
      intro hlarger
      exact absurd hlarger (by decide),
    identify_documented_iff .opened (transfers (sectorReply 0x40 0x00)) 1
      ⟨0, 0, 0, 0, 0, 0, 0, 0, 0, 0, true, 0⟩ (sectorReply 0x40 0x00)
      (transfers_executed _ (sectorReply_length _ _) 1) rfl⟩

/-- A drive with eight logical sectors of 512 bytes in a physical one is taken
to have physical sectors of 512 bytes. -/
theorem physical_size_missed :
    ∃ data, ataIdentifyDevice .opened (transfers (sectorReply 0x60 0x03)) 1 = .ok (.ok data) ∧
      SectorsValid (sectorReply 0x60 0x03) ∧ physicalSize (sectorReply 0x60 0x03) = 4096 ∧
      data.physicalSectorSize = 512 ∧ ¬ Documented (sectorReply 0x60 0x03) data := by
  have hvalid : SectorsValid (sectorReply 0x60 0x03) := by
    constructor <;> decide
  have hsize : physicalSize (sectorReply 0x60 0x03) = 4096 := by decide
  have hread : (identifyData (sectorReply 0x60 0x03)).physicalSectorSize = 512 := by decide
  refine ⟨identifyData (sectorReply 0x60 0x03), ?_, hvalid, hsize, hread, fun h => ?_⟩
  · rw [ataIdentifyDevice, transfers_executed _ (sectorReply_length _ _) 1]
    rfl
  · have hphysical := h.physical hvalid
    rw [hread, hsize] at hphysical
    exact absurd hphysical (by decide)

end EraseCure.IdentifiedDrives
