import EraseCure.FileSystems
import EraseCure.Occurrences
import EraseCure.Scans

/-!
# File validators

Each validator reads a buffer from its start and answers with an outcome and,
on most exits, with the number of bytes parsed. The loops over markers, chunks,
blocks and frames are scans whose state is the offset and what was met so far.
The checksum of a chunk is a parameter. A validator whose loop never ends has no
verdict.
-/

set_option autoImplicit false

namespace EraseCure.FileValidators
open EraseCure.FileSystems EraseCure.Scans EraseCure.Occurrences

inductive FileValidationOutcome where
  | promising | validatesTo | validates | invalid
  deriving DecidableEq

structure Verdict where
  outcome : FileValidationOutcome
  parsedSize : Option ℕ
  deriving DecidableEq

def Verdict.reject : Verdict := ⟨.invalid, none⟩

def byteAt (data : Bytes) (i : ℕ) : UInt8 := data.getD i 0

def bytesAt (data : Bytes) (i : ℕ) (text : Bytes) : Bool := (data.drop i).take text.length = text

def bigEndian16 (data : Bytes) (i : ℕ) : ℕ :=
  (byteAt data i).toNat*2^8+(byteAt data (i+1)).toNat

def bigEndian32 (data : Bytes) (i : ℕ) : ℕ :=
  (byteAt data i).toNat*2^24+(byteAt data (i+1)).toNat*2^16+bigEndian16 data (i+2)

section Reads
variable (data : Bytes) (o : ℕ)

theorem byteAt_get (x : UInt8) (h : data[o]? = some x) : byteAt data o = x := by
  rw [byteAt, List.getD_eq_getElem?_getD, h]
  rfl

theorem get_byteAt (h : o < data.length) : data[o]? = some (byteAt data o) := by
  rw [byteAt, List.getD_eq_getElem?_getD, List.getElem?_eq_getElem h]
  rfl

theorem bytesAt_occurs (text : Bytes) (h : o+text.length ≤ data.length) :
    bytesAt data o text = true ↔ OccursAt data o text := by
  rw [bytesAt, decide_eq_true_eq, OccursAt]
  exact ⟨fun ht => ⟨h, ht⟩, And.right⟩

theorem byteAt_occurs (xs : Bytes) (i : ℕ) (h : OccursAt data o xs) (hi : i < xs.length) :
    byteAt data (o+i) = byteAt xs i := by
  apply byteAt_get
  rw [← List.getElem?_drop, ← List.getElem?_take_of_lt hi, h.2, get_byteAt xs i hi]

theorem bigEndian16_occurs (xs : Bytes) (i : ℕ) (h : OccursAt data o xs) (hi : i+1 < xs.length) :
    bigEndian16 data (o+i) = bigEndian16 xs i := by
  rw [bigEndian16, bigEndian16, byteAt_occurs data o xs i h (by omega), Nat.add_assoc,
    byteAt_occurs data o xs (i+1) h hi]

theorem bigEndian32_occurs (xs : Bytes) (h : OccursAt data o xs) (hlen : xs.length = 4) :
    bigEndian32 data o = bigEndian32 xs 0 := by
  rw [bigEndian32, bigEndian32, bigEndian16_occurs data o xs 2 h (by omega),
    byteAt_occurs data o xs 1 h (by omega), ← byteAt_occurs data o xs 0 h (by omega)]
  rfl

end Reads

section Jpeg

structure JpegState where
  offset : ℕ
  hasSos : Bool

def JpegState.verdict (s : JpegState) : Verdict :=
  ⟨if s.hasSos then .promising else .invalid, some s.offset⟩

def isBareMarker (marker : UInt8) : Bool := marker = 0x00 || (0xD0 ≤ marker && marker ≤ 0xD7)

def jpegRound (data : Bytes) (s : JpegState) : Round JpegState Verdict :=
  if data.length-1 ≤ s.offset then .done s.verdict
  else if byteAt data s.offset ≠ 0xFF then .next { s with offset := s.offset+1 }
  else
    let marker := byteAt data (s.offset+1)
    if isBareMarker marker then .next { s with offset := s.offset+2 }
    else if marker = 0xD9 then .done ⟨.validates, some (s.offset+2)⟩
    else if marker = 0xDA then .next ⟨s.offset+2, true⟩
    else if data.length ≤ s.offset+3 then .done s.verdict
    else .next { s with offset := s.offset+(2+bigEndian16 data (s.offset+2)) }

def jpegScan (data : Bytes) : Scan JpegState Verdict where
  round := jpegRound data
  rank := fun s => data.length-s.offset
  falls := by
    intro s s' h
    unfold jpegRound at h
    dsimp only at h
    split_ifs at h
    all_goals
      cases h
      dsimp only
      omega

def jpegFileValidator (data : Bytes) : Verdict :=
  if data.length < 4 then .reject
  else if byteAt data 0 ≠ 0xFF ∨ byteAt data 1 ≠ 0xD8 then .reject
  else (jpegScan data).run ⟨2, false⟩

end Jpeg

section Png

def pngMagic : Bytes := [0x89, 0x50, 0x4E, 0x47, 0x0D, 0x0A, 0x1A, 0x0A]

def ihdr : Bytes := [0x49, 0x48, 0x44, 0x52]

def iend : Bytes := [0x49, 0x45, 0x4E, 0x44]

structure PngState where
  offset : ℕ
  hasIhdr : Bool

def PngState.verdict (s : PngState) : Verdict :=
  ⟨if s.hasIhdr then .promising else .invalid, some s.offset⟩

/-- One chunk at the offset. Its length is a word of 32 bits, and so are the sums
`length + 4` for the checksum and `12 + length` for the step. A step of zero
leaves the state as it is, and the loop repeats the round for ever. -/
def pngRound (crc32 : Bytes → ℕ) (data : Bytes) (s : PngState) :
    Round PngState (Option Verdict) :=
  if data.length < s.offset+12 then .done (some s.verdict)
  else
    let length := bigEndian32 data s.offset
    if data.length < s.offset+12+length then .done (some s.verdict)
    else if crc32 ((data.drop (s.offset+4)).take ((length+4)%2^32)) ≠
      bigEndian32 data (s.offset+8+length) then .done (some .reject)
    else if bytesAt data (s.offset+4) ihdr then
      if s.offset ≠ 8 ∨ length ≠ 13 then .done (some .reject)
      else .next ⟨s.offset+(12+length)%2^32, true⟩
    else if bytesAt data (s.offset+4) iend then
      .done (some ⟨if s.hasIhdr then .validates else .invalid, some (s.offset+12)⟩)
    else if (12+length)%2^32 = 0 then .done none
    else .next { s with offset := s.offset+(12+length)%2^32 }

def pngScan (crc32 : Bytes → ℕ) (data : Bytes) : Scan PngState (Option Verdict) where
  round := pngRound crc32 data
  rank := fun s => data.length-s.offset
  falls := by
    intro s s' h
    unfold pngRound at h
    dsimp only at h
    split_ifs at h
    all_goals
      cases h
      dsimp only
      omega

def pngFileValidator (crc32 : Bytes → ℕ) (data : Bytes) : Option Verdict :=
  if data.length < 8 then some .reject
  else if !bytesAt data 0 pngMagic then some .reject
  else (pngScan crc32 data).run ⟨8, false⟩

end Png

section Gif

def gif87a : Bytes := [0x47, 0x49, 0x46, 0x38, 0x37, 0x61]

def gif89a : Bytes := [0x47, 0x49, 0x46, 0x38, 0x39, 0x61]

def colorTable (packed : UInt8) : ℕ :=
  if packed &&& 0x80 ≠ 0 then 3*2^((packed &&& 0x07).toNat+1) else 0

/-- The loop over sub-blocks: it stops at a block terminator or at the end. -/
def subBlocks (data : Bytes) : Scan ℕ ℕ where
  round := fun offset =>
    if offset < data.length ∧ byteAt data offset ≠ 0 then
      .next (offset+(1+(byteAt data offset).toNat))
    else .done offset
  rank := fun offset => data.length-offset
  falls := by
    intro offset offset' h
    split_ifs at h with hlt
    cases h
    omega

theorem subBlocks_le (data : Bytes) (offset : ℕ) : offset ≤ (subBlocks data).run offset := by
  obtain ⟨t, ht, hr⟩ := run_last (subBlocks data) offset
  have hle : offset ≤ t := by
    apply visits_invariant (subBlocks data) offset (offset ≤ ·) le_rfl _ t ht
    intro u u' hu h
    simp only [subBlocks] at h
    split_ifs at h
    cases h
    omega
  simp only [subBlocks] at hr
  split_ifs at hr
  cases hr
  exact hle

/-- One block at the offset: the trailer, an image or an extension. -/
def gifRound (data : Bytes) (offset : ℕ) : Round ℕ Verdict :=
  if data.length ≤ offset then .done ⟨.promising, some offset⟩
  else if byteAt data offset = 0x3B then .done ⟨.validates, some (offset+1)⟩
  else if byteAt data offset = 0x2C then
    if data.length < offset+10 then .done ⟨.promising, some offset⟩
    else
      let offset := offset+10+colorTable (byteAt data (offset+9))
      if data.length ≤ offset then .done ⟨.promising, some offset⟩
      else .next ((subBlocks data).run (offset+1)+1)
  else if byteAt data offset = 0x21 then
    if data.length < offset+2 then .done ⟨.promising, some offset⟩
    else .next ((subBlocks data).run (offset+2)+1)
  else .done ⟨.promising, some offset⟩

def gifScan (data : Bytes) : Scan ℕ Verdict where
  round := gifRound data
  rank := fun offset => data.length-offset
  falls := by
    intro offset offset' h
    unfold gifRound at h
    dsimp only at h
    split_ifs at h
    · cases h
      have := subBlocks_le data (offset+10+colorTable (byteAt data (offset+9))+1)
      omega
    · cases h
      have := subBlocks_le data (offset+2)
      omega

def gifFileValidator (data : Bytes) : Verdict :=
  if data.length < 14 then .reject
  else if !bytesAt data 0 gif87a && !bytesAt data 0 gif89a then .reject
  else (gifScan data).run (13+colorTable (byteAt data 10))

end Gif

section PdfZipElf

def pdfMagic : Bytes := [0x25, 0x50, 0x44, 0x46, 0x2D]

def pdfEof : Bytes := [0x25, 0x25, 0x45, 0x4F, 0x46]

def searchRange (data : Bytes) (start width : ℕ) : List ℕ :=
  List.range' start (data.length+1-width-start)

def pdfFileValidator (data : Bytes) : Verdict :=
  if data.length < 5 then .reject
  else if !bytesAt data 0 pdfMagic then .reject
  else
    let searchStart := if data.length > 1024 then data.length-1024 else 0
    match (searchRange data searchStart 5).find? (fun i => bytesAt data i pdfEof) with
    | some i => ⟨.validates, some (i+5)⟩
    | none => ⟨.promising, some data.length⟩

def zipLocalHeader : Bytes := [0x50, 0x4B, 0x03, 0x04]

def zipEocd : Bytes := [0x50, 0x4B, 0x05, 0x06]

def zipFileValidator (data : Bytes) : Verdict :=
  if data.length < 22 then .reject
  else if !bytesAt data 0 zipLocalHeader then .reject
  else
    let searchStart := if data.length > 65536+22 then data.length-65536-22 else 0
    match (searchRange data searchStart 22).reverse.find? (fun i => bytesAt data i zipEocd) with
    | some _ => ⟨.validates, some data.length⟩
    | none => ⟨.promising, some data.length⟩

def elfMagic : Bytes := [0x7F, 0x45, 0x4C, 0x46]

def elfFileValidator (data : Bytes) : Verdict :=
  if data.length < 52 then .reject
  else if !bytesAt data 0 elfMagic then .reject
  else if byteAt data 4 ≠ 1 ∧ byteAt data 4 ≠ 2 then .reject
  else if byteAt data 5 ≠ 1 ∧ byteAt data 5 ≠ 2 then .reject
  else ⟨.validates, some data.length⟩

end PdfZipElf

section Mp3

def id3 : Bytes := [0x49, 0x44, 0x33]

/-- The bytes of the tag size are joined by `|`, so that they may overlap. -/
def tagSize (data : Bytes) : ℕ :=
  (byteAt data 6).toNat <<< 21 ||| (byteAt data 7).toNat <<< 14 |||
    (byteAt data 8).toNat <<< 7 ||| (byteAt data 9).toNat

structure Mp3State where
  offset : ℕ
  validFrames : ℕ

def frameLen : ℕ := 414

def frameHeader (data : Bytes) (offset : ℕ) : Bool :=
  let version := (byteAt data (offset+1) >>> 3) &&& 0x03
  let layer := (byteAt data (offset+1) >>> 1) &&& 0x03
  let bitrateIdx := (byteAt data (offset+2) >>> 4) &&& 0x0F
  let samplerateIdx := (byteAt data (offset+2) >>> 2) &&& 0x03
  byteAt data offset = 0xFF && byteAt data (offset+1) &&& 0xE0 = 0xE0 &&
    !(version = 1 || layer = 0 || bitrateIdx = 0 || bitrateIdx = 15 || samplerateIdx = 3)

def mp3Round (data : Bytes) (s : Mp3State) : Round Mp3State Verdict :=
  if s.offset+4 ≤ data.length ∧ frameHeader data s.offset = true then
    .next ⟨s.offset+frameLen, s.validFrames+1⟩
  else .done ⟨if 3 ≤ s.validFrames then .validates else .promising, some s.offset⟩

def mp3Scan (data : Bytes) : Scan Mp3State Verdict where
  round := mp3Round data
  rank := fun s => data.length-s.offset
  falls := by
    intro s s' h
    unfold mp3Round at h
    split_ifs at h
    cases h
    dsimp only [frameLen]
    omega

def mp3FileValidator (data : Bytes) : Verdict :=
  if data.length < 10 then .reject
  else (mp3Scan data).run ⟨if bytesAt data 0 id3 then 10+tagSize data else 0, 0⟩

end Mp3

end EraseCure.FileValidators
