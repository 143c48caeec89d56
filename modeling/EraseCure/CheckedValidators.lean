import EraseCure.CheckedReads
import EraseCure.ParsedSizes

/-!
# Validators with checked reads

The block validators and the file validators as they read their buffer, byte by
byte and range by range. Sizes and offsets are words of 64 bits, sums of chunk
lengths words of 32 bits, and a memory comparison reads its whole range.
-/

set_option autoImplicit false

namespace EraseCure.CheckedValidators
open EraseCure.FileSystems EraseCure.Scans EraseCure.CheckedReads
open EraseCure.FileValidators hiding jpegFileValidator pngFileValidator gifFileValidator
  pdfFileValidator zipFileValidator elfFileValidator mp3FileValidator
open EraseCure.ParsedSizes hiding fileValidator

def sizeT (n : ℕ) : ℕ := n%2^64

def sizeSub (a b : ℕ) : ℕ := (a+(2^64-b))%2^64

/-- What a block validator adds up, a word of 32 bits. -/
structure Score where
  i : ℕ
  score : ℕ

def Score.add (s : Score) (points : ℕ) : Score := { s with score := (s.score+points)%2^32 }

def Score.step (s : Score) : Score := { s with i := sizeT (s.i+1) }

section Jpeg
variable (data : Bytes)

def jpegBlockBody (s : Score) : Checked (Round Score ℕ) :=
  if s.i < sizeSub data.length 1 then do
    let first ← readAt data s.i
    if first = 0xFF then do
      let marker ← readAt data (sizeT (s.i+1))
      if marker = 0xC0 ∨ marker = 0xC2 ∨ marker = 0xC4 ∨ marker = 0xDB ∨ marker = 0xDA then
        return .next (s.add 10).step
      else return .next s.step
    else return .next s.step
  else return .done s.score

def jpegBlockValidator (fuel : ℕ) : Checked ℕ :=
  if data.length = 0 then return 0 else loop (jpegBlockBody data) fuel ⟨0, 0⟩

def jpegFileBody (s : JpegState) : Checked (Round JpegState Verdict) :=
  if s.offset < sizeSub data.length 1 then do
    let first ← readAt data s.offset
    if first ≠ 0xFF then return .next { s with offset := sizeT (s.offset+1) }
    else do
      let marker ← readAt data (sizeT (s.offset+1))
      if isBareMarker marker then return .next { s with offset := sizeT (s.offset+2) }
      else if marker = 0xD9 then return .done ⟨.validates, some (sizeT (s.offset+2))⟩
      else if marker = 0xDA then return .next ⟨sizeT (s.offset+2), true⟩
      else if data.length ≤ sizeT (s.offset+3) then return .done s.verdict
      else do
        let high ← readAt data (sizeT (s.offset+2))
        let low ← readAt data (sizeT (s.offset+3))
        return .next { s with offset := sizeT (s.offset+(2+(high.toNat*2^8+low.toNat))) }
  else return .done s.verdict

def jpegFileValidator (fuel : ℕ) : Checked Verdict :=
  if data.length < 4 then return .reject
  else do
    let first ← readAt data 0
    if first ≠ 0xFF then return .reject
    else do
      let second ← readAt data 1
      if second ≠ 0xD8 then return .reject
      else loop (jpegFileBody data) fuel ⟨2, false⟩

end Jpeg

/-- Whether one of the texts is found at an offset. They are tried in order. -/
def compareAny (data : Bytes) (i : ℕ) : List Bytes → Checked Bool
  | [] => return false
  | text::texts => do
    let found ← compareAt data i text
    if found then return true else compareAny data i texts

def namesBody (names : List Bytes) (points : ℕ) (data : Bytes) (s : Score) :
    Checked (Round Score ℕ) :=
  if s.i < sizeSub data.length 3 then do
    let found ← compareAny data s.i names
    if found then return .next (s.add points).step else return .next s.step
  else return .done s.score

def idat : Bytes := [0x49, 0x44, 0x41, 0x54]

def plte : Bytes := [0x50, 0x4C, 0x54, 0x45]

section Png
variable (data : Bytes)

def pngBlockValidator (fuel : ℕ) : Checked ℕ :=
  if data.length < 4 then return 0
  else loop (namesBody [ihdr, idat, plte, iend] 20 data) fuel ⟨0, 0⟩

def readWord (i : ℕ) : Checked ℕ := do
  let b0 ← readAt data i
  let b1 ← readAt data (sizeT (i+1))
  let b2 ← readAt data (sizeT (i+2))
  let b3 ← readAt data (sizeT (i+3))
  return b0.toNat*2^24+b1.toNat*2^16+(b2.toNat*2^8+b3.toNat)

def pngFileBody (crc32 : Bytes → ℕ) (s : PngState) : Checked (Round PngState Verdict) :=
  if sizeT (s.offset+12) ≤ data.length then do
    let length ← readWord data s.offset
    if data.length < sizeT (s.offset+12+length) then return .done s.verdict
    else do
      let covered ← readRange data (sizeT (s.offset+4)) ((length+4)%2^32)
      let stored ← readWord data (sizeT (s.offset+8+length))
      if crc32 covered ≠ stored then return .done .reject
      else do
        let header ← compareAt data (sizeT (s.offset+4)) ihdr
        if header then
          if s.offset ≠ 8 ∨ length ≠ 13 then return .done .reject
          else return .next ⟨sizeT (s.offset+(12+length)%2^32), true⟩
        else do
          let last ← compareAt data (sizeT (s.offset+4)) iend
          if last then
            return .done ⟨if s.hasIhdr then .validates else .invalid, some (sizeT (s.offset+12))⟩
          else return .next { s with offset := sizeT (s.offset+(12+length)%2^32) }
  else return .done s.verdict

def pngFileValidator (crc32 : Bytes → ℕ) (fuel : ℕ) : Checked Verdict :=
  if data.length < 8 then return .reject
  else do
    let magic ← compareAt data 0 pngMagic
    if magic then loop (pngFileBody data crc32) fuel ⟨8, false⟩ else return .reject

end Png

section Gif
variable (data : Bytes)

def gifBlockValidator : Checked ℕ :=
  if data.length < 6 then return 0
  else do
    let found ← compareAny data 0 [gif87a, gif89a]
    if found then return 100 else return 0

def subBlocksBody (offset : ℕ) : Checked (Round ℕ ℕ) :=
  if offset < data.length then do
    let length ← readAt data offset
    if length ≠ 0 then return .next (sizeT (offset+(1+length.toNat)))
    else return .done offset
  else return .done offset

def gifFileBody (fuel : ℕ) (offset : ℕ) : Checked (Round ℕ Verdict) :=
  if offset < data.length then do
    let kind ← readAt data offset
    if kind = 0x3B then return .done ⟨.validates, some (sizeT (offset+1))⟩
    else if kind = 0x2C then
      if data.length < sizeT (offset+10) then return .done ⟨.promising, some offset⟩
      else do
        let packed ← readAt data (sizeSub (sizeT (offset+10)) 1)
        if data.length ≤ sizeT (offset+10+colorTable packed) then
          return .done ⟨.promising, some (sizeT (offset+10+colorTable packed))⟩
        else do
          let last ← loop (subBlocksBody data) fuel (sizeT (offset+10+colorTable packed+1))
          return .next (sizeT (last+1))
    else if kind = 0x21 then
      if data.length < sizeT (offset+2) then return .done ⟨.promising, some offset⟩
      else do
        let last ← loop (subBlocksBody data) fuel (sizeT (offset+2))
        return .next (sizeT (last+1))
    else return .done ⟨.promising, some offset⟩
  else return .done ⟨.promising, some offset⟩

def gifFileValidator (fuel : ℕ) : Checked Verdict :=
  if data.length < 14 then return .reject
  else do
    let magic ← compareAny data 0 [gif87a, gif89a]
    if magic then do
      let packed ← readAt data 10
      loop (gifFileBody data fuel) fuel (sizeT (13+colorTable packed))
    else return .reject

end Gif

section Pdf
variable (data : Bytes)

def keywords : List Bytes :=
  ["obj", "endobj", "stream", "endstream", "xref", "trailer", "startxref"].map
    (fun name => name.toList.map (fun c => UInt8.ofNat c.toNat))

/-- The loop over the offsets for one keyword. A keyword that was found is skipped,
and the byte after it as well. -/
def keywordBody (keyword : Bytes) (s : Score) : Checked (Round Score ℕ) :=
  if sizeT (s.i+keyword.length) ≤ data.length then do
    let found ← compareAt data s.i keyword
    if found then
      let s := s.add 5
      return .next { s with i := sizeT (sizeT (s.i+keyword.length)+1) }
    else return .next s.step
  else return .done s.score

def keywordsFrom (fuel : ℕ) : List Bytes → ℕ → Checked ℕ
  | [], score => return score
  | keyword::rest, score => do
    let score ← loop (keywordBody data keyword) fuel ⟨0, score⟩
    keywordsFrom fuel rest score

def pdfBlockValidator (fuel : ℕ) : Checked ℕ :=
  if data.length = 0 then return 0 else keywordsFrom data fuel keywords 0

def pdfFileBody (i : ℕ) : Checked (Round ℕ Verdict) :=
  if sizeT (i+5) ≤ data.length then do
    let found ← compareAt data i pdfEof
    if found then return .done ⟨.validates, some (sizeT (i+5))⟩
    else return .next (sizeT (i+1))
  else return .done ⟨.promising, some data.length⟩

def pdfFileValidator (fuel : ℕ) : Checked Verdict :=
  if data.length < 5 then return .reject
  else do
    let magic ← compareAt data 0 pdfMagic
    if magic then
      loop (pdfFileBody data) fuel (if data.length > 1024 then sizeSub data.length 1024 else 0)
    else return .reject

end Pdf

section Zip
variable (data : Bytes)

def zipCentralDir : Bytes := [0x50, 0x4B, 0x01, 0x02]

def zipBlockValidator (fuel : ℕ) : Checked ℕ :=
  if data.length < 4 then return 0
  else loop (namesBody [zipLocalHeader, zipCentralDir, zipEocd] 15 data) fuel ⟨0, 0⟩

/-- The loop goes down, and it leaves at offset zero before it would go below. -/
def zipFileBody (searchStart i : ℕ) : Checked (Round ℕ Verdict) :=
  if searchStart ≤ i then do
    let found ← compareAt data i zipEocd
    if found then return .done ⟨.validates, some data.length⟩
    else if i = 0 then return .done ⟨.promising, some data.length⟩
    else return .next (sizeSub i 1)
  else return .done ⟨.promising, some data.length⟩

def zipFileValidator (fuel : ℕ) : Checked Verdict :=
  if data.length < 22 then return .reject
  else do
    let magic ← compareAt data 0 zipLocalHeader
    if magic then
      let searchStart :=
        if data.length > 65536+22 then sizeSub (sizeSub data.length 65536) 22 else 0
      loop (zipFileBody data searchStart) fuel (sizeSub data.length 22)
    else return .reject

end Zip

section Elf
variable (data : Bytes)

def elfBlockValidator : Checked ℕ :=
  if data.length < 16 then return 0
  else do
    let magic ← compareAt data 0 elfMagic
    if magic then do
      let eiClass ← readAt data 4
      if eiClass = 1 ∨ eiClass = 2 then do
        let eiData ← readAt data 5
        if eiData = 1 ∨ eiData = 2 then return 100 else return 0
      else return 0
    else return 0

def elfFileValidator : Checked Verdict :=
  if data.length < 52 then return .reject
  else do
    let magic ← compareAt data 0 elfMagic
    if magic then do
      let eiClass ← readAt data 4
      let eiData ← readAt data 5
      if eiClass ≠ 1 ∧ eiClass ≠ 2 then return .reject
      else if eiData ≠ 1 ∧ eiData ≠ 2 then return .reject
      else return ⟨.validates, some data.length⟩
    else return .reject

end Elf

section Mp3
variable (data : Bytes)

def mp3BlockBody (s : Score) : Checked (Round Score ℕ) :=
  if s.i < sizeSub data.length 1 then do
    let first ← readAt data s.i
    if first = 0xFF then do
      let second ← readAt data (sizeT (s.i+1))
      if second &&& 0xE0 = 0xE0 then return .next (s.add 5).step else return .next s.step
    else return .next s.step
  else return .done s.score

def mp3BlockValidator (fuel : ℕ) : Checked ℕ :=
  if data.length < 2 then return 0 else loop (mp3BlockBody data) fuel ⟨0, 0⟩

def mp3FileBody (s : Mp3State) : Checked (Round Mp3State Verdict) :=
  let leave : Round Mp3State Verdict :=
    .done ⟨if 3 ≤ s.validFrames then .validates else .promising, some s.offset⟩
  if sizeT (s.offset+4) ≤ data.length then do
    let first ← readAt data s.offset
    if first = 0xFF then do
      let second ← readAt data (sizeT (s.offset+1))
      if second &&& 0xE0 = 0xE0 then do
        let third ← readAt data (sizeT (s.offset+2))
        let version := (second >>> 3) &&& 0x03
        let layer := (second >>> 1) &&& 0x03
        let bitrateIdx := (third >>> 4) &&& 0x0F
        let samplerateIdx := (third >>> 2) &&& 0x03
        if version = 1 ∨ layer = 0 ∨ bitrateIdx = 0 ∨ bitrateIdx = 15 ∨ samplerateIdx = 3 then
          return leave
        else return .next ⟨sizeT (s.offset+frameLen), s.validFrames+1⟩
      else return leave
    else return leave
  else return leave

def mp3FileValidator (fuel : ℕ) : Checked Verdict :=
  if data.length < 10 then return .reject
  else do
    let tagged ← compareAt data 0 id3
    if tagged then do
      let b6 ← readAt data 6
      let b7 ← readAt data 7
      let b8 ← readAt data 8
      let b9 ← readAt data 9
      let tagSize := b6.toNat <<< 21 ||| b7.toNat <<< 14 ||| b8.toNat <<< 7 ||| b9.toNat
      loop (mp3FileBody data) fuel ⟨(10+tagSize)%2^32, 0⟩
    else loop (mp3FileBody data) fuel ⟨0, 0⟩

end Mp3

/-- The file validator of a type, on a bounded number of rounds. -/
def fileValidator (crc32 : Bytes → ℕ) (format : FileFormat) (data : Bytes) (fuel : ℕ) :
    Checked Verdict :=
  match format with
  | .jpeg => jpegFileValidator data fuel
  | .png => pngFileValidator data crc32 fuel
  | .gif => gifFileValidator data fuel
  | .pdf => pdfFileValidator data fuel
  | .zip => zipFileValidator data fuel
  | .mp3 => mp3FileValidator data fuel
  | .elf => elfFileValidator data

def blockValidator (format : FileFormat) (data : Bytes) (fuel : ℕ) : Checked ℕ :=
  match format with
  | .jpeg => jpegBlockValidator data fuel
  | .png => pngBlockValidator data fuel
  | .gif => gifBlockValidator data
  | .pdf => pdfBlockValidator data fuel
  | .zip => zipBlockValidator data fuel
  | .mp3 => mp3BlockValidator data fuel
  | .elf => elfBlockValidator data

end EraseCure.CheckedValidators
