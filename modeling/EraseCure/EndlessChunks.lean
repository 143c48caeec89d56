import EraseCure.PngWords
import EraseCure.ValidatorReads

/-!
# Chunks that are read without end

A chunk whose length is twelve less than 2^32 moves the PNG validator on by zero
bytes. It takes a buffer of more than four gigabytes to hold one, and it has to be
reached over complete chunks with their checksums. The validators are contained
in every other case.
-/

set_option autoImplicit false

namespace EraseCure.EndlessChunks
open EraseCure.FileSystems EraseCure.Scans EraseCure.CheckedReads EraseCure.CheckedValidators
open EraseCure.Occurrences EraseCure.TruncatedFiles EraseCure.PngWords EraseCure.ValidatorReads
open EraseCure.FileValidators hiding jpegFileValidator pngFileValidator gifFileValidator
  pdfFileValidator zipFileValidator elfFileValidator mp3FileValidator
open EraseCure.ParsedSizes hiding fileValidator

section Chunks
variable (crc32 : Bytes → ℕ) (data : Bytes)

/-- A complete chunk with its checksum, after which the validator goes on. -/
def PassedChunk (o : ℕ) : Prop :=
  ChunkWithin data data.length o ∧
    crc32 ((data.drop (o+4)).take ((bigEndian32 data o+4)%2^32)) =
      bigEndian32 data (o+8+bigEndian32 data o) ∧
    (bytesAt data (o+4) ihdr = true → o = 8 ∧ bigEndian32 data o = 13) ∧
    bytesAt data (o+4) iend = false

inductive ChunkReached : ℕ → Prop where
  | start : ChunkReached 8
  | next (o : ℕ) : ChunkReached o → PassedChunk crc32 data o →
      ChunkReached (o+(12+bigEndian32 data o)%2^32)

/-- A PNG in which a chunk is reached that is twelve bytes short of 2^32. -/
def EndlessChunk : Prop :=
  8 ≤ data.length ∧ bytesAt data 0 pngMagic = true ∧
    ∃ o, ChunkReached crc32 data o ∧ PassedChunk crc32 data o ∧ bigEndian32 data o = 2^32-12

theorem step_zero_iff (o : ℕ) :
    (12+bigEndian32 data o)%2^32 = 0 ↔ bigEndian32 data o = 2^32-12 := by
  have h := bigEndian32_lt data o
  omega

theorem round_passed (s : PngState) (h : PassedChunk crc32 data s.offset) :
    (bigEndian32 data s.offset = 2^32-12 → pngRound crc32 data s = .done none) ∧
      (bigEndian32 data s.offset ≠ 2^32-12 → ∃ b, pngRound crc32 data s =
        .next ⟨s.offset+(12+bigEndian32 data s.offset)%2^32, b⟩) := by
  obtain ⟨⟨h1, h2⟩, hcrc, hihdr, hiend⟩ := h
  rw [pngRound, if_neg (not_lt.mpr h1)]
  dsimp only
  rw [if_neg (not_lt.mpr h2), if_neg (not_not.mpr hcrc)]
  by_cases hi : bytesAt data (s.offset+4) ihdr = true
  · obtain ⟨h8, h13⟩ := hihdr hi
    rw [if_pos hi, if_neg (not_or.mpr ⟨not_not.mpr h8, not_not.mpr h13⟩)]
    exact ⟨fun hz => by omega, fun _ => ⟨true, rfl⟩⟩
  · rw [if_neg hi, if_neg (by simp [hiend])]
    constructor
    · exact fun hz => if_pos ((step_zero_iff data _).mpr hz)
    · exact fun hz => ⟨s.hasIhdr, if_neg (fun h => hz ((step_zero_iff data _).mp h))⟩

theorem passed_round (s : PngState)
    (h : (∃ s', pngRound crc32 data s = .next s') ∨ pngRound crc32 data s = .done none) :
    PassedChunk crc32 data s.offset := by
  unfold pngRound at h
  dsimp only at h
  split_ifs at h with h1 h2 hcrc hi hbad he hz
  all_goals first | (exfalso; simp at h; done) | skip
  · push Not at hbad
    exact ⟨⟨by omega, by omega⟩, not_not.mp hcrc, fun _ => hbad,
      CarvedFiles.ihdr_not_iend data _ hi⟩
  all_goals exact ⟨⟨by omega, by omega⟩, not_not.mp hcrc, fun hb => absurd hb hi, by simpa using he⟩

theorem chunk_visited (o : ℕ) (ho : ChunkReached crc32 data o) :
    ∃ b, Visits (pngScan crc32 data) ⟨8, false⟩ ⟨o, b⟩ := by
  induction ho with
  | start => exact ⟨false, .start⟩
  | next o _ hp ih =>
    obtain ⟨b, hb⟩ := ih
    by_cases hz : bigEndian32 data o = 2^32-12
    · rw [(step_zero_iff data o).mpr hz]
      exact ⟨b, hb⟩
    · obtain ⟨b', hb'⟩ := (round_passed crc32 data ⟨o, b⟩ hp).2 hz
      exact ⟨b', .next _ _ hb hb'⟩

theorem visited_chunk (s : PngState) (h : Visits (pngScan crc32 data) ⟨8, false⟩ s) :
    ChunkReached crc32 data s.offset := by
  induction h with
  | start => exact .start
  | next t t' _ hr ih =>
    rw [(CarvedFiles.round_goes crc32 data t t' hr).2.2]
    exact .next _ ih (passed_round crc32 data t (Or.inl ⟨t', hr⟩))

theorem png_none_iff :
    FileValidators.pngFileValidator crc32 data = none ↔ EndlessChunk crc32 data := by
  constructor
  · intro h
    rw [FileValidators.pngFileValidator] at h
    split_ifs at h with hlen hm
    refine ⟨by omega, by simpa using hm, ?_⟩
    obtain ⟨s, hv, hr⟩ := run_last (pngScan crc32 data) ⟨8, false⟩
    rw [h] at hr
    change pngRound crc32 data s = .done none at hr
    have hp := passed_round crc32 data s (Or.inr hr)
    refine ⟨s.offset, visited_chunk crc32 data s hv, hp, ?_⟩
    by_contra hz
    obtain ⟨b, hb⟩ := (round_passed crc32 data s hp).2 hz
    rw [hb] at hr
    contradiction
  · rintro ⟨h8, hm, o, ho, hp, hz⟩
    obtain ⟨b, hb⟩ := chunk_visited crc32 data o ho
    rw [png_run crc32 data h8 hm, run_visited _ _ _ hb,
      run_done _ _ _ ((round_passed crc32 data ⟨o, b⟩ hp).1 hz)]

end Chunks

/-- Every block validator reads within its block and ends, and so does every file
validator, unless it is that of PNGs and comes to an endless chunk. -/
theorem validators_contained (crc32 : Bytes → ℕ) (data : Bytes) (hsize : data.length < 2^63) :
    (∀ format, Contained (blockValidator format data)) ∧
    ∀ format, Contained (fileValidator crc32 format data) ↔
      ¬ (format = .png ∧ EndlessChunk crc32 data) := by
  constructor
  · intro format
    apply contained_of_meets _ (fun _ => True) data.length
    exact fun must fuel hfuel => block_meets must data hsize format fuel hfuel
  · intro format
    constructor
    · rintro ⟨_, fuel, v, hv⟩ ⟨rfl, hend⟩
      have hnone := png_endless crc32 data hsize fuel ((png_none_iff crc32 data).mpr hend)
      rw [show pngFileValidator data crc32 fuel = .ok v from hv] at hnone
      contradiction
    · intro hno
      have hsome : ∃ v, ParsedSizes.fileValidator crc32 format data = some v := by
        cases hv : ParsedSizes.fileValidator crc32 format data with
        | some v => exact ⟨v, rfl⟩
        | none =>
          cases format with
          | png => exact absurd ⟨rfl, (png_none_iff crc32 data).mp hv⟩ hno
          | jpeg | gif | pdf | zip | mp3 | elf => contradiction
      obtain ⟨v, hv⟩ := hsome
      apply contained_of_meets _ (fun w => w = v) data.length
      exact fun must fuel hfuel => file_meets crc32 format data hsize must fuel hfuel v hv

theorem validators_contained_segment :
    (∀ format, Contained (blockValidator format oneSegment)) ∧
    ∀ format, Contained (fileValidator Crc32.crc32 format oneSegment) ↔
      ¬ (format = .png ∧ EndlessChunk Crc32.crc32 oneSegment) :=
  validators_contained Crc32.crc32 oneSegment (by decide)

section LongChunk

def word32 (n : ℕ) : Bytes :=
  [UInt8.ofNat (n/2^24), UInt8.ofNat (n/2^16), UInt8.ofNat (n/2^8), UInt8.ofNat n]

theorem word32_value (n : ℕ) (h : n < 2^32) : bigEndian32 (word32 n) 0 = n := by
  change (UInt8.ofNat (n/2^24)).toNat*2^24+(UInt8.ofNat (n/2^16)).toNat*2^16+
    ((UInt8.ofNat (n/2^8)).toNat*2^8+(UInt8.ofNat n).toNat) = n
  simp only [UInt8.toNat_ofNat']
  omega

def text : Bytes := [0x74, 0x45, 0x58, 0x74]

def zeroChunk (n : ℕ) : Bytes :=
  word32 n++(text++(List.replicate n 0++word32 (Crc32.crc32 (text++List.replicate n 0))))

theorem zeroChunk_chunk (n : ℕ) (h : n < 2^32) :
    Chunk Crc32.crc32 text (List.replicate n 0) (zeroChunk n) := by
  apply Chunk.chunk _ _ rfl _ rfl rfl
  · exact word32_value _ (Crc32.crc32_lt _)
  · rw [word32_value n h, List.length_replicate]

/-- The magic and a chunk of zeros are endless for the length that wraps. -/
theorem zeros_endless (n : ℕ) (hn : n = 2^32-12) :
    EndlessChunk Crc32.crc32 (pngMagic++zeroChunk n) := by
  have hchunk := zeroChunk_chunk n (by omega)
  have hat : OccursAt (pngMagic++zeroChunk n) 8 (zeroChunk n) :=
    ((occurs_append _ 0 pngMagic _).mp ((occurs_zero _ _).mpr List.prefix_rfl)).2
  have hmagic : OccursAt (pngMagic++zeroChunk n) 0 pngMagic :=
    (occurs_zero _ _).mpr (List.prefix_append _ _)
  have hend := chunk_end Crc32.crc32 _ text _ _ hchunk 8 hat
  obtain ⟨hlen, htype, hslice, hcheck⟩ := chunk_reads Crc32.crc32 _ text _ _ hchunk 8 hat
  have hihdr : ¬ bytesAt (pngMagic++zeroChunk n) (8+4) ihdr = true := by
    rw [bytesAt_type _ _ text ihdr htype rfl rfl]
    decide
  have hiend : ¬ bytesAt (pngMagic++zeroChunk n) (8+4) iend = true := by
    rw [bytesAt_type _ _ text iend htype rfl rfl]
    decide
  rw [List.length_replicate] at hlen hslice hcheck hend
  refine ⟨by omega, (bytesAt_occurs _ 0 pngMagic hmagic.1).mpr hmagic, 8, .start,
    ⟨⟨by omega, by omega⟩, ?_, fun h => absurd h hihdr, by simpa using hiend⟩, by omega⟩
  rw [hlen, Nat.mod_eq_of_lt (by omega), hslice, hcheck]

theorem endless_not_contained : ¬ ∀ (format : FileFormat) (data : Bytes), data.length < 2^63 →
    Contained (fileValidator Crc32.crc32 format data) := by
  intro h
  obtain ⟨n, hn⟩ : ∃ n, n = 2^32-12 := ⟨_, rfl⟩
  have hlen : (pngMagic++zeroChunk n).length = n+20 := by
    rw [List.length_append, chunk_length _ text _ _ (zeroChunk_chunk n (by omega)),
      List.length_replicate, show pngMagic.length = 8 from rfl]
    omega
  have hsize : (pngMagic++zeroChunk n).length < 2^63 := by omega
  have hnone := (png_none_iff Crc32.crc32 _).mpr (zeros_endless n hn)
  obtain ⟨_, fuel, v, hv⟩ := h .png (pngMagic++zeroChunk n) hsize
  change pngFileValidator (pngMagic++zeroChunk n) Crc32.crc32 fuel = .ok v at hv
  rw [png_endless Crc32.crc32 _ hsize fuel hnone] at hv
  contradiction

end LongChunk

end EraseCure.EndlessChunks
