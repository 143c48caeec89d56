import EraseCure.Crc32
import EraseCure.FileTypeRegistry
import EraseCure.GifWords

/-!
# Default signatures and validators

The header signature that is registered for a type is what discovery looks for,
and the validator of the type decides which files are valid. A valid file that
does not begin with the signature is never discovered: a JPEG whose third byte is
not `FF`, a GIF of the first version, and an MP3 that has a tag or another kind of
frame first.
-/

set_option autoImplicit false

namespace EraseCure.DefaultSignatures
open EraseCure.CText EraseCure.FileSystems EraseCure.FileMirrors EraseCure.FileValidators
open EraseCure.Occurrences EraseCure.ParsedSizes EraseCure.TruncatedFiles
open EraseCure.Discovery EraseCure.FileTypeRegistry

/-- The registry after `file_type_registry_init` and the registration of the
built-in types. -/
def defaultRegistry : Registry := (fileTypeRegistryRegisterDefaults ⟨[], 16⟩ []).2.1

def typeName : FileFormat → Text
  | .jpeg => "JPEG".toList
  | .png => "PNG".toList
  | .pdf => "PDF".toList
  | .zip => "ZIP".toList
  | .gif => "GIF".toList
  | .mp3 => "MP3".toList
  | .elf => "ELF".toList

def registeredHeaders (format : FileFormat) : List SignaturePattern :=
  match fileTypeRegistryFind defaultRegistry (typeName format) with
  | some desc => desc.headers.getD []
  | none => []

/-- The engine after `discovery_init` and the registration of the header
signatures of every type in the registry. -/
def defaultEngine : DiscoveryEngine :=
  (defaultRegistry.types.flatMap (fun desc => desc.headers.getD [])).foldl
    (fun engine pattern => (discoveryRegisterSignature engine pattern []).2.1) ⟨[], 16, [], 64⟩

def signature : FileFormat → Bytes
  | .jpeg => [0xFF, 0xD8, 0xFF]
  | .png => pngMagic
  | .pdf => pdfMagic
  | .zip => zipLocalHeader
  | .gif => gif89a
  | .mp3 => [0xFF, 0xFB]
  | .elf => elfMagic

def headerPattern (format : FileFormat) : SignaturePattern :=
  ⟨some (signature format), (signature format).length, 0, false, some (typeName format)⟩

theorem registered_header (format : FileFormat) :
    registeredHeaders format = [headerPattern format] := by
  cases format <;> decide

theorem default_patterns : defaultEngine.patterns =
    [FileFormat.jpeg, .png, .pdf, .zip, .gif, .mp3, .elf].map headerPattern := by
  decide

section Hits
variable (readBlock : ReadBlock) (fm : FileMirror)

theorem header_match (b : UInt64) (block : Bytes) (hlen : block.length = fm.blockSize.toNat)
    (format : FileFormat) : patternHit fm b block (headerPattern format) =
      if signature format <+: block then some ⟨b, b*fm.blockSize, typeName format, false⟩
      else none := by
  have hsmall : (signature format).length < 2^64 := by
    cases format <;> decide
  have htext : (headerPattern format).text = signature format := List.take_length
  have hmatch : patternMatch fm.blockSize block (headerPattern format) =
      if signature format <+: block then some 0 else none := by
    have hoffset : (headerPattern format).offset = 0 := rfl
    have hlength : (headerPattern format).length = (signature format).length := rfl
    rw [patternMatch, htext, hoffset, hlength, if_pos le_rfl, Int.toNat_zero, Nat.zero_add,
      Nat.mod_eq_of_lt hsmall, ← hlen]
    by_cases hfits : (signature format).length ≤ block.length
    · rw [if_pos hfits]
      congr 1
      rw [bytesAt_occurs block 0 _ (by omega), occurs_zero]
    · rw [if_neg hfits, if_neg (fun h => hfits h.length_le)]
  rw [patternHit, hmatch]
  split
  · simp [headerPattern]
  · rfl

theorem typeName_injective (f g : FileFormat) (h : typeName f = typeName g) : f = g := by
  cases f <;> cases g <;> first | rfl | exact absurd h (by decide)

/-- A scan with the default signatures reports a type at the start of a block
exactly when the block begins with the signature of the type. -/
theorem header_hit (b : UInt64) (block : Bytes) (hb : b < fm.totalBlocks)
    (hread : readBlock fm b = .ok block) (hlen : block.length = fm.blockSize.toNat)
    (format : FileFormat) :
    ⟨b, b*fm.blockSize, typeName format, false⟩ ∈
        (discoveryScan readBlock defaultEngine fm []).2.1.hits ↔ signature format <+: block := by
  have hits : blockHits readBlock fm defaultEngine.patterns b.toNat =
      defaultEngine.patterns.filterMap (patternHit fm b block) := by
    rw [blockHits, UInt64.ofNat_toNat, hread]
    exact if_neg (by omega)
  rw [scan_hits, show defaultEngine.hits = [] by decide, List.nil_append, List.mem_flatMap]
  constructor
  · rintro ⟨i, hi, hmem⟩
    rw [List.mem_range] at hi
    have hblock : b = UInt64.ofNat i :=
      blockHits_block defaultEngine.patterns readBlock fm i _ hmem
    obtain rfl : i = b.toNat := by
      have hsize := fm.totalBlocks.toNat_lt
      rw [hblock, UInt64.toNat_ofNat_of_lt' (hi.trans hsize)]
    rw [hits, default_patterns, List.mem_filterMap] at hmem
    obtain ⟨pat, hpat, hhit⟩ := hmem
    obtain ⟨f, _, rfl⟩ := List.mem_map.mp hpat
    rw [header_match fm b block hlen] at hhit
    split at hhit
    · rename_i hbegins
      rw [Option.some.injEq, SignatureHit.mk.injEq] at hhit
      rwa [← typeName_injective f format hhit.2.2.1]
    · contradiction
  · intro hbegins
    refine ⟨b.toNat, List.mem_range.mpr hb, ?_⟩
    rw [hits, default_patterns, List.mem_filterMap]
    refine ⟨headerPattern format, List.mem_map.mpr ⟨format, ?_, rfl⟩, ?_⟩
    · cases format <;> decide
    · rw [header_match fm b block hlen, if_pos hbegins]

end Hits

section Valid
variable (crc32 : Bytes → ℕ) (data : Bytes)

theorem magic_prefix (magic : Bytes) (hlen : magic.length ≤ data.length)
    (h : bytesAt data 0 magic = true) : magic <+: data :=
  (occurs_zero data magic).mp ((bytesAt_occurs data 0 magic (by omega)).mp h)

theorem jpeg_begins (h : (jpegFileValidator data).outcome = .validates) :
    signature .jpeg <+: data ↔ byteAt data 2 = 0xFF := by
  by_cases hh : jpegHeader data
  · obtain ⟨hlen, h0, h1⟩ := hh
    rw [← occurs_zero, signature, occurs_cons, occurs_cons, occurs_singleton,
      get_byteAt data 0 (by omega), get_byteAt data (0+1) (by omega),
      get_byteAt data (0+1+1) (by omega), h0, h1]
    simp
  · rw [jpeg_reject data hh] at h
    contradiction

theorem gif_begins (h : (gifFileValidator data).outcome = .validates) :
    signature .gif <+: data ↔ byteAt data 4 = 0x39 := by
  by_cases hh : gifHeader data
  · obtain ⟨_, hm⟩ := (GifWords.gifHeader_iff data).mp hh
    constructor
    · intro hp
      exact byteAt_occurs data 0 gif89a 4 ((occurs_zero data gif89a).mpr hp) (by decide)
    · intro h4
      rcases hm with hm | hm
      · have h7 := byteAt_occurs data 0 gif87a 4 ((occurs_zero data gif87a).mpr hm) (by decide)
        rw [Nat.zero_add, h4] at h7
        exact absurd h7 (by decide)
      · exact hm
  · rw [gif_reject data hh] at h
    contradiction

theorem mp3_first (h : (mp3FileValidator data).outcome = .validates) :
    10 ≤ data.length ∧ frameHeader data (mp3Start data) = true := by
  by_cases h10 : 10 ≤ data.length
  · rw [mp3_run data h10] at h
    obtain ⟨frames, hf, hr⟩ := mp3_last data
    rw [hr] at h
    split_ifs at h with h3
    exact ⟨h10, (hf 0 (by omega)).2⟩
  · rw [mp3FileValidator, if_pos (by omega)] at h
    contradiction

theorem mp3_begins (h : (mp3FileValidator data).outcome = .validates) :
    signature .mp3 <+: data ↔ bytesAt data 0 id3 = false ∧ byteAt data 1 = 0xFB := by
  obtain ⟨h10, hframe⟩ := mp3_first data h
  have hbytes : signature .mp3 <+: data ↔ byteAt data 0 = 0xFF ∧ byteAt data 1 = 0xFB := by
    rw [← occurs_zero, signature, occurs_cons, occurs_singleton, get_byteAt data 0 (by omega),
      get_byteAt data (0+1) (by omega)]
    simp
  rw [hbytes]
  constructor
  · rintro ⟨h0, h1⟩
    refine ⟨?_, h1⟩
    by_contra htag
    have hid := byteAt_occurs data 0 id3 0
      ((bytesAt_occurs data 0 id3 (show 0+3 ≤ _ by omega)).mp (by simpa using htag)) (by decide)
    rw [Nat.zero_add, h0] at hid
    exact absurd hid (by decide)
  · rintro ⟨htag, h1⟩
    rw [mp3Start, if_neg (by simp [htag]), frameHeader] at hframe
    simp only [Bool.and_eq_true, decide_eq_true_eq] at hframe
    exact ⟨hframe.1.1, h1⟩

theorem png_begins (v : Verdict) (h : pngFileValidator crc32 data = some v)
    (hv : v.outcome = .validates) : signature .png <+: data := by
  rw [pngFileValidator] at h
  split_ifs at h with hlen hm
  · cases h
    contradiction
  · cases h
    contradiction
  · exact magic_prefix data pngMagic (show 8 ≤ _ by omega) (by simpa using hm)

theorem pdf_begins (h : (pdfFileValidator data).outcome = .validates) :
    signature .pdf <+: data := by
  rw [pdfFileValidator] at h
  split_ifs at h with hlen hm
  · contradiction
  · contradiction
  all_goals exact magic_prefix data pdfMagic (show 5 ≤ _ by omega) (by simpa using hm)

theorem zip_begins (h : (zipFileValidator data).outcome = .validates) :
    signature .zip <+: data := by
  rw [zipFileValidator] at h
  split_ifs at h with hlen hm
  · contradiction
  · contradiction
  all_goals exact magic_prefix data zipLocalHeader (show 4 ≤ _ by omega) (by simpa using hm)

theorem elf_begins (h : (elfFileValidator data).outcome = .validates) :
    signature .elf <+: data := by
  rw [elfFileValidator] at h
  split_ifs at h with hlen hm
  · contradiction
  · contradiction
  · contradiction
  · contradiction
  · exact magic_prefix data elfMagic (show 4 ≤ _ by omega) (by simpa using hm)

/-- What a valid file must hold to begin with the signature of its type. -/
def Signed : FileFormat → Prop
  | .jpeg => byteAt data 2 = 0xFF
  | .gif => byteAt data 4 = 0x39
  | .mp3 => bytesAt data 0 id3 = false ∧ byteAt data 1 = 0xFB
  | _ => True

theorem valid_begins (format : FileFormat) (v : Verdict)
    (h : fileValidator crc32 format data = some v) (hv : v.outcome = .validates) :
    signature format <+: data ↔ Signed data format := by
  cases format with
  | jpeg =>
    rw [← Option.some.inj h] at hv
    exact jpeg_begins data hv
  | png => exact iff_of_true (png_begins crc32 data v h hv) trivial
  | gif =>
    rw [← Option.some.inj h] at hv
    exact gif_begins data hv
  | pdf =>
    rw [← Option.some.inj h] at hv
    exact iff_of_true (pdf_begins data hv) trivial
  | zip =>
    rw [← Option.some.inj h] at hv
    exact iff_of_true (zip_begins data hv) trivial
  | mp3 =>
    rw [← Option.some.inj h] at hv
    exact mp3_begins data hv
  | elf =>
    rw [← Option.some.inj h] at hv
    exact iff_of_true (elf_begins data hv) trivial

theorem short_rejected (format : FileFormat) (h : data.length < minimumLength format) :
    fileValidator crc32 format data = some .reject := by
  cases format with
  | png => exact if_pos h
  | jpeg | gif | pdf | zip | mp3 | elf => exact congrArg some (if_pos h)

theorem valid_length (format : FileFormat) (v : Verdict)
    (h : fileValidator crc32 format data = some v) (hv : v.outcome = .validates) :
    (signature format).length ≤ data.length := by
  have hmin : (signature format).length ≤ minimumLength format := by
    cases format <;> decide
  by_contra hshort
  rw [short_rejected crc32 data format (by omega)] at h
  cases h
  contradiction

end Valid

theorem prefix_placed (magic data block : Bytes) (hlen : magic.length ≤ data.length)
    (h : data.take block.length <+: block) :
    magic <+: block ↔ magic <+: data ∧ magic.length ≤ block.length := by
  constructor
  · intro hm
    refine ⟨?_, hm.length_le⟩
    have hle : magic.length ≤ (data.take block.length).length := by
      rw [List.length_take]
      exact le_min hm.length_le hlen
    exact (List.prefix_of_prefix_length_le hm h hle).trans (List.take_prefix _ _)
  · rintro ⟨hm, hfits⟩
    rw [List.prefix_iff_eq_take.mp hm]
    exact (List.take_prefix_take_left hfits).trans h

/-- A valid file begins with the registered signature of its type exactly when it
is signed, and when it lies at the start of a block that is long enough, a scan
with the default signatures hits it there exactly when it is signed. -/
theorem default_signatures_agree (crc32 : Bytes → ℕ) (readBlock : ReadBlock) (fm : FileMirror)
    (format : FileFormat) (data : Bytes) (v : Verdict)
    (h : fileValidator crc32 format data = some v) (hv : v.outcome = .validates)
    (b : UInt64) (block : Bytes) (hb : b < fm.totalBlocks) (hread : readBlock fm b = .ok block)
    (hlen : block.length = fm.blockSize.toNat) (hplaced : data.take block.length <+: block) :
    ((∃ p ∈ registeredHeaders format, p.text <+: data) ↔ Signed data format) ∧
    (⟨b, b*fm.blockSize, typeName format, false⟩ ∈
        (discoveryScan readBlock defaultEngine fm []).2.1.hits ↔
      Signed data format ∧ (signature format).length ≤ block.length) := by
  have hbegins := valid_begins crc32 data format v h hv
  constructor
  · have htext : (headerPattern format).text = signature format := List.take_length
    rw [registered_header, ← hbegins]
    simp [htext]
  · rw [header_hit readBlock fm b block hb hread hlen format, ← hbegins]
    exact prefix_placed _ data block (valid_length crc32 data format v h hv) hplaced

def segmentMirror : FileMirror where
  image := oneSegment
  imageSize := 22
  blockSize := 22
  totalBlocks := 1
  imagePath := printed256 "evidence.img".toList
  evidenceHash := printed65 []
  hashVerified := false
  coveredMask := [false]
  apparentBlocks := 1

theorem segment_signature_agrees :
    ((∃ p ∈ registeredHeaders .jpeg, p.text <+: oneSegment) ↔ Signed oneSegment .jpeg) ∧
    (⟨0, 0*segmentMirror.blockSize, typeName .jpeg, false⟩ ∈
        (discoveryScan fileMirrorReadBlock defaultEngine segmentMirror []).2.1.hits ↔
      Signed oneSegment .jpeg ∧ (signature .jpeg).length ≤ oneSegment.length) :=
  default_signatures_agree Crc32.crc32 fileMirrorReadBlock segmentMirror .jpeg oneSegment
    ⟨.validates, some 22⟩ (one_segment_validates _) rfl 0 oneSegment (by decide) (by rfl)
    (by decide) (List.take_prefix _ _)

def firstVersion : Bytes := gif87a++[0x01, 0x00, 0x01, 0x00, 0x00, 0x00, 0x00, 0x3B]

theorem first_version_unsigned : ¬ ∀ (format : FileFormat) (data : Bytes) (v : Verdict),
    fileValidator Crc32.crc32 format data = some v → v.outcome = .validates →
      ∃ p ∈ registeredHeaders format, p.text <+: data := by
  intro h
  have hv : gifFileValidator firstVersion = ⟨.validates, some 14⟩ := by decide +kernel
  obtain ⟨p, hp, hbegins⟩ := h .gif firstVersion _ (congrArg some hv) rfl
  rw [registered_header, List.mem_singleton] at hp
  subst hp
  exact absurd hbegins (by decide)

end EraseCure.DefaultSignatures
