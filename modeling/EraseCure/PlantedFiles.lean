import EraseCure.ExactScans
import EraseCure.GroundTruths

/-!
# Planted files are found

A generated image is written to a file, and a mirror of the file is scanned with
the built-in signatures. The parts of the planted files lie at the starts of
their blocks and all other bytes are zero, so the scan reports exactly the blocks
whose part of a file begins with a signature.
-/

set_option autoImplicit false

namespace EraseCure.PlantedFiles
open EraseCure.CText EraseCure.FileSystems EraseCure.Hashing EraseCure.FileMirrors
open EraseCure.FileValidators EraseCure.ParsedSizes EraseCure.Discovery
open EraseCure.DefaultSignatures EraseCure.ScatteredFiles EraseCure.TestImages
open EraseCure.GroundTruths

inductive WriteError where
  | ioWrite
  deriving DecidableEq

/-- Whether the file can be opened, the object that a new file gets, how many bytes
`fwrite` accepts, and how many are in the file after `fclose`. -/
structure WriteIo where
  opened : Bool
  fresh : ℕ
  accepted : ℕ
  kept : ℕ

/-- The path names a regular file or nothing. The result of `fclose` is not looked at. -/
def testImageGenWrite (fs : FileSystem) (io : WriteIo) (img : SyntheticEvidenceImage) :
    FileSystem × Option WriteError :=
  if !io.opened then (fs, some .ioWrite)
  else
    let node := (fs.resolve img.imagePath.chars).getD io.fresh
    let written := (img.data.take img.imageSize).take io.accepted
    ({ fs with
        resolve := Function.update fs.resolve img.imagePath.chars (some node)
        resolveLink := Function.update fs.resolveLink img.imagePath.chars
          ((fs.resolveLink img.imagePath.chars).getD node)
        object := Function.update fs.object node (.regular (written.take io.kept)) },
      if written.length ≠ img.imageSize then some .ioWrite else none)

def mirrorIo (fs : FileSystem) (path : Text) (calloc : Bool) (digest : Option Digest) :
    MirrorIo where
  opened := (fs.stat path).map Object.content
  fstat := (fs.stat path).map (fun file => UInt64.ofNat file.statSize)
  calloc := calloc
  digest := digest

/-- A generated image is as long as its blocks. -/
def Whole (img : SyntheticEvidenceImage) : Prop :=
  img.imageSize = img.totalBlocks*img.blockSize

theorem init_whole (io : InitIo) (path : Text) (blockSize totalBlocks : ℕ)
    (img : SyntheticEvidenceImage)
    (h : testImageGenInit io path blockSize totalBlocks = .ok img) : Whole img := by
  have hobject := (init_formed io path blockSize totalBlocks img h).1.object
  rw [testImageGenInit] at h
  split_ifs at h
  cases h
  dsimp only at hobject
  rw [Whole, u64, Nat.mul_comm]
  exact Nat.mod_eq_of_lt (by omega)

theorem embedAll_whole (sha256 : Bytes → Digest) (img final : SyntheticEvidenceImage)
    (calls : List EmbedCall) (h : embedAll sha256 img calls = some final) (hw : Whole img) :
    Whole final := by
  induction calls generalizing img with
  | nil =>
    obtain rfl : img = final := Option.some.inj h
    exact hw
  | cons call rest ih =>
    rw [embedAll] at h
    rcases hrun : testImageGenEmbedFile sha256 img call with ⟨img', e | r⟩
    · rw [hrun] at h
      cases h
    · rw [hrun] at h
      obtain ⟨_, capacity, rfl⟩ := embed_ok sha256 img call img' r hrun
      exact ih _ h hw

section Mirrors
variable (img : SyntheticEvidenceImage) (hformed : Formed img) (hwhole : Whole img)
variable (fs : FileSystem) (io : WriteIo) (hwrite : (testImageGenWrite fs io img).2 = none)
  (hkept : img.imageSize ≤ io.kept)
include hformed hwhole hwrite hkept

theorem written_image : (testImageGenWrite fs io img).1.stat img.imagePath.chars =
    some (.regular img.data) := by
  have htake : img.data.take img.imageSize = img.data :=
    List.take_of_length_le (by rw [hformed.length, hwhole])
  cases hopened : io.opened with
  | false =>
    rw [testImageGenWrite, hopened] at hwrite
    contradiction
  | true =>
    have hlen : (img.data.take io.accepted).length = img.imageSize := by
      rw [testImageGenWrite, hopened, htake] at hwrite
      simpa using hwrite
    have hall : img.data.take io.accepted = img.data := by
      rw [List.length_take, hwhole, ← hformed.length] at hlen
      exact List.take_of_length_le (by omega)
    have hclosed : img.data.take io.kept = img.data :=
      List.take_of_length_le (by rwa [hformed.length, ← hwhole])
    rw [testImageGenWrite, hopened, htake, hall]
    simp [FileSystem.stat, hclosed]

variable (calloc : Bool) (digest : Option Digest) (fm : FileMirror)
  (hopen : fileMirrorOpen
    (mirrorIo (testImageGenWrite fs io img).1 img.imagePath.chars calloc digest)
    img.imagePath.chars (UInt64.ofNat img.blockSize) = .ok fm)
include hopen

theorem mirror_image : fm.image = img.data ∧ fm.blockSize.toNat = img.blockSize ∧
    fm.totalBlocks.toNat = img.totalBlocks := by
  have hstat := written_image img hformed hwhole fs io hwrite hkept
  have ho := open_opened _ _ _ fm hopen
  have himage := ho.image_eq
  have hsize := ho.size_eq
  rw [mirrorIo, hstat] at himage hsize
  have hobject := hformed.object
  have hblock : img.blockSize < 2^64 := by
    have := Nat.le_mul_of_pos_left img.blockSize hformed.total
    omega
  have hblockSize : fm.blockSize.toNat = img.blockSize := by
    rw [ho.blockSize_eq, UInt64.toNat_ofNat']
    exact Nat.mod_eq_of_lt hblock
  refine ⟨(Option.some.inj himage).symm, hblockSize, ?_⟩
  rw [ho.total_eq, UInt64.toNat_div, hblockSize, ← Option.some.inj hsize, UInt64.toNat_ofNat',
    Object.statSize, hformed.length, Nat.mod_eq_of_lt (by omega)]
  exact Nat.mul_div_cancel _ hformed.size

end Mirrors

section Blocks
variable (img : SyntheticEvidenceImage) (calls : List EmbedCall) (hf : Faithful img calls)
include hf

theorem block_length (b : ℕ) (hb : b < img.totalBlocks) :
    (block img.blockSize img.data b).length = img.blockSize := by
  have hend := Nat.mul_le_mul_right img.blockSize (Nat.succ_le_of_lt hb)
  rw [Nat.succ_mul, ← hf.formed.length] at hend
  rw [block, List.length_take, List.length_drop]
  omega

/-- Where the image is not zero, a part of a planted file lies. -/
theorem planted_part (pos : ℕ) (x : UInt8) (hx : x ≠ 0) (hget : img.data[pos]? = some x) :
    ∃ r call, (r, call) ∈ img.records.zip calls ∧ ∃ j b, r.actualBlocks[j]? = some b ∧
      b*img.blockSize ≤ pos ∧
      pos < b*img.blockSize+min img.blockSize (call.data.length-j*img.blockSize) := by
  have hpos := (List.getElem?_eq_some_iff.mp hget).1
  have hcovered : ∃ r ∈ img.records, Covers img.blockSize r.actualBlocks r.originalSize pos := by
    by_contra hfree
    push Not at hfree
    rw [hf.blank pos hpos hfree, Option.some.injEq] at hget
    exact hx hget.symm
  obtain ⟨r, hr, hc⟩ := hcovered
  obtain ⟨hlen, hzip⟩ := List.forall₂_iff_zip.mp hf.held
  obtain ⟨i, hi, rfl⟩ := List.getElem_of_mem hr
  have hmem : (img.records[i], calls[i]) ∈ img.records.zip calls := by
    rw [← List.getElem_zip (h := by rw [List.length_zip]; omega)]
    exact List.getElem_mem _
  rw [(hzip hmem).1] at hc
  exact ⟨_, _, hmem, covers_get img.blockSize _ _ _ hc⟩

theorem planted_begins (magic : Bytes) (hne : magic ≠ []) (hnonzero : ∀ x ∈ magic, x ≠ 0)
    (b : ℕ) : magic <+: block img.blockSize img.data b ↔
      ∃ r call, (r, call) ∈ img.records.zip calls ∧ ∃ j, r.actualBlocks[j]? = some b ∧
        magic <+: block img.blockSize call.data j := by
  have hparts : ∀ r call, (r, call) ∈ img.records.zip calls →
      Holds img.blockSize img.data r.actualBlocks call.data :=
    fun r call hmem => ((List.forall₂_iff_zip.mp hf.held).2 hmem).2
  constructor
  · intro hbegins
    -- The last byte of the magic lies in some part, so the whole magic does.
    have hlast : magic.length-1 < magic.length :=
      Nat.sub_lt (List.length_pos_iff.mpr hne) Nat.one_pos
    have hfits := hbegins.length_le
    rw [block, List.length_take, List.length_drop] at hfits
    have hget : img.data[b*img.blockSize+(magic.length-1)]? = some magic[magic.length-1] := by
      rw [← List.getElem?_drop, ← List.getElem?_take_of_lt (show magic.length-1 < img.blockSize by
        omega), ← block, List.getElem?_eq_getElem (hlast.trans_le hbegins.length_le),
        hbegins.getElem hlast]
    obtain ⟨r, call, hmem, j, b', hj, hle, hlt⟩ :=
      planted_part img calls hf _ _ (hnonzero _ (List.getElem_mem hlast)) hget
    obtain rfl : b' = b := by
      have hbefore : b'*img.blockSize < (b+1)*img.blockSize := by
        rw [Nat.succ_mul]
        omega
      have hbehind : b*img.blockSize < (b'+1)*img.blockSize := by
        rw [Nat.succ_mul]
        omega
      have h1 := Nat.lt_of_mul_lt_mul_right hbefore
      have h2 := Nat.lt_of_mul_lt_mul_right hbehind
      omega
    refine ⟨r, call, hmem, j, hj, ?_⟩
    rw [block, ← holds_get img.blockSize img.data _ _ j b' (hparts r call hmem) hj]
    rw [block] at hbegins
    have hwhole := List.prefix_take_iff.mp hbegins
    exact List.prefix_take_iff.mpr ⟨hwhole.1, by omega⟩
  · rintro ⟨r, call, hmem, j, hj, hbegins⟩
    rw [block, ← holds_get img.blockSize img.data _ _ j b (hparts r call hmem) hj] at hbegins
    exact hbegins.trans (List.take_prefix_take_left (Nat.min_le_left _ _))

end Blocks

section Hits

theorem signature_nonzero (format : FileFormat) :
    signature format ≠ [] ∧ ∀ x ∈ signature format, x ≠ 0 := by
  cases format <;> decide +kernel

/-- A hit of the default signatures lies at the start of a block. -/
theorem hit_starts (readBlock : ReadBlock) (fm : FileMirror) (hit : SignatureHit)
    (hread : ∀ b < fm.totalBlocks, ∃ data, readBlock fm b = .ok data ∧
      data.length = fm.blockSize.toNat)
    (h : hit ∈ (discoveryScan readBlock defaultEngine fm []).2.1.hits) :
    ∃ b < fm.totalBlocks, ∃ format, hit = ⟨b, b*fm.blockSize, typeName format, false⟩ := by
  rw [scan_hits, show defaultEngine.hits = [] by decide, List.nil_append,
    List.mem_flatMap] at h
  obtain ⟨i, hi, hmem⟩ := h
  have hb : UInt64.ofNat i < fm.totalBlocks := by
    rw [List.mem_range] at hi
    rwa [UInt64.lt_iff_toNat_lt, UInt64.toNat_ofNat_of_lt' (hi.trans fm.totalBlocks.toNat_lt)]
  obtain ⟨data, hdata, hlen⟩ := hread _ hb
  rw [blockHits, hdata, default_patterns] at hmem
  dsimp only at hmem
  rw [if_neg (by omega), List.mem_filterMap] at hmem
  obtain ⟨pat, hpat, hhit⟩ := hmem
  obtain ⟨format, _, rfl⟩ := List.mem_map.mp hpat
  rw [header_match fm _ data hlen] at hhit
  split at hhit
  · exact ⟨_, hb, format, (Option.some.inj hhit).symm⟩
  · contradiction

variable (img : SyntheticEvidenceImage) (calls : List EmbedCall) (hf : Faithful img calls)
variable (fm : FileMirror) (himage : fm.image = img.data)
  (hsize : fm.blockSize.toNat = img.blockSize) (htotal : fm.totalBlocks.toNat = img.totalBlocks)
include hf himage hsize htotal

theorem mirror_reads (b : UInt64) (hb : b < fm.totalBlocks) :
    fileMirrorReadBlock fm b = .ok (block img.blockSize img.data b.toNat) := by
  have hlt : b.toNat < img.totalBlocks := by
    rw [← htotal]
    exact UInt64.lt_iff_toNat_lt.mp hb
  have hplace : (b*fm.blockSize).toNat = b.toNat*img.blockSize := by
    have hend := Nat.mul_le_mul_right img.blockSize hlt.le
    have hobject := hf.formed.object
    rw [UInt64.toNat_mul, hsize]
    exact Nat.mod_eq_of_lt (by omega)
  have hread : (fm.image.drop (b*fm.blockSize).toNat).take fm.blockSize.toNat =
      block img.blockSize img.data b.toNat := by
    rw [hplace, hsize, himage, block]
  rw [fileMirrorReadBlock, if_neg (UInt64.not_le.mpr hb), hread]
  exact if_pos ((block_length img calls hf _ hlt).trans hsize.symm)

theorem mirror_hits (hin : ∀ r ∈ img.records, ∀ b ∈ r.actualBlocks, b < img.totalBlocks)
    (hit : SignatureHit) :
    hit ∈ (discoveryScan fileMirrorReadBlock defaultEngine fm []).2.1.hits ↔
      ∃ r call, (r, call) ∈ img.records.zip calls ∧ ∃ j b format, r.actualBlocks[j]? = some b ∧
        signature format <+: block img.blockSize call.data j ∧
        hit = ⟨UInt64.ofNat b, UInt64.ofNat (b*img.blockSize), typeName format, false⟩ := by
  have hreads := mirror_reads img calls hf fm himage hsize htotal
  have hlength : ∀ b < fm.totalBlocks,
      (block img.blockSize img.data b.toNat).length = fm.blockSize.toNat := by
    intro b hb
    rw [hsize]
    exact block_length img calls hf _ (htotal ▸ UInt64.lt_iff_toNat_lt.mp hb)
  have hbegins := fun b format => planted_begins img calls hf (signature format)
    (signature_nonzero format).1 (signature_nonzero format).2 b
  have hplace : ∀ b : UInt64, b*fm.blockSize = UInt64.ofNat (b.toNat*img.blockSize) := by
    intro b
    rw [← hsize, UInt64.ofNat_mul, UInt64.ofNat_toNat, UInt64.ofNat_toNat]
  constructor
  · intro h
    obtain ⟨b, hb, format, rfl⟩ := hit_starts fileMirrorReadBlock fm hit
      (fun b hb => ⟨_, hreads b hb, hlength b hb⟩) h
    rw [header_hit fileMirrorReadBlock fm b _ hb (hreads b hb) (hlength b hb) format,
      hbegins] at h
    obtain ⟨r, call, hmem, j, hj, hpart⟩ := h
    exact ⟨r, call, hmem, j, b.toNat, format, hj, hpart, by
      rw [UInt64.ofNat_toNat, hplace]⟩
  · rintro ⟨r, call, hmem, j, b, format, hj, hpart, rfl⟩
    have hblock := hin r (List.of_mem_zip hmem).1 b (List.mem_of_getElem? hj)
    have hnumber : (UInt64.ofNat b).toNat = b := by
      rw [← htotal] at hblock
      exact UInt64.toNat_ofNat_of_lt' (hblock.trans fm.totalBlocks.toNat_lt)
    have hb : UInt64.ofNat b < fm.totalBlocks := by
      rwa [UInt64.lt_iff_toNat_lt, hnumber, htotal]
    have hmul := hplace (UInt64.ofNat b)
    rw [hnumber] at hmul
    rw [← hmul, header_hit fileMirrorReadBlock fm _ _ hb (hreads _ hb) (hlength _ hb) format,
      hnumber, hbegins]
    exact ⟨r, call, hmem, j, hj, hpart⟩

end Hits

section Planted
variable (sha256 : Bytes → Digest) (initIo : InitIo) (path : Text) (blockSize totalBlocks : ℕ)
variable (fs : FileSystem) (io : WriteIo) (calloc : Bool) (digest : Option Digest)

/-- When the calls succeed, all their blocks lie in the image, and the image is
written without loss and opened again, a scan reports a type exactly at the blocks
whose part of a planted file begins with its signature. -/
theorem planted_exact (img final : SyntheticEvidenceImage) (calls : List EmbedCall)
    (hinit : testImageGenInit initIo path blockSize totalBlocks = .ok img)
    (hrun : embedAll sha256 img calls = some final)
    (hin : ∀ r ∈ final.records, ∀ b ∈ r.actualBlocks, b < final.totalBlocks)
    (hwrite : (testImageGenWrite fs io final).2 = none)
    (hkept : final.imageSize ≤ io.kept) (fm : FileMirror)
    (hopen : fileMirrorOpen
      (mirrorIo (testImageGenWrite fs io final).1 final.imagePath.chars calloc digest)
      final.imagePath.chars (UInt64.ofNat final.blockSize) = .ok fm) (hit : SignatureHit) :
    hit ∈ (discoveryScan fileMirrorReadBlock defaultEngine fm []).2.1.hits ↔
      ∃ r call, (r, call) ∈ final.records.zip calls ∧
        ∃ j b format, r.actualBlocks[j]? = some b ∧
          signature format <+: block final.blockSize call.data j ∧
          hit = ⟨UInt64.ofNat b, UInt64.ofNat (b*final.blockSize), typeName format, false⟩ := by
  have hf := embedAll_faithful sha256 img final [] calls
    (init_faithful initIo path blockSize totalBlocks img hinit) hrun hin
  rw [List.nil_append] at hf
  have hwhole := embedAll_whole sha256 img final calls hrun
    (init_whole initIo path blockSize totalBlocks img hinit)
  obtain ⟨himage, hsize, htotal⟩ :=
    mirror_image final hf.formed hwhole fs io hwrite hkept calloc digest fm hopen
  exact mirror_hits final calls hf fm himage hsize htotal hin hit

end Planted

def twoParts : Bytes := [0xFF, 0xD8, 0xFF, 0x00, 0xFF, 0xFB]

def partsDigest (_ : Bytes) : Digest := #v[
  0x33, 0x2f, 0xec, 0xcd, 0x3a, 0x9d, 0x22, 0x16, 0x79, 0xb7, 0xe6, 0x18, 0xdd, 0xc9, 0xb7, 0x1e,
  0x4f, 0x6b, 0x44, 0x12, 0x66, 0xb1, 0x85, 0x09, 0x53, 0xed, 0x11, 0xde, 0x87, 0x55, 0x47, 0xb9]

def sixBlocks : SyntheticEvidenceImage :=
  ⟨printed256 "disk.img".toList, 24, 4, 6, List.replicate 24 0, 0, [], 16⟩

def partsCall : EmbedCall := ⟨"a".toList, twoParts, by decide, .gap, true, true⟩

def partsImage : SyntheticEvidenceImage := { sixBlocks with
  data := [0xFF, 0xD8, 0xFF, 0x00]++List.replicate 8 0++[0xFF, 0xFB]++List.replicate 10 0
  nextFreeBlock := 4
  records := [recordOf partsDigest sixBlocks partsCall] }

def partsMirror : FileMirror where
  image := partsImage.data
  imageSize := 24
  blockSize := 4
  totalBlocks := 6
  imagePath := printed256 "disk.img".toList
  evidenceHash := printed65 []
  hashVerified := false
  coveredMask := List.replicate 6 false
  apparentBlocks := 6

theorem planted_exact_second : ⟨3, 12, typeName .mp3, false⟩ ∈
    (discoveryScan fileMirrorReadBlock defaultEngine partsMirror []).2.1.hits := by
  have hblocks : (recordOf partsDigest sixBlocks partsCall).actualBlocks = [0, 3] := by decide
  refine (planted_exact partsDigest ⟨true, true⟩ "disk.img".toList 4 6
    ⟨fun _ => none, fun _ => none, fun _ => .other⟩ ⟨true, 0, 24, 24⟩ true none sixBlocks partsImage
    [partsCall] rfl rfl ?_ rfl le_rfl partsMirror rfl _).mpr
      ⟨recordOf partsDigest sixBlocks partsCall, partsCall, by simp [partsImage], 1, 3, .mp3, ?_,
        by decide, rfl⟩
  · intro r hr b hb
    rw [List.mem_singleton.mp hr, hblocks] at hb
    revert b
    decide
  · rw [hblocks]
    rfl

end EraseCure.PlantedFiles
