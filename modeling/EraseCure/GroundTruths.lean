import EraseCure.TestImages
import Mathlib.Data.List.Forall2

/-!
# The ground truth of an evidence image

Every successful call adds one record and changes nothing but the bytes of its
own file. As long as all blocks lie in the image, the records give their files
back at the end of any run, and the rest of the image is still zero.
-/

set_option autoImplicit false

namespace EraseCure.GroundTruths
open EraseCure.CText EraseCure.FileSystems EraseCure.Hashing EraseCure.ScatteredFiles
open EraseCure.TestImages

def embedAll (sha256 : Bytes → Digest) :
    SyntheticEvidenceImage → List EmbedCall → Option SyntheticEvidenceImage
  | img, [] => some img
  | img, call::rest =>
    match testImageGenEmbedFile sha256 img call with
    | (img', .ok _) => embedAll sha256 img' rest
    | (_, .error _) => none

structure Faithful (img : SyntheticEvidenceImage) (calls : List EmbedCall) : Prop where
  formed : Formed img
  held : List.Forall₂ (fun r call => r.originalSize = call.data.length ∧
    Holds img.blockSize img.data r.actualBlocks call.data) img.records calls
  below : ∀ r ∈ img.records, ∀ b ∈ r.actualBlocks, b < img.nextFreeBlock
  increasing : ∀ r ∈ img.records, r.actualBlocks.Pairwise (fun a b => a < b)
  apart : img.records.Pairwise
    (fun r r' => ∀ b ∈ r.actualBlocks, ∀ b' ∈ r'.actualBlocks, b < b')
  blank : ∀ pos < img.data.length,
    (∀ r ∈ img.records, ¬ Covers img.blockSize r.actualBlocks r.originalSize pos) →
    img.data[pos]? = some 0

theorem init_faithful (io : InitIo) (path : Text) (blockSize totalBlocks : ℕ)
    (img : SyntheticEvidenceImage)
    (h : testImageGenInit io path blockSize totalBlocks = .ok img) : Faithful img [] := by
  obtain ⟨hformed, _, _, _, hrecords, hdata⟩ := init_formed io path blockSize totalBlocks img h
  constructor
  · exact hformed
  · rw [hrecords]
    exact List.Forall₂.nil
  · simp [hrecords]
  · simp [hrecords]
  · rw [hrecords]
    exact List.Pairwise.nil
  · intro pos hpos _
    rw [hdata] at hpos ⊢
    rw [List.length_replicate] at hpos
    exact List.getElem?_replicate_of_lt hpos

section Steps
variable (sha256 : Bytes → Digest) (img : SyntheticEvidenceImage) (call : EmbedCall)

/-- A successful call has passed its checks and keeps its record. -/
theorem embed_ok (img' : SyntheticEvidenceImage) (r : GroundTruthRecord)
    (h : testImageGenEmbedFile sha256 img call = (img', .ok r)) :
    Passes img call ∧ ∃ capacity, img' = { img with
      nextFreeBlock := (placed img call).nextFreeBlock
      data := (placed img call).data
      records := img.records++[recordOf sha256 img call]
      recordCapacity := capacity } := by
  by_cases hp : Passes img call
  · refine ⟨hp, ?_⟩
    by_cases hs : Stored img call
    · obtain ⟨capacity, heq⟩ := embed_stored sha256 img call hp hs
      rw [heq] at h
      exact ⟨capacity, (congrArg Prod.fst h).symm⟩
    · rw [embed_unstored sha256 img call hp hs] at h
      cases h
  · obtain ⟨e, heq⟩ := embed_refused sha256 img call hp
    rw [heq] at h
    cases h

/-- The blocks of a call hold its file, and all other positions are as before. -/
theorem placed_holds (h : Formed img) (hp : Passes img call)
    (hin : ∀ b ∈ numbers img call, b < img.totalBlocks) :
    Holds img.blockSize (placed img call).data (numbers img call) call.data ∧
      ∀ pos, ¬ Covers img.blockSize (numbers img call) call.data.length pos →
        (placed img call).data[pos]? = img.data[pos]? := by
  apply placeBlocks_holds _ _ _ _ 0 _ _ (placed_round img call h hp)
  intro b hb
  rw [h.length, ← Nat.succ_mul]
  exact Nat.mul_le_mul_right _ (hin b hb)

theorem embed_faithful (calls : List EmbedCall) (h : Faithful img calls)
    (hp : Passes img call) (hin : ∀ b ∈ numbers img call, b < img.totalBlocks) (capacity : ℕ) :
    Faithful { img with
      nextFreeBlock := (placed img call).nextFreeBlock
      data := (placed img call).data
      records := img.records++[recordOf sha256 img call]
      recordCapacity := capacity } (calls++[call]) := by
  obtain ⟨hholds, hframe⟩ := placed_holds img call h.formed hp hin
  have hnext := placed_next img call h.formed hp
  have hlen := placed_length img call h.formed hp
  have hbetween := numbers_between img call h.formed hp
  have hnumbers : (recordOf sha256 img call).actualBlocks = numbers img call :=
    placed_blocks img call h.formed hp
  have hsame : ∀ pos < img.nextFreeBlock*img.blockSize,
      (placed img call).data[pos]? = img.data[pos]? := by
    intro pos hpos
    apply hframe
    intro hc
    obtain ⟨b, hb, hle, _⟩ := covers_within img.blockSize _ _ _ hc
    have := Nat.mul_le_mul_right img.blockSize (hbetween b hb).1
    omega
  have hgrows : img.nextFreeBlock ≤ nextAfter img call := by
    rw [nextAfter]
    omega
  constructor
  · exact placed_formed img call h.formed hp _ capacity
  · have hold := (List.forall₂_and_left _ _).mpr ⟨h.below, h.held⟩
    have hnew : Holds img.blockSize (placed img call).data
        (recordOf sha256 img call).actualBlocks call.data := by
      rw [hnumbers]
      exact hholds
    refine List.rel_append (hold.imp ?_) (List.Forall₂.cons ⟨rfl, hnew⟩ List.Forall₂.nil)
    rintro r c ⟨hbelow, hsize, hheld⟩
    exact ⟨hsize, holds_frame img.blockSize _ _ _ _ img.nextFreeBlock hsame hbelow hheld⟩
  · intro r hr b hb
    dsimp only
    rw [hnext]
    rcases recorded_before sha256 img call r hr with hold | rfl
    · exact Nat.lt_of_lt_of_le (h.below r hold b hb) hgrows
    · rw [hnumbers] at hb
      exact (hbetween b hb).2
  · intro r hr
    rcases recorded_before sha256 img call r hr with hold | rfl
    · exact h.increasing r hold
    · rw [hnumbers]
      exact assigned_increasing _ 0 _ _
  · dsimp only
    rw [List.pairwise_append]
    refine ⟨h.apart, List.pairwise_singleton _ _, fun r hr r' hr' b hb b' hb' => ?_⟩
    rw [List.mem_singleton.mp hr', hnumbers] at hb'
    exact Nat.lt_of_lt_of_le (h.below r hr b hb) (hbetween b' hb').1
  · intro pos hpos hfree
    dsimp only at hpos hfree ⊢
    rw [hlen] at hpos
    have hnew := hfree (recordOf sha256 img call) (by simp)
    rw [hnumbers] at hnew
    rw [hframe pos hnew]
    exact h.blank pos hpos (fun r hr => hfree r (List.mem_append_left _ hr))

end Steps

/-- A run keeps the size of the image and the records that there are. -/
theorem embedAll_keeps (sha256 : Bytes → Digest) (img final : SyntheticEvidenceImage)
    (calls : List EmbedCall) (h : embedAll sha256 img calls = some final) :
    img.records <+: final.records ∧ final.blockSize = img.blockSize ∧
      final.totalBlocks = img.totalBlocks := by
  induction calls generalizing img with
  | nil =>
    cases h
    exact ⟨List.prefix_rfl, rfl, rfl⟩
  | cons call rest ih =>
    rw [embedAll] at h
    split at h
    · rename_i img' r heq
      obtain ⟨_, capacity, rfl⟩ := embed_ok sha256 img call img' r heq
      obtain ⟨hrecords, hsize, htotal⟩ := ih _ h
      exact ⟨(List.prefix_append _ _).trans hrecords, hsize, htotal⟩
    · contradiction

theorem embedAll_faithful (sha256 : Bytes → Digest) (img final : SyntheticEvidenceImage)
    (before calls : List EmbedCall) (hf : Faithful img before)
    (h : embedAll sha256 img calls = some final)
    (hin : ∀ r ∈ final.records, ∀ b ∈ r.actualBlocks, b < final.totalBlocks) :
    Faithful final (before++calls) := by
  induction calls generalizing img before with
  | nil =>
    cases h
    rw [List.append_nil]
    exact hf
  | cons call rest ih =>
    rw [embedAll] at h
    split at h
    · rename_i img' r heq
      obtain ⟨hp, capacity, rfl⟩ := embed_ok sha256 img call img' r heq
      obtain ⟨hrecords, _, htotal⟩ := embedAll_keeps sha256 _ final rest h
      have hnumbers : ∀ b ∈ numbers img call, b < img.totalBlocks := by
        intro b hb
        rw [← placed_blocks img call hf.formed hp] at hb
        have hmem : recordOf sha256 img call ∈ final.records := hrecords.subset (by simp)
        exact (hin _ hmem b hb).trans_eq htotal
      have hstep := embed_faithful sha256 img call before hf hp hnumbers capacity
      have hrest := ih _ (before++[call]) hstep h
      rwa [List.append_assoc] at hrest
    · contradiction

/-- After a run of successful calls whose blocks all lie in the image, the blocks
of the records rise and are apart, give the files back, and everything else is
still zero. -/
theorem ground_truth_kept (sha256 : Bytes → Digest) (io : InitIo) (path : Text)
    (blockSize totalBlocks : ℕ) (img final : SyntheticEvidenceImage) (calls : List EmbedCall)
    (hinit : testImageGenInit io path blockSize totalBlocks = .ok img)
    (hrun : embedAll sha256 img calls = some final)
    (hin : ∀ r ∈ final.records, ∀ b ∈ r.actualBlocks, b < final.totalBlocks) :
    (∀ r ∈ final.records, r.actualBlocks.Nodup ∧ r.actualBlocks.Pairwise (fun a b => a < b)) ∧
      final.records.Pairwise (fun r r' => r.actualBlocks.Disjoint r'.actualBlocks) ∧
      List.Forall₂ (fun r call =>
        (r.actualBlocks.flatMap (block final.blockSize final.data)).take r.originalSize = call.data)
        final.records calls ∧
      ∀ pos < final.data.length,
        (∀ r ∈ final.records, ¬ Covers final.blockSize r.actualBlocks r.originalSize pos) →
        final.data[pos]? = some 0 := by
  have hf := embedAll_faithful sha256 img final [] calls
    (init_faithful io path blockSize totalBlocks img hinit) hrun hin
  rw [List.nil_append] at hf
  refine ⟨fun r hr => ⟨?_, hf.increasing r hr⟩, ?_, ?_, hf.blank⟩
  · exact (hf.increasing r hr).imp (fun hlt => Nat.ne_of_lt hlt)
  · apply hf.apart.imp
    intro r r' hlt b hb hb'
    exact Nat.lt_irrefl b (hlt b hb b hb')
  · have hheld := (List.forall₂_and_left _ _).mpr ⟨hin, hf.held⟩
    apply hheld.imp
    rintro r call ⟨hblocks, hsize, hholds⟩
    rw [hsize]
    apply holds_joined final.blockSize final.data r.actualBlocks call.data _ hholds
    intro b hb
    rw [hf.formed.length, ← Nat.succ_mul]
    exact Nat.mul_le_mul_right _ (hblocks b hb)

def threeBytes : Bytes := [0x41, 0x42, 0x43]

def twoBytes : Bytes := [0x44, 0x45]

def fileDigest (data : Bytes) : Digest :=
  if data = threeBytes then #v[
    0xb5, 0xd4, 0x04, 0x5c, 0x3f, 0x46, 0x6f, 0xa9, 0x1f, 0xe2, 0xcc, 0x6a, 0xbe, 0x79, 0x23, 0x2a,
    0x1a, 0x57, 0xcd, 0xf1, 0x04, 0xf7, 0xa2, 0x6e, 0x71, 0x6e, 0x0a, 0x1e, 0x27, 0x89, 0xdf, 0x78]
  else #v[
    0x68, 0x14, 0xef, 0x46, 0xf6, 0x86, 0x99, 0x0c, 0xf4, 0xe9, 0x46, 0xf9, 0x66, 0x16, 0x7b, 0x05,
    0x07, 0xe1, 0xd6, 0x42, 0xc4, 0x4e, 0x51, 0xf6, 0x1b, 0xff, 0xb0, 0xbb, 0xa2, 0xd4, 0x67, 0x2b]

def twoCalls : List EmbedCall :=
  [⟨"a".toList, threeBytes, by decide, .gap, true, true⟩,
   ⟨"b".toList, twoBytes, by decide, .contiguous, true, true⟩]

def pairBlocks : SyntheticEvidenceImage :=
  ⟨printed256 "disk.img".toList, 12, 2, 6, List.replicate 12 0, 0, [], 16⟩

theorem ground_truth_kept_two : ∃ final, embedAll fileDigest pairBlocks twoCalls = some final ∧
    final.records.map GroundTruthRecord.actualBlocks = [[0, 3], [4]] ∧
    List.Forall₂ (fun r call =>
      (r.actualBlocks.flatMap (block final.blockSize final.data)).take r.originalSize = call.data)
      final.records twoCalls := by
  have hsome : (embedAll fileDigest pairBlocks twoCalls).isSome = true := by decide
  obtain ⟨final, hfinal⟩ := Option.isSome_iff_exists.mp hsome
  have hblocks : (embedAll fileDigest pairBlocks twoCalls).map (fun final =>
      (final.records.map GroundTruthRecord.actualBlocks, final.totalBlocks)) =
        some ([[0, 3], [4]], 6) := by decide
  rw [hfinal, Option.map_some, Option.some.injEq, Prod.mk.injEq] at hblocks
  refine ⟨final, hfinal, hblocks.1, (ground_truth_kept fileDigest ⟨true, true⟩ "disk.img".toList 2 6
    pairBlocks final twoCalls rfl hfinal ?_).2.2.1⟩
  intro r hr b hb
  have hmem : r.actualBlocks ∈ final.records.map GroundTruthRecord.actualBlocks :=
    List.mem_map_of_mem hr
  rw [hblocks.1] at hmem
  rw [hblocks.2]
  rcases List.mem_cons.mp hmem with hnumbers | hmem
  · rw [hnumbers] at hb
    revert b
    decide
  · rw [List.mem_singleton.mp hmem] at hb
    revert b
    decide

end EraseCure.GroundTruths
