import EraseCure.TestImages

/-!
# Where embedded files lie

The room for a file is checked before its loop, without the gap that the loop
may leave. The blocks of every record lie in the image as long as each file with
a gap has room for the gap as well, and a record starts at its first block when
the gap does not come before it.
-/

set_option autoImplicit false

namespace EraseCure.EmbeddedRanges
open EraseCure.CText EraseCure.FileSystems EraseCure.Hashing EraseCure.TestImages

structure InRange (img : SyntheticEvidenceImage) : Prop where
  blocks : ∀ r ∈ img.records, ∀ b ∈ r.actualBlocks, b < img.totalBlocks
  inside : ∀ r ∈ img.records, ∀ b ∈ r.actualBlocks,
    b*img.blockSize+img.blockSize ≤ img.data.length
  next : img.nextFreeBlock ≤ img.totalBlocks
  starts : ∀ r ∈ img.records, r.actualBlocks.head? = some r.startBlock

/-- A call with a gap that passes its checks has room for the gap, and its file
is longer than a block if a record of it is kept. -/
def Fits (img : SyntheticEvidenceImage) (call : EmbedCall) : Prop :=
  Passes img call → call.pattern = .gap →
    img.nextFreeBlock+blocksNeeded img call+2 ≤ img.totalBlocks ∧
      (Stored img call → 2 ≤ blocksNeeded img call)

theorem block_inside (img : SyntheticEvidenceImage) (h : Formed img) (b : ℕ)
    (hb : b < img.totalBlocks) : b*img.blockSize+img.blockSize ≤ img.data.length := by
  rw [h.length, ← Nat.succ_mul]
  exact Nat.mul_le_mul_right _ hb

theorem numbers_head (img : SyntheticEvidenceImage) (call : EmbedCall)
    (hpos : 0 < blocksNeeded img call) :
    (numbers img call).head? = some img.nextFreeBlock ↔
      (call.pattern = .gap → 2 ≤ blocksNeeded img call) := by
  obtain ⟨n, hn⟩ : ∃ n, blocksNeeded img call = n+1 := ⟨_, (Nat.succ_pred hpos.ne').symm⟩
  rw [numbers, hn, assigned, List.head?_cons, Option.some.injEq, nextNumber, gapIndex]
  by_cases hgap : call.pattern = .gap
  · rw [if_pos hgap]
    split_ifs with hhalf
    · have hzero := Option.some.inj hhalf
      constructor
      · omega
      · intro hlong
        have := hlong hgap
        omega
    · have hne : (n+1)/2 ≠ 0 := fun he => hhalf (congrArg some he)
      exact ⟨fun _ _ => by omega, fun _ => rfl⟩
  · rw [if_neg hgap]
    simp [hgap]

theorem numbers_within (img : SyntheticEvidenceImage) (call : EmbedCall) (h : Formed img)
    (hp : Passes img call) :
    (∀ b ∈ numbers img call, b < img.totalBlocks) ↔ nextAfter img call ≤ img.totalBlocks := by
  have hpos := blocksNeeded_pos img h call hp.1
  constructor
  · intro hall
    obtain ⟨b, hb, hlast⟩ := assigned_last (gapIndex call.pattern (blocksNeeded img call)) 0
      (blocksNeeded img call) img.nextFreeBlock hpos
    rw [nextAfter_eq img call hpos] at hlast
    have := hall b hb
    omega
  · intro hnext b hb
    exact Nat.lt_of_lt_of_le (numbers_between img call h hp b hb).2 hnext

/-- The room of a call that passes is enough but for its gap. -/
theorem nextAfter_within (img : SyntheticEvidenceImage) (call : EmbedCall) (h : Formed img)
    (hp : Passes img call) : nextAfter img call ≤ img.totalBlocks ↔
      (call.pattern = .gap → img.nextFreeBlock+blocksNeeded img call+2 ≤ img.totalBlocks) := by
  have hroom := passes_room img h call hp
  rw [nextAfter]
  split_ifs with hgap
  · simp [hgap]
  · simpa [hgap] using hroom

section Steps
variable (sha256 : Bytes → Digest) (img : SyntheticEvidenceImage) (call : EmbedCall)

theorem embed_inRange (hf : Formed img) (h : InRange img) :
    InRange (testImageGenEmbedFile sha256 img call).1 ↔ Fits img call := by
  by_cases hp : Passes img call
  · have hnext := placed_next img call hf hp
    have hwithin := nextAfter_within img call hf hp
    have hlen := placed_length img call hf hp
    by_cases hs : Stored img call
    · obtain ⟨capacity, heq⟩ := embed_stored sha256 img call hp hs
      have hnumbers : (recordOf sha256 img call).actualBlocks = numbers img call :=
        placed_blocks img call hf hp
      have hhead := numbers_head img call (blocksNeeded_pos img hf call hp.1)
      rw [heq]
      constructor
      · intro hafter _ hgap
        have hroom := hafter.next
        dsimp only at hroom
        rw [hnext] at hroom
        have hstart := hafter.starts (recordOf sha256 img call) (by simp)
        rw [hnumbers] at hstart
        exact ⟨hwithin.mp hroom hgap, fun _ => hhead.mp hstart hgap⟩
      · intro hfits
        have hroom := hwithin.mpr (fun hgap => (hfits hp hgap).1)
        have hblocks : ∀ r ∈ img.records++[recordOf sha256 img call],
            ∀ b ∈ r.actualBlocks, b < img.totalBlocks := by
          intro r hr b hb
          rcases recorded_before sha256 img call r hr with hold | rfl
          · exact h.blocks r hold b hb
          · rw [hnumbers] at hb
            exact (numbers_within img call hf hp).mpr hroom b hb
        refine ⟨hblocks, fun r hr b hb => ?_, hnext.trans_le hroom, fun r hr => ?_⟩
        · dsimp only
          rw [hlen]
          exact block_inside img hf b (hblocks r hr b hb)
        · rcases recorded_before sha256 img call r hr with hold | rfl
          · exact h.starts r hold
          · rw [hnumbers]
            exact hhead.mpr (fun hgap => (hfits hp hgap).2 hs)
    · rw [embed_unstored sha256 img call hp hs]
      constructor
      · intro hafter _ hgap
        have hroom := hafter.next
        dsimp only at hroom
        rw [hnext] at hroom
        exact ⟨hwithin.mp hroom hgap, fun hstored => absurd hstored hs⟩
      · intro hfits
        have hroom := hwithin.mpr (fun hgap => (hfits hp hgap).1)
        refine ⟨h.blocks, fun r hr b hb => ?_, hnext.trans_le hroom, h.starts⟩
        dsimp only
        rw [hlen]
        exact h.inside r hr b hb
  · obtain ⟨e, heq⟩ := embed_refused sha256 img call hp
    rw [heq]
    exact ⟨fun _ hp' => absurd hp' hp, fun _ => h⟩

theorem calls_formed (calls : List EmbedCall) (hf : Formed img) :
    Formed (embedCalls sha256 img calls) := by
  induction calls using List.reverseRecOn with
  | nil => exact hf
  | append_singleton calls call ih =>
    rw [embedCalls_concat]
    exact embed_formed sha256 _ call ih

end Steps

theorem init_inRange (io : InitIo) (path : Text) (blockSize totalBlocks : ℕ)
    (img : SyntheticEvidenceImage)
    (h : testImageGenInit io path blockSize totalBlocks = .ok img) : InRange img := by
  obtain ⟨_, _, _, hnext, hrecords, _⟩ := init_formed io path blockSize totalBlocks img h
  constructor
  · simp [hrecords]
  · simp [hrecords]
  · rw [hnext]
    exact Nat.zero_le _
  · simp [hrecords]

/-- In every run from a new image on, all files lie in the image after every call
exactly when every call of the run fits the image before it. -/
theorem embedded_in_range_iff (sha256 : Bytes → Digest) (io : InitIo) (path : Text)
    (blockSize totalBlocks : ℕ) (img : SyntheticEvidenceImage)
    (hinit : testImageGenInit io path blockSize totalBlocks = .ok img)
    (calls : List EmbedCall) :
    (∀ before, before <+: calls → InRange (embedCalls sha256 img before)) ↔
      ∀ before call, before++[call] <+: calls → Fits (embedCalls sha256 img before) call := by
  have hf := (init_formed io path blockSize totalBlocks img hinit).1
  constructor
  · intro hall before call hrun
    have hbefore := hall before ((List.prefix_append before [call]).trans hrun)
    have hafter := hall (before++[call]) hrun
    rw [embedCalls_concat] at hafter
    exact (embed_inRange sha256 _ call (calls_formed sha256 img before hf) hbefore).mp hafter
  · intro hfits before hrun
    induction before using List.reverseRecOn with
    | nil => exact init_inRange io path blockSize totalBlocks img hinit
    | append_singleton before call ih =>
      have hbefore := ih ((List.prefix_append before [call]).trans hrun)
      rw [embedCalls_concat]
      exact (embed_inRange sha256 _ call (calls_formed sha256 img before hf) hbefore).mpr
        (hfits before call hrun)

def gapCall : EmbedCall :=
  ⟨"a".toList, [0x41, 0x42, 0x43, 0x44], by decide, .gap, true, true⟩

def byteBlocks (totalBlocks : ℕ) : SyntheticEvidenceImage :=
  ⟨printed256 "disk.img".toList, totalBlocks, 1, totalBlocks, List.replicate totalBlocks 0, 0, [],
    16⟩

def abcdDigest (_ : Bytes) : Digest := #v[
  0xe1, 0x2e, 0x11, 0x5a, 0xcf, 0x45, 0x52, 0xb2, 0x56, 0x8b, 0x55, 0xe9, 0x3c, 0xbd, 0x39, 0x39,
  0x4c, 0x4e, 0xf8, 0x1c, 0x82, 0x44, 0x7f, 0xaf, 0xc9, 0x97, 0x88, 0x2a, 0x02, 0xd2, 0x36, 0x77]

def allocated : InitIo := ⟨true, true⟩

theorem embedded_in_range_six :
    testImageGenInit allocated "disk.img".toList 1 6 = .ok (byteBlocks 6) ∧
      InRange (embedCalls abcdDigest (byteBlocks 6) [gapCall]) := by
  refine ⟨rfl, (embedded_in_range_iff abcdDigest allocated "disk.img".toList 1 6 (byteBlocks 6) rfl
    [gapCall]).mpr (fun before call hrun => ?_) [gapCall] List.prefix_rfl⟩
  have hlen := hrun.length_le
  rw [List.length_append, List.length_singleton, List.length_singleton] at hlen
  obtain rfl := List.length_eq_zero_iff.mp (show before.length = 0 by omega)
  obtain rfl : call = gapCall := by simpa using hrun
  exact fun _ _ => ⟨by decide, fun _ => by decide⟩

theorem gap_out_of_range :
    testImageGenInit allocated "disk.img".toList 1 4 = .ok (byteBlocks 4) ∧
      (embedCalls abcdDigest (byteBlocks 4) [gapCall]).records.map GroundTruthRecord.actualBlocks =
        [[0, 1, 4, 5]] ∧
      (embedCalls abcdDigest (byteBlocks 4) [gapCall]).nextFreeBlock = 6 ∧
      ¬ InRange (embedCalls abcdDigest (byteBlocks 4) [gapCall]) := by
  refine ⟨rfl, by decide, by decide, fun h => ?_⟩
  have hnext := h.next
  revert hnext
  decide

end EraseCure.EmbeddedRanges
