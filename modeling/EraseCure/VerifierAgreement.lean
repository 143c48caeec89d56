import EraseCure.EraseRoundTrip
import EraseCure.FileVerify
import Mathlib.Data.Nat.Count

/-!
# Two verifiers of one file

One verifier streams the file and counts bytes, the other seeks to blocks and
counts those that differ. When nothing fails both see every byte, and the
failed blocks are the blocks in which the mismatched bytes lie.
-/

set_option autoImplicit false

namespace EraseCure.VerifierAgreement
open EraseCure.CText EraseCure.Devices EraseCure.FileSystems
open EraseCure.ByteRanges EraseCure.ErasePasses EraseCure.Verification EraseCure.FileVerify
open EraseCure.EraseRoundTrip

def mismatches (content : Bytes) (expected : UInt8) : Finset ℕ :=
  (Finset.range content.length).filter fun i => content[i]? ≠ some expected

theorem mem_mismatches (content : Bytes) (expected : UInt8) (i : ℕ) :
    i ∈ mismatches content expected ↔ i < content.length ∧ content[i]? ≠ some expected := by
  rw [mismatches, Finset.mem_filter, Finset.mem_range]

theorem countP_take (content : Bytes) (expected : UInt8) (n : ℕ) (hn : n ≤ content.length) :
    (content.take n).countP (fun x => x ≠ expected) =
      Nat.count (fun i => content[i]? ≠ some expected) n := by
  induction n with
  | zero => rfl
  | succ n ih =>
    have hget := List.getElem?_eq_getElem (show n < content.length by omega)
    rw [List.take_add_one, List.countP_append, ih (by omega), Nat.count_succ, hget]
    simp

theorem mismatches_card (content : Bytes) (expected : UInt8) :
    (mismatches content expected).card =
      (slice content 0 content.length).countP (fun x => x ≠ expected) := by
  have htake : slice content 0 content.length = content.take content.length := by
    rw [slice, List.drop_zero, Nat.sub_zero]
  rw [htake, countP_take content expected content.length (Nat.le_refl _),
    Nat.count_eq_card_filter_range, mismatches]

section Blocks
variable (content : Bytes) (expected : UInt8) (size : ℕ)

theorem blockCount_le (length : ℕ) (hs : 0 < size) : length ≤ blockCount length size*size := by
  have hdiv := Nat.div_add_mod length size
  have hmod := Nat.mod_lt length hs
  rw [Nat.mul_comm] at hdiv
  rw [blockCount]
  split
  · rw [Nat.add_mul]
    omega
  · omega

/-- A block differs when one of the bytes that differ lies in it. -/
theorem matches_iff (hs : 0 < size) (blk : ℕ) :
    Matches content expected content.length size blk ↔
      ∀ i ∈ mismatches content expected, i / size ≠ blk := by
  have hrange : ∀ i < content.length, (i / size = blk ↔ blk*size ≤ i ∧
      i < blk*size+blockLength content.length size blk) := fun i hi => by
    rw [Nat.div_eq_iff hs, blockLength]
    split <;> omega
  constructor
  · intro h i hi heq
    obtain ⟨hlt, hne⟩ := (mem_mismatches content expected i).mp hi
    obtain ⟨h1, h2⟩ := (hrange i hlt).mp heq
    exact hne (h i h1 h2)
  · intro h i h1 h2
    have hlt : i < content.length := by
      rw [blockLength] at h2
      split at h2 <;> omega
    by_contra hne
    exact h i ((mem_mismatches content expected i).mpr ⟨hlt, hne⟩) ((hrange i hlt).mpr ⟨h1, h2⟩)

/-- The blocks that a full run counts as failed. -/
def BlockFails (io : ReadIo) (blk : ℕ) : Prop :=
  (readBlock io content content.length size blk).all (fun x => x = expected) = false

instance (io : ReadIo) : DecidablePred (BlockFails content expected size io) :=
  fun _ => inferInstanceAs (Decidable (_ = false))

/-- When every block can be read the loop ends well, with one failure for
each block that differs. -/
theorem verifyBlocks_failures (io : ReadIo) (total fuel blk checked failed : ℕ)
    (hr : ∀ b, Readable io content content.length size b) (hb : blk ≤ total)
    (hf : total ≤ blk+fuel) :
    let out := verifyBlocks io content expected content.length size total 1 fuel blk checked failed
    out.1 = .ok ∧ out.2.2+Nat.count (BlockFails content expected size io) blk =
      failed+Nat.count (BlockFails content expected size io) total := by
  induction fuel generalizing blk checked failed with
  | zero =>
    obtain rfl : blk = total := by omega
    exact ⟨rfl, rfl⟩
  | succ fuel ih =>
    rw [verifyBlocks]
    by_cases hlt : blk < total
    · rw [if_pos hlt, if_pos (hr blk).1]
      dsimp only
      rw [if_neg (not_not_intro (hr blk).2)]
      obtain ⟨hcode, hcount⟩ := ih (blk+1) (checked+1)
        (if (readBlock io content content.length size blk).all (fun x => x = expected) then failed
          else failed+1) hlt (by omega)
      refine ⟨hcode, ?_⟩
      rw [Nat.count_succ] at hcount
      by_cases hall : (readBlock io content content.length size blk).all
          (fun x => x = expected) = true
      · have hno : ¬ BlockFails content expected size io blk := by
          rw [BlockFails, hall]
          decide
        rw [if_neg hno] at hcount
        rw [if_pos hall] at hcount ⊢
        omega
      · have hyes : BlockFails content expected size io blk := Bool.eq_false_of_not_eq_true hall
        rw [if_pos hyes] at hcount
        rw [if_neg hall] at hcount ⊢
        omega
    · obtain rfl : blk = total := by omega
      rw [if_neg hlt]
      exact ⟨rfl, rfl⟩

/-- The blocks that fail are those in which the bytes that differ lie. -/
theorem failed_blocks (io : ReadIo) (hs : 0 < size)
    (hr : ∀ b, Readable io content content.length size b) :
    Nat.count (BlockFails content expected size io) (blockCount content.length size) =
      ((mismatches content expected).image fun i => i / size).card := by
  rw [Nat.count_eq_card_filter_range]
  congr 1
  ext blk
  have hmatch := (readable_matches io content expected content.length size blk (hr blk)).trans
    (matches_iff content expected size hs blk)
  rw [Finset.mem_filter, Finset.mem_range, Finset.mem_image, BlockFails,
    ← Bool.not_eq_true, hmatch]
  constructor
  · rintro ⟨-, hne⟩
    push Not at hne
    exact hne
  · rintro ⟨i, hi, rfl⟩
    refine ⟨?_, fun h => h i hi rfl⟩
    have hlt := ((mem_mismatches content expected i).mp hi).1
    exact (Nat.div_lt_iff_lt_mul hs).mpr
      (Nat.lt_of_lt_of_le hlt (blockCount_le size content.length hs))

end Blocks

section File
variable (fs : FileSystem) (path : Text) (pattern : ErasePattern) (content : Bytes)

/-- Without failures the streaming verifier counts every byte that differs. -/
theorem fileVerify_counts (io : FileReadIo) (hp : pattern ≠ .random)
    (hs : fs.lstat path = some (.regular content)) (ho : io.opened = true)
    (ha : io.allocated = true) (hr : ∀ k, io.reads k ≠ .failed) :
    let run := fileVerifyPattern fs io path pattern
    run.1 = .ok ∧ run.2.bytesChecked = content.length ∧
      run.2.bytesMismatched = (mismatches content (expectedByte pattern)).card ∧
      run.2.passed = decide (run.2.bytesMismatched = 0) := by
  obtain ⟨stop, _, _, hout, hend, _⟩ := fileVerifyLoop_spec io content
    (expectedByte pattern) (content.length+1) 0 0 0 0 rfl (Nat.zero_le _) (by omega)
  obtain rfl : stop = content.length := hend.resolve_right fun ⟨j, hj, _⟩ => hr j hj
  simp only [fileVerifyPattern, if_neg hp, hs, ho, ha, Bool.not_true, Bool.false_eq_true,
    if_false, hout, mismatches_card]
  exact ⟨trivial, by omega, by omega, trivial⟩

/-- Without failures the verifier of blocks counts every block that differs. -/
theorem verifyImage_counts (io : ReadIo) (blockSize : ℕ) (hp : pattern ≠ .random)
    (hs : fs.stat path = some (.regular content)) (hne : content ≠ [])
    (hr : ReadsWell io content.length (clampBlockSize blockSize)) :
    let run := verifyImagePattern fs io path pattern blockSize .full
    run.1 = .ok ∧ run.2.blocksFailed = ((mismatches content (expectedByte pattern)).image
        fun i => i / clampBlockSize blockSize).card ∧
      run.2.verificationPassed = decide (run.2.blocksFailed = 0) := by
  obtain ⟨hcode, _, _, hfailed, hpassed, _⟩ :=
    verifyImage_ran fs io path pattern blockSize .full content hp hs hne hr.1 hr.2.1
  have hread := fun b => readsWell_readable io content (clampBlockSize blockSize) b hr
  obtain ⟨hok, hcount⟩ := verifyBlocks_failures content (expectedByte pattern)
    (clampBlockSize blockSize) io (blockCount content.length (clampBlockSize blockSize))
    (blockCount content.length (clampBlockSize blockSize)) 0 0 0 hread (Nat.zero_le _) (by omega)
  rw [imageLoop, sampleStep_full] at hcode hfailed hpassed
  refine ⟨hcode.trans hok, ?_, by rw [hpassed, hfailed]⟩
  rw [hfailed, ← failed_blocks content (expectedByte pattern) (clampBlockSize blockSize) io
    (clampBlockSize_pos blockSize) hread]
  simpa using hcount

/-- The two verdicts agree, the streaming verifier has checked the whole file,
and the failed blocks are the blocks that hold a mismatched byte. -/
theorem verifiers_agree (io : FileReadIo) (vio : ReadIo) (blockSize : ℕ)
    (hp : pattern = .zero ∨ pattern = .one) (hl : fs.lstat path = some (.regular content))
    (hs : fs.stat path = some (.regular content)) (hne : content ≠ [])
    (ho : io.opened = true) (ha : io.allocated = true) (hr : ∀ k, io.reads k ≠ .failed)
    (hv : ReadsWell vio content.length (clampBlockSize blockSize)) :
    let file := fileVerifyPattern fs io path pattern
    let image := verifyImagePattern fs vio path pattern blockSize .full
    file.1 = .ok ∧ image.1 = .ok ∧
      (file.2.passed = true ↔ image.2.verificationPassed = true) ∧
      (file.2.bytesMismatched ≠ 0 ↔ image.2.blocksFailed ≠ 0) ∧
      file.2.bytesChecked = content.length ∧
      file.2.bytesMismatched = (mismatches content (expectedByte pattern)).card ∧
      image.2.blocksFailed = ((mismatches content (expectedByte pattern)).image
        fun i => i / clampBlockSize blockSize).card := by
  have hrandom : pattern ≠ .random := by
    rcases hp with rfl | rfl <;> decide
  obtain ⟨hcode, hchecked, hbytes, hpassed⟩ :=
    fileVerify_counts fs path pattern content io hrandom hl ho ha hr
  obtain ⟨hok, hfailed, hverdict⟩ :=
    verifyImage_counts fs path pattern content vio blockSize hrandom hs hne hv
  have hzero : (fileVerifyPattern fs io path pattern).2.bytesMismatched = 0 ↔
      (verifyImagePattern fs vio path pattern blockSize .full).2.blocksFailed = 0 := by
    rw [hbytes, hfailed, Finset.card_eq_zero, Finset.card_eq_zero, Finset.image_eq_empty]
  refine ⟨hcode, hok, ?_, not_congr hzero, hchecked, hbytes, hfailed⟩
  rw [hpassed, hverdict, decide_eq_true_eq, decide_eq_true_eq, hzero]

end File

theorem sole_found (path : Text) (o : Object) :
    (soleObject path o).lstat path = some o ∧ (soleObject path o).stat path = some o := by
  simp [FileSystem.lstat, FileSystem.stat, soleObject]

def spotted : Bytes := [0x41, 0, 0x41]

theorem verifiers_agree_spotted :
    let fs := soleObject "disk.img".toList (.regular spotted)
    (fileVerifyPattern fs FileReadIo.calm "disk.img".toList .zero).2.bytesMismatched = 2 ∧
      (verifyImagePattern fs ReadIo.calm "disk.img".toList .zero 512 .full).2.blocksFailed = 1 := by
  have h := verifiers_agree (soleObject "disk.img".toList (.regular spotted)) "disk.img".toList
    .zero spotted FileReadIo.calm ReadIo.calm 512 (Or.inl rfl) (sole_found _ _).1
    (sole_found _ _).2 (by decide) rfl rfl (fun _ => by nofun) (calm_readsWell _ 512)
  obtain ⟨_, _, _, _, _, hbytes, hblocks⟩ := h
  exact ⟨hbytes.trans (by decide), hblocks.trans (by decide)⟩

end EraseCure.VerifierAgreement
