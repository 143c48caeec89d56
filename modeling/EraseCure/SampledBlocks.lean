import EraseCure.VerifierAgreement
import Mathlib.Data.List.Perm.Subperm

/-!
# The blocks of a sample

A sample checks every block at a multiple of its step. The step is the number
of blocks divided by sixteen, so that the blocks checked are at least sixteen
and at most thirty-one, and a sample fails no more of them than a full run.
-/

set_option autoImplicit false

namespace EraseCure.SampledBlocks
open EraseCure.CText EraseCure.Devices EraseCure.ErrorCodes EraseCure.FileSystems
open EraseCure.ByteRanges EraseCure.ErasePasses EraseCure.Verification
open EraseCure.EraseRoundTrip EraseCure.VerifierAgreement

section Trace
variable (io : ReadIo) (content : Bytes) (expected : UInt8) (fileSize blockSize total step : ℕ)

def blocksRead : ℕ → ℕ → List ℕ
  | 0, _ => []
  | fuel+1, blk =>
    if blk < total then
      if io.seeked blk then
        if (readBlock io content fileSize blockSize blk).length ≠
            blockLength fileSize blockSize blk then []
        else blk::blocksRead fuel (blk+step)
      else []
    else []

def readDiffers (blk : ℕ) : Bool :=
  !(readBlock io content fileSize blockSize blk).all (fun x => x = expected)

theorem verifyBlocks_reads (fuel blk checked failed : ℕ) :
    let out := verifyBlocks io content expected fileSize blockSize total step fuel blk checked
      failed
    let blocks := blocksRead io content fileSize blockSize total step fuel blk
    out.2.1 = checked+blocks.length ∧
      out.2.2 = failed+blocks.countP (readDiffers io content expected fileSize blockSize) := by
  induction fuel generalizing blk checked failed with
  | zero => exact ⟨rfl, rfl⟩
  | succ fuel ih =>
    dsimp only
    rw [verifyBlocks, blocksRead]
    by_cases hlt : blk < total
    · rw [if_pos hlt, if_pos hlt]
      by_cases hseek : io.seeked blk = true
      · rw [if_pos hseek, if_pos hseek]
        dsimp only
        by_cases hlen : (readBlock io content fileSize blockSize blk).length ≠
            blockLength fileSize blockSize blk
        · rw [if_pos hlen, if_pos hlen]
          exact ⟨rfl, rfl⟩
        · rw [if_neg hlen, if_neg hlen, List.length_cons, List.countP_cons]
          obtain ⟨hchecked, hfailed⟩ := ih (blk+step) (checked+1)
            (if (readBlock io content fileSize blockSize blk).all (fun x => x = expected) then
              failed else failed+1)
          rw [hchecked, hfailed, readDiffers]
          refine ⟨by omega, ?_⟩
          cases (readBlock io content fileSize blockSize blk).all (fun x => x = expected) with
          | false =>
            rw [if_neg (by decide), if_pos (by decide)]
            omega
          | true =>
            rw [if_pos rfl, if_neg (by decide)]
            rfl
      · rw [if_neg hseek, if_neg hseek]
        exact ⟨rfl, rfl⟩
    · rw [if_neg hlt, if_neg hlt]
      exact ⟨rfl, rfl⟩

variable (hr : ∀ b, Readable io content fileSize blockSize b)
include hr

theorem blocksRead_succ (fuel blk : ℕ) (h : blk < total) :
    blocksRead io content fileSize blockSize total step (fuel+1) blk =
      blk::blocksRead io content fileSize blockSize total step fuel (blk+step) := by
  rw [blocksRead, if_pos h, if_pos (hr blk).1, if_neg (not_not_intro (hr blk).2)]

variable (hstep : 0 < step)
include hstep

theorem mem_blocksRead (fuel blk b : ℕ) (hd : step ∣ blk) (hf : total ≤ blk+fuel) :
    b ∈ blocksRead io content fileSize blockSize total step fuel blk ↔
      blk ≤ b ∧ ToCheck total step b := by
  induction fuel generalizing blk with
  | zero =>
    refine iff_of_false List.not_mem_nil fun ⟨hle, hlt, _⟩ => ?_
    omega
  | succ fuel ih =>
    by_cases hlt : blk < total
    · rw [blocksRead_succ io content fileSize blockSize total step hr fuel blk hlt, List.mem_cons,
        ih (blk+step) (Nat.dvd_add hd (Nat.dvd_refl _)) (by omega)]
      constructor
      · rintro (rfl | ⟨hle, hcheck⟩)
        · exact ⟨le_rfl, hlt, hd⟩
        · exact ⟨by omega, hcheck⟩
      · rintro ⟨hle, hcheck⟩
        rcases Nat.eq_or_lt_of_le hle with rfl | hle
        · exact Or.inl rfl
        · exact Or.inr ⟨next_multiple step blk b hd hcheck.2 hle, hcheck⟩
    · rw [blocksRead, if_neg hlt]
      refine iff_of_false List.not_mem_nil fun ⟨hle, hlt', _⟩ => ?_
      omega

theorem blocksRead_increasing (fuel blk : ℕ) (hd : step ∣ blk) (hf : total ≤ blk+fuel) :
    (blocksRead io content fileSize blockSize total step fuel blk).Pairwise (· < ·) := by
  induction fuel generalizing blk with
  | zero => exact List.Pairwise.nil
  | succ fuel ih =>
    by_cases hlt : blk < total
    · rw [blocksRead_succ io content fileSize blockSize total step hr fuel blk hlt,
        List.pairwise_cons]
      have hd' := Nat.dvd_add hd (Nat.dvd_refl step)
      refine ⟨fun b hb => ?_, ih (blk+step) hd' (by omega)⟩
      have := ((mem_blocksRead io content fileSize blockSize total step hr hstep fuel (blk+step) b
        hd' (by omega)).mp hb).1
      omega
    · rw [blocksRead, if_neg hlt]
      exact List.Pairwise.nil

theorem blocksRead_length (fuel blk : ℕ) (hf : total ≤ blk+fuel) :
    (blocksRead io content fileSize blockSize total step fuel blk).length =
      blockCount (total-blk) step := by
  induction fuel generalizing blk with
  | zero =>
    rw [Nat.add_zero] at hf
    rw [Nat.sub_eq_zero_of_le hf, blockCount_zero]
    rfl
  | succ fuel ih =>
    by_cases hlt : blk < total
    · have hrest : total-blk-min (total-blk) step = total-(blk+step) := by omega
      rw [blocksRead_succ io content fileSize blockSize total step hr fuel blk hlt,
        List.length_cons, ih (blk+step) (by omega),
        blockCount_rest (total-blk) step (by omega) hstep, hrest]
    · rw [blocksRead, if_neg hlt, Nat.sub_eq_zero_of_le (Nat.le_of_not_lt hlt), blockCount_zero]
      rfl

end Trace

section Counts

theorem le_blockCount (length size n : ℕ) (hs : 0 < size) (h : n*size ≤ length) :
    n ≤ blockCount length size := by
  have hdiv := (Nat.le_div_iff_mul_le hs).mpr h
  rw [blockCount]
  split <;> omega

theorem blockCount_at_most (length size n : ℕ) (hs : 0 < size) (h : length ≤ n*size) :
    blockCount length size ≤ n := by
  rw [blockCount]
  split
  · rename_i hrest
    refine (Nat.div_lt_iff_lt_mul hs).mpr (lt_of_le_of_ne h fun heq => hrest ?_)
    rw [heq, Nat.mul_mod_left]
  · exact Nat.div_le_of_le_mul (by rwa [Nat.mul_comm])

/-- Dividing by the step of a sample leaves sixteen blocks up to thirty-one. -/
theorem sample_count (total : ℕ) (h : verifySampleBlocks < total) :
    16 ≤ blockCount total (sampleStep .sample total) ∧
      blockCount total (sampleStep .sample total) ≤ 31 := by
  have hstep : sampleStep .sample total = total/16 := if_pos ⟨rfl, h⟩
  have hdiv := Nat.div_add_mod total 16
  have hpos : 0 < total/16 := by
    rw [verifySampleBlocks] at h
    omega
  rw [hstep]
  exact ⟨le_blockCount total _ 16 hpos (by omega), blockCount_at_most total _ 31 hpos (by omega)⟩

end Counts

section Verdicts
variable (content : Bytes) (expected : UInt8) (size : ℕ)

/-- A block holds a byte that differs. -/
def Mismatched (blk : ℕ) : Prop := ∃ i ∈ mismatches content expected, i / size = blk

instance : DecidablePred (Mismatched content expected size) :=
  fun blk => inferInstanceAs (Decidable (∃ i ∈ mismatches content expected, i / size = blk))

theorem readDiffers_iff (io : ReadIo) (hs : 0 < size) (blk : ℕ)
    (hr : Readable io content content.length size blk) :
    readDiffers io content expected content.length size blk = true ↔
      Mismatched content expected size blk := by
  have hmatch := (readable_matches io content expected content.length size blk hr).trans
    (matches_iff content expected size hs blk)
  rw [readDiffers, Bool.not_eq_true', ← Bool.not_eq_true, hmatch, Mismatched]
  push Not
  rfl

end Verdicts

section File
variable (fs : FileSystem) (path : Text) (pattern : ErasePattern) (content : Bytes)
  (blockSize : ℕ)

def blocksChecked (io : ReadIo) (mode : VerifyMode) : List ℕ :=
  let total := blockCount content.length (clampBlockSize blockSize)
  blocksRead io content content.length (clampBlockSize blockSize) total (sampleStep mode total)
    total 0

structure CheckedRun (checked : List ℕ) (run : ErasecureError × VerificationResult) : Prop where
  ends : run.1 = .ok
  blocksTotal : run.2.blocksTotal = blockCount content.length (clampBlockSize blockSize)
  blocksChecked : run.2.blocksChecked = checked.length
  blocksFailed : run.2.blocksFailed = checked.countP
    (fun b => Mismatched content (expectedByte pattern) (clampBlockSize blockSize) b)
  verdict : run.2.verificationPassed = decide (run.2.blocksFailed = 0)

theorem verifyImage_checked (io : ReadIo) (mode : VerifyMode) (hp : pattern ≠ .random)
    (hs : fs.stat path = some (.regular content)) (hne : content ≠ [])
    (hr : ReadsWell io content.length (clampBlockSize blockSize)) :
    CheckedRun pattern content blockSize (blocksChecked content blockSize io mode)
      (verifyImagePattern fs io path pattern blockSize mode) := by
  obtain ⟨hcode, htotal, hchecked, hfailed, hpassed, _⟩ :=
    verifyImage_ran fs io path pattern blockSize mode content hp hs hne hr.1 hr.2.1
  have hread := fun b => readsWell_readable io content (clampBlockSize blockSize) b hr
  obtain ⟨hcount, hfail⟩ := verifyBlocks_reads io content (expectedByte pattern) content.length
    (clampBlockSize blockSize) (blockCount content.length (clampBlockSize blockSize))
    (sampleStep mode (blockCount content.length (clampBlockSize blockSize)))
    (blockCount content.length (clampBlockSize blockSize)) 0 0 0
  have hok := (verifyBlocks_spec io content (expectedByte pattern) content.length
    (clampBlockSize blockSize) (blockCount content.length (clampBlockSize blockSize))
    (sampleStep mode (blockCount content.length (clampBlockSize blockSize)))
    (sampleStep_pos _ _) (blockCount content.length (clampBlockSize blockSize)) 0 0 0
    (Nat.dvd_zero _) (by omega)).1
  refine ⟨hcode.trans (hok.mpr fun b _ _ => hread b), htotal, ?_, ?_, by rw [hpassed, hfailed]⟩
  · rw [hchecked]
    exact hcount.trans (Nat.zero_add _)
  · rw [hfailed]
    refine (hfail.trans (Nat.zero_add _)).trans (List.countP_congr fun b _ => ?_)
    rw [readDiffers_iff content (expectedByte pattern) _ io (clampBlockSize_pos _) b (hread b),
      decide_eq_true_eq]

/-- The blocks that a sample checks, and what it makes of them against a full run. -/
structure SampleConsistent (checked : List ℕ) (sample full : VerificationResult) : Prop where
  distinct : checked.Nodup
  inRange : ∀ b ∈ checked, b < blockCount content.length (clampBlockSize blockSize)
  first : 0 ∈ checked
  few : blockCount content.length (clampBlockSize blockSize) ≤ 16 →
    ∀ b < blockCount content.length (clampBlockSize blockSize), b ∈ checked
  many : 16 < blockCount content.length (clampBlockSize blockSize) →
    16 ≤ checked.length ∧ checked.length ≤ 31
  blocksChecked : sample.blocksChecked = checked.length
  blocksFailed : sample.blocksFailed = checked.countP
    (fun b => Mismatched content (expectedByte pattern) (clampBlockSize blockSize) b)
  atMost : sample.blocksFailed ≤ full.blocksFailed
  passes : full.verificationPassed = true → sample.verificationPassed = true
  blocksTotal : sample.blocksTotal = full.blocksTotal

section Modes
variable (io : ReadIo) (hr : ReadsWell io content.length (clampBlockSize blockSize))
include hr

theorem mem_blocksChecked (mode : VerifyMode) (b : ℕ) :
    b ∈ blocksChecked content blockSize io mode ↔
      ToCheck (blockCount content.length (clampBlockSize blockSize))
        (sampleStep mode (blockCount content.length (clampBlockSize blockSize))) b := by
  rw [blocksChecked, mem_blocksRead io content content.length _ _ _
    (fun b => readsWell_readable io content _ b hr) (sampleStep_pos _ _) _ 0 b (Nat.dvd_zero _)
    (by omega)]
  exact and_iff_right (Nat.zero_le b)

theorem blocksChecked_distinct (mode : VerifyMode) :
    (blocksChecked content blockSize io mode).Nodup :=
  (blocksRead_increasing io content content.length _ _ _
    (fun b => readsWell_readable io content _ b hr) (sampleStep_pos _ _) _ 0 (Nat.dvd_zero _)
    (by omega)).imp Nat.ne_of_lt

theorem blocksChecked_length (mode : VerifyMode) :
    (blocksChecked content blockSize io mode).length =
      blockCount (blockCount content.length (clampBlockSize blockSize))
        (sampleStep mode (blockCount content.length (clampBlockSize blockSize))) :=
  blocksRead_length io content content.length _ _ _
    (fun b => readsWell_readable io content _ b hr) (sampleStep_pos _ _) _ 0 (by omega)

theorem full_checks (b : ℕ) (h : b < blockCount content.length (clampBlockSize blockSize)) :
    b ∈ blocksChecked content blockSize io .full := by
  rw [mem_blocksChecked content blockSize io hr, sampleStep_full]
  exact ⟨h, Nat.one_dvd b⟩

end Modes

/-- Without failures a sample of a file that is not empty is consistent with a full
run over it. -/
theorem sample_consistent (sampleIo fullIo : ReadIo) (hp : pattern = .zero ∨ pattern = .one)
    (hs : fs.stat path = some (.regular content)) (hne : content ≠ [])
    (hsample : ReadsWell sampleIo content.length (clampBlockSize blockSize))
    (hfull : ReadsWell fullIo content.length (clampBlockSize blockSize)) :
    let sample := verifyImagePattern fs sampleIo path pattern blockSize .sample
    let full := verifyImagePattern fs fullIo path pattern blockSize .full
    sample.1 = .ok ∧ full.1 = .ok ∧ SampleConsistent pattern content blockSize
      (blocksChecked content blockSize sampleIo .sample) sample.2 full.2 := by
  have hrandom : pattern ≠ .random := by
    rcases hp with rfl | rfl <;> decide
  have hsampled := verifyImage_checked fs path pattern content blockSize sampleIo .sample hrandom
    hs hne hsample
  have hran := verifyImage_checked fs path pattern content blockSize fullIo .full hrandom hs hne
    hfull
  have hmem := mem_blocksChecked content blockSize sampleIo hsample .sample
  have hdistinct := blocksChecked_distinct content blockSize sampleIo hsample .sample
  have hatMost : (verifyImagePattern fs sampleIo path pattern blockSize .sample).2.blocksFailed ≤
      (verifyImagePattern fs fullIo path pattern blockSize .full).2.blocksFailed := by
    have hsub : blocksChecked content blockSize sampleIo .sample ⊆
        blocksChecked content blockSize fullIo .full := fun b hb =>
      full_checks content blockSize fullIo hfull b ((hmem b).mp hb).1
    rw [hsampled.blocksFailed, hran.blocksFailed]
    exact (List.subperm_of_subset hdistinct hsub).countP_le _
  have hpos : 0 < blockCount content.length (clampBlockSize blockSize) :=
    Nat.pos_of_ne_zero fun hzero => by
      have hle := blockCount_le (clampBlockSize blockSize) content.length (clampBlockSize_pos _)
      rw [hzero, Nat.zero_mul] at hle
      exact hne (List.length_eq_zero_iff.mp (Nat.le_zero.mp hle))
  refine ⟨hsampled.ends, hran.ends, hdistinct, fun b hb => ((hmem b).mp hb).1,
    (hmem 0).mpr ⟨hpos, Nat.dvd_zero _⟩, fun hfew b hb => (hmem b).mpr ⟨hb, ?_⟩, fun hmany => ?_,
    hsampled.blocksChecked, hsampled.blocksFailed, hatMost, fun hpassed => ?_,
    hsampled.blocksTotal.trans hran.blocksTotal.symm⟩
  · rw [sampleStep, if_neg (by rw [verifySampleBlocks]; omega)]
    exact Nat.one_dvd b
  · rw [blocksChecked_length content blockSize sampleIo hsample]
    exact sample_count _ hmany
  · rw [hran.verdict, decide_eq_true_eq] at hpassed
    rw [hsampled.verdict, decide_eq_true_eq]
    omega

end File

/-- 32 blocks, of which a sample checks every other one. The third is not clean, and
neither is the fourth. -/
def oddBlocks : Bytes := List.replicate 1024 0++0x41::List.replicate 511 0++0x42::
  List.replicate 14847 0

theorem sample_consistent_spotted :
    let fs := soleObject "disk.img".toList (.regular oddBlocks)
    blockCount oddBlocks.length 512 = 32 ∧ oddBlocks[2*512]? = some 0x41 ∧
      oddBlocks[3*512]? = some 0x42 ∧
      SampleConsistent .zero oddBlocks 512 (blocksChecked oddBlocks 512 ReadIo.calm .sample)
        (verifyImagePattern fs ReadIo.calm "disk.img".toList .zero 512 .sample).2
        (verifyImagePattern fs ReadIo.calm "disk.img".toList .zero 512 .full).2 :=
  ⟨by decide +kernel, by decide +kernel, by decide +kernel,
    (sample_consistent (soleObject "disk.img".toList (.regular oddBlocks)) "disk.img".toList .zero
      oddBlocks 512 ReadIo.calm ReadIo.calm (Or.inl rfl) (sole_found _ _).2 (by decide)
      (calm_readsWell _ 512) (calm_readsWell _ 512)).2.2⟩

end EraseCure.SampledBlocks
