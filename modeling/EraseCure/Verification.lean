import EraseCure.ErasePasses

/-!
# Reading an image back

The verifier seeks and reads every block, or every block at a multiple of the
sample step, and counts the blocks that differ. A seek or read that fails ends
the loop with what was counted so far.
-/

set_option autoImplicit false

namespace EraseCure.Verification
open EraseCure.CText EraseCure.Devices EraseCure.ErrorCodes EraseCure.FileSystems
open EraseCure.ByteRanges EraseCure.ErasePasses

inductive VerificationScope where
  | notApplicable | logicalBlocks | sampled
  deriving DecidableEq

def verificationScopeStr : VerificationScope → Text
  | .notApplicable => "Not applicable".toList
  | .logicalBlocks => "Logical block readback (full)".toList
  | .sampled => "Logical block readback (sampled)".toList

structure VerificationResult where
  scope : VerificationScope
  blocksTotal : ℕ
  blocksChecked : ℕ
  blocksFailed : ℕ
  verificationPassed : Bool
  resultCode : ErasecureError
  confidenceNote : CString 256
  errorMessage : CString 128
  deriving DecidableEq

def verificationBlank : VerificationResult where
  scope := .notApplicable
  blocksTotal := 0
  blocksChecked := 0
  blocksFailed := 0
  verificationPassed := false
  resultCode := .ok
  confidenceNote := printed256 []
  errorMessage := printed128 []

/-- What the calls of one run return: the buffer, the opening of the file, the
seek to a block, and the number of its bytes that can be read. -/
structure ReadIo where
  allocated : Bool
  opened : Bool
  seeked : ℕ → Bool
  delivered : ℕ → ℕ

def ReadIo.calm : ReadIo where
  allocated := true
  opened := true
  seeked := fun _ => true
  delivered := fun _ => maxBlockSize

def verifySampleBlocks : ℕ := 16

def sampleStep (mode : VerifyMode) (totalBlocks : ℕ) : ℕ :=
  if mode = .sample ∧ verifySampleBlocks < totalBlocks then totalBlocks / verifySampleBlocks
  else 1

theorem sampleStep_pos (mode : VerifyMode) (totalBlocks : ℕ) :
    0 < sampleStep mode totalBlocks := by
  rw [sampleStep]
  split
  · rename_i h
    exact Nat.div_pos (Nat.le_of_lt h.2) (by decide)
  · decide

theorem sampleStep_full (totalBlocks : ℕ) : sampleStep .full totalBlocks = 1 := by
  simp [sampleStep]

def blockLength (fileSize blockSize blk : ℕ) : ℕ :=
  if fileSize-blk*blockSize < blockSize then fileSize-blk*blockSize else blockSize

def readBlock (io : ReadIo) (content : Bytes) (fileSize blockSize blk : ℕ) : Bytes :=
  ((content.drop (blk*blockSize)).take (blockLength fileSize blockSize blk)).take
    (io.delivered blk)

section Loop
variable (io : ReadIo) (content : Bytes) (expected : UInt8) (fileSize blockSize totalBlocks : ℕ)

/-- The loop over the blocks: the code it ends with and the blocks checked and
failed. The step is positive, so the number of blocks bounds the rounds. -/
def verifyBlocks (step : ℕ) : ℕ → ℕ → ℕ → ℕ → ErasecureError × ℕ × ℕ
  | 0, _, checked, failed => (.ok, checked, failed)
  | fuel+1, blk, checked, failed =>
    if blk < totalBlocks then
      if io.seeked blk then
        let buf := readBlock io content fileSize blockSize blk
        if buf.length ≠ blockLength fileSize blockSize blk then (.readFailed, checked, failed)
        else verifyBlocks step fuel (blk+step) (checked+1)
          (if buf.all (fun x => x = expected) then failed else failed+1)
      else (.seekFailed, checked, failed)
    else (.ok, checked, failed)

end Loop

def verifyConstantPattern (fs : FileSystem) (io : ReadIo) (imagePath : Text)
    (expected : UInt8) (blockSize : ℕ) (mode : VerifyMode) (result : VerificationResult) :
    ErasecureError × VerificationResult :=
  match fs.stat imagePath with
  | none => (.statFailed, result)
  | some file =>
    let fileSize := file.statSize
    if fileSize = 0 then (.invalidArg, result)
    else
      let totalBlocks := blockCount fileSize blockSize
      let result := { result with
        blocksTotal := totalBlocks, blocksChecked := 0, blocksFailed := 0 }
      if !io.allocated then (.alloc, result)
      else if !io.opened then (.openFailed, result)
      else
        let (ret, checked, failed) := verifyBlocks io file.content expected fileSize blockSize
          totalBlocks (sampleStep mode totalBlocks) totalBlocks 0 0 0
        (ret, { result with
          blocksChecked := checked
          blocksFailed := failed
          verificationPassed := failed = 0
          resultCode := ret
          scope := if mode = .sample then .sampled else .logicalBlocks })

def verifyImagePattern (fs : FileSystem) (io : ReadIo) (imagePath : Text)
    (pattern : ErasePattern) (blockSize : ℕ) (mode : VerifyMode) :
    ErasecureError × VerificationResult :=
  let result := { verificationBlank with resultCode := .generic }
  if pattern = .random then
    (.unsupported, { result with
      scope := .notApplicable
      verificationPassed := false
      confidenceNote := printed256 ("Random pattern verification is not ".toList++
        "possible: the written values are not deterministic.".toList)
      errorMessage := printed128 "Cannot verify random pattern.".toList
      resultCode := .unsupported })
  else
    let expected : UInt8 := if pattern = .zero then 0x00 else 0xFF
    let (ret, result) := verifyConstantPattern fs io imagePath expected
      (clampBlockSize blockSize) mode result
    (ret, { result with
      confidenceNote := printed256 ("Verification scope: ".toList++
        verificationScopeStr result.scope++". Logical block readback confirms ".toList++
        "host-visible content only. Physical NAND erasure on SSD/flash devices ".toList++
        "cannot be confirmed by this method.".toList) })

/-- The blocks that a run is to check. -/
def ToCheck (totalBlocks step blk : ℕ) : Prop := blk < totalBlocks ∧ step ∣ blk

def Readable (io : ReadIo) (content : Bytes) (fileSize blockSize blk : ℕ) : Prop :=
  io.seeked blk = true ∧
    (readBlock io content fileSize blockSize blk).length = blockLength fileSize blockSize blk

def Matches (content : Bytes) (expected : UInt8) (fileSize blockSize blk : ℕ) : Prop :=
  ∀ i, blk*blockSize ≤ i → i < blk*blockSize+blockLength fileSize blockSize blk →
    content[i]? = some expected

theorem readable_matches (io : ReadIo) (content : Bytes) (expected : UInt8)
    (fileSize blockSize blk : ℕ) (h : Readable io content fileSize blockSize blk) :
    (readBlock io content fileSize blockSize blk).all (fun x => x = expected) = true ↔
      Matches content expected fileSize blockSize blk := by
  obtain ⟨-, hlen⟩ := h
  have hget : ∀ j < blockLength fileSize blockSize blk,
      (readBlock io content fileSize blockSize blk)[j]? = content[blk*blockSize+j]? := by
    intro j hj
    have hdel : j < io.delivered blk := by
      have := hlen ▸ hj
      rw [readBlock, List.length_take] at this
      omega
    rw [readBlock, List.getElem?_take_of_lt hdel, List.getElem?_take_of_lt hj,
      List.getElem?_drop]
  rw [List.all_eq_true]
  constructor
  · intro hall i h1 h2
    have hj : i-blk*blockSize < blockLength fileSize blockSize blk := by omega
    have hlt : i-blk*blockSize < (readBlock io content fileSize blockSize blk).length := by omega
    have hi := hget _ hj
    rw [show blk*blockSize+(i-blk*blockSize) = i by omega] at hi
    rw [← hi, List.getElem?_eq_getElem hlt]
    simpa using hall _ (List.getElem_mem hlt)
  · intro hm x hx
    obtain ⟨j, hj, rfl⟩ := List.mem_iff_getElem.mp hx
    have hm' := hm (blk*blockSize+j) (by omega) (by omega)
    rw [← hget j (by omega), List.getElem?_eq_getElem hj] at hm'
    simpa using hm'

theorem next_multiple (step a b : ℕ) (ha : step ∣ a) (hb : step ∣ b) (h : a < b) :
    a+step ≤ b := by
  have := Nat.le_of_dvd (by omega) (Nat.dvd_sub hb ha)
  omega

section Spec
variable (io : ReadIo) (content : Bytes) (expected : UInt8)
  (fileSize blockSize totalBlocks step : ℕ)

/-- No failure was counted: every block that the loop reached and read matches. -/
def Clean (blk : ℕ) : Prop :=
  ∀ b, blk ≤ b → ToCheck totalBlocks step b →
    (∀ a, blk ≤ a → a ≤ b → ToCheck totalBlocks step a → Readable io content fileSize blockSize a) →
    Matches content expected fileSize blockSize b

theorem clean_unreadable (blk : ℕ) (hv : ToCheck totalBlocks step blk)
    (hr : ¬ Readable io content fileSize blockSize blk) :
    Clean io content expected fileSize blockSize totalBlocks step blk :=
  fun _ hb _ hall => absurd (hall blk (Nat.le_refl _) hb hv) hr

theorem clean_step (blk : ℕ) (hs : 0 < step) (hv : ToCheck totalBlocks step blk)
    (hr : Readable io content fileSize blockSize blk) :
    Clean io content expected fileSize blockSize totalBlocks step blk ↔
      Matches content expected fileSize blockSize blk ∧
        Clean io content expected fileSize blockSize totalBlocks step (blk+step) := by
  constructor
  · intro h
    refine ⟨h blk (Nat.le_refl _) hv fun a h1 h2 _ => ?_, fun b hb hvb hall => ?_⟩
    · rwa [Nat.le_antisymm h2 h1]
    · apply h b (by omega) hvb
      intro a h1 h2 hva
      rcases Nat.eq_or_lt_of_le h1 with rfl | hlt
      · exact hr
      · exact hall a (next_multiple step blk a hv.2 hva.2 hlt) h2 hva
  · rintro ⟨hm, h⟩ b hb hvb hall
    rcases Nat.eq_or_lt_of_le hb with rfl | hlt
    · exact hm
    · have hle := next_multiple step blk b hv.2 hvb.2 hlt
      exact h b hle hvb fun a h1 h2 hva => hall a (by omega) h2 hva

/-- What a loop has to say that reaches a block with a number of failures. -/
def LoopSpec (blk failed : ℕ) (out : ErasecureError × ℕ × ℕ) : Prop :=
  (out.1 = .ok ↔ ∀ b, blk ≤ b → ToCheck totalBlocks step b →
    Readable io content fileSize blockSize b) ∧
  (out.2.2 = 0 ↔ failed = 0 ∧ Clean io content expected fileSize blockSize totalBlocks step blk)

theorem loop_end (blk checked failed : ℕ) (h : totalBlocks ≤ blk) :
    LoopSpec io content expected fileSize blockSize totalBlocks step blk failed
      (.ok, checked, failed) := by
  have hno : ∀ b, blk ≤ b → ¬ ToCheck totalBlocks step b := fun b hb hv => by
    have := hv.1
    omega
  refine ⟨⟨fun _ b hb hv => absurd hv (hno b hb), fun _ => rfl⟩, ?_⟩
  exact ⟨fun hz => ⟨hz, fun b hb hv => absurd hv (hno b hb)⟩, fun hz => hz.1⟩

theorem loop_stopped (blk checked failed : ℕ) (e : ErasecureError) (he : e ≠ .ok)
    (hv : ToCheck totalBlocks step blk) (hr : ¬ Readable io content fileSize blockSize blk) :
    LoopSpec io content expected fileSize blockSize totalBlocks step blk failed
      (e, checked, failed) := by
  have hclean := clean_unreadable io content expected fileSize blockSize totalBlocks step blk hv hr
  exact ⟨⟨fun h => absurd h he, fun h => absurd (h blk (Nat.le_refl _) hv) hr⟩,
    fun h => ⟨h, hclean⟩, fun h => h.1⟩

theorem loop_step (blk failed : ℕ) (out : ErasecureError × ℕ × ℕ) (hs : 0 < step)
    (hv : ToCheck totalBlocks step blk) (hr : Readable io content fileSize blockSize blk)
    (h : LoopSpec io content expected fileSize blockSize totalBlocks step (blk+step)
      (if (readBlock io content fileSize blockSize blk).all (fun x => x = expected) then failed
        else failed+1) out) :
    LoopSpec io content expected fileSize blockSize totalBlocks step blk failed out := by
  obtain ⟨hcode, hcount⟩ := h
  refine ⟨hcode.trans ⟨fun h b hb hvb => ?_, fun h b hb hvb => h b (by omega) hvb⟩, ?_⟩
  · rcases Nat.eq_or_lt_of_le hb with rfl | hb
    · exact hr
    · exact h b (next_multiple step blk b hv.2 hvb.2 hb) hvb
  · rw [hcount, clean_step io content expected fileSize blockSize totalBlocks step blk hs hv hr,
      ← readable_matches io content expected fileSize blockSize blk hr]
    by_cases hm : (readBlock io content fileSize blockSize blk).all (fun x => x = expected) = true
    · simp only [hm, if_true, true_and]
    · simp only [hm, Bool.false_eq_true, if_false, Nat.succ_ne_zero, false_and, and_false]

/-- What the loop counts from a block on. -/
theorem verifyBlocks_spec (hs : 0 < step) (fuel blk checked failed : ℕ) (hd : step ∣ blk)
    (hf : totalBlocks ≤ blk+fuel) :
    LoopSpec io content expected fileSize blockSize totalBlocks step blk failed
      (verifyBlocks io content expected fileSize blockSize totalBlocks step fuel blk
        checked failed) := by
  induction fuel generalizing blk checked failed with
  | zero => exact loop_end _ _ _ _ _ _ _ blk checked failed hf
  | succ fuel ih =>
    rw [verifyBlocks]
    by_cases hlt : blk < totalBlocks
    · have hv : ToCheck totalBlocks step blk := ⟨hlt, hd⟩
      rw [if_pos hlt]
      by_cases hread : Readable io content fileSize blockSize blk
      · rw [if_pos hread.1]
        dsimp only
        rw [if_neg (not_not_intro hread.2)]
        exact loop_step _ _ _ _ _ _ _ blk failed _ hs hv hread
          (ih (blk+step) _ _ (Nat.dvd_add hd (Nat.dvd_refl _)) (by omega))
      · by_cases hseek : io.seeked blk = true
        · rw [if_pos hseek]
          dsimp only
          rw [if_pos fun hlen => hread ⟨hseek, hlen⟩]
          exact loop_stopped _ _ _ _ _ _ _ blk checked failed _ (by nofun) hv hread
        · rw [if_neg hseek]
          exact loop_stopped _ _ _ _ _ _ _ blk checked failed _ (by nofun) hv hread
    · rw [if_neg hlt]
      exact loop_end _ _ _ _ _ _ _ blk checked failed (Nat.le_of_not_lt hlt)

end Spec

/-- A full run that ends well has checked every block. -/
theorem verifyBlocks_count (io : ReadIo) (content : Bytes) (expected : UInt8)
    (fileSize blockSize totalBlocks fuel blk checked failed : ℕ) (hf : totalBlocks ≤ blk+fuel)
    (h : (verifyBlocks io content expected fileSize blockSize totalBlocks 1 fuel blk checked
      failed).1 = .ok) :
    (verifyBlocks io content expected fileSize blockSize totalBlocks 1 fuel blk checked
      failed).2.1 = checked+(totalBlocks-blk) := by
  induction fuel generalizing blk checked failed with
  | zero =>
    rw [verifyBlocks]
    dsimp only
    omega
  | succ fuel ih =>
    rw [verifyBlocks] at h ⊢
    split
    · rename_i hlt
      rw [if_pos hlt] at h
      split
      · rename_i hseek
        rw [if_pos hseek] at h
        dsimp only at h ⊢
        split
        · rename_i hlen
          rw [if_pos hlen] at h
          exact absurd h (by nofun)
        · rename_i hlen
          rw [if_neg hlen] at h
          rw [ih (blk+1) _ _ (by omega) h]
          omega
      · rename_i hseek
        rw [if_neg hseek] at h
        exact absurd h (by nofun)
    · dsimp only
      omega

def expectedByte (pattern : ErasePattern) : UInt8 := if pattern = .zero then 0x00 else 0xFF

theorem expectedByte_pattern (pattern : ErasePattern) (b : UInt8)
    (h : b ∈ patternByte pattern) : expectedByte pattern = b := by
  cases pattern with
  | zero | one => exact Option.some.inj h
  | random | other => simp [patternByte] at h

def imageLoop (io : ReadIo) (content : Bytes) (pattern : ErasePattern) (blockSize : ℕ)
    (mode : VerifyMode) : ErasecureError × ℕ × ℕ :=
  verifyBlocks io content (expectedByte pattern) content.length (clampBlockSize blockSize)
    (blockCount content.length (clampBlockSize blockSize))
    (sampleStep mode (blockCount content.length (clampBlockSize blockSize)))
    (blockCount content.length (clampBlockSize blockSize)) 0 0 0

section Image
variable (fs : FileSystem) (io : ReadIo) (imagePath : Text) (pattern : ErasePattern)
  (blockSize : ℕ) (mode : VerifyMode) (content : Bytes)

theorem verifyImage_ran (hp : pattern ≠ .random)
    (hs : fs.stat imagePath = some (.regular content)) (hne : content ≠ [])
    (ha : io.allocated = true) (ho : io.opened = true) :
    let run := verifyImagePattern fs io imagePath pattern blockSize mode
    let out := imageLoop io content pattern blockSize mode
    run.1 = out.1 ∧ run.2.blocksTotal = blockCount content.length (clampBlockSize blockSize) ∧
      run.2.blocksChecked = out.2.1 ∧ run.2.blocksFailed = out.2.2 ∧
      run.2.verificationPassed = decide (out.2.2 = 0) ∧ run.2.resultCode = out.1 := by
  have hlen : content.length ≠ 0 := fun h => hne (List.length_eq_zero_iff.mp h)
  simp only [verifyImagePattern, if_neg hp, verifyConstantPattern, hs, Object.statSize,
    Object.content, if_neg hlen, ha, ho, Bool.not_true, Bool.false_eq_true, if_false]
  exact ⟨rfl, trivial, rfl, rfl, rfl, rfl⟩

/-- A run that cannot start on the file reports that it did not pass. -/
theorem verifyImage_stopped (hp : pattern ≠ .random)
    (hs : fs.stat imagePath = some (.regular content))
    (h : content = [] ∨ io.allocated = false ∨ io.opened = false) :
    (verifyImagePattern fs io imagePath pattern blockSize mode).2.verificationPassed = false := by
  by_cases hlen : content.length = 0
  · have hzero : (Object.regular content).statSize = 0 := hlen
    simp only [verifyImagePattern, if_neg hp, verifyConstantPattern, hs, if_pos hzero,
      verificationBlank]
  · have hio : io.allocated = false ∨ io.opened = false :=
      h.resolve_left fun h0 => hlen (List.length_eq_zero_iff.mpr h0)
    cases ha : io.allocated with
    | false =>
      simp only [verifyImagePattern, if_neg hp, verifyConstantPattern, hs, Object.statSize,
        if_neg hlen, ha, Bool.not_false, if_true, verificationBlank]
    | true =>
      have ho : io.opened = false := by simpa [ha] using hio
      simp only [verifyImagePattern, if_neg hp, verifyConstantPattern, hs, Object.statSize,
        if_neg hlen, ha, ho, Bool.not_true, Bool.not_false, Bool.false_eq_true, if_false, if_true,
        verificationBlank]

end Image

end EraseCure.Verification
