import EraseCure.FileVerify

/-!
# What a passed verification means

Both verifiers derive the verdict from a count of differences after a loop
that also ends at the first failed call. The verdict is right when nothing
fails, or when a difference was read before the failure.
-/

set_option autoImplicit false

namespace EraseCure.VerificationVerdicts
open EraseCure.CText EraseCure.Devices EraseCure.FileSystems
open EraseCure.ByteRanges EraseCure.ErasePasses EraseCure.Verification EraseCure.FileVerify

section Image
variable (io : ReadIo) (content : Bytes) (pattern : ErasePattern) (blockSize : ℕ)
  (mode : VerifyMode)

def ImageBlock (blk : ℕ) : Prop :=
  ToCheck (blockCount content.length (clampBlockSize blockSize))
    (sampleStep mode (blockCount content.length (clampBlockSize blockSize))) blk

def BlockRead (blk : ℕ) : Prop :=
  Readable io content content.length (clampBlockSize blockSize) blk

def BlockMatches (blk : ℕ) : Prop :=
  Matches content (expectedByte pattern) content.length (clampBlockSize blockSize) blk

/-- A verification that passed has read every block to be checked, and each
holds the pattern. -/
def ImageVerdictSound (fs : FileSystem) (imagePath : Text) : Prop :=
  (verifyImagePattern fs io imagePath pattern blockSize mode).2.verificationPassed = true →
    ∀ blk, ImageBlock content blockSize mode blk →
      BlockRead io content blockSize blk ∧ BlockMatches content pattern blockSize blk

theorem image_passed_iff (fs : FileSystem) (imagePath : Text) (hp : pattern ≠ .random)
    (hs : fs.stat imagePath = some (.regular content)) (hne : content ≠ [])
    (ha : io.allocated = true) (ho : io.opened = true) :
    (verifyImagePattern fs io imagePath pattern blockSize mode).2.verificationPassed = true ↔
      ∀ blk, ImageBlock content blockSize mode blk →
        (∀ a ≤ blk, ImageBlock content blockSize mode a → BlockRead io content blockSize a) →
        BlockMatches content pattern blockSize blk := by
  obtain ⟨_, _, _, _, hpassed, _⟩ :=
    verifyImage_ran fs io imagePath pattern blockSize mode content hp hs hne ha ho
  obtain ⟨_, hzero⟩ := verifyBlocks_spec io content (expectedByte pattern) content.length
    (clampBlockSize blockSize) (blockCount content.length (clampBlockSize blockSize))
    (sampleStep mode (blockCount content.length (clampBlockSize blockSize)))
    (sampleStep_pos _ _) (blockCount content.length (clampBlockSize blockSize)) 0 0 0
    (Nat.dvd_zero _) (by omega)
  rw [hpassed, decide_eq_true_eq]
  refine hzero.trans ⟨fun h blk hv hall => ?_, fun h => ⟨rfl, fun blk _ hv hall => ?_⟩⟩
  · exact h.2 blk (Nat.zero_le _) hv fun a _ hab hva => hall a hab hva
  · exact h blk hv fun a hab hva => hall a (Nat.zero_le _) hab hva

theorem image_sound_iff (fs : FileSystem) (imagePath : Text) (hp : pattern ≠ .random)
    (hs : fs.stat imagePath = some (.regular content)) :
    ImageVerdictSound io content pattern blockSize mode fs imagePath ↔
      io.allocated = false ∨ io.opened = false ∨
        (∀ blk, ImageBlock content blockSize mode blk → BlockRead io content blockSize blk) ∨
        ∃ blk, ImageBlock content blockSize mode blk ∧
          ¬ BlockMatches content pattern blockSize blk ∧
          ∀ a ≤ blk, ImageBlock content blockSize mode a → BlockRead io content blockSize a := by
  by_cases hrun : content = [] ∨ io.allocated = false ∨ io.opened = false
  · have hfail := verifyImage_stopped fs io imagePath pattern blockSize mode content hp hs hrun
    have hsound : ImageVerdictSound io content pattern blockSize mode fs imagePath :=
      fun h => absurd (hfail.symm.trans h) (by decide)
    apply iff_of_true hsound
    rcases hrun with rfl | ha | ho
    · refine Or.inr (Or.inr (Or.inl fun blk hv => ?_))
      exact absurd hv.1 (by simp [blockCount])
    · exact Or.inl ha
    · exact Or.inr (Or.inl ho)
  · obtain ⟨hne, hio⟩ := not_or.mp hrun
    obtain ⟨ha, ho⟩ := not_or.mp hio
    have hpass := image_passed_iff io content pattern blockSize mode fs imagePath hp hs hne
      (by simpa using ha) (by simpa using ho)
    rw [ImageVerdictSound, hpass, or_iff_right ha, or_iff_right ho]
    constructor
    · intro h
      by_cases hall : ∀ blk, ImageBlock content blockSize mode blk →
          BlockRead io content blockSize blk
      · exact Or.inl hall
      · right
        by_contra hno
        exact hall fun blk hv => (h (fun b hb hread => by_contra fun hm =>
          hno ⟨b, hb, hm, hread⟩) blk hv).1
    · rintro (hall | ⟨b, hb, hm, hread⟩) hclean
      · exact fun blk hv => ⟨hall blk hv, hclean blk hv fun a _ hva => hall a hva⟩
      · exact absurd (hclean b hb hread) hm

end Image

section File
variable (io : FileReadIo) (content : Bytes) (pattern : ErasePattern)

/-- A verification that passed has read the whole file, and every byte of it
is of the pattern. -/
def FileVerdictSound (fs : FileSystem) (path : Text) : Prop :=
  (fileVerifyPattern fs io path pattern).2.passed = true →
    (fileVerifyPattern fs io path pattern).2.bytesChecked = content.length ∧
      ∀ i < content.length, content[i]? = some (expectedByte pattern)

theorem file_sound_iff (fs : FileSystem) (path : Text) (hp : pattern ≠ .random)
    (hs : fs.lstat path = some (.regular content)) :
    FileVerdictSound io content pattern fs path ↔
      io.opened = false ∨ io.allocated = false ∨
        (∀ k, readPosition io content.length k < content.length → io.reads k ≠ .failed) ∨
        ∃ i < content.length, content[i]? ≠ some (expectedByte pattern) ∧
          ∀ k, readPosition io content.length k ≤ i → io.reads k ≠ .failed := by
  by_cases hrun : io.opened = false ∨ io.allocated = false
  · have hfail := fileVerify_stopped fs io path pattern content hp hs hrun
    have hsound : FileVerdictSound io content pattern fs path :=
      fun h => absurd (hfail.symm.trans h) (by decide)
    rcases hrun with h | h
    · exact iff_of_true hsound (Or.inl h)
    · exact iff_of_true hsound (Or.inr (Or.inl h))
  · obtain ⟨ho, ha⟩ := not_or.mp hrun
    obtain ⟨stop, hle, hchecked, hpass, hend, hgood⟩ := fileVerify_ran fs io path pattern content
      hp hs (by simpa using ho) (by simpa using ha)
    rw [FileVerdictSound, hpass, hchecked, or_iff_right ho, or_iff_right ha]
    constructor
    · intro h
      rcases hend with rfl | ⟨j, hj, hpos⟩
      · exact Or.inl hgood
      · by_cases heq : stop = content.length
        · exact Or.inl fun k hk => hgood k (heq ▸ hk)
        · right
          by_contra hno
          refine heq (h fun i hi => by_contra fun hm => hno ⟨i, by omega, hm, fun k hk => ?_⟩).1
          exact hgood k (by omega)
    · rintro (hall | ⟨i, hi, hm, hread⟩) hclean
      · rcases hend with rfl | ⟨j, hj, hpos⟩
        · exact ⟨rfl, hclean⟩
        · have heq : stop = content.length := by
            by_contra hne
            exact hall j (by omega) hj
          exact ⟨heq, heq ▸ hclean⟩
      · rcases hend with rfl | ⟨j, hj, hpos⟩
        · exact absurd (hclean i hi) hm
        · by_cases hlt : i < stop
          · exact absurd (hclean i hlt) hm
          · exact absurd hj (hread j (by omega))

end File

/-- A verdict is right exactly when the run could not start, when nothing
that was to be read fails, or when a difference is read before the failure. -/
theorem verdicts_sound_iff (fs : FileSystem) (path : Text) (content : Bytes)
    (pattern : ErasePattern) (hp : pattern = .zero ∨ pattern = .one) :
    (fs.stat path = some (.regular content) →
      ∀ (io : ReadIo) (blockSize : ℕ) (mode : VerifyMode),
        ImageVerdictSound io content pattern blockSize mode fs path ↔
          io.allocated = false ∨ io.opened = false ∨
            (∀ blk, ImageBlock content blockSize mode blk → BlockRead io content blockSize blk) ∨
            ∃ blk, ImageBlock content blockSize mode blk ∧
              ¬ BlockMatches content pattern blockSize blk ∧
              ∀ a ≤ blk, ImageBlock content blockSize mode a →
                BlockRead io content blockSize a) ∧
      (fs.lstat path = some (.regular content) →
        ∀ io : FileReadIo, FileVerdictSound io content pattern fs path ↔
          io.opened = false ∨ io.allocated = false ∨
            (∀ k, readPosition io content.length k < content.length → io.reads k ≠ .failed) ∨
            ∃ i < content.length, content[i]? ≠ some (expectedByte pattern) ∧
              ∀ k, readPosition io content.length k ≤ i → io.reads k ≠ .failed) := by
  have hr : pattern ≠ .random := by
    rcases hp with rfl | rfl <;> decide
  exact ⟨fun hs io blockSize mode =>
      image_sound_iff io content pattern blockSize mode fs path hr hs,
    fun hl io => file_sound_iff io content pattern fs path hr hl⟩

def dirtyFile : FileSystem := soleObject "disk.img".toList (.regular [0x41])

theorem verdict_sound_calm :
    FileVerdictSound FileReadIo.calm [0x41] .zero dirtyFile "disk.img".toList :=
  ((verdicts_sound_iff dirtyFile "disk.img".toList [0x41] .zero (Or.inl rfl)).2 (by decide)
    FileReadIo.calm).mpr (Or.inr (Or.inr (Or.inl fun _ _ => nofun)))

/-- Passed verifications, whatever calls fail, have read everything. -/
def VerdictsSound : Prop :=
  ∀ (fs : FileSystem) (path : Text) (content : Bytes) (pattern : ErasePattern),
    pattern = .zero ∨ pattern = .one →
    (fs.stat path = some (.regular content) →
      ∀ (io : ReadIo) (blockSize : ℕ) (mode : VerifyMode),
        ImageVerdictSound io content pattern blockSize mode fs path) ∧
    (fs.lstat path = some (.regular content) →
      ∀ io : FileReadIo, FileVerdictSound io content pattern fs path)

/-- When the only read fails, the image verifier passes a file that holds
another byte. -/
theorem unread_passed : ¬ VerdictsSound := by
  intro h
  obtain ⟨himage, _⟩ := h dirtyFile "disk.img".toList [0x41] .zero (Or.inl rfl)
  have hmatch := (himage (by decide) { ReadIo.calm with delivered := fun _ => 0 } 512 .full
    (by decide) 0 ⟨by decide, Nat.dvd_zero _⟩).2
  exact absurd (hmatch 0 (by decide) (by decide)) (by decide)

end EraseCure.VerificationVerdicts
