import EraseCure.BlockEraseImage
import EraseCure.Verification

/-!
# Erasing an image and reading it back

The chunks of the eraser and the blocks of the verifier cut the same file in
different ways. A successful erase with a constant pattern leaves the file at
its length with that byte everywhere, and a full verification then passes.
-/

set_option autoImplicit false

namespace EraseCure.EraseRoundTrip
open EraseCure.CText EraseCure.Devices EraseCure.FileSystems
open EraseCure.ByteRanges EraseCure.ErasePasses EraseCure.BlockEraseImage
open EraseCure.Verification

/-- Nothing fails when the verifier reads a file of this size. -/
def ReadsWell (io : ReadIo) (fileSize blockSize : ℕ) : Prop :=
  io.allocated = true ∧ io.opened = true ∧
    ∀ blk, io.seeked blk = true ∧ blockLength fileSize blockSize blk ≤ io.delivered blk

theorem readsWell_readable (io : ReadIo) (content : Bytes) (blockSize blk : ℕ)
    (hr : ReadsWell io content.length blockSize) :
    Readable io content content.length blockSize blk := by
  obtain ⟨hseek, hdel⟩ := hr.2.2 blk
  refine ⟨hseek, ?_⟩
  have hle : blockLength content.length blockSize blk ≤ content.length-blk*blockSize := by
    rw [blockLength]
    split <;> omega
  simp only [readBlock, List.length_take, List.length_drop]
  omega

theorem eq_replicate (content : Bytes) (b : UInt8)
    (h : ∀ i < content.length, content[i]? = some b) :
    content = List.replicate content.length b := by
  apply List.eq_replicate_iff.mpr
  constructor
  · rfl
  intro x hx
  obtain ⟨i, hi, rfl⟩ := List.mem_iff_getElem.mp hx
  have := h i hi
  rw [List.getElem?_eq_getElem hi] at this
  exact Option.some.inj this

theorem verify_constant (fs : FileSystem) (io : ReadIo) (imagePath : Text)
    (pattern : ErasePattern) (blockSize : ℕ) (content : Bytes) (hp : pattern ≠ .random)
    (hs : fs.stat imagePath = some (.regular content)) (hne : content ≠ [])
    (hr : ReadsWell io content.length (clampBlockSize blockSize))
    (hc : ∀ i < content.length, content[i]? = some (expectedByte pattern)) :
    let run := verifyImagePattern fs io imagePath pattern blockSize .full
    run.1 = .ok ∧ run.2.verificationPassed = true ∧ run.2.blocksFailed = 0 ∧
      run.2.blocksChecked = run.2.blocksTotal := by
  obtain ⟨hcode, htotal, hchecked, hfailed, hpassed, _⟩ :=
    verifyImage_ran fs io imagePath pattern blockSize .full content hp hs hne hr.1 hr.2.1
  obtain ⟨hok, hzero⟩ := verifyBlocks_spec io content (expectedByte pattern) content.length
    (clampBlockSize blockSize) (blockCount content.length (clampBlockSize blockSize))
    (sampleStep .full (blockCount content.length (clampBlockSize blockSize)))
    (sampleStep_pos _ _) (blockCount content.length (clampBlockSize blockSize)) 0 0 0
    (Nat.dvd_zero _) (by omega)
  have hloop : (imageLoop io content pattern blockSize .full).1 = .ok :=
    hok.mpr fun b _ _ => readsWell_readable io content _ b hr
  have hnone : (imageLoop io content pattern blockSize .full).2.2 = 0 := by
    refine hzero.mpr ⟨rfl, fun b _ _ _ i h1 h2 => hc i ?_⟩
    rw [blockLength] at h2
    split at h2 <;> omega
  have hcount : (imageLoop io content pattern blockSize .full).2.1 =
      blockCount content.length (clampBlockSize blockSize) := by
    rw [imageLoop, sampleStep_full] at hloop ⊢
    rw [verifyBlocks_count _ _ _ _ _ _ _ _ _ _ (by omega) hloop]
    omega
  refine ⟨hcode.trans hloop, ?_, hfailed.trans hnone, ?_⟩
  · rw [hpassed, hnone]
    rfl
  · rw [hchecked, htotal, hcount]

theorem blockEraseImage_constant (fs : FileSystem) (io : ImageIo) (imagePath : Text)
    (opts : BlockEraseOptions) (node : ℕ) (content : Bytes) (b : UInt8)
    (hres : fs.resolve imagePath = some node) (hfile : fs.object node = .regular content)
    (hb : patternByte opts.pattern = some b)
    (hok : (blockEraseImage fs io imagePath opts).code = .ok) :
    (blockEraseImage fs io imagePath opts).fs =
      fs.store node (List.replicate content.length b) := by
  obtain ⟨node', content', new, hnode', hfile', _, hfs, hlen, hdone⟩ :=
    blockEraseImage_ok fs io imagePath opts hok
  obtain rfl : node' = node := Option.some.inj (hnode'.symm.trans hres)
  obtain rfl : content' = content := Object.regular.inj (hfile'.symm.trans hfile)
  have hall : ∀ i < new.length, new[i]? = some b := fun i hi => by
    have hi' : i < (fs.object node').content.length := by
      rw [hfile]
      exact hlen ▸ hi
    have hbyte := hdone.constant b hb i hi'
    rwa [hfs, store_same, hfile] at hbyte
  rw [hfs, ← hlen, ← eq_replicate new b hall]

/-- A successful erase with zeros or ones leaves a file of the same length
that holds the byte everywhere, and a full verification that reads well passes
with every block checked, whatever the two block sizes. -/
theorem erase_then_verify (fs : FileSystem) (io : ImageIo) (vio : ReadIo) (imagePath : Text)
    (opts : BlockEraseOptions) (blockSize node : ℕ) (content : Bytes) (b : UInt8)
    (hnode : fs.resolve imagePath = some node) (hfile : fs.object node = .regular content)
    (hne : content ≠ []) (hb : patternByte opts.pattern = some b)
    (hok : (blockEraseImage fs io imagePath opts).code = .ok)
    (hr : ReadsWell vio content.length (clampBlockSize blockSize)) :
    let erased := (blockEraseImage fs io imagePath opts).fs
    let run := verifyImagePattern erased vio imagePath opts.pattern blockSize .full
    erased.object node = .regular (List.replicate content.length b) ∧
      run.1 = .ok ∧ run.2.verificationPassed = true ∧ run.2.blocksFailed = 0 ∧
      run.2.blocksChecked = run.2.blocksTotal := by
  have hobj : (fs.store node (List.replicate content.length b)).object node =
      .regular (List.replicate content.length b) := by
    rw [store_same, hfile]
    rfl
  have hstat : (fs.store node (List.replicate content.length b)).stat imagePath =
      some (.regular (List.replicate content.length b)) := by
    rw [FileSystem.stat, store_resolve, hnode, Option.map_some, hobj]
  have hnonempty : List.replicate content.length b ≠ [] := by
    simpa using hne
  have hrandom : opts.pattern ≠ .random := fun h => by
    rw [h] at hb
    cases hb
  have hexp := expectedByte_pattern opts.pattern b hb
  rw [blockEraseImage_constant fs io imagePath opts node content b hnode hfile hb hok]
  refine ⟨hobj, verify_constant _ vio imagePath opts.pattern blockSize _ hrandom hstat hnonempty
    (by rwa [List.length_replicate]) fun i hi => ?_⟩
  rw [hexp, List.getElem?_replicate, if_pos (by simpa using hi)]

theorem calm_readsWell (fileSize blockSize : ℕ) :
    ReadsWell ReadIo.calm fileSize (clampBlockSize blockSize) := by
  refine ⟨rfl, rfl, fun blk => ⟨rfl, ?_⟩⟩
  have hle := clampBlockSize_le blockSize
  change _ ≤ maxBlockSize
  rw [blockLength]
  split <;> omega

def twoPassOnes : BlockEraseOptions := ⟨.one, 512, 2, .full, true⟩

def shortImage : Bytes := List.replicate 700 0x41

theorem erase_then_verify_short :
    let fs := soleObject "disk.img".toList (.regular shortImage)
    let run := verifyImagePattern
      (blockEraseImage fs ImageIo.calm "disk.img".toList twoPassOnes).fs ReadIo.calm
      "disk.img".toList twoPassOnes.pattern 600 .full
    run.1 = .ok ∧ run.2.verificationPassed = true ∧ run.2.blocksFailed = 0 ∧
      run.2.blocksChecked = run.2.blocksTotal :=
  (erase_then_verify (soleObject "disk.img".toList (.regular shortImage))
    ImageIo.calm ReadIo.calm "disk.img".toList twoPassOnes 600 0 shortImage 0xFF
    (by decide) rfl (by decide) rfl (by decide +kernel) (calm_readsWell _ 600)).2

end EraseCure.EraseRoundTrip
