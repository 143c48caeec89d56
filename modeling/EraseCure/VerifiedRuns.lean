import EraseCure.Cli
import EraseCure.EraseOutcomes
import EraseCure.SanitizerRuns
import EraseCure.VerificationVerdicts

/-!
# Verification on request

Only in test mode, and only for devices of a known type, is the target verified
after an erase, and neither the sanitizers nor the command look at what is found.
So a success stands for a verification that passed exactly where the verifier
cannot but find the pattern.
-/

set_option autoImplicit false

namespace EraseCure.VerifiedRuns
open EraseCure.CText EraseCure.Devices EraseCure.FileSystems EraseCure.ByteRanges
open EraseCure.ErasePasses EraseCure.BlockEraseImage EraseCure.Verification
open EraseCure.EraseOutcomes EraseCure.VerificationVerdicts EraseCure.Sanitizers
open EraseCure.SanitizerRuns EraseCure.Cli

def handled (device : StorageDevice) : Bool :=
  hddCanHandle device || ssdCanHandle device || portableCanHandle device

/-- The verifier gets its buffer and opens the file, and the storage returns
the bytes it was given. Seeks and reads may still fail. -/
def Undisturbed (io : SanitizerIo) : Prop :=
  io.verify.allocated = true ∧ io.verify.opened = true ∧ ∀ i b, io.readback i b = b

theorem seen_same (fs : FileSystem) (readback : ℕ → UInt8 → UInt8)
    (h : ∀ i b, readback i b = b) : fs.seen readback = fs := by
  have hsame : ∀ o : Object, o.put (o.content.mapIdx readback) = o := by
    intro o
    have hc : o.content.mapIdx readback = o.content := by
      apply List.ext_getElem (by simp)
      intro i _ _
      rw [List.getElem_mapIdx, h]
    rw [hc]
    cases o <;> rfl
  rw [FileSystem.seen]
  congr 1
  funext n
  exact hsame (fs.object n)

section Found
variable (io : SanitizerIo) (size blockSize : ℕ) (mode : VerifyMode) (b : UInt8)

def Checked (blk : ℕ) : Prop :=
  ToCheck (blockCount size (clampBlockSize blockSize))
    (sampleStep mode (blockCount size (clampBlockSize blockSize))) blk

def ReadInFull (blk : ℕ) : Prop :=
  io.verify.seeked blk = true ∧
    blockLength size (clampBlockSize blockSize) blk ≤ io.verify.delivered blk

/-- The verifier starts, and for a byte that fills the target the storage returns
that byte in each block that is checked, up to the first that cannot be read. -/
structure ReturnsByte : Prop where
  allocated : io.verify.allocated = true
  opened : io.verify.opened = true
  returned : ∀ blk, Checked size blockSize mode blk →
    (∀ a ≤ blk, Checked size blockSize mode a → ReadInFull io size blockSize a) →
    ∀ i, blk*clampBlockSize blockSize ≤ i →
      i < blk*clampBlockSize blockSize+blockLength size (clampBlockSize blockSize) blk →
      io.readback i b = b

theorem blockRead_iff (content : Bytes) (blk : ℕ) :
    BlockRead io.verify content blockSize blk ↔ ReadInFull io content.length blockSize blk := by
  have hle : blockLength content.length (clampBlockSize blockSize) blk ≤
      content.length-blk*clampBlockSize blockSize := by
    rw [blockLength]
    split <;> omega
  rw [BlockRead, Readable, ReadInFull, readBlock, List.length_take, List.length_take,
    List.length_drop]
  exact and_congr_right fun _ => by omega

end Found

/-- After an erase with a constant pattern the verification passes exactly when the
verifier starts and gets that byte back. -/
theorem erased_passed_iff (fs : FileSystem) (io : SanitizerIo) (imagePath : Text)
    (opts : BlockEraseOptions) (blockSize : ℕ) (mode : VerifyMode) (content : Bytes) (b : UInt8)
    (hb : b ∈ patternByte opts.pattern) (hfile : fs.stat imagePath = some (.regular content))
    (hok : (blockEraseImage fs io.image imagePath opts).code = .ok) :
    (verifyImagePattern ((blockEraseImage fs io.image imagePath opts).fs.seen io.readback)
      io.verify imagePath opts.pattern blockSize mode).2.verificationPassed = true ↔
      ReturnsByte io content.length blockSize mode b := by
  obtain ⟨node, content', new, hnode, hobj, hne, hfs, hlen, hdone⟩ :=
    blockEraseImage_ok fs io.image imagePath opts hok
  rw [FileSystem.stat, hnode, Option.map_some, hobj] at hfile
  obtain rfl : content' = content := Object.regular.inj (Option.some.inj hfile)
  have hrandom : opts.pattern ≠ .random := fun h => by
    rw [h] at hb
    cases hb
  have hnew : (fs.store node new).object node = .regular new := by
    rw [store_same, hobj]
    rfl
  have hseen : ((fs.store node new).seen io.readback).stat imagePath =
      some (.regular (new.mapIdx io.readback)) := by
    have hres : ((fs.store node new).seen io.readback).resolve = fs.resolve := rfl
    rw [FileSystem.stat, hres, hnode, Option.map_some, FileSystem.seen]
    dsimp only
    rw [hnew]
    rfl
  have hseenLen : (new.mapIdx io.readback).length = content'.length := by
    rw [List.length_mapIdx, hlen]
  have hreturned : ∀ i < content'.length,
      (new.mapIdx io.readback)[i]? = some (io.readback i b) := by
    intro i hi
    have hbyte := hdone.constant b hb i (by rw [hobj]; exact hi)
    rw [hfs, hnew] at hbyte
    rw [List.getElem?_mapIdx, show new[i]? = some b from hbyte, Option.map_some]
  rw [hfs]
  by_cases hstart : io.verify.allocated = true ∧ io.verify.opened = true
  · have hnonempty : new.mapIdx io.readback ≠ [] := fun h => hne (List.length_eq_zero_iff.mp (by
      rw [← hseenLen, h]
      rfl))
    rw [image_passed_iff io.verify _ opts.pattern blockSize mode _ _ hrandom hseen hnonempty
      hstart.1 hstart.2]
    have hmatch : ∀ blk, BlockMatches (new.mapIdx io.readback) opts.pattern blockSize blk ↔
        ∀ i, blk*clampBlockSize blockSize ≤ i →
          i < blk*clampBlockSize blockSize+
            blockLength content'.length (clampBlockSize blockSize) blk →
          io.readback i b = b := by
      intro blk
      rw [BlockMatches, Matches, expectedByte_pattern opts.pattern b hb, hseenLen]
      have hinside : ∀ i, i < blk*clampBlockSize blockSize+
          blockLength content'.length (clampBlockSize blockSize) blk →
          blk*clampBlockSize blockSize ≤ i → i < content'.length := by
        intro i hi hle
        rw [blockLength] at hi
        split at hi <;> omega
      constructor
      · intro h i hle hi
        have hbyte := h i hle hi
        rw [hreturned i (hinside i hi hle)] at hbyte
        exact Option.some.inj hbyte
      · intro h i hle hi
        rw [hreturned i (hinside i hi hle), h i hle hi]
    simp only [hmatch, blockRead_iff, ImageBlock, hseenLen]
    exact ⟨fun h => ⟨hstart.1, hstart.2, h⟩, fun h => h.returned⟩
  · have hstopped := verifyImage_stopped _ io.verify imagePath opts.pattern blockSize mode _
      hrandom hseen (Or.inr (by simpa [Classical.or_iff_not_imp_left] using hstart))
    rw [hstopped]
    exact iff_of_false Bool.false_ne_true fun h => hstart ⟨h.allocated, h.opened⟩

theorem random_fails (fs : FileSystem) (io : ReadIo) (imagePath : Text) (blockSize : ℕ)
    (mode : VerifyMode) :
    (verifyImagePattern fs io imagePath .random blockSize mode).2.verificationPassed = false :=
  rfl

section Sanitizer
variable (fs : FileSystem) (io : SanitizerIo) (device : StorageDevice)
  (opts : SanitizationOptions)

theorem hddSanitize_testImage (result : SanitizationResult) (hm : opts.method = .blockErase)
    (ht : opts.testMode = true) :
    ∃ start, hddSanitize fs io device opts result = testImage fs io device opts start := by
  simp only [hddSanitize, hm, ht]
  exact ⟨_, rfl⟩

theorem ssdSanitize_testImage (result : SanitizationResult) (hm : opts.method = .blockErase)
    (ht : opts.testMode = true) :
    ∃ start, ssdSanitize fs io device opts result = testImage fs io device opts start := by
  simp only [ssdSanitize, hm, ht]
  exact ⟨_, rfl⟩

theorem portableSanitize_testImage (result : SanitizationResult)
    (hd : portableCanHandle device = true) (hm : opts.method = .blockErase)
    (ht : opts.testMode = true) :
    ∃ start, portableSanitize fs io device opts result = testImage fs io device opts start := by
  rw [portableSanitize]
  cases hdev : device.deviceType with
  | usbHdd => exact hddSanitize_testImage fs io device opts _ hm ht
  | usbSsd => exact ssdSanitize_testImage fs io device opts _ hm ht
  | usbFlash | sdCard =>
    dsimp only
    rw [if_neg (not_not_intro hm), ht]
    exact ⟨_, rfl⟩
  | unknown | hdd | sataSsd | nvmeSsd | other => simp [portableCanHandle, hdev] at hd

theorem handled_testImage (hd : handled device = true) (hm : opts.method = .blockErase)
    (ht : opts.testMode = true) :
    ∃ start, sanitizerRun fs io device opts = testImage fs io device opts start := by
  rw [sanitizerRun]
  split
  · exact hddSanitize_testImage fs io device opts _ hm ht
  · split
    · exact ssdSanitize_testImage fs io device opts _ hm ht
    · rename_i hhdd hssd
      have hportable : portableCanHandle device = true := by
        simpa [handled, hhdd, hssd] using hd
      rw [if_pos hportable]
      exact portableSanitize_testImage fs io device opts _ hportable hm ht

theorem hddSanitize_deviceRun (result : SanitizationResult) (hm : opts.method = .blockErase)
    (ht : opts.testMode = false) :
    ∃ start,
      hddSanitize fs io device opts result = ofErase (deviceRun fs io device opts) start := by
  simp only [hddSanitize, hm, ht, Bool.not_false, if_true]
  split <;> exact ⟨_, rfl⟩

theorem ssdSanitize_deviceRun (result : SanitizationResult) (hm : opts.method = .blockErase)
    (ht : opts.testMode = false) :
    ∃ start,
      ssdSanitize fs io device opts result = ofErase (deviceRun fs io device opts) start := by
  simp only [ssdSanitize, hm, ht]
  exact ⟨_, rfl⟩

theorem portableSanitize_deviceRun (result : SanitizationResult)
    (hd : portableCanHandle device = true) (hm : opts.method = .blockErase)
    (ht : opts.testMode = false) : ∃ start,
    portableSanitize fs io device opts result = ofErase (deviceRun fs io device opts) start := by
  rw [portableSanitize]
  cases hdev : device.deviceType with
  | usbHdd => exact hddSanitize_deviceRun fs io device opts _ hm ht
  | usbSsd => exact ssdSanitize_deviceRun fs io device opts _ hm ht
  | usbFlash | sdCard =>
    dsimp only
    rw [if_neg (not_not_intro hm), ht]
    exact ⟨_, rfl⟩
  | unknown | hdd | sataSsd | nvmeSsd | other => simp [portableCanHandle, hdev] at hd

/-- The device itself is erased in the same way, and nothing is verified. -/
theorem handled_deviceRun (hd : handled device = true) (hm : opts.method = .blockErase)
    (ht : opts.testMode = false) :
    ∃ start, sanitizerRun fs io device opts = ofErase (deviceRun fs io device opts) start := by
  rw [sanitizerRun]
  split
  · exact hddSanitize_deviceRun fs io device opts _ hm ht
  · split
    · exact ssdSanitize_deviceRun fs io device opts _ hm ht
    · rename_i hhdd hssd
      have hportable : portableCanHandle device = true := by
        simpa [handled, hhdd, hssd] using hd
      rw [if_pos hportable]
      exact portableSanitize_deviceRun fs io device opts _ hportable hm ht

theorem unhandled_run (hd : handled device = false) (hm : opts.method = .blockErase) :
    ∃ start, sanitizerRun fs io device opts = if opts.testMode = true then
      ofErase (blockEraseImage fs io.image device.path.chars opts.blockErase) start
      else ended fs .unsupported start := by
  rw [handled, Bool.or_eq_false_iff, Bool.or_eq_false_iff] at hd
  refine ⟨sanitizationStart opts.method, ?_⟩
  simp only [sanitizerRun, hd.1.1, hd.1.2, hd.2, hm, Bool.false_eq_true, if_false, and_true]

def TargetErasable : Prop :=
  if opts.testMode then
    ∃ content, ImageErasable fs io.image device.path.chars opts.blockErase content
  else handled device = true ∧
    ∃ node, DeviceErasable fs io.device device opts.blockErase device.path.chars node

theorem imageRun_ok_iff : (imageRun fs io device opts).code = .ok ↔
    ∃ content, ImageErasable fs io.image device.path.chars opts.blockErase content :=
  (blockEraseImage_ok_iff fs io.image device.path.chars (beOpts opts)).trans
    ⟨fun ⟨content, h⟩ => ⟨content, h.safe, h.file, h.nonempty, h.allocated, h.passes⟩,
      fun ⟨content, h⟩ => ⟨content, h.safe, h.file, h.nonempty, h.allocated, h.passes⟩⟩

theorem deviceRun_ok_iff : (deviceRun fs io device opts).code = .ok ↔
    ∃ node, DeviceErasable fs io.device device opts.blockErase device.path.chars node :=
  (blockEraseDevice_ok_iff fs io.device device (beOpts opts) device.path.chars).trans
    ⟨fun ⟨node, h⟩ => ⟨node, h.started, h.passes⟩, fun ⟨node, h⟩ => ⟨node, h.started, h.passes⟩⟩

theorem testImage_code (result : SanitizationResult) :
    (testImage fs io device opts result).code = (imageRun fs io device opts).code :=
  (testImage_erases fs io device opts result).2.1

/-- A run succeeds exactly when the erase of its target goes through. -/
theorem sanitizerRun_ok_iff (hm : opts.method = .blockErase) :
    (sanitizerRun fs io device opts).code = .ok ↔ TargetErasable fs io device opts := by
  rw [TargetErasable]
  cases hd : handled device with
  | true =>
    cases ht : opts.testMode with
    | true =>
      obtain ⟨start, hrun⟩ := handled_testImage fs io device opts hd hm ht
      rw [hrun, testImage_code, imageRun_ok_iff, if_pos rfl]
    | false =>
      obtain ⟨start, hrun⟩ := handled_deviceRun fs io device opts hd hm ht
      rw [hrun, if_neg Bool.false_ne_true, and_iff_right rfl]
      exact deviceRun_ok_iff fs io device opts
  | false =>
    obtain ⟨start, hrun⟩ := unhandled_run fs io device opts hd hm
    rw [hrun]
    cases opts.testMode with
    | true =>
      rw [if_pos rfl, if_pos rfl]
      exact blockEraseImage_ok_iff fs io.image device.path.chars opts.blockErase
    | false =>
      rw [if_neg Bool.false_ne_true, if_neg Bool.false_ne_true]
      exact iff_of_false (show ErrorCodes.ErasecureError.unsupported ≠ .ok by decide)
        fun h => Bool.false_ne_true h.1

/-- Outside of test mode and for devices of other types nothing is verified. -/
theorem sanitizerRun_unverified (hm : opts.method = .blockErase)
    (h : ¬ (handled device = true ∧ opts.testMode = true)) :
    (sanitizerRun fs io device opts).verified = [] := by
  cases hd : handled device with
  | true =>
    have ht : opts.testMode = false := Bool.eq_false_of_not_eq_true fun ht => h ⟨hd, ht⟩
    obtain ⟨start, hrun⟩ := handled_deviceRun fs io device opts hd hm ht
    rw [hrun]
    rfl
  | false =>
    obtain ⟨start, hrun⟩ := unhandled_run fs io device opts hd hm
    rw [hrun]
    split <;> rfl

theorem testImage_verified (result : SanitizationResult)
    (hv : opts.blockErase.verifyMode ≠ .none) (hok : (imageRun fs io device opts).code = .ok) :
    (testImage fs io device opts result).verified = [verifyCall device opts] ∧
      (testImage fs io device opts result).result.verifyResult =
        verifyTarget io (imageRun fs io device opts).fs (verifyCall device opts) := by
  have hcond : (imageRun fs io device opts).code = .ok ∧ (beOpts opts).verifyMode ≠ .none :=
    ⟨hok, hv⟩
  rw [testImage]
  dsimp only
  rw [if_pos hcond]
  exact ⟨rfl, rfl⟩

/-- A success means that the target was verified and that the verification passed. -/
def SuccessVerified : Prop :=
  (sanitizerRun fs io device opts).code = .ok →
    (∃ call ∈ (sanitizerRun fs io device opts).verified, call.path = device.path.chars) ∧
      (sanitizerRun fs io device opts).result.verifyResult.verificationPassed = true

/-- The verifier is called, and it finds the byte of the pattern. -/
def TargetVerifies : Prop :=
  handled device = true ∧ opts.testMode = true ∧ ∃ content b,
    fs.stat device.path.chars = some (.regular content) ∧
      b ∈ patternByte opts.blockErase.pattern ∧
      ReturnsByte io content.length opts.blockErase.blockSize opts.blockErase.verifyMode b

theorem imageRun_passed_iff (content : Bytes)
    (hfile : fs.stat device.path.chars = some (.regular content))
    (hok : (imageRun fs io device opts).code = .ok) :
    (verifyTarget io (imageRun fs io device opts).fs
        (verifyCall device opts)).verificationPassed = true ↔
      ∃ b ∈ patternByte opts.blockErase.pattern, ReturnsByte io content.length
        opts.blockErase.blockSize opts.blockErase.verifyMode b := by
  cases hb : patternByte opts.blockErase.pattern with
  | some b =>
    have hpassed := erased_passed_iff fs io device.path.chars (beOpts opts)
      opts.blockErase.blockSize opts.blockErase.verifyMode content b hb hfile hok
    exact hpassed.trans ⟨fun h => ⟨b, rfl, h⟩, fun ⟨b', hb', h⟩ => Option.some.inj hb' ▸ h⟩
  | none =>
    refine iff_of_false (fun hpassed => ?_) fun ⟨b, hb', _⟩ => by contradiction
    obtain ⟨content', herasable⟩ := (imageRun_ok_iff fs io device opts).mp hok
    obtain ⟨_, _, hwhole⟩ := herasable.passes 0 (clampPasses_pos _)
    obtain ⟨hgen, _⟩ := hwhole 0 (by
      rw [Nat.zero_mul]
      exact List.length_pos_of_ne_nil herasable.nonempty)
    cases hpattern : opts.blockErase.pattern with
    | zero | one => rw [hpattern] at hb; contradiction
    | random =>
      have hcall : (verifyCall device opts).pattern = .random := hpattern
      rw [verifyTarget, hcall, random_fails] at hpassed
      contradiction
    | other code hcode => rw [hpattern] at hgen; exact hgen

theorem sanitizerRun_verified_iff (hm : opts.method = .blockErase)
    (hv : opts.blockErase.verifyMode ≠ .none) :
    SuccessVerified fs io device opts ↔
      (TargetErasable fs io device opts → TargetVerifies fs io device opts) := by
  rw [SuccessVerified, sanitizerRun_ok_iff fs io device opts hm]
  refine imp_congr_right fun herasable => ?_
  by_cases hcase : handled device = true ∧ opts.testMode = true
  · obtain ⟨hd, ht⟩ := hcase
    rw [TargetErasable, if_pos ht] at herasable
    obtain ⟨content, hcontent⟩ := herasable
    have hok := (imageRun_ok_iff fs io device opts).mpr ⟨content, hcontent⟩
    obtain ⟨start, hrun⟩ := handled_testImage fs io device opts hd hm ht
    obtain ⟨hcalls, hresult⟩ := testImage_verified fs io device opts start hv hok
    rw [hrun, hcalls, hresult, imageRun_passed_iff fs io device opts content hcontent.file hok]
    constructor
    · rintro ⟨_, b, hb, h⟩
      exact ⟨hd, ht, content, b, hcontent.file, hb, h⟩
    · rintro ⟨_, _, content', b, hfile, hb, h⟩
      rw [hcontent.file] at hfile
      obtain rfl := Object.regular.inj (Option.some.inj hfile)
      exact ⟨⟨_, List.mem_singleton_self _, rfl⟩, b, hb, h⟩
  · rw [sanitizerRun_unverified fs io device opts hm hcase]
    refine iff_of_false ?_ fun h => hcase ⟨h.1, h.2.1⟩
    rintro ⟨⟨call, hcall, _⟩, _⟩
    exact absurd hcall List.not_mem_nil

end Sanitizer

section Command
variable (fs : FileSystem) (io : SanitizerIo) (imagePath patternStr : Text) (passes blockSize : ℕ)
  (verifyMode : VerifyMode)

theorem patternOfName_named (name : Text) (pattern : ErasePattern)
    (h : patternOfName name = some pattern) :
    pattern = .random ∨ (patternByte pattern).isSome = true := by
  rw [patternOfName] at h
  split at h
  · cases h
    exact Or.inr rfl
  · split at h
    · cases h
      exact Or.inr rfl
    · split at h
      · cases h
        exact Or.inl rfl
      · contradiction

/-- Status zero means that the image was verified and that the verification passed. -/
def StatusVerified : Prop :=
  let run := cmdBlockEraseImage fs io imagePath patternStr passes blockSize verifyMode
  run.exitStatus = 0 → ∃ call ∈ run.verified, call.path = imagePath ∧
    (verifyTarget io run.fs call).verificationPassed = true

def ImageErases (content : Bytes) : Prop :=
  ∃ pattern, patternOfName patternStr = some pattern ∧
    ImageErasable fs io.image imagePath (cliOptions pattern passes blockSize verifyMode) content

def ImageVerifies (content : Bytes) : Prop :=
  ∃ pattern b, patternOfName patternStr = some pattern ∧ b ∈ patternByte pattern ∧
    ReturnsByte io content.length (if 0 < blockSize then blockSize else defaultBlockSize)
      verifyMode b

theorem cmdBlockEraseImage_verified_iff (hv : verifyMode ≠ .none) :
    StatusVerified fs io imagePath patternStr passes blockSize verifyMode ↔
      ∀ content, ImageErases fs io imagePath patternStr passes blockSize verifyMode content →
        ImageVerifies io patternStr blockSize verifyMode content := by
  rw [StatusVerified]
  cases hname : patternOfName patternStr with
  | none =>
    rw [cmdBlockEraseImage, hname]
    refine iff_of_true (fun h => absurd h (show (1 : ℕ) ≠ 0 by decide)) fun content h => ?_
    obtain ⟨pattern, hsome, _⟩ := h
    rw [hname] at hsome
    contradiction
  | some pattern =>
    have hsame : ∀ pattern', patternOfName patternStr = some pattern' → pattern' = pattern :=
      fun pattern' h => Option.some.inj (h.symm.trans hname)
    have hiff := blockEraseImage_ok_iff fs io.image imagePath
      (cliOptions pattern passes blockSize verifyMode)
    rw [cmdBlockEraseImage, hname]
    dsimp only
    by_cases hok : (blockEraseImage fs io.image imagePath
        (cliOptions pattern passes blockSize verifyMode)).code = .ok
    · obtain ⟨content, hcontent⟩ := hiff.mp hok
      rw [if_neg (by rw [hok]; decide), if_neg (not_not_intro hok)]
      have hverifies : (∀ content', ImageErases fs io imagePath patternStr passes blockSize
          verifyMode content' → ImageVerifies io patternStr blockSize verifyMode content') ↔
          ImageVerifies io patternStr blockSize verifyMode content := by
        refine ⟨fun h => h content ⟨pattern, hname, hcontent⟩, fun h content' h' => ?_⟩
        obtain ⟨_, _, h'⟩ := h'
        have hsole := Object.regular.inj (Option.some.inj (hcontent.file.symm.trans h'.file))
        exact hsole ▸ h
      rw [hverifies]
      rcases patternOfName_named patternStr pattern hname with rfl | hbyte
      · rw [if_neg (fun h => h.2 rfl), if_pos ⟨hv, rfl⟩]
        refine iff_of_false (fun h => ?_) ?_
        · obtain ⟨call, hcall, _⟩ := h rfl
          exact absurd hcall List.not_mem_nil
        · rintro ⟨pattern', b, hsome, hb, _⟩
          rw [hsame pattern' hsome] at hb
          cases hb
      · obtain ⟨b, hb⟩ := Option.isSome_iff_exists.mp hbyte
        have hrandom : pattern ≠ .random := fun h => by
          rw [h] at hbyte
          contradiction
        have hpassed := erased_passed_iff fs io imagePath
          (cliOptions pattern passes blockSize verifyMode)
          (if 0 < blockSize then blockSize else defaultBlockSize) verifyMode content b hb
          hcontent.file hok
        rw [if_pos ⟨hv, hrandom⟩]
        constructor
        · intro h
          obtain ⟨call, hcall, _, hcallPassed⟩ := h rfl
          obtain rfl := List.mem_singleton.mp hcall
          exact ⟨pattern, b, hname, hb, hpassed.mp hcallPassed⟩
        · rintro ⟨pattern', b', hsome, hb', h⟩ _
          rw [hsame pattern' hsome] at hb'
          obtain rfl := Option.some.inj (hb.symm.trans hb')
          exact ⟨_, List.mem_singleton_self _, rfl, hpassed.mpr h⟩
    · refine iff_of_true (fun hzero => ?_) fun content h => ?_
      · split at hzero <;> contradiction
      · obtain ⟨pattern', hsome, h⟩ := h
        rw [hsame pattern' hsome] at h
        exact absurd (hiff.mpr ⟨content, h⟩) hok

end Command

/-- Where verification was asked for, a success of the sanitizer, and status zero of
the command, stand for a verification that passed exactly when the erase does not go
through or the verifier is called and cannot but find the pattern. -/
theorem success_verified_iff (fs : FileSystem) (io : SanitizerIo) :
    (∀ device opts, opts.method = .blockErase → opts.blockErase.verifyMode ≠ .none →
      (SuccessVerified fs io device opts ↔
        (TargetErasable fs io device opts → TargetVerifies fs io device opts))) ∧
    ∀ imagePath patternStr passes blockSize verifyMode, verifyMode ≠ .none →
      (StatusVerified fs io imagePath patternStr passes blockSize verifyMode ↔
        ∀ content, ImageErases fs io imagePath patternStr passes blockSize verifyMode content →
          ImageVerifies io patternStr blockSize verifyMode content) :=
  ⟨fun device opts hm hv => sanitizerRun_verified_iff fs io device opts hm hv,
    fun imagePath patternStr passes blockSize verifyMode hv =>
      cmdBlockEraseImage_verified_iff fs io imagePath patternStr passes blockSize verifyMode hv⟩

def stick : StorageDevice := plainDevice (printed256 "disk.img".toList) .usbFlash

def stickImage : FileSystem := soleObject "disk.img".toList (.regular [0x41])

def verifiedErase (pattern : ErasePattern) : SanitizationOptions :=
  { sanitizerOptionsInit with
    blockErase := { blockEraseOptionsInit with pattern := pattern, verifyMode := .full } }

theorem success_verified_stick :
    SuccessVerified stickImage (SanitizerIo.calm 0) stick (verifiedErase .zero) ∧
      StatusVerified stickImage (SanitizerIo.calm 0) "disk.img".toList "zero".toList 1 512
        .full := by
  obtain ⟨hrun, hcommand⟩ := success_verified_iff stickImage (SanitizerIo.calm 0)
  exact ⟨(hrun stick (verifiedErase .zero) rfl (by decide)).mpr fun _ =>
      ⟨rfl, rfl, [0x41], 0x00, by decide, rfl, ⟨rfl, rfl, fun _ _ _ _ _ _ => rfl⟩⟩,
    (hcommand "disk.img".toList "zero".toList 1 512 .full (by decide)).mpr fun content _ =>
      ⟨.zero, 0x00, by decide, rfl, ⟨rfl, rfl, fun _ _ _ _ _ _ => rfl⟩⟩⟩

def staleIo : SanitizerIo := { SanitizerIo.calm 1 with readback := fun _ _ => 0x41 }

/-- Zeros that read back as the old byte are reported as a success, and so is a device
that nothing verifies. -/
theorem stale_success :
    ¬ SuccessVerified stickImage staleIo stick (verifiedErase .zero) ∧
      ¬ SuccessVerified (soleObject "/dev/sda".toList (.blockDevice [0x41])) (SanitizerIo.calm 1)
        drive { verifiedErase .zero with testMode := false } ∧
      ¬ StatusVerified stickImage staleIo "disk.img".toList "zero".toList 1 512 .full := by
  refine ⟨fun h => ?_, fun h => ?_, fun h => ?_⟩
  · exact absurd (h (by decide +kernel)).2 (by decide +kernel)
  · exact absurd (h (by decide +kernel)).2 (by decide)
  · obtain ⟨call, hcall, _, hpassed⟩ := h (by decide)
    have hcalls : (cmdBlockEraseImage stickImage staleIo "disk.img".toList "zero".toList 1 512
        .full).verified = [⟨"disk.img".toList, .zero, 512, .full⟩] := by decide
    rw [hcalls] at hcall
    obtain rfl := List.mem_singleton.mp hcall
    exact absurd hpassed (by decide)

end EraseCure.VerifiedRuns
