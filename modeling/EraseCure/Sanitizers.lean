import EraseCure.BlockEraseDevice
import EraseCure.Verification

/-!
# Sanitizing a device

The dispatcher routes a request by the type of the device to one of three
sanitizers, which erase an image in test mode and the device otherwise. Every
run either is that of an eraser or fails and writes nothing.
-/

set_option autoImplicit false

namespace EraseCure.Sanitizers
open EraseCure.CText EraseCure.Devices EraseCure.ErrorCodes EraseCure.FileSystems
open EraseCure.ByteRanges EraseCure.ErasePasses EraseCure.BlockEraseImage
open EraseCure.BlockEraseDevice EraseCure.Verification

inductive CryptoEraseStatus where
  | supported | unsupported | notEncrypted | notImplemented | failed | success
  deriving DecidableEq

def cryptoEraseQuery (device : StorageDevice) : CryptoEraseStatus :=
  if device.capabilities.supportsCryptoErase then .supported
  else if device.encryptionStatus = .notEncrypted ∨ device.encryptionStatus = .unknown then
    .notEncrypted
  else .unsupported

def cryptoEraseExecute (device : StorageDevice) : CryptoEraseStatus :=
  match cryptoEraseQuery device with
  | .notEncrypted => .notEncrypted
  | .unsupported => .unsupported
  | _ =>
    if device.transportType = .nvme ∧ device.capabilities.supportsCryptoErase then
      .notImplemented
    else if device.transportType = .sata ∧ device.capabilities.supportsCryptoErase then
      .notImplemented
    else .notImplemented

structure SanitizationOptions where
  method : SanitizationMethod
  blockErase : BlockEraseOptions
  testMode : Bool
  progressCb : Bool

def sanitizerOptionsInit : SanitizationOptions where
  method := .blockErase
  blockErase := blockEraseOptionsInit
  testMode := true
  progressCb := false

structure SanitizationResult where
  methodUsed : SanitizationMethod
  blockResult : BlockEraseResult
  cryptoStatus : CryptoEraseStatus
  verifyResult : VerificationResult
  resultCode : ErasecureError
  errorMessage : CString 256
  deriving DecidableEq

/-- The record that the dispatcher starts from. -/
def sanitizationStart (method : SanitizationMethod) : SanitizationResult where
  methodUsed := method
  blockResult := ⟨0, 0, .ok, printed128 []⟩
  cryptoStatus := .supported
  verifyResult := verificationBlank
  resultCode := .generic
  errorMessage := printed256 []

/-- What the erasers and the verifier meet, and what the storage returns for
the bytes it was given. -/
structure SanitizerIo where
  image : ImageIo
  device : DeviceIo
  readback : ℕ → UInt8 → UInt8
  verify : ReadIo

def SanitizerIo.calm (size : ℕ) : SanitizerIo where
  image := ImageIo.calm
  device := DeviceIo.calm size
  readback := fun _ b => b
  verify := ReadIo.calm

structure VerifyCall where
  path : Text
  pattern : ErasePattern
  blockSize : ℕ
  mode : VerifyMode
  deriving DecidableEq

structure SanitizeRun where
  fs : FileSystem
  code : ErasecureError
  result : SanitizationResult
  writes : List (ℕ × Piece UInt8)
  progress : List (ℕ × ℕ)
  verified : List VerifyCall

section Modules
variable (fs : FileSystem) (io : SanitizerIo) (device : StorageDevice)
  (opts : SanitizationOptions) (result : SanitizationResult)

def ended (code : ErasecureError) (result : SanitizationResult) : SanitizeRun where
  fs := fs
  code := code
  result := { result with resultCode := code }
  writes := []
  progress := []
  verified := []

def ofErase (run : EraseRun) (result : SanitizationResult) : SanitizeRun where
  fs := run.fs
  code := run.code
  result := { result with blockResult := run.result, resultCode := run.code }
  writes := run.writes
  progress := run.progress
  verified := []

/-- The options of a sanitizer's erase report to the request's callback. -/
def beOpts : BlockEraseOptions := { opts.blockErase with progressCb := opts.progressCb }

def imageRun : EraseRun := blockEraseImage fs io.image device.path.chars (beOpts opts)

def deviceRun : EraseRun :=
  blockEraseDevice fs io.device device (beOpts opts) device.path.chars

def verifyCall : VerifyCall :=
  ⟨device.path.chars, (beOpts opts).pattern, (beOpts opts).blockSize, (beOpts opts).verifyMode⟩

/-- The verification that follows an erase, its returned code dropped. -/
def verifyTarget (fs : FileSystem) (call : VerifyCall) : VerificationResult :=
  (verifyImagePattern (fs.seen io.readback) io.verify call.path call.pattern call.blockSize
    call.mode).2

/-- Test mode: the image is erased and, if requested, verified. -/
def testImage : SanitizeRun :=
  let run := imageRun fs io device opts
  if run.code = .ok ∧ (beOpts opts).verifyMode ≠ .none then
    let call := verifyCall device opts
    { ofErase run { result with verifyResult := verifyTarget io run.fs call } with
      verified := [call] }
  else ofErase run result

def cryptoErase : SanitizeRun :=
  let status := cryptoEraseExecute device
  ended fs (if status = .success then .ok else .notImplemented)
    { result with cryptoStatus := status }

def hddCanHandle : Bool := device.deviceType = .hdd || device.deviceType = .usbHdd

def hddSanitize : SanitizeRun :=
  let result := { result with methodUsed := opts.method }
  match opts.method with
  | .blockErase =>
    if !opts.testMode then
      let run := deviceRun fs io device opts
      if run.code ≠ .ok then
        ofErase run { result with errorMessage := printed256 run.result.errorMessage.chars }
      else ofErase run result
    else testImage fs io device opts result
  | .deviceNative =>
    ended fs .notImplemented
      { result with errorMessage := printed256 "ATA Secure Erase not implemented.".toList }
  | .cryptoErase => cryptoErase fs device result
  | _ => ended fs .unsupported result

def ssdCanHandle : Bool := device.deviceType = .sataSsd || device.deviceType = .nvmeSsd

def withNote (result : SanitizationResult) (note : Text) : SanitizationResult :=
  { result with
    verifyResult := { result.verifyResult with confidenceNote := printed256 note } }

def ssdSanitize : SanitizeRun :=
  let result := { result with methodUsed := opts.method }
  match opts.method with
  | .blockErase =>
    if !opts.testMode then
      ofErase (deviceRun fs io device opts) (withNote result
        ("CAVEAT: Logical block overwrite completed, but cannot guarantee ".toList++
          "physical NAND erasure due to SSD Flash Translation Layer (FTL) ".toList++
          "and wear-leveling remaps.".toList))
    else
      testImage fs io device opts { result with
        errorMessage := printed256 ("SSD: test-image logical overwrite complete. ".toList++
          "NAND physical erasure NOT confirmed by this method.".toList) }
  | .deviceNative =>
    if device.deviceType = .nvmeSsd then
      ended fs .notImplemented { result with
        errorMessage := printed256 "NVMe Sanitize / Format NVM not implemented.".toList }
    else
      ended fs .notImplemented
        { result with errorMessage := printed256 "SATA ATA Sanitize not implemented.".toList }
  | .cryptoErase => cryptoErase fs device result
  | _ => ended fs .unsupported result

def portableCanHandle : Bool :=
  match device.deviceType with
  | .usbHdd | .usbSsd | .usbFlash | .sdCard => true
  | _ => false

def portableSanitize : SanitizeRun :=
  let result := { result with methodUsed := opts.method }
  match device.deviceType with
  | .usbHdd => hddSanitize fs io device opts result
  | .usbSsd => ssdSanitize fs io device opts result
  | .usbFlash | .sdCard =>
    if opts.method ≠ .blockErase then
      ended fs .unsupported { result with
        errorMessage := printed256
          "Only block erase is supported for USB Flash / SD cards.".toList }
    else if !opts.testMode then
      ofErase (deviceRun fs io device opts) (withNote result
        ("CAVEAT: Logical block overwrite on USB Flash/SD card ".toList++
          "cannot guarantee physical NAND erasure.".toList))
    else testImage fs io device opts result
  | _ => ended fs .unsupported result

/-- A device that no sanitizer handles is erased as an image in test mode
only, with the callback of the erase options, and is not verified. -/
def sanitizerRun : SanitizeRun :=
  let result := sanitizationStart opts.method
  if hddCanHandle device then hddSanitize fs io device opts result
  else if ssdCanHandle device then ssdSanitize fs io device opts result
  else if portableCanHandle device then portableSanitize fs io device opts result
  else if opts.testMode ∧ opts.method = .blockErase then
    ofErase (blockEraseImage fs io.image device.path.chars opts.blockErase) result
  else ended fs .unsupported result

end Modules

def Erases (run : SanitizeRun) (erase : EraseRun) : Prop :=
  run.fs = erase.fs ∧ run.code = erase.code ∧ run.result.resultCode = erase.code ∧
    run.writes = erase.writes

def Fails (fs : FileSystem) (run : SanitizeRun) : Prop :=
  run.code ≠ .ok ∧ run.fs = fs ∧ run.writes = []

section Routes
variable (fs : FileSystem) (io : SanitizerIo) (device : StorageDevice)
  (opts : SanitizationOptions) (result : SanitizationResult)

/-- What a run comes to: a block erase of the image in test mode, one of the
device otherwise, or a failure. -/
inductive Routed (run : SanitizeRun) : Prop where
  | image (progressCb : Bool) (method : opts.method = .blockErase) (mode : opts.testMode = true)
      (erases : Erases run (blockEraseImage fs io.image device.path.chars
        { opts.blockErase with progressCb := progressCb }))
  | device (method : opts.method = .blockErase) (mode : opts.testMode = false)
      (erases : Erases run (deviceRun fs io device opts))
  | failed (other : ¬ (opts.method = .blockErase ∧ opts.testMode = true)) (fails : Fails fs run)

theorem ofErase_erases (run : EraseRun) : Erases (ofErase run result) run :=
  ⟨rfl, rfl, rfl, rfl⟩

theorem testImage_erases :
    Erases (testImage fs io device opts result) (imageRun fs io device opts) := by
  rw [testImage]
  dsimp only
  split
  · exact ⟨rfl, rfl, rfl, rfl⟩
  · exact ofErase_erases _ _

theorem ended_fails (code : ErasecureError) (h : code ≠ .ok) : Fails fs (ended fs code result) :=
  ⟨h, rfl, rfl⟩

theorem cryptoErase_fails : Fails fs (cryptoErase fs device result) := by
  have hstatus : cryptoEraseExecute device ≠ .success := by
    rw [cryptoEraseExecute]
    split <;> grind
  rw [cryptoErase, if_neg hstatus]
  exact ended_fails fs _ _ (by decide)

theorem blockErase_routed (run : SanitizeRun) (hm : opts.method = .blockErase)
    (himage : opts.testMode = true → Erases run (imageRun fs io device opts))
    (hdevice : opts.testMode = false → Erases run (deviceRun fs io device opts)) :
    Routed fs io device opts run := by
  cases ht : opts.testMode with
  | true => exact .image opts.progressCb hm ht (himage ht)
  | false => exact .device hm ht (hdevice ht)

theorem hddSanitize_routed : Routed fs io device opts (hddSanitize fs io device opts result) := by
  rw [hddSanitize]
  cases hm : opts.method with
  | blockErase =>
    apply blockErase_routed fs io device opts _ hm
    · intro ht
      simp only [ht]
      exact testImage_erases fs io device opts _
    · intro ht
      simp only [ht, Bool.not_false, if_true]
      split <;> exact ofErase_erases _ _
  | deviceNative => exact .failed (by simp [hm]) (ended_fails fs _ _ (by decide))
  | cryptoErase => exact .failed (by simp [hm]) (cryptoErase_fails fs device _)
  | none | other => exact .failed (by simp [hm]) (ended_fails fs _ _ (by decide))

theorem ssdSanitize_routed : Routed fs io device opts (ssdSanitize fs io device opts result) := by
  rw [ssdSanitize]
  cases hm : opts.method with
  | blockErase =>
    apply blockErase_routed fs io device opts _ hm
    · intro ht
      simp only [ht]
      exact testImage_erases fs io device opts _
    · intro ht
      simp only [ht]
      exact ofErase_erases _ _
  | deviceNative =>
    dsimp only
    split <;> exact .failed (by simp [hm]) (ended_fails fs _ _ (by decide))
  | cryptoErase => exact .failed (by simp [hm]) (cryptoErase_fails fs device _)
  | none | other => exact .failed (by simp [hm]) (ended_fails fs _ _ (by decide))

theorem portableSanitize_routed (hdevice : portableCanHandle device = true) :
    Routed fs io device opts (portableSanitize fs io device opts result) := by
  rw [portableSanitize]
  cases hd : device.deviceType with
  | usbHdd => exact hddSanitize_routed fs io device opts _
  | usbSsd => exact ssdSanitize_routed fs io device opts _
  | usbFlash | sdCard =>
    dsimp only
    by_cases hm : opts.method = .blockErase
    · rw [if_neg (not_not_intro hm)]
      apply blockErase_routed fs io device opts _ hm
      · intro ht
        simp only [ht]
        exact testImage_erases fs io device opts _
      · intro ht
        simp only [ht]
        exact ofErase_erases _ _
    · rw [if_pos hm]
      exact .failed (fun h => hm h.1) (ended_fails fs _ _ (by decide))
  | unknown | hdd | sataSsd | nvmeSsd | other => simp [portableCanHandle, hd] at hdevice

/-- Every request is routed to an eraser or fails. -/
theorem sanitizerRun_routed : Routed fs io device opts (sanitizerRun fs io device opts) := by
  rw [sanitizerRun]
  split
  · exact hddSanitize_routed fs io device opts _
  · split
    · exact ssdSanitize_routed fs io device opts _
    · split
      · rename_i hdevice
        exact portableSanitize_routed fs io device opts _ hdevice
      · split
        · rename_i h
          exact .image opts.blockErase.progressCb h.2 h.1 (ofErase_erases _ _)
        · rename_i h
          exact .failed (fun hm => h ⟨hm.2, hm.1⟩) (ended_fails fs _ _ (by decide))

end Routes

end EraseCure.Sanitizers
