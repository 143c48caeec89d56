import EraseCure.DeviceGates
import EraseCure.Sanitizers

/-!
# Methods that are advertised

Each sanitizer says which methods it supports for a device, and so does the
dispatcher, which looks at the flags of the record alone. A method that is not
supported fails on a real device without a write, but so does every supported one
other than the block erase.
-/

set_option autoImplicit false

namespace EraseCure.AdvertisedMethods
open EraseCure.Devices EraseCure.FileSystems EraseCure.BlockEraseDevice EraseCure.DeviceGates
open EraseCure.Sanitizers

section Answers
variable (device : StorageDevice)

def sanitizerSupportsMethod : SanitizationMethod → Bool
  | .blockErase => device.capabilities.supportsBlockErase
  | .cryptoErase => device.capabilities.supportsCryptoErase
  | .deviceNative => device.capabilities.supportsDeviceNative
  | _ => false

def hddSupportsMethod : SanitizationMethod → Bool
  | .blockErase => !device.isReadOnly
  | .cryptoErase => device.capabilities.supportsCryptoErase
  | _ => false

def ssdSupportsMethod : SanitizationMethod → Bool
  | .blockErase => !device.isReadOnly
  | .cryptoErase => device.capabilities.supportsCryptoErase
  | .deviceNative => device.capabilities.supportsDeviceNative
  | _ => false

def portableSupportsMethod (method : SanitizationMethod) : Bool :=
  if method = .blockErase then !device.isReadOnly else false

/-- The answer of the sanitizer that a request for the device is routed to. -/
def routedSupports (method : SanitizationMethod) : Bool :=
  if hddCanHandle device then hddSupportsMethod device method
  else if ssdCanHandle device then ssdSupportsMethod device method
  else if portableCanHandle device then portableSupportsMethod device method
  else false

theorem routed_blockErase : routedSupports device .blockErase =
    ((hddCanHandle device || ssdCanHandle device || portableCanHandle device) &&
      !device.isReadOnly) := by
  rw [routedSupports, hddSupportsMethod, ssdSupportsMethod, portableSupportsMethod, if_pos rfl]
  cases hddCanHandle device with
  | true => rfl
  | false =>
    cases ssdCanHandle device with
    | true => rfl
    | false => cases portableCanHandle device <;> rfl

/-- The flags of a record may say what its sanitizer denies. -/
example : sanitizerSupportsMethod { stickRecord with
      deviceType := .hdd, capabilities := ⟨true, true, true⟩ } .deviceNative = true ∧
    routedSupports { stickRecord with
      deviceType := .hdd, capabilities := ⟨true, true, true⟩ } .deviceNative = false := by
  decide

end Answers

section Requests
variable (fs : FileSystem) (io : SanitizerIo) (device : StorageDevice)
  (opts : SanitizationOptions)

/-- Without a sanitizer for the device nothing is written outside of test mode. -/
theorem unhandled_fails (hreal : opts.testMode = false)
    (h : (hddCanHandle device || ssdCanHandle device || portableCanHandle device) = false) :
    Fails fs (sanitizerRun fs io device opts) := by
  rw [Bool.or_eq_false_iff, Bool.or_eq_false_iff] at h
  obtain ⟨⟨hhdd, hssd⟩, hportable⟩ := h
  rw [sanitizerRun, hhdd, hssd, hportable, hreal]
  exact ended_fails fs _ _ (by decide)

theorem readOnly_fails (run : SanitizeRun) (hro : device.isReadOnly = true)
    (h : Erases run (deviceRun fs io device opts)) : Fails fs run := by
  rcases permitted_or_untouched fs io.device device (beOpts opts) device.path.chars with
    hpermitted | ⟨hcode, hfs, hwrites⟩
  · rw [hpermitted.writable] at hro
    contradiction
  · exact ⟨h.2.1 ▸ hcode, h.1.trans hfs, h.2.2.2.trans hwrites⟩

/-- What the answers are worth: only a block erase can succeed or write, in test mode
or where the sanitizer for the device says that it supports it. -/
theorem fails_unless_supported
    (h : opts.method ≠ .blockErase ∨
      opts.testMode = false ∧ routedSupports device opts.method = false) :
    Fails fs (sanitizerRun fs io device opts) := by
  rcases sanitizerRun_routed fs io device opts with ⟨_, hmethod, htest, _⟩ |
    ⟨hmethod, hreal, herases⟩ | ⟨_, hfails⟩
  · rcases h with hother | ⟨hreal, _⟩
    · exact absurd hmethod hother
    · rw [htest] at hreal
      contradiction
  · have hsupports := (h.resolve_left (not_not_intro hmethod)).2
    rw [hmethod, routed_blockErase, Bool.and_eq_false_iff] at hsupports
    rcases hsupports with hunhandled | hro
    · exact unhandled_fails fs io device opts hreal hunhandled
    · exact readOnly_fails fs io device opts _ (by simpa using hro) herases
  · exact hfails

end Requests

end EraseCure.AdvertisedMethods
