import Mathlib.Data.List.Basic

/-!
# Error codes

The named codes of the library and, as a variable of enumeration type may
hold any machine integer, the remaining values.
-/

set_option autoImplicit false

namespace EraseCure.ErrorCodes

def errorCodes : List Int32 :=
  [0, -1, -2, -3, -4, -5, -6, -10, -11, -12, -13, -14, -15, -16, -20, -30, -31, -32, -33,
   -40, -41, -50, -51, -52, -60, -61, -70, -71, -72, -73, -80, -81, -82, -83, -84, -85, -86,
   -87, -90, -91, -92, -93, -94, -100, -101, -102, -103, -104, -105, -106, -107, -108]

inductive ErasecureError where
  | ok | generic | invalidArg | nullPtr | notImplemented | unsupported | overflow
  | io | openFailed | readFailed | writeFailed | seekFailed | syncFailed | statFailed
  | alloc
  | deviceNotFound | deviceReadOnly | deviceScanFail | notADevice
  | realDevicePath | safetyBlocked
  | crypto | hashFailed | keyUnavailable
  | verifyFailed | patternMismatch
  | audit | dbOpen | dbExec | chainTampered
  | permissionDenied | deviceBusy | deviceMounted | timeout | cancelled
  | identityChanged | confirmation | ioctlFailed
  | pathTraversal | symlinkAttack | dangerousPath | dirNotEmpty | cycleDetected
  | evidenceMismatch | evidenceModified | checkpointInvalid | checkpointVersion
  | validationFailed | queueFull | queueEmpty | notFound | alreadyExists
  | other (code : Int32) (unnamed : code ∉ errorCodes)
  deriving DecidableEq

def ErasecureError.code : ErasecureError → Int32
  | .ok => 0 | .generic => -1 | .invalidArg => -2 | .nullPtr => -3
  | .notImplemented => -4 | .unsupported => -5 | .overflow => -6
  | .io => -10 | .openFailed => -11 | .readFailed => -12 | .writeFailed => -13
  | .seekFailed => -14 | .syncFailed => -15 | .statFailed => -16
  | .alloc => -20
  | .deviceNotFound => -30 | .deviceReadOnly => -31 | .deviceScanFail => -32
  | .notADevice => -33
  | .realDevicePath => -40 | .safetyBlocked => -41
  | .crypto => -50 | .hashFailed => -51 | .keyUnavailable => -52
  | .verifyFailed => -60 | .patternMismatch => -61
  | .audit => -70 | .dbOpen => -71 | .dbExec => -72 | .chainTampered => -73
  | .permissionDenied => -80 | .deviceBusy => -81 | .deviceMounted => -82
  | .timeout => -83 | .cancelled => -84 | .identityChanged => -85
  | .confirmation => -86 | .ioctlFailed => -87
  | .pathTraversal => -90 | .symlinkAttack => -91 | .dangerousPath => -92
  | .dirNotEmpty => -93 | .cycleDetected => -94
  | .evidenceMismatch => -100 | .evidenceModified => -101 | .checkpointInvalid => -102
  | .checkpointVersion => -103 | .validationFailed => -104 | .queueFull => -105
  | .queueEmpty => -106 | .notFound => -107 | .alreadyExists => -108
  | .other code _ => code

def namedErrors : List ErasecureError :=
  [.ok, .generic, .invalidArg, .nullPtr, .notImplemented, .unsupported, .overflow,
   .io, .openFailed, .readFailed, .writeFailed, .seekFailed, .syncFailed, .statFailed,
   .alloc, .deviceNotFound, .deviceReadOnly, .deviceScanFail, .notADevice,
   .realDevicePath, .safetyBlocked, .crypto, .hashFailed, .keyUnavailable,
   .verifyFailed, .patternMismatch, .audit, .dbOpen, .dbExec, .chainTampered,
   .permissionDenied, .deviceBusy, .deviceMounted, .timeout, .cancelled,
   .identityChanged, .confirmation, .ioctlFailed, .pathTraversal, .symlinkAttack,
   .dangerousPath, .dirNotEmpty, .cycleDetected, .evidenceMismatch, .evidenceModified,
   .checkpointInvalid, .checkpointVersion, .validationFailed, .queueFull, .queueEmpty,
   .notFound, .alreadyExists]

theorem named_codes : namedErrors.map ErasecureError.code = errorCodes := rfl

def namedError (n : Int32) : Option ErasecureError :=
  namedErrors.find? (fun e => e.code = n)

theorem named_or_other (e : ErasecureError) :
    e ∈ namedErrors ∨ ∃ n h, e = .other n h := by
  cases e with
  | other n h => exact Or.inr ⟨n, h, rfl⟩
  | _ => exact Or.inl (by decide)

theorem namedError_named (e : ErasecureError) (he : e ∈ namedErrors) :
    namedError e.code = some e := by
  have hall : ∀ e ∈ namedErrors, namedError e.code = some e := by decide
  exact hall e he

theorem namedError_other (n : Int32) (h : n ∉ errorCodes) : namedError n = none := by
  rw [namedError, List.find?_eq_none]
  intro e he hc
  rw [← named_codes] at h
  exact h (List.mem_map.mpr ⟨e, he, of_decide_eq_true hc⟩)

/-- The named codes are distinct, and no other value repeats one of them. -/
theorem code_injective : Function.Injective ErasecureError.code := by
  intro a b h
  rcases named_or_other a with ha | ⟨m, hm, rfl⟩ <;>
    rcases named_or_other b with hb | ⟨n, hn, rfl⟩
  · have := namedError_named a ha
    rw [h, namedError_named b hb] at this
    exact (Option.some.inj this).symm
  · have := namedError_named a ha
    rw [h, ErasecureError.code, namedError_other n hn] at this
    contradiction
  · have := namedError_named b hb
    rw [← h, ErasecureError.code, namedError_other m hm] at this
    contradiction
  · obtain rfl : m = n := h
    rfl

end EraseCure.ErrorCodes
