import EraseCure.CText
import EraseCure.ErrorCodes

/-!
# Storage devices and the options of an erase

The enumerations keep their machine values, which the audit record prints,
and one constructor for the values without a name.
-/

set_option autoImplicit false

namespace EraseCure.Devices
open EraseCure.CText

inductive DeviceType where
  | unknown | hdd | sataSsd | nvmeSsd | usbHdd | usbSsd | usbFlash | sdCard
  | other (code : Int32) (unnamed : code < 0 ∨ 7 < code)
  deriving DecidableEq

def DeviceType.code : DeviceType → Int32
  | .unknown => 0 | .hdd => 1 | .sataSsd => 2 | .nvmeSsd => 3
  | .usbHdd => 4 | .usbSsd => 5 | .usbFlash => 6 | .sdCard => 7
  | .other code _ => code

inductive TransportType where
  | unknown | sata | nvme | usb | sd
  | other (code : Int32) (unnamed : code < 0 ∨ 4 < code)
  deriving DecidableEq

def TransportType.code : TransportType → Int32
  | .unknown => 0 | .sata => 1 | .nvme => 2 | .usb => 3 | .sd => 4
  | .other code _ => code

inductive SanitizationMethod where
  | none | blockErase | cryptoErase | deviceNative
  | other (code : Int32) (unnamed : code < 0 ∨ 3 < code)
  deriving DecidableEq

def SanitizationMethod.code : SanitizationMethod → Int32
  | .none => 0 | .blockErase => 1 | .cryptoErase => 2 | .deviceNative => 3
  | .other code _ => code

inductive ErasePattern where
  | zero | one | random
  | other (code : Int32) (unnamed : code < 0 ∨ 2 < code)
  deriving DecidableEq

def ErasePattern.code : ErasePattern → Int32
  | .zero => 0 | .one => 1 | .random => 2
  | .other code _ => code

inductive VerifyMode where
  | none | sample | full
  | other (code : Int32) (unnamed : code < 0 ∨ 2 < code)
  deriving DecidableEq

inductive EncryptionStatus where
  | unknown | notEncrypted | encrypted | locked
  | other (code : Int32) (unnamed : code < 0 ∨ 3 < code)
  deriving DecidableEq

structure DeviceCapabilities where
  supportsBlockErase : Bool
  supportsCryptoErase : Bool
  supportsDeviceNative : Bool

/-- The part of a device record that the sanitizers read. -/
structure StorageDevice where
  path : CString 256
  capacityBytes : ℕ
  deviceType : DeviceType
  transportType : TransportType
  isReadOnly : Bool
  encryptionStatus : EncryptionStatus
  capabilities : DeviceCapabilities

theorem deviceType_injective : Function.Injective DeviceType.code := by
  intro a b h
  cases a <;> cases b <;> grind [DeviceType.code]

theorem transportType_injective : Function.Injective TransportType.code := by
  intro a b h
  cases a <;> cases b <;> grind [TransportType.code]

theorem method_injective : Function.Injective SanitizationMethod.code := by
  intro a b h
  cases a <;> cases b <;> grind [SanitizationMethod.code]

theorem pattern_injective : Function.Injective ErasePattern.code := by
  intro a b h
  cases a <;> cases b <;> grind [ErasePattern.code]

end EraseCure.Devices
