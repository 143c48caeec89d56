import EraseCure.AtaIdentify

/-!
# NVMe admin commands

A command is handed to the driver as it is, with a buffer for its data. The
driver returns the status of the completion, and what IDENTIFY CONTROLLER
transfers is read at fixed bytes. A sanitize query reads nothing else.
-/

set_option autoImplicit false

namespace EraseCure.NvmeIdentify
open EraseCure.ErrorCodes EraseCure.FileSystems EraseCure.AtaPassthrough EraseCure.AtaIdentify

structure NvmeAdminCommand where
  opcode : UInt8
  nsid : UInt32
  cdw10 : UInt32
  cdw11 : UInt32
  cdw12 : UInt32
  cdw13 : UInt32
  cdw14 : UInt32
  cdw15 : UInt32
  hasBuffer : Bool
  dataLen : UInt32
  timeoutMs : UInt32

structure NvmeResult where
  status : UInt32
  result : UInt32
  success : Bool
  sct : UInt8
  sc : UInt8
  deriving DecidableEq

def nvmeAdminCmdInit : NvmeAdminCommand := ⟨0, 0, 0, 0, 0, 0, 0, 0, false, 0, 0⟩

/-- What the driver returns when the call does not fail: a value that is not
negative, and the data of the command. -/
structure NvmeReply where
  status : UInt32
  positive : status.toNat < 2^31
  result : UInt32
  data : Bytes

abbrev NvmeDriver := NvmeAdminCommand → Except IoctlFailure NvmeReply

def nvmeAdminExecute (ioctl : NvmeDriver) (cmd : NvmeAdminCommand) :
    Except ErasecureError (NvmeResult × Bytes) :=
  match ioctl cmd with
  | .error .accessDenied => .error .permissionDenied
  | .error .failed => .error .ioctlFailed
  | .ok reply =>
    .ok (⟨reply.status, reply.result, reply.status = 0, ((reply.status >>> 8) &&& 0x7).toUInt8,
      (reply.status &&& 0xFF).toUInt8⟩, reply.data.take cmd.dataLen.toNat)

def nvmeAdminExecutePath (outcome : OpenOutcome) (ioctl : NvmeDriver) (cmd : NvmeAdminCommand) :
    Except ErasecureError (NvmeResult × Bytes) :=
  match outcome with
  | .opened => nvmeAdminExecute ioctl cmd
  | .accessDenied => .error .permissionDenied
  | .failed => .error .openFailed

/-- The fields of a controller; a text is as its array holds it. -/
structure NvmeControllerData where
  model : Bytes
  serial : Bytes
  firmware : Bytes
  vid : UInt16
  ssvid : UInt16
  nn : UInt32
  sanicap : UInt8
  sanitizeCrypto : Bool
  sanitizeBlock : Bool
  sanitizeOverwrite : Bool
  formatSupported : Bool
  oacs : UInt16
  fna : UInt8

/-- The array is zero before. -/
def trimAscii (src : Bytes) (destSize : ℕ) : Bytes :=
  let copyLen := if src.length < destSize-1 then src.length else destSize-1
  stripSpaces copyLen (src.take copyLen++List.replicate (destSize-copyLen) 0)

def bytesFrom (buffer : Bytes) (first count : ℕ) : Bytes :=
  (List.range' first count).map (byteAt buffer)

def littleWord (buffer : Bytes) (i : ℕ) : UInt16 :=
  (byteAt buffer i).toUInt16 ||| (byteAt buffer (i+1)).toUInt16 <<< 8

def byteBit (b : UInt8) (i : ℕ) : Bool := b &&& UInt8.ofNat (2^i) ≠ 0

def controllerData (buf : Bytes) : NvmeControllerData :=
  { vid := littleWord buf 0
    ssvid := littleWord buf 2
    serial := trimAscii (bytesFrom buf 4 20) 21
    model := trimAscii (bytesFrom buf 24 40) 41
    firmware := trimAscii (bytesFrom buf 64 8) 9
    oacs := littleWord buf 256
    fna := byteAt buf 527
    sanicap := byteAt buf 328
    sanitizeCrypto := byteBit (byteAt buf 328) 2
    sanitizeBlock := byteBit (byteAt buf 328) 1
    sanitizeOverwrite := byteBit (byteAt buf 328) 0
    formatSupported := hasBit (littleWord buf 256) 1
    nn := (byteAt buf 516).toUInt32 ||| (byteAt buf 517).toUInt32 <<< 8 |||
      (byteAt buf 518).toUInt32 <<< 16 ||| (byteAt buf 519).toUInt32 <<< 24 }

def identifyController : NvmeAdminCommand :=
  { nvmeAdminCmdInit with
    opcode := 0x06
    cdw10 := 0x01
    hasBuffer := true
    dataLen := 4096 }

def nvmeIdentifyController (outcome : OpenOutcome) (ioctl : NvmeDriver) :
    Except ErasecureError NvmeControllerData :=
  match nvmeAdminExecutePath outcome ioctl identifyController with
  | .error e => .error e
  | .ok (result, buf) =>
    if result.success = true then .ok (controllerData buf) else .error .ioctlFailed

structure NvmeSanitizeCapabilities where
  canFormatNvm : Bool
  canFormatCryptoErase : Bool
  canSanitizeBlock : Bool
  canSanitizeOverwrite : Bool
  canSanitizeCrypto : Bool
  formatAllNs : Bool

def controllerCapabilities (ctrl : NvmeControllerData) : NvmeSanitizeCapabilities where
  canFormatNvm := ctrl.formatSupported
  canFormatCryptoErase := ctrl.formatSupported && byteBit ctrl.fna 2
  formatAllNs := byteBit ctrl.fna 0
  canSanitizeBlock := ctrl.sanitizeBlock
  canSanitizeOverwrite := ctrl.sanitizeOverwrite
  canSanitizeCrypto := ctrl.sanitizeCrypto

def nvmeSanitizeQuery (outcome : OpenOutcome) (ioctl : NvmeDriver) :
    Except ErasecureError NvmeSanitizeCapabilities :=
  match nvmeIdentifyController outcome ioctl with
  | .error e => .error e
  | .ok ctrl => .ok (controllerCapabilities ctrl)

section Bits
variable (buf : Bytes)

theorem byteBit_testBit (b : UInt8) (i : ℕ) (hi : i < 8) : byteBit b i = b.toNat.testBit i := by
  have hpow : (UInt8.ofNat (2^i)).toNat = 2^i :=
    Nat.mod_eq_of_lt (Nat.pow_lt_pow_right (by decide) hi)
  rw [byteBit, Bool.eq_iff_iff, decide_eq_true_eq, ne_eq, ← UInt8.toNat_inj, UInt8.toNat_and,
    hpow, Nat.and_two_pow]
  cases b.toNat.testBit i <;> simp

theorem littleWord_bit (i j : ℕ) (hj : j < 8) :
    hasBit (littleWord buf i) j = (byteAt buf i).toNat.testBit j := by
  rw [hasBit_testBit _ _ (by omega), littleWord, UInt16.toNat_or, UInt16.toNat_shiftLeft,
    UInt8.toNat_toUInt16, UInt8.toNat_toUInt16, Nat.testBit_or,
    show (8 : UInt16).toNat%16 = 8 from rfl, Nat.testBit_mod_two_pow, Nat.testBit_shiftLeft]
  simp [show ¬ 8 ≤ j by omega]

end Bits

end EraseCure.NvmeIdentify
