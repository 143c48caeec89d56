import EraseCure.Devices
import EraseCure.Hashing
import EraseCure.TextSearch

/-!
# Audit records

Finalising a record stores the previous hash, writes the hashed fields as
labelled text and stores the hexadecimal digest of that text. The JSON line
writes all fields of the record in a different order and partly in another
form.
-/

set_option autoImplicit false

namespace EraseCure.AuditRecords
open EraseCure.CText EraseCure.Devices EraseCure.ErrorCodes EraseCure.TextSearch
open EraseCure.Hashing

@[ext]
structure AuditRecord where
  caseId : CString 64
  operationId : CString 64
  sequenceNumber : UInt64
  deviceId : CString 256
  devicePath : CString 256
  deviceModel : CString 64
  deviceSerial : CString 64
  deviceCapacityBytes : UInt64
  deviceType : DeviceType
  transportType : TransportType
  method : SanitizationMethod
  pattern : ErasePattern
  passes : UInt32
  appVersion : CString 32
  startTime : Int64
  endTime : Int64
  sanitizationResult : ErasecureError
  verificationResultCode : ErasecureError
  verificationPassed : Bool
  preHashSha256 : CString 65
  postHashSha256 : CString 65
  previousRecordHash : CString 65
  thisRecordHash : CString 65
  notes : CString 512
  deriving DecidableEq

def appVersionText : Text := "0.1.0-dev".toList

/-- `audit_record_init`: all bytes zero but the version. -/
def auditRecordInit : AuditRecord where
  caseId := printed64 []
  operationId := printed64 []
  sequenceNumber := 0
  deviceId := printed256 []
  devicePath := printed256 []
  deviceModel := printed64 []
  deviceSerial := printed64 []
  deviceCapacityBytes := 0
  deviceType := .unknown
  transportType := .unknown
  method := .none
  pattern := .zero
  passes := 0
  appVersion := printed32 appVersionText
  startTime := 0
  endTime := 0
  sanitizationResult := .ok
  verificationResultCode := .ok
  verificationPassed := false
  preHashSha256 := printed65 []
  postHashSha256 := printed65 []
  previousRecordHash := printed65 []
  thisRecordHash := printed65 []
  notes := printed512 []

/-- The fields that enter the canonical text, in its order. -/
inductive HashedField where
  | caseId | operationId | sequenceNumber | devicePath | deviceModel | deviceSerial
  | deviceCapacityBytes | deviceType | transportType | method | pattern | passes
  | startTime | endTime | sanitizationResult | verificationResultCode
  | verificationPassed | preHashSha256 | postHashSha256 | appVersion
  | previousRecordHash
  deriving DecidableEq

inductive Field where
  | hashed (f : HashedField)
  | deviceId | thisRecordHash | notes
  deriving DecidableEq

def canonicalOrder : List HashedField :=
  [.caseId, .operationId, .sequenceNumber, .devicePath, .deviceModel, .deviceSerial,
   .deviceCapacityBytes, .deviceType, .transportType, .method, .pattern, .passes,
   .startTime, .endTime, .sanitizationResult, .verificationResultCode,
   .verificationPassed, .preHashSha256, .postHashSha256, .appVersion,
   .previousRecordHash]

def canonicalLabel : HashedField → Text
  | .caseId => "case_id=".toList
  | .operationId => "|op_id=".toList
  | .sequenceNumber => "|seq=".toList
  | .devicePath => "|dev_path=".toList
  | .deviceModel => "|model=".toList
  | .deviceSerial => "|serial=".toList
  | .deviceCapacityBytes => "|capacity=".toList
  | .deviceType => "|dev_type=".toList
  | .transportType => "|transport=".toList
  | .method => "|method=".toList
  | .pattern => "|pattern=".toList
  | .passes => "|passes=".toList
  | .startTime => "|start=".toList
  | .endTime => "|end=".toList
  | .sanitizationResult => "|sanitize_result=".toList
  | .verificationResultCode => "|verify_result=".toList
  | .verificationPassed => "|verify_passed=".toList
  | .preHashSha256 => "|pre_hash=".toList
  | .postHashSha256 => "|post_hash=".toList
  | .appVersion => "|app_version=".toList
  | .previousRecordHash => "|prev_hash=".toList

def canonicalText (r : AuditRecord) : HashedField → Text
  | .caseId => r.caseId.chars
  | .operationId => r.operationId.chars
  | .sequenceNumber => decimal r.sequenceNumber.toNat
  | .devicePath => r.devicePath.chars
  | .deviceModel => r.deviceModel.chars
  | .deviceSerial => r.deviceSerial.chars
  | .deviceCapacityBytes => decimal r.deviceCapacityBytes.toNat
  | .deviceType => signedDecimal r.deviceType.code.toInt
  | .transportType => signedDecimal r.transportType.code.toInt
  | .method => signedDecimal r.method.code.toInt
  | .pattern => signedDecimal r.pattern.code.toInt
  | .passes => decimal r.passes.toNat
  | .startTime => signedDecimal r.startTime.toInt
  | .endTime => signedDecimal r.endTime.toInt
  | .sanitizationResult => signedDecimal r.sanitizationResult.code.toInt
  | .verificationResultCode => signedDecimal r.verificationResultCode.code.toInt
  | .verificationPassed => signedDecimal (if r.verificationPassed then 1 else 0)
  | .preHashSha256 => r.preHashSha256.chars
  | .postHashSha256 => r.postHashSha256.chars
  | .appVersion => r.appVersion.chars
  | .previousRecordHash => r.previousRecordHash.chars

def canonical (r : AuditRecord) : Text :=
  spell canonicalLabel (canonicalText r) canonicalOrder

/-- `audit_record_finalize`: the record as it leaves the function, and the
returned code. A null previous hash is the empty one. -/
def auditRecordFinalize (evp : Evp) (record : AuditRecord) (prevHash : Text) :
    AuditRecord × ErasecureError :=
  let r := { record with previousRecordHash := printed65 prevHash }
  if (canonical r).length < 4096 then
    match hashSha256Buffer evp (canonical r) with
    | .error e => (r, e)
    | .ok d =>
      ({ r with thisRecordHash := printed65 (hashDigestToHex d) }, .ok)
  else (r, .overflow)

/-- Year, month and day of a day number counted from 1970-01-01 in the
Gregorian calendar, from years that begin in March. -/
def civilDate (days : ℤ) : ℤ × ℕ × ℕ :=
  let z := days+719468
  let era := z / 146097
  let doe := (z % 146097).toNat
  let yoe := (doe-doe/1460+doe/36524-doe/146096)/365
  let doy := doe-(365*yoe+yoe/4-yoe/100)
  let mp := (5*doy+2)/153
  let month := if mp < 10 then mp+3 else mp-9
  (era*400+yoe+(if month ≤ 2 then 1 else 0), month, doy-(153*mp+2)/5+1)

/-- `gmtime` gives no broken-down time when the year does not fit an `int`. -/
def timestampToIso8601 (ts : Int64) : Text :=
  let days := ts.toInt / 86400
  let secs := (ts.toInt % 86400).toNat
  let (year, month, day) := civilDate days
  if -2147483648 ≤ year-1900 ∧ year-1900 ≤ 2147483647 then
    signedDecimal year ++ '-'::twoDigits month ++ '-'::twoDigits day++
      'T'::twoDigits (secs/3600) ++ ':'::twoDigits (secs/60%60)++
      ':'::twoDigits (secs%60)++['Z']
  else "0000-00-00T00:00:00Z".toList

example : timestampToIso8601 951827696 = "2000-02-29T12:34:56Z".toList := by decide

def jsonOrder : List Field :=
  [.hashed .caseId, .hashed .operationId, .hashed .sequenceNumber, .deviceId,
   .hashed .devicePath, .hashed .deviceModel, .hashed .deviceSerial,
   .hashed .deviceCapacityBytes, .hashed .deviceType, .hashed .transportType,
   .hashed .method, .hashed .pattern, .hashed .passes, .hashed .appVersion,
   .hashed .startTime, .hashed .endTime, .hashed .sanitizationResult,
   .hashed .verificationResultCode, .hashed .verificationPassed,
   .hashed .preHashSha256, .hashed .postHashSha256, .hashed .previousRecordHash,
   .thisRecordHash, .notes]

/-- What the format string writes between two values. -/
def jsonLabel : Field → Text
  | .hashed .caseId => "\x7b\"case_id\":\"".toList
  | .hashed .operationId => "\",\"operation_id\":\"".toList
  | .hashed .sequenceNumber => "\",\"sequence_number\":".toList
  | .deviceId => ",\"device_id\":\"".toList
  | .hashed .devicePath => "\",\"device_path\":\"".toList
  | .hashed .deviceModel => "\",\"device_model\":\"".toList
  | .hashed .deviceSerial => "\",\"device_serial\":\"".toList
  | .hashed .deviceCapacityBytes => "\",\"device_capacity_bytes\":".toList
  | .hashed .deviceType => ",\"device_type\":".toList
  | .hashed .transportType => ",\"transport_type\":".toList
  | .hashed .method => ",\"method\":".toList
  | .hashed .pattern => ",\"pattern\":".toList
  | .hashed .passes => ",\"passes\":".toList
  | .hashed .appVersion => ",\"app_version\":\"".toList
  | .hashed .startTime => "\",\"start_time\":\"".toList
  | .hashed .endTime => "\",\"end_time\":\"".toList
  | .hashed .sanitizationResult => "\",\"sanitization_result\":".toList
  | .hashed .verificationResultCode => ",\"verification_result_code\":".toList
  | .hashed .verificationPassed => ",\"verification_passed\":".toList
  | .hashed .preHashSha256 => ",\"pre_hash_sha256\":\"".toList
  | .hashed .postHashSha256 => "\",\"post_hash_sha256\":\"".toList
  | .hashed .previousRecordHash => "\",\"previous_record_hash\":\"".toList
  | .thisRecordHash => "\",\"this_record_hash\":\"".toList
  | .notes => "\",\"notes\":\"".toList

def jsonEnd : Text := "\"\x7d".toList

def jsonText (r : AuditRecord) : Field → Text
  | .hashed .startTime => timestampToIso8601 r.startTime
  | .hashed .endTime => timestampToIso8601 r.endTime
  | .hashed .verificationPassed =>
    if r.verificationPassed then "true".toList else "false".toList
  | .hashed f => canonicalText r f
  | .deviceId => r.deviceId.chars
  | .thisRecordHash => r.thisRecordHash.chars
  | .notes => r.notes.chars

def jsonLine (text : Field → Text) : Text := spell jsonLabel text jsonOrder++jsonEnd

/-- What `audit_record_to_json` formats before the buffer cuts it. -/
def auditRecordJson (r : AuditRecord) : Text := jsonLine (jsonText r)

def auditRecordToJson (r : AuditRecord) (bufLen : ℕ) : Text × ℤ :=
  if bufLen = 0 then ([], -1)
  else ((auditRecordJson r).take (bufLen-1), (auditRecordJson r).length)

end EraseCure.AuditRecords
