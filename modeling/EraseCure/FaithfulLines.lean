import EraseCure.AuditSessions
import EraseCure.CivilDates
import EraseCure.FlatObjects
import EraseCure.Manifests

/-!
# What a log line gives back

The audit log and the manifest write an object on a line of its own, and they put
the characters of their strings between quotes as they are.
-/

set_option autoImplicit false

namespace EraseCure.FaithfulLines
open EraseCure.CText EraseCure.ErrorCodes EraseCure.TextSearch EraseCure.AuditRecords
open EraseCure.AuditLog EraseCure.AuditLines EraseCure.AuditSessions EraseCure.CivilDates
open EraseCure.JsonTexts EraseCure.FlatObjects EraseCure.Manifests

def fieldKey : Field → Text
  | .hashed .caseId => "case_id".toList
  | .hashed .operationId => "operation_id".toList
  | .hashed .sequenceNumber => "sequence_number".toList
  | .deviceId => "device_id".toList
  | .hashed .devicePath => "device_path".toList
  | .hashed .deviceModel => "device_model".toList
  | .hashed .deviceSerial => "device_serial".toList
  | .hashed .deviceCapacityBytes => "device_capacity_bytes".toList
  | .hashed .deviceType => "device_type".toList
  | .hashed .transportType => "transport_type".toList
  | .hashed .method => "method".toList
  | .hashed .pattern => "pattern".toList
  | .hashed .passes => "passes".toList
  | .hashed .appVersion => "app_version".toList
  | .hashed .startTime => "start_time".toList
  | .hashed .endTime => "end_time".toList
  | .hashed .sanitizationResult => "sanitization_result".toList
  | .hashed .verificationResultCode => "verification_result_code".toList
  | .hashed .verificationPassed => "verification_passed".toList
  | .hashed .preHashSha256 => "pre_hash_sha256".toList
  | .hashed .postHashSha256 => "post_hash_sha256".toList
  | .hashed .previousRecordHash => "previous_record_hash".toList
  | .thisRecordHash => "this_record_hash".toList
  | .notes => "notes".toList

/-- What the line has to give back for a field. -/
def fieldScalar (r : AuditRecord) : Field → Scalar
  | .hashed .caseId => .text r.caseId.chars
  | .hashed .operationId => .text r.operationId.chars
  | .hashed .sequenceNumber => .integer r.sequenceNumber.toNat
  | .deviceId => .text r.deviceId.chars
  | .hashed .devicePath => .text r.devicePath.chars
  | .hashed .deviceModel => .text r.deviceModel.chars
  | .hashed .deviceSerial => .text r.deviceSerial.chars
  | .hashed .deviceCapacityBytes => .integer r.deviceCapacityBytes.toNat
  | .hashed .deviceType => .integer r.deviceType.code.toInt
  | .hashed .transportType => .integer r.transportType.code.toInt
  | .hashed .method => .integer r.method.code.toInt
  | .hashed .pattern => .integer r.pattern.code.toInt
  | .hashed .passes => .integer r.passes.toNat
  | .hashed .appVersion => .text r.appVersion.chars
  | .hashed .startTime => .text (timestampToIso8601 r.startTime)
  | .hashed .endTime => .text (timestampToIso8601 r.endTime)
  | .hashed .sanitizationResult => .integer r.sanitizationResult.code.toInt
  | .hashed .verificationResultCode => .integer r.verificationResultCode.code.toInt
  | .hashed .verificationPassed => .flag r.verificationPassed
  | .hashed .preHashSha256 => .text r.preHashSha256.chars
  | .hashed .postHashSha256 => .text r.postHashSha256.chars
  | .hashed .previousRecordHash => .text r.previousRecordHash.chars
  | .thisRecordHash => .text r.thisRecordHash.chars
  | .notes => .text r.notes.chars

def fieldMember (r : AuditRecord) (f : Field) : Text × Scalar := (fieldKey f, fieldScalar r f)

def metadataKey : MetadataField → Text
  | .uuid => "uuid".toList
  | .fileType => "file_type".toList
  | .sizeBytes => "size_bytes".toList
  | .sha256 => "sha256".toList
  | .confidence => "confidence".toList
  | .startBlock => "start_block".toList
  | .blockCount => "block_count".toList
  | .outputPath => "output_path".toList

def metadataScalar (r : RecoveredFileMetadata) : MetadataField → Scalar
  | .uuid => .text r.uuid.chars
  | .fileType => .text r.fileType.chars
  | .sizeBytes => .integer r.sizeBytes.toNat
  | .sha256 => .text r.sha256.chars
  | .confidence => .integer r.confidence.toNat
  | .startBlock => .integer r.startBlock.toNat
  | .blockCount => .integer r.blockCount.toNat
  | .outputPath => .text r.outputPath.chars

def metadataMember (r : RecoveredFileMetadata) (f : MetadataField) : Text × Scalar :=
  (metadataKey f, metadataScalar r f)

theorem field_joins (r : AuditRecord) : jsonOrder.IsChain (Joins jsonLabel (fieldMember r)) := by
  have h : jsonOrder.IsChain (Joins jsonLabel (fieldMember auditRecordInit)) := by decide +kernel
  refine h.imp (joins_congr jsonLabel (fieldMember auditRecordInit) (fieldMember r) (fun _ => rfl)
    fun f => ?_)
  cases f with
  | hashed f => cases f <;> simp only [fieldMember, fieldScalar, Scalar.quote]
  | deviceId | thisRecordHash | notes => simp only [fieldMember, fieldScalar, Scalar.quote]

theorem record_object (r : AuditRecord) :
    auditRecordJson r = objectWritten (jsonOrder.map (fieldMember r)) := by
  refine spell_object jsonLabel (jsonText r) (fieldMember r) (fun f => ?_) _ _ rfl (field_joins r)
    jsonEnd rfl
  cases f with
  | hashed f => cases f <;> rfl
  | deviceId | thisRecordHash | notes => rfl

theorem manifest_object (r : RecoveredFileMetadata) :
    manifestLine r = objectWritten (manifestOrder.map (metadataMember r)) := by
  refine spell_object manifestLabel (manifestText r) (metadataMember r) ?_ _ _ rfl ?_
    manifestEnd rfl
  · intro f
    cases f <;> rfl
  · repeat' constructor

/-- A text without quotes, backslashes and control characters, in UTF-8. -/
def Clean (t : Text) : Prop := Plain t ∧ utf8 t = true

/-- The record fits its buffer and stands on a line of its own, which gives back
every field and, for the years from 0 to 9999, both time stamps. -/
def RecordKept (r : AuditRecord) : Prop :=
  ∃ line, auditRecordToJson r 8192 = (line, (line.length : ℤ)) ∧
    (∀ log, auditLogAppendFile .done log r = (log++(line++['\n']), .ok)) ∧ '\n' ∉ line ∧
    decode line = some (.object ((jsonOrder.map (fieldMember r)).map memberJson)) ∧
    ∀ ts ∈ [r.startTime, r.endTime], 0 ≤ yearOf ts → yearOf ts ≤ 9999 →
      instantOf (timestampToIso8601 ts) = some ts.toInt

/-- The metadata of a recovered file stand on a line of their own, which gives back
every field. -/
def MetadataKept (r : RecoveredFileMetadata) : Prop :=
  ∃ line, (∀ manifest,
      recoveryOutputWriteManifest .done manifest r = (manifest++(line++['\n']), .ok)) ∧
    '\n' ∉ line ∧
    decode line = some (.object ((manifestOrder.map (metadataMember r)).map memberJson))

def recordTexts (r : AuditRecord) : List Text := stringFields r++hashFields r

def metadataTexts (r : RecoveredFileMetadata) : List Text :=
  [r.uuid.chars, r.fileType.chars, r.sha256.chars, r.outputPath.chars]

theorem timestamp_ascii (ts : Int64) : Ascii (timestampToIso8601 ts) := by
  have htwo : ∀ n, Ascii (twoDigits n) := by
    intro n c hc
    simp only [twoDigits, List.mem_cons, List.not_mem_nil, or_false] at hc
    rcases hc with rfl | rfl <;>
      exact digitChar_cases (fun c => c.toNat < 0x80) (by decide) (by decide) _
  have hsep : ∀ c : Char, c = '-' ∨ c = 'T' ∨ c = ':' ∨ c = 'Z' → c.toNat < 0x80 := by
    rintro c (rfl | rfl | rfl | rfl) <;> decide
  simp only [timestampToIso8601]
  split
  · intro c hc
    simp only [List.mem_append, List.mem_cons, List.not_mem_nil, or_false] at hc
    rcases hc with (((((h | h | h) | h | h) | h | h) | h | h) | h | h) | h
    all_goals first
      | exact signed_ascii _ c h
      | exact htwo _ c h
      | exact hsep c (by simp [h])
  · simp [Ascii]

theorem timestamp_clean (ts : Int64) : Clean (timestampToIso8601 ts) := by
  refine ⟨timestamp_plain ts, ?_⟩
  have h := utf8_ascii (timestampToIso8601 ts) [] (timestamp_ascii ts)
  rwa [List.append_nil] at h

def Kept (v : Scalar) : Prop := v.PlainText ∧ v.utf8Text = true

theorem kept_text (t : Text) : Kept (.text t) ↔ Clean t := Iff.rfl

theorem kept_integer (z : ℤ) : Kept (.integer z) := ⟨trivial, rfl⟩

theorem kept_flag (b : Bool) : Kept (.flag b) := ⟨trivial, rfl⟩

theorem record_clean (r : AuditRecord) :
    (∀ m ∈ jsonOrder.map (fieldMember r), Kept m.2) ↔ ∀ t ∈ recordTexts r, Clean t := by
  simp only [jsonOrder, List.map_cons, List.map_nil, List.forall_mem_cons, fieldMember,
    fieldScalar, kept_text, kept_integer, kept_flag, timestamp_clean, recordTexts, stringFields,
    hashFields, List.cons_append, List.nil_append, true_and, List.not_mem_nil, false_imp_iff,
    implies_true, and_true]
  -- the two orders differ in where the notes stand
  constructor
  · rintro ⟨h1, h2, h3, h4, h5, h6, h7, h8, h9, hprev, hthis, hnotes⟩
    exact ⟨h1, h2, h3, h4, h5, h6, h7, h8, h9, hnotes, hprev, hthis⟩
  · rintro ⟨h1, h2, h3, h4, h5, h6, h7, h8, h9, hnotes, hprev, hthis⟩
    exact ⟨h1, h2, h3, h4, h5, h6, h7, h8, h9, hprev, hthis, hnotes⟩

theorem fieldKey_plain (f : Field) : Plain (fieldKey f) ∧ Ascii (fieldKey f) := by
  cases f with
  | hashed f => cases f <;> decide
  | deviceId | thisRecordHash | notes => decide

theorem metadataKey_plain (f : MetadataField) : Plain (metadataKey f) ∧ Ascii (metadataKey f) := by
  cases f <;> decide

theorem metadata_clean (r : RecoveredFileMetadata) :
    (∀ m ∈ manifestOrder.map (metadataMember r), Kept m.2) ↔ ∀ t ∈ metadataTexts r, Clean t := by
  simp only [manifestOrder, List.map_cons, List.map_nil, List.forall_mem_cons, metadataMember,
    metadataScalar, kept_text, kept_integer, metadataTexts, true_and, List.not_mem_nil,
    false_imp_iff, implies_true]

section Lines
variable {ι : Type} (toMember : ι → Text × Scalar) (order : List ι) (hne : order ≠ [])
  (hkeys : ∀ f, Plain (toMember f).1 ∧ Ascii (toMember f).1)
include hne hkeys

/-- An object comes back from its line exactly when each of its values does. -/
theorem line_kept : ('\n' ∉ objectWritten (order.map toMember) ∧
    decode (objectWritten (order.map toMember)) =
      some (.object ((order.map toMember).map memberJson))) ↔
        ∀ m ∈ order.map toMember, Kept m.2 := by
  have hall : ∀ m ∈ order.map toMember, Plain m.1 ∧ Ascii m.1 :=
    List.forall_mem_map.mpr fun f _ => hkeys f
  have hdecoded := object_decoded (order.map toMember) (by simpa using hne) hall
  constructor
  · exact fun h => hdecoded.mp h.2
  · intro h
    exact ⟨object_line _ (fun m hm => (hall m hm).1) (fun m hm => (h m hm).1), hdecoded.mpr h⟩

end Lines

/-- The buffer holds every record. -/
theorem record_buffered (r : AuditRecord) :
    auditRecordToJson r 8192 = (auditRecordJson r, ((auditRecordJson r).length : ℤ)) := by
  have := json_length r
  rw [auditRecordToJson, if_neg (by decide), List.take_of_length_le (by omega)]

theorem record_kept (r : AuditRecord) : RecordKept r ↔ ∀ t ∈ recordTexts r, Clean t := by
  rw [← record_clean, ← line_kept (fieldMember r) jsonOrder (by decide) fieldKey_plain,
    ← record_object]
  constructor
  · rintro ⟨line, hbuf, _, hline, hdecode, _⟩
    obtain rfl := (Prod.mk.inj (hbuf.symm.trans (record_buffered r))).1
    exact ⟨hline, hdecode⟩
  · rintro ⟨hline, hdecode⟩
    exact ⟨auditRecordJson r, record_buffered r, fun log => append_done log r, hline, hdecode,
      fun ts _ => instantOf_timestamp ts⟩

theorem metadata_kept (r : RecoveredFileMetadata) :
    MetadataKept r ↔ ∀ t ∈ metadataTexts r, Clean t := by
  rw [← metadata_clean, ← line_kept (metadataMember r) manifestOrder (by decide)
    metadataKey_plain, ← manifest_object]
  constructor
  · rintro ⟨line, hwrite, hline, hdecode⟩
    have hsame := (congrArg Prod.fst (hwrite [])).symm
    obtain rfl : line = manifestLine r := List.append_cancel_right hsame
    exact ⟨hline, hdecode⟩
  · rintro ⟨hline, hdecode⟩
    exact ⟨manifestLine r, fun manifest => rfl, hline, hdecode⟩

/-- A line gives back what it was written for exactly when no string in it has a
quote, a backslash or a control character, and every one is UTF-8. -/
theorem lines_kept_iff (r : AuditRecord) (m : RecoveredFileMetadata) :
    (RecordKept r ↔ ∀ t ∈ recordTexts r, Clean t) ∧
      (MetadataKept m ↔ ∀ t ∈ metadataTexts m, Clean t) :=
  ⟨record_kept r, metadata_kept m⟩

def quotedRecord : AuditRecord := { auditRecordInit with notes := printed512 ['"'] }

def quotedMetadata : RecoveredFileMetadata :=
  ⟨printed37 [], printed32 [], 0, printed65 [], 0, 0, 0, printed512 ['"']⟩

theorem quote_not_kept : ¬ RecordKept quotedRecord ∧ ¬ MetadataKept quotedMetadata := by
  have hquote : ¬ Clean ['"'] := fun h => (h.1 '"' (by decide)).1 rfl
  constructor
  · exact fun h => hquote ((record_kept quotedRecord).mp h ['"'] (by decide))
  · exact fun h => hquote ((metadata_kept quotedMetadata).mp h ['"'] (by decide))

end EraseCure.FaithfulLines
