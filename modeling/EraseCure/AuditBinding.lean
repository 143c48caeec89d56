import EraseCure.AuditSessions

/-!
# What a record hash binds

Without collisions two records with one hash have one canonical text. When no
value holds the label after it the text determines every hashed field, but
never the device id and the notes, which do not enter it.
-/

set_option autoImplicit false

namespace EraseCure.AuditBinding
open EraseCure.CText EraseCure.Devices EraseCure.ErrorCodes EraseCure.TextSearch
open EraseCure.AuditRecords EraseCure.AuditSessions
open EraseCure.Hashing

def HashedAgree (a b : AuditRecord) : Prop := ∀ f, canonicalText a f = canonicalText b f

theorem decimal64 (m n : UInt64) (h : decimal m.toNat = decimal n.toNat) : m = n :=
  UInt64.toNat_inj.mp (decimal_injective h)

theorem decimal32 (m n : UInt32) (h : decimal m.toNat = decimal n.toNat) : m = n :=
  UInt32.toNat_inj.mp (decimal_injective h)

theorem signed32 (m n : Int32) (h : signedDecimal m.toInt = signedDecimal n.toInt) : m = n :=
  Int32.toInt_inj.mp (signed_injective h)

theorem signed64 (m n : Int64) (h : signedDecimal m.toInt = signedDecimal n.toInt) : m = n :=
  Int64.toInt_inj.mp (signed_injective h)

theorem flag_injective (p q : Bool)
    (h : signedDecimal (if p then 1 else 0) = signedDecimal (if q then 1 else 0)) : p = q := by
  cases p <;> cases q <;> first | rfl | exact absurd h (by decide)

/-- The hashed texts, the two unhashed strings and the hash are the record. -/
theorem record_agree (a b : AuditRecord) (h : HashedAgree a b) (hd : a.deviceId = b.deviceId)
    (hh : a.thisRecordHash = b.thisRecordHash) (hn : a.notes = b.notes) : a = b := by
  apply AuditRecord.ext
  case deviceId => exact hd
  case thisRecordHash => exact hh
  case notes => exact hn
  case caseId => exact CString.ext (h .caseId)
  case operationId => exact CString.ext (h .operationId)
  case devicePath => exact CString.ext (h .devicePath)
  case deviceModel => exact CString.ext (h .deviceModel)
  case deviceSerial => exact CString.ext (h .deviceSerial)
  case appVersion => exact CString.ext (h .appVersion)
  case preHashSha256 => exact CString.ext (h .preHashSha256)
  case postHashSha256 => exact CString.ext (h .postHashSha256)
  case previousRecordHash => exact CString.ext (h .previousRecordHash)
  case sequenceNumber => exact decimal64 _ _ (h .sequenceNumber)
  case deviceCapacityBytes => exact decimal64 _ _ (h .deviceCapacityBytes)
  case passes => exact decimal32 _ _ (h .passes)
  case startTime => exact signed64 _ _ (h .startTime)
  case endTime => exact signed64 _ _ (h .endTime)
  case deviceType => exact deviceType_injective (signed32 _ _ (h .deviceType))
  case transportType => exact transportType_injective (signed32 _ _ (h .transportType))
  case method => exact method_injective (signed32 _ _ (h .method))
  case pattern => exact pattern_injective (signed32 _ _ (h .pattern))
  case sanitizationResult => exact code_injective (signed32 _ _ (h .sanitizationResult))
  case verificationResultCode =>
    exact code_injective (signed32 _ _ (h .verificationResultCode))
  case verificationPassed => exact flag_injective _ _ (h .verificationPassed)

theorem labels_barred : ∀ f ∈ canonicalOrder.tail,
    ∃ body, canonicalLabel f = '|'::body ∧ '|' ∉ body := by
  have hall : ∀ f ∈ canonicalOrder.tail,
      canonicalLabel f = '|'::(canonicalLabel f).tail ∧ '|' ∉ (canonicalLabel f).tail := by
    decide
  exact fun f hf => ⟨_, hall f hf⟩

theorem mem_canonicalOrder (f : HashedField) : f ∈ canonicalOrder := by
  cases f <;> decide

/-- Equal canonical texts of separated values come from equal values. -/
theorem canonical_separated (a b : AuditRecord)
    (ha : Separated canonicalLabel (canonicalText a) canonicalOrder)
    (hb : Separated canonicalLabel (canonicalText b) canonicalOrder) :
    canonical a = canonical b ↔ HashedAgree a b := by
  constructor
  · intro h f
    exact spell_separated '|' canonicalLabel _ _ canonicalOrder labels_barred ha hb h f
      (mem_canonicalOrder f)
  · intro h
    exact spell_congr _ _ _ _ (fun f _ => h f)

theorem hash_canonical (evp : Evp) (a b a' b' : AuditRecord) (pa pb : Text)
    (ha : auditRecordFinalize evp a pa = (a', .ok))
    (hb : auditRecordFinalize evp b pb = (b', .ok))
    (hinj : Set.InjOn evp {canonical a', canonical b'}) :
    a'.thisRecordHash = b'.thisRecordHash ↔ canonical a' = canonical b' := by
  obtain ⟨_, ⟨d, hd, hda⟩, _⟩ := finalize_digest evp a a' pa ha
  obtain ⟨_, ⟨e, he, heb⟩, _⟩ := finalize_digest evp b b' pb hb
  constructor
  · intro h
    have hde : d = e := hex_injective (by rw [← hda, ← heb, h])
    exact hinj (by simp) (by simp) (by rw [hd, he, hde])
  · intro h
    rw [h, he] at hd
    obtain rfl := Except.ok.inj hd
    exact CString.ext (by rw [hda, heb])

/-- The hash binds the stored record, when the values are separated, exactly when records
that agree on the hashed fields agree on the device id and the notes; whatever the
values, exactly when records of one canonical text agree on every field. -/
theorem hash_binds_iff (evp : Evp) (a b a' b' : AuditRecord) (pa pb : Text)
    (ha : auditRecordFinalize evp a pa = (a', .ok))
    (hb : auditRecordFinalize evp b pb = (b', .ok))
    (hinj : Set.InjOn evp {canonical a', canonical b'}) :
    (Separated canonicalLabel (canonicalText a') canonicalOrder →
        Separated canonicalLabel (canonicalText b') canonicalOrder →
        ((a'.thisRecordHash = b'.thisRecordHash → a' = b') ↔
          (HashedAgree a' b' → a'.deviceId = b'.deviceId ∧ a'.notes = b'.notes))) ∧
      ((a'.thisRecordHash = b'.thisRecordHash → a' = b') ↔
        (canonical a' = canonical b' →
          HashedAgree a' b' ∧ a'.deviceId = b'.deviceId ∧ a'.notes = b'.notes)) := by
  have hc := hash_canonical evp a b a' b' pa pb ha hb hinj
  have hiff : (a'.thisRecordHash = b'.thisRecordHash → a' = b') ↔
      (canonical a' = canonical b' →
        HashedAgree a' b' ∧ a'.deviceId = b'.deviceId ∧ a'.notes = b'.notes) := by
    constructor
    · intro h he
      rw [h (hc.mpr he)]
      exact ⟨fun _ => rfl, rfl, rfl⟩
    · intro h hh
      obtain ⟨hf, hd, hn⟩ := h (hc.mp hh)
      exact record_agree a' b' hf hd hh hn
  refine ⟨fun hsa hsb => ?_, hiff⟩
  rw [hiff, canonical_separated a' b' hsa hsb]
  exact ⟨fun h hf => (h hf).2, fun h hf => ⟨hf, h hf⟩⟩

def otherDevice (r : AuditRecord) : AuditRecord :=
  { r with deviceId := printed256 "ata-DISK_2".toList }

theorem otherDevice_finalized :
    auditRecordFinalize tamperTestEvp (otherDevice tamperTest) [] =
      (otherDevice tamperTestFirst, .ok) := by
  have hother : auditRecordFinalize tamperTestEvp (otherDevice tamperTest) [] =
      Prod.map otherDevice id (auditRecordFinalize tamperTestEvp tamperTest []) := by
    have hc : canonical { otherDevice tamperTest with previousRecordHash := printed65 [] } =
        canonical { tamperTest with previousRecordHash := printed65 [] } := rfl
    simp only [auditRecordFinalize, hc]
    split
    · split <;> rfl
    · rfl
  rw [hother, tamperTest_first]
  rfl

theorem hash_binds_device :
    HashedAgree tamperTestFirst (otherDevice tamperTestFirst) ∧
      ((tamperTestFirst.thisRecordHash = (otherDevice tamperTestFirst).thisRecordHash →
        tamperTestFirst = otherDevice tamperTestFirst) ↔
      (HashedAgree tamperTestFirst (otherDevice tamperTestFirst) →
        tamperTestFirst.deviceId = (otherDevice tamperTestFirst).deviceId ∧
          tamperTestFirst.notes = (otherDevice tamperTestFirst).notes)) := by
  have hinj : Set.InjOn tamperTestEvp
      {canonical tamperTestFirst, canonical (otherDevice tamperTestFirst)} :=
    Set.injOn_pair.mpr fun _ => rfl
  exact ⟨fun _ => rfl, (hash_binds_iff tamperTestEvp tamperTest (otherDevice tamperTest)
    tamperTestFirst (otherDevice tamperTestFirst) [] [] tamperTest_first otherDevice_finalized
    hinj).1 (by decide) (by decide)⟩

/-- Records of one hash are equal, the digest not colliding on their texts. -/
def HashBinds : Prop :=
  ∀ (evp : Evp) (a b a' b' : AuditRecord) (pa pb : Text),
    auditRecordFinalize evp a pa = (a', .ok) → auditRecordFinalize evp b pb = (b', .ok) →
    Set.InjOn evp {canonical a', canonical b'} →
    a'.thisRecordHash = b'.thisRecordHash → a' = b'

/-- Two records that differ in the device id have one hash. -/
theorem device_id_unbound : ¬ HashBinds := by
  intro h
  have heq := h tamperTestEvp tamperTest (otherDevice tamperTest) tamperTestFirst
    (otherDevice tamperTestFirst) [] [] tamperTest_first otherDevice_finalized
    (by
      have hc : canonical (otherDevice tamperTestFirst) = canonical tamperTestFirst := rfl
      simp [hc]) rfl
  exact absurd heq (by decide)

end EraseCure.AuditBinding
