import EraseCure.AtaCompletions
import EraseCure.CapabilityRefreshes
import EraseCure.RecoveryAfterErase

/-!
# Encryption keys

A device counts as encrypted by its record or by the header of a LUKS volume at
its beginning. What the record says after any run of refreshes follows from the
findings: a crypto erase that was found once is never forgotten, though it is
refused later. A drive that answers as the standard says is never identified, and
the first byte of an erase takes the header away.
-/

set_option autoImplicit false

namespace EraseCure.KeyManagement
open EraseCure.CText EraseCure.Devices EraseCure.ErrorCodes EraseCure.FileSystems
open EraseCure.CheckedReads EraseCure.AtaPassthrough EraseCure.AtaCompletions
open EraseCure.AtaIdentify EraseCure.NvmeIdentify EraseCure.DeviceScans
open EraseCure.CapabilityRefreshes EraseCure.ErasePasses EraseCure.BlockEraseImage
open EraseCure.BlockEraseDevice EraseCure.Sanitizers EraseCure.TornErases
open EraseCure.RecoveryAfterErase

inductive KeyMgmtCapability where
  | sedDetected | sedNotDetected | detectionFailed | notImplemented
  deriving DecidableEq

inductive EncryptedVolumeType where
  | none | sedHardware | luks1 | luks2 | unknown
  deriving DecidableEq

def luksMagic : Bytes := [0x4C, 0x55, 0x4B, 0x53, 0xBA, 0xBE]

/-- Whether the path can be opened, and how many bytes are read at most. -/
structure LuksIo where
  opened : Bool
  delivered : ℕ

def LuksIo.calm : LuksIo := ⟨true, 16⟩

def luksVolume (hdr : Bytes) : EncryptedVolumeType :=
  if hdr.length < 8 then .none
  else if luksMagic.isPrefixOf hdr then
    let ver := (byteAt hdr 6).toUInt16 <<< 8 ||| (byteAt hdr 7).toUInt16
    if ver = 1 then .luks1 else if ver = 2 then .luks2 else .unknown
  else .none

def keyMgmtDetectLuks (fs : FileSystem) (io : LuksIo) (path : Text) :
    ErasecureError × EncryptedVolumeType :=
  match fs.stat path with
  | none => (.openFailed, .none)
  | some file =>
    if !io.opened then (.openFailed, .none)
    else (.ok, luksVolume ((file.content.take 16).take io.delivered))

def keyMgmtQueryDevice (fs : FileSystem) (io : LuksIo) (dev : ProbedDevice) :
    KeyMgmtCapability :=
  if dev.capabilities.supportsCryptoErase || dev.isSelfEncrypting ||
      dev.encryptionStatus = .encrypted then .sedDetected
  else if dev.path.chars ≠ [] then
    match keyMgmtDetectLuks fs io dev.path.chars with
    | (.ok, volType) => if volType ≠ .none then .sedDetected else .sedNotDetected
    | _ => .sedNotDetected
  else .sedNotDetected

section Volumes
variable (fs : FileSystem) (io : LuksIo) (path : Text)

/-- The path can be read, and what is read begins with the header of a volume. -/
def LuksFound : Prop := ∃ file, fs.stat path = some file ∧ io.opened = true ∧
  8 ≤ io.delivered ∧ 8 ≤ file.content.length ∧ luksMagic <+: file.content

theorem luksVolume_found (content : Bytes) (n : ℕ) :
    luksVolume ((content.take 16).take n) ≠ .none ↔
      8 ≤ n ∧ 8 ≤ content.length ∧ luksMagic <+: content := by
  have hlen : ((content.take 16).take n).length = min n (min 16 content.length) := by
    rw [List.length_take, List.length_take]
  by_cases hshort : ((content.take 16).take n).length < 8
  · rw [luksVolume, if_pos hshort]
    constructor
    · exact fun h => absurd rfl h
    · rintro ⟨hn, hc, _⟩
      omega
  · have hheads : luksMagic.isPrefixOf ((content.take 16).take n) = true ↔
        luksMagic <+: content := by
      rw [List.isPrefixOf_iff_prefix, List.take_take, List.prefix_take_iff]
      have hsix : luksMagic.length = 6 := rfl
      constructor
      · exact fun h => h.1
      · exact fun h => ⟨h, by omega⟩
    rw [luksVolume, if_neg hshort]
    by_cases hm : luksMagic <+: content
    · rw [if_pos (hheads.mpr hm)]
      dsimp only
      constructor
      · exact fun _ => ⟨by omega, by omega, hm⟩
      · intro _
        split_ifs <;> decide
    · rw [if_neg (mt hheads.mp hm)]
      exact ⟨fun h => absurd rfl h, fun h => absurd h.2.2 hm⟩

theorem detectLuks_found : ((keyMgmtDetectLuks fs io path).1 = .ok ∧
    (keyMgmtDetectLuks fs io path).2 ≠ .none) ↔ LuksFound fs io path := by
  unfold keyMgmtDetectLuks LuksFound
  cases hs : fs.stat path with
  | none => simp
  | some file =>
    cases ho : io.opened with
    | false => simp
    | true => simp [luksVolume_found]

end Volumes

/-- A device counts as encrypted by its record or by the header of its volume. -/
theorem queryDevice_detected (fs : FileSystem) (io : LuksIo) (dev : ProbedDevice) :
    keyMgmtQueryDevice fs io dev = .sedDetected ↔
      (dev.capabilities.supportsCryptoErase = true ∨ dev.isSelfEncrypting = true ∨
        dev.encryptionStatus = .encrypted) ∨
      dev.path.chars ≠ [] ∧ LuksFound fs io dev.path.chars := by
  rw [← detectLuks_found, keyMgmtQueryDevice]
  by_cases hrecord : dev.capabilities.supportsCryptoErase || dev.isSelfEncrypting ||
      decide (dev.encryptionStatus = .encrypted)
  · rw [if_pos hrecord]
    simp only [Bool.or_eq_true, decide_eq_true_eq, or_assoc] at hrecord
    exact ⟨fun _ => Or.inl hrecord, fun _ => rfl⟩
  · rw [if_neg hrecord]
    simp only [Bool.or_eq_true, decide_eq_true_eq, or_assoc] at hrecord
    by_cases hpath : dev.path.chars ≠ []
    · rw [if_pos hpath]
      rcases keyMgmtDetectLuks fs io dev.path.chars with ⟨code, volType⟩
      cases code <;> simp [hrecord, hpath]
    · rw [if_neg hpath]
      simp [hrecord, hpath]

section Histories
variable (sysfs : Sysfs) (path : Text) (fuel : ℕ) (ios : List RefreshIo)

/-- The last finding has a crypto erase. -/
def CryptoNow : Prop :=
  ∃ f, (findings fuel (infoOf sysfs path) ios).getLast? = some f ∧ f.crypto = true

/-- Some finding had one. -/
def CryptoOnce : Prop := ∃ f ∈ findings fuel (infoOf sysfs path) ios, f.crypto = true

theorem now_once (h : CryptoNow sysfs path fuel ios) : CryptoOnce sysfs path fuel ios := by
  obtain ⟨f, hlast, hf⟩ := h
  exact ⟨f, List.mem_of_getLast? hlast, hf⟩

theorem last_crypto :
    (((findings fuel (infoOf sysfs path) ios).getLast?).getD noFinding).crypto = true ↔
      CryptoNow sysfs path fuel ios := by
  unfold CryptoNow
  cases (findings fuel (infoOf sysfs path) ios).getLast? with
  | none => simp [noFinding]
  | some f => simp

theorem info_path_nonempty : (infoOf sysfs path).path.chars ≠ [] := by
  have hslash : ∀ t : Text, (printed256 ('/'::t)).chars ≠ [] := by
    intro t h
    have hchars : (printed256 ('/'::t)).chars = (cstr ('/'::t)).take 255 := rfl
    rw [hchars, cstr, List.takeWhile_cons_of_pos (by decide)] at h
    exact absurd h (by simp)
  have hpath : (infoOf sysfs path).path =
      if named "/dev/" path then printed256 path else printed256 ("/dev/".toList++path) := by
    unfold infoOf deviceGetInfo deviceClassify
    dsimp only
    split_ifs <;> rfl
  rw [hpath]
  split_ifs with hdev
  · obtain ⟨rest, rfl⟩ := List.isPrefixOf_iff_prefix.mp hdev
    exact hslash _
  · exact hslash _

/-- What a record has after a run, in terms of the findings. -/
structure Recorded (dev : ProbedDevice) : Prop where
  flags : Shows dev (((findings fuel (infoOf sysfs path) ios).getLast?).getD noFinding)
  now_iff : dev.capabilities.supportsCryptoErase = true ↔ CryptoNow sysfs path fuel ios
  once_iff : dev.encryptionStatus = .encrypted ↔ CryptoOnce sysfs path fuel ios
  status : dev.encryptionStatus = .encrypted ∨ dev.encryptionStatus = .unknown
  path_eq : dev.path = (infoOf sysfs path).path

theorem refreshes_recorded (hfuel : senseBufLen < fuel) :
    ∃ dev, refreshes fuel ios (unprobed (infoOf sysfs path)) = .ok dev ∧
      Recorded sysfs path fuel ios dev := by
  obtain ⟨dev, hrun, hsame, hrep⟩ := refreshes_represent fuel hfuel ios _ _
    (info_represents sysfs path)
  rw [learned_all] at hrep
  refine ⟨dev, hrun, hrep.flags, ?_, ?_, ?_, (identity_kind _ _ hsame).1⟩
  · rw [hrep.flags.crypto]
    exact last_crypto sysfs path fuel ios
  · rw [hrep.encryption, CryptoOnce, ← List.any_eq_true, Bool.false_or]
    unfold findings
    split <;> simp_all
  · rw [hrep.encryption]
    split
    · exact Or.inl rfl
    · exact Or.inr rfl

section Recorded
variable (dev : ProbedDevice) (h : Recorded sysfs path fuel ios dev)
include h

theorem recorded_execute :
    (cryptoEraseExecute dev.toStorageDevice = .notImplemented ∧ CryptoNow sysfs path fuel ios) ∨
    (cryptoEraseExecute dev.toStorageDevice = .unsupported ∧ CryptoOnce sysfs path fuel ios ∧
      ¬ CryptoNow sysfs path fuel ios) ∨
    cryptoEraseExecute dev.toStorageDevice = .notEncrypted ∧
      ¬ CryptoOnce sysfs path fuel ios := by
  rw [← h.now_iff, ← h.once_iff]
  unfold cryptoEraseExecute cryptoEraseQuery
  by_cases hnow : dev.capabilities.supportsCryptoErase = true
  · exact Or.inl ⟨by simp [hnow], hnow⟩
  · rcases h.status with hencrypted | hunknown
    · exact Or.inr (Or.inl ⟨by simp [hnow, hencrypted], hencrypted, hnow⟩)
    · exact Or.inr (Or.inr ⟨by simp [hnow, hunknown], by simp [hunknown]⟩)

theorem recorded_detected (fs : FileSystem) (io : LuksIo) :
    keyMgmtQueryDevice fs io dev = .sedDetected ↔
      CryptoOnce sysfs path fuel ios ∨ LuksFound fs io (infoOf sysfs path).path.chars := by
  have hself : dev.isSelfEncrypting = dev.capabilities.supportsCryptoErase :=
    h.flags.selfEncrypting.trans h.flags.crypto.symm
  have honce := now_once sysfs path fuel ios
  have hne := info_path_nonempty sysfs path
  rw [queryDevice_detected, hself, h.path_eq, h.now_iff, h.once_iff]
  constructor
  · rintro ((hnow | hnow | honce) | ⟨_, hluks⟩)
    · exact Or.inl (honce hnow)
    · exact Or.inl (honce hnow)
    · exact Or.inl honce
    · exact Or.inr hluks
  · rintro (honce | hluks)
    · exact Or.inl (Or.inr (Or.inr honce))
    · exact Or.inr ⟨hne, hluks⟩

end Recorded

/-- A crypto erase is at most not implemented, and that only while the last finding
has one; after that the record is refused as unsupported, for it still counts as
encrypted. A device that ever was found so is detected for good, and any other one
by the header of its volume. -/
theorem key_history (hfuel : senseBufLen < fuel) :
    ∃ dev, refreshes fuel ios (unprobed (infoOf sysfs path)) = .ok dev ∧
      (cryptoEraseExecute dev.toStorageDevice = .notImplemented ↔
        CryptoNow sysfs path fuel ios) ∧
      (cryptoEraseExecute dev.toStorageDevice = .unsupported ↔
        CryptoOnce sysfs path fuel ios ∧ ¬ CryptoNow sysfs path fuel ios) ∧
      (cryptoEraseExecute dev.toStorageDevice = .notEncrypted ↔
        ¬ CryptoOnce sysfs path fuel ios) ∧
      ∀ fs io, keyMgmtQueryDevice fs io dev = .sedDetected ↔
        CryptoOnce sysfs path fuel ios ∨ LuksFound fs io (infoOf sysfs path).path.chars := by
  obtain ⟨dev, hrun, h⟩ := refreshes_recorded sysfs path fuel ios hfuel
  have honce := now_once sysfs path fuel ios
  refine ⟨dev, hrun, ?_⟩
  rcases recorded_execute sysfs path fuel ios dev h with ⟨hcode, hnow⟩ | ⟨hcode, hpast, hnow⟩ |
    ⟨hcode, hnever⟩
  · exact ⟨by simp [hcode, hnow], by simp [hcode, hnow], by simp [hcode, honce hnow],
      recorded_detected sysfs path fuel ios dev h⟩
  · exact ⟨by simp [hcode, hnow], by simp [hcode, hpast, hnow], by simp [hcode, hpast],
      recorded_detected sysfs path fuel ios dev h⟩
  · exact ⟨by simp [hcode, mt honce hnever], by simp [hcode, hnever], by simp [hcode, hnever],
      recorded_detected sysfs path fuel ios dev h⟩

/-- A drive that answers every command as the standard says is never identified. -/
theorem sat_unidentified (io : RefreshIo) (hsat : Sat io.sgIo) : identifiedAta io fuel = none := by
  unfold identifiedAta ataExecutePath
  cases io.ataOpen with
  | accessDenied => rfl
  | failed => rfl
  | opened =>
    dsimp only
    unfold ataExecute
    cases hreply : io.sgIo (requestOf identifyCommand) with
    | error e => cases e <;> rfl
    | ok reply =>
      have hstatus : reply.status ≠ 0 := by
        rw [sat_status io.sgIo hsat identifyCommand reply hreply]
        decide
      dsimp only
      rcases parseSense reply fuel with e | result
      · rfl
      · rw [ok_bind]
        by_cases hs : result.success = true
        · rw [if_pos ⟨hstatus, hs⟩]
          rfl
        · rw [if_neg (fun hboth => hs hboth.2)]
          exact if_neg hs

/-- Whatever a SATA drive can do, no run of refreshes finds it when the drive answers
as the standard says: no flag is ever set, a crypto erase is refused as not
encrypted, and only the header of a volume counts as encryption. -/
theorem standard_drive_missed (hfuel : senseBufLen < fuel)
    (hsata : (infoOf sysfs path).transportType = .sata) (hsat : ∀ io ∈ ios, Sat io.sgIo) :
    ∃ dev, refreshes fuel ios (unprobed (infoOf sysfs path)) = .ok dev ∧ Shows dev noFinding ∧
      cryptoEraseExecute dev.toStorageDevice = .notEncrypted ∧
      ∀ fs io, keyMgmtQueryDevice fs io dev = .sedDetected ↔
        LuksFound fs io (infoOf sysfs path).path.chars := by
  obtain ⟨dev, hrun, h⟩ := refreshes_recorded sysfs path fuel ios hfuel
  have hata : asksAta (unprobed (infoOf sysfs path)) = true := by
    rw [asksAta, show (unprobed (infoOf sysfs path)).transportType = .sata from hsata]
    rfl
  have hnone : findings fuel (infoOf sysfs path) ios = [] := by
    rw [findings, List.filterMap_eq_nil_iff]
    intro io hio
    rw [findingOf, if_pos hata, sat_unidentified fuel io (hsat io hio)]
    rfl
  have hnever : ¬ CryptoOnce sysfs path fuel ios := by
    rw [CryptoOnce, hnone]
    simp
  have hflags := h.flags
  rw [hnone] at hflags
  refine ⟨dev, hrun, hflags, ?_, fun fs io => ?_⟩
  · rcases recorded_execute sysfs path fuel ios dev h with ⟨_, hnow⟩ | ⟨_, honce, _⟩ | ⟨hcode, _⟩
    · exact absurd (now_once sysfs path fuel ios hnow) hnever
    · exact absurd honce hnever
    · exact hcode
  · rw [recorded_detected sysfs path fuel ios dev h fs io]
    exact or_iff_right hnever

end Histories

/-- A controller that had a crypto erase and has none any more. -/
theorem key_history_lost : ∃ dev,
    refreshes 33 [controllerIo 4, controllerIo 0]
        (unprobed (infoOf noSysfs "/dev/nvme0n1".toList)) = .ok dev ∧
      cryptoEraseExecute dev.toStorageDevice = .unsupported ∧
      ∀ fs io, keyMgmtQueryDevice fs io dev = .sedDetected := by
  obtain ⟨dev, hrun, _, hunsupported, _, hdetected⟩ := key_history noSysfs
    "/dev/nvme0n1".toList 33 [controllerIo 4, controllerIo 0] (by decide)
  have hfindings : findings 33 (infoOf noSysfs "/dev/nvme0n1".toList)
      [controllerIo 4, controllerIo 0] =
        [⟨false, false, true, false, true, true⟩, noFinding] := by decide
  have honce : CryptoOnce noSysfs "/dev/nvme0n1".toList 33 [controllerIo 4, controllerIo 0] := by
    rw [CryptoOnce, hfindings]
    exact ⟨_, List.mem_cons_self, rfl⟩
  refine ⟨dev, hrun, hunsupported.mpr ⟨honce, ?_⟩,
    fun fs io => (hdetected fs io).mpr (Or.inl honce)⟩
  rw [CryptoNow, hfindings]
  rintro ⟨f, hlast, hf⟩
  obtain rfl := Option.some.inj hlast
  exact absurd hf (by decide)

def standardIo : RefreshIo where
  sysfs := noSysfs
  ataOpen := .opened
  sgIo := fun _ => .ok (replyWith 0x50)
  nvmeOpen := .failed
  nvme := fun _ => .error .failed

theorem standard_drive_missed_good : ∃ dev,
    refreshes 33 [standardIo, standardIo] (unprobed (infoOf noSysfs "/dev/sda".toList)) = .ok dev ∧
      Shows dev noFinding ∧ cryptoEraseExecute dev.toStorageDevice = .notEncrypted := by
  obtain ⟨dev, hrun, hflags, hcode, _⟩ := standard_drive_missed noSysfs "/dev/sda".toList 33
    [standardIo, standardIo] (by decide) (by decide) (by
      intro io hio
      obtain rfl : io = standardIo := by simpa using hio
      exact replyWith_sat 0x50)
  exact ⟨dev, hrun, hflags, hcode⟩

section Erased

/-- A content whose first byte is one of a pattern has no header. -/
theorem blank_unlocked (b : UInt8) (hb : b = 0x00 ∨ b = 0xFF) (limit : ℕ) (hlimit : 0 < limit)
    (content : Bytes) (h : Blank b limit content) : ¬ luksMagic <+: content := by
  rintro ⟨rest, rfl⟩
  have hfirst : (0x4C : UInt8) = b := Option.some.inj (h 0 hlimit)
  rcases hb with rfl | rfl <;> exact absurd hfirst (by decide)

theorem unlocked_none (fs : FileSystem) (luks : LuksIo) (path : Text) (node : ℕ)
    (hres : fs.resolve path = some node) (h : ¬ luksMagic <+: (fs.object node).content) :
    (keyMgmtDetectLuks fs luks path).2 = .none := by
  have hvolume : luksVolume (((fs.object node).content.take 16).take luks.delivered) = .none := by
    by_contra hfound
    exact h ((luksVolume_found _ _).mp hfound).2.2
  rw [keyMgmtDetectLuks, FileSystem.stat, hres]
  dsimp only [Option.map_some]
  rw [hvolume]
  split <;> rfl

variable (fs : FileSystem) (opts : BlockEraseOptions) (b : UInt8)
  (hb : patternByte opts.pattern = some b)
include hb

/-- One byte is enough: after any run of an eraser with zeros or ones that reports a
byte or a pass, also one that fails, no path to the target shows a volume. Of an image
the byte has to have come to the file. -/
theorem erased_unlocked (path : Text) (node : ℕ) (hres : fs.resolve path = some node) :
    (∀ (drained : ℕ → ℕ) (io : ImageIo) (content : Bytes), fs.object node = .regular content →
      0 < bufferedEnd drained (blockEraseImageBuffered drained fs io path opts) content.length →
      ∀ luks name,
        (blockEraseImageBuffered drained fs io path opts).fs.resolve name = some node →
        (keyMgmtDetectLuks (blockEraseImageBuffered drained fs io path opts).fs luks name).2 =
          .none) ∧
    ∀ (io : DeviceIo) (device : StorageDevice) (confirmation : Text),
      device.path.chars = path → DevicePasses.Keeps (fs.object node) →
      0 < blankEnd (blockEraseDevice fs io device opts confirmation) (deviceCapacity io device) →
      ∀ luks name,
        (blockEraseDevice fs io device opts confirmation).fs.resolve name = some node →
        (keyMgmtDetectLuks (blockEraseDevice fs io device opts confirmation).fs luks name).2 =
          .none := by
  have hbyte := pattern_byte opts.pattern b hb
  refine ⟨fun drained io content hfile hcount luks name hname => ?_,
    fun io device confirmation hpath hkeeps hcount luks name hname => ?_⟩
  · exact unlocked_none _ luks name node hname (blank_unlocked b hbyte _ hcount _
      (image_blank drained fs io path opts b hb node content hres hfile))
  · subst hpath
    exact unlocked_none _ luks name node hname (blank_unlocked b hbyte _ hcount _
      (device_blank fs io device opts confirmation b hb node hres hkeeps))

end Erased

def luksImage : Bytes := luksMagic++[0x00, 0x02]

/-- No pass of the erase is flushed, and one byte of it has come to the file. -/
theorem erased_unlocked_stopped :
    (keyMgmtDetectLuks (soleObject "a".toList (.regular luksImage)) LuksIo.calm "a".toList).2 =
        .luks2 ∧
      (keyMgmtDetectLuks (blockEraseImageBuffered (fun _ => 1)
        (soleObject "a".toList (.regular luksImage)) neverFlushedIo "a".toList
        blockEraseOptionsInit).fs LuksIo.calm "a".toList).2 = .none :=
  ⟨by decide, (erased_unlocked (soleObject "a".toList (.regular luksImage))
    blockEraseOptionsInit 0x00 rfl "a".toList 0 rfl).1 (fun _ => 1) neverFlushedIo luksImage rfl
      (by decide) LuksIo.calm "a".toList rfl⟩

theorem constant_unlocked (b : UInt8) (hb : b = 0x00 ∨ b = 0xFF) (content : Bytes)
    (h : ∀ x ∈ content, x = b) : ¬ luksMagic <+: content := by
  rintro ⟨rest, rfl⟩
  have hfirst : (0x4C : UInt8) = b := h 0x4C List.mem_cons_self
  rcases hb with rfl | rfl <;> exact absurd hfirst (by decide)

theorem sanitizer_resolve (fs : FileSystem) (io : SanitizerIo) (device : StorageDevice)
    (opts : SanitizationOptions) :
    (sanitizerRun fs io device opts).fs.resolve = fs.resolve := by
  rcases sanitizerRun_routed fs io device opts with
    ⟨cb, _, _, hfs, _⟩ | ⟨_, _, hfs, _⟩ | ⟨_, hfails⟩
  · rw [hfs]
    rcases blockEraseImage_frame fs io.image device.path.chars
      { opts.blockErase with progressCb := cb } with hsame | ⟨node, content, new, _, _, _, hstore⟩
    · rw [hsame]
    · rw [hstore, store_resolve]
  · rw [hfs, deviceRun]
    rcases blockEraseDevice_spec fs io.device device (beOpts opts) device.path.chars with
      ⟨code, message, hrun, _⟩ | ⟨node, out, ws, _, hrun, _⟩
    · rw [hrun]
      rfl
    · rw [hrun]
      rfl
  · rw [hfails.2.1]

/-- After a successful run of the sanitizer with zeros or ones on a record from any run
of refreshes the header of a volume is gone, and the device is still detected as
encrypted exactly when some finding had a crypto erase. -/
theorem sanitized_keys (sysfs : Sysfs) (path : Text) (fuel : ℕ) (ios : List RefreshIo)
    (hfuel : senseBufLen < fuel) : ∃ dev,
    refreshes fuel ios (unprobed (infoOf sysfs path)) = .ok dev ∧
    ∀ (fs : FileSystem) (io : SanitizerIo) (opts : SanitizationOptions) (b : UInt8),
      patternByte opts.blockErase.pattern = some b →
      (opts.testMode = false → ∀ node, fs.resolve dev.path.chars = some node →
        io.device.blkgetsize = some (fs.object node).content.length) →
      (sanitizerRun fs io dev.toStorageDevice opts).code = .ok →
      ∀ luks, keyMgmtQueryDevice (sanitizerRun fs io dev.toStorageDevice opts).fs luks dev =
        .sedDetected ↔ CryptoOnce sysfs path fuel ios := by
  obtain ⟨dev, hrun, h⟩ := refreshes_recorded sysfs path fuel ios hfuel
  refine ⟨dev, hrun, fun fs io opts b hb hsize hok luks => ?_⟩
  obtain ⟨node, hres, hall⟩ := sanitized_constant fs b io dev.toStorageDevice opts hb hsize hok
  have hlocked := constant_unlocked b (pattern_byte _ b hb) _ hall
  rw [recorded_detected sysfs path fuel ios dev h]
  refine or_iff_left ?_
  rintro ⟨file, hstat, _, _, _, hheader⟩
  rw [FileSystem.stat, sanitizer_resolve, ← h.path_eq, hres] at hstat
  obtain rfl := Option.some.inj hstat
  exact hlocked hheader

/-- A stick with the header of a volume: it is detected before the erase only. -/
theorem sanitized_keys_stick : ∃ dev,
    refreshes 33 [] (unprobed (infoOf noSysfs "/dev/sda".toList)) = .ok dev ∧
      keyMgmtQueryDevice (soleObject "/dev/sda".toList (.blockDevice luksImage)) LuksIo.calm dev =
        .sedDetected ∧
      keyMgmtQueryDevice (sanitizerRun (soleObject "/dev/sda".toList (.blockDevice luksImage))
          (SanitizerIo.calm 8) dev.toStorageDevice
          { sanitizerOptionsInit with testMode := false }).fs LuksIo.calm dev ≠ .sedDetected := by
  obtain ⟨dev, hrun, h⟩ := sanitized_keys noSysfs "/dev/sda".toList 33 [] (by decide)
  obtain rfl : unprobed (infoOf noSysfs "/dev/sda".toList) = dev := Except.ok.inj hrun
  have hnever : ¬ CryptoOnce noSysfs "/dev/sda".toList 33 [] := by
    rintro ⟨f, hf, _⟩
    exact absurd hf List.not_mem_nil
  refine ⟨_, rfl, by decide, fun hdetected => hnever ?_⟩
  exact (h (soleObject "/dev/sda".toList (.blockDevice luksImage)) (SanitizerIo.calm 8)
    { sanitizerOptionsInit with testMode := false } 0x00 rfl (fun _ _ _ => rfl)
    (by decide) LuksIo.calm).mp hdetected

end EraseCure.KeyManagement
