import EraseCure.DeviceScans
import EraseCure.IdentifiedDrives
import EraseCure.NvmeIdentify

/-!
# The capabilities of a device

A refresh asks the drive what it can do, by IDENTIFY DEVICE for a SATA record
and by IDENTIFY CONTROLLER for an NVMe one, and overwrites the flags of the
record when the drive answers. A finding is what an answer says. After any run
of refreshes the flags are those of the last finding, and the record counts as
encrypted for good once a finding had a crypto erase.
-/

set_option autoImplicit false

namespace EraseCure.CapabilityRefreshes
open EraseCure.CText EraseCure.Devices EraseCure.ErrorCodes EraseCure.FileSystems
open EraseCure.CheckedReads EraseCure.AtaPassthrough EraseCure.AtaIdentify
open EraseCure.IdentifiedDrives EraseCure.NvmeIdentify EraseCure.DeviceScans

structure AtaSanitizeCapabilities where
  canSecurityErase : Bool
  canEnhancedErase : Bool
  canSanitizeOverwrite : Bool
  canSanitizeBlockErase : Bool
  canSanitizeCrypto : Bool
  isFrozen : Bool
  isLocked : Bool
  normalEraseMinutes : UInt16
  enhancedEraseMinutes : UInt16

def sanitizeCapabilities (idData : AtaIdentifyData) : AtaSanitizeCapabilities :=
  let canSecurityErase := idData.securitySupported && !idData.securityFrozen
  { isFrozen := idData.securityFrozen
    isLocked := idData.securityLocked
    canSecurityErase := canSecurityErase
    canEnhancedErase := canSecurityErase && idData.enhancedEraseSupported
    canSanitizeOverwrite := idData.sanitizeSupported && idData.sanitizeOverwrite
    canSanitizeBlockErase := idData.sanitizeSupported && idData.sanitizeBlockErase
    canSanitizeCrypto := idData.sanitizeSupported && idData.sanitizeCryptoScramble
    normalEraseMinutes := idData.eraseTimeNormal
    enhancedEraseMinutes := idData.eraseTimeEnhanced }

def ataSanitizeQuery (outcome : OpenOutcome) (sgIo : SgRequest → Except IoctlFailure SgReply)
    (fuel : ℕ) : Checked (Except ErasecureError AtaSanitizeCapabilities) := do
  let identified ← ataIdentifyDevice outcome sgIo fuel
  match identified with
  | .error e => return .error e
  | .ok idData => return .ok (sanitizeCapabilities idData)

/-- A device with the flags that only a refresh sets. -/
structure ProbedDevice extends ScannedDevice where
  isSelfEncrypting : Bool
  ataSecureEraseSupported : Bool
  ataEnhancedEraseSupported : Bool
  nvmeSanitizeSupported : Bool
  nvmeFormatSupported : Bool

def unprobed (dev : ScannedDevice) : ProbedDevice := ⟨dev, false, false, false, false, false⟩

structure RefreshIo where
  sysfs : Sysfs
  ataOpen : OpenOutcome
  sgIo : SgRequest → Except IoctlFailure SgReply
  nvmeOpen : OpenOutcome
  nvme : NvmeDriver

def refreshAta (dev : ProbedDevice) (ataCaps : AtaSanitizeCapabilities) : ProbedDevice :=
  { dev with
    ataSecureEraseSupported := ataCaps.canSecurityErase
    ataEnhancedEraseSupported := ataCaps.canEnhancedErase
    isSelfEncrypting := ataCaps.canSanitizeCrypto
    capabilities := { dev.capabilities with
      supportsDeviceNative := ataCaps.canSecurityErase || ataCaps.canSanitizeBlockErase ||
        ataCaps.canSanitizeOverwrite
      supportsCryptoErase := ataCaps.canSanitizeCrypto }
    encryptionStatus := if ataCaps.canSanitizeCrypto then .encrypted else dev.encryptionStatus }

def refreshNvme (dev : ProbedDevice) (nvmeCaps : NvmeSanitizeCapabilities) : ProbedDevice :=
  let nvmeSanitizeSupported := nvmeCaps.canSanitizeBlock || nvmeCaps.canSanitizeOverwrite ||
    nvmeCaps.canSanitizeCrypto
  let supportsCryptoErase := nvmeCaps.canFormatCryptoErase || nvmeCaps.canSanitizeCrypto
  { dev with
    nvmeSanitizeSupported := nvmeSanitizeSupported
    nvmeFormatSupported := nvmeCaps.canFormatNvm
    isSelfEncrypting := supportsCryptoErase
    capabilities := { dev.capabilities with
      supportsDeviceNative := nvmeSanitizeSupported || nvmeCaps.canFormatNvm
      supportsCryptoErase := supportsCryptoErase }
    encryptionStatus := if supportsCryptoErase then .encrypted else dev.encryptionStatus }

def asksAta (dev : ProbedDevice) : Bool :=
  dev.transportType = .sata || dev.deviceType = .hdd || dev.deviceType = .sataSsd

def asksNvme (dev : ProbedDevice) : Bool :=
  dev.transportType = .nvme || dev.deviceType = .nvmeSsd

def deviceName (path : Text) : Text := if named "/dev/" path then path.drop 5 else path

/-- The attribute is read anew; a refresh that cannot read it keeps the flag. -/
def refreshReadOnly (sysfs : Sysfs) (dev : ProbedDevice) : ProbedDevice :=
  let isReadOnly := ((sysfsReadUint32 sysfs (deviceName dev.path.chars) "/ro").map (· != 0)).getD
    dev.isReadOnly
  { dev with
    isReadOnly := isReadOnly
    capabilities := { dev.capabilities with supportsBlockErase := !isReadOnly } }

def deviceRefreshCapabilities (io : RefreshIo) (dev : ProbedDevice) (fuel : ℕ) :
    Checked (ErasecureError × ProbedDevice) := do
  let dev := refreshReadOnly io.sysfs dev
  if asksAta dev then
    let queried ← ataSanitizeQuery io.ataOpen io.sgIo fuel
    match queried with
    | .ok ataCaps => return (.ok, refreshAta dev ataCaps)
    | .error _ => return (.ok, dev)
  else if asksNvme dev then
    match nvmeSanitizeQuery io.nvmeOpen io.nvme with
    | .ok nvmeCaps => return (.ok, refreshNvme dev nvmeCaps)
    | .error _ => return (.ok, dev)
  else return (.ok, dev)

def refreshes (fuel : ℕ) : List RefreshIo → ProbedDevice → Checked ProbedDevice
  | [], dev => return dev
  | io::ios, dev => do
    let refreshed ← deviceRefreshCapabilities io dev fuel
    refreshes fuel ios refreshed.2

structure Finding where
  secureErase : Bool
  enhancedErase : Bool
  sanitize : Bool
  format : Bool
  native : Bool
  crypto : Bool
  deriving DecidableEq

def noFinding : Finding := ⟨false, false, false, false, false, false⟩

/-- What the words of IDENTIFY DEVICE say to a reader that takes the word for
sanitizing as valid in one state of its upper bits: one of these is the flag of
the block erase, and the other one, for overwriting, is then not set. -/
def ataFinding (buffer : Bytes) : Finding :=
  let bit := fun i j => (wordValue buffer i).testBit j
  let valid := bit 59 14 && !bit 59 15 && bit 59 12
  let secureErase := bit 82 1 && !bit 128 3
  { secureErase := secureErase
    enhancedErase := secureErase && bit 128 5
    sanitize := false
    format := false
    native := secureErase || valid
    crypto := valid && bit 59 13 }

/-- What the bytes of IDENTIFY CONTROLLER say. -/
def nvmeFinding (buffer : Bytes) : Finding :=
  let bit := fun i j => (byteAt buffer i).toNat.testBit j
  let sanitize := bit 328 0 || bit 328 1 || bit 328 2
  { secureErase := false
    enhancedErase := false
    sanitize := sanitize
    format := bit 256 1
    native := sanitize || bit 256 1
    crypto := bit 256 1 && bit 527 2 || bit 328 2 }

/-- The flags of a record are those of a finding. -/
structure Shows (dev : ProbedDevice) (f : Finding) : Prop where
  secureErase : dev.ataSecureEraseSupported = f.secureErase
  enhancedErase : dev.ataEnhancedEraseSupported = f.enhancedErase
  sanitize : dev.nvmeSanitizeSupported = f.sanitize
  format : dev.nvmeFormatSupported = f.format
  native : dev.capabilities.supportsDeviceNative = f.native
  crypto : dev.capabilities.supportsCryptoErase = f.crypto
  selfEncrypting : dev.isSelfEncrypting = f.crypto

section Answers
variable (io : RefreshIo) (fuel : ℕ)

def identifiedAta : Option Bytes :=
  match ataExecutePath io.ataOpen io.sgIo identifyCommand fuel with
  | .ok (.ok (result, buffer)) => if result.success = true then some buffer else none
  | _ => none

def identifiedNvme : Option Bytes :=
  match nvmeAdminExecutePath io.nvmeOpen io.nvme identifyController with
  | .ok (result, buffer) => if result.success = true then some buffer else none
  | .error _ => none

def findingOf (ata nvme : Bool) : Option Finding :=
  if ata then (identifiedAta io fuel).map ataFinding
  else if nvme then (identifiedNvme io).map nvmeFinding
  else none

end Answers

theorem execute_returns (sgIo : SgRequest → Except IoctlFailure SgReply) (cmd : AtaCommand)
    (fuel : ℕ) (hfuel : senseBufLen < fuel) : ∃ r, ataExecute sgIo cmd fuel = .ok r := by
  unfold ataExecute
  cases h : sgIo (requestOf cmd) with
  | error e => cases e <;> exact ⟨_, rfl⟩
  | ok reply =>
    obtain ⟨result, hresult, _⟩ :=
      meets_returns _ _ (parse_meets reply true fuel (fun _ => hfuel))
    dsimp only
    rw [hresult, ok_bind]
    exact ⟨_, rfl⟩

theorem executePath_returns (outcome : OpenOutcome)
    (sgIo : SgRequest → Except IoctlFailure SgReply) (cmd : AtaCommand) (fuel : ℕ)
    (hfuel : senseBufLen < fuel) : ∃ r, ataExecutePath outcome sgIo cmd fuel = .ok r := by
  cases outcome with
  | opened => exact execute_returns sgIo cmd fuel hfuel
  | accessDenied => exact ⟨_, rfl⟩
  | failed => exact ⟨_, rfl⟩

theorem ataQuery_identified (io : RefreshIo) (fuel : ℕ) (hfuel : senseBufLen < fuel) :
    (∃ e, ataSanitizeQuery io.ataOpen io.sgIo fuel = .ok (.error e) ∧
      identifiedAta io fuel = none) ∨
    ∃ buffer, ataSanitizeQuery io.ataOpen io.sgIo fuel =
      .ok (.ok (sanitizeCapabilities (identifyData buffer))) ∧
        identifiedAta io fuel = some buffer := by
  obtain ⟨r, hr⟩ := executePath_returns io.ataOpen io.sgIo identifyCommand fuel hfuel
  unfold ataSanitizeQuery ataIdentifyDevice identifiedAta
  rw [hr, ok_bind]
  rcases r with e | ⟨result, buffer⟩
  · exact Or.inl ⟨e, rfl, rfl⟩
  · by_cases hs : result.success = true
    · refine Or.inr ⟨buffer, ?_, if_pos hs⟩
      dsimp only
      rw [if_pos hs]
      rfl
    · refine Or.inl ⟨.ioctlFailed, ?_, if_neg hs⟩
      dsimp only
      rw [if_neg hs]
      rfl

theorem nvmeQuery_identified (io : RefreshIo) :
    (∃ e, nvmeSanitizeQuery io.nvmeOpen io.nvme = .error e ∧ identifiedNvme io = none) ∨
    ∃ buffer, nvmeSanitizeQuery io.nvmeOpen io.nvme =
      .ok (controllerCapabilities (controllerData buffer)) ∧ identifiedNvme io = some buffer := by
  unfold nvmeSanitizeQuery nvmeIdentifyController identifiedNvme
  rcases nvmeAdminExecutePath io.nvmeOpen io.nvme identifyController with e | ⟨result, buffer⟩
  · exact Or.inl ⟨e, rfl, rfl⟩
  · by_cases hs : result.success = true
    · refine Or.inr ⟨buffer, ?_, if_pos hs⟩
      dsimp only
      rw [if_pos hs]
    · refine Or.inl ⟨.ioctlFailed, ?_, if_neg hs⟩
      dsimp only
      rw [if_neg hs]

/-- What is known of a drive: the last finding, whether a crypto erase was ever
found, and whether the drive was read-only when that could last be read. -/
structure Knowledge where
  finding : Finding
  encrypted : Bool
  readOnly : Bool

section Learning
variable (fuel : ℕ) (path : Text) (ata nvme : Bool)

def readOnlyOf (io : RefreshIo) : Option Bool :=
  (sysfsReadUint32 io.sysfs (deviceName path) "/ro").map (· != 0)

def learn (k : Knowledge) (io : RefreshIo) : Knowledge where
  finding := (findingOf io fuel ata nvme).getD k.finding
  encrypted := k.encrypted || ((findingOf io fuel ata nvme).map Finding.crypto).getD false
  readOnly := (readOnlyOf path io).getD k.readOnly

theorem learned_all (ios : List RefreshIo) (k : Knowledge) :
    ios.foldl (learn fuel path ata nvme) k =
      ⟨((ios.filterMap (fun io => findingOf io fuel ata nvme)).getLast?).getD k.finding,
        k.encrypted || (ios.filterMap (fun io => findingOf io fuel ata nvme)).any Finding.crypto,
        ((ios.filterMap (readOnlyOf path)).getLast?).getD k.readOnly⟩ := by
  induction ios generalizing k with
  | nil => simp
  | cons io ios ih =>
    rw [List.foldl_cons, ih, learn]
    rcases hf : findingOf io fuel ata nvme with _ | f <;>
      rcases hr : readOnlyOf path io with _ | r <;>
      simp [hf, hr, List.getLast?_cons, Bool.or_assoc]

end Learning

/-- A record holds what is known: flags of a kind of drive that it is not stay
unset. -/
structure Represents (dev : ProbedDevice) (k : Knowledge) : Prop where
  flags : Shows dev k.finding
  kind : if asksAta dev then k.finding.sanitize = false ∧ k.finding.format = false
    else k.finding.secureErase = false ∧ k.finding.enhancedErase = false
  encryption : dev.encryptionStatus = if k.encrypted then .encrypted else .unknown
  readOnly : dev.isReadOnly = k.readOnly
  blockErase : dev.capabilities.supportsBlockErase = !k.readOnly

section Steps
variable (io : RefreshIo) (fuel : ℕ) (dev : ProbedDevice) (k : Knowledge)

/-- The four flags of the word are one test in the finding. -/
theorem refreshAta_shows (buffer : Bytes) (h : Represents dev k) (hata : asksAta dev = true) :
    Shows (refreshAta dev (sanitizeCapabilities (identifyData buffer))) (ataFinding buffer) := by
  have hkind := h.kind
  rw [if_pos hata] at hkind
  have hguard : decide (rawWord buffer 59 &&& 0xC000 = 0x4000) =
      ((wordValue buffer 59).testBit 14 && !(wordValue buffer 59).testBit 15) := by
    rw [Bool.eq_iff_iff, decide_eq_true_eq, sanitize_guard]
    simp
  have hflag := fun i j hj => flag_read buffer i j hj
  have hcrypto : (sanitizeCapabilities (identifyData buffer)).canSanitizeCrypto =
      (ataFinding buffer).crypto := by
    simp only [sanitizeCapabilities, identifyData, ataFinding, hguard, hflag 59 12 (by decide),
      hflag 59 13 (by decide)]
    cases (wordValue buffer 59).testBit 14 <;> cases (wordValue buffer 59).testBit 15 <;> simp
  have hsecure : (sanitizeCapabilities (identifyData buffer)).canSecurityErase =
      (ataFinding buffer).secureErase := by
    simp only [sanitizeCapabilities, identifyData, ataFinding, hflag 82 1 (by decide),
      hflag 128 3 (by decide)]
  exact {
    secureErase := hsecure
    enhancedErase := by
      simp only [refreshAta, sanitizeCapabilities, identifyData, ataFinding,
        hflag 82 1 (by decide), hflag 128 3 (by decide), hflag 128 5 (by decide)]
    sanitize := h.flags.sanitize.trans hkind.1
    format := h.flags.format.trans hkind.2
    native := by
      simp only [refreshAta, sanitizeCapabilities, identifyData, ataFinding, hguard,
        hflag 82 1 (by decide), hflag 128 3 (by decide), hflag 59 12 (by decide),
        hflag 59 14 (by decide), hflag 59 15 (by decide)]
      cases (wordValue buffer 59).testBit 14 <;> cases (wordValue buffer 59).testBit 15 <;> simp
    crypto := hcrypto
    selfEncrypting := hcrypto }

theorem refreshNvme_shows (buffer : Bytes) (h : Represents dev k) (hata : asksAta dev = false) :
    Shows (refreshNvme dev (controllerCapabilities (controllerData buffer)))
      (nvmeFinding buffer) := by
  have hkind := h.kind
  rw [if_neg (by rw [hata]; decide)] at hkind
  have hbit := fun b i hi => byteBit_testBit b i hi
  have hformat : (controllerData buffer).formatSupported =
      (byteAt buffer 256).toNat.testBit 1 := littleWord_bit buffer 256 1 (by decide)
  have hcrypto : (refreshNvme dev (controllerCapabilities
      (controllerData buffer))).isSelfEncrypting = (nvmeFinding buffer).crypto := by
    simp only [refreshNvme, controllerCapabilities, nvmeFinding, hformat]
    simp only [controllerData, hbit _ 2 (by decide)]
  have hsanitize : (refreshNvme dev (controllerCapabilities
      (controllerData buffer))).nvmeSanitizeSupported = (nvmeFinding buffer).sanitize := by
    simp only [refreshNvme, controllerCapabilities, nvmeFinding, controllerData,
      hbit _ 0 (by decide), hbit _ 1 (by decide), hbit _ 2 (by decide)]
    rw [Bool.or_comm ((byteAt buffer 328).toNat.testBit 1)]
  exact {
    secureErase := h.flags.secureErase.trans hkind.1
    enhancedErase := h.flags.enhancedErase.trans hkind.2
    sanitize := hsanitize
    format := hformat
    native := congrArg₂ or hsanitize hformat
    crypto := hcrypto
    selfEncrypting := hcrypto }

theorem readOnly_represents (h : Represents dev k) :
    Represents (refreshReadOnly io.sysfs dev)
      { k with readOnly := (readOnlyOf dev.path.chars io).getD k.readOnly } := by
  have hread : (refreshReadOnly io.sysfs dev).isReadOnly =
      (readOnlyOf dev.path.chars io).getD k.readOnly :=
    congrArg (readOnlyOf dev.path.chars io).getD h.readOnly
  exact {
    flags := {
      secureErase := h.flags.secureErase
      enhancedErase := h.flags.enhancedErase
      sanitize := h.flags.sanitize
      format := h.flags.format
      native := h.flags.native
      crypto := h.flags.crypto
      selfEncrypting := h.flags.selfEncrypting }
    kind := h.kind
    encryption := h.encryption
    readOnly := hread
    blockErase := congrArg not hread }

/-- The flags are overwritten, and a crypto erase marks the record as encrypted. -/
theorem found_represents (dev' : ProbedDevice) (f : Finding) (h : Represents dev k)
    (hflags : Shows dev' f)
    (hkind : if asksAta dev' then f.sanitize = false ∧ f.format = false
      else f.secureErase = false ∧ f.enhancedErase = false)
    (hencryption : dev'.encryptionStatus =
      if f.crypto = true then .encrypted else dev.encryptionStatus)
    (hreadOnly : dev'.isReadOnly = dev.isReadOnly)
    (hblockErase : dev'.capabilities.supportsBlockErase = dev.capabilities.supportsBlockErase) :
    Represents dev' ⟨f, k.encrypted || f.crypto, k.readOnly⟩ where
  flags := hflags
  kind := hkind
  encryption := by
    rw [hencryption, h.encryption]
    cases k.encrypted <;> cases f.crypto <;> rfl
  readOnly := hreadOnly.trans h.readOnly
  blockErase := hblockErase.trans h.blockErase

/-- What no refresh changes. -/
def identity (dev : ProbedDevice) : ScannedDevice :=
  { dev.toScannedDevice with
    isReadOnly := false
    encryptionStatus := .unknown
    capabilities := ⟨false, false, false⟩ }

theorem refresh_cases (hfuel : senseBufLen < fuel) :
    (deviceRefreshCapabilities io dev fuel = .ok (.ok, refreshReadOnly io.sysfs dev) ∧
      findingOf io fuel (asksAta dev) (asksNvme dev) = none) ∨
    (∃ buffer, asksAta dev = true ∧
      deviceRefreshCapabilities io dev fuel = .ok (.ok, refreshAta (refreshReadOnly io.sysfs dev)
        (sanitizeCapabilities (identifyData buffer))) ∧
      findingOf io fuel (asksAta dev) (asksNvme dev) = some (ataFinding buffer)) ∨
    ∃ buffer, asksAta dev = false ∧
      deviceRefreshCapabilities io dev fuel = .ok (.ok, refreshNvme (refreshReadOnly io.sysfs dev)
        (controllerCapabilities (controllerData buffer))) ∧
      findingOf io fuel (asksAta dev) (asksNvme dev) = some (nvmeFinding buffer) := by
  unfold deviceRefreshCapabilities findingOf
  dsimp only
  have hata' : asksAta (refreshReadOnly io.sysfs dev) = asksAta dev := rfl
  have hnvme' : asksNvme (refreshReadOnly io.sysfs dev) = asksNvme dev := rfl
  rw [hata', hnvme']
  by_cases hata : asksAta dev = true
  · rw [if_pos hata, if_pos hata]
    rcases ataQuery_identified io fuel hfuel with ⟨e, hquery, hnone⟩ | ⟨buffer, hquery, hsome⟩
    · rw [hquery, hnone, ok_bind]
      exact Or.inl ⟨rfl, rfl⟩
    · rw [hquery, hsome, ok_bind]
      exact Or.inr (Or.inl ⟨buffer, hata, rfl, rfl⟩)
  · rw [if_neg hata, if_neg hata]
    by_cases hnvme : asksNvme dev = true
    · rw [if_pos hnvme, if_pos hnvme]
      rcases nvmeQuery_identified io with ⟨e, hquery, hnone⟩ | ⟨buffer, hquery, hsome⟩
      · rw [hquery, hnone]
        exact Or.inl ⟨rfl, rfl⟩
      · rw [hquery, hsome]
        exact Or.inr (Or.inr ⟨buffer, Bool.eq_false_iff.mpr hata, rfl, rfl⟩)
    · rw [if_neg hnvme, if_neg hnvme]
      exact Or.inl ⟨rfl, rfl⟩

/-- A refresh always succeeds, and the record holds what is known with it. -/
theorem refresh_represents (hfuel : senseBufLen < fuel) (h : Represents dev k) :
    ∃ dev', deviceRefreshCapabilities io dev fuel = .ok (.ok, dev') ∧
      identity dev' = identity dev ∧
      Represents dev' (learn fuel dev.path.chars (asksAta dev) (asksNvme dev) k io) := by
  have hread := readOnly_represents io dev k h
  rcases refresh_cases io fuel dev hfuel with ⟨hrun, hfound⟩ | ⟨buffer, hata, hrun, hfound⟩ |
    ⟨buffer, hata, hrun, hfound⟩
  · refine ⟨_, hrun, rfl, ?_⟩
    rw [learn, hfound]
    simpa using hread
  · refine ⟨_, hrun, rfl, ?_⟩
    have hshows := refreshAta_shows _ _ buffer hread hata
    have hkind : asksAta (refreshAta (refreshReadOnly io.sysfs dev)
        (sanitizeCapabilities (identifyData buffer))) = true := hata
    have hrep := found_represents _ _ _ (ataFinding buffer) hread hshows
      (by rw [if_pos hkind]; exact ⟨rfl, rfl⟩) (by rw [← hshows.crypto]; rfl) rfl rfl
    rw [learn, hfound]
    exact hrep
  · refine ⟨_, hrun, rfl, ?_⟩
    have hshows := refreshNvme_shows _ _ buffer hread hata
    have hkind : ¬ asksAta (refreshNvme (refreshReadOnly io.sysfs dev)
        (controllerCapabilities (controllerData buffer))) = true := Bool.eq_false_iff.mp hata
    have hrep := found_represents _ _ _ (nvmeFinding buffer) hread hshows
      (by rw [if_neg hkind]; exact ⟨rfl, rfl⟩) (by rw [← hshows.crypto]; rfl) rfl rfl
    rw [learn, hfound]
    exact hrep

end Steps

theorem identity_kind (dev dev' : ProbedDevice) (h : identity dev' = identity dev) :
    dev'.path = dev.path ∧ asksAta dev' = asksAta dev ∧ asksNvme dev' = asksNvme dev := by
  have hpath : (identity dev').path = (identity dev).path := by rw [h]
  have htype : (identity dev').deviceType = (identity dev).deviceType := by rw [h]
  have htransport : (identity dev').transportType = (identity dev).transportType := by rw [h]
  change dev'.deviceType = dev.deviceType at htype
  change dev'.transportType = dev.transportType at htransport
  unfold asksAta asksNvme
  rw [htype, htransport]
  exact ⟨hpath, rfl, rfl⟩

theorem refreshes_represent (fuel : ℕ) (hfuel : senseBufLen < fuel) (ios : List RefreshIo)
    (dev : ProbedDevice) (k : Knowledge) (h : Represents dev k) :
    ∃ dev', refreshes fuel ios dev = .ok dev' ∧ identity dev' = identity dev ∧
      Represents dev' (ios.foldl (learn fuel dev.path.chars (asksAta dev) (asksNvme dev)) k) := by
  induction ios generalizing dev k with
  | nil => exact ⟨dev, rfl, rfl, h⟩
  | cons io ios ih =>
    obtain ⟨dev₁, hrun, hsame, hrep⟩ := refresh_represents io fuel dev k hfuel h
    obtain ⟨hpath, hata, hnvme⟩ := identity_kind dev dev₁ hsame
    obtain ⟨dev', hrest, hsame', hrep'⟩ := ih dev₁ _ hrep
    refine ⟨dev', ?_, hsame'.trans hsame, ?_⟩
    · rw [refreshes, hrun, ok_bind]
      exact hrest
    · rw [hpath, hata, hnvme] at hrep'
      exact hrep'

def findings (fuel : ℕ) (dev : ScannedDevice) (ios : List RefreshIo) : List Finding :=
  ios.filterMap (fun io => findingOf io fuel (asksAta (unprobed dev)) (asksNvme (unprobed dev)))

def readOnlys (dev : ScannedDevice) (ios : List RefreshIo) : List Bool :=
  ios.filterMap (readOnlyOf dev.path.chars)

section Records
variable (sysfs : Sysfs) (path : Text)

theorem info_blank : (infoOf sysfs path).encryptionStatus = .unknown ∧
    (infoOf sysfs path).capabilities =
      ⟨!(infoOf sysfs path).isReadOnly, false, false⟩ := by
  unfold infoOf deviceGetInfo deviceClassify
  dsimp only
  split_ifs <;> exact ⟨rfl, rfl⟩

theorem info_represents : Represents (unprobed (infoOf sysfs path))
    ⟨noFinding, false, (infoOf sysfs path).isReadOnly⟩ := by
  obtain ⟨hstatus, hcaps⟩ := info_blank sysfs path
  have hnative : (infoOf sysfs path).capabilities.supportsDeviceNative = false := by rw [hcaps]
  have hcrypto : (infoOf sysfs path).capabilities.supportsCryptoErase = false := by rw [hcaps]
  have hblock : (infoOf sysfs path).capabilities.supportsBlockErase =
      !(infoOf sysfs path).isReadOnly := by rw [hcaps]
  exact {
    flags := ⟨rfl, rfl, rfl, rfl, hnative, hcrypto, rfl⟩
    kind := by split <;> exact ⟨rfl, rfl⟩
    encryption := hstatus
    readOnly := rfl
    blockErase := hblock }

/-- After any run of refreshes of a record from a scan its flags are those of the
last finding; it counts as encrypted exactly when some finding had a crypto
erase, and as read-only as it could last be read. -/
theorem refreshed_record (fuel : ℕ) (hfuel : senseBufLen < fuel) (ios : List RefreshIo) :
    ∃ dev, refreshes fuel ios (unprobed (infoOf sysfs path)) = .ok dev ∧
      identity dev = identity (unprobed (infoOf sysfs path)) ∧
      Shows dev (((findings fuel (infoOf sysfs path) ios).getLast?).getD noFinding) ∧
      (dev.encryptionStatus = .encrypted ↔
        ∃ f ∈ findings fuel (infoOf sysfs path) ios, f.crypto = true) ∧
      (dev.encryptionStatus = .encrypted ∨ dev.encryptionStatus = .unknown) ∧
      dev.isReadOnly = ((readOnlys (infoOf sysfs path) ios).getLast?).getD
        (infoOf sysfs path).isReadOnly ∧
      dev.capabilities.supportsBlockErase = !dev.isReadOnly := by
  obtain ⟨dev, hrun, hsame, hrep⟩ := refreshes_represent fuel hfuel ios _ _
    (info_represents sysfs path)
  rw [learned_all] at hrep
  refine ⟨dev, hrun, hsame, hrep.flags, ?_, ?_, hrep.readOnly, ?_⟩
  · rw [hrep.encryption, ← List.any_eq_true, Bool.false_or]
    unfold findings
    split <;> simp_all
  · rw [hrep.encryption]
    split
    · exact Or.inl rfl
    · exact Or.inr rfl
  · rw [hrep.blockErase, hrep.readOnly]

end Records

def noSysfs : Sysfs := ⟨fun _ => none, fun _ => none⟩

def controllerIo (sanicap : UInt8) : RefreshIo where
  sysfs := noSysfs
  ataOpen := .failed
  sgIo := fun _ => .error .failed
  nvmeOpen := .opened
  nvme := fun _ => .ok ⟨0, by decide, 0, List.replicate 328 0++[sanicap]⟩

def silentIo : RefreshIo := { controllerIo 0 with nvme := fun _ => .error .failed }

/-- The second refresh fails, and the flags stay. -/
theorem refreshed_record_silent : ∃ dev,
    refreshes 33 [controllerIo 4, silentIo] (unprobed (infoOf noSysfs "/dev/nvme0n1".toList)) =
      .ok dev ∧ dev.capabilities.supportsCryptoErase = true ∧
      dev.encryptionStatus = .encrypted := by
  obtain ⟨dev, hrun, _, hflags, hencrypted, _⟩ := refreshed_record noSysfs "/dev/nvme0n1".toList 33
    (by decide) [controllerIo 4, silentIo]
  have hfindings : findings 33 (infoOf noSysfs "/dev/nvme0n1".toList) [controllerIo 4, silentIo] =
      [⟨false, false, true, false, true, true⟩] := by decide
  rw [hfindings] at hflags hencrypted
  exact ⟨dev, hrun, hflags.crypto, hencrypted.mpr ⟨_, List.mem_singleton_self _, rfl⟩⟩

end EraseCure.CapabilityRefreshes
