import EraseCure.Sanitizers
import Mathlib.Data.List.Nodup

/-!
# What a sanitizer run guarantees

A run that succeeds is a block erase that has overwritten the whole target.
In test mode a run touches nothing but the content of one regular file, and a
path of a block device is turned away.
-/

set_option autoImplicit false

namespace EraseCure.SanitizerRuns
open EraseCure.CText EraseCure.Devices EraseCure.FileSystems
open EraseCure.ErasePasses EraseCure.BlockEraseImage
open EraseCure.BlockEraseDevice EraseCure.Sanitizers

theorem devicePasses_nodup (n : ℕ) : (devicePasses n).Nodup :=
  List.Nodup.map (fun _ _ h => Nat.succ.inj h) List.nodup_range

/-- Success means that the method was a block erase and that every byte of
the target was overwritten in each of the clamped number of passes. -/
theorem success_erased (fs : FileSystem) (io : SanitizerIo) (device : StorageDevice)
    (opts : SanitizationOptions)
    (hsize : opts.testMode = false → ∀ node, fs.resolve device.path.chars = some node →
      io.device.blkgetsize = some (fs.object node).content.length)
    (hok : (sanitizerRun fs io device opts).code = .ok) :
    (sanitizerRun fs io device opts).result.resultCode = .ok ∧ opts.method = .blockErase ∧
      ∃ node passes, fs.resolve device.path.chars = some node ∧ passes.Nodup ∧
        passes.length = clampPasses opts.blockErase.passes ∧
        Erased opts.blockErase.pattern passes fs (sanitizerRun fs io device opts).fs node
          (sanitizerRun fs io device opts).writes := by
  cases sanitizerRun_routed fs io device opts with
  | image cb hm _ he =>
    obtain ⟨hfs, hcode, hresult, hwrites⟩ := he
    rw [hcode] at hok
    obtain ⟨node, content, erased, hnode, _, _, _, _, hdone⟩ := blockEraseImage_ok fs io.image
      device.path.chars _ hok
    rw [hfs, hresult, hwrites]
    exact ⟨hok, hm, node, _, hnode, List.nodup_range, List.length_range, hdone⟩
  | device hm ht he =>
    obtain ⟨hfs, hcode, hresult, hwrites⟩ := he
    rw [hcode] at hok
    obtain ⟨node, hnode, hdone⟩ := blockEraseDevice_ok fs io.device device (beOpts opts) _
      (hsize ht) hok
    rw [hfs, hresult, hwrites]
    refine ⟨hok, hm, node, _, hnode, devicePasses_nodup _, ?_, hdone⟩
    rw [devicePasses, List.length_map, List.length_range]
    rfl
  | failed _ hf => exact absurd hok hf.1

def plainDevice (path : CString 256) (deviceType : DeviceType) : StorageDevice where
  path := path
  capacityBytes := 0
  deviceType := deviceType
  transportType := .unknown
  isReadOnly := false
  encryptionStatus := .unknown
  capabilities := ⟨true, false, false⟩

def drive : StorageDevice := plainDevice (printed256 "/dev/sda".toList) .sataSsd

theorem success_erased_drive :
    ∃ node passes, (soleObject "/dev/sda".toList (.blockDevice [0x41])).resolve
        drive.path.chars = some node ∧ passes.Nodup ∧ passes.length = 1 ∧
      Erased .zero passes (soleObject "/dev/sda".toList (.blockDevice [0x41]))
        (sanitizerRun (soleObject "/dev/sda".toList (.blockDevice [0x41])) (SanitizerIo.calm 1)
          drive { sanitizerOptionsInit with testMode := false }).fs node
        (sanitizerRun (soleObject "/dev/sda".toList (.blockDevice [0x41])) (SanitizerIo.calm 1)
          drive { sanitizerOptionsInit with testMode := false }).writes :=
  (success_erased (soleObject "/dev/sda".toList (.blockDevice [0x41])) (SanitizerIo.calm 1) drive
    { sanitizerOptionsInit with testMode := false } (fun _ _ _ => rfl) (by decide)).2.2

/-- The later file system differs from the earlier one at most in the content
of the regular file of the path, not in its length. -/
structure OnlyFile (fs fs' : FileSystem) (path : Text) : Prop where
  resolve_eq : fs'.resolve = fs.resolve
  resolveLink_eq : fs'.resolveLink = fs.resolveLink
  object_eq : ∀ n, fs'.object n = fs.object n ∨
    fs.resolve path = some n ∧ ∃ content new, fs.object n = .regular content ∧
      fs'.object n = .regular new ∧ new.length = content.length

theorem onlyFile_refl (fs : FileSystem) (path : Text) : OnlyFile fs fs path :=
  ⟨rfl, rfl, fun _ => Or.inl rfl⟩

theorem onlyFile_store (fs : FileSystem) (path : Text) (node : ℕ) (content new : Bytes)
    (hnode : fs.resolve path = some node) (hobj : fs.object node = .regular content)
    (hlen : new.length = content.length) : OnlyFile fs (fs.store node new) path where
  resolve_eq := rfl
  resolveLink_eq := rfl
  object_eq := fun n => by
    by_cases hn : n = node
    · subst hn
      exact Or.inr ⟨hnode, content, new, hobj, by rw [store_same, hobj]; rfl, hlen⟩
    · exact Or.inl (store_other fs node n new hn)

/-- In test mode a run changes at most the content of the regular file that
the path resolves to. A block erase at a device path is turned away, by its
prefix or by what it resolves to, and writes nothing. -/
theorem testMode_harmless (fs : FileSystem) (io : SanitizerIo) (device : StorageDevice)
    (opts : SanitizationOptions) (ht : opts.testMode = true) :
    OnlyFile fs (sanitizerRun fs io device opts).fs device.path.chars ∧
      (opts.method = .blockErase →
        ((∃ p ∈ blockdevPrefixes, p <+: device.path.chars) ∨
          ∃ c, fs.stat device.path.chars = some (.blockDevice c)) →
        (sanitizerRun fs io device opts).code = .realDevicePath ∧
          (sanitizerRun fs io device opts).writes = [] ∧
          (sanitizerRun fs io device opts).fs = fs) := by
  cases sanitizerRun_routed fs io device opts with
  | image cb hm _ he =>
    obtain ⟨hfs, hcode, _, hwrites⟩ := he
    rw [hfs, hcode, hwrites]
    constructor
    · rcases blockEraseImage_frame fs io.image device.path.chars
        { opts.blockErase with progressCb := cb } with hsame | ⟨node, content, new, hnode, hobj,
          hlen, hstore⟩
      · rw [hsame]
        exact onlyFile_refl fs _
      · rw [hstore]
        exact onlyFile_store fs _ node content new hnode hobj hlen
    · intro _ hdev
      rw [blockEraseImage, eraseImageRun, if_pos ((blockDevice_iff fs _).mpr hdev)]
      exact ⟨rfl, rfl, rfl⟩
  | device _ hreal _ => exact absurd (ht.symm.trans hreal) (by decide)
  | failed hother hf =>
    obtain ⟨_, hfs, _⟩ := hf
    rw [hfs]
    exact ⟨onlyFile_refl fs _, fun hm => absurd ⟨hm, ht⟩ hother⟩

theorem testMode_harmless_drive :
    OnlyFile (soleObject "/dev/sda".toList (.blockDevice [0x41]))
        (sanitizerRun (soleObject "/dev/sda".toList (.blockDevice [0x41])) (SanitizerIo.calm 1)
          drive sanitizerOptionsInit).fs drive.path.chars ∧
      (sanitizerRun (soleObject "/dev/sda".toList (.blockDevice [0x41])) (SanitizerIo.calm 1)
        drive sanitizerOptionsInit).code = .realDevicePath :=
  have h := testMode_harmless (soleObject "/dev/sda".toList (.blockDevice [0x41]))
    (SanitizerIo.calm 1) drive sanitizerOptionsInit rfl
  ⟨h.1, (h.2 rfl (Or.inr ⟨[0x41], by decide +kernel⟩)).1⟩

end EraseCure.SanitizerRuns
