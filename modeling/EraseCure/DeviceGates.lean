import EraseCure.BlockEraseDevice
import EraseCure.MountTables

/-!
# The gates before a device is written

A device is written only when the token, the path, the record and the mount
table allow it. Without a mount table that can be opened nothing counts as
mounted.
-/

set_option autoImplicit false

namespace EraseCure.DeviceGates
open EraseCure.CText EraseCure.Devices EraseCure.ErrorCodes EraseCure.FileSystems
open EraseCure.ErasePasses EraseCure.BlockEraseImage EraseCure.BlockEraseDevice
open EraseCure.MountTables

/-- What allows a device to be written. -/
structure Permitted (fs : FileSystem) (io : DeviceIo) (device : StorageDevice)
    (confirmation : Text) : Prop where
  confirmed : confirmation = device.path.chars
  blockDevice : devicePathIsBlockDevice fs device.path.chars = true
  writable : device.isReadOnly = false
  unmounted : ∀ table, io.procMounts.or io.mtab = some table → ¬ Listed table device.path.chars

/-- A run that returns an error and leaves everything as it was. -/
def Untouched (fs : FileSystem) (run : EraseRun) : Prop :=
  run.code ≠ .ok ∧ run.fs = fs ∧ run.writes = []

theorem refused_untouched (fs : FileSystem) (code : ErasecureError) (message : Text)
    (h : code ≠ .ok) : Untouched fs (refused fs code message) := ⟨h, rfl, rfl⟩

/-- The path of a device record is short enough for every entry to be found. -/
theorem unmounted_unlisted (io : DeviceIo) (device : StorageDevice)
    (h : deviceIsMounted io.procMounts io.mtab device.path.chars = false) (table : Text)
    (htable : io.procMounts.or io.mtab = some table) : ¬ Listed table device.path.chars := by
  rintro ⟨line, start, field, hline, hfirst, hpiece, hname⟩
  have hfits := device.path.fits
  have hmounted := listed_mounted io.procMounts io.mtab table device.path.chars line field start
    htable device.path.ended hline hfirst hpiece hname (Or.inr (by omega))
  rw [h] at hmounted
  contradiction

/-- A run is permitted, or it touches nothing and fails. -/
theorem permitted_or_untouched (fs : FileSystem) (io : DeviceIo) (device : StorageDevice)
    (opts : BlockEraseOptions) (confirmation : Text) :
    Permitted fs io device confirmation ∨
      Untouched fs (blockEraseDevice fs io device opts confirmation) := by
  rcases started_or_refused fs io device opts confirmation with
    ⟨node, hgates, _, _⟩ | ⟨_, code, message, hrefused, hcode⟩
  · exact Or.inl ⟨hgates.confirmed, hgates.blockDevice, hgates.writable,
      unmounted_unlisted io device hgates.unmounted⟩
  · rw [hrefused]
    exact Or.inr (refused_untouched fs code message hcode)

def stickRecord : StorageDevice where
  path := printed256 "/dev/sdb".toList
  capacityBytes := 1
  deviceType := .usbFlash
  transportType := .usb
  isReadOnly := false
  encryptionStatus := .unknown
  capabilities := ⟨true, false, false⟩

def withoutTables : DeviceIo := { DeviceIo.calm 1 with procMounts := none }

/-- Without a table the stick is written. -/
theorem written_without_tables :
    withoutTables.procMounts = none ∧ withoutTables.mtab = none ∧
      (blockEraseDevice (soleObject "/dev/sdb".toList (.blockDevice [0x41])) withoutTables
        stickRecord blockEraseOptionsInit "/dev/sdb".toList).code = .ok ∧
      ∃ w ∈ (blockEraseDevice (soleObject "/dev/sdb".toList (.blockDevice [0x41])) withoutTables
        stickRecord blockEraseOptionsInit "/dev/sdb".toList).writes, w.2.data = [0x00] :=
  ⟨rfl, rfl, rfl, (1, ⟨0, [0x00]⟩), List.mem_cons_self, rfl⟩

end EraseCure.DeviceGates
