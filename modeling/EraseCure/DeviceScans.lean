import EraseCure.Devices
import EraseCure.MountAlarms
import EraseCure.TextSearch
import Mathlib.Data.List.DropRight

/-!
# Scanning for storage devices

A scan goes through the names of a directory and leaves out those that its rules
take for partitions: by the last character of a name, or by the first `p` in the
part of the name where a partition of that kind has one. What is left is filled
in from the attributes of the device, which never fails.
-/

set_option autoImplicit false

namespace EraseCure.DeviceScans
open EraseCure.CText EraseCure.Devices EraseCure.ErrorCodes EraseCure.FileSystems
open EraseCure.TextSearch EraseCure.MountAlarms

section Names

def digitNext (t : Text) : Bool :=
  match t.drop 1 with
  | [] => false
  | c::_ => c.isDigit

def named (text : String) (name : Text) : Bool := text.toList.isPrefixOf name

/-- `is_partition`, which also leaves out loop devices and RAM disks. -/
def isPartition (name : Text) : Bool :=
  if name = [] then false
  else if named "loop" name || named "ram" name then true
  else if named "nvme" name then
    match search ['n'] (name.drop 4) with
    | none => false
    | some nPos =>
      match search ['p'] (nPos.drop 1) with
      | none => false
      | some pPos => digitNext pPos
  else if named "mmcblk" name then
    match search ['p'] (name.drop 6) with
    | none => false
    | some pPos => digitNext pPos
  else
    match name.getLast? with
    | none => false
    | some last => last.isDigit

end Names

section Attributes

structure Sysfs where
  file : Text → Option Text
  link : Text → Option Text

def sysfsPath (devName : Text) (item : String) : Text :=
  "/sys/block/".toList++(devName++item.toList)

def stripped (t : Text) : Text := t.rdropWhile (fun c => c = '\n' || c = '\r' || c = ' ')

def sysfsReadStr (sysfs : Sysfs) (devName : Text) (item : String) (bufLen : ℕ) :
    Option Text :=
  match sysfs.file (printed512 (sysfsPath devName item)).chars with
  | none => none
  | some content =>
    if content = [] then none else some (stripped (cstr (fgets bufLen content).1))

/-- `strtoull` with base ten; there is no number without a digit. -/
def strtoull (t : Text) : Option ℕ :=
  let t := t.dropWhile isSpace
  let negative := t.head? = some '-'
  let t := if negative || t.head? = some '+' then t.drop 1 else t
  let digits := t.takeWhile Char.isDigit
  let value := Nat.ofDigitChars 10 digits 0
  if digits = [] then none
  else if value ≥ 2^64 then some (2^64-1)
  else if negative then some ((2^64-value) % 2^64)
  else some value

def sysfsReadUint64 (sysfs : Sysfs) (devName : Text) (item : String) : Option ℕ :=
  (sysfsReadStr sysfs devName item 32).bind strtoull

def sysfsReadUint32 (sysfs : Sysfs) (devName : Text) (item : String) : Option ℕ :=
  (sysfsReadUint64 sysfs devName item).map (· % 2^32)

end Attributes

section Infos

/-- A device with what a scan finds out besides what the sanitizers read. -/
structure ScannedDevice extends StorageDevice where
  deviceId : CString 37
  model : CString 64
  serial : CString 64
  logicalSectorSize : ℕ
  physicalSectorSize : ℕ
  isRemovable : Bool
  isRotational : Bool

def deviceInit : ScannedDevice where
  deviceId := printed37 []
  path := printed256 []
  model := printed64 []
  serial := printed64 []
  capacityBytes := 0
  logicalSectorSize := 512
  physicalSectorSize := 512
  deviceType := .unknown
  transportType := .unknown
  isRemovable := false
  isReadOnly := false
  isRotational := false
  encryptionStatus := .unknown
  capabilities := ⟨false, false, false⟩

/-- The target of the link fits a buffer of 512 bytes. -/
def onUsb (sysfs : Sysfs) (devName : Text) : Bool :=
  let path := sysfsPath devName "/device/subsystem"
  if path.length < 512 then
    match sysfs.link path with
    | none => false
    | some target => (search "usb".toList (cstr (target.take 511))).isSome
  else false

def deviceClassify (sysfs : Sysfs) (devName : Text) (dev : ScannedDevice) : ScannedDevice :=
  if named "nvme" devName then
    { dev with transportType := .nvme, deviceType := .nvmeSsd, isRotational := false }
  else if named "mmcblk" devName then
    { dev with transportType := .sd, deviceType := .sdCard, isRotational := false }
  else if onUsb sysfs devName then
    { dev with
      transportType := .usb
      deviceType := if dev.isRotational then .usbHdd else .usbFlash }
  else
    { dev with
      transportType := .sata
      deviceType := if dev.isRotational then .hdd else .sataSsd }

/-- A sector size below 512 is not taken over. -/
def sectorSize (size : Option ℕ) (old : ℕ) : ℕ :=
  match size with
  | none => old
  | some n => if n ≥ 512 then n else old

def deviceGetInfo (sysfs : Sysfs) (path : Text) : ErasecureError × ScannedDevice :=
  let devName := if named "/dev/" path then path.drop 5 else path
  let flag := fun item old => ((sysfsReadUint32 sysfs devName item).map (· != 0)).getD old
  let text := fun item old =>
    ((sysfsReadStr sysfs devName item 64).map printed64).getD old
  let dev := { deviceInit with
    path := if named "/dev/" path then printed256 path else printed256 ("/dev/".toList++devName)
    isRotational := flag "/queue/rotational" deviceInit.isRotational
    isRemovable := flag "/removable" deviceInit.isRemovable
    isReadOnly := flag "/ro" deviceInit.isReadOnly
    capacityBytes :=
      ((sysfsReadUint64 sysfs devName "/size").map (·*512 % 2^64)).getD deviceInit.capacityBytes
    logicalSectorSize := sectorSize (sysfsReadUint32 sysfs devName "/queue/logical_block_size")
      deviceInit.logicalSectorSize
    physicalSectorSize := sectorSize (sysfsReadUint32 sysfs devName "/queue/physical_block_size")
      deviceInit.physicalSectorSize
    model := text "/device/model" deviceInit.model
    serial := text "/device/serial" deviceInit.serial }
  let dev := deviceClassify sysfs devName dev
  let dev := if dev.deviceId.chars = [] then
    { dev with deviceId := printed37 ("dev-".toList++devName) } else dev
  (.ok, { dev with
    capabilities := { dev.capabilities with supportsBlockErase := !dev.isReadOnly } })

end Infos

section Scan
variable (sysfs : Sysfs) (maxDevices : ℕ)

def scanEntries : List Text → List ScannedDevice → List ScannedDevice
  | [], found => found
  | name::rest, found =>
    if found.length < maxDevices then
      if name.head? = some '.' then scanEntries rest found
      else if named "loop" name then scanEntries rest found
      else if isPartition name then scanEntries rest found
      else
        match deviceGetInfo sysfs name with
        | (.ok, dev) => scanEntries rest (found++[dev])
        | (_, _) => scanEntries rest found
    else found

/-- `device_scan` on the names that `readdir` returns, if the directory can be opened. -/
def deviceScan (dir : Option (List Text)) : Except ErasecureError (List ScannedDevice) :=
  if maxDevices = 0 then .error .invalidArg
  else
    match dir with
    | none => .error .deviceScanFail
    | some names => .ok (scanEntries sysfs maxDevices names [])

end Scan

section Families

def Letters (t : Text) : Prop := t ≠ [] ∧ ∀ c ∈ t, c.isLower = true

def letterKinds : List Text := ["sd".toList, "hd".toList, "vd".toList]

/-- The whole disks: `sd`, `hd` or `vd` and letters, an NVMe namespace, an MMC card. -/
inductive DiskName : Text → Prop where
  | lettered (kind w : Text) : kind ∈ letterKinds → Letters w → DiskName (kind++w)
  | namespaced (n m : Text) : Digits n → Digits m → DiskName ("nvme".toList++(n++ 'n'::m))
  | carded (n : Text) : Digits n → DiskName ("mmcblk".toList++n)

/-- A disk and the names of its partitions. -/
inductive PartitionName : Text → Text → Prop where
  | lettered (kind w k : Text) : kind ∈ letterKinds → Letters w → Digits k →
      PartitionName (kind++w) (kind++(w++k))
  | namespaced (n m k : Text) : Digits n → Digits m → Digits k →
      PartitionName ("nvme".toList++(n++ 'n'::m)) ("nvme".toList++(n++ 'n'::(m++ 'p'::k)))
  | carded (n k : Text) : Digits n → Digits k →
      PartitionName ("mmcblk".toList++n) ("mmcblk".toList++(n++ 'p'::k))

theorem letter_not_digit (c : Char) (h : c.isLower = true) : c.isDigit = false :=
  isAlpha_not_digit c ((Bool.or_eq_true _ _).mpr (Or.inr h))

theorem digits_avoid (t : Text) (h : Digits t) (c : Char) (hc : c.isDigit = false) : c ∉ t := by
  intro hmem
  rw [h.2 c hmem] at hc
  contradiction

theorem search_absent (c : Char) (t : Text) (h : c ∉ t) : search [c] t = none := by
  rw [search_none_iff, List.singleton_infix_iff]
  exact h

theorem search_first (c : Char) (t rest : Text) (h : c ∉ t) :
    search [c] (t++c::rest) = some (c::rest) := by
  rw [search_skip [c] t (c::rest)]
  · exact search_begins [c] (c::rest) ⟨rest, rfl⟩
  intro s hs hsuffix hprefix
  obtain ⟨d, s, rfl⟩ := List.exists_cons_of_ne_nil hs
  obtain rfl : c = d := (List.cons_prefix_cons.mp hprefix).1
  exact h (hsuffix.subset List.mem_cons_self)

theorem digitNext_digits (c : Char) (t : Text) (h : Digits t) : digitNext (c::t) = true := by
  obtain ⟨d, rest, rfl⟩ := List.exists_cons_of_ne_nil h.1
  exact h.2 d List.mem_cons_self

theorem lettered_last (kind t : Text) (hkind : kind ∈ letterKinds) (last : Char)
    (ht : t.getLast? = some last) : isPartition (kind++t) = last.isDigit := by
  have hlast : (kind++t).getLast? = some last := by
    rw [List.getLast?_append, ht, Option.some_or]
  have hplain : ∀ text ∈ ["loop", "ram", "nvme", "mmcblk"], named text (kind++t) = false := by
    simp only [letterKinds, List.mem_cons, List.not_mem_nil, or_false] at hkind ⊢
    rcases hkind with rfl | rfl | rfl <;> rintro text (rfl | rfl | rfl | rfl) <;> rfl
  have hne : kind++t ≠ [] := by
    rintro hnil
    rw [hnil] at hlast
    contradiction
  rw [isPartition, if_neg hne, hplain "loop" (by simp), hplain "ram" (by simp),
    hplain "nvme" (by simp), hplain "mmcblk" (by simp), hlast]
  rfl

theorem namespaced_rest (n t : Text) (hn : Digits n) :
    isPartition ("nvme".toList++(n++ 'n'::t)) =
      match search ['p'] t with
      | none => false
      | some pPos => digitNext pPos := by
  have hfound := search_first 'n' n t (digits_avoid n hn 'n' rfl)
  change (match search ['n'] (n++ 'n'::t) with
    | none => false
    | some nPos =>
      match search ['p'] (nPos.drop 1) with
      | none => false
      | some pPos => digitNext pPos) = _
  rw [hfound]
  rfl

theorem carded_rest (t : Text) :
    isPartition ("mmcblk".toList++t) =
      match search ['p'] t with
      | none => false
      | some pPos => digitNext pPos := rfl

/-- A whole disk is taken for one. -/
theorem disk_kept (disk : Text) (h : DiskName disk) : isPartition disk = false := by
  cases h with
  | lettered kind w hkind hw =>
    have hlast := List.getLast?_eq_some_getLast hw.1
    rw [lettered_last kind w hkind _ hlast]
    exact letter_not_digit _ (hw.2 _ (List.getLast_mem hw.1))
  | namespaced n m hn hm =>
    rw [namespaced_rest n m hn, search_absent 'p' m (digits_avoid m hm 'p' rfl)]
  | carded n hn => rw [carded_rest, search_absent 'p' n (digits_avoid n hn 'p' rfl)]

theorem partition_left_out (disk part : Text) (h : PartitionName disk part) :
    isPartition part = true := by
  cases h with
  | lettered kind w k hkind hw hk =>
    have hlast : (w++k).getLast? = some (k.getLast hk.1) := by
      rw [List.getLast?_append, List.getLast?_eq_some_getLast hk.1, Option.some_or]
    rw [lettered_last kind (w++k) hkind _ hlast]
    exact hk.2 _ (List.getLast_mem hk.1)
  | namespaced n m k hn hm hk =>
    rw [namespaced_rest n _ hn, search_first 'p' m k (digits_avoid m hm 'p' rfl)]
    exact digitNext_digits 'p' k hk
  | carded n k hn hk =>
    rw [carded_rest, search_first 'p' n k (digits_avoid n hn 'p' rfl)]
    exact digitNext_digits 'p' k hk

end Families

section Lists
variable (sysfs : Sysfs) (maxDevices : ℕ)

def taken (name : Text) : Bool :=
  name.head? ≠ some '.' && !named "loop" name && !isPartition name

def infoOf (name : Text) : ScannedDevice := (deviceGetInfo sysfs name).2

/-- The attributes of a device may all be missing. -/
theorem getInfo_succeeds (name : Text) :
    deviceGetInfo sysfs name = (.ok, infoOf sysfs name) := rfl

theorem classify_path (devName : Text) (dev : ScannedDevice) :
    (deviceClassify sysfs devName dev).path = dev.path := by
  rw [deviceClassify]
  split_ifs <;> rfl

theorem info_path (name : Text) (h : named "/dev/" name = false) :
    (infoOf sysfs name).path = printed256 ("/dev/".toList++name) := by
  rw [infoOf, deviceGetInfo]
  simp only [h, Bool.false_eq_true, if_false]
  split_ifs <;> exact classify_path sysfs name _

theorem scanEntries_cons (name : Text) (rest : List Text) (found : List ScannedDevice)
    (h : found.length < maxDevices) :
    scanEntries sysfs maxDevices (name::rest) found =
      if taken name then scanEntries sysfs maxDevices rest (found++[infoOf sysfs name])
      else scanEntries sysfs maxDevices rest found := by
  rw [scanEntries, if_pos h, getInfo_succeeds]
  dsimp only
  by_cases hdot : name.head? = some '.'
  · rw [if_pos hdot, taken, hdot]
    rfl
  rw [if_neg hdot, taken, decide_eq_true hdot, Bool.true_and]
  cases named "loop" name <;> cases isPartition name <;> rfl

theorem scanEntries_eq (names : List Text) (found : List ScannedDevice)
    (h : found.length ≤ maxDevices) :
    scanEntries sysfs maxDevices names found =
      found++((names.filter taken).take (maxDevices-found.length)).map (infoOf sysfs) := by
  induction names generalizing found with
  | nil => simp [scanEntries]
  | cons name rest ih =>
    rcases Nat.eq_or_lt_of_le h with heq | hlt
    · rw [scanEntries, if_neg (by omega), heq, Nat.sub_self, List.take_zero]
      exact (List.append_nil found).symm
    rw [scanEntries_cons sysfs maxDevices name rest found hlt]
    cases hname : taken name with
    | false =>
      rw [if_neg Bool.false_ne_true, ih found h, List.filter_cons_of_neg (by simp [hname])]
    | true =>
      obtain ⟨room, hroom⟩ : ∃ room, maxDevices-found.length = room+1 :=
        ⟨maxDevices-found.length-1, by omega⟩
      have hlen : (found++[infoOf sysfs name]).length = found.length+1 := by
        rw [List.length_append, List.length_singleton]
      rw [if_pos rfl, ih _ (by omega), hlen, List.filter_cons_of_pos hname, hroom,
        List.take_succ_cons, List.map_cons, List.append_assoc,
        show maxDevices-(found.length+1) = room by omega]
      rfl

/-- What a whole disk begins with tells it from what a scan leaves out first. -/
theorem disk_first (disk : Text) (h : DiskName disk) :
    ∃ c rest, disk = c::rest ∧ c ∈ ['s', 'h', 'v', 'n', 'm'] := by
  cases h with
  | lettered kind w hkind hw =>
    simp only [letterKinds, List.mem_cons, List.not_mem_nil, or_false] at hkind
    rcases hkind with rfl | rfl | rfl <;> exact ⟨_, _, rfl, by decide⟩
  | namespaced n m hn hm => exact ⟨_, _, rfl, by decide⟩
  | carded n hn => exact ⟨_, _, rfl, by decide⟩

theorem named_other (text : String) (d c : Char) (more rest : Text)
    (htext : text.toList = d::more) (hne : d ≠ c) : named text (c::rest) = false := by
  rw [named, htext, List.isPrefixOf, beq_false_of_ne hne, Bool.false_and]

theorem disk_taken (disk : Text) (h : DiskName disk) : taken disk = true := by
  have hkept := disk_kept disk h
  obtain ⟨c, rest, rfl, hc⟩ := disk_first disk h
  have hdot : (c::rest).head? ≠ some '.' := fun heq => by
    rw [Option.some.inj heq] at hc
    contradiction
  have hloop : 'l' ≠ c := by
    rintro rfl
    contradiction
  rw [taken, hkept, decide_eq_true hdot, named_other "loop" 'l' c _ rest rfl hloop]
  rfl

theorem disk_bare (disk : Text) (h : DiskName disk) : named "/dev/" disk = false := by
  obtain ⟨c, rest, rfl, hc⟩ := disk_first disk h
  apply named_other "/dev/" '/' c _ rest rfl
  rintro rfl
  contradiction

theorem first_or_full (names : List Text) (name : Text) (hmem : name ∈ names)
    (h : taken name = true) :
    name ∈ (names.filter taken).take maxDevices ∨
      ((names.filter taken).take maxDevices).length = maxDevices := by
  by_cases hfit : (names.filter taken).length ≤ maxDevices
  · rw [List.take_of_length_le hfit]
    exact Or.inl (List.mem_filter.mpr ⟨hmem, h⟩)
  · exact Or.inr (List.length_take_of_le (by omega))

/-- The filter for partitions knows the whole disks and their partitions. So a scan of
a directory, which lists the first names that it does not leave out, lists every such
disk as long as there is room in the array, and no partition. -/
theorem partition_filter (names : List Text) :
    (∀ disk, DiskName disk → isPartition disk = false) ∧
    (∀ disk part, PartitionName disk part → isPartition part = true) ∧
    (0 < maxDevices → ∃ devices, deviceScan sysfs maxDevices (some names) = .ok devices ∧
      devices = ((names.filter taken).take maxDevices).map (infoOf sysfs) ∧
      (∀ disk ∈ names, DiskName disk →
        (infoOf sysfs disk).path = printed256 ("/dev/".toList++disk) ∧
          (infoOf sysfs disk ∈ devices ∨ devices.length = maxDevices)) ∧
      ∀ dev ∈ devices, ∃ name ∈ names, dev = infoOf sysfs name ∧
        ∀ disk part, PartitionName disk part → name ≠ part) := by
  refine ⟨disk_kept, partition_left_out, fun hpos => ?_⟩
  refine ⟨((names.filter taken).take maxDevices).map (infoOf sysfs), ?_, rfl, ?_, ?_⟩
  · rw [deviceScan, if_neg (by omega)]
    exact congrArg Except.ok (scanEntries_eq sysfs maxDevices names [] (Nat.zero_le _))
  · intro disk hmem hdisk
    refine ⟨info_path sysfs disk (disk_bare disk hdisk), ?_⟩
    rw [List.length_map]
    exact (first_or_full maxDevices names disk hmem (disk_taken disk hdisk)).imp_left
      List.mem_map_of_mem
  · intro dev hdev
    obtain ⟨name, hname, rfl⟩ := List.mem_map.mp hdev
    obtain ⟨hmem, htaken⟩ := List.mem_filter.mp (List.mem_of_mem_take hname)
    refine ⟨name, hmem, rfl, ?_⟩
    rintro disk part hpart rfl
    rw [taken, partition_left_out disk name hpart, Bool.not_true, Bool.and_false] at htaken
    contradiction

end Lists

end EraseCure.DeviceScans
