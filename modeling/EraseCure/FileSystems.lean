import EraseCure.CText
import Mathlib.Logic.Function.Basic

/-!
# Files, devices and mounts

A static file system resolves a path to an object, with or without following
a final link. Erasing replaces the content of an object; names never change
but by removal. A path counts as a block device by its prefix or its object.
-/

set_option autoImplicit false

namespace EraseCure.FileSystems
open EraseCure.CText

abbrev Bytes := List UInt8

inductive Object where
  | regular (content : Bytes)
  | blockDevice (content : Bytes)
  | directory (size : ℕ)
  | symlink (size : ℕ)
  | other
  deriving DecidableEq

def Object.content : Object → Bytes
  | .regular c | .blockDevice c => c
  | _ => []

def Object.statSize : Object → ℕ
  | .regular c => c.length
  | .directory n | .symlink n => n
  | _ => 0

def Object.put : Object → Bytes → Object
  | .regular _, c => .regular c
  | .blockDevice _, c => .blockDevice c
  | o, _ => o

/-- Where writing ends: a device cannot grow. -/
def Object.room : Object → Option ℕ
  | .blockDevice c => some c.length
  | _ => none

structure FileSystem where
  resolve : Text → Option ℕ
  resolveLink : Text → Option ℕ
  object : ℕ → Object

def FileSystem.stat (fs : FileSystem) (path : Text) : Option Object :=
  (fs.resolve path).map fs.object

def FileSystem.lstat (fs : FileSystem) (path : Text) : Option Object :=
  (fs.resolveLink path).map fs.object

def FileSystem.store (fs : FileSystem) (node : ℕ) (c : Bytes) : FileSystem :=
  { fs with object := Function.update fs.object node ((fs.object node).put c) }

/-- The path is gone. Other spellings of it are known to a tree of names only. -/
def FileSystem.remove (fs : FileSystem) (path : Text) : FileSystem :=
  { fs with
    resolve := Function.update fs.resolve path none
    resolveLink := Function.update fs.resolveLink path none }

/-- What the storage returns when its objects are read. -/
def FileSystem.seen (fs : FileSystem) (readback : ℕ → UInt8 → UInt8) : FileSystem :=
  { fs with object := fun n => (fs.object n).put ((fs.object n).content.mapIdx readback) }

def soleObject (path : Text) (o : Object) : FileSystem where
  resolve := fun p => if p = path then some 0 else none
  resolveLink := fun p => if p = path then some 0 else none
  object := fun _ => o

theorem store_resolve (fs : FileSystem) (node : ℕ) (c : Bytes) :
    (fs.store node c).resolve = fs.resolve := rfl

theorem store_same (fs : FileSystem) (node : ℕ) (c : Bytes) :
    (fs.store node c).object node = (fs.object node).put c := by
  simp [FileSystem.store]

theorem store_other (fs : FileSystem) (node n : ℕ) (c : Bytes) (h : n ≠ node) :
    (fs.store node c).object n = fs.object n := by
  simp [FileSystem.store, h]

def blockdevPrefixes : List Text :=
  ["/dev/sd".toList, "/dev/hd".toList, "/dev/nvme".toList, "/dev/vd".toList,
   "/dev/xvd".toList, "/dev/mmcblk".toList, "/dev/fd".toList, "/dev/sr".toList,
   "/dev/scd".toList]

def devicePathIsBlockDevice (fs : FileSystem) (path : Text) : Bool :=
  blockdevPrefixes.any (fun p => p.isPrefixOf path) ||
    match fs.stat path with
    | some (.blockDevice _) => true
    | _ => false

theorem blockDevice_iff (fs : FileSystem) (path : Text) :
    devicePathIsBlockDevice fs path = true ↔
      (∃ p ∈ blockdevPrefixes, p <+: path) ∨ ∃ c, fs.stat path = some (.blockDevice c) := by
  simp only [devicePathIsBlockDevice, Bool.or_eq_true, List.any_eq_true,
    List.isPrefixOf_iff_prefix]
  apply or_congr Iff.rfl
  split
  · rename_i c hc
    simp [hc]
  · rename_i hc
    simp only [Bool.false_eq_true, false_iff]
    rintro ⟨c, h⟩
    exact hc c h

def isSpace (c : Char) : Bool := c = ' ' || (9 ≤ c.toNat && c.toNat ≤ 13)

def scanWord (width : ℕ) (line : Text) : Option Text :=
  let word := (((cstr line).dropWhile isSpace).takeWhile (fun c => !isSpace c)).take width
  if word = [] then none else some word

/-- The first field of a mount line names the device or, by its next
character, one of its partitions. -/
def mountEntry (devicePath mntDev : Text) : Bool :=
  mntDev = devicePath ||
    (devicePath.isPrefixOf mntDev &&
      match mntDev.drop devicePath.length with
      | [] => false
      | next::_ => next.isDigit || next = 'p')

/-- `device_is_mounted` on the contents of the two mount tables, where they
can be opened. It never fails. -/
def deviceIsMounted (procMounts mtab : Option Text) (devicePath : Text) : Bool :=
  match procMounts.or mtab with
  | none => false
  | some table =>
    (fileLines 1024 table).any fun line =>
      match scanWord 511 line with
      | none => false
      | some mntDev => mountEntry devicePath mntDev

example : deviceIsMounted none (some "proc /proc proc rw 0 0\n/dev/sda1 / ext4 rw 0 0\n".toList)
    "/dev/sda".toList = true := by decide

end EraseCure.FileSystems
