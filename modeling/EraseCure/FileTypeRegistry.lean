import EraseCure.Discovery

/-!
# The registry of file types

A descriptor names a file type and holds its header and footer signatures. The
registry copies what it is given, with the signatures. The built-in types have
one header signature each, at the start of a block.
-/

set_option autoImplicit false

namespace EraseCure.FileTypeRegistry
open EraseCure.CText EraseCure.FileSystems EraseCure.Discovery

structure FileTypeDescriptor where
  name : CString 32
  extension : CString 16
  mimeType : CString 64
  category : CString 32
  minSize : UInt64
  maxSize : UInt64
  headers : Option (List SignaturePattern)
  headerCount : ℕ
  footers : Option (List SignaturePattern)
  footerCount : ℕ
  searchDirection : Int32
  fragmentedRecoveryEnabled : Bool
  enabled : Bool

structure Registry where
  types : List FileTypeDescriptor
  capacity : ℕ

inductive RegistryError where
  | memory
  deriving DecidableEq

def fileTypeRegistryInit (a : Allocations) : Except RegistryError Registry × Allocations :=
  let (ok, a) := allocate a
  (if ok then .ok ⟨[], 16⟩ else .error .memory, a)

/-- One signature of the copy: what cannot be copied stays null. -/
def copySignature (src : SignaturePattern) (a : Allocations) : SignaturePattern × Allocations :=
  let (bytes, a) := allocate a
  let (name, a) := if src.typeName.isSome then allocate a else (true, a)
  ({ src with
      bytes := if bytes then some src.text else none
      typeName := if name then src.typeName else none }, a)

def copyEach : List SignaturePattern → Allocations → List SignaturePattern × Allocations
  | [], a => ([], a)
  | src::rest, a =>
    let (dst, a) := copySignature src a
    let (dsts, a) := copyEach rest a
    (dst::dsts, a)

def copySignatures (src : Option (List SignaturePattern)) (count : ℕ) (a : Allocations) :
    Option (List SignaturePattern) × Allocations :=
  match src with
  | none => (none, a)
  | some src =>
    if count = 0 then (none, a)
    else
      let (ok, a) := allocate a
      if !ok then (none, a)
      else
        let (dst, a) := copyEach (src.take count) a
        (some dst, a)

def fileTypeRegistryRegister (reg : Registry) (desc : FileTypeDescriptor) (a : Allocations) :
    Option RegistryError × Registry × Allocations :=
  let full := reg.capacity ≤ reg.types.length
  let (ok, a) := if full then allocate a else (true, a)
  if !ok then (some .memory, reg, a)
  else
    let reg := if full then { reg with capacity := reg.capacity*2 } else reg
    let (headers, a) := copySignatures desc.headers desc.headerCount a
    let (footers, a) := copySignatures desc.footers desc.footerCount a
    let dest := { desc with headers := headers, footers := footers }
    (none, { reg with types := reg.types++[dest] }, a)

/-- `strcasecmp`, on the letters without accents. -/
def sameName (s t : Text) : Bool := s.map Char.toLower = t.map Char.toLower

def fileTypeRegistryFind (reg : Registry) (name : Text) : Option FileTypeDescriptor :=
  reg.types.find? (fun desc => sameName desc.name.chars name)

section Defaults

def builtIn (name extension mimeType category : Text) (minSize maxSize : UInt64) (magic : Bytes) :
    FileTypeDescriptor where
  name := printed32 name
  extension := printed 16 (by decide) extension
  mimeType := printed64 mimeType
  category := printed32 category
  minSize := minSize
  maxSize := maxSize
  headers := some [⟨some magic, magic.length, 0, false, some name⟩]
  headerCount := 1
  footers := none
  footerCount := 0
  searchDirection := 1
  fragmentedRecoveryEnabled := true
  enabled := true

def jpeg : FileTypeDescriptor :=
  builtIn "JPEG".toList "jpg".toList "image/jpeg".toList "Image".toList 128 (100*1024*1024)
    [0xFF, 0xD8, 0xFF]

def png : FileTypeDescriptor :=
  builtIn "PNG".toList "png".toList "image/png".toList "Image".toList 64 (100*1024*1024)
    [0x89, 0x50, 0x4E, 0x47, 0x0D, 0x0A, 0x1A, 0x0A]

def pdf : FileTypeDescriptor :=
  builtIn "PDF".toList "pdf".toList "application/pdf".toList "Document".toList 64 0
    [0x25, 0x50, 0x44, 0x46, 0x2D]

def zip : FileTypeDescriptor :=
  builtIn "ZIP".toList "zip".toList "application/zip".toList "Archive".toList 22 0
    [0x50, 0x4B, 0x03, 0x04]

def gif : FileTypeDescriptor :=
  builtIn "GIF".toList "gif".toList "image/gif".toList "Image".toList 32 (50*1024*1024)
    [0x47, 0x49, 0x46, 0x38, 0x39, 0x61]

def mp3 : FileTypeDescriptor :=
  builtIn "MP3".toList "mp3".toList "audio/mpeg".toList "Audio".toList 128 (100*1024*1024)
    [0xFF, 0xFB]

def elf : FileTypeDescriptor :=
  builtIn "ELF".toList "elf".toList "application/x-executable".toList "Executable".toList 52 0
    [0x7F, 0x45, 0x4C, 0x46]

/-- The results of the registrations are not looked at. -/
def fileTypeRegistryRegisterDefaults (reg : Registry) (a : Allocations) :
    Option RegistryError × Registry × Allocations :=
  (none, [jpeg, png, pdf, zip, gif, mp3, elf].foldl
    (fun s desc => (fileTypeRegistryRegister s.1 desc s.2).2) (reg, a))

end Defaults

end EraseCure.FileTypeRegistry
