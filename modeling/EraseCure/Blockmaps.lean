import EraseCure.FileMirrors

/-!
# Block maps

A map keeps two entries for each block. The shadow entries take the updates, and
merging copies them to the primary entries. Hashing reads the blocks of an image
one after the other; duplicates are neighbours in the sorted primary hashes.
-/

set_option autoImplicit false

namespace EraseCure.Blockmaps
open EraseCure.CText EraseCure.FileSystems EraseCure.Hashing EraseCure.FileMirrors
open scoped List

structure BlockmapEntry where
  covered : Bool
  isDuplicate : Bool
  isExemplar : Bool
  isZero : Bool
  exemplarBlock : ℕ
  reservationCount : UInt32
  hash : CString 65
  hashComputed : Bool
  deriving DecidableEq

def BlockmapEntry.zero : BlockmapEntry where
  covered := false
  isDuplicate := false
  isExemplar := false
  isZero := false
  exemplarBlock := 0
  reservationCount := 0
  hash := printed65 []
  hashComputed := false

inductive BlockmapError where
  | invalidArg | noMem
  deriving DecidableEq

/-- The primary and the shadow entries of `blockCount` blocks. -/
structure Blockmap (blockCount : ℕ) where
  primary : Vector BlockmapEntry blockCount
  shadow : Vector BlockmapEntry blockCount

def blockmapCreate (blockCount : ℕ) (callocPrimary callocShadow : Bool) :
    Except BlockmapError (Blockmap blockCount) :=
  if blockCount = 0 then .error .invalidArg
  else if !callocPrimary || !callocShadow then .error .noMem
  else .ok ⟨Vector.replicate blockCount .zero, Vector.replicate blockCount .zero⟩

variable {n : ℕ}

def setEntry (entries : Vector BlockmapEntry n) (block : Fin n)
    (f : BlockmapEntry → BlockmapEntry) : Vector BlockmapEntry n :=
  entries.set block.val (f (entries.get block)) block.isLt

def updateShadow (bm : Blockmap n) (block : ℕ) (f : BlockmapEntry → BlockmapEntry) :
    Except BlockmapError (Blockmap n) :=
  if h : block < n then .ok { bm with shadow := setEntry bm.shadow ⟨block, h⟩ f }
  else .error .invalidArg

def blockmapShadowSetCovered (bm : Blockmap n) (block : ℕ) (covered : Bool) :
    Except BlockmapError (Blockmap n) :=
  updateShadow bm block (fun e => { e with covered := covered })

/-- `none` is the null pointer. -/
def blockmapShadowSetHash (bm : Blockmap n) (block : ℕ) (hashHex : Option Text) :
    Except BlockmapError (Blockmap n) :=
  match hashHex with
  | none => .error .invalidArg
  | some hex => updateShadow bm block (fun e =>
      { e with hash := printed65 hex, hashComputed := true })

def blockmapShadowSetZero (bm : Blockmap n) (block : ℕ) (isZero : Bool) :
    Except BlockmapError (Blockmap n) :=
  updateShadow bm block (fun e => { e with isZero := isZero })

def blockmapShadowSetDuplicate (bm : Blockmap n) (block exemplar : ℕ) :
    Except BlockmapError (Blockmap n) :=
  if n ≤ exemplar then .error .invalidArg
  else updateShadow bm block (fun e =>
    { e with isDuplicate := true, exemplarBlock := exemplar })

def blockmapReserve (bm : Blockmap n) (block : ℕ) : Except BlockmapError (Blockmap n) :=
  updateShadow bm block (fun e => { e with reservationCount := e.reservationCount+1 })

def blockmapRelease (bm : Blockmap n) (block : ℕ) : Except BlockmapError (Blockmap n) :=
  updateShadow bm block (fun e =>
    if 0 < e.reservationCount then { e with reservationCount := e.reservationCount-1 } else e)

def blockmapReservationCount (bm : Blockmap n) (block : ℕ) : UInt32 :=
  if h : block < n then (bm.shadow.get ⟨block, h⟩).reservationCount else 0

def blockmapMergeShadow (bm : Blockmap n) : Blockmap n := { bm with primary := bm.shadow }

/-- What hashing calls: the allocation of the buffer, the digest array as it is
on the stack, which reads and which digests succeed, and the digest. A digest
that fails leaves the array as it was. -/
structure HashIo where
  malloc : Bool
  stack : Digest
  reads : ℕ → Bool
  hashes : ℕ → Bool
  sha256 : Bytes → Digest

/-- The digest array, its digits and whether the block is zero, when the block
can be read. -/
def hashBlock (io : HashIo) (fm : FileMirror) (i : ℕ) (digest : Digest) :
    Option (Digest × Text × Bool) :=
  if !io.reads i then none
  else
    match fileMirrorReadBlock fm (UInt64.ofNat i) with
    | .error _ => none
    | .ok buf =>
      let digest := if io.hashes i then io.sha256 buf else digest
      some (digest, hashDigestToHex digest, buf.all (fun b => b = 0))

structure HashEntry (n : ℕ) where
  block : Fin n
  hash : CString 65
  deriving DecidableEq

def compareHashes (a b : HashEntry n) : Ordering := compareOfLessAndEq a.hash.chars b.hash.chars

/-- Some sort: equal entries come in any order. -/
structure Qsort (n : ℕ) where
  sort : List (HashEntry n) → List (HashEntry n)
  perm : ∀ entries, sort entries ~ entries
  sorted : ∀ entries, (sort entries).Pairwise (fun a b => compareHashes a b ≠ .gt)

/-- The entry of a block that has a hash and is not zero. -/
def hashEntry (bm : Blockmap n) (block : Fin n) : Option (HashEntry n) :=
  let entry := bm.primary.get block
  if entry.hashComputed ∧ !entry.isZero then some ⟨block, entry.hash⟩ else none

/-- The marks for two neighbours of one hash. -/
def markDuplicate (bm : Blockmap n) (exemplar duplicate : Fin n) : Blockmap n :=
  let shadow := setEntry bm.shadow exemplar (fun e => { e with isExemplar := true })
  { bm with shadow := setEntry shadow duplicate (fun e =>
      { e with isDuplicate := true, exemplarBlock := exemplar }) }

end EraseCure.Blockmaps
