import EraseCure.FileMirrors
import EraseCure.FileValidators

/-!
# Discovery of signatures

An engine keeps signature patterns and the hits of its scans. A scan reads the
blocks of a mirror in order and compares each block with each pattern, at the
offset of the pattern or, when that is negative, anywhere. A call may fail for
want of memory, and a scan goes on when a hit cannot be added.
-/

set_option autoImplicit false

namespace EraseCure.Discovery
open EraseCure.CText EraseCure.FileSystems EraseCure.FileMirrors EraseCure.FileValidators

/-- Which of the allocations to come succeed. Those after the list do. -/
abbrev Allocations := List Bool

def allocate : Allocations → Bool × Allocations
  | [] => (true, [])
  | ok::rest => (ok, rest)

structure SignaturePattern where
  bytes : Option Bytes
  length : ℕ
  offset : ℤ
  isFooter : Bool
  typeName : Option Text
  deriving DecidableEq

def SignaturePattern.text (p : SignaturePattern) : Bytes := (p.bytes.getD []).take p.length

structure SignatureHit where
  block : UInt64
  byteOffset : UInt64
  typeName : Text
  isFooter : Bool
  deriving DecidableEq

structure DiscoveryEngine where
  patterns : List SignaturePattern
  patternCapacity : ℕ
  hits : List SignatureHit
  hitCapacity : ℕ

inductive DiscoveryError where
  | memory
  deriving DecidableEq

def memmemFallback (haystack needle : Bytes) : Option ℕ :=
  if needle.length = 0 then some 0
  else if haystack.length < needle.length then none
  else (List.range (haystack.length-needle.length+1)).find? (fun i =>
    byteAt haystack i = byteAt needle 0 && bytesAt haystack i needle)

def discoveryInit (a : Allocations) : Except DiscoveryError DiscoveryEngine × Allocations :=
  let (ok, a) := allocate a
  if !ok then (.error .memory, a)
  else
    let (ok, a) := allocate a
    if !ok then (.error .memory, a)
    else (.ok ⟨[], 16, [], 64⟩, a)

def discoveryRegisterSignature (engine : DiscoveryEngine) (pattern : SignaturePattern)
    (a : Allocations) : Option DiscoveryError × DiscoveryEngine × Allocations :=
  let full := engine.patterns.length = engine.patternCapacity
  let (ok, a) := if full then allocate a else (true, a)
  if !ok then (some .memory, engine, a)
  else
    let engine := if full then { engine with patternCapacity := engine.patternCapacity*2 }
      else engine
    let (ok, a) := allocate a
    if !ok then (some .memory, engine, a)
    else
      let (ok, a) := allocate a
      if !ok then (some .memory, engine, a)
      else
        let dest := { pattern with
          bytes := some pattern.text
          typeName := some (pattern.typeName.getD []) }
        (none, { engine with patterns := engine.patterns++[dest] }, a)

def addHit (engine : DiscoveryEngine) (hit : SignatureHit) (a : Allocations) :
    Option DiscoveryError × DiscoveryEngine × Allocations :=
  let full := engine.hits.length = engine.hitCapacity
  let (ok, a) := if full then allocate a else (true, a)
  if !ok then (some .memory, engine, a)
  else
    let engine := if full then { engine with hitCapacity := engine.hitCapacity*2 } else engine
    let (ok, a) := allocate a
    if !ok then (some .memory, engine, a)
    else (none, { engine with hits := engine.hits++[hit] }, a)

def patternMatch (blockSize : UInt64) (buffer : Bytes) (pat : SignaturePattern) : Option ℕ :=
  if 0 ≤ pat.offset then
    if (pat.offset.toNat+pat.length)%2^64 ≤ blockSize.toNat then
      if bytesAt buffer pat.offset.toNat pat.text then some pat.offset.toNat else none
    else none
  else memmemFallback buffer pat.text

def patternHit (fm : FileMirror) (block : UInt64) (buffer : Bytes) (pat : SignaturePattern) :
    Option SignatureHit :=
  (patternMatch fm.blockSize buffer pat).map (fun o =>
    ⟨block, block*fm.blockSize+UInt64.ofNat o, pat.typeName.getD [], pat.isFooter⟩)

/-- The result of adding a hit is not looked at. -/
def scanPattern (fm : FileMirror) (block : UInt64) (buffer : Bytes)
    (s : DiscoveryEngine × Allocations) (pat : SignaturePattern) : DiscoveryEngine × Allocations :=
  match patternHit fm block buffer pat with
  | some hit => (addHit s.1 hit s.2).2
  | none => s

/-- A read that succeeds delivers the bytes that it stored in the buffer. -/
abbrev ReadBlock := FileMirror → UInt64 → Except MirrorError Bytes

def scanBlock (readBlock : ReadBlock) (fm : FileMirror) (s : DiscoveryEngine × Allocations)
    (block : ℕ) : DiscoveryEngine × Allocations :=
  match readBlock fm (UInt64.ofNat block) with
  | .error _ => s
  | .ok buffer =>
    if buffer.length < fm.blockSize.toNat then s
    else s.1.patterns.foldl (scanPattern fm (UInt64.ofNat block) buffer) s

def discoveryScan (readBlock : ReadBlock) (engine : DiscoveryEngine) (fm : FileMirror)
    (a : Allocations) : Option DiscoveryError × DiscoveryEngine × Allocations :=
  let (ok, a) := allocate a
  if !ok then (some .memory, engine, a)
  else (none, (List.range fm.totalBlocks.toNat).foldl (scanBlock readBlock fm) (engine, a))

def blockHits (readBlock : ReadBlock) (fm : FileMirror) (patterns : List SignaturePattern)
    (block : ℕ) : List SignatureHit :=
  match readBlock fm (UInt64.ofNat block) with
  | .error _ => []
  | .ok buffer =>
    if buffer.length < fm.blockSize.toNat then []
    else patterns.filterMap (patternHit fm (UInt64.ofNat block) buffer)

section Scanning

/-- When no allocation fails, a step keeps the patterns and adds the hits. -/
def Adds (patterns : List SignaturePattern) (hits : List SignatureHit)
    (s s' : DiscoveryEngine × Allocations) : Prop :=
  s.1.patterns = patterns → s.2 = [] →
    s'.1.patterns = patterns ∧ s'.2 = [] ∧ s'.1.hits = s.1.hits++hits

variable (patterns : List SignaturePattern)

theorem adds_none (s : DiscoveryEngine × Allocations) : Adds patterns [] s s := by
  intro hp ha
  exact ⟨hp, ha, (List.append_nil _).symm⟩

theorem addHit_adds (s : DiscoveryEngine × Allocations) (hit : SignatureHit) :
    Adds patterns [hit] s (addHit s.1 hit s.2).2 := by
  intro hp ha
  rw [ha, addHit]
  by_cases hfull : s.1.hits.length = s.1.hitCapacity
  · simp [hfull, allocate, hp]
  · simp [hfull, allocate, hp]

theorem fold_adds {β : Type} (f : DiscoveryEngine × Allocations → β → DiscoveryEngine × Allocations)
    (hits : β → List SignatureHit) (hf : ∀ s b, Adds patterns (hits b) s (f s b)) (l : List β)
    (s : DiscoveryEngine × Allocations) : Adds patterns (l.flatMap hits) s (l.foldl f s) := by
  induction l generalizing s with
  | nil => exact adds_none patterns s
  | cons b l ih =>
    intro hp ha
    obtain ⟨hp', ha', hh'⟩ := hf s b hp ha
    obtain ⟨hp'', ha'', hh''⟩ := ih (f s b) hp' ha'
    refine ⟨hp'', ha'', ?_⟩
    rw [List.flatMap_cons, ← List.append_assoc, ← hh']
    exact hh''

theorem scanPattern_adds (fm : FileMirror) (block : UInt64) (buffer : Bytes)
    (s : DiscoveryEngine × Allocations) (pat : SignaturePattern) :
    Adds patterns (patternHit fm block buffer pat).toList s
      (scanPattern fm block buffer s pat) := by
  rw [scanPattern]
  cases patternHit fm block buffer pat with
  | none => exact adds_none patterns s
  | some hit => exact addHit_adds patterns s hit

variable (readBlock : ReadBlock) (fm : FileMirror)

theorem scanBlock_adds (s : DiscoveryEngine × Allocations) (block : ℕ) :
    Adds patterns (blockHits readBlock fm patterns block) s (scanBlock readBlock fm s block) := by
  rw [scanBlock, blockHits]
  cases readBlock fm (UInt64.ofNat block) with
  | error e => exact adds_none patterns s
  | ok buffer =>
    dsimp only
    split
    · exact adds_none patterns s
    · intro hp ha
      rw [hp, List.filterMap_eq_flatMap_toList]
      exact fold_adds patterns _ _ (scanPattern_adds patterns fm _ buffer) patterns s hp ha

theorem blockHits_block (block : ℕ) (hit : SignatureHit)
    (h : hit ∈ blockHits readBlock fm patterns block) : hit.block = UInt64.ofNat block := by
  rw [blockHits] at h
  split at h
  · contradiction
  split at h
  · contradiction
  obtain ⟨pat, _, hpat⟩ := List.mem_filterMap.mp h
  obtain ⟨o, _, rfl⟩ := Option.map_eq_some_iff.mp hpat
  rfl

/-- A scan in which no allocation fails appends the hits of the blocks in order. -/
theorem scan_hits (engine : DiscoveryEngine) :
    (discoveryScan readBlock engine fm []).2.1.hits =
      engine.hits++(List.range fm.totalBlocks.toNat).flatMap
        (blockHits readBlock fm engine.patterns) :=
  (fold_adds engine.patterns _ _ (scanBlock_adds engine.patterns readBlock fm)
    (List.range fm.totalBlocks.toNat) (engine, []) rfl rfl).2.2

end Scanning

end EraseCure.Discovery
