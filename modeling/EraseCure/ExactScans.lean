import EraseCure.DefaultSignatures
import EraseCure.HashedBlocks

/-!
# What a scan finds

A pattern occurs in a block at its own offset or, when that is negative, at the
first place where its bytes lie. A scan whose reads and allocations succeed
reports every occurrence once, the blocks in order and in each block the
patterns in order, and it reports nothing else.
-/

set_option autoImplicit false

namespace EraseCure.ExactScans
open EraseCure.FileSystems EraseCure.FileMirrors EraseCure.FileValidators
open EraseCure.Occurrences EraseCure.Discovery EraseCure.HashedBlocks

/-- A pattern as the engine holds it after its registration. -/
def Registered (pat : SignaturePattern) : Prop :=
  ∃ bytes name, pat.bytes = some bytes ∧ bytes.length = pat.length ∧ pat.typeName = some name

/-- The place of a pattern in a block. -/
def FoundAt (block : Bytes) (pat : SignaturePattern) (o : ℕ) : Prop :=
  OccursAt block o pat.text ∧
    if 0 ≤ pat.offset then (o : ℤ) = pat.offset else ∀ k < o, ¬ OccursAt block k pat.text

section Matching

theorem registered_length (pat : SignaturePattern) (h : Registered pat) :
    pat.text.length = pat.length := by
  obtain ⟨bytes, _, hbytes, hlen, _⟩ := h
  rw [SignaturePattern.text, hbytes, Option.getD_some, List.length_take, hlen, Nat.min_self]

def stored (pattern : SignaturePattern) : SignaturePattern :=
  { pattern with bytes := some pattern.text, typeName := some (pattern.typeName.getD []) }

theorem register_patterns (engine : DiscoveryEngine) (pattern : SignaturePattern)
    (a : Allocations) :
    (discoveryRegisterSignature engine pattern a).2.1.patterns = engine.patterns ∨
    (discoveryRegisterSignature engine pattern a).2.1.patterns =
      engine.patterns++[stored pattern] := by
  rw [discoveryRegisterSignature]
  dsimp only
  split_ifs
  all_goals first | exact Or.inl rfl | exact Or.inr rfl

/-- An engine holds registered patterns when each was registered with as many
bytes as it says. -/
theorem register_registered (engine : DiscoveryEngine) (pattern : SignaturePattern)
    (a : Allocations) (h : ∀ pat ∈ engine.patterns, Registered pat)
    (hlen : pattern.length ≤ (pattern.bytes.getD []).length) :
    ∀ pat ∈ (discoveryRegisterSignature engine pattern a).2.1.patterns, Registered pat := by
  have hnew : Registered (stored pattern) := by
    refine ⟨pattern.text, _, rfl, ?_, rfl⟩
    rw [SignaturePattern.text, List.length_take]
    exact min_eq_left hlen
  intro pat hpat
  rcases register_patterns engine pattern a with hsame | hadd
  · rw [hsame] at hpat
    exact h pat hpat
  · rw [hadd, List.mem_append, List.mem_singleton] at hpat
    rcases hpat with hpat | rfl
    · exact h pat hpat
    · exact hnew

variable (data text : Bytes) (hpos : 0 < text.length)
include hpos

theorem compared_occurs (o : ℕ) : bytesAt data o text = true ↔ OccursAt data o text := by
  constructor
  · intro h
    have hlen : ((data.drop o).take text.length).length = text.length := by
      rw [bytesAt, decide_eq_true_eq] at h
      rw [h]
    rw [List.length_take, List.length_drop] at hlen
    exact (bytesAt_occurs data o text (by omega)).mp h
  · intro h
    exact (bytesAt_occurs data o text h.1).mpr h

theorem candidate_occurs (o : ℕ) : (byteAt data o = byteAt text 0 && bytesAt data o text) = true ↔
    OccursAt data o text := by
  rw [Bool.and_eq_true, decide_eq_true_eq, compared_occurs data text hpos]
  constructor
  · exact And.right
  · intro h
    exact ⟨byteAt_occurs data o text 0 h hpos, h⟩

theorem memmem_first (o : ℕ) : memmemFallback data text = some o ↔
    OccursAt data o text ∧ ∀ k < o, ¬ OccursAt data k text := by
  rw [memmemFallback, if_neg (by omega)]
  by_cases hshort : data.length < text.length
  · rw [if_pos hshort]
    constructor
    · intro h
      contradiction
    · rintro ⟨⟨hlen, _⟩, _⟩
      omega
  · rw [if_neg hshort, List.find?_range_eq_some, List.mem_range]
    simp only [candidate_occurs data text hpos, Bool.not_eq_true', ← Bool.not_eq_true]
    constructor
    · rintro ⟨hocc, _, hfirst⟩
      exact ⟨hocc, hfirst⟩
    · rintro ⟨hocc, hfirst⟩
      have hlen := hocc.1
      exact ⟨hocc, by omega, hfirst⟩

end Matching

theorem patternMatch_found (blockSize : UInt64) (block : Bytes) (pat : SignaturePattern)
    (hblock : block.length = blockSize.toNat) (hpat : Registered pat) (hpos : 0 < pat.length)
    (o : ℕ) : patternMatch blockSize block pat = some o ↔ FoundAt block pat o := by
  have htext := registered_length pat hpat
  have hsize := blockSize.toNat_lt
  rw [patternMatch, FoundAt]
  by_cases hoff : 0 ≤ pat.offset
  · rw [if_pos hoff, if_pos hoff]
    have hoffset : (pat.offset.toNat : ℤ) = pat.offset := Int.toNat_of_nonneg hoff
    by_cases hocc : OccursAt block pat.offset.toNat pat.text
    · -- What lies in the block does not wrap.
      have hfits := hocc.1
      rw [Nat.mod_eq_of_lt (by omega), if_pos (by omega),
        if_pos ((compared_occurs block pat.text (by omega) _).mpr hocc), Option.some.injEq]
      constructor
      · rintro rfl
        exact ⟨hocc, hoffset⟩
      · rintro ⟨_, ho⟩
        omega
    · have hdiff : ¬ bytesAt block pat.offset.toNat pat.text = true :=
        fun h => hocc ((compared_occurs block pat.text (by omega) _).mp h)
      rw [if_neg hdiff, ite_self]
      constructor
      · intro h
        contradiction
      · rintro ⟨ho, heq⟩
        rw [← heq, Int.toNat_natCast] at hocc
        exact absurd ho hocc
  · rw [if_neg hoff, if_neg hoff]
    exact memmem_first block pat.text (by omega) o

/-- A block, the place of a pattern among the registered ones, and where the
pattern lies in the block. -/
structure Occurrence where
  block : ℕ
  index : ℕ
  position : ℕ
  deriving DecidableEq

def Occurrence.Precedes (f g : Occurrence) : Prop :=
  f.block < g.block ∨ f.block = g.block ∧ f.index < g.index

structure Reports (fm : FileMirror) (patterns : List SignaturePattern) (hit : SignatureHit)
    (f : Occurrence) : Prop where
  block : hit.block.toNat = f.block
  byteOffset : hit.byteOffset.toNat = f.block*fm.blockSize.toNat+f.position
  pattern : ∃ pat, patterns[f.index]? = some pat ∧ pat.typeName = some hit.typeName ∧
    hit.isFooter = pat.isFooter

def blockOccurrences (fm : FileMirror) (patterns : List SignaturePattern) (block : ℕ) :
    List Occurrence :=
  patterns.zipIdx.filterMap (fun p =>
    (patternMatch fm.blockSize (ownBytes fm block) p.1).map (fun o => ⟨block, p.2, o⟩))

def scanOccurrences (fm : FileMirror) (patterns : List SignaturePattern) : List Occurrence :=
  (List.range fm.totalBlocks.toNat).flatMap (blockOccurrences fm patterns)

section Scans
variable (fm : FileMirror) (patterns : List SignaturePattern)

theorem blockOccurrences_block (block : ℕ) (f : Occurrence)
    (h : f ∈ blockOccurrences fm patterns block) : f.block = block := by
  obtain ⟨p, _, hp⟩ := List.mem_filterMap.mp h
  obtain ⟨o, _, rfl⟩ := Option.map_eq_some_iff.mp hp
  rfl

theorem blockOccurrences_sorted (block : ℕ) :
    (blockOccurrences fm patterns block).Pairwise Occurrence.Precedes := by
  have hindices : patterns.zipIdx.Pairwise (fun p q => p.2 < q.2) := by
    rw [← List.pairwise_map (f := Prod.snd), List.zipIdx_map_snd]
    exact List.pairwise_lt_range'
  refine hindices.filterMap _ ?_
  intro p q hpq f hf g hg
  obtain ⟨_, _, rfl⟩ := Option.map_eq_some_iff.mp hf
  obtain ⟨_, _, rfl⟩ := Option.map_eq_some_iff.mp hg
  exact Or.inr ⟨rfl, hpq⟩

theorem scanOccurrences_sorted :
    (scanOccurrences fm patterns).Pairwise Occurrence.Precedes := by
  refine List.pairwise_flatMap.mpr ⟨fun block _ => blockOccurrences_sorted fm patterns block, ?_⟩
  refine List.pairwise_lt_range.imp ?_
  intro block block' hlt f hf g hg
  rw [← blockOccurrences_block fm patterns block f hf,
    ← blockOccurrences_block fm patterns block' g hg] at hlt
  exact Or.inl hlt

variable (himage : fm.totalBlocks.toNat*fm.blockSize.toNat ≤ fm.image.length)
include himage

theorem ownBytes_length (block : ℕ) (h : block < fm.totalBlocks.toNat) :
    (ownBytes fm block).length = fm.blockSize.toNat := by
  have hend := Nat.mul_le_mul_right fm.blockSize.toNat (Nat.succ_le_of_lt h)
  rw [Nat.succ_mul] at hend
  exact slice_length fm.image _ _ (by omega)

variable (hpatterns : ∀ pat ∈ patterns, Registered pat ∧ 0 < pat.length)
include hpatterns

theorem match_found (block : ℕ) (h : block < fm.totalBlocks.toNat) (pat : SignaturePattern)
    (hpat : pat ∈ patterns) (o : ℕ) :
    patternMatch fm.blockSize (ownBytes fm block) pat = some o ↔
      FoundAt (ownBytes fm block) pat o :=
  patternMatch_found fm.blockSize _ pat (ownBytes_length fm himage block h)
    (hpatterns pat hpat).1 (hpatterns pat hpat).2 o

theorem mem_scanOccurrences (f : Occurrence) : f ∈ scanOccurrences fm patterns ↔
    f.block < fm.totalBlocks.toNat ∧ ∃ pat, patterns[f.index]? = some pat ∧
      FoundAt (ownBytes fm f.block) pat f.position := by
  rw [scanOccurrences, List.mem_flatMap]
  constructor
  · rintro ⟨block, hblock, hf⟩
    rw [List.mem_range] at hblock
    obtain ⟨⟨pat, i⟩, hp, hmap⟩ := List.mem_filterMap.mp hf
    obtain ⟨o, ho, rfl⟩ := Option.map_eq_some_iff.mp hmap
    have hpat := List.mk_mem_zipIdx_iff_getElem?.mp hp
    exact ⟨hblock, pat, hpat, (match_found fm patterns himage hpatterns block hblock pat
      (List.mem_of_getElem? hpat) o).mp ho⟩
  · rintro ⟨hblock, pat, hpat, hfound⟩
    refine ⟨f.block, List.mem_range.mpr hblock, List.mem_filterMap.mpr ⟨(pat, f.index),
      List.mk_mem_zipIdx_iff_getElem?.mpr hpat, Option.map_eq_some_iff.mpr ⟨f.position, ?_, rfl⟩⟩⟩
    exact (match_found fm patterns himage hpatterns f.block hblock pat
      (List.mem_of_getElem? hpat) f.position).mpr hfound

variable (readBlock : ReadBlock) (hsize : fm.totalBlocks.toNat*fm.blockSize.toNat < 2^64)
variable (hread : ∀ block < fm.totalBlocks.toNat,
  readBlock fm (UInt64.ofNat block) = .ok (ownBytes fm block))
include hsize

theorem hit_reports (block : ℕ) (h : block < fm.totalBlocks.toNat) (pat : SignaturePattern)
    (i o : ℕ) (hpat : patterns[i]? = some pat)
    (ho : patternMatch fm.blockSize (ownBytes fm block) pat = some o) :
    Reports fm patterns ⟨UInt64.ofNat block, UInt64.ofNat block*fm.blockSize+UInt64.ofNat o,
      pat.typeName.getD [], pat.isFooter⟩ ⟨block, i, o⟩ := by
  have hmem := List.mem_of_getElem? hpat
  have hfound := (match_found fm patterns himage hpatterns block h pat hmem o).mp ho
  obtain ⟨⟨_, name, _, _, hname⟩, hpos⟩ := hpatterns pat hmem
  have hfits := hfound.1.1
  rw [ownBytes_length fm himage block h] at hfits
  have hend := Nat.mul_le_mul_right fm.blockSize.toNat (Nat.succ_le_of_lt h)
  rw [Nat.succ_mul] at hend
  have hblock : (UInt64.ofNat block).toNat = block :=
    UInt64.toNat_ofNat_of_lt' (h.trans fm.totalBlocks.toNat_lt)
  have hplace : (UInt64.ofNat o).toNat = o :=
    UInt64.toNat_ofNat_of_lt' (show o < 2^64 by omega)
  refine ⟨hblock, ?_, pat, hpat, ?_, rfl⟩
  · rw [UInt64.toNat_add, UInt64.toNat_mul, hblock, hplace, Nat.mod_eq_of_lt (by omega),
      Nat.mod_eq_of_lt (by omega)]
  · rw [hname, Option.getD_some]

include hread

theorem blockHits_report (block : ℕ) (h : block < fm.totalBlocks.toNat) :
    List.Forall₂ (Reports fm patterns) (blockHits readBlock fm patterns block)
      (blockOccurrences fm patterns block) := by
  have hlen := ownBytes_length fm himage block h
  have hzip : patterns = patterns.zipIdx.map Prod.fst := (List.zipIdx_map_fst 0 patterns).symm
  have hhits : blockHits readBlock fm patterns block =
      patterns.zipIdx.filterMap (fun p =>
        patternHit fm (UInt64.ofNat block) (ownBytes fm block) p.1) := by
    rw [blockHits, hread block h]
    dsimp only
    rw [if_neg (by omega)]
    conv_lhs => rw [hzip, List.filterMap_map]
    rfl
  rw [hhits, blockOccurrences]
  refine List.rel_filterMap (R := fun p q => p = q ∧ p ∈ patterns.zipIdx) ?_
    (List.forall₂_same.mpr fun p hp => ⟨rfl, hp⟩)
  rintro ⟨pat, i⟩ _ ⟨rfl, hp⟩
  have hpat := List.mk_mem_zipIdx_iff_getElem?.mp hp
  dsimp only [patternHit]
  cases ho : patternMatch fm.blockSize (ownBytes fm block) pat with
  | none => exact Option.Rel.none
  | some o =>
    exact Option.Rel.some (hit_reports fm patterns himage hpatterns hsize block h pat i o hpat ho)

theorem scanHits_report : List.Forall₂ (Reports fm patterns)
    ((List.range fm.totalBlocks.toNat).flatMap (blockHits readBlock fm patterns))
    (scanOccurrences fm patterns) := by
  refine List.rel_flatMap (R := fun b c => b = c ∧ b < fm.totalBlocks.toNat)
    (List.forall₂_same.mpr fun b hb => ⟨rfl, List.mem_range.mp hb⟩) ?_
  rintro b _ ⟨rfl, hb⟩
  exact blockHits_report fm patterns himage hpatterns readBlock hsize hread b hb

end Scans

/-- A scan of an image of whole blocks appends one hit for each occurrence of a
pattern in a block, in the order of the blocks and then of the patterns. -/
theorem scan_exact (readBlock : ReadBlock) (engine : DiscoveryEngine) (fm : FileMirror)
    (himage : fm.totalBlocks.toNat*fm.blockSize.toNat ≤ fm.image.length)
    (hsize : fm.totalBlocks.toNat*fm.blockSize.toNat < 2^64)
    (hread : ∀ block < fm.totalBlocks.toNat,
      readBlock fm (UInt64.ofNat block) = .ok (ownBytes fm block))
    (hpatterns : ∀ pat ∈ engine.patterns, Registered pat ∧ 0 < pat.length) :
    (discoveryScan readBlock engine fm []).1 = none ∧
    ∃ new found, (discoveryScan readBlock engine fm []).2.1.hits = engine.hits++new ∧
      List.Forall₂ (Reports fm engine.patterns) new found ∧
      found.Pairwise Occurrence.Precedes ∧
      ∀ f, f ∈ found ↔ f.block < fm.totalBlocks.toNat ∧
        ∃ pat, engine.patterns[f.index]? = some pat ∧
          FoundAt (ownBytes fm f.block) pat f.position :=
  ⟨rfl, _, scanOccurrences fm engine.patterns, scan_hits readBlock fm engine,
    scanHits_report fm engine.patterns himage hpatterns readBlock hsize hread,
    scanOccurrences_sorted fm engine.patterns,
    mem_scanOccurrences fm engine.patterns himage hpatterns⟩

def pairMirror : FileMirror := { DefaultSignatures.segmentMirror with
  image := [1, 2, 1, 2, 0, 2, 0, 2]
  imageSize := 8
  blockSize := 4
  totalBlocks := 2
  coveredMask := [false, false]
  apparentBlocks := 2 }

def pairEngine : DiscoveryEngine where
  patterns := [⟨some [2], 1, -1, false, some ['a']⟩, ⟨some [1, 2], 2, 2, true, some ['b']⟩]
  patternCapacity := 16
  hits := []
  hitCapacity := 64

theorem pair_scan_exact :
    (discoveryScan fileMirrorReadBlock pairEngine pairMirror []).1 = none ∧
    ∃ new found,
      (discoveryScan fileMirrorReadBlock pairEngine pairMirror []).2.1.hits =
        pairEngine.hits++new ∧
      List.Forall₂ (Reports pairMirror pairEngine.patterns) new found ∧
      found.Pairwise Occurrence.Precedes ∧
      ∀ f, f ∈ found ↔ f.block < pairMirror.totalBlocks.toNat ∧
        ∃ pat, pairEngine.patterns[f.index]? = some pat ∧
          FoundAt (ownBytes pairMirror f.block) pat f.position := by
  refine scan_exact fileMirrorReadBlock pairEngine pairMirror (by decide) (by decide) ?_ ?_
  · intro block hblock
    have hlt : block < 2 := hblock
    obtain rfl | rfl : block = 0 ∨ block = 1 := by omega
    · rfl
    · rfl
  · simp [pairEngine, Registered]

example : (discoveryScan fileMirrorReadBlock pairEngine pairMirror []).2.1.hits.map
    (fun hit => (hit.block, hit.byteOffset, hit.typeName)) =
      [(0, 1, ['a']), (0, 2, ['b']), (1, 5, ['a'])] := by decide

end EraseCure.ExactScans
