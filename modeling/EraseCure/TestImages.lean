import EraseCure.ByteRanges
import EraseCure.FileSystems
import EraseCure.Hashing
import EraseCure.ScatteredFiles

/-!
# Synthetic evidence images

An image is a buffer of blocks of zeros. A file is embedded block by block from
the next free block on, with a gap of two blocks in the middle for one of the
patterns, and a record of the blocks is kept. What the copy of a block writes
past the end of the buffer is lost.
-/

set_option autoImplicit false

namespace EraseCure.TestImages
open EraseCure.CText EraseCure.FileSystems EraseCure.ByteRanges EraseCure.Hashing
open EraseCure.ScatteredFiles

inductive TestImageError where
  | invalidParam | memoryAllocationFailed | filesystem
  deriving DecidableEq

inductive FragPattern where
  | contiguous | gap | outOfOrder | interleaved | duplicateBlocks
  deriving DecidableEq

structure GroundTruthRecord where
  name : CString 64
  originalSize : ℕ
  startBlock : ℕ
  actualBlocks : List ℕ
  blockCount : ℕ
  sha256 : CString 65
  patternUsed : FragPattern

structure SyntheticEvidenceImage where
  imagePath : CString 256
  imageSize : ℕ
  blockSize : ℕ
  totalBlocks : ℕ
  data : Bytes
  nextFreeBlock : ℕ
  records : List GroundTruthRecord
  recordCapacity : ℕ

def u64 (n : ℕ) : ℕ := n%2^64

/-- An allocation succeeds for fewer than `2^63` bytes only. -/
structure InitIo where
  imageAllocated : Bool
  recordsAllocated : Bool

def testImageGenInit (io : InitIo) (path : Text) (blockSize totalBlocks : ℕ) :
    Except TestImageError SyntheticEvidenceImage :=
  if blockSize = 0 ∨ totalBlocks = 0 then .error .invalidParam
  else if io.imageAllocated = false ∨ 2^63 ≤ totalBlocks*blockSize then
    .error .memoryAllocationFailed
  else if io.recordsAllocated = false then .error .memoryAllocationFailed
  else
    .ok {
      imagePath := printed256 path
      imageSize := u64 (blockSize*totalBlocks)
      blockSize := blockSize
      totalBlocks := totalBlocks
      data := List.replicate (totalBlocks*blockSize) 0
      nextFreeBlock := 0
      records := []
      recordCapacity := 16 }

/-- A copy into the buffer, without the bytes that lie past its end. -/
def copyInto (xs : Bytes) (offset : ℕ) (chunk : Bytes) : Bytes :=
  (overwrite xs ⟨offset, chunk⟩).take xs.length

/-- The loop over the blocks of a file, and what is left of the file. -/
structure Placement where
  nextFreeBlock : ℕ
  data : Bytes
  actualBlocks : List ℕ
  ptr : Bytes

section Loop
variable (blockSize dataLen needed : ℕ) (gapAt : Option ℕ)

/-- One round of any of the three loops, which differ in the gap only. -/
def placeBlock (i : ℕ) (p : Placement) : Placement :=
  let next := if gapAt = some i then u64 (p.nextFreeBlock+2) else p.nextFreeBlock
  let copyLen :=
    if i+1 = needed ∧ dataLen%blockSize ≠ 0 then dataLen%blockSize else blockSize
  { nextFreeBlock := u64 (next+1)
    data := copyInto p.data (next*blockSize) (p.ptr.take copyLen)
    actualBlocks := p.actualBlocks++[next]
    ptr := p.ptr.drop copyLen }

def placeBlocks : ℕ → ℕ → Placement → Placement
  | _, 0, p => p
  | i, left+1, p => placeBlocks (i+1) left (placeBlock blockSize dataLen needed gapAt i p)

end Loop

/-- A file to embed, whose bytes are an object in memory, and whether the two
allocations succeed. -/
structure EmbedCall where
  fileName : Text
  data : Bytes
  object : data.length < 2^63
  pattern : FragPattern
  blocksAllocated : Bool
  recordsReallocated : Bool

def blocksNeeded (img : SyntheticEvidenceImage) (call : EmbedCall) : ℕ :=
  u64 (call.data.length+img.blockSize-1)/img.blockSize

/-- The index before which two blocks are left out. -/
def gapIndex (pattern : FragPattern) (needed : ℕ) : Option ℕ :=
  if pattern = .gap then some (needed/2) else none

def placed (img : SyntheticEvidenceImage) (call : EmbedCall) : Placement :=
  placeBlocks img.blockSize call.data.length (blocksNeeded img call)
    (gapIndex call.pattern (blocksNeeded img call)) 0 (blocksNeeded img call)
    ⟨img.nextFreeBlock, img.data, [], call.data⟩

def recordOf (sha256 : Bytes → Digest) (img : SyntheticEvidenceImage) (call : EmbedCall) :
    GroundTruthRecord where
  name := printed64 call.fileName
  originalSize := call.data.length
  startBlock := img.nextFreeBlock
  actualBlocks := (placed img call).actualBlocks
  blockCount := blocksNeeded img call
  sha256 := printed65 (hashDigestToHex (sha256 call.data))
  patternUsed := call.pattern

/-- The image as it is left, and the record that is returned. -/
def testImageGenEmbedFile (sha256 : Bytes → Digest) (img : SyntheticEvidenceImage)
    (call : EmbedCall) : SyntheticEvidenceImage × Except TestImageError GroundTruthRecord :=
  if call.data = [] then (img, .error .invalidParam)
  else if img.totalBlocks < u64 (img.nextFreeBlock+blocksNeeded img call) then
    (img, .error .filesystem)
  else if call.blocksAllocated = false ∨ 2^63 ≤ blocksNeeded img call*8 then
    (img, .error .memoryAllocationFailed)
  else
    let p := placed img call
    let filled := { img with nextFreeBlock := p.nextFreeBlock, data := p.data }
    let entry := recordOf sha256 img call
    if img.recordCapacity ≤ img.records.length then
      if call.recordsReallocated = false then (filled, .error .memoryAllocationFailed)
      else
        ({ filled with
            records := img.records++[entry]
            recordCapacity := img.recordCapacity*2 }, .ok entry)
    else ({ filled with records := img.records++[entry] }, .ok entry)

def embedCalls (sha256 : Bytes → Digest) (img : SyntheticEvidenceImage)
    (calls : List EmbedCall) : SyntheticEvidenceImage :=
  calls.foldl (fun img call => (testImageGenEmbedFile sha256 img call).1) img

/-- The checks that come before the loop. -/
def Passes (img : SyntheticEvidenceImage) (call : EmbedCall) : Prop :=
  call.data ≠ [] ∧ u64 (img.nextFreeBlock+blocksNeeded img call) ≤ img.totalBlocks ∧
    call.blocksAllocated = true ∧ blocksNeeded img call*8 < 2^63

/-- There is room for one more record, or room is made. -/
def Stored (img : SyntheticEvidenceImage) (call : EmbedCall) : Prop :=
  img.records.length < img.recordCapacity ∨ call.recordsReallocated = true

section Outcomes
variable (sha256 : Bytes → Digest) (img : SyntheticEvidenceImage) (call : EmbedCall)

theorem embed_refused (h : ¬ Passes img call) :
    ∃ e, testImageGenEmbedFile sha256 img call = (img, .error e) := by
  unfold testImageGenEmbedFile
  split_ifs with hempty hroom halloc
  · exact ⟨_, rfl⟩
  · exact ⟨_, rfl⟩
  · exact ⟨_, rfl⟩
  all_goals
    push Not at halloc
    exact absurd ⟨hempty, Nat.le_of_not_lt hroom, Bool.eq_true_of_not_eq_false halloc.1, halloc.2⟩ h

theorem passes_enters (h : Passes img call) : call.data ≠ [] ∧
    ¬ img.totalBlocks < u64 (img.nextFreeBlock+blocksNeeded img call) ∧
    ¬ (call.blocksAllocated = false ∨ 2^63 ≤ blocksNeeded img call*8) := by
  obtain ⟨hne, hroom, halloc, hsmall⟩ := h
  refine ⟨hne, Nat.not_lt_of_le hroom, ?_⟩
  rw [halloc]
  simpa using hsmall

theorem embed_unstored (h : Passes img call) (hs : ¬ Stored img call) :
    testImageGenEmbedFile sha256 img call =
      ({ img with
          nextFreeBlock := (placed img call).nextFreeBlock
          data := (placed img call).data }, .error .memoryAllocationFailed) := by
  obtain ⟨hne, hroom, halloc⟩ := passes_enters img call h
  rw [Stored, not_or, not_lt, Bool.not_eq_true] at hs
  rw [testImageGenEmbedFile, if_neg hne, if_neg hroom, if_neg halloc]
  dsimp only
  rw [if_pos hs.1, if_pos hs.2]

theorem embed_stored (h : Passes img call) (hs : Stored img call) :
    ∃ capacity, testImageGenEmbedFile sha256 img call =
      ({ img with
          nextFreeBlock := (placed img call).nextFreeBlock
          data := (placed img call).data
          records := img.records++[recordOf sha256 img call]
          recordCapacity := capacity }, .ok (recordOf sha256 img call)) := by
  obtain ⟨hne, hroom, halloc⟩ := passes_enters img call h
  rw [testImageGenEmbedFile, if_neg hne, if_neg hroom, if_neg halloc]
  dsimp only
  by_cases hfull : img.recordCapacity ≤ img.records.length
  · have hmade : ¬ call.recordsReallocated = false := by
      rw [hs.resolve_left (Nat.not_lt_of_le hfull)]
      simp
    rw [if_pos hfull, if_neg hmade]
    exact ⟨_, rfl⟩
  · rw [if_neg hfull]
    exact ⟨_, rfl⟩

end Outcomes

theorem embedCalls_concat (sha256 : Bytes → Digest) (img : SyntheticEvidenceImage)
    (calls : List EmbedCall) (call : EmbedCall) :
    embedCalls sha256 img (calls++[call]) =
      (testImageGenEmbedFile sha256 (embedCalls sha256 img calls) call).1 := by
  rw [embedCalls, List.foldl_append]
  rfl

/-- What holds of an image from its beginning on. -/
structure Formed (img : SyntheticEvidenceImage) : Prop where
  size : 0 < img.blockSize
  total : 0 < img.totalBlocks
  object : img.totalBlocks*img.blockSize < 2^63
  length : img.data.length = img.totalBlocks*img.blockSize
  next : img.nextFreeBlock ≤ img.totalBlocks+2

theorem init_formed (io : InitIo) (path : Text) (blockSize totalBlocks : ℕ)
    (img : SyntheticEvidenceImage)
    (h : testImageGenInit io path blockSize totalBlocks = .ok img) : Formed img ∧
      img.blockSize = blockSize ∧ img.totalBlocks = totalBlocks ∧ img.nextFreeBlock = 0 ∧
      img.records = [] ∧ img.data = List.replicate (totalBlocks*blockSize) 0 := by
  unfold testImageGenInit at h
  split_ifs at h with hzero hlarge
  cases h
  push Not at hzero hlarge
  exact ⟨⟨Nat.pos_of_ne_zero hzero.1, Nat.pos_of_ne_zero hzero.2, hlarge.2,
    List.length_replicate, Nat.zero_le _⟩, rfl, rfl, rfl, rfl, rfl⟩

section Needed
variable (img : SyntheticEvidenceImage) (h : Formed img) (call : EmbedCall)
include h

theorem total_small : img.totalBlocks < 2^63 :=
  Nat.lt_of_le_of_lt (Nat.le_mul_of_pos_right _ h.size) h.object

theorem blocksNeeded_eq :
    blocksNeeded img call = (call.data.length+img.blockSize-1)/img.blockSize := by
  have hsize : img.blockSize < 2^63 :=
    Nat.lt_of_le_of_lt (Nat.le_mul_of_pos_left _ h.total) h.object
  have hdata := call.object
  rw [blocksNeeded, u64, Nat.mod_eq_of_lt (by omega)]

theorem blocksNeeded_cover : call.data.length ≤ blocksNeeded img call*img.blockSize := by
  rw [blocksNeeded_eq img h call]
  have hdiv := Nat.div_add_mod (call.data.length+img.blockSize-1) img.blockSize
  have hmod := Nat.mod_lt (call.data.length+img.blockSize-1) h.size
  have hpos := h.size
  rw [Nat.mul_comm] at hdiv
  omega

theorem blocksNeeded_least :
    blocksNeeded img call*img.blockSize < call.data.length+img.blockSize := by
  rw [blocksNeeded_eq img h call]
  have hle := Nat.div_mul_le_self (call.data.length+img.blockSize-1) img.blockSize
  have hpos := h.size
  omega

theorem blocksNeeded_pos (hne : call.data ≠ []) : 0 < blocksNeeded img call := by
  have hlen := List.length_pos_iff.mpr hne
  have hcover := blocksNeeded_cover img h call
  by_contra hzero
  rw [Nat.eq_zero_of_not_pos hzero, Nat.zero_mul] at hcover
  omega

/-- The sum of the room check does not wrap once the array of blocks is there. -/
theorem passes_room (hp : Passes img call) :
    img.nextFreeBlock+blocksNeeded img call ≤ img.totalBlocks := by
  have htotal := total_small img h
  have hneeded := hp.2.2.2
  have hnext := h.next
  have hroom := hp.2.1
  rwa [u64, Nat.mod_eq_of_lt (by omega)] at hroom

end Needed

section Rounds
variable (gapAt : Option ℕ)

def nextNumber (i next : ℕ) : ℕ := if gapAt = some i then next+2 else next

def assigned : ℕ → ℕ → ℕ → List ℕ
  | _, 0, _ => []
  | i, left+1, next => nextNumber gapAt i next::assigned (i+1) left (nextNumber gapAt i next+1)

def after : ℕ → ℕ → ℕ → ℕ
  | _, 0, next => next
  | i, left+1, next => after (i+1) left (nextNumber gapAt i next+1)

theorem nextNumber_le (i next : ℕ) : next ≤ nextNumber gapAt i next := by
  rw [nextNumber]
  split_ifs <;> omega

theorem after_no_gap (i left next : ℕ) (h : ∀ g ∈ gapAt, g < i ∨ i+left ≤ g) :
    after gapAt i left next = next+left := by
  induction left generalizing i next with
  | zero => rfl
  | succ left ih =>
    have hne : ¬ gapAt = some i := fun he => by
      have := h i he
      omega
    rw [after, ih (i+1) _ (fun g hg => by have := h g hg; omega), nextNumber, if_neg hne]
    omega

theorem after_gap (g i left next : ℕ) (hi : i ≤ g) (hl : g < i+left) :
    after (some g) i left next = next+left+2 := by
  induction left generalizing i next with
  | zero => omega
  | succ left ih =>
    rw [after]
    by_cases hg : g = i
    · subst hg
      rw [after_no_gap (some g) _ _ _ (fun g' hg' => by cases hg'; omega), nextNumber, if_pos rfl]
      omega
    · have hne : ¬ some g = some i := fun he => hg (Option.some.inj he)
      rw [ih (i+1) _ (by omega) (by omega), nextNumber, if_neg hne]
      omega

theorem after_le (i left next : ℕ) : next+left ≤ after gapAt i left next ∧
    after gapAt i left next ≤ next+left+2 := by
  cases gapAt with
  | none =>
    rw [after_no_gap none i left next (fun g hg => by contradiction)]
    omega
  | some g =>
    by_cases hin : i ≤ g ∧ g < i+left
    · rw [after_gap g i left next hin.1 hin.2]
      omega
    · rw [after_no_gap (some g) i left next (fun g' hg' => by cases hg'; omega)]
      omega

theorem assigned_between (i left next : ℕ) :
    ∀ b ∈ assigned gapAt i left next, next ≤ b ∧ b < after gapAt i left next := by
  induction left generalizing i next with
  | zero => exact fun b hb => absurd hb List.not_mem_nil
  | succ left ih =>
    intro b hb
    have hle := nextNumber_le gapAt i next
    rcases List.mem_cons.mp hb with rfl | hb
    · have hafter := (after_le gapAt (i+1) left (nextNumber gapAt i next+1)).1
      rw [after]
      omega
    · obtain ⟨h1, h2⟩ := ih _ _ b hb
      exact ⟨by omega, h2⟩

theorem assigned_increasing (i left next : ℕ) :
    (assigned gapAt i left next).Pairwise (fun a b => a < b) := by
  induction left generalizing i next with
  | zero => exact List.Pairwise.nil
  | succ left ih =>
    rw [assigned, List.pairwise_cons]
    exact ⟨fun b hb => (assigned_between gapAt _ _ _ b hb).1, ih _ _⟩

theorem assigned_last (i left next : ℕ) (h : 0 < left) :
    ∃ b ∈ assigned gapAt i left next, b+1 = after gapAt i left next := by
  induction left generalizing i next with
  | zero => contradiction
  | succ left ih =>
    cases left with
    | zero => exact ⟨_, List.mem_cons_self, rfl⟩
    | succ left =>
      obtain ⟨b, hb, hafter⟩ := ih (i+1) (nextNumber gapAt i next+1) (Nat.succ_pos _)
      exact ⟨b, List.mem_cons_of_mem _ hb, hafter⟩

end Rounds

theorem copyInto_length (xs : Bytes) (offset : ℕ) (chunk : Bytes) :
    (copyInto xs offset chunk).length = xs.length := by
  rw [copyInto, List.length_take, overwrite]
  simp only [Piece.stop, List.length_append, List.length_take, List.length_drop]
  omega

theorem copyInto_inside (xs : Bytes) (offset : ℕ) (chunk : Bytes)
    (h : offset+chunk.length ≤ xs.length) :
    copyInto xs offset chunk = overwrite xs ⟨offset, chunk⟩ := by
  rw [copyInto, List.take_of_length_le]
  exact Nat.le_of_eq (overwrite_length xs ⟨offset, chunk⟩ h)

section Blocks
variable (blockSize dataLen needed : ℕ) (gapAt : Option ℕ)

/-- What is left of the file in a round. -/
structure InRound (i left : ℕ) (p : Placement) : Prop where
  size : 0 < blockSize
  rounds : i+left = needed
  cover : dataLen ≤ needed*blockSize
  least : needed*blockSize < dataLen+blockSize
  ptr : p.ptr.length = dataLen-i*blockSize
  exact : after gapAt i left p.nextFreeBlock < 2^64

theorem placeBlock_eq (i left : ℕ) (p : Placement)
    (h : InRound blockSize dataLen needed gapAt i (left+1) p) :
    placeBlock blockSize dataLen needed gapAt i p =
      { nextFreeBlock := nextNumber gapAt i p.nextFreeBlock+1
        data := copyInto p.data (nextNumber gapAt i p.nextFreeBlock*blockSize)
          (p.ptr.take blockSize)
        actualBlocks := p.actualBlocks++[nextNumber gapAt i p.nextFreeBlock]
        ptr := p.ptr.drop blockSize } := by
  obtain ⟨hsize, hrounds, hcover, hleast, hptr, hexact⟩ := h
  have hbound : nextNumber gapAt i p.nextFreeBlock+1+left < 2^64 :=
    Nat.lt_of_le_of_lt (after_le gapAt (i+1) left _).1 hexact
  have hnext : (if gapAt = some i then u64 (p.nextFreeBlock+2) else p.nextFreeBlock) =
      nextNumber gapAt i p.nextFreeBlock := by
    rw [nextNumber] at hbound ⊢
    split_ifs with hg
    · rw [if_pos hg] at hbound
      exact Nat.mod_eq_of_lt (by omega)
    · rfl
  have hsucc : u64 (nextNumber gapAt i p.nextFreeBlock+1) =
      nextNumber gapAt i p.nextFreeBlock+1 := Nat.mod_eq_of_lt (by omega)
  rw [placeBlock]
  simp only [hnext, hsucc]
  split_ifs with hlast
  · -- the last block is cut where the file ends
    obtain ⟨hi, hrest⟩ := hlast
    rw [← hi, Nat.succ_mul] at hcover hleast
    have hmod : dataLen%blockSize = p.ptr.length := by
      rw [hptr]
      by_cases hfull : dataLen = i*blockSize+blockSize
      · rw [hfull, Nat.add_mod_right, Nat.mul_mod_left] at hrest
        contradiction
      · have hsplit : dataLen = blockSize*i+(dataLen-i*blockSize) := by
          rw [Nat.mul_comm blockSize i]
          omega
        conv_lhs => rw [hsplit]
        rw [Nat.mul_add_mod, Nat.mod_eq_of_lt (by omega)]
    have hle : p.ptr.length ≤ blockSize := by omega
    rw [hmod, List.take_length, List.drop_length, List.take_of_length_le hle,
      List.drop_of_length_le hle]
  · rfl

theorem placeBlock_round (i left : ℕ) (p : Placement)
    (h : InRound blockSize dataLen needed gapAt i (left+1) p) :
    InRound blockSize dataLen needed gapAt (i+1) left
      (placeBlock blockSize dataLen needed gapAt i p) := by
  have hptr := h.ptr
  have hrounds := h.rounds
  rw [placeBlock_eq blockSize dataLen needed gapAt i left p h]
  refine ⟨h.size, by omega, h.cover, h.least, ?_, h.exact⟩
  rw [List.length_drop, hptr, Nat.succ_mul]
  omega

theorem placeBlocks_numbers (i left : ℕ) (p : Placement)
    (h : InRound blockSize dataLen needed gapAt i left p) :
    (placeBlocks blockSize dataLen needed gapAt i left p).nextFreeBlock =
      after gapAt i left p.nextFreeBlock ∧
    (placeBlocks blockSize dataLen needed gapAt i left p).actualBlocks =
      p.actualBlocks++assigned gapAt i left p.nextFreeBlock ∧
    (placeBlocks blockSize dataLen needed gapAt i left p).data.length = p.data.length := by
  induction left generalizing i p with
  | zero => exact ⟨rfl, (List.append_nil _).symm, rfl⟩
  | succ left ih =>
    have hround := placeBlock_round blockSize dataLen needed gapAt i left p h
    obtain ⟨hnext, hblocks, hlen⟩ := ih (i+1) _ hround
    rw [placeBlocks, hnext, hblocks, hlen,
      placeBlock_eq blockSize dataLen needed gapAt i left p h]
    refine ⟨rfl, ?_, copyInto_length _ _ _⟩
    rw [List.append_assoc]
    rfl

/-- Where all blocks lie inside the image they hold the file afterwards, and
nothing else has changed. -/
theorem placeBlocks_holds (i left : ℕ) (p : Placement)
    (h : InRound blockSize dataLen needed gapAt i left p)
    (hinside : ∀ b ∈ assigned gapAt i left p.nextFreeBlock,
      b*blockSize+blockSize ≤ p.data.length) :
    Holds blockSize (placeBlocks blockSize dataLen needed gapAt i left p).data
      (assigned gapAt i left p.nextFreeBlock) p.ptr ∧
    ∀ pos, ¬ Covers blockSize (assigned gapAt i left p.nextFreeBlock) p.ptr.length pos →
      (placeBlocks blockSize dataLen needed gapAt i left p).data[pos]? = p.data[pos]? := by
  induction left generalizing i p with
  | zero =>
    refine ⟨?_, fun pos _ => rfl⟩
    have hrounds := h.rounds
    have hcover := h.cover
    rw [← hrounds, Nat.add_zero] at hcover
    exact List.length_eq_zero_iff.mp (h.ptr.trans (Nat.sub_eq_zero_of_le hcover))
  | succ left ih =>
    have hround := placeBlock_round blockSize dataLen needed gapAt i left p h
    have heq := placeBlock_eq blockSize dataLen needed gapAt i left p h
    generalize hn : nextNumber gapAt i p.nextFreeBlock = n at heq
    have hblocks : assigned gapAt i (left+1) p.nextFreeBlock =
        n::assigned gapAt (i+1) left (n+1) := by rw [assigned, hn]
    rw [hblocks] at hinside ⊢
    have hfits := hinside n List.mem_cons_self
    have hchunk : n*blockSize+(p.ptr.take blockSize).length ≤ p.data.length := by
      rw [List.length_take]
      omega
    rw [copyInto_inside _ _ _ hchunk] at heq
    have hstart : n*blockSize ≤ p.data.length := by omega
    have hlen : (placeBlock blockSize dataLen needed gapAt i p).data.length = p.data.length := by
      rw [heq]
      exact overwrite_length p.data ⟨n*blockSize, p.ptr.take blockSize⟩ hchunk
    obtain ⟨hrest, hframe⟩ := ih (i+1) _ hround (by
      rw [hlen, heq]
      exact fun b hb => hinside b (List.mem_cons_of_mem _ hb))
    rw [heq] at hrest hframe
    dsimp only at hrest hframe
    have hbehind : ∀ pos < n*blockSize+blockSize, ¬ Covers blockSize
        (assigned gapAt (i+1) left (n+1)) (p.ptr.drop blockSize).length pos := by
      intro pos hpos hc
      obtain ⟨b, hb, hle, _⟩ := covers_within blockSize _ _ _ hc
      have hb' := Nat.mul_le_mul_right blockSize (assigned_between gapAt _ _ _ b hb).1
      rw [Nat.succ_mul] at hb'
      omega
    rw [placeBlocks, heq]
    refine ⟨⟨?_, hrest⟩, fun pos hpos => ?_⟩
    · rw [← List.length_take, range_congr _ _ _ _ fun pos _ hpos => hframe pos (hbehind pos ?_)]
      · exact overwrite_written p.data ⟨n*blockSize, p.ptr.take blockSize⟩ hstart
      · rw [List.length_take] at hpos
        omega
    · rw [Covers, not_or] at hpos
      have hrestlen : (p.ptr.drop blockSize).length = p.ptr.length-blockSize := List.length_drop
      rw [hframe pos (by rw [hrestlen]; exact hpos.2), overwrite_outside _ _ hstart]
      intro hcov
      apply hpos.1
      rw [Piece.Covers, Piece.stop, List.length_take] at hcov
      exact hcov

end Blocks

def numbers (img : SyntheticEvidenceImage) (call : EmbedCall) : List ℕ :=
  assigned (gapIndex call.pattern (blocksNeeded img call)) 0 (blocksNeeded img call)
    img.nextFreeBlock

def nextAfter (img : SyntheticEvidenceImage) (call : EmbedCall) : ℕ :=
  img.nextFreeBlock+blocksNeeded img call+(if call.pattern = .gap then 2 else 0)

section Placed
variable (img : SyntheticEvidenceImage) (call : EmbedCall)

theorem nextAfter_eq (hne : 0 < blocksNeeded img call) :
    after (gapIndex call.pattern (blocksNeeded img call)) 0 (blocksNeeded img call)
      img.nextFreeBlock = nextAfter img call := by
  rw [nextAfter, gapIndex]
  split_ifs with hgap
  · exact after_gap _ 0 _ _ (Nat.zero_le _) (by omega)
  · exact after_no_gap none 0 _ _ (fun g hg => by contradiction)

variable (h : Formed img) (hp : Passes img call)
include h hp

theorem placed_round : InRound img.blockSize call.data.length (blocksNeeded img call)
    (gapIndex call.pattern (blocksNeeded img call)) 0 (blocksNeeded img call)
    ⟨img.nextFreeBlock, img.data, [], call.data⟩ where
  size := h.size
  rounds := Nat.zero_add _
  cover := blocksNeeded_cover img h call
  least := blocksNeeded_least img h call
  ptr := by rw [Nat.zero_mul, Nat.sub_zero]
  exact := by
    have hroom := passes_room img h call hp
    have htotal := total_small img h
    have hafter := (after_le (gapIndex call.pattern (blocksNeeded img call)) 0
      (blocksNeeded img call) img.nextFreeBlock).2
    exact Nat.lt_of_le_of_lt hafter (by omega)

theorem placed_next : (placed img call).nextFreeBlock = nextAfter img call := by
  rw [placed, (placeBlocks_numbers _ _ _ _ 0 _ _ (placed_round img call h hp)).1]
  exact nextAfter_eq img call (blocksNeeded_pos img h call hp.1)

theorem placed_blocks : (placed img call).actualBlocks = numbers img call := by
  rw [placed, (placeBlocks_numbers _ _ _ _ 0 _ _ (placed_round img call h hp)).2.1]
  rfl

theorem placed_length : (placed img call).data.length = img.data.length := by
  rw [placed, (placeBlocks_numbers _ _ _ _ 0 _ _ (placed_round img call h hp)).2.2]

theorem numbers_between (b : ℕ) (hb : b ∈ numbers img call) :
    img.nextFreeBlock ≤ b ∧ b < nextAfter img call := by
  rw [← nextAfter_eq img call (blocksNeeded_pos img h call hp.1)]
  exact assigned_between _ 0 _ _ b hb

theorem placed_formed (records : List GroundTruthRecord) (capacity : ℕ) :
    Formed { img with
      nextFreeBlock := (placed img call).nextFreeBlock
      data := (placed img call).data
      records := records
      recordCapacity := capacity } where
  size := h.size
  total := h.total
  object := h.object
  length := (placed_length img call h hp).trans h.length
  next := by
    have hroom := passes_room img h call hp
    rw [placed_next img call h hp, nextAfter]
    dsimp only
    split_ifs <;> omega

end Placed

theorem recorded_before (sha256 : Bytes → Digest) (img : SyntheticEvidenceImage) (call : EmbedCall)
    (r : GroundTruthRecord) (hr : r ∈ img.records++[recordOf sha256 img call]) :
    r ∈ img.records ∨ r = recordOf sha256 img call :=
  (List.mem_append.mp hr).imp_right List.mem_singleton.mp

theorem embed_formed (sha256 : Bytes → Digest) (img : SyntheticEvidenceImage) (call : EmbedCall)
    (h : Formed img) : Formed (testImageGenEmbedFile sha256 img call).1 := by
  by_cases hp : Passes img call
  · by_cases hs : Stored img call
    · obtain ⟨capacity, heq⟩ := embed_stored sha256 img call hp hs
      rw [heq]
      exact placed_formed img call h hp _ capacity
    · rw [embed_unstored sha256 img call hp hs]
      exact placed_formed img call h hp _ _
  · obtain ⟨e, heq⟩ := embed_refused sha256 img call hp
    rw [heq]
    exact h

end EraseCure.TestImages
