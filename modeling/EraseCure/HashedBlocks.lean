import EraseCure.BlockmapPasses
import EraseCure.EvidenceIntegrity

/-!
# The hashes of the blocks

A round of hashing reads a block, hashes it and records the digest. The result
of hashing is not looked at, so a round that could not hash its block records
what the digest array held before.
-/

set_option autoImplicit false

namespace EraseCure.HashedBlocks
open EraseCure.CText EraseCure.FileSystems EraseCure.Hashing EraseCure.FileMirrors
open EraseCure.Blockmaps EraseCure.BlockmapWorkers EraseCure.BlockmapPasses
open EraseCure.EvidenceIntegrity

variable {n : ℕ}

def ownBytes (fm : FileMirror) (block : ℕ) : Bytes :=
  (fm.image.drop (block*fm.blockSize.toNat)).take fm.blockSize.toNat

def BlockRead (io : HashIo) (fm : FileMirror) (block : ℕ) : Prop :=
  io.reads block = true ∧ (fileMirrorReadBlock fm (UInt64.ofNat block)).toOption.isSome = true

instance (io : HashIo) (fm : FileMirror) (block : ℕ) : Decidable (BlockRead io fm block) :=
  inferInstanceAs (Decidable (_ ∧ _))

/-- A computed hash is that of the block's own bytes, with the zero flag for
them, and a block that was not read or not hashed has none. -/
structure OwnHash (io : HashIo) (fm : FileMirror) (block : ℕ) (e : BlockmapEntry) : Prop where
  own : e.hashComputed = true →
    e.hash.chars = hashDigestToHex (io.sha256 (ownBytes fm block)) ∧
      (e.isZero = true ↔ ∀ b ∈ ownBytes fm block, b = 0)
  unset : ¬ (BlockRead io fm block ∧ io.hashes block = true) → e.hashComputed = false

/-- The blocks of a mirror lie within its size. -/
def Sized (fm : FileMirror) : Prop := fm.totalBlocks = fm.imageSize / fm.blockSize

theorem open_sized (io : MirrorIo) (imagePath : Text) (blockSize : UInt64) (fm : FileMirror)
    (h : fileMirrorOpen io imagePath blockSize = .ok fm) : Sized fm :=
  (open_opened io imagePath blockSize fm h).total_eq

theorem calls_sized (fm : FileMirror) (calls : List MirrorCall) (h : Sized fm) :
    Sized (mirrorCalls fm calls) := by
  obtain ⟨mask, apparent, hcalls⟩ := calls_same fm calls
  rw [hcalls]
  exact h

/-- The offset of a block does not wrap. -/
theorem block_offset (fm : FileMirror) (block : ℕ) (hfm : Sized fm) (hb : block < 2^64)
    (h : UInt64.ofNat block < fm.totalBlocks) :
    (UInt64.ofNat block*fm.blockSize).toNat = block*fm.blockSize.toNat := by
  have hblock : (UInt64.ofNat block).toNat = block := UInt64.toNat_ofNat_of_lt' hb
  have hlt : block < fm.imageSize.toNat / fm.blockSize.toNat := by
    rw [hfm, UInt64.lt_iff_toNat_lt, hblock, UInt64.toNat_div] at h
    exact h
  have hle : block*fm.blockSize.toNat ≤ fm.imageSize.toNat :=
    (Nat.mul_le_mul_right _ (Nat.le_of_lt hlt)).trans (Nat.div_mul_le_self _ _)
  have hsize := fm.imageSize.toNat_lt
  rw [UInt64.toNat_mul, hblock]
  exact Nat.mod_eq_of_lt (by omega)

theorem read_own (fm : FileMirror) (block : ℕ) (hfm : Sized fm) (hb : block < 2^64) (buf : Bytes)
    (h : fileMirrorReadBlock fm (UInt64.ofNat block) = .ok buf) : buf = ownBytes fm block := by
  rw [fileMirrorReadBlock] at h
  split_ifs at h with ht
  dsimp only at h
  rw [block_offset fm block hfm hb (UInt64.not_le.mp ht)] at h
  split_ifs at h
  exact (Except.ok.inj h).symm

theorem hashBlock_cases (io : HashIo) (fm : FileMirror) (block : ℕ) (digest : Digest)
    (hfm : Sized fm) (hb : block < 2^64) :
    (¬ BlockRead io fm block ∧ hashBlock io fm block digest = none) ∨
      ∃ found, BlockRead io fm block ∧
        (io.hashes block = true → found = io.sha256 (ownBytes fm block)) ∧
        hashBlock io fm block digest = some (found, hashDigestToHex found,
          (ownBytes fm block).all (fun b => b = 0)) := by
  cases hreads : io.reads block with
  | false =>
    refine Or.inl ⟨fun h => ?_, ?_⟩
    · rw [BlockRead, hreads] at h
      exact absurd h.1 (by decide)
    · simp only [hashBlock, hreads, Bool.not_false, if_true]
  | true =>
    cases hread : fileMirrorReadBlock fm (UInt64.ofNat block) with
    | error e =>
      refine Or.inl ⟨fun h => ?_, ?_⟩
      · rw [BlockRead, hread] at h
        exact absurd h.2 (by simp [Except.toOption])
      · simp only [hashBlock, hreads, hread, Bool.not_true, Bool.false_eq_true, if_false]
    | ok buf =>
      obtain rfl := read_own fm block hfm hb buf hread
      refine Or.inr ⟨if io.hashes block then io.sha256 (ownBytes fm block) else digest,
        ⟨hreads, ?_⟩, fun h => if_pos h, ?_⟩
      · rw [hread]
        rfl
      · simp only [hashBlock, hreads, hread, Bool.not_true, Bool.false_eq_true, if_false]

def RoundEntry (io : HashIo) (fm : FileMirror) (block : ℕ) (e e' : BlockmapEntry) : Prop :=
  (¬ BlockRead io fm block ∧ e' = e) ∨
    ∃ found, BlockRead io fm block ∧
      (io.hashes block = true → found = io.sha256 (ownBytes fm block)) ∧
      e' = { e with
        hash := printed65 (hashDigestToHex found)
        hashComputed := true
        isZero := (ownBytes fm block).all (fun b => b = 0) }

section Rounds
variable (io : HashIo) (fm : FileMirror)

theorem hashStep_entry (bm : Blockmap n) (digest : Digest) (hfm : Sized fm) (hn : n ≤ 2^64)
    (i b : Fin n) :
    (b = i → RoundEntry io fm i (bm.shadow.get b)
      ((hashStep io fm (bm, digest) i).1.shadow.get b)) ∧
    (b ≠ i → (hashStep io fm (bm, digest) i).1.shadow.get b = bm.shadow.get b) := by
  rcases hashBlock_cases io fm i digest hfm (i.isLt.trans_le hn) with
    ⟨hread, hblock⟩ | ⟨found, hread, hfound, hblock⟩
  · have hstep : hashStep io fm (bm, digest) i = (bm, digest) := by
      simp only [hashStep, hblock]
    rw [hstep]
    exact ⟨fun _ => Or.inl ⟨hread, rfl⟩, fun _ => rfl⟩
  · have hset : (hashStep io fm (bm, digest) i).1.shadow.get b =
        if i = b then { bm.shadow.get b with
          hash := printed65 (hashDigestToHex found)
          hashComputed := true
          isZero := (ownBytes fm i).all (fun b => b = 0) }
        else bm.shadow.get b := by
      simp only [hashStep, hblock, blockmapShadowSetHash, blockmapShadowSetZero, updateShadow,
        dif_pos i.isLt, performed, setEntry_get, Fin.eta]
      split_ifs <;> rfl
    rw [hset]
    refine ⟨fun hb => ?_, fun hb => if_neg hb.symm⟩
    rw [if_pos hb.symm]
    exact Or.inr ⟨found, hread, hfound, rfl⟩

/-- After the first rounds their blocks are done and the others untouched. -/
theorem rounds_entry (bm : Blockmap n) (hfm : Sized fm) (hn : n ≤ 2^64) (k : ℕ) (hk : k ≤ n)
    (b : Fin n) :
    (b.val < k → RoundEntry io fm b (bm.shadow.get b)
      (((List.range k).foldl (hashStep io fm) (bm, io.stack)).1.shadow.get b)) ∧
    (k ≤ b.val → ((List.range k).foldl (hashStep io fm) (bm, io.stack)).1.shadow.get b =
      bm.shadow.get b) := by
  induction k with
  | zero => exact ⟨fun h => absurd h (Nat.not_lt_zero _), fun _ => rfl⟩
  | succ k ih =>
    obtain ⟨hdone, hleft⟩ := ih (by omega)
    rw [List.range_succ, List.foldl_append, List.foldl_cons, List.foldl_nil]
    generalize (List.range k).foldl (hashStep io fm) (bm, io.stack) = s at hdone hleft ⊢
    obtain ⟨hown, hother⟩ := hashStep_entry io fm s.1 s.2 hfm hn ⟨k, hk⟩ b
    by_cases hb : b = ⟨k, hk⟩
    · have hbk : b.val = k := congrArg Fin.val hb
      have hround := hown hb
      rw [hleft (by omega)] at hround
      refine ⟨fun _ => ?_, fun h => by omega⟩
      rw [hbk]
      exact hround
    · have hbk : b.val ≠ k := fun h => hb (Fin.ext h)
      have hsame := hother hb
      refine ⟨fun h => ?_, fun h => hsame.trans (hleft (by omega))⟩
      have hround := hdone (by omega)
      rw [← hsame] at hround
      exact hround

theorem computeHashes_entry (bm bm' : Blockmap n) (callocPrimary callocShadow : Bool)
    (hfm : Sized fm) (hn : n ≤ 2^64)
    (hbm : blockmapCreate n callocPrimary callocShadow = .ok bm)
    (h : blockmapComputeHashes bm io fm = .ok bm') (b : Fin n) :
    RoundEntry io fm b .zero (bm'.primary.get b) := by
  have hround := (rounds_entry io fm bm hfm hn n (Nat.le_refl n) b).1 b.isLt
  have hzero : bm.shadow.get b = .zero := by
    rw [blockmapCreate] at hbm
    split_ifs at hbm
    cases hbm
    exact Vector.getElem_replicate b.isLt
  rw [blockmapComputeHashes] at h
  split_ifs at h
  cases h
  rw [hzero] at hround
  exact hround

/-- A round keeps the promise about its block unless hashing failed. -/
theorem round_own (block : ℕ) (e : BlockmapEntry) (h : RoundEntry io fm block .zero e) :
    OwnHash io fm block e ↔ (BlockRead io fm block → io.hashes block = true) := by
  rcases h with ⟨hread, rfl⟩ | ⟨found, hread, hfound, rfl⟩
  · exact iff_of_true ⟨fun h => absurd h (by decide), fun _ => rfl⟩ (fun h => absurd h hread)
  · constructor
    · intro hown _
      by_contra hhash
      have hunset := hown.unset (fun h => hhash h.2)
      contradiction
    · intro hhash
      refine ⟨fun _ => ⟨?_, by simp⟩, fun hno => absurd ⟨hread, hhash hread⟩ hno⟩
      rw [← hfound (hhash hread)]
      exact printed_chars 65 (by decide) _ (plain_nul _ (hex_plain found))
        (by rw [hex_length]; decide)

end Rounds

/-- The hashes of a new map are those of the blocks' own bytes exactly when no
block that was read failed to be hashed. -/
theorem own_hashes_iff (blockCount : UInt64) (callocPrimary callocShadow : Bool)
    (bm bm' : Blockmap blockCount.toNat) (mio : MirrorIo) (imagePath : Text) (blockSize : UInt64)
    (fm : FileMirror) (calls : List MirrorCall) (io : HashIo)
    (hbm : blockmapCreate blockCount.toNat callocPrimary callocShadow = .ok bm)
    (hfm : fileMirrorOpen mio imagePath blockSize = .ok fm)
    (h : blockmapComputeHashes bm io (mirrorCalls fm calls) = .ok bm') :
    (∀ b : Fin blockCount.toNat, OwnHash io (mirrorCalls fm calls) b (bm'.primary.get b)) ↔
      ∀ b : Fin blockCount.toNat, BlockRead io (mirrorCalls fm calls) b → io.hashes b = true := by
  have hsized := calls_sized fm calls (open_sized mio imagePath blockSize fm hfm)
  have hentry := computeHashes_entry io _ bm bm' callocPrimary callocShadow hsized
    (Nat.le_of_lt blockCount.toNat_lt) hbm h
  exact forall_congr' fun b => round_own io _ b _ (hentry b)

def twoBlocks : MirrorIo := ⟨some [0x41, 0x42], some 2, true, none⟩

/-- Hashing the first byte over and over; the second block cannot be hashed. -/
def secondUnhashed (second : Bool) : HashIo where
  malloc := true
  stack := Vector.replicate 32 0
  reads := fun _ => true
  hashes := fun i => i = 0 || second
  sha256 := fun data => Vector.replicate 32 (data.headD 0)

theorem own_hashes_iff_two : ∃ bm bm' fm,
    blockmapCreate (2 : UInt64).toNat true true = .ok bm ∧
      fileMirrorOpen twoBlocks "a".toList 1 = .ok fm ∧
      blockmapComputeHashes bm (secondUnhashed true) (mirrorCalls fm []) = .ok bm' ∧
      ((∀ b : Fin (2 : UInt64).toNat,
          OwnHash (secondUnhashed true) (mirrorCalls fm []) b (bm'.primary.get b)) ↔
        ∀ b : Fin (2 : UInt64).toNat, BlockRead (secondUnhashed true) (mirrorCalls fm []) b →
          (secondUnhashed true).hashes b = true) :=
  ⟨_, _, _, rfl, rfl, rfl, own_hashes_iff 2 true true _ _ twoBlocks "a".toList 1 _ []
    (secondUnhashed true) rfl rfl rfl⟩

/-- The second block gets the hash of the first one. -/
theorem hash_of_another : ∃ bm bm' fm,
    blockmapCreate (2 : UInt64).toNat true true = .ok bm ∧
      fileMirrorOpen twoBlocks "a".toList 1 = .ok fm ∧
      blockmapComputeHashes bm (secondUnhashed false) fm = .ok bm' ∧
      ownBytes fm 0 ≠ ownBytes fm 1 ∧
      (bm'.primary.get ⟨1, by decide⟩).hashComputed = true ∧
      (bm'.primary.get ⟨1, by decide⟩).hash = (bm'.primary.get ⟨0, by decide⟩).hash ∧
      ¬ ∀ b : Fin (2 : UInt64).toNat,
        OwnHash (secondUnhashed false) fm b (bm'.primary.get b) := by
  refine ⟨_, _, _, rfl, rfl, rfl, by decide, by decide, by decide, fun h => ?_⟩
  have hunset := (h ⟨1, by decide⟩).unset (by decide)
  exact absurd hunset (by decide)

end EraseCure.HashedBlocks
