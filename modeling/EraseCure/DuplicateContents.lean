import EraseCure.DuplicateGroups
import EraseCure.HashedBlocks
import Mathlib.Data.Set.Function

/-!
# Duplicates of an evidence image

A new map is hashed and searched for duplicates. The blocks that have a hash, are
not zero and are no duplicates then stand for the contents of the image: every
content of a block that can be read, but zeros, is that of one such block.
-/

set_option autoImplicit false

namespace EraseCure.DuplicateContents
open EraseCure.CText EraseCure.FileSystems EraseCure.Hashing EraseCure.FileMirrors
open EraseCure.Blockmaps EraseCure.BlockmapPasses EraseCure.EvidenceIntegrity
open EraseCure.HashedBlocks EraseCure.DuplicateGroups

variable {n : ℕ}

/-- The block can be read and is not zero. -/
def Holding (io : HashIo) (fm : FileMirror) (b : Fin n) : Prop :=
  BlockRead io fm b ∧ ∃ x ∈ ownBytes fm b, x ≠ 0

instance (io : HashIo) (fm : FileMirror) : DecidablePred (Holding (n := n) io fm) :=
  fun b => inferInstanceAs (Decidable (_ ∧ ∃ x ∈ ownBytes fm b, x ≠ 0))

/-- The block has a hash and is neither zero nor a duplicate. -/
def Kept (bm : Blockmap n) (b : Fin n) : Prop :=
  Eligible bm b ∧ (bm.primary.get b).isDuplicate = false

def contents (io : HashIo) (fm : FileMirror) (n : ℕ) : Set Bytes :=
  {data | ∃ b : Fin n, Holding io fm b ∧ ownBytes fm b = data}

section Hashed
variable (io : HashIo) (fm : FileMirror) (bm : Blockmap n)
variable (hentry : ∀ b : Fin n, RoundEntry io fm b .zero (bm.primary.get b))
variable (hhash : ∀ b : Fin n, BlockRead io fm b → io.hashes b = true)
include hentry

theorem hashed_unmarked (b : Fin n) : (bm.primary.get b).isDuplicate = false := by
  rcases hentry b with ⟨_, he⟩ | ⟨_, _, _, he⟩
  · rw [he]
    rfl
  · rw [he]
    rfl

theorem hashed_eligible (b : Fin n) : Eligible bm b ↔ Holding io fm b := by
  rw [Eligible, Holding]
  rcases hentry b with ⟨hread, he⟩ | ⟨_, hread, _, he⟩
  · rw [he]
    exact iff_of_false (fun h => absurd h.1 (by decide)) (fun h => hread h.1)
  · rw [he]
    simp [hread]

include hhash

theorem hashed_text (b : Fin n) (hb : Holding io fm b) :
    hashText bm b = hashDigestToHex (io.sha256 (ownBytes fm b)) := by
  have hown := (round_own io fm b _ (hentry b)).mpr (hhash b)
  exact (hown.own ((hashed_eligible io fm bm hentry b).mpr hb).1).1

theorem hashed_same (hinj : Set.InjOn io.sha256 (contents io fm n)) (a b : Fin n)
    (ha : Holding io fm a) (hb : Holding io fm b) :
    hashText bm a = hashText bm b ↔ ownBytes fm a = ownBytes fm b := by
  rw [hashed_text io fm bm hentry hhash a ha, hashed_text io fm bm hentry hhash b hb,
    hex_injective.eq_iff]
  exact hinj.eq_iff ⟨a, ha, rfl⟩ ⟨b, hb, rfl⟩

end Hashed

theorem hashed_published (io : HashIo) (fm : FileMirror) (bm bm' : Blockmap n)
    (h : blockmapComputeHashes bm io fm = .ok bm') : bm'.shadow = bm'.primary := by
  rw [blockmapComputeHashes] at h
  split_ifs at h
  cases h
  rfl

section Pass
variable (io : HashIo) (fm : FileMirror) (bm bm' : Blockmap n) (malloc : Bool) (qsort : Qsort n)
variable (hentry : ∀ b : Fin n, RoundEntry io fm b .zero (bm.primary.get b))
variable (hhash : ∀ b : Fin n, BlockRead io fm b → io.hashes b = true)
variable (hinj : Set.InjOn io.sha256 (contents io fm n))
variable (hshadow : bm.shadow = bm.primary)
variable (h : blockmapFindDuplicates bm malloc qsort = .ok bm')
include hentry hhash hinj hshadow h

theorem named_content (b e : Fin n) (hb : NamesExemplar bm' b e) :
    e ≠ b ∧ ownBytes fm e = ownBytes fm b := by
  have hmarks := hashed_unmarked io fm bm hentry
  have heligible := hashed_eligible io fm bm hentry
  obtain ⟨a, ha⟩ := (duplicate_iff bm bm' malloc qsort hmarks hshadow h b).mp hb.1
  obtain rfl : a = e :=
    Fin.ext ((linked_exemplar bm bm' malloc qsort h a b ha).symm.trans hb.2)
  obtain ⟨hea, heb, hne, hkey⟩ := links_eligible bm qsort a b ha
  refine ⟨hne, ?_⟩
  rw [← hashed_same io fm bm hentry hhash hinj a b ((heligible a).mp hea) ((heligible b).mp heb)]
  exact hkey.symm

/-- The named exemplars lead to the only block that is kept for a content. -/
theorem kept_root (b : Fin n) (hb : Holding io fm b) :
    ∃ root, Relation.ReflTransGen (NamesExemplar bm') b root ∧ Kept bm' root ∧
      ownBytes fm root = ownBytes fm b ∧
      ∀ c, Kept bm' c → ownBytes fm c = ownBytes fm b → c = root := by
  have hmarks := hashed_unmarked io fm bm hentry
  have hholding : ∀ c, Eligible bm' c → Holding io fm c := fun c hc =>
    (hashed_eligible io fm bm hentry c).mp
      ((eligible_kept bm bm' malloc qsort h hshadow c).mp hc)
  have hsame : ∀ c, Eligible bm' c →
      (hashText bm' c = hashText bm' b ↔ ownBytes fm c = ownBytes fm b) := by
    intro c hc
    rw [hash_kept bm bm' malloc qsort h hshadow, hash_kept bm bm' malloc qsort h hshadow]
    exact hashed_same io fm bm hentry hhash hinj c b (hholding c hc) hb
  obtain ⟨root, hlead, hroot, hkey, honly⟩ := duplicate_root bm bm' malloc qsort hmarks hshadow h b
    ((hashed_eligible io fm bm hentry b).mpr hb)
  exact ⟨root, hlead, ⟨hroot, (honly root hroot hkey).mpr rfl⟩, (hsame root hroot).mp hkey,
    fun c hc hcb => (honly c hc.1 ((hsame c hc.1).mpr hcb)).mp hc.2⟩

theorem kept_bijOn :
    Set.BijOn (fun b : Fin n => ownBytes fm b) {b | Kept bm' b} (contents io fm n) := by
  have hholding : ∀ b, Kept bm' b → Holding io fm b := fun b hb =>
    (hashed_eligible io fm bm hentry b).mp
      ((eligible_kept bm bm' malloc qsort h hshadow b).mp hb.1)
  refine ⟨fun b hb => ⟨b, hholding b hb, rfl⟩, fun a ha b hb hab => ?_, ?_⟩
  · obtain ⟨root, _, _, _, honly⟩ := kept_root io fm bm bm' malloc qsort hentry hhash hinj hshadow h
      b (hholding b hb)
    rw [honly a ha hab, honly b hb rfl]
  · rintro _ ⟨b, hb, rfl⟩
    obtain ⟨root, _, hroot, hsame, _⟩ := kept_root io fm bm bm' malloc qsort hentry hhash hinj
      hshadow h b hb
    exact ⟨root, hroot, hsame⟩

end Pass

/-- After a new map was hashed and searched for duplicates, one block is kept for
each content of the image, and the named exemplars lead to it through blocks of the
same content. -/
theorem contents_kept (blockCount : UInt64) (callocPrimary callocShadow : Bool)
    (bm hashed marked : Blockmap blockCount.toNat) (mio : MirrorIo) (imagePath : Text)
    (blockSize : UInt64) (opened fm : FileMirror) (calls : List MirrorCall) (io : HashIo)
    (malloc : Bool) (qsort : Qsort blockCount.toNat)
    (hbm : blockmapCreate blockCount.toNat callocPrimary callocShadow = .ok bm)
    (hopen : fileMirrorOpen mio imagePath blockSize = .ok opened)
    (hfm : fm = mirrorCalls opened calls)
    (hhashed : blockmapComputeHashes bm io fm = .ok hashed)
    (hmarked : blockmapFindDuplicates hashed malloc qsort = .ok marked)
    (hhash : ∀ b : Fin blockCount.toNat, BlockRead io fm b → io.hashes b = true)
    (hinj : Set.InjOn io.sha256 (contents io fm blockCount.toNat)) :
    Set.BijOn (fun b : Fin blockCount.toNat => ownBytes fm b) {b | Kept marked b}
        (contents io fm blockCount.toNat) ∧
      (∀ b e, NamesExemplar marked b e → e ≠ b ∧ ownBytes fm e = ownBytes fm b) ∧
      ∀ b, Holding io fm b →
        ∃ root, Kept marked root ∧ Relation.ReflTransGen (NamesExemplar marked) b root := by
  subst hfm
  have hsized := calls_sized opened calls (open_sized mio imagePath blockSize opened hopen)
  have hentry := computeHashes_entry io _ bm hashed callocPrimary callocShadow hsized
    (Nat.le_of_lt blockCount.toNat_lt) hbm hhashed
  have hshadow := hashed_published io _ bm hashed hhashed
  refine ⟨kept_bijOn io _ hashed marked malloc qsort hentry hhash hinj hshadow hmarked,
    named_content io _ hashed marked malloc qsort hentry hhash hinj hshadow hmarked,
    fun b hb => ?_⟩
  obtain ⟨root, hlead, hroot, _⟩ :=
    kept_root io _ hashed marked malloc qsort hentry hhash hinj hshadow hmarked b hb
  exact ⟨root, hroot, hlead⟩

def digestA : Digest := #v[
  0x55, 0x9a, 0xea, 0xd0, 0x82, 0x64, 0xd5, 0x79, 0x5d, 0x39, 0x09, 0x71, 0x8c, 0xdd, 0x05, 0xab,
  0xd4, 0x95, 0x72, 0xe8, 0x4f, 0xe5, 0x55, 0x90, 0xee, 0xf3, 0x1a, 0x88, 0xa0, 0x8f, 0xdf, 0xfd]

def digestB : Digest := #v[
  0xdf, 0x7e, 0x70, 0xe5, 0x02, 0x15, 0x44, 0xf4, 0x83, 0x4b, 0xbe, 0xe6, 0x4a, 0x9e, 0x37, 0x89,
  0xfe, 0xbc, 0x4b, 0xe8, 0x14, 0x70, 0xdf, 0x62, 0x9c, 0xad, 0x6d, 0xdb, 0x03, 0x32, 0x0a, 0x5c]

def threeBlocks : MirrorIo := ⟨some [0x41, 0x42, 0x41], some 3, true, none⟩

def allHashed : HashIo where
  malloc := true
  stack := Vector.replicate 32 0
  reads := fun _ => true
  hashes := fun _ => true
  sha256 := fun data => if data = [0x41] then digestA else digestB

theorem contents_kept_three : ∃ bm hashed marked fm,
    blockmapCreate (3 : UInt64).toNat true true = .ok bm ∧
      fileMirrorOpen threeBlocks "a".toList 1 = .ok fm ∧
      blockmapComputeHashes bm allHashed fm = .ok hashed ∧
      blockmapFindDuplicates hashed true (rankSort Fin.val) = .ok marked ∧
      Set.BijOn (fun b : Fin (3 : UInt64).toNat => ownBytes fm b) {b | Kept marked b}
        (contents allHashed fm (3 : UInt64).toNat) := by
  refine ⟨_, _, _, _, rfl, rfl, rfl, rfl, (contents_kept 3 true true _ _ _ threeBlocks "a".toList 1
    _ _ [] allHashed true (rankSort Fin.val) rfl rfl rfl rfl rfl (fun _ _ => rfl) ?_).1⟩
  rintro _ ⟨a, _, rfl⟩ _ ⟨b, _, rfl⟩ hab
  revert a b
  decide

end EraseCure.DuplicateContents
