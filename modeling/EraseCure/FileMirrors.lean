import EraseCure.Hashing
import EraseCure.FileSystems
import Mathlib.Data.Nat.Count
import Mathlib.Data.Set.Function

/-!
# The evidence image and its apparent image

A mirror reads an image block by block and hides the blocks that are covered.
Block numbers are words of 64 bits and the word of ones stands for no block.
The number of apparent blocks is kept beside the mask, and the two scans of the
mask translate between the apparent and the actual numbers.
-/

set_option autoImplicit false

namespace EraseCure.FileMirrors
open EraseCure.CText EraseCure.FileSystems EraseCure.Hashing

structure FileMirror where
  image : Bytes
  imageSize : UInt64
  blockSize : UInt64
  totalBlocks : UInt64
  imagePath : CString 256
  evidenceHash : CString 65
  hashVerified : Bool
  coveredMask : List Bool
  apparentBlocks : UInt64

inductive MirrorError where
  | invalidArg | fileNotFound | io | noMem
  deriving DecidableEq

/-- What the calls of opening return: the file behind the path, its size, the
zeroed mask, and the digest of the file. -/
structure MirrorIo where
  opened : Option Bytes
  fstat : Option UInt64
  calloc : Bool
  digest : Option Digest

def noBlock : UInt64 := -1

def fileMirrorOpen (io : MirrorIo) (imagePath : Text) (blockSize : UInt64) :
    Except MirrorError FileMirror :=
  if blockSize = 0 then .error .invalidArg
  else
    match io.opened with
    | none => .error .fileNotFound
    | some image =>
      match io.fstat with
      | none => .error .io
      | some size =>
        if !io.calloc then .error .noMem
        else .ok {
          image := image
          imageSize := size
          blockSize := blockSize
          totalBlocks := size / blockSize
          imagePath := printed256 imagePath
          evidenceHash := match io.digest with
            | some d => printed65 (hashDigestToHex d)
            | none => printed65 []
          hashVerified := io.digest.isSome
          coveredMask := List.replicate (size / blockSize).toNat false
          apparentBlocks := size / blockSize }

def fileMirrorMarkCovered (fm : FileMirror) (actualBlock : UInt64) : FileMirror :=
  if actualBlock < fm.totalBlocks ∧ fm.coveredMask[actualBlock.toNat]? = some false then
    { fm with
      coveredMask := fm.coveredMask.set actualBlock.toNat true
      apparentBlocks := if 0 < fm.apparentBlocks then fm.apparentBlocks-1 else fm.apparentBlocks }
  else fm

def fileMirrorUnmarkCovered (fm : FileMirror) (actualBlock : UInt64) : FileMirror :=
  if actualBlock < fm.totalBlocks ∧ fm.coveredMask[actualBlock.toNat]? = some true then
    { fm with
      coveredMask := fm.coveredMask.set actualBlock.toNat false
      apparentBlocks := fm.apparentBlocks+1 }
  else fm

def apparentScan (apparentBlock : UInt64) : List Bool → UInt64 → UInt64 → UInt64
  | [], _, _ => noBlock
  | covered::rest, i, apparentCount =>
    if covered then apparentScan apparentBlock rest (i+1) apparentCount
    else if apparentCount = apparentBlock then i
    else apparentScan apparentBlock rest (i+1) (apparentCount+1)

def fileMirrorApparentToActual (fm : FileMirror) (apparentBlock : UInt64) : UInt64 :=
  if fm.apparentBlocks ≤ apparentBlock then noBlock
  else apparentScan apparentBlock (fm.coveredMask.take fm.totalBlocks.toNat) 0 0

def apparentCount : List Bool → UInt64 → UInt64
  | [], n => n
  | covered::rest, n => apparentCount rest (if covered then n else n+1)

def fileMirrorActualToApparent (fm : FileMirror) (actualBlock : UInt64) : UInt64 :=
  if fm.totalBlocks ≤ actualBlock then noBlock
  else if fm.coveredMask[actualBlock.toNat]? = some true then noBlock
  else apparentCount (fm.coveredMask.take actualBlock.toNat) 0

/-- `pread` returns what the image holds at the offset. -/
def fileMirrorReadBlock (fm : FileMirror) (actualBlock : UInt64) : Except MirrorError Bytes :=
  if fm.totalBlocks ≤ actualBlock then .error .invalidArg
  else
    let buf := (fm.image.drop (actualBlock*fm.blockSize).toNat).take fm.blockSize.toNat
    if buf.length = fm.blockSize.toNat then .ok buf else .error .io

/-- The result and what is stored as the actual block. -/
def fileMirrorReadApparentBlock (fm : FileMirror) (apparentBlock : UInt64) :
    Except MirrorError Bytes × Option UInt64 :=
  if fm.apparentBlocks ≤ apparentBlock then (.error .invalidArg, none)
  else
    let actualBlock := fileMirrorApparentToActual fm apparentBlock
    if actualBlock = noBlock then (.error .invalidArg, none)
    else (fileMirrorReadBlock fm actualBlock, some actualBlock)

def Uncovered (mask : List Bool) (i : ℕ) : Prop := mask[i]? = some false

instance (mask : List Bool) : DecidablePred (Uncovered mask) :=
  fun i => inferInstanceAs (Decidable (mask[i]? = some false))

theorem uncovered_lt (mask : List Bool) (i : ℕ) (h : Uncovered mask i) : i < mask.length :=
  (List.getElem?_eq_some_iff.mp h).1

theorem uncovered_zero (covered : Bool) (rest : List Bool) :
    Uncovered (covered::rest) 0 ↔ covered = false := by
  simp [Uncovered]

theorem uncovered_succ (covered : Bool) (rest : List Bool) (i : ℕ) :
    Uncovered (covered::rest) (i+1) ↔ Uncovered rest i := by
  simp [Uncovered]

theorem count_cons (covered : Bool) (rest : List Bool) (n : ℕ) :
    Nat.count (Uncovered (covered::rest)) (n+1) =
      (if covered then 0 else 1)+Nat.count (Uncovered rest) n := by
  rw [Nat.count_succ', Nat.add_comm]
  cases covered <;> simp [uncovered_zero, uncovered_succ]

theorem count_take (mask : List Bool) (n : ℕ) :
    Nat.count (Uncovered mask) n = (mask.take n).count false := by
  induction mask generalizing n with
  | nil =>
    rw [List.take_nil, List.count_nil, Nat.count_iff_forall_not]
    intro i _ hi
    simp [Uncovered] at hi
  | cons covered rest ih =>
    cases n with
    | zero => simp
    | succ n =>
      rw [count_cons, ih, List.take_succ_cons]
      cases covered <;> simp [Nat.add_comm]

theorem count_length (mask : List Bool) :
    Nat.count (Uncovered mask) mask.length = mask.count false := by
  rw [count_take, List.take_length]

theorem toNat_succ (n : UInt64) (h : n.toNat+1 < 2^64) : (n+1).toNat = n.toNat+1 := by
  rw [UInt64.toNat_add]
  exact Nat.mod_eq_of_lt h

theorem apparentScan_spec (apparentBlock : UInt64) (mask : List Bool) (i n : UInt64)
    (hi : i.toNat+mask.length < 2^64) (hn : n.toNat ≤ i.toNat)
    (hk : n.toNat ≤ apparentBlock.toNat) :
    (∃ j, Uncovered mask j ∧ n.toNat+Nat.count (Uncovered mask) j = apparentBlock.toNat ∧
      (apparentScan apparentBlock mask i n).toNat = i.toNat+j) ∨
    (apparentScan apparentBlock mask i n = noBlock ∧
      n.toNat+mask.count false ≤ apparentBlock.toNat) := by
  induction mask generalizing i n with
  | nil => exact Or.inr ⟨rfl, by simpa using hk⟩
  | cons covered rest ih =>
    rw [List.length_cons] at hi
    have hi' := toNat_succ i (by omega)
    have hn' := toNat_succ n (by omega)
    rw [apparentScan]
    cases covered with
    | true =>
      rw [if_pos rfl]
      rcases ih (i+1) n (by omega) (by omega) hk with ⟨j, hj, hc, hr⟩ | ⟨hr, hc⟩
      · apply Or.inl
        exact ⟨j+1, (uncovered_succ _ _ _).mpr hj, by simpa [count_cons] using hc, by omega⟩
      · apply Or.inr
        exact ⟨hr, by simpa using hc⟩
    | false =>
      rw [if_neg Bool.false_ne_true]
      by_cases he : n = apparentBlock
      · rw [if_pos he]
        apply Or.inl
        exact ⟨0, (uncovered_zero _ _).mpr rfl, by simp [he], by simp⟩
      · rw [if_neg he]
        have hne : n.toNat ≠ apparentBlock.toNat := fun h => he (UInt64.toNat_inj.mp h)
        rcases ih (i+1) (n+1) (by omega) (by omega) (by omega) with ⟨j, hj, hc, hr⟩ | ⟨hr, hc⟩
        · apply Or.inl
          exact ⟨j+1, (uncovered_succ _ _ _).mpr hj, by simp [count_cons]; omega, by omega⟩
        · apply Or.inr
          exact ⟨hr, by simp; omega⟩

theorem apparentCount_spec (mask : List Bool) (n : UInt64) (hn : n.toNat+mask.length < 2^64) :
    (apparentCount mask n).toNat = n.toNat+mask.count false := by
  induction mask generalizing n with
  | nil => simp [apparentCount]
  | cons covered rest ih =>
    rw [List.length_cons] at hn
    rw [apparentCount]
    cases covered with
    | true => rw [if_pos rfl, ih n (by omega)]; simp
    | false =>
      rw [if_neg Bool.false_ne_true, ih (n+1) (by rw [toNat_succ n (by omega)]; omega),
        toNat_succ n (by omega)]
      simp
      omega

/-- What opening establishes and marking keeps. -/
structure Consistent (fm : FileMirror) : Prop where
  masked : fm.coveredMask.length = fm.totalBlocks.toNat
  counted : fm.apparentBlocks.toNat = fm.coveredMask.count false

/-- What a mirror holds when it was opened. -/
structure Opened (io : MirrorIo) (imagePath : Text) (blockSize : UInt64) (fm : FileMirror) :
    Prop where
  image_eq : io.opened = some fm.image
  size_eq : io.fstat = some fm.imageSize
  blockSize_eq : fm.blockSize = blockSize
  total_eq : fm.totalBlocks = fm.imageSize / fm.blockSize
  path_eq : fm.imagePath = printed256 imagePath
  verified_eq : fm.hashVerified = io.digest.isSome
  hash_eq : ∀ d, io.digest = some d → fm.evidenceHash = printed65 (hashDigestToHex d)
  mask_eq : fm.coveredMask = List.replicate fm.totalBlocks.toNat false
  apparent_eq : fm.apparentBlocks = fm.totalBlocks

theorem open_opened (io : MirrorIo) (imagePath : Text) (blockSize : UInt64) (fm : FileMirror)
    (h : fileMirrorOpen io imagePath blockSize = .ok fm) : Opened io imagePath blockSize fm := by
  unfold fileMirrorOpen at h
  split at h
  · contradiction
  split at h
  · contradiction
  rename_i himage
  split at h
  · contradiction
  rename_i hsize
  split at h
  · contradiction
  obtain rfl := Except.ok.inj h
  exact ⟨himage, hsize, rfl, rfl, rfl, rfl, fun d hd => by simp only [hd], rfl, rfl⟩

theorem open_consistent (io : MirrorIo) (imagePath : Text) (blockSize : UInt64) (fm : FileMirror)
    (h : fileMirrorOpen io imagePath blockSize = .ok fm) : Consistent fm := by
  have ho := open_opened io imagePath blockSize fm h
  constructor
  · rw [ho.mask_eq, List.length_replicate]
  · rw [ho.apparent_eq, ho.mask_eq, List.count_replicate_self]

theorem mark_consistent (fm : FileMirror) (actualBlock : UInt64) (h : Consistent fm) :
    Consistent (fileMirrorMarkCovered fm actualBlock) := by
  unfold fileMirrorMarkCovered
  split
  · rename_i hb
    obtain ⟨hlt, hb⟩ := List.getElem?_eq_some_iff.mp hb.2
    have hc := List.count_set (a := true) (b := false) hlt
    have hpos : 0 < fm.coveredMask.count false :=
      List.count_pos_iff.mpr (hb ▸ List.getElem_mem hlt)
    have ha : 0 < fm.apparentBlocks := by
      rw [UInt64.lt_iff_toNat_lt, h.counted]
      exact hpos
    constructor
    · simpa using h.masked
    · have hone : (1 : UInt64) ≤ fm.apparentBlocks := by
        rw [UInt64.le_iff_toNat_le, h.counted]
        exact hpos
      simp only [if_pos ha]
      rw [UInt64.toNat_sub_of_le _ _ hone, h.counted, hc, hb]
      simp
  · exact h

theorem unmark_consistent (fm : FileMirror) (actualBlock : UInt64) (h : Consistent fm) :
    Consistent (fileMirrorUnmarkCovered fm actualBlock) := by
  unfold fileMirrorUnmarkCovered
  split
  · rename_i hb
    obtain ⟨hlt, hb⟩ := List.getElem?_eq_some_iff.mp hb.2
    have hc := List.count_set (a := false) (b := false) hlt
    rw [hb] at hc
    have hle : fm.coveredMask.count false < fm.coveredMask.length := by
      have := List.count_le_length (a := false) (l := fm.coveredMask.set actualBlock.toNat false)
      rw [List.length_set] at this
      simp at hc
      omega
    have hsize := fm.totalBlocks.toNat_lt
    constructor
    · simpa using h.masked
    · show (fm.apparentBlocks+1).toNat = (fm.coveredMask.set actualBlock.toNat false).count false
      have hm := h.masked
      rw [toNat_succ _ (by rw [h.counted]; omega), h.counted, hc]
      simp
  · exact h

end EraseCure.FileMirrors
