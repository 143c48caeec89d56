import Mathlib.Data.List.Basic
import Mathlib.Data.Nat.Notation

/-!
# Files scattered over blocks

A file is laid over numbered blocks of one size, the last of which it need not
fill. The blocks hold the file when each has its part of it, and then they give
the file back in their order. Positions behind the end of the file in its last
block are not covered.
-/

set_option autoImplicit false

namespace EraseCure.ScatteredFiles

variable {α : Type*} (size : ℕ)

def block (image : List α) (b : ℕ) : List α := (image.drop (b*size)).take size

/-- The positions that so many elements take in the blocks. -/
def Covers : List ℕ → ℕ → ℕ → Prop
  | [], _, _ => False
  | b::rest, len, pos =>
    (b*size ≤ pos ∧ pos < b*size+min size len) ∨ Covers rest (len-size) pos

/-- Each block starts with its part of the file, and the file ends with them. -/
def Holds (image : List α) : List ℕ → List α → Prop
  | [], file => file = []
  | b::rest, file =>
    (image.drop (b*size)).take (min size file.length) = file.take size ∧
      Holds image rest (file.drop size)

theorem covers_within (blocks : List ℕ) (len pos : ℕ) (h : Covers size blocks len pos) :
    ∃ b ∈ blocks, b*size ≤ pos ∧ pos < b*size+size := by
  induction blocks generalizing len with
  | nil => exact absurd h id
  | cons b rest ih =>
    rcases h with ⟨hle, hlt⟩ | h
    · exact ⟨b, List.mem_cons_self, hle,
        Nat.lt_of_lt_of_le hlt (Nat.add_le_add_left (Nat.min_le_left _ _) _)⟩
    · obtain ⟨b', hb', hpos⟩ := ih _ h
      exact ⟨b', List.mem_cons_of_mem _ hb', hpos⟩

theorem range_congr (image image' : List α) (a n : ℕ)
    (h : ∀ pos, a ≤ pos → pos < a+n → image'[pos]? = image[pos]?) :
    (image'.drop a).take n = (image.drop a).take n := by
  apply List.ext_getElem?
  intro i
  rw [List.getElem?_take, List.getElem?_take, List.getElem?_drop, List.getElem?_drop]
  split_ifs with hi
  · exact h (a+i) (Nat.le_add_right _ _) (by omega)
  · rfl

/-- A covered position lies in the part that one of the blocks has of the file. -/
theorem covers_get (blocks : List ℕ) (len pos : ℕ) (h : Covers size blocks len pos) :
    ∃ j b, blocks[j]? = some b ∧ b*size ≤ pos ∧ pos < b*size+min size (len-j*size) := by
  induction blocks generalizing len with
  | nil => exact absurd h id
  | cons b rest ih =>
    rcases h with ⟨hle, hlt⟩ | h
    · exact ⟨0, b, rfl, hle, by simpa using hlt⟩
    · obtain ⟨j, b', hb', hle, hlt⟩ := ih _ h
      refine ⟨j+1, b', hb', hle, ?_⟩
      rwa [Nat.succ_mul, Nat.add_comm (j*size), ← Nat.sub_sub]

theorem holds_get (image : List α) (blocks : List ℕ) (file : List α) (j b : ℕ)
    (h : Holds size image blocks file) (hb : blocks[j]? = some b) :
    (image.drop (b*size)).take (min size (file.length-j*size)) =
      (file.drop (j*size)).take size := by
  induction blocks generalizing file j with
  | nil => exact absurd hb (by simp)
  | cons b' rest ih =>
    obtain ⟨hfirst, hrest⟩ := h
    cases j with
    | zero =>
      obtain rfl : b' = b := by simpa using hb
      simpa using hfirst
    | succ j =>
      have hpart := ih (file.drop size) j hrest (by simpa using hb)
      rw [List.length_drop, List.drop_drop] at hpart
      rw [Nat.succ_mul, Nat.add_comm (j*size), ← Nat.sub_sub]
      exact hpart

/-- Changes behind all blocks of a file leave it as it is. -/
theorem holds_frame (image image' : List α) (blocks : List ℕ) (file : List α) (n : ℕ)
    (hsame : ∀ pos < n*size, image'[pos]? = image[pos]?) (hbelow : ∀ b ∈ blocks, b < n)
    (h : Holds size image blocks file) : Holds size image' blocks file := by
  induction blocks generalizing file with
  | nil => exact h
  | cons b rest ih =>
    obtain ⟨hfirst, hrest⟩ := h
    refine ⟨?_, ih _ (fun b' hb' => hbelow b' (List.mem_cons_of_mem _ hb')) hrest⟩
    rw [← hfirst]
    apply range_congr
    intro pos _ hpos
    apply hsame
    have hb := Nat.mul_le_mul_right size (hbelow b List.mem_cons_self)
    rw [Nat.succ_mul] at hb
    have hmin := Nat.min_le_left size file.length
    omega

theorem holds_joined (image : List α) (blocks : List ℕ) (file : List α)
    (hinside : ∀ b ∈ blocks, b*size+size ≤ image.length) (h : Holds size image blocks file) :
    (blocks.flatMap (block size image)).take file.length = file := by
  induction blocks generalizing file with
  | nil =>
    obtain rfl : file = [] := h
    rfl
  | cons b rest ih =>
    obtain ⟨hfirst, hrest⟩ := h
    have hjoin := ih _ (fun b' hb' => hinside b' (List.mem_cons_of_mem _ hb')) hrest
    have hlen : (block size image b).length = size := by
      have hb := hinside b List.mem_cons_self
      rw [block, List.length_take, List.length_drop]
      omega
    rw [List.flatMap_cons, List.take_append, hlen]
    rw [List.length_drop] at hjoin
    rw [hjoin]
    have htake : (block size image b).take file.length = file.take size := by
      rw [block, List.take_take, Nat.min_comm]
      exact hfirst
    rw [htake, List.take_append_drop]

end EraseCure.ScatteredFiles
