import EraseCure.ByteRanges
import Mathlib.Data.List.Induction
import Mathlib.Order.Basic

/-!
# Sequences that are overwritten from the start

A writer that goes over a sequence from its start may stop at any place. What it
leaves is a first part of the new sequence and the rest of the old one. Of several
writers that go over it one after the other, the last one that was to go far enough
covers all that were before it.
-/

set_option autoImplicit false

namespace EraseCure.TornWrites
open EraseCure.ByteRanges

variable {α : Type*}

/-- The new sequence up to a place and the old one from there on. -/
def torn (new old : List α) (n : ℕ) : List α := new.take n++old.drop n

section Torn
variable (new old : List α) (n : ℕ)

theorem torn_zero : torn new old 0 = old := rfl

theorem torn_covered (h : old.length ≤ n) : torn new old n = new.take n := by
  rw [torn, List.drop_of_length_le h, List.append_nil]

theorem torn_length_le (size : ℕ) (hsize : n ≤ size) :
    (torn new old n).length ≤ max size old.length := by
  rw [torn, List.length_append, List.length_take, List.length_drop]
  omega

theorem torn_inside (hnew : n ≤ new.length) (i : ℕ) (hi : i < n) :
    (torn new old n)[i]? = new[i]? := by
  rw [torn, List.getElem?_append_left (by rw [List.length_take]; omega),
    List.getElem?_take_of_lt hi]

theorem torn_outside (hnew : n ≤ new.length) (i : ℕ) (hi : n ≤ i) :
    (torn new old n)[i]? = old[i]? := by
  have hlen : (new.take n).length = n := by
    rw [List.length_take]
    omega
  rw [torn, List.getElem?_append_right (hlen.trans_le hi), List.getElem?_drop, hlen]
  congr 1
  omega

theorem torn_again (mid : List α) (m : ℕ) (hmid : m ≤ mid.length) (hm : m ≤ n) :
    torn new (torn mid old m) n = torn new old n := by
  have hlen : (mid.take m).length = m := by
    rw [List.length_take]
    omega
  rw [torn, torn, torn, List.drop_append, List.drop_of_length_le (hlen.trans_le hm),
    List.nil_append, hlen, List.drop_drop]
  congr 2
  omega

/-- Of what was overwritten only a first part is kept. -/
theorem torn_torn (m : ℕ) (hn : n ≤ new.length) :
    torn (torn new old n) old m = torn new old (min m n) := by
  have hlen : (new.take n).length = n := by
    rw [List.length_take]
    omega
  rcases Nat.le_total m n with hle | hle
  · rw [Nat.min_eq_left hle, torn, torn, torn,
      List.take_append_of_le_length (hle.trans_eq hlen.symm), List.take_take, Nat.min_eq_left hle]
  · have hrest : m = (new.take n).length+(m-n) := by omega
    rw [Nat.min_eq_right hle, torn, torn, hrest, List.take_length_add_append, hlen,
      List.append_assoc, ← List.drop_drop, List.take_append_drop]

theorem torn_append (first : List α) :
    first++torn new (old.drop first.length) n = torn (first++new) old (first.length+n) := by
  rw [torn, torn, List.take_length_add_append, List.append_assoc, List.drop_drop]

theorem torn_rest (m : ℕ) (h : n ≤ new.length) :
    new.take n++torn (new.drop n) (old.drop n) m = torn new old (n+m) := by
  have hlen : (new.take n).length = n := by
    rw [List.length_take]
    omega
  have happend := torn_append (new.drop n) old m (new.take n)
  rwa [hlen, List.take_append_drop] at happend

theorem overwrite_torn (done : List α) :
    overwrite (done++old) ⟨done.length, new⟩ = done++torn new old new.length := by
  rw [overwrite, Piece.stop, torn, List.take_left, List.take_length, List.drop_length_add_append,
    List.append_assoc]

end Torn

section Layers
variable {κ : Type*} (stream : κ → List α) (size : ℕ)

/-- What the writers leave when each of them goes over the same length. -/
def layered (old : List α) (writers : List κ) : List α :=
  writers.foldl (fun c w => torn (stream w) c size) old

/-- What lies under the next writer: the last one before it, or the old sequence. -/
def underneath (old : List α) (writers : List κ) : List α :=
  match writers.getLast? with
  | none => old
  | some w => torn (stream w) old size

/-- Of writers that go over the same length the last one covers all others. -/
theorem layered_last (old : List α) (writers : List κ)
    (h : ∀ w ∈ writers, size ≤ (stream w).length) :
    layered stream size old writers = underneath stream size old writers := by
  induction writers using List.reverseRecOn with
  | nil => rfl
  | append_singleton before last ih =>
    have hbefore := ih (fun w hw => h w (List.mem_append_left _ hw))
    rw [layered, List.foldl_append]
    change torn (stream last) (layered stream size old before) size = _
    rw [hbefore, underneath, underneath, List.getLast?_append, List.getLast?_singleton]
    dsimp only [Option.or]
    cases hlast : before.getLast? with
    | none => rfl
    | some w =>
      exact torn_again (stream last) old size (stream w) size
        (h w (List.mem_append_left _ (List.mem_of_getLast? hlast))) (Nat.le_refl _)

theorem underneath_length_le (old : List α) (writers : List κ) :
    (underneath stream size old writers).length ≤ max size old.length := by
  rw [underneath]
  cases writers.getLast? with
  | none => exact Nat.le_max_right _ _
  | some w => exact torn_length_le (stream w) old size size (Nat.le_refl _)

theorem underneath_same (old old' : List α) (writers : List κ) (hne : writers ≠ [])
    (h : old.length ≤ size) (h' : old'.length ≤ size) :
    underneath stream size old writers = underneath stream size old' writers := by
  rw [underneath, underneath, List.getLast?_eq_some_getLast hne]
  dsimp only
  rw [torn_covered _ _ _ h, torn_covered _ _ _ h']

end Layers

end EraseCure.TornWrites
