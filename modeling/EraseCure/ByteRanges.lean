import Mathlib.Algebra.GroupWithZero.Nat
import Mathlib.Data.List.Basic
import Mathlib.Data.Nat.Notation

/-!
# Overwrites and tilings

Pieces of data are written over a sequence at their offsets. Pieces that tile
a range cover each of its positions, and a covered position holds the value
that all pieces consist of. Blocks of a fixed size cover a length as well.
-/

set_option autoImplicit false

namespace EraseCure.ByteRanges

variable {α : Type*}

structure Piece (α : Type*) where
  start : ℕ
  data : List α

def Piece.stop (w : Piece α) : ℕ := w.start+w.data.length

def Piece.Covers (w : Piece α) (i : ℕ) : Prop := w.start ≤ i ∧ i < w.stop

def overwrite (xs : List α) (w : Piece α) : List α := xs.take w.start++w.data++xs.drop w.stop

def replay (xs : List α) (ws : List (Piece α)) : List α := ws.foldl overwrite xs

theorem overwrite_length (xs : List α) (w : Piece α) (h : w.stop ≤ xs.length) :
    (overwrite xs w).length = xs.length := by
  simp only [Piece.stop, overwrite, List.length_append, List.length_take, List.length_drop] at *
  omega

theorem overwrite_inside (xs : List α) (w : Piece α) (hs : w.start ≤ xs.length) (i : ℕ)
    (hi : w.Covers i) : (overwrite xs w)[i]? = w.data[i-w.start]? := by
  have hl : (xs.take w.start).length = w.start := by simp [hs]
  obtain ⟨h1, h2⟩ := hi
  rw [Piece.stop] at h2
  rw [overwrite, List.getElem?_append_left (by simp only [List.length_append, hl]; omega),
    List.getElem?_append_right (by omega), hl]

theorem overwrite_written (xs : List α) (w : Piece α) (hs : w.start ≤ xs.length) :
    ((overwrite xs w).drop w.start).take w.data.length = w.data := by
  rw [overwrite, List.append_assoc, List.drop_left' (List.length_take_of_le hs), List.take_left]

theorem overwrite_outside (xs : List α) (w : Piece α) (hs : w.start ≤ xs.length) (i : ℕ)
    (hi : ¬ w.Covers i) : (overwrite xs w)[i]? = xs[i]? := by
  have hl : (xs.take w.start).length = w.start := by simp [hs]
  by_cases h1 : i < w.start
  · rw [overwrite, List.append_assoc, List.getElem?_append_left (by omega),
      List.getElem?_take_of_lt h1]
  · have h2 : w.stop ≤ i := by
      by_contra h2
      exact hi ⟨by omega, by omega⟩
    have hlen : (xs.take w.start++w.data).length = w.stop := by
      simp only [List.length_append, hl, Piece.stop]
    rw [overwrite, List.getElem?_append_right (by omega), hlen, List.getElem?_drop]
    congr 1
    omega

theorem overwrite_covered (xs : List α) (w : Piece α) (b : α) (hs : w.start ≤ xs.length)
    (hd : ∀ x ∈ w.data, x = b) (i : ℕ) (hi : w.Covers i) : (overwrite xs w)[i]? = some b := by
  have hlt : i-w.start < w.data.length := by
    obtain ⟨h1, h2⟩ := hi
    rw [Piece.stop] at h2
    omega
  rw [overwrite_inside xs w hs i hi, List.getElem?_eq_getElem hlt, hd _ (List.getElem_mem hlt)]

theorem replay_append (xs : List α) (vs ws : List (Piece α)) :
    replay xs (vs++ws) = replay (replay xs vs) ws := List.foldl_append

theorem replay_length (xs : List α) (ws : List (Piece α)) (h : ∀ w ∈ ws, w.stop ≤ xs.length) :
    (replay xs ws).length = xs.length := by
  induction ws generalizing xs with
  | nil => rfl
  | cons w ws ih =>
    have hw := overwrite_length xs w (h w (by simp))
    have hr := ih (overwrite xs w) (fun v hv => by rw [hw]; exact h v (by simp [hv]))
    exact hr.trans hw

/-- A covered position holds the value that all pieces consist of, and a
position that holds it already keeps it. -/
theorem replay_covered (xs : List α) (ws : List (Piece α)) (b : α) (i : ℕ)
    (h : ∀ w ∈ ws, w.stop ≤ xs.length ∧ ∀ x ∈ w.data, x = b)
    (hc : xs[i]? = some b ∨ ∃ w ∈ ws, w.Covers i) : (replay xs ws)[i]? = some b := by
  induction ws generalizing xs with
  | nil =>
    rcases hc with hb | ⟨w, hw, _⟩
    · exact hb
    · simp at hw
  | cons w ws ih =>
    obtain ⟨hstop, hdata⟩ := h w (by simp)
    have hs : w.start ≤ xs.length := Nat.le_trans (Nat.le_add_right _ _) hstop
    have hlen := overwrite_length xs w hstop
    apply ih (overwrite xs w) (fun v hv => by rw [hlen]; exact h v (by simp [hv]))
    by_cases hi : w.Covers i
    · exact Or.inl (overwrite_covered xs w b hs hdata i hi)
    · rw [overwrite_outside xs w hs i hi]
      rcases hc with hb | ⟨v, hv, hvi⟩
      · exact Or.inl hb
      · rcases List.mem_cons.mp hv with rfl | hv
        · exact absurd hvi hi
        · exact Or.inr ⟨v, hv, hvi⟩

/-- Every piece starts where the one before it stops. -/
def Tiles : ℕ → List (Piece α) → ℕ → Prop
  | a, [], b => a = b
  | a, w::ws, b => w.start = a ∧ Tiles w.stop ws b

theorem tiles_append (vs ws : List (Piece α)) (a b d : ℕ) (hv : Tiles a vs b)
    (hw : Tiles b ws d) : Tiles a (vs++ws) d := by
  induction vs generalizing a with
  | nil =>
    obtain rfl : a = b := hv
    exact hw
  | cons v vs ih => exact ⟨hv.1, ih _ hv.2⟩

theorem tiles_cover (ws : List (Piece α)) (a b : ℕ) (h : Tiles a ws b) (i : ℕ) (ha : a ≤ i)
    (hb : i < b) : ∃ w ∈ ws, w.Covers i := by
  induction ws generalizing a with
  | nil =>
    obtain rfl : a = b := h
    omega
  | cons w ws ih =>
    by_cases hi : i < w.stop
    · exact ⟨w, by simp, by rw [h.1]; exact ha, hi⟩
    · obtain ⟨v, hv, hvi⟩ := ih _ h.2 (by omega)
      exact ⟨v, by simp [hv], hvi⟩

theorem tiles_length (ws : List (Piece α)) (a b : ℕ) (h : Tiles a ws b) :
    a+(ws.map (fun w => w.data.length)).sum = b := by
  induction ws generalizing a with
  | nil => exact h
  | cons w ws ih =>
    rw [List.map_cons, List.sum_cons, ← Nat.add_assoc, ← h.1]
    exact ih w.stop h.2

theorem tiles_within (ws : List (Piece α)) (a b : ℕ) (h : Tiles a ws b) :
    a ≤ b ∧ ∀ w ∈ ws, w.stop ≤ b := by
  induction ws generalizing a with
  | nil => exact ⟨Nat.le_of_eq h, by simp⟩
  | cons w ws ih =>
    obtain ⟨hle, hall⟩ := ih w.stop h.2
    refine ⟨?_, List.forall_mem_cons.mpr ⟨hle, hall⟩⟩
    rw [← h.1]
    exact Nat.le_trans (Nat.le_add_right _ _) hle

theorem tiles_unique (ws : List (Piece α)) (a b d : ℕ) (hb : Tiles a ws b) (hd : Tiles a ws d) :
    b = d :=
  (tiles_length ws a b hb).symm.trans (tiles_length ws a d hd)

instance decidableTiles : ∀ (a : ℕ) (ws : List (Piece α)) (b : ℕ), Decidable (Tiles a ws b)
  | a, [], b => inferInstanceAs (Decidable (a = b))
  | a, w::ws, b =>
    have := decidableTiles w.stop ws b
    inferInstanceAs (Decidable (w.start = a ∧ Tiles w.stop ws b))

/-- Pieces of one value that tile on from a first part of that value, also beyond
the end of the sequence. -/
theorem tiles_replay (ws : List (Piece α)) (xs : List α) (a b : ℕ) (v : α) (h : Tiles a ws b)
    (ha : a ≤ xs.length) (hxs : ∀ i < a, xs[i]? = some v)
    (hdata : ∀ w ∈ ws, ∀ x ∈ w.data, x = v) : ∀ i < b, (replay xs ws)[i]? = some v := by
  induction ws generalizing xs a with
  | nil =>
    obtain rfl : a = b := h
    exact hxs
  | cons w ws ih =>
    obtain ⟨hstart, htiles⟩ := h
    have hlen : (overwrite xs w).length = w.stop+(xs.length-w.stop) := by
      simp only [overwrite, Piece.stop, List.length_append, List.length_take, List.length_drop]
      omega
    refine ih (overwrite xs w) w.stop htiles (by omega) (fun i hi => ?_)
      (fun u hu => hdata u (List.mem_cons_of_mem w hu))
    by_cases hc : w.Covers i
    · exact overwrite_covered xs w v (by omega) (hdata w List.mem_cons_self) i hc
    · rw [overwrite_outside xs w (by omega) i hc]
      refine hxs i ?_
      by_contra hge
      exact hc ⟨by omega, hi⟩

def blockCount (length size : ℕ) : ℕ :=
  if length % size ≠ 0 then length / size+1 else length / size

theorem blockCount_zero (size : ℕ) : blockCount 0 size = 0 := by
  rw [blockCount, Nat.zero_mod, Nat.zero_div]
  exact if_neg (not_not_intro rfl)

theorem blockCount_rest (length size : ℕ) (hl : 0 < length) (hs : 0 < size) :
    blockCount length size = blockCount (length-min length size) size+1 := by
  by_cases hshort : length < size
  · rw [Nat.min_eq_left (by omega), Nat.sub_self, blockCount_zero, blockCount,
      Nat.mod_eq_of_lt hshort, Nat.div_eq_of_lt hshort]
    exact if_pos (by omega)
  · obtain ⟨rest, rfl⟩ := Nat.exists_eq_add_of_le' (Nat.le_of_not_lt hshort)
    rw [Nat.min_eq_right (by omega), Nat.add_sub_cancel, blockCount, blockCount,
      Nat.add_mod_right, Nat.add_div_right rest hs]
    split <;> rfl

/-- The part of a sequence between two positions. -/
def slice (xs : List α) (a b : ℕ) : List α := (xs.drop a).take (b-a)

theorem slice_self (xs : List α) (a : ℕ) : slice xs a a = [] := by
  rw [slice, Nat.sub_self, List.take_zero]

theorem slice_append (xs : List α) (a b d : ℕ) (hab : a ≤ b) (hbd : b ≤ d) :
    slice xs a b++slice xs b d = slice xs a d := by
  have hd : d-a = (b-a)+(d-b) := by omega
  have hb : a+(b-a) = b := by omega
  rw [slice, slice, slice, hd, List.take_add, List.drop_drop, hb]

theorem mem_slice (xs : List α) (a b : ℕ) (x : α) :
    x ∈ slice xs a b ↔ ∃ i, a ≤ i ∧ i < b ∧ xs[i]? = some x := by
  constructor
  · intro h
    obtain ⟨j, hj, rfl⟩ := List.mem_iff_getElem.mp h
    simp only [slice, List.length_take, List.length_drop] at hj
    refine ⟨a+j, by omega, by omega, ?_⟩
    simp [slice]
  · rintro ⟨i, ha, hb, hi⟩
    have hlt := (List.getElem?_eq_some_iff.mp hi).1
    rw [List.mem_iff_getElem?]
    refine ⟨i-a, ?_⟩
    rw [slice, List.getElem?_take_of_lt (by omega), List.getElem?_drop, ← hi]
    congr 1
    omega

end EraseCure.ByteRanges
