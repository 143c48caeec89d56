import Mathlib.Data.Nat.ModEq
import Mathlib.Data.List.Basic
import Mathlib.Logic.Function.Basic

/-!
# Ring buffers

The contents of a ring are read from its head on, around its end. Writing to
the slot behind them appends, and moving the head on drops the first.
-/

set_option autoImplicit false

namespace EraseCure.RingBuffers

variable {α : Type*}

def contents (slots : ℕ → α) (size head count : ℕ) : List α :=
  (List.range count).map (fun k => slots ((head+k) % size))

@[simp] theorem contents_length (slots : ℕ → α) (size head count : ℕ) :
    (contents slots size head count).length = count := by
  simp [contents]

theorem contents_pop (slots : ℕ → α) (size head count : ℕ) (hh : head < size) :
    contents slots size head (count+1) =
      slots head::contents slots size ((head+1) % size) count := by
  rw [contents, List.range_succ_eq_map, List.map_cons, List.map_map, Nat.add_zero,
    Nat.mod_eq_of_lt hh]
  congr 1
  apply List.map_congr_left
  intro k _
  show slots ((head+(k+1)) % size) = slots (((head+1) % size+k) % size)
  rw [Nat.mod_add_mod]
  congr 2
  omega

theorem slot_ne (size head count k : ℕ) (hk : k < count) (hc : count < size) :
    (head+k) % size ≠ (head+count) % size := by
  intro h
  have hm : k ≡ count [MOD size] := Nat.ModEq.add_left_cancel' head h
  rw [Nat.ModEq, Nat.mod_eq_of_lt (hk.trans hc), Nat.mod_eq_of_lt hc] at hm
  omega

theorem contents_push (slots : ℕ → α) (size head count : ℕ) (a : α) (hc : count < size) :
    contents (Function.update slots ((head+count) % size) a) size head (count+1) =
      contents slots size head count++[a] := by
  rw [contents, List.range_succ, List.map_append, contents, List.map_singleton,
    Function.update_self]
  congr 1
  apply List.map_congr_left
  intro k hk
  rw [Function.update_of_ne (slot_ne size head count k (List.mem_range.mp hk) hc)]

end EraseCure.RingBuffers
