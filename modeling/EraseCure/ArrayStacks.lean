import Mathlib.Data.List.Basic

/-!
# Stacks in arrays

The first cells of an array hold a stack, and what lies in the cells behind
them does not matter. Taking values off the stack leaves them in the array.
-/

set_option autoImplicit false

namespace EraseCure.ArrayStacks

variable {α : Type*}

/-- The first `n` cells are the stack, its top last. -/
structure Holds (cells : List α) (n : ℕ) (stack : List α) : Prop where
  fits : n ≤ cells.length
  contents : cells.take n = stack

variable (cells : List α) (n : ℕ) (stack : List α)

theorem holds_none : Holds cells 0 [] := ⟨Nat.zero_le _, List.take_zero⟩

theorem holds_length (h : Holds cells n stack) : stack.length = n := by
  rw [← h.contents, List.length_take, Nat.min_eq_left h.fits]

theorem holds_get (h : Holds cells n stack) (i : ℕ) (hi : i < n) : cells[i]? = stack[i]? := by
  rw [← h.contents, List.getElem?_take_of_lt hi]

theorem holds_push (h : Holds cells n stack) (x : α) (hroom : n < cells.length) :
    Holds (cells.modify n (fun _ => x)) (n+1) (stack++[x]) where
  fits := by
    rw [List.length_modify]
    exact hroom
  contents := by
    have hlen : n < (cells.modify n (fun _ => x)).length := by rwa [List.length_modify]
    rw [List.take_succ_eq_append_getElem hlen, List.take_modify, h.contents,
      List.modify_eq_self (Nat.le_of_eq (holds_length cells n stack h)), List.getElem_modify_eq]

theorem holds_truncate (h : Holds cells n stack) (k : ℕ) (hk : k ≤ n) :
    Holds cells k (stack.take k) where
  fits := Nat.le_trans hk h.fits
  contents := by rw [← h.contents, List.take_take, Nat.min_eq_left hk]

theorem holds_pop (h : Holds cells n stack) : Holds cells (n-1) stack.dropLast := by
  rw [List.dropLast_eq_take, holds_length cells n stack h]
  exact holds_truncate cells n stack h (n-1) (Nat.sub_le n 1)

theorem holds_modify (h : Holds cells n stack) (i : ℕ) (f : α → α) :
    Holds (cells.modify i f) n (stack.modify i f) where
  fits := by
    rw [List.length_modify]
    exact h.fits
  contents := by rw [List.take_modify, h.contents]

/-- The array may move to one that begins with the stack. -/
theorem holds_move (h : Holds cells n stack) (cells' : List α)
    (hsame : ∀ i < n, cells'[i]? = cells[i]?) : Holds cells' n stack where
  fits := by
    by_contra hlt
    have hi := hsame cells'.length (by omega)
    rw [List.getElem?_eq_none (Nat.le_refl _), eq_comm, List.getElem?_eq_none_iff] at hi
    have := h.fits
    omega
  contents := by
    rw [← h.contents]
    apply List.ext_getElem?
    intro i
    rw [List.getElem?_take, List.getElem?_take]
    split_ifs with hi
    · exact hsame i hi
    · rfl

end EraseCure.ArrayStacks
