import Mathlib.Data.List.Infix
import Mathlib.Data.Nat.Notation

/-!
# Words in a sequence

A word occurs at an offset when it lies within the sequence and the elements
there are its own. A word that is put together from two occurs where the first
occurs and the second follows.
-/

set_option autoImplicit false

namespace EraseCure.Occurrences

variable {α : Type*}

def OccursAt (data : List α) (o : ℕ) (xs : List α) : Prop :=
  o+xs.length ≤ data.length ∧ (data.drop o).take xs.length = xs

instance [DecidableEq α] (data : List α) (o : ℕ) (xs : List α) :
    Decidable (OccursAt data o xs) :=
  inferInstanceAs (Decidable (_ ∧ _))

theorem occurs_nil (data : List α) (o : ℕ) : OccursAt data o [] ↔ o ≤ data.length := by
  simp [OccursAt]

theorem occurs_append (data : List α) (o : ℕ) (xs ys : List α) :
    OccursAt data o (xs++ys) ↔ OccursAt data o xs ∧ OccursAt data (o+xs.length) ys := by
  have hsplit : (data.drop o).take (xs.length+ys.length) =
      (data.drop o).take xs.length++(data.drop (o+xs.length)).take ys.length := by
    rw [List.take_add, List.drop_drop]
  rw [OccursAt, OccursAt, OccursAt, List.length_append, hsplit]
  constructor
  · rintro ⟨hlen, h⟩
    have hx : ((data.drop o).take xs.length).length = xs.length := by
      rw [List.length_take, List.length_drop]
      omega
    obtain ⟨h1, h2⟩ := List.append_inj h hx
    exact ⟨⟨by omega, h1⟩, by omega, h2⟩
  · rintro ⟨⟨_, h1⟩, hlen, h2⟩
    exact ⟨by omega, by rw [h1, h2]⟩

theorem occurs_singleton (data : List α) (o : ℕ) (x : α) :
    OccursAt data o [x] ↔ data[o]? = some x := by
  rw [OccursAt, List.length_singleton]
  constructor
  · rintro ⟨hlen, h⟩
    rw [← Nat.add_zero o, ← List.getElem?_drop, ← List.getElem?_take_of_lt Nat.zero_lt_one, h]
    rfl
  · intro h
    obtain ⟨hlt, hx⟩ := List.getElem?_eq_some_iff.mp h
    refine ⟨hlt, ?_⟩
    rw [List.drop_eq_getElem_cons hlt, hx]
    rfl

theorem occurs_cons (data : List α) (o : ℕ) (x : α) (xs : List α) :
    OccursAt data o (x::xs) ↔ data[o]? = some x ∧ OccursAt data (o+1) xs := by
  rw [← List.singleton_append, occurs_append, occurs_singleton, List.length_singleton]

theorem slice_length (data : List α) (o n : ℕ) (h : o+n ≤ data.length) :
    ((data.drop o).take n).length = n := by
  rw [List.length_take, List.length_drop]
  omega

theorem occurs_slice (data : List α) (o n : ℕ) (h : o+n ≤ data.length) :
    OccursAt data o ((data.drop o).take n) := by
  rw [OccursAt, slice_length data o n h]
  exact ⟨h, rfl⟩

theorem occurs_zero (data xs : List α) : OccursAt data 0 xs ↔ xs <+: data := by
  rw [OccursAt, Nat.zero_add, List.drop_zero, List.prefix_iff_eq_take]
  constructor
  · exact fun h => h.2.symm
  · intro h
    refine ⟨?_, h.symm⟩
    rw [h, List.length_take]
    exact Nat.min_le_right _ _

theorem occurs_take_iff (data : List α) (n : ℕ) (h : n ≤ data.length) :
    OccursAt data 0 (data.take n) := by
  have := occurs_slice data 0 n (by omega)
  rwa [List.drop_zero] at this

theorem occurs_unique (data : List α) (o : ℕ) (xs ys : List α) (hx : OccursAt data o xs)
    (hy : OccursAt data o ys) (h : xs.length = ys.length) : xs = ys := by
  rw [← hx.2, ← hy.2, h]

end EraseCure.Occurrences
