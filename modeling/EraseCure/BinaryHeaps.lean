import Mathlib.Data.List.Perm.Basic
import Mathlib.Order.WithBot

/-!
# Binary heaps in a list

The children of position `i` are `2*i+1` and `2*i+2`. A position outside the
list has the top key, so that the order of all positions is one statement. A
heap with a hole has every order but the ones at the hole, and the two sifts
close the hole from below and from above.
-/

set_option autoImplicit false

namespace EraseCure.BinaryHeaps
open scoped List

variable {α κ : Type*} (key : α → κ)

def parent (i : ℕ) : ℕ := (i-1)/2

def keyAt (xs : List α) (i : ℕ) : WithTop κ :=
  match xs[i]? with
  | some a => (key a : WithTop κ)
  | none => ⊤

def swap (xs : List α) (i j : ℕ) : List α :=
  match xs[i]?, xs[j]? with
  | some a, some b => (xs.set i b).set j a
  | _, _ => xs

@[simp] theorem swap_length (xs : List α) (i j : ℕ) : (swap xs i j).length = xs.length := by
  unfold swap
  split <;> simp

theorem swap_perm (xs : List α) (i j : ℕ) : (swap xs i j).Perm xs := by
  unfold swap
  split
  · rename_i a b ha hb
    obtain ⟨hi, rfl⟩ := List.getElem?_eq_some_iff.mp ha
    obtain ⟨hj, rfl⟩ := List.getElem?_eq_some_iff.mp hb
    exact List.set_set_perm hi hj
  · exact .refl _

theorem swap_getElem? (xs : List α) (i j k : ℕ) (hi : i < xs.length) (hj : j < xs.length) :
    (swap xs i j)[k]? = if k = j then xs[i]? else if k = i then xs[j]? else xs[k]? := by
  have hi' : xs[i]? = some xs[i] := List.getElem?_eq_getElem hi
  have hj' : xs[j]? = some xs[j] := List.getElem?_eq_getElem hj
  rw [swap, hi', hj']
  by_cases hkj : k = j
  · subst hkj
    simp [hj]
  · rw [if_neg hkj]
    dsimp only
    rw [List.getElem?_set_ne (Ne.symm hkj)]
    by_cases hki : k = i
    · subst hki
      simp [hi]
    · rw [if_neg hki, List.getElem?_set_ne (Ne.symm hki)]

theorem swap_key (xs : List α) (i j k : ℕ) (hi : i < xs.length) (hj : j < xs.length) :
    keyAt key (swap xs i j) k =
      if k = j then keyAt key xs i else if k = i then keyAt key xs j else keyAt key xs k := by
  rw [keyAt, swap_getElem? xs i j k hi hj]
  split_ifs <;> rfl

theorem key_top (xs : List α) (i : ℕ) (h : xs.length ≤ i) : keyAt key xs i = ⊤ := by
  rw [keyAt, List.getElem?_eq_none h]

theorem key_some (xs : List α) (i : ℕ) (a : α) (h : xs[i]? = some a) :
    keyAt key xs i = (key a : WithTop κ) := by
  rw [keyAt, h]

variable [LinearOrder κ]

theorem key_lt_length (xs : List α) (i j : ℕ) (h : keyAt key xs i < keyAt key xs j) :
    i < xs.length := by
  by_contra hi
  rw [key_top key xs i (not_lt.mp hi)] at h
  exact not_top_lt h

/-- Nothing but the orders that touch the hole may fail, and the parent of the
hole is in order with its children. -/
structure OrderedExcept (xs : List α) (hole : ℕ) : Prop where
  apart : ∀ i, 0 < i → i ≠ hole → parent i ≠ hole → keyAt key xs (parent i) ≤ keyAt key xs i
  across : 0 < hole → ∀ i, 0 < i → parent i = hole →
    keyAt key xs (parent hole) ≤ keyAt key xs i

/-- The hole is in order with its children. -/
structure UpOrdered (xs : List α) (hole : ℕ) : Prop extends OrderedExcept key xs hole where
  below : ∀ i, 0 < i → parent i = hole → keyAt key xs hole ≤ keyAt key xs i

/-- The hole is in order with its parent. -/
structure DownOrdered (xs : List α) (hole : ℕ) : Prop extends OrderedExcept key xs hole where
  above : 0 < hole → keyAt key xs (parent hole) ≤ keyAt key xs hole

def HeapOrdered (xs : List α) : Prop :=
  ∀ i, 0 < i → keyAt key xs (parent i) ≤ keyAt key xs i

theorem parent_lt (i : ℕ) (h : 0 < i) : parent i < i := by
  rw [parent]
  omega

theorem parent_ne (i j : ℕ) (h : 0 < i) (hp : parent i = j) : i ≠ j :=
  fun hij => absurd (hp.trans hij.symm) (parent_lt i h).ne

theorem up_finish (xs : List α) (hole : ℕ) (h : UpOrdered key xs hole)
    (hs : 0 < hole → keyAt key xs (parent hole) ≤ keyAt key xs hole) : HeapOrdered key xs := by
  intro i hi
  by_cases hh : i = hole
  · subst hh
    exact hs hi
  · by_cases hp : parent i = hole
    · rw [hp]
      exact h.below i hi hp
    · exact h.apart i hi hh hp

theorem down_finish (xs : List α) (hole : ℕ) (h : DownOrdered key xs hole)
    (hs : ∀ i, 0 < i → parent i = hole → keyAt key xs hole ≤ keyAt key xs i) :
    HeapOrdered key xs :=
  up_finish key xs hole ⟨h.toOrderedExcept, hs⟩ h.above

theorem heap_up (xs : List α) (hole : ℕ) (h : HeapOrdered key xs) : UpOrdered key xs hole where
  apart := fun i hi _ _ => h i hi
  across := by
    intro hh i hi hp
    have hi' := h i hi
    rw [hp] at hi'
    exact (h hole hh).trans hi'
  below := by
    intro i hi hp
    rw [← hp]
    exact h i hi

theorem up_move (xs : List α) (hole : ℕ) (h : UpOrdered key xs hole) (hpos : 0 < hole)
    (hlt : keyAt key xs hole < keyAt key xs (parent hole)) :
    UpOrdered key (swap xs hole (parent hole)) (parent hole) := by
  have hp := parent_lt hole hpos
  have hlen := key_lt_length key xs _ _ hlt
  have hkey := fun k => swap_key key xs hole (parent hole) k hlen (hp.trans hlen)
  -- the orders between the old parent and what is above it and below it
  have hup : 0 < parent hole →
      keyAt key xs (parent (parent hole)) ≤ keyAt key xs (parent hole) := by
    intro hpp
    exact h.apart _ hpp hp.ne ((parent_lt _ hpp).trans hp).ne
  have hside : ∀ i, 0 < i → parent i = parent hole →
      keyAt key xs (parent hole) ≤ keyAt key (swap xs hole (parent hole)) i := by
    intro i hi hpi
    rw [hkey, if_neg (parent_ne i _ hi hpi)]
    by_cases hih : i = hole
    · rw [if_pos hih]
    · rw [if_neg hih]
      have hbeside := h.apart i hi hih (by rw [hpi]; exact hp.ne)
      rwa [hpi] at hbeside
  refine ⟨⟨?_, ?_⟩, ?_⟩
  · intro i hi hne hpne
    rw [hkey, hkey, if_neg hpne, if_neg hne]
    by_cases hph : parent i = hole
    · rw [if_pos hph, if_neg (parent_ne i hole hi hph)]
      exact h.across hpos i hi hph
    · rw [if_neg hph]
      by_cases hih : i = hole
      · exact absurd (congrArg parent hih) hpne
      · rw [if_neg hih]
        exact h.apart i hi hih hph
  · intro hpp i hi hpi
    rw [hkey (parent (parent hole)), if_neg (parent_lt _ hpp).ne,
      if_neg ((parent_lt _ hpp).trans hp).ne]
    exact (hup hpp).trans (hside i hi hpi)
  · intro i hi hpi
    rw [hkey (parent hole), if_pos rfl]
    exact hlt.le.trans (hside i hi hpi)

theorem down_move (xs : List α) (hole child : ℕ) (h : OrderedExcept key xs hole)
    (hpos : 0 < child) (hchild : parent child = hole)
    (hlt : keyAt key xs child < keyAt key xs hole)
    (hmin : ∀ i, 0 < i → parent i = hole → keyAt key xs child ≤ keyAt key xs i) :
    DownOrdered key (swap xs hole child) child := by
  have hp : hole < child := hchild ▸ parent_lt child hpos
  have hlen := key_lt_length key xs _ _ hlt
  have hkey := fun k => swap_key key xs hole child k (hp.trans hlen) hlen
  refine ⟨⟨?_, ?_⟩, ?_⟩
  · intro i hi hne hpne
    rw [hkey, hkey, if_neg hpne, if_neg hne]
    by_cases hph : parent i = hole
    · rw [if_pos hph, if_neg (parent_ne i hole hi hph)]
      exact hmin i hi hph
    · rw [if_neg hph]
      by_cases hih : i = hole
      · subst hih
        rw [if_pos rfl]
        exact h.across hi child hpos hchild
      · rw [if_neg hih]
        exact h.apart i hi hih hph
  · intro _ i hi hpi
    have hic : child < i := hpi ▸ parent_lt i hi
    rw [hkey, hkey, hchild, if_neg hp.ne, if_pos rfl, if_neg hic.ne', if_neg (hp.trans hic).ne']
    have := h.apart i hi (hp.trans hic).ne' (by rw [hpi]; exact hp.ne')
    rwa [hpi] at this
  · intro _
    rw [hkey, hkey, hchild, if_neg hp.ne, if_pos rfl, if_pos rfl]
    exact hlt.le

/-- A heap of which one position was changed, or the end cut off. -/
theorem except_of_heap (key' : α → κ) (xs ys : List α) (hole : ℕ) (h : HeapOrdered key xs)
    (hsame : ∀ k, k ≠ hole → k < ys.length → keyAt key' ys k = keyAt key xs k) :
    OrderedExcept key' ys hole where
  apart := by
    intro i hi hne hpne
    by_cases hlen : i < ys.length
    · rw [hsame i hne hlen, hsame _ hpne ((parent_lt i hi).trans hlen)]
      exact h i hi
    · rw [key_top key' ys i (not_lt.mp hlen)]
      exact le_top
  across := by
    intro hh i hi hp
    by_cases hlen : i < ys.length
    · have hlt : hole < i := hp ▸ parent_lt i hi
      rw [hsame i hlt.ne' hlen, hsame _ (parent_lt hole hh).ne
        ((parent_lt hole hh).trans (hlt.trans hlen))]
      have hi' := h i hi
      rw [hp] at hi'
      exact (h hole hh).trans hi'
    · rw [key_top key' ys i (not_lt.mp hlen)]
      exact le_top

theorem up_of_append (xs : List α) (a : α) (h : HeapOrdered key xs) :
    UpOrdered key (xs++[a]) xs.length := by
  refine ⟨except_of_heap key key xs (xs++[a]) xs.length h ?_, ?_⟩
  · intro k hk hlen
    rw [List.length_append, List.length_singleton] at hlen
    rw [keyAt, keyAt, List.getElem?_append_left (by omega)]
  · intro i hi hp
    have hlt : xs.length < i := hp ▸ parent_lt i hi
    rw [key_top key _ i (by rw [List.length_append, List.length_singleton]; omega)]
    exact le_top

/-- Moves an element up while its key is below that of its parent. -/
def siftUp (xs : List α) (index : ℕ) : List α :=
  if h : 0 < index ∧ keyAt key xs index < keyAt key xs (parent index) then
    siftUp (swap xs index (parent index)) (parent index)
  else xs
termination_by index
decreasing_by exact parent_lt index h.1

/-- The position of the least key among an element and its children, the
element first and then the left child when keys are equal. -/
def smallest (xs : List α) (index : ℕ) : ℕ :=
  let left := 2*index+1
  let right := 2*index+2
  let s := if left < xs.length ∧ keyAt key xs left < keyAt key xs index then left else index
  if right < xs.length ∧ keyAt key xs right < keyAt key xs s then right else s

theorem smallest_cases (xs : List α) (index : ℕ) :
    smallest key xs index = index ∨
      (index < smallest key xs index ∧ smallest key xs index < xs.length ∧
        parent (smallest key xs index) = index ∧
        keyAt key xs (smallest key xs index) < keyAt key xs index) := by
  unfold smallest
  dsimp only
  split_ifs with h1 h2 h2
  · exact Or.inr ⟨by omega, h2.1, by rw [parent]; omega, h2.2.trans h1.2⟩
  · exact Or.inr ⟨by omega, h1.1, by rw [parent]; omega, h1.2⟩
  · exact Or.inr ⟨by omega, h2.1, by rw [parent]; omega, h2.2⟩
  · exact Or.inl rfl

theorem smallest_le (xs : List α) (index i : ℕ) (hi : 0 < i) (hp : parent i = index) :
    keyAt key xs (smallest key xs index) ≤ keyAt key xs i := by
  by_cases hlen : i < xs.length
  · have hc : i = 2*index+1 ∨ i = 2*index+2 := by
      rw [parent] at hp
      omega
    unfold smallest
    dsimp only
    rcases hc with rfl | rfl
    · split_ifs with h1 h2 h2
      · exact h2.2.le
      · exact le_rfl
      · exact h2.2.le.trans (not_lt.mp (fun hlt => h1 ⟨hlen, hlt⟩))
      · exact not_lt.mp (fun hlt => h1 ⟨hlen, hlt⟩)
    · split_ifs with h1 h2 h2
      · exact le_rfl
      · exact not_lt.mp (fun hlt => h2 ⟨hlen, hlt⟩)
      · exact le_rfl
      · exact not_lt.mp (fun hlt => h2 ⟨hlen, hlt⟩)
  · rw [key_top key xs i (not_lt.mp hlen)]
    exact le_top

/-- Moves an element down while a child has a lower key. -/
def siftDown (xs : List α) (index : ℕ) : List α :=
  if smallest key xs index = index then xs
  else siftDown (swap xs index (smallest key xs index)) (smallest key xs index)
termination_by xs.length-index
decreasing_by
  rename_i h
  obtain h' | ⟨h1, h2, _⟩ := smallest_cases key xs index
  · exact absurd h' h
  · rw [swap_length]
    omega

theorem siftUp_perm (xs : List α) (index : ℕ) : (siftUp key xs index).Perm xs := by
  fun_induction siftUp key xs index with
  | case1 xs index _ ih => exact ih.trans (swap_perm xs _ _)
  | case2 => exact .refl _

theorem siftDown_perm (xs : List α) (index : ℕ) : (siftDown key xs index).Perm xs := by
  fun_induction siftDown key xs index with
  | case1 => exact .refl _
  | case2 xs index _ ih => exact ih.trans (swap_perm xs _ _)

theorem siftUp_ordered (xs : List α) (index : ℕ) (h : UpOrdered key xs index) :
    HeapOrdered key (siftUp key xs index) := by
  fun_induction siftUp key xs index with
  | case1 xs index hlt ih => exact ih (up_move key xs index h hlt.1 hlt.2)
  | case2 xs index hlt =>
    exact up_finish key xs index h (fun hpos => not_lt.mp (fun hk => hlt ⟨hpos, hk⟩))

theorem smallest_self (xs : List α) (index : ℕ) (h : smallest key xs index = index) (i : ℕ)
    (hi : 0 < i) (hp : parent i = index) : keyAt key xs index ≤ keyAt key xs i := by
  have := smallest_le key xs index i hi hp
  rwa [h] at this

theorem smallest_move (xs : List α) (index : ℕ) (h : OrderedExcept key xs index)
    (hne : smallest key xs index ≠ index) :
    DownOrdered key (swap xs index (smallest key xs index)) (smallest key xs index) := by
  obtain h' | ⟨hgt, _, hp, hlt⟩ := smallest_cases key xs index
  · exact absurd h' hne
  · exact down_move key xs index _ h (Nat.zero_lt_of_lt hgt) hp hlt (smallest_le key xs index)

theorem siftDown_ordered (xs : List α) (index : ℕ) (h : DownOrdered key xs index) :
    HeapOrdered key (siftDown key xs index) := by
  fun_induction siftDown key xs index with
  | case1 xs index hs => exact down_finish key xs index h (smallest_self key xs index hs)
  | case2 xs index hs ih => exact ih (smallest_move key xs index h.toOrderedExcept hs)

/-- Sifting down leaves at most the order of the hole with its parent open. -/
theorem siftDown_up (xs : List α) (index : ℕ) (h : OrderedExcept key xs index) :
    UpOrdered key (siftDown key xs index) index := by
  rw [siftDown]
  split_ifs with hs
  · exact ⟨h, smallest_self key xs index hs⟩
  · exact heap_up key _ index (siftDown_ordered key _ _ (smallest_move key xs index h hs))

/-- Any element put into the hole is carried to its place by both sifts. -/
theorem sifts_ordered (xs : List α) (index : ℕ) (h : OrderedExcept key xs index) :
    HeapOrdered key (siftUp key (siftDown key xs index) index) :=
  siftUp_ordered key _ index (siftDown_up key xs index h)

def replaceByLast (xs : List α) (i : ℕ) : List α :=
  match xs.getLast? with
  | some last => (xs.set i last).dropLast
  | none => []

omit [LinearOrder κ] in
theorem replace_key (xs : List α) (i k : ℕ) (hk : k ≠ i) (hlen : k < (replaceByLast xs i).length) :
    keyAt key (replaceByLast xs i) k = keyAt key xs k := by
  unfold replaceByLast at hlen ⊢
  cases hlast : xs.getLast? with
  | none =>
    rw [hlast] at hlen
    exact absurd hlen (Nat.not_lt_zero k)
  | some last =>
    rw [hlast] at hlen
    rw [List.length_dropLast] at hlen
    rw [keyAt, keyAt, List.getElem?_dropLast, if_pos hlen, List.getElem?_set_ne (Ne.symm hk)]

theorem replace_perm (xs : List α) (i : ℕ) (a : α) (hi : xs[i]? = some a) :
    xs.Perm (a::replaceByLast xs i) := by
  rcases List.eq_nil_or_concat' xs with rfl | ⟨init, last, rfl⟩
  · contradiction
  · rw [replaceByLast, List.getLast?_concat]
    dsimp only
    by_cases hlt : i < init.length
    · rw [List.getElem?_append_left hlt, List.getElem?_eq_some_iff] at hi
      obtain ⟨_, rfl⟩ := hi
      rw [List.set_append_left i last hlt, List.dropLast_concat]
      calc init++[last]
        _ ~ last::init := List.perm_append_singleton last init
        _ ~ last::init[i]::init.eraseIdx i := .cons last (List.getElem_cons_eraseIdx_perm hlt).symm
        _ ~ init[i]::last::init.eraseIdx i := .swap _ _ _
        _ ~ init[i]::init.set i last := .cons _ (List.set_perm_cons_eraseIdx hlt last).symm
    · have hlen := (List.getElem?_eq_some_iff.mp hi).1
      rw [List.length_append, List.length_singleton] at hlen
      obtain rfl : i = init.length := by omega
      rw [List.getElem?_append_right le_rfl, Nat.sub_self] at hi
      obtain rfl : last = a := Option.some.inj hi
      rw [List.set_append_right _ _ le_rfl, Nat.sub_self, List.set_cons_zero,
        List.dropLast_concat]
      exact List.perm_append_singleton last init

theorem replace_except (xs : List α) (i : ℕ) (h : HeapOrdered key xs) :
    OrderedExcept key (replaceByLast xs i) i :=
  except_of_heap key key xs _ i h (fun k hk hlen => replace_key key xs i k hk hlen)

theorem replace_root_ordered (xs : List α) (h : HeapOrdered key xs) :
    HeapOrdered key (siftDown key (replaceByLast xs 0) 0) :=
  siftDown_ordered key _ 0 ⟨replace_except key xs 0 h, fun hpos => absurd hpos (lt_irrefl 0)⟩

theorem heap_root (xs : List α) (h : HeapOrdered key xs) (i : ℕ) :
    keyAt key xs 0 ≤ keyAt key xs i := by
  induction i using Nat.strongRecOn with
  | ind i ih =>
    by_cases hi : i = 0
    · rw [hi]
    · have hpos := Nat.pos_of_ne_zero hi
      exact (ih (parent i) (parent_lt i hpos)).trans (h i hpos)

end EraseCure.BinaryHeaps
