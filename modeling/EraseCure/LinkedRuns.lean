import Mathlib.Data.List.Chain
import Mathlib.Data.List.Nodup

/-!
# Runs of a linked sequence

Every entry carries a tag of its own and the tag of the entry before it. When
the tag binds the back link and the first back link is no tag, all tags
differ, and the linked selections of entries are the contiguous runs.
-/

set_option autoImplicit false

namespace EraseCure.LinkedRuns

variable {α τ : Type*} (tag back : α → τ)

def Linked (l : List α) : Prop := l.IsChain (fun x y => back y = tag x)

def Rooted (l : List α) : Prop := ∀ y ∈ l.head?, ∀ x ∈ l, back y ≠ tag x

theorem linked_step (l : List α) (h : Linked tag back l) (i : ℕ) (hi : i+1 < l.length) :
    back l[i+1] = tag l[i] := List.isChain_iff_getElem.mp h i hi

theorem rooted_first (l : List α) (h : Rooted tag back l) (hl : 0 < l.length)
    (i : ℕ) (hi : i < l.length) : back l[0] ≠ tag l[i] :=
  h l[0] (by simp [List.head?_eq_getElem?, hl]) l[i] (List.getElem_mem hi)

theorem tags_distinct (l : List α) (hl : Linked tag back l) (hr : Rooted tag back l)
    (hb : ∀ x ∈ l, ∀ y ∈ l, tag x = tag y → back x = back y) (i j : ℕ) (hij : i < j)
    (hj : j < l.length) : tag l[i] ≠ tag l[j] := by
  induction i generalizing j with
  | zero =>
    intro he
    have hback := hb _ (List.getElem_mem _) _ (List.getElem_mem hj) he
    obtain ⟨k, rfl⟩ : ∃ k, j = k+1 := ⟨j-1, by omega⟩
    rw [linked_step tag back l hl k hj] at hback
    exact rooted_first tag back l hr (by omega) k (by omega) hback
  | succ i ih =>
    intro he
    have hback := hb _ (List.getElem_mem _) _ (List.getElem_mem hj) he
    obtain ⟨k, rfl⟩ : ∃ k, j = k+1 := ⟨j-1, by omega⟩
    rw [linked_step tag back l hl k hj, linked_step tag back l hl i (by omega)] at hback
    exact ih k (by omega) (by omega) hback

theorem tags_nodup (l : List α) (hl : Linked tag back l) (hr : Rooted tag back l)
    (hb : ∀ x ∈ l, ∀ y ∈ l, tag x = tag y → back x = back y) : (l.map tag).Nodup := by
  rw [List.Nodup, List.pairwise_map, List.pairwise_iff_getElem]
  exact fun i j _ hj hij => tags_distinct tag back l hl hr hb i j hij hj

/-- From an entry on, a linked selection follows the original sequence. -/
theorem linked_prefix (l : List α) (hl : Linked tag back l) (hr : Rooted tag back l)
    (hn : (l.map tag).Nodup) (s : List α) (i : ℕ) (hi : i < l.length)
    (hs : Linked tag back (l[i]::s)) (hm : ∀ y ∈ s, y ∈ l) : s <+: l.drop (i+1) := by
  induction s generalizing i with
  | nil => exact List.nil_prefix
  | cons y s ih =>
    obtain ⟨hy, hs'⟩ := List.isChain_cons_cons.mp hs
    obtain ⟨j, hj, rfl⟩ := List.mem_iff_getElem.mp (hm y (by simp))
    cases j with
    | zero => exact absurd hy (rooted_first tag back l hr hj i hi)
    | succ j =>
      rw [linked_step tag back l hl j hj] at hy
      have hji : j = i := by
        have hi' : i < (l.map tag).length := by simpa using hi
        have hj' : j < (l.map tag).length := by simpa using (by omega : j < l.length)
        have hij : (l.map tag)[j] = (l.map tag)[i] := by simpa using hy
        exact hn.getElem_inj_iff.mp hij
      subst hji
      rw [List.drop_eq_getElem_cons hj]
      exact List.cons_prefix_cons.mpr ⟨rfl, ih (j+1) hj hs' (fun z hz => hm z (by simp [hz]))⟩

/-- Selections with repetition, in any order, are linked exactly when they
are contiguous runs in the original order. -/
theorem linked_iff_run (l : List α) (hl : Linked tag back l) (hr : Rooted tag back l)
    (hn : (l.map tag).Nodup) (s : List α) (hm : ∀ y ∈ s, y ∈ l) :
    Linked tag back s ↔ s <:+: l := by
  constructor
  · intro hs
    cases s with
    | nil => exact List.nil_infix
    | cons x s =>
      obtain ⟨i, hi, rfl⟩ := List.mem_iff_getElem.mp (hm x (by simp))
      have hp := linked_prefix tag back l hl hr hn s i hi hs (fun y hy => hm y (by simp [hy]))
      have hc : l[i]::s <+: l.drop i := by
        rw [List.drop_eq_getElem_cons hi]
        exact List.cons_prefix_cons.mpr ⟨rfl, hp⟩
      exact hc.isInfix.trans (List.drop_suffix i l).isInfix
  · exact fun hs => hl.infix hs

/-- An entry replaced by one of the same tag leaves the sequence linked unless
it changes the link to the entry before. -/
theorem linked_set (l : List α) (hl : Linked tag back l) (i : ℕ) (hi : i < l.length) (x : α)
    (hx : tag x = tag l[i]) :
    Linked tag back (l.set i x) ↔ (0 < i → back x = back l[i]) := by
  constructor
  · intro hs hpos
    obtain ⟨k, rfl⟩ : ∃ k, i = k+1 := ⟨i-1, by omega⟩
    have h := linked_step tag back (l.set (k+1) x) hs k (by simpa using hi)
    rw [List.getElem_set_self, List.getElem_set_of_ne (by omega)] at h
    rw [h, linked_step tag back l hl k hi]
  · intro hb
    rw [Linked, List.isChain_iff_getElem]
    intro k hk
    have hk' : k+1 < l.length := by simpa using hk
    have hlink := linked_step tag back l hl k hk'
    simp only [List.getElem_set]
    by_cases h1 : i = k+1
    · subst h1
      rw [if_pos rfl, if_neg (by omega), hb (by omega), hlink]
    · by_cases h2 : i = k
      · subst h2
        rw [if_neg h1, if_pos rfl, hx, hlink]
      · rw [if_neg h1, if_neg h2, hlink]

end EraseCure.LinkedRuns
