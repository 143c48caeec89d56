import Mathlib.Data.Finset.Card
import Mathlib.Data.List.Sort
import Mathlib.Logic.Relation

/-!
# Groups of equal keys in a sorted list

A list without repetitions links neighbours of equal key. Where it is sorted by
key, every group has one element that follows none, and the links lead from it
to all the others.
-/

set_option autoImplicit false

namespace EraseCure.SortedGroups

variable {α κ : Type*} (key : α → κ)

/-- The second element comes right after the first one and has its key. -/
inductive Follows : List α → α → α → Prop where
  | head (a b : α) (rest : List α) : key b = key a → Follows (a::b::rest) a b
  | tail (c : α) (rest : List α) (a b : α) : Follows rest a b → Follows (c::rest) a b

theorem follows_nil (a b : α) : ¬ Follows key [] a b := by nofun

theorem follows_single (a b c : α) : ¬ Follows key [c] a b := by
  intro h
  cases h with
  | tail _ _ _ _ h => exact follows_nil key a b h

theorem follows_cons (c d : α) (rest : List α) (a b : α) :
    Follows key (c::d::rest) a b ↔
      (a = c ∧ b = d ∧ key d = key c) ∨ Follows key (d::rest) a b := by
  constructor
  · intro h
    cases h with
    | head _ _ _ hkey => exact Or.inl ⟨rfl, rfl, hkey⟩
    | tail _ _ _ _ h => exact Or.inr h
  · rintro (⟨rfl, rfl, hkey⟩ | h)
    · exact .head a b rest hkey
    · exact .tail c _ a b h

theorem follows_key (l : List α) (a b : α) (h : Follows key l a b) : key b = key a := by
  induction h with
  | head a b rest hkey => exact hkey
  | tail c rest a b _ ih => exact ih

theorem follows_left (l : List α) (a b : α) (h : Follows key l a b) : a ∈ l := by
  induction h with
  | head a b rest _ => exact List.mem_cons_self
  | tail c rest a b _ ih => exact List.mem_cons_of_mem c ih

theorem follows_tail (l : List α) (a b : α) (h : Follows key l a b) : b ∈ l.tail := by
  induction h with
  | head a b rest _ => exact List.mem_cons_self
  | tail c rest a b _ ih => exact List.mem_of_mem_tail ih

theorem follows_right (l : List α) (a b : α) (h : Follows key l a b) : b ∈ l :=
  List.mem_of_mem_tail (follows_tail key l a b h)

theorem follows_pairwise (r : α → α → Prop) (l : List α) (a b : α) (h : Follows key l a b)
    (hl : l.Pairwise r) : r a b := by
  induction h with
  | head a b rest _ => exact List.rel_of_pairwise_cons hl List.mem_cons_self
  | tail c rest a b _ ih => exact ih hl.of_cons

theorem follows_ne (l : List α) (a b : α) (h : Follows key l a b) (hl : l.Nodup) : a ≠ b :=
  follows_pairwise key (· ≠ ·) l a b h hl

theorem follows_head (c : α) (rest : List α) (hl : (c::rest).Nodup) (a : α) :
    ¬ Follows key (c::rest) a c :=
  fun h => (List.nodup_cons.mp hl).1 (follows_tail key _ a c h)

theorem follows_right_unique (l : List α) (a b c : α) (hl : l.Nodup) (hb : Follows key l a b)
    (hc : Follows key l a c) : b = c := by
  induction hb with
  | head a b rest _ =>
    rcases (follows_cons key a b rest a c).mp hc with ⟨_, h, _⟩ | h
    · exact h.symm
    · exact absurd (follows_left key _ a c h) (List.nodup_cons.mp hl).1
  | tail d rest a b hb ih =>
    cases rest with
    | nil => exact absurd hb (follows_nil key a b)
    | cons e rest =>
      rcases (follows_cons key d e rest a c).mp hc with ⟨rfl, _, _⟩ | h
      · exact absurd (follows_left key _ a b hb) (List.nodup_cons.mp hl).1
      · exact ih hl.of_cons h

/-- An element that follows none. -/
def Leads (l : List α) (a : α) : Prop := a ∈ l ∧ ∀ b, ¬ Follows key l b a

theorem leads_head (c : α) (rest : List α) (hl : (c::rest).Nodup) : Leads key (c::rest) c :=
  ⟨List.mem_cons_self, fun b => follows_head key c rest hl b⟩

/-- The links lead to every element from one that follows none. -/
theorem leader_reaches (l : List α) (hl : l.Nodup) (b : α) (hb : b ∈ l) :
    ∃ a, Leads key l a ∧ Relation.ReflTransGen (Follows key l) a b := by
  induction l with
  | nil => contradiction
  | cons c rest ih =>
    rcases List.mem_cons.mp hb with rfl | hb
    · exact ⟨b, leads_head key b rest hl, .refl⟩
    · obtain ⟨a, ⟨ha, hfirst⟩, hab⟩ := ih hl.of_cons hb
      have hup : Relation.ReflTransGen (Follows key (c::rest)) a b :=
        Relation.ReflTransGen.mono (fun x y h => .tail c rest x y h) _ _ hab
      by_cases hlead : ∃ p, Follows key (c::rest) p a
      · -- only the first two elements can have become linked
        obtain ⟨p, hp⟩ := hlead
        have hpc : p = c := by
          cases hp with
          | head => rfl
          | tail _ _ _ _ h => exact absurd h (hfirst p)
        exact ⟨c, leads_head key c rest hl, .head (hpc ▸ hp) hup⟩
      · exact ⟨a, ⟨List.mem_cons_of_mem c ha, not_exists.mp hlead⟩, hup⟩

theorem reaches_key (l : List α) (a b : α) (h : Relation.ReflTransGen (Follows key l) a b) :
    key b = key a := by
  induction h with
  | refl => rfl
  | tail _ h ih => exact (follows_key key l _ _ h).trans ih

section Sorted
variable [PartialOrder κ]

/-- In a sorted list an element that follows none is the first of its group. -/
theorem leader_unique (l : List α) (hl : l.Nodup) (hs : l.Pairwise (fun a b => key a ≤ key b))
    (a b : α) (ha : Leads key l a) (hb : Leads key l b) (hkey : key a = key b) : a = b := by
  induction l generalizing a b with
  | nil => exact absurd ha.1 List.not_mem_nil
  | cons c rest ih =>
    have hdown : ∀ x, x ∈ rest → Leads key (c::rest) x → Leads key rest x :=
      fun x hx h => ⟨hx, fun p hp => h.2 p (.tail c rest p x hp)⟩
    -- an element of the rest with the key of the head has a predecessor
    have hhead : ∀ x, x ∈ rest → key x = key c → ¬ Leads key (c::rest) x := by
      intro x hx hxc h
      cases rest with
      | nil => exact absurd hx List.not_mem_nil
      | cons d rest =>
        have hcd : key d = key c := by
          refine le_antisymm ?_ (List.rel_of_pairwise_cons hs List.mem_cons_self)
          rw [← hxc]
          rcases List.mem_cons.mp hx with rfl | hx
          · exact le_refl _
          · exact List.rel_of_pairwise_cons hs.of_cons hx
        have hxd : x = d := ih hl.of_cons hs.of_cons x d (hdown x hx h)
          (leads_head key d rest hl.of_cons) (hxc.trans hcd.symm)
        exact h.2 c (hxd ▸ .head c d rest hcd)
    rcases List.mem_cons.mp ha.1 with rfl | hma
    · rcases List.mem_cons.mp hb.1 with rfl | hmb
      · rfl
      · exact absurd hb (hhead b hmb hkey.symm)
    · rcases List.mem_cons.mp hb.1 with rfl | hmb
      · exact absurd ha (hhead a hma hkey)
      · exact ih hl.of_cons hs.of_cons a b (hdown a hma ha) (hdown b hmb hb) hkey

/-- As many elements follow another one as there are elements beyond the
number of keys. -/
theorem followers_card [DecidableEq α] [DecidableEq κ] (l : List α) (hl : l.Nodup)
    (hs : l.Pairwise (fun a b => key a ≤ key b))
    [DecidablePred (fun b => ∃ a, Follows key l a b)] :
    (l.toFinset.filter (fun b => ∃ a, Follows key l a b)).card+(l.toFinset.image key).card =
      l.toFinset.card := by
  have himage : l.toFinset.image key =
      (l.toFinset.filter (fun b => ¬ ∃ a, Follows key l a b)).image key := by
    ext k
    simp only [Finset.mem_image, Finset.mem_filter, List.mem_toFinset]
    constructor
    · rintro ⟨b, hb, rfl⟩
      obtain ⟨a, ⟨ha, hfirst⟩, hab⟩ := leader_reaches key l hl b hb
      exact ⟨a, ⟨ha, not_exists.mpr hfirst⟩, (reaches_key key l a b hab).symm⟩
    · rintro ⟨a, ⟨ha, _⟩, rfl⟩
      exact ⟨a, ha, rfl⟩
  have hinj : Set.InjOn key (l.toFinset.filter (fun b => ¬ ∃ a, Follows key l a b)) := by
    intro a ha b hb hkey
    simp only [Finset.coe_filter, List.mem_toFinset, Set.mem_ofPred_eq] at ha hb
    exact leader_unique key l hl hs a b ⟨ha.1, not_exists.mp ha.2⟩ ⟨hb.1, not_exists.mp hb.2⟩ hkey
  rw [himage, Finset.card_image_of_injOn hinj]
  exact Finset.card_filter_add_card_filter_not _

end Sorted
end EraseCure.SortedGroups
