import Mathlib.Data.List.Induction
import Mathlib.Data.List.Nodup
import Mathlib.Data.List.Perm.Subperm
import Mathlib.Data.Nat.Notation

/-!
# Depth-first tours with a bounded memory

Chains of names lead to places, and a place may be at the end of several chains. A
tour takes names one after the other and goes into the place behind each before it
takes the next. What it remembers are the places that it entered first, up to a
limit: only these are not entered again. A tour that has no more places to enter
than it remembers enters each of them once.
-/

set_option autoImplicit false

namespace EraseCure.DepthFirstTours

variable {ν α : Type}

/-- The places that chains of names enter, and the names that are found there. -/
structure Chains (ν α : Type) where
  place : List ν → Option α
  names : List ν → List ν

/-- A name, the tour in the place behind it, and the names after it. -/
inductive Tour (ν : Type) where
  | done
  | enter (name : ν) (inside rest : Tour ν)

namespace Tour

def names : Tour ν → List ν
  | .done => []
  | .enter name _ rest => name::rest.names

/-- The tour behind a name. -/
def pick [DecidableEq ν] (name : ν) : Tour ν → Tour ν
  | .done => .done
  | .enter other inside rest => if name = other then inside else rest.pick name

/-- The tour at the end of a chain. -/
def follow [DecidableEq ν] (t : Tour ν) (chain : List ν) : Tour ν :=
  chain.foldl (fun t name => t.pick name) t

/-- A tour that goes into nothing behind its names. -/
def flat : List ν → Tour ν
  | [] => .done
  | name::rest => .enter name .done (flat rest)

@[simp] theorem flat_names (names : List ν) : (flat names).names = names := by
  induction names with
  | nil => rfl
  | cons name rest ih => rw [flat, Tour.names, ih]

theorem follow_concat [DecidableEq ν] (t : Tour ν) (chain : List ν) (name : ν) :
    t.follow (chain++[name]) = (t.follow chain).pick name := by
  rw [follow, List.foldl_append]
  rfl

end Tour

/-- None of the first places, as many as the limit, is entered again. -/
def Admitted (limit : ℕ) : List α → List α → Prop
  | _, [] => True
  | before, x::xs => x ∉ before.take limit ∧ Admitted limit (before++[x]) xs

section Memory
variable (limit : ℕ)

theorem admitted_append (before xs ys : List α) : Admitted limit before (xs++ys) ↔
    Admitted limit before xs ∧ Admitted limit (before++xs) ys := by
  induction xs generalizing before with
  | nil => simp [Admitted]
  | cons x xs ih => simp [Admitted, ih, and_assoc]

/-- The first are entered once, and none of them among the later ones. -/
theorem admitted_iff (xs : List α) : Admitted limit [] xs ↔
    (xs.take limit).Nodup ∧ (xs.take limit).Disjoint (xs.drop limit) := by
  induction xs using List.reverseRecOn with
  | nil => simp [Admitted]
  | append_singleton xs x ih =>
    rw [admitted_append, ih, List.nil_append, Admitted, Admitted, and_true]
    by_cases hroom : xs.length < limit
    · have hlen : (xs++[x]).length ≤ limit := by
        rw [List.length_append]
        exact hroom
      rw [List.take_of_length_le (Nat.le_of_lt hroom), List.take_of_length_le hlen,
        List.drop_of_length_le (Nat.le_of_lt hroom), List.drop_of_length_le hlen]
      simp only [List.disjoint_nil_right, and_true]
      rw [List.nodup_append_comm, List.singleton_append, List.nodup_cons, and_comm]
    · have hfull := Nat.le_of_not_lt hroom
      rw [List.take_append_of_le_length hfull, List.drop_append_of_le_length hfull,
        List.disjoint_append_right, List.disjoint_singleton, and_assoc]

theorem nodup_split (xs : List α) : xs.Nodup ↔ (xs.take limit).Nodup ∧
    (xs.take limit).Disjoint (xs.drop limit) ∧ (xs.drop limit).Nodup := by
  conv_lhs => rw [← List.take_append_drop limit xs]
  rw [List.nodup_append', and_comm (a := (xs.drop limit).Nodup)]

end Memory

namespace Chains
variable (g : Chains ν α)

/-- The names of a tour are found where it takes them, none of them twice, and they
lead to places that can be entered, with so many levels left. -/
def Valid : ℕ → List ν → Tour ν → Prop
  | _, _, .done => True
  | 0, _, .enter _ _ _ => False
  | levels+1, chain, .enter name inside rest =>
    name ∈ g.names chain ∧ name ∉ rest.names ∧ (g.place (chain++[name])).isSome ∧
      Valid levels (chain++[name]) inside ∧ Valid (levels+1) chain rest

/-- The names of the chain are found one after the other, and it leads there. -/
inductive Reached : List ν → α → Prop where
  | root (x : α) (h : g.place [] = some x) : Reached [] x
  | step (chain : List ν) (name : ν) (x y : α) (above : Reached chain x)
      (found : name ∈ g.names chain) (h : g.place (chain++[name]) = some y) :
      Reached (chain++[name]) y

def entered : List ν → Tour ν → List α
  | _, .done => []
  | chain, .enter name inside rest =>
    (g.place (chain++[name])).toList++entered (chain++[name]) inside++entered chain rest

def places (t : Tour ν) : List α := (g.place []).toList++g.entered [] t

/-- A tour that enters the first places once, as many as the limit, and none of them
later, enters no later place twice. -/
def Complete (limit levels : ℕ) : Prop :=
  ∀ t, (g.place []).isSome → g.Valid levels [] t → ((g.places t).take limit).Nodup →
    ((g.places t).take limit).Disjoint ((g.places t).drop limit) →
    ((g.places t).drop limit).Nodup

/-- Then no tour that its memory admits enters a place twice. -/
theorem complete_iff (limit levels : ℕ) : g.Complete limit levels ↔
    ∀ t, (g.place []).isSome → g.Valid levels [] t → Admitted limit [] (g.places t) →
      (g.places t).Nodup := by
  constructor
  · intro h t hroot hvalid hadmitted
    obtain ⟨hfirst, hlater⟩ := (admitted_iff limit _).mp hadmitted
    exact (nodup_split limit _).mpr ⟨hfirst, hlater, h t hroot hvalid hfirst hlater⟩
  · intro h t hroot hvalid hfirst hlater
    exact ((nodup_split limit _).mp
      (h t hroot hvalid ((admitted_iff limit _).mpr ⟨hfirst, hlater⟩))).2.2

@[simp] theorem valid_done (levels : ℕ) (chain : List ν) : g.Valid levels chain .done := by
  cases levels <;> trivial

theorem valid_names (levels : ℕ) (chain : List ν) (t : Tour ν) (h : g.Valid levels chain t) :
    t.names.Nodup ∧ ∀ name ∈ t.names, name ∈ g.names chain := by
  induction t generalizing levels chain with
  | done => exact ⟨List.nodup_nil, fun _ hname => absurd hname List.not_mem_nil⟩
  | enter name inside rest _ hrest =>
    cases levels with
    | zero => exact h.elim
    | succ levels =>
      obtain ⟨hname, hnew, _, _, hvalid⟩ := h
      obtain ⟨hnodup, hall⟩ := hrest (levels+1) chain hvalid
      exact ⟨List.nodup_cons.mpr ⟨hnew, hnodup⟩, List.forall_mem_cons.mpr ⟨hname, hall⟩⟩

theorem entered_reached (levels : ℕ) (chain : List ν) (n : α) (t : Tour ν)
    (hn : g.Reached chain n) (hvalid : g.Valid levels chain t) (x : α)
    (hx : x ∈ g.entered chain t) : ∃ name ∈ t.names, ∃ rest, g.Reached (chain++name::rest) x := by
  induction t generalizing levels chain n with
  | done => exact absurd hx List.not_mem_nil
  | enter name inside rest hinside hrest =>
    cases levels with
    | zero => exact hvalid.elim
    | succ levels =>
      obtain ⟨hname, _, hsome, hvalid, hvalid'⟩ := hvalid
      obtain ⟨m, hm⟩ := Option.isSome_iff_exists.mp hsome
      have hstep := Reached.step chain name n m hn hname hm
      rw [entered, hm, List.mem_append, List.mem_append] at hx
      rcases hx with (hx | hx) | hx
      · obtain rfl := List.mem_singleton.mp hx
        exact ⟨name, List.mem_cons_self, [], hstep⟩
      · obtain ⟨next, _, more, hreached⟩ := hinside levels _ m hstep hvalid hx
        rw [List.append_assoc] at hreached
        exact ⟨name, List.mem_cons_self, next::more, hreached⟩
      · obtain ⟨other, hother, more, hreached⟩ := hrest (levels+1) chain n hn hvalid' hx
        exact ⟨other, List.mem_cons_of_mem _ hother, more, hreached⟩

theorem valid_flat (levels : ℕ) (chain names : List ν) (hnodup : names.Nodup)
    (h : ∀ name ∈ names, name ∈ g.names chain ∧ (g.place (chain++[name])).isSome) :
    g.Valid (levels+1) chain (.flat names) := by
  induction names with
  | nil => trivial
  | cons name rest ih =>
    obtain ⟨hnew, hnodup⟩ := List.nodup_cons.mp hnodup
    obtain ⟨hname, hplace⟩ := h name List.mem_cons_self
    exact ⟨hname, by rwa [Tour.flat_names], hplace, g.valid_done levels _,
      ih hnodup (fun other hother => h other (List.mem_cons_of_mem _ hother))⟩

theorem entered_flat (chain names : List ν) :
    g.entered chain (.flat names) =
      names.flatMap (fun name => (g.place (chain++[name])).toList) := by
  induction names with
  | nil => rfl
  | cons name rest ih =>
    rw [Tour.flat, entered, entered, List.append_nil, ih, List.flatMap_cons]

/-- There are no more places to reach than the limit. -/
theorem complete_few (limit levels : ℕ) (all : List α)
    (hall : ∀ chain x, g.Reached chain x → x ∈ all) (hlimit : all.length ≤ limit) :
    g.Complete limit levels := by
  intro t hroot hvalid hfirst hlater
  obtain ⟨n, hn⟩ := Option.isSome_iff_exists.mp hroot
  have hsub : g.places t ⊆ all := by
    intro x hx
    rcases List.mem_append.mp hx with hx | hx
    · exact hall [] x (.root x (Option.mem_toList.mp hx))
    · obtain ⟨name, _, rest, hreached⟩ := g.entered_reached levels [] n t (.root n hn) hvalid x hx
      exact hall _ x hreached
  cases hrest : (g.places t).drop limit with
  | nil => exact List.nodup_nil
  | cons x rest =>
    rw [hrest] at hlater
    have hx : x ∉ (g.places t).take limit := fun h => hlater h List.mem_cons_self
    have hmem : x ∈ g.places t := List.mem_of_mem_drop (hrest ▸ List.mem_cons_self)
    have hcons : x::(g.places t).take limit ⊆ all :=
      List.cons_subset.mpr ⟨hsub hmem, fun y hy => hsub (List.mem_of_mem_take hy)⟩
    have hle := ((List.nodup_cons.mpr ⟨hx, hfirst⟩).subperm hcons).length_le
    have hlong : limit < (g.places t).length :=
      Nat.lt_of_not_le (fun h => List.cons_ne_nil x rest (hrest ▸ List.drop_of_length_le h))
    rw [List.length_cons, List.length_take] at hle
    omega

section Unique
variable (h : ∀ chain chain' x, g.Reached chain x → g.Reached chain' x → chain = chain')
include h

theorem entered_nodup (levels : ℕ) (chain : List ν) (n : α) (t : Tour ν) (hn : g.Reached chain n)
    (hvalid : g.Valid levels chain t) : (g.entered chain t).Nodup := by
  induction t generalizing levels chain n with
  | done => exact List.nodup_nil
  | enter name inside rest hinside hrest =>
    cases levels with
    | zero => exact hvalid.elim
    | succ levels =>
      obtain ⟨hname, hnew, hsome, hvalid, hvalid'⟩ := hvalid
      obtain ⟨m, hm⟩ := Option.isSome_iff_exists.mp hsome
      have hstep := Reached.step chain name n m hn hname hm
      rw [entered, hm]
      have hlater : ∀ x ∈ g.entered (chain++[name]) inside, x ≠ m ∧
          ∃ more, g.Reached (chain++name::more) x := by
        intro x hx
        obtain ⟨next, _, more, hreached⟩ := g.entered_reached levels _ m inside hstep hvalid x hx
        refine ⟨?_, next::more, by rwa [List.append_assoc] at hreached⟩
        rintro rfl
        simpa using h _ _ x hreached hstep
      refine List.nodup_append'.mpr ⟨List.nodup_cons.mpr ⟨fun hmem => (hlater m hmem).1 rfl,
        hinside levels _ m hstep hvalid⟩, hrest (levels+1) chain n hn hvalid', ?_⟩
      intro x hx hrest
      obtain ⟨other, hother, more, hreached⟩ :=
        g.entered_reached (levels+1) chain n rest hn hvalid' x hrest
      have hbehind : ∃ more, g.Reached (chain++name::more) x := by
        rcases List.mem_cons.mp hx with rfl | hx
        · exact ⟨[], hstep⟩
        · exact (hlater x hx).2
      obtain ⟨more', hreached'⟩ := hbehind
      have heq := List.append_cancel_left (h _ _ x hreached' hreached)
      exact hnew ((List.cons.inj heq).1 ▸ hother)

/-- No place is at the end of two chains. -/
theorem complete_unique (limit levels : ℕ) : g.Complete limit levels := by
  intro t hroot hvalid _ _
  obtain ⟨n, hn⟩ := Option.isSome_iff_exists.mp hroot
  have hnodup : (g.places t).Nodup := by
    rw [places, hn]
    refine List.nodup_cons.mpr ⟨fun hmem => ?_, g.entered_nodup h levels [] n t (.root n hn) hvalid⟩
    obtain ⟨name, _, rest, hreached⟩ := g.entered_reached levels [] n t (.root n hn) hvalid n hmem
    exact List.cons_ne_nil name rest (h _ _ n hreached (.root n hn))
  exact hnodup.sublist (List.drop_sublist limit _)

end Unique

end Chains

end EraseCure.DepthFirstTours
