import EraseCure.Occurrences
import EraseCure.Scans
import Mathlib.Data.List.Basic

/-!
# Programs whose reads are checked

A program reads elements and ranges of a sequence, and a read that does not lie
within the sequence is a fault. Loops run on a bounded number of rounds, and a
loop that uses them up is unfinished. What a program meets is a postcondition of
its result and, where it has to finish, that it does. A program is contained when
it has no fault with any bound and finishes with some bound.
-/

set_option autoImplicit false

namespace EraseCure.CheckedReads
open EraseCure.Scans EraseCure.Occurrences

variable {α β σ ρ : Type}

inductive Stop where
  | fault | unfinished
  deriving DecidableEq

abbrev Checked (α : Type) := Except Stop α

def readAt (data : List α) (i : ℕ) : Checked α :=
  match data[i]? with
  | some x => .ok x
  | none => .error .fault

def readRange (data : List α) (i n : ℕ) : Checked (List α) :=
  if i+n ≤ data.length then .ok ((data.drop i).take n) else .error .fault

def compareAt [DecidableEq α] (data : List α) (i : ℕ) (text : List α) : Checked Bool :=
  (readRange data i text.length).map (fun xs => xs = text)

def loop (body : σ → Checked (Round σ ρ)) : ℕ → σ → Checked ρ
  | 0, _ => .error .unfinished
  | fuel+1, s =>
    match body s with
    | .error e => .error e
    | .ok (.done r) => .ok r
    | .ok (.next s') => loop body fuel s'

inductive Visited (body : σ → Checked (Round σ ρ)) (s : σ) : σ → Prop where
  | start : Visited body s s
  | next (t t' : σ) : Visited body s t → body t = .ok (.next t') → Visited body s t'

theorem visited_kept (body : σ → Checked (Round σ ρ)) (I : σ → Prop) (s t : σ) (hs : I s)
    (hnext : ∀ t t', I t → body t = .ok (.next t') → I t') (ht : Visited body s t) : I t := by
  induction ht with
  | start => exact hs
  | next t t' _ hr ih => exact hnext t t' ih hr

/-- The result meets the postcondition, and `must` tells whether there has to be one. -/
def Meets (must : Bool) (P : α → Prop) : Checked α → Prop
  | .ok a => P a
  | .error .unfinished => must = false
  | .error .fault => False

/-- A round goes on within the invariant at a smaller rank, or it leaves with what
is asked for. -/
def Leads (I : σ → Prop) (rank : σ → ℕ) (Q : ρ → Prop) (s : σ) : Round σ ρ → Prop
  | .next s' => I s' ∧ rank s' < rank s
  | .done v => Q v

section Rules
variable (must : Bool)

theorem meets_pure (P : α → Prop) (a : α) (h : P a) : Meets must P (pure a) := h

theorem meets_ok (P : α → Prop) (x : Checked α) (a : α) (h : x = .ok a) (ha : P a) :
    Meets must P x := by
  rw [h]
  exact ha

theorem meets_bind (P : α → Prop) (Q : β → Prop) (x : Checked α) (f : α → Checked β)
    (h : Meets must P x) (hf : ∀ a, P a → Meets must Q (f a)) : Meets must Q (x >>= f) := by
  cases x with
  | ok a => exact hf a h
  | error e => cases e <;> exact h

theorem meets_mono (P Q : α → Prop) (x : Checked α) (h : Meets must P x)
    (hpq : ∀ a, P a → Q a) : Meets must Q x := by
  cases x with
  | ok a => exact hpq a h
  | error e => cases e <;> exact h

theorem meets_loop (body : σ → Checked (Round σ ρ)) (I : σ → Prop) (rank : σ → ℕ) (Q : ρ → Prop)
    (hround : ∀ s, I s → Meets must (Leads I rank Q s) (body s)) (fuel : ℕ) (s : σ) (hs : I s)
    (hfuel : must = true → rank s < fuel) : Meets must Q (loop body fuel s) := by
  induction fuel generalizing s with
  | zero =>
    cases must with
    | true => exact absurd (hfuel rfl) (Nat.not_lt_zero _)
    | false => rfl
  | succ fuel ih =>
    have h := hround s hs
    rw [loop]
    cases hb : body s with
    | error e =>
      rw [hb] at h
      cases e <;> exact h
    | ok r =>
      rw [hb] at h
      cases r with
      | done v => exact h
      | next s' =>
        obtain ⟨hs', hrank⟩ := h
        apply ih s' hs'
        intro hm
        have := hfuel hm
        omega

/-- A loop whose rounds are those of a scan has its result. -/
theorem meets_scan (x : Scan σ ρ) (body : σ → Checked (Round σ ρ)) (I : σ → Prop)
    (hround : ∀ s, I s → Meets must (fun r => r = x.round s) (body s))
    (hnext : ∀ s s', I s → x.round s = .next s' → I s') (fuel : ℕ) (s : σ) (hs : I s)
    (hfuel : must = true → x.rank s < fuel) :
    Meets must (fun r => r = x.run s) (loop body fuel s) := by
  apply meets_loop must body (fun t => I t ∧ x.run t = x.run s) x.rank _ _ fuel s ⟨hs, rfl⟩ hfuel
  rintro t ⟨ht, hrun⟩
  apply meets_mono must _ _ _ (hround t ht)
  rintro r rfl
  cases hr : x.round t with
  | next t' => exact ⟨⟨hnext t t' ht hr, by rw [← hrun, run_next x t t' hr]⟩, x.falls t t' hr⟩
  | done v => exact (run_done x t v hr).symm.trans hrun

end Rules

theorem ok_bind (a : α) (f : α → Checked β) : (Except.ok a >>= f) = f a := rfl

theorem bind_ok (x : Checked α) (f : α → Checked β) (b : β) (h : (x >>= f) = .ok b) :
    ∃ a, x = .ok a ∧ f a = .ok b := by
  cases x with
  | ok a => exact ⟨a, rfl, h⟩
  | error e => contradiction

theorem readAt_get (data : List α) (i : ℕ) (x : α) (h : data[i]? = some x) :
    readAt data i = .ok x := by
  rw [readAt, h]

theorem readRange_within (data : List α) (i n : ℕ) (h : i+n ≤ data.length) :
    readRange data i n = .ok ((data.drop i).take n) :=
  if_pos h

theorem readRange_beyond (data : List α) (i n : ℕ) (h : data.length < i+n) :
    readRange data i n = .error .fault :=
  if_neg (Nat.not_le_of_lt h)

theorem readRange_occurs (data : List α) (i : ℕ) (xs : List α) (h : OccursAt data i xs) :
    readRange data i xs.length = .ok xs := by
  rw [readRange_within data i _ h.1, h.2]

theorem compareAt_within [DecidableEq α] (data : List α) (i : ℕ) (text : List α)
    (h : i+text.length ≤ data.length) :
    compareAt data i text = .ok (decide ((data.drop i).take text.length = text)) := by
  rw [compareAt, readRange_within data i _ h]
  rfl

theorem meets_read (must : Bool) (data : List α) (i : ℕ) (h : i < data.length) (Q : β → Prop)
    (f : α → Checked β) (hf : ∀ x, Meets must Q (f x)) : Meets must Q (readAt data i >>= f) := by
  rw [readAt_get data i _ (List.getElem?_eq_getElem h)]
  exact hf _

theorem meets_compare [DecidableEq α] (must : Bool) (data : List α) (i : ℕ) (text : List α)
    (h : i+text.length ≤ data.length) (Q : β → Prop) (f : Bool → Checked β)
    (hf : ∀ b, Meets must Q (f b)) : Meets must Q (compareAt data i text >>= f) := by
  rw [compareAt_within data i text h]
  exact hf _

theorem meets_returns (P : α → Prop) (x : Checked α) (h : Meets true P x) :
    ∃ a, x = .ok a ∧ P a := by
  cases x with
  | ok a => exact ⟨a, rfl, h⟩
  | error e => cases e <;> contradiction

/-- No fault with any bound, and a result with some bound. -/
def Contained (program : ℕ → Checked α) : Prop :=
  (∀ fuel, program fuel ≠ .error .fault) ∧ ∃ fuel a, program fuel = .ok a

theorem contained_of_meets (program : ℕ → Checked α) (P : α → Prop) (bound : ℕ)
    (h : ∀ must fuel, (must = true → bound < fuel) → Meets must P (program fuel)) :
    Contained program := by
  constructor
  · intro fuel hfault
    have := h false fuel (by simp)
    rw [hfault] at this
    exact this
  · obtain ⟨a, ha, _⟩ := meets_returns P _ (h true (bound+1) (fun _ => Nat.lt_succ_self bound))
    exact ⟨bound+1, a, ha⟩

attribute [irreducible] Meets

end EraseCure.CheckedReads
