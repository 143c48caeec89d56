import Mathlib.Logic.Basic
import Mathlib.Data.Nat.Notation

/-!
# Scanning loops

A round of a loop goes on from a new state or leaves with a result, and a rank
falls with each round that goes on. The result of a run is that of the last
state visited. A loop whose rounds that go on are rounds of another one visits
states that the other one visits too.
-/

set_option autoImplicit false

namespace EraseCure.Scans

variable {σ ρ : Type*}

inductive Round (σ ρ : Type*) where
  | next (s : σ)
  | done (r : ρ)

structure Scan (σ ρ : Type*) where
  round : σ → Round σ ρ
  rank : σ → ℕ
  falls : ∀ s s', round s = .next s' → rank s' < rank s

def Scan.run (x : Scan σ ρ) (s : σ) : ρ :=
  match h : x.round s with
  | .next s' => x.run s'
  | .done r => r
termination_by x.rank s
decreasing_by exact x.falls s s' h

inductive Visits (x : Scan σ ρ) (s : σ) : σ → Prop where
  | start : Visits x s s
  | next (t t' : σ) : Visits x s t → x.round t = .next t' → Visits x s t'

theorem run_next (x : Scan σ ρ) (s s' : σ) (h : x.round s = .next s') : x.run s = x.run s' := by
  rw [Scan.run]
  split
  · rename_i t ht
    rw [h] at ht
    cases ht
    rfl
  · rename_i r hr
    rw [h] at hr
    contradiction

theorem run_done (x : Scan σ ρ) (s : σ) (r : ρ) (h : x.round s = .done r) : x.run s = r := by
  rw [Scan.run]
  split
  · rename_i t ht
    rw [h] at ht
    contradiction
  · rename_i r' hr
    rw [h] at hr
    cases hr
    rfl

theorem run_visited (x : Scan σ ρ) (s t : σ) (h : Visits x s t) : x.run s = x.run t := by
  induction h with
  | start => rfl
  | next t t' _ ht ih => rw [ih, run_next x t t' ht]

theorem visits_head (x : Scan σ ρ) (s s' t : σ) (hs : x.round s = .next s')
    (h : Visits x s' t) : Visits x s t := by
  induction h with
  | start => exact .next s s' .start hs
  | next t t' _ ht ih => exact .next t t' ih ht

theorem run_last (x : Scan σ ρ) (s : σ) : ∃ t, Visits x s t ∧ x.round t = .done (x.run s) := by
  induction s using Scan.run.induct x with
  | case1 s s' h ih =>
    obtain ⟨t, ht, hr⟩ := ih
    exact ⟨t, visits_head x s s' t h ht, by rw [run_next x s s' h, hr]⟩
  | case2 s r h => exact ⟨s, .start, by rw [run_done x s r h, h]⟩

theorem visits_cases (x : Scan σ ρ) (s t : σ) (h : Visits x s t) :
    t = s ∨ ∃ s', x.round s = .next s' ∧ Visits x s' t := by
  induction h with
  | start => exact Or.inl rfl
  | next t t' _ ht ih =>
    rcases ih with rfl | ⟨s', hs, hv⟩
    · exact Or.inr ⟨t', ht, .start⟩
    · exact Or.inr ⟨s', hs, .next t t' hv ht⟩

theorem visits_last (x : Scan σ ρ) (s t u : σ) (r : ρ) (ht : Visits x s t) (hu : Visits x s u)
    (hr : x.round u = .done r) : Visits x t u := by
  induction ht with
  | start => exact hu
  | next t t' _ hn ih =>
    rcases visits_cases x t u ih with rfl | ⟨t'', hn', hv⟩
    · rw [hn] at hr
      contradiction
    · rw [hn] at hn'
      cases hn'
      exact hv

theorem visits_invariant (x : Scan σ ρ) (s : σ) (P : σ → Prop) (hs : P s)
    (hstep : ∀ t t', P t → x.round t = .next t' → P t') (t : σ) (h : Visits x s t) : P t := by
  induction h with
  | start => exact hs
  | next t t' _ ht ih => exact hstep t t' ih ht

theorem visits_of_rounds (x y : Scan σ ρ) (s : σ)
    (hxy : ∀ t t', x.round t = .next t' → y.round t = .next t') (t : σ) (h : Visits x s t) :
    Visits y s t := by
  induction h with
  | start => exact .start
  | next t t' _ ht ih => exact .next t t' ih (hxy t t' ht)

/-- A loop that agrees with another one on the states visited has the same result. -/
theorem run_agree (x y : Scan σ ρ) (s : σ) (h : ∀ t, Visits x s t → y.round t = x.round t) :
    y.run s = x.run s := by
  have hvisits : ∀ t, Visits x s t → Visits y s t := by
    intro t ht
    induction ht with
    | start => exact .start
    | next t t' hv ht ih => exact .next t t' ih ((h t hv).trans ht)
  obtain ⟨t, ht, hr⟩ := run_last x s
  rw [run_visited y s t (hvisits t ht), run_done y t _ ((h t ht).trans hr)]

end EraseCure.Scans
