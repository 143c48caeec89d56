import EraseCure.Monitors
import Mathlib.Algebra.BigOperators.Group.Finset.Basic
import Mathlib.Algebra.Order.BigOperators.Group.Finset

/-!
# How long the threads of a monitor can run

Every thread has a rank that is one less while it waits, and so has the shared state.
When each section lowers the rank of its thread and of the state together by more than
the number of threads its signal can wake, the ranks at the start bound the sections of
a run, but for one for each wake-up without a signal.
-/

set_option autoImplicit false

namespace EraseCure.MonitorRanks
open EraseCure.Monitors

variable {ι σ κ ℓ : Type*} [Fintype ι] (weight : ℓ → ℕ)

def rank : Status κ ℓ → ℕ
  | .ready l => weight l
  | .blocked _ l => weight l-1

def total (st : ι → Status κ ℓ) : ℕ := ∑ i, rank weight (st i)

def reach (ι : Type*) [Fintype ι] : Signal κ → ℕ
  | .none => 0
  | .one _ => 1
  | .all _ => Fintype.card ι

theorem woken_rank (x : Status κ ℓ) :
    rank weight (.ready x.loc : Status κ ℓ) ≤ rank weight x+1 := by
  cases x with
  | ready l => exact Nat.le_succ _
  | blocked cond l =>
    dsimp only [rank, Status.loc]
    omega

section Updates
variable [DecidableEq ι]

theorem total_update (st : ι → Status κ ℓ) (i : ι) (x : Status κ ℓ) :
    total weight (Function.update st i x)+rank weight (st i) = total weight st+rank weight x := by
  have hrest : ∀ j ∈ Finset.univ.erase i,
      rank weight (Function.update st i x j) = rank weight (st j) := by
    intro j hj
    rw [Function.update_of_ne (Finset.ne_of_mem_erase hj)]
  rw [total, total, ← Finset.add_sum_erase _ _ (Finset.mem_univ i), Finset.sum_congr rfl hrest,
    Function.update_self, ← Finset.add_sum_erase _ (fun j => rank weight (st j))
      (Finset.mem_univ i)]
  omega

variable [DecidableEq κ]

theorem notify_total (signal : Signal κ) (woken : Option ι) (st st' : ι → Status κ ℓ)
    (h : notify signal woken st = some st') :
    total weight st' ≤ total weight st+reach ι signal := by
  cases signal with
  | none =>
    rw [notify_none _ _ _ h]
    exact Nat.le_refl _
  | one cond =>
    rcases notify_one cond woken st st' h with ⟨_, rfl⟩ | ⟨j, l, hj, rfl⟩
    · exact Nat.le_succ _
    · have hupdate := total_update weight st j (.ready l)
      have hrank := woken_rank weight (st j)
      rw [hj] at hupdate hrank
      dsimp only [Status.loc] at hrank
      dsimp only [reach]
      omega
  | all cond =>
    cases woken with
    | some j => contradiction
    | none =>
      cases h
      rw [total, total, reach, ← Finset.card_univ, Finset.card_eq_sum_ones,
        ← Finset.sum_add_distrib]
      refine Finset.sum_le_sum fun j _ => ?_
      split_ifs
      · exact woken_rank weight (st j)
      · exact Nat.le_succ _

variable (fuel : σ → ℕ) (P : σ → Prop)

/-- Each section keeps a condition on the state, and under it lowers the rank of its
thread and of the state by more than its signal can wake. -/
def Paid (m : Machine ι σ κ ℓ) : Prop :=
  ∀ i l shared sec, P shared → m.act i l shared = some sec → P sec.shared ∧
    fuel sec.shared+rank weight sec.status+reach ι sec.signal < fuel shared+weight l

def isSection : Move ι → Bool
  | .act _ _ => true
  | .wake _ => false

variable (m : Machine ι σ κ ℓ) (hm : Paid weight fuel P m)
include hm

theorem next_total (s s' : State ι σ κ ℓ) (move : Move ι) (hp : P s.shared)
    (h : next m s move = some s') : P s'.shared ∧
      fuel s'.shared+total weight s'.status+(if isSection move = true then 1 else 0) ≤
        fuel s.shared+total weight s.status+(if isSection move = true then 0 else 1) := by
  cases move with
  | act i woken =>
    rw [next] at h
    cases hi : s.status i with
    | blocked cond l =>
      rw [hi] at h
      contradiction
    | ready l =>
      rw [hi] at h
      dsimp only at h
      cases hact : m.act i l s.shared with
      | none =>
        rw [hact] at h
        contradiction
      | some sec =>
        rw [hact] at h
        obtain ⟨st, hst, rfl⟩ := Option.map_eq_some_iff.mp h
        have hnotify := notify_total weight sec.signal woken _ st hst
        have hupdate := total_update weight s.status i sec.status
        obtain ⟨hp', hpaid⟩ := hm i l s.shared sec hp hact
        rw [hi] at hupdate
        change _+weight l = _ at hupdate
        refine ⟨hp', ?_⟩
        rw [if_pos (show isSection (.act i woken) = true from rfl),
          if_pos (show isSection (.act i woken) = true from rfl)]
        dsimp only
        omega
  | wake i =>
    rw [next] at h
    split at h
    · rename_i cond l _ hi
      cases h
      have hupdate := total_update weight s.status i (.ready l)
      have hrank := woken_rank weight (s.status i)
      rw [hi] at hupdate hrank
      dsimp only [Status.loc] at hrank
      refine ⟨hp, ?_⟩
      rw [if_neg (show ¬ isSection (.wake i) = true from Bool.false_ne_true),
        if_neg (show ¬ isSection (.wake i) = true from Bool.false_ne_true)]
      dsimp only
      omega
    · contradiction

/-- The ranks at the start bound the sections of a run. -/
theorem sections_bounded (s s' : State ι σ κ ℓ) (moves : List (Move ι)) (hp : P s.shared)
    (h : run m s moves = some s') :
    moves.countP isSection+(fuel s'.shared+total weight s'.status) ≤
      fuel s.shared+total weight s.status+moves.countP (fun move => !isSection move) := by
  induction moves generalizing s with
  | nil =>
    cases h
    simp
  | cons move moves ih =>
    rw [run] at h
    obtain ⟨t, ht, hrest⟩ := Option.bind_eq_some_iff.mp h
    obtain ⟨hp', hstep⟩ := next_total weight fuel P m hm s t move hp ht
    have hrun := ih t hp' hrest
    rw [List.countP_cons, List.countP_cons]
    cases hmove : isSection move with
    | false =>
      simp only [hmove, Bool.not_false, Bool.false_eq_true, if_false, if_true] at hstep ⊢
      omega
    | true =>
      simp only [hmove, Bool.not_true, Bool.false_eq_true, if_false, if_true] at hstep ⊢
      omega

end Updates

end EraseCure.MonitorRanks
