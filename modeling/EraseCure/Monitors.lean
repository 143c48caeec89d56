import Mathlib.Data.Fintype.Card
import Mathlib.Data.Finset.Card
import Mathlib.Logic.Function.Basic

/-!
# Monitors

Threads share a state under one lock. A thread that is ready runs one critical
section at a time: it changes the shared state, goes to another location or
waits on a condition, and may signal a condition. A signal wakes one of the
threads that wait on the condition when there is one, a broadcast all of them.
A woken thread has to run its section again. Where it is allowed, a waiting
thread may also wake without a signal.
-/

set_option autoImplicit false

namespace EraseCure.Monitors

variable {ι σ κ ℓ : Type*}

inductive Status (κ ℓ : Type*) where
  | ready (l : ℓ)
  | blocked (cond : κ) (l : ℓ)
  deriving DecidableEq

def Status.loc : Status κ ℓ → ℓ
  | .ready l | .blocked _ l => l

inductive Signal (κ : Type*) where
  | none
  | one (cond : κ)
  | all (cond : κ)

structure Section (σ κ ℓ : Type*) where
  shared : σ
  status : Status κ ℓ
  signal : Signal κ

/-- The section of a thread at a location, if it can run. -/
structure Machine (ι σ κ ℓ : Type*) where
  act : ι → ℓ → σ → Option (Section σ κ ℓ)
  spurious : Bool

structure State (ι σ κ ℓ : Type*) where
  shared : σ
  status : ι → Status κ ℓ

def State.locs (s : State ι σ κ ℓ) : ι → ℓ := fun i => (s.status i).loc

inductive Move (ι : Type*) where
  | act (i : ι) (woken : Option ι)
  | wake (i : ι)

def BlockedOn (cond : κ) (x : Status κ ℓ) : Prop := ∃ l, x = .blocked cond l

instance [DecidableEq κ] (cond : κ) (x : Status κ ℓ) : Decidable (BlockedOn cond x) :=
  match x with
  | .ready _ => isFalse (by rintro ⟨l, h⟩; contradiction)
  | .blocked c l =>
    if h : c = cond then isTrue ⟨l, by rw [h]⟩
    else isFalse (by rintro ⟨l', h'⟩; cases h'; exact h rfl)

section Moves
variable [DecidableEq ι] [DecidableEq κ] [Fintype ι]

/-- The threads after a signal that wakes the given thread. -/
def notify (signal : Signal κ) (woken : Option ι) (st : ι → Status κ ℓ) :
    Option (ι → Status κ ℓ) :=
  match signal, woken with
  | .none, none => some st
  | .one cond, none => if ∀ j, ¬ BlockedOn cond (st j) then some st else none
  | .one cond, some j =>
    if BlockedOn cond (st j) then some (Function.update st j (.ready (st j).loc)) else none
  | .all cond, none => some (fun j => if BlockedOn cond (st j) then .ready (st j).loc else st j)
  | _, _ => none

def next (m : Machine ι σ κ ℓ) (s : State ι σ κ ℓ) : Move ι → Option (State ι σ κ ℓ)
  | .act i woken =>
    match s.status i with
    | .blocked _ _ => none
    | .ready l =>
      match m.act i l s.shared with
      | none => none
      | some sec =>
        (notify sec.signal woken (Function.update s.status i sec.status)).map
          (fun st => ⟨sec.shared, st⟩)
  | .wake i =>
    match m.spurious, s.status i with
    | true, .blocked _ l => some { s with status := Function.update s.status i (.ready l) }
    | _, _ => none

inductive Reachable (m : Machine ι σ κ ℓ) (s₀ : State ι σ κ ℓ) : State ι σ κ ℓ → Prop where
  | start : Reachable m s₀ s₀
  | step (s s' : State ι σ κ ℓ) (move : Move ι) : Reachable m s₀ s → next m s move = some s' →
      Reachable m s₀ s'

def run (m : Machine ι σ κ ℓ) : State ι σ κ ℓ → List (Move ι) → Option (State ι σ κ ℓ)
  | s, [] => some s
  | s, move::moves => (next m s move).bind (fun s' => run m s' moves)

theorem run_reachable (m : Machine ι σ κ ℓ) (s₀ s s' : State ι σ κ ℓ) (moves : List (Move ι))
    (h : Reachable m s₀ s) (hr : run m s moves = some s') : Reachable m s₀ s' := by
  induction moves generalizing s with
  | nil =>
    cases hr
    exact h
  | cons move moves ih =>
    obtain ⟨t, ht, hr⟩ := Option.bind_eq_some_iff.mp hr
    exact ih t (.step s t move h ht) hr

theorem notify_loc (signal : Signal κ) (woken : Option ι) (st st' : ι → Status κ ℓ)
    (h : notify signal woken st = some st') (i : ι) : (st' i).loc = (st i).loc := by
  unfold notify at h
  split at h
  · cases h
    rfl
  · split_ifs at h
    cases h
    rfl
  · rename_i cond j
    split_ifs at h
    cases h
    by_cases hij : i = j
    · subst hij
      rw [Function.update_self]
      rfl
    · rw [Function.update_of_ne hij]
  · cases h
    dsimp only
    split_ifs <;> rfl
  · contradiction

/-- What a move can do to the shared state and the threads: one section of one
thread and its signal, or a wake-up without a signal. -/
theorem next_effect (m : Machine ι σ κ ℓ) (s s' : State ι σ κ ℓ) (move : Move ι)
    (h : next m s move = some s') :
    (∃ i woken l sec, move = .act i woken ∧ s.status i = .ready l ∧
      m.act i l s.shared = some sec ∧ s'.shared = sec.shared ∧
      notify sec.signal woken (Function.update s.status i sec.status) = some s'.status) ∨
    ∃ i cond l, s.status i = .blocked cond l ∧ s'.shared = s.shared ∧
      s'.status = Function.update s.status i (.ready l) := by
  cases move with
  | act i woken =>
    apply Or.inl
    simp only [next] at h
    split at h
    · contradiction
    rename_i l hl
    split at h
    · contradiction
    rename_i sec hsec
    obtain ⟨st, hst, rfl⟩ := Option.map_eq_some_iff.mp h
    exact ⟨i, woken, l, sec, rfl, hl, hsec, rfl, hst⟩
  | wake i =>
    apply Or.inr
    simp only [next] at h
    split at h
    · rename_i cond l _ hl
      cases h
      exact ⟨i, cond, l, hl, rfl, rfl⟩
    · contradiction

/-- What a move can do to the shared state and the locations: nothing, or one
section of one thread. -/
theorem next_cases (m : Machine ι σ κ ℓ) (s s' : State ι σ κ ℓ) (move : Move ι)
    (h : next m s move = some s') :
    (s'.shared = s.shared ∧ s'.locs = s.locs) ∨
      ∃ i sec, s.status i = .ready (s.locs i) ∧ m.act i (s.locs i) s.shared = some sec ∧
        s'.shared = sec.shared ∧ s'.locs = Function.update s.locs i sec.status.loc := by
  rcases next_effect m s s' move h with
    ⟨i, woken, l, sec, _, hl, hsec, hshared, hnotify⟩ | ⟨i, cond, l, hl, hshared, hstatus⟩
  · have hloc : s.locs i = l := by rw [State.locs, hl]; rfl
    refine Or.inr ⟨i, sec, by rw [hloc, hl], by rw [hloc, hsec], hshared, ?_⟩
    funext j
    rw [State.locs, notify_loc _ _ _ _ hnotify]
    by_cases hij : j = i
    · subst hij
      rw [Function.update_self, Function.update_self]
    · rw [Function.update_of_ne hij, Function.update_of_ne hij, State.locs]
  · refine Or.inl ⟨hshared, ?_⟩
    funext j
    rw [State.locs, State.locs, hstatus]
    by_cases hij : j = i
    · subst hij
      rw [Function.update_self, hl]
      rfl
    · rw [Function.update_of_ne hij]

/-- An invariant of the shared state and the locations only has to hold at the
start and be kept by every section. -/
theorem locs_invariant (m : Machine ι σ κ ℓ) (s₀ : State ι σ κ ℓ) (P : σ → (ι → ℓ) → Prop)
    (h₀ : P s₀.shared s₀.locs)
    (hstep : ∀ shared locs i sec, P shared locs → m.act i (locs i) shared = some sec →
      P sec.shared (Function.update locs i sec.status.loc))
    (s : State ι σ κ ℓ) (h : Reachable m s₀ s) : P s.shared s.locs := by
  induction h with
  | start => exact h₀
  | step s s' move _ hn ih =>
    rcases next_cases m s s' move hn with ⟨hs, hl⟩ | ⟨i, sec, _, ha, hs, hl⟩
    · rwa [hs, hl]
    · rw [hs, hl]
      exact hstep s.shared s.locs i sec ih ha

end Moves

section Recordings
variable [DecidableEq ι] [DecidableEq κ] [Fintype ι] {ε : Type*}

/-- A shared state and what was written down on the way to it, the latest first. -/
structure Recording (σ ε : Type*) where
  shared : σ
  events : List ε

/-- The machine that writes down an event for every section. -/
def recorded (m : Machine ι σ κ ℓ) (event : ℓ → σ → ε) : Machine ι (Recording σ ε) κ ℓ where
  act := fun i l s => (m.act i l s.shared).map (fun sec =>
    ⟨⟨sec.shared, event l s.shared::s.events⟩, sec.status, sec.signal⟩)
  spurious := m.spurious

/-- What every section keeps together with its event holds of every recording. -/
theorem recorded_invariant (m : Machine ι σ κ ℓ) (event : ℓ → σ → ε)
    (s₀ : State ι (Recording σ ε) κ ℓ) (P : σ → List ε → Prop)
    (h₀ : P s₀.shared.shared s₀.shared.events)
    (hstep : ∀ shared events i l sec, P shared events → m.act i l shared = some sec →
      P sec.shared (event l shared::events))
    (s : State ι (Recording σ ε) κ ℓ) (h : Reachable (recorded m event) s₀ s) :
    P s.shared.shared s.shared.events := by
  apply locs_invariant (recorded m event) s₀ (fun r _ => P r.shared r.events) h₀ _ s h
  intro shared locs i sec hp hact
  obtain ⟨sec', hsec', rfl⟩ := Option.map_eq_some_iff.mp hact
  exact hstep shared.shared shared.events i (locs i) sec' hp hsec'

theorem reachable_trans (m : Machine ι σ κ ℓ) (s₀ s s' : State ι σ κ ℓ)
    (h : Reachable m s₀ s) (h' : Reachable m s s') : Reachable m s₀ s' := by
  induction h' with
  | start => exact h
  | step t t' move _ hn ih => exact .step t t' move ih hn

end Recordings

section Tallies
variable [Fintype ι] {β : Type*} (p : β → Bool)

def tally (f : ι → β) : ℕ := (Finset.univ.filter (fun i => p (f i) = true)).card

theorem tally_pos (f : ι → β) : 0 < tally p f ↔ ∃ i, p (f i) = true := by
  rw [tally, Finset.card_pos]
  constructor
  · rintro ⟨i, hi⟩
    exact ⟨i, (Finset.mem_filter.mp hi).2⟩
  · rintro ⟨i, hi⟩
    exact ⟨i, Finset.mem_filter.mpr ⟨Finset.mem_univ i, hi⟩⟩

theorem tally_zero (f : ι → β) : tally p f = 0 ↔ ∀ i, p (f i) = false := by
  rw [tally, Finset.card_eq_zero, Finset.filter_eq_empty_iff]
  simp

theorem tally_congr (f g : ι → β) (h : ∀ i, p (f i) = p (g i)) : tally p f = tally p g := by
  simp only [tally, h]

variable [DecidableEq ι] (f : ι → β) (i : ι) (b : β)

theorem tally_update : tally p (Function.update f i b)+(if p (f i) = true then 1 else 0) =
    tally p f+(if p b = true then 1 else 0) := by
  have hsplit : ∀ g : ι → β, tally p g = ((Finset.univ.erase i).filter
      (fun j => p (g j) = true)).card+(if p (g i) = true then 1 else 0) := by
    intro g
    rw [tally, ← Finset.insert_erase (Finset.mem_univ i), Finset.filter_insert]
    split_ifs with h
    · rw [Finset.card_insert_of_notMem (by simp), Finset.erase_insert (by simp)]
    · rw [Finset.erase_insert (by simp), Nat.add_zero]
  have hsame : (Finset.univ.erase i).filter (fun j => p (Function.update f i b j) = true) =
      (Finset.univ.erase i).filter (fun j => p (f j) = true) := by
    apply Finset.filter_congr
    intro j hj
    rw [Function.update_of_ne (Finset.ne_of_mem_erase hj)]
  rw [hsplit f, hsplit (Function.update f i b), hsame, Function.update_self]
  omega

theorem tally_same (h : p (f i) = p b) : tally p (Function.update f i b) = tally p f := by
  have := tally_update p f i b
  rw [h] at this
  omega

theorem tally_gain (h : p (f i) = false) (hb : p b = true) :
    tally p (Function.update f i b) = tally p f+1 := by
  have := tally_update p f i b
  rw [h, hb] at this
  simpa using this

theorem tally_loss (h : p (f i) = true) (hb : p b = false) :
    tally p (Function.update f i b)+1 = tally p f := by
  have := tally_update p f i b
  rw [h, hb] at this
  simpa using this

end Tallies

section Waiters
variable [DecidableEq ι] [DecidableEq κ] [Fintype ι]

def waitsOn (cond : κ) : Status κ ℓ → Bool
  | .blocked c _ => c = cond
  | .ready _ => false

theorem waitsOn_iff (cond : κ) (x : Status κ ℓ) : waitsOn cond x = true ↔ BlockedOn cond x := by
  cases x with
  | ready l =>
    apply iff_of_false Bool.false_ne_true
    rintro ⟨l', hl'⟩
    contradiction
  | blocked c l =>
    rw [waitsOn, decide_eq_true_eq]
    constructor
    · rintro rfl
      exact ⟨l, rfl⟩
    · rintro ⟨l', hl'⟩
      cases hl'
      rfl

theorem notify_none (woken : Option ι) (st st' : ι → Status κ ℓ)
    (h : notify (.none : Signal κ) woken st = some st') : st' = st := by
  cases woken with
  | none =>
    cases h
    rfl
  | some j => contradiction

theorem notify_one (cond : κ) (woken : Option ι) (st st' : ι → Status κ ℓ)
    (h : notify (.one cond) woken st = some st') :
    (tally (waitsOn cond) st = 0 ∧ st' = st) ∨
      ∃ j l, st j = .blocked cond l ∧ st' = Function.update st j (.ready l) := by
  cases woken with
  | none =>
    simp only [notify] at h
    split_ifs at h with hnone
    cases h
    refine Or.inl ⟨?_, rfl⟩
    rw [tally_zero]
    intro j
    rw [← Bool.not_eq_true, waitsOn_iff]
    exact hnone j
  | some j =>
    simp only [notify] at h
    split_ifs at h with hj
    obtain ⟨l, hl⟩ := hj
    cases h
    exact Or.inr ⟨j, l, hl, by rw [hl]; rfl⟩

theorem notify_one_waiters (cond : κ) (woken : Option ι) (st st' : ι → Status κ ℓ)
    (h : notify (.one cond) woken st = some st') :
    tally (waitsOn cond) st' = tally (waitsOn cond) st-1 ∧
      ∀ c, c ≠ cond → tally (waitsOn c) st' = tally (waitsOn c) st := by
  rcases notify_one cond woken st st' h with ⟨h0, rfl⟩ | ⟨j, l, hj, rfl⟩
  · exact ⟨by rw [h0], fun _ _ => rfl⟩
  · constructor
    · rw [← tally_loss (waitsOn cond) st j (.ready l) (by rw [hj]; exact decide_eq_true rfl) rfl]
      rfl
    · intro c hc
      apply tally_same
      rw [hj]
      exact decide_eq_false (Ne.symm hc)

theorem notify_all (cond : κ) (woken : Option ι) (st st' : ι → Status κ ℓ)
    (h : notify (.all cond) woken st = some st') :
    tally (waitsOn cond) st' = 0 ∧
      ∀ c, c ≠ cond → tally (waitsOn c) st' = tally (waitsOn c) st := by
  cases woken with
  | some j => contradiction
  | none =>
    cases h
    constructor
    · rw [tally_zero]
      intro j
      split_ifs with hj
      · rfl
      · rw [← Bool.not_eq_true, waitsOn_iff]
        exact hj
    · intro c hc
      apply tally_congr
      intro j
      split_ifs with hj
      · obtain ⟨l, hl⟩ := hj
        rw [hl]
        exact (decide_eq_false (Ne.symm hc)).symm
      · rfl

/-- What holds of every thread and does not depend on its being woken. -/
theorem notify_forall (P : Status κ ℓ → Prop) (hw : ∀ x, P x → P (.ready x.loc))
    (signal : Signal κ) (woken : Option ι) (st st' : ι → Status κ ℓ)
    (h : notify signal woken st = some st') (hst : ∀ j, P (st j)) (j : ι) : P (st' j) := by
  unfold notify at h
  split at h
  · cases h
    exact hst j
  · split_ifs at h
    cases h
    exact hst j
  · rename_i cond k
    split_ifs at h
    cases h
    by_cases hj : j = k
    · rw [hj, Function.update_self]
      exact hw _ (hst _)
    · rw [Function.update_of_ne hj]
      exact hst j
  · cases h
    dsimp only
    split_ifs
    · exact hw _ (hst j)
    · exact hst j
  · contradiction

end Waiters

section Conditions
variable [DecidableEq ι] [DecidableEq κ] [Fintype ι] (ok : State ι σ κ ℓ → Move ι → Bool)
  (m : Machine ι σ κ ℓ)

/-- The states of the runs all of whose moves meet the condition. -/
inductive ReachableBy (s₀ : State ι σ κ ℓ) : State ι σ κ ℓ → Prop where
  | start : ReachableBy s₀ s₀
  | step (s s' : State ι σ κ ℓ) (move : Move ι) : ReachableBy s₀ s → ok s move = true →
      next m s move = some s' → ReachableBy s₀ s'

theorem reachableBy_reachable (s₀ s : State ι σ κ ℓ) (h : ReachableBy ok m s₀ s) :
    Reachable m s₀ s := by
  induction h with
  | start => exact .start
  | step s s' move _ _ hn ih => exact .step s s' move ih hn

/-- Runs the moves in order as long as they meet the condition. -/
def runBy : State ι σ κ ℓ → List (Move ι) → Option (State ι σ κ ℓ)
  | s, [] => some s
  | s, move::moves =>
    if ok s move = true then (next m s move).bind (fun s' => runBy s' moves) else none

theorem runBy_reachableBy (s₀ s s' : State ι σ κ ℓ) (moves : List (Move ι))
    (h : ReachableBy ok m s₀ s) (hr : runBy ok m s moves = some s') :
    ReachableBy ok m s₀ s' := by
  induction moves generalizing s with
  | nil =>
    cases hr
    exact h
  | cons move moves ih =>
    rw [runBy] at hr
    split_ifs at hr with hok
    obtain ⟨t, ht, hr⟩ := Option.bind_eq_some_iff.mp hr
    exact ih t (.step s t move h hok ht) hr

/-- No thread can run a section. -/
def Quiescent (s : State ι σ κ ℓ) : Prop :=
  ∀ i l, s.status i = .ready l → m.act i l s.shared = none

instance (s : State ι σ κ ℓ) : Decidable (Quiescent m s) :=
  decidable_of_iff (∀ i, (match s.status i with
    | .ready l => (m.act i l s.shared).isNone
    | .blocked _ _ => true) = true) (by
      apply forall_congr'
      intro i
      cases s.status i <;> simp)

end Conditions

end EraseCure.Monitors
