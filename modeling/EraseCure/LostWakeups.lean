import EraseCure.PoolWakeups

/-!
# Lost wake-ups of a worker pool

A worker that leaves the pool idle wakes one of those that wait for idleness,
and a destroy wakes no submitter that waits for room. Where at most one thread
waits for idleness then, and no more submitters wait than tasks are queued,
nobody is left waiting for something that has happened.
-/

set_option autoImplicit false

namespace EraseCure.LostWakeups
open EraseCure.Monitors EraseCure.WorkerPools EraseCure.PoolTasks
open EraseCure.PoolWakeups

variable {ι τ : Type*}

section Runs
variable [DecidableEq ι] [Fintype ι]

/-- A thread waits although what it waits for is there. -/
def LostWakeup (s : PoolRun ι τ) (i : ι) : Prop :=
  BlockedOn .notEmpty (s.status i) ∧ (0 < s.shared.count ∨ s.shared.shutdown = true) ∨
  BlockedOn .notFull (s.status i) ∧
    (s.shared.count ≠ s.shared.queueSize ∨ s.shared.shutdown = true) ∨
  BlockedOn .isIdle (s.status i) ∧ s.shared.count = 0 ∧ s.shared.activeTasks = 0

instance (s : PoolRun ι τ) (i : ι) : Decidable (LostWakeup s i) := by
  unfold LostWakeup
  infer_instance

/-- The section that leaves the pool idle has one waiter to wake at most, and a
destroy has no more submitters waiting than there are takes to come. -/
def calm (s : PoolRun ι τ) : Move ι → Bool
  | .wake _ => true
  | .act i _ =>
    match s.status i with
    | .ready .workerFinish =>
      decide (s.shared.count = 0 → s.shared.activeTasks = 1 →
        tally (waitsOn .isIdle) s.status ≤ 1)
    | .ready .destroy => decide (tally (waitsOn .notFull) s.status ≤ s.shared.count)
    | _ => true

structure CalmInvariant (s : PoolState ι τ) (st : ι → PoolStatus ι τ) : Prop where
  refused : s.shutdown = true → tally (waitsOn .notFull) st ≤ s.count
  idle : s.count = 0 → s.activeTasks = 0 → tally (waitsOn .isIdle) st = 0

omit [DecidableEq ι] in
theorem calm_same (s s' : PoolState ι τ) (st st' : ι → PoolStatus ι τ) (h : CalmInvariant s st)
    (hshut : s'.shutdown = s.shutdown) (hcount : s'.count = s.count)
    (hactive : s'.activeTasks = s.activeTasks)
    (hf : tally (waitsOn .notFull) st' = tally (waitsOn .notFull) st)
    (hi : tally (waitsOn .isIdle) st' = tally (waitsOn .isIdle) st) : CalmInvariant s' st' where
  refused := fun hs => by rw [hf, hcount]; exact h.refused (hshut ▸ hs)
  idle := fun hc ha => by rw [hi]; exact h.idle (hcount ▸ hc) (hactive ▸ ha)

section Sections
variable (s : PoolState ι τ) (st st' : ι → PoolStatus ι τ) (woken : Option ι) (i : ι)

/-- The section of a thread that waits for neither, before and after. -/
theorem aside_calm (s' : PoolState ι τ) (x : PoolStatus ι τ) (h : CalmInvariant s st)
    (hshut : s'.shutdown = s.shutdown) (hcount : s'.count = s.count)
    (hactive : s'.activeTasks = s.activeTasks)
    (hf : waitsOn .notFull (st i) = waitsOn .notFull x)
    (hi : waitsOn .isIdle (st i) = waitsOn .isIdle x) :
    CalmInvariant s' (Function.update st i x) :=
  calm_same s s' st _ h hshut hcount hactive (tally_same _ st i x hf) (tally_same _ st i x hi)

/-- A worker takes a task and wakes one of the submitters that wait. -/
theorem take_calm (s' : PoolState ι τ) (x : PoolStatus ι τ) (h : CalmInvariant s st)
    (hshut : s'.shutdown = s.shutdown) (hcount : s'.count = s.count-1)
    (hactive : s'.activeTasks = s.activeTasks+1)
    (hf : waitsOn .notFull (st i) = waitsOn .notFull x)
    (hn : notify (.one .notFull) woken (Function.update st i x) = some st') :
    CalmInvariant s' st' := by
  obtain ⟨hone, -⟩ := notify_one_waiters .notFull woken _ st' hn
  rw [tally_same _ st i x hf] at hone
  constructor
  · intro hs
    have := h.refused (hshut ▸ hs)
    omega
  · intro _ ha
    rw [hactive] at ha
    exact absurd ha (Nat.succ_ne_zero _)

/-- A worker that leaves the pool idle wakes the one thread that waits for it. -/
theorem finish_calm (s' : PoolState ι τ) (x : PoolStatus ι τ) (signal : Signal PoolCond)
    (h : CalmInvariant s st) (hshut : s'.shutdown = s.shutdown) (hcount : s'.count = s.count)
    (hactive : s'.activeTasks = s.activeTasks-1)
    (hsignal : s.count = 0 ∧ s.activeTasks-1 = 0 ∧ signal = .one .isIdle ∨
      ¬ (s.count = 0 ∧ s.activeTasks-1 = 0) ∧ signal = .none)
    (hle : s.count = 0 → s.activeTasks = 1 → tally (waitsOn .isIdle) st ≤ 1)
    (hf : waitsOn .notFull (st i) = waitsOn .notFull x)
    (hi : waitsOn .isIdle (st i) = waitsOn .isIdle x)
    (hn : notify signal woken (Function.update st i x) = some st') : CalmInvariant s' st' := by
  have hf' := tally_same _ st i x hf
  have hi' := tally_same _ st i x hi
  rcases hsignal with ⟨hnone, hlast, rfl⟩ | ⟨hbusy, rfl⟩
  · obtain ⟨hone, hother⟩ := notify_one_waiters .isIdle woken _ st' hn
    constructor
    · intro hs
      rw [hother .notFull (by decide), hf', hcount]
      exact h.refused (hshut ▸ hs)
    · intro _ _
      by_cases hfinal : s.activeTasks = 1
      · have := hle hnone hfinal
        omega
      · have := h.idle hnone (by omega)
        omega
  · obtain rfl := notify_none _ _ _ hn
    constructor
    · intro hs
      rw [hf', hcount]
      exact h.refused (hshut ▸ hs)
    · exact fun hc ha => absurd ⟨hcount ▸ hc, hactive ▸ ha⟩ hbusy

end Sections

theorem effect_calm (s : PoolRun ι τ) (st' : ι → PoolStatus ι τ) (woken : Option ι) (i : ι)
    (l : PoolLoc ι τ) (sec : PoolSection ι τ) (hi : s.status i = .ready l)
    (he : PoolEffect i s.shared l sec)
    (hn : notify sec.signal woken (Function.update s.status i sec.status) = some st')
    (hcalm : calm s (.act i woken) = true) (h : CalmInvariant s.shared s.status) :
    CalmInvariant sec.shared st' := by
  rw [calm, hi] at hcalm
  cases he with
  | workerTake hc =>
    exact take_calm s.shared s.status st' woken i _ _ h rfl rfl rfl (by rw [hi]; rfl) hn
  | submitAccepted t hs hc =>
    refine ⟨fun hshut => ?_, fun hcount => absurd hcount (Nat.succ_ne_zero _)⟩
    rw [show s.shared.shutdown = true from hshut] at hs
    contradiction
  | destroyStarted =>
    have hall := (notify_all .notEmpty woken _ st' hn).2
    have hf := tally_same (waitsOn .notFull) s.status i (.ready (.destroyJoin s.shared.threads))
      (by rw [hi]; rfl)
    have hidle := tally_same (waitsOn .isIdle) s.status i (.ready (.destroyJoin s.shared.threads))
      (by rw [hi]; rfl)
    constructor
    · intro _
      rw [hall .notFull (by decide), hf]
      exact of_decide_eq_true hcalm
    · intro hcount hactive
      rw [hall .isIdle (by decide), hidle]
      exact h.idle hcount hactive
  | workerFinished signal hsignal =>
    exact finish_calm s.shared s.status st' woken i _ _ signal h rfl rfl rfl hsignal
      (of_decide_eq_true hcalm) (by rw [hi]; rfl) (by rw [hi]; rfl) hn
  | workerRan task ticket =>
    obtain rfl := notify_none _ _ _ hn
    apply aside_calm s.shared s.status i _ _ h
    · split_ifs <;> rfl
    · split_ifs <;> rfl
    · split_ifs <;> rfl
    all_goals
      rw [hi]
      rfl
  | submitWait t hfull hopen =>
    obtain rfl := notify_none _ _ _ hn
    have hidle := tally_same (waitsOn .isIdle) s.status i (.blocked .notFull (.submit (some t)))
      (by rw [hi]; rfl)
    refine ⟨fun hshut => ?_, fun hc ha => hidle.trans (h.idle hc ha)⟩
    rw [show s.shared.shutdown = true from hshut] at hopen
    contradiction
  | idleWait l before _ hbusy =>
    obtain rfl := notify_none _ _ _ hn
    have hf := tally_same (waitsOn .notFull) s.status i (.blocked .isIdle (.waitIdleLoop before))
      (by rw [hi]; rfl)
    refine ⟨fun hs => hf.trans_le (h.refused hs), fun hc ha => ?_⟩
    dsimp only at hc ha
    omega
  | workerWait | workerExit | submitRefused | idleReturn | destroyJoined | destroyDone =>
    obtain rfl := notify_none _ _ _ hn
    refine aside_calm s.shared s.status i _ _ h rfl rfl rfl ?_ ?_
    all_goals
      rw [hi]
      rfl

theorem wake_calm (s : PoolState ι τ) (st : ι → PoolStatus ι τ) (i : ι) (l : PoolLoc ι τ)
    (h : CalmInvariant s st) : CalmInvariant s (Function.update st i (.ready l)) := by
  have hle : ∀ c, tally (waitsOn c) (Function.update st i (.ready l)) ≤ tally (waitsOn c) st := by
    intro c
    have := tally_update (waitsOn c) st i (.ready l)
    rw [if_neg (show ¬ waitsOn c (.ready l) = true from Bool.false_ne_true)] at this
    omega
  constructor
  · exact fun hs => (hle .notFull).trans (h.refused hs)
  · exact fun hc ha => Nat.le_zero.mp ((h.idle hc ha) ▸ hle .isIdle)

theorem run_calm (spurious : Bool) (s₀ s : PoolRun ι τ)
    (h₀ : CalmInvariant s₀.shared s₀.status) (h : ReachableBy calm (poolMachine spurious) s₀ s) :
    CalmInvariant s.shared s.status := by
  induction h with
  | start => exact h₀
  | step s s' move _ hok hn ih =>
    rcases next_effect _ s s' move hn with
      ⟨i, woken, l, sec, rfl, hi, ha, hs, hst⟩ | ⟨i, cond, l, _, hs, hst⟩
    · rw [hs]
      exact effect_calm s s'.status woken i l sec hi
        (act_effect spurious i l s.shared sec ha) hst hok ih
    · rw [hs, hst]
      exact wake_calm s.shared s.status i l ih

/-- In a run all of whose steps are calm nobody waits in vain once no thread
can go on. -/
theorem calm_wakes_all (spurious : Bool) (threads : List ι) (maxQueueSize : ℕ)
    (malloc : Option (ℕ → Option τ)) (pool : WorkerPool ι τ) (calls : ι → PoolCall τ)
    (s : PoolRun ι τ) (hc : workerPoolCreate threads maxQueueSize malloc = some pool)
    (h : ReachableBy calm (poolMachine spurious) (poolStart pool calls) s)
    (hq : Quiescent (poolMachine spurious) s) (i : ι) : ¬ LostWakeup s i := by
  have hr := reachableBy_reachable calm _ _ s h
  have hp := reachable_invariant spurious _ s
    (start_invariant pool calls threads maxQueueSize malloc hc) hr
  have hs := reachable_signals spurious _ s (start_signals pool calls) hr
  have hcalm : CalmInvariant s.shared s.status := by
    apply run_calm spurious _ s _ h
    constructor
    · exact fun _ => (start_waiting pool calls .notFull).trans_le (Nat.zero_le _)
    · exact fun _ _ => start_waiting pool calls .isIdle
  obtain ⟨hcount, hactive⟩ := quiescent_idle spurious s hq hp hs
  have hwaiting : ∀ cond, BlockedOn cond (s.status i) → 0 < tally (waitsOn cond) s.status := by
    intro cond hb
    rw [tally_pos]
    exact ⟨i, (waitsOn_iff cond _).mpr hb⟩
  rintro (⟨hb, hwork⟩ | ⟨hb, -⟩ | ⟨hb, -, -⟩)
  · have hopen := hs.open_wait (hwaiting _ hb)
    rcases hwork with hpos | hshut
    · exact absurd hcount hpos.ne'
    · rw [hopen] at hshut
      contradiction
  · have hpos := hwaiting _ hb
    cases hshut : s.shared.shutdown with
    | true =>
      have := hcalm.refused hshut
      omega
    | false =>
      have hroom := hs.room hpos hshut
      have hnobody := quiescent_submit spurious s hq
      have hsize := Nat.zero_lt_of_lt hp.ring.head_lt
      omega
  · exact absurd (hcalm.idle hcount hactive) (hwaiting _ hb).ne'

end Runs

def smallPool (n : ℕ) : WorkerPool (Fin (n+1)) Unit :=
  ⟨[0], 1, fun _ => none, 0, 0, 0, false, 0, []⟩

def waitCalls : Fin 4 → PoolCall Unit
  | 0 | 1 => .submit (some ())
  | 2 | 3 => .waitIdle

def waitMoves : List (Move (Fin 4)) :=
  [.act 1 none, .act 2 none, .act 3 none, .act 0 none, .act 0 none, .act 0 (some 2),
    .act 0 none, .act 2 none]

def destroyCalls : Fin 5 → PoolCall Unit
  | 0 | 1 | 2 | 3 => .submit (some ())
  | 4 => .destroy

def destroyMoves : List (Move (Fin 5)) :=
  [.act 1 none, .act 2 none, .act 3 none, .act 4 none, .act 0 (some 2), .act 2 none,
    .act 0 none, .act 0 none, .act 0 none, .act 4 none, .act 4 none]

/-- The second of two that wait for idleness, and the second of two submitters
that a destroy finds waiting, are left behind. -/
theorem waiters_left :
    (∀ n, workerPoolCreate [0] 1 (some fun _ => none) = some (smallPool n)) ∧
    (∃ s, Reachable (poolMachine false) (poolStart (smallPool 3) waitCalls) s ∧
      Quiescent (poolMachine false) s ∧ LostWakeup s 3) ∧
    ∃ s, Reachable (poolMachine false) (poolStart (smallPool 4) destroyCalls) s ∧
      Quiescent (poolMachine false) s ∧ LostWakeup s 3 := by
  refine ⟨fun n => rfl, ?_, ?_⟩
  · have h : (run (poolMachine false) (poolStart (smallPool 3) waitCalls) waitMoves).any
        (fun s => decide (Quiescent (poolMachine false) s ∧ LostWakeup s 3)) = true := by
      decide
    obtain ⟨s, hs, hlost⟩ := (Option.any_eq_true _ _).mp h
    exact ⟨s, run_reachable _ _ _ s waitMoves .start hs, of_decide_eq_true hlost⟩
  · have h : (run (poolMachine false) (poolStart (smallPool 4) destroyCalls) destroyMoves).any
        (fun s => decide (Quiescent (poolMachine false) s ∧ LostWakeup s 3)) = true := by
      decide
    obtain ⟨s, hs, hlost⟩ := (Option.any_eq_true _ _).mp h
    exact ⟨s, run_reachable _ _ _ s destroyMoves .start hs, of_decide_eq_true hlost⟩

/-- One that waits for idleness is woken. -/
theorem calm_wakes_all_one : ∃ s, Quiescent (poolMachine false) s ∧ s.shared.finished = [0] ∧
    ∀ i, ¬ LostWakeup (ι := Fin 4) (τ := Unit) s i := by
  have h : (runBy calm (poolMachine false) (poolStart (smallPool 3) waitCalls)
      [.act 1 none, .act 2 none, .act 0 none, .act 0 none, .act 0 (some 2),
        .act 0 none, .act 2 none, .act 3 none]).any
      (fun s => decide (Quiescent (poolMachine false) s ∧ s.shared.finished = [0])) = true := by
    decide
  obtain ⟨s, hs, hq⟩ := (Option.any_eq_true _ _).mp h
  have hq := of_decide_eq_true hq
  exact ⟨s, hq.1, hq.2, calm_wakes_all false [0] 1 (some fun _ => none) (smallPool 3) waitCalls s
    rfl (runBy_reachableBy _ _ _ _ s _ .start hs) hq.1⟩

end EraseCure.LostWakeups
