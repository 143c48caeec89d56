import EraseCure.MonitorRanks
import EraseCure.PoolRuns

/-!
# How long a worker pool runs

Every task that is submitted pays for its way through the pool: the worker that it
wakes, its take, its run and the round after it. So the calls bound the sections of a
run, but for wake-ups without a signal, and a run that cannot be continued has run every
task that was accepted.
-/

set_option autoImplicit false

namespace EraseCure.PoolSections
open EraseCure.Monitors EraseCure.MonitorRanks EraseCure.WorkerPools EraseCure.PoolTasks
open EraseCure.PoolWakeups

variable {ι τ : Type*} [Fintype ι]

/-- What is left to do for a thread at a place, in a pool of so many workers. -/
def locWeight (threads : ℕ) : PoolLoc ι τ → ℕ
  | .workerLoop => 2
  | .workerRun _ _ => 5
  | .workerFinish => 4
  | .submit _ => 7
  | .waitIdle | .waitIdleLoop _ => 2
  | .destroy => threads+2+Fintype.card ι
  | .destroyJoin rest => rest.length+1
  | .workerExited | .submitted _ _ _ | .waitIdleReturned _ | .destroyed => 0

def queueWeight (s : PoolState ι τ) : ℕ := 5*s.count

variable [DecidableEq ι]

theorem pool_paid (threads : ℕ) (spurious : Bool) :
    Paid (locWeight threads) queueWeight (fun s : PoolState ι τ => s.threads.length = threads)
      (poolMachine spurious) := by
  intro i l s sec hthreads hact
  have he := act_effect spurious i l s sec hact
  refine ⟨(congrArg List.length (effect_threads i s l sec he).1).trans hthreads, ?_⟩
  cases he with
  | workerWait | workerExit | submitWait | submitRefused | destroyJoined | destroyDone =>
    dsimp only [rank, locWeight, queueWeight, reach, List.length_cons]
    omega
  | workerTake hcount =>
    dsimp only [rank, locWeight, queueWeight, reach]
    omega
  | workerRan task ticket =>
    have hcount : (if task.isSome = true then { s with finished := s.finished++[ticket] }
        else s).count = s.count := by
      split_ifs <;> rfl
    dsimp only [rank, locWeight, queueWeight, reach]
    rw [hcount]
    omega
  | workerFinished signal hsignal =>
    rcases hsignal with ⟨_, _, rfl⟩ | ⟨_, rfl⟩
    · dsimp only [rank, locWeight, queueWeight, reach]
      omega
    · dsimp only [rank, locWeight, queueWeight, reach]
      omega
  | submitAccepted t =>
    dsimp only [rank, locWeight, queueWeight, reach]
    omega
  | idleWait l before hl | idleReturn l before hl =>
    rcases hl with ⟨rfl, _⟩ | rfl
    · dsimp only [rank, locWeight, queueWeight, reach]
      omega
    · dsimp only [rank, locWeight, queueWeight, reach]
      omega
  | destroyStarted =>
    dsimp only [rank, locWeight, queueWeight, reach]
    omega

/-- What the threads may do from the start on: a worker may wait once without a task. -/
def startWeight (pool : WorkerPool ι τ) (calls : ι → PoolCall τ) (i : ι) : ℕ :=
  if i ∈ pool.threads then 2
  else locWeight (τ := τ) (ι := ι) pool.threads.length (calls i).entry

/-- The sections of a run are bounded by the calls, and in a run that no thread can go on
with every task that was accepted has run once. -/
theorem pool_sections (spurious : Bool) (threads : List ι) (maxQueueSize : ℕ)
    (malloc : Option (ℕ → Option τ)) (pool : WorkerPool ι τ) (calls : ι → PoolCall τ)
    (moves : List (Move ι)) (s : PoolRun ι τ)
    (hc : workerPoolCreate threads maxQueueSize malloc = some pool)
    (hrun : run (poolMachine spurious) (poolStart pool calls) moves = some s) :
    moves.countP isSection+5*s.shared.count ≤
      ∑ i, startWeight pool calls i+moves.countP (fun move => !isSection move) ∧
    (Quiescent (poolMachine spurious) s → s.shared.count = 0 ∧ s.shared.activeTasks = 0 ∧
      ∀ t < s.shared.accepted.length, s.shared.finished.count t = 1) := by
  constructor
  · have hbound := sections_bounded (locWeight pool.threads.length) queueWeight _
      (poolMachine spurious) (pool_paid pool.threads.length spurious) (poolStart pool calls) s moves
      rfl hrun
    have hstart : total (locWeight pool.threads.length) (poolStart pool calls).status =
        ∑ i, startWeight pool calls i := by
      refine Finset.sum_congr rfl fun i _ => ?_
      dsimp only [poolStart, rank, startWeight]
      split_ifs <;> rfl
    have hempty : queueWeight (poolStart pool calls).shared = 0 := by
      rw [workerPoolCreate] at hc
      split_ifs at hc
      obtain ⟨slots, _, rfl⟩ := Option.map_eq_some_iff.mp hc
      rfl
    dsimp only [queueWeight] at hbound hempty
    omega
  · intro hq
    have hreach := run_reachable _ _ _ s moves .start hrun
    have hpool := reachable_invariant spurious _ s
      (start_invariant pool calls threads maxQueueSize malloc hc) hreach
    have hsignals := reachable_signals spurious _ s (start_signals pool calls) hreach
    obtain ⟨hcount, hactive⟩ := quiescent_idle spurious s hq hpool hsignals
    exact ⟨hcount, hactive, idle_finished s.shared s.locs hpool hcount hactive⟩

def freshPool (threads : List ι) : WorkerPool ι τ :=
  ⟨threads, threads.length, fun _ => none, 0, 0, 0, false, 0, []⟩

theorem pool_sections_two : ∃ (moves : List (Move (Fin 4))) (s : PoolRun (Fin 4) (Fin 2)),
    run (poolMachine true) (poolStart (freshPool [0]) PoolRuns.twoTasks) moves = some s ∧
      moves.countP isSection+5*s.shared.count ≤
        ∑ i, startWeight (freshPool [0]) PoolRuns.twoTasks i+
          moves.countP (fun move => !isSection move) ∧
      ∀ t < s.shared.accepted.length, s.shared.finished.count t = 1 := by
  refine ⟨[.act 1 none, .act 2 none, .wake 2, .act 0 none, .act 2 none, .act 3 none, .act 0 none,
    .act 0 none, .act 0 none, .act 0 none, .act 0 none, .act 0 none, .act 3 none, .act 3 none], ?_⟩
  have hquiet : (run (poolMachine true) (poolStart (freshPool [0]) PoolRuns.twoTasks)
      [.act 1 none, .act 2 none, .wake 2, .act 0 none, .act 2 none, .act 3 none, .act 0 none,
        .act 0 none, .act 0 none, .act 0 none, .act 0 none, .act 0 none, .act 3 none,
        .act 3 none]).any
      (fun s => decide (Quiescent (poolMachine true) s)) = true := by decide
  obtain ⟨s, hs, hq⟩ := (Option.any_eq_true _ _).mp hquiet
  obtain ⟨hbound, hdone⟩ := pool_sections true [0] 1 (some fun _ => none) (freshPool [0])
    PoolRuns.twoTasks _ s rfl hs
  exact ⟨s, hs, hbound, (hdone (of_decide_eq_true hq)).2.2⟩

end EraseCure.PoolSections
