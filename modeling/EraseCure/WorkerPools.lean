import EraseCure.ErrorCodes
import EraseCure.Monitors

/-!
# The worker pool

Submitters put tasks into a ring under the lock of the pool and workers take
them out and run them without it. Each thread is at one of the places where it
is about to take the lock, runs a task, or has returned. Beside the pool stand
the tasks accepted, those taken, and the numbers of those whose run has ended,
in the order of these events.
-/

set_option autoImplicit false

namespace EraseCure.WorkerPools
open EraseCure.ErrorCodes EraseCure.Monitors

variable {ι τ : Type*}

inductive PoolCond where
  | notEmpty | notFull | isIdle
  deriving DecidableEq

/-- A slot holds a task, or none where the function pointer is null. The
threads that have exited are those that a join does not wait for. -/
structure WorkerPool (ι τ : Type*) where
  threads : List ι
  queueSize : ℕ
  queue : ℕ → Option τ
  head : ℕ
  tail : ℕ
  count : ℕ
  shutdown : Bool
  activeTasks : ℕ
  exited : List ι

structure PoolState (ι τ : Type*) extends WorkerPool ι τ where
  accepted : List τ
  taken : List (Option τ)
  finished : List ℕ

/-- Where a thread is. A task being run has the number of its take, a submit
that was accepted the number of its acceptance, and a wait for idleness the
number of tasks accepted before it first took the lock. -/
inductive PoolLoc (ι τ : Type*) where
  | workerLoop
  | workerRun (task : Option τ) (ticket : ℕ)
  | workerFinish
  | workerExited
  | submit (task : Option τ)
  | submitted (task : Option τ) (code : ErasecureError) (ticket : Option ℕ)
  | waitIdle
  | waitIdleLoop (before : ℕ)
  | waitIdleReturned (before : ℕ)
  | destroy
  | destroyJoin (rest : List ι)
  | destroyed

abbrev PoolSection (ι τ : Type*) := Section (PoolState ι τ) PoolCond (PoolLoc ι τ)

abbrev PoolRun (ι τ : Type*) := State ι (PoolState ι τ) PoolCond (PoolLoc ι τ)

def workerPoolCreate (threads : List ι) (maxQueueSize : ℕ) (malloc : Option (ℕ → Option τ)) :
    Option (WorkerPool ι τ) :=
  if threads.length = 0 ∨ maxQueueSize = 0 then none
  else malloc.map fun slots => ⟨threads, maxQueueSize, slots, 0, 0, 0, false, 0, []⟩

/-- The first critical section of a round of `worker_thread`. -/
def workerLoop (i : ι) (s : PoolState ι τ) : PoolSection ι τ :=
  if s.count = 0 ∧ s.shutdown = false then ⟨s, .blocked .notEmpty .workerLoop, .none⟩
  else if s.shutdown = true ∧ s.count = 0 then
    ⟨{ s with exited := i::s.exited }, .ready .workerExited, .none⟩
  else
    let task := s.queue s.head
    ⟨{ s with
        head := (s.head+1) % s.queueSize
        count := s.count-1
        activeTasks := s.activeTasks+1
        taken := s.taken++[task] },
      .ready (.workerRun task s.taken.length), .one .notFull⟩

/-- A null function is not called. -/
def workerRun (task : Option τ) (ticket : ℕ) (s : PoolState ι τ) : PoolSection ι τ :=
  ⟨if task.isSome then { s with finished := s.finished++[ticket] } else s,
    .ready .workerFinish, .none⟩

/-- The second critical section of a round of `worker_thread`. -/
def workerFinish (s : PoolState ι τ) : PoolSection ι τ :=
  ⟨{ s with activeTasks := s.activeTasks-1 }, .ready .workerLoop,
    if s.count = 0 ∧ s.activeTasks-1 = 0 then .one .isIdle else .none⟩

def workerPoolSubmit (task : Option τ) (s : PoolState ι τ) : PoolSection ι τ :=
  match task with
  | none => ⟨s, .ready (.submitted none .invalidArg none), .none⟩
  | some t =>
    if s.count = s.queueSize ∧ s.shutdown = false then
      ⟨s, .blocked .notFull (.submit (some t)), .none⟩
    else if s.shutdown = true then ⟨s, .ready (.submitted (some t) .generic none), .none⟩
    else
      ⟨{ s with
          queue := Function.update s.queue s.tail (some t)
          tail := (s.tail+1) % s.queueSize
          count := s.count+1
          accepted := s.accepted++[t] },
        .ready (.submitted (some t) .ok (some s.accepted.length)), .one .notEmpty⟩

/-- The loop of `worker_pool_wait_idle`. -/
def workerPoolWaitIdle (before : ℕ) (s : PoolState ι τ) : PoolSection ι τ :=
  if 0 < s.count ∨ 0 < s.activeTasks then ⟨s, .blocked .isIdle (.waitIdleLoop before), .none⟩
  else ⟨s, .ready (.waitIdleReturned before), .none⟩

def workerPoolDestroy (s : PoolState ι τ) : PoolSection ι τ :=
  ⟨{ s with shutdown := true }, .ready (.destroyJoin s.threads), .all .notEmpty⟩

def destroyJoin [DecidableEq ι] (rest : List ι) (s : PoolState ι τ) : Option (PoolSection ι τ) :=
  match rest with
  | [] => some ⟨s, .ready .destroyed, .none⟩
  | t::rest => if t ∈ s.exited then some ⟨s, .ready (.destroyJoin rest), .none⟩ else none

def poolMachine [DecidableEq ι] (spurious : Bool) :
    Machine ι (PoolState ι τ) PoolCond (PoolLoc ι τ) where
  act := fun i l s =>
    match l with
    | .workerLoop => some (workerLoop i s)
    | .workerRun task ticket => some (workerRun task ticket s)
    | .workerFinish => some (workerFinish s)
    | .submit task => some (workerPoolSubmit task s)
    | .waitIdle => some (workerPoolWaitIdle s.accepted.length s)
    | .waitIdleLoop before => some (workerPoolWaitIdle before s)
    | .destroy => some (workerPoolDestroy s)
    | .destroyJoin rest => destroyJoin rest s
    | .workerExited | .submitted _ _ _ | .waitIdleReturned _ | .destroyed => none
  spurious := spurious

inductive PoolCall (τ : Type*) where
  | submit (task : Option τ)
  | waitIdle
  | destroy

def PoolCall.entry : PoolCall τ → PoolLoc ι τ
  | .submit task => .submit task
  | .waitIdle => .waitIdle
  | .destroy => .destroy

/-- The threads of the pool are workers, every other thread makes one call. -/
def poolStart [DecidableEq ι] (pool : WorkerPool ι τ) (calls : ι → PoolCall τ) : PoolRun ι τ where
  shared := { pool with accepted := [], taken := [], finished := [] }
  status := fun i => .ready (if i ∈ pool.threads then .workerLoop else (calls i).entry)

inductive PoolEffect (i : ι) (s : PoolState ι τ) : PoolLoc ι τ → PoolSection ι τ → Prop where
  | workerWait : s.count = 0 → s.shutdown = false →
      PoolEffect i s .workerLoop ⟨s, .blocked .notEmpty .workerLoop, .none⟩
  | workerExit : s.shutdown = true → s.count = 0 →
      PoolEffect i s .workerLoop
        ⟨{ s with exited := i::s.exited }, .ready .workerExited, .none⟩
  | workerTake : 0 < s.count →
      PoolEffect i s .workerLoop
        ⟨{ s with
            head := (s.head+1) % s.queueSize
            count := s.count-1
            activeTasks := s.activeTasks+1
            taken := s.taken++[s.queue s.head] },
          .ready (.workerRun (s.queue s.head) s.taken.length), .one .notFull⟩
  | workerRan (task : Option τ) (ticket : ℕ) :
      PoolEffect i s (.workerRun task ticket)
        ⟨if task.isSome then { s with finished := s.finished++[ticket] } else s,
          .ready .workerFinish, .none⟩
  | workerFinished (signal : Signal PoolCond) :
      (s.count = 0 ∧ s.activeTasks-1 = 0 ∧ signal = .one .isIdle ∨
        ¬ (s.count = 0 ∧ s.activeTasks-1 = 0) ∧ signal = .none) →
      PoolEffect i s .workerFinish
        ⟨{ s with activeTasks := s.activeTasks-1 }, .ready .workerLoop, signal⟩
  | submitRefused (task : Option τ) (code : ErasecureError) : code ≠ .ok →
      task = none ∨ s.shutdown = true →
      PoolEffect i s (.submit task) ⟨s, .ready (.submitted task code none), .none⟩
  | submitWait (t : τ) : s.count = s.queueSize → s.shutdown = false →
      PoolEffect i s (.submit (some t)) ⟨s, .blocked .notFull (.submit (some t)), .none⟩
  | submitAccepted (t : τ) : s.shutdown = false → s.count ≠ s.queueSize →
      PoolEffect i s (.submit (some t))
        ⟨{ s with
            queue := Function.update s.queue s.tail (some t)
            tail := (s.tail+1) % s.queueSize
            count := s.count+1
            accepted := s.accepted++[t] },
          .ready (.submitted (some t) .ok (some s.accepted.length)), .one .notEmpty⟩
  | idleWait (l : PoolLoc ι τ) (before : ℕ) :
      l = .waitIdle ∧ before = s.accepted.length ∨ l = .waitIdleLoop before →
      0 < s.count ∨ 0 < s.activeTasks →
      PoolEffect i s l ⟨s, .blocked .isIdle (.waitIdleLoop before), .none⟩
  | idleReturn (l : PoolLoc ι τ) (before : ℕ) :
      l = .waitIdle ∧ before = s.accepted.length ∨ l = .waitIdleLoop before →
      s.count = 0 → s.activeTasks = 0 →
      PoolEffect i s l ⟨s, .ready (.waitIdleReturned before), .none⟩
  | destroyStarted :
      PoolEffect i s .destroy
        ⟨{ s with shutdown := true }, .ready (.destroyJoin s.threads), .all .notEmpty⟩
  | destroyJoined (t : ι) (rest : List ι) : t ∈ s.exited →
      PoolEffect i s (.destroyJoin (t::rest)) ⟨s, .ready (.destroyJoin rest), .none⟩
  | destroyDone : PoolEffect i s (.destroyJoin []) ⟨s, .ready .destroyed, .none⟩

theorem worker_effect (i : ι) (s : PoolState ι τ) :
    PoolEffect i s .workerLoop (workerLoop i s) := by
  unfold workerLoop
  split_ifs with h1 h2
  · exact .workerWait h1.1 h1.2
  · exact .workerExit h2.1 h2.2
  · apply PoolEffect.workerTake
    apply Nat.pos_of_ne_zero
    intro h0
    cases hs : s.shutdown with
    | false => exact h1 ⟨h0, hs⟩
    | true => exact h2 ⟨hs, h0⟩

theorem finish_effect (i : ι) (s : PoolState ι τ) :
    PoolEffect i s .workerFinish (workerFinish s) := by
  unfold workerFinish
  split_ifs with h
  · exact .workerFinished _ (Or.inl ⟨h.1, h.2, rfl⟩)
  · exact .workerFinished _ (Or.inr ⟨h, rfl⟩)

theorem submit_effect (i : ι) (s : PoolState ι τ) (task : Option τ) :
    PoolEffect i s (.submit task) (workerPoolSubmit task s) := by
  cases task with
  | none => exact .submitRefused none _ (by decide) (Or.inl rfl)
  | some t =>
    rw [workerPoolSubmit]
    split_ifs with h1 h2
    · exact .submitWait t h1.1 h1.2
    · exact .submitRefused (some t) _ (by decide) (Or.inr h2)
    · rw [Bool.not_eq_true] at h2
      exact .submitAccepted t h2 (fun hc => h1 ⟨hc, h2⟩)

theorem idle_effect (i : ι) (s : PoolState ι τ) (l : PoolLoc ι τ) (before : ℕ)
    (hl : l = .waitIdle ∧ before = s.accepted.length ∨ l = .waitIdleLoop before) :
    PoolEffect i s l (workerPoolWaitIdle before s) := by
  unfold workerPoolWaitIdle
  split_ifs with h
  · exact .idleWait l before hl h
  · push Not at h
    exact .idleReturn l before hl (Nat.le_zero.mp h.1) (Nat.le_zero.mp h.2)

theorem act_effect [DecidableEq ι] (spurious : Bool) (i : ι) (l : PoolLoc ι τ)
    (s : PoolState ι τ) (sec : PoolSection ι τ)
    (h : (poolMachine spurious).act i l s = some sec) : PoolEffect i s l sec := by
  cases l with
  | workerLoop =>
    cases h
    exact worker_effect i s
  | workerRun task ticket =>
    cases h
    exact .workerRan task ticket
  | workerFinish =>
    cases h
    exact finish_effect i s
  | submit task =>
    cases h
    exact submit_effect i s task
  | waitIdle =>
    cases h
    exact idle_effect i s _ _ (Or.inl ⟨rfl, rfl⟩)
  | waitIdleLoop before =>
    cases h
    exact idle_effect i s _ _ (Or.inr rfl)
  | destroy =>
    cases h
    exact .destroyStarted
  | destroyJoin rest =>
    simp only [poolMachine, destroyJoin] at h
    split at h
    · cases h
      exact .destroyDone
    · rename_i t rest
      split_ifs at h with ht
      cases h
      exact .destroyJoined t rest ht
  | workerExited | submitted | waitIdleReturned | destroyed => contradiction

end EraseCure.WorkerPools
