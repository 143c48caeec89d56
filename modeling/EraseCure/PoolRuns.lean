import EraseCure.PoolWakeups

/-!
# The runs of a worker pool

In every state that the submitters, the workers, those that wait for idleness
and a destroy can reach, the ring holds the tasks that were accepted and not yet
taken, in order, and every task that was taken is run once.
-/

set_option autoImplicit false

namespace EraseCure.PoolRuns
open EraseCure.ErrorCodes EraseCure.Monitors EraseCure.RingBuffers EraseCure.WorkerPools
open EraseCure.PoolTasks EraseCure.PoolWakeups

variable {ι τ : Type*}

section Runs
variable [Fintype ι]

theorem finished_once (s : PoolState ι τ) (locs : ι → PoolLoc ι τ) (h : PoolInvariant s locs)
    (t : ℕ) (ht : t ∈ s.finished) : s.finished.count t = 1 := by
  have hpos := List.count_pos_iff.mpr ht
  have := h.once t
  split_ifs at this <;> omega

/-- Every worker has exited before a destroy returns. -/
theorem destroyed_idle (s : PoolState ι τ) (locs : ι → PoolLoc ι τ) (h : PoolInvariant s locs)
    (i : ι) (hi : locs i = .destroyed) : s.count = 0 ∧ s.activeTasks = 0 := by
  have hfact := h.facts i
  rw [hi] at hfact
  have hexited : ∀ j ∈ s.threads, locs j = .workerExited := fun j hj => h.exits j (hfact.2 j hj)
  constructor
  · obtain ⟨w, hw⟩ := List.exists_mem_of_ne_nil _ h.staffed
    have hworker := h.facts w
    rw [hexited w hw] at hworker
    exact hworker.2
  · rw [h.active, tally_zero]
    intro j
    by_cases hj : isWorker (locs j) = true
    · rw [hexited j ((h.workers j).mpr hj)]
      rfl
    · cases hl : locs j with
      | workerRun | workerFinish =>
        rw [hl] at hj
        exact absurd rfl hj
      | _ => rfl

theorem submitted_accepted (s : PoolState ι τ) (locs : ι → PoolLoc ι τ)
    (h : PoolInvariant s locs) (i : ι) (task : Option τ) (code : ErasecureError)
    (ticket : Option ℕ) (hi : locs i = .submitted task code ticket) :
    code = .ok ↔ ∃ t a, ticket = some t ∧ task = some a ∧ s.accepted[t]? = some a := by
  have hfact := h.facts i
  rw [hi] at hfact
  cases ticket with
  | none =>
    apply iff_of_false hfact
    rintro ⟨t, a, ht, _⟩
    contradiction
  | some t =>
    obtain ⟨hcode, a, ha, ht⟩ := hfact
    exact iff_of_true hcode ⟨t, a, rfl, ha, ht⟩

variable [DecidableEq ι]

theorem pool_runs_once (spurious : Bool) (threads : List ι) (maxQueueSize : ℕ)
    (malloc : Option (ℕ → Option τ)) (pool : WorkerPool ι τ) (calls : ι → PoolCall τ)
    (s : PoolRun ι τ) (hc : workerPoolCreate threads maxQueueSize malloc = some pool)
    (h : Reachable (poolMachine spurious) (poolStart pool calls) s) :
    (s.shared.count ≤ s.shared.queueSize ∧
      s.shared.tail = (s.shared.head+s.shared.count) % s.shared.queueSize) ∧
    s.shared.taken++contents s.shared.queue s.shared.queueSize s.shared.head s.shared.count =
      s.shared.accepted.map some ∧
    ((∀ i task code ticket, s.locs i = .submitted task code ticket →
        (code = .ok ↔
          ∃ t a, ticket = some t ∧ task = some a ∧ s.shared.accepted[t]? = some a)) ∧
      ∀ t, tally (acceptedAs t) s.locs = if t < s.shared.accepted.length then 1 else 0) ∧
    ((∀ t, s.shared.finished.count t+tally (runs t) s.locs =
        if t < s.shared.taken.length then 1 else 0) ∧
      ∀ i task t, s.locs i = .workerRun task t → s.shared.taken[t]? = some task) ∧
    (∀ i before, s.locs i = .waitIdleReturned before →
      ∀ t < before, s.shared.finished.count t = 1) ∧
    (∀ i, s.locs i = .destroyed →
      ∀ t < s.shared.accepted.length, s.shared.finished.count t = 1) ∧
    (Quiescent (poolMachine spurious) s →
      ∀ t < s.shared.accepted.length, s.shared.finished.count t = 1) := by
  have hp := reachable_invariant spurious _ s
    (start_invariant pool calls threads maxQueueSize malloc hc) h
  have hs := reachable_signals spurious _ s (start_signals pool calls) h
  refine ⟨⟨hp.ring.room, hp.ring.tail_eq⟩, hp.ring.ordered,
    ⟨submitted_accepted s.shared s.locs hp, hp.acceptances⟩, ⟨hp.once, ?_⟩, ?_, ?_, ?_⟩
  · intro i task t hi
    have hfact := hp.facts i
    rw [hi] at hfact
    exact hfact
  · intro i before hi t ht
    have hfact := hp.facts i
    rw [hi] at hfact
    exact finished_once s.shared s.locs hp t (hfact t ht)
  · intro i hi
    obtain ⟨hcount, hactive⟩ := destroyed_idle s.shared s.locs hp i hi
    exact idle_finished s.shared s.locs hp hcount hactive
  · intro hq
    obtain ⟨hcount, hactive⟩ := quiescent_idle spurious s hq hp hs
    exact idle_finished s.shared s.locs hp hcount hactive

end Runs

def twoTasks : Fin 4 → PoolCall (Fin 2)
  | 0 | 1 => .submit (some 0)
  | 2 => .submit (some 1)
  | 3 => .destroy

theorem pool_runs_once_two : ∃ s : PoolRun (Fin 4) (Fin 2), s.locs 3 = .destroyed ∧
    s.shared.accepted = [0, 1] ∧ ∀ t < s.shared.accepted.length, s.shared.finished.count t = 1 := by
  have h : (run (poolMachine true)
      (poolStart ⟨[0], 1, fun _ => none, 0, 0, 0, false, 0, []⟩ twoTasks)
      [.act 1 none, .act 2 none, .wake 2, .act 0 none, .act 2 none, .act 3 none, .act 0 none,
        .act 0 none, .act 0 none, .act 0 none, .act 0 none, .act 0 none, .act 3 none,
        .act 3 none]).any (fun s => (match s.locs 3 with
          | .destroyed => true
          | _ => false) && s.shared.accepted = [0, 1]) = true := by
    decide
  obtain ⟨s, hs, hend⟩ := (Option.any_eq_true _ _).mp h
  rw [Bool.and_eq_true, decide_eq_true_eq] at hend
  obtain ⟨hend, haccepted⟩ := hend
  have hdestroyed : s.locs 3 = .destroyed := by
    split at hend
    · assumption
    · contradiction
  exact ⟨s, hdestroyed, haccepted, (pool_runs_once true [0] 1 (some fun _ => none) _ twoTasks s rfl
    (run_reachable _ _ _ s _ .start hs)).2.2.2.2.2.1 3 hdestroyed⟩

end EraseCure.PoolRuns
