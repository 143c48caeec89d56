import EraseCure.RingBuffers
import EraseCure.WorkerPools

/-!
# The tasks of a worker pool

The tasks accepted are those taken and then those in the ring, in order. Every
number of a take is that of one running task or of one run that has ended, and
every number of an acceptance is that of one submit that returned success.
-/

set_option autoImplicit false

namespace EraseCure.PoolTasks
open EraseCure.Monitors EraseCure.RingBuffers EraseCure.WorkerPools

variable {ι τ : Type*}

structure RingInvariant (s : PoolState ι τ) : Prop where
  room : s.count ≤ s.queueSize
  head_lt : s.head < s.queueSize
  tail_eq : s.tail = (s.head+s.count) % s.queueSize
  ordered : s.taken++contents s.queue s.queueSize s.head s.count = s.accepted.map some

theorem effect_ring (i : ι) (s : PoolState ι τ) (l : PoolLoc ι τ) (sec : PoolSection ι τ)
    (h : RingInvariant s) (he : PoolEffect i s l sec) : RingInvariant sec.shared := by
  obtain ⟨hroom, hhead, htail, hord⟩ := h
  have hsize : 0 < s.queueSize := Nat.zero_lt_of_lt hhead
  cases he with
  | workerWait | submitRefused | submitWait | idleWait | idleReturn | destroyJoined
    | destroyDone => exact ⟨hroom, hhead, htail, hord⟩
  | workerExit | workerFinished | destroyStarted => exact ⟨hroom, hhead, htail, hord⟩
  | workerRan task ticket =>
    dsimp only
    split_ifs
    · exact ⟨hroom, hhead, htail, hord⟩
    · exact ⟨hroom, hhead, htail, hord⟩
  | workerTake hpos =>
    obtain ⟨n, hn⟩ : ∃ n, s.count = n+1 := ⟨s.count-1, by omega⟩
    constructor
    · dsimp only
      omega
    · exact Nat.mod_lt _ hsize
    · dsimp only
      rw [htail, hn, Nat.mod_add_mod, Nat.add_sub_cancel]
      congr 1
      omega
    · dsimp only
      rw [hn, contents_pop _ _ _ _ hhead] at hord
      rw [hn, Nat.add_sub_cancel, List.append_assoc]
      exact hord
  | submitAccepted t _ hne =>
    constructor
    · dsimp only
      omega
    · exact hhead
    · dsimp only
      rw [htail, Nat.mod_add_mod]
      congr 1
    · dsimp only
      rw [htail, contents_push _ _ _ _ _ (by omega), ← List.append_assoc, hord, List.map_append,
        List.map_singleton]

theorem effect_grows (i : ι) (s : PoolState ι τ) (l : PoolLoc ι τ) (sec : PoolSection ι τ)
    (he : PoolEffect i s l sec) : s.taken <+: sec.shared.taken ∧
      s.accepted <+: sec.shared.accepted ∧ s.finished <+: sec.shared.finished := by
  cases he with
  | workerTake => exact ⟨List.prefix_append _ _, List.prefix_rfl, List.prefix_rfl⟩
  | submitAccepted => exact ⟨List.prefix_rfl, List.prefix_append _ _, List.prefix_rfl⟩
  | workerRan task ticket =>
    dsimp only
    split_ifs
    · exact ⟨List.prefix_rfl, List.prefix_rfl, List.prefix_append _ _⟩
    · exact ⟨List.prefix_rfl, List.prefix_rfl, List.prefix_rfl⟩
  | workerWait | submitRefused | submitWait | idleWait | idleReturn | destroyJoined
    | destroyDone | workerExit | workerFinished | destroyStarted =>
    exact ⟨List.prefix_rfl, List.prefix_rfl, List.prefix_rfl⟩

theorem prefix_getElem? {β : Type*} (xs ys : List β) (h : xs <+: ys) (k : ℕ) (b : β)
    (hk : xs[k]? = some b) : ys[k]? = some b := by
  obtain ⟨zs, rfl⟩ := h
  rw [List.getElem?_append_left (List.getElem?_eq_some_iff.mp hk).1, hk]

def runs (ticket : ℕ) : PoolLoc ι τ → Bool
  | .workerRun _ t => t = ticket
  | _ => false

/-- The submit of the thread was the acceptance. -/
def acceptedAs (ticket : ℕ) : PoolLoc ι τ → Bool
  | .submitted _ _ (some t) => t = ticket
  | _ => false

def isActive : PoolLoc ι τ → Bool
  | .workerRun _ _ | .workerFinish => true
  | _ => false

def isWorker : PoolLoc ι τ → Bool
  | .workerLoop | .workerRun _ _ | .workerFinish | .workerExited => true
  | _ => false

section Runs
variable [Fintype ι]

variable [DecidableEq ι] (i : ι) (s : PoolState ι τ) (locs : ι → PoolLoc ι τ)
  (sec : PoolSection ι τ) (he : PoolEffect i s (locs i) sec)

/-- A thread that comes to hold the next number adds that number to those held. -/
theorem tally_next (holds : ℕ → PoolLoc ι τ → Bool) (loc : PoolLoc ι τ) (next done t : ℕ)
    (hold : holds t (locs i) = false) (hnew : holds t loc = decide (next = t))
    (h : done+tally (holds t) locs = if t < next then 1 else 0) :
    done+tally (holds t) (Function.update locs i loc) = if t < next+1 then 1 else 0 := by
  by_cases heq : next = t
  · rw [tally_gain (holds t) locs i loc hold (hnew.trans (decide_eq_true heq))]
    split_ifs at h ⊢ <;> omega
  · rw [tally_same (holds t) locs i loc (by rw [hold, hnew, decide_eq_false heq])]
    split_ifs at h ⊢ <;> omega

include he

theorem effect_once (hsome : ∀ task t, locs i = .workerRun task t → task.isSome = true)
    (h : ∀ t, s.finished.count t+tally (runs t) locs =
      if t < s.taken.length then 1 else 0) (t : ℕ) :
    sec.shared.finished.count t+
        tally (runs t) (Function.update locs i sec.status.loc) =
      if t < sec.shared.taken.length then 1 else 0 := by
  have ht := h t
  generalize hl : locs i = l at he hsome
  cases he with
  | workerTake =>
    dsimp only [Status.loc]
    rw [List.length_append, List.length_singleton]
    exact tally_next i locs runs _ _ _ t (by rw [hl]; rfl) rfl ht
  | workerRan task ticket =>
    dsimp only [Status.loc]
    rw [if_pos (hsome task ticket rfl), List.count_append, List.count_singleton, ← ht]
    by_cases hnew : ticket = t
    · rw [← tally_loss (runs t) locs i .workerFinish
        (by rw [hl]; exact decide_eq_true hnew) rfl, if_pos (beq_iff_eq.mpr hnew)]
      omega
    · rw [tally_same _ _ _ _ (by rw [hl]; exact decide_eq_false hnew),
        if_neg (by simpa using hnew), Nat.add_zero]
  | workerWait | submitRefused | submitWait | submitAccepted | destroyJoined | destroyDone
    | workerExit | workerFinished | destroyStarted =>
    rw [tally_same _ _ _ _ (by rw [hl]; rfl)]
    exact ht
  | idleWait l _ hidle | idleReturn l _ hidle =>
    rcases hidle with ⟨rfl, _⟩ | rfl
    all_goals
      rw [tally_same _ _ _ _ (by rw [hl]; rfl)]
      exact ht

theorem effect_active (h : s.activeTasks = tally isActive locs) :
    sec.shared.activeTasks =
      tally isActive (Function.update locs i sec.status.loc) := by
  generalize hl : locs i = l at he
  cases he with
  | workerTake =>
    rw [tally_gain _ _ _ _ (by rw [hl]; rfl) rfl, ← h]
  | workerFinished =>
    have := tally_loss isActive locs i .workerLoop (by rw [hl]; rfl) rfl
    dsimp only [Status.loc]
    omega
  | workerRan =>
    rw [tally_same _ _ _ _ (by rw [hl]; rfl), ← h]
    dsimp only
    split_ifs <;> rfl
  | workerWait | submitRefused | submitWait | submitAccepted | destroyJoined | destroyDone
    | workerExit | destroyStarted =>
    rw [tally_same _ _ _ _ (by rw [hl]; rfl)]
    exact h
  | idleWait l _ hidle | idleReturn l _ hidle =>
    rcases hidle with ⟨rfl, _⟩ | rfl
    all_goals
      rw [tally_same _ _ _ _ (by rw [hl]; rfl)]
      exact h

theorem effect_acceptances (h : ∀ t, tally (acceptedAs t) locs =
      if t < s.accepted.length then 1 else 0) (t : ℕ) :
    tally (acceptedAs t) (Function.update locs i sec.status.loc) =
      if t < sec.shared.accepted.length then 1 else 0 := by
  have ht := h t
  generalize hl : locs i = l at he
  cases he with
  | submitAccepted task =>
    dsimp only [Status.loc]
    rw [List.length_append, List.length_singleton, ← Nat.zero_add (tally _ _)]
    exact tally_next i locs acceptedAs _ _ 0 t (by rw [hl]; rfl) rfl
      ((Nat.zero_add _).trans ht)
  | workerRan =>
    rw [tally_same _ _ _ _ (by rw [hl]; rfl), ht]
    dsimp only
    congr 2
    split_ifs <;> rfl
  | workerTake | workerWait | submitRefused | submitWait | destroyJoined | destroyDone
    | workerExit | workerFinished | destroyStarted =>
    rw [tally_same _ _ _ _ (by rw [hl]; rfl)]
    exact ht
  | idleWait l _ hidle | idleReturn l _ hidle =>
    rcases hidle with ⟨rfl, _⟩ | rfl
    all_goals
      rw [tally_same _ _ _ _ (by rw [hl]; rfl)]
      exact ht

end Runs

/-- What is known of a thread from where it is. -/
def LocFact (s : PoolState ι τ) : PoolLoc ι τ → Prop
  | .workerRun task t => s.taken[t]? = some task
  | .workerExited => s.shutdown = true ∧ s.count = 0
  | .submitted task code (some t) =>
    code = .ok ∧ ∃ a, task = some a ∧ s.accepted[t]? = some a
  | .submitted _ code none => code ≠ .ok
  | .waitIdleLoop before => before ≤ s.accepted.length
  | .waitIdleReturned before => ∀ t < before, t ∈ s.finished
  | .destroyJoin rest => s.shutdown = true ∧ ∀ j ∈ s.threads, j ∈ rest ∨ j ∈ s.exited
  | .destroyed => s.shutdown = true ∧ ∀ j ∈ s.threads, j ∈ s.exited
  | _ => True

theorem effect_threads (i : ι) (s : PoolState ι τ) (l : PoolLoc ι τ) (sec : PoolSection ι τ)
    (he : PoolEffect i s l sec) :
    sec.shared.threads = s.threads ∧ sec.shared.queueSize = s.queueSize ∧
      s.exited ⊆ sec.shared.exited := by
  cases he with
  | workerExit => exact ⟨rfl, rfl, List.subset_cons_self _ _⟩
  | workerRan =>
    dsimp only
    split_ifs <;> exact ⟨rfl, rfl, List.Subset.refl _⟩
  | workerWait | submitRefused | submitWait | submitAccepted | idleWait | idleReturn
    | destroyJoined | destroyDone | workerTake | workerFinished | destroyStarted =>
    exact ⟨rfl, rfl, List.Subset.refl _⟩

theorem effect_shutdown (i : ι) (s : PoolState ι τ) (l : PoolLoc ι τ) (sec : PoolSection ι τ)
    (he : PoolEffect i s l sec) (hs : s.shutdown = true) :
    sec.shared.shutdown = true ∧ sec.shared.count ≤ s.count := by
  cases he with
  | workerWait _ hopen | submitWait _ _ hopen | submitAccepted _ hopen =>
    rw [hs] at hopen
    contradiction
  | workerTake => exact ⟨hs, Nat.sub_le _ _⟩
  | destroyStarted => exact ⟨rfl, Nat.le_refl _⟩
  | workerRan =>
    dsimp only
    split_ifs <;> exact ⟨hs, Nat.le_refl _⟩
  | workerExit | workerFinished | submitRefused | idleWait | idleReturn | destroyJoined
    | destroyDone => exact ⟨hs, Nat.le_refl _⟩

theorem fact_kept (i : ι) (s : PoolState ι τ) (l : PoolLoc ι τ) (sec : PoolSection ι τ)
    (he : PoolEffect i s l sec) (l' : PoolLoc ι τ) (h : LocFact s l') :
    LocFact sec.shared l' := by
  obtain ⟨htaken, haccepted, hfinished⟩ := effect_grows i s l sec he
  obtain ⟨hthreads, _, hexited⟩ := effect_threads i s l sec he
  cases l' with
  | workerRun task t => exact prefix_getElem? _ _ htaken t task h
  | workerExited =>
    obtain ⟨h1, h2⟩ := effect_shutdown i s l sec he h.1
    exact ⟨h1, Nat.le_zero.mp (h.2 ▸ h2)⟩
  | submitted task code ticket =>
    cases ticket with
    | none => exact h
    | some t =>
      obtain ⟨hcode, a, ha, ht⟩ := h
      exact ⟨hcode, a, ha, prefix_getElem? _ _ haccepted t a ht⟩
  | waitIdleLoop before => exact le_trans h haccepted.length_le
  | waitIdleReturned before => exact fun t ht => hfinished.subset (h t ht)
  | destroyJoin rest =>
    refine ⟨(effect_shutdown i s l sec he h.1).1, fun j hj => ?_⟩
    rw [hthreads] at hj
    exact (h.2 j hj).imp_right (fun hx => hexited hx)
  | destroyed =>
    refine ⟨(effect_shutdown i s l sec he h.1).1, fun j hj => ?_⟩
    rw [hthreads] at hj
    exact hexited (h.2 j hj)
  | workerLoop | workerFinish | submit | waitIdle | destroy => trivial

theorem worker_kept (i : ι) (s : PoolState ι τ) (l : PoolLoc ι τ) (sec : PoolSection ι τ)
    (he : PoolEffect i s l sec) : isWorker sec.status.loc = isWorker l := by
  cases he with
  | idleWait l _ hidle | idleReturn l _ hidle => rcases hidle with ⟨rfl, _⟩ | rfl <;> rfl
  | _ => rfl

section Invariant
variable [Fintype ι]

structure PoolInvariant (s : PoolState ι τ) (locs : ι → PoolLoc ι τ) : Prop where
  ring : RingInvariant s
  once : ∀ t, s.finished.count t+tally (runs t) locs = if t < s.taken.length then 1 else 0
  active : s.activeTasks = tally isActive locs
  acceptances : ∀ t, tally (acceptedAs t) locs = if t < s.accepted.length then 1 else 0
  workers : ∀ j, j ∈ s.threads ↔ isWorker (locs j) = true
  exits : ∀ j ∈ s.exited, locs j = .workerExited
  facts : ∀ j, LocFact s (locs j)
  staffed : s.threads ≠ []

variable (s : PoolState ι τ) (locs : ι → PoolLoc ι τ) (h : PoolInvariant s locs)
include h

/-- A null function never gets into the queue. -/
theorem running_some (i : ι) (task : Option τ) (t : ℕ) (hl : locs i = .workerRun task t) :
    task.isSome = true := by
  have ht := h.facts i
  rw [hl] at ht
  have hmem : task ∈ s.accepted.map some := by
    rw [← h.ring.ordered]
    exact List.mem_append_left _ (List.mem_of_getElem? ht)
  obtain ⟨a, _, ha⟩ := List.mem_map.mp hmem
  rw [← ha]
  rfl

/-- In an idle pool every task accepted has finished. -/
theorem idle_finished (hc : s.count = 0) (ha : s.activeTasks = 0) (t : ℕ)
    (ht : t < s.accepted.length) : s.finished.count t = 1 := by
  have hnone : tally (runs t) locs = 0 := by
    have hactive := (tally_zero isActive locs).mp (h.active.symm.trans ha)
    rw [tally_zero]
    intro j
    have hj := hactive j
    cases hl : locs j with
    | workerRun =>
      rw [hl] at hj
      contradiction
    | _ => rfl
  have hlen := congrArg List.length h.ring.ordered
  rw [List.length_append, contents_length, hc, List.length_map] at hlen
  have := h.once t
  rw [hnone, if_pos (by omega)] at this
  exact this

variable (i : ι) (sec : PoolSection ι τ) (he : PoolEffect i s (locs i) sec)
include he

theorem fact_new : LocFact sec.shared sec.status.loc := by
  have hi := h.facts i
  have hidle := idle_finished s locs h
  generalize hl : locs i = l at he hi
  cases he with
  | workerTake =>
    show (s.taken++[s.queue s.head])[s.taken.length]? = some (s.queue s.head)
    rw [List.getElem?_append_right (Nat.le_refl _), Nat.sub_self]
    rfl
  | workerExit hs hc => exact ⟨hs, hc⟩
  | submitRefused task code hcode => exact hcode
  | submitAccepted t =>
    refine ⟨rfl, t, rfl, ?_⟩
    rw [List.getElem?_append_right (Nat.le_refl _), Nat.sub_self]
    rfl
  | idleWait l before hb =>
    rcases hb with ⟨rfl, rfl⟩ | rfl
    · exact Nat.le_refl _
    · exact hi
  | idleReturn l before hb hc ha =>
    have hle : before ≤ s.accepted.length := by
      rcases hb with ⟨rfl, rfl⟩ | rfl
      · exact Nat.le_refl _
      · exact hi
    intro t ht
    rw [← List.count_pos_iff, hidle hc ha t (ht.trans_le hle)]
    exact Nat.one_pos
  | destroyStarted => exact ⟨rfl, fun j hj => Or.inl hj⟩
  | destroyJoined t rest ht =>
    refine ⟨hi.1, fun j hj => ?_⟩
    rcases hi.2 j hj with hj | hj
    · rcases List.mem_cons.mp hj with rfl | hj
      · exact Or.inr ht
      · exact Or.inl hj
    · exact Or.inr hj
  | destroyDone => exact ⟨hi.1, fun j hj => (hi.2 j hj).resolve_left (List.not_mem_nil)⟩
  | workerWait | workerRan | workerFinished | submitWait => trivial

variable [DecidableEq ι]

theorem exit_kept (j : ι) (hj : j ∈ sec.shared.exited) :
    Function.update locs i sec.status.loc j = .workerExited := by
  have hold : j ∈ s.exited → j ≠ i → Function.update locs i sec.status.loc j = .workerExited := by
    intro hj hne
    rw [Function.update_of_ne hne]
    exact h.exits j hj
  have hi : i ∈ s.exited → locs i = .workerExited := h.exits i
  by_cases hji : j = i
  · subst hji
    rw [Function.update_self]
    generalize locs j = l at he hi
    cases he with
    | workerExit => rfl
    | workerRan =>
      dsimp only at hj
      split_ifs at hj <;> cases hi hj
    | idleWait l _ hidle | idleReturn l _ hidle =>
      rw [hi hj] at hidle
      rcases hidle with ⟨hl, _⟩ | hl <;> cases hl
    | workerWait | submitRefused | submitWait | submitAccepted | destroyJoined | destroyDone
      | workerTake | workerFinished | destroyStarted => cases hi hj
  · apply hold _ hji
    generalize locs i = l at he
    cases he with
    | workerExit => exact (List.mem_cons.mp hj).resolve_left hji
    | workerRan =>
      dsimp only at hj
      split_ifs at hj <;> exact hj
    | workerWait | submitRefused | submitWait | submitAccepted | idleWait | idleReturn
      | destroyJoined | destroyDone | workerTake | workerFinished | destroyStarted => exact hj

theorem effect_invariant : PoolInvariant sec.shared (Function.update locs i sec.status.loc) where
  ring := effect_ring i s _ sec h.ring he
  once := effect_once i s locs sec he (running_some s locs h i) h.once
  active := effect_active i s locs sec he h.active
  acceptances := effect_acceptances i s locs sec he h.acceptances
  workers := by
    intro j
    rw [(effect_threads i s _ sec he).1, h.workers j]
    by_cases hji : j = i
    · subst hji
      rw [Function.update_self, worker_kept j s _ sec he]
    · rw [Function.update_of_ne hji]
  exits := exit_kept s locs h i sec he
  facts := by
    rw [Function.forall_update_iff]
    exact ⟨fact_new s locs h i sec he,
      fun j _ => fact_kept i s _ sec he _ (h.facts j)⟩
  staffed := by
    rw [(effect_threads i s _ sec he).1]
    exact h.staffed

end Invariant

section Runs
variable [DecidableEq ι] [Fintype ι]

theorem start_invariant (pool : WorkerPool ι τ) (calls : ι → PoolCall τ) (threads : List ι)
    (maxQueueSize : ℕ) (malloc : Option (ℕ → Option τ))
    (hc : workerPoolCreate threads maxQueueSize malloc = some pool) :
    PoolInvariant (poolStart pool calls).shared (poolStart pool calls).locs := by
  unfold workerPoolCreate at hc
  split_ifs at hc with hsize
  obtain ⟨slots, _, rfl⟩ := Option.map_eq_some_iff.mp hc
  push Not at hsize
  have hquiet : ∀ p : PoolLoc ι τ → Bool, p .workerLoop = false →
      (∀ call : PoolCall τ, p call.entry = false) →
        tally p (poolStart (⟨threads, maxQueueSize, slots, 0, 0, 0, false, 0, []⟩ : WorkerPool ι τ)
          calls).locs = 0 := by
    intro p hloop hcall
    rw [tally_zero]
    intro j
    show p (if j ∈ threads then .workerLoop else (calls j).entry) = false
    split_ifs
    · exact hloop
    · exact hcall _
  constructor
  · exact ⟨Nat.zero_le _, Nat.pos_of_ne_zero hsize.2, (Nat.zero_mod _).symm, rfl⟩
  · intro t
    rw [hquiet (runs t) rfl (fun call => by cases call <;> rfl)]
    rfl
  · rw [hquiet isActive rfl (fun call => by cases call <;> rfl)]
    rfl
  · intro t
    rw [hquiet (acceptedAs t) rfl (fun call => by cases call <;> rfl)]
    rfl
  · intro j
    show j ∈ threads ↔ isWorker (if j ∈ threads then .workerLoop else (calls j).entry) = true
    split_ifs with hj
    · exact iff_of_true hj rfl
    · apply iff_of_false hj
      cases calls j <;> exact Bool.false_ne_true
  · intro j hj
    exact absurd hj List.not_mem_nil
  · intro j
    show LocFact _ (if j ∈ threads then .workerLoop else (calls j).entry)
    split_ifs
    · trivial
    · cases calls j <;> trivial
  · exact List.ne_nil_of_length_pos (Nat.pos_of_ne_zero hsize.1)

theorem reachable_invariant (spurious : Bool)
    (s₀ s : PoolRun ι τ)
    (h₀ : PoolInvariant s₀.shared s₀.locs) (h : Reachable (poolMachine spurious) s₀ s) :
    PoolInvariant s.shared s.locs := by
  apply locs_invariant (poolMachine spurious) s₀ PoolInvariant h₀ _ s h
  intro shared locs i sec hi ha
  exact effect_invariant shared locs hi i sec (act_effect spurious i _ shared sec ha)

end Runs

end EraseCure.PoolTasks
