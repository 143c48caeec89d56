import EraseCure.Monitors
import EraseCure.PromisingQueues
import Mathlib.Data.Multiset.Basic

/-!
# What the threads put into the queue and take out of it

Any number of threads make one call each, in any order of their critical
sections. A candidate was accepted as often as it was handed out, was taken out
or is still queued. After a shutdown no candidate is accepted any more, and
those in the queue can be drained.
-/

set_option autoImplicit false

namespace EraseCure.QueueConservation
open EraseCure.CText EraseCure.ErrorCodes EraseCure.Monitors EraseCure.PromisingQueues
open scoped List

variable {ι α : Type*}

inductive QueueLoc (α : Type*) where
  | calling (call : QueueCall α)
  | returned (call : QueueCall α) (reply : Reply α)

/-- An accepted candidate signals `not_empty`, a shutdown broadcasts it. -/
def callSignal (call : QueueCall α) (reply : Reply α) : Signal Unit :=
  match call with
  | .enqueue _ _ | .requeue _ _ => if reply.code = .ok then .one () else .none
  | .shutdown => .all ()
  | _ => .none

variable [DecidableEq α]

def queueMachine : Machine ι (QueueState α) Unit (QueueLoc α) where
  act := fun _ l s =>
    match l with
    | .returned _ _ => none
    | .calling call =>
      match callSection s call with
      | none => some ⟨s, .blocked () (.calling call), .none⟩
      | some (s', reply) => some ⟨s', .ready (.returned call reply), callSignal call reply⟩
  spurious := true

def queueStart (pq : PromisingQueue α) (cells : α → CarveState) (calls : ι → QueueCall α) :
    State ι (QueueState α) Unit (QueueLoc α) where
  shared := ⟨pq, cells⟩
  status := fun i => .ready (.calling (calls i))

section Returned
variable (p : α)

def acceptedBy : QueueLoc α → Bool
  | .returned (.enqueue (some q) _) reply | .returned (.requeue (some q) _) reply =>
    q = p && reply.code = .ok
  | _ => false

def dequeuedBy : QueueLoc α → Bool
  | .returned .dequeue reply => reply.code = .ok && reply.taken = some p
  | _ => false

def removedBy : QueueLoc α → Bool
  | .returned (.remove _) reply | .returned (.kill _) reply =>
    reply.code = .ok && reply.taken = some p
  | _ => false

end Returned

theorem failed_quiet (call : QueueCall α) (code : ErasecureError) (h : code ≠ .ok) (p : α) :
    acceptedBy p (.returned call ⟨code, none⟩) = false ∧
      dequeuedBy p (.returned call ⟨code, none⟩) = false ∧
      removedBy p (.returned call ⟨code, none⟩) = false := by
  cases call with
  | enqueue candidate _ | requeue candidate _ =>
    cases candidate <;> simp [acceptedBy, dequeuedBy, removedBy, h]
  | dequeue | remove | kill | updatePriority | shutdown =>
    simp [acceptedBy, dequeuedBy, removedBy, h]

/-- The balance of one section: what it returns is what it does to the entries. -/
theorem effect_balance (s : QueueState α) (call : QueueCall α) (out : QueueState α × Reply α)
    (h : CallEffect s call out) (p : α) :
    s.pq.entries.count p+(if acceptedBy p (.returned call out.2) = true then 1 else 0) =
      out.1.pq.entries.count p+(if dequeuedBy p (.returned call out.2) = true then 1 else 0)+
        (if removedBy p (.returned call out.2) = true then 1 else 0) := by
  cases h with
  | failed call code hcode =>
    obtain ⟨h1, h2, h3⟩ := failed_quiet call code hcode p
    rw [h1, h2, h3]
    rfl
  | accepted q realloc call capacity hcall _ =>
    have hc := (BinaryHeaps.siftUp_perm (priority s.cells) (s.pq.entries++[q])
      s.pq.entries.length).count_eq p
    rw [List.count_append, List.count_singleton] at hc
    dsimp only [heapifyUp]
    rw [hc]
    rcases hcall with rfl | rfl <;> simp [acceptedBy, dequeuedBy, removedBy]
  | dequeued first hfirst =>
    have hc := (BinaryHeaps.replace_perm _ 0 first hfirst).count_eq p
    have hd := (BinaryHeaps.siftDown_perm (priority s.cells)
      (BinaryHeaps.replaceByLast s.pq.entries 0) 0).count_eq p
    rw [List.count_cons] at hc
    dsimp only [heapifyDown]
    rw [hd, hc]
    simp [acceptedBy, dequeuedBy, removedBy]
  | removed call uuid i q hcall hq =>
    have hc := (BinaryHeaps.replace_perm _ i q hq).count_eq p
    have hd := ((BinaryHeaps.siftUp_perm (priority s.cells) _ i).trans
      (BinaryHeaps.siftDown_perm (priority s.cells)
        (BinaryHeaps.replaceByLast s.pq.entries i) i)).count_eq p
    rw [List.count_cons] at hc
    dsimp only [heapifyUp, heapifyDown]
    rw [hd, hc]
    rcases hcall with rfl | rfl <;> simp [acceptedBy, dequeuedBy, removedBy]
  | updated uuid newPriority i q cells _ _ =>
    have hd := ((BinaryHeaps.siftUp_perm (priority cells) _ i).trans
      (BinaryHeaps.siftDown_perm (priority cells) s.pq.entries i)).count_eq p
    dsimp only [heapifyUp, heapifyDown]
    rw [hd]
    simp [acceptedBy, dequeuedBy, removedBy]
  | stopped => simp [acceptedBy, dequeuedBy, removedBy]

theorem act_cases (i : ι) (l : QueueLoc α) (s : QueueState α)
    (sec : Section (QueueState α) Unit (QueueLoc α))
    (h : (queueMachine (ι := ι)).act i l s = some sec) :
    (sec.shared = s ∧ sec.status.loc = l) ∨
      ∃ call reply, l = .calling call ∧ callSection s call = some (sec.shared, reply) ∧
        sec.status.loc = .returned call reply := by
  simp only [queueMachine] at h
  split at h
  · contradiction
  rename_i call
  split at h
  · cases h
    exact Or.inl ⟨rfl, rfl⟩
  · rename_i s' reply hs
    cases h
    exact Or.inr ⟨call, reply, rfl, hs, rfl⟩

section Runs
variable [DecidableEq ι] [Fintype ι]

/-- Accepted is what was handed out, was taken out or is queued. -/
def Balanced (s : QueueState α) (locs : ι → QueueLoc α) : Prop :=
  ∀ p, tally (acceptedBy p) locs =
    tally (dequeuedBy p) locs+tally (removedBy p) locs+
      s.pq.entries.count p

theorem act_balanced (s : QueueState α) (locs : ι → QueueLoc α) (i : ι)
    (sec : Section (QueueState α) Unit (QueueLoc α)) (h : Balanced s locs)
    (ha : queueMachine.act i (locs i) s = some sec) :
    Balanced sec.shared (Function.update locs i sec.status.loc) := by
  intro p
  have ht := h p
  have h1 := tally_update (acceptedBy p) locs i sec.status.loc
  have h2 := tally_update (dequeuedBy p) locs i sec.status.loc
  have h3 := tally_update (removedBy p) locs i sec.status.loc
  rcases act_cases i (locs i) s sec ha with ⟨hs, hl⟩ | ⟨call, reply, hl, hs, hl'⟩
  · rw [hs, hl, Function.update_eq_self]
    exact ht
  · have hb := effect_balance s call _ (call_effect s call _ hs) p
    rw [hl, hl'] at h1 h2 h3
    rw [if_neg (show ¬ acceptedBy p (.calling call) = true from Bool.false_ne_true)] at h1
    rw [if_neg (show ¬ dequeuedBy p (.calling call) = true from Bool.false_ne_true)] at h2
    rw [if_neg (show ¬ removedBy p (.calling call) = true from Bool.false_ne_true)] at h3
    rw [hl']
    dsimp only at hb
    omega

theorem shutdown_kept (s : QueueState α) (call : QueueCall α) (out : QueueState α × Reply α)
    (h : CallEffect s call out) (hs : s.pq.shutdown = true) : out.1.pq.shutdown = true := by
  cases h with
  | failed | accepted | dequeued | removed | updated => exact hs
  | stopped => rfl

theorem shutdown_refuses (s : QueueState α) (call : QueueCall α) (out : QueueState α × Reply α)
    (h : CallEffect s call out) (hs : s.pq.shutdown = true) (p : α) :
    acceptedBy p (.returned call out.2) = false := by
  cases h with
  | failed call code hcode => exact (failed_quiet call code hcode p).1
  | accepted q realloc call capacity _ hopen =>
    rw [hs] at hopen
    contradiction
  | removed call uuid i q hcall => rcases hcall with rfl | rfl <;> rfl
  | dequeued | updated | stopped => rfl

theorem empty_kept (s : QueueState α) (call : QueueCall α) (out : QueueState α × Reply α)
    (h : CallEffect s call out) (hs : s.pq.shutdown = true) (he : s.pq.entries = []) :
    out.1.pq.entries = [] := by
  cases h with
  | failed | stopped => exact he
  | accepted q realloc call capacity _ hopen =>
    rw [hs] at hopen
    contradiction
  | dequeued first hfirst =>
    rw [he] at hfirst
    contradiction
  | removed call uuid i q _ hq =>
    rw [he] at hq
    contradiction
  | updated uuid newPriority i q cells _ hq =>
    rw [he] at hq
    contradiction

theorem shutdown_closes (s s' : State ι (QueueState α) Unit (QueueLoc α))
    (hs : s.shared.pq.shutdown = true) (h : Reachable queueMachine s s') :
    s'.shared.pq.shutdown = true ∧
      ∀ i p, acceptedBy p (s'.locs i) = true → s'.locs i = s.locs i := by
  apply locs_invariant queueMachine s (fun sh locs => sh.pq.shutdown = true ∧
    ∀ i p, acceptedBy p (locs i) = true → locs i = s.locs i) ⟨hs, fun _ _ _ => rfl⟩ _ s' h
  rintro sh locs i sec ⟨hsh, hl⟩ ha
  rcases act_cases i (locs i) sh sec ha with ⟨hs', hl'⟩ | ⟨call, reply, _, hs', hl'⟩
  · rw [hs', hl', Function.update_eq_self]
    exact ⟨hsh, hl⟩
  · have he := call_effect sh call _ hs'
    refine ⟨shutdown_kept sh call _ he hsh, ?_⟩
    intro j p hp
    rw [hl'] at hp ⊢
    by_cases hji : j = i
    · subst hji
      rw [Function.update_self, shutdown_refuses sh call _ he hsh p] at hp
      contradiction
    · rw [Function.update_of_ne hji] at hp ⊢
      exact hl j p hp

/-- Once a dequeue has answered that nothing is there, nothing ever is. -/
def Drained (s : QueueState α) (locs : ι → QueueLoc α) : Prop :=
  ∀ i reply, locs i = .returned .dequeue reply → reply.code = .notFound →
    s.pq.shutdown = true ∧ s.pq.entries = []

omit [Fintype ι] in
theorem act_drained (s : QueueState α) (locs : ι → QueueLoc α) (i : ι)
    (sec : Section (QueueState α) Unit (QueueLoc α)) (h : Drained s locs)
    (ha : queueMachine.act i (locs i) s = some sec) :
    Drained sec.shared (Function.update locs i sec.status.loc) := by
  rcases act_cases i (locs i) s sec ha with ⟨hs, hl⟩ | ⟨call, reply, hl, hs, hl'⟩
  · rw [hs, hl, Function.update_eq_self]
    exact h
  · have he := call_effect s call _ hs
    intro j reply' hj hcode
    rw [hl'] at hj
    by_cases hji : j = i
    · subst hji
      rw [Function.update_self] at hj
      cases hj
      generalize hout : (sec.shared, reply) = out at he
      cases he with
      | failed call code _ hnone =>
        cases hout
        exact hnone hcode rfl
      | accepted q realloc call capacity hcall => rcases hcall with hcall | hcall <;> contradiction
      | removed call uuid k q hcall => rcases hcall with hcall | hcall <;> contradiction
      | dequeued =>
        rw [Prod.mk.injEq] at hout
        rw [hout.2] at hcode
        contradiction
    · rw [Function.update_of_ne hji] at hj
      obtain ⟨h1, h2⟩ := h j reply' hj hcode
      exact ⟨shutdown_kept s call _ he h1, empty_kept s call _ he h1 h2⟩

omit [DecidableEq ι] [Fintype ι] in
theorem failed_unchanged (s : QueueState α) (call : QueueCall α) (s' : QueueState α)
    (reply : Reply α)
    (h : callSection s call = some (s', reply)) (hcode : reply.code ≠ .ok) : s' = s := by
  have he := call_effect s call _ h
  generalize hout : (s', reply) = out at he
  cases he with
  | failed =>
    cases hout
    rfl
  | accepted | dequeued | removed | updated | stopped =>
    cases hout
    exact absurd rfl hcode

/-- Conservation in every state that any threads can reach. -/
theorem queue_conserved (initialCapacity : ℕ) (malloc : Bool) (pq : PromisingQueue α)
    (cells : α → CarveState) (calls : ι → QueueCall α)
    (s : State ι (QueueState α) Unit (QueueLoc α))
    (hinit : promisingQueueInit initialCapacity malloc = .ok pq)
    (h : Reachable queueMachine (queueStart pq cells calls) s) :
    (∀ p, tally (acceptedBy p) s.locs =
      tally (dequeuedBy p) s.locs+tally (removedBy p) s.locs+
        s.shared.pq.entries.count p) ∧
    (∀ call s' reply, callSection s.shared call = some (s', reply) → reply.code ≠ .ok →
      s' = s.shared) ∧
    (s.shared.pq.shutdown = true → ∀ s', Reachable queueMachine s s' →
      s'.shared.pq.shutdown = true ∧
        ∀ i p, acceptedBy p (s'.locs i) = true → s'.locs i = s.locs i) ∧
    (∀ i reply, s.locs i = .returned .dequeue reply → reply.code = .notFound →
      s.shared.pq.shutdown = true ∧ s.shared.pq.entries = []) ∧
    ((drain s.shared.pq.entries.length s.shared).2.pq.entries = [] ∧
      ∀ p, tally (acceptedBy p) s.locs =
        tally (dequeuedBy p) s.locs+
          tally (removedBy p) s.locs+
          (drain s.shared.pq.entries.length s.shared).1.count p) := by
  have hempty := init_empty initialCapacity malloc pq hinit
  have hbalanced : Balanced s.shared s.locs := by
    apply locs_invariant queueMachine _ Balanced _ act_balanced s h
    intro p
    have hnone : ∀ f : QueueLoc α → Bool, (∀ call, f (.calling call) = false) →
        tally f (queueStart pq cells calls).locs = 0 :=
      fun f hf => (tally_zero f _).mpr (fun i => hf (calls i))
    rw [hnone _ (fun _ => rfl), hnone _ (fun _ => rfl), hnone _ (fun _ => rfl)]
    show 0 = 0+0+pq.entries.count p
    rw [hempty]
    rfl
  have hdrained : Drained s.shared s.locs := by
    apply locs_invariant queueMachine _ Drained _ act_drained s h
    intro i reply hi
    contradiction
  obtain ⟨hperm, hend⟩ := drain_perm s.shared
  refine ⟨hbalanced, failed_unchanged s.shared, fun hs s' => shutdown_closes s s' hs, hdrained,
    hend, ?_⟩
  intro p
  rw [hperm.count_eq p]
  exact hbalanced p

end Runs

def meetingCalls : Fin 3 → QueueCall (Fin 1)
  | 0 => .dequeue
  | 1 => .enqueue (some 0) true
  | 2 => .shutdown

def meetingStart : State (Fin 3) (QueueState (Fin 1)) Unit (QueueLoc (Fin 1)) :=
  queueStart ⟨[], 16, false⟩ (fun _ => ⟨printed37 [], 7⟩) meetingCalls

def meetingMoves : List (Move (Fin 3)) := [.act 0 none, .act 1 (some 0), .act 0 none, .act 2 none]

theorem queue_conserved_meeting : ∃ s, run queueMachine meetingStart meetingMoves = some s ∧
    ∀ p, tally (acceptedBy p) s.locs =
      tally (dequeuedBy p) s.locs+tally (removedBy p) s.locs+
        s.shared.pq.entries.count p := by
  have hsome : (run queueMachine meetingStart meetingMoves).isSome = true := by decide +kernel
  obtain ⟨s, hs⟩ := Option.isSome_iff_exists.mp hsome
  exact ⟨s, hs, (queue_conserved 0 true ⟨[], 16, false⟩ _ meetingCalls s rfl
    (run_reachable _ _ _ _ _ .start hs)).1⟩

end EraseCure.QueueConservation
