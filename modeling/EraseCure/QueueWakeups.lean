import EraseCure.MonitorRanks
import EraseCure.QueueConservation

/-!
# Who waits for the queue

While a dequeue waits the queue is open, and every queued candidate has a dequeue
that is ready to take it, woken or not yet waiting. So where no call can go on the calls
have returned, or they wait for an empty queue. The calls run a bounded number of
sections, but for those that wake without a signal.
-/

set_option autoImplicit false

namespace EraseCure.QueueWakeups
open EraseCure.ErrorCodes EraseCure.Monitors EraseCure.MonitorRanks EraseCure.PromisingQueues
open EraseCure.QueueConservation

variable {ι α : Type*}

abbrev QueueStatus (α : Type*) := Status Unit (QueueLoc α)

def WaitFact : QueueStatus α → Prop
  | .blocked _ l => l = .calling .dequeue
  | .ready _ => True

def atDequeue : QueueStatus α → Bool
  | .ready (.calling .dequeue) => true
  | _ => false

section Counts
variable [DecidableEq α] (s s' : QueueState α) (reply : Reply α)

theorem dequeue_counts (h : promisingQueueDequeue s = some (s', reply)) :
    s.pq.shutdown = true ∨ s'.pq.shutdown = s.pq.shutdown ∧
      s'.pq.entries.length+1 = s.pq.entries.length := by
  have he := dequeue_effect s _ h
  rw [promisingQueueDequeue] at h
  split at h
  · split_ifs at h with hshut
    exact Or.inl hshut
  · rename_i first rest hentries
    cases h
    refine Or.inr ⟨rfl, ?_⟩
    have hperm := BinaryHeaps.replace_perm s.pq.entries 0 first (by rw [hentries]; rfl)
    have hdown := (BinaryHeaps.siftDown_perm (priority s.cells)
      (BinaryHeaps.replaceByLast s.pq.entries 0) 0).length_eq
    have hlen := hperm.length_eq
    rw [List.length_cons] at hlen
    dsimp only
    rw [sift_nonempty, heapifyDown, hdown, hlen]

theorem call_counts (call : QueueCall α) (hcall : call ≠ .dequeue)
    (h : callSection s call = some (s', reply)) :
    callSignal call reply = .all () ∨ s'.pq.shutdown = s.pq.shutdown ∧
      (callSignal call reply = .none ∧ s'.pq.entries.length ≤ s.pq.entries.length ∨
        callSignal call reply = .one () ∧ s'.pq.entries.length = s.pq.entries.length+1) := by
  have he := call_effect s call _ h
  generalize hout : (s', reply) = out at he
  cases he with
  | failed call code hcode =>
    cases hout
    cases call with
    | enqueue | requeue => exact Or.inr ⟨rfl, Or.inl ⟨if_neg hcode, Nat.le_refl _⟩⟩
    | dequeue => contradiction
    | remove | kill | updatePriority => exact Or.inr ⟨rfl, Or.inl ⟨rfl, Nat.le_refl _⟩⟩
    | shutdown => exact Or.inl rfl
  | accepted p realloc call capacity hcalls =>
    cases hout
    have hlen := (BinaryHeaps.siftUp_perm (priority s.cells) (s.pq.entries++[p])
      s.pq.entries.length).length_eq
    rw [List.length_append, List.length_singleton] at hlen
    refine Or.inr ⟨rfl, Or.inr ⟨?_, hlen⟩⟩
    rcases hcalls with rfl | rfl <;> rfl
  | dequeued => contradiction
  | removed call uuid i p hcalls hp =>
    cases hout
    have hlen := (BinaryHeaps.replace_perm _ i p hp).length_eq
    have hsifts := ((BinaryHeaps.siftUp_perm (priority s.cells) _ i).trans
      (BinaryHeaps.siftDown_perm (priority s.cells)
        (BinaryHeaps.replaceByLast s.pq.entries i) i)).length_eq
    rw [List.length_cons] at hlen
    refine Or.inr ⟨rfl, Or.inl ⟨?_, ?_⟩⟩
    · rcases hcalls with rfl | rfl <;> rfl
    · dsimp only [heapifyUp, heapifyDown]
      omega
  | updated uuid newPriority i p cells =>
    cases hout
    have hsifts := ((BinaryHeaps.siftUp_perm (priority cells) _ i).trans
      (BinaryHeaps.siftDown_perm (priority cells) s.pq.entries i)).length_eq
    exact Or.inr ⟨rfl, Or.inl ⟨rfl, hsifts.le⟩⟩
  | stopped =>
    cases hout
    exact Or.inl rfl

end Counts

section Invariant
variable [Fintype ι]

structure WakeInvariant (s : QueueState α) (st : ι → QueueStatus α) : Prop where
  waits : ∀ j, WaitFact (st j)
  open_wait : 0 < tally (waitsOn ()) st → s.pq.shutdown = false
  served : 0 < tally (waitsOn ()) st → s.pq.entries.length ≤ tally atDequeue st

variable [DecidableEq ι] (st st' : ι → QueueStatus α) (i : ι) (s s' : QueueState α)

/-- A signal wakes a dequeue when one waits. -/
theorem notify_dequeue (woken : Option ι) (hw : ∀ j, WaitFact (st j))
    (h : notify (.one ()) woken st = some st') :
    (tally (waitsOn ()) st = 0 ∧ st' = st) ∨
      (0 < tally (waitsOn ()) st ∧ tally atDequeue st' = tally atDequeue st+1) := by
  rcases notify_one () woken st st' h with hnone | ⟨j, l, hj, rfl⟩
  · exact Or.inl hnone
  · have hl : l = .calling .dequeue := by
      have := hw j
      rwa [hj] at this
    subst hl
    refine Or.inr ⟨(tally_pos _ _).mpr ⟨j, ?_⟩, tally_gain _ st j _ ?_ rfl⟩
    · rw [hj]
      rfl
    · rw [hj]
      rfl

theorem notify_waits (signal : Signal Unit) (woken : Option ι) (hw : ∀ j, WaitFact (st j))
    (h : notify signal woken st = some st') (j : ι) : WaitFact (st' j) :=
  notify_forall WaitFact (fun _ _ => trivial) signal woken st st' h hw j

omit [Fintype ι] in
theorem update_waits (x : QueueStatus α) (hw : ∀ j, WaitFact (st j)) (hx : WaitFact x) (j : ι) :
    WaitFact (Function.update st i x j) := by
  by_cases hj : j = i
  · rw [hj, Function.update_self]
    exact hx
  · rw [Function.update_of_ne hj]
    exact hw j

omit [DecidableEq ι] in
/-- No more candidates come in than dequeues are woken, and no dequeue that is about to
look goes without a candidate. -/
theorem wake_kept (h : WakeInvariant s st) (hw : ∀ j, WaitFact (st' j))
    (hshut : s'.pq.shutdown = s.pq.shutdown)
    (hwaits : tally (waitsOn ()) st' ≤ tally (waitsOn ()) st)
    (hserved : 0 < tally (waitsOn ()) st' →
      s'.pq.entries.length+tally atDequeue st ≤ s.pq.entries.length+tally atDequeue st') :
    WakeInvariant s' st' where
  waits := hw
  open_wait := fun hpos => hshut.trans (h.open_wait (hpos.trans_le hwaits))
  served := by
    intro hpos
    have := h.served (hpos.trans_le hwaits)
    have := hserved hpos
    omega

omit [DecidableEq ι] in
theorem wake_nobody (hw : ∀ j, WaitFact (st' j)) (hnone : tally (waitsOn ()) st' = 0) :
    WakeInvariant s' st' where
  waits := hw
  open_wait := fun hpos => absurd hnone (Nat.ne_of_gt hpos)
  served := fun hpos => absurd hnone (Nat.ne_of_gt hpos)

section Sections
variable (call : QueueCall α) (reply : Reply α) (hi : st i = .ready (.calling call))
  (h : WakeInvariant s st)
include hi h

omit h in
theorem returned_waiters :
    tally (waitsOn ()) (Function.update st i (.ready (.returned call reply))) =
      tally (waitsOn ()) st :=
  tally_same _ st i _ (by rw [hi]; rfl)

omit hi in
theorem returned_waits (j : ι) :
    WaitFact (Function.update st i (.ready (.returned call reply)) j) :=
  update_waits st i (.ready (.returned call reply)) h.waits trivial j

theorem quiet_wakes (hcall : atDequeue (st i) = false)
    (hshut : s'.pq.shutdown = s.pq.shutdown)
    (hlen : s'.pq.entries.length ≤ s.pq.entries.length) :
    WakeInvariant s' (Function.update st i (.ready (.returned call reply))) := by
  refine wake_kept st _ s s' h (returned_waits st i s call reply h) hshut
    (returned_waiters st i call reply hi).le fun _ => ?_
  rw [tally_same atDequeue st i (.ready (.returned call reply)) hcall]
  omega

theorem dequeue_wakes (hcall : call = .dequeue) (hshut : s'.pq.shutdown = s.pq.shutdown)
    (hlen : s'.pq.entries.length+1 = s.pq.entries.length) :
    WakeInvariant s' (Function.update st i (.ready (.returned call reply))) := by
  subst hcall
  refine wake_kept st _ s s' h (returned_waits st i s .dequeue reply h) hshut
    (returned_waiters st i .dequeue reply hi).le fun _ => ?_
  have hloss := tally_loss atDequeue st i (.ready (.returned .dequeue reply)) (by rw [hi]; rfl) rfl
  omega

theorem enqueue_wakes (woken : Option ι) (hcall : atDequeue (st i) = false)
    (hshut : s'.pq.shutdown = s.pq.shutdown)
    (hlen : s'.pq.entries.length = s.pq.entries.length+1)
    (hn : notify (.one ()) woken (Function.update st i (.ready (.returned call reply))) =
      some st') : WakeInvariant s' st' := by
  have hw := returned_waits st i s call reply h
  have hwaiters := returned_waiters st i call reply hi
  have hsame := tally_same atDequeue st i (.ready (.returned call reply)) hcall
  have hw' := notify_waits _ st' _ woken hw hn
  have hone := (notify_one_waiters () woken _ st' hn).1
  rcases notify_dequeue _ st' woken hw hn with ⟨hnone, rfl⟩ | ⟨_, hgain⟩
  · exact wake_nobody _ s' hw' hnone
  · exact wake_kept st st' s s' h hw' hshut (by omega) (fun _ => by omega)

/-- What a call takes away or brings its signal makes good. -/
theorem return_wakes [DecidableEq α] (woken : Option ι)
    (hs : callSection s call = some (s', reply))
    (hn : notify (callSignal call reply) woken
      (Function.update st i (.ready (.returned call reply))) = some st') :
    WakeInvariant s' st' := by
  have hw := returned_waits st i s call reply h
  by_cases hcall : call = .dequeue
  · subst hcall
    obtain rfl := notify_none _ _ _ hn
    rcases dequeue_counts s s' reply hs with hshut | ⟨hshut, hlen⟩
    · -- nobody waits for a queue that is shut down
      refine wake_nobody _ s' hw ?_
      rw [returned_waiters st i .dequeue reply hi]
      by_contra hpos
      have hopen := h.open_wait (Nat.pos_of_ne_zero hpos)
      rw [hshut] at hopen
      contradiction
    · exact dequeue_wakes st i s s' .dequeue reply hi h rfl hshut hlen
  have haside : atDequeue (st i) = false := by
    rw [hi]
    cases call with
    | dequeue => contradiction
    | enqueue | requeue | remove | kill | updatePriority | shutdown => rfl
  rcases call_counts s s' reply call hcall hs with hall | ⟨hshut, ⟨hnone, hlen⟩ | ⟨hone, hlen⟩⟩
  · rw [hall] at hn
    exact wake_nobody _ s' (notify_waits _ st' _ woken hw hn) (notify_all () woken _ st' hn).1
  · rw [hnone] at hn
    obtain rfl := notify_none _ _ _ hn
    exact quiet_wakes st i s s' call reply hi h haside hshut hlen
  · rw [hone] at hn
    exact enqueue_wakes st st' i s s' call reply hi h woken haside hshut hlen hn

end Sections

theorem wait_wakes (h : WakeInvariant s st)
    (hs : promisingQueueDequeue s = none) :
    WakeInvariant s (Function.update st i (.blocked () (.calling .dequeue))) := by
  rw [promisingQueueDequeue] at hs
  split at hs
  · rename_i hentries
    split_ifs at hs with hshut
    refine ⟨update_waits st i _ h.waits rfl, fun _ => by simpa using hshut, fun _ => ?_⟩
    rw [hentries]
    exact Nat.zero_le _
  · contradiction

theorem spurious_wakes (l : QueueLoc α) (hi : st i = .blocked () l) (h : WakeInvariant s st) :
    WakeInvariant s (Function.update st i (.ready l)) := by
  have hl : l = .calling .dequeue := by
    have := h.waits i
    rwa [hi] at this
  subst hl
  have hloss := tally_loss (waitsOn ()) st i (.ready (.calling .dequeue)) (by rw [hi]; rfl) rfl
  have hgain := tally_gain atDequeue st i (.ready (.calling .dequeue)) (by rw [hi]; rfl) rfl
  exact wake_kept st _ s s h (update_waits st i (.ready (.calling .dequeue)) h.waits trivial) rfl
    (by omega) (fun _ => by omega)

end Invariant

section Runs
variable [DecidableEq α] [DecidableEq ι] [Fintype ι]

abbrev QueueThreads (ι α : Type*) := State ι (QueueState α) Unit (QueueLoc α)

theorem next_wakes (s s' : QueueThreads ι α) (move : Move ι)
    (hn : next queueMachine s move = some s')
    (h : WakeInvariant s.shared s.status) : WakeInvariant s'.shared s'.status := by
  rcases next_effect queueMachine s s' move hn with
    ⟨i, woken, l, sec, _, hi, hact, hshared, hnotify⟩ | ⟨i, cond, l, hi, hshared, hstatus⟩
  · rw [hshared]
    cases l with
    | returned call reply => contradiction
    | calling call =>
      dsimp only [queueMachine] at hact
      cases hs : callSection s.shared call with
      | none =>
        rw [hs] at hact
        cases hact
        rw [notify_none _ _ _ hnotify]
        cases call with
        | dequeue => exact wait_wakes s.status i s.shared h hs
        | enqueue | requeue | remove | kill | updatePriority | shutdown => contradiction
      | some out =>
        obtain ⟨t, reply⟩ := out
        rw [hs] at hact
        cases hact
        exact return_wakes s.status s'.status i s.shared t call reply hi h woken hs hnotify
  · rw [hshared, hstatus]
    exact spurious_wakes s.status i s.shared l hi h

theorem reachable_wakes (s₀ s : QueueThreads ι α) (h₀ : WakeInvariant s₀.shared s₀.status)
    (h : Reachable queueMachine s₀ s) : WakeInvariant s.shared s.status := by
  induction h with
  | start => exact h₀
  | step s s' move _ hn ih => exact next_wakes s s' move hn ih

omit [DecidableEq α] [DecidableEq ι] in
theorem start_wakes (pq : PromisingQueue α) (cells : α → CarveState) (calls : ι → QueueCall α) :
    WakeInvariant (queueStart pq cells calls).shared (queueStart pq cells calls).status :=
  wake_nobody _ _ (fun _ => trivial) ((tally_zero _ _).mpr fun _ => rfl)

/-- A shutdown may wake all threads, a candidate one, and a dequeue runs twice. -/
def callWeight (ι : Type*) [Fintype ι] : QueueCall α → ℕ
  | .enqueue _ _ | .requeue _ _ | .dequeue => 2
  | .shutdown => Fintype.card ι+1
  | .remove _ | .kill _ | .updatePriority _ _ => 1

def locWeight (ι : Type*) [Fintype ι] : QueueLoc α → ℕ
  | .calling call => callWeight ι call
  | .returned _ _ => 0

omit [DecidableEq α] [DecidableEq ι] in
theorem signal_weight (call : QueueCall α) (reply : Reply α) :
    reach ι (callSignal call reply) < callWeight ι call := by
  cases call with
  | enqueue | requeue =>
    dsimp only [callSignal, callWeight]
    split_ifs <;> simp [reach]
  | dequeue | remove | kill | updatePriority | shutdown => simp [callSignal, callWeight, reach]

omit [DecidableEq ι] in
theorem queue_paid :
    Paid (locWeight ι) (fun _ => 0) (fun _ => True) (queueMachine (ι := ι) (α := α)) := by
  intro i l shared sec _ hact
  refine ⟨trivial, ?_⟩
  cases l with
  | returned call reply => contradiction
  | calling call =>
    dsimp only [queueMachine] at hact
    cases hs : callSection shared call with
    | none =>
      rw [hs] at hact
      cases hact
      cases call with
      | dequeue => exact Nat.lt_succ_self 1
      | enqueue | requeue | remove | kill | updatePriority | shutdown => contradiction
    | some out =>
      obtain ⟨t, reply⟩ := out
      rw [hs] at hact
      cases hact
      have hsignal := signal_weight (ι := ι) call reply
      dsimp only [rank, locWeight]
      omega

section Quiescence
variable (s : QueueThreads ι α) (hq : Quiescent queueMachine s)
include hq

omit [DecidableEq ι] [Fintype ι] in
theorem quiescent_returned (i : ι) (l : QueueLoc α) (hi : s.status i = .ready l) :
    ∃ call reply, l = .returned call reply := by
  cases l with
  | returned call reply => exact ⟨call, reply, rfl⟩
  | calling call =>
    have hnone := hq i _ hi
    dsimp only [queueMachine] at hnone
    split at hnone <;> contradiction

omit [DecidableEq ι] in
theorem quiescent_dequeue : tally atDequeue s.status = 0 := by
  rw [tally_zero]
  intro i
  cases hi : s.status i with
  | blocked cond l => rfl
  | ready l =>
    obtain ⟨call, reply, rfl⟩ := quiescent_returned s hq i l hi
    rfl

end Quiescence

/-- What holds in every run of the calls: a dequeue waits only while the queue is open and
its candidates have dequeues ready to take them; where no call can go on each has returned
or waits for a queue that is open and empty; and the sections of the run are bounded. -/
theorem queue_wakeups (pq : PromisingQueue α) (cells : α → CarveState) (calls : ι → QueueCall α)
    (moves : List (Move ι)) (s : QueueThreads ι α)
    (hrun : run queueMachine (queueStart pq cells calls) moves = some s) :
    ((∃ i, BlockedOn () (s.status i)) → s.shared.pq.shutdown = false ∧
      s.shared.pq.entries.length ≤ tally atDequeue s.status) ∧
    (Quiescent queueMachine s → ∀ i,
      (∃ call reply, s.status i = .ready (.returned call reply)) ∨
        s.status i = .blocked () (.calling .dequeue) ∧ s.shared.pq.entries = [] ∧
          s.shared.pq.shutdown = false) ∧
    moves.countP isSection ≤
      ∑ i, callWeight ι (calls i)+moves.countP (fun move => !isSection move) := by
  have hreach := run_reachable queueMachine _ _ s moves .start hrun
  have hwakes := reachable_wakes _ s (start_wakes pq cells calls) hreach
  have hpos : ∀ i, BlockedOn () (s.status i) → 0 < tally (waitsOn ()) s.status :=
    fun i hi => (tally_pos _ _).mpr ⟨i, (waitsOn_iff () _).mpr hi⟩
  refine ⟨fun ⟨i, hi⟩ => ⟨hwakes.open_wait (hpos i hi), hwakes.served (hpos i hi)⟩,
    fun hq i => ?_, ?_⟩
  · cases hi : s.status i with
    | ready l =>
      obtain ⟨call, reply, rfl⟩ := quiescent_returned s hq i l hi
      exact Or.inl ⟨call, reply, rfl⟩
    | blocked cond l =>
      have hwaits := hpos i ⟨l, hi⟩
      have hl : l = .calling .dequeue := by
        have := hwakes.waits i
        rwa [hi] at this
      have hserved := hwakes.served hwaits
      rw [quiescent_dequeue s hq] at hserved
      refine Or.inr ⟨by rw [hl], ?_, hwakes.open_wait hwaits⟩
      exact List.length_eq_zero_iff.mp (Nat.le_zero.mp hserved)
  · have hbound := sections_bounded (locWeight ι) (fun _ => 0) (fun _ => True) queueMachine
      queue_paid _ s moves trivial hrun
    have hstart : total (locWeight ι) (queueStart pq cells calls).status =
        ∑ i, callWeight ι (calls i) := rfl
    omega

end Runs

theorem queue_wakeups_meeting : ∃ s, run queueMachine meetingStart meetingMoves = some s ∧
    (∀ i, (∃ call reply, s.status i = .ready (.returned call reply)) ∨
      s.status i = .blocked () (.calling .dequeue) ∧ s.shared.pq.entries = [] ∧
        s.shared.pq.shutdown = false) ∧
    meetingMoves.countP isSection ≤ ∑ i, callWeight (Fin 3) (meetingCalls i)+
      meetingMoves.countP (fun move => !isSection move) := by
  have hquiet : (run queueMachine meetingStart meetingMoves).any
      (fun s => decide (Quiescent queueMachine s)) = true := by decide +kernel
  obtain ⟨s, hs, hq⟩ := (Option.any_eq_true _ _).mp hquiet
  obtain ⟨_, hreturned, hbound⟩ := queue_wakeups ⟨[], 16, false⟩ _ meetingCalls meetingMoves s hs
  exact ⟨s, hs, hreturned (of_decide_eq_true hq), hbound⟩

end EraseCure.QueueWakeups
