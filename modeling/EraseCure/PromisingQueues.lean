import EraseCure.BinaryHeaps
import EraseCure.CText
import EraseCure.ErrorCodes

/-!
# The queue of promising candidates

The entries are pointers to candidates, whose priority and identifier are read
through memory. Every call is one critical section; a dequeue of an empty queue
that is not shut down waits. An allocation gives the array asked for or fails.
-/

set_option autoImplicit false

namespace EraseCure.PromisingQueues
open EraseCure.CText EraseCure.ErrorCodes EraseCure.BinaryHeaps
open scoped List

structure CarveState where
  uuid : CString 37
  priority : UInt32

structure PromisingQueue (α : Type*) where
  entries : List α
  capacity : ℕ
  shutdown : Bool

/-- A queue and the memory that its entries point to. -/
structure QueueState (α : Type*) where
  pq : PromisingQueue α
  cells : α → CarveState

/-- The code of a call and the candidate it hands out or takes out. -/
structure Reply (α : Type*) where
  code : ErasecureError
  taken : Option α

section Calls
variable {α : Type*}

def priority (cells : α → CarveState) (candidate : α) : ℕ := (cells candidate).priority.toNat

def promisingQueueInit (initialCapacity : ℕ) (malloc : Bool) :
    Except ErasecureError (PromisingQueue α) :=
  if malloc then .ok ⟨[], if 0 < initialCapacity then initialCapacity else 16, false⟩
  else .error .alloc

theorem init_empty (initialCapacity : ℕ) (malloc : Bool) (pq : PromisingQueue α)
    (h : promisingQueueInit initialCapacity malloc = .ok pq) : pq.entries = [] := by
  cases malloc with
  | false => contradiction
  | true =>
    cases h
    rfl

def heapifyUp (cells : α → CarveState) (entries : List α) (index : ℕ) : List α :=
  siftUp (priority cells) entries index

def heapifyDown (cells : α → CarveState) (entries : List α) (index : ℕ) : List α :=
  siftDown (priority cells) entries index

/-- `none` is the null pointer. -/
def promisingQueueEnqueue (s : QueueState α) (candidate : Option α) (realloc : Bool) :
    QueueState α × Reply α :=
  match candidate with
  | none => (s, ⟨.invalidArg, none⟩)
  | some p =>
    if s.pq.shutdown then (s, ⟨.invalidArg, none⟩)
    else if s.pq.entries.length = s.pq.capacity ∧ !realloc then (s, ⟨.alloc, none⟩)
    else
      let capacity :=
        if s.pq.entries.length = s.pq.capacity then s.pq.capacity*2 else s.pq.capacity
      let entries := heapifyUp s.cells (s.pq.entries++[p]) s.pq.entries.length
      ({ s with pq := { s.pq with entries := entries, capacity := capacity } }, ⟨.ok, none⟩)

def promisingQueueRequeue (s : QueueState α) (candidate : Option α) (realloc : Bool) :
    QueueState α × Reply α :=
  promisingQueueEnqueue s candidate realloc

/-- No result while the call waits. -/
def promisingQueueDequeue (s : QueueState α) : Option (QueueState α × Reply α) :=
  match s.pq.entries with
  | [] => if s.pq.shutdown then some (s, ⟨.notFound, none⟩) else none
  | first::_ =>
    let entries := replaceByLast s.pq.entries 0
    let entries := if 0 < entries.length then heapifyDown s.cells entries 0 else entries
    some ({ s with pq := { s.pq with entries := entries } }, ⟨.ok, some first⟩)

def findUuid (s : QueueState α) (uuid : Text) : Option ℕ :=
  s.pq.entries.findIdx? (fun p => (s.cells p).uuid.chars = cstr uuid)

def promisingQueueRemove (s : QueueState α) (uuid : Option Text) : QueueState α × Reply α :=
  match uuid with
  | none => (s, ⟨.invalidArg, none⟩)
  | some uuid =>
    match findUuid s uuid with
    | none => (s, ⟨.notFound, none⟩)
    | some i =>
      let entries := replaceByLast s.pq.entries i
      let entries :=
        if i < entries.length then heapifyUp s.cells (heapifyDown s.cells entries i) i
        else entries
      ({ s with pq := { s.pq with entries := entries } }, ⟨.ok, s.pq.entries[i]?⟩)

def promisingQueueKill (s : QueueState α) (uuid : Option Text) : QueueState α × Reply α :=
  promisingQueueRemove s uuid

def promisingQueueUpdatePriority [DecidableEq α] (s : QueueState α) (uuid : Option Text)
    (newPriority : UInt32) : QueueState α × Reply α :=
  match uuid with
  | none => (s, ⟨.invalidArg, none⟩)
  | some uuid =>
    match findUuid s uuid with
    | none => (s, ⟨.notFound, none⟩)
    | some i =>
      let cells := match s.pq.entries[i]? with
        | some p => Function.update s.cells p { s.cells p with priority := newPriority }
        | none => s.cells
      let entries := heapifyUp cells (heapifyDown cells s.pq.entries i) i
      (⟨{ s.pq with entries := entries }, cells⟩, ⟨.ok, none⟩)

def promisingQueueShutdown (s : QueueState α) : QueueState α × Reply α :=
  ({ s with pq := { s.pq with shutdown := true } }, ⟨.ok, none⟩)

end Calls

inductive QueueCall (α : Type*) where
  | enqueue (candidate : Option α) (realloc : Bool)
  | requeue (candidate : Option α) (realloc : Bool)
  | dequeue
  | remove (uuid : Option Text)
  | kill (uuid : Option Text)
  | updatePriority (uuid : Option Text) (newPriority : UInt32)
  | shutdown

variable {α : Type*} [DecidableEq α]

/-- The critical section of a call; without a result the call waits. -/
def callSection (s : QueueState α) : QueueCall α → Option (QueueState α × Reply α)
  | .enqueue candidate realloc => some (promisingQueueEnqueue s candidate realloc)
  | .requeue candidate realloc => some (promisingQueueRequeue s candidate realloc)
  | .dequeue => promisingQueueDequeue s
  | .remove uuid => some (promisingQueueRemove s uuid)
  | .kill uuid => some (promisingQueueKill s uuid)
  | .updatePriority uuid newPriority => some (promisingQueueUpdatePriority s uuid newPriority)
  | .shutdown => some (promisingQueueShutdown s)

inductive CallEffect (s : QueueState α) : QueueCall α → QueueState α × Reply α → Prop where
  | failed (call : QueueCall α) (code : ErasecureError) : code ≠ .ok →
      (code = .notFound → call = .dequeue → s.pq.shutdown = true ∧ s.pq.entries = []) →
      CallEffect s call (s, ⟨code, none⟩)
  | accepted (p : α) (realloc : Bool) (call : QueueCall α) (capacity : ℕ) :
      call = .enqueue (some p) realloc ∨ call = .requeue (some p) realloc →
      s.pq.shutdown = false →
      CallEffect s call ({ s with pq := { s.pq with
        entries := heapifyUp s.cells (s.pq.entries++[p]) s.pq.entries.length
        capacity := capacity } }, ⟨.ok, none⟩)
  | dequeued (first : α) : s.pq.entries[0]? = some first →
      CallEffect s .dequeue ({ s with pq := { s.pq with
        entries := heapifyDown s.cells (replaceByLast s.pq.entries 0) 0 } }, ⟨.ok, some first⟩)
  | removed (call : QueueCall α) (uuid : Option Text) (i : ℕ) (p : α) :
      call = .remove uuid ∨ call = .kill uuid → s.pq.entries[i]? = some p →
      CallEffect s call ({ s with pq := { s.pq with
        entries := heapifyUp s.cells (heapifyDown s.cells (replaceByLast s.pq.entries i) i) i } },
        ⟨.ok, some p⟩)
  | updated (uuid : Option Text) (newPriority : UInt32) (i : ℕ) (p : α) (cells : α → CarveState) :
      cells = Function.update s.cells p { s.cells p with priority := newPriority } →
      s.pq.entries[i]? = some p →
      CallEffect s (.updatePriority uuid newPriority) (⟨{ s.pq with
        entries := heapifyUp cells (heapifyDown cells s.pq.entries i) i }, cells⟩, ⟨.ok, none⟩)
  | stopped : CallEffect s .shutdown
      ({ s with pq := { s.pq with shutdown := true } }, ⟨.ok, none⟩)

theorem enqueue_effect (s : QueueState α) (candidate : Option α) (realloc : Bool)
    (call : QueueCall α)
    (hcall : call = .enqueue candidate realloc ∨ call = .requeue candidate realloc) :
    CallEffect s call (promisingQueueEnqueue s candidate realloc) := by
  have hd : call ≠ .dequeue := by rcases hcall with rfl | rfl <;> simp
  cases candidate with
  | none => exact .failed call _ (by decide) (fun _ h => absurd h hd)
  | some p =>
    rw [promisingQueueEnqueue]
    dsimp only
    split_ifs with h1 h2 h3
    · exact .failed call _ (by decide) (fun _ h => absurd h hd)
    · exact .failed call _ (by decide) (fun _ h => absurd h hd)
    · exact .accepted p realloc call _ hcall (by simpa using h1)
    · exact .accepted p realloc call _ hcall (by simpa using h1)

omit [DecidableEq α] in
theorem sift_empty (cells : α → CarveState) (i : ℕ) : heapifyDown cells [] i = [] :=
  List.perm_nil.mp (siftDown_perm (priority cells) [] i)

omit [DecidableEq α] in
/-- Past the end both sifts do nothing. -/
theorem sifts_past (cells : α → CarveState) (entries : List α) (i : ℕ) (h : entries.length ≤ i) :
    heapifyUp cells (heapifyDown cells entries i) i = entries := by
  have hs : smallest (priority cells) entries i = i := by
    rcases smallest_cases (priority cells) entries i with hs | ⟨h1, h2, _⟩
    · exact hs
    · omega
  rw [heapifyDown, siftDown, if_pos hs, heapifyUp, siftUp, dif_neg]
  rintro ⟨_, hlt⟩
  exact absurd (key_lt_length _ _ _ _ hlt) (not_lt.mpr h)

omit [DecidableEq α] in
/-- The guard before sifting down changes nothing. -/
theorem sift_nonempty (cells : α → CarveState) (entries : List α) :
    (if 0 < entries.length then heapifyDown cells entries 0 else entries) =
      heapifyDown cells entries 0 := by
  split_ifs with hlen
  · rfl
  · rw [List.eq_nil_of_length_eq_zero (Nat.eq_zero_of_not_pos hlen), sift_empty]

theorem dequeue_effect (s : QueueState α) (out : QueueState α × Reply α)
    (h : promisingQueueDequeue s = some out) : CallEffect s .dequeue out := by
  unfold promisingQueueDequeue at h
  split at h
  · rename_i he
    split_ifs at h with hs
    cases h
    exact .failed .dequeue _ (by decide) (fun _ _ => ⟨hs, he⟩)
  · rename_i first rest he
    cases h
    dsimp only
    rw [sift_nonempty]
    exact .dequeued first (by rw [he]; rfl)

omit [DecidableEq α] in
theorem find_entry (s : QueueState α) (uuid : Text) (i : ℕ) (h : findUuid s uuid = some i) :
    ∃ p, s.pq.entries[i]? = some p := by
  obtain ⟨hlt, _⟩ := List.findIdx?_eq_some_iff_getElem.mp h
  exact ⟨_, List.getElem?_eq_getElem hlt⟩

theorem remove_effect (s : QueueState α) (uuid : Option Text) (call : QueueCall α)
    (hcall : call = .remove uuid ∨ call = .kill uuid) :
    CallEffect s call (promisingQueueRemove s uuid) := by
  have hd : call ≠ .dequeue := by rcases hcall with rfl | rfl <;> simp
  cases uuid with
  | none => exact .failed call _ (by decide) (fun _ h => absurd h hd)
  | some uuid =>
    rw [promisingQueueRemove]
    dsimp only
    split
    · exact .failed call _ (by decide) (fun _ h => absurd h hd)
    · rename_i i hi
      obtain ⟨p, hp⟩ := find_entry s uuid i hi
      have hr : (if i < (replaceByLast s.pq.entries i).length then
          heapifyUp s.cells (heapifyDown s.cells (replaceByLast s.pq.entries i) i) i
          else replaceByLast s.pq.entries i) =
          heapifyUp s.cells (heapifyDown s.cells (replaceByLast s.pq.entries i) i) i := by
        split_ifs with hlen
        · rfl
        · rw [sifts_past s.cells _ i (not_lt.mp hlen)]
      rw [hr, hp]
      exact .removed call (some uuid) i p hcall hp

theorem update_effect (s : QueueState α) (uuid : Option Text) (newPriority : UInt32) :
    CallEffect s (.updatePriority uuid newPriority)
      (promisingQueueUpdatePriority s uuid newPriority) := by
  cases uuid with
  | none => exact .failed _ _ (by decide) (by simp)
  | some uuid =>
    rw [promisingQueueUpdatePriority]
    dsimp only
    split
    · exact .failed _ _ (by decide) (by simp)
    · rename_i i hi
      obtain ⟨p, hp⟩ := find_entry s uuid i hi
      rw [hp]
      exact .updated (some uuid) newPriority i p _ rfl hp

theorem call_effect (s : QueueState α) (call : QueueCall α) (out : QueueState α × Reply α)
    (h : callSection s call = some out) : CallEffect s call out := by
  cases call with
  | enqueue candidate realloc =>
    cases h
    exact enqueue_effect s candidate realloc _ (Or.inl rfl)
  | requeue candidate realloc =>
    cases h
    exact enqueue_effect s candidate realloc _ (Or.inr rfl)
  | dequeue => exact dequeue_effect s out h
  | remove uuid =>
    cases h
    exact remove_effect s uuid _ (Or.inl rfl)
  | kill uuid =>
    cases h
    exact remove_effect s uuid _ (Or.inr rfl)
  | updatePriority uuid newPriority =>
    cases h
    exact update_effect s uuid newPriority
  | shutdown =>
    cases h
    exact .stopped

section Drain
variable {α : Type*}

/-- Dequeues as often as given, with the candidates handed out. -/
def drain : ℕ → QueueState α → List α × QueueState α
  | 0, s => ([], s)
  | n+1, s =>
    match promisingQueueDequeue s with
    | some (s', ⟨.ok, some p⟩) => (p::(drain n s').1, (drain n s').2)
    | _ => ([], s)

theorem dequeue_first (s : QueueState α) (first : α) (rest : List α)
    (he : s.pq.entries = first::rest) :
    ∃ s', promisingQueueDequeue s = some (s', ⟨.ok, some first⟩) ∧ s'.cells = s.cells ∧
      s'.pq.entries = heapifyDown s.cells (replaceByLast s.pq.entries 0) 0 := by
  refine ⟨{ s with pq := { s.pq with
    entries := heapifyDown s.cells (replaceByLast s.pq.entries 0) 0 } }, ?_, rfl, rfl⟩
  rw [promisingQueueDequeue]
  split
  · rename_i h
    rw [he] at h
    contradiction
  · rename_i first' rest' h
    rw [he] at h
    cases h
    dsimp only
    rw [sift_nonempty]

theorem dequeue_perm (s : QueueState α) (first : α) (rest : List α)
    (he : s.pq.entries = first::rest) :
    s.pq.entries ~ first::heapifyDown s.cells (replaceByLast s.pq.entries 0) 0 :=
  (replace_perm s.pq.entries 0 first (by rw [he]; rfl)).trans
    (.cons first (siftDown_perm _ _ 0).symm)

theorem drain_perm (s : QueueState α) :
    (drain s.pq.entries.length s).1 ~ s.pq.entries ∧
      (drain s.pq.entries.length s).2.pq.entries = [] := by
  generalize hn : s.pq.entries.length = n
  induction n generalizing s with
  | zero =>
    rw [List.eq_nil_of_length_eq_zero hn]
    exact ⟨.refl _, List.eq_nil_of_length_eq_zero hn⟩
  | succ n ih =>
    cases he : s.pq.entries with
    | nil =>
      rw [he] at hn
      contradiction
    | cons first rest =>
      obtain ⟨s', hd, _, hs'⟩ := dequeue_first s first rest he
      have hp := dequeue_perm s first rest he
      rw [← hs'] at hp
      have hlen : s'.pq.entries.length = n := by
        have := hp.length_eq
        rw [hn, List.length_cons] at this
        omega
      obtain ⟨h1, h2⟩ := ih s' hlen
      rw [drain, hd, ← he]
      exact ⟨(List.Perm.cons first h1).trans hp.symm, h2⟩

end Drain

end EraseCure.PromisingQueues
