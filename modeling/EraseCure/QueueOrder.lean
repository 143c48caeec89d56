import EraseCure.PromisingQueues
import Mathlib.Data.List.Nodup

/-!
# The order of the queue

In any run of calls that never enqueues a candidate twice, the entries are a
heap on priority. So a dequeue hands out a candidate of least priority, and
draining the queue hands out all of them in order.
-/

set_option autoImplicit false

namespace EraseCure.QueueOrder
open EraseCure.CText EraseCure.BinaryHeaps EraseCure.PromisingQueues
open scoped List

variable {α : Type*} [DecidableEq α]

/-- The candidate of the call is not in the queue. -/
def Fresh (s : QueueState α) (call : QueueCall α) : Prop :=
  ∀ p realloc, call = .enqueue (some p) realloc ∨ call = .requeue (some p) realloc →
    p ∉ s.pq.entries

inductive QueueRun (s₀ : QueueState α) : QueueState α → Prop where
  | start : QueueRun s₀ s₀
  | call (s s' : QueueState α) (call : QueueCall α) (reply : Reply α) : QueueRun s₀ s →
      Fresh s call → callSection s call = some (s', reply) → QueueRun s₀ s'

structure Ordered (s : QueueState α) : Prop where
  heap : HeapOrdered (priority s.cells) s.pq.entries
  nodup : s.pq.entries.Nodup

omit [DecidableEq α] in
theorem sifts_perm (cells : α → CarveState) (entries : List α) (i : ℕ) :
    heapifyUp cells (heapifyDown cells entries i) i ~ entries :=
  (siftUp_perm _ _ i).trans (siftDown_perm _ entries i)

theorem update_key (cells : α → CarveState) (entries : List α) (i : ℕ) (p : α)
    (newPriority : UInt32) (hn : entries.Nodup) (hp : entries[i]? = some p) (k : ℕ)
    (hk : k ≠ i) :
    keyAt (priority (Function.update cells p { cells p with priority := newPriority })) entries k =
      keyAt (priority cells) entries k := by
  rw [keyAt, keyAt]
  cases hq : entries[k]? with
  | none => rfl
  | some q =>
    have hne : q ≠ p := by
      rintro rfl
      have hlt := (List.getElem?_eq_some_iff.mp hq).1
      exact hk ((List.getElem?_inj hlt hn).mp (hq.trans hp.symm))
    dsimp only
    rw [priority, priority, Function.update_of_ne hne]

theorem effect_ordered (s : QueueState α) (call : QueueCall α) (out : QueueState α × Reply α)
    (h : Ordered s) (hf : Fresh s call) (he : CallEffect s call out) : Ordered out.1 := by
  cases he with
  | failed => exact h
  | accepted p realloc call capacity hcall _ =>
    have hnew := hf p realloc hcall
    constructor
    · exact siftUp_ordered _ _ _ (up_of_append _ _ p h.heap)
    · apply (siftUp_perm _ _ _).nodup_iff.mpr
      exact List.Nodup.append h.nodup (List.nodup_singleton p)
        (List.disjoint_singleton.mpr hnew)
  | dequeued first hfirst =>
    constructor
    · exact replace_root_ordered _ _ h.heap
    · apply (siftDown_perm _ _ _).nodup_iff.mpr
      exact ((replace_perm _ 0 first hfirst).nodup_iff.mp h.nodup).of_cons
  | removed call uuid i p _ hp =>
    constructor
    · exact sifts_ordered _ _ i (replace_except _ _ i h.heap)
    · apply (sifts_perm _ _ i).nodup_iff.mpr
      exact ((replace_perm _ i p hp).nodup_iff.mp h.nodup).of_cons
  | updated uuid newPriority i p cells hcells hp =>
    subst hcells
    constructor
    · apply sifts_ordered
      exact except_of_heap _ _ _ _ i h.heap
        (fun k hk _ => update_key s.cells s.pq.entries i p newPriority h.nodup hp k hk)
    · exact (sifts_perm _ _ i).nodup_iff.mpr h.nodup
  | stopped => exact ⟨h.heap, h.nodup⟩

theorem run_ordered (s₀ s : QueueState α) (h₀ : Ordered s₀) (h : QueueRun s₀ s) : Ordered s := by
  induction h with
  | start => exact h₀
  | call s s' call reply _ hf hs ih => exact effect_ordered s call _ ih hf (call_effect s call _ hs)

/-- The entries are a heap with the least priority first. -/
def MinHeap (s : QueueState α) : Prop :=
  ∀ i p q, 0 < i → s.pq.entries[i]? = some p → s.pq.entries[(i-1)/2]? = some q →
    (s.cells q).priority ≤ (s.cells p).priority

omit [DecidableEq α] in
theorem heap_minHeap (s : QueueState α) (h : HeapOrdered (priority s.cells) s.pq.entries) :
    MinHeap s := by
  intro i p q hi hp hq
  have hk := h i hi
  rw [parent, key_some _ _ _ p hp, key_some _ _ _ q hq, WithTop.coe_le_coe] at hk
  exact UInt32.le_iff_toNat_le.mpr hk

omit [DecidableEq α] in
theorem root_least (s : QueueState α) (first : α) (rest : List α)
    (h : HeapOrdered (priority s.cells) s.pq.entries) (he : s.pq.entries = first::rest) (q : α)
    (hq : q ∈ s.pq.entries) : (s.cells first).priority ≤ (s.cells q).priority := by
  obtain ⟨i, hi⟩ := List.mem_iff_getElem?.mp hq
  have hk := heap_root _ _ h i
  rw [key_some _ _ _ q hi, key_some _ _ 0 first (by rw [he]; rfl), WithTop.coe_le_coe] at hk
  exact UInt32.le_iff_toNat_le.mpr hk

omit [DecidableEq α] in
theorem dequeue_least (s s' : QueueState α) (p : α)
    (h : HeapOrdered (priority s.cells) s.pq.entries)
    (hd : promisingQueueDequeue s = some (s', ⟨.ok, some p⟩)) :
    HeapOrdered (priority s'.cells) s'.pq.entries ∧ s'.cells = s.cells ∧
      s.pq.entries ~ p::s'.pq.entries ∧
      ∀ q ∈ s'.pq.entries, (s.cells p).priority ≤ (s.cells q).priority := by
  cases he : s.pq.entries with
  | nil =>
    rw [promisingQueueDequeue] at hd
    split at hd
    · split_ifs at hd
      cases hd
    · rename_i h'
      rw [he] at h'
      contradiction
  | cons first rest =>
    obtain ⟨t, ht, hc, hentries⟩ := dequeue_first s first rest he
    rw [ht] at hd
    cases hd
    have hperm := dequeue_perm s p rest he
    rw [← hentries] at hperm
    refine ⟨?_, hc, he ▸ hperm, ?_⟩
    · rw [hc, hentries]
      exact replace_root_ordered _ _ h
    · intro q hq
      exact root_least s p rest h he q (hperm.symm.subset (List.mem_cons_of_mem p hq))

omit [DecidableEq α] in
theorem drain_sorted (n : ℕ) (s : QueueState α)
    (h : HeapOrdered (priority s.cells) s.pq.entries) :
    (drain n s).1.Pairwise (fun p q => (s.cells p).priority ≤ (s.cells q).priority) ∧
      ∀ q ∈ (drain n s).1, q ∈ s.pq.entries := by
  induction n generalizing s with
  | zero => exact ⟨.nil, fun q hq => absurd hq List.not_mem_nil⟩
  | succ n ih =>
    rw [drain]
    split
    · rename_i s' p hd
      obtain ⟨h', hc, hperm, hleast⟩ := dequeue_least s s' p h hd
      obtain ⟨hsorted, hmem⟩ := ih s' h'
      rw [hc] at hsorted
      constructor
      · exact .cons (fun q hq => hleast q (hmem q hq)) hsorted
      · intro q hq
        rcases List.mem_cons.mp hq with rfl | hq
        · exact hperm.symm.subset List.mem_cons_self
        · exact hperm.symm.subset (List.mem_cons_of_mem p (hmem q hq))
    · exact ⟨.nil, fun q hq => absurd hq List.not_mem_nil⟩

/-- The order of the queue in every state of a run. -/
theorem queue_ordered (initialCapacity : ℕ) (malloc : Bool) (pq : PromisingQueue α)
    (cells : α → CarveState) (s : QueueState α)
    (hinit : promisingQueueInit initialCapacity malloc = .ok pq)
    (hrun : QueueRun ⟨pq, cells⟩ s) :
    MinHeap s ∧
    (∀ s' p, callSection s .dequeue = some (s', ⟨.ok, some p⟩) →
      ∀ q ∈ s'.pq.entries, (s'.cells p).priority ≤ (s'.cells q).priority) ∧
    (drain s.pq.entries.length s).1.Pairwise
      (fun p q => (s.cells p).priority ≤ (s.cells q).priority) ∧
    (drain s.pq.entries.length s).1 ~ s.pq.entries := by
  have hempty := init_empty initialCapacity malloc pq hinit
  have h₀ : Ordered (⟨pq, cells⟩ : QueueState α) := by
    constructor
    · intro i _
      dsimp only
      rw [hempty, key_top _ [] i (Nat.zero_le i)]
      exact le_top
    · dsimp only
      rw [hempty]
      exact List.nodup_nil
  have h := (run_ordered _ s h₀ hrun).heap
  refine ⟨heap_minHeap s h, ?_, (drain_sorted _ s h).1, (drain_perm s).1⟩
  intro s' p hd
  obtain ⟨_, hc, _, hleast⟩ := dequeue_least s s' p h hd
  rw [hc]
  exact hleast

def threeCells (i : Fin 3) : CarveState where
  uuid := printed37 (decimal i.val)
  priority := match i with
    | 0 => 100
    | 1 => 50
    | 2 => 75

theorem queue_ordered_three :
    MinHeap (⟨⟨[(1 : Fin 3), 0], 16, false⟩, threeCells⟩) ∧
    (∀ s' p, callSection (⟨⟨[(1 : Fin 3), 0], 16, false⟩, threeCells⟩) .dequeue =
        some (s', ⟨.ok, some p⟩) →
      ∀ q ∈ s'.pq.entries, (s'.cells p).priority ≤ (s'.cells q).priority) ∧
    (drain 2 (⟨⟨[(1 : Fin 3), 0], 16, false⟩, threeCells⟩)).1.Pairwise
      (fun p q => (threeCells p).priority ≤ (threeCells q).priority) ∧
    (drain 2 (⟨⟨[(1 : Fin 3), 0], 16, false⟩, threeCells⟩)).1 ~ [(1 : Fin 3), 0] := by
  have h1 : callSection (⟨⟨[], 16, false⟩, threeCells⟩) (.enqueue (some (0 : Fin 3)) true) =
      some (⟨⟨[0], 16, false⟩, threeCells⟩, ⟨.ok, none⟩) := by
    simp [callSection, promisingQueueEnqueue, heapifyUp, siftUp]
  have h2 : callSection (⟨⟨[0], 16, false⟩, threeCells⟩) (.enqueue (some (1 : Fin 3)) true) =
      some (⟨⟨[1, 0], 16, false⟩, threeCells⟩, ⟨.ok, none⟩) := by
    simp [callSection, promisingQueueEnqueue, heapifyUp, siftUp, parent, keyAt, swap, priority,
      threeCells]
    exact WithTop.coe_lt_coe.mpr (by decide)
  exact queue_ordered 0 true ⟨[], 16, false⟩ threeCells _ rfl
    (.call _ _ _ _ (.call _ _ _ _ .start (by simp [Fresh]) h1) (by simp [Fresh]) h2)

end EraseCure.QueueOrder
