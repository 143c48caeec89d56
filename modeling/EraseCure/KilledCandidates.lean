import EraseCure.QueueOrder

/-!
# Candidates that were killed

Removing takes the first entry with the identifier out. The candidate is gone
for all later calls when it was the only such entry, which it is in runs that
enqueue no identifier twice.
-/

set_option autoImplicit false

namespace EraseCure.KilledCandidates
open EraseCure.CText EraseCure.BinaryHeaps EraseCure.PromisingQueues
open EraseCure.QueueOrder
open scoped List

variable {α : Type*} [DecidableEq α]

/-- Any calls that are allowed where they are made. -/
inductive CallRun (allowed : QueueState α → QueueCall α → Prop) (s₀ : QueueState α) :
    QueueState α → Prop where
  | start : CallRun allowed s₀ s₀
  | call (s s' : QueueState α) (call : QueueCall α) (reply : Reply α) : CallRun allowed s₀ s →
      allowed s call → callSection s call = some (s', reply) → CallRun allowed s₀ s'

def HasUuid (s : QueueState α) (uuid : Text) (p : α) : Prop := (s.cells p).uuid.chars = cstr uuid

instance (s : QueueState α) (uuid : Text) : DecidablePred (HasUuid s uuid) :=
  fun _ => inferInstanceAs (Decidable (_ = _))

def Enqueues (call : QueueCall α) (p : α) : Prop :=
  ∃ realloc, call = .enqueue (some p) realloc ∨ call = .requeue (some p) realloc

/-- No candidate with the identifier is enqueued. -/
def NotAgain (uuid : Text) (s : QueueState α) (call : QueueCall α) : Prop :=
  ∀ p, Enqueues call p → ¬ HasUuid s uuid p

/-- A candidate is enqueued when no entry has its identifier. -/
def FirstTime (s : QueueState α) (call : QueueCall α) : Prop :=
  ∀ p, Enqueues call p → ∀ q ∈ s.pq.entries, (s.cells q).uuid ≠ (s.cells p).uuid

def Gone (s : QueueState α) (uuid : Text) : Prop := ∀ p ∈ s.pq.entries, ¬ HasUuid s uuid p

/-- No entry has the identifier, no call hands out or changes a candidate that
has it, and removing or updating it finds nothing, until it is enqueued again. -/
def NeverTouched (s : QueueState α) (uuid : Text) : Prop :=
  ∀ t, CallRun (NotAgain uuid) s t → Gone t uuid ∧
    (∀ call out, callSection t call = some out → ∀ p, HasUuid t uuid p →
      out.2.taken ≠ some p ∧ out.1.cells p = t.cells p) ∧
    (promisingQueueRemove t (some uuid)).2.code = .notFound ∧
    (promisingQueueKill t (some uuid)).2.code = .notFound ∧
    ∀ newPriority, (promisingQueueUpdatePriority t (some uuid) newPriority).2.code = .notFound

section Steps
variable (s : QueueState α) (call : QueueCall α) (out : QueueState α × Reply α)

theorem effect_uuid (h : CallEffect s call out) (p : α) :
    (out.1.cells p).uuid = (s.cells p).uuid := by
  cases h with
  | failed | accepted | dequeued | removed | stopped => rfl
  | updated uuid newPriority i q cells hcells hq =>
    subst hcells
    by_cases hpq : p = q
    · subst hpq
      simp
    · simp [hpq]

theorem effect_entries (h : CallEffect s call out) (p : α) (hp : p ∈ out.1.pq.entries) :
    p ∈ s.pq.entries ∨ Enqueues call p := by
  cases h with
  | failed | stopped => exact Or.inl hp
  | accepted q realloc call capacity hcall _ =>
    have hmem := (siftUp_perm (priority s.cells) _ _).mem_iff.mp hp
    rcases List.mem_append.mp hmem with hmem | hmem
    · exact Or.inl hmem
    · obtain rfl := List.mem_singleton.mp hmem
      exact Or.inr ⟨realloc, hcall⟩
  | dequeued first hfirst =>
    have hmem := (siftDown_perm (priority s.cells) _ _).mem_iff.mp hp
    exact Or.inl ((replace_perm _ 0 first hfirst).mem_iff.mpr (List.mem_cons_of_mem first hmem))
  | removed call uuid i q _ hq =>
    have hmem := (sifts_perm s.cells _ i).mem_iff.mp hp
    exact Or.inl ((replace_perm _ i q hq).mem_iff.mpr (List.mem_cons_of_mem q hmem))
  | updated uuid newPriority i q cells _ _ =>
    exact Or.inl ((sifts_perm cells _ i).mem_iff.mp hp)

/-- A call hands out and changes entries only. -/
theorem effect_touches (h : CallEffect s call out) (p : α) (hp : p ∉ s.pq.entries) :
    out.2.taken ≠ some p ∧ out.1.cells p = s.cells p := by
  cases h with
  | failed | accepted | stopped => exact ⟨nofun, rfl⟩
  | dequeued first hfirst =>
    exact ⟨fun h => hp (Option.some.inj h ▸ List.mem_of_getElem? hfirst), rfl⟩
  | removed call uuid i q _ hq =>
    exact ⟨fun h => hp (Option.some.inj h ▸ List.mem_of_getElem? hq), rfl⟩
  | updated uuid newPriority i q cells hcells hq =>
    subst hcells
    have hpq : p ≠ q := fun h => hp (h ▸ List.mem_of_getElem? hq)
    exact ⟨nofun, Function.update_of_ne hpq _ _⟩

theorem effect_gone (uuid : Text) (h : CallEffect s call out) (ha : NotAgain uuid s call)
    (hs : Gone s uuid) : Gone out.1 uuid := by
  intro p hp
  rw [HasUuid, effect_uuid s call out h p]
  rcases effect_entries s call out h p hp with hp | hp
  · exact hs p hp
  · exact ha p hp

end Steps

theorem run_gone (uuid : Text) (s t : QueueState α) (hs : Gone s uuid)
    (h : CallRun (NotAgain uuid) s t) : Gone t uuid := by
  induction h with
  | start => exact hs
  | call s' t call reply _ ha hc ih =>
    exact effect_gone s' call _ uuid (call_effect s' call _ hc) ha ih

omit [DecidableEq α] in
theorem find_none (s : QueueState α) (uuid : Text) (h : Gone s uuid) : findUuid s uuid = none := by
  rw [findUuid, List.findIdx?_eq_none_iff]
  intro p hp
  exact decide_eq_false (h p hp)

theorem gone_untouched (s : QueueState α) (uuid : Text) (h : Gone s uuid) :
    NeverTouched s uuid := by
  intro t ht
  have hgone := run_gone uuid s t h ht
  have hnone := find_none t uuid hgone
  refine ⟨hgone, fun call out hc p hp => ?_, ?_, ?_, fun newPriority => ?_⟩
  · exact effect_touches t call out (call_effect t call out hc) p (fun hmem => hgone p hmem hp)
  · simp only [promisingQueueRemove, hnone]
  · simp only [promisingQueueKill, promisingQueueRemove, hnone]
  · simp only [promisingQueueUpdatePriority, hnone]

def Removes (call : QueueCall α) (uuid : Text) : Prop :=
  call = .remove (some uuid) ∨ call = .kill (some uuid)

theorem remove_takes (s s' : QueueState α) (call : QueueCall α) (uuid : Text) (reply : Reply α)
    (hcall : Removes call uuid) (h : callSection s call = some (s', reply))
    (hok : reply.code = .ok) :
    s'.cells = s.cells ∧ ∃ p, HasUuid s uuid p ∧ s.pq.entries ~ p::s'.pq.entries := by
  have hremove : promisingQueueRemove s (some uuid) = (s', reply) := by
    rcases hcall with rfl | rfl <;> exact Option.some.inj h
  rw [promisingQueueRemove] at hremove
  dsimp only at hremove
  split at hremove
  · cases hremove
    contradiction
  · rename_i i hi
    obtain ⟨hlt, huuid, _⟩ := List.findIdx?_eq_some_iff_getElem.mp hi
    have hentry : s.pq.entries[i]? = some s.pq.entries[i] := List.getElem?_eq_getElem hlt
    have hperm := replace_perm s.pq.entries i _ hentry
    cases hremove
    refine ⟨rfl, s.pq.entries[i], of_decide_eq_true huuid, hperm.trans (.cons _ ?_)⟩
    dsimp only
    split_ifs
    · exact (sifts_perm s.cells _ i).symm
    · exact .refl _

def carriers (s : QueueState α) (uuid : Text) : ℕ :=
  s.pq.entries.countP (fun p => HasUuid s uuid p)

omit [DecidableEq α] in
theorem carriers_gone (s : QueueState α) (uuid : Text) : carriers s uuid = 0 ↔ Gone s uuid := by
  rw [carriers, List.countP_eq_zero]
  simp only [decide_eq_true_eq]
  exact Iff.rfl

theorem carriers_removed (s s' : QueueState α) (call : QueueCall α) (uuid : Text)
    (reply : Reply α) (hcall : Removes call uuid) (h : callSection s call = some (s', reply))
    (hok : reply.code = .ok) : carriers s uuid = carriers s' uuid+1 := by
  obtain ⟨hcells, p, hp, hperm⟩ := remove_takes s s' call uuid reply hcall h hok
  rw [carriers, hperm.countP_eq, List.countP_cons, if_pos (decide_eq_true hp), carriers]
  congr 1
  refine List.countP_congr fun q _ => ?_
  rw [decide_eq_true_iff, decide_eq_true_iff, HasUuid, HasUuid, hcells]

/-- A removed candidate is gone for good exactly when its identifier had no
other entry. -/
theorem removed_iff (s s' : QueueState α) (call : QueueCall α) (uuid : Text) (reply : Reply α)
    (hcall : Removes call uuid) (h : callSection s call = some (s', reply))
    (hok : reply.code = .ok) : NeverTouched s' uuid ↔ carriers s uuid ≤ 1 := by
  have hcount := carriers_removed s s' call uuid reply hcall h hok
  constructor
  · intro hnever
    have hgone := (carriers_gone s' uuid).mpr (hnever s' .start).1
    omega
  · intro hone
    exact gone_untouched s' uuid ((carriers_gone s' uuid).mp (by omega))

/-- No two entries have one identifier. -/
def Distinct (s : QueueState α) : Prop := (s.pq.entries.map (fun p => (s.cells p).uuid)).Nodup

theorem effect_distinct (s : QueueState α) (call : QueueCall α) (out : QueueState α × Reply α)
    (h : CallEffect s call out) (hf : FirstTime s call) (hs : Distinct s) : Distinct out.1 := by
  have huuid : (fun p => (out.1.cells p).uuid) = (fun p => (s.cells p).uuid) :=
    funext (effect_uuid s call out h)
  rw [Distinct, huuid]
  cases h with
  | failed | stopped => exact hs
  | accepted q realloc call capacity hcall _ =>
    apply ((siftUp_perm (priority s.cells) _ _).map _).nodup_iff.mpr
    rw [List.map_append, List.map_singleton]
    refine hs.append (List.nodup_singleton _) (List.disjoint_singleton.mpr fun hmem => ?_)
    obtain ⟨r, hr, heq⟩ := List.mem_map.mp hmem
    exact hf q ⟨realloc, hcall⟩ r hr heq
  | dequeued first hfirst =>
    apply ((siftDown_perm (priority s.cells) _ _).map _).nodup_iff.mpr
    exact (((replace_perm _ 0 first hfirst).map _).nodup_iff.mp hs).of_cons
  | removed call uuid i q _ hq =>
    apply ((sifts_perm s.cells _ i).map _).nodup_iff.mpr
    exact (((replace_perm _ i q hq).map _).nodup_iff.mp hs).of_cons
  | updated uuid newPriority i q cells _ _ =>
    exact ((sifts_perm cells _ i).map _).nodup_iff.mpr hs

theorem run_distinct (s₀ s : QueueState α) (h₀ : Distinct s₀) (h : CallRun FirstTime s₀ s) :
    Distinct s := by
  induction h with
  | start => exact h₀
  | call s s' call reply _ hf hc ih =>
    exact effect_distinct s call _ (call_effect s call _ hc) hf ih

omit [DecidableEq α] in
theorem distinct_carriers (s : QueueState α) (h : Distinct s) (uuid : Text) :
    carriers s uuid ≤ 1 := by
  by_cases hc : ∃ p, HasUuid s uuid p
  · obtain ⟨p, hp⟩ := hc
    have hcount : carriers s uuid =
        (s.pq.entries.map (fun p => (s.cells p).uuid)).count (s.cells p).uuid := by
      rw [carriers, List.count, List.countP_map]
      refine List.countP_congr fun q _ => ?_
      rw [Function.comp_apply, beq_iff_eq, decide_eq_true_iff]
      exact ⟨fun hq => CString.ext (hq.trans hp.symm), fun hq => (congrArg _ hq).trans hp⟩
    rw [hcount]
    exact List.nodup_iff_count_le_one.mp h _
  · have hgone : Gone s uuid := fun p _ hp => hc ⟨p, hp⟩
    rw [(carriers_gone s uuid).mpr hgone]
    exact Nat.zero_le 1

/-- From any reachable state a candidate that was removed or killed is gone for
good exactly when no other entry had its identifier; and in runs that enqueue no
identifier twice it always is. -/
theorem killed_for_good (initialCapacity : ℕ) (malloc : Bool) (pq : PromisingQueue α)
    (cells : α → CarveState) (hinit : promisingQueueInit initialCapacity malloc = .ok pq) :
    (∀ s, CallRun (fun _ _ => True) ⟨pq, cells⟩ s → ∀ s' call uuid reply, Removes call uuid →
      callSection s call = some (s', reply) → reply.code = .ok →
        (NeverTouched s' uuid ↔ carriers s uuid ≤ 1)) ∧
    ∀ s, CallRun FirstTime ⟨pq, cells⟩ s → ∀ s' call uuid reply, Removes call uuid →
      callSection s call = some (s', reply) → reply.code = .ok → NeverTouched s' uuid := by
  refine ⟨fun s _ => removed_iff s, fun s hs s' call uuid reply hcall hc hok => ?_⟩
  have h₀ : Distinct (⟨pq, cells⟩ : QueueState α) := by
    rw [Distinct]
    dsimp only
    rw [init_empty initialCapacity malloc pq hinit]
    exact List.nodup_nil
  exact (removed_iff s s' call uuid reply hcall hc hok).mpr
    (distinct_carriers s (run_distinct _ s h₀ hs) uuid)

def letterCell (letter : Char) : CarveState := ⟨printed37 [letter], letter.val⟩

def letterQueue (entries : List Char) : QueueState Char := ⟨⟨entries, 16, false⟩, letterCell⟩

theorem letterQueue_enqueue (entries : List Char) (next : Char) (hlen : entries.length ≠ 16)
    (hup : ¬ (0 < entries.length ∧
      keyAt (priority letterCell) (entries++[next]) entries.length <
        keyAt (priority letterCell) (entries++[next]) (parent entries.length))) :
    callSection (letterQueue entries) (.enqueue (some next) true) =
      some (letterQueue (entries++[next]), ⟨.ok, none⟩) := by
  have hfull : (letterQueue entries).pq.entries.length ≠ (letterQueue entries).pq.capacity := hlen
  have hplace : heapifyUp letterCell (entries++[next]) entries.length = entries++[next] := by
    rw [heapifyUp, siftUp, dif_neg hup]
  simp only [callSection, promisingQueueEnqueue, hfull, false_and, if_false]
  simp only [letterQueue, hplace]
  rfl

/-- The second of three candidates is killed, and the others stay. -/
theorem killed_for_good_once : ∃ s' reply,
    callSection (letterQueue ['a', 'b', 'c']) (.kill (some "b".toList)) = some (s', reply) ∧
      reply.code = .ok ∧ s'.pq.entries = ['a', 'c'] ∧ NeverTouched s' "b".toList := by
  have hruns := killed_for_good 0 true ⟨[], 16, false⟩ letterCell rfl
  have hfirst : ∀ entries next,
      entries.all (fun q => decide ((letterCell q).uuid ≠ (letterCell next).uuid)) = true →
      FirstTime (letterQueue entries) (.enqueue (some next) true) := by
    intro entries next h p hp
    obtain rfl : next = p := by simpa [Enqueues] using hp
    exact fun q hq => of_decide_eq_true (List.all_eq_true.mp h q hq)
  have hthree : CallRun FirstTime (letterQueue []) (letterQueue ['a', 'b', 'c']) :=
    .call _ _ _ _ (.call _ _ _ _ (.call _ _ _ _ .start (hfirst [] 'a' rfl)
      (letterQueue_enqueue [] 'a' (by decide) (by decide)))
      (hfirst ['a'] 'b' (by decide))
      (letterQueue_enqueue ['a'] 'b' (by decide) (by decide)))
      (hfirst ['a', 'b'] 'c' (by decide))
      (letterQueue_enqueue ['a', 'b'] 'c' (by decide) (by decide))
  have h : (callSection (letterQueue ['a', 'b', 'c']) (.kill (some "b".toList))).any (fun r =>
      decide (r.2.code = .ok) && decide (r.1.pq.entries = ['a', 'c'])) = true := by decide +kernel
  obtain ⟨⟨s', reply⟩, hkill, hresult⟩ := (Option.any_eq_true _ _).mp h
  simp only [Bool.and_eq_true, decide_eq_true_eq] at hresult
  exact ⟨s', reply, hkill, hresult.1, hresult.2,
    hruns.2 _ hthree s' _ "b".toList reply (Or.inr rfl) hkill hresult.1⟩

def soleCell (_ : Unit) : CarveState := ⟨printed37 "a".toList, 0⟩

def soleQueue (count : ℕ) : QueueState Unit := ⟨⟨List.replicate count (), 16, false⟩, soleCell⟩

theorem soleQueue_enqueue (count : ℕ) (h : count < 16) :
    callSection (soleQueue count) (.enqueue (some ()) true) =
      some (soleQueue (count+1), ⟨.ok, none⟩) := by
  have hlen : (soleQueue count).pq.entries.length ≠ (soleQueue count).pq.capacity := by
    rw [soleQueue, List.length_replicate]
    exact Nat.ne_of_lt h
  have hentries : heapifyUp (soleQueue count).cells ((soleQueue count).pq.entries++[()])
      (soleQueue count).pq.entries.length = List.replicate (count+1) () := by
    refine List.eq_replicate_iff.mpr ⟨?_, fun _ _ => rfl⟩
    rw [heapifyUp, (siftUp_perm _ _ _).length_eq, List.length_append, soleQueue,
      List.length_replicate, List.length_singleton]
  simp only [callSection, promisingQueueEnqueue, hlen, false_and, if_false, hentries]
  rfl

/-- A candidate that was enqueued twice is still queued after it was killed. -/
theorem killed_once_of_two : ∃ s s' reply,
    CallRun (fun _ _ => True) (soleQueue 0) s ∧
      callSection s (.kill (some "a".toList)) = some (s', reply) ∧ reply.code = .ok ∧
      (∃ p ∈ s'.pq.entries, HasUuid s' "a".toList p) ∧ ¬ NeverTouched s' "a".toList := by
  have hrun : CallRun (fun _ _ => True) (soleQueue 0) (soleQueue 2) :=
    .call _ _ _ _ (.call _ _ _ _ .start trivial (soleQueue_enqueue 0 (by decide))) trivial
      (soleQueue_enqueue 1 (by decide))
  obtain ⟨s', reply, hkill, hok⟩ : ∃ s' reply,
      callSection (soleQueue 2) (.kill (some "a".toList)) = some (s', reply) ∧ reply.code = .ok :=
    ⟨_, _, rfl, rfl⟩
  have hcount := carriers_removed (soleQueue 2) s' _ "a".toList reply (Or.inr rfl) hkill hok
  have htwo : carriers (soleQueue 2) "a".toList = 2 := by decide
  have hleft : ¬ Gone s' "a".toList := fun hgone => by
    have := (carriers_gone s' "a".toList).mpr hgone
    omega
  refine ⟨soleQueue 2, s', reply, hrun, hkill, hok, ?_, fun hnever => hleft (hnever s' .start).1⟩
  simpa [Gone] using hleft

end EraseCure.KilledCandidates
