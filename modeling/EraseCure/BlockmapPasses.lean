import EraseCure.BlockmapWorkers
import EraseCure.SortedGroups
import Mathlib.Data.Char
import Mathlib.Data.List.Lex
import Mathlib.Data.Prod.Lex

/-!
# The passes over a block map

Hashing and finding duplicates as one call each, which is what a worker does
that is alone. The marks that a pass adds are the links between neighbours in
the sorted hashes.
-/

set_option autoImplicit false

namespace EraseCure.BlockmapPasses
open EraseCure.CText EraseCure.Hashing EraseCure.FileMirrors EraseCure.Blockmaps
open EraseCure.BlockmapWorkers EraseCure.Monitors EraseCure.SortedGroups
open scoped List

variable {n : ℕ}

def hashStep (io : HashIo) (fm : FileMirror) (s : Blockmap n × Digest) (i : ℕ) :
    Blockmap n × Digest :=
  match hashBlock io fm i s.2 with
  | none => s
  | some (digest, hex, isZero) =>
    let bm := performed s.1 (blockmapShadowSetHash s.1 i (some hex))
    (performed bm (blockmapShadowSetZero bm i isZero), digest)

def blockmapComputeHashes (bm : Blockmap n) (io : HashIo) (fm : FileMirror) :
    Except BlockmapError (Blockmap n) :=
  if io.malloc then
    .ok (blockmapMergeShadow ((List.range n).foldl (hashStep io fm) (bm, io.stack)).1)
  else .error .noMem

def gathered (bm : Blockmap n) : List (HashEntry n) := (List.finRange n).filterMap (hashEntry bm)

def markNeighbours : List (HashEntry n) → Blockmap n → Blockmap n
  | previous::entry::rest, bm =>
    markNeighbours (entry::rest)
      (if compareHashes entry previous = .eq then markDuplicate bm previous.block entry.block
        else bm)
  | _, bm => bm

def blockmapFindDuplicates (bm : Blockmap n) (malloc : Bool) (qsort : Qsort n) :
    Except BlockmapError (Blockmap n) :=
  if malloc then .ok (blockmapMergeShadow (markNeighbours (qsort.sort (gathered bm)) bm))
  else .error .noMem

def blockmapDuplicateCount (bm : Blockmap n) : ℕ :=
  bm.primary.toList.countP (fun e => e.isDuplicate)

/-- A call from its start to its return. -/
def wholeCall (bm : Blockmap n) : BlockmapCall n → Except BlockmapError (Blockmap n)
  | .reserve block => blockmapReserve bm block
  | .release block => blockmapRelease bm block
  | .setCovered block covered => blockmapShadowSetCovered bm block covered
  | .setHash block hashHex => blockmapShadowSetHash bm block hashHex
  | .setZero block isZero => blockmapShadowSetZero bm block isZero
  | .setDuplicate block exemplar => blockmapShadowSetDuplicate bm block exemplar
  | .mergeShadow => .ok (blockmapMergeShadow bm)
  | .computeHashes io fm => blockmapComputeHashes bm io fm
  | .findDuplicates malloc qsort => blockmapFindDuplicates bm malloc qsort

def wholeCalls (bm : Blockmap n) (calls : List (BlockmapCall n)) : Blockmap n :=
  calls.foldl (fun bm call => performed bm (wholeCall bm call)) bm

section Alone

/-- The steps of a worker that no other worker interrupts. -/
def Alone : Blockmap n × Worker n → Blockmap n × Worker n → Prop :=
  Relation.ReflTransGen (fun p q => workerStep p.1 p.2 = some q)

theorem hashing_alone (io : HashIo) (fm : FileMirror) (calls : List (BlockmapCall n))
    (k i : ℕ) (hk : i+k = n) (bm : Blockmap n) (digest : Digest) :
    Alone (bm, ⟨.hashing io fm i digest, calls⟩)
      (blockmapMergeShadow ((List.range' i k).foldl (hashStep io fm) (bm, digest)).1,
        ⟨.returned, calls⟩) := by
  induction k generalizing i bm digest with
  | zero =>
    have hlast : workerStep bm ⟨.hashing io fm i digest, calls⟩ =
        some (bm, ⟨.merging, calls⟩) := by
      simp only [workerStep, taskStep, if_neg (show ¬ i < n by omega)]
    exact .head hlast (.single rfl)
  | succ k ih =>
    rw [List.range'_succ, List.foldl_cons]
    have hlt : i < n := by omega
    cases hblock : hashBlock io fm i digest with
    | none =>
      have hskip : workerStep bm ⟨.hashing io fm i digest, calls⟩ =
          some (bm, ⟨.hashing io fm (i+1) digest, calls⟩) := by
        simp only [workerStep, taskStep, if_pos hlt, hblock]
      have hsame : hashStep io fm (bm, digest) i = (bm, digest) := by
        simp only [hashStep, hblock]
      rw [hsame]
      exact .head hskip (ih (i+1) (by omega) bm digest)
    | some found =>
      obtain ⟨digest', hex, isZero⟩ := found
      have hread : workerStep bm ⟨.hashing io fm i digest, calls⟩ =
          some (bm, ⟨.settingHash io fm i digest' hex isZero, calls⟩) := by
        simp only [workerStep, taskStep, if_pos hlt, hblock]
      have hset : hashStep io fm (bm, digest) i =
          (performed (performed bm (blockmapShadowSetHash bm i (some hex)))
            (blockmapShadowSetZero (performed bm (blockmapShadowSetHash bm i (some hex))) i isZero),
            digest') := by
        simp only [hashStep, hblock]
      rw [hset]
      exact .head hread (.head rfl (.head rfl (ih (i+1) (by omega) _ digest')))

theorem gathering_alone (qsort : Qsort n) (calls : List (BlockmapCall n)) (bm : Blockmap n)
    (k i : ℕ) (hk : i+k = n) (entries : List (HashEntry n)) :
    Alone (bm, ⟨.gathering qsort i entries, calls⟩)
      (bm, ⟨.marking (qsort.sort
        (entries++((List.finRange n).drop i).filterMap (hashEntry bm))), calls⟩) := by
  induction k generalizing i entries with
  | zero =>
    have hlast : workerStep bm ⟨.gathering qsort i entries, calls⟩ =
        some (bm, ⟨.marking (qsort.sort entries), calls⟩) := by
      simp only [workerStep, taskStep, dif_neg (show ¬ i < n by omega)]
    rw [List.drop_of_length_le (by rw [List.length_finRange]; omega), List.filterMap_nil,
      List.append_nil]
    exact .single hlast
  | succ k ih =>
    have hlt : i < n := by omega
    have hnext : workerStep bm ⟨.gathering qsort i entries, calls⟩ =
        some (bm, ⟨.gathering qsort (i+1) (entries++(hashEntry bm ⟨i, hlt⟩).toList), calls⟩) := by
      simp only [workerStep, taskStep, dif_pos hlt]
    have hdrop : (List.finRange n).drop i = ⟨i, hlt⟩::(List.finRange n).drop (i+1) := by
      rw [List.drop_eq_getElem_cons (by rw [List.length_finRange]; omega), List.getElem_finRange]
      rfl
    have hrest := ih (i+1) (by omega) (entries++(hashEntry bm ⟨i, hlt⟩).toList)
    have hentries : entries++((List.finRange n).drop i).filterMap (hashEntry bm) =
        entries++(hashEntry bm ⟨i, hlt⟩).toList++
          ((List.finRange n).drop (i+1)).filterMap (hashEntry bm) := by
      rw [hdrop, List.filterMap_cons, List.append_assoc]
      cases hashEntry bm ⟨i, hlt⟩ <;> rfl
    rw [hentries]
    exact .head hnext hrest

theorem marking_alone (calls : List (BlockmapCall n)) (entries : List (HashEntry n))
    (bm : Blockmap n) :
    Alone (bm, ⟨.marking entries, calls⟩)
      (blockmapMergeShadow (markNeighbours entries bm), ⟨.returned, calls⟩) := by
  induction entries generalizing bm with
  | nil => exact .head rfl (.single rfl)
  | cons previous entries ih =>
    cases entries with
    | nil => exact .head rfl (.single rfl)
    | cons entry rest =>
      have hnext : workerStep bm ⟨.marking (previous::entry::rest), calls⟩ =
          some ((if compareHashes entry previous = .eq then
            markDuplicate bm previous.block entry.block else bm),
            ⟨.marking (entry::rest), calls⟩) := by
        simp only [workerStep, taskStep]
        split_ifs <;> rfl
      rw [markNeighbours]
      exact .head hnext (ih _)

theorem call_alone (bm : Blockmap n) (call : BlockmapCall n) (calls : List (BlockmapCall n)) :
    Alone (bm, ⟨.returned, call::calls⟩)
      (performed bm (wholeCall bm call), ⟨.returned, calls⟩) := by
  have hstart : workerStep bm ⟨.returned, call::calls⟩ =
      some ((startCall bm call).1, ⟨(startCall bm call).2, calls⟩) := rfl
  cases call with
  | computeHashes io fm =>
    cases hmalloc : io.malloc with
    | false =>
      simp only [startCall, hmalloc, Bool.false_eq_true, if_false] at hstart
      simp only [wholeCall, blockmapComputeHashes, hmalloc, Bool.false_eq_true, if_false]
      exact .single hstart
    | true =>
      simp only [startCall, hmalloc, if_true] at hstart
      simp only [wholeCall, blockmapComputeHashes, hmalloc, if_true]
      rw [performed, List.range_eq_range']
      exact .head hstart (hashing_alone io fm calls n 0 (Nat.zero_add n) bm io.stack)
  | findDuplicates malloc qsort =>
    cases malloc with
    | false => exact .single hstart
    | true =>
      have hgather := gathering_alone qsort calls bm n 0 (Nat.zero_add n) []
      rw [List.drop_zero, List.nil_append] at hgather
      exact .head hstart (.trans hgather (marking_alone calls _ bm))
  | reserve block | release block | setCovered block covered | setHash block hashHex
    | setZero block isZero | setDuplicate block exemplar | mergeShadow => exact .single hstart

theorem calls_alone (bm : Blockmap n) (calls : List (BlockmapCall n)) :
    Alone (bm, ⟨.returned, calls⟩) (wholeCalls bm calls, ⟨.returned, []⟩) := by
  induction calls generalizing bm with
  | nil => exact .refl
  | cons call calls ih => exact .trans (call_alone bm call calls) (ih _)

/-- What whole calls leave is a map that the workers can come to. -/
theorem calls_reachable {ι : Type*} [DecidableEq ι] [Fintype ι]
    (s₀ s : State ι (Blockmap n) Empty (Worker n)) (h : Reachable blockmapMachine s₀ s) (i : ι)
    (calls : List (BlockmapCall n)) (hi : s.status i = .ready ⟨.returned, calls⟩) :
    Reachable blockmapMachine s₀ ⟨wholeCalls s.shared calls,
      Function.update s.status i (.ready ⟨.returned, []⟩)⟩ := by
  have hsteps : ∀ q, Alone (s.shared, ⟨.returned, calls⟩) q →
      Reachable blockmapMachine s₀ ⟨q.1, Function.update s.status i (.ready q.2)⟩ := by
    intro q hq
    induction hq with
    | refl =>
      rw [← hi, Function.update_eq_self]
      exact h
    | tail _ hstep ih =>
      refine .step _ _ (.act i none) ih ?_
      simp only [next, Function.update_self, blockmapMachine, hstep, Option.map_some, notify,
        Function.update_idem]
  exact hsteps _ (calls_alone s.shared calls)

end Alone

/-- The blocks that a pass sorts. -/
def Eligible (bm : Blockmap n) (b : Fin n) : Prop :=
  (bm.primary.get b).hashComputed = true ∧ (bm.primary.get b).isZero = false

instance (bm : Blockmap n) : DecidablePred (Eligible bm) :=
  fun _ => inferInstanceAs (Decidable (_ ∧ _))

def hashText (bm : Blockmap n) (b : Fin n) : Text := (bm.primary.get b).hash.chars

def blockOrder (bm : Blockmap n) (qsort : Qsort n) : List (Fin n) :=
  (qsort.sort (gathered bm)).map HashEntry.block

/-- The marks that a pass adds. -/
def Links (bm : Blockmap n) (qsort : Qsort n) : Fin n → Fin n → Prop :=
  Follows (hashText bm) (blockOrder bm qsort)

section Order
variable (bm : Blockmap n) (qsort : Qsort n)

theorem entry_of_block (b : Fin n) (x : HashEntry n) (h : hashEntry bm b = some x) :
    x.block = b ∧ x.hash.chars = hashText bm b ∧ Eligible bm b := by
  simp only [hashEntry, Bool.not_eq_true'] at h
  split_ifs at h with he
  cases h
  exact ⟨rfl, rfl, he⟩

theorem block_of_gathered (x : HashEntry n) (h : x ∈ gathered bm) :
    hashEntry bm x.block = some x := by
  obtain ⟨b, _, hb⟩ := List.mem_filterMap.mp h
  rwa [(entry_of_block bm b x hb).1]

theorem order_mem (b : Fin n) : b ∈ blockOrder bm qsort ↔ Eligible bm b := by
  simp only [blockOrder, List.mem_map, (qsort.perm (gathered bm)).mem_iff]
  constructor
  · rintro ⟨x, hx, rfl⟩
    exact (entry_of_block bm _ x (block_of_gathered bm x hx)).2.2
  · intro he
    refine ⟨⟨b, (bm.primary.get b).hash⟩, List.mem_filterMap.mpr ⟨b, List.mem_finRange b, ?_⟩, rfl⟩
    simp only [hashEntry, Bool.not_eq_true']
    exact if_pos he

theorem gathered_nodup : ((gathered bm).map HashEntry.block).Nodup := by
  have hblocks : (gathered bm).map HashEntry.block =
      (List.finRange n).filter (fun b => Eligible bm b) := by
    rw [gathered, List.map_filterMap, ← List.filterMap_eq_filter]
    apply List.filterMap_congr
    intro b _
    by_cases he : Eligible bm b
    · have hentry : hashEntry bm b = some ⟨b, (bm.primary.get b).hash⟩ := by
        simp only [hashEntry, Bool.not_eq_true']
        exact if_pos he
      simp [hentry, Option.guard, he]
    · have hentry : hashEntry bm b = none := by
        simp only [hashEntry, Bool.not_eq_true']
        exact if_neg he
      simp [hentry, Option.guard, he]
  rw [hblocks]
  exact (List.nodup_finRange n).filter _

theorem order_nodup : (blockOrder bm qsort).Nodup :=
  ((qsort.perm (gathered bm)).map HashEntry.block).nodup_iff.mpr (gathered_nodup bm)

theorem compare_eq (a b : HashEntry n) : compareHashes a b = .eq ↔ a.hash.chars = b.hash.chars := by
  rw [compareHashes, compareOfLessAndEq]
  split_ifs with hlt heq
  · exact ⟨nofun, fun heq => absurd (heq ▸ hlt) (lt_irrefl _)⟩
  · exact ⟨fun _ => heq, fun _ => rfl⟩
  · exact ⟨nofun, fun h => absurd h heq⟩

theorem compare_lt (a b : HashEntry n) : compareHashes a b = .lt ↔ a.hash.chars < b.hash.chars := by
  rw [compareHashes, compareOfLessAndEq]
  split_ifs with hlt
  · exact iff_of_true rfl hlt
  · exact iff_of_false nofun hlt
  · exact iff_of_false nofun hlt

theorem compare_gt (a b : HashEntry n) : compareHashes a b ≠ .gt ↔ a.hash.chars ≤ b.hash.chars := by
  rw [compareHashes, compareOfLessAndEq]
  split_ifs with hlt heq
  · exact iff_of_true nofun (le_of_lt hlt)
  · exact iff_of_true nofun (le_of_eq heq)
  · exact iff_of_false (fun h => h rfl) (fun h => (lt_or_eq_of_le h).elim hlt heq)

theorem sorted_block (x : HashEntry n) (h : x ∈ qsort.sort (gathered bm)) :
    x.hash.chars = hashText bm x.block :=
  (entry_of_block bm _ x
    (block_of_gathered bm x ((qsort.perm (gathered bm)).mem_iff.mp h))).2.1

theorem order_sorted :
    (blockOrder bm qsort).Pairwise (fun a b => hashText bm a ≤ hashText bm b) := by
  refine List.pairwise_map.mpr ((qsort.sorted (gathered bm)).imp_of_mem ?_)
  intro x y hx hy hxy
  rw [← sorted_block bm qsort x hx, ← sorted_block bm qsort y hy]
  exact (compare_gt x y).mp hxy

end Order

structure MarkedEntry (links : Fin n → Fin n → Prop) (b : Fin n) (e e' : BlockmapEntry) :
    Prop where
  exemplar : e'.isExemplar = true ↔ e.isExemplar = true ∨ ∃ c, links b c
  duplicate : e'.isDuplicate = true ↔ e.isDuplicate = true ∨ ∃ a, links a b
  named : ∀ a, links a b → e'.exemplarBlock = a
  kept : (∀ a, ¬ links a b) → e'.exemplarBlock = e.exemplarBlock
  covered : e'.covered = e.covered
  zero : e'.isZero = e.isZero
  reserved : e'.reservationCount = e.reservationCount
  hash : e'.hash = e.hash
  computed : e'.hashComputed = e.hashComputed

theorem marked_none (links : Fin n → Fin n → Prop) (hl : ∀ a b, ¬ links a b) (b : Fin n)
    (e : BlockmapEntry) : MarkedEntry links b e e where
  exemplar := by simp [hl]
  duplicate := by simp [hl]
  named := fun a h => absurd h (hl a b)
  kept := fun _ => rfl
  covered := rfl
  zero := rfl
  reserved := rfl
  hash := rfl
  computed := rfl

theorem markDuplicate_get (bm : Blockmap n) (exemplar duplicate : Fin n)
    (hne : exemplar ≠ duplicate) (b : Fin n) :
    (markDuplicate bm exemplar duplicate).shadow.get b =
      if b = exemplar then { bm.shadow.get b with isExemplar := true }
      else if b = duplicate then
        { bm.shadow.get b with isDuplicate := true, exemplarBlock := exemplar }
      else bm.shadow.get b := by
  simp only [markDuplicate, setEntry_get]
  by_cases h1 : b = exemplar
  · subst h1
    rw [if_neg hne.symm, if_pos rfl, if_pos rfl]
  · rw [if_neg h1, if_neg (Ne.symm h1)]
    by_cases h2 : b = duplicate
    · rw [if_pos h2.symm, if_pos h2]
    · rw [if_neg (Ne.symm h2), if_neg h2]

section Marks
variable (key : Fin n → Text)

theorem marked_skip (c d b : Fin n) (rest : List (Fin n)) (e e' : BlockmapEntry)
    (hkey : key d ≠ key c) (h : MarkedEntry (Follows key (d::rest)) b e e') :
    MarkedEntry (Follows key (c::d::rest)) b e e' := by
  have hlinks : Follows key (c::d::rest) = Follows key (d::rest) := by
    funext x y
    rw [follows_cons]
    exact propext (or_iff_right (fun h => hkey h.2.2))
  rwa [hlinks]

theorem follows_equal (c d x y : Fin n) (rest : List (Fin n)) (hkey : key d = key c) :
    Follows key (c::d::rest) x y ↔ x = c ∧ y = d ∨ Follows key (d::rest) x y := by
  rw [follows_cons]
  simp [hkey]

section Pair
variable (c d b : Fin n) (rest : List (Fin n)) (hkey : key d = key c) (e e' : BlockmapEntry)
include hkey

theorem marked_exemplar (hl : (c::d::rest).Nodup)
    (h : MarkedEntry (Follows key (d::rest)) c { e with isExemplar := true } e') :
    MarkedEntry (Follows key (c::d::rest)) c e e' where
  exemplar := by
    rw [h.exemplar]
    exact iff_of_true (Or.inl rfl) (Or.inr ⟨d, .head c d rest hkey⟩)
  duplicate := by
    have hcd : c ≠ d := fun hcd => (List.nodup_cons.mp hl).1 (hcd ▸ List.mem_cons_self)
    rw [h.duplicate]
    simp only [follows_equal key c d _ _ rest hkey, hcd, and_false, false_or]
  named := fun a ha => absurd ha (follows_head key c (d::rest) hl a)
  kept := fun _ => h.kept fun a ha => (List.nodup_cons.mp hl).1 (follows_right key _ a c ha)
  covered := h.covered
  zero := h.zero
  reserved := h.reserved
  hash := h.hash
  computed := h.computed

theorem marked_duplicate (hl : (c::d::rest).Nodup)
    (h : MarkedEntry (Follows key (d::rest)) d
      { e with isDuplicate := true, exemplarBlock := c } e') :
    MarkedEntry (Follows key (c::d::rest)) d e e' where
  exemplar := by
    have hdc : d ≠ c := fun hdc => (List.nodup_cons.mp hl).1 (hdc ▸ List.mem_cons_self)
    rw [h.exemplar]
    simp only [follows_equal key c d _ _ rest hkey, hdc, false_and, false_or]
  duplicate := by
    rw [h.duplicate]
    exact iff_of_true (Or.inl rfl) (Or.inr ⟨c, .head c d rest hkey⟩)
  named := fun a ha => by
    have hhead := follows_head key d rest hl.of_cons
    rcases (follows_equal key c d a d rest hkey).mp ha with ⟨rfl, _⟩ | ha
    · exact h.kept hhead
    · exact absurd ha (hhead a)
  kept := fun hno => absurd (.head c d rest hkey) (hno c)
  covered := h.covered
  zero := h.zero
  reserved := h.reserved
  hash := h.hash
  computed := h.computed

theorem marked_other (hbc : b ≠ c) (hbd : b ≠ d)
    (h : MarkedEntry (Follows key (d::rest)) b e e') :
    MarkedEntry (Follows key (c::d::rest)) b e e' where
  exemplar := by
    rw [h.exemplar]
    simp only [follows_equal key c d _ _ rest hkey, hbc, false_and, false_or]
  duplicate := by
    rw [h.duplicate]
    simp only [follows_equal key c d _ _ rest hkey, hbd, and_false, false_or]
  named := fun a ha =>
    h.named a (((follows_equal key c d a b rest hkey).mp ha).resolve_left fun h => hbd h.2)
  kept := fun hno => h.kept fun a ha => hno a (.tail c _ a b ha)
  covered := h.covered
  zero := h.zero
  reserved := h.reserved
  hash := h.hash
  computed := h.computed

theorem marked_cons (hl : (c::d::rest).Nodup)
    (h : MarkedEntry (Follows key (d::rest)) b
      (if b = c then { e with isExemplar := true }
        else if b = d then { e with isDuplicate := true, exemplarBlock := c } else e) e') :
    MarkedEntry (Follows key (c::d::rest)) b e e' := by
  by_cases hbc : b = c
  · subst hbc
    rw [if_pos rfl] at h
    exact marked_exemplar key b d rest hkey e e' hl h
  · by_cases hbd : b = d
    · subst hbd
      rw [if_neg hbc, if_pos rfl] at h
      exact marked_duplicate key c b rest hkey e e' hl h
    · rw [if_neg hbc, if_neg hbd] at h
      exact marked_other key c d b rest hkey e e' hbc hbd h

end Pair

theorem markNeighbours_spec (entries : List (HashEntry n)) (bm : Blockmap n)
    (hkey : ∀ x ∈ entries, x.hash.chars = key x.block)
    (hl : (entries.map HashEntry.block).Nodup) (b : Fin n) :
    MarkedEntry (Follows key (entries.map HashEntry.block)) b (bm.shadow.get b)
      ((markNeighbours entries bm).shadow.get b) := by
  induction entries generalizing bm with
  | nil => exact marked_none _ (follows_nil key) b _
  | cons previous entries ih =>
    cases entries with
    | nil => exact marked_none _ (fun x y => follows_single key x y previous.block) b _
    | cons entry rest =>
      have hrest := fun bm' => ih bm' (fun x hx => hkey x (List.mem_cons_of_mem _ hx)) hl.of_cons
      have hcompare : compareHashes entry previous = .eq ↔
          key entry.block = key previous.block := by
        rw [compare_eq, hkey entry (by simp), hkey previous (by simp)]
      rw [markNeighbours]
      split_ifs with h
      · have hne : previous.block ≠ entry.block :=
          fun h => (List.nodup_cons.mp hl).1 (h ▸ List.mem_cons_self)
        have hmarks := hrest (markDuplicate bm previous.block entry.block)
        rw [markDuplicate_get bm _ _ hne b] at hmarks
        exact marked_cons key _ _ b _ (hcompare.mp h) _ _ hl hmarks
      · exact marked_skip key _ _ b _ _ _ (fun he => h (hcompare.mpr he)) (hrest bm)

end Marks

/-- A pass that succeeds marks the shadow entries and publishes them. -/
theorem findDuplicates_spec (bm bm' : Blockmap n) (malloc : Bool) (qsort : Qsort n)
    (h : blockmapFindDuplicates bm malloc qsort = .ok bm') :
    bm'.shadow = bm'.primary ∧
      ∀ b, MarkedEntry (Links bm qsort) b (bm.shadow.get b) (bm'.primary.get b) := by
  cases malloc with
  | false => contradiction
  | true =>
    cases h
    exact ⟨rfl, markNeighbours_spec (hashText bm) _ bm (sorted_block bm qsort)
      (order_nodup bm qsort)⟩

/-- Some pass is always possible when the entries can be allocated. -/
theorem findDuplicates_returns (bm : Blockmap n) (qsort : Qsort n) :
    ∃ bm', blockmapFindDuplicates bm true qsort = .ok bm' := ⟨_, rfl⟩

section Linked
variable (bm : Blockmap n) (qsort : Qsort n)

theorem links_eligible (a b : Fin n) (h : Links bm qsort a b) :
    Eligible bm a ∧ Eligible bm b ∧ a ≠ b ∧ hashText bm b = hashText bm a :=
  ⟨(order_mem bm qsort a).mp (follows_left _ _ a b h),
    (order_mem bm qsort b).mp (follows_right _ _ a b h),
    follows_ne _ _ a b h (order_nodup bm qsort), follows_key _ _ a b h⟩

theorem links_right_unique (a b c : Fin n) (hb : Links bm qsort a b) (hc : Links bm qsort a c) :
    b = c :=
  follows_right_unique _ _ a b c (order_nodup bm qsort) hb hc

/-- Every block with a hash is reached by links from one that is not linked to. -/
theorem links_root (b : Fin n) (hb : Eligible bm b) :
    ∃ root, Eligible bm root ∧ (∀ a, ¬ Links bm qsort a root) ∧
      hashText bm b = hashText bm root ∧ Relation.ReflTransGen (Links bm qsort) root b := by
  obtain ⟨root, ⟨hroot, hfirst⟩, hreach⟩ :=
    leader_reaches (hashText bm) _ (order_nodup bm qsort) b ((order_mem bm qsort b).mpr hb)
  exact ⟨root, (order_mem bm qsort root).mp hroot, hfirst, reaches_key _ _ root b hreach, hreach⟩

theorem links_root_unique (a b : Fin n) (ha : Eligible bm a) (hb : Eligible bm b)
    (hkey : hashText bm a = hashText bm b) (hfa : ∀ c, ¬ Links bm qsort c a)
    (hfb : ∀ c, ¬ Links bm qsort c b) : a = b :=
  leader_unique (hashText bm) _ (order_nodup bm qsort) (order_sorted bm qsort) a b
    ⟨(order_mem bm qsort a).mpr ha, hfa⟩ ⟨(order_mem bm qsort b).mpr hb, hfb⟩ hkey

end Linked

section Ranks
variable (rank : Fin n → ℕ)

/-- The order by hash, and by rank among the entries of one hash. -/
def RankBefore (a b : HashEntry n) : Prop :=
  compareHashes a b = .lt ∨ compareHashes a b = .eq ∧ rank a.block ≤ rank b.block

instance : DecidableRel (RankBefore rank) :=
  fun _ _ => inferInstanceAs (Decidable (_ ∨ _ ∧ _))

theorem rankBefore_iff (a b : HashEntry n) : RankBefore rank a b ↔
    toLex (a.hash.chars, rank a.block) ≤ toLex (b.hash.chars, rank b.block) := by
  rw [RankBefore, compare_lt, compare_eq, Prod.Lex.toLex_le_toLex]

instance : Std.Total (RankBefore rank) where
  total a b := by
    rw [rankBefore_iff, rankBefore_iff]
    exact le_total _ _

instance : IsTrans (HashEntry n) (RankBefore rank) where
  trans a b c hab hbc := by
    rw [rankBefore_iff] at hab hbc ⊢
    exact le_trans hab hbc

def rankSort : Qsort n where
  sort := List.insertionSort (RankBefore rank)
  perm := List.perm_insertionSort (RankBefore rank)
  sorted := fun entries => (List.pairwise_insertionSort (RankBefore rank) entries).imp
    (fun {a b} h => (compare_gt a b).mpr (by
      rw [RankBefore, compare_lt, compare_eq] at h
      exact h.elim le_of_lt (fun h => le_of_eq h.1)))

/-- A link of this sort does not lower the rank. -/
theorem rank_links (bm : Blockmap n) (a b : Fin n) (h : Links bm (rankSort rank) a b) :
    rank a ≤ rank b := by
  have hpairs : (blockOrder bm (rankSort rank)).Pairwise
      (fun a b => hashText bm a = hashText bm b → rank a ≤ rank b) := by
    refine List.pairwise_map.mpr
      ((List.pairwise_insertionSort (RankBefore rank) (gathered bm)).imp_of_mem ?_)
    intro x y hx hy hxy hkey
    rw [← sorted_block bm (rankSort rank) x hx, ← sorted_block bm (rankSort rank) y hy] at hkey
    rw [RankBefore, compare_lt] at hxy
    exact hxy.elim (fun hlt => absurd (hkey ▸ hlt) (lt_irrefl _)) (fun h => h.2)
  exact follows_pairwise _ _ _ a b h hpairs (follows_key _ _ a b h).symm

end Ranks

end EraseCure.BlockmapPasses
