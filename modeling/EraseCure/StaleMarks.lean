import EraseCure.BlockmapPasses

/-!
# Marks that are no longer true

A pass compares the primary hashes, marks the shadow entries and keeps the
marks of earlier passes. What it publishes is true when no pending update
contradicts the primary hashes and no earlier mark has become wrong.
-/

set_option autoImplicit false

namespace EraseCure.StaleMarks
open EraseCure.CText EraseCure.Hashing EraseCure.FileMirrors EraseCure.Blockmaps
open EraseCure.BlockmapWorkers EraseCure.BlockmapPasses

variable {n : ℕ}

/-- Every published duplicate has a hash, is not zero and has the hash of its
exemplar. -/
def MarksFresh (bm : Blockmap n) : Prop :=
  ∀ b, (bm.primary.get b).isDuplicate = true →
    (bm.primary.get b).isZero = false ∧ (bm.primary.get b).hashComputed = true ∧
      ∃ e : Fin n, (bm.primary.get b).exemplarBlock = e ∧
        (bm.primary.get e).hash = (bm.primary.get b).hash

/-- No pending update separates blocks of one primary hash or makes one of them
zero, and what earlier passes marked still is as it was marked. -/
structure Current (bm : Blockmap n) : Prop where
  pending : ∀ a b, a ≠ b → Eligible bm a → Eligible bm b → hashText bm a = hashText bm b →
    (bm.shadow.get a).isZero = false ∧ (bm.shadow.get a).hash = (bm.shadow.get b).hash
  marks : ∀ b, (bm.shadow.get b).isDuplicate = true → (bm.shadow.get b).isZero = false ∧
    ∀ e : Fin n, (bm.shadow.get b).exemplarBlock = e →
      (bm.shadow.get e).hash = (bm.shadow.get b).hash

/-- What holds in every run: a hash is never unset, and duplicates have one. -/
structure Recorded (bm : Blockmap n) : Prop where
  computed : ∀ b, (bm.primary.get b).hashComputed = true → (bm.shadow.get b).hashComputed = true
  marked : ∀ b, (bm.shadow.get b).isDuplicate = true →
    (bm.shadow.get b).hashComputed = true ∧ (bm.shadow.get b).exemplarBlock < n

/-- Duplicates are marked by passes only. -/
def ByPasses : BlockmapCall n → Prop
  | .setDuplicate _ _ => False
  | _ => True

section Invariant
variable (bm : Blockmap n)

/-- An update of one shadow entry that keeps its hash and its marks. -/
theorem update_recorded (block : ℕ) (f : BlockmapEntry → BlockmapEntry)
    (hcomputed : ∀ e, e.hashComputed = true → (f e).hashComputed = true)
    (hduplicate : ∀ e, (f e).isDuplicate = e.isDuplicate)
    (hexemplar : ∀ e, (f e).exemplarBlock = e.exemplarBlock) (h : Recorded bm) :
    Recorded (performed bm (updateShadow bm block f)) := by
  rw [updateShadow]
  split_ifs with hb
  · constructor
    · intro b hp
      have hs := h.computed b hp
      simp only [performed, setEntry_get]
      split_ifs
      · exact hcomputed _ hs
      · exact hs
    · intro b hm
      simp only [performed, setEntry_get] at hm ⊢
      split_ifs at hm ⊢
      · rw [hduplicate] at hm
        obtain ⟨h1, h2⟩ := h.marked b hm
        exact ⟨hcomputed _ h1, by rwa [hexemplar]⟩
      · exact h.marked b hm
  · exact h

theorem merge_recorded (h : Recorded bm) : Recorded (blockmapMergeShadow bm) :=
  ⟨fun _ hb => hb, h.marked⟩

theorem hash_recorded (block : ℕ) (hashHex : Option Text) (h : Recorded bm) :
    Recorded (performed bm (blockmapShadowSetHash bm block hashHex)) := by
  cases hashHex with
  | none => exact h
  | some hex => exact update_recorded bm block _ (fun _ _ => rfl) (fun _ => rfl) (fun _ => rfl) h

theorem zero_recorded (block : ℕ) (isZero : Bool) (h : Recorded bm) :
    Recorded (performed bm (blockmapShadowSetZero bm block isZero)) :=
  update_recorded bm block _ (fun _ hc => hc) (fun _ => rfl) (fun _ => rfl) h

theorem hashes_recorded (io : HashIo) (fm : FileMirror) (blocks : List ℕ) (digest : Digest)
    (h : Recorded bm) : Recorded (blocks.foldl (hashStep io fm) (bm, digest)).1 := by
  induction blocks generalizing bm digest with
  | nil => exact h
  | cons i blocks ih =>
    rw [List.foldl_cons, hashStep]
    cases hashBlock io fm i digest with
    | none => exact ih bm digest h
    | some found =>
      exact ih _ _ (zero_recorded _ i _ (hash_recorded bm i _ h))

theorem find_recorded (bm' : Blockmap n) (malloc : Bool) (qsort : Qsort n) (h : Recorded bm)
    (hfind : blockmapFindDuplicates bm malloc qsort = .ok bm') : Recorded bm' := by
  obtain ⟨hshadow, hspec⟩ := findDuplicates_spec bm bm' malloc qsort hfind
  constructor
  · intro b hb
    rwa [hshadow]
  · intro b hb
    rw [hshadow] at hb ⊢
    have hmarked := hspec b
    by_cases hl : ∃ a, Links bm qsort a b
    · obtain ⟨a, ha⟩ := hl
      rw [hmarked.computed, hmarked.named a ha]
      exact ⟨h.computed b (links_eligible bm qsort a b ha).2.1.1, a.isLt⟩
    · rw [hmarked.computed, hmarked.kept (not_exists.mp hl)]
      exact h.marked b ((hmarked.duplicate.mp hb).resolve_right hl)

theorem call_recorded (call : BlockmapCall n) (hcall : ByPasses call) (h : Recorded bm) :
    Recorded (performed bm (wholeCall bm call)) := by
  cases call with
  | setDuplicate block exemplar => exact hcall.elim
  | reserve block | setCovered block covered =>
    exact update_recorded bm block _ (fun _ hc => hc) (fun _ => rfl) (fun _ => rfl) h
  | release block =>
    refine update_recorded bm block _ (fun e hc => ?_) (fun e => ?_) (fun e => ?_) h
    · split_ifs <;> exact hc
    · split_ifs <;> rfl
    · split_ifs <;> rfl
  | setHash block hashHex => exact hash_recorded bm block hashHex h
  | setZero block isZero => exact zero_recorded bm block isZero h
  | mergeShadow => exact merge_recorded bm h
  | computeHashes io fm =>
    rw [wholeCall, blockmapComputeHashes]
    split_ifs
    · exact merge_recorded _ (hashes_recorded bm io fm _ io.stack h)
    · exact h
  | findDuplicates malloc qsort =>
    rw [wholeCall]
    cases hfind : blockmapFindDuplicates bm malloc qsort with
    | error e => exact h
    | ok bm' => exact find_recorded bm bm' malloc qsort h hfind

theorem calls_recorded (calls : List (BlockmapCall n)) (hcalls : ∀ call ∈ calls, ByPasses call)
    (h : Recorded bm) : Recorded (wholeCalls bm calls) := by
  induction calls generalizing bm with
  | nil => exact h
  | cons call calls ih =>
    exact ih _ (fun c hc => hcalls c (List.mem_cons_of_mem call hc))
      (call_recorded bm call (hcalls call List.mem_cons_self) h)

theorem created_recorded (callocPrimary callocShadow : Bool)
    (h : blockmapCreate n callocPrimary callocShadow = .ok bm) : Recorded bm := by
  rw [blockmapCreate] at h
  split_ifs at h
  cases h
  have hzero : ∀ b : Fin n, (Vector.replicate n BlockmapEntry.zero).get b = .zero :=
    fun b => Vector.getElem_replicate b.isLt
  constructor
  · intro b hb
    exact hb
  · intro b hb
    rw [hzero] at hb
    contradiction

end Invariant

section Passes
variable (bm : Blockmap n)

theorem current_fresh (hbm : Recorded bm) (h : Current bm) (bm' : Blockmap n) (malloc : Bool)
    (qsort : Qsort n) (hfind : blockmapFindDuplicates bm malloc qsort = .ok bm') :
    MarksFresh bm' := by
  obtain ⟨_, hspec⟩ := findDuplicates_spec bm bm' malloc qsort hfind
  intro b hb
  by_cases hl : ∃ a, Links bm qsort a b
  · obtain ⟨a, ha⟩ := hl
    obtain ⟨hea, heb, hne, hkey⟩ := links_eligible bm qsort a b ha
    obtain ⟨hzero, hsame⟩ := h.pending b a hne.symm heb hea hkey
    refine ⟨(hspec b).zero.trans hzero, (hspec b).computed.trans (hbm.computed b heb.1), a,
      (hspec b).named a ha, ?_⟩
    rw [(hspec a).hash, (hspec b).hash, hsame]
  · have hold := ((hspec b).duplicate.mp hb).resolve_right hl
    obtain ⟨hcomputed, hlt⟩ := hbm.marked b hold
    obtain ⟨hzero, hsame⟩ := h.marks b hold
    refine ⟨(hspec b).zero.trans hzero, (hspec b).computed.trans hcomputed,
      ⟨_, hlt⟩, (hspec b).kept (not_exists.mp hl), ?_⟩
    rw [(hspec _).hash, (hspec b).hash]
    exact hsame ⟨_, hlt⟩ rfl

theorem adjacent_links (a b : Fin n) (hne : a ≠ b) (ha : Eligible bm a) (hb : Eligible bm b)
    (hkey : hashText bm a = hashText bm b) :
    Links bm (rankSort (fun x => if x = a then 0 else if x = b then 1 else 2)) a b := by
  have hrank := rank_links (fun x => if x = a then 0 else if x = b then 1 else 2) bm
  generalize hq : rankSort (fun x => if x = a then 0 else if x = b then 1 else 2) = qsort at hrank ⊢
  have hfirst : ∀ p, ¬ Links bm qsort p a := by
    intro p hp
    have hle := hrank p a hp
    rw [if_pos rfl, Nat.le_zero, ite_eq_left_iff] at hle
    by_cases hpa : p = a
    · exact (links_eligible bm qsort p a hp).2.2.1 hpa
    · have h0 := hle hpa
      split_ifs at h0
  have hlinked : ¬ ∀ p, ¬ Links bm qsort p b :=
    fun hno => hne (links_root_unique bm qsort a b ha hb hkey hfirst hno)
  obtain ⟨p, hp⟩ := not_forall_not.mp hlinked
  have hle := hrank p b hp
  rw [if_neg hne.symm, if_pos rfl] at hle
  have hpb := (links_eligible bm qsort p b hp).2.2.1
  by_cases hpa : p = a
  · exact hpa ▸ hp
  · rw [if_neg hpa, if_neg hpb] at hle
    omega

theorem first_unlinked (b p : Fin n) :
    ¬ Links bm (rankSort (fun x => if x = b then 0 else 1)) p b := by
  intro hp
  have hle := rank_links _ bm p b hp
  have hpb := (links_eligible bm _ p b hp).2.2.1
  rw [if_neg hpb, if_pos rfl] at hle
  omega

/-- Where the marks are true for every order of equal hashes, they were current. -/
theorem fresh_current (h : ∀ qsort bm', blockmapFindDuplicates bm true qsort = .ok bm' →
    MarksFresh bm') : Current bm := by
  constructor
  · intro a b hne ha hb hkey
    have hl := adjacent_links bm b a hne.symm hb ha hkey.symm
    generalize rankSort (fun x => if x = b then 0 else if x = a then 1 else 2) = qsort at hl
    obtain ⟨bm', hfind⟩ := findDuplicates_returns bm qsort
    obtain ⟨_, hspec⟩ := findDuplicates_spec bm bm' true qsort hfind
    obtain ⟨hzero, _, e, he, hsame⟩ :=
      h qsort bm' hfind a ((hspec a).duplicate.mpr (Or.inr ⟨b, hl⟩))
    have heb : e = b := Fin.ext (he.symm.trans ((hspec a).named b hl))
    rw [(hspec e).hash, (hspec a).hash, heb] at hsame
    exact ⟨(hspec a).zero.symm.trans hzero, hsame.symm⟩
  · intro b hb
    have hl := first_unlinked bm b
    generalize rankSort (fun x => if x = b then 0 else 1) = qsort at hl
    obtain ⟨bm', hfind⟩ := findDuplicates_returns bm qsort
    obtain ⟨_, hspec⟩ := findDuplicates_spec bm bm' true qsort hfind
    obtain ⟨hzero, _, e, he, hsame⟩ := h qsort bm' hfind b ((hspec b).duplicate.mpr (Or.inl hb))
    refine ⟨(hspec b).zero.symm.trans hzero, fun e' he' => ?_⟩
    have heq : e = e' := Fin.ext (he.symm.trans (((hspec b).kept hl).trans he'))
    rwa [(hspec e).hash, (hspec b).hash, heq] at hsame

end Passes

/-- In a run whose passes start with current marks, every pass publishes marks
that are true; and where a pass does so for every order of equal hashes, the
marks were current. -/
theorem marks_fresh_runs (callocPrimary callocShadow : Bool) (bm : Blockmap n)
    (hbm : blockmapCreate n callocPrimary callocShadow = .ok bm) (calls : List (BlockmapCall n))
    (hcalls : ∀ call ∈ calls, ByPasses call) :
    ((∀ before qsort after, calls = before++.findDuplicates true qsort::after →
        Current (wholeCalls bm before)) →
      ∀ before malloc qsort after bm', calls = before++.findDuplicates malloc qsort::after →
        blockmapFindDuplicates (wholeCalls bm before) malloc qsort = .ok bm' → MarksFresh bm') ∧
    ((∀ qsort bm', blockmapFindDuplicates (wholeCalls bm calls) true qsort = .ok bm' →
      MarksFresh bm') ↔ Current (wholeCalls bm calls)) := by
  have hrecorded : ∀ before : List (BlockmapCall n), (∀ call ∈ before, ByPasses call) →
      Recorded (wholeCalls bm before) :=
    fun before hb => calls_recorded bm before hb (created_recorded bm _ _ hbm)
  refine ⟨?_, fresh_current (wholeCalls bm calls), fun h qsort bm' hfind =>
    current_fresh _ (hrecorded calls hcalls) h bm' true qsort hfind⟩
  intro hcurrent before malloc qsort after bm' hsplit hfind
  have hbefore : ∀ call ∈ before, ByPasses call := fun call hc =>
    hcalls call (hsplit ▸ List.mem_append_left _ hc)
  cases malloc with
  | false => contradiction
  | true =>
    exact current_fresh _ (hrecorded before hbefore) (hcurrent before qsort after hsplit) bm' true
      qsort hfind

def emptyMap : Blockmap 2 := ⟨Vector.replicate 2 .zero, Vector.replicate 2 .zero⟩

def pairCalls : List (BlockmapCall 2) :=
  [.setHash 0 (some "a".toList), .setHash 1 (some "a".toList), .mergeShadow]

theorem marks_fresh_runs_pair : ∃ bm',
    blockmapFindDuplicates (wholeCalls emptyMap pairCalls) true (rankSort Fin.val) = .ok bm' ∧
      MarksFresh bm' := by
  have hruns := marks_fresh_runs true true emptyMap rfl pairCalls
    (by simp [pairCalls, ByPasses])
  exact ⟨_, rfl, hruns.2.mpr ⟨by decide, by decide⟩ _ _ rfl⟩

/-- After a pass one of the two gets another hash. -/
def staleCalls : List (BlockmapCall 2) :=
  pairCalls++[.findDuplicates true (rankSort Fin.val), .setHash 1 (some "b".toList), .mergeShadow]

/-- The second pass publishes the mark of the first one again. -/
theorem stale_mark : blockmapCreate 2 true true = .ok emptyMap ∧
    (∀ call ∈ staleCalls, ByPasses call) ∧ ∃ bm',
      blockmapFindDuplicates (wholeCalls emptyMap staleCalls) true (rankSort Fin.val) = .ok bm' ∧
        ¬ MarksFresh bm' := by
  refine ⟨rfl, by simp [staleCalls, pairCalls, ByPasses], _, rfl, fun h => ?_⟩
  obtain ⟨_, _, hexemplar⟩ := h 1 (by decide)
  exact absurd hexemplar (by decide)

end EraseCure.StaleMarks
