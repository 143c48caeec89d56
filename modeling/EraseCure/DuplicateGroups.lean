import EraseCure.BlockmapPasses

/-!
# The groups of duplicate blocks

A pass over a map without marks links every block of a hash but one to another
block of that hash. A block in the middle of a chain of three is an exemplar and
a duplicate at once.
-/

set_option autoImplicit false

namespace EraseCure.DuplicateGroups
open EraseCure.CText EraseCure.Blockmaps EraseCure.BlockmapPasses

variable {n : ℕ}

/-- No block carries a mark of an earlier pass. -/
def Unmarked (bm : Blockmap n) : Prop :=
  ∀ b, (bm.primary.get b).isDuplicate = false ∧ (bm.primary.get b).isExemplar = false

instance (bm : Blockmap n) : Decidable (Unmarked bm) := inferInstanceAs (Decidable (∀ _, _ ∧ _))

/-- Non-zero blocks that share a computed hash. -/
def Group (bm : Blockmap n) (blocks : Finset (Fin n)) : Prop :=
  (∀ b ∈ blocks, Eligible bm b) ∧ ∀ a ∈ blocks, ∀ b ∈ blocks, hashText bm a = hashText bm b

/-- One block of a set is the exemplar, and the others are its duplicates. -/
def OneExemplar (bm : Blockmap n) (blocks : Finset (Fin n)) : Prop :=
  ∃ e ∈ blocks, (∀ b ∈ blocks, (bm.primary.get b).isExemplar = true ↔ b = e) ∧
    (bm.primary.get e).isDuplicate = false ∧
    ∀ b ∈ blocks, b ≠ e →
      (bm.primary.get b).isDuplicate = true ∧ (bm.primary.get b).exemplarBlock = e

/-- No hash belongs to three blocks. -/
def PairsOnly (bm : Blockmap n) : Prop :=
  ∀ a b c, Eligible bm a → Eligible bm b → Eligible bm c →
    hashText bm a = hashText bm b → hashText bm b = hashText bm c → a = b ∨ b = c ∨ a = c

instance (bm : Blockmap n) : Decidable (PairsOnly bm) :=
  inferInstanceAs (Decidable (∀ _ _ _, _ → _ → _ → _ → _ → _))

section Pass
variable (bm bm' : Blockmap n) (malloc : Bool) (qsort : Qsort n)

/-- On a map without duplicates the pass marks what is linked to. -/
theorem duplicate_iff (hmarks : ∀ b, (bm.primary.get b).isDuplicate = false)
    (hshadow : bm.shadow = bm.primary) (h : blockmapFindDuplicates bm malloc qsort = .ok bm')
    (b : Fin n) : (bm'.primary.get b).isDuplicate = true ↔ ∃ a, Links bm qsort a b := by
  rw [((findDuplicates_spec bm bm' malloc qsort h).2 b).duplicate, hshadow, hmarks b]
  simp

theorem unlinked (hmarks : ∀ b, (bm.primary.get b).isDuplicate = false)
    (hshadow : bm.shadow = bm.primary) (h : blockmapFindDuplicates bm malloc qsort = .ok bm')
    (b : Fin n) : (bm'.primary.get b).isDuplicate = false ↔ ∀ a, ¬ Links bm qsort a b := by
  rw [← Bool.not_eq_true, duplicate_iff bm bm' malloc qsort hmarks hshadow h b, not_exists]

theorem exemplar_iff (hmarks : Unmarked bm) (hshadow : bm.shadow = bm.primary)
    (h : blockmapFindDuplicates bm malloc qsort = .ok bm') (b : Fin n) :
    (bm'.primary.get b).isExemplar = true ↔ ∃ c, Links bm qsort b c := by
  rw [((findDuplicates_spec bm bm' malloc qsort h).2 b).exemplar, hshadow, (hmarks b).2]
  simp

theorem linked_exemplar (h : blockmapFindDuplicates bm malloc qsort = .ok bm') (a b : Fin n)
    (hl : Links bm qsort a b) : (bm'.primary.get b).exemplarBlock = a :=
  ((findDuplicates_spec bm bm' malloc qsort h).2 b).named a hl

theorem named_link (hmarks : ∀ b, (bm.primary.get b).isDuplicate = false)
    (hshadow : bm.shadow = bm.primary) (h : blockmapFindDuplicates bm malloc qsort = .ok bm')
    (e b : Fin n) (hd : (bm'.primary.get b).isDuplicate = true)
    (he : (bm'.primary.get b).exemplarBlock = e) : Links bm qsort e b := by
  obtain ⟨a, ha⟩ := (duplicate_iff bm bm' malloc qsort hmarks hshadow h b).mp hd
  have hae : a = e := Fin.ext ((linked_exemplar bm bm' malloc qsort h a b ha).symm.trans he)
  exact hae ▸ ha

theorem two_others (a b c e : Fin n) (hab : a ≠ b) (hbc : b ≠ c) (hac : a ≠ c) :
    ∃ x ∈ ({a, b, c} : Finset (Fin n)), ∃ y ∈ ({a, b, c} : Finset (Fin n)),
      x ≠ y ∧ x ≠ e ∧ y ≠ e := by
  by_cases ha : a = e
  · exact ⟨b, by simp, c, by simp, hbc, fun h => hab (ha.trans h.symm),
      fun h => hac (ha.trans h.symm)⟩
  · by_cases hb : b = e
    · exact ⟨a, by simp, c, by simp, hac, ha, fun h => hbc (hb.trans h.symm)⟩
    · exact ⟨a, by simp, b, by simp, hab, ha, hb⟩

/-- Where every set has one exemplar, a block links to one other at most. -/
theorem exemplars_pairs (hmarks : Unmarked bm) (hshadow : bm.shadow = bm.primary)
    (h : blockmapFindDuplicates bm malloc qsort = .ok bm')
    (hone : ∀ blocks : Finset (Fin n), 2 ≤ blocks.card → Group bm blocks → OneExemplar bm' blocks) :
    PairsOnly bm := by
  intro a b c ha hb hc hab hbc
  by_contra hne
  push Not at hne
  obtain ⟨hne1, hne2, hne3⟩ := hne
  have hgroup : Group bm {a, b, c} := by
    simp only [Group, Finset.mem_insert, Finset.mem_singleton, forall_eq_or_imp, forall_eq]
    exact ⟨⟨ha, hb, hc⟩, ⟨trivial, hab, hab.trans hbc⟩, ⟨hab.symm, trivial, hbc⟩,
      ⟨(hab.trans hbc).symm, hbc.symm, trivial⟩⟩
  have hcard : 2 ≤ ({a, b, c} : Finset (Fin n)).card := by
    rw [Finset.card_eq_three.mpr ⟨a, b, c, hne1, hne3, hne2, rfl⟩]
    decide
  obtain ⟨e, _, _, _, hothers⟩ := hone _ hcard hgroup
  obtain ⟨x, hx, y, hy, hxy, hxe, hye⟩ := two_others a b c e hne1 hne2 hne3
  have hduplicate := fun b => (hmarks b).1
  have hlx := named_link bm bm' malloc qsort hduplicate hshadow h e x (hothers x hx hxe).1
    (hothers x hx hxe).2
  have hly := named_link bm bm' malloc qsort hduplicate hshadow h e y (hothers y hy hye).1
    (hothers y hy hye).2
  exact hxy (links_right_unique bm qsort e x y hlx hly)

theorem pairs_exemplars (hmarks : Unmarked bm) (hshadow : bm.shadow = bm.primary)
    (h : blockmapFindDuplicates bm malloc qsort = .ok bm') (hpairs : PairsOnly bm)
    (blocks : Finset (Fin n)) (hcard : 2 ≤ blocks.card) (hgroup : Group bm blocks) :
    OneExemplar bm' blocks := by
  have hduplicate := fun b => (hmarks b).1
  obtain ⟨x, hx, y, hy, hxy⟩ := Finset.one_lt_card.mp hcard
  obtain ⟨root, hroot, hfirst, hkey, _⟩ := links_root bm qsort x (hgroup.1 x hx)
  have hshare : ∀ b ∈ blocks, hashText bm b = hashText bm root :=
    fun b hb => (hgroup.2 b hb x hx).trans hkey
  have hmem : root ∈ blocks := by
    rcases hpairs x y root (hgroup.1 x hx) (hgroup.1 y hy) hroot (hgroup.2 x hx y hy)
      (hshare y hy) with heq | heq | heq
    · exact absurd heq hxy
    · exact heq ▸ hy
    · exact heq ▸ hx
  -- every other block of the set is linked to by the root
  have hlink : ∀ b ∈ blocks, b ≠ root → Links bm qsort root b := by
    intro b hb hne
    have hnot : ¬ ∀ a, ¬ Links bm qsort a b := fun hno =>
      hne (links_root_unique bm qsort b root (hgroup.1 b hb) hroot (hshare b hb) hno hfirst)
    obtain ⟨a, ha⟩ := not_forall_not.mp hnot
    obtain ⟨hea, heb, hab, hk⟩ := links_eligible bm qsort a b ha
    rcases hpairs a b root hea heb hroot hk.symm (hshare b hb) with heq | heq | heq
    · exact absurd heq hab
    · exact absurd heq hne
    · exact heq ▸ ha
  refine ⟨root, hmem, fun b hb => ?_, ?_, fun b hb hne => ?_⟩
  · rw [exemplar_iff bm bm' malloc qsort hmarks hshadow h b]
    constructor
    · rintro ⟨c, hc⟩
      by_contra hne
      obtain ⟨heb, hec, hbc, hk⟩ := links_eligible bm qsort b c hc
      rcases hpairs c b root hec heb hroot hk (hshare b hb) with heq | heq | heq
      · exact hbc heq.symm
      · exact hne heq
      · exact hfirst b (heq ▸ hc)
    · rintro rfl
      by_cases hxb : x = b
      · exact ⟨y, hlink y hy (fun hyb => hxy (hxb.trans hyb.symm))⟩
      · exact ⟨x, hlink x hx hxb⟩
  · exact (unlinked bm bm' malloc qsort hduplicate hshadow h root).mpr hfirst
  · exact ⟨(duplicate_iff bm bm' malloc qsort hduplicate hshadow h b).mpr ⟨root, hlink b hb hne⟩,
      linked_exemplar bm bm' malloc qsort h root b (hlink b hb hne)⟩

/-- Every set of blocks with one hash gets one exemplar exactly when no hash
belongs to three blocks. -/
theorem one_exemplar_iff (hmarks : Unmarked bm) (hshadow : bm.shadow = bm.primary)
    (h : blockmapFindDuplicates bm malloc qsort = .ok bm') :
    (∀ blocks : Finset (Fin n), 2 ≤ blocks.card → Group bm blocks → OneExemplar bm' blocks) ↔
      PairsOnly bm :=
  ⟨exemplars_pairs bm bm' malloc qsort hmarks hshadow h,
    pairs_exemplars bm bm' malloc qsort hmarks hshadow h⟩

end Pass

section Counts
variable (bm bm' : Blockmap n) (malloc : Bool) (qsort : Qsort n)

def eligibleBlocks : Finset (Fin n) := Finset.univ.filter (Eligible bm)

def NamesExemplar (b e : Fin n) : Prop :=
  (bm.primary.get b).isDuplicate = true ∧ (bm.primary.get b).exemplarBlock = e

def withMarks (e marks : BlockmapEntry) : BlockmapEntry :=
  { e with
    isDuplicate := marks.isDuplicate
    isExemplar := marks.isExemplar
    exemplarBlock := marks.exemplarBlock }

theorem order_blocks : (blockOrder bm qsort).toFinset = eligibleBlocks bm := by
  ext b
  rw [List.mem_toFinset, order_mem, eligibleBlocks, Finset.mem_filter,
    and_iff_right (Finset.mem_univ b)]

theorem duplicateCount_card : blockmapDuplicateCount bm =
    (Finset.univ.filter (fun b => (bm.primary.get b).isDuplicate = true)).card := by
  have hlist : bm.primary.toList = (List.finRange n).map bm.primary.get := by
    apply List.ext_getElem
    · rw [Vector.length_toList, List.length_map, List.length_finRange]
    · intro i h1 h2
      rw [List.getElem_map, List.getElem_finRange]
      rfl
  rw [blockmapDuplicateCount, hlist, List.countP_map, List.countP_eq_length_filter,
    ← List.toFinset_card_of_nodup ((List.nodup_finRange n).filter _)]
  congr 1
  ext b
  simp

/-- As many duplicates as there are blocks with a hash beyond the hashes. -/
theorem duplicates_card (hmarks : ∀ b, (bm.primary.get b).isDuplicate = false)
    (hshadow : bm.shadow = bm.primary) (h : blockmapFindDuplicates bm malloc qsort = .ok bm') :
    blockmapDuplicateCount bm'+((eligibleBlocks bm).image (hashText bm)).card =
      (eligibleBlocks bm).card := by
  classical
  have hcard := SortedGroups.followers_card (hashText bm) (blockOrder bm qsort)
    (order_nodup bm qsort) (order_sorted bm qsort)
  rw [order_blocks] at hcard
  rw [duplicateCount_card, ← hcard]
  congr 2
  ext b
  rw [Finset.mem_filter, Finset.mem_filter, and_iff_right (Finset.mem_univ b),
    duplicate_iff bm bm' malloc qsort hmarks hshadow h b, eligibleBlocks, Finset.mem_filter]
  constructor
  · rintro ⟨a, ha⟩
    exact ⟨⟨Finset.mem_univ b, (links_eligible bm qsort a b ha).2.1⟩, a, ha⟩
  · rintro ⟨_, a, ha⟩
    exact ⟨a, ha⟩

theorem hash_kept (h : blockmapFindDuplicates bm malloc qsort = .ok bm')
    (hshadow : bm.shadow = bm.primary) (b : Fin n) : hashText bm' b = hashText bm b := by
  rw [hashText, hashText, ((findDuplicates_spec bm bm' malloc qsort h).2 b).hash, hshadow]

theorem eligible_kept (h : blockmapFindDuplicates bm malloc qsort = .ok bm')
    (hshadow : bm.shadow = bm.primary) (b : Fin n) : Eligible bm' b ↔ Eligible bm b := by
  have hb := (findDuplicates_spec bm bm' malloc qsort h).2 b
  rw [Eligible, Eligible, hb.computed, hb.zero, hshadow]

theorem exemplars_lead (h : blockmapFindDuplicates bm malloc qsort = .ok bm') (root b : Fin n)
    (hr : Relation.ReflTransGen (Links bm qsort) root b) :
    Relation.ReflTransGen (NamesExemplar bm') b root := by
  induction hr with
  | refl => exact .refl
  | @tail a b _ hl ih =>
    have hb := (findDuplicates_spec bm bm' malloc qsort h).2 b
    exact .head ⟨hb.duplicate.mpr (Or.inr ⟨a, hl⟩), hb.named a hl⟩ ih

/-- The named exemplars lead from every duplicate to the one block with a hash
that shares it and is no duplicate. -/
theorem duplicate_root (hmarks : ∀ b, (bm.primary.get b).isDuplicate = false)
    (hshadow : bm.shadow = bm.primary) (h : blockmapFindDuplicates bm malloc qsort = .ok bm')
    (b : Fin n) (hb : Eligible bm b) :
    ∃ root, Relation.ReflTransGen (NamesExemplar bm') b root ∧ Eligible bm' root ∧
      hashText bm' root = hashText bm' b ∧ ∀ c, Eligible bm' c →
        hashText bm' c = hashText bm' b →
          ((bm'.primary.get c).isDuplicate = false ↔ c = root) := by
  have hsame := hash_kept bm bm' malloc qsort h hshadow
  obtain ⟨root, hroot, hfirst, hkey, hreach⟩ := links_root bm qsort b hb
  refine ⟨root, exemplars_lead bm bm' malloc qsort h root b hreach,
    (eligible_kept bm bm' malloc qsort h hshadow root).mpr hroot,
    by rw [hsame, hsame, hkey], fun c hc hcb => ?_⟩
  rw [hsame, hsame] at hcb
  rw [unlinked bm bm' malloc qsort hmarks hshadow h c]
  constructor
  · intro hno
    exact links_root_unique bm qsort c root
      ((eligible_kept bm bm' malloc qsort h hshadow c).mp hc) hroot (hcb.trans hkey) hno hfirst
  · rintro rfl
    exact hfirst

/-- What a pass over a map without duplicates does. -/
theorem duplicates_counted (hmarks : ∀ b, (bm.primary.get b).isDuplicate = false)
    (hshadow : bm.shadow = bm.primary) (h : blockmapFindDuplicates bm malloc qsort = .ok bm') :
    blockmapDuplicateCount bm' =
        (eligibleBlocks bm).card-((eligibleBlocks bm).image (hashText bm)).card ∧
      (∀ b, (bm'.primary.get b).isDuplicate = true →
        (∃ e, NamesExemplar bm' b e ∧ e ≠ b ∧ hashText bm' e = hashText bm' b) ∧
        ∃ root, Relation.ReflTransGen (NamesExemplar bm') b root ∧ Eligible bm' root ∧
          hashText bm' root = hashText bm' b ∧ ∀ c, Eligible bm' c →
            hashText bm' c = hashText bm' b →
              ((bm'.primary.get c).isDuplicate = false ↔ c = root)) ∧
      (∀ b, ¬ Eligible bm b → (bm'.primary.get b).isDuplicate = false ∧
        (bm'.primary.get b).isExemplar = (bm.primary.get b).isExemplar) ∧
      (∀ b, (bm'.primary.get b).isDuplicate = false →
        (bm'.primary.get b).exemplarBlock = (bm.primary.get b).exemplarBlock) ∧
      ∀ b, bm'.primary.get b = withMarks (bm.primary.get b) (bm'.primary.get b) := by
  have hspec := (findDuplicates_spec bm bm' malloc qsort h).2
  have hduplicate := duplicate_iff bm bm' malloc qsort hmarks hshadow h
  refine ⟨?_, fun b hb => ?_, fun b hb => ⟨?_, ?_⟩, fun b hb => ?_, fun b => ?_⟩
  · have hcard := duplicates_card bm bm' malloc qsort hmarks hshadow h
    omega
  · obtain ⟨a, ha⟩ := (hduplicate b).mp hb
    obtain ⟨_, heb, hne, hkey⟩ := links_eligible bm qsort a b ha
    have hsame := hash_kept bm bm' malloc qsort h hshadow
    exact ⟨⟨a, ⟨hb, (hspec b).named a ha⟩, hne, by rw [hsame, hsame, hkey]⟩,
      duplicate_root bm bm' malloc qsort hmarks hshadow h b heb⟩
  · rw [unlinked bm bm' malloc qsort hmarks hshadow h b]
    exact fun a ha => hb (links_eligible bm qsort a b ha).2.1
  · rw [Bool.eq_iff_iff, (hspec b).exemplar, hshadow]
    exact or_iff_left (fun ⟨c, hc⟩ => hb (links_eligible bm qsort b c hc).1)
  · rw [(hspec b).kept ((unlinked bm bm' malloc qsort hmarks hshadow h b).mp hb), hshadow]
  · have hb := hspec b
    rw [hshadow] at hb
    rw [withMarks, ← hb.covered, ← hb.zero, ← hb.reserved, ← hb.hash, ← hb.computed]

end Counts

def sameHashes (n : ℕ) : Blockmap n :=
  let entries := Vector.replicate n
    { BlockmapEntry.zero with hash := printed65 "a".toList, hashComputed := true }
  ⟨entries, entries⟩

theorem one_exemplar_iff_two : ∃ bm',
    blockmapFindDuplicates (sameHashes 2) true (rankSort Fin.val) = .ok bm' ∧
      ((∀ blocks : Finset (Fin 2), 2 ≤ blocks.card → Group (sameHashes 2) blocks →
        OneExemplar bm' blocks) ↔ PairsOnly (sameHashes 2)) :=
  ⟨_, rfl, one_exemplar_iff (sameHashes 2) _ true (rankSort Fin.val) (by decide) rfl rfl⟩

/-- Of three blocks with one hash the second one is an exemplar and a duplicate. -/
theorem chained_exemplars : ∃ bm',
    Unmarked (sameHashes 3) ∧ (sameHashes 3).shadow = (sameHashes 3).primary ∧
      blockmapFindDuplicates (sameHashes 3) true (rankSort Fin.val) = .ok bm' ∧
      ¬ ∀ blocks : Finset (Fin 3), 2 ≤ blocks.card → Group (sameHashes 3) blocks →
        OneExemplar bm' blocks := by
  refine ⟨_, by decide, rfl, rfl, fun h => ?_⟩
  have hpairs := exemplars_pairs (sameHashes 3) _ true (rankSort Fin.val) (by decide) rfl rfl h
  exact absurd (hpairs 0 1 2) (by decide)

theorem duplicates_counted_three : ∃ bm',
    blockmapFindDuplicates (sameHashes 3) true (rankSort Fin.val) = .ok bm' ∧
      blockmapDuplicateCount bm' = (eligibleBlocks (sameHashes 3)).card-
        ((eligibleBlocks (sameHashes 3)).image (hashText (sameHashes 3))).card :=
  ⟨_, rfl, (duplicates_counted (sameHashes 3) _ true (rankSort Fin.val) (by decide) rfl rfl).1⟩

def zeroTwin : Blockmap 3 :=
  let entries := setEntry (sameHashes 3).primary (Fin.last 2) fun e => { e with isZero := true }
  ⟨entries, entries⟩

/-- A zero block shares the hash of a duplicate and is no duplicate either. -/
theorem unmarked_twins : ∃ bm', (∀ b, (zeroTwin.primary.get b).isDuplicate = false) ∧
    zeroTwin.shadow = zeroTwin.primary ∧
    blockmapFindDuplicates zeroTwin true (rankSort Fin.val) = .ok bm' ∧
    (bm'.primary.get 1).isDuplicate = true ∧
    ¬ ∃ root, Relation.ReflTransGen (NamesExemplar bm') 1 root ∧
      (bm'.primary.get root).isDuplicate = false ∧ ∀ c, hashText bm' c = hashText bm' 1 →
        (bm'.primary.get c).isDuplicate = false → c = root := by
  refine ⟨_, by decide, rfl, rfl, by decide, ?_⟩
  rintro ⟨root, _, _, honly⟩
  have hfirst := honly 0 (by decide) (by decide)
  have hlast := honly 2 (by decide) (by decide)
  exact absurd (hfirst.trans hlast.symm) (by decide)

end EraseCure.DuplicateGroups
