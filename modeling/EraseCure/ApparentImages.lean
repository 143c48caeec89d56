import EraseCure.FileMirrors

/-!
# The apparent image over a run

Whatever blocks are covered and uncovered after opening, the apparent blocks
are the uncovered ones in their order, and the two translations are inverse to
each other. Reading the apparent blocks from the first to the last visits every
uncovered block once.
-/

set_option autoImplicit false

namespace EraseCure.ApparentImages
open EraseCure.CText EraseCure.FileMirrors

inductive MaskCall where
  | mark (actualBlock : UInt64)
  | unmark (actualBlock : UInt64)

def MaskCall.apply (fm : FileMirror) : MaskCall → FileMirror
  | .mark b => fileMirrorMarkCovered fm b
  | .unmark b => fileMirrorUnmarkCovered fm b

def runMask (fm : FileMirror) (calls : List MaskCall) : FileMirror := calls.foldl MaskCall.apply fm

theorem run_consistent (fm : FileMirror) (calls : List MaskCall) (h : Consistent fm) :
    Consistent (runMask fm calls) := by
  induction calls generalizing fm with
  | nil => exact h
  | cons call calls ih =>
    apply ih
    cases call with
    | mark b => exact mark_consistent fm b h
    | unmark b => exact unmark_consistent fm b h

section Translations
variable {fm : FileMirror} (h : Consistent fm)
include h

theorem uncovered_total (i : ℕ) (hi : Uncovered fm.coveredMask i) : i < fm.totalBlocks.toNat := by
  rw [← h.masked]
  exact uncovered_lt _ _ hi

theorem toActual_spec (k : UInt64) (hk : k < fm.apparentBlocks) :
    Uncovered fm.coveredMask (fileMirrorApparentToActual fm k).toNat ∧
      Nat.count (Uncovered fm.coveredMask) (fileMirrorApparentToActual fm k).toNat = k.toNat := by
  have hm := h.masked
  have hlt := fm.totalBlocks.toNat_lt
  rw [fileMirrorApparentToActual, if_neg (by simpa using hk),
    List.take_of_length_le (by omega)]
  rw [UInt64.lt_iff_toNat_lt, h.counted] at hk
  rcases apparentScan_spec k fm.coveredMask 0 0 (by simp; omega) le_rfl (Nat.zero_le _) with
    ⟨j, hj, hc, hr⟩ | ⟨_, hc⟩
  · have hr' : (apparentScan k fm.coveredMask 0 0).toNat = j := by simpa using hr
    rw [hr']
    exact ⟨hj, by simpa using hc⟩
  · simp at hc
    omega

theorem toApparent_spec (i : UInt64) (hi : Uncovered fm.coveredMask i.toNat) :
    (fileMirrorActualToApparent fm i).toNat = Nat.count (Uncovered fm.coveredMask) i.toNat := by
  have hlt := uncovered_total h _ hi
  rw [fileMirrorActualToApparent, if_neg (by simpa [UInt64.lt_iff_toNat_lt] using hlt),
    if_neg (by rw [hi]; simp), apparentCount_spec, count_take]
  · simp
  · have := i.toNat_lt
    simp
    omega

theorem toApparent_none (i : UInt64) (hi : ¬ Uncovered fm.coveredMask i.toNat) :
    fileMirrorActualToApparent fm i = noBlock := by
  rw [fileMirrorActualToApparent]
  split
  · rfl
  · rename_i hlt
    have hlt : i.toNat < fm.coveredMask.length := by
      rw [h.masked]
      simpa [UInt64.lt_iff_toNat_lt] using hlt
    rw [if_pos]
    obtain ⟨b, hb⟩ : ∃ b, fm.coveredMask[i.toNat]? = some b :=
      ⟨_, List.getElem?_eq_getElem hlt⟩
    cases b with
    | true => exact hb
    | false => exact absurd hb hi

theorem toActual_ne (k : UInt64) (hk : k < fm.apparentBlocks) :
    fileMirrorApparentToActual fm k ≠ noBlock := by
  intro he
  have hlt := uncovered_total h _ (toActual_spec h k hk).1
  rw [he] at hlt
  have := fm.totalBlocks.toNat_lt
  have hn : noBlock.toNat = 2^64-1 := rfl
  omega

theorem toApparent_lt (i : UInt64) (hi : Uncovered fm.coveredMask i.toNat) :
    fileMirrorActualToApparent fm i < fm.apparentBlocks := by
  rw [UInt64.lt_iff_toNat_lt, toApparent_spec h i hi, h.counted, ← count_length]
  exact Nat.count_strict_mono hi (uncovered_lt _ _ hi)

theorem toApparent_toActual (k : UInt64) (hk : k < fm.apparentBlocks) :
    fileMirrorActualToApparent fm (fileMirrorApparentToActual fm k) = k := by
  obtain ⟨hu, hc⟩ := toActual_spec h k hk
  rw [← UInt64.toNat_inj, toApparent_spec h _ hu, hc]

theorem toActual_toApparent (i : UInt64) (hi : Uncovered fm.coveredMask i.toNat) :
    fileMirrorApparentToActual fm (fileMirrorActualToApparent fm i) = i := by
  obtain ⟨hu, hc⟩ := toActual_spec h _ (toApparent_lt h i hi)
  rw [toApparent_spec h i hi] at hc
  exact UInt64.toNat_inj.mp (Nat.count_injective hu hi hc)

theorem toActual_lt (k l : UInt64) (hl : l < fm.apparentBlocks) (hkl : k < l) :
    fileMirrorApparentToActual fm k < fileMirrorApparentToActual fm l := by
  obtain ⟨_, hck⟩ := toActual_spec h k (UInt64.lt_trans hkl hl)
  obtain ⟨_, hcl⟩ := toActual_spec h l hl
  rw [UInt64.lt_iff_toNat_lt] at hkl ⊢
  by_contra hle
  have := Nat.count_monotone (Uncovered fm.coveredMask) (not_lt.mp hle)
  omega

theorem readApparent_visits (k : UInt64) (hk : k < fm.apparentBlocks) :
    fileMirrorReadApparentBlock fm k =
      (fileMirrorReadBlock fm (fileMirrorApparentToActual fm k),
        some (fileMirrorApparentToActual fm k)) := by
  rw [fileMirrorReadApparentBlock, if_neg (by simpa using hk), if_neg (toActual_ne h k hk)]

/-- The apparent blocks before actual block `n` are the uncovered ones among
the first `n`, in the same order. -/
theorem visited_below (n : ℕ) (hn : n ≤ fm.totalBlocks.toNat) :
    (List.range (Nat.count (Uncovered fm.coveredMask) n)).map
        (fun k => (fileMirrorReadApparentBlock fm (UInt64.ofNat k)).2) =
      ((List.range n).filter (fun i => fm.coveredMask[i]? = some false)).map
        (fun i => some (UInt64.ofNat i)) := by
  induction n with
  | zero => rfl
  | succ n ih =>
    rw [List.range_succ (n := n), List.filter_append, List.map_append, ← ih (by omega),
      Nat.count_succ]
    by_cases hu : Uncovered fm.coveredMask n
    · have hlt := fm.totalBlocks.toNat_lt
      have hsize : UInt64.size = 2^64 := rfl
      have hnat : (UInt64.ofNat n).toNat = n := UInt64.toNat_ofNat_of_lt' (by omega)
      have hu' : Uncovered fm.coveredMask (UInt64.ofNat n).toNat := by rwa [hnat]
      have ha : fileMirrorActualToApparent fm (UInt64.ofNat n) =
          UInt64.ofNat (Nat.count (Uncovered fm.coveredMask) n) := by
        rw [← UInt64.toNat_inj, toApparent_spec h _ hu', hnat, UInt64.toNat_ofNat_of_lt']
        have := Nat.count_le (p := Uncovered fm.coveredMask) (n := n)
        omega
      rw [if_pos hu, List.range_succ, List.map_append, List.filter_singleton]
      have hv := readApparent_visits h _ (toApparent_lt h _ hu')
      rw [toActual_toApparent h _ hu', ha] at hv
      simp [hv, show fm.coveredMask[n]? = some false from hu]
    · rw [if_neg hu, List.filter_singleton]
      simp [show fm.coveredMask[n]? ≠ some false from hu]

end Translations

structure ApparentImage (fm : FileMirror) : Prop where
  counted : fm.apparentBlocks.toNat =
    ((List.range fm.totalBlocks.toNat).filter (fun i => fm.coveredMask[i]? = some false)).length
  toActual : Set.BijOn (fileMirrorApparentToActual fm) {k | k < fm.apparentBlocks}
    {i | i < fm.totalBlocks ∧ fm.coveredMask[i.toNat]? = some false}
  toApparent : Set.BijOn (fileMirrorActualToApparent fm)
    {i | i < fm.totalBlocks ∧ fm.coveredMask[i.toNat]? = some false} {k | k < fm.apparentBlocks}
  inverse : Set.InvOn (fileMirrorActualToApparent fm) (fileMirrorApparentToActual fm)
    {k | k < fm.apparentBlocks} {i | i < fm.totalBlocks ∧ fm.coveredMask[i.toNat]? = some false}
  toActual_increasing : ∀ k l, k < l → l < fm.apparentBlocks →
    fileMirrorApparentToActual fm k < fileMirrorApparentToActual fm l
  toApparent_increasing : ∀ i j, i < j → j < fm.totalBlocks →
    fm.coveredMask[i.toNat]? = some false → fm.coveredMask[j.toNat]? = some false →
    fileMirrorActualToApparent fm i < fileMirrorActualToApparent fm j
  toActual_none : ∀ k, fileMirrorApparentToActual fm k = noBlock ↔ ¬ k < fm.apparentBlocks
  toApparent_none : ∀ i, fileMirrorActualToApparent fm i = noBlock ↔
    ¬ (i < fm.totalBlocks ∧ fm.coveredMask[i.toNat]? = some false)
  visits : (List.range fm.apparentBlocks.toNat).map
      (fun k => (fileMirrorReadApparentBlock fm (UInt64.ofNat k)).2) =
    ((List.range fm.totalBlocks.toNat).filter (fun i => fm.coveredMask[i]? = some false)).map
      (fun i => some (UInt64.ofNat i))

theorem consistent_apparent (fm : FileMirror) (h : Consistent fm) : ApparentImage fm := by
  have hcount : fm.apparentBlocks.toNat =
      Nat.count (Uncovered fm.coveredMask) fm.totalBlocks.toNat := by
    rw [h.counted, ← h.masked, count_length]
  have hin : ∀ i : UInt64, Uncovered fm.coveredMask i.toNat → i < fm.totalBlocks := by
    intro i hi
    rw [UInt64.lt_iff_toNat_lt]
    exact uncovered_total h _ hi
  have hvisits := visited_below h fm.totalBlocks.toNat le_rfl
  rw [← hcount] at hvisits
  have hinv : Set.InvOn (fileMirrorActualToApparent fm) (fileMirrorApparentToActual fm)
      {k | k < fm.apparentBlocks}
      {i | i < fm.totalBlocks ∧ fm.coveredMask[i.toNat]? = some false} :=
    ⟨fun k hk => toApparent_toActual h k hk, fun i hi => toActual_toApparent h i hi.2⟩
  have hto : Set.MapsTo (fileMirrorApparentToActual fm) {k | k < fm.apparentBlocks}
      {i | i < fm.totalBlocks ∧ fm.coveredMask[i.toNat]? = some false} := by
    intro k hk
    have hu := (toActual_spec h k hk).1
    exact ⟨hin _ hu, hu⟩
  have hfrom : Set.MapsTo (fileMirrorActualToApparent fm)
      {i | i < fm.totalBlocks ∧ fm.coveredMask[i.toNat]? = some false}
      {k | k < fm.apparentBlocks} := fun i hi => toApparent_lt h i hi.2
  constructor
  · have hl := congrArg List.length hvisits
    simpa using hl
  · exact hinv.bijOn hto hfrom
  · exact hinv.symm.bijOn hfrom hto
  · exact hinv
  · exact fun k l hkl hl => toActual_lt h k l hl hkl
  · intro i j hij _ hi hj
    rw [UInt64.lt_iff_toNat_lt, toApparent_spec h i hi, toApparent_spec h j hj]
    exact Nat.count_strict_mono hi (UInt64.lt_iff_toNat_lt.mp hij)
  · intro k
    constructor
    · exact fun he hk => toActual_ne h k hk he
    · intro hk
      rw [fileMirrorApparentToActual, if_pos (by simpa using hk)]
  · intro i
    constructor
    · intro he hi
      have hlt := UInt64.lt_iff_toNat_lt.mp (toApparent_lt h i hi.2)
      rw [he] at hlt
      have := fm.apparentBlocks.toNat_lt
      have hn : noBlock.toNat = 2^64-1 := rfl
      omega
    · exact fun hi => toApparent_none h i (fun hu => hi ⟨hin i hu, hu⟩)
  · exact hvisits

def evidenceIo : MirrorIo where
  opened := some [1, 2, 3, 4, 5, 6, 7]
  fstat := some 7
  calloc := true
  digest := none

def evidenceMirror : FileMirror where
  image := [1, 2, 3, 4, 5, 6, 7]
  imageSize := 7
  blockSize := 2
  totalBlocks := 3
  imagePath := printed256 "evidence.img".toList
  evidenceHash := printed65 []
  hashVerified := false
  coveredMask := [false, false, false]
  apparentBlocks := 3

example : (List.range 2).map (fun k => (fileMirrorReadApparentBlock
    (runMask evidenceMirror [.mark 1, .mark 9, .mark 1, .unmark 0]) (UInt64.ofNat k)).2) =
    [some 0, some 2] := by decide

end EraseCure.ApparentImages
