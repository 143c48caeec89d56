import EraseCure.ApparentImages

/-!
# Numbers after a mark

A block that is covered leaves the apparent image. The blocks before it keep
their numbers, those after it move down by one, and uncovering it puts every
number back.
-/

set_option autoImplicit false

namespace EraseCure.ShiftedNumbers
open EraseCure.CText EraseCure.FileMirrors EraseCure.ApparentImages

section Masks
variable (mask : List Bool) (b : ℕ) (hb : Uncovered mask b)
include hb

theorem set_uncovered (j : ℕ) : Uncovered (mask.set b true) j ↔ Uncovered mask j ∧ j ≠ b := by
  by_cases hj : j = b
  · subst hj
    have hlt := uncovered_lt mask j hb
    simp [Uncovered, hlt]
  · rw [Uncovered, List.getElem?_set_ne (Ne.symm hj)]
    exact (and_iff_left hj).symm

theorem set_count (n : ℕ) : Nat.count (Uncovered (mask.set b true)) n+(if b < n then 1 else 0) =
    Nat.count (Uncovered mask) n := by
  induction n with
  | zero => simp
  | succ n ih =>
    rw [Nat.count_succ, Nat.count_succ, ← ih]
    by_cases hn : n = b
    · subst hn
      rw [if_neg (fun h => ((set_uncovered mask n hb n).mp h).2 rfl), if_pos hb,
        if_pos (Nat.lt_succ_self n), if_neg (lt_irrefl n)]
    · have hset : Uncovered (mask.set b true) n ↔ Uncovered mask n :=
        (set_uncovered mask b hb n).trans (and_iff_left hn)
      have hlt : b < n+1 ↔ b < n := by omega
      simp only [hset, hlt]
      omega

end Masks

section Marking
variable (fm : FileMirror)

def Markable (b : UInt64) : Prop := b < fm.totalBlocks ∧ fm.coveredMask[b.toNat]? = some false

theorem mark_some (b : UInt64) (hb : Markable fm b) : fileMirrorMarkCovered fm b =
    { fm with
      coveredMask := fm.coveredMask.set b.toNat true
      apparentBlocks := if 0 < fm.apparentBlocks then fm.apparentBlocks-1
        else fm.apparentBlocks } :=
  if_pos hb

theorem mark_none (b : UInt64) (hb : ¬ Markable fm b) : fileMirrorMarkCovered fm b = fm :=
  if_neg hb

theorem mark_markable (b c : UInt64) (hbc : b ≠ c) :
    Markable (fileMirrorMarkCovered fm b) c ↔ Markable fm c := by
  by_cases hb : Markable fm b
  · have hne : b.toNat ≠ c.toNat := fun h => hbc (UInt64.toNat_inj.mp h)
    rw [mark_some fm b hb, Markable, Markable, List.getElem?_set_ne hne]
  · rw [mark_none fm b hb]

theorem marks_commute (b c : UInt64) (hbc : b ≠ c) :
    fileMirrorMarkCovered (fileMirrorMarkCovered fm b) c =
      fileMirrorMarkCovered (fileMirrorMarkCovered fm c) b := by
  have hne : b.toNat ≠ c.toNat := fun h => hbc (UInt64.toNat_inj.mp h)
  have hcb := mark_markable fm c b hbc.symm
  have hbc := mark_markable fm b c hbc
  by_cases hb : Markable fm b
  · by_cases hc : Markable fm c
    · rw [mark_some _ c (hbc.mpr hc), mark_some _ b (hcb.mpr hb), mark_some fm b hb,
        mark_some fm c hc]
      simp only [List.set_comm true true hne]
    · rw [mark_none _ c (fun h => hc (hbc.mp h)), mark_none fm c hc]
  · rw [mark_none fm b hb, mark_none _ b (fun h => hb (hcb.mp h))]

end Marking

/-- The numbers before that of the block stand for the blocks they stood for, and
those from it on for the next ones. -/
structure Shifted (fm : FileMirror) (b : UInt64) : Prop where
  below : ∀ i, i < fileMirrorActualToApparent fm b →
    fileMirrorApparentToActual (fileMirrorMarkCovered fm b) i = fileMirrorApparentToActual fm i
  above : ∀ i, fileMirrorActualToApparent fm b ≤ i →
    i < (fileMirrorMarkCovered fm b).apparentBlocks →
    fileMirrorApparentToActual (fileMirrorMarkCovered fm b) i =
      fileMirrorApparentToActual fm (i+1)

section Shifting
variable {fm : FileMirror} (h : Consistent fm)
include h

/-- A block is found by the number of uncovered blocks before it. -/
theorem place_unique (k : UInt64) (hk : k < fm.apparentBlocks) (j : UInt64)
    (hj : Uncovered fm.coveredMask j.toNat)
    (hcount : Nat.count (Uncovered fm.coveredMask) j.toNat = k.toNat) :
    j = fileMirrorApparentToActual fm k := by
  obtain ⟨hu, hc⟩ := toActual_spec h k hk
  exact UInt64.toNat_inj.mp (Nat.count_injective hj hu (hcount.trans hc.symm))

variable (b : UInt64) (hb : Markable fm b)
include hb

theorem apparent_pos : 0 < fm.apparentBlocks.toNat := by
  rw [h.counted]
  exact List.count_pos_iff.mpr (List.mem_of_getElem? hb.2)

theorem mark_apparent :
    (fileMirrorMarkCovered fm b).apparentBlocks.toNat = fm.apparentBlocks.toNat-1 := by
  have hpos := apparent_pos h b hb
  have hlt : 0 < fm.apparentBlocks := UInt64.lt_iff_toNat_lt.mpr hpos
  have hone : (1 : UInt64) ≤ fm.apparentBlocks := UInt64.le_iff_toNat_le.mpr hpos
  rw [mark_some fm b hb]
  dsimp only
  rw [if_pos hlt, UInt64.toNat_sub_of_le _ _ hone]
  rfl

theorem mark_unmark : fileMirrorUnmarkCovered (fileMirrorMarkCovered fm b) b = fm := by
  have hlt : 0 < fm.apparentBlocks := UInt64.lt_iff_toNat_lt.mpr (apparent_pos h b hb)
  obtain ⟨hbound, hfalse⟩ := List.getElem?_eq_some_iff.mp hb.2
  rw [mark_some fm b hb, if_pos hlt, fileMirrorUnmarkCovered]
  dsimp only
  rw [if_pos ⟨hb.1, List.getElem?_set_self hbound⟩, List.set_set, ← hfalse,
    List.set_getElem_self hbound, UInt64.sub_add_cancel]

/-- The new number of a block, in terms of the old numbers. -/
theorem mark_place (i : UInt64) (hi : i < (fileMirrorMarkCovered fm b).apparentBlocks) :
    let j := (fileMirrorApparentToActual (fileMirrorMarkCovered fm b) i).toNat
    Uncovered fm.coveredMask j ∧ j ≠ b.toNat ∧
      i.toNat+(if b.toNat < j then 1 else 0) = Nat.count (Uncovered fm.coveredMask) j := by
  obtain ⟨hu, hc⟩ := toActual_spec (mark_consistent fm b h) i hi
  have hmask : (fileMirrorMarkCovered fm b).coveredMask = fm.coveredMask.set b.toNat true := by
    rw [mark_some fm b hb]
  rw [hmask] at hu hc
  obtain ⟨huj, hne⟩ := (set_uncovered fm.coveredMask b.toNat hb.2 _).mp hu
  have hcount := set_count fm.coveredMask b.toNat hb.2
    (fileMirrorApparentToActual (fileMirrorMarkCovered fm b) i).toNat
  rw [hc] at hcount
  exact ⟨huj, hne, hcount⟩

theorem mark_shifted : Shifted fm b := by
  have hnum := toApparent_spec h b hb.2
  have happ := mark_apparent h b hb
  have hlt := UInt64.lt_iff_toNat_lt.mp (toApparent_lt h b hb.2)
  constructor
  · intro i hi
    rw [UInt64.lt_iff_toNat_lt] at hi
    obtain ⟨hu, _, hc⟩ := mark_place h b hb i (UInt64.lt_iff_toNat_lt.mpr (by omega))
    -- A block after the marked one has at least its number before it.
    have hbefore : ¬ b.toNat <
        (fileMirrorApparentToActual (fileMirrorMarkCovered fm b) i).toNat := by
      intro hafter
      have hmono := Nat.count_strict_mono (p := Uncovered fm.coveredMask) hb.2 hafter
      rw [if_pos hafter] at hc
      omega
    rw [if_neg hbefore] at hc
    exact place_unique h i (UInt64.lt_iff_toNat_lt.mpr (by omega)) _ hu hc.symm
  · intro i hi hiapp
    rw [UInt64.le_iff_toNat_le] at hi
    obtain ⟨hu, hne, hc⟩ := mark_place h b hb i hiapp
    rw [UInt64.lt_iff_toNat_lt] at hiapp
    have hafter : b.toNat <
        (fileMirrorApparentToActual (fileMirrorMarkCovered fm b) i).toNat := by
      by_contra hle
      have hmono := Nat.count_strict_mono (p := Uncovered fm.coveredMask) hu
        (show _ < b.toNat by omega)
      rw [if_neg hle] at hc
      omega
    rw [if_pos hafter] at hc
    have hsize := fm.apparentBlocks.toNat_lt
    have hnext : (i+1).toNat = i.toNat+1 := toNat_succ i (by omega)
    exact place_unique h (i+1) (UInt64.lt_iff_toNat_lt.mpr (by omega)) _ hu
      (hc.symm.trans hnext.symm)

end Shifting

structure MarksShift (fm : FileMirror) : Prop where
  shifted : ∀ b, b < fm.totalBlocks → fm.coveredMask[b.toNat]? = some false → Shifted fm b
  undone : ∀ b, b < fm.totalBlocks → fm.coveredMask[b.toNat]? = some false →
    fileMirrorUnmarkCovered (fileMirrorMarkCovered fm b) b = fm
  commute : ∀ b c, b ≠ c → fileMirrorMarkCovered (fileMirrorMarkCovered fm b) c =
    fileMirrorMarkCovered (fileMirrorMarkCovered fm c) b

/-- After any calls, covering an uncovered block shifts the numbers behind it,
uncovering it then restores the mirror, and two marks commute. -/
theorem marked_numbers_shift (io : MirrorIo) (imagePath : Text) (blockSize : UInt64)
    (fm : FileMirror) (calls : List MaskCall) (h : fileMirrorOpen io imagePath blockSize = .ok fm) :
    MarksShift (runMask fm calls) := by
  have hc := run_consistent fm calls (open_consistent io imagePath blockSize fm h)
  constructor
  · intro b hb hmask
    exact mark_shifted hc b ⟨hb, hmask⟩
  · intro b hb hmask
    exact mark_unmark hc b ⟨hb, hmask⟩
  · exact marks_commute _

theorem marked_numbers_shift_evidence : MarksShift (runMask evidenceMirror [.mark 1]) :=
  marked_numbers_shift evidenceIo "evidence.img".toList 2 evidenceMirror [.mark 1] (by rfl)

end EraseCure.ShiftedNumbers
