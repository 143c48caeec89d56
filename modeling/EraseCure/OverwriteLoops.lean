import EraseCure.EraserAgreement

/-!
# The loops that overwrite a file

A round of the loops takes off the bytes left in the pass what the write has
accepted, which may be nothing. A pass comes to its end unless its writes accept
nothing from some round on.
-/

set_option autoImplicit false

namespace EraseCure.OverwriteLoops
open EraseCure.CText EraseCure.Devices EraseCure.FileSystems
open EraseCure.ErasePasses EraseCure.FileVerify EraseCure.FileEraser EraseCure.FileOverwrites
open EraseCure.FilePasses EraseCure.EraserAgreement

section Rounds
variable (io : FileEraseIo) (size passes : ℕ)

inductive LoopRound : ℕ → ℕ → ℕ → Prop where
  | first : 0 < passes → LoopRound 0 0 size
  | chunk (pass k bytesLeft n : ℕ) : LoopRound pass k bytesLeft → 0 < bytesLeft →
      io.write pass k = some n → LoopRound pass (k+1) (bytesLeft-min n (toWrite bytesLeft))
  | pass (pass k : ℕ) : LoopRound pass k 0 → pass+1 < passes → LoopRound (pass+1) 0 size

/-- Each round fails or leaves fewer bytes in its pass. -/
def RoundsProgress : Prop :=
  ∀ pass k bytesLeft, LoopRound io size passes pass k bytesLeft → 0 < bytesLeft →
    io.write pass k = none ∨
      ∃ n, io.write pass k = some n ∧ bytesLeft-min n (toWrite bytesLeft) < bytesLeft

/-- A pass that is begun, as those before it went through. -/
structure PassBegun (pass : ℕ) : Prop where
  inside : pass < passes
  earlier : ∀ p < pass, FilePassWhole io size p

/-- A write that is made: the writes before it in its pass have left something. -/
structure WriteMade (pass k : ℕ) : Prop where
  begun : PassBegun io size passes pass
  before : WritesBefore io size pass k
  left : filePosition io size pass k < size

theorem writesBefore_succ (pass k n : ℕ) (h : WritesBefore io size pass k)
    (hleft : filePosition io size pass k < size) (hwrite : io.write pass k = some n) :
    WritesBefore io size pass (k+1) := by
  intro j hj
  rcases Nat.lt_succ_iff_lt_or_eq.mp hj with hj | rfl
  · exact h j hj
  · exact ⟨hleft, by simp [hwrite]⟩

/-- A pass that is whole comes to the end of the file for a first time. -/
theorem whole_first (pass : ℕ) (h : FilePassWhole io size pass) :
    ∃ last, WritesBefore io size pass last ∧ filePosition io size pass last = size := by
  obtain ⟨stop, hstop, hall⟩ := h
  have hex : ∃ last, filePosition io size pass last = size := ⟨stop, hstop⟩
  refine ⟨Nat.find hex, fun k hk => ?_, Nat.find_spec hex⟩
  have hne := Nat.find_min hex hk
  have hle := position_le io size pass k
  have hmin := Nat.find_min' hex hstop
  exact ⟨by omega, hall k (by omega)⟩

theorem round_made (pass k bytesLeft : ℕ) (h : LoopRound io size passes pass k bytesLeft) :
    PassBegun io size passes pass ∧ WritesBefore io size pass k ∧
      filePosition io size pass k+bytesLeft = size := by
  induction h with
  | first hpos =>
    refine ⟨⟨hpos, fun p hp => absurd hp (Nat.not_lt_zero p)⟩,
      fun k hk => absurd hk (Nat.not_lt_zero k), Nat.zero_add size⟩
  | chunk pass k bytesLeft n _ hpos hwrite ih =>
    obtain ⟨hbegun, hbefore, hposition⟩ := ih
    refine ⟨hbegun, writesBefore_succ io size pass k n hbefore (by omega) hwrite, ?_⟩
    have hle := (toWrite_le bytesLeft).1
    rw [position_step io size pass k n hwrite,
      show size-filePosition io size pass k = bytesLeft by omega]
    omega
  | pass pass k _ hlt ih =>
    obtain ⟨hbegun, hbefore, hposition⟩ := ih
    have hwhole : FilePassWhole io size pass := ⟨k, hposition, fun j hj => (hbefore j hj).2⟩
    refine ⟨⟨hlt, fun p hp => ?_⟩, fun k hk => absurd hk (Nat.not_lt_zero k), Nat.zero_add size⟩
    rcases Nat.lt_succ_iff_lt_or_eq.mp hp with hp | rfl
    · exact hbegun.earlier p hp
    · exact hwhole

theorem pass_rounds (pass k : ℕ) (hfirst : LoopRound io size passes pass 0 size)
    (h : WritesBefore io size pass k) :
    LoopRound io size passes pass k (size-filePosition io size pass k) := by
  induction k with
  | zero => exact hfirst
  | succ k ih =>
    obtain ⟨hleft, hwrite⟩ := h k (Nat.lt_succ_self k)
    obtain ⟨n, hn⟩ := Option.ne_none_iff_exists'.mp hwrite
    have hround := LoopRound.chunk pass k _ n (ih fun j hj => h j (by omega)) (by omega) hn
    rwa [Nat.sub_sub, ← position_step io size pass k n hn] at hround

theorem begun_round (pass : ℕ) (h : PassBegun io size passes pass) :
    LoopRound io size passes pass 0 size := by
  induction pass with
  | zero => exact .first h.inside
  | succ pass ih =>
    obtain ⟨last, hbefore, hlast⟩ := whole_first io size pass (h.earlier pass (Nat.lt_succ_self _))
    have hround := pass_rounds io size passes pass last
      (ih ⟨by have := h.inside; omega, fun p hp => h.earlier p (by omega)⟩) hbefore
    rw [hlast, Nat.sub_self] at hround
    exact .pass pass last hround h.inside

/-- The rounds progress exactly when no write that is made accepts nothing. -/
theorem progress_iff : RoundsProgress io size passes ↔
    ∀ pass k, WriteMade io size passes pass k → io.write pass k ≠ some 0 := by
  constructor
  · intro h pass k hmade hzero
    have hround := pass_rounds io size passes pass k
      (begun_round io size passes pass hmade.begun) hmade.before
    have hleft := hmade.left
    rcases h pass k _ hround (by omega) with hnone | ⟨n, hn, hlt⟩
    · rw [hzero] at hnone
      contradiction
    · obtain rfl : n = 0 := Option.some.inj (hn.symm.trans hzero)
      rw [Nat.zero_min] at hlt
      exact Nat.lt_irrefl _ hlt
  · intro h pass k bytesLeft hround hpos
    obtain ⟨hbegun, hbefore, hposition⟩ := round_made io size passes pass k bytesLeft hround
    cases hwrite : io.write pass k with
    | none => exact Or.inl rfl
    | some n =>
      have hne := h pass k ⟨hbegun, hbefore, by omega⟩
      have hn : n ≠ 0 := by
        rintro rfl
        exact hne hwrite
      have := toWrite_pos bytesLeft hpos
      exact Or.inr ⟨n, rfl, by omega⟩

end Rounds

section Chunks
variable (io : FileEraseIo) (pattern : ErasePattern) (size : ℕ)

/-- From a chunk on the pass comes to the end of the file or to a write that fails,
within a number of chunks. -/
def EndsWithin (pass k rounds : ℕ) : Prop :=
  ∃ last, k ≤ last ∧ last ≤ k+rounds ∧
    (filePosition io size pass last = size ∨ last < k+rounds ∧ io.write pass last = none)

theorem endsWithin_succ (pass k rounds : ℕ) (hleft : filePosition io size pass k ≠ size)
    (hwrite : io.write pass k ≠ none) :
    EndsWithin io size pass (k+1) rounds ↔ EndsWithin io size pass k (rounds+1) := by
  constructor
  · rintro ⟨last, hk, hlast, hend⟩
    exact ⟨last, by omega, by omega, hend.imp_right fun h => ⟨by omega, h.2⟩⟩
  · rintro ⟨last, hk, hlast, hend⟩
    have hne : k ≠ last := by
      rintro rfl
      exact hend.elim hleft fun h => hwrite h.2
    exact ⟨last, by omega, by omega, hend.imp_right fun h => ⟨by omega, h.2⟩⟩

theorem endsWithin_mono (pass m n : ℕ) (h : m ≤ n) (hm : EndsWithin io size pass 0 m) :
    EndsWithin io size pass 0 n := by
  obtain ⟨last, hk, hlast, hend⟩ := hm
  exact ⟨last, hk, by omega, hend.imp_right fun h => ⟨by omega, h.2⟩⟩

theorem chunks_end_iff (pass fuel k bytesLeft : ℕ) (s : FileEraseState) (hl : bytesLeft ≤ size)
    (hk : filePosition io size pass k = size-bytesLeft) :
    (fileEraseChunks io pattern size pass fuel k bytesLeft s).isSome = true ↔
      EndsWithin io size pass k fuel := by
  induction fuel generalizing k bytesLeft s with
  | zero =>
    by_cases h0 : bytesLeft = 0
    · rw [h0, fileEraseChunks_end]
      exact iff_of_true rfl ⟨k, le_rfl, le_rfl, Or.inl (by omega)⟩
    · rw [fileEraseChunks_unfinished io pattern size pass k bytesLeft s h0]
      refine iff_of_false Bool.false_ne_true ?_
      rintro ⟨last, hle, hlast, hend⟩
      obtain rfl : last = k := by omega
      rcases hend with hend | hend <;> omega
  | succ fuel ih =>
    by_cases h0 : bytesLeft = 0
    · rw [h0, fileEraseChunks_end]
      exact iff_of_true rfl ⟨k, le_rfl, by omega, Or.inl (by omega)⟩
    cases hwrite : io.write pass k with
    | none =>
      rw [fileEraseChunks_failed io pattern size pass fuel k bytesLeft s h0 hwrite]
      exact iff_of_true rfl ⟨k, le_rfl, by omega, Or.inr ⟨by omega, hwrite⟩⟩
    | some n =>
      rw [fileEraseChunks_written io pattern size pass fuel k bytesLeft s h0 n hwrite]
      have hle := (toWrite_le bytesLeft).1
      have hnext := position_step io size pass k n hwrite
      rw [hk, show size-(size-bytesLeft) = bytesLeft by omega] at hnext
      rw [← endsWithin_succ io size pass k fuel (by omega) (by simp [hwrite])]
      exact ih (k+1) (bytesLeft-min n (toWrite bytesLeft)) _ (by omega) (by omega)

/-- From some write on a pass that has bytes left makes writes that accept nothing. -/
def Stalls (pass : ℕ) : Prop :=
  ∃ k, WritesBefore io size pass k ∧ filePosition io size pass k < size ∧
    ∀ j, k ≤ j → io.write pass j = some 0

theorem stalled_position (pass k j : ℕ) (h : ∀ j, k ≤ j → io.write pass j = some 0)
    (hj : k ≤ j) : filePosition io size pass j = filePosition io size pass k := by
  induction j, hj using Nat.le_induction with
  | base => rfl
  | succ j hj ih => rw [position_step io size pass j 0 (h j hj), Nat.zero_min, Nat.add_zero, ih]

/-- A pass ends unless it stalls. -/
theorem ends_iff (pass : ℕ) : (∃ rounds, EndsWithin io size pass 0 rounds) ↔
    ¬ Stalls io size pass := by
  constructor
  · rintro ⟨rounds, last, _, _, hend⟩ ⟨k, hbefore, hleft, hzero⟩
    by_cases hlt : last < k
    · obtain ⟨hinside, hwrite⟩ := hbefore last hlt
      exact hend.elim (by omega) fun h => hwrite h.2
    · have hposition := stalled_position io size pass k last hzero (by omega)
      rcases hend with hend | ⟨_, hnone⟩
      · omega
      · rw [hzero last (by omega)] at hnone
        contradiction
  · intro hstalls
    by_contra hends
    have hwrite : ∀ k, io.write pass k ≠ none := fun k hnone =>
      hends ⟨k+1, k, Nat.zero_le k, by omega, Or.inr ⟨by omega, hnone⟩⟩
    have hleft : ∀ k, filePosition io size pass k < size := fun k => by
      have hle := position_le io size pass k
      have hne : filePosition io size pass k ≠ size := fun heq =>
        hends ⟨k, k, Nat.zero_le k, by omega, Or.inl heq⟩
      omega
    have hon : WritesOn io pass := by
      refine ⟨hwrite, fun k => ?_⟩
      by_contra hnone
      refine hstalls ⟨k, fun j _ => ⟨hleft j, hwrite j⟩, hleft k, fun j hj => ?_⟩
      obtain ⟨n, hn⟩ := Option.ne_none_iff_exists'.mp (hwrite j)
      obtain rfl : n = 0 := by
        by_contra hpos
        exact hnone ⟨j, hj, n, hn, Nat.pos_of_ne_zero hpos⟩
      exact hn
    obtain ⟨k, hk⟩ := position_reaches io size pass hon
    exact Nat.lt_irrefl _ ((hleft k).trans_eq hk.symm)

end Chunks

section Passes
variable (io : FileEraseIo) (pattern : ErasePattern) (size : ℕ)

/-- The loops over some passes have a result exactly when each pass that is begun ends
within the rounds. -/
theorem passes_end_iff (fuel first count : ℕ) (s : FileEraseState)
    (hb : s.buffer.length = chunkSize) (hs : s.bytesWritten < 2^64) :
    (fileErasePasses io pattern size fuel (List.range' first count) s).isSome = true ↔
      ∀ pass, first ≤ pass → pass < first+count →
        (∀ p, first ≤ p → p < pass → FilePassWhole io size p) →
          EndsWithin io size pass 0 fuel := by
  induction count generalizing first s with
  | zero => exact iff_of_true rfl fun pass hle hlt => by omega
  | succ count ih =>
    have hends := chunks_end_iff io pattern size first fuel 0 size
      { s with buffer := startBuffer pattern s.buffer } le_rfl (Nat.sub_self size).symm
    rw [List.range'_succ, fileErasePasses]
    rcases hc : fileEraseChunks io pattern size first fuel 0 size
      { s with buffer := startBuffer pattern s.buffer } with _ | ⟨t, done⟩
    · rw [hc] at hends
      refine iff_of_false Bool.false_ne_true fun h => ?_
      have hfirst := h first le_rfl (by omega) fun p hp hlt => by omega
      exact absurd (hends.mpr hfirst) Bool.false_ne_true
    rw [hc] at hends
    have hfirst := hends.mp rfl
    obtain ⟨last, ws, hrun⟩ := fileEraseChunks_run io pattern size first fuel 0 size
      { s with buffer := startBuffer pattern s.buffer } t done le_rfl (Nat.sub_self size).symm
      (startBuffer_buffered pattern s.buffer hb) hs hc
    have hwhole := chunksRun_whole io pattern size first last _ t done ws hrun
    cases done with
    | false =>
      refine iff_of_true rfl fun pass hle _ hearlier => ?_
      rcases Nat.eq_or_lt_of_le hle with rfl | hlt
      · exact hfirst
      · exact absurd (hwhole.mpr (hearlier first le_rfl hlt)) Bool.false_ne_true
    | true =>
      dsimp only
      rw [ih (first+1) { t with passesCompleted := t.passesCompleted+1 } hrun.buffered.1
        (by rw [hrun.bytes]; exact Nat.mod_lt _ (by decide))]
      constructor
      · intro h pass hle hlt hearlier
        rcases Nat.eq_or_lt_of_le hle with rfl | hle
        · exact hfirst
        · exact h pass hle (by omega) fun p hp hlt => hearlier p (by omega) hlt
      · intro h pass hle hlt hearlier
        refine h pass (by omega) (by omega) fun p hp hlt => ?_
        rcases Nat.eq_or_lt_of_le hp with rfl | hp
        · exact hwhole.mp rfl
        · exact hearlier p hp hlt

variable (content : Bytes) (passes : ℕ)

/-- The loops come to an end: some number of rounds is enough. -/
def LoopsEnd : Prop :=
  ∃ fuel, (fileErasePasses io pattern content.length fuel (List.range passes)
    (fileEraseStart io content)).isSome = true

theorem loopsEnd_iff : LoopsEnd io pattern content passes ↔
    ∀ pass, PassBegun io content.length passes pass → ¬ Stalls io content.length pass := by
  have hpasses := fun fuel => passes_end_iff io pattern content.length fuel 0 passes
    (fileEraseStart io content) (by simp [fileEraseStart]) (Nat.two_pow_pos 64)
  rw [LoopsEnd]
  simp only [List.range_eq_range', hpasses, Nat.zero_add, Nat.zero_le, true_implies]
  constructor
  · rintro ⟨fuel, h⟩ pass hbegun
    rw [← ends_iff]
    exact ⟨fuel, h pass hbegun.inside hbegun.earlier⟩
  · intro h
    apply enough_rounds fun pass n =>
      (∀ p < pass, FilePassWhole io content.length p) → EndsWithin io content.length pass 0 n
    · exact fun pass m n hle hm hearlier =>
        endsWithin_mono io content.length pass m n hle (hm hearlier)
    · intro pass hp
      by_cases hearlier : ∀ p < pass, FilePassWhole io content.length p
      · obtain ⟨n, hn⟩ := (ends_iff io content.length pass).mpr (h pass ⟨hp, hearlier⟩)
        exact ⟨n, fun _ => hn⟩
      · exact ⟨0, fun hwhole => absurd hwhole hearlier⟩

theorem call_returns_iff (fs : FileSystem) (path : Text) (opts : FileEraseOptions) (node : ℕ)
    (h : FileStarted fs io path node content) :
    (∃ fuel run, fileErase fuel fs io path opts = some run) ↔
      LoopsEnd io opts.pattern content opts.passes := by
  refine exists_congr fun fuel => ?_
  rcases hp : fileErasePasses io opts.pattern content.length fuel (List.range opts.passes)
    (fileEraseStart io content) with _ | ⟨s, done⟩
  · rw [fileErase_endless fuel fs io path opts node content h hp]
    simp
  · obtain ⟨run, hrun, _⟩ := fileErase_started fuel fs io path opts node content h s done hp
    exact iff_of_true ⟨run, hrun⟩ rfl

/-- The loops end with each round failing or getting on exactly when no write that is
made accepts nothing. They end at all exactly when no pass that is begun stays at writes
that accept nothing. -/
theorem loops_progress_iff :
    ((LoopsEnd io pattern content passes ∧ RoundsProgress io content.length passes) ↔
      ∀ pass k, WriteMade io content.length passes pass k → io.write pass k ≠ some 0) ∧
    (LoopsEnd io pattern content passes ↔
      ∀ pass, PassBegun io content.length passes pass → ¬ Stalls io content.length pass) := by
  refine ⟨?_, loopsEnd_iff io pattern content passes⟩
  rw [progress_iff]
  constructor
  · exact And.right
  · intro h
    refine ⟨(loopsEnd_iff io pattern content passes).mpr ?_, h⟩
    rintro pass hbegun ⟨k, hbefore, hleft, hzero⟩
    exact h pass k ⟨hbegun, hbefore, hleft⟩ (hzero k le_rfl)

end Passes

def idleIo : FileEraseIo := { FileEraseIo.calm with write := fun _ _ => some 0 }

def oncePlain : FileEraseOptions := ⟨.zero, 1, false, false, false⟩

theorem idle_begun : PassBegun idleIo 1 1 0 := ⟨by decide, fun p hp => absurd hp (by omega)⟩

theorem idle_stalls : Stalls idleIo 1 0 := ⟨0, fun k hk => absurd hk (by omega), by decide,
  fun _ _ => rfl⟩

/-- A file of one byte is never erased, with any number of rounds, when `write` returns 0. -/
theorem idle_writes_endless :
    (∀ fuel, fileErase fuel (soleObject "a".toList (.regular [1])) idleIo "a".toList
      oncePlain = none) ∧
    ¬ (LoopsEnd idleIo .zero [1] 1 ∧ RoundsProgress idleIo 1 1) := by
  have hendless : ¬ LoopsEnd idleIo .zero [1] 1 := fun h =>
    (loopsEnd_iff idleIo .zero [1] 1).mp h 0 idle_begun idle_stalls
  have hstarted : FileStarted (soleObject "a".toList (.regular [1])) idleIo "a".toList 0 [1] :=
    ⟨by decide, rfl, rfl, rfl, rfl⟩
  have hreturns := call_returns_iff idleIo [1] (soleObject "a".toList (.regular [1])) "a".toList
    oncePlain 0 hstarted
  refine ⟨fun fuel => ?_, fun h => hendless h.1⟩
  rw [Option.eq_none_iff_forall_ne_some]
  exact fun run hrun => hendless (hreturns.mp ⟨fuel, run, hrun⟩)

end EraseCure.OverwriteLoops
