import EraseCure.DangerousPaths
import EraseCure.EraseRoundTrip
import EraseCure.FilePasses
import EraseCure.ProgressTraces

/-!
# Two erasers of one file

One eraser writes chunks of 4096 bytes and goes on after a short write, the
other writes blocks of the given size in full. When nothing fails both come to
the end of every pass and leave the same file system with the same counts.
-/

set_option autoImplicit false

namespace EraseCure.EraserAgreement
open EraseCure.CText EraseCure.Devices EraseCure.FileSystems
open EraseCure.ErasePasses EraseCure.BlockEraseImage
open EraseCure.PassTraces EraseCure.ProgressTraces
open EraseCure.FileVerify EraseCure.FileEraser EraseCure.FilePasses
open EraseCure.FileOverwrites EraseCure.EraseRoundTrip EraseCure.DangerousPaths

theorem blockdev_guarded : ∀ p ∈ blockdevPrefixes, "/dev/".toList <+: p := by
  decide

theorem unguarded_no_device (fs : FileSystem) (path : Text) (content : Bytes)
    (hd : FileEraser.isDangerousPath path = false)
    (hs : fs.stat path = some (.regular content)) : devicePathIsBlockDevice fs path = false := by
  by_contra h
  rcases (blockDevice_iff fs path).mp (Bool.eq_true_of_not_eq_false h) with ⟨p, hp, hpre⟩ | ⟨c, hc⟩
  · have hguard : Guarded path :=
      ⟨"/dev/".toList, by decide, (blockdev_guarded p hp).trans hpre⟩
    rw [(fileGuard_iff path).mpr hguard] at hd
    contradiction
  · rw [hs] at hc
    cases hc

theorem enough_rounds (P : ℕ → ℕ → Prop) (hmono : ∀ pass m n, m ≤ n → P pass m → P pass n)
    (passes : ℕ) (h : ∀ pass < passes, ∃ n, P pass n) : ∃ n, ∀ pass < passes, P pass n := by
  induction passes with
  | zero => exact ⟨0, fun pass hp => absurd hp (Nat.not_lt_zero pass)⟩
  | succ passes ih =>
    obtain ⟨m, hm⟩ := ih fun pass hp => h pass (by omega)
    obtain ⟨n, hn⟩ := h passes (Nat.lt_succ_self passes)
    refine ⟨max m n, fun pass hp => ?_⟩
    rcases Nat.lt_succ_iff_lt_or_eq.mp hp with hp | rfl
    · exact hmono pass m _ (le_max_left m n) (hm pass hp)
    · exact hmono pass n _ (le_max_right m n) hn

section Chunks
variable (io : FileEraseIo) (size : ℕ)

/-- No write of a pass fails, and the writes accept something again and again. -/
def WritesOn (pass : ℕ) : Prop :=
  (∀ k, io.write pass k ≠ none) ∧ ∀ k, ∃ j, k ≤ j ∧ ∃ n, io.write pass j = some n ∧ 0 < n

theorem position_reaches (pass : ℕ) (h : WritesOn io pass) :
    ∃ k, filePosition io size pass k = size := by
  have hreach : ∀ left k, size-filePosition io size pass k = left →
      ∃ j, filePosition io size pass j = size := by
    intro left
    induction left using Nat.strong_induction_on with
    | _ left ih =>
      intro k hleft
      rcases Nat.eq_or_lt_of_le (position_le io size pass k) with heq | hlt
      · exact ⟨k, heq⟩
      · obtain ⟨j, hkj, n, hwrite, hn⟩ := h.2 k
        have hmono := position_mono io size pass k j hkj
        rcases Nat.eq_or_lt_of_le (position_le io size pass j) with heq | hj
        · exact ⟨j, heq⟩
        · have hstep := position_step io size pass j n hwrite
          have hpos := toWrite_pos (size-filePosition io size pass j) (by omega)
          exact ih _ (by omega) (j+1) rfl
  exact hreach _ 0 rfl

/-- Some number of rounds is enough for all of the passes. -/
theorem rounds_suffice (passes : ℕ) (h : ∀ pass < passes, WritesOn io pass) :
    ∃ rounds, ∀ pass < passes, ∀ k, rounds ≤ k → filePosition io size pass k = size := by
  apply enough_rounds fun pass rounds => ∀ k, rounds ≤ k → filePosition io size pass k = size
  · exact fun pass m n hle hm k hk => hm k (hle.trans hk)
  · intro pass hp
    obtain ⟨last, hlast⟩ := position_reaches io size pass (h pass hp)
    refine ⟨last, fun k hk => ?_⟩
    have hmono := position_mono io size pass last k hk
    have hle := position_le io size pass k
    omega

variable (pattern : ErasePattern)

theorem chunks_through (pass fuel k bytesLeft : ℕ) (s : FileEraseState)
    (hw : ∀ k, io.write pass k ≠ none) (hk : filePosition io size pass k = size-bytesLeft)
    (hl : bytesLeft ≤ size) (hend : filePosition io size pass (k+fuel) = size) :
    ∃ s', fileEraseChunks io pattern size pass fuel k bytesLeft s = some (s', true) := by
  induction fuel generalizing k bytesLeft s with
  | zero =>
    rw [Nat.add_zero] at hend
    rw [show bytesLeft = 0 by omega, fileEraseChunks_end]
    exact ⟨s, rfl⟩
  | succ fuel ih =>
    by_cases h0 : bytesLeft = 0
    · rw [h0, fileEraseChunks_end]
      exact ⟨s, rfl⟩
    · obtain ⟨n, hn⟩ := Option.ne_none_iff_exists'.mp (hw k)
      have hle := (toWrite_le bytesLeft).1
      have hstep := position_step io size pass k n hn
      rw [hk, show size-(size-bytesLeft) = bytesLeft by omega] at hstep
      rw [fileEraseChunks_written io pattern size pass fuel k bytesLeft s h0 n hn]
      exact ih (k+1) (bytesLeft-min n (toWrite bytesLeft)) _ (by omega) (by omega)
        (by rw [← hend]; congr 1; omega)

theorem passes_through (fuel : ℕ) (passes : List ℕ) (s : FileEraseState)
    (hw : ∀ pass ∈ passes, ∀ k, io.write pass k ≠ none)
    (hend : ∀ pass ∈ passes, filePosition io size pass fuel = size) :
    ∃ s', fileErasePasses io pattern size fuel passes s = some (s', true) := by
  induction passes generalizing s with
  | nil => exact ⟨s, rfl⟩
  | cons pass rest ih =>
    obtain ⟨s₁, hrun⟩ := chunks_through io size pattern pass fuel 0 size
      { s with buffer := startBuffer pattern s.buffer } (hw pass List.mem_cons_self)
      (Nat.sub_self size).symm (Nat.le_refl size)
      (by rw [Nat.zero_add]; exact hend pass List.mem_cons_self)
    rw [fileErasePasses, hrun]
    exact ih _ (fun p hp => hw p (List.mem_cons_of_mem pass hp))
      (fun p hp => hend p (List.mem_cons_of_mem pass hp))

/-- What the passes leave when they go through with a constant pattern. -/
theorem passes_erase (fuel passes : ℕ) (content : Bytes) (s : FileEraseState) (b : UInt8)
    (hb : patternByte pattern = some b) (hpos : 0 < passes)
    (hbytes : passes*content.length < 2^64)
    (h : fileErasePasses io pattern content.length fuel (List.range passes)
      (fileEraseStart io content) = some (s, true)) :
    s.content = List.replicate content.length b ∧ s.bytesWritten = passes*content.length ∧
      s.passesCompleted = passes := by
  rw [List.range_eq_range'] at h
  obtain ⟨pass, last, hran⟩ := fileErasePasses_run io pattern content.length fuel 0 passes _ s true
    (by simp [fileEraseStart]) (Nat.two_pow_pos 64) rfl h
  obtain ⟨rfl, rfl⟩ : pass = passes ∧ last = 0 := by
    rcases hran.stopped.ends with ⟨_, hpass, hlast⟩ | ⟨hdone, _⟩
    · exact ⟨by omega, hlast⟩
    · exact absurd hdone (by decide)
  refine ⟨?_, ?_, ?_⟩
  · have hlen : s.content.length = content.length := hran.kept
    have hconstant := hran.constant rfl hpos b hb
    rw [← hlen] at hconstant ⊢
    exact eq_replicate s.content b hconstant
  · rw [hran.bytes, Nat.sub_zero, filePosition, Nat.add_zero]
    exact (congrArg (· % 2^64) (Nat.zero_add _)).trans (Nat.mod_eq_of_lt hbytes)
  · rw [hran.completed, Nat.sub_zero]
    exact Nat.zero_add _

end Chunks

section Image
variable (io : ImageIo) (opts : BlockEraseOptions) (imagePath : Text) (b : UInt8)
  (fileSize blockSize total : ℕ)

/-- Nothing fails when the eraser writes an image in blocks of this size. -/
def WritesWell : Prop :=
  io.allocated = true ∧ ∀ pass, io.opened pass = true ∧ io.flushed pass = true ∧
    ∀ k, blockSize ≤ io.accepted pass k

theorem fill_constant (rand : RandBytes) (len : ℕ) (pattern : ErasePattern)
    (hb : patternByte pattern = some b) :
    ∃ buf, blockEraseFillPattern rand len pattern = .ok buf := by
  cases pattern with
  | zero | one => exact ⟨_, rfl⟩
  | random | other => cases hb

theorem imageChunks_through (pass fuel k remaining : ℕ) (s : EraseState)
    (hb : patternByte opts.pattern = some b) (hw : ∀ k, blockSize ≤ io.accepted pass k) :
    (imageChunks io opts fileSize blockSize total pass fuel k remaining s).2 = none := by
  induction fuel generalizing k remaining s with
  | zero => rfl
  | succ fuel ih =>
    by_cases h0 : remaining = 0
    · rw [h0, imageChunks, eraseChunks_end]
    rcases eraseChunks_cases opts.pattern (io.random pass) "Pattern generation failed.".toList
      (imageWrite io pass) opts.progressCb fileSize blockSize total fuel k remaining s h0 with
      ⟨e, hfill, _⟩ | ⟨buf, hfill, hwritten⟩
    · obtain ⟨buf, hbuf⟩ := fill_constant b (io.random pass k) _ opts.pattern hb
      rw [hfill] at hbuf
      contradiction
    · obtain ⟨hlen, hfilled⟩ := fill_ok _ _ _ _ hfill
      have hcomplete := (imageWrite_delivers io opts pass k (fileSize-remaining) buf s
        hfilled).complete
      rcases hwritten with ⟨s', e, hfails, _⟩ | ⟨s', _, hout⟩
      · have haccepted := hw k
        rw [hfails] at hcomplete
        exact absurd (hcomplete.mpr (Nat.min_eq_right (by omega))) (by simp)
      · rw [imageChunks, hout]
        exact ih _ _ _

theorem imagePass_through (pass : ℕ) (s : EraseState) (hb : patternByte opts.pattern = some b)
    (hs : 0 < blockSize) (hw : WritesWell io blockSize) :
    ∃ s', imagePass io opts imagePath fileSize blockSize total pass s = (s', none) ∧
      s'.passesCompleted = s.passesCompleted+1 := by
  obtain ⟨hopened, hflushed, haccepted⟩ := hw.2 pass
  have hthrough := imageChunks_through io opts b fileSize blockSize total pass fileSize 0 fileSize s
    hb haccepted
  obtain ⟨_, _, _, _, _, hcompleted⟩ := eraseChunks_trace opts.pattern (io.random pass)
    "Pattern generation failed.".toList (imageWrite io pass) opts.progressCb fileSize blockSize
    total pass _ (imageWrite_delivers io opts pass) fileSize 0 fileSize s hs le_rfl le_rfl
  rcases hchunks : imageChunks io opts fileSize blockSize total pass fileSize 0 fileSize s with
    ⟨s', f⟩
  rw [hchunks] at hthrough
  obtain rfl : f = none := hthrough
  change (imageChunks io opts fileSize blockSize total pass fileSize 0 fileSize
    s).1.passesCompleted = _ at hcompleted
  rw [hchunks] at hcompleted
  refine ⟨s'.passDone, ?_, congrArg (·+1) hcompleted⟩
  rw [imagePass, if_pos hopened, hchunks]
  exact if_pos hflushed

theorem imagePasses_through (passes : List ℕ) (s : EraseState)
    (hb : patternByte opts.pattern = some b) (hs : 0 < blockSize) (hw : WritesWell io blockSize) :
    ∃ s', runPasses (imagePass io opts imagePath fileSize blockSize total) passes s = (s', none) ∧
      s'.passesCompleted = s.passesCompleted+passes.length := by
  induction passes generalizing s with
  | nil => exact ⟨s, rfl, rfl⟩
  | cons pass rest ih =>
    obtain ⟨s₁, hrun, hpass⟩ := imagePass_through io opts imagePath b fileSize blockSize total pass
      s hb hs hw
    obtain ⟨s₂, hrun₂, hpasses⟩ := ih s₁
    refine ⟨s₂, ?_, ?_⟩
    · rw [runPasses, hrun]
      exact hrun₂
    · rw [hpasses, hpass, List.length_cons]
      omega

end Image

section File
variable (fs : FileSystem) (path : Text) (content : Bytes) (node : ℕ) (b : UInt8)

theorem blockEraseImage_through (io : ImageIo) (opts : BlockEraseOptions) (s : EraseState)
    (hdev : devicePathIsBlockDevice fs path = false) (hres : fs.resolve path = some node)
    (hfile : fs.object node = .regular content) (hne : content ≠ []) (ha : io.allocated = true)
    (hrun : imagePassesOf io path opts content = (s, none)) :
    let run := blockEraseImage fs io path opts
    run.code = .ok ∧ run.result.bytesWritten = s.bytesWritten ∧
      run.result.passesCompleted = s.passesCompleted := by
  have hlen : content.length ≠ 0 := fun h => hne (List.length_eq_zero_iff.mp h)
  rw [imagePassesOf] at hrun
  simp only [blockEraseImage, eraseImageRun, hdev, hres, hfile, if_neg hlen, ha, hrun,
    Bool.not_true, Bool.false_eq_true, if_false]
  exact ⟨rfl, rfl, rfl⟩

theorem blockEraseImage_erases (io : ImageIo) (opts : BlockEraseOptions)
    (hd : FileEraser.isDangerousPath path = false) (hres : fs.resolve path = some node)
    (hfile : fs.object node = .regular content) (hne : content ≠ [])
    (hb : patternByte opts.pattern = some b) (hclamp : clampPasses opts.passes = opts.passes)
    (hbytes : opts.passes*content.length < 2^64)
    (hio : WritesWell io (clampBlockSize opts.blockSize)) :
    let run := blockEraseImage fs io path opts
    run.code = .ok ∧ run.fs = fs.store node (List.replicate content.length b) ∧
      run.result.bytesWritten = opts.passes*content.length ∧
      run.result.passesCompleted = opts.passes := by
  have hstat : fs.stat path = some (.regular content) := by
    rw [FileSystem.stat, hres, Option.map_some, hfile]
  obtain ⟨s, hs, hpasses⟩ := imagePasses_through io opts path b content.length
    (clampBlockSize opts.blockSize) (content.length*clampPasses opts.passes % 2^64)
    (List.range (clampPasses opts.passes)) (eraseStart content) hb (clampBlockSize_pos _) hio
  obtain ⟨_, _, _, hdone⟩ := imagePassesOf_accounted io path opts content
    (by rw [hclamp]; exact hbytes)
  change imagePassesOf io path opts content = (s, none) at hs
  rw [hs] at hdone
  have hcount : s.bytesWritten = 0+clampPasses opts.passes*content.length := (hdone rfl).1
  obtain ⟨hok, hrcount, hrpasses⟩ := blockEraseImage_through fs path content node io opts s
    (unguarded_no_device fs path content hd hstat) hres hfile hne hio.1 hs
  rw [hclamp, Nat.zero_add] at hcount
  rw [List.length_range, hclamp] at hpasses
  refine ⟨hok, blockEraseImage_constant fs io path opts node content b hres hfile hb hok,
    hrcount.trans hcount, hrpasses.trans (hpasses.trans (Nat.zero_add _))⟩

theorem fileErase_erases (io : FileEraseIo) (opts : FileEraseOptions)
    (hd : FileEraser.isDangerousPath path = false) (hl : fs.resolveLink path = some node)
    (hfile : fs.object node = .regular content) (hb : patternByte opts.pattern = some b)
    (hpos : 1 ≤ opts.passes) (hbytes : opts.passes*content.length < 2^64)
    (hkeep : opts.removeFile = false) (ho : io.opened = true) (ha : io.allocated = true)
    (hw : ∀ pass < opts.passes, WritesOn io pass) :
    ∃ rounds, ∀ fuel, rounds ≤ fuel → ∃ run, fileErase fuel fs io path opts = some run ∧
      run.result.resultCode = .ok ∧ run.fs = fs.store node (List.replicate content.length b) ∧
      run.result.bytesWritten = opts.passes*content.length ∧
      run.result.passesCompleted = opts.passes := by
  obtain ⟨rounds, hrounds⟩ := rounds_suffice io content.length opts.passes hw
  refine ⟨rounds, fun fuel hfuel => ?_⟩
  obtain ⟨s, hs⟩ := passes_through io content.length opts.pattern fuel (List.range opts.passes)
    (fileEraseStart io content) (fun pass hp => (hw pass (List.mem_range.mp hp)).1)
    (fun pass hp => hrounds pass (List.mem_range.mp hp) fuel hfuel)
  obtain ⟨hcontent, hcount, hpasses⟩ :=
    passes_erase io opts.pattern fuel opts.passes content s b hb hpos hbytes hs
  obtain ⟨run, hrun, hended⟩ := fileErase_started fuel fs io path opts node content
    ⟨hd, hl, hfile, ho, ha⟩ s true hs
  have hkept : run.result.fileRemoved = false := by
    rw [hended.removed, hkeep]
    rfl
  refine ⟨run, hrun, hended.ok_iff.mpr rfl, ?_, hended.bytesWritten.trans hcount,
    hended.passesCompleted.trans hpasses⟩
  rw [hended.fs, hkept, hcontent]
  exact if_neg Bool.false_ne_true

/-- On a regular file outside the guarded directories both erasers succeed
with a constant pattern, however short the writes of the one are and whatever
the block size of the other. They leave the same file system, in which the
file has its length and holds the byte everywhere, and count the same. -/
theorem erasers_agree (io : FileEraseIo) (iio : ImageIo) (opts : FileEraseOptions)
    (blockSize : ℕ) (verifyMode : VerifyMode) (progressCb : Bool)
    (hd : FileEraser.isDangerousPath path = false) (hl : fs.resolveLink path = some node)
    (hres : fs.resolve path = some node) (hfile : fs.object node = .regular content)
    (hne : content ≠ []) (hp : opts.pattern = .zero ∨ opts.pattern = .one)
    (h1 : 1 ≤ opts.passes) (h35 : opts.passes ≤ 35) (hbytes : opts.passes*content.length < 2^64)
    (hkeep : opts.removeFile = false) (ho : io.opened = true) (ha : io.allocated = true)
    (hw : ∀ pass < opts.passes, WritesOn io pass)
    (hiio : WritesWell iio (clampBlockSize blockSize)) :
    let image := blockEraseImage fs iio path
      ⟨opts.pattern, blockSize, opts.passes, verifyMode, progressCb⟩
    ∃ rounds, ∀ fuel, rounds ≤ fuel → ∃ run, fileErase fuel fs io path opts = some run ∧
      run.result.resultCode = .ok ∧ image.code = .ok ∧
      run.fs = image.fs ∧
      (∃ erased, run.fs.object node = .regular erased ∧ erased.length = content.length) ∧
      run.result.passesCompleted = opts.passes ∧ image.result.passesCompleted = opts.passes ∧
      run.result.bytesWritten = opts.passes*content.length ∧
      image.result.bytesWritten = opts.passes*content.length := by
  intro image
  obtain ⟨b, hb⟩ : ∃ b, patternByte opts.pattern = some b := by
    rcases hp with h | h
    · exact ⟨0x00, by rw [h]; rfl⟩
    · exact ⟨0xFF, by rw [h]; rfl⟩
  have hclamp : clampPasses opts.passes = opts.passes := by
    rw [clampPasses, if_neg (by omega), if_neg (by rw [maxPasses]; omega)]
  obtain ⟨hok, hifs, hicount, hipasses⟩ := blockEraseImage_erases fs path content node b iio
    ⟨opts.pattern, blockSize, opts.passes, verifyMode, progressCb⟩ hd hres hfile hne hb hclamp
    hbytes hiio
  obtain ⟨rounds, hrounds⟩ := fileErase_erases fs path content node b io opts hd hl hfile hb h1
    hbytes hkeep ho ha hw
  refine ⟨rounds, fun fuel hfuel => ?_⟩
  obtain ⟨run, hrun, hcode, hfs, hcount, hpasses⟩ := hrounds fuel hfuel
  refine ⟨run, hrun, hcode, hok, hfs.trans hifs.symm, ?_, hpasses, hipasses, hcount, hicount⟩
  have hobj : run.fs.object node = .regular (List.replicate content.length b) := by
    rw [hfs, store_same, hfile]
    rfl
  exact ⟨_, hobj, List.length_replicate⟩

end File

def haltingIo : FileEraseIo := { FileEraseIo.calm with write := fun _ k => some (k%2) }

theorem halting_writesOn (pass : ℕ) : WritesOn haltingIo pass :=
  ⟨fun _ => by nofun, fun k => ⟨2*k+1, by omega, 1, congrArg some (by omega), Nat.one_pos⟩⟩

theorem calm_writesWell (blockSize : ℕ) : WritesWell ImageIo.calm (clampBlockSize blockSize) :=
  ⟨rfl, fun _ => ⟨rfl, rfl, fun _ => clampBlockSize_le blockSize⟩⟩

def twicePlain : FileEraseOptions := ⟨.one, 2, false, false, false⟩

theorem erasers_agree_halting : ∃ fuel run,
    fileErase fuel (soleObject "a".toList (.regular [1, 2, 3])) haltingIo "a".toList
      twicePlain = some run ∧
    run.fs = (blockEraseImage (soleObject "a".toList (.regular [1, 2, 3])) ImageIo.calm
      "a".toList ⟨.one, 600, 2, .none, false⟩).fs ∧
    run.result.bytesWritten = 6 := by
  obtain ⟨rounds, hrounds⟩ := erasers_agree (soleObject "a".toList (.regular [1, 2, 3]))
    "a".toList [1, 2, 3] 0 haltingIo ImageIo.calm twicePlain 600 .none false (by decide) rfl rfl
    rfl (List.cons_ne_nil _ _) (Or.inr rfl) (by decide) (by decide) (by decide) rfl rfl rfl
    (fun pass _ => halting_writesOn pass) (calm_writesWell 600)
  obtain ⟨run, hrun, _, _, hfs, _, _, _, hbytes, _⟩ := hrounds rounds (Nat.le_refl rounds)
  exact ⟨rounds, run, hrun, hfs, hbytes⟩

end EraseCure.EraserAgreement
