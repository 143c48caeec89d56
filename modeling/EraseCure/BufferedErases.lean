import EraseCure.ForgottenContents

/-!
# What an erase of an image leaves in the file

A pass writes through the buffer of a stream, and only its flush tells whether the
bytes have come to the file. Of a pass that is not flushed the file may hold any first
part of what the stream has taken, though the counter has all of it. All else that a
run tells is the same, and a run that succeeds has flushed every pass.
-/

set_option autoImplicit false

namespace EraseCure.BufferedErases
open EraseCure.CText EraseCure.Devices EraseCure.FileSystems EraseCure.TornWrites
open EraseCure.ErasePasses EraseCure.BlockEraseImage EraseCure.TornErases
open EraseCure.ProgressTraces EraseCure.ForgottenContents

section Passes
variable (io : ImageIo) (imagePath : Text) (opts : BlockEraseOptions)

/-- How much of a pass that comes so far is in the file. -/
def arrived (drained : ℕ → ℕ) (pass : ℕ) (through : Bool) (reached : ℕ) : ℕ :=
  if through then reached else min (drained pass) reached

def inFile (drained : ℕ → ℕ) (stop : Stop) : Stop :=
  { stop with reached := arrived drained stop.pass stop.through stop.reached }

theorem inFile_le (drained : ℕ → ℕ) (stop : Stop) :
    (inFile drained stop).reached ≤ stop.reached := by
  rw [inFile, arrived]
  split_ifs
  · exact le_rfl
  · exact Nat.min_le_right _ _

theorem inFile_through (drained : ℕ → ℕ) (stop : Stop) (h : stop.through = true) :
    (inFile drained stop).reached = stop.reached := by
  rw [inFile, arrived, if_pos h]

theorem inFile_part (drained : ℕ → ℕ) (stop : Stop) (h : stop.through = false) :
    (inFile drained stop).reached = min (drained stop.pass) stop.reached := by
  rw [inFile, arrived, h, if_neg Bool.false_ne_true]

theorem bufferedPass_torn (size total pass : ℕ) : ∃ reached counted through,
    Reach (imageStream io opts size pass) size (clampBlockSize opts.blockSize) reached counted
        through ∧
      ∀ drained s, PassTorn (imageStream io opts size pass) (arrived drained pass through reached)
        counted through s
        (bufferedPass io opts imagePath size (clampBlockSize opts.blockSize) total pass drained
          s) := by
  obtain ⟨reached, counted, through, hreach, hpass⟩ := imagePass_torn io imagePath opts size total
    pass
  refine ⟨reached, counted, through, hreach, fun drained s => ?_⟩
  have h := hpass s
  rw [bufferedPass]
  rcases hs : imagePass io opts imagePath size (clampBlockSize opts.blockSize) total pass s with
    ⟨s', _ | e⟩
  · rw [hs] at h
    obtain rfl := h.through_iff.mp rfl
    exact h
  · rw [hs] at h
    obtain rfl : through = false := by
      rw [← Bool.not_eq_true, ← h.through_iff]
      exact Option.some_ne_none e
    have hcontent : s'.content = _ := h.content
    refine ⟨?_, h.bytesWritten, h.passesCompleted, h.through_iff⟩
    dsimp only
    rw [hcontent]
    exact torn_torn _ _ reached (drained pass) hreach.le

/-- Where the passes over an image stop, and what is in the file then. -/
theorem buffered_stop (size : ℕ) : ∃ stop : Stop,
    stop.Fits (imageStream io opts size) size (clampBlockSize opts.blockSize)
        (List.range (clampPasses opts.passes)) ∧
      ∀ drained s, (inFile drained stop).Left (imageStream io opts size) size s
        (runPasses (fun pass => bufferedPass io opts imagePath size
            (clampBlockSize opts.blockSize) (size*clampPasses opts.passes % 2^64) pass drained)
          (List.range (clampPasses opts.passes)) s) := by
  have hne : List.range (clampPasses opts.passes) ≠ [] := by
    have := clampPasses_pos opts.passes
    rw [Ne, List.range_eq_nil]
    omega
  obtain ⟨first, rest, hpasses⟩ := List.exists_cons_of_ne_nil hne
  obtain ⟨stop, hfits, hleft⟩ := runPasses_stop (imageStream io opts size) size
    (clampBlockSize opts.blockSize) (fun drained pass => bufferedPass io opts imagePath size
      (clampBlockSize opts.blockSize) (size*clampPasses opts.passes % 2^64) pass drained)
    arrived (fun _ _ _ => rfl)
    (bufferedPass_torn io imagePath opts size (size*clampPasses opts.passes % 2^64)) first rest
  rw [hpasses]
  exact ⟨stop, hfits, hleft⟩

theorem bufferedPass_same (drained : ℕ → ℕ) (size blockSize total pass : ℕ) (s : EraseState) :
    let out := imagePass io opts imagePath size blockSize total pass s
    let out' := bufferedPass io opts imagePath size blockSize total pass drained s
    blinded out'.1 = blinded out.1 ∧ out'.2 = out.2 ∧ (out.2 = none → out' = out) := by
  dsimp only
  rw [bufferedPass]
  rcases imagePass io opts imagePath size blockSize total pass s with ⟨s', _ | e⟩
  · exact ⟨rfl, rfl, fun _ => rfl⟩
  · exact ⟨rfl, rfl, fun h => absurd h (Option.some_ne_none e)⟩

end Passes

theorem runPasses_same (step step' : ℕ → EraseState → EraseState × Option Failure)
    (h : ∀ pass s, blinded (step' pass s).1 = blinded (step pass s).1 ∧
      (step' pass s).2 = (step pass s).2 ∧ ((step pass s).2 = none → step' pass s = step pass s))
    (passes : List ℕ) (s : EraseState) :
    blinded (runPasses step' passes s).1 = blinded (runPasses step passes s).1 ∧
      (runPasses step' passes s).2 = (runPasses step passes s).2 ∧
      ((runPasses step passes s).2 = none →
        runPasses step' passes s = runPasses step passes s) := by
  induction passes generalizing s with
  | nil => exact ⟨rfl, rfl, fun _ => rfl⟩
  | cons pass rest ih =>
    obtain ⟨hstate, hfail, hsame⟩ := h pass s
    rw [runPasses, runPasses]
    rcases hs : step pass s with ⟨t, _ | e⟩
    · rw [hs] at hsame
      rw [hsame rfl]
      exact ih t
    · rw [hs] at hstate hfail
      rcases hs' : step' pass s with ⟨t', _ | e'⟩
      · rw [hs'] at hfail
        contradiction
      · rw [hs'] at hstate hfail
        obtain rfl := Option.some.inj hfail
        exact ⟨hstate, rfl, fun h => absurd h (Option.some_ne_none e')⟩

section Runs
variable (drained : ℕ → ℕ) (fs : FileSystem) (io : ImageIo) (imagePath : Text)
  (opts : BlockEraseOptions)

/-- The buffer changes nothing of what a run tells, and of a run that succeeds nothing at
all. -/
theorem buffered_run :
    SameReports (blockEraseImageBuffered drained fs io imagePath opts)
        (blockEraseImage fs io imagePath opts) ∧
      ((blockEraseImage fs io imagePath opts).code = .ok →
        blockEraseImageBuffered drained fs io imagePath opts =
          blockEraseImage fs io imagePath opts) := by
  rw [blockEraseImageBuffered, blockEraseImage]
  rcases eraseImageRun_cases fs io imagePath opts with
    ⟨node, content, _, _, _, _, hrun⟩ | ⟨code, message, hcode, hrun⟩
  · obtain ⟨hstate, hfail, hsame⟩ := runPasses_same _ _
      (bufferedPass_same io imagePath opts drained content.length (clampBlockSize opts.blockSize)
        (content.length*clampPasses opts.passes % 2^64))
      (List.range (clampPasses opts.passes)) (eraseStart content)
    rw [hrun, hrun]
    refine ⟨finished_reports _ _ node _ _ hstate hfail, fun hok => ?_⟩
    rw [hsame (finished_ok fs node _ (imagePassesOf_fails io imagePath opts content) hok)]
  · rw [hrun, hrun]
    exact ⟨⟨rfl, rfl, rfl, rfl⟩, fun _ => rfl⟩

/-- A run over a file is refused before it writes, or it ends where its passes stop. -/
theorem buffered_ends {size : ℕ} (stop : Stop)
    (hwhole : ∀ p ∈ stop.before, (imageStream io opts size p).length = size)
    (hleft : ∀ s, (inFile drained stop).Left (imageStream io opts size) size s
      (runPasses (fun pass => bufferedPass io opts imagePath size
          (clampBlockSize opts.blockSize) (size*clampPasses opts.passes % 2^64) pass drained)
        (List.range (clampPasses opts.passes)) s))
    (node : ℕ) (content : Bytes) (hres : fs.resolve imagePath = some node)
    (hfile : fs.object node = .regular content) (hlen : content.length = size) :
    Untouched fs (blockEraseImageBuffered drained fs io imagePath opts) ∨
      ∃ new, (blockEraseImageBuffered drained fs io imagePath opts).fs = fs.store node new ∧
        Leaves (imageStream io opts size) size (inFile drained stop) content new
          (blockEraseImageBuffered drained fs io imagePath opts) := by
  subst hlen
  rw [blockEraseImageBuffered]
  rcases eraseImageRun_cases fs io imagePath opts with
    ⟨node', content', _, hres', hfile', _, hrun⟩ | ⟨code, message, hcode, hrun⟩
  · obtain rfl := Option.some.inj (hres.symm.trans hres')
    obtain rfl := Object.regular.inj (hfile.symm.trans hfile')
    have hfails := imagePassesOf_fails io imagePath opts content
    have hsame := (runPasses_same _ _ (bufferedPass_same io imagePath opts drained content.length
      (clampBlockSize opts.blockSize) (content.length*clampPasses opts.passes % 2^64))
      (List.range (clampPasses opts.passes)) (eraseStart content)).2.1
    rw [hrun]
    exact Or.inr ⟨_, rfl, finished_leaves fs node _ _ (inFile drained stop) content _ hwhole
      (hleft _) (hsame ▸ hfails)⟩
  · rw [hrun]
    exact Or.inl ⟨rfl, hcode, rfl, rfl⟩

/-- Where a run over a file of a size stops is fixed by what its calls return. It leaves
the bytes of the pass it stops in, as far as they have come to the file, over those of
the pass before, or over the old content when there is none, and it is refused only
before anything is written. -/
theorem image_leaves (size : ℕ) : ∃ stop : Stop,
    stop.Fits (imageStream io opts size) size (clampBlockSize opts.blockSize)
        (List.range (clampPasses opts.passes)) ∧
      ∀ drained fs node content, fs.resolve imagePath = some node →
        fs.object node = .regular content → content.length = size →
        Untouched fs (blockEraseImageBuffered drained fs io imagePath opts) ∨
          ∃ new, (blockEraseImageBuffered drained fs io imagePath opts).fs = fs.store node new ∧
            Leaves (imageStream io opts size) size (inFile drained stop) content new
              (blockEraseImageBuffered drained fs io imagePath opts) := by
  obtain ⟨stop, hfits, hleft⟩ := buffered_stop io imagePath opts size
  exact ⟨stop, hfits, fun drained fs node content =>
    buffered_ends drained fs io imagePath opts stop hfits.whole (hleft drained) node content⟩

end Runs

def unflushedIo : ImageIo :=
  { ImageIo.calm with
    random := fun pass _ => some (fun _ => if pass = 0 then 0x5A else 0xA5)
    flushed := fun pass => pass = 0 }

theorem image_leaves_unflushed : ∃ stop new,
    (blockEraseImageBuffered (fun _ => 2) (soleObject "a".toList (.regular [1, 2, 3])) unflushedIo
        "a".toList twiceRandom).fs = (soleObject "a".toList (.regular [1, 2, 3])).store 0 new ∧
      new = [0xA5, 0xA5, 0x5A] ∧
      Leaves (imageStream unflushedIo twiceRandom 3) 3 (inFile (fun _ => 2) stop) [1, 2, 3] new
        (blockEraseImageBuffered (fun _ => 2) (soleObject "a".toList (.regular [1, 2, 3]))
          unflushedIo "a".toList twiceRandom) := by
  obtain ⟨stop, _, hleaves⟩ := image_leaves unflushedIo "a".toList twiceRandom 3
  rcases hleaves (fun _ => 2) (soleObject "a".toList (.regular [1, 2, 3])) 0 [1, 2, 3] rfl rfl rfl
    with hnone | ⟨new, hfs, hleft⟩
  · exact absurd hnone.2.2.2 (by decide)
  · refine ⟨stop, new, hfs, ?_, hleft⟩
    have hobj : ((soleObject "a".toList (.regular [1, 2, 3])).store 0 new).object 0 =
        Object.regular new := store_same _ 0 new
    rw [← hfs] at hobj
    exact (Object.regular.inj hobj).symm

end EraseCure.BufferedErases
