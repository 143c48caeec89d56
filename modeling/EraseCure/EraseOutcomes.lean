import EraseCure.AcceptedBytes
import EraseCure.ProgressTraces

/-!
# When an erase succeeds

An eraser succeeds exactly when its target passes the checks and every pass goes
through, and a pass goes through when it can begin, takes all of each chunk and is
flushed.
-/

set_option autoImplicit false

namespace EraseCure.EraseOutcomes
open EraseCure.CText EraseCure.Devices EraseCure.FileSystems
open EraseCure.ErasePasses EraseCure.BlockEraseImage EraseCure.BlockEraseDevice
open EraseCure.PassTraces EraseCure.DevicePasses EraseCure.ProgressTraces
open EraseCure.AcceptedBytes

theorem runPasses_through (step : ℕ → EraseState → EraseState × Option Failure) (whole : ℕ → Prop)
    (h : ∀ pass s, (step pass s).2 = none ↔ whole pass) (passes : List ℕ) (s : EraseState) :
    (runPasses step passes s).2 = none ↔ ∀ pass ∈ passes, whole pass := by
  induction passes generalizing s with
  | nil => exact iff_of_true rfl fun _ hp => absurd hp List.not_mem_nil
  | cons pass rest ih =>
    have hpass := h pass s
    rw [runPasses, List.forall_mem_cons, ← hpass]
    rcases step pass s with ⟨s', _ | e⟩
    · rw [and_iff_right rfl]
      exact ih s'
    · exact iff_of_false (Option.some_ne_none e) fun h => Option.some_ne_none e h.1

theorem finished_ok_iff (fs : FileSystem) (node : ℕ) (out : EraseState × Option Failure)
    (hfails : ∀ e ∈ out.2, e.1 ≠ .ok) : (finished fs node out).code = .ok ↔ out.2 = none := by
  refine ⟨finished_ok fs node out hfails, fun h => ?_⟩
  rw [finished, h]

section Image
variable (fs : FileSystem) (io : ImageIo) (imagePath : Text) (opts : BlockEraseOptions)

/-- What `fwrite` takes of a chunk. -/
def imageTaken (pass k _start len : ℕ) : ℕ := min (io.accepted pass k) len

def ImagePassWhole (size pass : ℕ) : Prop :=
  io.opened pass = true ∧ io.flushed pass = true ∧ ∀ k, k*clampBlockSize opts.blockSize < size →
    ChunkWhole opts.pattern (io.random pass) (imageTaken io pass) size
      (clampBlockSize opts.blockSize) k

theorem imagePass_through (size total pass : ℕ) (s : EraseState) :
    (imagePass io opts imagePath size (clampBlockSize opts.blockSize) total pass s).2 = none ↔
      ImagePassWhole io opts size pass := by
  obtain ⟨notReady, notFlushed, hof⟩ :=
    imagePass_of io opts imagePath size (clampBlockSize opts.blockSize) total pass
  have hloop : ChunksFrom opts.pattern (io.random pass) "Pattern generation failed.".toList
      (imageWrite io pass) opts.progressCb size (clampBlockSize opts.blockSize) total size 0 s
      (imageChunks io opts size (clampBlockSize opts.blockSize) total pass size 0 size s) := by
    refine ⟨Nat.sub_le _ _, ?_⟩
    rw [Nat.zero_mul, Nat.sub_zero]
    rfl
  obtain ⟨hiff, _⟩ := chunks_whole opts.pattern (io.random pass) _ _ opts.progressCb size
    (clampBlockSize opts.blockSize) total pass _ (imageWrite_delivers io opts pass)
    (clampBlockSize_pos opts.blockSize) size 0 s _ hloop
  obtain ⟨_, _, hnone⟩ := passOf_same (io.opened pass) (io.flushed pass)
    (imageChunks io opts size (clampBlockSize opts.blockSize) total pass size 0 size)
    notReady notFlushed s
  rw [hof, hnone, hiff, ImagePassWhole]
  simp only [Nat.zero_le, true_implies]
  rfl

/-- The image is a regular file with bytes in it, and each pass over it goes through. -/
structure ImageErasable (content : Bytes) : Prop where
  safe : devicePathIsBlockDevice fs imagePath = false
  file : fs.stat imagePath = some (.regular content)
  nonempty : content ≠ []
  allocated : io.allocated = true
  passes : ∀ pass < clampPasses opts.passes, ImagePassWhole io opts content.length pass

theorem blockEraseImage_ok_iff : (blockEraseImage fs io imagePath opts).code = .ok ↔
    ∃ content, ImageErasable fs io imagePath opts content := by
  have hpasses : ∀ content : Bytes, (imagePassesOf io imagePath opts content).2 = none ↔
      ∀ pass < clampPasses opts.passes, ImagePassWhole io opts content.length pass := by
    intro content
    have h := runPasses_through _ _ (imagePass_through io imagePath opts content.length
      (content.length*clampPasses opts.passes % 2^64)) (List.range (clampPasses opts.passes))
      (eraseStart content)
    simp only [List.mem_range] at h
    exact h
  constructor
  · intro hok
    obtain ⟨node, content, _, hres, hobj, hne, _⟩ := blockEraseImage_ok fs io imagePath opts hok
    have hstat : fs.stat imagePath = some (.regular content) := by
      rw [FileSystem.stat, hres, Option.map_some, hobj]
    rcases image_finished_or_refused fs io imagePath opts node content hres hobj with
      ⟨hsafe, _, hrun⟩ | ⟨code, message, hrun, hcode⟩
    · have hallocated : io.allocated = true := by
        by_contra hno
        have hfalse := Bool.eq_false_of_not_eq_true hno
        have hlen : content.length ≠ 0 := fun h => hne (List.length_eq_zero_iff.mp h)
        simp only [blockEraseImage, eraseImageRun, hsafe, hres, hobj, if_neg hlen, hfalse,
          Bool.not_false, Bool.false_eq_true, if_false, if_true] at hok
        exact absurd hok (by simp [refused])
      rw [hrun, finished_ok_iff fs node _ (imagePassesOf_fails io imagePath opts content),
        hpasses] at hok
      exact ⟨content, hsafe, hstat, hne, hallocated, hok⟩
    · rw [hrun] at hok
      exact absurd hok hcode
  · rintro ⟨content, h⟩
    obtain ⟨node, hres, hobj⟩ := Option.map_eq_some_iff.mp h.file
    have hlen : content.length ≠ 0 := fun hz => h.nonempty (List.length_eq_zero_iff.mp hz)
    have hrun : blockEraseImage fs io imagePath opts =
        finished fs node (imagePassesOf io imagePath opts content) := by
      simp only [blockEraseImage, eraseImageRun, h.safe, hres, hobj, if_neg hlen, h.allocated]
      rfl
    rw [hrun, finished_ok_iff fs node _ (imagePassesOf_fails io imagePath opts content), hpasses]
    exact h.passes

end Image

section Device
variable (fs : FileSystem) (io : DeviceIo) (device : StorageDevice) (opts : BlockEraseOptions)
  (confirmation : Text)

/-- The device passes its checks, and each pass over it goes through. -/
structure DeviceErasable (node : ℕ) : Prop where
  started : Started fs io device confirmation node
  passes : ∀ pass ∈ devicePasses (clampPasses opts.passes),
    DevicePassWhole io opts (fs.object node).room (deviceCapacity io device)
      (clampBlockSize opts.blockSize) pass

theorem blockEraseDevice_ok_iff : (blockEraseDevice fs io device opts confirmation).code = .ok ↔
    ∃ node, DeviceErasable fs io device opts confirmation node := by
  have hpasses := fun node => runPasses_through _ _ (fun pass s =>
    (devicePass_counted io opts (fs.object node).room (deviceCapacity io device)
      (clampBlockSize opts.blockSize) (deviceCapacity io device*clampPasses opts.passes % 2^64)
      (clampBlockSize_pos _) pass s).done_iff)
    (devicePasses (clampPasses opts.passes)) (eraseStart (fs.object node).content)
  have hstarts : ∀ node, Started fs io device confirmation node →
      ((blockEraseDevice fs io device opts confirmation).code = .ok ↔
        DeviceErasable fs io device opts confirmation node) := by
    intro node hstarted
    rw [started_finished fs io device opts confirmation node hstarted,
      finished_ok_iff fs node _ (devicePassesOf_fails fs io device opts node)]
    exact (hpasses node).trans ⟨fun h => ⟨hstarted, h⟩, fun h => h.passes⟩
  rcases started_or_refused fs io device opts confirmation with
    ⟨node, hstarted⟩ | ⟨hnone, code, message, hrefused, hcode⟩
  · refine ⟨fun hok => ⟨node, (hstarts node hstarted).mp hok⟩, ?_⟩
    rintro ⟨node', h⟩
    exact (hstarts node' h.started).mpr h
  · rw [hrefused]
    exact iff_of_false hcode fun ⟨node, h⟩ => hnone node h.started

end Device

end EraseCure.EraseOutcomes
