import EraseCure.BlockEraseImage
import EraseCure.PassTraces

/-!
# The progress of an image eraser

The callback is called after each chunk with the bytes so far and the bytes of
all passes. At every exit the bytes of the result are those that the last call
reported, and after a success that is everything.
-/

set_option autoImplicit false

namespace EraseCure.ProgressTraces
open EraseCure.CText EraseCure.ErrorCodes EraseCure.FileSystems
open EraseCure.ByteRanges EraseCure.ErasePasses EraseCure.BlockEraseImage EraseCure.PassTraces

/-- The calls of the callback, by the bytes that are reported as done. -/
structure Progress (blockSize passes size : ℕ) (run : EraseRun) (dones : List ℕ) : Prop where
  calls : run.progress = dones.map (fun d => (d, passes*size))
  grows : (0::dones).IsChain (fun x y => x < y ∧ y ≤ x+blockSize)
  bounded : ∀ d ∈ dones, d ≤ passes*size
  bytes : run.result.bytesWritten = dones.getLast?.getD 0
  complete : run.code = .ok → dones.length = passes*blockCount size blockSize ∧
    dones.getLast?.getD 0 = passes*size

section Passes
variable (io : ImageIo) (opts : BlockEraseOptions) (imagePath : Text)
  (fileSize blockSize total : ℕ)

theorem imageWrite_delivers (pass : ℕ) : Delivers opts.pattern (imageWrite io pass) pass
    (fun k _ len => min (io.accepted pass k) len) := by
  intro k start buf s hd
  rw [imageWrite]
  dsimp only
  split_ifs with hpart
  · exact takes_part opts.pattern pass start _ buf s _ (Nat.min_le_right _ _) hd
      (iff_of_false (by simp) hpart)
  · exact takes_part opts.pattern pass start _ buf s none (Nat.min_le_right _ _) hd
      (iff_of_true rfl (not_not.mp hpart))

theorem imagePass_of (pass : ℕ) : ∃ notReady notFlushed, ∀ s,
    imagePass io opts imagePath fileSize blockSize total pass s =
      passOf (io.opened pass) (io.flushed pass)
        (imageChunks io opts fileSize blockSize total pass fileSize 0 fileSize)
        notReady notFlushed s :=
  ⟨_, _, fun _ => rfl⟩

theorem imagePass_accounted (hb : 0 < blockSize) (pass : ℕ) (s : EraseState)
    (hbytes : s.bytesWritten+fileSize < 2^64) :
    Accounted blockSize total opts.progressCb fileSize (blockCount fileSize blockSize) s
      (imagePass io opts imagePath fileSize blockSize total pass s) := by
  obtain ⟨notReady, notFlushed, hof⟩ :=
    imagePass_of io opts imagePath fileSize blockSize total pass
  rw [hof]
  exact passOf_accounted _ _ _ _ _ s blockSize total opts.progressCb _ _
    (eraseChunks_accounted opts.pattern (io.random pass) _ (imageWrite io pass) opts.progressCb
      fileSize blockSize total pass _ (imageWrite_delivers io opts pass) fileSize 0 fileSize s hb
      le_rfl hbytes)

end Passes

theorem refused_progress (fs : FileSystem) (code : ErasecureError) (message : Text)
    (blockSize passes size : ℕ) (h : code ≠ .ok) :
    Progress blockSize passes size (refused fs code message) [] where
  calls := rfl
  grows := List.isChain_singleton _
  bounded := by simp
  bytes := rfl
  complete := fun hok => absurd hok h

theorem finished_progress (fs : FileSystem) (node blockSize passes size : ℕ)
    (content : Bytes) (out : EraseState × Option Failure) (hfails : ∀ e ∈ out.2, e.1 ≠ .ok)
    (h : Accounted blockSize (passes*size) true (passes*size) (passes*blockCount size blockSize)
      (eraseStart content) out) :
    ∃ dones, Progress blockSize passes size (finished fs node out) dones := by
  obtain ⟨dones, hreport, hle, hdone⟩ := h
  have hle' : out.1.bytesWritten ≤ passes*size := hle.trans_eq (Nat.zero_add _)
  refine ⟨dones, hreport.progress, hreport.grows, ?_, hreport.last, fun hok => ?_⟩
  · intro d hd
    exact (hreport.below d (List.mem_cons_of_mem _ hd)).trans hle'
  · obtain ⟨hend, hcount⟩ := hdone (finished_ok fs node out hfails hok)
    exact ⟨hcount, hreport.last.symm.trans (hend.trans (Nat.zero_add _))⟩

section Runs
variable (fs : FileSystem) (io : ImageIo) (imagePath : Text) (opts : BlockEraseOptions)

theorem imagePassesOf_fails (content : Bytes) :
    ∀ e ∈ (imagePassesOf io imagePath opts content).2, e.1 ≠ .ok := by
  obtain ⟨_, _, _, _, hfail⟩ := runPasses_spec opts.pattern content.length _
    (fun pass s => imagePass_spec io opts imagePath content.length (clampBlockSize opts.blockSize)
      (content.length*clampPasses opts.passes % 2^64) pass s (clampBlockSize_pos _))
    (List.range (clampPasses opts.passes)) (eraseStart content)
  exact hfail

theorem imagePassesOf_accounted (content : Bytes)
    (hbytes : clampPasses opts.passes*content.length < 2^64) :
    Accounted (clampBlockSize opts.blockSize) (clampPasses opts.passes*content.length)
      opts.progressCb (clampPasses opts.passes*content.length)
      (clampPasses opts.passes*blockCount content.length (clampBlockSize opts.blockSize))
      (eraseStart content) (imagePassesOf io imagePath opts content) := by
  have hlen : (List.range (clampPasses opts.passes)).length = clampPasses opts.passes :=
    List.length_range
  have htotal : content.length*clampPasses opts.passes % 2^64 =
      clampPasses opts.passes*content.length := by
    rw [Nat.mul_comm, Nat.mod_eq_of_lt hbytes]
  have h := runPasses_accounted content.length
    (imagePass io opts imagePath content.length (clampBlockSize opts.blockSize)
      (content.length*clampPasses opts.passes % 2^64))
    (clampBlockSize opts.blockSize) (content.length*clampPasses opts.passes % 2^64)
    opts.progressCb (blockCount content.length (clampBlockSize opts.blockSize))
    (fun pass s hs =>
      imagePass_accounted io opts imagePath _ _ _ (clampBlockSize_pos _) pass s hs)
    (List.range (clampPasses opts.passes)) (eraseStart content)
    (by rw [hlen]; exact (Nat.zero_add _).trans_lt hbytes)
  rw [hlen] at h
  change Accounted _ _ _ _ _ _ (imagePassesOf io imagePath opts content) at h
  rwa [htotal] at h

end Runs

/-- The total of all calls is the size times the passes, the bytes grow by at most
a block from call to call and never beyond the total, and the bytes of the result
are the last ones, also when a write failed. -/
theorem progress_accounts (fs : FileSystem) (io : ImageIo) (imagePath : Text)
    (opts : BlockEraseOptions) (node : ℕ) (content : Bytes)
    (hres : fs.resolve imagePath = some node) (hfile : fs.object node = .regular content)
    (hcb : opts.progressCb = true) (hbytes : clampPasses opts.passes*content.length < 2^64) :
    ∃ dones, Progress (clampBlockSize opts.blockSize) (clampPasses opts.passes) content.length
      (blockEraseImage fs io imagePath opts) dones := by
  rcases image_finished_or_refused fs io imagePath opts node content hres hfile with
    ⟨_, _, hrun⟩ | ⟨code, message, hrefused, hcode⟩
  · have haccounted := imagePassesOf_accounted io imagePath opts content hbytes
    rw [hcb] at haccounted
    rw [hrun]
    exact finished_progress fs node _ _ _ content _ (imagePassesOf_fails io imagePath opts content)
      haccounted
  · rw [hrefused]
    exact ⟨[], refused_progress fs code message _ _ _ hcode⟩

def shortIo : ImageIo :=
  { ImageIo.calm with accepted := fun pass _ => if pass = 1 then 1 else maxBlockSize }

def twoReported : BlockEraseOptions :=
  { blockEraseOptionsInit with passes := 2, progressCb := true }

theorem progress_accounts_short : ∃ dones,
    Progress (clampBlockSize twoReported.blockSize) (clampPasses twoReported.passes) 3
      (blockEraseImage (soleObject "a".toList (.regular [1, 2, 3])) shortIo "a".toList twoReported)
      dones :=
  progress_accounts (soleObject "a".toList (.regular [1, 2, 3])) shortIo "a".toList twoReported 0
    [1, 2, 3] rfl rfl rfl (by decide)

example : (blockEraseImage (soleObject "a".toList (.regular [1, 2, 3])) shortIo "a".toList
    twoReported).progress = [(3, 6)] := by
  rfl

end EraseCure.ProgressTraces
