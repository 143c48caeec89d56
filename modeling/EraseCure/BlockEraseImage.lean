import EraseCure.ErasePasses
import EraseCure.TornWrites

/-!
# Erasing an image file

Every pass opens the image, writes it in chunks from its first byte on and
flushes it. The loop of a pass either fails at a chunk or leaves chunks that
tile the file, the short last one included. The content is followed as the stream
of a pass has it. What has come to the file of a pass that is not flushed is less.
-/

set_option autoImplicit false

namespace EraseCure.BlockEraseImage
open EraseCure.CText EraseCure.Devices EraseCure.ErrorCodes EraseCure.FileSystems
open EraseCure.ByteRanges EraseCure.TornWrites EraseCure.ErasePasses

/-- What the calls of one run return: the buffer, the opening of the file in a
pass, random bytes and accepted bytes by pass and chunk, and the flush. -/
structure ImageIo where
  allocated : Bool
  opened : ℕ → Bool
  random : ℕ → ℕ → RandBytes
  accepted : ℕ → ℕ → ℕ
  flushed : ℕ → Bool
  strerror : Text

def ImageIo.calm : ImageIo where
  allocated := true
  opened := fun _ => true
  random := fun _ _ => some (fun _ => 0x5A)
  accepted := fun _ _ => maxBlockSize
  flushed := fun _ => true
  strerror := "Success".toList

/-- The file system after a run, the returned code, the result record, and
the trace of the data written and of the progress calls. -/
structure EraseRun where
  fs : FileSystem
  code : ErasecureError
  result : BlockEraseResult
  writes : List (ℕ × Piece UInt8)
  progress : List (ℕ × ℕ)

def refused (fs : FileSystem) (code : ErasecureError) (message : Text) : EraseRun where
  fs := fs
  code := code
  result := ⟨0, 0, code, printed128 message⟩
  writes := []
  progress := []

def finished (fs : FileSystem) (node : ℕ) (out : EraseState × Option Failure) : EraseRun :=
  let code := match out.2 with
    | none => ErasecureError.ok
    | some e => e.1
  let message := match out.2 with
    | none => []
    | some e => e.2
  { fs := fs.store node out.1.content
    code := code
    result := ⟨out.1.bytesWritten, out.1.passesCompleted, code, printed128 message⟩
    writes := out.1.writes
    progress := out.1.progress }

section Loops
variable (io : ImageIo) (opts : BlockEraseOptions) (imagePath : Text)
  (fileSize blockSize total pass : ℕ)

def imageWrite (k start : ℕ) (buf : Bytes) (s : EraseState) : EraseState × Option Failure :=
  let written := min (io.accepted pass k) buf.length
  let s' := s.put pass start (buf.take written)
  if written ≠ buf.length then
    (s', some (.writeFailed, "fwrite failed at pass ".toList++decimal pass++
      ": ".toList++io.strerror))
  else (s', none)

def imageChunks : ℕ → ℕ → ℕ → EraseState → EraseState × Option Failure :=
  eraseChunks opts.pattern (io.random pass) "Pattern generation failed.".toList
    (imageWrite io pass) opts.progressCb fileSize blockSize total

def imagePass (s : EraseState) : EraseState × Option Failure :=
  if io.opened pass then
    match imageChunks io opts fileSize blockSize total pass fileSize 0 fileSize s with
    | (s', some e) => (s', some e)
    | (s', none) =>
      if io.flushed pass then (s'.passDone, none)
      else (s', some (.syncFailed, "fsync failed at pass ".toList++decimal pass++
        ": ".toList++io.strerror))
  else (s, some (.openFailed, "fopen('".toList++imagePath++"') failed: ".toList++io.strerror))

/-- What the file holds after a pass: all of it once it is flushed, and of a pass that
fails the bytes that the buffer of the stream has passed on until it is closed. -/
def bufferedPass (drained : ℕ → ℕ) (s : EraseState) : EraseState × Option Failure :=
  match imagePass io opts imagePath fileSize blockSize total pass s with
  | (s', none) => (s', none)
  | (s', some e) => ({ s' with content := torn s'.content s.content (drained pass) }, some e)

end Loops

/-- The checks of a run and its passes, by what a pass does with the size of the file,
the block size and the bytes of all passes. -/
def eraseImageRun (step : ℕ → ℕ → ℕ → ℕ → EraseState → EraseState × Option Failure)
    (fs : FileSystem) (io : ImageIo) (imagePath : Text) (opts : BlockEraseOptions) : EraseRun :=
  if devicePathIsBlockDevice fs imagePath then
    refused fs .realDevicePath ("SAFETY: '".toList++imagePath++
      "' looks like a physical block device. ".toList++
      "block_erase_image() is for test images only.".toList)
  else
    let blockSize := clampBlockSize opts.blockSize
    let passes := clampPasses opts.passes
    match fs.resolve imagePath with
    | none => refused fs .statFailed
        ("stat('".toList++imagePath++"') failed: ".toList++io.strerror)
    | some node =>
      match fs.object node with
      | .regular content =>
        let fileSize := content.length
        if fileSize = 0 then
          refused fs .invalidArg ("'".toList++imagePath++"' has zero size.".toList)
        else if !io.allocated then
          refused fs .alloc ("malloc(".toList++decimal blockSize++") failed.".toList)
        else
          let total := fileSize*passes % 2^64
          finished fs node (runPasses (step fileSize blockSize total) (List.range passes)
            (eraseStart content))
      | _ => refused fs .invalidArg ("'".toList++imagePath++"' is not a regular file.".toList)

/-- The run with the content that the stream has taken, also where it is not flushed. -/
def blockEraseImage (fs : FileSystem) (io : ImageIo) (imagePath : Text)
    (opts : BlockEraseOptions) : EraseRun :=
  eraseImageRun (imagePass io opts imagePath) fs io imagePath opts

/-- The run with the content that the file holds. -/
def blockEraseImageBuffered (drained : ℕ → ℕ) (fs : FileSystem) (io : ImageIo)
    (imagePath : Text) (opts : BlockEraseOptions) : EraseRun :=
  eraseImageRun (fun fileSize blockSize total pass =>
    bufferedPass io opts imagePath fileSize blockSize total pass drained) fs io imagePath opts

theorem imageWrite_spec (io : ImageIo) (pattern : ErasePattern) (pass k start : ℕ) (buf : Bytes)
    (s : EraseState) (hf : Filled pattern buf) :
    ∃ ws, Wrote pattern pass start (start+buf.length) s (imageWrite io pass k start buf s) ws := by
  have hput := wrote_put pattern pass start (buf.take (min (io.accepted pass k) buf.length)) s
    (filled_part _ _ _ hf (List.take_subset _ _))
  have hlen : (buf.take (min (io.accepted pass k) buf.length)).length =
      min (io.accepted pass k) buf.length := by
    rw [List.length_take]
    omega
  rw [hlen] at hput
  rw [imageWrite]
  split
  · have hle : start+min (io.accepted pass k) buf.length ≤ start+buf.length := by omega
    exact ⟨_, wrote_part pattern pass start _ _ s _ _ _ hle
      (wrote_fail pattern pass start _ s _ none _ _ (by nofun) hput)⟩
  · rename_i hw
    rw [not_ne_iff.mp hw] at hput ⊢
    exact ⟨_, hput⟩

theorem imagePass_spec (io : ImageIo) (opts : BlockEraseOptions) (imagePath : Text)
    (fileSize blockSize total pass : ℕ) (s : EraseState) (hb : 0 < blockSize) :
    PassSpec opts.pattern fileSize pass s
      (imagePass io opts imagePath fileSize blockSize total pass s) := by
  obtain ⟨ws, hw⟩ := eraseChunks_spec opts.pattern (io.random pass)
    "Pattern generation failed.".toList (imageWrite io pass) opts.progressCb fileSize blockSize
    total pass fileSize 0 fileSize s
    (fun k start buf s => imageWrite_spec io opts.pattern pass k start buf s)
    hb (Nat.le_refl _) (Nat.le_refl _)
  change Wrote _ _ _ _ _ (imageChunks io opts fileSize blockSize total pass fileSize 0 fileSize s)
    _ at hw
  rw [Nat.sub_self] at hw
  rw [imagePass]
  split
  · rcases hc : imageChunks io opts fileSize blockSize total pass fileSize 0 fileSize s with
      ⟨s', f⟩
    rw [hc] at hw
    cases f with
    | some e => exact ⟨ws, hw⟩
    | none =>
      dsimp only
      split
      · exact ⟨ws, hw.extends_, hw.within, fun _ => hw.tiled rfl, by simp⟩
      · exact ⟨ws, wrote_fail _ _ _ _ _ _ _ _ _ (by nofun) hw⟩
  · exact ⟨[], wrote_failure _ _ _ _ _ _ (by nofun)⟩

section Runs
variable (fs : FileSystem) (io : ImageIo) (imagePath : Text) (opts : BlockEraseOptions)

def imagePassesOf (content : Bytes) : EraseState × Option Failure :=
  runPasses (imagePass io opts imagePath content.length (clampBlockSize opts.blockSize)
      (content.length*clampPasses opts.passes % 2^64))
    (List.range (clampPasses opts.passes)) (eraseStart content)

/-- A run comes to its passes over a regular file or is refused with an error, whatever a
pass does. -/
theorem eraseImageRun_cases :
    (∃ node content, devicePathIsBlockDevice fs imagePath = false ∧
      fs.resolve imagePath = some node ∧ fs.object node = .regular content ∧ content ≠ [] ∧
      ∀ step, eraseImageRun step fs io imagePath opts = finished fs node (runPasses
        (step content.length (clampBlockSize opts.blockSize)
          (content.length*clampPasses opts.passes % 2^64))
        (List.range (clampPasses opts.passes)) (eraseStart content))) ∨
      ∃ code message, code ≠ .ok ∧
        ∀ step, eraseImageRun step fs io imagePath opts = refused fs code message := by
  by_cases hdevice : devicePathIsBlockDevice fs imagePath = true
  · refine Or.inr ⟨.realDevicePath, "SAFETY: '".toList++imagePath++
      "' looks like a physical block device. ".toList++
      "block_erase_image() is for test images only.".toList, by decide, fun step => ?_⟩
    rw [eraseImageRun, if_pos hdevice]
  cases hres : fs.resolve imagePath with
  | none =>
    refine Or.inr ⟨.statFailed, "stat('".toList++imagePath++"') failed: ".toList++io.strerror,
      by decide, fun step => ?_⟩
    simp only [eraseImageRun, if_neg hdevice, hres]
  | some node =>
    cases hobj : fs.object node with
    | regular content =>
      by_cases hempty : content.length = 0
      · refine Or.inr ⟨.invalidArg, "'".toList++imagePath++"' has zero size.".toList, by decide,
          fun step => ?_⟩
        simp only [eraseImageRun, if_neg hdevice, hres, hobj, if_pos hempty]
      cases hallocated : io.allocated with
      | false =>
        refine Or.inr ⟨.alloc, "malloc(".toList++decimal (clampBlockSize opts.blockSize)++
          ") failed.".toList, by decide, fun step => ?_⟩
        simp only [eraseImageRun, if_neg hdevice, hres, hobj, if_neg hempty, hallocated,
          Bool.not_false, if_true]
      | true =>
        refine Or.inl ⟨node, content, by simpa using hdevice, rfl, hobj,
          fun h => hempty (List.length_eq_zero_iff.mpr h), fun step => ?_⟩
        simp only [eraseImageRun, if_neg hdevice, hres, hobj, if_neg hempty, hallocated,
          Bool.not_true, Bool.false_eq_true, if_false]
    | blockDevice _ | directory _ | symlink _ | other =>
      refine Or.inr ⟨.invalidArg, "'".toList++imagePath++"' is not a regular file.".toList,
        by decide, fun step => ?_⟩
      simp only [eraseImageRun, if_neg hdevice, hres, hobj]

theorem image_finished_or_refused (node : ℕ) (content : Bytes)
    (hres : fs.resolve imagePath = some node) (hfile : fs.object node = .regular content) :
    (devicePathIsBlockDevice fs imagePath = false ∧ content ≠ [] ∧
      blockEraseImage fs io imagePath opts =
        finished fs node (imagePassesOf io imagePath opts content)) ∨
      ∃ code message, blockEraseImage fs io imagePath opts = refused fs code message ∧
        code ≠ .ok := by
  rcases eraseImageRun_cases fs io imagePath opts with
    ⟨node', content', hsafe, hres', hfile', hne, hrun⟩ | ⟨code, message, hcode, hrun⟩
  · obtain rfl := Option.some.inj (hres.symm.trans hres')
    obtain rfl := Object.regular.inj (hfile.symm.trans hfile')
    exact Or.inl ⟨hsafe, hne, hrun _⟩
  · exact Or.inr ⟨code, message, hrun _, hcode⟩

/-- A run of the image eraser is refused and changes nothing, or it writes to
the regular file of the path. -/
theorem blockEraseImage_spec :
    (∃ code message, blockEraseImage fs io imagePath opts = refused fs code message ∧ code ≠ .ok) ∨
      ∃ node content out ws, devicePathIsBlockDevice fs imagePath = false ∧
        fs.resolve imagePath = some node ∧ fs.object node = .regular content ∧
        content ≠ [] ∧ blockEraseImage fs io imagePath opts = finished fs node out ∧
        Extends (eraseStart content) out.1 ws ∧
        Within opts.pattern (List.range (clampPasses opts.passes)) content.length ws ∧
        (out.2 = none →
          Overwritten (List.range (clampPasses opts.passes)) content.length ws) ∧
        ∀ e ∈ out.2, e.1 ≠ .ok := by
  rcases eraseImageRun_cases fs io imagePath opts with
    ⟨node, content, hdevice, hres, hfile, hne, hrun⟩ | ⟨code, message, hcode, hrun⟩
  · obtain ⟨ws, hext, hwithin, hover, hfail⟩ := runPasses_spec opts.pattern content.length
      (imagePass io opts imagePath content.length (clampBlockSize opts.blockSize)
        (content.length*clampPasses opts.passes % 2^64))
      (fun pass s => imagePass_spec io opts imagePath _ _ _ pass s
        (clampBlockSize_pos opts.blockSize))
      (List.range (clampPasses opts.passes)) (eraseStart content)
    exact Or.inr ⟨node, content, _, ws, hdevice, hres, hfile, hne, hrun _, hext, hwithin, hover,
      hfail⟩
  · exact Or.inl ⟨code, message, hrun _, hcode⟩

end Runs

theorem finished_ok (fs : FileSystem) (node : ℕ) (out : EraseState × Option Failure)
    (hf : ∀ e ∈ out.2, e.1 ≠ .ok) (h : (finished fs node out).code = .ok) : out.2 = none := by
  rcases hout : out.2 with _ | e
  · rfl
  · rw [hout] at hf
    simp only [finished, hout] at h
    exact absurd h (hf e rfl)

/-- Every byte of an object was overwritten in each pass, and a constant
pattern has left its byte there. -/
structure Erased (pattern : ErasePattern) (passes : List ℕ) (fs fs' : FileSystem) (node : ℕ)
    (writes : List (ℕ × Piece UInt8)) : Prop where
  overwritten : Overwritten passes (fs.object node).content.length writes
  constant : ∀ b ∈ patternByte pattern, ∀ i < (fs.object node).content.length,
    (fs'.object node).content[i]? = some b

theorem erased_empty (pattern : ErasePattern) (passes : List ℕ) (fs fs' : FileSystem) (node : ℕ)
    (writes : List (ℕ × Piece UInt8)) (h : (fs.object node).content.length = 0) :
    Erased pattern passes fs fs' node writes where
  overwritten := fun _ _ i hi => absurd hi (by omega)
  constant := fun _ _ i hi => absurd hi (by omega)

theorem finished_erased (fs : FileSystem) (node : ℕ) (out : EraseState × Option Failure)
    (ws : List (ℕ × Piece UInt8)) (pattern : ErasePattern) (passes : List ℕ) (hp : passes ≠ [])
    (hext : Extends (eraseStart (fs.object node).content) out.1 ws)
    (hw : Within pattern passes (fs.object node).content.length ws)
    (ho : Overwritten passes (fs.object node).content.length ws) :
    Erased pattern passes fs (finished fs node out).fs node (finished fs node out).writes where
  overwritten := by
    have hwrites : (finished fs node out).writes = ws := hext.1
    rwa [hwrites]
  constant := fun b hb i hi => by
    have hput : ((finished fs node out).fs.object node).content = out.1.content := by
      have hnonempty : (fs.object node).content ≠ [] := List.ne_nil_of_length_pos (by omega)
      rw [finished, store_same]
      cases hobj : fs.object node <;> simp_all [Object.put, Object.content]
    rw [hput, hext.2]
    exact overwritten_constant pattern passes _ ws _ hp hw ho (Nat.le_refl _) b hb i hi

/-- A run that succeeds has erased the regular file of the path and kept its
length. -/
theorem blockEraseImage_ok (fs : FileSystem) (io : ImageIo) (imagePath : Text)
    (opts : BlockEraseOptions) (h : (blockEraseImage fs io imagePath opts).code = .ok) :
    ∃ node content erased, fs.resolve imagePath = some node ∧
      fs.object node = .regular content ∧ content ≠ [] ∧
      (blockEraseImage fs io imagePath opts).fs = fs.store node erased ∧
      erased.length = content.length ∧
      Erased opts.pattern (List.range (clampPasses opts.passes)) fs
        (blockEraseImage fs io imagePath opts).fs node
        (blockEraseImage fs io imagePath opts).writes := by
  rcases blockEraseImage_spec fs io imagePath opts with
    ⟨code, message, hrun, hne⟩ | ⟨node, content, out, ws, _, hres, hobj, hcont, hrun, hext,
      hwithin, hover, hfail⟩
  · rw [hrun] at h
    exact absurd h hne
  · rw [hrun] at h ⊢
    have ho := hover (finished_ok fs node out hfail h)
    have hcontent : (fs.object node).content = content := by rw [hobj]; rfl
    have hpasses : List.range (clampPasses opts.passes) ≠ [] := by
      have := clampPasses_pos opts.passes
      rw [Ne, List.range_eq_nil]
      omega
    refine ⟨node, content, out.1.content, hres, hobj, hcont, rfl, ?_, ?_⟩
    · rw [hext.2]
      exact within_length _ _ _ ws content hwithin (Nat.le_refl _)
    · rw [← hcontent] at hext hwithin ho
      exact finished_erased fs node out ws _ _ hpasses hext hwithin ho

/-- Whatever a run does, it changes no more than the content of the regular
file of the path. -/
theorem blockEraseImage_frame (fs : FileSystem) (io : ImageIo) (imagePath : Text)
    (opts : BlockEraseOptions) :
    (blockEraseImage fs io imagePath opts).fs = fs ∨
      ∃ node content new, fs.resolve imagePath = some node ∧
        fs.object node = .regular content ∧ new.length = content.length ∧
        (blockEraseImage fs io imagePath opts).fs = fs.store node new := by
  rcases blockEraseImage_spec fs io imagePath opts with
    ⟨code, message, hrun, hne⟩ | ⟨node, content, out, ws, _, hres, hobj, _, hrun, hext,
      hwithin, _, _⟩
  · rw [hrun]
    exact Or.inl rfl
  · rw [hrun]
    refine Or.inr ⟨node, content, out.1.content, hres, hobj, ?_, rfl⟩
    rw [hext.2]
    exact within_length _ _ _ ws content hwithin (Nat.le_refl _)

end EraseCure.BlockEraseImage
