import EraseCure.FileVerify

/-!
# Erasing a file

Every pass writes the file in chunks of at most 4096 bytes and goes on after a
short write. The buffer is filled once a pass for a constant pattern and drawn
anew for every chunk of a random one. The loops may not end when writes accept
nothing, so a run is given a number of rounds for each pass.
-/

set_option autoImplicit false

namespace EraseCure.FileEraser
open EraseCure.CText EraseCure.Devices EraseCure.ErrorCodes EraseCure.FileSystems
open EraseCure.ByteRanges EraseCure.ErasePasses EraseCure.FileVerify

inductive FileEraseScope where
  | logical | device
  deriving DecidableEq

structure FileEraseOptions where
  pattern : ErasePattern
  passes : ℕ
  verifyAfter : Bool
  removeFile : Bool
  syncParent : Bool

def fileEraseOptionsInit : FileEraseOptions where
  pattern := .random
  passes := 3
  verifyAfter := true
  removeFile := true
  syncParent := true

structure FileEraseResult where
  resultCode : ErasecureError
  scope : FileEraseScope
  path : CString 256
  originalSize : ℕ
  bytesWritten : ℕ
  passesCompleted : ℕ
  fileRemoved : Bool
  verified : Bool
  verificationPassed : Bool
  errorMessage : CString 256
  scopeNote : CString 256
  deriving DecidableEq

/-- What the calls of one run return: the opening of the file, the buffer and
its first content, random bytes and accepted bytes by pass and chunk, what the
storage returns for the bytes it was given, the calls of the verifier, and the
removal. -/
structure FileEraseIo where
  opened : Bool
  allocated : Bool
  garbage : ℕ → UInt8
  random : ℕ → ℕ → RandBytes
  write : ℕ → ℕ → Option ℕ
  readback : ℕ → UInt8 → UInt8
  verify : FileReadIo
  removed : Bool

def FileEraseIo.calm : FileEraseIo where
  opened := true
  allocated := true
  garbage := fun _ => 0xA5
  random := fun _ _ => some (fun _ => 0x5A)
  write := fun _ _ => some chunkSize
  readback := fun _ b => b
  verify := FileReadIo.calm
  removed := true

/-- One `write`: its pass, its place in the pass, and what it put where. -/
structure FileWrite where
  pass : ℕ
  index : ℕ
  piece : Piece UInt8

inductive FileEvent where
  | wrote (w : FileWrite)
  | removed

def FileEvent.isWrite : FileEvent → Bool
  | .wrote _ => true
  | .removed => false

structure FileEraseRun where
  fs : FileSystem
  result : FileEraseResult
  events : List FileEvent

structure FileEraseState where
  content : Bytes
  writes : List FileWrite
  buffer : Bytes
  bytesWritten : ℕ
  passesCompleted : ℕ

def isDangerousPath (path : Text) : Bool :=
  ["/dev/".toList, "/proc/".toList, "/sys/".toList].any (fun p => p.isPrefixOf path)

def startBuffer (pattern : ErasePattern) (buffer : Bytes) : Bytes :=
  match pattern with
  | .zero => List.replicate chunkSize 0x00
  | .one => List.replicate chunkSize 0xFF
  | _ => buffer

/-- The buffer before a chunk is written. The result of `RAND_bytes` is not
looked at: when it fails, the buffer stays as it was. -/
def drawBuffer (pattern : ErasePattern) (rand : RandBytes) (len : ℕ) (buffer : Bytes) : Bytes :=
  match pattern, rand with
  | .random, some bytes => (List.range len).map bytes++buffer.drop len
  | _, _ => buffer

/-- The length of the next chunk. -/
def toWrite (bytesLeft : ℕ) : ℕ := if bytesLeft < chunkSize then bytesLeft else chunkSize

def FileEraseState.put (s : FileEraseState) (pass index start : ℕ) (buffer : Bytes)
    (written : ℕ) : FileEraseState :=
  { s with
    content := overwrite s.content ⟨start, buffer.take written⟩
    writes := s.writes++[⟨pass, index, ⟨start, buffer.take written⟩⟩]
    buffer := buffer
    bytesWritten := (s.bytesWritten+written) % 2^64 }

section Loops
variable (io : FileEraseIo) (pattern : ErasePattern) (size : ℕ)

/-- The loop over the chunks of a pass, with the state and whether it went
through, or no result when the rounds do not suffice. -/
def fileEraseChunks (pass : ℕ) : ℕ → ℕ → ℕ → FileEraseState → Option (FileEraseState × Bool)
  | 0, _, bytesLeft, s => if bytesLeft = 0 then some (s, true) else none
  | fuel+1, k, bytesLeft, s =>
    if bytesLeft = 0 then some (s, true)
    else
      let buffer := drawBuffer pattern (io.random pass k) (toWrite bytesLeft) s.buffer
      match io.write pass k with
      | none => some ({ s with buffer := buffer }, false)
      | some n =>
        let written := min n (toWrite bytesLeft)
        fileEraseChunks pass fuel (k+1) (bytesLeft-written)
          (s.put pass k (size-bytesLeft) buffer written)

def fileErasePasses (fuel : ℕ) : List ℕ → FileEraseState → Option (FileEraseState × Bool)
  | [], s => some (s, true)
  | pass::rest, s =>
    match fileEraseChunks io pattern size pass fuel 0 size
      { s with buffer := startBuffer pattern s.buffer } with
    | none => none
    | some (s', false) => some (s', false)
    | some (s', true) =>
      fileErasePasses fuel rest { s' with passesCompleted := s'.passesCompleted+1 }

section Rounds
variable (pass fuel k bytesLeft : ℕ) (s : FileEraseState)

theorem fileEraseChunks_end :
    fileEraseChunks io pattern size pass fuel k 0 s = some (s, true) := by
  cases fuel <;> rfl

theorem fileEraseChunks_unfinished (h0 : bytesLeft ≠ 0) :
    fileEraseChunks io pattern size pass 0 k bytesLeft s = none :=
  if_neg h0

theorem fileEraseChunks_failed (h0 : bytesLeft ≠ 0) (hw : io.write pass k = none) :
    fileEraseChunks io pattern size pass (fuel+1) k bytesLeft s = some ({ s with
      buffer := drawBuffer pattern (io.random pass k) (toWrite bytesLeft) s.buffer }, false) := by
  rw [fileEraseChunks, if_neg h0, hw]

theorem fileEraseChunks_written (h0 : bytesLeft ≠ 0) (n : ℕ) (hw : io.write pass k = some n) :
    fileEraseChunks io pattern size pass (fuel+1) k bytesLeft s =
      fileEraseChunks io pattern size pass fuel (k+1) (bytesLeft-min n (toWrite bytesLeft))
        (s.put pass k (size-bytesLeft)
          (drawBuffer pattern (io.random pass k) (toWrite bytesLeft) s.buffer)
          (min n (toWrite bytesLeft))) := by
  rw [fileEraseChunks, if_neg h0, hw]

end Rounds

/-- What holds when nothing is left and when a write fails, and before a write when it
holds after it, holds of a loop over the chunks that has a result. -/
theorem fileEraseChunks_rule (pass : ℕ) (s' : FileEraseState) (done : Bool)
    (P : ℕ → ℕ → FileEraseState → Prop)
    (hend : ∀ k, done = true → P k 0 s')
    (hfailed : ∀ k bytesLeft s, bytesLeft ≠ 0 → io.write pass k = none → done = false →
      s' = { s with
        buffer := drawBuffer pattern (io.random pass k) (toWrite bytesLeft) s.buffer } →
      P k bytesLeft s)
    (hwritten : ∀ k bytesLeft s n, bytesLeft ≠ 0 → io.write pass k = some n →
      P (k+1) (bytesLeft-min n (toWrite bytesLeft)) (s.put pass k (size-bytesLeft)
        (drawBuffer pattern (io.random pass k) (toWrite bytesLeft) s.buffer)
        (min n (toWrite bytesLeft))) →
      P k bytesLeft s)
    (fuel k bytesLeft : ℕ) (s : FileEraseState)
    (h : fileEraseChunks io pattern size pass fuel k bytesLeft s = some (s', done)) :
    P k bytesLeft s := by
  induction fuel generalizing k bytesLeft s with
  | zero =>
    by_cases h0 : bytesLeft = 0
    · subst h0
      rw [fileEraseChunks_end] at h
      cases h
      exact hend k rfl
    · rw [fileEraseChunks_unfinished io pattern size pass k bytesLeft s h0] at h
      contradiction
  | succ fuel ih =>
    by_cases h0 : bytesLeft = 0
    · subst h0
      rw [fileEraseChunks_end] at h
      cases h
      exact hend k rfl
    cases hw : io.write pass k with
    | none =>
      rw [fileEraseChunks_failed io pattern size pass fuel k bytesLeft s h0 hw] at h
      cases h
      exact hfailed k bytesLeft s h0 hw rfl rfl
    | some n =>
      rw [fileEraseChunks_written io pattern size pass fuel k bytesLeft s h0 n hw] at h
      exact hwritten k bytesLeft s n h0 hw (ih _ _ _ h)

end Loops

def fileEraseStart (io : FileEraseIo) (content : Bytes) : FileEraseState where
  content := content
  writes := []
  buffer := (List.range chunkSize).map io.garbage
  bytesWritten := 0
  passesCompleted := 0

/-- `file_erase`. Syncing the parent directory changes nothing here. -/
def fileErase (fuel : ℕ) (fs : FileSystem) (io : FileEraseIo) (path : Text)
    (opts : FileEraseOptions) : Option FileEraseRun :=
  let result : FileEraseResult := ⟨.ok, .logical, printed256 path, 0, 0, 0, false, false, false,
    printed256 [], printed256 "Logical overwrite; NAND not guaranteed".toList⟩
  if isDangerousPath path then
    some ⟨fs, { result with
      errorMessage := printed256 "Dangerous path rejected".toList
      resultCode := .dangerousPath }, []⟩
  else
    match fs.resolveLink path with
    | none => some ⟨fs, { result with
        errorMessage := printed256 "lstat failed".toList
        resultCode := .generic }, []⟩
    | some node =>
      match fs.object node with
      | .regular content =>
        let result := { result with originalSize := content.length }
        if !io.opened then
          some ⟨fs, { result with
            errorMessage := printed256 "Failed to open file".toList
            resultCode := .generic }, []⟩
        else if !io.allocated then some ⟨fs, { result with resultCode := .generic }, []⟩
        else
          match fileErasePasses io opts.pattern content.length fuel (List.range opts.passes)
            (fileEraseStart io content) with
          | none => none
          | some (s, false) => some ⟨fs.store node s.content, { result with
              bytesWritten := s.bytesWritten
              passesCompleted := s.passesCompleted
              errorMessage := printed256 "Write failed".toList
              resultCode := .generic }, s.writes.map .wrote⟩
          | some (s, true) =>
            let erased := fs.store node s.content
            let verify := fileVerifyPattern (erased.seen io.readback) io.verify path opts.pattern
            let removed := opts.removeFile && io.removed
            some ⟨if removed then erased.remove path else erased, { result with
              bytesWritten := s.bytesWritten
              passesCompleted := s.passesCompleted
              verified := opts.verifyAfter
              verificationPassed := opts.verifyAfter && verify.2.passed
              fileRemoved := removed
              resultCode := .ok },
              s.writes.map .wrote++(if removed then [.removed] else [])⟩
      | _ => some ⟨fs, { result with
          errorMessage := printed256 "Not a regular file (symlink or special)".toList
          resultCode := .symlinkAttack }, []⟩

/-- A call that comes to its passes over the regular file of the path. -/
structure FileStarted (fs : FileSystem) (io : FileEraseIo) (path : Text) (node : ℕ)
    (content : Bytes) : Prop where
  safe : isDangerousPath path = false
  resolved : fs.resolveLink path = some node
  regular : fs.object node = .regular content
  opened : io.opened = true
  allocated : io.allocated = true

structure FileRefused (fs : FileSystem) (run : FileEraseRun) : Prop where
  fs : run.fs = fs
  bytesWritten : run.result.bytesWritten = 0
  events : run.events = []
  fails : run.result.resultCode ≠ .ok
  kept : run.result.fileRemoved = false

/-- Where a call ends after its passes, which went through or not. -/
structure FileEnded (fs : FileSystem) (io : FileEraseIo) (path : Text) (opts : FileEraseOptions)
    (node : ℕ) (s : FileEraseState) (done : Bool) (run : FileEraseRun) : Prop where
  fs : run.fs = if run.result.fileRemoved then (fs.store node s.content).remove path
    else fs.store node s.content
  bytesWritten : run.result.bytesWritten = s.bytesWritten
  passesCompleted : run.result.passesCompleted = s.passesCompleted
  events : run.events = s.writes.map .wrote++(if run.result.fileRemoved then [.removed] else [])
  ok_iff : run.result.resultCode = .ok ↔ done = true
  removed : run.result.fileRemoved = (done && opts.removeFile && io.removed)
  verified : run.result.verified = (done && opts.verifyAfter)

section Calls
variable (fuel : ℕ) (fs : FileSystem) (io : FileEraseIo) (path : Text) (opts : FileEraseOptions)

theorem started_content (node : ℕ) (content content' : Bytes)
    (h : FileStarted fs io path node content) (hs : fs.lstat path = some (.regular content')) :
    content = content' := by
  rw [FileSystem.lstat, h.resolved, Option.map_some, h.regular] at hs
  exact Object.regular.inj (Option.some.inj hs)

theorem fileErase_started (node : ℕ) (content : Bytes)
    (h : FileStarted fs io path node content) (s : FileEraseState) (done : Bool)
    (hpasses : fileErasePasses io opts.pattern content.length fuel (List.range opts.passes)
      (fileEraseStart io content) = some (s, done)) :
    ∃ run, fileErase fuel fs io path opts = some run ∧
      FileEnded fs io path opts node s done run := by
  rw [fileErase, if_neg (by rw [h.safe]; decide), h.resolved]
  dsimp only
  rw [h.regular, h.opened, h.allocated]
  dsimp only
  rw [if_neg (by decide), if_neg (by decide), hpasses]
  cases done with
  | false => exact ⟨_, rfl, rfl, rfl, rfl, (List.append_nil _).symm, by simp, rfl, rfl⟩
  | true => exact ⟨_, rfl, rfl, rfl, rfl, rfl, by simp, rfl, rfl⟩

theorem fileErase_endless (node : ℕ) (content : Bytes)
    (h : FileStarted fs io path node content)
    (hpasses : fileErasePasses io opts.pattern content.length fuel (List.range opts.passes)
      (fileEraseStart io content) = none) : fileErase fuel fs io path opts = none := by
  rw [fileErase, if_neg (by rw [h.safe]; decide), h.resolved]
  dsimp only
  rw [h.regular, h.opened, h.allocated]
  dsimp only
  rw [if_neg (by decide), if_neg (by decide), hpasses]

theorem fileErase_refused (h : ∀ node content, ¬ FileStarted fs io path node content) :
    ∃ run, fileErase fuel fs io path opts = some run ∧ FileRefused fs run := by
  rw [fileErase]
  by_cases hdangerous : isDangerousPath path = true
  · rw [if_pos hdangerous]
    exact ⟨_, rfl, rfl, rfl, rfl, by simp, rfl⟩
  rw [if_neg hdangerous]
  cases hnode : fs.resolveLink path with
  | none => exact ⟨_, rfl, rfl, rfl, rfl, by simp, rfl⟩
  | some node =>
    dsimp only
    cases hobj : fs.object node with
    | blockDevice _ | directory _ | symlink _ | other =>
      exact ⟨_, rfl, rfl, rfl, rfl, by simp, rfl⟩
    | regular content =>
      dsimp only
      cases hopened : io.opened with
      | false => exact ⟨_, rfl, rfl, rfl, rfl, by simp, rfl⟩
      | true =>
        cases hallocated : io.allocated with
        | false => exact ⟨_, rfl, rfl, rfl, rfl, by simp, rfl⟩
        | true =>
          exact absurd ⟨by simpa using hdangerous, hnode, hobj, hopened, hallocated⟩
            (h node content)

/-- A call that returns was refused or has ended after its passes. -/
theorem fileErase_cases (run : FileEraseRun) (hrun : fileErase fuel fs io path opts = some run) :
    ((∀ node content, ¬ FileStarted fs io path node content) ∧ FileRefused fs run) ∨
      ∃ node content s done, FileStarted fs io path node content ∧
        fileErasePasses io opts.pattern content.length fuel (List.range opts.passes)
          (fileEraseStart io content) = some (s, done) ∧
        FileEnded fs io path opts node s done run := by
  by_cases hstarted : ∃ node content, FileStarted fs io path node content
  · obtain ⟨node, content, h⟩ := hstarted
    rcases hpasses : fileErasePasses io opts.pattern content.length fuel (List.range opts.passes)
      (fileEraseStart io content) with _ | ⟨s, done⟩
    · rw [fileErase_endless fuel fs io path opts node content h hpasses] at hrun
      contradiction
    · obtain ⟨run', hrun', hended⟩ :=
        fileErase_started fuel fs io path opts node content h s done hpasses
      obtain rfl := Option.some.inj (hrun'.symm.trans hrun)
      exact Or.inr ⟨node, content, s, done, h, hpasses, hended⟩
  · have hnone : ∀ node content, ¬ FileStarted fs io path node content :=
      fun node content h => hstarted ⟨node, content, h⟩
    obtain ⟨run', hrun', hrefused⟩ := fileErase_refused fuel fs io path opts hnone
    obtain rfl := Option.some.inj (hrun'.symm.trans hrun)
    exact Or.inl ⟨hnone, hrefused⟩

end Calls

end EraseCure.FileEraser
