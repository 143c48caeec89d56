import EraseCure.ErrorCodes
import EraseCure.FileSystems
import EraseCure.WordBytes

/-!
# Recovery cases

A case is created for an image, started, paused, resumed and cancelled, and polled
for its progress. The phases of its engine have no steps so far, and a checkpoint
is a file that holds a header. Nothing of the case gets into it.
-/

set_option autoImplicit false

namespace EraseCure.RecoveryCases
open EraseCure.CText EraseCure.ErrorCodes EraseCure.FileSystems EraseCure.WordBytes

structure RecoveryCaseOptions where
  evidenceImagePath : CString 256
  outputDir : CString 256
  blockSize : UInt64

structure RecoveryEngine where
  totalBlocks : UInt64
  coveredBlocks : UInt64
  queued : ℕ
  outputDir : CString 256
  paused : Bool
  cancelled : Bool
  recoveredCount : UInt64

/-- The image is not opened, and the size of a block is not kept. -/
def recoveryEngineInit (_evidenceImage : CString 256) (_blockSize : UInt64)
    (outputDir : CString 256) : RecoveryEngine :=
  ⟨0, 0, 0, printed256 outputDir.chars, false, false, 0⟩

def recoveryEnginePhaseC (engine : RecoveryEngine) : ErasecureError × RecoveryEngine :=
  (.ok, engine)

def recoveryEnginePhaseF1 (engine : RecoveryEngine) : ErasecureError × RecoveryEngine :=
  (.ok, engine)

def recoveryEnginePhaseF2 (engine : RecoveryEngine) : ErasecureError × RecoveryEngine :=
  (.ok, engine)

/-- The flags are not looked at. -/
def recoveryEngineRun (engine : RecoveryEngine) : ErasecureError × RecoveryEngine :=
  let (err, engine) := recoveryEnginePhaseC engine
  if err ≠ .ok then (err, engine)
  else
    let (err, engine) := recoveryEnginePhaseF1 engine
    if err ≠ .ok then (err, engine)
    else
      let (err, engine) := recoveryEnginePhaseF2 engine
      if err ≠ .ok then (err, engine) else (.ok, engine)

def recoveryEnginePause (engine : RecoveryEngine) : RecoveryEngine :=
  { engine with paused := true }

def recoveryEngineResume (engine : RecoveryEngine) : RecoveryEngine :=
  { engine with paused := false }

def recoveryEngineCancel (engine : RecoveryEngine) : RecoveryEngine :=
  { engine with cancelled := true }

def defaultCarveBlockSize : UInt64 := 512

def recoveryCreateCase (allocated : Bool) (opts : RecoveryCaseOptions) :
    Except ErasecureError RecoveryEngine :=
  if !allocated then .error .alloc
  else
    let bs := if opts.blockSize = 0 then defaultCarveBlockSize else opts.blockSize
    .ok (recoveryEngineInit opts.evidenceImagePath bs opts.outputDir)

structure RecoveryProgress where
  totalBlocks : UInt64
  processedBlocks : UInt64
  coveredBlocks : UInt64
  filesRecovered : UInt64
  candidatesInQueue : ℕ
  isRunning : Bool
  isPaused : Bool
  isCancelled : Bool
  currentPhase : CString 32

def phaseText (paused cancelled : Bool) : Text :=
  if cancelled then "CANCELLED".toList
  else if paused then "PAUSED".toList else "RUNNING".toList

def recoveryGetProgress (engine : RecoveryEngine) : RecoveryProgress where
  totalBlocks := engine.totalBlocks
  processedBlocks := engine.coveredBlocks
  coveredBlocks := engine.coveredBlocks
  filesRecovered := engine.recoveredCount
  candidatesInQueue := engine.queued
  isRunning := !engine.paused && !engine.cancelled
  isPaused := engine.paused
  isCancelled := engine.cancelled
  currentPhase := printed32 (phaseText engine.paused engine.cancelled)

section Checkpoints
variable (order : ByteOrder)

def checkpointMagic : ℕ := 0x45435043

def checkpointVersion : ℕ := 1

/-- The size of a `CheckpointHeader`, whose words of eight bytes are aligned. -/
def headerSize : ℕ := 120

def checkpointHeader : Bytes :=
  stored order 4 checkpointMagic++stored order 4 checkpointVersion++
    List.replicate (headerSize-8) 0

/-- How a checkpoint is written. What `fclose` brings to the file is not looked at. -/
inductive SaveIo where
  | openFailed
  | writeFailed (kept : ℕ)
  | written (kept : ℕ)

/-- `checkpoint_save` on the file of its path. It reads nothing of the engine. -/
def checkpointSave (io : SaveIo) (file : Option Bytes) (_engine : RecoveryEngine) :
    ErasecureError × Option Bytes :=
  match io with
  | .openFailed => (.io, file)
  | .writeFailed kept => (.io, some ((checkpointHeader order).take kept))
  | .written kept => (.ok, some ((checkpointHeader order).take kept))

/-- `checkpoint_load` of a file that can be opened. -/
def checkpointLoad (file : Option Bytes) (engine : RecoveryEngine) :
    ErasecureError × RecoveryEngine :=
  match file with
  | none => (.io, engine)
  | some content =>
    if content.length < headerSize then (.io, engine)
    else if loaded order (content.take 4) ≠ checkpointMagic then (.generic, engine)
    else if loaded order ((content.drop 4).take 4) ≠ checkpointVersion then (.generic, engine)
    else (.ok, engine)

theorem header_length : (checkpointHeader order).length = headerSize := by
  rw [checkpointHeader, List.length_append, List.length_append, stored_length, stored_length,
    List.length_replicate]
  rfl

/-- A header that was written whole is loaded into any engine, which it leaves as it is. -/
theorem load_header (engine : RecoveryEngine) :
    checkpointLoad order (some (checkpointHeader order)) engine = (.ok, engine) := by
  have hmagic : (checkpointHeader order).take 4 = stored order 4 checkpointMagic := by
    rw [checkpointHeader, List.append_assoc, List.take_left' (stored_length order 4 _)]
  have hversion : ((checkpointHeader order).drop 4).take 4 =
      stored order 4 checkpointVersion := by
    rw [checkpointHeader, List.append_assoc, List.drop_left' (stored_length order 4 _),
      List.take_left' (stored_length order 4 _)]
  rw [checkpointLoad, header_length, hmagic, hversion, loaded_stored order 4 _ (by decide),
    loaded_stored order 4 _ (by decide)]
  rfl

end Checkpoints

section Runs
variable (order : ByteOrder)

structure CaseState where
  engine : RecoveryEngine
  files : Text → Option Bytes

/-- The calls of a case and, with whether the file opens, that of `checkpoint_load`. -/
inductive CaseCall where
  | start
  | pause
  | resume
  | cancel
  | checkpoint (path : Text) (io : SaveIo)
  | load (path : Text) (opened : Bool)

def caseCall (s : CaseState) : CaseCall → ErasecureError × CaseState
  | .start =>
    let out := recoveryEngineRun s.engine
    (out.1, { s with engine := out.2 })
  | .pause => (.ok, { s with engine := recoveryEnginePause s.engine })
  | .resume => (.ok, { s with engine := recoveryEngineResume s.engine })
  | .cancel => (.ok, { s with engine := recoveryEngineCancel s.engine })
  | .checkpoint path io =>
    let out := checkpointSave order io (s.files path) s.engine
    (out.1, { s with files := Function.update s.files path out.2 })
  | .load path opened =>
    let out := checkpointLoad order (if opened then s.files path else none) s.engine
    (out.1, { s with engine := out.2 })

def caseCalls (s : CaseState) (calls : List CaseCall) : CaseState :=
  calls.foldl (fun s call => (caseCall order s call).2) s

def toggle : CaseCall → Option Bool
  | .pause => some true
  | .resume => some false
  | _ => none

def isCancel : CaseCall → Bool
  | .cancel => true
  | _ => false

def lastToggle (calls : List CaseCall) : Option Bool := (calls.filterMap toggle).getLast?

def flagged (engine : RecoveryEngine) (calls : List CaseCall) : RecoveryEngine :=
  { engine with
    paused := (lastToggle calls).getD engine.paused
    cancelled := engine.cancelled || calls.any isCancel }

theorem load_keeps (file : Option Bytes) (engine : RecoveryEngine) :
    (checkpointLoad order file engine).2 = engine := by
  cases file with
  | none => rfl
  | some content =>
    rw [checkpointLoad]
    split_ifs <;> rfl

theorem caseCall_engine (s : CaseState) (call : CaseCall) :
    (caseCall order s call).2.engine = flagged s.engine [call] := by
  cases call with
  | start | pause | resume | checkpoint => simp [caseCall, flagged, lastToggle, toggle, isCancel,
      recoveryEngineRun, recoveryEnginePhaseC, recoveryEnginePhaseF1, recoveryEnginePhaseF2,
      recoveryEnginePause, recoveryEngineResume]
  | cancel => simp [caseCall, flagged, lastToggle, toggle, isCancel, recoveryEngineCancel]
  | load path opened => simp [caseCall, load_keeps, flagged, lastToggle, toggle, isCancel]

theorem flagged_cons (engine : RecoveryEngine) (call : CaseCall) (calls : List CaseCall) :
    flagged (flagged engine [call]) calls = flagged engine (call::calls) := by
  cases htoggle : toggle call with
  | none => simp [flagged, lastToggle, htoggle, Bool.or_assoc]
  | some paused => simp [flagged, lastToggle, htoggle, List.getLast?_cons, Bool.or_assoc]

theorem caseCalls_engine (s : CaseState) (calls : List CaseCall) :
    (caseCalls order s calls).engine = flagged s.engine calls := by
  induction calls generalizing s with
  | nil => simp [caseCalls, flagged, lastToggle]
  | cons call calls ih =>
    rw [← flagged_cons, ← caseCall_engine order]
    exact ih _

/-- A file that is as it was, or the start of a header. -/
def Headed (old new : Option Bytes) : Prop :=
  new = old ∨ ∃ kept, new = some ((checkpointHeader order).take kept)

theorem saved_file (s : CaseState) (path : Text) (io : SaveIo) :
    (caseCall order s (.checkpoint path io)).2.files path =
      (checkpointSave order io (s.files path) s.engine).2 :=
  Function.update_self _ _ _

theorem caseCall_files (s : CaseState) (call : CaseCall) (path : Text) :
    Headed order (s.files path) ((caseCall order s call).2.files path) := by
  cases call with
  | start | pause | resume | cancel | load => exact Or.inl rfl
  | checkpoint saved io =>
    by_cases hpath : path = saved
    · subst hpath
      rw [saved_file]
      cases io with
      | openFailed => exact Or.inl rfl
      | writeFailed kept | written kept => exact Or.inr ⟨kept, rfl⟩
    · exact Or.inl (Function.update_of_ne hpath _ _)

theorem caseCalls_files (s : CaseState) (calls : List CaseCall) (path : Text) :
    Headed order (s.files path) ((caseCalls order s calls).files path) := by
  induction calls generalizing s with
  | nil => exact Or.inl rfl
  | cons call calls ih =>
    rcases ih (caseCall order s call).2 with hsame | hheader
    · have hfirst := caseCall_files order s call path
      rw [← hsame] at hfirst
      exact hfirst
    · exact Or.inr hheader

/-- What a case comes to after some calls. Its progress shows the flags alone, a run can be
started whatever they are, and a checkpoint that is whole goes into any engine. -/
structure CaseOutcome (files : Text → Option Bytes) (created : RecoveryEngine)
    (calls : List CaseCall) (s : CaseState) : Prop where
  engine : s.engine = { created with
    paused := (lastToggle calls).getD false
    cancelled := calls.any isCancel }
  progress : recoveryGetProgress s.engine = ⟨0, 0, 0, 0, 0,
    !s.engine.paused && !s.engine.cancelled, s.engine.paused, s.engine.cancelled,
    printed32 (phaseText s.engine.paused s.engine.cancelled)⟩
  starts : caseCall order s .start = (.ok, s)
  files : ∀ path, Headed order (files path) (s.files path)
  checkpoints : ∀ path kept other, headerSize ≤ kept →
    checkpointLoad order ((caseCall order s (.checkpoint path (.written kept))).2.files path)
      other = (.ok, other)

theorem init_outcome (files : Text → Option Bytes) (calls : List CaseCall)
    (evidenceImage : CString 256) (blockSize : UInt64) (outputDir : CString 256) :
    CaseOutcome order files (recoveryEngineInit evidenceImage blockSize outputDir) calls
      (caseCalls order ⟨recoveryEngineInit evidenceImage blockSize outputDir, files⟩ calls) := by
  have hengine := caseCalls_engine order
    ⟨recoveryEngineInit evidenceImage blockSize outputDir, files⟩ calls
  refine ⟨hengine, ?_, rfl, caseCalls_files order _ calls, ?_⟩
  · rw [hengine]
    rfl
  · intro path kept other hkept
    have hfile := saved_file order
      (caseCalls order ⟨recoveryEngineInit evidenceImage blockSize outputDir, files⟩ calls)
      path (.written kept)
    rw [hfile, checkpointSave, List.take_of_length_le (by rw [header_length]; exact hkept)]
    exact load_header order other

end Runs

theorem case_outcome (order : ByteOrder) (allocated : Bool) (opts : RecoveryCaseOptions)
    (files : Text → Option Bytes) (created : RecoveryEngine) (calls : List CaseCall)
    (h : recoveryCreateCase allocated opts = .ok created) :
    CaseOutcome order files created calls (caseCalls order ⟨created, files⟩ calls) := by
  rw [recoveryCreateCase] at h
  split at h
  · contradiction
  · obtain rfl := Except.ok.inj h
    exact init_outcome order files calls _ _ _

/-- A case without an image is paused and cancelled. -/
theorem case_outcome_cancelled : ∃ created,
    recoveryCreateCase true ⟨printed256 [], printed256 [], 0⟩ = .ok created ∧
    CaseOutcome .little (fun _ => none) created [.pause, .cancel]
      (caseCalls .little ⟨created, fun _ => none⟩ [.pause, .cancel]) :=
  ⟨_, rfl, case_outcome .little true ⟨printed256 [], printed256 [], 0⟩ (fun _ => none) _
    [.pause, .cancel] rfl⟩

end EraseCure.RecoveryCases
