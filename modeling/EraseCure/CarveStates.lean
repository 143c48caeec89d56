import EraseCure.CText
import EraseCure.FormatBlobs

/-!
# Candidates and their format state

A candidate holds a sequence of blocks and a state of its format, which is kept
as the format data of a block is. A new candidate is zeroed first, so it has no
format state also when its identifier or its sequence cannot be made.
-/

set_option autoImplicit false

namespace EraseCure.CarveStates
open EraseCure.CText EraseCure.FileSystems EraseCure.WordBytes EraseCure.CheckedReads
open EraseCure.BlockStates EraseCure.FormatBlobs

inductive CarveStateError where
  | invalidArg | io | noMem
  deriving DecidableEq

section Blockvectors

structure BvSlot where
  apparentBlock : UInt64
  actualBlock : UInt64
  valid : Bool
  tried : Bool
  deriving DecidableEq

/-- The slots are null or an array of the capacity. -/
structure Blockvector where
  slots : Option (List BvSlot)
  length : ℕ
  capacity : ℕ

def blockvectorCreate (calloc : Bool) (initialCapacity : ℕ) :
    Option CarveStateError × Blockvector :=
  let capacity := if 0 < initialCapacity then initialCapacity else 16
  if calloc then (none, ⟨some (List.replicate capacity ⟨0, 0, false, false⟩), 0, capacity⟩)
  else (some .noMem, ⟨none, 0, capacity⟩)

end Blockvectors

inductive CandidateStatus where
  | new | scanning | promising | validating | validated | failed | cancelled
  deriving DecidableEq

inductive ValidationResult where
  | unknown | promising | validatesTo | validates | invalid
  deriving DecidableEq

structure CarveState where
  uuid : CString 37
  fileType : CString 32
  startBlock : UInt64
  blockvector : Blockvector
  candidateLength : UInt64
  status : CandidateStatus
  validation : ValidationResult
  confidence : UInt32
  priority : UInt32
  serviceTimeUs : UInt64
  reassemblyPos : UInt64
  formatState : Option Bytes
  formatStateLen : UInt64
  checkpointSeq : UInt64

def CarveState.zero : CarveState where
  uuid := printed37 []
  fileType := printed32 []
  startBlock := 0
  blockvector := ⟨none, 0, 0⟩
  candidateLength := 0
  status := .new
  validation := .unknown
  confidence := 0
  priority := 0
  serviceTimeUs := 0
  reassemblyPos := 0
  formatState := none
  formatStateLen := 0
  checkpointSeq := 0

section Identifiers

/-- The version and the variant are set in the random bytes. -/
def uuidBytes (random : Vector UInt8 16) : Bytes :=
  (random.toList.modify 6 (fun b => (b &&& 0x0F) ||| 0x40)).modify 8
    (fun b => (b &&& 0x3F) ||| 0x80)

def hexBytes (bytes : Bytes) (i n : ℕ) : Text := ((bytes.drop i).take n).flatMap hexByte

def uuidText (r : Bytes) : Text :=
  hexBytes r 0 4++ '-'::(hexBytes r 4 2++ '-'::(hexBytes r 6 2++ '-'::(hexBytes r 8 2++
    '-'::hexBytes r 10 6)))

def generateUuid (random : Option (Vector UInt8 16)) : Except CarveStateError (CString 37) :=
  match random with
  | none => .error .io
  | some random => .ok (printed37 (uuidText (uuidBytes random)))

end Identifiers

section Calls

def carveStateCreate (random : Option (Vector UInt8 16)) (calloc : Bool) (cs : CarveState)
    (fileType : Option Text) (startBlock : UInt64) : Option CarveStateError × CarveState :=
  match fileType with
  | none => (some .invalidArg, cs)
  | some fileType =>
    match generateUuid random with
    | .error e => (some e, .zero)
    | .ok uuid =>
      let cs := { CarveState.zero with
        uuid := uuid
        fileType := printed32 fileType
        startBlock := startBlock
        status := .new
        validation := .unknown }
      let (e, bv) := blockvectorCreate calloc 16
      (e, { cs with blockvector := bv })

def carveStateFree (_ : CarveState) : CarveState := .zero

def carveBlob (cs : CarveState) : FormatBlob := ⟨cs.formatState, cs.formatStateLen⟩

def carveStateSetFormatState (malloc : Bool) (cs : CarveState) (data : Option Bytes)
    (len : UInt64) : Checked (Option CarveStateError × CarveState) :=
  (setBlob .invalidArg .noMem malloc (carveBlob cs) data len).map (fun r =>
    (r.1, { cs with formatState := r.2.data, formatStateLen := r.2.len }))

inductive CarveStateCall where
  | create (random : Option (Vector UInt8 16)) (calloc : Bool) (fileType : Option Text)
    (startBlock : UInt64)
  | setFormatState (malloc : Bool) (data : Option Bytes) (len : UInt64)
  | free

def carveStateCall (call : CarveStateCall) (cs : CarveState) :
    Checked (Option CarveStateError × CarveState) :=
  match call with
  | .create random calloc fileType startBlock =>
    .ok (carveStateCreate random calloc cs fileType startBlock)
  | .setFormatState malloc data len => carveStateSetFormatState malloc cs data len
  | .free => .ok (none, carveStateFree cs)

def CarveStateCall.Granted : CarveStateCall → Prop
  | .setFormatState malloc data len => BytesGranted malloc data len
  | _ => True

/-- What the first call leaves, with whatever was there before. -/
def CarveStateStart (cs : CarveState) : Prop :=
  ∃ random calloc before fileType startBlock,
    cs = (carveStateCreate random calloc before (some fileType) startBlock).2

theorem created_sound (random : Option (Vector UInt8 16)) (calloc : Bool) (before : CarveState)
    (fileType : Text) (startBlock : UInt64) :
    (carveBlob (carveStateCreate random calloc before (some fileType) startBlock).2).Sound := by
  have hempty : carveBlob (carveStateCreate random calloc before (some fileType) startBlock).2 =
      ⟨none, 0⟩ := by
    cases random <;> cases calloc <;> rfl
  rw [hempty]
  exact empty_sound

theorem setFormatState_sound (malloc : Bool) (cs cs' : CarveState) (data : Option Bytes)
    (len : UInt64) (r : Option CarveStateError) (h : (carveBlob cs).Sound)
    (hset : carveStateSetFormatState malloc cs data len = .ok (r, cs')) :
    (carveBlob cs').Sound ↔ BytesGranted malloc data len := by
  obtain ⟨out, hblob, hret⟩ := bind_ok _ _ _ hset
  cases hret
  exact setBlob_sound _ _ malloc _ out.2 data len out.1 h hblob

theorem carve_call_sound (call : CarveStateCall) (cs cs' : CarveState)
    (r : Option CarveStateError) (h : (carveBlob cs).Sound)
    (hcall : carveStateCall call cs = .ok (r, cs')) :
    (carveBlob cs').Sound ↔ call.Granted := by
  cases call with
  | create random calloc fileType startBlock =>
    cases fileType with
    | none =>
      cases hcall
      exact iff_of_true h trivial
    | some fileType =>
      have hcs : _ = cs' := congrArg Prod.snd (Except.ok.inj hcall)
      rw [← hcs]
      exact iff_of_true (created_sound random calloc cs fileType startBlock) trivial
  | setFormatState malloc data len => exact setFormatState_sound malloc cs cs' data len r h hcall
  | free =>
    cases hcall
    exact iff_of_true empty_sound trivial

theorem carve_calls_sound (cs : CarveState)
    (h : CallsReach carveStateCall CarveStateStart CarveStateCall.Granted cs) :
    (carveBlob cs).Sound := by
  refine calls_invariant _ _ _ (fun cs => (carveBlob cs).Sound) ?_ ?_ cs h
  · rintro _ ⟨random, calloc, before, fileType, startBlock, rfl⟩
    exact created_sound random calloc before fileType startBlock
  · intro call cs cs' r hs hgranted hcall
    exact (carve_call_sound call cs cs' r hs hcall).mpr hgranted

end Calls

/-- In runs in which no allocation for data that is set fails, every state that is
reached has a sound pair and its copies stay within the bytes; and a call on a
sound pair keeps it so exactly when its allocation does not fail. -/
theorem blobs_sound (order : ByteOrder) :
    (∀ bs, CallsReach (blockStateCall order) BlockStateStart BlockStateCall.Granted bs →
      (stateBlob bs).Sound ∧ CopiesWithin order bs) ∧
    (∀ cs, CallsReach carveStateCall CarveStateStart CarveStateCall.Granted cs →
      (carveBlob cs).Sound) ∧
    (∀ call bs bs' r, (stateBlob bs).Sound → blockStateCall order call bs = .ok (r, bs') →
      ((stateBlob bs').Sound ↔ call.Granted)) ∧
    (∀ call cs cs' r, (carveBlob cs).Sound → carveStateCall call cs = .ok (r, cs') →
      ((carveBlob cs').Sound ↔ call.Granted)) := by
  refine ⟨fun bs hbs => ?_, carve_calls_sound, call_sound order, carve_call_sound⟩
  have hsound := calls_sound order bs hbs
  exact ⟨hsound, sound_within order bs hsound⟩

/-- Two bytes are set in a new block state. -/
theorem blobs_sound_two : (stateBlob twoBytes).Sound ∧ CopiesWithin .little twoBytes := by
  have hgranted : (BlockStateCall.setFormatData true (some [1, 2]) 2).Granted := fun _ _ => rfl
  have hset : blockStateCall .little (.setFormatData true (some [1, 2]) 2) (blockStateCreate 7) =
      .ok (none, twoBytes) := rfl
  exact (blobs_sound .little).1 twoBytes (.call _ _ _ _ (.start _ ⟨7, rfl⟩) hgranted hset)

/-- The allocation of one byte fails, and the length says one all the same. -/
theorem blobs_unsound : ¬ ∀ order bs,
    CallsReach (blockStateCall order) BlockStateStart (fun _ => True) bs →
      (stateBlob bs).Sound := by
  intro h
  exact null_unsound 1 (by decide) (h .little { blockStateCreate 7 with formatDataLen := 1 }
    (.call (.setFormatData false (some [1]) 1) (blockStateCreate 7) _ (some .noMem)
      (.start _ ⟨7, rfl⟩) trivial rfl))

end EraseCure.CarveStates
