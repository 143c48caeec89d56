import EraseCure.TruncatedStates

/-!
# Format data and its length

A state keeps a pointer to bytes that it owns, and their number beside it. The
two agree when the number is zero exactly for the null pointer, and otherwise
counts the bytes. Setting new data stores the number before the allocation, and
an allocation that fails leaves the number with a null pointer.
-/

set_option autoImplicit false

namespace EraseCure.FormatBlobs
open EraseCure.FileSystems EraseCure.WordBytes EraseCure.CheckedReads EraseCure.BlockStates
open EraseCure.TruncatedStates

section Calls
variable {κ σ ρ : Type} (step : κ → σ → Checked (ρ × σ)) (start : σ → Prop) (allowed : κ → Prop)

/-- The states after calls that are allowed and come back. -/
inductive CallsReach : σ → Prop where
  | start (s : σ) : start s → CallsReach s
  | call (c : κ) (s s' : σ) (r : ρ) : CallsReach s → allowed c → step c s = .ok (r, s') →
      CallsReach s'

theorem calls_invariant (I : σ → Prop) (hstart : ∀ s, start s → I s)
    (hstep : ∀ c s s' r, I s → allowed c → step c s = .ok (r, s') → I s') (s : σ)
    (h : CallsReach step start allowed s) : I s := by
  induction h with
  | start s hs => exact hstart s hs
  | call c s s' r _ hc hcall ih => exact hstep c s s' r ih hc hcall

end Calls

/-- A pointer to owned bytes and the length that is kept beside it. -/
structure FormatBlob where
  data : Option Bytes
  len : UInt64

structure FormatBlob.Sound (blob : FormatBlob) : Prop where
  null : blob.len = 0 ↔ blob.data = none
  exact_length : ∀ d, blob.data = some d → d.length = blob.len.toNat

/-- The bytes that are there are freed and the length is set, before the new
bytes are allocated and copied. -/
def setBlob {ε : Type} (invalidArg noMem : ε) (malloc : Bool) (blob : FormatBlob)
    (data : Option Bytes) (len : UInt64) : Checked (Option ε × FormatBlob) :=
  if data = none ∧ 0 < len then return (some invalidArg, blob)
  else if 0 < len then
    if !malloc then return (some noMem, ⟨none, len⟩)
    else do
      let bytes ← readRange (data.getD []) 0 len.toNat
      return (none, ⟨some bytes, len⟩)
  else return (none, ⟨none, len⟩)

/-- The bytes that a call needs are allocated. -/
def BytesGranted (malloc : Bool) (data : Option Bytes) (len : UInt64) : Prop :=
  data ≠ none → 0 < len → malloc = true

section Blobs

theorem empty_sound : FormatBlob.Sound ⟨none, 0⟩ :=
  ⟨iff_of_true rfl rfl, fun _ h => by cases h⟩

theorem owned_sound (bytes : Bytes) (len : UInt64) (hlen : bytes.length = len.toNat)
    (hpos : 0 < len) : FormatBlob.Sound ⟨some bytes, len⟩ := by
  refine ⟨iff_of_false ?_ (by simp), ?_⟩
  · rintro rfl
    exact absurd hpos (by decide)
  · intro d hd
    rw [← Option.some.inj hd]
    exact hlen

theorem null_unsound (len : UInt64) (hpos : 0 < len) : ¬ FormatBlob.Sound ⟨none, len⟩ := by
  intro h
  have hzero : len = 0 := h.null.mpr rfl
  rw [hzero] at hpos
  exact absurd hpos (by decide)

theorem readRange_length (data bytes : Bytes) (i n : ℕ) (h : readRange data i n = .ok bytes) :
    bytes.length = n := by
  rw [readRange] at h
  split_ifs at h with hwithin
  cases h
  rw [List.length_take, List.length_drop]
  omega

/-- Setting keeps a sound pair exactly when its allocation does not fail. -/
theorem setBlob_sound {ε : Type} (invalidArg noMem : ε) (malloc : Bool) (blob blob' : FormatBlob)
    (data : Option Bytes) (len : UInt64) (r : Option ε) (h : blob.Sound)
    (hset : setBlob invalidArg noMem malloc blob data len = .ok (r, blob')) :
    blob'.Sound ↔ BytesGranted malloc data len := by
  rw [setBlob] at hset
  split_ifs at hset with hnull hpos hmalloc
  · cases hset
    exact iff_of_true h (fun hdata => absurd hnull.1 hdata)
  · cases hset
    have hdata : data ≠ none := fun hd => hnull ⟨hd, hpos⟩
    refine iff_of_false (null_unsound len hpos) (fun hgranted => ?_)
    rw [hgranted hdata hpos] at hmalloc
    exact absurd hmalloc (by decide)
  · obtain ⟨bytes, hread, hret⟩ := bind_ok _ _ _ hset
    cases hret
    refine iff_of_true (owned_sound bytes len (readRange_length _ _ _ _ hread) hpos) ?_
    rintro - -
    simpa using hmalloc
  · cases hset
    have hzero : len = 0 := by
      rw [UInt64.lt_iff_toNat_lt] at hpos
      exact UInt64.toNat_inj.mp (Nat.eq_zero_of_not_pos hpos)
    rw [hzero]
    exact iff_of_true empty_sound (fun _ hlt => absurd hlt (by decide))

end Blobs

section BlockStateCalls

def stateBlob (bs : BlockState) : FormatBlob := ⟨bs.formatData, bs.formatDataLen⟩

def blockStateSetFormatData (malloc : Bool) (bs : BlockState) (data : Option Bytes)
    (len : UInt64) : Checked (Option BlockStateError × BlockState) :=
  (setBlob .invalidArg .noMem malloc (stateBlob bs) data len).map (fun r =>
    (r.1, { bs with formatData := r.2.data, formatDataLen := r.2.len }))

/-- The copy of the format data that serializing and getting make, through the
pointer and with the length that is kept. -/
def formatDataCopy (bs : BlockState) : Checked Bytes :=
  if 0 < bs.formatDataLen then
    match bs.formatData with
    | none => .error .fault
    | some d => readRange d 0 bs.formatDataLen.toNat
  else return []

/-- The length that is stored and, when there is a place for them, the bytes
that are copied there. -/
def blockStateGetFormatData (bs : BlockState) (outData : Bool) :
    Checked (UInt64 × Option Bytes) :=
  if outData then (formatDataCopy bs).map (fun bytes => (bs.formatDataLen, some bytes))
  else return (bs.formatDataLen, none)

/-- `block_state_serialize` with its copy of the format data checked. -/
def checkedSerialize (order : ByteOrder) (bs : BlockState) (buf : Bytes) :
    Checked (Except BlockStateError (Bytes × ℕ)) :=
  if buf.length < (73+bs.formatDataLen.toNat)%2^64 then return .error .invalidArg
  else do
    let _ ← formatDataCopy bs
    return blockStateSerialize order bs buf

inductive BlockStateCall where
  | create (blockNumber : UInt64)
  | setFormatData (malloc : Bool) (data : Option Bytes) (len : UInt64)
  | deserialize (malloc : Bool) (buf : Bytes)
  | free

def blockStateCall (order : ByteOrder) (call : BlockStateCall) (bs : BlockState) :
    Checked (Option BlockStateError × BlockState) :=
  match call with
  | .create blockNumber => .ok (none, blockStateCreate blockNumber)
  | .setFormatData malloc data len => blockStateSetFormatData malloc bs data len
  | .deserialize malloc buf => blockStateDeserialize order malloc bs buf
  | .free => .ok (none, blockStateFree bs)

/-- No allocation for the data that is set fails. -/
def BlockStateCall.Granted : BlockStateCall → Prop
  | .setFormatData malloc data len => BytesGranted malloc data len
  | _ => True

def BlockStateStart (bs : BlockState) : Prop := ∃ blockNumber, bs = blockStateCreate blockNumber

theorem setFormatData_sound (malloc : Bool) (bs bs' : BlockState) (data : Option Bytes)
    (len : UInt64) (r : Option BlockStateError) (h : (stateBlob bs).Sound)
    (hset : blockStateSetFormatData malloc bs data len = .ok (r, bs')) :
    (stateBlob bs').Sound ↔ BytesGranted malloc data len := by
  obtain ⟨out, hblob, hret⟩ := bind_ok _ _ _ hset
  cases hret
  exact setBlob_sound _ _ malloc _ out.2 data len out.1 h hblob

variable (order : ByteOrder)

theorem deserialize_sound (malloc : Bool) (bs bs' : BlockState) (buf : Bytes)
    (r : Option BlockStateError) (h : (stateBlob bs).Sound)
    (hread : blockStateDeserialize order malloc bs buf = .ok (r, bs')) :
    (stateBlob bs').Sound := by
  by_cases hunmarked : buf.length < 4 ∨ magic order buf ≠ blockStateMagic
  · rw [deserialize_unmarked order malloc bs buf hunmarked] at hread
    cases hread
    exact h
  obtain ⟨hfour, hm⟩ := not_or.mp hunmarked
  rw [not_not] at hm
  have hlen := deserialize_header order malloc bs buf (by omega) hm _ hread
  rw [deserialize_whole order malloc bs buf hlen hm] at hread
  split_ifs at hread with hpos
  · cases hread
    exact empty_sound
  · cases hread
    exact empty_sound
  · cases hdata : readRange buf 73 (declared order buf) with
    | error e =>
      rw [hdata] at hread
      cases hread
    | ok bytes =>
      rw [hdata] at hread
      cases hread
      have hword : (UInt64.ofNat (declared order buf)).toNat = declared order buf :=
        UInt64.toNat_ofNat_of_lt' (declared_lt order buf)
      refine owned_sound bytes _ ?_ ?_
      · rw [hword, readRange_length buf bytes 73 _ hdata]
      · rw [UInt64.lt_iff_toNat_lt, hword]
        exact hpos
  · cases hread
    exact empty_sound

theorem call_sound (call : BlockStateCall) (bs bs' : BlockState) (r : Option BlockStateError)
    (h : (stateBlob bs).Sound) (hcall : blockStateCall order call bs = .ok (r, bs')) :
    (stateBlob bs').Sound ↔ call.Granted := by
  cases call with
  | create blockNumber =>
    cases hcall
    exact iff_of_true empty_sound trivial
  | setFormatData malloc data len => exact setFormatData_sound malloc bs bs' data len r h hcall
  | deserialize malloc buf =>
    exact iff_of_true (deserialize_sound order malloc bs bs' buf r h hcall) trivial
  | free =>
    cases hcall
    exact iff_of_true empty_sound trivial

theorem calls_sound (bs : BlockState)
    (h : CallsReach (blockStateCall order) BlockStateStart BlockStateCall.Granted bs) :
    (stateBlob bs).Sound := by
  refine calls_invariant _ _ _ (fun bs => (stateBlob bs).Sound) ?_ ?_ bs h
  · rintro _ ⟨blockNumber, rfl⟩
    exact empty_sound
  · intro call bs bs' r hs hgranted hcall
    exact (call_sound order call bs bs' r hs hcall).mpr hgranted

theorem sound_copied (bs : BlockState) (h : (stateBlob bs).Sound) :
    formatDataCopy bs = .ok bs.data := by
  rw [formatDataCopy, BlockState.data]
  cases hdata : bs.formatData with
  | none =>
    have hzero : bs.formatDataLen = 0 := h.null.mpr hdata
    rw [hzero]
    rfl
  | some d =>
    have hlen : d.length = bs.formatDataLen.toNat := h.exact_length d hdata
    have hpos : 0 < bs.formatDataLen := by
      rw [UInt64.pos_iff_ne_zero]
      intro hzero
      have hnone : bs.formatData = none := h.null.mp hzero
      rw [hdata] at hnone
      contradiction
    rw [if_pos hpos]
    dsimp only
    rw [← hlen, readRange_within d 0 d.length (by omega)]
    simp

/-- Getting and serializing never copy from a null pointer or beyond the bytes. -/
def CopiesWithin (bs : BlockState) : Prop :=
  (∀ outData, blockStateGetFormatData bs outData =
    .ok (bs.formatDataLen, if outData then some bs.data else none)) ∧
  ∀ buf, checkedSerialize order bs buf = .ok (blockStateSerialize order bs buf)

theorem sound_within (bs : BlockState) (h : (stateBlob bs).Sound) : CopiesWithin order bs := by
  have hcopy := sound_copied bs h
  constructor
  · intro outData
    rw [blockStateGetFormatData, hcopy]
    cases outData <;> rfl
  · intro buf
    rw [checkedSerialize, hcopy]
    split_ifs with hshort
    · rw [blockStateSerialize, if_pos hshort]
      rfl
    · rfl

end BlockStateCalls

end EraseCure.FormatBlobs
