import EraseCure.CheckedReads
import EraseCure.ErrorCodes
import EraseCure.FileSystems

/-!
# ATA commands through SCSI

A command is packed into sixteen bytes and sent to the device. The reply has a
status, and sense data whose descriptors are walked for the one that returns the
registers of the device. Each read of the sense buffer is checked.
-/

set_option autoImplicit false

namespace EraseCure.AtaPassthrough
open EraseCure.ErrorCodes EraseCure.FileSystems EraseCure.Scans EraseCure.CheckedReads

structure AtaCommand where
  command : UInt8
  feature : UInt8
  featureExt : UInt8
  count : UInt8
  countExt : UInt8
  lbaLow : UInt8
  lbaMid : UInt8
  lbaHigh : UInt8
  lbaLowExt : UInt8
  lbaMidExt : UInt8
  lbaHighExt : UInt8
  device : UInt8
  protocol : UInt8
  direction : Int32
  hasBuffer : Bool
  dataLen : ℕ
  timeoutMs : UInt32

structure AtaResult where
  status : UInt8
  error : UInt8
  count : UInt8
  lbaLow : UInt8
  lbaMid : UInt8
  lbaHigh : UInt8
  device : UInt8
  senseKey : UInt8
  asc : UInt8
  ascq : UInt8
  success : Bool
  sgStatus : UInt8
  deriving DecidableEq

def ataCommandInit : AtaCommand :=
  ⟨0, 0, 0, 0, 0, 0, 0, 0, 0, 0, 0, 0, 0, -1, false, 0, 5000⟩

def senseBufLen : ℕ := 32

/-- The flags of a command; the first of them asks for its registers. -/
def transferFlags (cmd : AtaCommand) : UInt8 :=
  let flags : UInt8 := 0x20
  let flags := if cmd.direction = -3 then flags ||| 0x08 else flags
  if cmd.hasBuffer ∧ 0 < cmd.dataLen then flags ||| 0x02 else flags

def buildCdb (cmd : AtaCommand) : Bytes :=
  [0x85, cmd.protocol <<< 1, transferFlags cmd, cmd.featureExt, cmd.feature, cmd.countExt,
   cmd.count, cmd.lbaLowExt, cmd.lbaLow, cmd.lbaMidExt, cmd.lbaMid, cmd.lbaHighExt, cmd.lbaHigh,
   cmd.device, cmd.command, 0]

structure SgRequest where
  direction : Int32
  dxferLen : UInt32
  cdb : Bytes
  timeout : UInt32

def requestOf (cmd : AtaCommand) : SgRequest :=
  ⟨cmd.direction, UInt32.ofNat cmd.dataLen, buildCdb cmd, cmd.timeoutMs⟩

/-- What the driver returns: it writes no more than the sense buffer holds. -/
structure SgReply where
  status : UInt8
  written : Bytes
  fits : written.length ≤ senseBufLen
  data : Bytes

inductive IoctlFailure where
  | accessDenied | failed
  deriving DecidableEq

/-- The sense buffer, which is zero before the call. -/
def SgReply.sense (reply : SgReply) : Bytes :=
  reply.written++List.replicate (senseBufLen-reply.written.length) 0

/-- One descriptor: it is the one that is looked for, or it is skipped. -/
def descriptorBody (sense : Bytes) (sbLenWr : ℕ) (result : AtaResult) (offset : ℕ) :
    Checked (Round ℕ AtaResult) :=
  if offset+1 < sbLenWr then do
    let descType ← readAt sense offset
    let descLen ← readAt sense (offset+1)
    if descType = 0x09 ∧ 12 ≤ descLen.toNat ∧ offset+13 < senseBufLen then do
      let error ← readAt sense (offset+3)
      let count ← readAt sense (offset+5)
      let lbaLow ← readAt sense (offset+7)
      let lbaMid ← readAt sense (offset+9)
      let lbaHigh ← readAt sense (offset+11)
      let device ← readAt sense (offset+12)
      let status ← readAt sense (offset+13)
      return .done { result with
        error := error, count := count, lbaLow := lbaLow, lbaMid := lbaMid, lbaHigh := lbaHigh
        device := device, status := status
        success := result.success && status &&& 0x01 = 0 }
    else return .next (offset+(descLen.toNat+2))
  else return .done result

def parseSense (reply : SgReply) (fuel : ℕ) : Checked AtaResult :=
  let result : AtaResult := ⟨0, 0, 0, 0, 0, 0, 0, 0, 0, 0, true, reply.status⟩
  if 0 < reply.written.length then do
    let responseCode ← readAt reply.sense 0
    if responseCode = 0x72 ∨ responseCode = 0x73 then do
      let key ← readAt reply.sense 1
      let asc ← readAt reply.sense 2
      let ascq ← readAt reply.sense 3
      loop (descriptorBody reply.sense reply.written.length
        { result with senseKey := key &&& 0x0F, asc := asc, ascq := ascq }) fuel 8
    else return result
  else return result

/-- The result of a command, and what was transferred into its buffer. -/
def ataExecute (sgIo : SgRequest → Except IoctlFailure SgReply) (cmd : AtaCommand) (fuel : ℕ) :
    Checked (Except ErasecureError (AtaResult × Bytes)) :=
  match sgIo (requestOf cmd) with
  | .error .accessDenied => return .error .permissionDenied
  | .error .failed => return .error .ioctlFailed
  | .ok reply => do
    let result ← parseSense reply fuel
    let result :=
      if reply.status ≠ 0 ∧ result.success = true then { result with success := false } else result
    return .ok (result, reply.data.take cmd.dataLen)

inductive OpenOutcome where
  | opened | accessDenied | failed
  deriving DecidableEq

def ataExecutePath (outcome : OpenOutcome) (sgIo : SgRequest → Except IoctlFailure SgReply)
    (cmd : AtaCommand) (fuel : ℕ) : Checked (Except ErasecureError (AtaResult × Bytes)) :=
  match outcome with
  | .opened => ataExecute sgIo cmd fuel
  | .accessDenied => return .error .permissionDenied
  | .failed => return .error .ioctlFailed

/-- A descriptor of sense data, with the bytes after its length. -/
structure Descriptor where
  descType : UInt8
  payload : Bytes
  small : payload.length < 256

def Descriptor.encode (d : Descriptor) : Bytes :=
  d.descType::UInt8.ofNat d.payload.length::d.payload

/-- The registers that a device returns, and what its descriptor has after them. -/
structure AtaReturn where
  extend : UInt8
  error : UInt8
  countExt : UInt8
  count : UInt8
  lbaLowExt : UInt8
  lbaLow : UInt8
  lbaMidExt : UInt8
  lbaMid : UInt8
  lbaHighExt : UInt8
  lbaHigh : UInt8
  device : UInt8
  status : UInt8
  more : Bytes
  small : more.length < 244

def AtaReturn.payload (a : AtaReturn) : Bytes :=
  a.extend::a.error::a.countExt::a.count::a.lbaLowExt::a.lbaLow::a.lbaMidExt::a.lbaMid::
    a.lbaHighExt::a.lbaHigh::a.device::a.status::a.more

theorem ataReturn_length (a : AtaReturn) : a.payload.length = a.more.length+12 := rfl

def AtaReturn.descriptor (a : AtaReturn) : Descriptor where
  descType := 0x09
  payload := a.payload
  small := by
    have := a.small
    rw [ataReturn_length]
    omega

/-- A descriptor that the parser takes for the registers. -/
def Descriptor.Returns (d : Descriptor) : Prop := d.descType = 0x09 ∧ 12 ≤ d.payload.length

/-- Sense data in descriptor format, as much of it as was written, with a first
descriptor of the registers that was written whole. -/
structure Carries (reply : SgReply) (a : AtaReturn) where
  header : Bytes
  before : List Descriptor
  after : List Descriptor
  headerSize : header.length = 8
  format : header.head? = some 0x72 ∨ header.head? = some 0x73
  first : ∀ d ∈ before, ¬ d.Returns
  written : reply.written <+:
    header++(before++a.descriptor::after).flatMap Descriptor.encode
  whole : (header++(before++[a.descriptor]).flatMap Descriptor.encode).length ≤
    reply.written.length

theorem toNat_length (d : Descriptor) :
    (UInt8.ofNat d.payload.length).toNat = d.payload.length := by
  rw [UInt8.toNat_ofNat']
  exact Nat.mod_eq_of_lt d.small

def AtaReturn.fill (a : AtaReturn) (result : AtaResult) : AtaResult :=
  { result with
    error := a.error, count := a.count, lbaLow := a.lbaLow, lbaMid := a.lbaMid
    lbaHigh := a.lbaHigh, device := a.device, status := a.status
    success := result.success && a.status &&& 0x01 = 0 }

section Walk
variable (sense : Bytes) (n : ℕ) (result : AtaResult) (a : AtaReturn) (after : List Descriptor)

theorem body_taken (o : ℕ) (hn : o+14 ≤ n) (h32 : n ≤ senseBufLen)
    (hlook : ∀ i, o+i < n →
      sense[o+i]? = (a.descriptor.encode++after.flatMap Descriptor.encode)[i]?) :
    descriptorBody sense n result o = .ok (.done (a.fill result)) := by
  have hread : ∀ i x, i < 14 →
      (a.descriptor.encode++after.flatMap Descriptor.encode)[i]? = some x →
      readAt sense (o+i) = .ok x := fun i x hi hx =>
    readAt_get sense (o+i) x ((hlook i (by omega)).trans hx)
  have hlen := toNat_length a.descriptor
  have htaken : (0x09 : UInt8) = 0x09 ∧ 12 ≤ (UInt8.ofNat a.descriptor.payload.length).toNat ∧
      o+13 < senseBufLen := by
    have hpayload : a.descriptor.payload.length = a.more.length+12 := rfl
    exact ⟨rfl, by omega, by omega⟩
  have hgo : o+1 < n := by omega
  have htype : readAt sense o = .ok 0x09 := hread 0 _ (by decide) rfl
  rw [descriptorBody, if_pos hgo, htype, ok_bind, hread 1 _ (by decide) rfl, ok_bind]
  change (if (0x09 : UInt8) = 0x09 ∧ _ then _ else _) = _
  rw [if_pos htaken, hread 3 _ (by decide) rfl, ok_bind, hread 5 _ (by decide) rfl, ok_bind,
    hread 7 _ (by decide) rfl, ok_bind, hread 9 _ (by decide) rfl, ok_bind,
    hread 11 _ (by decide) rfl, ok_bind, hread 12 _ (by decide) rfl, ok_bind,
    hread 13 _ (by decide) rfl, ok_bind]
  rfl

theorem body_skipped (o : ℕ) (d : Descriptor) (rest : Bytes) (hn : o+2 ≤ n)
    (hd : ¬ d.Returns) (hlook : ∀ i, o+i < n → sense[o+i]? = (d.encode++rest)[i]?) :
    descriptorBody sense n result o = .ok (.next (o+d.encode.length)) := by
  have hread : ∀ i x, i < 2 → (d.encode++rest)[i]? = some x → readAt sense (o+i) = .ok x :=
    fun i x hi hx => readAt_get sense (o+i) x ((hlook i (by omega)).trans hx)
  have hlen := toNat_length d
  have hother : ¬ (d.descType = 0x09 ∧ 12 ≤ (UInt8.ofNat d.payload.length).toNat ∧
      o+13 < senseBufLen) := by
    rintro ⟨htype, hlong, _⟩
    exact hd ⟨htype, hlen ▸ hlong⟩
  have hgo : o+1 < n := by omega
  have htype : readAt sense o = .ok d.descType := hread 0 _ (by decide) rfl
  rw [descriptorBody, if_pos hgo, htype, ok_bind, hread 1 _ (by decide) rfl, ok_bind,
    if_neg hother, hlen]
  rfl

theorem walk_finds (before : List Descriptor) (o : ℕ) (h32 : n ≤ senseBufLen)
    (hfirst : ∀ d ∈ before, ¬ d.Returns)
    (hlook : ∀ i, o+i < n →
      sense[o+i]? = ((before++a.descriptor::after).flatMap Descriptor.encode)[i]?)
    (hwhole : o+((before++[a.descriptor]).flatMap Descriptor.encode).length ≤ n)
    (fuel : ℕ) (hfuel : n < o+fuel) :
    loop (descriptorBody sense n result) fuel o = .ok (a.fill result) := by
  induction before generalizing o fuel with
  | nil =>
    obtain ⟨fuel, rfl⟩ : ∃ f, fuel = f+1 := ⟨fuel-1, by
      have : a.descriptor.encode.length = a.more.length+14 := rfl
      simp only [List.nil_append, List.flatMap_cons, List.flatMap_nil, List.append_nil] at hwhole
      omega⟩
    have hn : o+14 ≤ n := by
      have : a.descriptor.encode.length = a.more.length+14 := rfl
      simp only [List.nil_append, List.flatMap_cons, List.flatMap_nil, List.append_nil] at hwhole
      omega
    rw [loop, body_taken sense n result a after o hn h32 hlook]
  | cons d before ih =>
    rw [List.cons_append, List.flatMap_cons] at hlook hwhole
    rw [List.length_append] at hwhole
    have hlen : d.encode.length = d.payload.length+2 := rfl
    obtain ⟨fuel, rfl⟩ : ∃ f, fuel = f+1 := ⟨fuel-1, by omega⟩
    rw [loop, body_skipped sense n result o d _ (by omega) (hfirst d List.mem_cons_self) hlook]
    apply ih (o+d.encode.length) (fun d' hd' => hfirst d' (List.mem_cons_of_mem _ hd')) _
      (by omega) fuel (by omega)
    intro i hi
    rw [Nat.add_assoc, hlook (d.encode.length+i) (by omega),
      List.getElem?_append_right (Nat.le_add_right _ _), Nat.add_sub_cancel_left]

end Walk

theorem sense_length (reply : SgReply) : reply.sense.length = senseBufLen := by
  have := reply.fits
  rw [SgReply.sense, List.length_append, List.length_replicate]
  omega

theorem body_meets (must : Bool) (reply : SgReply) (result : AtaResult) (o : ℕ) :
    Meets must (Leads (fun _ => True) (fun o => senseBufLen-o) (fun _ => True) o)
      (descriptorBody reply.sense reply.written.length result o) := by
  have hin : ∀ i, i < senseBufLen → i < reply.sense.length := fun i hi => sense_length reply ▸ hi
  have hfits := reply.fits
  unfold descriptorBody
  split
  · apply meets_read must _ _ (hin o (by omega))
    intro descType
    apply meets_read must _ _ (hin (o+1) (by omega))
    intro descLen
    split
    · rename_i htaken
      have h13 := htaken.2.2
      apply meets_read must _ _ (hin (o+3) (by omega))
      intro error
      apply meets_read must _ _ (hin (o+5) (by omega))
      intro count
      apply meets_read must _ _ (hin (o+7) (by omega))
      intro lbaLow
      apply meets_read must _ _ (hin (o+9) (by omega))
      intro lbaMid
      apply meets_read must _ _ (hin (o+11) (by omega))
      intro lbaHigh
      apply meets_read must _ _ (hin (o+12) (by omega))
      intro device
      apply meets_read must _ _ (hin (o+13) (by omega))
      intro status
      exact meets_pure must _ _ trivial
    · have hless : senseBufLen-(o+(descLen.toNat+2)) < senseBufLen-o := by omega
      exact meets_pure must _ _ ⟨trivial, hless⟩
  · exact meets_pure must _ _ trivial

/-- Every reply is parsed within the sense buffer, in a bounded number of rounds. -/
theorem parse_meets (reply : SgReply) (must : Bool) (fuel : ℕ)
    (hfuel : must = true → senseBufLen < fuel) :
    Meets must (fun _ => True) (parseSense reply fuel) := by
  have hin : ∀ i, i < senseBufLen → i < reply.sense.length := fun i hi => sense_length reply ▸ hi
  unfold parseSense
  dsimp only
  split
  · apply meets_read must _ _ (hin 0 (by decide))
    intro code
    split
    · apply meets_read must _ _ (hin 1 (by decide))
      intro key
      apply meets_read must _ _ (hin 2 (by decide))
      intro asc
      apply meets_read must _ _ (hin 3 (by decide))
      intro ascq
      apply meets_loop must _ (fun _ => True) (fun o => senseBufLen-o) _ _ fuel 8 trivial
      · intro hm
        have := hfuel hm
        omega
      · exact fun o _ => body_meets must reply _ o
    · exact meets_pure must _ _ trivial
  · exact meets_pure must _ _ trivial

theorem parse_contained (reply : SgReply) : Contained (parseSense reply) :=
  contained_of_meets (parseSense reply) (fun _ => True) senseBufLen (parse_meets reply)

end EraseCure.AtaPassthrough
