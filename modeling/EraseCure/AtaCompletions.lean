import EraseCure.AtaPassthrough

/-!
# The completion of ATA commands

Every command asks for its registers, and the reply to such a command has the
status of a check condition. The registers are those of the first descriptor
that returns them. The status of the reply counts as a failure as well, so no
command is ever reported as a success.
-/

set_option autoImplicit false

namespace EraseCure.AtaCompletions
open EraseCure.ErrorCodes EraseCure.FileSystems EraseCure.CheckedReads EraseCure.AtaPassthrough

def checkCondition : UInt8 := 0x02

/-- A command whose third byte asks for the registers is answered with a check
condition. -/
def Sat (sgIo : SgRequest → Except IoctlFailure SgReply) : Prop :=
  ∀ request reply flags, sgIo request = .ok reply → request.cdb[2]? = some flags →
    flags &&& 0x20 ≠ 0 → reply.status = checkCondition

theorem flags_ask (cmd : AtaCommand) : transferFlags cmd &&& 0x20 ≠ 0 := by
  unfold transferFlags
  dsimp only
  split_ifs <;> decide

theorem sat_status (sgIo : SgRequest → Except IoctlFailure SgReply) (hsat : Sat sgIo)
    (cmd : AtaCommand) (reply : SgReply) (h : sgIo (requestOf cmd) = .ok reply) :
    reply.status = checkCondition :=
  hsat (requestOf cmd) reply (transferFlags cmd) h rfl (flags_ask cmd)

def Registers (result : AtaResult) (a : AtaReturn) : Prop :=
  result.error = a.error ∧ result.count = a.count ∧ result.lbaLow = a.lbaLow ∧
    result.lbaMid = a.lbaMid ∧ result.lbaHigh = a.lbaHigh ∧ result.device = a.device ∧
    result.status = a.status

section Parse
variable (reply : SgReply) (a : AtaReturn) (c : Carries reply a)
include c

theorem sense_written (i : ℕ) (hi : i < reply.written.length) : reply.sense[i]? =
    (c.header++(c.before++a.descriptor::c.after).flatMap Descriptor.encode)[i]? := by
  obtain ⟨rest, hrest⟩ := c.written
  rw [← hrest, SgReply.sense, List.getElem?_append_left hi, List.getElem?_append_left hi]

theorem parse_registers : ∃ key asc ascq, ∀ fuel, senseBufLen < fuel →
    parseSense reply fuel =
      .ok (a.fill ⟨0, 0, 0, 0, 0, 0, 0, key, asc, ascq, true, reply.status⟩) := by
  have hwhole := c.whole
  rw [List.length_append, c.headerSize] at hwhole
  have hfits := reply.fits
  have hlen := sense_length reply
  have hread : ∀ i, i < 8 → ∃ x, reply.sense[i]? = some x ∧ c.header[i]? = some x := by
    intro i hi
    have hsense := sense_written reply a c i (by omega)
    have hheader : i < c.header.length := c.headerSize ▸ hi
    rw [List.getElem?_append_left hheader, List.getElem?_eq_getElem hheader] at hsense
    exact ⟨_, hsense, List.getElem?_eq_getElem hheader⟩
  obtain ⟨code, hcode, hfirst⟩ := hread 0 (by decide)
  obtain ⟨key, hkey, _⟩ := hread 1 (by decide)
  obtain ⟨asc, hasc, _⟩ := hread 2 (by decide)
  obtain ⟨ascq, hascq, _⟩ := hread 3 (by decide)
  have hformat : code = 0x72 ∨ code = 0x73 := by
    have hhead := c.format
    rw [List.head?_eq_getElem?, hfirst] at hhead
    exact hhead.imp Option.some.inj Option.some.inj
  refine ⟨key &&& 0x0F, asc, ascq, fun fuel hfuel => ?_⟩
  have hpos : 0 < reply.written.length := by omega
  rw [parseSense]
  dsimp only
  rw [if_pos hpos, readAt_get _ _ _ hcode, ok_bind, if_pos hformat, readAt_get _ _ _ hkey, ok_bind,
    readAt_get _ _ _ hasc, ok_bind, readAt_get _ _ _ hascq, ok_bind]
  apply walk_finds reply.sense reply.written.length _ a c.after c.before 8 hfits c.first _ hwhole
    fuel (by omega)
  intro i hi
  rw [sense_written reply a c (8+i) hi, List.getElem?_append_right (by rw [c.headerSize]; omega),
    c.headerSize, Nat.add_sub_cancel_left]

end Parse

/-- For every reply that carries the registers the parser stays within the sense
buffer, ends, and copies them; what it reports as success is right exactly when
the device reports an error. -/
theorem completion_decoded_iff (sgIo : SgRequest → Except IoctlFailure SgReply)
    (hsat : Sat sgIo) (cmd : AtaCommand) (reply : SgReply)
    (hreply : sgIo (requestOf cmd) = .ok reply) (a : AtaReturn) (c : Carries reply a) :
    (∀ fuel, ataExecute sgIo cmd fuel ≠ .error .fault) ∧
      ∃ result, (∀ fuel, senseBufLen < fuel →
          ataExecute sgIo cmd fuel = .ok (.ok (result, reply.data.take cmd.dataLen))) ∧
        Registers result a ∧
        ((result.success = true ↔ a.status &&& 0x01 = 0) ↔ a.status &&& 0x01 ≠ 0) := by
  have hstatus := sat_status sgIo hsat cmd reply hreply
  obtain ⟨key, asc, ascq, hparse⟩ := parse_registers reply a c
  constructor
  · intro fuel hfault
    simp only [ataExecute, hreply] at hfault
    have hnone := (parse_contained reply).1 fuel
    cases hp : parseSense reply fuel with
    | ok result =>
      rw [hp] at hfault
      contradiction
    | error e =>
      rw [hp] at hfault hnone
      have he : e = .fault := Except.error.inj hfault
      exact hnone (congrArg Except.error he)
  · refine ⟨{ a.fill ⟨0, 0, 0, 0, 0, 0, 0, key, asc, ascq, true, reply.status⟩ with
      success := false }, fun fuel hfuel => ?_, ⟨rfl, rfl, rfl, rfl, rfl, rfl, rfl⟩, ?_⟩
    · have hcheck : reply.status ≠ 0 := by
        rw [hstatus]
        decide
      simp only [ataExecute, hreply, hparse fuel hfuel, ok_bind]
      by_cases hclear : a.status &&& 0x01 = 0
      · have hsuccess : reply.status ≠ 0 ∧
            (a.fill ⟨0, 0, 0, 0, 0, 0, 0, key, asc, ascq, true, reply.status⟩).success = true :=
          ⟨hcheck, by simp [AtaReturn.fill, hclear]⟩
        rw [if_pos hsuccess]
        rfl
      · have hfailed :
            (a.fill ⟨0, 0, 0, 0, 0, 0, 0, key, asc, ascq, true, reply.status⟩).success = false := by
          simp [AtaReturn.fill, hclear]
        rw [if_neg (fun h => by rw [hfailed] at h; exact Bool.false_ne_true h.2), ← hfailed]
        rfl
    · simp

/-- The registers after a command that went well, or that the device refused. -/
def returned (status : UInt8) : AtaReturn :=
  ⟨0, 0, 0, 1, 0, 0, 0, 0, 0, 0, 0xA0, status, [], by decide⟩

def replyWith (status : UInt8) : SgReply where
  status := checkCondition
  written := [0x72, 0x01, 0x00, 0x1D, 0, 0, 0, 14]++(returned status).descriptor.encode
  fits := by
    have hlen : (returned status).descriptor.encode.length = 14 := rfl
    rw [List.length_append, hlen]
    decide
  data := []

def replyWith_carries (status : UInt8) : Carries (replyWith status) (returned status) where
  header := [0x72, 0x01, 0x00, 0x1D, 0, 0, 0, 14]
  before := []
  after := []
  headerSize := rfl
  format := Or.inl rfl
  first := fun _ h => absurd h List.not_mem_nil
  written := List.prefix_rfl
  whole := Nat.le_refl _

theorem replyWith_sat (status : UInt8) : Sat (fun _ => .ok (replyWith status)) := by
  intro request reply flags h _ _
  cases h
  rfl

/-- The descriptor that some devices put first, which has no registers. -/
def keySpecific : Descriptor := ⟨0x02, [0, 0, 0, 0xC0, 0, 0], by decide⟩

def keyedReply (status : UInt8) : SgReply where
  status := checkCondition
  written := [0x72, 0x0B, 0x00, 0x00, 0, 0, 0, 22]++
    (keySpecific.encode++(returned status).descriptor.encode)
  fits := by
    have hlen : (returned status).descriptor.encode.length = 14 := rfl
    have hkey : keySpecific.encode.length = 8 := rfl
    rw [List.length_append, List.length_append, hlen, hkey]
    decide
  data := []

def keyedReply_carries (status : UInt8) : Carries (keyedReply status) (returned status) where
  header := [0x72, 0x0B, 0x00, 0x00, 0, 0, 0, 22]
  before := [keySpecific]
  after := []
  headerSize := rfl
  format := Or.inl rfl
  first := fun d hd => by
    rw [List.mem_singleton.mp hd]
    exact fun h => absurd h.1 (by decide)
  written := List.prefix_rfl
  whole := Nat.le_refl _

theorem keyedReply_sat (status : UInt8) : Sat (fun _ => .ok (keyedReply status)) := by
  intro request reply flags h _ _
  cases h
  rfl

theorem completion_decoded_keyed : ∃ result,
    ataExecute (fun _ => .ok (keyedReply 0x51)) ataCommandInit 33 = .ok (.ok (result, [])) ∧
      Registers result (returned 0x51) ∧
      (result.success = true ↔ (0x51 : UInt8) &&& 0x01 = 0) := by
  obtain ⟨_, result, hrun, hregisters, hiff⟩ := completion_decoded_iff
    (fun _ => .ok (keyedReply 0x51)) (keyedReply_sat 0x51) ataCommandInit (keyedReply 0x51) rfl
    (returned 0x51) (keyedReply_carries 0x51)
  exact ⟨result, hrun 33 (by decide), hregisters, hiff.mpr (by decide)⟩

/-- A command that went well is reported as a failure. -/
theorem good_command_failed : Sat (fun _ => .ok (replyWith 0x50)) ∧
    (0x50 : UInt8) &&& 0x01 = 0 ∧
    ∃ result, ataExecute (fun _ => .ok (replyWith 0x50)) ataCommandInit 33 =
      .ok (.ok (result, [])) ∧ Registers result (returned 0x50) ∧ result.success = false := by
  refine ⟨replyWith_sat 0x50, by decide, ⟨0x50, 0, 1, 0, 0, 0, 0xA0, 0x01, 0x00, 0x1D, false, 0x02⟩,
    by decide, ⟨rfl, rfl, rfl, rfl, rfl, rfl, rfl⟩, rfl⟩

end EraseCure.AtaCompletions
