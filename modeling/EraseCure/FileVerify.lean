import EraseCure.Verification

/-!
# Reading a file back

The file eraser's verifier reads a file to its end in buffers of 4096 bytes
and counts the bytes that differ. A read that fails ends the loop like the end
of the file does.
-/

set_option autoImplicit false

namespace EraseCure.FileVerify
open EraseCure.CText EraseCure.Devices EraseCure.ErrorCodes EraseCure.FileSystems
open EraseCure.ByteRanges EraseCure.Verification

def chunkSize : ℕ := 4096

structure FileVerifyResult where
  passed : Bool
  bytesChecked : ℕ
  bytesMismatched : ℕ
  expectedPattern : ErasePattern
  note : CString 256
  deriving DecidableEq

inductive ReadOutcome where
  | failed
  | bytes (n : ℕ)
  deriving DecidableEq

/-- What the calls of one run return: the opening of the file, the buffer, and
every `read`. -/
structure FileReadIo where
  opened : Bool
  allocated : Bool
  reads : ℕ → ReadOutcome

def FileReadIo.calm : FileReadIo := ⟨true, true, fun _ => .bytes chunkSize⟩

/-- Before the end of the file a `read` that succeeds returns at least a byte. -/
def readLength (n rest : ℕ) : ℕ := min (min (max 1 n) chunkSize) rest

section Loop
variable (io : FileReadIo) (content : Bytes) (expected : UInt8)

def fileVerifyLoop : ℕ → ℕ → ℕ → ℕ → ℕ → ℕ × ℕ
  | 0, _, _, checked, mismatched => (checked, mismatched)
  | fuel+1, k, pos, checked, mismatched =>
    match io.reads k with
    | .failed => (checked, mismatched)
    | .bytes n =>
      let buf := slice content pos (pos+readLength n (content.length-pos))
      if buf = [] then (checked, mismatched)
      else fileVerifyLoop fuel (k+1) (pos+buf.length) (checked+buf.length)
        (mismatched+buf.countP (fun x => x ≠ expected))

end Loop

def fileVerifyPattern (fs : FileSystem) (io : FileReadIo) (path : Text)
    (pattern : ErasePattern) : ErasecureError × FileVerifyResult :=
  let result : FileVerifyResult := ⟨false, 0, 0, pattern, printed256 []⟩
  if pattern = .random then
    (.ok, { result with
      note := printed256 "Random pattern not verifiable by readback".toList
      passed := true })
  else
    match fs.lstat path with
    | some (.regular content) =>
      if !io.opened then (.generic, result)
      else if !io.allocated then (.generic, result)
      else
        let (checked, mismatched) := fileVerifyLoop io content (expectedByte pattern)
          (content.length+1) 0 0 0 0
        (.ok, { result with
          bytesChecked := checked
          bytesMismatched := mismatched
          passed := mismatched = 0 })
    | _ => (.generic, result)

/-- The position of the file after a number of reads, failed reads passing
over nothing. -/
def readPosition (io : FileReadIo) (size : ℕ) : ℕ → ℕ
  | 0 => 0
  | k+1 => readPosition io size k+
    match io.reads k with
    | .failed => 0
    | .bytes n => readLength n (size-readPosition io size k)

theorem position_step (io : FileReadIo) (size k n : ℕ) (h : io.reads k = .bytes n) :
    readPosition io size (k+1) =
      readPosition io size k+readLength n (size-readPosition io size k) := by
  rw [readPosition, h]

theorem position_mono (io : FileReadIo) (size j k : ℕ) (h : j ≤ k) :
    readPosition io size j ≤ readPosition io size k :=
  monotone_nat_of_le_succ (fun _ => Nat.le_add_right _ _) h

theorem readLength_pos (n rest : ℕ) (h : 0 < rest) : 0 < readLength n rest := by
  simp only [readLength, chunkSize]
  omega

/-- Where the loop stops and what it has counted there: at the end of the
file, or at the position of the first read that failed. -/
theorem fileVerifyLoop_spec (io : FileReadIo) (content : Bytes) (expected : UInt8)
    (fuel k pos checked mismatched : ℕ) (hk : readPosition io content.length k = pos)
    (hp : pos ≤ content.length) (hf : content.length-pos < fuel) :
    ∃ stop, pos ≤ stop ∧ stop ≤ content.length ∧
      fileVerifyLoop io content expected fuel k pos checked mismatched =
        (checked+(stop-pos),
          mismatched+(slice content pos stop).countP (fun x => x ≠ expected)) ∧
      (stop = content.length ∨
        ∃ j, io.reads j = .failed ∧ readPosition io content.length j = stop) ∧
      ∀ j, k ≤ j → readPosition io content.length j < stop → io.reads j ≠ .failed := by
  induction fuel generalizing k pos checked mismatched with
  | zero => omega
  | succ fuel ih =>
    have hafter : ∀ j, k ≤ j → ¬ readPosition io content.length j < pos := fun j hj hlt => by
      have := position_mono io content.length k j hj
      omega
    rw [fileVerifyLoop]
    cases hread : io.reads k with
    | failed =>
      exact ⟨pos, Nat.le_refl _, hp, by simp [slice_self], Or.inr ⟨k, hread, hk⟩,
        fun j hj hlt => absurd hlt (hafter j hj)⟩
    | bytes n =>
      have hstep := position_step io content.length k n hread
      rw [hk] at hstep
      dsimp only
      have hlen : (slice content pos (pos+readLength n (content.length-pos))).length =
          readLength n (content.length-pos) := by
        simp only [slice, List.length_take, List.length_drop, readLength]
        omega
      rcases Nat.eq_or_lt_of_le hp with heq | hlt
      · have hnil : slice content pos (pos+readLength n (content.length-pos)) = [] := by
          rw [← List.length_eq_zero_iff, hlen, heq]
          simp [readLength]
        rw [if_pos hnil]
        exact ⟨pos, Nat.le_refl _, hp, by simp [slice_self], Or.inl heq,
          fun j hj hlt => absurd hlt (hafter j hj)⟩
      · have hpos := readLength_pos n (content.length-pos) (by omega)
        have hle : readLength n (content.length-pos) ≤ content.length-pos := Nat.min_le_right _ _
        rw [if_neg (List.ne_nil_of_length_pos (by omega)), hlen]
        obtain ⟨stop, h1, h2, hout, hend, hgood⟩ := ih (k+1)
          (pos+readLength n (content.length-pos)) (checked+readLength n (content.length-pos))
          (mismatched+(slice content pos (pos+readLength n (content.length-pos))).countP
            (fun x => x ≠ expected)) hstep (by omega) (by omega)
        refine ⟨stop, by omega, h2, ?_, hend, fun j hj hlt => ?_⟩
        · rw [hout, ← slice_append content pos _ stop (Nat.le_add_right _ _) h1,
            List.countP_append, Prod.mk.injEq]
          exact ⟨by omega, by omega⟩
        · rcases Nat.eq_or_lt_of_le hj with rfl | hj
          · simp [hread]
          · exact hgood j hj hlt

section File
variable (fs : FileSystem) (io : FileReadIo) (path : Text) (pattern : ErasePattern)
  (content : Bytes)

theorem fileVerify_ran (hp : pattern ≠ .random)
    (hs : fs.lstat path = some (.regular content)) (ho : io.opened = true)
    (ha : io.allocated = true) :
    ∃ stop, stop ≤ content.length ∧
      (fileVerifyPattern fs io path pattern).2.bytesChecked = stop ∧
      ((fileVerifyPattern fs io path pattern).2.passed = true ↔
        ∀ i < stop, content[i]? = some (expectedByte pattern)) ∧
      (stop = content.length ∨
        ∃ j, io.reads j = .failed ∧ readPosition io content.length j = stop) ∧
      ∀ j, readPosition io content.length j < stop → io.reads j ≠ .failed := by
  obtain ⟨stop, _, hle, hout, hend, hgood⟩ := fileVerifyLoop_spec io content
    (expectedByte pattern) (content.length+1) 0 0 0 0 rfl (Nat.zero_le _) (by omega)
  refine ⟨stop, hle, ?_, ?_, hend, fun j => hgood j (Nat.zero_le j)⟩
  · simp only [fileVerifyPattern, if_neg hp, hs, ho, ha, Bool.not_true, Bool.false_eq_true,
      if_false, hout]
    omega
  · simp only [fileVerifyPattern, if_neg hp, hs, ho, ha, Bool.not_true, Bool.false_eq_true,
      if_false, hout, decide_eq_true_eq, Nat.zero_add, List.countP_eq_zero]
    constructor
    · intro h i hi
      have hlt : i < content.length := by omega
      have hx := h content[i] ((mem_slice content 0 stop _).mpr
        ⟨i, Nat.zero_le i, hi, List.getElem?_eq_getElem hlt⟩)
      rw [List.getElem?_eq_getElem hlt]
      simpa using hx
    · intro h x hx
      obtain ⟨i, _, hi, hxi⟩ := (mem_slice content 0 stop x).mp hx
      have heq := hxi.symm.trans (h i hi)
      simpa using Option.some.inj heq

theorem fileVerify_stopped (hp : pattern ≠ .random)
    (hs : fs.lstat path = some (.regular content))
    (h : io.opened = false ∨ io.allocated = false) :
    (fileVerifyPattern fs io path pattern).2.passed = false := by
  rcases h with h | h
  · simp only [fileVerifyPattern, if_neg hp, hs, h, Bool.not_false, if_true]
  · cases ho : io.opened <;>
      simp only [fileVerifyPattern, if_neg hp, hs, h, ho, Bool.not_true, Bool.not_false,
        Bool.false_eq_true, if_false, if_true]

end File

end EraseCure.FileVerify
