import EraseCure.FileMirrors

/-!
# The integrity of the evidence image

Opening a mirror stores the digits of the image's hash and a copy of its path.
A check hashes the file behind the copy once more. The copy is the path itself
when the path fits its array.
-/

set_option autoImplicit false

namespace EraseCure.EvidenceIntegrity
open EraseCure.CText EraseCure.ErrorCodes EraseCure.FileSystems EraseCure.Hashing
open EraseCure.FileMirrors

/-- How hashing a file goes: up to the call that fails, or with the content
that was read to its end. -/
inductive FileHashing where
  | notOpened | noContext | digestFailed | readFailed
  | hashed (content : Bytes)
  deriving DecidableEq

def hashSha256File (sha256 : Bytes → Digest) : FileHashing → Except ErasecureError Digest
  | .notOpened => .error .openFailed
  | .noContext => .error .crypto
  | .digestFailed => .error .hashFailed
  | .readFailed => .error .readFailed
  | .hashed content => .ok (sha256 content)

def fileMirrorVerifyIntegrity (sha256 : Bytes → Digest) (files : Text → FileHashing)
    (fm : FileMirror) : ErasecureError :=
  if !fm.hashVerified then .invalidArg
  else
    match hashSha256File sha256 (files fm.imagePath.chars) with
    | .error _ => .io
    | .ok digest =>
      if fm.evidenceHash.chars ≠ hashDigestToHex digest then .evidenceModified else .ok

inductive MirrorCall where
  | readBlock (actualBlock : UInt64)
  | readApparentBlock (apparentBlock : UInt64)
  | markCovered (actualBlock : UInt64)
  | unmarkCovered (actualBlock : UInt64)

def mirrorCall (fm : FileMirror) : MirrorCall → FileMirror
  | .readBlock _ | .readApparentBlock _ => fm
  | .markCovered actualBlock => fileMirrorMarkCovered fm actualBlock
  | .unmarkCovered actualBlock => fileMirrorUnmarkCovered fm actualBlock

def mirrorCalls (fm : FileMirror) (calls : List MirrorCall) : FileMirror :=
  calls.foldl mirrorCall fm

theorem call_same (fm : FileMirror) (call : MirrorCall) :
    ∃ mask apparent, mirrorCall fm call =
      { fm with coveredMask := mask, apparentBlocks := apparent } := by
  cases call with
  | readBlock _ | readApparentBlock _ => exact ⟨fm.coveredMask, fm.apparentBlocks, rfl⟩
  | markCovered actualBlock =>
    rw [mirrorCall, fileMirrorMarkCovered]
    split
    · exact ⟨_, _, rfl⟩
    · exact ⟨fm.coveredMask, fm.apparentBlocks, rfl⟩
  | unmarkCovered actualBlock =>
    rw [mirrorCall, fileMirrorUnmarkCovered]
    split
    · exact ⟨_, _, rfl⟩
    · exact ⟨fm.coveredMask, fm.apparentBlocks, rfl⟩

theorem calls_same (fm : FileMirror) (calls : List MirrorCall) :
    ∃ mask apparent, mirrorCalls fm calls =
      { fm with coveredMask := mask, apparentBlocks := apparent } := by
  induction calls generalizing fm with
  | nil => exact ⟨fm.coveredMask, fm.apparentBlocks, rfl⟩
  | cons call calls ih =>
    obtain ⟨mask, apparent, hcall⟩ := call_same fm call
    obtain ⟨mask', apparent', hcalls⟩ := ih (mirrorCall fm call)
    refine ⟨mask', apparent', ?_⟩
    rw [mirrorCalls, List.foldl_cons, ← mirrorCalls, hcalls, hcall]

theorem opened_hash (io : MirrorIo) (imagePath : Text) (blockSize : UInt64) (fm : FileMirror)
    (h : Opened io imagePath blockSize fm) (d : Digest) (hd : io.digest = some d) :
    fm.evidenceHash.chars = hashDigestToHex d := by
  rw [h.hash_eq d hd]
  exact printed_chars 65 (by decide) _ (plain_nul _ (hex_plain d)) (by rw [hex_length]; decide)

/-- The digest that opening takes is that of the file behind the path. -/
def HashesPath (sha256 : Bytes → Digest) (files : Text → FileHashing) (imagePath : Text)
    (io : MirrorIo) : Prop :=
  io.digest = (hashSha256File sha256 (files imagePath)).toOption

/-- After any calls a check of an image that was hashed when it was opened finds
it unchanged when its content is the same, and modified when the content is
another one without a collision. -/
def EvidenceKept (imagePath : Text) : Prop :=
  ∀ (sha256 : Bytes → Digest) (before after : Text → FileHashing) (io : MirrorIo)
    (blockSize : UInt64) (fm : FileMirror) (calls : List MirrorCall) (content : Bytes),
    HashesPath sha256 before imagePath io → before imagePath = .hashed content →
    fileMirrorOpen io imagePath blockSize = .ok fm → fm.hashVerified = true →
    (after imagePath = .hashed content →
      fileMirrorVerifyIntegrity sha256 after (mirrorCalls fm calls) = .ok) ∧
    ∀ changed, after imagePath = .hashed changed → changed ≠ content →
      (sha256 changed = sha256 content → changed = content) →
      fileMirrorVerifyIntegrity sha256 after (mirrorCalls fm calls) = .evidenceModified

theorem short_kept (imagePath : Text) (hended : nul ∉ imagePath) (h : imagePath.length ≤ 255) :
    EvidenceKept imagePath := by
  intro sha256 before after io blockSize fm calls content hio hbefore hopen hverified
  have ho := open_opened io imagePath blockSize fm hopen
  obtain ⟨mask, apparent, hcalls⟩ := calls_same fm calls
  have hchars : fm.imagePath.chars = imagePath := by
    rw [ho.path_eq]
    exact printed_chars 256 (by decide) imagePath hended (by omega)
  have hdigest : fm.evidenceHash.chars = hashDigestToHex (sha256 content) :=
    opened_hash io imagePath blockSize fm ho _ (by rw [hio, hbefore]; rfl)
  have hcheck : ∀ found, after imagePath = .hashed found →
      fileMirrorVerifyIntegrity sha256 after (mirrorCalls fm calls) =
        if hashDigestToHex (sha256 content) ≠ hashDigestToHex (sha256 found) then .evidenceModified
        else .ok := by
    intro found hfound
    simp only [fileMirrorVerifyIntegrity, hcalls, hverified, hchars, hfound, hashSha256File,
      hdigest, Bool.not_true, Bool.false_eq_true, if_false]
  refine ⟨fun hsame => ?_, fun changed hchanged hne hcollision => ?_⟩
  · rw [hcheck content hsame, if_neg (not_not_intro rfl)]
  · rw [hcheck changed hchanged, if_pos]
    exact fun heq => hne (hcollision (hex_injective heq).symm)

def soleFile (path : Text) (content : Bytes) : Text → FileHashing :=
  fun p => if p = path then .hashed content else .notOpened

def constantDigest (_ : Bytes) : Digest := Vector.replicate 32 0

def emptyImage : MirrorIo := ⟨some [], some 0, true, some (constantDigest [])⟩

theorem printed256_length (t : Text) : (printed256 t).chars.length ≤ 255 :=
  Nat.le_of_lt_succ (printed256 t).fits

/-- The copy of a longer path names no file, and the check fails. -/
theorem long_unread (imagePath : Text) (h : 255 < imagePath.length) :
    ∃ fm, fileMirrorOpen emptyImage imagePath 1 = .ok fm ∧ fm.hashVerified = true ∧
      fileMirrorVerifyIntegrity constantDigest (soleFile imagePath []) fm = .io := by
  refine ⟨_, rfl, rfl, ?_⟩
  have hne : (printed256 imagePath).chars ≠ imagePath := fun heq => by
    have := printed256_length imagePath
    rw [heq] at this
    omega
  simp only [fileMirrorVerifyIntegrity, soleFile, if_neg hne]
  rfl

theorem long_unkept (imagePath : Text) (h : 255 < imagePath.length) :
    ¬ EvidenceKept imagePath := by
  intro hkept
  obtain ⟨fm, hopen, hverified, hcheck⟩ := long_unread imagePath h
  have hhashed : soleFile imagePath [] imagePath = .hashed [] := if_pos rfl
  have hio : HashesPath constantDigest (soleFile imagePath []) imagePath emptyImage := by
    rw [HashesPath, hhashed]
    rfl
  have hok := (hkept constantDigest (soleFile imagePath []) (soleFile imagePath [])
    emptyImage 1 fm [] [] hio hhashed hopen hverified).1 hhashed
  rw [mirrorCalls, List.foldl_nil, hcheck] at hok
  contradiction

/-- The check of an image is right for all contents exactly when its path fits
the array of the mirror. -/
theorem evidence_kept_iff (cap : ℕ) (imagePath : CString cap) :
    EvidenceKept imagePath.chars ↔ imagePath.chars.length ≤ 255 := by
  refine ⟨fun h => ?_, short_kept imagePath.chars imagePath.ended⟩
  by_contra hlong
  exact long_unkept imagePath.chars (by omega) h

def longPath : Text := '/'::List.replicate 255 'a'

theorem long_path_unkept : nul ∉ longPath ∧
    (∃ fm, fileMirrorOpen emptyImage longPath 1 = .ok fm ∧ fm.hashVerified = true ∧
      soleFile longPath [] longPath = .hashed [] ∧
      fileMirrorVerifyIntegrity constantDigest (soleFile longPath []) fm = .io) ∧
    ¬ EvidenceKept longPath := by
  have hlong : 255 < longPath.length := by
    rw [longPath, List.length_cons, List.length_replicate]
    decide
  have hended : nul ∉ longPath := by
    rw [longPath, List.mem_cons, List.mem_replicate]
    rintro (h | ⟨_, h⟩) <;> revert h <;> decide
  obtain ⟨fm, hopen, hverified, hcheck⟩ := long_unread longPath hlong
  exact ⟨hended, ⟨fm, hopen, hverified, if_pos rfl, hcheck⟩, long_unkept longPath hlong⟩

end EraseCure.EvidenceIntegrity
