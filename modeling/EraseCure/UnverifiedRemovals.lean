import EraseCure.FilePasses

/-!
# Files that are removed unverified

The verifier of a call runs between the passes and the removal, and neither the
removal nor the returned code looks at what it has found. So a file is removed
only after a good verification exactly when the passes cannot go through without
one: nothing fails when the file is read back, and the storage returns the byte
of the pattern everywhere.
-/

set_option autoImplicit false

namespace EraseCure.UnverifiedRemovals
open EraseCure.CText EraseCure.Devices EraseCure.ErrorCodes EraseCure.FileSystems
open EraseCure.ErasePasses EraseCure.Verification EraseCure.FileVerify
open EraseCure.FileEraser EraseCure.FilePasses

def whenVerified (fs : FileSystem) (run : FileEraseRun) : FileSystem :=
  { fs with object := run.fs.object }

/-- The verifier ends well, has read so many bytes, and none of them differs. -/
def FoundWhole (size : ℕ) (verify : ErasecureError × FileVerifyResult) : Prop :=
  verify.1 = .ok ∧ verify.2.bytesChecked = size ∧ verify.2.bytesMismatched = 0

/-- The verifier of a call has run, has read the whole file and has found the
pattern everywhere. -/
def VerifiedWhole (fs : FileSystem) (io : FileEraseIo) (path : Text) (opts : FileEraseOptions)
    (size : ℕ) (run : FileEraseRun) : Prop :=
  run.result.verified = true ∧ FoundWhole size
    (fileVerifyPattern ((whenVerified fs run).seen io.readback) io.verify path opts.pattern)

/-- A call that removes the file or succeeds has verified it before. -/
def RemovedVerified (fs : FileSystem) (io : FileEraseIo) (path : Text) (opts : FileEraseOptions)
    (size : ℕ) (run : FileEraseRun) : Prop :=
  run.result.fileRemoved = true ∨ run.result.resultCode = .ok →
    VerifiedWhole fs io path opts size run

/-- Reading the file back does not fail, and for what it was given last at a position
the storage returns the byte of the pattern. -/
structure ReadsBack (io : FileEraseIo) (opts : FileEraseOptions) (content : Bytes) : Prop where
  opened : io.verify.opened = true
  allocated : io.verify.allocated = true
  reads : ∀ k, readPosition io.verify content.length k < content.length →
    io.verify.reads k ≠ .failed
  returned : ∀ i (hi : i < content.length),
    io.readback i (if opts.passes = 0 then content[i] else expectedByte opts.pattern) =
      expectedByte opts.pattern

section Verifier
variable (fs : FileSystem) (io : FileReadIo) (path : Text) (pattern : ErasePattern)
  (content : Bytes)

theorem fileVerify_verdict (hp : pattern ≠ .random)
    (hs : fs.lstat path = some (.regular content)) :
    let verify := fileVerifyPattern fs io path pattern
    (verify.1 = .ok ↔ io.opened = true ∧ io.allocated = true) ∧
      (io.opened = true → io.allocated = true →
        (verify.2.bytesMismatched = 0 ↔ verify.2.passed = true)) := by
  dsimp only
  rw [fileVerifyPattern, if_neg hp, hs]
  dsimp only
  cases io.opened with
  | false => exact ⟨iff_of_false (by simp) (by simp), by simp⟩
  | true =>
    cases io.allocated with
    | false => exact ⟨iff_of_false (by simp) (by simp), by simp⟩
    | true => exact ⟨iff_of_true rfl ⟨rfl, rfl⟩, fun _ _ => decide_eq_true_iff.symm⟩

theorem fileVerify_whole (hp : pattern ≠ .random)
    (hs : fs.lstat path = some (.regular content)) :
    FoundWhole content.length (fileVerifyPattern fs io path pattern) ↔
      io.opened = true ∧ io.allocated = true ∧
        (∀ k, readPosition io content.length k < content.length → io.reads k ≠ .failed) ∧
        ∀ i < content.length, content[i]? = some (expectedByte pattern) := by
  obtain ⟨hcode, hmismatched⟩ := fileVerify_verdict fs io path pattern content hp hs
  rw [FoundWhole, hcode]
  constructor
  · rintro ⟨⟨ho, ha⟩, hchecked, hzero⟩
    obtain ⟨stop, _, hstop, hpassed, _, hgood⟩ :=
      fileVerify_ran fs io path pattern content hp hs ho ha
    obtain rfl : stop = content.length := hstop.symm.trans hchecked
    exact ⟨ho, ha, hgood, hpassed.mp ((hmismatched ho ha).mp hzero)⟩
  · rintro ⟨ho, ha, hreads, hbytes⟩
    obtain ⟨stop, hle, hstop, hpassed, hend, _⟩ :=
      fileVerify_ran fs io path pattern content hp hs ho ha
    have hwhole : stop = content.length := by
      rcases hend with hend | ⟨j, hj, hpos⟩
      · exact hend
      · by_contra hne
        exact hreads j (by omega) hj
    refine ⟨⟨ho, ha⟩, hstop.trans hwhole, (hmismatched ho ha).mpr (hpassed.mpr fun i hi => ?_)⟩
    exact hbytes i (by omega)

end Verifier

section Calls
variable (fs : FileSystem) (io : FileEraseIo) (path : Text) (opts : FileEraseOptions)
  (content : Bytes)

theorem seen_lstat (node : ℕ) (stored : Bytes) (hnode : fs.resolveLink path = some node)
    (hobj : fs.object node = .regular content) :
    ((fs.store node stored).seen io.readback).lstat path =
      some (.regular (stored.mapIdx io.readback)) := by
  have hlink : ((fs.store node stored).seen io.readback).resolveLink = fs.resolveLink := rfl
  rw [FileSystem.lstat, hlink, hnode, Option.map_some, FileSystem.seen]
  dsimp only
  rw [store_same, hobj]
  rfl

/-- The passes of a call go through exactly when all of them are whole. -/
theorem stopped_done (size pass last : ℕ) (done : Bool)
    (h : FileStopped io size 0 opts.passes pass last done) :
    done = true ↔ ∀ p < opts.passes, FilePassWhole io size p := by
  rcases h.ends with ⟨hdone, hpass, _⟩ | ⟨hdone, hpass, hleft, hfailed⟩
  · exact iff_of_true hdone fun p hp => h.earlier p (Nat.zero_le p) (by omega)
  · refine iff_of_false (by rw [hdone]; decide) fun hall => ?_
    exact failed_not_whole io size pass last hleft hfailed (hall pass (by omega))

theorem passesRun_stored (s : FileEraseState) (pass last : ℕ)
    (hp : opts.pattern = .zero ∨ opts.pattern = .one)
    (h : FilePassesRun io opts.pattern content.length 0 opts.passes (fileEraseStart io content) s
      true pass last) (i : ℕ) (hi : i < content.length) :
    s.content[i]? =
      some (if opts.passes = 0 then content[i] else expectedByte opts.pattern) := by
  by_cases hzero : opts.passes = 0
  · rw [if_pos hzero, h.unwritten hzero]
    exact List.getElem?_eq_getElem hi
  · have hbyte : expectedByte opts.pattern ∈ patternByte opts.pattern := by
      rcases hp with hp | hp <;> rw [hp] <;> rfl
    rw [if_neg hzero]
    exact h.constant rfl (Nat.pos_of_ne_zero hzero) _ hbyte i hi

/-- The verifier of a call whose passes went through. -/
theorem ended_verified (run : FileEraseRun) (node : ℕ) (s : FileEraseState) (pass last : ℕ)
    (hstarted : FileStarted fs io path node content)
    (hended : FileEnded fs io path opts node s true run)
    (hran : FilePassesRun io opts.pattern content.length 0 opts.passes (fileEraseStart io content) s
      true pass last)
    (hp : opts.pattern = .zero ∨ opts.pattern = .one) (hverify : opts.verifyAfter = true) :
    VerifiedWhole fs io path opts content.length run ↔ ReadsBack io opts content := by
  have hrandom : opts.pattern ≠ .random := by
    rcases hp with hp | hp <;> rw [hp] <;> decide
  have hwhen : whenVerified fs run = fs.store node s.content := by
    rw [whenVerified, hended.fs]
    split <;> rfl
  have hlen : (s.content.mapIdx io.readback).length = content.length := by
    rw [List.length_mapIdx]
    exact hran.kept
  have hwhole := fileVerify_whole _ io.verify path opts.pattern _ hrandom
    (seen_lstat fs io path content node s.content hstarted.resolved hstarted.regular)
  rw [hlen] at hwhole
  rw [VerifiedWhole, hwhen, hwhole, hended.verified, hverify, and_iff_right (by decide)]
  have hreturned : ∀ i (hi : i < content.length),
      (s.content.mapIdx io.readback)[i]? = some (io.readback i
        (if opts.passes = 0 then content[i] else expectedByte opts.pattern)) := by
    intro i hi
    rw [List.getElem?_mapIdx, passesRun_stored io opts content s pass last hp hran i hi,
      Option.map_some]
  constructor
  · rintro ⟨ho, ha, hreads, hbytes⟩
    exact ⟨ho, ha, hreads, fun i hi => Option.some.inj ((hreturned i hi).symm.trans (hbytes i hi))⟩
  · intro h
    refine ⟨h.opened, h.allocated, h.reads, fun i hi => ?_⟩
    rw [hreturned i hi, h.returned i hi]

end Calls

/-- A call for a regular file that is to be verified removes it, or succeeds, only after
a good verification exactly when the file can be read back and is the pattern,
unless the call is refused or one of its passes fails. -/
theorem removal_verified_iff (fuel : ℕ) (fs : FileSystem) (io : FileEraseIo) (path : Text)
    (opts : FileEraseOptions) (run : FileEraseRun) (content : Bytes)
    (hs : fs.lstat path = some (.regular content))
    (hp : opts.pattern = .zero ∨ opts.pattern = .one) (hverify : opts.verifyAfter = true)
    (hrun : fileErase fuel fs io path opts = some run) :
    RemovedVerified fs io path opts content.length run ↔
      ∀ node, FileStarted fs io path node content →
        (∀ pass < opts.passes, FilePassWhole io content.length pass) →
          ReadsBack io opts content := by
  rcases fileErase_cases fuel fs io path opts run hrun with
    ⟨hnone, hrefused⟩ | ⟨node, content', s, done, hstarted, hpasses, hended⟩
  · refine iff_of_true (fun h => ?_) (fun node hstarted => absurd hstarted (hnone node content))
    rcases h with h | h
    · exact absurd (hrefused.kept.symm.trans h) (by decide)
    · exact absurd h hrefused.fails
  · obtain rfl := started_content fs io path node content' content hstarted hs
    rw [List.range_eq_range'] at hpasses
    obtain ⟨pass, last, hran⟩ := fileErasePasses_run io opts.pattern content'.length fuel 0
      opts.passes _ s done (by simp [fileEraseStart]) (Nat.two_pow_pos 64) rfl hpasses
    have hdone := stopped_done io opts content'.length pass last done hran.stopped
    cases done with
    | false =>
      refine iff_of_true (fun h => ?_) (fun _ _ hall => absurd (hdone.mpr hall) (by decide))
      rcases h with h | h
      · exact absurd (hended.removed.symm.trans h) Bool.false_ne_true
      · exact absurd (hended.ok_iff.mp h) (by decide)
    | true =>
      have hiff := ended_verified fs io path opts content' run node s pass last hstarted hended
        hran hp hverify
      constructor
      · exact fun h _ _ _ => hiff.mp (h (Or.inr (hended.ok_iff.mpr rfl)))
      · exact fun h _ => hiff.mpr (h node hstarted (hdone.mp rfl))

def zerosOnce : FileEraseOptions :=
  { fileEraseOptionsInit with pattern := .zero, passes := 1 }

theorem removal_verified_zeros : ∃ run,
    fileErase 1 (soleObject "a".toList (.regular [0x41])) FileEraseIo.calm "a".toList zerosOnce =
      some run ∧
    (RemovedVerified (soleObject "a".toList (.regular [0x41])) FileEraseIo.calm "a".toList zerosOnce
        1 run ↔
      ∀ node, FileStarted (soleObject "a".toList (.regular [0x41])) FileEraseIo.calm "a".toList node
          [0x41] →
        (∀ pass < 1, FilePassWhole FileEraseIo.calm 1 pass) →
          ReadsBack FileEraseIo.calm zerosOnce [0x41]) :=
  ⟨_, rfl, removal_verified_iff 1 (soleObject "a".toList (.regular [0x41])) FileEraseIo.calm
    "a".toList zerosOnce _ [0x41] rfl (Or.inl rfl) rfl rfl⟩

def staleIo : FileEraseIo := { FileEraseIo.calm with readback := fun _ _ => 0x41 }

/-- The verifier finds the old byte, and the file is removed with a success. -/
theorem removed_unverified :
    ¬ ∀ (fuel : ℕ) (fs : FileSystem) (io : FileEraseIo) (path : Text) (opts : FileEraseOptions)
      (run : FileEraseRun) (content : Bytes), fs.lstat path = some (.regular content) →
      opts.pattern = .zero ∨ opts.pattern = .one → opts.verifyAfter = true →
      opts.removeFile = true → fileErase fuel fs io path opts = some run →
      RemovedVerified fs io path opts content.length run := by
  intro h
  obtain ⟨_, _, _, hmismatched⟩ := h 1 (soleObject "a".toList (.regular [0x41])) staleIo "a".toList
    zerosOnce _ [0x41] rfl (Or.inl rfl) rfl rfl rfl (Or.inl rfl)
  exact absurd hmismatched (by decide)

end EraseCure.UnverifiedRemovals
