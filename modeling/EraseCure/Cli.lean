import EraseCure.Sanitizers

/-!
# The erase command

The command names its pattern, erases an image and then verifies it on
request. Its exit status follows the erase; the verdict is printed.
-/

set_option autoImplicit false

namespace EraseCure.Cli
open EraseCure.CText EraseCure.Devices EraseCure.ErrorCodes EraseCure.FileSystems
open EraseCure.ErasePasses EraseCure.BlockEraseImage EraseCure.Verification
open EraseCure.Sanitizers

def patternOfName (name : Text) : Option ErasePattern :=
  if name = "zero".toList then some .zero
  else if name = "one".toList then some .one
  else if name = "random".toList then some .random
  else none

/-- What the command prints of a verification: the result record, an error of
the verifier, or that random bytes cannot be verified. -/
inductive Verdict where
  | notAsked
  | notPossible
  | error (code : ErasecureError)
  | report (result : VerificationResult)
  deriving DecidableEq

structure CliRun where
  fs : FileSystem
  exitStatus : ℕ
  blockResult : Option BlockEraseResult
  verified : List VerifyCall
  verdict : Verdict

def cliOptions (pattern : ErasePattern) (passes blockSize : ℕ) (verifyMode : VerifyMode) :
    BlockEraseOptions :=
  { blockEraseOptionsInit with
    pattern := pattern
    passes := if 0 < passes then passes else 1
    blockSize := if 0 < blockSize then blockSize else defaultBlockSize
    verifyMode := verifyMode
    progressCb := false }

def printVerdict (out : ErasecureError × VerificationResult) : Verdict :=
  if out.1 ≠ .ok ∧ out.1 ≠ .patternMismatch then .error out.1 else .report out.2

def cmdBlockEraseImage (fs : FileSystem) (io : SanitizerIo) (imagePath patternStr : Text)
    (passes blockSize : ℕ) (verifyMode : VerifyMode) : CliRun :=
  match patternOfName patternStr with
  | none => ⟨fs, 1, none, [], .notAsked⟩
  | some pattern =>
    let opts := cliOptions pattern passes blockSize verifyMode
    let run := blockEraseImage fs io.image imagePath opts
    if run.code = .realDevicePath then ⟨run.fs, 2, some run.result, [], .notAsked⟩
    else if run.code ≠ .ok then ⟨run.fs, 1, some run.result, [], .notAsked⟩
    else if verifyMode ≠ .none ∧ pattern ≠ .random then
      ⟨run.fs, 0, some run.result, [⟨imagePath, pattern, opts.blockSize, verifyMode⟩],
        printVerdict (verifyImagePattern (run.fs.seen io.readback) io.verify imagePath pattern
          opts.blockSize verifyMode)⟩
    else if verifyMode ≠ .none ∧ pattern = .random then
      ⟨run.fs, 0, some run.result, [], .notPossible⟩
    else ⟨run.fs, 0, some run.result, [], .notAsked⟩

end EraseCure.Cli
