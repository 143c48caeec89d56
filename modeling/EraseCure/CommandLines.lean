import EraseCure.DeviceScans
import EraseCure.VerifiedRuns

/-!
# Command lines

The first argument names a command. The arguments of an erase are read from the
left, where an option takes the argument after it whatever that is, a later
option wins and an unknown argument is passed over. Only an erase changes
anything, and only the regular file that it names.
-/

set_option autoImplicit false

namespace EraseCure.CommandLines
open EraseCure.CText EraseCure.Devices EraseCure.ErrorCodes EraseCure.FileSystems
open EraseCure.ByteRanges EraseCure.ErasePasses EraseCure.BlockEraseImage EraseCure.Verification
open EraseCure.VerificationVerdicts EraseCure.Sanitizers EraseCure.SanitizerRuns
open EraseCure.VerifiedRuns EraseCure.Cli EraseCure.DeviceScans

section Numbers

/-- `strtol` with base ten; there is a zero without a digit. -/
def strtol (t : Text) : ℤ :=
  let t := t.dropWhile isSpace
  let negative := t.head? = some '-'
  let t := if negative || t.head? = some '+' then t.drop 1 else t
  let value := Nat.ofDigitChars 10 (t.takeWhile Char.isDigit) 0
  if negative then max (-value) (-2^63) else min value (2^63-1)

def passesOf (value : Text) : ℕ :=
  let p := strtol value
  if 0 < p ∧ p ≤ maxPasses then p.toNat else 1

def blockSizeOf (value : Text) : ℕ :=
  let bs := strtol value
  if 0 < bs then bs.toNat else 0

end Numbers

section Options

structure EraseArgs where
  patternStr : Option Text
  passes : ℕ
  blockSize : ℕ
  verifyMode : VerifyMode
  deriving DecidableEq

def eraseArgsInit : EraseArgs where
  patternStr := none
  passes := 1
  blockSize := 0
  verifyMode := .none

def flagOption (arg : Text) (a : EraseArgs) : EraseArgs :=
  if arg = "--verify".toList then { a with verifyMode := .sample }
  else if arg = "--verify-full".toList then { a with verifyMode := .full }
  else a

/-- The loop over the arguments of an erase. An option with a value is none at
the end of the line. -/
def parseOptions : List Text → EraseArgs → EraseArgs
  | [], a => a
  | [arg], a => flagOption arg a
  | arg::value::rest, a =>
    if arg = "--block-erase".toList then parseOptions rest { a with patternStr := some value }
    else if arg = "--passes".toList then parseOptions rest { a with passes := passesOf value }
    else if arg = "--block-size".toList then
      parseOptions rest { a with blockSize := blockSizeOf value }
    else parseOptions (value::rest) (flagOption arg a)

def parsePattern : List Text → Option Text → Option Text
  | [], found => found
  | [_], found => found
  | arg::value::rest, found =>
    if arg = "--pattern".toList then parsePattern rest (some value)
    else parsePattern (value::rest) found

end Options

/-- A command has printed the devices besides what an erase leaves. -/
structure CommandRun extends CliRun where
  shown : List ScannedDevice

def unchanged (fs : FileSystem) (exitStatus : ℕ) : CommandRun :=
  ⟨⟨fs, exitStatus, none, [], .notAsked⟩, []⟩

def maxDevices : ℕ := 64

def cmdListDevices (fs : FileSystem) (sysfs : Sysfs) (dir : Option (List Text)) : CommandRun :=
  match deviceScan sysfs maxDevices dir with
  | .error _ => unchanged fs 1
  | .ok devices => { unchanged fs 0 with shown := devices }

def cmdDeviceInfo (fs : FileSystem) (sysfs : Sysfs) (path : Text) : CommandRun :=
  match deviceGetInfo sysfs path with
  | (.ok, dev) => { unchanged fs 0 with shown := [dev] }
  | (_, _) => unchanged fs 1

def cmdVerifyImage (fs : FileSystem) (io : SanitizerIo) (imagePath patternStr : Text) :
    CommandRun :=
  let verify := fun pattern =>
    let out := verifyImagePattern (fs.seen io.readback) io.verify imagePath pattern
      defaultBlockSize .sample
    let status :=
      if out.1 ≠ .ok ∧ out.1 ≠ .patternMismatch then 1
      else if out.2.verificationPassed then 0 else 1
    { unchanged fs status with
      verified := [⟨imagePath, pattern, defaultBlockSize, .sample⟩]
      verdict := printVerdict out }
  if patternStr = "zero".toList then verify .zero
  else if patternStr = "one".toList then verify .one
  else unchanged fs 1

/-- `cli_run` on the program name and its arguments. -/
def cliRun (fs : FileSystem) (io : SanitizerIo) (sysfs : Sysfs) (dir : Option (List Text)) :
    List Text → CommandRun
  | [] | [_] => unchanged fs 0
  | _::command::args =>
    if command = "--help".toList ∨ command = "-h".toList then unchanged fs 0
    else if command = "--list-devices".toList then cmdListDevices fs sysfs dir
    else if command = "--info".toList then
      match args with
      | [] => unchanged fs 1
      | path::_ => cmdDeviceInfo fs sysfs path
    else if command = "--test-image".toList then
      match args with
      | imagePath::arg::value::rest =>
        let a := parseOptions (arg::value::rest) eraseArgsInit
        match a.patternStr with
        | none => unchanged fs 1
        | some patternStr =>
          ⟨cmdBlockEraseImage fs io imagePath patternStr a.passes a.blockSize a.verifyMode, []⟩
      | _ => unchanged fs 1
    else if command = "--verify-image".toList then
      match args with
      | imagePath::arg::value::rest =>
        match parsePattern (arg::value::rest) none with
        | none => unchanged fs 1
        | some patternStr => cmdVerifyImage fs io imagePath patternStr
      | _ => unchanged fs 1
    else unchanged fs 1

section Reading

def valueOptions : List Text :=
  ["--block-erase".toList, "--passes".toList, "--block-size".toList]

def optionNames : List Text := valueOptions++["--verify".toList, "--verify-full".toList]

/-- What a user writes behind the path of an image. -/
inductive CliOption where
  | pattern (name : Text)
  | passes (n : ℕ)
  | blockSize (n : ℕ)
  | verify
  | verifyFull
  | stray (t : Text) (unknown : t ∉ optionNames)

def CliOption.render : CliOption → List Text
  | .pattern name => ["--block-erase".toList, name]
  | .passes n => ["--passes".toList, decimal n]
  | .blockSize n => ["--block-size".toList, decimal n]
  | .verify => ["--verify".toList]
  | .verifyFull => ["--verify-full".toList]
  | .stray t _ => [t]

def CliOption.pattern? : CliOption → Option Text
  | .pattern name => some name
  | _ => none

def CliOption.passes? : CliOption → Option ℕ
  | .passes n => some (if 0 < n ∧ n ≤ maxPasses then n else 1)
  | _ => none

def CliOption.blockSize? : CliOption → Option ℕ
  | .blockSize n => some (min n (2^63-1))
  | _ => none

def CliOption.verifyMode? : CliOption → Option VerifyMode
  | .verify => some .sample
  | .verifyFull => some .full
  | _ => none

def lastOf {α : Type} (kind : CliOption → Option α) (options : List CliOption) : Option α :=
  (options.filterMap kind).getLast?

def CliOption.applied (o : CliOption) (a : EraseArgs) : EraseArgs where
  patternStr := o.pattern?.or a.patternStr
  passes := o.passes?.getD a.passes
  blockSize := o.blockSize?.getD a.blockSize
  verifyMode := o.verifyMode?.getD a.verifyMode

def lastArgs (options : List CliOption) (a : EraseArgs) : EraseArgs where
  patternStr := (lastOf CliOption.pattern? options).or a.patternStr
  passes := (lastOf CliOption.passes? options).getD a.passes
  blockSize := (lastOf CliOption.blockSize? options).getD a.blockSize
  verifyMode := (lastOf CliOption.verifyMode? options).getD a.verifyMode

theorem digit_not_space (c : Char) (h : c.isDigit = true) : isSpace c = false := by
  obtain ⟨hlow, _⟩ := digit_bound c h
  rw [isSpace, Bool.or_eq_false_iff, decide_eq_false_iff_not]
  refine ⟨fun heq => ?_, by simp only [Bool.and_eq_false_iff, decide_eq_false_iff_not]; omega⟩
  rw [heq] at hlow
  exact absurd hlow (by decide)

theorem strtol_decimal (n : ℕ) : strtol (decimal n) = min (n : ℤ) (2^63-1) := by
  obtain ⟨d, rest, hcons⟩ := List.exists_cons_of_ne_nil
    (show decimal n ≠ [] from Nat.toDigits_ne_nil)
  have hd : d.isDigit = true := decimal_digit n d (by rw [hcons]; exact List.mem_cons_self)
  have hspace : (decimal n).dropWhile isSpace = decimal n := by
    rw [hcons, List.dropWhile_cons_of_neg (by simp [digit_not_space d hd])]
  have hall : (decimal n).takeWhile Char.isDigit = decimal n :=
    List.takeWhile_eq_self_iff.mpr (fun c hc => decimal_digit n c hc)
  have hsign : ∀ c : Char, c.isDigit = false → (decimal n).head? ≠ some c := by
    rw [hcons]
    rintro c hc heq
    obtain rfl : d = c := Option.some.inj heq
    rw [hd] at hc
    contradiction
  simp only [strtol, hspace, decide_eq_false (hsign '-' rfl), decide_eq_false (hsign '+' rfl),
    Bool.or_self, Bool.false_eq_true, if_false]
  rw [hall, if_neg (hsign '-' rfl), decimal, Nat.ofDigitChars_ten_toDigits]

theorem passesOf_decimal (n : ℕ) :
    passesOf (decimal n) = if 0 < n ∧ n ≤ maxPasses then n else 1 := by
  rw [passesOf, strtol_decimal, maxPasses]
  split_ifs <;> omega

theorem blockSizeOf_decimal (n : ℕ) : blockSizeOf (decimal n) = min n (2^63-1) := by
  rw [blockSizeOf, strtol_decimal]
  split_ifs <;> omega

theorem lastOf_cons {α : Type} (kind : CliOption → Option α) (o : CliOption)
    (options : List CliOption) :
    lastOf kind (o::options) = (lastOf kind options).or (kind o) := by
  rw [lastOf, lastOf, List.filterMap_cons]
  cases kind o with
  | none => rw [Option.or_none]
  | some x =>
    rw [List.getLast?_cons]
    cases (options.filterMap kind).getLast? <;> rfl

theorem lastArgs_cons (o : CliOption) (options : List CliOption) (a : EraseArgs) :
    lastArgs (o::options) a = lastArgs options (o.applied a) := by
  simp only [lastArgs, lastOf_cons, CliOption.applied, Option.or_assoc]
  congr 1 <;> cases lastOf _ options <;> rfl

theorem parseOptions_flag (arg : Text) (rest : List Text) (a : EraseArgs)
    (h : arg ∉ valueOptions) :
    parseOptions (arg::rest) a = parseOptions rest (flagOption arg a) := by
  simp only [valueOptions, List.mem_cons, List.not_mem_nil, or_false, not_or] at h
  cases rest with
  | nil => rfl
  | cons value rest => rw [parseOptions, if_neg h.1, if_neg h.2.1, if_neg h.2.2]

theorem parseOptions_render (o : CliOption) (rest : List Text) (a : EraseArgs) :
    parseOptions (o.render++rest) a = parseOptions rest (o.applied a) := by
  cases o with
  | pattern name => rfl
  | passes n =>
    change parseOptions rest { a with passes := passesOf (decimal n) } = _
    rw [passesOf_decimal]
    rfl
  | blockSize n =>
    change parseOptions rest { a with blockSize := blockSizeOf (decimal n) } = _
    rw [blockSizeOf_decimal]
    rfl
  | verify => exact parseOptions_flag _ rest a (by decide)
  | verifyFull => exact parseOptions_flag _ rest a (by decide)
  | stray t unknown =>
    obtain ⟨hvalue, hflag⟩ := not_or.mp (fun h => unknown (List.mem_append.mpr h))
    have hverify : t ≠ "--verify".toList := fun h => hflag (by simp [h])
    have hfull : t ≠ "--verify-full".toList := fun h => hflag (by simp [h])
    change parseOptions (t::rest) a = parseOptions rest a
    rw [parseOptions_flag t rest a hvalue, flagOption, if_neg hverify, if_neg hfull]

theorem parseOptions_all (options : List CliOption) (a : EraseArgs) :
    parseOptions (options.flatMap CliOption.render) a = lastArgs options a := by
  induction options generalizing a with
  | nil => rfl
  | cons o rest ih =>
    rw [List.flatMap_cons, parseOptions_render, ih, lastArgs_cons]

end Reading

section Erase
variable (fs : FileSystem) (io : SanitizerIo) (imagePath patternStr : Text) (passes blockSize : ℕ)
  (verifyMode : VerifyMode)

/-- An erase with a known pattern leaves the file system of the eraser, and
status zero means that the eraser succeeded. -/
theorem cmdBlockEraseImage_known (pattern : ErasePattern)
    (h : patternOfName patternStr = some pattern) :
    let run := cmdBlockEraseImage fs io imagePath patternStr passes blockSize verifyMode
    let erase := blockEraseImage fs io.image imagePath
      (cliOptions pattern passes blockSize verifyMode)
    run.fs = erase.fs ∧ (run.exitStatus = 0 ↔ erase.code = .ok) ∧
      (erase.code = .realDevicePath → run.exitStatus = 2) := by
  intro run erase
  have hrun : run = cmdBlockEraseImage fs io imagePath patternStr passes blockSize verifyMode := rfl
  rw [cmdBlockEraseImage, h] at hrun
  dsimp only at hrun
  by_cases hdev : erase.code = .realDevicePath
  · rw [if_pos hdev] at hrun
    rw [hrun, hdev]
    exact ⟨rfl, by simp, fun _ => rfl⟩
  rw [if_neg hdev] at hrun
  by_cases hok : erase.code = .ok
  · rw [if_neg (not_not_intro hok)] at hrun
    have hrest : run.fs = erase.fs ∧ run.exitStatus = 0 := by
      rw [hrun]
      split_ifs <;> exact ⟨rfl, rfl⟩
    exact ⟨hrest.1, ⟨fun _ => hok, fun _ => hrest.2⟩, fun hd => absurd hd hdev⟩
  · rw [if_pos hok] at hrun
    rw [hrun]
    exact ⟨rfl, by simp [hok], fun hd => absurd hd hdev⟩

theorem cmdBlockEraseImage_unknown (h : patternOfName patternStr = none) :
    cmdBlockEraseImage fs io imagePath patternStr passes blockSize verifyMode =
      ⟨fs, 1, none, [], .notAsked⟩ := by
  rw [cmdBlockEraseImage, h]

theorem eraseImage_onlyFile (erase : BlockEraseOptions) :
    OnlyFile fs (blockEraseImage fs io.image imagePath erase).fs imagePath := by
  rcases blockEraseImage_frame fs io.image imagePath erase with heq | hstore
  · rw [heq]
    exact onlyFile_refl fs imagePath
  · obtain ⟨node, content, new, hnode, hobj, hlen, heq⟩ := hstore
    rw [heq]
    exact onlyFile_store fs imagePath node content new hnode hobj hlen

theorem cmdBlockEraseImage_onlyFile :
    OnlyFile fs (cmdBlockEraseImage fs io imagePath patternStr passes blockSize verifyMode).fs
      imagePath := by
  cases hpat : patternOfName patternStr with
  | none =>
    rw [cmdBlockEraseImage_unknown fs io imagePath patternStr passes blockSize verifyMode hpat]
    exact onlyFile_refl fs imagePath
  | some pattern =>
    rw [(cmdBlockEraseImage_known fs io imagePath patternStr passes blockSize verifyMode pattern
      hpat).1]
    exact eraseImage_onlyFile fs io imagePath _

theorem cmdBlockEraseImage_device (h : devicePathIsBlockDevice fs imagePath = true) :
    let run := cmdBlockEraseImage fs io imagePath patternStr passes blockSize verifyMode
    run.fs = fs ∧ run.exitStatus = if (patternOfName patternStr).isSome then 2 else 1 := by
  cases hpat : patternOfName patternStr with
  | none =>
    rw [cmdBlockEraseImage_unknown fs io imagePath patternStr passes blockSize verifyMode hpat]
    exact ⟨rfl, rfl⟩
  | some pattern =>
    obtain ⟨hfs, _, hstatus⟩ := cmdBlockEraseImage_known fs io imagePath patternStr passes
      blockSize verifyMode pattern hpat
    have hrefused : ∃ message, blockEraseImage fs io.image imagePath
        (cliOptions pattern passes blockSize verifyMode) = refused fs .realDevicePath message := by
      rw [blockEraseImage, eraseImageRun, if_pos h]
      exact ⟨_, rfl⟩
    obtain ⟨message, hrefused⟩ := hrefused
    rw [hrefused] at hfs hstatus
    exact ⟨hfs, hstatus rfl⟩

end Erase

section Lines
variable (fs : FileSystem) (io : SanitizerIo) (sysfs : Sysfs) (dir : Option (List Text))

def eraseOf (path name : Text) (a : EraseArgs) : CommandRun :=
  ⟨cmdBlockEraseImage fs io path name a.passes a.blockSize a.verifyMode, []⟩

/-- A line that does not come to an erase changes nothing, and does not end
well where it asks for one. -/
def Idle (argv : List Text) : Prop :=
  (cliRun fs io sysfs dir argv).fs = fs ∧
    (argv[1]? = some "--test-image".toList → (cliRun fs io sysfs dir argv).exitStatus = 1)

theorem verify_fs (path name : Text) : (cmdVerifyImage fs io path name).fs = fs := by
  rw [cmdVerifyImage]
  split_ifs <;> rfl

theorem list_fs : (cmdListDevices fs sysfs dir).fs = fs := by
  rw [cmdListDevices]
  split <;> rfl

theorem info_fs (path : Text) : (cmdDeviceInfo fs sysfs path).fs = fs := by
  rw [cmdDeviceInfo]
  split <;> rfl

theorem cliRun_testImage (prog path : Text) (args : List Text) :
    cliRun fs io sysfs dir (prog::"--test-image".toList::path::args) =
      if args.length < 2 then unchanged fs 1
      else
        match (parseOptions args eraseArgsInit).patternStr with
        | none => unchanged fs 1
        | some name => eraseOf fs io path name (parseOptions args eraseArgsInit) := by
  match args with
  | [] | [_] => rfl
  | arg::value::rest =>
    rw [if_neg (by simp)]
    rfl

/-- A command line is idle or an erase of the file that it names. -/
theorem cliRun_cases (argv : List Text) :
    Idle fs io sysfs dir argv ∨
      ∃ prog path args name, argv = prog::"--test-image".toList::path::args ∧
        (parseOptions args eraseArgsInit).patternStr = some name ∧
        cliRun fs io sysfs dir argv =
          eraseOf fs io path name (parseOptions args eraseArgsInit) := by
  match argv with
  | [] | [_] => exact Or.inl ⟨rfl, fun h => by simp at h⟩
  | prog::command::args =>
    by_cases htest : command = "--test-image".toList
    · subst htest
      match args with
      | [] => exact Or.inl ⟨rfl, fun _ => rfl⟩
      | path::args =>
        rw [Idle, cliRun_testImage]
        by_cases hlen : args.length < 2
        · rw [if_pos hlen]
          exact Or.inl ⟨rfl, fun _ => rfl⟩
        rw [if_neg hlen]
        cases hname : (parseOptions args eraseArgsInit).patternStr with
        | none => exact Or.inl ⟨rfl, fun _ => rfl⟩
        | some name => exact Or.inr ⟨prog, path, args, name, rfl, hname, rfl⟩
    · refine Or.inl ⟨?_, fun h => absurd (Option.some.inj h) htest⟩
      rw [cliRun.eq_def]
      dsimp only
      rw [if_neg htest]
      split_ifs
      · rfl
      · exact list_fs fs sysfs dir
      · split
        · rfl
        · exact info_fs fs sysfs _
      · split
        · split
          · rfl
          · exact verify_fs fs io _ _
        · rfl
      · rfl

/-- Whatever the arguments are, at most the content of the regular file that the
second one names changes, and that under one command only. A path of a block
device is turned away there. -/
theorem command_line_harmless (argv : List Text) :
    let run := cliRun fs io sysfs dir argv
    OnlyFile fs run.fs (argv.getD 2 []) ∧
      (run.fs ≠ fs → argv[1]? = some "--test-image".toList) ∧
      (devicePathIsBlockDevice fs (argv.getD 2 []) = true →
        run.fs = fs ∧ (argv[1]? = some "--test-image".toList → run.exitStatus ≠ 0)) := by
  intro run
  rcases cliRun_cases fs io sysfs dir argv with ⟨hfs, hstatus⟩ | herase
  · refine ⟨?_, fun hne => absurd hfs hne, fun _ => ⟨hfs, fun h => ?_⟩⟩
    · rw [show run.fs = fs from hfs]
      exact onlyFile_refl fs _
    · rw [show run.exitStatus = 1 from hstatus h]
      exact one_ne_zero
  · obtain ⟨prog, path, args, name, rfl, _, hrun⟩ := herase
    have hrun : run = eraseOf fs io path name (parseOptions args eraseArgsInit) := hrun
    refine ⟨?_, fun _ => rfl, fun hdev => ?_⟩
    · rw [hrun]
      exact cmdBlockEraseImage_onlyFile fs io path name _ _ _
    · obtain ⟨hfs, hstatus⟩ := cmdBlockEraseImage_device fs io path name
        (parseOptions args eraseArgsInit).passes (parseOptions args eraseArgsInit).blockSize
        (parseOptions args eraseArgsInit).verifyMode hdev
      rw [hrun]
      refine ⟨hfs, fun _ hzero => ?_⟩
      rw [eraseOf, hstatus] at hzero
      split_ifs at hzero

end Lines

section Asked
variable (fs : FileSystem) (io : SanitizerIo) (sysfs : Sysfs) (dir : Option (List Text))
  (prog path : Text) (options : List CliOption)

def namedPattern : Option ErasePattern :=
  (lastOf CliOption.pattern? options).bind patternOfName

def askedPasses : ℕ := (lastOf CliOption.passes? options).getD 1

def eraseLine : List Text :=
  prog::"--test-image".toList::path::options.flatMap CliOption.render

def askedErase (pattern : ErasePattern) : EraseRun :=
  blockEraseImage fs io.image path (cliOptions pattern (askedPasses options)
    ((lastOf CliOption.blockSize? options).getD 0)
    ((lastOf CliOption.verifyMode? options).getD .none))

theorem askedPasses_bounds : 0 < askedPasses options ∧ askedPasses options ≤ maxPasses := by
  rw [askedPasses]
  cases hlast : lastOf CliOption.passes? options with
  | none => decide
  | some n =>
    obtain ⟨o, _, ho⟩ := List.mem_filterMap.mp (List.mem_of_getLast? hlast)
    cases o with
    | passes m =>
      obtain rfl := Option.some.inj ho
      rw [Option.getD_some]
      split_ifs with hm
      · exact hm
      · decide
    | pattern | blockSize | verify | verifyFull | stray => contradiction

theorem asked_clamped : clampPasses (if 0 < askedPasses options then askedPasses options else 1) =
    askedPasses options := by
  obtain ⟨hpos, hmax⟩ := askedPasses_bounds options
  rw [if_pos hpos, clampPasses, if_neg (by omega), if_neg (by omega)]

theorem render_long (name : Text) (h : lastOf CliOption.pattern? options = some name) :
    ¬ (options.flatMap CliOption.render).length < 2 := by
  obtain ⟨o, ho, hname⟩ := List.mem_filterMap.mp (List.mem_of_getLast? h)
  have hlen : o.render.length = 2 := by
    cases o with
    | pattern => rfl
    | passes | blockSize | verify | verifyFull | stray => contradiction
  obtain ⟨before, behind, rfl⟩ := List.append_of_mem ho
  rw [List.flatMap_append, List.flatMap_cons, List.length_append, List.length_append, hlen]
  omega

theorem eraseLine_run :
    cliRun fs io sysfs dir (eraseLine prog path options) =
      match lastOf CliOption.pattern? options with
      | none => unchanged fs 1
      | some name => eraseOf fs io path name (lastArgs options eraseArgsInit) := by
  rw [eraseLine, cliRun_testImage, parseOptions_all,
    show (lastArgs options eraseArgsInit).patternStr = lastOf CliOption.pattern? options from
      Option.or_none]
  cases hlast : lastOf CliOption.pattern? options with
  | none => exact ite_self _
  | some name => rw [if_neg (render_long options name hlast)]

theorem eraseLine_unnamed (h : namedPattern options = none) :
    (cliRun fs io sysfs dir (eraseLine prog path options)).fs = fs ∧
      (cliRun fs io sysfs dir (eraseLine prog path options)).exitStatus = 1 := by
  rw [eraseLine_run]
  rw [namedPattern] at h
  cases hlast : lastOf CliOption.pattern? options with
  | none => exact ⟨rfl, rfl⟩
  | some name =>
    rw [hlast, Option.bind_some] at h
    dsimp only
    rw [eraseOf, cmdBlockEraseImage_unknown fs io path name _ _ _ h]
    exact ⟨rfl, rfl⟩

theorem eraseLine_named (pattern : ErasePattern) (h : namedPattern options = some pattern) :
    (cliRun fs io sysfs dir (eraseLine prog path options)).fs =
        (askedErase fs io path options pattern).fs ∧
      ((cliRun fs io sysfs dir (eraseLine prog path options)).exitStatus = 0 ↔
        (askedErase fs io path options pattern).code = .ok) := by
  obtain ⟨name, hlast, hname⟩ := Option.bind_eq_some_iff.mp h
  obtain ⟨hfs, hok, _⟩ := cmdBlockEraseImage_known fs io path name (askedPasses options)
    ((lastOf CliOption.blockSize? options).getD 0)
    ((lastOf CliOption.verifyMode? options).getD .none) pattern hname
  rw [eraseLine_run, hlast]
  exact ⟨hfs, hok⟩

/-- However the options are ordered and repeated, the last of each kind counts.
With a known pattern the line erases as they say, and it ends with status zero
when every byte of the file was overwritten in as many passes. -/
theorem command_line_erases :
    (namedPattern options = none →
      (cliRun fs io sysfs dir (eraseLine prog path options)).fs = fs ∧
        (cliRun fs io sysfs dir (eraseLine prog path options)).exitStatus = 1) ∧
    ∀ pattern, namedPattern options = some pattern →
      let run := cliRun fs io sysfs dir (eraseLine prog path options)
      let erase := askedErase fs io path options pattern
      run.fs = erase.fs ∧ (run.exitStatus = 0 ↔ erase.code = .ok) ∧
        (run.exitStatus = 0 → ∃ node content, fs.resolve path = some node ∧
          fs.object node = .regular content ∧ content ≠ [] ∧
          Erased pattern (List.range (askedPasses options)) fs run.fs node erase.writes) := by
  refine ⟨eraseLine_unnamed fs io sysfs dir prog path options, fun pattern h => ?_⟩
  obtain ⟨hfs, hok⟩ := eraseLine_named fs io sysfs dir prog path options pattern h
  refine ⟨hfs, hok, fun hzero => ?_⟩
  obtain ⟨node, content, _, hnode, hobj, hne, _, _, herased⟩ :=
    blockEraseImage_ok fs io.image path _ (hok.mp hzero)
  refine ⟨node, content, hnode, hobj, hne, ?_⟩
  rw [hfs, ← asked_clamped options]
  exact herased

end Asked

section Verify
variable (io : ReadIo) (content : Bytes) (expected : UInt8)
  (fileSize blockSize totalBlocks step : ℕ)

/-- A difference that was read is counted and is no code of the loop. -/
theorem verifyBlocks_code (fuel blk checked failed : ℕ) :
    (verifyBlocks io content expected fileSize blockSize totalBlocks step fuel blk checked
      failed).1 ≠ .patternMismatch := by
  have hok : ErasecureError.ok ≠ .patternMismatch := by decide
  induction fuel generalizing blk checked failed with
  | zero => exact hok
  | succ fuel ih =>
    rw [verifyBlocks]
    split_ifs
    · dsimp only
      split_ifs
      · exact (by decide : ErasecureError.readFailed ≠ .patternMismatch)
      · exact ih _ _ _
      · exact ih _ _ _
    · exact (by decide : ErasecureError.seekFailed ≠ .patternMismatch)
    · exact hok

theorem verifyBlocks_clean (hs : 0 < step) :
    let out := verifyBlocks io content expected fileSize blockSize totalBlocks step totalBlocks
      0 0 0
    out.1 = .ok ∧ out.2.2 = 0 ↔ ∀ blk, ToCheck totalBlocks step blk →
      Readable io content fileSize blockSize blk ∧
        Matches content expected fileSize blockSize blk := by
  obtain ⟨hok, hzero⟩ := verifyBlocks_spec io content expected fileSize blockSize totalBlocks step
    hs totalBlocks 0 0 0 (Nat.dvd_zero _) (by omega)
  dsimp only
  rw [hok, hzero]
  constructor
  · rintro ⟨hread, _, hclean⟩ blk hblk
    exact ⟨hread blk (Nat.zero_le _) hblk, hclean blk (Nat.zero_le _) hblk
      fun a _ _ ha => hread a (Nat.zero_le _) ha⟩
  · intro h
    exact ⟨fun blk _ hblk => (h blk hblk).1, rfl, fun blk _ hblk _ => (h blk hblk).2⟩

end Verify

section VerifyCommand
variable (fs : FileSystem) (io : SanitizerIo) (imagePath : Text)

/-- An object of a size is read back with a byte all over every sampled block. -/
def ReadsBack (expected : UInt8) : Prop :=
  io.verify.allocated = true ∧ io.verify.opened = true ∧
    ∃ file, (fs.seen io.readback).stat imagePath = some file ∧ file.statSize ≠ 0 ∧
      let total := blockCount file.statSize defaultBlockSize
      ∀ blk, ToCheck total (sampleStep .sample total) blk →
        Readable io.verify file.content file.statSize defaultBlockSize blk ∧
          Matches file.content expected file.statSize defaultBlockSize blk

/-- A verification that stops early has not read the image back. -/
theorem stopped_sound (expected : UInt8) (e : ErasecureError) (result : VerificationResult)
    (hok : e ≠ .ok) (hcode : e ≠ .patternMismatch) (h : ¬ ReadsBack fs io imagePath expected) :
    let out := (e, result)
    out.1 ≠ .patternMismatch ∧
      (out.1 = .ok ∧ out.2.verificationPassed = true ↔ ReadsBack fs io imagePath expected) :=
  ⟨hcode, fun hdone => absurd hdone.1 hok, fun hread => absurd hread h⟩

theorem verifyConstantPattern_sound (expected : UInt8) (result : VerificationResult) :
    let out := verifyConstantPattern (fs.seen io.readback) io.verify imagePath expected
      defaultBlockSize .sample result
    out.1 ≠ .patternMismatch ∧
      (out.1 = .ok ∧ out.2.verificationPassed = true ↔ ReadsBack fs io imagePath expected) := by
  rw [verifyConstantPattern]
  cases hstat : (fs.seen io.readback).stat imagePath with
  | none =>
    refine stopped_sound fs io imagePath expected .statFailed result (by decide) (by decide) ?_
    rintro ⟨_, _, file, heq, _⟩
    rw [hstat] at heq
    contradiction
  | some file =>
    dsimp only
    by_cases hsize : file.statSize = 0
    · rw [if_pos hsize]
      refine stopped_sound fs io imagePath expected .invalidArg result (by decide) (by decide) ?_
      rintro ⟨_, _, file', heq, hne, _⟩
      obtain rfl := Option.some.inj (hstat.symm.trans heq)
      exact hne hsize
    rw [if_neg hsize]
    cases hal : io.verify.allocated with
    | false =>
      refine stopped_sound fs io imagePath expected .alloc _ (by decide) (by decide) ?_
      rintro ⟨hopen, _⟩
      exact absurd (hal.symm.trans hopen) (by decide)
    | true =>
      cases hop : io.verify.opened with
      | false =>
        refine stopped_sound fs io imagePath expected .openFailed _ (by decide) (by decide) ?_
        rintro ⟨_, hopen, _⟩
        exact absurd (hop.symm.trans hopen) (by decide)
      | true =>
        have hloop := verifyBlocks_clean io.verify file.content expected file.statSize
          defaultBlockSize (blockCount file.statSize defaultBlockSize)
          (sampleStep .sample (blockCount file.statSize defaultBlockSize)) (sampleStep_pos _ _)
        refine ⟨verifyBlocks_code _ _ _ _ _ _ _ _ _ _ _, ?_⟩
        refine Iff.trans ?_ (hloop.trans ⟨fun h => ⟨hal, hop, file, hstat, hsize, h⟩, ?_⟩)
        · exact and_congr Iff.rfl decide_eq_true_iff
        · rintro ⟨_, _, file', heq, _, h⟩
          obtain rfl := Option.some.inj (hstat.symm.trans heq)
          exact h

theorem verifyImagePattern_sound (pattern : ErasePattern) (hp : pattern ≠ .random) :
    let out := verifyImagePattern (fs.seen io.readback) io.verify imagePath pattern
      defaultBlockSize .sample
    out.1 ≠ .patternMismatch ∧ (out.1 = .ok ∧ out.2.verificationPassed = true ↔
      ReadsBack fs io imagePath (expectedByte pattern)) := by
  have h := verifyConstantPattern_sound fs io imagePath (expectedByte pattern)
    { verificationBlank with resultCode := .generic }
  rw [verifyImagePattern, if_neg hp]
  exact h

theorem verdict_status (out : ErasecureError × VerificationResult)
    (hcode : out.1 ≠ .patternMismatch) :
    (if out.1 ≠ .ok ∧ out.1 ≠ .patternMismatch then 1
      else if out.2.verificationPassed then 0 else 1) = 0 ↔
        out.1 = .ok ∧ out.2.verificationPassed = true := by
  by_cases hok : out.1 = .ok
  · rw [if_neg (fun h => h.1 hok)]
    cases out.2.verificationPassed <;> simp [hok]
  · rw [if_pos ⟨hok, hcode⟩]
    exact ⟨fun h => absurd h (by decide), fun h => absurd h.1 hok⟩

/-- The verification of a known constant pattern ends well when the image is
read back with its byte. -/
theorem cmdVerifyImage_zero (patternStr : Text) :
    (cmdVerifyImage fs io imagePath patternStr).exitStatus = 0 ↔
      ∃ pattern, pattern ≠ .random ∧ patternOfName patternStr = some pattern ∧
        ReadsBack fs io imagePath (expectedByte pattern) := by
  have hverify : ∀ pattern, pattern ≠ .random →
      let out := verifyImagePattern (fs.seen io.readback) io.verify imagePath pattern
        defaultBlockSize .sample
      ((if out.1 ≠ .ok ∧ out.1 ≠ .patternMismatch then 1
        else if out.2.verificationPassed then 0 else 1) = 0 ↔
          ReadsBack fs io imagePath (expectedByte pattern)) := by
    intro pattern hp out
    obtain ⟨hcode, hsound⟩ := verifyImagePattern_sound fs io imagePath pattern hp
    exact (verdict_status out hcode).trans hsound
  by_cases hzero : patternStr = "zero".toList
  · rw [cmdVerifyImage, if_pos hzero, patternOfName, if_pos hzero]
    refine (hverify .zero (by decide)).trans ⟨fun h => ⟨.zero, by decide, rfl, h⟩, ?_⟩
    rintro ⟨pattern, _, heq, h⟩
    obtain rfl := Option.some.inj heq
    exact h
  by_cases hone : patternStr = "one".toList
  · rw [cmdVerifyImage, if_neg hzero, if_pos hone, patternOfName, if_neg hzero, if_pos hone]
    refine (hverify .one (by decide)).trans ⟨fun h => ⟨.one, by decide, rfl, h⟩, ?_⟩
    rintro ⟨pattern, _, heq, h⟩
    obtain rfl := Option.some.inj heq
    exact h
  · rw [cmdVerifyImage, if_neg hzero, if_neg hone, patternOfName, if_neg hzero, if_neg hone]
    refine ⟨fun h => absurd h (show 1 ≠ 0 by decide), ?_⟩
    rintro ⟨pattern, hp, heq, _⟩
    split_ifs at heq
    exact absurd (Option.some.inj heq).symm hp

variable (sysfs : Sysfs) (dir : Option (List Text)) (prog : Text) (args : List Text)

theorem cliRun_verifyImage :
    cliRun fs io sysfs dir (prog::"--verify-image".toList::imagePath::args) =
      match parsePattern args none with
      | none => unchanged fs 1
      | some name => cmdVerifyImage fs io imagePath name := by
  match args with
  | [] | [_] | _::_::_ => rfl

theorem verifyLine_zero :
    (cliRun fs io sysfs dir (prog::"--verify-image".toList::imagePath::args)).exitStatus = 0 ↔
      ∃ pattern, pattern ≠ .random ∧ (parsePattern args none).bind patternOfName = some pattern ∧
        ReadsBack fs io imagePath (expectedByte pattern) := by
  rw [cliRun_verifyImage]
  cases parsePattern args none with
  | none =>
    refine ⟨fun h => absurd h (show 1 ≠ 0 by decide), ?_⟩
    rintro ⟨pattern, _, heq, _⟩
    contradiction
  | some name => exact cmdVerifyImage_zero fs io imagePath name

end VerifyCommand

section EraseVerify
variable (fs : FileSystem) (io : SanitizerIo) (path : Text)

/-- The storage returns what it was given, and every call of the verifier
succeeds in full. -/
structure Faithful : Prop where
  undisturbed : Undisturbed io
  seeked : ∀ blk, io.verify.seeked blk = true
  delivered : ∀ blk, defaultBlockSize ≤ io.verify.delivered blk

theorem faithful_readable (h : Faithful io) (content : Bytes) (blk : ℕ) :
    Readable io.verify content content.length defaultBlockSize blk := by
  refine ⟨h.seeked blk, ?_⟩
  have hdel := h.delivered blk
  rw [readBlock, List.length_take, List.length_take, List.length_drop, blockLength]
  split_ifs <;> omega

theorem readsBack_constant (h : Faithful io) (node : ℕ) (content : Bytes) (b c : UInt8)
    (hnode : fs.resolve path = some node) (hobj : fs.object node = .regular content)
    (hne : content ≠ []) (hall : ∀ i < content.length, content[i]? = some b) :
    ReadsBack fs io path c ↔ c = b := by
  have hstat : (fs.seen io.readback).stat path = some (.regular content) := by
    rw [seen_same fs io.readback h.undisturbed.2.2, FileSystem.stat, hnode, Option.map_some, hobj]
  have hlen : 0 < content.length := List.length_pos_iff.mpr hne
  rw [ReadsBack, hstat]
  constructor
  · rintro ⟨_, _, file, heq, _, hread⟩
    obtain rfl := Option.some.inj heq
    have hcount : 0 < blockCount content.length defaultBlockSize := by
      rw [blockCount_rest content.length defaultBlockSize hlen (by decide)]
      exact Nat.succ_pos _
    have hfirst := (hread 0 ⟨hcount, Nat.dvd_zero _⟩).2 0 (by omega) (by
      change 0 < 0*defaultBlockSize+blockLength content.length defaultBlockSize 0
      rw [blockLength, defaultBlockSize]
      split_ifs <;> omega)
    exact Option.some.inj (hfirst.symm.trans (hall 0 hlen))
  · rintro rfl
    refine ⟨h.undisturbed.1, h.undisturbed.2.1, _, rfl, hlen.ne', fun blk hblk => ?_⟩
    refine ⟨faithful_readable io h content blk, fun i hi hend => hall i ?_⟩
    change i < blk*defaultBlockSize+blockLength content.length defaultBlockSize blk at hend
    rw [blockLength] at hend
    split_ifs at hend <;> omega

theorem expectedByte_constant (p q : ErasePattern) (hp : (patternByte p).isSome = true)
    (hq : (patternByte q).isSome = true) : expectedByte q = expectedByte p ↔ q = p := by
  have hconst : ∀ r : ErasePattern, (patternByte r).isSome = true → r = .zero ∨ r = .one := by
    intro r hr
    cases r with
    | zero => exact Or.inl rfl
    | one => exact Or.inr rfl
    | random | other => contradiction
  rcases hconst p hp with rfl | rfl <;> rcases hconst q hq with rfl | rfl <;> decide

variable (later : SanitizerIo) (sysfs : Sysfs) (dir : Option (List Text)) (prog : Text)
  (options : List CliOption) (args : List Text)

/-- On faithful storage a verification after an erase with a constant pattern
that ended well ends well when it asks for that pattern, and fails when it asks
for another one. -/
theorem verify_follows_erase (h : Faithful later) (pattern : ErasePattern)
    (hpattern : namedPattern options = some pattern) (hconstant : pattern ≠ .random)
    (hzero : (cliRun fs io sysfs dir (eraseLine prog path options)).exitStatus = 0) :
    let erased := (cliRun fs io sysfs dir (eraseLine prog path options)).fs
    (cliRun erased later sysfs dir (prog::"--verify-image".toList::path::args)).exitStatus = 0 ↔
      (parsePattern args none).bind patternOfName = some pattern := by
  intro erased
  obtain ⟨name, _, hname⟩ := Option.bind_eq_some_iff.mp hpattern
  have hbyte := (patternOfName_named name pattern hname).resolve_left hconstant
  obtain ⟨b, hb⟩ := Option.isSome_iff_exists.mp hbyte
  obtain ⟨hfs, hok⟩ := eraseLine_named fs io sysfs dir prog path options pattern hpattern
  obtain ⟨node, content, new, hnode, hobj, hne, hstore, hlen, hdone⟩ :=
    blockEraseImage_ok fs io.image path _ (hok.mp hzero)
  have hfs : erased = fs.store node new := hfs.trans hstore
  have hnew : erased.object node = .regular new := by
    rw [hfs, store_same, hobj]
    rfl
  have hall : ∀ i < new.length, new[i]? = some (expectedByte pattern) := by
    intro i hi
    have hsame := hdone.constant b hb i (by rw [hobj]; exact hlen ▸ hi)
    rw [hstore, ← hfs, hnew] at hsame
    rw [expectedByte_pattern pattern b hb]
    exact hsame
  have hread : ∀ c, ReadsBack erased later path c ↔ c = expectedByte pattern := fun c =>
    readsBack_constant erased later path h node new (expectedByte pattern) c
      (by rw [hfs]; exact hnode) hnew (fun hnil => hne (List.length_eq_zero_iff.mp
        (by rw [← hlen, hnil]; rfl))) hall
  rw [verifyLine_zero]
  constructor
  · rintro ⟨q, hq, heq, hback⟩
    obtain ⟨asked, _, hasked⟩ := Option.bind_eq_some_iff.mp heq
    have hqbyte := (patternOfName_named asked q hasked).resolve_left hq
    rw [heq, (expectedByte_constant pattern q hbyte hqbyte).mp ((hread _).mp hback)]
  · intro heq
    exact ⟨pattern, hconstant, heq, (hread _).mpr rfl⟩

theorem calm_faithful (size : ℕ) : Faithful (SanitizerIo.calm size) where
  undisturbed := ⟨rfl, rfl, fun _ _ => rfl⟩
  seeked := fun _ => rfl
  delivered := fun _ => show defaultBlockSize ≤ maxBlockSize by decide

def changedMind : List CliOption :=
  [.passes 40, .pattern "random".toList, .verify, .pattern "one".toList, .passes 2]

theorem verify_follows_erase_changedMind :
    let erased := (cliRun stickImage (SanitizerIo.calm 0) ⟨fun _ => none, fun _ => none⟩ none
      (eraseLine [] "disk.img".toList changedMind)).fs
    (cliRun erased (SanitizerIo.calm 0) ⟨fun _ => none, fun _ => none⟩ none
      ([]::"--verify-image".toList::"disk.img".toList::
        ["--pattern".toList, "one".toList])).exitStatus = 0 :=
  (verify_follows_erase stickImage (SanitizerIo.calm 0) "disk.img".toList (SanitizerIo.calm 0)
    ⟨fun _ => none, fun _ => none⟩ none [] changedMind ["--pattern".toList, "one".toList]
    (calm_faithful 0) .one (by decide) (by decide) (by decide)).mpr
    (by decide +kernel)

end EraseVerify

end EraseCure.CommandLines
