import EraseCure.FolderEraser

/-!
# Dangerous paths

The protected list names the root and twelve directories below it. Both guards
compare the path as it is spelled with three literal prefixes, so they let every
other spelling of a protected path through, and every other protected path.
-/

set_option autoImplicit false

namespace EraseCure.DangerousPaths
open EraseCure.CText EraseCure.ErrorCodes EraseCure.FileSystems EraseCure.FileEraser
open EraseCure.PathNames EraseCure.FileTrees EraseCure.FolderEraser

def dangerousPaths : List Text :=
  ["/".toList, "/boot".toList, "/etc".toList, "/usr".toList, "/bin".toList, "/sbin".toList,
   "/lib".toList, "/lib64".toList, "/proc".toList, "/sys".toList, "/dev".toList, "/run".toList,
   "/var".toList]

/-- Some spelling of an entry, or of a path below an entry other than the root. -/
def Protected (path : Text) : Prop :=
  path.head? = some '/' ∧ ∃ entry ∈ dangerousPaths,
    leads path = leads entry ∨ leads entry ≠ [] ∧ leads entry <+: leads path

instance (path : Text) : Decidable (Protected path) := inferInstanceAs (Decidable (_ ∧ _))

def guardedPrefixes : List Text := ["/dev/".toList, "/proc/".toList, "/sys/".toList]

def Guarded (path : Text) : Prop := ∃ p ∈ guardedPrefixes, p <+: path

/-- Whatever the files, the options and the calls, the answer is the same, and
nothing is done. -/
def FileRejected (path : Text) : Prop :=
  ∃ result : FileEraseResult, result.resultCode = .dangerousPath ∧
    ∀ fuel fs io opts, fileErase fuel fs io path opts = some ⟨fs, result, []⟩

def FolderRejected (path : Text) : Prop :=
  ∃ result : FolderEraseResult, result.resultCode = .dangerousPath ∧
    ∀ fuel tree io opts, folderErase fuel tree io path opts = some ⟨tree, result, []⟩

theorem fileGuard_iff (path : Text) : FileEraser.isDangerousPath path = true ↔ Guarded path := by
  simp only [FileEraser.isDangerousPath, Guarded, guardedPrefixes, List.any_eq_true,
    List.isPrefixOf_iff_prefix]

theorem folderGuard_iff (path : Text) :
    FolderEraser.isDangerousPath path = true ↔ Guarded path := by
  simp only [FolderEraser.isDangerousPath, Guarded, guardedPrefixes, List.any_eq_true,
    List.isPrefixOf_iff_prefix]

theorem guarded_file (path : Text) (h : Guarded path) : FileRejected path := by
  refine ⟨⟨.dangerousPath, .logical, printed256 path, 0, 0, 0, false, false, false,
    printed256 "Dangerous path rejected".toList,
    printed256 "Logical overwrite; NAND not guaranteed".toList⟩, rfl, ?_⟩
  intro fuel fs io opts
  rw [fileErase, if_pos ((fileGuard_iff path).mpr h)]

theorem guarded_folder (path : Text) (h : Guarded path) : FolderRejected path := by
  refine ⟨⟨.dangerousPath, printed256 path, 0, 0, 0, 0, 0, 0,
    printed256 "Dangerous path rejected".toList⟩, rfl, ?_⟩
  intro fuel tree io opts
  rw [folderErase, if_pos ((folderGuard_iff path).mpr h)]

/-- The file eraser has no other reason to call a path dangerous. -/
theorem unguarded_file (fuel : ℕ) (fs : FileSystem) (io : FileEraseIo) (path : Text)
    (opts : FileEraseOptions) (run : FileEraseRun) (h : ¬ Guarded path)
    (hr : fileErase fuel fs io path opts = some run) : run.result.resultCode ≠ .dangerousPath := by
  rw [← fileGuard_iff] at h
  simp only [fileErase, if_neg h] at hr
  split at hr
  · cases hr
    simp
  split at hr
  · split at hr
    · cases hr
      simp
    split at hr
    · cases hr
      simp
    split at hr
    · contradiction
    · cases hr
      simp
    · cases hr
      simp
  · cases hr
    simp

theorem visit_code (fuel : ℕ) (io : FolderIo) (opts : FolderEraseOptions) (initialDev levels : ℕ)
    (chain : List Text) (path : Text) (s s' : FolderState) (code : ErasecureError)
    (h : folderEraseRecursive fuel io opts initialDev levels chain path s = some (s', code)) :
    code ∈ [ErasecureError.ok, .generic, .cycleDetected] := by
  cases levels with
  | zero =>
    cases h
    simp
  | succ levels =>
    rw [folderEraseRecursive] at h
    split at h
    · cases h
      simp
    split_ifs at h
    · cases h
      simp
    · cases h
      simp
    · cases h
      simp
    · cases h
      simp
    · obtain ⟨s₂, _, h⟩ := Option.map_eq_some_iff.mp h
      cases h
      simp

theorem unguarded_folder (fuel : ℕ) (tree : FileTree) (io : FolderIo) (path : Text)
    (opts : FolderEraseOptions) (run : FolderRun) (h : ¬ Guarded path)
    (hr : folderErase fuel tree io path opts = some run) :
    run.result.resultCode ≠ .dangerousPath := by
  rw [← folderGuard_iff] at h
  simp only [folderErase, if_neg h] at hr
  split at hr
  · cases hr
    simp
  split_ifs at hr
  · cases hr
    simp
  · obtain ⟨⟨s', code⟩, hv, hr⟩ := Option.map_eq_some_iff.mp hr
    have hcode := visit_code fuel io opts _ _ _ _ _ s' code hv
    cases hr
    intro hc
    dsimp only at hc
    rw [hc] at hcode
    simp at hcode

/-- A protected path is rejected exactly when it is spelled with one of the three
prefixes; otherwise no run rejects it. -/
theorem protected_rejected (path : Text) :
    ((Protected path → FileRejected path ∧ FolderRejected path) ↔
      (Protected path → Guarded path)) ∧
    (¬ Guarded path →
      (∀ fuel fs io opts run, fileErase fuel fs io path opts = some run →
        run.result.resultCode ≠ .dangerousPath) ∧
      ∀ fuel tree io opts run, folderErase fuel tree io path opts = some run →
        run.result.resultCode ≠ .dangerousPath) := by
  refine ⟨⟨fun hall hp => ?_, fun hall hp => ?_⟩, fun hg => ⟨?_, ?_⟩⟩
  · by_contra hg
    obtain ⟨result, hcode, hsame⟩ := (hall hp).1
    exact unguarded_file 0 (soleObject [] .other) .calm path fileEraseOptionsInit _ hg
      (hsame 0 (soleObject [] .other) .calm fileEraseOptionsInit) hcode
  · exact ⟨guarded_file path (hall hp), guarded_folder path (hall hp)⟩
  · exact fun fuel fs io opts run => unguarded_file fuel fs io path opts run hg
  · exact fun fuel tree io opts run => unguarded_folder fuel tree io path opts run hg

def accounts : FileSystem := soleObject "/etc/passwd".toList (.regular [114, 111, 111, 116])

/-- `/etc` and every other spelling of it get through both guards, and a file
below it is overwritten and removed. -/
theorem etc_accepted :
    (Protected "/etc".toList ∧ Protected "//etc/./".toList ∧ Protected "/".toList ∧
      Protected "/etc/passwd".toList) ∧
    (¬ FileRejected "/etc".toList ∧ ¬ FolderRejected "/etc".toList) ∧
    (fileErase 1 accounts .calm "/etc/passwd".toList fileEraseOptionsInit).any (fun run =>
      decide (run.result.resultCode = .ok) && run.result.fileRemoved &&
        run.events.any FileEvent.isWrite) = true := by
  refine ⟨by decide, ⟨?_, ?_⟩, by decide⟩
  · rintro ⟨result, hcode, hsame⟩
    exact unguarded_file 0 accounts .calm _ fileEraseOptionsInit _
      (by rw [← fileGuard_iff]; decide)
      (hsame 0 accounts .calm fileEraseOptionsInit) hcode
  · rintro ⟨result, hcode, hsame⟩
    exact unguarded_folder 0 _ _ _ folderEraseOptionsInit _
      (by rw [← folderGuard_iff]; decide)
      (hsame 0 ⟨0, 0, fun _ => .other, fun _ => .ofEntries [], id, id, fun _ => []⟩ .calm
        folderEraseOptionsInit) hcode

end EraseCure.DangerousPaths
