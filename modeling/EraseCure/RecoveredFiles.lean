import EraseCure.CarveStates
import EraseCure.Manifests
import EraseCure.PathNames

/-!
# Recovered files

A recovered file is written below its category, under its identifier and its
extension. The path is printed into an array of the caller, and the file that is
opened is the one that fits in it. Files with different identifiers do not meet
when their paths fit.
-/

set_option autoImplicit false

namespace EraseCure.RecoveredFiles
open EraseCure.CText EraseCure.ErrorCodes EraseCure.FileSystems EraseCure.PathNames
open EraseCure.Manifests EraseCure.CarveStates

/-- How a file is written, and how many of its bytes get into it. What `fclose`
returns is not looked at. -/
inductive OutputIo where
  | openFailed
  | writeFailed (kept : ℕ)
  | written (kept : ℕ)

structure OutputFile where
  category : Text
  ext : Text
  data : Bytes
  metadata : RecoveredFileMetadata
  io : OutputIo

def OutputFile.leaves (file : OutputFile) : Option Bytes :=
  match file.io with
  | .openFailed => none
  | .writeFailed kept | .written kept => some (file.data.take kept)

section Outputs
variable (cap : ℕ) (hcap : 0 < cap) (baseDir : Text)

def outputPath (file : OutputFile) : Text :=
  child (child baseDir file.category) (file.metadata.uuid.chars++ '.'::file.ext)

/-- What is printed into the array of the caller. -/
def pathOut (file : OutputFile) : CString cap := printed cap hcap (outputPath baseDir file)

def recoveryOutputWriteFile (files : Text → Option Bytes) (file : OutputFile) :
    ErasecureError × CString cap × (Text → Option Bytes) :=
  let path := pathOut cap hcap baseDir file
  match file.io with
  | .openFailed => (.io, path, files)
  | .writeFailed kept =>
    (if 0 < file.data.length then .io else .ok, path,
      Function.update files path.chars (some (file.data.take kept)))
  | .written kept =>
    (.ok, path, Function.update files path.chars (some (file.data.take kept)))

def outputFiles : (Text → Option Bytes) → List OutputFile →
    List (ErasecureError × CString cap) × (Text → Option Bytes)
  | files, [] => ([], files)
  | files, file::rest =>
    let out := recoveryOutputWriteFile cap hcap baseDir files file
    let later := outputFiles out.2.2 rest
    ((out.1, out.2.1)::later.1, later.2)

def leavesAt (path : Text) (file : OutputFile) : Option Bytes :=
  if (pathOut cap hcap baseDir file).chars = path then file.leaves else none

theorem write_path (files : Text → Option Bytes) (file : OutputFile) :
    (recoveryOutputWriteFile cap hcap baseDir files file).2.1 =
      pathOut cap hcap baseDir file := by
  rw [recoveryOutputWriteFile]
  split
  · rfl
  · rfl
  · rfl

theorem write_files (files : Text → Option Bytes) (file : OutputFile) (path : Text) :
    (recoveryOutputWriteFile cap hcap baseDir files file).2.2 path =
      (leavesAt cap hcap baseDir path file).or (files path) := by
  have hupdate : ∀ kept, Function.update files (pathOut cap hcap baseDir file).chars
      (some (file.data.take kept)) path =
      (if (pathOut cap hcap baseDir file).chars = path then some (file.data.take kept)
        else none).or (files path) := by
    intro kept
    by_cases hpath : (pathOut cap hcap baseDir file).chars = path
    · rw [if_pos hpath, ← hpath, Function.update_self]
      rfl
    · rw [if_neg hpath, Function.update_of_ne (Ne.symm hpath)]
      rfl
  rw [recoveryOutputWriteFile, leavesAt, OutputFile.leaves]
  cases file.io with
  | openFailed =>
    rw [ite_self]
    rfl
  | writeFailed kept | written kept => exact hupdate kept

/-- A path holds at the end what the last call that opened it left. -/
theorem output_last (files : Text → Option Bytes) (list : List OutputFile) (path : Text) :
    (outputFiles cap hcap baseDir files list).2 path =
      (list.filterMap (leavesAt cap hcap baseDir path)).getLast?.or (files path) := by
  induction list generalizing files with
  | nil => rfl
  | cons file rest ih =>
    rw [outputFiles]
    dsimp only
    rw [ih, write_files, List.filterMap_cons]
    cases leavesAt cap hcap baseDir path file with
    | none => rfl
    | some content =>
      rw [List.getLast?_cons]
      cases (rest.filterMap (leavesAt cap hcap baseDir path)).getLast? with
      | none => rfl
      | some later => rfl

structure Named (file : OutputFile) : Prop where
  uuid : ∃ random, generateUuid random = .ok file.metadata.uuid
  ext : '/' ∉ file.ext
  text : nul ∉ outputPath baseDir file
  fits : (outputPath baseDir file).length < cap

theorem hexBytes_plain (bytes : Bytes) (i n : ℕ) (c : Char) (hc : c = '/' ∨ c = '.') :
    c ∉ hexBytes bytes i n := by
  have hdigit : ∀ d < 16, c ≠ Nat.digitChar d := by rcases hc with rfl | rfl <;> decide
  intro hmem
  obtain ⟨b, _, hb⟩ := List.mem_flatMap.mp hmem
  rcases List.mem_pair.mp hb with hhigh | hlow
  · exact hdigit (b.toNat/16) (by have := b.toNat_lt; omega) hhigh
  · exact hdigit (b.toNat%16) (by omega) hlow

theorem generated_plain (random : Option (Vector UInt8 16)) (uuid : CString 37)
    (h : generateUuid random = .ok uuid) (c : Char) (hc : c = '/' ∨ c = '.') :
    c ∉ uuid.chars := by
  cases random with
  | none => contradiction
  | some random =>
    obtain rfl := Except.ok.inj h
    intro hmem
    have htext : c ∈ uuidText (uuidBytes random) :=
      (List.takeWhile_prefix _).subset (List.mem_of_mem_take hmem)
    have hdash : c ≠ '-' := by rcases hc with rfl | rfl <;> decide
    simp [uuidText, hexBytes_plain _ _ _ c hc, hdash] at htext

theorem named_plain (file : OutputFile) (h : Named cap baseDir file) (c : Char)
    (hc : c = '/' ∨ c = '.') : c ∉ file.metadata.uuid.chars := by
  obtain ⟨random, hrandom⟩ := h.uuid
  exact generated_plain random _ hrandom c hc

theorem named_path (file : OutputFile) (h : Named cap baseDir file) :
    (pathOut cap hcap baseDir file).chars = outputPath baseDir file :=
  printed_chars cap hcap _ h.text h.fits

theorem before_separator (c : Char) (s s' t t' : Text) (hs : c ∉ s) (hs' : c ∉ s')
    (h : s++c::t = s'++c::t') : s = s' := by
  have hcut : ∀ u v : Text, c ∉ u → (u++c::v).takeWhile (· ≠ c) = u := by
    intro u v hu
    rw [List.takeWhile_append_of_pos fun x hx => by
      simpa using fun hxc : x = c => hu (hxc ▸ hx)]
    simp
  rw [← hcut s t hs, h, hcut s' t' hs']

theorem named_uuid (file file' : OutputFile) (h : Named cap baseDir file)
    (h' : Named cap baseDir file')
    (heq : (pathOut cap hcap baseDir file).chars = (pathOut cap hcap baseDir file').chars) :
    file.metadata.uuid = file'.metadata.uuid := by
  have hname : ∀ f, Named cap baseDir f → '/' ∉ f.metadata.uuid.chars++ '.'::f.ext := by
    intro f hf
    simp [named_plain cap baseDir f hf '/' (Or.inl rfl), hf.ext]
  rw [named_path cap hcap baseDir file h, named_path cap hcap baseDir file' h'] at heq
  have hcomponents := congrArg components heq
  rw [outputPath, outputPath, components_child _ _ (hname file h),
    components_child _ _ (hname file' h')] at hcomponents
  have hlast := (List.append_inj' hcomponents rfl).2
  exact CString.ext (before_separator '.' _ _ _ _ (named_plain cap baseDir file h '.' (Or.inr rfl))
    (named_plain cap baseDir file' h' '.' (Or.inr rfl)) (List.singleton_inj.mp hlast))

/-- Files with generated identifiers that differ, and with paths that fit: one that was
reported as written is at the end under the path that was given back, as its own call
left it. -/
theorem outputs_kept (files : Text → Option Bytes) (list : List OutputFile)
    (hnamed : ∀ file ∈ list, Named cap baseDir file)
    (hdistinct : list.Pairwise fun f g => f.metadata.uuid ≠ g.metadata.uuid) :
    List.Forall₂ (fun file answer => answer.1 = .ok →
      answer.2.chars = outputPath baseDir file ∧
      (outputFiles cap hcap baseDir files list).2 answer.2.chars = file.leaves)
      list (outputFiles cap hcap baseDir files list).1 := by
  induction list generalizing files with
  | nil => exact List.Forall₂.nil
  | cons file rest ih =>
    obtain ⟨hfirst, hrest⟩ := List.pairwise_cons.mp hdistinct
    have hfile := hnamed file List.mem_cons_self
    have htail := fun f hf => hnamed f (List.mem_cons_of_mem file hf)
    rw [outputFiles]
    refine List.Forall₂.cons (fun hok => ?_) (ih _ htail hrest)
    have hnone : rest.filterMap (leavesAt cap hcap baseDir
        (pathOut cap hcap baseDir file).chars) = [] := by
      refine List.filterMap_eq_nil_iff.mpr fun f hf => if_neg fun heq => ?_
      exact hfirst f hf (named_uuid cap hcap baseDir f file (htail f hf) hfile heq).symm
    dsimp only at hok ⊢
    rw [write_path]
    refine ⟨named_path cap hcap baseDir file hfile, ?_⟩
    rw [output_last, hnone, write_files, leavesAt, if_pos rfl]
    cases hio : file.io with
    | openFailed =>
      rw [recoveryOutputWriteFile, hio] at hok
      contradiction
    | writeFailed kept | written kept =>
      rw [OutputFile.leaves, hio]
      rfl

end Outputs

def recovered (random : UInt8) : OutputFile where
  category := "VALIDATED".toList
  ext := "jpg".toList
  data := [random]
  metadata := ⟨printed37 (uuidText (uuidBytes (Vector.replicate 16 random))), printed32 [], 0,
    printed65 [], 0, 0, 0, printed512 []⟩
  io := .written 1

theorem recovered_named (random : UInt8) (h : random = 0 ∨ random = 1) :
    Named 64 "out".toList (recovered random) where
  uuid := ⟨some (Vector.replicate 16 random), rfl⟩
  ext := by rcases h with rfl | rfl <;> decide
  text := by rcases h with rfl | rfl <;> decide
  fits := by rcases h with rfl | rfl <;> decide

theorem outputs_kept_two :
    List.Forall₂ (fun file answer => answer.1 = .ok →
      answer.2.chars = outputPath "out".toList file ∧
      (outputFiles 64 (by decide) "out".toList (fun _ => none)
        [recovered 0, recovered 1]).2 answer.2.chars = file.leaves)
      [recovered 0, recovered 1]
      (outputFiles 64 (by decide) "out".toList (fun _ => none)
        [recovered 0, recovered 1]).1 :=
  outputs_kept 64 (by decide) "out".toList (fun _ => none) [recovered 0, recovered 1]
    (List.forall_mem_cons.mpr ⟨recovered_named 0 (Or.inl rfl),
      List.forall_mem_singleton.mpr (recovered_named 1 (Or.inr rfl))⟩)
    (List.pairwise_pair.mpr (by decide))

/-- In a small array both paths end in the identifier, and the second file replaces the
first. -/
example : (outputFiles 16 (by decide) "out".toList (fun _ => none)
    [recovered 0, recovered 1]).1.map (·.1) = [.ok, .ok] ∧
    (outputFiles 16 (by decide) "out".toList (fun _ => none)
      [recovered 0, recovered 1]).2 "out/VALIDATED/0".toList = some [1] := by
  decide

end EraseCure.RecoveredFiles
