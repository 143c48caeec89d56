import EraseCure.FileCalls
import EraseCure.FolderOutcomes

/-!
# Erasing a list of files

A batch erases its files one after the other and looks at no result. What one of
its calls reports holds at the end of the batch, whatever the calls after it did
to other names of the same file. A name that was removed is gone under every path
that leads to it.
-/

set_option autoImplicit false

namespace EraseCure.BatchErases
open EraseCure.CText EraseCure.Devices EraseCure.ErrorCodes EraseCure.FileSystems
open EraseCure.ErasePasses EraseCure.PathNames EraseCure.FileEraser EraseCure.FileTrees
open EraseCure.FileCalls EraseCure.FolderVisits EraseCure.FolderOutcomes
open EraseCure.FileTrees.FileTree

structure BatchFile where
  path : Text
  io : FileEraseIo

structure BatchRun where
  code : ErasecureError
  tree : FileTree
  results : List FileEraseResult

def eraseFiles (fuel : ℕ) (opts : FileEraseOptions) :
    FileTree → List BatchFile → Option (FileTree × List FileEraseResult)
  | t, [] => some (t, [])
  | t, file::rest =>
    match fileErase fuel t.files file.io file.path opts with
    | none => none
    | some run =>
      (eraseFiles fuel opts (afterCall t file.path run) rest).map
        fun out => (out.1, run.result::out.2)

/-- `file_erase_batch`. It succeeds whatever its calls return. -/
def fileEraseBatch (fuel : ℕ) (opts : FileEraseOptions) (t : FileTree)
    (files : List BatchFile) : Option BatchRun :=
  (eraseFiles fuel opts t files).map fun out => ⟨.ok, out.1, out.2⟩

section Calls
variable (fuel : ℕ) (t : FileTree) (io : FileEraseIo) (path : Text) (opts : FileEraseOptions)
  (run : FileEraseRun) (h : fileErase fuel t.files io path opts = some run)

/-- A path that names a file of the first tree names a file of its length that
holds the byte everywhere in the second. -/
def ErasedTo (t t' : FileTree) (path : Text) (b : UInt8) : Prop :=
  ∃ n content new, t.lstat path = some n ∧ t.object n = .regular content ∧
    t'.object n = .regular new ∧ AllByte content.length b new

include h

theorem call_erased (b : UInt8) (hb : b ∈ patternByte opts.pattern) (hpos : 0 < opts.passes)
    (hok : run.result.resultCode = .ok) : ErasedTo t (afterCall t path run) path b := by
  rcases fileErase_cases fuel t.files io path opts run h with
    ⟨_, hrefused⟩ | ⟨node, content, s, done, hstarted, _, _⟩
  · exact absurd hok hrefused.fails
  · obtain ⟨new, hobject, _, hbyte⟩ := fileErase_outcome io fuel t.files path opts run node content
      hstarted.resolved hstarted.regular h
    refine ⟨node, content, new, hstarted.resolved, hstarted.regular, ?_,
      hbyte b hb (Or.inl ⟨hok, hpos⟩)⟩
    rw [call_object, hobject, Function.update_self]

theorem call_missing (hnone : t.lstat path = none) : run.result.resultCode ≠ .ok := by
  rcases fileErase_cases fuel t.files io path opts run h with
    ⟨_, hrefused⟩ | ⟨node, content, s, done, hstarted, _, _⟩
  · exact hrefused.fails
  · rw [show t.lstat path = some node from hstarted.resolved] at hnone
    contradiction

end Calls

/-- What erasures keep: names are only taken away, regular files keep their lengths
and the byte of the pattern where they hold it everywhere, and nothing else is
written. -/
structure Narrowed (opts : FileEraseOptions) (t t' : FileTree) : Prop where
  shrunk : Shrunk t t'
  files : ∀ n content, t.object n = .regular content → ∃ new, t'.object n = .regular new ∧
    new.length = content.length ∧
    ∀ b ∈ patternByte opts.pattern, AllByte content.length b content →
      AllByte content.length b new
  special : ∀ n, t.kind n ≠ .regular → t'.object n = t.object n

section Narrowing
variable (opts : FileEraseOptions)

theorem narrowed_refl (t : FileTree) : Narrowed opts t t where
  shrunk := shrunk_refl t
  files := fun _ content h => ⟨content, h, rfl, fun _ _ hb => hb⟩
  special := fun _ _ => rfl

theorem narrowed_trans (t₁ t₂ t₃ : FileTree) (h₁₂ : Narrowed opts t₁ t₂)
    (h₂₃ : Narrowed opts t₂ t₃) : Narrowed opts t₁ t₃ where
  shrunk := shrunk_trans _ _ _ h₁₂.shrunk h₂₃.shrunk
  files := fun n content h => by
    obtain ⟨mid, hmid, hlen, hbyte⟩ := h₁₂.files n content h
    obtain ⟨new, hnew, hlen', hbyte'⟩ := h₂₃.files n mid hmid
    rw [hlen] at hlen' hbyte'
    exact ⟨new, hnew, hlen', fun b hb hall => hbyte' b hb (hbyte b hb hall)⟩
  special := fun n h => by
    rw [h₂₃.special n (h₁₂.shrunk.kind n ▸ h), h₁₂.special n h]

theorem call_narrowed (fuel : ℕ) (t : FileTree) (io : FileEraseIo) (path : Text)
    (run : FileEraseRun) (h : fileErase fuel t.files io path opts = some run) :
    Narrowed opts t (afterCall t path run) where
  shrunk := call_shrunk fuel t io path opts run h
  files := fun n content hobj => by
    rw [call_object]
    by_cases hn : t.lstat path = some n
    · obtain ⟨new, hobject, hlen, hbyte⟩ :=
        fileErase_outcome io fuel t.files path opts run n content hn hobj h
      refine ⟨new, ?_, hlen, fun b hb hall => hbyte b hb (Or.inr hall)⟩
      rw [hobject, Function.update_self]
    · have hsame := (call_writes fuel t io path opts run h n).resolve_right fun hr => hn hr.1
      exact ⟨content, hsame.trans hobj, rfl, fun _ _ hall => hall⟩
  special := fun n hspecial => by
    rw [call_object]
    refine (call_writes fuel t io path opts run h n).resolve_right ?_
    rintro ⟨_, content, hobj⟩
    rw [FileTree.kind, hobj] at hspecial
    exact hspecial rfl

/-- What was erased stays erased, and a path that is erased later was there before. -/
theorem erasedTo_narrowed (t t₁ t' : FileTree) (path : Text) (b : UInt8)
    (hb : b ∈ patternByte opts.pattern) (hafter : Narrowed opts t₁ t')
    (h : ErasedTo t t₁ path b) : ErasedTo t t' path b := by
  obtain ⟨n, content, new, hn, hobj, hnew, hall⟩ := h
  obtain ⟨final, hfinal, hlen, hbyte⟩ := hafter.files n new hnew
  rw [hall.1] at hlen hbyte
  exact ⟨n, content, final, hn, hobj, hfinal, hbyte b hb hall⟩

theorem narrowed_erasedTo (t t₁ t' : FileTree) (path : Text) (b : UInt8)
    (hbefore : Narrowed opts t t₁) (h : ErasedTo t₁ t' path b) : ErasedTo t t' path b := by
  obtain ⟨n, content, new, hn, hobj, hnew, hall⟩ := h
  have hkind : t.kind n = .regular := by
    rw [← hbefore.shrunk.kind, FileTree.kind, hobj]
    rfl
  obtain ⟨old, hold⟩ := regular_object t n hkind
  obtain ⟨mid, hmid, hlen, _⟩ := hbefore.files n old hold
  obtain rfl : mid = content := Object.regular.inj (hmid.symm.trans hobj)
  rw [hlen] at hall
  exact ⟨n, old, new, lstat_shrunk _ _ hbefore.shrunk path n hn, hold, hnew, hall⟩

end Narrowing

/-- What a batch comes to. Files that were reported as erased hold the byte of the
pattern, and no other object is written. A path names nothing any more when it led to
a name that was reported as removed, and else what it named before, and after such a
report nothing is erased under that name. -/
structure BatchOutcome (opts : FileEraseOptions) (t : FileTree) (files : List BatchFile)
    (run : BatchRun) : Prop where
  code : run.code = .ok
  erased : 0 < opts.passes → ∀ b ∈ patternByte opts.pattern, List.Forall₂
    (fun file result => result.resultCode = .ok → ErasedTo t run.tree file.path b) files run.results
  untouched : ∀ n, (∀ file ∈ files, t.lstat file.path ≠ some n) →
    run.tree.object n = t.object n
  special : ∀ n, t.kind n ≠ .regular → run.tree.object n = t.object n
  removed : ∀ x ∈ files.zip run.results, x.2.fileRemoved = true →
    ∀ path, t.locate path = t.locate x.1.path → run.tree.lstat path = none
  kept : ∀ path, (∀ x ∈ files.zip run.results, x.2.fileRemoved = true →
    t.locate path ≠ t.locate x.1.path) → run.tree.lstat path = t.lstat path
  once : (files.zip run.results).Pairwise fun x y => x.2.fileRemoved = true →
    t.locate y.1.path = t.locate x.1.path → y.2.resultCode ≠ .ok

section Batches
variable (fuel : ℕ) (opts : FileEraseOptions) (t' : FileTree)

theorem eraseFiles_rule (P : FileTree → List BatchFile → List FileEraseResult → Prop)
    (hend : P t' [] [])
    (hcall : ∀ t file rest run results, fileErase fuel t.files file.io file.path opts = some run →
      eraseFiles fuel opts (afterCall t file.path run) rest = some (t', results) →
      P (afterCall t file.path run) rest results → P t (file::rest) (run.result::results))
    (files : List BatchFile) (t : FileTree) (results : List FileEraseResult)
    (h : eraseFiles fuel opts t files = some (t', results)) : P t files results := by
  induction files generalizing t results with
  | nil =>
    obtain ⟨rfl, rfl⟩ := Prod.mk.inj (Option.some.inj h)
    exact hend
  | cons file rest ih =>
    rw [eraseFiles] at h
    cases hrun : fileErase fuel t.files file.io file.path opts with
    | none =>
      rw [hrun] at h
      contradiction
    | some run =>
      rw [hrun] at h
      obtain ⟨⟨last, later⟩, hrest, hout⟩ := Option.map_eq_some_iff.mp h
      obtain ⟨rfl, rfl⟩ := Prod.mk.inj hout
      exact hcall t file rest run later hrun hrest (ih _ later hrest)

variable (files : List BatchFile) (t : FileTree) (results : List FileEraseResult)
  (h : eraseFiles fuel opts t files = some (t', results))
include h

theorem eraseFiles_narrowed : Narrowed opts t t' := by
  refine eraseFiles_rule fuel opts t' (fun t _ _ => Narrowed opts t t') ?_ ?_ files t results h
  · exact narrowed_refl opts t'
  · intro t file rest run results hrun _ ih
    exact narrowed_trans opts _ _ _ (call_narrowed opts fuel t file.io file.path run hrun) ih

theorem eraseFiles_erased (hpos : 0 < opts.passes) (b : UInt8)
    (hb : b ∈ patternByte opts.pattern) : List.Forall₂ (fun file result =>
      result.resultCode = .ok → ErasedTo t t' file.path b) files results := by
  refine eraseFiles_rule fuel opts t' (fun t files results => List.Forall₂ (fun file result =>
    result.resultCode = .ok → ErasedTo t t' file.path b) files results) ?_ ?_ files t results h
  · exact List.Forall₂.nil
  · intro t file rest run results hrun hrest ih
    have hbefore := call_narrowed opts fuel t file.io file.path run hrun
    have hafter := eraseFiles_narrowed fuel opts t' rest _ results hrest
    refine List.Forall₂.cons (fun hok => ?_) (ih.imp fun file' result h' hok => ?_)
    · exact erasedTo_narrowed opts t _ t' file.path b hb hafter
        (call_erased fuel t file.io file.path opts run hrun b hb hpos hok)
    · exact narrowed_erasedTo opts t _ t' file'.path b hbefore (h' hok)

theorem eraseFiles_untouched (n : ℕ) (hn : ∀ file ∈ files, t.lstat file.path ≠ some n) :
    t'.object n = t.object n := by
  refine eraseFiles_rule fuel opts t' (fun t files _ =>
    (∀ file ∈ files, t.lstat file.path ≠ some n) → t'.object n = t.object n)
    ?_ ?_ files t results h hn
  · exact fun _ => rfl
  · intro t file rest run results hrun _ ih hn
    have hobject := call_writes fuel t file.io file.path opts run hrun n
    rw [← hobject.resolve_right fun hr => hn file List.mem_cons_self hr.1,
      ← call_object t file.path]
    have hshrunk := call_shrunk fuel t file.io file.path opts run hrun
    exact ih fun other hother hname => hn other (List.mem_cons_of_mem file hother)
      (lstat_shrunk _ _ hshrunk other.path n hname)

theorem eraseFiles_missing (path : Text) (hnone : t.lstat path = none) :
    ∀ x ∈ files.zip results, x.1.path = path → x.2.resultCode ≠ .ok := by
  refine eraseFiles_rule fuel opts t' (fun t files results => t.lstat path = none →
    ∀ x ∈ files.zip results, x.1.path = path → x.2.resultCode ≠ .ok) ?_ ?_ files t results h hnone
  · intro _ x hx
    contradiction
  · intro t file rest run results hrun _ ih hnone x hx hpath
    rcases List.mem_cons.mp hx with rfl | hx
    · exact call_missing fuel t file.io file.path opts run hrun (hpath ▸ hnone)
    · refine ih (Option.eq_none_iff_forall_ne_some.mpr fun n hn => ?_) x hx hpath
      rw [lstat_shrunk _ _ (call_shrunk fuel t file.io file.path opts run hrun) path n hn] at hnone
      contradiction

/-- What the removals of a list leave of the paths, by where these led in a tree from
which only names have been taken away since. -/
theorem eraseFiles_names (t₀ : FileTree) (hbefore : Shrunk t₀ t) :
    ((∀ n, t₀.kind (t₀.parent n) = .directory) →
      (∀ x ∈ files.zip results, x.2.fileRemoved = true → ∀ path,
        t₀.locate path = t₀.locate x.1.path → t'.lstat path = none) ∧
      (files.zip results).Pairwise fun x y => x.2.fileRemoved = true →
        t₀.locate y.1.path = t₀.locate x.1.path → y.2.resultCode ≠ .ok) ∧
    ∀ path, (∀ x ∈ files.zip results, x.2.fileRemoved = true →
      t₀.locate path ≠ t₀.locate x.1.path) → t'.lstat path = t.lstat path := by
  refine eraseFiles_rule fuel opts t' (fun t files results => Shrunk t₀ t →
    ((∀ n, t₀.kind (t₀.parent n) = .directory) →
      (∀ x ∈ files.zip results, x.2.fileRemoved = true → ∀ path,
        t₀.locate path = t₀.locate x.1.path → t'.lstat path = none) ∧
      (files.zip results).Pairwise fun x y => x.2.fileRemoved = true →
        t₀.locate y.1.path = t₀.locate x.1.path → y.2.resultCode ≠ .ok) ∧
    ∀ path, (∀ x ∈ files.zip results, x.2.fileRemoved = true →
      t₀.locate path ≠ t₀.locate x.1.path) → t'.lstat path = t.lstat path)
    ?_ ?_ files t results h hbefore
  · exact fun _ => ⟨fun _ => ⟨fun _ hx => absurd hx List.not_mem_nil, List.Pairwise.nil⟩,
      fun _ _ => rfl⟩
  · intro t file rest run results hrun hrest ih hbefore
    have hcall := call_shrunk fuel t file.io file.path opts run hrun
    have hlater := (eraseFiles_narrowed fuel opts t' rest _ results hrest).shrunk
    obtain ⟨hgone, hkept⟩ := ih (shrunk_trans _ _ _ hbefore hcall)
    refine ⟨fun hdots => ?_, fun path hpath => ?_⟩
    · have hfirst := call_gone fuel t file.io file.path opts run hrun t₀ hbefore hdots
      obtain ⟨hremoved, honce⟩ := hgone hdots
      refine ⟨fun x hx hxremoved path hsame => ?_, List.pairwise_cons.mpr
        ⟨fun y hy hxremoved hsame => ?_, honce⟩⟩
      · rcases List.mem_cons.mp hx with rfl | hx
        · refine Option.eq_none_iff_forall_ne_some.mpr fun n hn => ?_
          have hstill := lstat_shrunk _ _ hlater path n hn
          rw [hfirst hxremoved path hsame] at hstill
          contradiction
        · exact hremoved x hx hxremoved path hsame
      · exact eraseFiles_missing fuel opts t' rest _ results hrest y.1.path
          (hfirst hxremoved y.1.path hsame) y hy rfl
    · rw [hkept path fun x hx => hpath x (List.mem_cons_of_mem _ hx)]
      apply call_kept fuel t file.io file.path opts run hrun
      intro hremoved hsame
      obtain ⟨k, name, _, hlocate, _⟩ :=
        call_located fuel t file.io file.path opts run hrun hremoved
      refine hpath (file, run.result) List.mem_cons_self hremoved ?_
      rw [locate_shrunk _ _ hbefore path _ (hsame.trans hlocate),
        locate_shrunk _ _ hbefore file.path _ hlocate]

end Batches

/-- The code of a batch says nothing, and each of its results says what holds at its end. -/
theorem batch_outcome (fuel : ℕ) (opts : FileEraseOptions) (t : FileTree)
    (files : List BatchFile) (run : BatchRun) (hdots : ∀ n, t.kind (t.parent n) = .directory)
    (h : fileEraseBatch fuel opts t files = some run) : BatchOutcome opts t files run := by
  obtain ⟨⟨t', results⟩, hout, rfl⟩ := Option.map_eq_some_iff.mp h
  obtain ⟨hgone, hkept⟩ :=
    eraseFiles_names fuel opts t' files t results hout t (shrunk_refl t)
  exact ⟨rfl,
    fun hpos b hb => eraseFiles_erased fuel opts t' files t results hout hpos b hb,
    eraseFiles_untouched fuel opts t' files t results hout,
    (eraseFiles_narrowed fuel opts t' files t results hout).special,
    (hgone hdots).1, hkept, (hgone hdots).2⟩

def linkedTree : FileTree where
  root := 0
  cwd := 0
  object
    | 0 => .directory 4096
    | 1 => .regular [0x41, 0x42]
    | _ => .regular [0x43]
  directory n := .ofEntries (match n with
    | 0 => [(['a'], 1), (['b'], 1), (['c'], 2)]
    | _ => [])
  parent _ := 0
  device _ := 0
  target _ := []

def linkedBatch : List BatchFile :=
  [⟨['a'], FileEraseIo.calm⟩, ⟨['b'], { FileEraseIo.calm with write := fun _ _ => none }⟩,
    ⟨['.', '/', 'a'], FileEraseIo.calm⟩]

def zerosRemoved : FileEraseOptions := ⟨.zero, 1, false, true, false⟩

theorem batch_outcome_linked : ∃ run,
    fileEraseBatch 1 zerosRemoved linkedTree linkedBatch = some run ∧
    BatchOutcome zerosRemoved linkedTree linkedBatch run := by
  have hsome : (fileEraseBatch 1 zerosRemoved linkedTree linkedBatch).isSome = true := by
    decide
  obtain ⟨run, hrun⟩ := Option.isSome_iff_exists.mp hsome
  exact ⟨run, hrun, batch_outcome 1 zerosRemoved linkedTree linkedBatch run (fun _ => rfl) hrun⟩

end EraseCure.BatchErases
