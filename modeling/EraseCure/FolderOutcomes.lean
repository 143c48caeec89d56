import EraseCure.FilePasses
import EraseCure.FolderVisits

/-!
# What a folder erasure leaves of the files

The counts of a run are those of its calls, whatever fails. A file that was not
given to the file eraser keeps every byte, none changes its length, and one that
the eraser reported as erased holds pattern bytes at the end, even where a later
call under another of its names failed halfway.
-/

set_option autoImplicit false

namespace EraseCure.FolderOutcomes
open EraseCure.CText EraseCure.Devices EraseCure.ErrorCodes EraseCure.FileSystems
open EraseCure.ByteRanges EraseCure.ErasePasses EraseCure.FileVerify EraseCure.FileEraser
open EraseCure.FileOverwrites EraseCure.FilePasses EraseCure.PathNames EraseCure.FileTrees
open EraseCure.FolderEraser EraseCure.FolderVisits
open EraseCure.FileTrees.FileTree

section File
variable (io : FileEraseIo) (pattern : ErasePattern) (size : ℕ) (b : UInt8)

def AllByte (content : Bytes) : Prop := content.length = size ∧ ∀ i < size, content[i]? = some b

/-- A pass with a constant pattern keeps what holds its byte already, wherever
it stops. -/
theorem chunksRun_keeps (pass last : ℕ) (s s' : FileEraseState) (done : Bool)
    (ws : List FileWrite) (hb : patternByte pattern = some b)
    (h : ChunksRun io pattern size pass 0 last s s' done ws) (hs : AllByte size b s.content) :
    AllByte size b s'.content := by
  have hstops : ∀ w ∈ ws.map FileWrite.piece, w.stop ≤ s.content.length := by
    intro w hw
    rw [hs.1]
    exact ((tiles_within _ _ _ h.tiled).2 w hw).trans (position_le io size pass last)
  rw [AllByte, h.replayed, replay_length _ _ hstops]
  refine ⟨hs.1, fun i hi => replay_covered _ _ b i ?_ (Or.inl (hs.2 i hi))⟩
  intro w hw
  obtain ⟨write, hwrite, rfl⟩ := List.mem_map.mp hw
  exact ⟨hstops _ hw, h.filled write hwrite b hb⟩

theorem passes_keep (fuel : ℕ) (passes : List ℕ) (s s' : FileEraseState) (done : Bool)
    (hb : patternByte pattern = some b) (hbuf : s.buffer.length = chunkSize)
    (hbytes : s.bytesWritten < 2^64) (hs : AllByte size b s.content)
    (h : fileErasePasses io pattern size fuel passes s = some (s', done)) :
    AllByte size b s'.content := by
  induction passes generalizing s with
  | nil =>
    obtain ⟨rfl, rfl⟩ := Prod.mk.inj (Option.some.inj h)
    exact hs
  | cons pass rest ih =>
    rw [fileErasePasses] at h
    cases hchunks : fileEraseChunks io pattern size pass fuel 0 size
        { s with buffer := startBuffer pattern s.buffer } with
    | none =>
      rw [hchunks] at h
      contradiction
    | some out =>
      obtain ⟨t, through⟩ := out
      obtain ⟨last, ws, hrun⟩ := fileEraseChunks_run io pattern size pass fuel 0 size
        { s with buffer := startBuffer pattern s.buffer } t through le_rfl
        (Nat.sub_self size).symm (startBuffer_buffered pattern s.buffer hbuf) hbytes hchunks
      have hkeeps := chunksRun_keeps io pattern size b pass last _ t through ws hb hrun hs
      rw [hchunks] at h
      cases through with
      | false =>
        obtain ⟨rfl, rfl⟩ := Prod.mk.inj (Option.some.inj h)
        exact hkeeps
      | true =>
        refine ih { t with passesCompleted := t.passesCompleted+1 } hrun.buffered.1 ?_ hkeeps h
        change t.bytesWritten < 2^64
        rw [hrun.bytes]
        exact Nat.mod_lt _ (by decide)

/-- The object of a file after a call of the eraser: its length stays, and the
byte of a constant pattern is all over it when the call succeeds with a pass or
it was before. -/
theorem fileErase_outcome (fuel : ℕ) (fs : FileSystem) (path : Text) (opts : FileEraseOptions)
    (run : FileEraseRun) (n : ℕ) (content : Bytes) (hn : fs.resolveLink path = some n)
    (hobj : fs.object n = .regular content) (h : fileErase fuel fs io path opts = some run) :
    ∃ new, run.fs.object = Function.update fs.object n (.regular new) ∧
      new.length = content.length ∧
      ∀ b ∈ patternByte opts.pattern,
        (run.result.resultCode = .ok ∧ 0 < opts.passes ∨ AllByte content.length b content) →
        AllByte content.length b new := by
  rcases fileErase_cases fuel fs io path opts run h with ⟨_, hrefused⟩ | hpasses
  · refine ⟨content, ?_, rfl, fun b _ hb => ?_⟩
    · rw [hrefused.fs, ← hobj, Function.update_eq_self]
    · exact hb.resolve_left fun hok => hrefused.fails hok.1
  · obtain ⟨node, content', s, done, hstarted, hrun, hended⟩ := hpasses
    obtain rfl : node = n := Option.some.inj (hstarted.resolved.symm.trans hn)
    obtain rfl : content' = content := Object.regular.inj (hstarted.regular.symm.trans hobj)
    have hbuf : (fileEraseStart io content').buffer.length = chunkSize := by
      rw [fileEraseStart, List.length_map, List.length_range]
    have hrange := hrun
    rw [List.range_eq_range'] at hrange
    obtain ⟨pass, last, hpassed⟩ := fileErasePasses_run io opts.pattern content'.length fuel 0
      opts.passes (fileEraseStart io content') s done hbuf (show 0 < 2^64 by decide) rfl hrange
    have hupdate : run.fs.object = Function.update fs.object node (.regular s.content) := by
      rw [hended.fs]
      have hput : (fs.store node s.content).object =
          Function.update fs.object node (.regular s.content) := by
        rw [FileSystem.store, hobj]
        rfl
      split
      · exact hput
      · exact hput
    refine ⟨s.content, hupdate, hpassed.kept, fun b hb hcase => ?_⟩
    rcases hcase with ⟨hok, hpos⟩ | hall
    · exact ⟨hpassed.kept, hpassed.constant (hended.ok_iff.mp hok) hpos b hb⟩
    · exact passes_keep io opts.pattern content'.length b fuel _ _ s done hb hbuf
        (show 0 < 2^64 by decide) hall hrun

end File

theorem run_invariant (fuel : ℕ) (tree : FileTree) (io : FolderIo) (dirPath : Text)
    (opts : FolderEraseOptions) (run : FolderRun) (I : FolderState → Prop)
    (At Entry : ℕ → List Text → Text → Prop)
    (rule : ∀ initialDev, VisitRule fuel io opts initialDev I At Entry)
    (hat : At (opts.maxDepth+1) [] dirPath) (hstart : I (startState tree dirPath))
    (h : folderErase fuel tree io dirPath opts = some run) :
    ∃ s, I s ∧ run = ⟨s.tree, { s.result with resultCode := run.result.resultCode }, s.events⟩ := by
  rw [folderErase] at h
  dsimp only at h
  split at h
  · obtain rfl := Option.some.inj h
    exact ⟨(startState tree dirPath).message _, (rule 0).message _ _ hstart, rfl⟩
  split at h
  · obtain rfl := Option.some.inj h
    exact ⟨(startState tree dirPath).message _, (rule 0).message _ _ hstart, rfl⟩
  · rename_i n _
    split at h
    · obtain rfl := Option.some.inj h
      exact ⟨(startState tree dirPath).message _, (rule 0).message _ _ hstart, rfl⟩
    · obtain ⟨⟨s, code⟩, hvisit, rfl⟩ := Option.map_eq_some_iff.mp h
      exact ⟨s, visit_invariant fuel io opts (tree.device n) I At Entry (rule _) _ _ _ _ s code hat
        hstart hvisit, rfl⟩

section Counts

def isFile (codes : ErasecureError → Bool) : FolderEvent → Bool
  | .fileErase _ _ code => codes code
  | _ => false

def isRmdir : FolderEvent → Bool
  | .rmdir _ _ => true
  | _ => false

/-- The counts of the result are those of the calls. -/
structure Counted (s : FolderState) : Prop where
  processed : s.result.filesProcessed = s.events.countP (isFile fun _ => true)
  succeeded : s.result.filesSucceeded = s.events.countP (isFile (· = .ok))
  failed : s.result.filesFailed = s.events.countP (isFile (· ≠ .ok))
  removed : s.result.dirsRemoved ≤ s.events.countP isRmdir

theorem counted_split (events : List FolderEvent) :
    events.countP (isFile fun _ => true) =
      events.countP (isFile (· = .ok))+events.countP (isFile (· ≠ .ok)) := by
  induction events with
  | nil => rfl
  | cons e rest ih =>
    rw [List.countP_cons, List.countP_cons, List.countP_cons, ih]
    cases e with
    | opendir | rmdir => rfl
    | fileErase path node code => by_cases hcode : code = .ok <;> simp [isFile, hcode] <;> omega

theorem counted_rule (fuel : ℕ) (io : FolderIo) (opts : FolderEraseOptions) (initialDev : ℕ) :
    VisitRule fuel io opts initialDev Counted (fun _ _ _ => True) (fun _ _ _ => True) where
  message := fun _ _ h => ⟨h.processed, h.succeeded, h.failed, h.removed⟩
  skip := fun _ h => ⟨h.processed, h.succeeded, h.failed, h.removed⟩
  record := by
    intro _ _ _ s n _ h _ _
    constructor <;> rw [record_result, record_events]
    exacts [h.processed, h.succeeded, h.failed, h.removed]
  opened := by
    intro _ _ path s _ h
    constructor <;> rw [FolderState.opened, List.countP_append]
    exacts [h.processed, h.succeeded, h.failed, h.removed]
  child := fun _ _ _ _ _ _ _ _ _ _ _ _ _ => trivial
  file := by
    intro _ _ path s _ run _ h _ _ _ _
    by_cases hok : run.result.resultCode = .ok
    · constructor <;>
        simp [FolderState.erased, FolderState.count, hok, isFile, isRmdir, h.processed, h.succeeded,
          h.failed, h.removed]
    · constructor <;>
        simp [FolderState.erased, FolderState.count, hok, isFile, isRmdir, h.processed, h.succeeded,
          h.failed, h.removed]
  down := fun _ _ _ _ _ _ _ _ _ _ => trivial
  leave := by
    intro _ chain path _ s _ _ _ _ _ _ _ _ h
    unfold FolderState.leave
    split
    · have hle := h.removed
      dsimp only
      split <;> constructor <;>
        simp [List.countP_append, isFile, isRmdir, h.processed, h.succeeded, h.failed] <;> omega
    · exact h

end Counts

section Contents
variable (t : FileTree) (opts : FileEraseOptions)

structure Kept (tree : FileTree) (events : List FolderEvent) : Prop where
  sized : ∀ n, tree.object n = t.object n ∨ ∃ old new, t.object n = .regular old ∧
    tree.object n = .regular new ∧ new.length = old.length
  untouched : ∀ n, (∀ path code, .fileErase path (some n) code ∉ events) →
    tree.object n = t.object n
  wiped : ∀ path n, .fileErase path (some n) .ok ∈ events → 0 < opts.passes →
    ∀ b ∈ patternByte opts.pattern, ∃ new, tree.object n = .regular new ∧
      AllByte (t.object n).content.length b new

theorem kept_start : Kept t opts t [] where
  sized := fun _ => Or.inl rfl
  untouched := fun _ _ => rfl
  wiped := fun _ _ h => absurd h List.not_mem_nil

theorem kept_other (tree tree' : FileTree) (events : List FolderEvent) (e : FolderEvent)
    (he : ∀ path node code, e ≠ .fileErase path node code) (hobj : tree'.object = tree.object)
    (h : Kept t opts tree events) : Kept t opts tree' (events++[e]) := by
  have hmem : ∀ path node code, .fileErase path node code ∈ events++[e] ↔
      .fileErase path node code ∈ events := by
    intro path node code
    simp [(he path node code).symm]
  refine ⟨fun n => ?_, fun n hn => ?_, fun path n hn => ?_⟩
  · rw [hobj]
    exact h.sized n
  · rw [hobj]
    exact h.untouched n fun path code hin => hn path code ((hmem path _ code).mpr hin)
  · rw [hobj]
    exact h.wiped path n ((hmem path _ _).mp hn)

theorem kept_same (tree tree' : FileTree) (events : List FolderEvent)
    (hobj : tree'.object = tree.object) (h : Kept t opts tree events) :
    Kept t opts tree' events := by
  constructor <;> rw [hobj]
  exacts [h.sized, h.untouched, h.wiped]

theorem regular_object (tree : FileTree) (n : ℕ) (h : tree.kind n = .regular) :
    ∃ content, tree.object n = .regular content := by
  rw [FileTree.kind] at h
  cases hobj : tree.object n with
  | regular content => exact ⟨content, rfl⟩
  | blockDevice | directory | symlink | other =>
    rw [hobj] at h
    contradiction

theorem kept_regular (tree : FileTree) (events : List FolderEvent) (n : ℕ) (content : Bytes)
    (h : Kept t opts tree events) (hn : tree.object n = .regular content) :
    ∃ old, t.object n = .regular old ∧ content.length = old.length := by
  rcases h.sized n with hsame | ⟨old, new, hold, hnew, hlen⟩
  · exact ⟨content, hsame.symm.trans hn, rfl⟩
  · obtain rfl := Object.regular.inj (hnew.symm.trans hn)
    exact ⟨old, hold, hlen⟩

theorem kept_file (s : FolderState) (fuel : ℕ) (io : FileEraseIo) (path : Text) (n : ℕ)
    (run : FileEraseRun) (hn : s.tree.lstat path = some n) (hk : s.tree.kind n = .regular)
    (hrun : fileErase fuel s.tree.files io path opts = some run)
    (h : Kept t opts s.tree s.events) :
    Kept t opts (s.erased path run).tree (s.erased path run).events := by
  obtain ⟨content, hcontent⟩ := regular_object s.tree n hk
  obtain ⟨old, hold, hlen⟩ := kept_regular t opts s.tree s.events n content h hcontent
  obtain ⟨new, hupdate, hnew, hbyte⟩ := fileErase_outcome io fuel s.tree.files path opts run n
    content hn hcontent hrun
  have hobject : (s.erased path run).tree.object = run.fs.object := by
    unfold FolderState.erased FileTree.unlink
    dsimp only
    split
    · split <;> rfl
    · rfl
  have hnode : (s.erased path run).tree.object n = .regular new := by
    rw [hobject, hupdate, Function.update_self]
  have hother : ∀ m, m ≠ n → (s.erased path run).tree.object m = s.tree.object m := by
    intro m hm
    rw [hobject, hupdate, Function.update_of_ne hm]
    rfl
  refine ⟨fun m => ?_, fun m hm => ?_, fun path' m hm hpos b hb => ?_⟩
  · by_cases hmn : m = n
    · rw [hmn]
      exact Or.inr ⟨old, new, hold, hnode, hnew.trans hlen⟩
    · rw [hother m hmn]
      exact h.sized m
  · have hmn : m ≠ n := by
      rintro rfl
      exact hm path run.result.resultCode (by rw [FolderState.erased, hn]; simp)
    rw [hother m hmn]
    exact h.untouched m fun path code hin => hm path code (List.mem_append_left _ hin)
  · by_cases hmn : m = n
    · subst hmn
      refine ⟨new, hnode, ?_⟩
      rw [hold]
      change AllByte old.length b new
      rw [← hlen]
      refine hbyte b hb ?_
      rcases List.mem_append.mp hm with hbefore | hlast
      · obtain ⟨c, hc, hall⟩ := h.wiped path' m hbefore hpos b hb
        obtain rfl := Object.regular.inj (hc.symm.trans hcontent)
        rw [hold] at hall
        exact Or.inr (hlen ▸ hall)
      · have hcode : ErasecureError.ok = run.result.resultCode :=
          (FolderEvent.fileErase.inj (List.mem_singleton.mp hlast)).2.2
        exact Or.inl ⟨hcode.symm, hpos⟩
    · rw [hother m hmn]
      refine h.wiped path' m ?_ hpos b hb
      rcases List.mem_append.mp hm with hbefore | hlast
      · exact hbefore
      · have hsome := (FolderEvent.fileErase.inj (List.mem_singleton.mp hlast)).2.1
        rw [hn] at hsome
        exact absurd (Option.some.inj hsome) hmn

theorem rmdir_object (tree tree' : FileTree) (path : Text) (h : tree.rmdir path = some tree') :
    tree'.object = tree.object := by
  rw [FileTree.rmdir] at h
  split at h
  · contradiction
  · split at h
    · contradiction
    · split_ifs at h
      obtain rfl := Option.some.inj h
      rfl

theorem kept_rule (fuel : ℕ) (io : FolderIo) (opts : FolderEraseOptions) (initialDev : ℕ) :
    VisitRule fuel io opts initialDev (fun s => Kept t opts.fileOpts s.tree s.events)
      (fun _ _ _ => True) (fun _ _ _ => True) where
  message := fun _ _ h => h
  skip := fun _ h => h
  record := by
    intro _ _ _ s n _ h _ _
    rw [record_tree, record_events]
    exact h
  opened := fun _ _ path s _ h =>
    kept_other t opts.fileOpts s.tree s.tree s.events _ (fun _ _ _ => FolderEvent.noConfusion) rfl h
  child := fun _ _ _ _ _ _ _ _ _ _ _ _ _ => trivial
  file := fun _ chain path s n run _ h _ hn hk hrun =>
    kept_file t opts.fileOpts s fuel (io.file chain) path n run hn hk hrun h
  down := fun _ _ _ _ _ _ _ _ _ _ => trivial
  leave := by
    intro _ chain path _ s _ _ _ _ _ _ _ _ h
    have hobj : (s.leave opts.removeDirs (io.rmdir chain) path).tree.object = s.tree.object := by
      rcases leave_tree s opts.removeDirs (io.rmdir chain) path with htree | ⟨_, _, hrmdir⟩
      · rw [htree]
      · exact rmdir_object s.tree _ path hrmdir
    rw [leave_events]
    split
    · exact kept_other t opts.fileOpts s.tree _ s.events _ (fun _ _ _ => FolderEvent.noConfusion)
        hobj h
    · rw [List.append_nil]
      exact kept_same t opts.fileOpts s.tree _ s.events hobj h

end Contents

section Runs
variable (fuel : ℕ) (tree : FileTree) (io : FolderIo) (dirPath : Text)
  (opts : FolderEraseOptions) (run : FolderRun)

/-- Every file that was processed succeeded or failed, the counts are those of
the calls of the file eraser, and no more directories are counted as removed
than removals were tried. -/
theorem folder_counts (h : folderErase fuel tree io dirPath opts = some run) :
    run.result.filesProcessed = run.result.filesSucceeded+run.result.filesFailed ∧
      run.result.filesSucceeded = run.events.countP (isFile (· = .ok)) ∧
      run.result.filesFailed = run.events.countP (isFile (· ≠ .ok)) ∧
      run.result.dirsRemoved ≤ run.events.countP isRmdir := by
  obtain ⟨s, hs, hrun⟩ := run_invariant fuel tree io dirPath opts run Counted _ _
    (counted_rule fuel io opts) trivial ⟨rfl, rfl, rfl, Nat.zero_le _⟩ h
  rw [hrun]
  refine ⟨?_, hs.succeeded, hs.failed, hs.removed⟩
  change s.result.filesProcessed = s.result.filesSucceeded+s.result.filesFailed
  rw [hs.processed, hs.succeeded, hs.failed]
  exact counted_split s.events

theorem run_kept (h : folderErase fuel tree io dirPath opts = some run) :
    Kept tree opts.fileOpts run.tree run.events := by
  obtain ⟨s, hs, hrun⟩ := run_invariant fuel tree io dirPath opts run
    (fun s => Kept tree opts.fileOpts s.tree s.events) _ _ (kept_rule tree fuel io opts) trivial
    (kept_start tree opts.fileOpts) h
  rw [hrun]
  exact hs

/-- Whatever fails in a run over any tree: an object that was not given to the
file eraser is as it was, no file changes its length, and a file that was
reported as erased with a constant pattern holds nothing but its byte. -/
theorem folder_contents (h : folderErase fuel tree io dirPath opts = some run) (n : ℕ) :
    ((∀ path code, .fileErase path (some n) code ∉ run.events) →
      run.tree.object n = tree.object n) ∧
    (run.tree.object n = tree.object n ∨ ∃ old new, tree.object n = .regular old ∧
      run.tree.object n = .regular new ∧ new.length = old.length) ∧
    ∀ path, .fileErase path (some n) .ok ∈ run.events → 0 < opts.fileOpts.passes →
      ∀ b ∈ patternByte opts.fileOpts.pattern, ∃ new, run.tree.object n = .regular new ∧
        AllByte (tree.object n).content.length b new :=
  have hkept := run_kept fuel tree io dirPath opts run h
  ⟨hkept.untouched n, hkept.sized n, fun path => hkept.wiped path n⟩

end Runs

section Mounts
variable (fuel : ℕ) (t : FileTree) (io : FolderIo) (opts : FolderEraseOptions) (dev : ℕ)

/-- A path of a directory on the device. -/
def DirectoryOn (path : Text) : Prop :=
  ∃ n, t.lstat path = some n ∧ t.kind n = .directory ∧ t.device n = dev

/-- Directories are read and removed on the device, and files are erased that are
entries of such directories. -/
def StaysOn : FolderEvent → Prop
  | .opendir path => DirectoryOn t dev path
  | .fileErase path _ _ => ∃ above name, path = entryPath above name ∧ DirectoryOn t dev above
  | .rmdir path _ => DirectoryOn t dev path

structure Staying (s : FolderState) : Prop where
  shrunk : Shrunk t s.tree
  events : ∀ e ∈ s.events, StaysOn t dev e

theorem staying_concat (events : List FolderEvent) (e : FolderEvent)
    (h : ∀ e ∈ events, StaysOn t dev e) (he : StaysOn t dev e) :
    ∀ x ∈ events++[e], StaysOn t dev x := by
  intro x hmem
  rcases List.mem_append.mp hmem with hbefore | hlast
  · exact h x hbefore
  · obtain rfl := List.mem_singleton.mp hlast
    exact he

theorem staying_entry (visit : List Text → Text → FolderState → Option FolderState)
    (hvisit : ∀ chain path s s', Staying t dev s → visit chain path s = some s' →
      Staying t dev s')
    (chain : List Text) (dirPath name : Text) (hdir : DirectoryOn t dev dirPath)
    (s s' : FolderState) (hs : Staying t dev s)
    (h : eraseEntry fuel io opts visit chain dirPath s name = some s') : Staying t dev s' := by
  unfold eraseEntry at h
  split at h
  · obtain rfl := Option.some.inj h
    exact hs
  dsimp only at h
  split at h
  · obtain rfl := Option.some.inj h
    exact hs
  split at h
  · obtain rfl := Option.some.inj h
    exact ⟨hs.shrunk, hs.events⟩
  · obtain ⟨run, hrun, rfl⟩ := Option.map_eq_some_iff.mp h
    exact ⟨shrunk_trans _ _ _ hs.shrunk (erased_shrunk s fuel _ _ _ run hrun),
      staying_concat t dev s.events (.fileErase _ _ _) hs.events ⟨dirPath, name, rfl, hdir⟩⟩
  · exact hvisit _ _ s s' hs h
  · obtain rfl := Option.some.inj h
    exact hs

/-- A visit stays on the device where it started. -/
theorem staying_visit (hmount : opts.followMount = false) (levels : ℕ) (chain : List Text)
    (path : Text) (s s' : FolderState) (code : ErasecureError) (hs : Staying t dev s)
    (h : folderEraseRecursive fuel io opts dev levels chain path s = some (s', code)) :
    Staying t dev s' := by
  induction levels generalizing chain path s s' code with
  | zero =>
    obtain ⟨rfl, rfl⟩ := Prod.mk.inj (Option.some.inj h)
    exact ⟨hs.shrunk, hs.events⟩
  | succ levels ih =>
    rw [folderEraseRecursive] at h
    split at h
    · obtain ⟨rfl, rfl⟩ := Prod.mk.inj (Option.some.inj h)
      exact hs
    rename_i n hn
    have hlstat : s.tree.lstat path = some n := by
      split_ifs at hn
      exact hn
    split at h
    · obtain ⟨rfl, rfl⟩ := Prod.mk.inj (Option.some.inj h)
      exact hs
    rename_i hkind
    split at h
    · obtain ⟨rfl, rfl⟩ := Prod.mk.inj (Option.some.inj h)
      exact hs
    rename_i hdevice
    have hhere : DirectoryOn t dev path := by
      refine ⟨n, lstat_shrunk t s.tree hs.shrunk path n hlstat, ?_, ?_⟩
      · rw [← hs.shrunk.kind n]
        exact not_ne_iff.mp hkind
      · rw [← hs.shrunk.device]
        exact not_ne_iff.mp fun hne => hdevice ⟨hmount, hne⟩
    have hrecord : Staying t dev (s.record n) := by
      refine ⟨?_, ?_⟩
      · rw [record_tree]
        exact hs.shrunk
      · rw [record_events]
        exact hs.events
    split at h
    · obtain ⟨rfl, rfl⟩ := Prod.mk.inj (Option.some.inj h)
      exact ⟨hs.shrunk, hs.events⟩
    split at h
    · obtain ⟨rfl, rfl⟩ := Prod.mk.inj (Option.some.inj h)
      exact hrecord
    obtain ⟨s₁, hloop, hleave⟩ := Option.map_eq_some_iff.mp h
    obtain ⟨rfl, rfl⟩ := Prod.mk.inj hleave
    have hs₁ : Staying t dev s₁ := by
      have hopened : Staying t dev ((s.record n).opened path) :=
        ⟨hrecord.shrunk, staying_concat t dev _ (.opendir path) hrecord.events hhere⟩
      refine foldlM_invariant (Staying t dev) _ _ ?_ _ s₁ hopened hloop
      intro r name r' _ hr hround
      refine staying_entry fuel t io opts dev _ ?_ chain path name hhere r r' hr hround
      intro chain path s s' hs hvisit
      obtain ⟨⟨s₂, code⟩, hv, rfl⟩ := Option.map_eq_some_iff.mp hvisit
      exact ih chain path s s₂ code hs hv
    refine ⟨shrunk_trans _ _ _ hs₁.shrunk (leave_shrunk s₁ _ _ path), ?_⟩
    rw [leave_events]
    split
    · exact staying_concat t dev _ (.rmdir path _) hs₁.events hhere
    · rw [List.append_nil]
      exact hs₁.events

/-- Without `follow_mount` a run reads and removes directories of the device of
its folder only, and erases no file that is not an entry of one of them. -/
theorem folder_mounts (dirPath : Text) (d : ℕ) (run : FolderRun)
    (hmount : opts.followMount = false) (hd : t.lstat dirPath = some d)
    (h : folderErase fuel t io dirPath opts = some run) :
    ∀ e ∈ run.events, StaysOn t (t.device d) e := by
  rcases folderErase_cases fuel io opts t dirPath d run hd h with
    ⟨hnone, _⟩ | ⟨_, _, s, code, hv, rfl⟩
  · rw [hnone]
    exact fun e he => absurd he List.not_mem_nil
  · exact (staying_visit fuel t io opts (t.device d) hmount _ _ _ _ s code
      ⟨shrunk_refl t, fun e he => absurd he List.not_mem_nil⟩ hv).events

end Mounts

def linkedTree : FileTree where
  root := 0
  cwd := 0
  object
    | 2 => .regular [1, 2]
    | _ => .directory 4096
  directory n := .ofEntries (match n with
    | 0 => [(['a'], 1)]
    | 1 => [(['f'], 2), (['g'], 2)]
    | _ => [])
  parent _ := 0
  device _ := 0
  target _ := []

def onceZero : FolderEraseOptions :=
  { folderEraseOptionsInit with fileOpts := ⟨.zero, 1, false, false, false⟩ }

def secondFailsIo : FolderIo :=
  { FolderIo.calm with
    file := fun chain => { FileEraseIo.calm with
      write := fun _ _ => if chain = [['f']] then some chunkSize else none } }

theorem linked_run : ∃ run, folderErase 2 linkedTree secondFailsIo ['a'] onceZero = some run ∧
    run.result.filesFailed = 1 ∧
    FolderEvent.fileErase ['a', '/', 'f'] (some 2) .ok ∈ run.events := by
  have h : (folderErase 2 linkedTree secondFailsIo ['a'] onceZero).any (fun run =>
      decide (run.result.filesFailed = 1) &&
        decide (FolderEvent.fileErase ['a', '/', 'f'] (some 2) .ok ∈ run.events)) = true := by
    decide
  obtain ⟨run, hrun, hresult⟩ := (Option.any_eq_true _ _).mp h
  simp only [Bool.and_eq_true, decide_eq_true_eq] at hresult
  exact ⟨run, hrun, hresult.1, hresult.2⟩

theorem folder_counts_linked : ∃ run,
    folderErase 2 linkedTree secondFailsIo ['a'] onceZero = some run ∧
    run.result.filesProcessed = run.result.filesSucceeded+1 := by
  obtain ⟨run, hrun, hfailed, _⟩ := linked_run
  refine ⟨run, hrun, ?_⟩
  rw [← hfailed]
  exact (folder_counts 2 linkedTree secondFailsIo ['a'] onceZero run hrun).1

theorem folder_contents_linked : ∃ run,
    folderErase 2 linkedTree secondFailsIo ['a'] onceZero = some run ∧
    ∃ new, run.tree.object 2 = .regular new ∧ AllByte 2 0x00 new := by
  obtain ⟨run, hrun, _, hmem⟩ := linked_run
  exact ⟨run, hrun, (folder_contents 2 linkedTree secondFailsIo ['a'] onceZero run hrun 2).2.2
    ['a', '/', 'f'] hmem Nat.one_pos 0x00 rfl⟩

theorem folder_mounts_linked : ∃ run,
    folderErase 2 linkedTree secondFailsIo ['a'] onceZero = some run ∧
    StaysOn linkedTree 0 (.fileErase ['a', '/', 'f'] (some 2) .ok) := by
  obtain ⟨run, hrun, _, hmem⟩ := linked_run
  exact ⟨run, hrun, folder_mounts 2 linkedTree secondFailsIo onceZero ['a'] 1 run rfl
    (by decide +kernel) hrun _ hmem⟩

end EraseCure.FolderOutcomes
