import EraseCure.EraserAgreement
import EraseCure.FolderConfinement
import EraseCure.FolderFailures
import EraseCure.FolderOutcomes

/-!
# Erasing a whole folder

In a folder of files and directories where no call fails every visit returns,
every file is erased and its name removed, and every directory is empty when its
visit ends, so that it can be removed as well. Outside the folder no name goes
but the one that the removal of the folder itself names.
-/

set_option autoImplicit false

namespace EraseCure.FolderRemovals
open EraseCure.CText EraseCure.Devices EraseCure.ErrorCodes EraseCure.FileSystems
open EraseCure.ErasePasses EraseCure.FileVerify EraseCure.FileEraser EraseCure.FileOverwrites
open EraseCure.EraserAgreement EraseCure.PathNames EraseCure.FileTrees EraseCure.FileCalls
open EraseCure.FolderEraser EraseCure.FolderVisits EraseCure.FolderConfinement
open EraseCure.FolderWays EraseCure.FolderRoads EraseCure.FolderLosses
open EraseCure.FolderFailures EraseCure.FolderOutcomes
open EraseCure.FileTrees.FileTree

section File

/-- No call fails, and every write accepts something. -/
structure QuietFile (io : FileEraseIo) : Prop where
  opened : io.opened = true
  allocated : io.allocated = true
  removed : io.removed = true
  write : ∀ pass k, ∃ n, io.write pass k = some n ∧ 0 < n

variable (io : FileEraseIo) (hquiet : QuietFile io)
include hquiet

theorem quiet_position (size pass k : ℕ) : min k size ≤ filePosition io size pass k := by
  induction k with
  | zero => exact Nat.min_le_left 0 size
  | succ k ih =>
    obtain ⟨n, hwrite, hpos⟩ := hquiet.write pass k
    rw [position_step io size pass k n hwrite, toWrite]
    have hchunk : 0 < chunkSize := by decide
    split_ifs <;> omega

theorem quiet_erase (fuel : ℕ) (fs : FileSystem) (path : Text) (opts : FileEraseOptions) (n : ℕ)
    (content : Bytes) (hn : fs.resolveLink path = some n) (hobj : fs.object n = .regular content)
    (hsafe : FileEraser.isDangerousPath path = false) (hfuel : content.length ≤ fuel) :
    ∃ run, fileErase fuel fs io path opts = some run ∧ run.result.resultCode = .ok ∧
      run.result.fileRemoved = opts.removeFile := by
  have hend : ∀ pass, filePosition io content.length pass fuel = content.length := by
    intro pass
    have hlow := quiet_position io hquiet content.length pass fuel
    have hhigh := position_le io content.length pass fuel
    omega
  have hwrite : ∀ pass k, io.write pass k ≠ none := by
    intro pass k
    obtain ⟨m, hm, _⟩ := hquiet.write pass k
    rw [hm]
    exact Option.some_ne_none m
  obtain ⟨s, hs⟩ := passes_through io content.length opts.pattern fuel (List.range opts.passes)
    (fileEraseStart io content) (fun pass _ => hwrite pass) fun pass _ => hend pass
  obtain ⟨run, hrun, hended⟩ := fileErase_started fuel fs io path opts n content
    ⟨hsafe, hn, hobj, hquiet.opened, hquiet.allocated⟩ s true hs
  refine ⟨run, hrun, hended.ok_iff.mpr rfl, ?_⟩
  rw [hended.removed, hquiet.removed, Bool.true_and, Bool.and_true]

end File

/-- No call of a run fails. -/
structure Quiet (io : FolderIo) : Prop where
  lstatTop : io.lstatTop = true
  lstatDir : ∀ chain, io.lstatDir chain = true
  lstatEntry : ∀ chain, io.lstatEntry chain = true
  opendir : ∀ chain, io.opendir chain = true
  rmdir : ∀ chain, io.rmdir chain = true
  file : ∀ chain, QuietFile (io.file chain)

/-- A folder of files and directories on one device, at paths that are allowed
and fit, within the depth limit. -/
structure PlainFolder (t : FileTree) (dirPath : Text) (d : ℕ) (maxDepth : ℕ) : Prop where
  shaped : t.TreeShaped d
  oneDevice : t.OneDevice d
  fits : Fits t dirPath d
  anchored : Anchored t dirPath d
  kinds : ∀ n, t.Within d n → t.kind n = .regular ∨ t.kind n = .directory
  allowed : ∀ names n, t.descend d names = some n →
    FileEraser.isDangerousPath (descendant dirPath names) = false
  shallow : ∀ names n, t.descend d names = some n → t.kind n = .directory →
    names.length ≤ maxDepth

theorem foldlM_returns {σ α : Type*} (I : σ → Prop) (f : σ → α → Option σ) (xs : List α) (s : σ)
    (hs : I s) (h : ∀ s x, x ∈ xs → I s → ∃ s', f s x = some s' ∧ I s') :
    ∃ s', xs.foldlM f s = some s' ∧ I s' := by
  induction xs generalizing s with
  | nil => exact ⟨s, rfl, hs⟩
  | cons x xs ih =>
    obtain ⟨s₁, hx, hs₁⟩ := h s x List.mem_cons_self hs
    rw [List.foldlM_cons, hx]
    exact ih s₁ hs₁ fun s y hy => h s y (List.mem_cons_of_mem x hy)

section Returns
variable (fuel : ℕ) (io : FolderIo) (opts : FolderEraseOptions) (initialDev : ℕ)

def Small (tree : FileTree) : Prop :=
  ∀ n content, tree.object n = .regular content → content.length ≤ fuel

theorem small_objects (tree tree' : FileTree) (hobj : tree'.object = tree.object)
    (h : Small fuel tree) : Small fuel tree' := by
  rw [Small, hobj]
  exact h

theorem small_kept (t tree : FileTree) (opts : FileEraseOptions) (events : List FolderEvent)
    (hkept : Kept t opts tree events) (h : Small fuel t) : Small fuel tree := by
  intro n content hn
  obtain ⟨old, hold, hlen⟩ := kept_regular t opts tree events n content hkept hn
  rw [hlen]
  exact h n old hold

theorem small_erased (s : FolderState) (fio : FileEraseIo) (path : Text) (n : ℕ)
    (run : FileEraseRun) (hn : s.tree.lstat path = some n) (hk : s.tree.kind n = .regular)
    (hrun : fileErase fuel s.tree.files fio path opts.fileOpts = some run)
    (h : Small fuel s.tree) : Small fuel (s.erased path run).tree :=
  small_kept fuel s.tree _ opts.fileOpts _
    (kept_file s.tree opts.fileOpts { s with events := [] } fuel fio path n run hn hk hrun
      (kept_start s.tree opts.fileOpts)) h

theorem small_leave (s : FolderState) (removeDirs allowed : Bool) (path : Text)
    (h : Small fuel s.tree) : Small fuel (s.leave removeDirs allowed path).tree := by
  rcases leave_tree s removeDirs allowed path with htree | ⟨_, _, hrmdir⟩
  · rw [htree]
    exact h
  · exact small_objects fuel s.tree _ (rmdir_object s.tree _ path hrmdir) h

variable (hquiet : Quiet io)
include hquiet

theorem quiet_returns (s : FolderState) (chain : List Text) (path : Text) (n : ℕ)
    (hn : s.tree.lstat path = some n) (hk : s.tree.kind n = .regular) (h : Small fuel s.tree) :
    ∃ run, fileErase fuel s.tree.files (io.file chain) path opts.fileOpts = some run := by
  obtain ⟨content, hcontent⟩ := regular_object s.tree n hk
  cases hsafe : FileEraser.isDangerousPath path with
  | false =>
    obtain ⟨run, hrun, _⟩ := quiet_erase (io.file chain) (hquiet.file chain) fuel s.tree.files path
      opts.fileOpts n content hn hcontent hsafe (h n content hcontent)
    exact ⟨run, hrun⟩
  | true =>
    have hnone : ∀ node content, ¬ FileStarted s.tree.files (io.file chain) path node content :=
      fun _ _ hstarted => absurd (hsafe.symm.trans hstarted.safe) (by decide)
    obtain ⟨run, hrun, _⟩ := fileErase_refused fuel s.tree.files (io.file chain) path
      opts.fileOpts hnone
    exact ⟨run, hrun⟩

theorem entry_returns (visit : List Text → Text → FolderState → Option FolderState)
    (hvisit : ∀ chain path s, Small fuel s.tree →
      ∃ s', visit chain path s = some s' ∧ Small fuel s'.tree)
    (chain : List Text) (dirPath : Text) (s : FolderState) (name : Text)
    (h : Small fuel s.tree) :
    ∃ s', eraseEntry fuel io opts visit chain dirPath s name = some s' ∧ Small fuel s'.tree := by
  rw [eraseEntry, hquiet.lstatEntry]
  split
  · exact ⟨s, rfl, h⟩
  dsimp only
  rw [if_pos rfl]
  cases hn : s.tree.lstat (entryPath dirPath name) with
  | none => exact ⟨s, rfl, h⟩
  | some n =>
    dsimp only
    cases hk : s.tree.kind n with
    | symlink => exact ⟨s.skipLink, rfl, h⟩
    | special => exact ⟨s, rfl, h⟩
    | directory => exact hvisit _ _ s h
    | regular =>
      obtain ⟨run, hrun⟩ := quiet_returns fuel io opts hquiet s (chain++[name]) _ n hn hk h
      exact ⟨s.erased _ run, by rw [hrun]; rfl,
        small_erased fuel opts s _ _ n run hn hk hrun h⟩

/-- Every visit returns. -/
theorem visit_returns (levels : ℕ) (chain : List Text) (path : Text) (s : FolderState)
    (h : Small fuel s.tree) :
    ∃ out, folderEraseRecursive fuel io opts initialDev levels chain path s = some out ∧
      Small fuel out.1.tree := by
  induction levels generalizing chain path s with
  | zero => exact ⟨_, rfl, h⟩
  | succ levels ih =>
    rw [folderEraseRecursive, hquiet.lstatDir, if_pos rfl]
    cases hn : s.tree.lstat path with
    | none => exact ⟨_, rfl, h⟩
    | some n =>
      dsimp only
      split
      · exact ⟨_, rfl, h⟩
      split
      · exact ⟨_, rfl, h⟩
      split
      · exact ⟨_, rfl, h⟩
      split
      · exact ⟨_, rfl, by rw [record_tree]; exact h⟩
      have hround : ∀ r name, name ∈ io.readdir chain (listing s.tree n) → Small fuel r.tree →
          ∃ r', eraseOne fuel io opts initialDev levels chain path r name = some r' ∧
            Small fuel r'.tree := by
        intro r name _ hr
        refine entry_returns fuel io opts hquiet _ (fun chain path s hs => ?_) chain path r name hr
        obtain ⟨out, hout, hsmall⟩ := ih chain path s hs
        exact ⟨out.1, by rw [hout]; rfl, hsmall⟩
      have hstart : Small fuel ((s.record n).opened path).tree :=
        small_objects fuel s.tree _ (by rw [FolderState.opened, record_tree]) h
      obtain ⟨s', hloop, hs'⟩ := foldlM_returns (fun r : FolderState => Small fuel r.tree)
        (eraseOne fuel io opts initialDev levels chain path)
        (io.readdir chain (listing s.tree n)) _ hstart hround
      have hvisit : ((io.readdir chain (listing s.tree n)).foldlM
          (eraseEntry fuel io opts (fun chain path s =>
            (folderEraseRecursive fuel io opts initialDev levels chain path s).map Prod.fst)
            chain path) ((s.record n).opened path)) = some s' := hloop
      rw [hvisit]
      exact ⟨_, rfl, small_leave fuel s' _ _ path hs'⟩

end Returns

section Plain
variable (t : FileTree) (dirPath : Text) (d : ℕ) (fuel : ℕ) (io : FolderIo)
  (opts : FolderEraseOptions) (hplain : PlainFolder t dirPath d opts.maxDepth)
  (hquiet : Quiet io)

structure Unfailed (s : FolderState) : Prop where
  shrunk : Shrunk t s.tree
  small : Small fuel s.tree
  failed : s.result.filesFailed = 0

include hplain hquiet in
theorem plain_erase (s : FolderState) (chain : List Text) (path : Text) (n : ℕ)
    (h : Unfailed t fuel s) (hspelled : Straight t dirPath d chain path)
    (hn : s.tree.lstat path = some n) (hk : s.tree.kind n = .regular) :
    ∃ run, fileErase fuel s.tree.files (io.file chain) path opts.fileOpts = some run ∧
      run.result.resultCode = .ok ∧ run.result.fileRemoved = opts.fileOpts.removeFile := by
  obtain ⟨content, hcontent⟩ := regular_object s.tree n hk
  have hdescend := hspelled.leads n (lstat_shrunk t s.tree h.shrunk path n hn)
  refine quiet_erase (io.file chain) (hquiet.file chain) fuel s.tree.files path opts.fileOpts n
    content hn hcontent ?_ (h.small n content hcontent)
  rw [hspelled.spelled]
  exact hplain.allowed chain n hdescend

include hplain hquiet in
theorem unfailed_rule (initialDev : ℕ) :
    VisitRule fuel io opts initialDev (Unfailed t fuel) (fun _ => Straight t dirPath d)
      (fun _ => Spot t dirPath d) where
  message := fun _ _ h => ⟨h.shrunk, h.small, h.failed⟩
  skip := fun _ h => ⟨h.shrunk, h.small, h.failed⟩
  record := by
    intro _ _ _ s n _ h _ _
    constructor
    · rw [record_tree]
      exact h.shrunk
    · rw [record_tree]
      exact h.small
    · rw [record_result]
      exact h.failed
  opened := fun _ _ _ _ _ h => ⟨h.shrunk, h.small, h.failed⟩
  child := by
    intro levels chain path s n name hat h hn hk _ _ hname
    obtain ⟨m, hm⟩ := (Directory.mem_names _ _).mp hname
    obtain ⟨hpath, hspot⟩ := fitting_spot t dirPath d hplain.fits chain path name n m hat
      (lstat_shrunk t s.tree h.shrunk path n hn) (h.shrunk.kind n ▸ hk) (h.shrunk.find n name m hm)
    rw [hpath]
    exact hspot
  file := by
    intro levels chain path s n run hat h _ hn hk hrun
    obtain ⟨run', hrun', hok, _⟩ := plain_erase t dirPath d fuel io opts hplain hquiet s chain path
      n h hat.straight hn hk
    obtain rfl : run = run' := Option.some.inj (hrun.symm.trans hrun')
    refine ⟨shrunk_trans _ _ _ h.shrunk (erased_shrunk s fuel _ path _ run hrun),
      small_erased fuel opts s _ path n run hn hk hrun h.small, ?_⟩
    rw [FolderState.erased, FolderState.count, if_pos hok]
    exact h.failed
  down := fun _ _ _ _ _ hat _ _ _ _ => hat.straight
  leave := by
    intro _ chain path _ s _ _ _ _ _ _ _ _ h
    refine ⟨shrunk_trans _ _ _ h.shrunk (leave_shrunk s _ _ path),
      small_leave fuel s _ _ path h.small, ?_⟩
    rw [leave_failed]
    exact h.failed

theorem empty_shrunk (tree tree' : FileTree) (h : Shrunk tree tree') (k : ℕ)
    (hempty : (tree.directory k).entries = []) : (tree'.directory k).entries = [] := by
  refine List.eq_nil_iff_forall_not_mem.mpr fun e he => ?_
  have hmem := (Directory.find_iff _ _ _).mp
    (h.find k e.1 e.2 ((Directory.find_iff _ _ _).mpr he))
  rw [hempty] at hmem
  exact List.not_mem_nil hmem

theorem erase_gone (tree : FileTree) (k : ℕ) (name : Text) :
    ((tree.erase k name).directory k).find name = none := by
  cases hfind : ((tree.erase k name).directory k).find name with
  | none => rfl
  | some m => exact absurd ⟨rfl, rfl⟩ ((FileTree.find_erase tree k k name name m).mp hfind).2

/-- The path of a directory or a file names an entry as long as the way to it is
there. -/
def Named (chain : List Text) (path : Text) (k p : ℕ) (base : Text) : Prop :=
  ∀ tree, Leading t d chain k tree →
    tree.locate (path.rdropWhile (fun c => c = '/')) = some (p, base) ∧
      (tree.directory p).find base = some k

theorem leave_gone (chain : List Text) (path : Text) (k p : ℕ) (base : Text) (s : FolderState)
    (hnamed : Named t d chain path k p base) (hway : Leading t d chain k s.tree)
    (hdir : t.kind k = .directory) (hempty : (s.tree.directory k).entries = []) :
    ((s.leave true true path).tree.directory p).find base = none := by
  obtain ⟨hlocate, hfind⟩ := hnamed s.tree hway
  have hrmdir : s.tree.rmdir path = some (s.tree.erase p base) := by
    rw [FileTree.rmdir, hlocate]
    dsimp only
    rw [hfind]
    exact if_pos ⟨(hway.shrunk.kind k).trans hdir, hempty⟩
  rw [leave_removes s path _ hrmdir]
  exact erase_gone s.tree p base

include hplain hquiet

theorem plain_reached (names : List Text) (n : ℕ) (hn : t.descend d names = some n) :
    Reached io opts names := by
  refine ⟨?_, fun above _ => ⟨fun _ => hquiet.lstatEntry above, fun _ =>
    ⟨hquiet.lstatDir above, hquiet.opendir above⟩⟩⟩
  rcases List.eq_nil_or_concat names with rfl | ⟨above, name, rfl⟩
  · exact Nat.zero_le _
  · rw [List.concat_eq_append] at hn ⊢
    obtain ⟨k, hk, hdir, _⟩ := descend_split t d n above name hn
    have hshallow := hplain.shallow above k hk hdir
    rw [List.length_append, List.length_singleton]
    omega

variable (hfiles : opts.fileOpts.removeFile = true) (hdirs : opts.removeDirs = true)
include hfiles hdirs

theorem plain_vanishes (chain : List Text) : Vanishes t dirPath d io opts chain := by
  intro rest n hn
  refine ⟨fun hne => hplain.fits _ n hne hn, plain_reached t dirPath d io opts hplain hquiet _ n hn,
    ?_⟩
  rcases hplain.kinds n ⟨_, hn⟩ with hkind | hkind
  · rw [hkind]
    exact ⟨hfiles, (hquiet.file _).removed⟩
  · rw [hkind]
    exact ⟨hplain.shallow _ n hn hkind, hquiet.lstatDir _, hquiet.opendir _, hdirs,
      hquiet.rmdir _⟩

/-- The visit of the folder empties every directory of it and removes its name. -/
theorem visit_empties (hd : t.lstat dirPath = some d) (hk : t.kind d = .directory) (p : ℕ)
    (base : Text) (hnamed : Named t d [] dirPath d p base) (s : FolderState)
    (code : ErasecureError) (hfailed : s.result.filesFailed = 0)
    (hv : folderEraseRecursive fuel io opts (t.device d) (opts.maxDepth+1) [] dirPath
      (startState t dirPath) = some (s, code)) :
    code = .ok ∧ (∀ n, t.Within d n → t.kind n = .directory →
      (s.tree.directory n).entries = []) ∧ (s.tree.directory p).find base = none := by
  have hstraight := straight_start t dirPath d hd
  have hstart := untouched_start t dirPath d
  rw [untouched_enters t d hplain.oneDevice fuel io opts opts.maxDepth [] dirPath d _ rfl hk hstart
    (hquiet.lstatDir []) (hquiet.opendir []) hd] at hv
  obtain ⟨s₃, hloop, hv⟩ := Option.map_eq_some_iff.mp hv
  obtain ⟨rfl, rfl⟩ := Prod.mk.inj hv
  rw [leave_failed] at hfailed
  have hlisted : ∀ name ∈ io.readdir [] (listing t d), name ∈ listing t d :=
    fun name hname => (io.reads [] _).mem_iff.mp hname
  have hcuts := fits_nameless t dirPath d hplain.fits
  have hway := entries_keep t dirPath d hplain.shaped hcuts fuel io opts [] dirPath d
    opts.maxDepth _ s₃ hstraight hk hd hstart _ hlisted hloop
  have hroot := hplain.anchored s₃.tree hway.shrunk hway.outside
  have hbelow : ∀ next m, (t.directory d).find next = some m →
      Cleared t dirPath d io opts [next] s₃.tree := by
    intro next m hm
    refine entries_clear t dirPath d hplain.shaped hcuts fuel io opts [] dirPath d
      opts.maxDepth _ s₃ hstraight rfl hk hd hstart
      (visit_clears t dirPath d hplain.shaped hplain.oneDevice hcuts fuel io opts
        opts.maxDepth) rfl _ hlisted hloop hfailed hroot next m hm ?_
    exact (io.reads [] _).mem_iff.mpr (List.mem_cons_of_mem _ (List.mem_cons_of_mem _
      ((Directory.mem_names _ _).mpr ⟨m, hm⟩)))
  have hempty : ∀ names n, t.descend d names = some n → t.kind n = .directory →
      (s₃.tree.directory n).entries = [] := by
    intro names n hn hdir
    refine emptied_below t dirPath d io opts names n s₃.tree hway.shrunk hn hdir
      (fun other j hj => ?_)
      (plain_vanishes t dirPath d io opts hplain hquiet hfiles hdirs names)
    cases names with
    | nil =>
      obtain rfl := Option.some.inj hn
      exact hbelow other j hj
    | cons next rest =>
      rw [descend, if_pos hk] at hn
      obtain ⟨m, hm, _⟩ := Option.bind_eq_some_iff.mp hn
      exact cleared_below t dirPath d io opts [next] _ s₃.tree ⟨rest++[other], rfl⟩
        (hbelow next m hm)
  refine ⟨rfl, ?_, ?_⟩
  · rintro n ⟨names, hn⟩ hdir
    exact empty_shrunk s₃.tree _ (leave_shrunk s₃ _ _ dirPath) n (hempty names n hn hdir)
  · rw [hdirs, hquiet.rmdir]
    exact leave_gone t d [] dirPath d p base s₃ hnamed hway hk (hempty [] d rfl hk)

/-- Where nothing fails a folder of files and directories is erased as a whole:
the run succeeds with no failed file, every name in the folder and its own are
gone, and with a constant pattern its files hold nothing but the byte. -/
theorem folder_removed (hd : t.lstat dirPath = some d) (hk : t.kind d = .directory) (p : ℕ)
    (base : Text) (hnamed : Named t d [] dirPath d p base) (hsmall : Small fuel t) :
    ∃ run, folderErase fuel t io dirPath opts = some run ∧ run.result.resultCode = .ok ∧
      run.result.filesFailed = 0 ∧
      (∀ n, t.Within d n → t.kind n = .directory → (run.tree.directory n).entries = []) ∧
      (run.tree.directory p).find base = none ∧
      ∀ n, t.Below d n → t.kind n = .regular → 0 < opts.fileOpts.passes →
        ∀ b ∈ patternByte opts.fileOpts.pattern, ∃ new, run.tree.object n = .regular new ∧
          AllByte (t.object n).content.length b new := by
  have hs : Unfailed t fuel (startState t dirPath) := ⟨shrunk_refl t, hsmall, rfl⟩
  obtain ⟨⟨s, code⟩, hv, _⟩ := visit_returns fuel io opts (t.device d) hquiet (opts.maxDepth+1) []
    dirPath (startState t dirPath) hsmall
  have hunfailed := visit_invariant fuel io opts (t.device d) (Unfailed t fuel) _ _
    (unfailed_rule t dirPath d fuel io opts hplain hquiet (t.device d)) _ _ _ _ s code
    (straight_start t dirPath d hd) hs hv
  obtain ⟨rfl, hempty, hgone⟩ := visit_empties t dirPath d fuel io opts hplain hquiet hfiles hdirs
    hd hk p base hnamed s code hunfailed.failed hv
  have hsafe : ¬ FolderEraser.isDangerousPath dirPath = true := fun h =>
    absurd (show FileEraser.isDangerousPath dirPath = true from h)
      (by rw [show FileEraser.isDangerousPath dirPath = false from hplain.allowed [] d rfl]
          exact Bool.false_ne_true)
  have hrun := folderErase_enters fuel io opts t dirPath d s .ok hsafe hquiet.lstatTop hd hk hv
  refine ⟨_, hrun, rfl, hunfailed.failed, hempty, hgone, ?_⟩
  rintro n ⟨names, hne, hn⟩ hreg hpos b hb
  have herased := reached_erased t dirPath d names n hplain.shaped hplain.oneDevice
    (fits_nameless t dirPath d hplain.fits) hn hreg fuel io opts hd hk s .ok hv hunfailed.failed
    (hplain.fits names n hne hn)
    (plain_reached t dirPath d io opts hplain hquiet names n hn)
    (anchored_unbroken t dirPath d names io opts hplain.anchored)
  exact (run_kept fuel t io dirPath opts _ hrun).wiped _ n herased hpos b hb

end Plain

section Outside
variable (t : FileTree) (dirPath : Text) (d : ℕ)

/-- The names outside the folder are still there, but for the one that the
removal of the folder itself names. -/
structure OutsideKept (tree : FileTree) : Prop where
  shrunk : Shrunk t tree
  names : ∀ n name m, (t.directory n).find name = some m → ¬ t.Within d n →
    t.locate (dirPath.rdropWhile (fun c => c = '/')) ≠ some (n, name) →
    (tree.directory n).find name = some m

theorem outside_erase (tree : FileTree) (k : ℕ) (gone : Text) (h : OutsideKept t dirPath d tree)
    (hgone : t.Within d k ∨ t.locate (dirPath.rdropWhile (fun c => c = '/')) = some (k, gone)) :
    OutsideKept t dirPath d (tree.erase k gone) := by
  refine ⟨shrunk_trans _ _ _ h.shrunk (shrunk_erase tree k gone), fun n name m hm hout hne => ?_⟩
  refine (FileTree.find_erase tree k n gone name m).mpr ⟨h.names n name m hm hout hne, ?_⟩
  rintro ⟨rfl, rfl⟩
  exact hgone.elim hout hne

/-- A removal by a path takes away the name that the path locates, or none. -/
theorem outside_unlink (tree : FileTree) (path : Text) (h : OutsideKept t dirPath d tree)
    (hpath : ∀ k gone, t.locate path = some (k, gone) → t.Within d k) :
    OutsideKept t dirPath d (tree.unlink path) := by
  rw [unlink]
  cases hl : tree.locate path with
  | none => exact h
  | some r =>
    obtain ⟨k, gone⟩ := r
    exact outside_erase t dirPath d tree k gone h
      (Or.inl (hpath k gone (locate_shrunk t tree h.shrunk path (k, gone) hl)))

theorem outside_rmdir (tree tree' : FileTree) (path : Text) (h : OutsideKept t dirPath d tree)
    (hrmdir : tree.rmdir path = some tree')
    (hpath : path = dirPath ∨
      ∀ k gone, t.locate (path.rdropWhile (fun c => c = '/')) = some (k, gone) → t.Within d k) :
    OutsideKept t dirPath d tree' := by
  rw [FileTree.rmdir] at hrmdir
  cases hl : tree.locate (path.rdropWhile (fun c => c = '/')) with
  | none =>
    rw [hl] at hrmdir
    contradiction
  | some r =>
    obtain ⟨k, gone⟩ := r
    rw [hl] at hrmdir
    dsimp only at hrmdir
    split at hrmdir
    · contradiction
    · split_ifs at hrmdir
      obtain rfl := Option.some.inj hrmdir
      have hlocate := locate_shrunk t tree h.shrunk _ (k, gone) hl
      refine outside_erase t dirPath d tree k gone h ?_
      rcases hpath with rfl | hin
      · exact Or.inr hlocate
      · exact Or.inl (hin k gone hlocate)

theorem outside_rule (hfits : Fits t dirPath d) (fuel : ℕ) (io : FolderIo)
    (opts : FolderEraseOptions) (initialDev : ℕ) :
    VisitRule fuel io opts initialDev (fun s => OutsideKept t dirPath d s.tree)
      (fun _ chain path => chain = [] ∧ path = dirPath ∧ Straight t dirPath d chain path ∨
        Spot t dirPath d chain path)
      (fun _ => Spot t dirPath d) where
  message := fun _ _ h => h
  skip := fun _ h => h
  record := fun _ _ _ s n _ h _ _ => (record_tree s n) ▸ h
  opened := fun _ _ _ _ _ h => h
  child := by
    intro levels chain path s n name hat h hn hk _ _ hname
    obtain ⟨m, hm⟩ := (Directory.mem_names _ _).mp hname
    have hstraight : Straight t dirPath d chain path := hat.elim (fun h => h.2.2) Spot.straight
    obtain ⟨hpath, hspot⟩ := fitting_spot t dirPath d hfits chain path name n m hstraight
      (lstat_shrunk t s.tree h.shrunk path n hn) (h.shrunk.kind n ▸ hk) (h.shrunk.find n name m hm)
    rw [hpath]
    exact hspot
  file := by
    intro levels chain path s n run hat h _ _ _ hrun
    obtain ⟨above, name, k, _, _, _, habove, _, hlocate⟩ := hat.entry
    have hobjects : OutsideKept t dirPath d { s.tree with object := run.fs.object } :=
      ⟨shrunk_trans _ _ _ h.shrunk (shrunk_objects s.tree run.fs.object
        (fileErase_kind _ _ _ _ _ _ hrun)), h.names⟩
    unfold FolderState.erased
    dsimp only
    split
    · refine outside_unlink t dirPath d _ path hobjects fun k' gone hl => ?_
      obtain ⟨rfl, rfl⟩ := Prod.mk.inj (Option.some.inj (hlocate.symm.trans hl))
      exact ⟨above, habove⟩
    · exact hobjects
  down := fun _ _ _ _ _ hat _ _ _ _ => Or.inr hat
  leave := by
    intro levels chain path _ s n hat _ _ _ _ _ _ h
    rcases leave_tree s opts.removeDirs (io.rmdir chain) path with htree | ⟨_, _, hrmdir⟩
    · rw [htree]
      exact h
    · refine outside_rmdir t dirPath d s.tree _ path h hrmdir ?_
      rcases hat with ⟨_, hroot, _⟩ | hspot
      · exact Or.inl hroot
      · obtain ⟨above, name, k, _, hpath, hname, habove, _, hlocate⟩ := hspot.entry
        refine Or.inr fun k' gone hl => ?_
        rw [hpath, rdropWhile_child _ _ hname, ← hpath] at hl
        obtain ⟨rfl, rfl⟩ := Prod.mk.inj (Option.some.inj (hlocate.symm.trans hl))
        exact ⟨above, habove⟩

/-- Whatever fails in a run whose paths fit: an object that does not lie below the
folder keeps every byte, and no name in a directory outside goes but the one that
the path of the folder stands for. -/
theorem folder_outside (hd : t.lstat dirPath = some d) (hfits : Fits t dirPath d) (fuel : ℕ)
    (io : FolderIo) (opts : FolderEraseOptions) (run : FolderRun)
    (hr : folderErase fuel t io dirPath opts = some run) :
    (∀ n, ¬ t.Below d n → run.tree.object n = t.object n) ∧
    ∀ n name m, (t.directory n).find name = some m → ¬ t.Within d n →
      t.locate (dirPath.rdropWhile (fun c => c = '/')) ≠ some (n, name) →
      (run.tree.directory n).find name = some m := by
  constructor
  · intro n hout
    refine (run_kept fuel t io dirPath opts run hr).untouched n fun path code hmem => hout ?_
    have hnever : ∀ names, ¬ Escapes t dirPath d opts names := by
      rintro names ⟨hne, hsome, hlong, _⟩
      obtain ⟨m, hm⟩ := Option.isSome_iff_exists.mp hsome
      exact absurd (hfits names m hne hm) (Nat.not_lt_of_le hlong)
    exact safe_run t dirPath d opts hnever fuel io run hd hr _ hmem n rfl
  · obtain ⟨s, hs, hrun⟩ := run_invariant fuel t io dirPath opts run _ _ _
      (outside_rule t dirPath d hfits fuel io opts)
      (Or.inl ⟨rfl, rfl, straight_start t dirPath d hd⟩)
      ⟨shrunk_refl t, fun _ _ _ hm _ _ => hm⟩ hr
    rw [hrun]
    exact hs.names

end Outside

theorem nested_plain : PlainFolder nestedTree ['a'] 1 128 where
  shaped := nested_shaped
  oneDevice := fun _ _ => rfl
  fits := nested_fits ['a'] (by decide)
  anchored := nested_anchored
  kinds := by
    rintro n ⟨names, h⟩
    rcases nested_descend names n h with ⟨_, rfl⟩ | ⟨_, rfl⟩ | ⟨_, rfl⟩ <;> decide
  allowed := by
    intro names n h
    rcases nested_descend names n h with ⟨rfl, _⟩ | ⟨rfl, _⟩ | ⟨rfl, _⟩ <;> decide
  shallow := by
    intro names n h _
    rcases nested_descend names n h with ⟨rfl, _⟩ | ⟨rfl, _⟩ | ⟨rfl, _⟩ <;> decide

theorem nested_named : Named nestedTree 1 [] ['a'] 1 0 ['a'] := by
  intro tree hway
  have hroot : tree.directory 0 = nestedTree.directory 0 := by
    apply hway.outside
    rintro ⟨names, hnames⟩
    have hzero := nested_descend names 0 hnames
    simp at hzero
  refine ⟨?_, by rw [hroot]; decide⟩
  rw [show ['a'].rdropWhile (fun c => c = '/') = ['a'] by decide, locate, if_neg (by decide),
    show (components ['a']).dropLast = [] by decide, walk_nil, start, if_neg (by decide),
    hway.shrunk.cwd]
  rfl

theorem calm_quiet : Quiet FolderIo.calm where
  lstatTop := rfl
  lstatDir := fun _ => rfl
  lstatEntry := fun _ => rfl
  opendir := fun _ => rfl
  rmdir := fun _ => rfl
  file := fun _ => ⟨rfl, rfl, rfl, fun _ _ => ⟨chunkSize, rfl, by decide⟩⟩

theorem nested_small : Small 1 nestedTree := by
  intro n content hn
  rw [nestedTree] at hn
  dsimp only at hn
  split at hn
  · obtain rfl := Object.regular.inj hn
    exact le_rfl
  · contradiction

theorem folder_removed_nested : ∃ run,
    folderErase 1 nestedTree .calm ['a']
      { folderEraseOptionsInit with fileOpts := ⟨.zero, 1, false, true, false⟩ } = some run ∧
    run.result.resultCode = .ok ∧ (run.tree.directory 0).find ['a'] = none := by
  obtain ⟨run, hrun, hok, _, _, hgone, _⟩ := folder_removed nestedTree ['a'] 1 1 .calm
    { folderEraseOptionsInit with fileOpts := ⟨.zero, 1, false, true, false⟩ } nested_plain
    calm_quiet rfl rfl (by decide) rfl 0 ['a'] nested_named nested_small
  exact ⟨run, hrun, hok, hgone⟩

theorem folder_outside_nested : ∃ run,
    folderErase 1 nestedTree .calm ['a'] folderEraseOptionsInit = some run ∧
    ∀ n, ¬ nestedTree.Below 1 n → run.tree.object n = nestedTree.object n := by
  have h : (folderErase 1 nestedTree .calm ['a'] folderEraseOptionsInit).isSome = true := by
    decide
  obtain ⟨run, hrun⟩ := Option.isSome_iff_exists.mp h
  exact ⟨run, hrun, (folder_outside nestedTree ['a'] 1 (by decide)
    (nested_fits _ (by decide)) 1 .calm folderEraseOptionsInit run hrun).1⟩

end EraseCure.FolderRemovals
