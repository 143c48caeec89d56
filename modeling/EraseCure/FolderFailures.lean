import EraseCure.FolderLosses

/-!
# Failures below a folder

A visit that cannot examine an entry goes on with the next, and the visit above
does not look at what a deeper one returns. So a run that reports success and no
failed file has erased the files that its calls let it reach while the path of the
folder still named it, and no others.
-/

set_option autoImplicit false

namespace EraseCure.FolderFailures
open EraseCure.CText EraseCure.ErrorCodes EraseCure.FileSystems EraseCure.FileEraser
open EraseCure.PathNames EraseCure.FileTrees EraseCure.FolderEraser EraseCure.FolderVisits
open EraseCure.FolderWays EraseCure.FolderRoads EraseCure.FolderLosses
open EraseCure.FileTrees.FileTree

section Runs
variable (t : FileTree) (dirPath : Text) (d : ℕ) (names : List Text) (n : ℕ)
  (hshape : t.TreeShaped d) (hdev : t.OneDevice d) (hcuts : NamelessCuts t dirPath d)
  (hfile : t.descend d names = some n) (hreg : t.kind n = .regular) (fuel : ℕ) (io : FolderIo)
  (opts : FolderEraseOptions)

/-- A place to which no call has failed. -/
def Open (levels : ℕ) (chain : List Text) (path : Text) : Prop :=
  levels+chain.length = opts.maxDepth+1 ∧ Passed io chain ∧ Straight t dirPath d chain path ∧
    ∀ name ∈ chain, FileName name

def OpenEntry (levels : ℕ) (chain : List Text) (path : Text) : Prop :=
  levels+chain.length = opts.maxDepth+1 ∧ (io.lstatEntry chain = true → Passed io chain) ∧
    Straight t dirPath d chain path ∧ ∀ name ∈ chain, FileName name

structure OnlyReached (s : FolderState) : Prop where
  shrunk : Shrunk t s.tree
  reached : ∀ path node code, FolderEvent.fileErase path node code ∈ s.events →
    ∃ chain, path = descendant dirPath chain ∧ Reached io opts chain ∧ ∀ name ∈ chain, FileName name

include hcuts in
theorem open_rule : VisitRule fuel io opts (t.device d) (OnlyReached t dirPath io opts)
    (Open t dirPath d io opts) (Existing t (OpenEntry t dirPath d io opts)) where
  message := fun _ _ h => ⟨h.shrunk, h.reached⟩
  skip := fun _ h => ⟨h.shrunk, h.reached⟩
  record := by
    intro _ _ _ s m _ h _ _
    constructor
    · rw [record_tree]
      exact h.shrunk
    · rw [record_events]
      exact h.reached
  opened := by
    intro _ _ path s _ h
    refine ⟨h.shrunk, fun path node code he => ?_⟩
    rcases List.mem_append.mp he with he | he
    · exact h.reached path node code he
    · cases List.mem_singleton.mp he
  child := by
    intro levels chain path s m name hat h hm hk hup hopen hname hthere
    obtain ⟨hlevels, hpassed, hstraight, hnamed⟩ := hat
    obtain ⟨j, hj⟩ := (Directory.mem_names _ _).mp hname
    obtain ⟨hpath, hspot⟩ := named_spot t dirPath d hcuts chain path name m j hstraight
      (lstat_shrunk t s.tree h.shrunk path m hm) (h.shrunk.kind m ▸ hk) (h.shrunk.find m name j hj)
      hthere
    rw [hpath]
    refine ⟨?_, passed_child io chain name hpassed hup hopen, hspot.straight, ?_⟩
    · rw [List.length_append, List.length_singleton]
      omega
    · intro x hx
      rcases List.mem_append.mp hx with hx | hx
      · exact hnamed x hx
      · rw [List.mem_singleton.mp hx]
        exact (s.tree.directory m).find_named name j hj
  file := by
    intro levels chain path s m run hat h hentry hm _ hrun
    replace hat := existing_found t _ levels chain path hat s.tree h.shrunk m hm
    refine ⟨shrunk_trans _ _ _ h.shrunk (erased_shrunk s _ _ _ _ run hrun),
      fun path' node code he => ?_⟩
    rcases List.mem_append.mp he with he | he
    · exact h.reached path' node code he
    · cases List.mem_singleton.mp he
      obtain ⟨hlevels, hpassed, hstraight, hnamed⟩ := hat
      exact ⟨chain, hstraight.spelled, ⟨by omega, hpassed hentry⟩, hnamed⟩
  down := by
    intro levels chain path s m hat h hentry hm _
    replace hat := existing_found t _ levels chain path hat s.tree h.shrunk m hm
    exact ⟨hat.1, hat.2.1 hentry, hat.2.2⟩
  leave := by
    intro levels chain path s s' m _ _ _ _ _ _ _ h'
    refine ⟨shrunk_trans _ _ _ h'.shrunk (leave_shrunk s' _ _ path), fun path' node code he => ?_⟩
    rw [leave_events] at he
    rcases List.mem_append.mp he with he | he
    · exact h'.reached path' node code he
    · split_ifs at he
      · cases List.mem_singleton.mp he
      · contradiction

/-- The file eraser was called with paths that the array holds. -/
def Short (s : FolderState) : Prop :=
  ∀ path node code, FolderEvent.fileErase path node code ∈ s.events → path.length < pathCap

theorem short_rule (initialDev : ℕ) : VisitRule fuel io opts initialDev Short (fun _ _ _ => True)
    (fun _ _ path => path.length < pathCap) where
  message := fun _ _ h => h
  skip := fun _ h => h
  record := fun _ _ _ s n _ h _ _ => by
    rw [Short, record_events]
    exact h
  opened := by
    intro _ _ path s _ h path' node code he
    rcases List.mem_append.mp he with he | he
    · exact h path' node code he
    · cases List.mem_singleton.mp he
  child := fun _ _ path _ _ name _ _ _ _ _ _ _ =>
    (List.length_take_le _ _).trans_lt (by decide)
  file := by
    intro _ _ path s _ run hat h _ _ _ _ path' node code he
    rcases List.mem_append.mp he with he | he
    · exact h path' node code he
    · cases List.mem_singleton.mp he
      exact hat
  down := fun _ _ _ _ _ _ _ _ _ _ => trivial
  leave := by
    intro _ _ path _ s' _ _ _ _ _ _ _ _ h' path' node code he
    rw [leave_events] at he
    rcases List.mem_append.mp he with he | he
    · exact h' path' node code he
    · split_ifs at he
      · cases List.mem_singleton.mp he
      · contradiction

theorem erased_short (run : FolderRun) (hd : t.lstat dirPath = some d)
    (hr : folderErase fuel t io dirPath opts = some run)
    (h : Erased dirPath run.events names n) : (descendant dirPath names).length < pathCap := by
  rcases folderErase_cases fuel io opts t dirPath d run hd hr with
    ⟨hnone, _⟩ | ⟨_, _, s, code, hv, rfl⟩
  · rw [FolderWays.Erased, hnone] at h
    contradiction
  · exact visit_invariant fuel io opts (t.device d) _ _ _ (short_rule fuel io opts (t.device d))
      _ _ _ _ s code trivial (fun _ _ _ he => absurd he List.not_mem_nil) hv _ _ _ h

/-- Nothing that the path leads through lies below a folder that keeps its path. -/
theorem anchored_unbroken (hanchor : Anchored t dirPath d) :
    Unbroken t dirPath d io opts names := by
  rintro chain ⟨above, name, k, _, _, habove, _, hnone⟩
  rw [hanchor (t.erase k name) (shrunk_erase t k name)] at hnone
  · contradiction
  · intro i hi
    apply Function.update_of_ne
    rintro rfl
    exact hi ⟨above, habove⟩

section Visit
variable (hd : t.lstat dirPath = some d) (hdir : t.kind d = .directory) (s : FolderState)
  (code : ErasecureError)
  (hv : folderEraseRecursive fuel io opts (t.device d) (opts.maxDepth+1) [] dirPath
    (startState t dirPath) = some (s, code))
include hd hv hcuts hfile

theorem erased_reached (h : Erased dirPath s.events names n) : Reached io opts names := by
  have hpassed : Passed io [] := by
    intro above habove
    rw [List.prefix_nil] at habove
    exact ⟨fun h => absurd habove h, fun h => absurd habove h⟩
  obtain ⟨chain, hpath, hreached, hnamed⟩ := (visit_invariant fuel io opts (t.device d) _ _ _
    (open_rule t dirPath d hcuts fuel io opts) _ _ _ _ s code
    ⟨rfl, hpassed, straight_start t dirPath d hd, fun x hx => absurd hx List.not_mem_nil⟩
    ⟨shrunk_refl t, fun _ _ _ he => absurd he List.not_mem_nil⟩ hv).reached _ _ _ h
  have hsame := descendant_injective dirPath names chain
    (fun x hx => (descend_named t d n names hfile x hx).2.1) (fun x hx => (hnamed x hx).2.1)
    hpath
  rw [hsame]
  exact hreached

variable (hfailed : s.result.filesFailed = 0)
  (hshort : (descendant dirPath names).length < pathCap)
include hshape hdev hfailed hshort

theorem erased_unbroken (h : Erased dirPath s.events names n) :
    Unbroken t dirPath d io opts names := by
  rintro chain hneeded ⟨above, k, before, name, after, habove, horder, hnext, other, hother, hpre⟩
    hvanish
  exact never_erased t dirPath d names n hshape hdev hcuts hd hfile fuel io opts above k before
    after name habove horder hnext other hother chain hpre hneeded hvanish hshort above [] dirPath d
    (opts.maxDepth+1) _ s code rfl (straight_start t dirPath d hd) rfl rfl
    (untouched_start t dirPath d) hv hfailed List.not_mem_nil h

include hdir hreg

theorem reached_erased (hreached : Reached io opts names)
    (hbroken : Unbroken t dirPath d io opts names) : Erased dirPath s.events names n := by
  have hne : names ≠ [] := by
    rintro rfl
    obtain rfl := Option.some.inj hfile
    rw [hdir] at hreg
    contradiction
  exact file_reached t dirPath d names n hshape hdev hcuts hshort hd hdir hfile hreg fuel io opts
    hreached hbroken names [] dirPath _ s code d (opts.maxDepth+1) rfl hne
    (straight_start t dirPath d hd) rfl rfl ⟨⟨⟨shrunk_refl t, fun _ _ => rfl, hfile⟩,
      fun _ _ _ _ _ hmem => absurd hmem List.not_mem_nil⟩, ⟨shrunk_refl t, fun _ _ h _ => h⟩, hd,
      fun _ _ _ _ _ => rfl⟩ hv hfailed

end Visit

include hshape hdev hcuts hfile hreg in
/-- In a run that reports success and no failed file, a regular file was erased exactly when
its path fits, it could be reached and nothing broke the path of the folder before. -/
theorem file_erased_iff (run : FolderRun) (hd : t.lstat dirPath = some d)
    (hr : folderErase fuel t io dirPath opts = some run) (hok : run.result.resultCode = .ok)
    (hfailed : run.result.filesFailed = 0) :
    Erased dirPath run.events names n ↔
      (descendant dirPath names).length < pathCap ∧ Reached io opts names ∧
        Unbroken t dirPath d io opts names := by
  have hlong := erased_short t dirPath d names n fuel io opts run hd hr
  rcases folderErase_cases fuel io opts t dirPath d run hd hr with
    ⟨_, hbad⟩ | ⟨_, hdir, s, code, hv, rfl⟩
  · exact absurd hok hbad
  constructor
  · intro h
    exact ⟨hlong h, erased_reached t dirPath d names n hcuts hfile fuel io opts hd s code hv h,
      erased_unbroken t dirPath d names n hshape hdev hcuts hfile fuel io opts hd s code hv hfailed
        (hlong h) h⟩
  · rintro ⟨hshort, hreached, hbroken⟩
    exact reached_erased t dirPath d names n hshape hdev hcuts hfile hreg fuel io opts hd hdir s
      code hv hfailed hshort hreached hbroken

end Runs

/-- The runs that report success and no failed file. Those that have erased every regular
file had no file with a path too long; and where no path is cut to one that names something
they are the ones in which moreover every file could be reached and nothing broke the path
of the folder before its turn. -/
theorem folder_complete (t : FileTree) (dirPath : Text) (d : ℕ) (hd : t.lstat dirPath = some d)
    (hshape : t.TreeShaped d) (hdev : t.OneDevice d) (fuel : ℕ) (io : FolderIo)
    (opts : FolderEraseOptions) (run : FolderRun)
    (hr : folderErase fuel t io dirPath opts = some run) (hok : run.result.resultCode = .ok)
    (hfailed : run.result.filesFailed = 0) :
    ((∀ names n, t.descend d names = some n → t.kind n = .regular →
        Erased dirPath run.events names n) →
      ∀ names n, t.descend d names = some n → t.kind n = .regular →
        (descendant dirPath names).length < pathCap) ∧
    (NamelessCuts t dirPath d →
      ((∀ names n, t.descend d names = some n → t.kind n = .regular →
        Erased dirPath run.events names n) ↔
      ∀ names n, t.descend d names = some n → t.kind n = .regular →
        (descendant dirPath names).length < pathCap ∧ Reached io opts names ∧
          Unbroken t dirPath d io opts names)) := by
  constructor
  · intro hall names n hfile hreg
    exact erased_short t dirPath d names n fuel io opts run hd hr (hall names n hfile hreg)
  · intro hcuts
    have hone : ∀ names n, t.descend d names = some n → t.kind n = .regular →
        (Erased dirPath run.events names n ↔
          (descendant dirPath names).length < pathCap ∧ Reached io opts names ∧
            Unbroken t dirPath d io opts names) :=
      fun names n hfile hreg => file_erased_iff t dirPath d names n hshape hdev hcuts hfile hreg
        fuel io opts run hd hr hok hfailed
    constructor
    · exact fun hall names n hfile hreg => (hone names n hfile hreg).mp (hall names n hfile hreg)
    · exact fun hall names n hfile hreg => (hone names n hfile hreg).mpr (hall names n hfile hreg)

def nestedTree : FileTree where
  root := 0
  cwd := 0
  object
    | 3 => .regular [1]
    | _ => .directory 4096
  directory n := .ofEntries (match n with
    | 0 => [(['a'], 1)]
    | 1 => [(['b'], 2)]
    | 2 => [(['f'], 3)]
    | _ => [])
  parent n := n-1
  device _ := 0
  target _ := []

theorem nested_find (n m : ℕ) (name : Text) (h : (nestedTree.directory n).find name = some m) :
    n = 0 ∧ name = ['a'] ∧ m = 1 ∨ n = 1 ∧ name = ['b'] ∧ m = 2 ∨ n = 2 ∧ name = ['f'] ∧ m = 3 := by
  rw [Directory.find_iff] at h
  match n with
  | 0 =>
    rw [show (nestedTree.directory 0).entries = [(['a'], 1)] by decide,
      List.mem_singleton] at h
    cases h
    exact Or.inl ⟨rfl, rfl, rfl⟩
  | 1 =>
    rw [show (nestedTree.directory 1).entries = [(['b'], 2)] by decide,
      List.mem_singleton] at h
    cases h
    exact Or.inr (Or.inl ⟨rfl, rfl, rfl⟩)
  | 2 =>
    rw [show (nestedTree.directory 2).entries = [(['f'], 3)] by decide,
      List.mem_singleton] at h
    cases h
    exact Or.inr (Or.inr ⟨rfl, rfl, rfl⟩)
  | n+3 => exact absurd h List.not_mem_nil

theorem nested_descend (names : List Text) (n : ℕ) (h : nestedTree.descend 1 names = some n) :
    names = [] ∧ n = 1 ∨ names = [['b']] ∧ n = 2 ∨ names = [['b'], ['f']] ∧ n = 3 := by
  induction names using List.reverseRecOn generalizing n with
  | nil =>
    cases h
    exact Or.inl ⟨rfl, rfl⟩
  | append_singleton names name ih =>
    obtain ⟨k, hk, _, hfind⟩ := descend_split nestedTree 1 n names name h
    rcases nested_find k n name hfind with ⟨rfl, _⟩ | ⟨rfl, rfl, rfl⟩ | ⟨rfl, rfl, rfl⟩
    · have hzero := ih 0 hk
      simp at hzero
    · rcases ih 1 hk with ⟨rfl, _⟩ | ⟨_, h1⟩ | ⟨_, h1⟩
      · exact Or.inr (Or.inl ⟨rfl, rfl⟩)
      · exact absurd h1 (by decide)
      · exact absurd h1 (by decide)
    · rcases ih 2 hk with ⟨_, h2⟩ | ⟨rfl, _⟩ | ⟨_, h2⟩
      · exact absurd h2 (by decide)
      · exact Or.inr (Or.inr ⟨rfl, rfl⟩)
      · exact absurd h2 (by decide)

theorem nested_shaped : nestedTree.TreeShaped 1 := by
  intro names names' n _ h h'
  have hother := nested_descend names' n h'
  apply Eq.symm
  rcases nested_descend names n h with ⟨rfl, rfl⟩ | ⟨rfl, rfl⟩ | ⟨rfl, rfl⟩
  · simpa using hother
  · simpa using hother
  · simpa using hother

theorem nested_fits (dirPath : Text) (hlen : dirPath.length < 256) : Fits nestedTree dirPath 1 := by
  intro names n _ h
  rcases nested_descend names n h with ⟨rfl, _⟩ | ⟨rfl, _⟩ | ⟨rfl, _⟩ <;>
    simp [descendant, child, pathCap] <;> omega

theorem nested_anchored : Anchored nestedTree ['a'] 1 := by
  intro t' hshrunk houtside
  have hroot : t'.directory 0 = nestedTree.directory 0 := by
    apply houtside
    rintro ⟨names, hnames⟩
    have hzero := nested_descend names 0 hnames
    simp at hzero
  have hlocate : t'.locate ['a'] = some (0, ['a']) := by
    rw [locate, if_neg (by decide), show (components ['a']).dropLast = [] by decide, walk_nil,
      start, if_neg (by decide), hshrunk.cwd]
    rfl
  rw [lstat, hlocate]
  show t'.lookup 0 ['a'] = some 1
  rw [lookup_name t' 0 ['a'] (hshrunk.kind 0) (by decide), hroot]
  decide

def unreadableIo : FolderIo := { FolderIo.calm with opendir := fun chain => chain ≠ [['b']] }

/-- The run reports success and no failed file, and the file in the inner folder
is still there; so it does with a depth limit of zero and no failure at all. -/
theorem inner_file_left : nestedTree.lstat ['a'] = some 1 ∧ nestedTree.TreeShaped 1 ∧
    nestedTree.OneDevice 1 ∧
    (∃ run, folderErase 1 nestedTree unreadableIo ['a'] folderEraseOptionsInit = some run ∧
      run.result.resultCode = .ok ∧ run.result.filesFailed = 0 ∧
      nestedTree.descend 1 [['b'], ['f']] = some 3 ∧ nestedTree.kind 3 = .regular ∧
      ¬ Erased ['a'] run.events [['b'], ['f']] 3) ∧
    ∃ run, folderErase 1 nestedTree .calm ['a'] { folderEraseOptionsInit with maxDepth := 0 } =
        some run ∧
      run.result.resultCode = .ok ∧ run.result.filesFailed = 0 ∧
      ¬ Erased ['a'] run.events [['b'], ['f']] 3 := by
  refine ⟨by decide, nested_shaped, fun _ _ => rfl, ?_, ?_⟩
  · have h : (folderErase 1 nestedTree unreadableIo ['a'] folderEraseOptionsInit).any (fun run =>
        run.result.resultCode = .ok && run.result.filesFailed = 0 &&
          decide (run.events = [.opendir ['a'], .rmdir ['a'] (some 1)])) = true := by
      decide
    obtain ⟨run, hrun, hresult⟩ := (Option.any_eq_true _ _).mp h
    simp only [Bool.and_eq_true, decide_eq_true_eq] at hresult
    refine ⟨run, hrun, hresult.1.1, hresult.1.2, by decide, rfl, ?_⟩
    rw [FolderWays.Erased, hresult.2]
    simp
  · have h : (folderErase 1 nestedTree .calm ['a']
        { folderEraseOptionsInit with maxDepth := 0 }).any (fun run =>
        run.result.resultCode = .ok && run.result.filesFailed = 0 &&
          decide (run.events = [.opendir ['a'], .rmdir ['a'] (some 1)])) = true := by
      decide
    obtain ⟨run, hrun, hresult⟩ := (Option.any_eq_true _ _).mp h
    simp only [Bool.and_eq_true, decide_eq_true_eq] at hresult
    refine ⟨run, hrun, hresult.1.1, hresult.1.2, ?_⟩
    rw [FolderWays.Erased, hresult.2]
    simp

theorem nested_unbroken (dirPath : Text) (io : FolderIo) (opts : FolderEraseOptions)
    (names : List Text) (n : ℕ) (h : nestedTree.descend 1 names = some n) :
    Unbroken nestedTree dirPath 1 io opts names := by
  rintro chain ⟨_, _, _, m, _, _, hm, _⟩ ⟨above, k, before, name, after, habove, horder, hnext,
    other, hother, hpre⟩
  exfalso
  have hentry : ∀ x whole m, nestedTree.descend 1 whole = some m → above++[x] <+: whole →
      ∃ i, (nestedTree.directory k).find x = some i := by
    rintro x whole m hwhole ⟨rest, rfl⟩
    rw [descend_append] at hwhole
    obtain ⟨i, hi, _⟩ := Option.bind_eq_some_iff.mp hwhole
    obtain ⟨k', hk', _, hfind⟩ := descend_split nestedTree 1 i above x hi
    obtain rfl := Option.some.inj (habove.symm.trans hk')
    exact ⟨i, hfind⟩
  obtain ⟨i, hi⟩ := hentry name names n h hnext
  obtain ⟨j, hj⟩ := hentry other chain m hm hpre
  have hsame : other = name := by
    have hi' := nested_find k i name hi
    have hj' := nested_find k j other hj
    grind
  have hnodup := (io.reads above (listing nestedTree k)).nodup_iff.mpr (listing_nodup nestedTree k)
  rw [horder] at hnodup
  exact (List.nodup_append.mp hnodup).2.2 other hother name List.mem_cons_self hsame

/-- Without a failure the inner file is erased, also when the path of the folder leads
through the inner folder, which is removed. -/
theorem folder_complete_nested : ∃ run,
    folderErase 1 nestedTree .calm "a/b/..".toList folderEraseOptionsInit = some run ∧
    (nestedTree.erase 1 ['b']).lstat "a/b/..".toList = none ∧
    ∀ names n, nestedTree.descend 1 names = some n → nestedTree.kind n = .regular →
      Erased "a/b/..".toList run.events names n := by
  have h : (folderErase 1 nestedTree .calm "a/b/..".toList folderEraseOptionsInit).any (fun run =>
      run.result.resultCode = .ok && decide (run.result.filesFailed = 0)) = true := by
    decide +kernel
  obtain ⟨run, hrun, hresult⟩ := (Option.any_eq_true _ _).mp h
  simp only [Bool.and_eq_true, decide_eq_true_eq] at hresult
  refine ⟨run, hrun, by decide, ((folder_complete nestedTree "a/b/..".toList 1
    (by decide) nested_shaped (fun _ _ => rfl) 1 .calm folderEraseOptionsInit run hrun
    hresult.1 hresult.2).2 (fits_nameless _ _ _ (nested_fits _ (by decide)))).mpr ?_⟩
  intro names n hn _
  have hsmall : (descendant "a/b/..".toList names).length < pathCap ∧
      names.length ≤ folderEraseOptionsInit.maxDepth+1 := by
    rcases nested_descend names n hn with ⟨rfl, _⟩ | ⟨rfl, _⟩ | ⟨rfl, _⟩ <;> decide
  exact ⟨hsmall.1, ⟨hsmall.2, fun _ _ => ⟨fun _ => rfl, fun _ => ⟨rfl, rfl⟩⟩⟩,
    nested_unbroken _ _ _ names n hn⟩

end EraseCure.FolderFailures
