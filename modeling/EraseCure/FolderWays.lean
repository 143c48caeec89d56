import EraseCure.FolderVisits

/-!
# The way to a file below a folder

A file is reached through the directories above it. A visit of one of them goes
through its entries, and those that are not on the way leave the way as it is.
-/

set_option autoImplicit false

namespace EraseCure.FolderWays
open EraseCure.CText EraseCure.ErrorCodes EraseCure.FileSystems EraseCure.FileEraser
open EraseCure.PathNames EraseCure.FileTrees EraseCure.FileCalls EraseCure.FolderEraser
open EraseCure.FolderVisits
open EraseCure.FileTrees.FileTree

/-- Every path below the directory fits into the array. -/
def Fits (t : FileTree) (dirPath : Text) (d : ℕ) : Prop :=
  ∀ names n, names ≠ [] → t.descend d names = some n →
    (descendant dirPath names).length < pathCap

/-- A path below the directory that does not fit is cut to one that names nothing. -/
def NamelessCuts (t : FileTree) (dirPath : Text) (d : ℕ) : Prop :=
  ∀ names n, names ≠ [] → t.descend d names = some n →
    pathCap ≤ (descendant dirPath names).length →
      t.lstat ((descendant dirPath names).take (pathCap-1)) = none

theorem fits_nameless (t : FileTree) (dirPath : Text) (d : ℕ) (h : Fits t dirPath d) :
    NamelessCuts t dirPath d :=
  fun names n hne hn hlong => absurd (h names n hne hn) (Nat.not_lt.mpr hlong)

/-- Whatever is taken away below the directory, the path still names it. -/
def Anchored (t : FileTree) (dirPath : Text) (d : ℕ) : Prop :=
  ∀ t', Shrunk t t' → (∀ n, ¬ t.Within d n → t'.directory n = t.directory n) →
    t'.lstat dirPath = some d

/-- The way to an entry: it can be examined, and so can every directory above,
which can also be opened. -/
def Passed (io : FolderIo) (names : List Text) : Prop :=
  ∀ above, above <+: names → (above ≠ [] → io.lstatEntry above = true) ∧
    (above ≠ names → io.lstatDir above = true ∧ io.opendir above = true)

/-- The file lies within the depth limit and no call on the way to it fails. -/
def Reached (io : FolderIo) (opts : FolderEraseOptions) (names : List Text) : Prop :=
  names.length ≤ opts.maxDepth+1 ∧ Passed io names

/-- The file was given to the file eraser, which succeeded. -/
def Erased (dirPath : Text) (events : List FolderEvent) (names : List Text) (n : ℕ) : Prop :=
  FolderEvent.fileErase (descendant dirPath names) (some n) .ok ∈ events

section Ways
variable (t : FileTree) (dirPath : Text) (d : ℕ)

/-- The directory and the name that the path of an entry stands for. -/
structure Spot (chain : List Text) (path : Text) : Prop where
  fits : path.length < pathCap
  straight : Straight t dirPath d chain path
  entry : ∃ above name k, chain = above++[name] ∧ path = child (descendant dirPath above) name ∧
    FileName name ∧ t.descend d above = some k ∧ t.kind k = .directory ∧
    t.locate path = some (k, name)

theorem spot_child (chain : List Text) (path name : Text) (n m : ℕ)
    (h : Straight t dirPath d chain path) (hn : t.lstat path = some n)
    (hk : t.kind n = .directory) (hm : (t.directory n).find name = some m)
    (hshort : (child path name).length < pathCap) :
    Spot t dirPath d (chain++[name]) (child path name) := by
  have hname := (t.directory n).find_named name m hm
  refine ⟨hshort, straight_child t dirPath d chain path name n m h hn hk hm hshort, ?_⟩
  exact ⟨chain, name, n, rfl, by rw [h.spelled], hname, h.leads n hn, hk,
    locate_child t path name n hn hk hname.2.1 (hshort.trans (by decide))⟩

theorem fitting_spot (hfits : Fits t dirPath d) (chain : List Text) (path name : Text) (n m : ℕ)
    (h : Straight t dirPath d chain path) (hn : t.lstat path = some n)
    (hk : t.kind n = .directory) (hm : (t.directory n).find name = some m) :
    entryPath path name = child path name ∧
      Spot t dirPath d (chain++[name]) (child path name) := by
  have hshort := hfits (chain++[name]) m (by simp)
    ((descend_concat t d n chain name (h.leads n hn) hk).trans hm)
  rw [descendant_concat, ← h.spelled] at hshort
  exact ⟨entryPath_fits path name hshort,
    spot_child t dirPath d chain path name n m h hn hk hm hshort⟩

/-- What holds of an entry if its path names something. -/
def Existing (At : ℕ → List Text → Text → Prop) (levels : ℕ) (chain : List Text) (path : Text) :
    Prop :=
  t.lstat path ≠ none → At levels chain path

theorem existing_found (At : ℕ → List Text → Text → Prop) (levels : ℕ) (chain : List Text)
    (path : Text) (h : Existing t At levels chain path) (t' : FileTree) (hshrunk : Shrunk t t')
    (n : ℕ) (hn : t'.lstat path = some n) : At levels chain path :=
  h (by rw [lstat_shrunk t t' hshrunk path n hn]; exact Option.some_ne_none n)

/-- An entry whose path names something has a path that fits. -/
theorem named_spot (hcuts : NamelessCuts t dirPath d) (chain : List Text) (path name : Text)
    (n m : ℕ) (h : Straight t dirPath d chain path) (hn : t.lstat path = some n)
    (hk : t.kind n = .directory) (hm : (t.directory n).find name = some m)
    (hnamed : t.lstat (entryPath path name) ≠ none) :
    entryPath path name = child path name ∧
      Spot t dirPath d (chain++[name]) (child path name) := by
  have hshort : (child path name).length < pathCap := by
    by_contra hlong
    have hnone := hcuts (chain++[name]) m (by simp)
      ((descend_concat t d n chain name (h.leads n hn) hk).trans hm)
    rw [descendant_concat, ← h.spelled] at hnone
    exact hnamed (hnone (Nat.not_lt.mp hlong))
  exact ⟨entryPath_fits path name hshort,
    spot_child t dirPath d chain path name n m h hn hk hm hshort⟩

theorem listed_spot (hcuts : NamelessCuts t dirPath d) (t' : FileTree) (hshrunk : Shrunk t t')
    (chain : List Text) (path name : Text) (n : ℕ) (h : Straight t dirPath d chain path)
    (hn : t'.lstat path = some n) (hk : t.kind n = .directory) (hname : name ∈ listing t' n)
    (hdot : name ≠ ".".toList) (hdotdot : name ≠ "..".toList)
    (hnamed : t.lstat (entryPath path name) ≠ none) :
    entryPath path name = child path name ∧
      Spot t dirPath d (chain++[name]) (child path name) := by
  rw [listing, List.mem_cons, List.mem_cons] at hname
  obtain ⟨m, hm⟩ := (Directory.mem_names _ _).mp
    ((hname.resolve_left hdot).resolve_left hdotdot)
  exact named_spot t dirPath d hcuts chain path name n m h (lstat_shrunk t t' hshrunk path n hn) hk
    (hshrunk.find n name m hm) hnamed

variable (names : List Text) (n : ℕ)

/-- The names still lead to the file, and nothing outside has changed. -/
structure Leading (t' : FileTree) : Prop where
  shrunk : Shrunk t t'
  outside : ∀ m, ¬ t.Within d m → t'.directory m = t.directory m
  way : t'.descend d names = some n

theorem leading_objects (t' : FileTree) (object : ℕ → Object) (h : Leading t d names n t')
    (hk : ∀ m, kindOf (object m) = t'.kind m) :
    Leading t d names n { t' with object := object } := by
  refine ⟨shrunk_trans _ _ _ h.shrunk (shrunk_objects t' object hk), h.outside, ?_⟩
  rw [descend_objects t' object hk]
  exact h.way

theorem leading_erase (hshape : t.TreeShaped d) (t' : FileTree) (chain : List Text)
    (h : Leading t d names n t') (hoff : ¬ chain <+: names) (above : List Text) (name : Text)
    (k : ℕ) (hchain : chain = above++[name]) (habove : t.descend d above = some k)
    (hk : t.kind k = .directory) : Leading t d names n (t'.erase k name) := by
  refine ⟨shrunk_trans _ _ _ h.shrunk (shrunk_erase t' k name), fun m hm => ?_, ?_⟩
  · rw [← h.outside m hm]
    apply Function.update_of_ne
    rintro rfl
    exact hm ⟨above, habove⟩
  · refine descend_kept t t' d k hshape h.shrunk above name habove hk names n h.way ?_
    rwa [← hchain]

/-- The names still lead to the file, and no directory on the way from the given
depth on was visited. -/
structure OnTheWay (depth : ℕ) (s : FolderState) : Prop where
  leading : Leading t d names n s.tree
  unseen : ∀ above k, above <+: names → t.kind k = .directory → t.descend d above = some k →
    (t.device k, k) ∈ s.seen → above.length < depth

def Aside (_ : ℕ) (chain : List Text) (path : Text) : Prop :=
  ¬ chain <+: names ∧ Spot t dirPath d chain path

theorem aside_child (hcuts : NamelessCuts t dirPath d) (t' : FileTree) (hshrunk : Shrunk t t')
    (levels below : ℕ) (chain : List Text) (path name : Text) (m : ℕ)
    (hat : Aside t dirPath d names levels chain path) (hm : t'.lstat path = some m)
    (hk : t'.kind m = .directory) (hname : name ∈ (t'.directory m).names) :
    Existing t (Aside t dirPath d names) below (chain++[name]) (entryPath path name) := by
  intro hnamed
  obtain ⟨j, hj⟩ := (Directory.mem_names _ _).mp hname
  obtain ⟨hpath, hspot⟩ := named_spot t dirPath d hcuts chain path name m j hat.2.straight
    (lstat_shrunk t t' hshrunk path m hm) (hshrunk.kind m ▸ hk) (hshrunk.find m name j hj) hnamed
  rw [hpath]
  exact ⟨fun hpre => hat.1 ((List.prefix_append _ _).trans hpre), hspot⟩

variable (hshape : t.TreeShaped d) (hcuts : NamelessCuts t dirPath d)
include hshape

theorem leading_unlink (levels : ℕ) (chain : List Text) (path : Text) (t' : FileTree)
    (hat : Aside t dirPath d names levels chain path) (h : Leading t d names n t') :
    Leading t d names n (t'.unlink path) := by
  obtain ⟨above, name, k, hchain, _, _, habove, hk, hlocate⟩ := hat.2.entry
  cases hl : t'.locate path with
  | none =>
    rw [unlink, hl]
    exact h
  | some r =>
    have hr := locate_shrunk t _ h.shrunk path r hl
    rw [hlocate] at hr
    cases hr
    rw [unlink_located _ _ _ _ hl]
    exact leading_erase t d names n hshape _ chain h hat.1 above name k hchain habove hk

theorem leading_rmdir (levels : ℕ) (chain : List Text) (path : Text) (t' t'' : FileTree)
    (hat : Aside t dirPath d names levels chain path) (h : Leading t d names n t')
    (hrmdir : t'.rmdir path = some t'') : Leading t d names n t'' := by
  obtain ⟨above, name, k, hchain, hpath, hname, habove, hk, hlocate⟩ := hat.2.entry
  rw [hpath] at hlocate hrmdir
  cases hl : t'.locate (child (descendant dirPath above) name) with
  | none =>
    rw [rmdir, rdropWhile_child _ _ hname, hl] at hrmdir
    contradiction
  | some r =>
    have hr := locate_shrunk t _ h.shrunk _ r hl
    rw [hlocate] at hr
    cases hr
    rw [rmdir_located _ _ _ _ _ hname hl hrmdir]
    exact leading_erase t d names n hshape _ chain h hat.1 above name k hchain habove hk

theorem record_unseen (depth levels : ℕ) (chain : List Text) (path : Text) (s : FolderState)
    (m : ℕ) (hat : Aside t dirPath d names levels chain path) (h : OnTheWay t d names n depth s)
    (hm : s.tree.lstat path = some m) : OnTheWay t d names n depth (s.record m) := by
  constructor
  · rw [record_tree]
    exact h.leading
  · intro above k habove hdir hdescend hmem
    rcases record_seen s m _ hmem with hmem | heq
    · exact h.unseen above k habove hdir hdescend hmem
    · have hk' : k = m := congrArg Prod.snd heq
      subst hk'
      have hchain := hat.2.straight.leads k (lstat_shrunk t s.tree h.leading.shrunk path k hm)
      rw [hshape above chain k hdir hdescend hchain] at habove
      exact absurd habove hat.1

include hcuts

/-- Visits aside leave the way as it is. -/
theorem aside_rule (fuel : ℕ) (io : FolderIo) (opts : FolderEraseOptions) (initialDev depth : ℕ) :
    VisitRule fuel io opts initialDev (OnTheWay t d names n depth) (Aside t dirPath d names)
      (Existing t (Aside t dirPath d names)) where
  message := fun _ _ h => ⟨h.leading, h.unseen⟩
  skip := fun _ h => ⟨h.leading, h.unseen⟩
  record := fun levels chain path s m hat h hm _ =>
    record_unseen t dirPath d names n hshape depth levels chain path s m hat h hm
  opened := fun _ _ _ _ _ h => ⟨h.leading, h.unseen⟩
  child := fun levels chain path s m name hat h hm hk _ _ hname =>
    aside_child t dirPath d names hcuts s.tree h.leading.shrunk (levels+1) levels chain path name m
      hat hm hk hname
  file := by
    intro levels chain path s m run hat h _ hm _ hrun
    replace hat := existing_found t _ levels chain path hat s.tree h.leading.shrunk m hm
    have hobjects := leading_objects t d names n s.tree run.fs.object h.leading
      (fileErase_kind _ _ _ _ _ _ hrun)
    refine ⟨?_, h.unseen⟩
    unfold FolderState.erased
    dsimp only
    split
    · exact leading_unlink t dirPath d names n hshape levels chain path _ hat hobjects
    · exact hobjects
  down := fun levels chain path s m hat h _ hm _ =>
    existing_found t _ levels chain path hat s.tree h.leading.shrunk m hm
  leave := by
    intro levels chain path s s' m hat _ _ _ _ _ _ h'
    constructor
    · rcases leave_tree s' opts.removeDirs (io.rmdir chain) path with htree | ⟨_, _, hrmdir⟩
      · rw [htree]
        exact h'.leading
      · exact leading_rmdir t dirPath d names n hshape levels chain path _ _ hat h'.leading hrmdir
    · rw [leave_seen]
      exact h'.unseen

end Ways

section Runs
variable (t : FileTree) (dirPath : Text) (d : ℕ) (names : List Text) (n : ℕ)
  (hshape : t.TreeShaped d) (hdev : t.OneDevice d)
  (hshort : (descendant dirPath names).length < pathCap)
  (fuel : ℕ) (io : FolderIo) (opts : FolderEraseOptions)

include hshort in
/-- The paths of the way name what the names lead to. -/
theorem leading_lstat (t' : FileTree) (h : Leading t d names n t')
    (hroot : t'.lstat dirPath = some d) (above rest : List Text)
    (hnames : names = above++rest) (k : ℕ) (hk : t.descend d above = some k) :
    t'.lstat (descendant dirPath above) = some k := by
  have hway := h.way
  rw [hnames, descend_append] at hway
  obtain ⟨j, hj, _⟩ := Option.bind_eq_some_iff.mp hway
  have := descend_shrunk t t' h.shrunk d j above hj
  rw [hk] at this
  cases this
  apply lstat_descendant t' dirPath d k above hroot hj
  intro _
  rw [hnames] at hshort
  exact (Nat.lt_of_le_of_lt (descendant_length dirPath above rest) hshort).trans (by decide)

section Turns
variable {t dirPath d names n} {chain : List Text} {path : Text} {k : ℕ} {next : Text}
  {rest : List Text} {m : ℕ} (hturn : Turn t dirPath d names n chain path k next rest m)
include hturn

include hshort in
theorem turn_fits : (child path next).length < pathCap := by
  rw [← turn_path hturn]
  rw [turn_names hturn] at hshort
  exact Nat.lt_of_le_of_lt (descendant_length dirPath _ rest) hshort

variable (s : FolderState) (hroot : s.tree.lstat dirPath = some d)

include hshort hroot in
theorem turn_lstat (hway : Leading t d names n s.tree) : s.tree.lstat path = some k := by
  rw [hturn.straight.spelled]
  exact leading_lstat t dirPath d names n hshort s.tree hway hroot chain (next::rest) hturn.names k
    hturn.here

include hshort hroot in
theorem turn_lstat_child (hway : Leading t d names n s.tree) :
    s.tree.lstat (child path next) = some m := by
  rw [← turn_path hturn]
  exact leading_lstat t dirPath d names n hshort s.tree hway hroot (chain++[next]) rest
    (turn_names hturn) m (turn_descend hturn)

include hshort hroot in
theorem turn_listed (hway : Leading t d names n s.tree) :
    next ∈ io.readdir chain (listing s.tree k) := by
  have hlong := (turn_fits hshort hturn).trans (show pathCap < pathMax by decide)
  have hchild := lstat_child s.tree path next k (turn_lstat hshort hturn s hroot hway)
    (hway.shrunk.kind k ▸ hturn.dir) (turn_named hturn) hlong
  rw [turn_lstat_child hshort hturn s hroot hway] at hchild
  apply (io.reads chain _).mem_iff.mpr
  apply List.mem_cons_of_mem
  apply List.mem_cons_of_mem
  exact (Directory.mem_names _ _).mpr ⟨m, hchild.symm⟩

include hdev hshort hroot in
theorem turn_enters (hpassed : Passed io names) (hway : OnTheWay t d names n chain.length s)
    (levels : ℕ) :
    folderEraseRecursive fuel io opts (t.device d) (levels+1) chain path s =
      (eraseEntries fuel io opts (t.device d) levels chain path
        (io.readdir chain (listing s.tree k)) ((s.record k).opened path)).map
        (fun s => (s.leave opts.removeDirs (io.rmdir chain) path, .ok)) := by
  obtain ⟨habove, hne⟩ := turn_above hturn
  obtain ⟨hup, hopened⟩ := (hpassed chain habove).2 hne
  have hfresh : (s.tree.device k, k) ∉ s.seen := by
    intro hmem
    rw [hway.leading.shrunk.device] at hmem
    exact Nat.lt_irrefl _ (hway.unseen chain k habove hturn.dir hturn.here hmem)
  have hdevice : s.tree.device k = t.device d := by
    rw [hway.leading.shrunk.device]
    exact hdev k ⟨chain, hturn.here⟩
  exact visit_enters fuel io opts (t.device d) levels chain path s k hup
    (turn_lstat hshort hturn s hroot hway.leading) (hway.leading.shrunk.kind k ▸ hturn.dir)
    (Or.inr hdevice) hfresh hopened

include hshape in
theorem turn_opened (hway : OnTheWay t d names n chain.length s) :
    OnTheWay t d names n (chain++[next]).length ((s.record k).opened path) := by
  rw [List.length_append, List.length_singleton]
  constructor
  · exact (record_tree s k) ▸ hway.leading
  · intro above j habove hj hdescend hmem
    rcases record_seen s k _ hmem with hmem | heq
    · exact Nat.lt_succ_of_lt (hway.unseen above j habove hj hdescend hmem)
    · have hjk : j = k := congrArg Prod.snd heq
      subst hjk
      rw [hshape above chain j hj hdescend hturn.here]
      exact Nat.lt_succ_self _

end Turns

end Runs

end EraseCure.FolderWays
