import EraseCure.FolderWays

/-!
# What a folder keeps

The path of a folder may lead through directories of the folder itself. A visit takes
an entry away only when all at it and below goes, so that a path is broken only by an
entry of which nothing is kept. A file is erased when no call on the way to it fails
and nothing breaks the path of the folder before its turn.
-/

set_option autoImplicit false

namespace EraseCure.FolderRoads
open EraseCure.CText EraseCure.ErrorCodes EraseCure.FileSystems EraseCure.FileEraser
open EraseCure.PathNames EraseCure.FileTrees EraseCure.FileCalls EraseCure.FolderEraser
open EraseCure.FolderVisits EraseCure.FolderWays
open EraseCure.FileTrees.FileTree

section Removals
variable (t : FileTree) (dirPath : Text) (d : ℕ) (io : FolderIo) (opts : FolderEraseOptions)

/-- The turn of an entry takes it away, when nothing is left below it. -/
structure Goes (chain : List Text) (n : ℕ) : Prop where
  fits : chain ≠ [] → (descendant dirPath chain).length < pathCap
  reached : Reached io opts chain
  taken : match t.kind n with
    | .regular => opts.fileOpts.removeFile = true ∧ (io.file chain).removed = true
    | .directory => chain.length ≤ opts.maxDepth ∧ io.lstatDir chain = true ∧
        io.opendir chain = true ∧ opts.removeDirs = true ∧ io.rmdir chain = true
    | .symlink | .special => False

/-- All that lies at an entry and below goes. -/
def Vanishes (chain : List Text) : Prop :=
  ∀ rest n, t.descend d (chain++rest) = some n → Goes t dirPath io opts (chain++rest) n

/-- The path of the folder leads through an entry of the folder. -/
def Needed (chain : List Text) : Prop :=
  ∃ above name k n, chain = above++[name] ∧ t.descend d above = some k ∧
    t.descend d chain = some n ∧ (t.erase k name).lstat dirPath = none

/-- Where two ways part, the turn of the first comes before that of the second. -/
def Earlier (chain names : List Text) : Prop :=
  ∃ above k before name after, t.descend d above = some k ∧
    io.readdir above (listing t k) = before++name::after ∧ above++[name] <+: names ∧
    ∃ other ∈ before, above++[other] <+: chain

/-- Nothing that the path of the folder leads through goes before the turn of a file. -/
def Unbroken (names : List Text) : Prop :=
  ∀ chain, Needed t dirPath d chain → Earlier t d io chain names →
    ¬ Vanishes t dirPath d io opts chain

structure Place (levels : ℕ) (chain : List Text) (path : Text) : Prop where
  level : levels+chain.length = opts.maxDepth+1
  passed : Passed io chain
  spot : Spot t dirPath d chain path

structure Candidate (levels : ℕ) (chain : List Text) (path : Text) : Prop where
  level : levels+chain.length = opts.maxDepth+1
  passed : io.lstatEntry chain = true → Passed io chain
  spot : Spot t dirPath d chain path

theorem passed_above (names chain : List Text) (h : Passed io names) (hpre : chain <+: names) :
    Passed io chain := by
  intro above habove
  refine ⟨(h above (habove.trans hpre)).1, fun hne => (h above (habove.trans hpre)).2 ?_⟩
  rintro rfl
  exact hne (habove.eq_of_length_le hpre.length_le)

theorem passed_child (chain : List Text) (name : Text) (h : Passed io chain)
    (hup : io.lstatDir chain = true) (hopen : io.opendir chain = true)
    (hentry : io.lstatEntry (chain++[name]) = true) : Passed io (chain++[name]) := by
  intro above habove
  rcases List.prefix_concat_iff.mp habove with rfl | hpre
  · exact ⟨fun _ => hentry, fun hne => absurd rfl hne⟩
  · refine ⟨(h above hpre).1, fun _ => ?_⟩
    by_cases hsame : above = chain
    · subst hsame
      exact ⟨hup, hopen⟩
    · exact (h above hpre).2 hsame

/-- What is not to go is still there. -/
structure Kept (s : FolderState) : Prop where
  shrunk : Shrunk t s.tree
  kept : ∀ names n, t.descend d names = some n → ¬ Goes t dirPath io opts names n →
    s.tree.descend d names = some n

theorem kept_tree (s s' : FolderState) (h : Kept t dirPath d io opts s) (htree : s'.tree = s.tree) :
    Kept t dirPath d io opts s' :=
  ⟨htree ▸ h.shrunk, htree ▸ h.kept⟩

theorem unlinked_entry (fuel : ℕ) (chain : List Text) (path : Text) (s : FolderState)
    (run : FileEraseRun) (hspot : Spot t dirPath d chain path) (hshrunk : Shrunk t s.tree)
    (hrun : fileErase fuel s.tree.files (io.file chain) path opts.fileOpts = some run)
    (hremoved : run.result.fileRemoved = true) :
    ∃ above name k, chain = above++[name] ∧ t.descend d above = some k ∧ t.kind k = .directory ∧
      (s.erased path run).tree = (rewritten s.tree run).erase k name := by
  obtain ⟨above, name, k, hchain, _, _, habove, hk, hlocate⟩ := hspot.entry
  refine ⟨above, name, k, hchain, habove, hk, ?_⟩
  obtain ⟨j, last, m, hj, _, _, hafter⟩ := call_located fuel s.tree (io.file chain) path
    opts.fileOpts run hrun hremoved
  have hsame := locate_shrunk t s.tree hshrunk path _ hj
  rw [hlocate] at hsame
  cases hsame
  exact hafter

/-- What a visit removes at its end is its own entry, a directory with nothing in it. -/
theorem emptied_entry (chain : List Text) (path : Text) (s : FolderState) (tree : FileTree)
    (hspot : Spot t dirPath d chain path) (hshrunk : Shrunk t s.tree)
    (hrmdir : s.tree.rmdir path = some tree) :
    ∃ above name k m, chain = above++[name] ∧ t.descend d above = some k ∧
      t.kind k = .directory ∧ (s.tree.directory k).find name = some m ∧
      t.kind m = .directory ∧ (s.tree.directory m).entries = [] ∧ tree = s.tree.erase k name := by
  obtain ⟨above, name, k, hchain, hpath, hname, habove, hk, hlocate⟩ := hspot.entry
  rw [hpath, rmdir, rdropWhile_child _ _ hname] at hrmdir
  split at hrmdir
  · contradiction
  rename_i j last hl
  have hsame := locate_shrunk t s.tree hshrunk _ _ hl
  rw [← hpath, hlocate] at hsame
  cases hsame
  split at hrmdir
  · contradiction
  rename_i m hm
  split_ifs at hrmdir with hall
  exact ⟨above, name, k, m, hchain, habove, hk, hm, (hshrunk.kind m).symm.trans hall.1, hall.2,
    (Option.some.inj hrmdir).symm⟩

theorem emptied_descend (tree : FileTree) (hshrunk : Shrunk t tree) (above rest : List Text)
    (name : Text) (k m n : ℕ) (habove : t.descend d above = some k)
    (hfind : (tree.directory k).find name = some m) (hempty : (tree.directory m).entries = [])
    (h : tree.descend d (above++[name]++rest) = some n) : rest = [] ∧ n = m := by
  rw [descend_append] at h
  obtain ⟨j, hj, hrest⟩ := Option.bind_eq_some_iff.mp h
  obtain ⟨k', hk', _, hj⟩ := descend_split tree d j above name hj
  obtain rfl := Option.some.inj ((descend_shrunk t tree hshrunk d k' above hk').symm.trans habove)
  obtain rfl := Option.some.inj (hj.symm.trans hfind)
  cases rest with
  | nil => exact ⟨rfl, (Option.some.inj hrest).symm⟩
  | cons next rest =>
    rw [descend] at hrest
    split_ifs at hrest
    obtain ⟨i, hi, _⟩ := Option.bind_eq_some_iff.mp hrest
    rw [Directory.find_iff, hempty] at hi
    contradiction

theorem removed_vanishes (levels : ℕ) (chain : List Text) (path : Text) (s : FolderState)
    (tree : FileTree) (hat : Place t dirPath d io opts (levels+1) chain path)
    (hup : io.lstatDir chain = true) (hopen : io.opendir chain = true)
    (h : Kept t dirPath d io opts s) (hdirs : opts.removeDirs = true)
    (hallowed : io.rmdir chain = true)
    (hrmdir : s.tree.rmdir path = some tree) : Vanishes t dirPath d io opts chain := by
  obtain ⟨above, name, k, m, hchain, habove, _, hfind, hdir, hempty, _⟩ := emptied_entry t dirPath d
    chain path s tree hat.spot h.shrunk hrmdir
  have hlevel := hat.level
  intro rest n hn
  by_contra hno
  have hstill := h.kept _ n hn hno
  rw [hchain] at hstill
  obtain ⟨rfl, rfl⟩ := emptied_descend t d s.tree h.shrunk above rest name k m n habove hfind hempty
    hstill
  rw [List.append_nil] at hno
  refine hno ⟨fun _ => hat.spot.straight.spelled ▸ hat.spot.fits, ⟨by omega, hat.passed⟩, ?_⟩
  rw [hdir]
  exact ⟨by omega, hup, hopen, hdirs, hallowed⟩

theorem unlinked_vanishes (fuel levels : ℕ) (chain : List Text) (path : Text) (s : FolderState)
    (n : ℕ) (run : FileEraseRun) (hat : Candidate t dirPath d io opts levels chain path)
    (hshrunk : Shrunk t s.tree) (hentry : io.lstatEntry chain = true)
    (hn : s.tree.lstat path = some n) (hreg : s.tree.kind n = .regular)
    (hrun : fileErase fuel s.tree.files (io.file chain) path opts.fileOpts = some run)
    (hremoved : run.result.fileRemoved = true) : Vanishes t dirPath d io opts chain := by
  have hleads := hat.spot.straight.leads n (lstat_shrunk t s.tree hshrunk path n hn)
  have hkind : t.kind n = .regular := (hshrunk.kind n).symm.trans hreg
  intro rest m hm
  rw [descend_append, hleads] at hm
  obtain rfl := descend_file t n m rest (by rw [hkind]; decide) hm
  obtain rfl := Option.some.inj hm
  rw [List.append_nil]
  refine ⟨fun _ => hat.spot.straight.spelled ▸ hat.spot.fits,
    ⟨by have := hat.level; omega, hat.passed hentry⟩, ?_⟩
  rw [hkind]
  exact call_removed fuel s.tree (io.file chain) path opts.fileOpts run hrun hremoved

variable (hshape : t.TreeShaped d) (hcuts : NamelessCuts t dirPath d)
include hcuts

theorem place_child (levels : ℕ) (chain : List Text) (path : Text) (s : FolderState) (n : ℕ)
    (name : Text) (hlevel : levels+1+chain.length = opts.maxDepth+1) (hpassed : Passed io chain)
    (hstraight : Straight t dirPath d chain path) (hshrunk : Shrunk t s.tree)
    (hn : s.tree.lstat path = some n)
    (hk : s.tree.kind n = .directory) (hup : io.lstatDir chain = true)
    (hopen : io.opendir chain = true) (hname : name ∈ (s.tree.directory n).names) :
    Existing t (Candidate t dirPath d io opts) levels (chain++[name]) (entryPath path name) := by
  intro hnamed
  obtain ⟨j, hj⟩ := (Directory.mem_names _ _).mp hname
  obtain ⟨hpath, hspot⟩ := named_spot t dirPath d hcuts chain path name n j hstraight
    (lstat_shrunk t s.tree hshrunk path n hn) (hshrunk.kind n ▸ hk) (hshrunk.find n name j hj)
    hnamed
  rw [hpath]
  refine ⟨?_, passed_child io chain name hpassed hup hopen, hspot⟩
  rw [List.length_append, List.length_singleton]
  omega

include hshape

theorem kept_rule (fuel initialDev : ℕ) :
    VisitRule fuel io opts initialDev (Kept t dirPath d io opts) (Place t dirPath d io opts)
      (Existing t (Candidate t dirPath d io opts)) where
  message := fun _ _ h => ⟨h.shrunk, h.kept⟩
  skip := fun _ h => ⟨h.shrunk, h.kept⟩
  record := fun _ _ _ s n _ h _ _ => kept_tree t dirPath d io opts _ _ h (record_tree s n)
  opened := fun _ _ _ _ _ h => ⟨h.shrunk, h.kept⟩
  child := fun levels chain path s n name hat h hn hk hup hopen hname =>
    place_child t dirPath d io opts hcuts levels chain path s n name hat.level hat.passed
      hat.spot.straight h.shrunk hn hk hup hopen hname
  file := by
    intro levels chain path s n run hat h hentry hn hreg hrun
    replace hat := existing_found t _ levels chain path hat s.tree h.shrunk n hn
    refine ⟨shrunk_trans _ _ _ h.shrunk (erased_shrunk s _ _ _ _ run hrun),
      fun names m hm hno => ?_⟩
    have hthere := h.kept names m hm hno
    have hrewritten : (rewritten s.tree run).descend d names = some m := by
      rw [rewritten, descend_objects s.tree run.fs.object (fileErase_kind _ _ _ _ _ _ hrun)]
      exact hthere
    by_cases hremoved : run.result.fileRemoved = true
    · have hvanishes := unlinked_vanishes t dirPath d io opts fuel levels chain path s n run hat
        h.shrunk hentry hn hreg hrun hremoved
      obtain ⟨above, name, k, hchain, habove, hk, htree⟩ := unlinked_entry t dirPath d io opts fuel
        chain path s run hat.spot h.shrunk hrun hremoved
      rw [htree]
      refine descend_kept t _ d k hshape (shrunk_trans _ _ _ h.shrunk (rewritten_shrunk fuel s.tree
        (io.file chain) path opts.fileOpts run hrun).1) above name habove hk names m hrewritten ?_
      rintro ⟨rest, rfl⟩
      rw [← hchain] at hm hno
      exact hno (hvanishes rest m hm)
    · rw [erased_tree, afterCall, if_neg hremoved]
      exact hrewritten
  down := by
    intro levels chain path s n hat h hentry hn _
    replace hat := existing_found t _ levels chain path hat s.tree h.shrunk n hn
    exact ⟨hat.level, hat.passed hentry, hat.spot⟩
  leave := by
    intro levels chain path s s' n hat _ _ _ _ hup hopen h'
    rcases leave_tree s' opts.removeDirs (io.rmdir chain) path with
      htree | ⟨hdirs, hallowed, hrmdir⟩
    · exact kept_tree t dirPath d io opts _ _ h' htree
    · have hvanishes := removed_vanishes t dirPath d io opts levels chain path s' _ hat hup hopen h'
        hdirs hallowed hrmdir
      obtain ⟨above, name, k, _, hchain, habove, hk, _, _, _, htree⟩ := emptied_entry t dirPath d
        chain path s' _ hat.spot h'.shrunk hrmdir
      refine ⟨shrunk_trans _ _ _ h'.shrunk (leave_shrunk s' _ _ path), fun names m hm hno => ?_⟩
      rw [htree]
      refine descend_kept t _ d k hshape h'.shrunk above name habove hk names m
        (h'.kept names m hm hno) ?_
      rintro ⟨rest, rfl⟩
      rw [← hchain] at hm hno
      exact hno (hvanishes rest m hm)

end Removals

section Beside
variable (above before names : List Text) (next : Text)

/-- Below one of the entries whose turn comes before that of the next one on the way. -/
def Beside (chain : List Text) : Prop := ∃ other ∈ before, above++[other] <+: chain

variable {above before names next} (hnext : above++[next] <+: names) (hother : next ∉ before)
  {chain : List Text} (h : Beside above before chain)
include hnext hother h

theorem beside_apart (upper : List Text) (hupper : upper <+: names)
    (hlen : above.length < upper.length) : ¬ upper <+: chain := by
  intro hpre
  obtain ⟨other, hmem, hchain⟩ := h
  have hway : above++[next] <+: upper := List.prefix_of_prefix_length_le hnext hupper (by simpa)
  have hsame := (List.prefix_of_prefix_length_le (hway.trans hpre) hchain (by simp)).eq_of_length
    (by simp)
  exact hother (List.singleton_inj.mp (List.append_cancel_left hsame) ▸ hmem)

theorem beside_off : ¬ chain <+: names := by
  intro hpre
  obtain ⟨other, hmem, hchain⟩ := id h
  refine beside_apart hnext hother h chain hpre ?_ List.prefix_rfl
  have hlen := hchain.length_le
  rw [List.length_append, List.length_singleton] at hlen
  omega

end Beside

section Road
variable (t : FileTree) (dirPath : Text) (d : ℕ) (names : List Text) (n : ℕ) (io : FolderIo)
  (opts : FolderEraseOptions)

/-- The way is as it was, the path of the folder names it, and no entry of a directory
on the way from the given depth on was taken away. -/
structure OnTheRoad (depth : ℕ) (s : FolderState) : Prop where
  way : OnTheWay t d names n depth s
  kept : Kept t dirPath d io opts s
  root : s.tree.lstat dirPath = some d
  whole : ∀ above k, above <+: names → t.descend d above = some k → depth ≤ above.length →
    s.tree.directory k = t.directory k

variable (above before after : List Text) (next : Text) (k : ℕ) (hshape : t.TreeShaped d)
  (hcuts : NamelessCuts t dirPath d) (hd : t.lstat dirPath = some d)
  (hdir : t.kind d = .directory) (habove : t.descend d above = some k)
  (hnext : above++[next] <+: names) (hother : next ∉ before)
include hshape hnext hother

/-- What a removal beside the way takes away is in none of its later directories. -/
theorem whole_erase (tree : FileTree) (chain upper : List Text) (name : Text) (j i : ℕ)
    (hbeside : Beside above before chain) (hchain : ∃ pre, chain = pre++[name] ∧
      t.descend d pre = some j ∧ t.kind j = .directory) (hupper : upper <+: names)
    (hi : t.descend d upper = some i) (hlen : above.length < upper.length) :
    (tree.erase j name).directory i = tree.directory i := by
  obtain ⟨pre, rfl, hj, hjdir⟩ := hchain
  apply Function.update_of_ne
  rintro rfl
  obtain rfl := hshape upper pre i hjdir hi hj
  exact beside_apart hnext hother hbeside upper hupper hlen (List.prefix_append _ _)

include hcuts habove hd hdir

theorem road_rule (fuel initialDev : ℕ) (hbroken : Unbroken t dirPath d io opts names)
    (horder : io.readdir above (listing t k) = before++next::after) :
    VisitRule fuel io opts initialDev (OnTheRoad t dirPath d names n io opts (above.length+1))
      (fun levels chain path => Place t dirPath d io opts levels chain path ∧
        Beside above before chain)
      (Existing t fun levels chain path => Candidate t dirPath d io opts levels chain path ∧
        Beside above before chain) where
  message := fun _ _ h => ⟨⟨h.way.leading, h.way.unseen⟩, ⟨h.kept.shrunk, h.kept.kept⟩, h.root,
    h.whole⟩
  skip := fun _ h => ⟨⟨h.way.leading, h.way.unseen⟩, ⟨h.kept.shrunk, h.kept.kept⟩, h.root,
    h.whole⟩
  record := by
    intro levels chain path s m hat h hm hmdir
    have hrule := aside_rule t dirPath d names n hshape hcuts fuel io opts initialDev
      (above.length+1)
    refine ⟨hrule.record levels chain path s m ⟨beside_off hnext hother hat.2, hat.1.spot⟩ h.way hm
      hmdir, kept_tree t dirPath d io opts _ _ h.kept (record_tree s m), ?_, ?_⟩
    · rw [record_tree]
      exact h.root
    · rw [record_tree]
      exact h.whole
  opened := fun _ _ _ _ _ h => ⟨⟨h.way.leading, h.way.unseen⟩, ⟨h.kept.shrunk, h.kept.kept⟩,
    h.root, h.whole⟩
  child := by
    intro levels chain path s m name hat h hm hmdir hup hopen hname
    refine fun hnamed => ⟨place_child t dirPath d io opts hcuts levels chain path s m name
      hat.1.level hat.1.passed hat.1.spot.straight h.kept.shrunk hm hmdir hup hopen hname hnamed,
      ?_⟩
    obtain ⟨other, hmem, hpre⟩ := hat.2
    exact ⟨other, hmem, hpre.trans (List.prefix_append _ _)⟩
  file := by
    intro levels chain path s m run hat h hentry hm hreg hrun
    replace hat := existing_found t _ levels chain path hat s.tree h.kept.shrunk m hm
    have hway := (aside_rule t dirPath d names n hshape hcuts fuel io opts initialDev
      (above.length+1)).file levels chain path s m run
        (fun _ => ⟨beside_off hnext hother hat.2, hat.1.spot⟩) h.way hentry hm hreg hrun
    have hkept := (kept_rule t dirPath d io opts hshape hcuts fuel initialDev).file levels chain
      path s m run (fun _ => hat.1) h.kept hentry hm hreg hrun
    refine ⟨hway, hkept, ?_, fun upper i hupper hi hlen => ?_⟩
    · rw [erased_tree, call_kept fuel s.tree (io.file chain) path opts.fileOpts run hrun]
      · exact h.root
      · -- the file and the folder are not the same
        intro _ hsame
        have hroot := h.root
        rw [lstat, hsame, ← lstat, hm] at hroot
        obtain rfl := Option.some.inj hroot
        rw [h.kept.shrunk.kind, hdir] at hreg
        contradiction
    · by_cases hremoved : run.result.fileRemoved = true
      · obtain ⟨pre, name, j, hchain, hj, hjdir, htree⟩ := unlinked_entry t dirPath d io opts fuel
          chain path s run hat.1.spot h.kept.shrunk hrun hremoved
        rw [htree, whole_erase t d names above before next hshape hnext hother _ chain upper name
          j i hat.2 ⟨pre, hchain, hj, hjdir⟩ hupper hi hlen]
        exact h.whole upper i hupper hi hlen
      · rw [erased_tree, afterCall, if_neg hremoved]
        exact h.whole upper i hupper hi hlen
  down := by
    intro levels chain path s m hat h hentry hm _
    replace hat := existing_found t _ levels chain path hat s.tree h.kept.shrunk m hm
    exact ⟨⟨hat.1.level, hat.1.passed hentry, hat.1.spot⟩, hat.2⟩
  leave := by
    intro levels chain path s s' m hat h hm hmdir hdev hup hopen h'
    have hway := (aside_rule t dirPath d names n hshape hcuts fuel io opts initialDev
      (above.length+1)).leave levels chain path s s' m
        ⟨beside_off hnext hother hat.2, hat.1.spot⟩ h.way hm hmdir hdev hup hopen h'.way
    have hkept := (kept_rule t dirPath d io opts hshape hcuts fuel initialDev).leave levels chain
      path s s' m hat.1 h.kept hm hmdir hdev hup hopen h'.kept
    rcases leave_tree s' opts.removeDirs (io.rmdir chain) path with
      htree | ⟨hdirs, hallowed, hrmdir⟩
    · refine ⟨hway, hkept, ?_, ?_⟩
      · rw [htree]
        exact h'.root
      · rw [htree]
        exact h'.whole
    · have hvanishes := removed_vanishes t dirPath d io opts levels chain path s' _ hat.1 hup hopen
        h'.kept hdirs hallowed hrmdir
      obtain ⟨pre, name, j, i, hchain, hj, hjdir, hi, _, _, htree⟩ := emptied_entry t dirPath d
        chain path s' _ hat.1.spot h'.kept.shrunk hrmdir
      have hexists : t.descend d chain = some i := by
        rw [hchain, descend_concat t d j pre name hj hjdir]
        exact h'.kept.shrunk.find j name i hi
      refine ⟨hway, hkept, ?_, fun upper i hupper hi hlen => ?_⟩
      · rw [htree]
        apply lstat_erased t s'.tree h'.kept.shrunk j name dirPath d h'.root
        by_contra hnone
        refine hbroken chain ⟨pre, name, j, i, hchain, hj, hexists, by simpa using hnone⟩ ?_
          hvanishes
        exact ⟨above, k, before, next, after, habove, horder, hnext, hat.2⟩
      · rw [htree, whole_erase t d names above before next hshape hnext hother _ chain upper name
          j i hat.2 ⟨pre, hchain, hj, hjdir⟩ hupper hi hlen]
        exact h'.whole upper i hupper hi hlen

end Road

section Runs
variable (t : FileTree) (dirPath : Text) (d : ℕ) (names : List Text) (n : ℕ)
  (hshape : t.TreeShaped d) (hdev : t.OneDevice d) (hcuts : NamelessCuts t dirPath d)
  (hshort : (descendant dirPath names).length < pathCap)
  (hd : t.lstat dirPath = some d) (hdir : t.kind d = .directory)
  (hfile : t.descend d names = some n) (hreg : t.kind n = .regular) (fuel : ℕ) (io : FolderIo)
  (opts : FolderEraseOptions)

theorem erased_ok (s : FolderState) (path : Text) (m : ℕ) (run : FileEraseRun)
    (hm : s.tree.lstat path = some m) (h : (s.erased path run).result.filesFailed = 0) :
    FolderEvent.fileErase path (some m) .ok ∈ (s.erased path run).events := by
  have hok : run.result.resultCode = .ok := by
    by_contra hbad
    have := (erased_failed s path run).2 hbad
    omega
  unfold FolderState.erased
  rw [hok, hm]
  exact List.mem_append_right _ (List.mem_singleton_self _)

include hshape hcuts hshort hd hdir in
theorem road_before (hbroken : Unbroken t dirPath d io opts names) (chain : List Text)
    (path next : Text) (rest : List Text) (k m levels : ℕ) (before after : List Text)
    (hturn : Turn t dirPath d names n chain path k next rest m) (s s₁ : FolderState)
    (hlevel : levels+1+chain.length = opts.maxDepth+1) (hpassed : Passed io chain)
    (hup : io.lstatDir chain = true) (hopen : io.opendir chain = true)
    (hroad : OnTheRoad t dirPath d names n io opts chain.length s)
    (horder : io.readdir chain (listing s.tree k) = before++next::after) (hother : next ∉ before)
    (h₁ : eraseEntries fuel io opts (t.device d) levels chain path before
      ((s.record k).opened path) = some s₁) :
    OnTheRoad t dirPath d names n io opts (chain++[next]).length s₁ := by
  have hwhole := hroad.whole chain k (turn_above hturn).1 hturn.here le_rfl
  have hlist : listing s.tree k = listing t k := by rw [listing, listing, hwhole]
  have hnext : chain++[next] <+: names := ⟨rest, (turn_names hturn).symm⟩
  have hlstat := turn_lstat hshort hturn s hroad.root hroad.way.leading
  have hstart : OnTheRoad t dirPath d names n io opts (chain.length+1)
      ((s.record k).opened path) := by
    have hway := turn_opened hshape hturn s hroad.way
    rw [List.length_append, List.length_singleton] at hway
    refine ⟨hway, kept_tree t dirPath d io opts _ _ hroad.kept (record_tree s k), ?_,
      fun upper i hupper hi hlen => ?_⟩
    · exact (record_tree s k) ▸ hroad.root
    · exact (record_tree s k) ▸ hroad.whole upper i hupper hi (by omega)
  rw [List.length_append, List.length_singleton]
  refine entries_invariant fuel io opts (t.device d) _ _ _
    (road_rule t dirPath d names n io opts chain before after next k hshape hcuts hd hdir
      hturn.here hnext hother fuel (t.device d) hbroken (hlist ▸ horder)) levels chain path before
    (fun other hmem hdot hdotdot hnamed => ?_) _ s₁ hstart h₁
  have hlisted : other ∈ listing s.tree k := by
    apply (io.reads chain _).mem_iff.mp
    rw [horder]
    exact List.mem_append_left _ hmem
  rw [listing, List.mem_cons, List.mem_cons] at hlisted
  exact ⟨place_child t dirPath d io opts hcuts levels chain path s k other hlevel hpassed
    hturn.straight hroad.kept.shrunk hlstat ((hroad.kept.shrunk.kind k).trans hturn.dir) hup hopen
    ((hlisted.resolve_left hdot).resolve_left hdotdot) hnamed, other, hmem, List.prefix_rfl⟩

include hshape hdev hcuts hshort hd hdir hfile hreg in
/-- From each place on the way the visit goes on to the file. -/
theorem file_reached (hreached : Reached io opts names)
    (hbroken : Unbroken t dirPath d io opts names) (rest chain : List Text) (path : Text)
    (s s' : FolderState) (code : ErasecureError) (k levels : ℕ) (hnames : names = chain++rest)
    (hrest : rest ≠ []) (hstraight : Straight t dirPath d chain path)
    (hk : t.descend d chain = some k) (hlevels : levels+chain.length = opts.maxDepth+1)
    (hroad : OnTheRoad t dirPath d names n io opts chain.length s)
    (hv : folderEraseRecursive fuel io opts (t.device d) levels chain path s = some (s', code))
    (hfailed : s'.result.filesFailed = 0) : Erased dirPath s'.events names n := by
  induction rest generalizing chain path s s' code k levels with
  | nil => contradiction
  | cons next rest ih =>
    obtain ⟨hdepth, hpassed⟩ := id hreached
    have hlength := congrArg List.length hnames
    rw [List.length_append, List.length_cons] at hlength
    obtain ⟨below, rfl⟩ : ∃ below, levels = below+1 := ⟨levels-1, by omega⟩
    obtain ⟨m, hturn⟩ := turn_exists t dirPath d names n chain path k next rest hfile hnames
      hstraight hk
    have hway := hroad.way
    have hleading := hway.leading
    rw [turn_enters hdev hshort fuel io opts hturn s hroad.root hpassed hway below] at hv
    obtain ⟨s₃, hloop, hv⟩ := Option.map_eq_some_iff.mp hv
    cases hv
    rw [leave_failed] at hfailed
    -- the entries before, the entry itself, and the entries after
    obtain ⟨before, after, s₁, s₂, horder, hother, h₁, h₂, h₃⟩ := foldlM_split _ _ next
      (turn_listed hshort io hturn s hroad.root hleading) _ _ hloop
    obtain ⟨habove, hne⟩ := turn_above hturn
    have hhere := (hpassed chain habove).2 hne
    have hroad₁ := road_before t dirPath d names n hshape hcuts hshort hd hdir fuel io opts hbroken
      chain path next rest k m below before after hturn s s₁ hlevels
      (passed_above io names chain hpassed habove) hhere.1 hhere.2 hroad horder hother h₁
    have hlater := entries_later fuel io opts (t.device d) below chain path after s₂ s₃ h₃
    have hfailed₂ : s₂.result.filesFailed = 0 := Nat.le_zero.mp (hfailed ▸ hlater.failed)
    have hnext := turn_names hturn
    have hpath := turn_path hturn
    have hlstat := turn_lstat_child hshort hturn s₁ hroad₁.root hroad₁.way.leading
    have hfit := entryPath_fits path next (turn_fits hshort hturn)
    rw [one_entry fuel io opts (t.device d) below chain path s₁ next m (turn_named hturn)
      ((hpassed (chain++[next]) ⟨rest, hnext.symm⟩).1 (by simp))
      (by rw [hfit]; exact hlstat), hroad₁.kept.shrunk.kind m, hfit] at h₂
    have hend := hturn.rest
    apply leave_mem
    apply hlater.events.subset
    cases rest with
    | nil =>
      cases hend
      rw [List.append_nil] at hnext
      rw [hreg] at h₂
      obtain ⟨run, hrun, rfl⟩ := Option.map_eq_some_iff.mp h₂
      rw [hnext, hpath]
      exact erased_ok s₁ (child path next) n run hlstat hfailed₂
    | cons after' rest =>
      rw [turn_on after' hturn] at h₂
      obtain ⟨⟨s₄, code'⟩, hv', rfl⟩ := Option.map_eq_some_iff.mp h₂
      have hthere := turn_lstat hshort hturn s hroad.root hleading
      exact ih (chain++[next]) (child path next) s₁ s₄ code' m below hnext (by simp)
        (straight_child t dirPath d chain path next k m hstraight
          (lstat_shrunk t s.tree hleading.shrunk path k hthere) hturn.dir hturn.found
          (turn_fits hshort hturn)) (turn_descend hturn)
        (by rw [List.length_append, List.length_singleton]; omega) hroad₁ hv' hfailed₂

end Runs

end EraseCure.FolderRoads
