import EraseCure.FolderRoads

/-!
# What a folder loses

The turn of an entry clears away all at it that is to go, as long as the path of the
folder names it. When the path leads through one of these, it names the folder no
longer, and no file is erased from then on.
-/

set_option autoImplicit false

namespace EraseCure.FolderLosses
open EraseCure.CText EraseCure.ErrorCodes EraseCure.FileSystems EraseCure.FileEraser
open EraseCure.PathNames EraseCure.FileTrees EraseCure.FileCalls EraseCure.FolderEraser
open EraseCure.FolderVisits EraseCure.FolderWays EraseCure.FolderRoads
open EraseCure.FileTrees.FileTree

section Events
variable (t : FileTree) (dirPath : Text) (d : ℕ) (names : List Text) (n : ℕ)
  (hcuts : NamelessCuts t dirPath d)

theorem erased_opened (s : FolderState) (path : Text)
    (h : Erased dirPath (s.opened path).events names n) : Erased dirPath s.events names n := by
  rcases List.mem_append.mp h with h | h
  · exact h
  · cases List.mem_singleton.mp h

theorem erased_left (s : FolderState) (removeDirs allowed : Bool) (path : Text)
    (h : Erased dirPath (s.leave removeDirs allowed path).events names n) :
    Erased dirPath s.events names n := by
  rw [FolderWays.Erased, leave_events] at h
  rcases List.mem_append.mp h with h | h
  · exact h
  · split_ifs at h
    · cases List.mem_singleton.mp h
    · contradiction

theorem spot_named (chain : List Text) (path : Text) (h : Spot t dirPath d chain path) :
    ∀ name ∈ chain, '/' ∉ name := by
  obtain ⟨above, name, k, rfl, _, hname, habove, _⟩ := h.entry
  intro x hx
  rcases List.mem_append.mp hx with hx | hx
  · exact (descend_named t d k above habove x hx).2.1
  · rw [List.mem_singleton.mp hx]
    exact hname.2.1

/-- The file was not erased yet. -/
structure Unerased (s : FolderState) : Prop where
  shrunk : Shrunk t s.tree
  never : ¬ Erased dirPath s.events names n

include hcuts

/-- A file is erased in no turn but those of the entries that lead to it. -/
theorem unerased_rule (hfile : t.descend d names = some n) (fuel : ℕ) (io : FolderIo)
    (opts : FolderEraseOptions) (initialDev : ℕ) :
    VisitRule fuel io opts initialDev (Unerased t dirPath names n) (Aside t dirPath d names)
      (Existing t (Aside t dirPath d names)) where
  message := fun _ _ h => ⟨h.shrunk, h.never⟩
  skip := fun _ h => ⟨h.shrunk, h.never⟩
  record := by
    intro _ _ _ s m _ h _ _
    constructor
    · rw [record_tree]
      exact h.shrunk
    · rw [record_events]
      exact h.never
  opened := fun _ _ path s _ h =>
    ⟨h.shrunk, fun herased => h.never (erased_opened dirPath names n s path herased)⟩
  child := fun levels chain path s m name hat h hm hk _ _ hname =>
    aside_child t dirPath d names hcuts s.tree h.shrunk (levels+1) levels chain path name m hat hm
      hk hname
  file := by
    intro levels chain path s m run hat h _ hm _ hrun
    replace hat := existing_found t _ levels chain path hat s.tree h.shrunk m hm
    refine ⟨shrunk_trans _ _ _ h.shrunk (erased_shrunk s _ _ _ _ run hrun), fun herased => ?_⟩
    rcases List.mem_append.mp herased with herased | herased
    · exact h.never herased
    · have hpath := (FolderEvent.fileErase.inj (List.mem_singleton.mp herased)).1
      rw [hat.2.straight.spelled] at hpath
      have hsame := descendant_injective dirPath names chain
        (fun x hx => (descend_named t d n names hfile x hx).2.1)
        (spot_named t dirPath d chain path hat.2) hpath
      exact hat.1 (hsame ▸ List.prefix_rfl)
  down := fun levels chain path s m hat h _ hm _ =>
    existing_found t _ levels chain path hat s.tree h.shrunk m hm
  leave := fun _ chain path _ s' _ _ _ _ _ _ _ _ h' =>
    ⟨shrunk_trans _ _ _ h'.shrunk (leave_shrunk s' _ _ path), fun herased =>
      h'.never (erased_left dirPath names n s' opts.removeDirs (io.rmdir chain) path herased)⟩

/-- The path of the folder does not name it any more. -/
structure Lost (s : FolderState) : Prop where
  unerased : Unerased t dirPath names n s
  gone : s.tree.lstat dirPath ≠ some d

omit hcuts in
theorem spot_root (hd : t.lstat dirPath = some d) (t' : FileTree) (hshrunk : Shrunk t t')
    (chain : List Text) (path : Text) (m : ℕ) (hspot : Spot t dirPath d chain path)
    (hm : t'.lstat path = some m) : t'.lstat dirPath = some d := by
  have hleads := hspot.straight.leads m (lstat_shrunk t t' hshrunk path m hm)
  have hshort := hspot.fits
  rw [hspot.straight.spelled] at hm hshort
  exact lstat_root t t' hshrunk dirPath d m m chain hd hleads
    (fun _ => hshort.trans (by decide)) hm

omit hcuts in
theorem lost_rule (hd : t.lstat dirPath = some d) (fuel : ℕ) (io : FolderIo)
    (opts : FolderEraseOptions) (initialDev : ℕ) :
    VisitRule fuel io opts initialDev (Lost t dirPath d names n)
      (fun _ chain path => Spot t dirPath d chain path)
      (Existing t fun _ chain path => Spot t dirPath d chain path) where
  message := fun _ _ h => ⟨⟨h.unerased.shrunk, h.unerased.never⟩, h.gone⟩
  skip := fun _ h => ⟨⟨h.unerased.shrunk, h.unerased.never⟩, h.gone⟩
  record := fun _ chain path s m hat h hm _ => absurd
    (spot_root t dirPath d hd s.tree h.unerased.shrunk chain path m hat hm) h.gone
  opened := fun _ _ path s _ h => ⟨⟨h.unerased.shrunk, fun herased =>
    h.unerased.never (erased_opened dirPath names n s path herased)⟩, h.gone⟩
  child := fun _ chain path s m _ hat h hm _ _ _ _ => absurd
    (spot_root t dirPath d hd s.tree h.unerased.shrunk chain path m hat hm) h.gone
  file := fun levels chain path s m _ hat h _ hm _ _ => absurd
    (spot_root t dirPath d hd s.tree h.unerased.shrunk chain path m
      (existing_found t _ levels chain path hat s.tree h.unerased.shrunk m hm) hm) h.gone
  down := fun levels chain path s m hat h _ hm _ =>
    existing_found t _ levels chain path hat s.tree h.unerased.shrunk m hm
  leave := fun _ chain path s _ m hat h hm _ _ _ _ _ => absurd
    (spot_root t dirPath d hd s.tree h.unerased.shrunk chain path m hat hm) h.gone

end Events

section Untouched
variable (t : FileTree) (dirPath : Text) (d : ℕ)

/-- No turn has come at a place or below, and the names still lead there. -/
structure Untouched (chain : List Text) (k : ℕ) (s : FolderState) : Prop where
  way : OnTheWay t d chain k (chain.length+1) s
  fresh : ∀ rest m, t.kind m = .directory → t.descend d (chain++rest) = some m →
    (t.device m, m) ∉ s.seen
  whole : ∀ rest m, t.descend d (chain++rest) = some m → s.tree.directory m = t.directory m

theorem way_end (chain : List Text) (k : ℕ) (s : FolderState) (h : Leading t d chain k s.tree) :
    OnTheWay t d chain k (chain.length+1) s :=
  ⟨h, fun _ _ habove _ _ _ => Nat.lt_succ_of_le habove.length_le⟩

theorem untouched_start : Untouched t d [] d (startState t dirPath) :=
  ⟨way_end t d [] d _ ⟨shrunk_refl t, fun _ _ => rfl, rfl⟩,
    fun _ _ _ _ hmem => absurd hmem List.not_mem_nil, fun _ _ _ => rfl⟩

/-- A place neither above nor below another. -/
def Elsewhere (chain : List Text) (levels : ℕ) (other : List Text) (path : Text) : Prop :=
  Aside t dirPath d chain levels other path ∧ ¬ chain <+: other

variable (hshape : t.TreeShaped d) (hcuts : NamelessCuts t dirPath d)
include hshape

theorem whole_elsewhere (tree : FileTree) (chain other rest : List Text) (j i : ℕ) (name : Text)
    (hout : ¬ chain <+: other) (hother : ∃ pre, other = pre++[name] ∧ t.descend d pre = some j ∧
      t.kind j = .directory) (hi : t.descend d (chain++rest) = some i) :
    (tree.erase j name).directory i = tree.directory i := by
  obtain ⟨pre, rfl, hj, hjdir⟩ := hother
  apply Function.update_of_ne
  rintro rfl
  apply hout
  rw [← hshape (chain++rest) pre i hjdir hi hj, List.append_assoc]
  exact List.prefix_append _ _

include hcuts

theorem untouched_rule (chain : List Text) (k : ℕ) (fuel : ℕ) (io : FolderIo)
    (opts : FolderEraseOptions) (initialDev : ℕ) :
    VisitRule fuel io opts initialDev (Untouched t d chain k) (Elsewhere t dirPath d chain)
      (Existing t (Elsewhere t dirPath d chain)) where
  message := fun _ _ h => ⟨⟨h.way.leading, h.way.unseen⟩, h.fresh, h.whole⟩
  skip := fun _ h => ⟨⟨h.way.leading, h.way.unseen⟩, h.fresh, h.whole⟩
  record := by
    intro levels other path s m hat h hm hdir
    have hrule := aside_rule t dirPath d chain k hshape hcuts fuel io opts initialDev
      (chain.length+1)
    refine ⟨hrule.record levels other path s m hat.1 h.way hm hdir,
      fun rest i hi hdescend hmem => ?_, (record_tree s m).symm ▸ h.whole⟩
    rcases record_seen s m _ hmem with hmem | heq
    · exact h.fresh rest i hi hdescend hmem
    · have him : i = m := congrArg Prod.snd heq
      subst him
      have hother := hat.1.2.straight.leads i
        (lstat_shrunk t s.tree h.way.leading.shrunk path i hm)
      exact hat.2 (hshape _ other i hi hdescend hother ▸ List.prefix_append _ _)
  opened := fun _ _ _ _ _ h => ⟨⟨h.way.leading, h.way.unseen⟩, h.fresh, h.whole⟩
  child := by
    intro levels other path s m name hat h hm hdir _ _ hname
    refine fun hnamed => ⟨aside_child t dirPath d chain hcuts s.tree h.way.leading.shrunk (levels+1)
      levels other path name m hat.1 hm hdir hname hnamed, fun hpre => ?_⟩
    rcases List.prefix_concat_iff.mp hpre with heq | hpre
    · exact hat.1.1 (heq ▸ List.prefix_append _ _)
    · exact hat.2 hpre
  file := by
    intro levels other path s m run hat h hentry hm hreg hrun
    replace hat := existing_found t _ levels other path hat s.tree h.way.leading.shrunk m hm
    have hrule := aside_rule t dirPath d chain k hshape hcuts fuel io opts initialDev
      (chain.length+1)
    refine ⟨hrule.file levels other path s m run (fun _ => hat.1) h.way hentry hm hreg hrun,
      h.fresh, fun rest i hi => ?_⟩
    by_cases hremoved : run.result.fileRemoved = true
    · obtain ⟨pre, name, j, hother, hj, hjdir, htree⟩ := unlinked_entry t dirPath d io opts fuel
        other path s run hat.1.2 h.way.leading.shrunk hrun hremoved
      rw [htree, whole_elsewhere t d hshape _ chain other rest j i name hat.2
        ⟨pre, hother, hj, hjdir⟩ hi]
      exact h.whole rest i hi
    · rw [erased_tree, afterCall, if_neg hremoved]
      exact h.whole rest i hi
  down := fun levels other path s m hat h _ hm _ =>
    existing_found t _ levels other path hat s.tree h.way.leading.shrunk m hm
  leave := by
    intro levels other path s s' m hat h hm hdir hdev hup hopen h'
    have hrule := aside_rule t dirPath d chain k hshape hcuts fuel io opts initialDev
      (chain.length+1)
    refine ⟨hrule.leave levels other path s s' m hat.1 h.way hm hdir hdev hup hopen h'.way, ?_,
      fun rest i hi => ?_⟩
    · rw [leave_seen]
      exact h'.fresh
    · rcases leave_tree s' opts.removeDirs (io.rmdir other) path with htree | ⟨_, _, hrmdir⟩
      · rw [htree]
        exact h'.whole rest i hi
      · obtain ⟨pre, name, j, _, hother, hj, hjdir, _, _, _, htree⟩ := emptied_entry t dirPath d
          other path s' _ hat.1.2 h'.way.leading.shrunk hrmdir
        rw [htree, whole_elsewhere t d hshape _ chain other rest j i name hat.2
          ⟨pre, hother, hj, hjdir⟩ hi]
        exact h'.whole rest i hi

end Untouched

section Turns
variable (t : FileTree) (dirPath : Text) (d : ℕ) (hshape : t.TreeShaped d)
  (hdev : t.OneDevice d) (hcuts : NamelessCuts t dirPath d) (fuel : ℕ) (io : FolderIo)
  (opts : FolderEraseOptions)

section Entries
variable (chain : List Text) (path next : Text) (k m levels : ℕ) (s s₁ : FolderState)
  (hstraight : Straight t dirPath d chain path) (hk : t.descend d chain = some k)
  (hdir : t.kind k = .directory) (hm : (t.directory k).find next = some m)
  (h : Untouched t d chain k s)
include hshape hk hdir hm h

theorem untouched_child : Untouched t d (chain++[next]) m ((s.record k).opened path) := by
  have hleading := h.way.leading
  refine ⟨way_end t d _ m _ ⟨?_, ?_, ?_⟩, fun rest i hi hdescend hmem => ?_, fun rest i hi => ?_⟩
  · exact (record_tree s k).symm ▸ hleading.shrunk
  · exact (record_tree s k).symm ▸ hleading.outside
  · show (s.record k).tree.descend d (chain++[next]) = some m
    rw [record_tree, descend_concat s.tree d k chain next hleading.way
      ((hleading.shrunk.kind k).trans hdir), h.whole [] k (by rw [List.append_nil]; exact hk)]
    exact hm
  · rw [List.append_assoc] at hdescend
    rcases record_seen s k _ hmem with hmem | heq
    · exact h.fresh _ i hi hdescend hmem
    · have hik : i = k := congrArg Prod.snd heq
      subst hik
      have hsame := congrArg List.length (hshape _ chain i hi hdescend hk)
      simp at hsame
  · rw [List.append_assoc] at hi
    exact (record_tree s k).symm ▸ h.whole _ i hi

include hstraight hcuts

theorem untouched_before (hn : s.tree.lstat path = some k) (before : List Text)
    (hlist : ∀ other ∈ before, other ∈ listing s.tree k) (hother : next ∉ before)
    (h₁ : eraseEntries fuel io opts (t.device d) levels chain path before
      ((s.record k).opened path) = some s₁) : Untouched t d (chain++[next]) m s₁ := by
  have hstart := untouched_child t d hshape chain path next k m s hk hdir hm h
  refine entries_invariant fuel io opts (t.device d) _ _ _
    (untouched_rule t dirPath d hshape hcuts (chain++[next]) m fuel io opts (t.device d)) levels
    chain path before (fun other hmem hdot hdotdot hnamed => ?_) _ s₁ hstart h₁
  obtain ⟨hpath, hspot⟩ := listed_spot t dirPath d hcuts s.tree h.way.leading.shrunk chain path
    other k hstraight hn hdir (hlist other hmem) hdot hdotdot hnamed
  have hne : other ≠ next := fun heq => hother (heq ▸ hmem)
  rw [hpath]
  refine ⟨⟨fun hpre => hne ?_, hspot⟩, fun hpre => hne ?_⟩
  · exact List.singleton_inj.mp (List.append_cancel_left (hpre.eq_of_length (by simp)))
  · exact (List.singleton_inj.mp (List.append_cancel_left (hpre.eq_of_length (by simp)))).symm

end Entries

/-- At a place and below nothing is left of what is to go. -/
def Cleared (chain : List Text) (tree : FileTree) : Prop :=
  ∀ above name k n, chain <+: above++[name] → t.descend d above = some k →
    t.descend d (above++[name]) = some n → Vanishes t dirPath d io opts (above++[name]) →
    (tree.directory k).find name = none

theorem cleared_shrunk (chain : List Text) (tree tree' : FileTree) (hshrunk : Shrunk tree tree')
    (h : Cleared t dirPath d io opts chain tree) : Cleared t dirPath d io opts chain tree' := by
  intro above name k n hpre habove hn hvanish
  rw [Option.eq_none_iff_forall_not_mem]
  intro m hm
  have := h above name k n hpre habove hn hvanish
  rw [hshrunk.find k name m hm] at this
  contradiction

theorem cleared_below (chain chain' : List Text) (tree : FileTree) (hpre : chain <+: chain')
    (h : Cleared t dirPath d io opts chain tree) : Cleared t dirPath d io opts chain' tree :=
  fun above name k n habove => h above name k n (hpre.trans habove)

/-- A directory with something to go below it is entered. -/
theorem goes_enters (chain rest : List Text) (k n : ℕ) (hk : t.descend d chain = some k)
    (hdir : t.kind k = .directory) (hn : t.descend d (chain++rest) = some n)
    (h : Goes t dirPath io opts (chain++rest) n) :
    chain.length ≤ opts.maxDepth ∧ io.lstatDir chain = true ∧ io.opendir chain = true := by
  cases rest with
  | nil =>
    have htaken := h.taken
    rw [List.append_nil] at hn htaken
    obtain rfl := Option.some.inj (hk.symm.trans hn)
    rw [hdir] at htaken
    exact ⟨htaken.1, htaken.2.1, htaken.2.2.1⟩
  | cons name rest =>
    obtain ⟨hdepth, hpassed⟩ := h.reached
    rw [List.length_append, List.length_cons] at hdepth
    exact ⟨by omega, (hpassed chain (List.prefix_append _ _)).2 (by simp)⟩

theorem vanishes_below (chain rest : List Text) (h : Vanishes t dirPath d io opts chain) :
    Vanishes t dirPath d io opts (chain++rest) := by
  intro more n hn
  rw [List.append_assoc] at hn ⊢
  exact h _ n hn

theorem turn_clears (chain : List Text) (path next : Text) (m levels : ℕ) (s s' : FolderState)
    (hspot : Spot t dirPath d (chain++[next]) (child path next))
    (hpath : entryPath path next = child path next) (hname : FileName next)
    (hm : t.descend d (chain++[next]) = some m) (h : Untouched t d (chain++[next]) m s)
    (hvisit : ∀ s₂ code, t.kind m = .directory →
      folderEraseRecursive fuel io opts (t.device d) levels (chain++[next]) (child path next) s =
        some (s₂, code) → s₂ = s' → Cleared t dirPath d io opts (chain++[next]) s'.tree)
    (hone : eraseOne fuel io opts (t.device d) levels chain path s next = some s')
    (hfailed : s'.result.filesFailed = 0) (hroot : s'.tree.lstat dirPath = some d) :
    Cleared t dirPath d io opts (chain++[next]) s'.tree := by
  intro above name k n hpre habove hn hvanish
  have hgoes := hvanish [] n (by rw [List.append_nil]; exact hn)
  rw [List.append_nil] at hgoes
  have hleading := h.way.leading
  have hlater := one_later fuel io opts (t.device d) levels chain path next s s' hone
  have hlstat := leading_lstat t dirPath d (chain++[next]) m
    (hspot.straight.spelled ▸ hspot.fits) s.tree hleading
    (lstat_shrunk _ _ hlater.shrunk _ _ hroot) (chain++[next]) [] (List.append_nil _).symm m hm
  rw [← hspot.straight.spelled] at hlstat
  obtain ⟨rest, hrest⟩ := id hpre
  have hbelow : t.descend m rest = some n := by
    have hn' := hn
    rw [← hrest, descend_append, hm] at hn'
    exact hn'
  rw [one_entry fuel io opts (t.device d) levels chain path s next m hname
    ((hgoes.reached.2 _ hpre).1 (by simp)) (by rw [hpath]; exact hlstat),
    hleading.shrunk.kind m, hpath] at hone
  cases hkind : t.kind m with
  | regular =>
    obtain rfl := descend_file t m n rest (by rw [hkind]; decide) hbelow
    obtain rfl := Option.some.inj hbelow
    rw [hkind] at hone
    rw [List.append_nil] at hrest
    obtain ⟨run, hrun, rfl⟩ := Option.map_eq_some_iff.mp hone
    have htaken := hgoes.taken
    rw [hkind, ← hrest] at htaken
    have hok : run.result.resultCode = .ok := by
      by_contra hbad
      have := (erased_failed s (child path next) run).2 hbad
      omega
    have hremoved := call_removes fuel s.tree (io.file (chain++[next])) (child path next)
      opts.fileOpts run hrun hok htaken.1 htaken.2
    obtain ⟨pre, last, j, hlast, hj, _, htree⟩ := unlinked_entry t dirPath d io opts fuel
      (chain++[next]) (child path next) s run hspot hleading.shrunk hrun hremoved
    obtain ⟨rfl, hsame⟩ := List.append_inj' (hrest.symm.trans hlast) rfl
    obtain rfl := List.singleton_inj.mp hsame
    obtain rfl := Option.some.inj (habove.symm.trans hj)
    rw [htree, Option.eq_none_iff_forall_not_mem]
    exact fun i hi => ((find_erase _ _ _ _ _ i).mp hi).2 ⟨rfl, rfl⟩
  | directory =>
    rw [hkind] at hone
    obtain ⟨⟨s₂, code⟩, hv, hsame⟩ := Option.map_eq_some_iff.mp hone
    exact hvisit s₂ code hkind hv hsame above name k n hpre habove hn hvanish
  | symlink =>
    obtain rfl := descend_file t m n rest (by rw [hkind]; decide) hbelow
    obtain rfl := Option.some.inj hbelow
    have htaken := hgoes.taken
    rw [hkind] at htaken
    exact htaken.elim
  | special =>
    obtain rfl := descend_file t m n rest (by rw [hkind]; decide) hbelow
    obtain rfl := Option.some.inj hbelow
    have htaken := hgoes.taken
    rw [hkind] at htaken
    exact htaken.elim

include hshape hcuts in
theorem entries_clear (chain : List Text) (path : Text) (k levels : ℕ) (s s₃ : FolderState)
    (hstraight : Straight t dirPath d chain path) (hk : t.descend d chain = some k)
    (hdir : t.kind k = .directory) (hn : s.tree.lstat path = some k) (h : Untouched t d chain k s)
    (hvisit : ∀ chain path k s s' code, Spot t dirPath d chain path →
      t.descend d chain = some k → t.kind k = .directory →
      levels+chain.length = opts.maxDepth+1 → Untouched t d chain k s →
      folderEraseRecursive fuel io opts (t.device d) levels chain path s = some (s', code) →
      s'.result.filesFailed = 0 → s'.tree.lstat dirPath = some d →
      Cleared t dirPath d io opts chain s'.tree)
    (hlevels : levels+1+chain.length = opts.maxDepth+1) (order : List Text)
    (horder : ∀ name ∈ order, name ∈ listing s.tree k)
    (hloop : eraseEntries fuel io opts (t.device d) levels chain path order
      ((s.record k).opened path) = some s₃)
    (hfailed : s₃.result.filesFailed = 0) (hroot : s₃.tree.lstat dirPath = some d)
    (next : Text) (m : ℕ) (hm : (t.directory k).find next = some m) (hnext : next ∈ order) :
    Cleared t dirPath d io opts (chain++[next]) s₃.tree := by
  intro above name j n hpre habove hend hvanish
  have hname := (t.directory k).find_named next m hm
  have hfound := (descend_concat t d k chain next hk hdir).trans hm
  -- a path that is longer than another one is not cut only if that one is not
  have hshort : (child path next).length < pathCap := by
    have hgoes := hvanish [] n (by rw [List.append_nil]; exact hend)
    rw [List.append_nil] at hgoes
    obtain ⟨rest, hrest⟩ := hpre
    have hlong := hgoes.fits (by simp)
    rw [← hrest] at hlong
    have hle := (descendant_length dirPath (chain++[next]) rest).trans_lt hlong
    rwa [descendant_concat, ← hstraight.spelled] at hle
  have hpath := entryPath_fits path next hshort
  have hspot := spot_child t dirPath d chain path next k m hstraight
    (lstat_shrunk t s.tree h.way.leading.shrunk path k hn) hdir hm hshort
  obtain ⟨before, after, s₁, s₂, rfl, hother, h₁, h₂, h₃⟩ := foldlM_split _ _ next hnext _ _ hloop
  have huntouched := untouched_before t dirPath d hshape hcuts fuel io opts chain path next k m
    levels s s₁ hstraight hk hdir hm h hn before
    (fun other hmem => horder other (List.mem_append_left _ hmem)) hother h₁
  have hlater := entries_later fuel io opts (t.device d) levels chain path after s₂ s₃ h₃
  have hfailed₂ : s₂.result.filesFailed = 0 := Nat.le_zero.mp (hfailed ▸ hlater.failed)
  have hroot₂ := lstat_shrunk _ _ hlater.shrunk _ _ hroot
  refine cleared_shrunk t dirPath d io opts _ s₂.tree s₃.tree hlater.shrunk
    (turn_clears t dirPath d fuel io opts chain path next m levels s₁ s₂ hspot hpath hname
      hfound huntouched (fun s' code hkind hv hsame => ?_) h₂ hfailed₂ hroot₂) above name j n hpre
      habove hend hvanish
  subst hsame
  exact hvisit _ _ m s₁ s' code hspot hfound hkind
    (by rw [List.length_append, List.length_singleton]; omega) huntouched hv hfailed₂ hroot₂

theorem leave_clears (chain : List Text) (path : Text) (k : ℕ) (s : FolderState)
    (hspot : Spot t dirPath d chain path) (hdir : t.kind k = .directory)
    (hleading : Leading t d chain k s.tree)
    (hroot : s.tree.lstat dirPath = some d) (hempty : (s.tree.directory k).entries = [])
    (above : List Text) (name : Text) (j : ℕ) (hchain : chain = above++[name])
    (habove : t.descend d above = some j) :
    ((s.leave true true path).tree.directory j).find name = none := by
  obtain ⟨pre, last, i, hlast, hpath, hname, hi, hidir, _⟩ := hspot.entry
  obtain ⟨rfl, hsame⟩ := List.append_inj' (hchain.symm.trans hlast) rfl
  obtain rfl := List.singleton_inj.mp hsame
  obtain rfl := Option.some.inj (habove.symm.trans hi)
  have hup := leading_lstat t dirPath d chain k (hspot.straight.spelled ▸ hspot.fits) s.tree
    hleading hroot above [name] hchain j habove
  have hlong : (child (descendant dirPath above) name).length < pathMax :=
    (hpath ▸ hspot.fits).trans (by decide)
  have hfind : (s.tree.directory j).find name = some k := by
    have hway := hleading.way
    rw [hchain] at hway
    obtain ⟨j', hj', _, hfind⟩ := descend_split s.tree d k above name hway
    obtain rfl := Option.some.inj
      ((descend_shrunk t s.tree hleading.shrunk d j' above hj').symm.trans habove)
    exact hfind
  have hrmdir : s.tree.rmdir path = some (s.tree.erase j name) := by
    rw [hpath, rmdir, rdropWhile_child _ _ hname, locate_child s.tree _ name j hup
      ((hleading.shrunk.kind j).trans hidir) hname.2.1 hlong]
    dsimp only
    rw [hfind]
    exact if_pos ⟨(hleading.shrunk.kind k).trans hdir, hempty⟩
  rw [leave_removes s path _ hrmdir, Option.eq_none_iff_forall_not_mem]
  exact fun i hi => ((find_erase _ _ _ _ _ i).mp hi).2 ⟨rfl, rfl⟩

theorem emptied_below (chain : List Text) (k : ℕ) (tree : FileTree) (hshrunk : Shrunk t tree)
    (hk : t.descend d chain = some k) (hdir : t.kind k = .directory)
    (hbelow : ∀ next m, (t.directory k).find next = some m →
      Cleared t dirPath d io opts (chain++[next]) tree)
    (hvanish : Vanishes t dirPath d io opts chain) : (tree.directory k).entries = [] := by
  rw [List.eq_nil_iff_forall_not_mem]
  rintro ⟨next, m⟩ hmem
  have hthere := ((tree.directory k).find_iff next m).mpr hmem
  have hm := hshrunk.find k next m hthere
  have hgone := hbelow next m hm chain next k m List.prefix_rfl hk
    ((descend_concat t d k chain next hk hdir).trans hm)
    (vanishes_below t dirPath d io opts chain [next] hvanish)
  rw [hthere] at hgone
  contradiction

include hshape hcuts in
theorem entries_keep (chain : List Text) (path : Text) (k levels : ℕ) (s s₃ : FolderState)
    (hstraight : Straight t dirPath d chain path) (hdir : t.kind k = .directory)
    (hn : s.tree.lstat path = some k) (h : Untouched t d chain k s) (order : List Text)
    (horder : ∀ name ∈ order, name ∈ listing s.tree k)
    (hloop : eraseEntries fuel io opts (t.device d) levels chain path order
      ((s.record k).opened path) = some s₃) : Leading t d chain k s₃.tree := by
  have hstart : OnTheWay t d chain k (chain.length+1) ((s.record k).opened path) :=
    way_end t d chain k _ ((record_tree s k).symm ▸ h.way.leading)
  refine (entries_invariant fuel io opts (t.device d) _ _ _
    (aside_rule t dirPath d chain k hshape hcuts fuel io opts (t.device d) (chain.length+1)) levels
    chain path order (fun other hmem hdot hdotdot hnamed => ?_) _ s₃ hstart hloop).leading
  obtain ⟨hpath, hspot⟩ := listed_spot t dirPath d hcuts s.tree h.way.leading.shrunk chain path
    other k hstraight hn hdir (horder other hmem) hdot hdotdot hnamed
  rw [hpath]
  refine ⟨fun hpre => ?_, hspot⟩
  have := hpre.length_le
  simp at this

include hdev in
theorem untouched_enters (levels : ℕ) (chain : List Text) (path : Text) (k : ℕ) (s : FolderState)
    (hk : t.descend d chain = some k)
    (hdir : t.kind k = .directory) (h : Untouched t d chain k s)
    (hup : io.lstatDir chain = true) (hopen : io.opendir chain = true)
    (hlstat : s.tree.lstat path = some k) :
    folderEraseRecursive fuel io opts (t.device d) (levels+1) chain path s =
      (eraseEntries fuel io opts (t.device d) levels chain path
        (io.readdir chain (listing s.tree k)) ((s.record k).opened path)).map
        (fun s => (s.leave opts.removeDirs (io.rmdir chain) path, .ok)) := by
  have hshrunk := h.way.leading.shrunk
  refine visit_enters fuel io opts (t.device d) levels chain path s k hup hlstat
    ((hshrunk.kind k).trans hdir) (Or.inr ?_) ?_ hopen
  · rw [hshrunk.device]
    exact hdev k ⟨chain, hk⟩
  · rw [hshrunk.device]
    exact h.fresh [] k hdir (by rw [List.append_nil]; exact hk)

include hshape hdev hcuts in
/-- A visit clears its directory, over the levels left. -/
theorem visit_clears (levels : ℕ) (chain : List Text) (path : Text) (k : ℕ)
    (s s' : FolderState) (code : ErasecureError) (hspot : Spot t dirPath d chain path)
    (hk : t.descend d chain = some k) (hdir : t.kind k = .directory)
    (hlevels : levels+chain.length = opts.maxDepth+1) (h : Untouched t d chain k s)
    (hv : folderEraseRecursive fuel io opts (t.device d) levels chain path s = some (s', code))
    (hfailed : s'.result.filesFailed = 0) (hroot : s'.tree.lstat dirPath = some d) :
    Cleared t dirPath d io opts chain s'.tree := by
  induction levels generalizing chain path k s s' code with
  | zero =>
    rintro above name j n ⟨rest, hrest⟩ _ hn hvanish
    rw [← hrest] at hn hvanish
    have hgoes := hvanish [] n (by rw [List.append_nil]; exact hn)
    rw [List.append_nil] at hgoes
    have := (goes_enters t dirPath d io opts chain rest k n hk hdir hn hgoes).1
    omega
  | succ levels ih =>
    intro above name j n hpre habove hn hvanish
    have hgoes := hvanish [] n (by rw [List.append_nil]; exact hn)
    rw [List.append_nil] at hgoes
    obtain ⟨rest, hrest⟩ := id hpre
    obtain ⟨_, hup, hopen⟩ := goes_enters t dirPath d io opts chain rest k n hk hdir (hrest ▸ hn)
      (hrest ▸ hgoes)
    have hlater := visit_later fuel io opts (t.device d) (levels+1) chain path s s' code hv
    have hlstat := leading_lstat t dirPath d chain k (hspot.straight.spelled ▸ hspot.fits) s.tree
      h.way.leading (lstat_shrunk _ _ hlater.shrunk _ _ hroot) chain [] (List.append_nil _).symm k
      hk
    rw [← hspot.straight.spelled] at hlstat
    rw [untouched_enters t d hdev fuel io opts levels chain path k s hk hdir h hup hopen
      hlstat] at hv
    obtain ⟨s₃, hloop, hv⟩ := Option.map_eq_some_iff.mp hv
    cases hv
    rw [leave_failed] at hfailed
    have hleft := leave_shrunk s₃ opts.removeDirs (io.rmdir chain) path
    have hroot₃ := lstat_shrunk _ _ hleft _ _ hroot
    have hbelow : ∀ next m, (t.directory k).find next = some m →
        Cleared t dirPath d io opts (chain++[next]) s₃.tree := by
      intro next m hm
      refine entries_clear t dirPath d hshape hcuts fuel io opts chain path k levels s s₃
        hspot.straight hk hdir hlstat h ih hlevels _
        (fun name hname => (io.reads chain _).mem_iff.mp hname) hloop hfailed hroot₃ next m hm ?_
      apply (io.reads chain _).mem_iff.mpr
      rw [listing, h.whole [] k (by rw [List.append_nil]; exact hk)]
      exact List.mem_cons_of_mem _ (List.mem_cons_of_mem _ ((Directory.mem_names _ _).mpr ⟨m, hm⟩))
    have hdeeper := entries_later fuel io opts (t.device d) levels chain path _ _ s₃ hloop
    have hshrunk₃ := shrunk_trans _ _ _ h.way.leading.shrunk
      (record_tree s k ▸ hdeeper.shrunk)
    cases rest with
    | nil =>
      -- the directory itself, which is empty by now
      rw [List.append_nil] at hrest
      subst hrest
      obtain rfl := Option.some.inj (hk.symm.trans hn)
      have htaken := hgoes.taken
      rw [hdir] at htaken
      obtain ⟨_, _, _, hdirs, hallowed⟩ := htaken
      rw [hdirs, hallowed]
      exact leave_clears t dirPath d (above++[name]) path k s₃ hspot hdir
        (entries_keep t dirPath d hshape hcuts fuel io opts (above++[name]) path k levels s s₃
          hspot.straight hdir hlstat h _ (fun name hname => (io.reads _ _).mem_iff.mp hname) hloop)
        hroot₃ (emptied_below t dirPath d io opts (above++[name]) k s₃.tree hshrunk₃ hk hdir hbelow
          hvanish)
        above name j rfl habove
    | cons next rest =>
      have hm := hn
      rw [← hrest, descend_append, hk] at hm
      change t.descend k (next::rest) = some n at hm
      rw [descend, if_pos hdir] at hm
      obtain ⟨m, hm, _⟩ := Option.bind_eq_some_iff.mp hm
      refine cleared_shrunk t dirPath d io opts _ _ _ hleft (hbelow next m hm) above name j n ?_
        habove hn hvanish
      exact ⟨rest, by rw [← hrest, List.append_assoc]; rfl⟩

/-- With a name that its path leads through the folder loses its path. -/
theorem lost_root (tree : FileTree) (hshrunk : Shrunk t tree) (k : ℕ) (name : Text)
    (hgone : (tree.directory k).find name = none)
    (hneeded : (t.erase k name).lstat dirPath = none) :
    tree.lstat dirPath ≠ some d := by
  intro hroot
  have herased : Shrunk (t.erase k name) tree := by
    refine ⟨hshrunk.root, hshrunk.cwd, hshrunk.kind, hshrunk.parent, hshrunk.device,
      hshrunk.target, fun i other m hm => (find_erase t k i name other m).mpr
        ⟨hshrunk.find i other m hm, ?_⟩⟩
    rintro ⟨rfl, rfl⟩
    rw [hgone] at hm
    contradiction
  rw [lstat_shrunk _ _ herased dirPath d hroot] at hneeded
  contradiction

variable (above : List Text) (path : Text) (k levels : ℕ) (s : FolderState)
  (hstraight : Straight t dirPath d above path) (hk : t.descend d above = some k)
  (hdir : t.kind k = .directory) (hn : s.tree.lstat path = some k) (h : Untouched t d above k s)
  (hlevels : levels+1+above.length = opts.maxDepth+1)

include hshape hdev hcuts hstraight hk hdir hn h hlevels in
/-- After the turn of an entry that its path leads through, where all below goes, the
folder has lost its path. -/
theorem needed_lost (order : List Text) (horder : ∀ name ∈ order, name ∈ listing s.tree k)
    (s₁ : FolderState)
    (h₁ : eraseEntries fuel io opts (t.device d) levels above path order
      ((s.record k).opened path) = some s₁) (hfailed : s₁.result.filesFailed = 0)
    (other : Text) (hother : other ∈ order) (chain : List Text) (hpre : above++[other] <+: chain)
    (hneeded : Needed t dirPath d chain) (hvanish : Vanishes t dirPath d io opts chain) :
    s₁.tree.lstat dirPath ≠ some d := by
  intro hroot
  obtain ⟨pre, name, j, n, hchain, hj, hn', hneeded⟩ := hneeded
  obtain ⟨m, hm⟩ : ∃ m, (t.directory k).find other = some m := by
    obtain ⟨rest, hrest⟩ := hpre
    rw [← hrest, descend_append] at hn'
    obtain ⟨m, hm, _⟩ := Option.bind_eq_some_iff.mp hn'
    exact ⟨m, (descend_concat t d k above other hk hdir).symm.trans hm⟩
  have hshrunk := shrunk_trans _ _ _ h.way.leading.shrunk (record_tree s k ▸
    (entries_later fuel io opts (t.device d) levels above path order _ s₁ h₁).shrunk)
  have hcleared := entries_clear t dirPath d hshape hcuts fuel io opts above path k levels s s₁
    hstraight hk hdir hn h (visit_clears t dirPath d hshape hdev hcuts fuel io opts levels) hlevels
    order horder h₁ hfailed hroot other m hm hother
  rw [hchain] at hpre hn' hvanish
  exact lost_root t dirPath d s₁.tree hshrunk j name
    (hcleared pre name j n hpre hj hn' hvanish) hneeded hroot

end Turns

theorem aside_other (above : List Text) (name other : Text) (names : List Text)
    (hnext : above++[name] <+: names) (hne : other ≠ name) : ¬ above++[other] <+: names := by
  intro hpre
  have hsame := (List.prefix_of_prefix_length_le hpre hnext (by simp)).eq_of_length (by simp)
  exact hne (List.singleton_inj.mp (List.append_cancel_left hsame))

theorem way_directory (t : FileTree) (d : ℕ) (names : List Text) (n : ℕ)
    (hfile : t.descend d names = some n) (above : List Text) (name : Text)
    (pre rest : List Text) (m : ℕ) (hnext : above++[name] <+: names) (habove : above = pre++rest)
    (hm : t.descend d pre = some m) : t.kind m = .directory := by
  obtain ⟨more, rfl⟩ := hnext
  rw [habove, List.append_assoc, List.append_assoc, descend_append, hm] at hfile
  by_contra hkind
  have := descend_file t m n _ hkind hfile
  simp at this

section Runs
variable (t : FileTree) (dirPath : Text) (d : ℕ) (names : List Text) (n : ℕ)
  (hshape : t.TreeShaped d) (hdev : t.OneDevice d) (hcuts : NamelessCuts t dirPath d)
  (hd : t.lstat dirPath = some d) (hfile : t.descend d names = some n) (fuel : ℕ) (io : FolderIo)
  (opts : FolderEraseOptions)

section Loops
variable (chain : List Text) (path : Text) (k levels : ℕ) (s : FolderState)
  (hstraight : Straight t dirPath d chain path) (hdir : t.kind k = .directory)
  (hn : s.tree.lstat path = some k) (order : List Text)
  (horder : ∀ name ∈ order, name ∈ listing s.tree k) (hshrunk : Shrunk t s.tree)
include hcuts hstraight hdir hn horder hshrunk

include hfile in
theorem entries_unerased (haside : ∀ name ∈ order, ¬ chain++[name] <+: names)
    (s₁ s₂ : FolderState) (hstart : Unerased t dirPath names n s₁)
    (h : eraseEntries fuel io opts (t.device d) levels chain path order s₁ = some s₂) :
    Unerased t dirPath names n s₂ := by
  refine entries_invariant fuel io opts (t.device d) _ _ _
    (unerased_rule t dirPath d names n hcuts hfile fuel io opts (t.device d)) levels chain path
    order (fun other hmem hdot hdotdot hnamed => ?_) s₁ s₂ hstart h
  obtain ⟨hpath, hspot⟩ := listed_spot t dirPath d hcuts s.tree hshrunk chain path other k hstraight
    hn hdir (horder other hmem) hdot hdotdot hnamed
  rw [hpath]
  exact ⟨haside other hmem, hspot⟩

include hd in
theorem entries_lost (s₁ s₂ : FolderState) (hstart : Lost t dirPath d names n s₁)
    (h : eraseEntries fuel io opts (t.device d) levels chain path order s₁ = some s₂) :
    Lost t dirPath d names n s₂ := by
  refine entries_invariant fuel io opts (t.device d) _ _ _
    (lost_rule t dirPath d names n hd fuel io opts (t.device d)) levels chain path
    order (fun other hmem hdot hdotdot hnamed => ?_) s₁ s₂ hstart h
  obtain ⟨hpath, hspot⟩ := listed_spot t dirPath d hcuts s.tree hshrunk chain path other k hstraight
    hn hdir (horder other hmem) hdot hdotdot hnamed
  rw [hpath]
  exact hspot

end Loops

variable (above : List Text) (kₐ : ℕ) (before after : List Text) (name : Text)
  (habove : t.descend d above = some kₐ)
  (horder : io.readdir above (listing t kₐ) = before++name::after)
  (hnext : above++[name] <+: names) (other : Text) (hother : other ∈ before)
  (chain : List Text) (hpre : above++[other] <+: chain) (hneeded : Needed t dirPath d chain)
  (hvanish : Vanishes t dirPath d io opts chain)
include hshape hdev hcuts hd hfile habove horder hnext hother hpre hneeded hvanish

/-- The loop in which the path of the folder breaks does not erase the file. -/
theorem broken_loop (path : Text) (levels : ℕ) (s s₃ : FolderState)
    (hstraight : Straight t dirPath d above path)
    (hlevels : levels+1+above.length = opts.maxDepth+1) (hdir : t.kind kₐ = .directory)
    (hn : s.tree.lstat path = some kₐ) (h : Untouched t d above kₐ s)
    (hloop : eraseEntries fuel io opts (t.device d) levels above path
      (io.readdir above (listing s.tree kₐ)) ((s.record kₐ).opened path) = some s₃)
    (hfailed : s₃.result.filesFailed = 0)
    (hstart : Unerased t dirPath names n ((s.record kₐ).opened path)) :
    ¬ Erased dirPath s₃.events names n := by
  have hshrunk := h.way.leading.shrunk
  have hlist : ∀ x ∈ io.readdir above (listing s.tree kₐ), x ∈ listing s.tree kₐ :=
    fun x hx => (io.reads above _).mem_iff.mp hx
  have hnodup := (io.reads above (listing s.tree kₐ)).nodup_iff.mpr (listing_nodup s.tree kₐ)
  have hread : io.readdir above (listing s.tree kₐ) = before++name::after := by
    rw [← horder, listing, listing, h.whole [] kₐ (by rw [List.append_nil]; exact habove)]
  rw [hread] at hloop hlist hnodup
  obtain ⟨hbefore, hrests⟩ := List.forall_mem_append.mp hlist
  rw [eraseEntries, List.foldlM_append] at hloop
  obtain ⟨s₁, h₁, h₂⟩ := Option.bind_eq_some_iff.mp hloop
  have hlater := entries_later fuel io opts (t.device d) levels above path _ s₁ s₃ h₂
  have haside : ∀ x ∈ before, ¬ above++[x] <+: names := fun x hx =>
    aside_other above name x names hnext
      (fun heq => (List.nodup_append.mp hnodup).2.2 x hx name List.mem_cons_self heq)
  have hunerased := entries_unerased t dirPath d names n hcuts hfile fuel io opts above path kₐ
    levels s hstraight hdir hn before hbefore hshrunk haside _ s₁ hstart h₁
  have hgone := needed_lost t dirPath d hshape hdev hcuts fuel io opts above path kₐ levels s
    hstraight habove hdir hn h hlevels before hbefore s₁ h₁
    (Nat.le_zero.mp (hfailed ▸ hlater.failed)) other hother chain hpre hneeded hvanish
  exact (entries_lost t dirPath d names n hcuts hd fuel io opts above path kₐ levels s hstraight
    hdir hn (name::after) hrests hshrunk s₁ s₃ ⟨hunerased, hgone⟩ h₂).unerased.never

theorem never_erased (hshort : (descendant dirPath names).length < pathCap)
    (rest pre : List Text) (path : Text) (k levels : ℕ) (s s' : FolderState)
    (code : ErasecureError) (hrest : above = pre++rest)
    (hstraight : Straight t dirPath d pre path) (hk : t.descend d pre = some k)
    (hlevels : levels+pre.length = opts.maxDepth+1) (h : Untouched t d pre k s)
    (hv : folderEraseRecursive fuel io opts (t.device d) levels pre path s = some (s', code))
    (hfailed : s'.result.filesFailed = 0) (hnever : ¬ Erased dirPath s.events names n) :
    ¬ Erased dirPath s'.events names n := by
  induction levels generalizing rest pre path k s s' code with
  | zero =>
    cases hv
    exact hnever
  | succ below ih =>
    rcases visit_cases fuel io opts (t.device d) (below+1) pre path s s' code hv with
      ⟨hevents, _⟩ | ⟨_, i, s₃, hbelow, hi, hidir, hloop, rfl⟩
    · rw [hevents]
      exact hnever
    obtain rfl := Nat.succ.inj hbelow
    have hshrunk := h.way.leading.shrunk
    obtain rfl := Option.some.inj (hk.symm.trans
      (hstraight.leads i (lstat_shrunk _ _ hshrunk path i hi)))
    have hdir := (hshrunk.kind k).symm.trans hidir
    rw [leave_failed] at hfailed
    refine fun herased => ?_
    replace herased := erased_left dirPath names n s₃ _ _ path herased
    have hstart : Unerased t dirPath names n ((s.record k).opened path) := by
      refine ⟨(record_tree s k).symm ▸ hshrunk, fun he => hnever ?_⟩
      exact record_events s k ▸ erased_opened dirPath names n (s.record k) path he
    cases rest with
    | nil =>
      rw [List.append_nil] at hrest
      subst hrest
      obtain rfl := Option.some.inj (hk.symm.trans habove)
      exact broken_loop t dirPath d names n hshape hdev hcuts hd hfile fuel io opts above k before
        after name habove horder hnext other hother chain hpre hneeded hvanish path below s s₃
        hstraight hlevels hdir hi h hloop hfailed hstart herased
    | cons next rest =>
      have hway : pre++[next] <+: names := by
        refine List.IsPrefix.trans ?_ hnext
        exact ⟨rest++[name], by rw [hrest]; simp⟩
      obtain ⟨m, hturn⟩ := turn_exists t dirPath d above kₐ pre path k next rest habove hrest
        hstraight hk
      have hlist : ∀ x ∈ io.readdir pre (listing s.tree k), x ∈ listing s.tree k :=
        fun x hx => (io.reads pre _).mem_iff.mp hx
      have hnodup := (io.reads pre (listing s.tree k)).nodup_iff.mpr (listing_nodup s.tree k)
      have hnextlisted : next ∈ io.readdir pre (listing s.tree k) := by
        apply (io.reads pre _).mem_iff.mpr
        rw [listing, h.whole [] k (by rw [List.append_nil]; exact hk)]
        exact List.mem_cons_of_mem _ (List.mem_cons_of_mem _
          ((Directory.mem_names _ _).mpr ⟨m, hturn.found⟩))
      obtain ⟨first, last, s₁, s₂, hsplit, hnot, h₁, h₂, h₃⟩ :=
        foldlM_split _ _ next hnextlisted _ _ hloop
      rw [hsplit] at hlist hnodup
      obtain ⟨hfirst, hrests⟩ := List.forall_mem_append.mp hlist
      have hlater := entries_later fuel io opts (t.device d) below pre path last s₂ s₃ h₃
      have hunerased := entries_unerased t dirPath d names n hcuts hfile fuel io opts pre path k
        below s hstraight hdir hi first hfirst hshrunk
        (fun x hx => aside_other pre next x names hway fun heq => hnot (heq ▸ hx)) _ s₁ hstart h₁
      have huntouched := untouched_before t dirPath d hshape hcuts fuel io opts pre path next k m
        below s s₁ hstraight hk hdir hturn.found h hi first hfirst hnot h₁
      have hnever₂ : ¬ Erased dirPath s₂.events names n := by
        rcases one_cases fuel io opts (t.device d) below pre path next s₁ s₂ h₂ with
          ⟨hevents, _⟩ | ⟨j, hj, hkind⟩
        · rw [hevents]
          exact hunerased.never
        have hfits : (child path next).length < pathCap := by
          obtain ⟨more, hmore⟩ := hway
          rw [← hmore] at hshort
          have hle := (descendant_length dirPath (pre++[next]) more).trans_lt hshort
          rwa [turn_path hturn] at hle
        have hspot := spot_child t dirPath d pre path next k m hstraight
          (lstat_shrunk _ _ hshrunk path k hi) hdir hturn.found hfits
        rw [entryPath_fits path next hfits] at hj hkind
        obtain rfl := Option.some.inj ((turn_descend hturn).symm.trans
          (hspot.straight.leads j (lstat_shrunk _ _ hunerased.shrunk _ j hj)))
        have hmdir := way_directory t d names n hfile above name (pre++[next]) rest m hnext
          (turn_names hturn) (turn_descend hturn)
        rcases hkind with hreg | ⟨_, code', hv'⟩
        · rw [hunerased.shrunk.kind, hmdir] at hreg
          contradiction
        · exact ih rest (pre++[next]) (child path next) m s₁ s₂ code' (turn_names hturn)
            hspot.straight (turn_descend hturn)
            (by rw [List.length_append, List.length_singleton]; omega) huntouched hv'
            (Nat.le_zero.mp (hfailed ▸ hlater.failed)) hunerased.never
      have hnotlast : next ∉ last := (List.nodup_cons.mp (List.nodup_append.mp hnodup).2.1).1
      have hone := one_later fuel io opts (t.device d) below pre path next s₁ s₂ h₂
      exact (entries_unerased t dirPath d names n hcuts hfile fuel io opts pre path k below s
        hstraight hdir hi last (fun x hx => hrests x (List.mem_cons_of_mem _ hx)) hshrunk
        (fun x hx => aside_other pre next x names hway fun heq => hnotlast (heq ▸ hx)) s₂ s₃
        ⟨shrunk_trans _ _ _ hunerased.shrunk hone.shrunk, hnever₂⟩ h₃).never herased

end Runs

end EraseCure.FolderLosses
