import EraseCure.FolderVisits

/-!
# Where a folder erasure reaches

The path of an entry is cut after 1023 bytes. As long as no cut path names
something outside, every path that is erased or removed names an object of the
folder; and where one does, calls can fail so that the next thing erased or
removed is that object.
-/

set_option autoImplicit false

namespace EraseCure.FolderConfinement
open EraseCure.CText EraseCure.FileSystems EraseCure.FileEraser
open EraseCure.PathNames EraseCure.FileTrees EraseCure.FolderEraser EraseCure.FolderVisits
open EraseCure.FileTrees.FileTree

/-- What is erased lies below the directory, and what is removed lies below it
or is the directory itself. -/
def Confined (t : FileTree) (d : ℕ) : FolderEvent → Prop
  | .opendir _ => True
  | .fileErase _ node _ => ∀ n, node = some n → t.Below d n
  | .rmdir _ node => ∀ n, node = some n → t.Within d n

/-- The path that the code uses for the names does not fit, and what is left of
it names a regular file outside, or a directory outside that will be removed. -/
def Escapes (t : FileTree) (dirPath : Text) (d : ℕ) (opts : FolderEraseOptions)
    (names : List Text) : Prop :=
  names ≠ [] ∧ (t.descend d names).isSome = true ∧
  pathCap ≤ (descendant dirPath names).length ∧
  ∃ n, t.lstat ((descendant dirPath names).take (pathCap-1)) = some n ∧
    (t.kind n = .regular ∧ ¬ t.Below d n ∧ names.length ≤ opts.maxDepth+1 ∨
      t.kind n = .directory ∧ ¬ t.Within d n ∧ names.length ≤ opts.maxDepth ∧
        opts.removeDirs = true ∧ (opts.followMount = true ∨ t.device n = t.device d))

/-- Below a path that is cut nothing new is built. -/
theorem entryPath_cut (path name : Text) (h : path.length = pathCap-1) :
    entryPath path name = path := by
  rw [entryPath, child, ← h]
  exact List.take_left

section Places
variable (t : FileTree) (dirPath : Text) (d : ℕ) (opts : FolderEraseOptions)

/-- The path was cut, and nothing outside is in danger. -/
structure Cut (levels : ℕ) (path : Text) : Prop where
  full : path.length = pathCap-1
  file : ∀ n, t.lstat path = some n → t.kind n = .regular → t.Below d n
  dir : ∀ n, t.lstat path = some n → t.kind n = .directory → t.Within d n ∨ levels = 0 ∨
    opts.removeDirs = false ∨ opts.followMount = false ∧ t.device n ≠ t.device d

def VisitPlace (levels : ℕ) (chain : List Text) (path : Text) : Prop :=
  levels+chain.length = opts.maxDepth+1 ∧
    (Straight t dirPath d chain path ∨ Cut t d opts levels path)

def EntryPlace (levels : ℕ) (chain : List Text) (path : Text) : Prop :=
  chain ≠ [] ∧ VisitPlace t dirPath d opts levels chain path

variable (hsafe : ∀ names, ¬ Escapes t dirPath d opts names)
include hsafe

theorem entry_place (levels : ℕ) (chain : List Text) (path name : Text) (n m : ℕ)
    (h : VisitPlace t dirPath d opts (levels+1) chain path) (hn : t.lstat path = some n)
    (hk : t.kind n = .directory) (hm : (t.directory n).find name = some m) :
    EntryPlace t dirPath d opts levels (chain++[name]) (entryPath path name) := by
  obtain ⟨hlevels, h⟩ := h
  have hlen : levels+(chain++[name]).length = opts.maxDepth+1 := by
    rw [List.length_append, List.length_singleton]
    omega
  refine ⟨by simp, hlen, ?_⟩
  rcases h with ⟨hspell, hleads⟩ | ⟨hfull, hfile, hdir⟩
  · by_cases hfits : (child path name).length < pathCap
    · rw [entryPath_fits path name hfits]
      exact Or.inl (straight_child t dirPath d chain path name n m ⟨hspell, hleads⟩ hn hk hm hfits)
    · have hchild : descendant dirPath (chain++[name]) = child path name := by
        rw [descendant_concat, hspell]
      have hdescend := (descend_concat t d n chain name (hleads n hn) hk).trans hm
      apply Or.inr
      have hno := hsafe (chain++[name])
      rw [Escapes, hchild] at hno
      have hstray : ∀ k, t.lstat (entryPath path name) = some k → ¬ _ :=
        fun k hk' hbad => hno ⟨by simp, by rw [hdescend]; rfl, Nat.le_of_not_lt hfits, k, hk', hbad⟩
      constructor
      · rw [entryPath, List.length_take]
        omega
      · intro k hk' hreg
        by_contra hout
        exact hstray k hk' (Or.inl ⟨hreg, hout, by omega⟩)
      · intro k hk' hdir
        by_contra hout
        push Not at hout
        obtain ⟨hwithin, hpos, hremove, hmount⟩ := hout
        refine hstray k hk' (Or.inr ⟨hdir, hwithin, by omega, by simpa using hremove, ?_⟩)
        cases hf : opts.followMount with
        | true => exact Or.inl rfl
        | false => exact Or.inr (hmount hf)
  · rw [entryPath_cut path name hfull]
    apply Or.inr
    refine ⟨hfull, hfile, fun k hk' hdir' => ?_⟩
    rcases hdir k hk' hdir' with hin | h0 | hrest
    · exact Or.inl hin
    · contradiction
    · exact Or.inr (Or.inr hrest)

/-- What every step of a visit keeps. -/
structure Safe (s : FolderState) : Prop where
  shrunk : Shrunk t s.tree
  confined : ∀ e ∈ s.events, Confined t d e

omit hsafe in
theorem confined_concat (es : List FolderEvent) (last : FolderEvent)
    (hes : ∀ e ∈ es, Confined t d e) (hlast : Confined t d last) :
    ∀ e ∈ es++[last], Confined t d e := by
  intro e he
  rcases List.mem_append.mp he with he | he
  · exact hes e he
  · rw [List.mem_singleton.mp he]
    exact hlast

omit hsafe in
theorem entry_below (levels : ℕ) (chain : List Text) (path : Text) (n : ℕ)
    (h : EntryPlace t dirPath d opts levels chain path) (hn : t.lstat path = some n)
    (hk : t.kind n = .regular) : t.Below d n := by
  obtain ⟨hne, _, hstraight | hcut⟩ := h
  · exact ⟨chain, hne, hstraight.leads n hn⟩
  · exact hcut.file n hn hk

omit hsafe in
/-- A directory that a visit enters and removes lies within the directory. -/
theorem visit_within (levels : ℕ) (chain : List Text) (path : Text) (n : ℕ)
    (h : VisitPlace t dirPath d opts (levels+1) chain path) (hn : t.lstat path = some n)
    (hk : t.kind n = .directory) (hremove : opts.removeDirs = true)
    (hmount : opts.followMount = true ∨ t.device n = t.device d) : t.Within d n := by
  obtain ⟨_, hstraight | hcut⟩ := h
  · exact ⟨chain, hstraight.leads n hn⟩
  · rcases hcut.dir n hn hk with hin | h0 | hno | ⟨hf, hne⟩
    · exact hin
    · contradiction
    · rw [hno] at hremove
      contradiction
    · rw [hf] at hmount
      rcases hmount with hf' | heq
      · contradiction
      · exact absurd heq hne

theorem safe_rule (fuel : ℕ) (io : FolderIo) :
    VisitRule fuel io opts (t.device d) (Safe t d) (VisitPlace t dirPath d opts)
      (EntryPlace t dirPath d opts) where
  message := fun _ _ h => ⟨h.shrunk, h.confined⟩
  skip := fun _ h => ⟨h.shrunk, h.confined⟩
  record := by
    intro _ _ _ s n _ h _ _
    constructor
    · rw [record_tree]
      exact h.shrunk
    · rw [record_events]
      exact h.confined
  opened := fun _ _ _ s _ h => ⟨h.shrunk, confined_concat t d s.events _ h.confined trivial⟩
  child := by
    intro levels chain path s n name hat h hn hk _ _ hname
    obtain ⟨m, hm⟩ := (Directory.mem_names _ _).mp hname
    exact entry_place t dirPath d opts hsafe levels chain path name n m hat
      (lstat_shrunk t s.tree h.shrunk path n hn) (h.shrunk.kind n ▸ hk) (h.shrunk.find n name m hm)
  file := by
    intro levels chain path s n run hat h _ hn hk hrun
    refine ⟨shrunk_trans _ _ _ h.shrunk (erased_shrunk s _ _ _ _ run hrun),
      confined_concat t d s.events _ h.confined fun k hk' => ?_⟩
    rw [hn] at hk'
    cases hk'
    exact entry_below t dirPath d opts levels chain path n hat
      (lstat_shrunk t s.tree h.shrunk path n hn) (h.shrunk.kind n ▸ hk)
  down := fun _ _ _ _ _ hat _ _ _ _ => hat.2
  leave := by
    intro levels chain path s s' n hat h hn hk hdev _ _ h'
    refine ⟨shrunk_trans _ _ _ h'.shrunk (leave_shrunk s' _ _ path), ?_⟩
    rw [leave_events]
    split_ifs with hremove
    · refine confined_concat t d s'.events _ h'.confined fun k hk' => ?_
      have hn' := lstat_shrunk t s.tree h.shrunk path n hn
      have hsame := (lstat_shrunk t s'.tree h'.shrunk path k hk').symm.trans hn'
      cases hsame
      exact visit_within t dirPath d opts levels chain path n hat hn' (h.shrunk.kind n ▸ hk)
        hremove (h.shrunk.device ▸ hdev)
    · rw [List.append_nil]
      exact h'.confined

theorem safe_run (fuel : ℕ) (io : FolderIo) (run : FolderRun) (hd : t.lstat dirPath = some d)
    (hr : folderErase fuel t io dirPath opts = some run) : ∀ e ∈ run.events, Confined t d e := by
  rcases folderErase_cases fuel io opts t dirPath d run hd hr with
    ⟨hnone, _⟩ | ⟨_, _, s, code, hv, rfl⟩
  · rw [hnone]
    exact fun e he => absurd he List.not_mem_nil
  · have hplace : VisitPlace t dirPath d opts (opts.maxDepth+1) [] dirPath :=
      ⟨rfl, Or.inl (straight_start t dirPath d hd)⟩
    exact (visit_invariant fuel io opts (t.device d) (Safe t d) _ _
      (safe_rule t dirPath d opts hsafe fuel io) _ _ _ _ s code hplace
      ⟨shrunk_refl t, fun e he => absurd he List.not_mem_nil⟩ hv).confined

end Places

section Escapes
variable (t : FileTree) (dirPath : Text) (d : ℕ) (opts : FolderEraseOptions)

theorem first_cut (names : List Text) (h : Escapes t dirPath d opts names) :
    ∃ ms name, Escapes t dirPath d opts (ms++[name]) ∧
      (ms = [] ∨ (descendant dirPath ms).length < pathCap) := by
  induction names using List.reverseRecOn with
  | nil => exact absurd rfl h.1
  | append_singleton ms name ih =>
    by_cases hfits : ms = [] ∨ (descendant dirPath ms).length < pathCap
    · exact ⟨ms, name, h, hfits⟩
    · apply ih
      push Not at hfits
      obtain ⟨_, hsome, _, n, hn, hbad⟩ := h
      obtain ⟨m, hm⟩ := Option.isSome_iff_exists.mp hsome
      obtain ⟨k, hk, _, _⟩ := descend_split t d m ms name hm
      rw [descendant_concat, child, List.take_append_of_le_length (by omega)] at hn
      rw [List.length_append, List.length_singleton] at hbad
      refine ⟨hfits.1, by rw [hk]; rfl, hfits.2, n, hn, ?_⟩
      rcases hbad with ⟨hreg, hout, hlen⟩ | ⟨hdir, hout, hlen, hrest⟩
      · exact Or.inl ⟨hreg, hout, by omega⟩
      · exact Or.inr ⟨hdir, hout, by omega, hrest⟩

theorem escapes_depth (names : List Text) (h : Escapes t dirPath d opts names) :
    names.length ≤ opts.maxDepth+1 := by
  obtain ⟨_, _, _, _, _, ⟨_, _, hlen⟩ | ⟨_, _, hlen, _⟩⟩ := h
  · exact hlen
  · exact Nat.le_succ_of_le hlen

/-- Every file fails to open, and every entry off the way cannot be examined. -/
def strayIo (names : List Text) : FolderIo :=
  { FolderIo.calm with
    lstatEntry := fun chain => chain.isPrefixOf names
    file := fun _ => { FileEraseIo.calm with opened := false } }

theorem fileErase_unopened (fuel : ℕ) (fs : FileSystem) (io : FileEraseIo) (path : Text)
    (opts : FileEraseOptions) (h : io.opened = false) :
    ∃ run, fileErase fuel fs io path opts = some run := by
  have hnone : ∀ node content, ¬ FileStarted fs io path node content :=
    fun _ _ hstarted => absurd (h.symm.trans hstarted.opened) (by decide)
  obtain ⟨run, hrun, _⟩ := fileErase_refused fuel fs io path opts hnone
  exact ⟨run, hrun⟩

variable (hd : t.lstat dirPath = some d) (hshape : t.TreeShaped d) (hdev : t.OneDevice d)
  (fuel : ℕ)

section Chain
variable (names : List Text) (name : Text) (hescape : Escapes t dirPath d opts (names++[name]))
  (hfits : names = [] ∨ (descendant dirPath names).length < pathCap)

/-- What was visited so far lies on the way down. -/
def SeenAbove (chain : List Text) (s : FolderState) : Prop :=
  ∀ r ∈ s.seen, ∃ above, above.length < chain.length ∧ t.descend d above = some r.2

theorem seen_above_record (chain : List Text) (next : Text) (s : FolderState) (n : ℕ)
    (h : SeenAbove t d chain s) (hn : t.descend d chain = some n) :
    SeenAbove t d (chain++[next]) (s.record n) := by
  intro r hr
  rw [List.length_append, List.length_singleton]
  rcases record_seen s n r hr with hr | rfl
  · obtain ⟨above, hlen, habove⟩ := h r hr
    exact ⟨above, by omega, habove⟩
  · exact ⟨chain, Nat.lt_succ_self _, hn⟩

include hescape in
/-- The round in which the path is cut. -/
theorem stray_round (levels n : ℕ) (path : Text) (s : FolderState)
    (hpath : path = descendant dirPath names) (htree : s.tree = t) (hname : FileName name)
    (hseen : ∀ r ∈ s.seen, t.Within d r.2) (hlevels : levels+names.length = opts.maxDepth)
    (hn : t.lstat (entryPath path name) = some n) :
    ∃ s', eraseOne fuel (strayIo (names++[name])) opts (t.device d) levels names path s name =
      some s' ∧ ∃ e ∈ s'.events, ¬ Confined t d e := by
  have hlen : (names++[name]).length = names.length+1 := by simp
  obtain ⟨_, _, _, n', hn', hbad⟩ := hescape
  rw [descendant_concat, ← hpath, ← entryPath, hn] at hn'
  cases hn'
  rw [one_entry fuel _ opts _ levels names path s name n hname
    (List.isPrefixOf_iff_prefix.mpr List.prefix_rfl) (htree ▸ hn)]
  rcases hbad with ⟨hreg, hout, _⟩ | ⟨hdir, hout, hdepth, hremove, hmount⟩
  · rw [htree, hreg]
    obtain ⟨run, hrun⟩ := fileErase_unopened fuel t.files
      ((strayIo (names++[name])).file (names++[name])) (entryPath path name) opts.fileOpts rfl
    rw [hrun]
    refine ⟨_, rfl, _, List.mem_append_right _ (List.mem_singleton_self _), ?_⟩
    intro h
    rw [htree] at h
    exact hout (h n hn)
  · obtain ⟨below, rfl⟩ : ∃ below, levels = below+1 := ⟨levels-1, by omega⟩
    rw [htree, hdir]
    have hfresh : (s.tree.device n, n) ∉ s.seen := fun h => hout (hseen _ h)
    have hskip : ∀ other ∈ listing t n, other = ".".toList ∨ other = "..".toList ∨
        (strayIo (names++[name])).lstatEntry ((names++[name])++[other]) = false := by
      intro other _
      refine Or.inr (Or.inr (Bool.eq_false_of_not_eq_true fun h => ?_))
      have := (List.isPrefixOf_iff_prefix.mp h).length_le
      rw [List.length_append, List.length_singleton] at this
      omega
    rw [visit_enters fuel _ opts (t.device d) below _ _ s n rfl (htree ▸ hn) (htree ▸ hdir)
      (htree ▸ hmount) hfresh rfl, htree]
    show ∃ s', (((eraseEntries fuel _ opts _ below _ _ (listing t n) _).map _).map _) = _ ∧ _
    rw [entries_skipped _ _ _ _ _ _ _ _ _ hskip]
    refine ⟨_, rfl, .rmdir (entryPath path name) (some n), ?_, ?_⟩
    · dsimp only
      rw [leave_events, hremove, if_pos rfl, FolderState.opened, record_tree, htree, hn]
      exact List.mem_append_right _ (List.mem_singleton_self _)
    · intro h
      exact hout (h n rfl)

include hshape hdev in
theorem stray_enters {chain : List Text} {path : Text} {n : ℕ} {next : Text} {rest : List Text}
    {m k : ℕ} (hturn : Turn t dirPath d (names++[name]) k chain path n next rest m)
    (s : FolderState) (htree : s.tree = t) (hn : t.lstat path = some n)
    (hseen : SeenAbove t d chain s) (levels : ℕ) :
    folderEraseRecursive fuel (strayIo (names++[name])) opts (t.device d) (levels+1) chain path s =
      (eraseOne fuel (strayIo (names++[name])) opts (t.device d) levels chain path
        ((s.record n).opened path) next).map
        (fun s => (s.leave opts.removeDirs true path, .ok)) := by
  have hfresh : (s.tree.device n, n) ∉ s.seen := by
    intro h
    obtain ⟨above, hlen, habove⟩ := hseen _ h
    rw [hshape above chain n hturn.dir habove hturn.here] at hlen
    exact Nat.lt_irrefl _ hlen
  have hmem : next ∈ (strayIo (names++[name])).readdir chain (listing t n) :=
    List.mem_cons_of_mem _
      (List.mem_cons_of_mem _ ((Directory.mem_names _ _).mpr ⟨m, hturn.found⟩))
  have hskip : ∀ other ∈ (strayIo (names++[name])).readdir chain (listing t n), other ≠ next →
      other = ".".toList ∨ other = "..".toList ∨
        (strayIo (names++[name])).lstatEntry (chain++[other]) = false := by
    intro other _ hne
    refine Or.inr (Or.inr (Bool.eq_false_of_not_eq_true fun h => hne ?_))
    have hpre := List.isPrefixOf_iff_prefix.mp h
    rw [hturn.names, List.prefix_append_right_inj] at hpre
    exact (List.cons_prefix_cons.mp hpre).1
  rw [visit_enters fuel _ opts (t.device d) levels chain path s n rfl (htree ▸ hn)
    (htree ▸ hturn.dir) (Or.inr (htree ▸ hdev n ⟨chain, hturn.here⟩)) hfresh rfl, htree,
    entries_single fuel _ opts _ levels chain path _
      ((strayIo (names++[name])).readdir chain (listing t n)) next (listing_nodup t n) hmem hskip]
  rfl

include hfits in
theorem before_last {chain : List Text} {path : Text} {n : ℕ} {next after : Text}
    {rest : List Text} {m k : ℕ}
    (hturn : Turn t dirPath d (names++[name]) k chain path n next (after::rest) m) :
    chain++[next] <+: names ∧ (child path next).length < pathCap := by
  have hpre : chain++[next] <+: names := by
    have hfull : chain++[next] <+: names++[name] := ⟨after::rest, (turn_names hturn).symm⟩
    refine (List.prefix_concat_iff.mp hfull).resolve_left fun h => ?_
    have hlength := congrArg List.length hturn.names
    have hshorter := congrArg List.length h
    simp only [List.length_append, List.length_cons, List.length_nil] at hshorter hlength
    omega
  refine ⟨hpre, ?_⟩
  obtain ⟨more, rfl⟩ := hpre
  rw [← turn_path hturn]
  exact (descendant_length dirPath _ more).trans_lt (hfits.resolve_left (by simp))

include hescape hfits hshape hdev in
/-- From each place on the way the visit goes on to the cut path. -/
theorem stray_reached (rest chain : List Text) (path : Text) (s : FolderState) (n levels : ℕ)
    (hchain : names++[name] = chain++rest) (hrest : rest ≠ [])
    (hstraight : Straight t dirPath d chain path) (htree : s.tree = t)
    (hn : t.lstat path = some n) (hseen : SeenAbove t d chain s)
    (hlevels : levels+chain.length = opts.maxDepth+1) :
    ∃ s' code, folderEraseRecursive fuel (strayIo (names++[name])) opts (t.device d) levels chain
      path s = some (s', code) ∧ ∃ e ∈ s'.events, ¬ Confined t d e := by
  induction rest generalizing chain path s n levels with
  | nil => contradiction
  | cons next rest ih =>
    have hlength := congrArg List.length hchain
    simp only [List.length_append, List.length_cons, List.length_nil] at hlength
    obtain ⟨k, hk⟩ := Option.isSome_iff_exists.mp hescape.2.1
    obtain ⟨m, hturn⟩ := turn_exists t dirPath d (names++[name]) k chain path n next rest hk hchain
      hstraight (hstraight.leads n hn)
    have hdepth := escapes_depth t dirPath d opts _ hescape
    rw [List.length_append, List.length_singleton] at hdepth
    obtain ⟨below, rfl⟩ : ∃ below, levels = below+1 := ⟨levels-1, by omega⟩
    rw [stray_enters t dirPath d opts hshape hdev fuel names name hturn s htree hn hseen below]
    have hseen' := seen_above_record t d chain next s n hseen hturn.here
    have htree' : ((s.record n).opened path).tree = t := (record_tree s n).trans htree
    have hround : ∃ s', eraseOne fuel (strayIo (names++[name])) opts (t.device d) below chain path
        ((s.record n).opened path) next = some s' ∧ ∃ e ∈ s'.events, ¬ Confined t d e := by
      cases rest with
      | nil =>
        obtain ⟨rfl, hnext⟩ := List.append_inj' hchain rfl
        cases hnext
        obtain ⟨_, _, _, n', hn', _⟩ := id hescape
        rw [turn_path hturn, ← entryPath] at hn'
        apply stray_round t dirPath d opts fuel names name hescape below n' path _
          hstraight.spelled htree' (turn_named hturn) _ (by omega) hn'
        intro r hr
        obtain ⟨above, _, habove⟩ := hseen' r hr
        exact ⟨above, habove⟩
      | cons after rest =>
        obtain ⟨hpre, hshort⟩ := before_last t dirPath d names name hfits hturn
        have hlstat : t.lstat (child path next) = some m :=
          (lstat_child t path next n hn hturn.dir (turn_named hturn)
            (hshort.trans (by decide))).trans hturn.found
        have hkind := turn_on after hturn
        have hway : (strayIo (names++[name])).lstatEntry (chain++[next]) = true :=
          List.isPrefixOf_iff_prefix.mpr (hpre.trans (List.prefix_append _ _))
        have hfit := entryPath_fits path next hshort
        obtain ⟨s', code, hv, he⟩ := ih (chain++[next]) (child path next)
          ((s.record n).opened path) m below (turn_names hturn) (by simp)
          (straight_child t dirPath d chain path next n m hstraight hn hturn.dir hturn.found hshort)
          htree' hlstat hseen' (by rw [List.length_append, List.length_singleton]; omega)
        rw [one_entry fuel _ opts _ below chain path _ next m (turn_named hturn) hway
          (by rw [hfit, htree']; exact hlstat), htree', hkind, hfit, hv]
        exact ⟨s', rfl, he⟩
    obtain ⟨s', hs', e, he, hbad⟩ := hround
    rw [hs']
    exact ⟨_, _, rfl, e, leave_mem _ _ _ _ e he, hbad⟩

end Chain

end Escapes

/-- Every path that a folder erasure erases or removes names an object of the
folder exactly when no path that is cut short names something else there. -/
theorem folder_confined (t : FileTree) (dirPath : Text) (d : ℕ) (opts : FolderEraseOptions)
    (hd : t.lstat dirPath = some d) (hk : t.kind d = .directory) (hshape : t.TreeShaped d)
    (hdev : t.OneDevice d) :
    (∀ fuel io run, folderErase fuel t io dirPath opts = some run →
      ∀ e ∈ run.events, Confined t d e) ↔
    (FolderEraser.isDangerousPath dirPath = true ∨
      ∀ names, ¬ Escapes t dirPath d opts names) := by
  constructor
  · intro hall
    by_contra hno
    push Not at hno
    obtain ⟨hsafe, names, hescape⟩ := hno
    obtain ⟨ms, name, hescape, hfits⟩ := first_cut t dirPath d opts names hescape
    obtain ⟨s, code, hv, e, he, hbad⟩ := stray_reached t dirPath d opts hshape hdev 0 ms name
      hescape hfits (ms++[name]) [] dirPath (startState t dirPath) d (opts.maxDepth+1) rfl
      (by simp) (straight_start t dirPath d hd) rfl hd (fun r hr => absurd hr List.not_mem_nil) rfl
    apply hbad
    exact hall 0 (strayIo (ms++[name])) _
      (folderErase_enters 0 _ opts t dirPath d s code hsafe rfl hd hk hv) e he
  · rintro (hdanger | hsafe) fuel io run hr
    · rcases folderErase_cases fuel io opts t dirPath d run hd hr with
        ⟨hnone, _⟩ | ⟨hsafe, _⟩
      · rw [hnone]
        exact fun e he => absurd he List.not_mem_nil
      · rw [hdanger] at hsafe
        contradiction
    · exact safe_run t dirPath d opts hsafe fuel io run hd hr

def longName : Text := List.replicate 250 'a'

def fileName : Text := List.replicate 18 'x'

/-- Four levels down a file stands beside a directory whose name is one longer. -/
def siblingTree (cwd : ℕ) : FileTree where
  root := 0
  cwd := cwd
  object
    | 5 | 7 => .regular [1]
    | _ => .directory 4096
  directory n := .ofEntries (match n with
    | 0 => [(longName, 1)]
    | 1 => [(longName, 2)]
    | 2 => [(longName, 3)]
    | 3 => [(longName, 4)]
    | 4 => [(fileName, 5), (fileName++['y'], 6)]
    | 6 => [(['f'], 7)]
    | _ => [])
  parent n := if n = 6 then 4 else n-1
  device _ := 0
  target _ := []

def siblingPath : Text :=
  descendant [] [longName, longName, longName, longName, fileName++['y']]

theorem sibling_descend (cwd : ℕ) (names : List Text) (n : ℕ)
    (h : (siblingTree cwd).descend 6 names = some n) :
    names = [] ∧ n = 6 ∨ names = [['f']] ∧ n = 7 := by
  cases names with
  | nil =>
    cases h
    exact Or.inl ⟨rfl, rfl⟩
  | cons name rest =>
    rw [descend, if_pos (show (siblingTree cwd).kind 6 = .directory from rfl)] at h
    obtain ⟨m, hm, h⟩ := Option.bind_eq_some_iff.mp h
    have hentries : ((siblingTree cwd).directory 6).entries = [(['f'], 7)] := by
      show ((siblingTree 0).directory 6).entries = _
      decide
    rw [Directory.find_iff, hentries, List.mem_singleton] at hm
    cases hm
    cases rest with
    | nil =>
      cases h
      exact Or.inr ⟨rfl, rfl⟩
    | cons other rest =>
      rw [descend, if_neg (show (siblingTree cwd).kind 7 ≠ .directory from Kind.noConfusion)] at h
      contradiction

theorem sibling_shaped (cwd : ℕ) : (siblingTree cwd).TreeShaped 6 := by
  intro names names' n _ h h'
  rcases sibling_descend cwd names n h with ⟨rfl, rfl⟩ | ⟨rfl, rfl⟩
  · rcases sibling_descend cwd names' 6 h' with ⟨rfl, _⟩ | ⟨_, h6⟩
    · rfl
    · contradiction
  · rcases sibling_descend cwd names' 7 h' with ⟨_, h7⟩ | ⟨rfl, _⟩
    · contradiction
    · rfl

/-- Erasing the directory erases the file beside it. -/
theorem sibling_erased : (siblingTree 0).lstat siblingPath = some 6 ∧
    (siblingTree 0).kind 6 = .directory ∧ (siblingTree 0).TreeShaped 6 ∧
    (siblingTree 0).OneDevice 6 ∧
    ¬ ∀ fuel io opts run, folderErase fuel (siblingTree 0) io siblingPath opts = some run →
      ∀ e ∈ run.events, Confined (siblingTree 0) 6 e := by
  refine ⟨by decide +kernel, rfl, sibling_shaped 0, fun _ _ => rfl, fun hall => ?_⟩
  have h : (folderErase 1 (siblingTree 0) .calm siblingPath folderEraseOptionsInit).any
      (fun run => run.events.any (fun e => match e with
        | .fileErase _ node code => node = some 5 && code = .ok
        | _ => false)) = true := by
    decide +kernel
  obtain ⟨run, hrun, hany⟩ := (Option.any_eq_true _ _).mp h
  obtain ⟨e, he, hfive⟩ := List.any_eq_true.mp hany
  have hconfined := hall 1 .calm folderEraseOptionsInit run hrun e he
  cases e with
  | opendir | rmdir => exact absurd hfive Bool.false_ne_true
  | fileErase path node code =>
    rw [Bool.and_eq_true, decide_eq_true_eq, decide_eq_true_eq] at hfive
    obtain ⟨names, _, hnames⟩ := hconfined 5 hfive.1
    rcases sibling_descend 0 names 5 hnames with ⟨_, h5⟩ | ⟨_, h5⟩
    · exact absurd h5 (by decide)
    · exact absurd h5 (by decide)

/-- Under the short path from its parent the same directory is safe to erase. -/
theorem folder_confined_short : ∃ run,
    folderErase 1 (siblingTree 4) .calm (fileName++['y']) folderEraseOptionsInit = some run ∧
    run.result.resultCode = .ok ∧ ∀ e ∈ run.events, Confined (siblingTree 4) 6 e := by
  have h : (folderErase 1 (siblingTree 4) .calm (fileName++['y']) folderEraseOptionsInit).any
      (fun run => run.result.resultCode = .ok) = true := by
    decide
  obtain ⟨run, hrun, hok⟩ := (Option.any_eq_true _ _).mp h
  refine ⟨run, hrun, of_decide_eq_true hok, ?_⟩
  apply (folder_confined (siblingTree 4) (fileName++['y']) 6 folderEraseOptionsInit
    (by decide) rfl (sibling_shaped 4) (fun _ _ => rfl)).mpr _ 1 .calm run hrun
  apply Or.inr
  rintro names ⟨hne, hsome, hlong, _⟩
  obtain ⟨n, hn⟩ := Option.isSome_iff_exists.mp hsome
  rcases sibling_descend 4 names n hn with ⟨rfl, _⟩ | ⟨rfl, _⟩
  · exact hne rfl
  · revert hlong
    decide

end EraseCure.FolderConfinement
