import EraseCure.DepthFirstTours
import EraseCure.FolderVisits

/-!
# Directories that are read again

The visits of a folder are a depth-first tour of its directories. The table of the
directories seen is the memory of the tour, and the calls can make the visits go
through any tour that this memory admits.
-/

set_option autoImplicit false

namespace EraseCure.RepeatedReads
open EraseCure.CText EraseCure.ErrorCodes EraseCure.FileEraser EraseCure.PathNames
open EraseCure.FileTrees EraseCure.FolderEraser EraseCure.FolderVisits EraseCure.DepthFirstTours
open EraseCure.FileTrees.FileTree

def pathOf (dirPath : Text) (chain : List Text) : Text := chain.foldl entryPath dirPath

theorem pathOf_concat (dirPath : Text) (chain : List Text) (name : Text) :
    pathOf dirPath (chain++[name]) = entryPath (pathOf dirPath chain) name := by
  rw [pathOf, List.foldl_append]
  rfl

def directoryChains (tree : FileTree) (opts : FolderEraseOptions) (initialDev : ℕ)
    (dirPath : Text) : Chains Text ℕ where
  place := fun chain => (tree.lstat (pathOf dirPath chain)).filter (fun n =>
    tree.kind n = .directory ∧ (opts.followMount = true ∨ tree.device n = initialDev))
  names := fun chain =>
    match tree.lstat (pathOf dirPath chain) with
    | none => []
    | some n => (tree.directory n).names

/-- The directories that were read, as their paths named them. -/
def readsOf (tree : FileTree) (events : List FolderEvent) : List ℕ :=
  events.filterMap (fun e =>
    match e with
    | .opendir path => tree.lstat path
    | _ => none)

section Chains
variable (tree : FileTree) (opts : FolderEraseOptions) (initialDev : ℕ) (dirPath : Text)

theorem place_iff (chain : List Text) (n : ℕ) :
    (directoryChains tree opts initialDev dirPath).place chain = some n ↔
      tree.lstat (pathOf dirPath chain) = some n ∧ tree.kind n = .directory ∧
        (opts.followMount = true ∨ tree.device n = initialDev) := by
  rw [directoryChains, Option.filter_eq_some_iff, decide_eq_true_eq]

theorem mem_chains (chain : List Text) (n : ℕ) (h : tree.lstat (pathOf dirPath chain) = some n)
    (name : Text) : name ∈ (directoryChains tree opts initialDev dirPath).names chain ↔
      name ∈ (tree.directory n).names := by
  simp only [directoryChains, h]

end Chains

theorem readsOf_leave (tree : FileTree) (s : FolderState) (removeDirs allowed : Bool)
    (path : Text) :
    readsOf tree (s.leave removeDirs allowed path).events = readsOf tree s.events := by
  rw [leave_events, readsOf, List.filterMap_append]
  split
  · exact List.append_nil _
  · exact List.append_nil _

/-- The state after the visits have entered these directories, one after the other. -/
structure Toured (tree : FileTree) (before : List ℕ) (s : FolderState) : Prop where
  shrunk : Shrunk tree s.tree
  seen : s.seen = (before.take maxSeenInodes).map (fun n => (tree.device n, n))
  reads : (readsOf tree s.events).Sublist before

section States
variable (tree : FileTree) (before : List ℕ) (s : FolderState) (h : Toured tree before s)
include h

/-- The table has the directories that were entered first. -/
theorem toured_seen (n : ℕ) : (s.tree.device n, n) ∈ s.seen ↔ n ∈ before.take maxSeenInodes := by
  rw [h.seen, h.shrunk.device, List.mem_map]
  constructor
  · rintro ⟨m, hm, heq⟩
    rwa [← (Prod.mk.inj heq).2]
  · exact fun hn => ⟨n, hn, rfl⟩

theorem toured_record (n : ℕ) : Toured tree (before++[n]) (s.record n) where
  shrunk := by
    rw [record_tree]
    exact h.shrunk
  seen := by
    have hlen : s.seen.length = min maxSeenInodes before.length := by
      rw [h.seen, List.length_map, List.length_take]
    rw [FolderState.record, hlen]
    split_ifs with hroom
    · have hlt : before.length < maxSeenInodes := by omega
      dsimp only
      rw [h.seen, List.take_of_length_le (Nat.le_of_lt hlt), List.take_of_length_le
        (by rw [List.length_append]; exact hlt), List.map_append, h.shrunk.device]
      rfl
    · rw [List.take_append_of_le_length (by omega)]
      exact h.seen
  reads := by
    rw [record_events]
    exact h.reads.trans (List.sublist_append_left _ _)

theorem toured_skip : Toured tree before s.skipLink := ⟨h.shrunk, h.seen, h.reads⟩

theorem toured_message (text : Text) : Toured tree before (s.message text) :=
  ⟨h.shrunk, h.seen, h.reads⟩

theorem toured_erased (fuel : ℕ) (io : FileEraseIo) (path : Text) (opts : FileEraseOptions)
    (run : FileEraseRun) (hrun : fileErase fuel s.tree.files io path opts = some run) :
    Toured tree before (s.erased path run) where
  shrunk := shrunk_trans _ _ _ h.shrunk (erased_shrunk s fuel io path opts run hrun)
  seen := h.seen
  reads := by
    have hevents : readsOf tree (s.erased path run).events = readsOf tree s.events := by
      rw [FolderState.erased, readsOf, List.filterMap_append]
      exact List.append_nil _
    rw [hevents]
    exact h.reads

theorem toured_leave (removeDirs allowed : Bool) (path : Text) :
    Toured tree before (s.leave removeDirs allowed path) where
  shrunk := shrunk_trans _ _ _ h.shrunk (leave_shrunk s removeDirs allowed path)
  seen := by
    rw [leave_seen]
    exact h.seen
  reads := by
    rw [readsOf_leave]
    exact h.reads

end States

theorem readsOf_opened (tree : FileTree) (s : FolderState) (path : Text) (n : ℕ)
    (hn : tree.lstat path = some n) :
    readsOf tree (s.opened path).events = readsOf tree s.events++[n] := by
  rw [FolderState.opened, readsOf, List.filterMap_append]
  simp only [List.filterMap_cons, List.filterMap_nil, hn]
  rfl

section Runs
variable (tree : FileTree) (opts : FolderEraseOptions) (initialDev : ℕ) (dirPath : Text)
  (fuel : ℕ) (io : FolderIo)

/-- A tour that the table admits after these directories, and the state after it. -/
structure ToursOn (levels : ℕ) (chain : List Text) (before : List ℕ) (t : Tour Text)
    (s : FolderState) : Prop where
  valid : (directoryChains tree opts initialDev dirPath).Valid levels chain t
  admitted : Admitted maxSeenInodes before
    ((directoryChains tree opts initialDev dirPath).entered chain t)
  toured : Toured tree (before++(directoryChains tree opts initialDev dirPath).entered chain t) s

theorem toured_place (chain : List Text) (before : List ℕ) (s : FolderState) (n : ℕ)
    (hs : Toured tree before s) (hn : s.tree.lstat (pathOf dirPath chain) = some n)
    (hk : s.tree.kind n = .directory)
    (hdev : ¬ (opts.followMount = false ∧ s.tree.device n ≠ initialDev)) :
    (directoryChains tree opts initialDev dirPath).place chain = some n := by
  rw [place_iff]
  refine ⟨lstat_shrunk tree s.tree hs.shrunk _ n hn, by rw [← hs.shrunk.kind]; exact hk, ?_⟩
  rw [not_and, not_not, hs.shrunk.device] at hdev
  cases hmount : opts.followMount with
  | true => exact Or.inl rfl
  | false => exact Or.inr (hdev hmount)

/-- The visit of a chain enters nothing, or it makes a tour from its directory on. -/
def VisitTours (levels : ℕ) (chain : List Text) (before : List ℕ) (s : FolderState) : Prop :=
  Toured tree before s ∨ ∃ below n t, levels = below+1 ∧
    (directoryChains tree opts initialDev dirPath).place chain = some n ∧
    n ∉ before.take maxSeenInodes ∧
    ToursOn tree opts initialDev dirPath below chain (before++[n]) t s

theorem tours_done (levels : ℕ) (chain : List Text) (before : List ℕ) (s : FolderState)
    (hs : Toured tree before s) :
    ToursOn tree opts initialDev dirPath levels chain before .done s :=
  ⟨Chains.valid_done _ _ _, trivial, by rwa [Chains.entered, List.append_nil]⟩

theorem tours_enter (below : ℕ) (chain : List Text) (before : List ℕ) (name : Text) (n : ℕ)
    (inside rest : Tour Text) (s s' : FolderState)
    (hname : name ∈ (directoryChains tree opts initialDev dirPath).names chain)
    (hother : name ∉ rest.names)
    (hplace : (directoryChains tree opts initialDev dirPath).place (chain++[name]) = some n)
    (hnew : n ∉ before.take maxSeenInodes)
    (hinside : ToursOn tree opts initialDev dirPath below (chain++[name]) (before++[n]) inside s)
    (hrest : ToursOn tree opts initialDev dirPath (below+1) chain
      (before++[n]++(directoryChains tree opts initialDev dirPath).entered (chain++[name]) inside)
      rest s') :
    ToursOn tree opts initialDev dirPath (below+1) chain before (.enter name inside rest) s' := by
  have hentered : (directoryChains tree opts initialDev dirPath).entered chain
      (.enter name inside rest) =
        [n]++(directoryChains tree opts initialDev dirPath).entered (chain++[name]) inside++
          (directoryChains tree opts initialDev dirPath).entered chain rest := by
    rw [Chains.entered, hplace]
    rfl
  constructor
  · exact ⟨hname, hother, by rw [hplace]; rfl, hinside.valid, hrest.valid⟩
  · rw [hentered, admitted_append, ← List.append_assoc]
    exact ⟨⟨hnew, hinside.admitted⟩, hrest.admitted⟩
  · rw [hentered, ← List.append_assoc, ← List.append_assoc]
    exact hrest.toured

theorem entry_tours (levels : ℕ) (chain : List Text) (name : Text) (before : List ℕ)
    (s s' : FolderState) (hs : Toured tree before s)
    (hvisit : ∀ s s' code, Toured tree before s →
      folderEraseRecursive fuel io opts initialDev levels (chain++[name])
        (pathOf dirPath (chain++[name])) s = some (s', code) →
      VisitTours tree opts initialDev dirPath levels (chain++[name]) before s')
    (h : eraseOne fuel io opts initialDev levels chain (pathOf dirPath chain) s name = some s') :
    Toured tree before s' ∨ name ≠ ".".toList ∧ name ≠ "..".toList ∧
      VisitTours tree opts initialDev dirPath levels (chain++[name]) before s' := by
  unfold eraseOne eraseEntry at h
  split at h
  · cases h
    exact Or.inl hs
  rename_i hdots
  push Not at hdots
  dsimp only at h
  split at h
  · cases h
    exact Or.inl hs
  split at h
  · cases h
    exact Or.inl (toured_skip tree before s hs)
  · obtain ⟨run, hrun, rfl⟩ := Option.map_eq_some_iff.mp h
    exact Or.inl (toured_erased tree before s hs _ _ _ _ run hrun)
  · obtain ⟨⟨s₁, code⟩, hv, rfl⟩ := Option.map_eq_some_iff.mp h
    rw [← pathOf_concat] at hv
    exact Or.inr ⟨hdots.1, hdots.2, hvisit s s₁ code hs hv⟩
  · cases h
    exact Or.inl hs

theorem entries_tour (levels : ℕ) (chain names : List Text) (before : List ℕ) (s s' : FolderState)
    (hs : Toured tree before s) (hnodup : names.Nodup)
    (hnames : ∀ name ∈ names, name ≠ ".".toList → name ≠ "..".toList →
      name ∈ (directoryChains tree opts initialDev dirPath).names chain)
    (hvisit : ∀ name before s s' code, Toured tree before s →
      folderEraseRecursive fuel io opts initialDev levels (chain++[name])
        (pathOf dirPath (chain++[name])) s = some (s', code) →
      VisitTours tree opts initialDev dirPath levels (chain++[name]) before s')
    (h : eraseEntries fuel io opts initialDev levels chain (pathOf dirPath chain) names s =
      some s') :
    ∃ t, (∀ name ∈ t.names, name ∈ names) ∧
      ToursOn tree opts initialDev dirPath levels chain before t s' := by
  induction names generalizing before s with
  | nil =>
    cases h
    exact ⟨.done, fun _ h => h, tours_done tree opts initialDev dirPath levels chain before _ hs⟩
  | cons name names ih =>
    obtain ⟨hname, hnodup⟩ := List.nodup_cons.mp hnodup
    rw [eraseEntries, List.foldlM_cons] at h
    obtain ⟨s₁, hone, hrest⟩ := Option.bind_eq_some_iff.mp h
    have hrest' : ∀ before, Toured tree before s₁ → ∃ t, (∀ other ∈ t.names, other ∈ names) ∧
        ToursOn tree opts initialDev dirPath levels chain before t s' := fun before hs₁ =>
      ih before s₁ hs₁ hnodup
        (fun other hother => hnames other (List.mem_cons_of_mem _ hother)) hrest
    have hskip : Toured tree before s₁ → ∃ t, (∀ other ∈ t.names, other ∈ name::names) ∧
        ToursOn tree opts initialDev dirPath levels chain before t s' := by
      intro hs₁
      obtain ⟨t, ht, htours⟩ := hrest' before hs₁
      exact ⟨t, fun other hother => List.mem_cons_of_mem _ (ht other hother), htours⟩
    rcases entry_tours tree opts initialDev dirPath fuel io levels chain name before s s₁ hs
      (hvisit name before) hone with
      hs₁ | ⟨hdot, hdots, hs₁ | ⟨below, n, inside, rfl, hplace, hnew, hinside⟩⟩
    · exact hskip hs₁
    · exact hskip hs₁
    · obtain ⟨t, ht, htours⟩ := hrest' _ hinside.toured
      refine ⟨.enter name inside t, ?_, ?_⟩
      · intro other hother
        rcases List.mem_cons.mp hother with rfl | hother
        · exact List.mem_cons_self
        · exact List.mem_cons_of_mem _ (ht other hother)
      · exact tours_enter tree opts initialDev dirPath below chain before name n inside t s₁ s'
          (hnames name List.mem_cons_self hdot hdots) (fun hmem => hname (ht name hmem)) hplace hnew
          hinside htours

/-- A visit makes a tour of what is left of the levels. -/
theorem visit_tours (levels : ℕ) (chain : List Text) (before : List ℕ) (s s' : FolderState)
    (code : ErasecureError) (hs : Toured tree before s)
    (h : folderEraseRecursive fuel io opts initialDev levels chain (pathOf dirPath chain) s =
      some (s', code)) : VisitTours tree opts initialDev dirPath levels chain before s' := by
  induction levels generalizing chain before s s' code with
  | zero =>
    cases h
    exact Or.inl (toured_message tree before s hs _)
  | succ levels ih =>
    rw [folderEraseRecursive] at h
    split at h
    · cases h
      exact Or.inl hs
    rename_i n hn
    split_ifs at hn
    split_ifs at h with hk hdev hseen hopen
    · cases h
      exact Or.inl hs
    · cases h
      exact Or.inl hs
    · cases h
      exact Or.inl (toured_message tree before s hs _)
    all_goals
      have hplace := toured_place tree opts initialDev dirPath chain before s n hs hn
        (not_not.mp hk) hdev
      have hnew := (toured_seen tree before s hs n).not.mp hseen
      have hrecord := toured_record tree before s hs n
    · cases h
      exact Or.inr ⟨levels, n, .done, rfl, hplace, hnew,
        tours_done tree opts initialDev dirPath levels chain _ _ hrecord⟩
    · obtain ⟨s₂, hloop, h⟩ := Option.map_eq_some_iff.mp h
      cases h
      have hlstat := lstat_shrunk tree s.tree hs.shrunk _ n hn
      have hopened : Toured tree (before++[n]) ((s.record n).opened (pathOf dirPath chain)) := by
        refine ⟨hrecord.shrunk, hrecord.seen, ?_⟩
        rw [readsOf_opened tree _ _ n hlstat, record_events]
        exact List.Sublist.append hs.reads (List.Sublist.refl _)
      obtain ⟨t, _, htours⟩ := entries_tour tree opts initialDev dirPath fuel io levels chain _ _ _
        s₂ hopened ((io.reads chain _).nodup_iff.mpr (listing_nodup s.tree n))
        (fun name hname hdot hdots => by
          have hmem := (io.reads chain _).mem_iff.mp hname
          rw [listing, List.mem_cons, List.mem_cons] at hmem
          have hfound := (hmem.resolve_left hdot).resolve_left hdots
          obtain ⟨m, hm⟩ := (Directory.mem_names _ _).mp hfound
          rw [mem_chains tree opts initialDev dirPath chain n hlstat]
          exact (Directory.mem_names _ _).mpr ⟨m, hs.shrunk.find n name m hm⟩)
        (fun name before s s' code => ih (chain++[name]) before s s' code) hloop
      exact Or.inr ⟨levels, n, t, rfl, hplace, hnew, htours.valid, htours.admitted,
        toured_leave tree _ s₂ htours.toured _ _ _⟩

end Runs

def tourOrder (t : Tour Text) (chain names : List Text) : List Text :=
  (t.follow chain).names++names.filter (fun name => name ∉ (t.follow chain).names)

/-- The calls that lead the visits through a tour: they show its entries first and
in its order, fail on all others, and remove nothing. -/
def tourIo (t : Tour Text) : FolderIo where
  lstatTop := true
  lstatDir := fun _ => true
  lstatEntry := fun chain =>
    match chain.getLast? with
    | none => false
    | some name => name ∈ (t.follow chain.dropLast).names
  opendir := fun _ => true
  readdir := fun chain names =>
    if (tourOrder t chain names).Perm names then tourOrder t chain names else names
  reads := fun chain names => by
    split_ifs with h
    · exact h
    · exact List.Perm.refl names
  file := fun _ => .calm
  rmdir := fun _ => false

/-- The state after a tour has entered and read these directories. -/
structure Touring (tree : FileTree) (before : List ℕ) (s : FolderState) : Prop where
  toured : Toured tree before s
  same : s.tree = tree
  reads : readsOf tree s.events = before

theorem touring_leave (tree : FileTree) (before : List ℕ) (s : FolderState)
    (h : Touring tree before s) (removeDirs : Bool) (path : Text) :
    Touring tree before (s.leave removeDirs false path) where
  toured := toured_leave tree before s h.toured removeDirs false path
  same := by
    refine Eq.trans ?_ h.same
    unfold FolderState.leave
    split <;> rfl
  reads := by
    rw [readsOf_leave]
    exact h.reads

section Tours
variable (tree : FileTree) (opts : FolderEraseOptions) (initialDev : ℕ) (dirPath : Text)
  (fuel : ℕ) (t : Tour Text)

theorem tourIo_entry (chain : List Text) (name : Text) :
    (tourIo t).lstatEntry (chain++[name]) = decide (name ∈ (t.follow chain).names) := by
  simp only [tourIo, List.getLast?_concat, List.dropLast_concat]

theorem tourIo_order (levels : ℕ) (chain : List Text) (n : ℕ)
    (hlstat : tree.lstat (pathOf dirPath chain) = some n)
    (hvalid : (directoryChains tree opts initialDev dirPath).Valid levels chain (t.follow chain)) :
    (tourIo t).readdir chain (listing tree n) = tourOrder t chain (listing tree n) := by
  obtain ⟨hnodup, hall⟩ := Chains.valid_names _ levels chain _ hvalid
  have hlist := listing_nodup tree n
  apply if_pos
  refine (List.perm_ext_iff_of_nodup ?_ hlist).mpr fun name => ?_
  · refine List.nodup_append.mpr ⟨hnodup, hlist.filter _, fun x hx y hy hxy => ?_⟩
    rw [hxy] at hx
    exact absurd hx (of_decide_eq_true (List.mem_filter.mp hy).2)
  · rw [tourOrder, List.mem_append, List.mem_filter, decide_eq_true_eq]
    constructor
    · rintro (hname | ⟨hname, _⟩)
      · have hfound := (mem_chains tree opts initialDev dirPath chain n hlstat name).mp
          (hall name hname)
        exact List.mem_cons_of_mem _ (List.mem_cons_of_mem _ hfound)
      · exact hname
    · intro hname
      by_cases hin : name ∈ (t.follow chain).names
      · exact Or.inl hin
      · exact Or.inr ⟨hname, hin⟩

theorem entries_realized (levels : ℕ) (chain : List Text) (n : ℕ) (part : Tour Text)
    (before : List ℕ) (s : FolderState) (hlstat : tree.lstat (pathOf dirPath chain) = some n)
    (hpart : ∀ name ∈ part.names, name ∈ (t.follow chain).names ∧
      (t.follow chain).pick name = part.pick name)
    (hvalid : (directoryChains tree opts initialDev dirPath).Valid levels chain part)
    (hs : Touring tree before s)
    (hadmitted : Admitted maxSeenInodes before
      ((directoryChains tree opts initialDev dirPath).entered chain part))
    (hvisit : ∀ below name m before s, levels = below+1 →
      (directoryChains tree opts initialDev dirPath).place (chain++[name]) = some m →
      (directoryChains tree opts initialDev dirPath).Valid below (chain++[name])
        (t.follow (chain++[name])) →
      Touring tree before s →
      Admitted maxSeenInodes before (m::(directoryChains tree opts initialDev dirPath).entered
        (chain++[name]) (t.follow (chain++[name]))) →
      ∃ s', folderEraseRecursive fuel (tourIo t) opts initialDev levels (chain++[name])
          (pathOf dirPath (chain++[name])) s = some (s', .ok) ∧
        Touring tree (before++m::(directoryChains tree opts initialDev dirPath).entered
          (chain++[name]) (t.follow (chain++[name]))) s') :
    ∃ s', eraseEntries fuel (tourIo t) opts initialDev levels chain (pathOf dirPath chain)
        part.names s = some s' ∧
      Touring tree (before++(directoryChains tree opts initialDev dirPath).entered chain part)
        s' := by
  induction part generalizing before s with
  | done =>
    refine ⟨s, rfl, ?_⟩
    rw [Chains.entered, List.append_nil]
    exact hs
  | enter name inside rest _ ih =>
    cases levels with
    | zero => exact hvalid.elim
    | succ below =>
      obtain ⟨hname, hnew, hsome, hinside, hrest⟩ := hvalid
      obtain ⟨m, hplace⟩ := Option.isSome_iff_exists.mp hsome
      obtain ⟨hlstat', hkind, _⟩ := (place_iff tree opts initialDev dirPath _ m).mp hplace
      rw [pathOf_concat] at hlstat'
      obtain ⟨htaken, hpick⟩ := hpart name List.mem_cons_self
      have hfollow : t.follow (chain++[name]) = inside := by
        rw [Tour.follow_concat, hpick]
        exact if_pos rfl
      rw [Chains.entered, hplace] at hadmitted ⊢
      obtain ⟨hfirst, hadmitted⟩ := (admitted_append maxSeenInodes _ _ _).mp hadmitted
      rw [← hfollow] at hinside hfirst hadmitted ⊢
      obtain ⟨s₁, hrun, hs₁⟩ := hvisit below name m before s rfl hplace hinside hs hfirst
      obtain ⟨s', hloop, hs'⟩ := ih _ s₁ (fun other hother => by
          have hne : other ≠ name := fun he => hnew (he ▸ hother)
          obtain ⟨hin, hother'⟩ := hpart other (List.mem_cons_of_mem _ hother)
          refine ⟨hin, hother'.trans (if_neg hne)⟩) hrest hs₁ hadmitted
      refine ⟨s', ?_, by rwa [← List.append_assoc]⟩
      obtain ⟨k, hk⟩ := (Directory.mem_names _ _).mp
        ((mem_chains tree opts initialDev dirPath chain n hlstat name).mp hname)
      have hone := one_entry fuel (tourIo t) opts initialDev (below+1) chain
        (pathOf dirPath chain) s name m ((tree.directory n).find_named name k hk)
        (by rw [tourIo_entry]; exact decide_eq_true htaken) (by rw [hs.same]; exact hlstat')
      rw [hs.same, hkind, ← pathOf_concat, hrun] at hone
      rw [eraseEntries, Tour.names, List.foldlM_cons, hone]
      exact hloop

theorem enter_realized (levels : ℕ) (chain : List Text) (n : ℕ) (before : List ℕ) (s : FolderState)
    (hplace : (directoryChains tree opts initialDev dirPath).place chain = some n)
    (hvalid : (directoryChains tree opts initialDev dirPath).Valid levels chain (t.follow chain))
    (hs : Touring tree before s)
    (hadmitted : Admitted maxSeenInodes before
      (n::(directoryChains tree opts initialDev dirPath).entered chain (t.follow chain)))
    (hentries : ∀ s₁, Touring tree (before++[n]) s₁ → ∃ s₂,
      eraseEntries fuel (tourIo t) opts initialDev levels chain (pathOf dirPath chain)
        (t.follow chain).names s₁ = some s₂ ∧
      Touring tree (before++[n]++(directoryChains tree opts initialDev dirPath).entered chain
        (t.follow chain)) s₂) :
    ∃ s', folderEraseRecursive fuel (tourIo t) opts initialDev (levels+1) chain
        (pathOf dirPath chain) s = some (s', .ok) ∧
      Touring tree (before++n::(directoryChains tree opts initialDev dirPath).entered chain
        (t.follow chain)) s' := by
  obtain ⟨hlstat, hkind, hdev⟩ := (place_iff tree opts initialDev dirPath _ n).mp hplace
  obtain ⟨hnew, hadmitted⟩ := hadmitted
  have hseen := (toured_seen tree before s hs.toured n).not.mpr hnew
  have hopened : Touring tree (before++[n]) ((s.record n).opened (pathOf dirPath chain)) := by
    have hreads : readsOf tree ((s.record n).opened (pathOf dirPath chain)).events =
        before++[n] := by
      rw [readsOf_opened tree _ _ n hlstat, record_events, hs.reads]
    have hrecord := toured_record tree before s hs.toured n
    exact ⟨⟨hrecord.shrunk, hrecord.seen, hreads ▸ List.Sublist.refl _⟩,
      (record_tree s n).trans hs.same, hreads⟩
  obtain ⟨s₂, hloop, hs₂⟩ := hentries _ hopened
  refine ⟨s₂.leave opts.removeDirs false (pathOf dirPath chain), ?_, ?_⟩
  · rw [visit_enters fuel (tourIo t) opts initialDev levels chain _ s n rfl
      (by rw [hs.same]; exact hlstat) (by rw [hs.same]; exact hkind)
      (by rw [hs.same]; exact hdev) hseen rfl, hs.same,
      tourIo_order tree opts initialDev dirPath t levels chain n hlstat hvalid, tourOrder,
      eraseEntries, List.foldlM_append]
    have hothers := entries_skipped fuel (tourIo t) opts initialDev levels chain
      (pathOf dirPath chain) s₂
      ((listing tree n).filter (fun name => name ∉ (t.follow chain).names))
      (fun name hname => Or.inr (Or.inr (by
        rw [tourIo_entry]
        exact decide_eq_false (of_decide_eq_true (List.mem_filter.mp hname).2))))
    rw [eraseEntries] at hloop hothers
    rw [hloop]
    exact congrArg (Option.map _) hothers
  · rw [List.append_assoc, List.singleton_append] at hs₂
    exact touring_leave tree _ s₂ hs₂ opts.removeDirs (pathOf dirPath chain)

/-- The visits follow the tour, which reads every directory that it enters. -/
theorem visit_realized (levels : ℕ) (chain : List Text) (n : ℕ) (before : List ℕ) (s : FolderState)
    (hplace : (directoryChains tree opts initialDev dirPath).place chain = some n)
    (hvalid : (directoryChains tree opts initialDev dirPath).Valid levels chain (t.follow chain))
    (hs : Touring tree before s)
    (hadmitted : Admitted maxSeenInodes before
      (n::(directoryChains tree opts initialDev dirPath).entered chain (t.follow chain))) :
    ∃ s', folderEraseRecursive fuel (tourIo t) opts initialDev (levels+1) chain
        (pathOf dirPath chain) s = some (s', .ok) ∧
      Touring tree (before++n::(directoryChains tree opts initialDev dirPath).entered chain
        (t.follow chain)) s' := by
  induction levels using Nat.strong_induction_on generalizing chain n before s with
  | h levels ih =>
    apply enter_realized tree opts initialDev dirPath fuel t levels chain n before s hplace hvalid
      hs hadmitted
    intro s₁ hs₁
    obtain ⟨hlstat, _, _⟩ := (place_iff tree opts initialDev dirPath _ n).mp hplace
    apply entries_realized tree opts initialDev dirPath fuel t levels chain n _ _ s₁ hlstat
      (fun name hname => ⟨hname, rfl⟩) hvalid hs₁ hadmitted.2
    rintro below name m before s rfl hplace hvalid
    exact ih below (Nat.lt_succ_self below) (chain++[name]) m before s hplace hvalid

end Tours

section Folders
variable (tree : FileTree) (dirPath : Text) (opts : FolderEraseOptions)

/-- A run reads once what no tour with the memory of the table enters twice. -/
theorem complete_once (hcomplete : ∀ d, tree.lstat dirPath = some d →
      (directoryChains tree opts (tree.device d) dirPath).Complete maxSeenInodes opts.maxDepth)
    (fuel : ℕ) (io : FolderIo) (run : FolderRun)
    (h : folderErase fuel tree io dirPath opts = some run) : (readsOf tree run.events).Nodup := by
  cases hd : tree.lstat dirPath with
  | none =>
    have hevents : run.events = [] := by
      rw [folderErase, hd, ite_self] at h
      dsimp only at h
      split at h <;> cases h <;> rfl
    rw [hevents]
    exact List.nodup_nil
  | some d =>
    rcases folderErase_cases fuel io opts tree dirPath d run hd h with
      ⟨hevents, _⟩ | ⟨_, _, s, code, hvisit, rfl⟩
    · rw [hevents]
      exact List.nodup_nil
    have hstart : Toured tree [] (startState tree dirPath) :=
      ⟨shrunk_refl tree, rfl, List.Sublist.refl _⟩
    rcases visit_tours tree opts (tree.device d) dirPath fuel io (opts.maxDepth+1) [] [] _ s code
      hstart hvisit with hs | ⟨below, n, t, hbelow, hplace, hnew, htours⟩
    · rw [List.sublist_nil.mp hs.reads]
      exact List.nodup_nil
    · obtain rfl := Nat.succ.inj hbelow
      have hplaces : (directoryChains tree opts (tree.device d) dirPath).places t =
          n::(directoryChains tree opts (tree.device d) dirPath).entered [] t := by
        rw [Chains.places, hplace]
        rfl
      have hnodup := (Chains.complete_iff _ _ _).mp (hcomplete d hd) t
        (by rw [hplace]; rfl) htours.valid (by rw [hplaces]; exact ⟨hnew, htours.admitted⟩)
      rw [hplaces] at hnodup
      exact hnodup.sublist htours.toured.reads

theorem tour_read (hsafe : ¬ FolderEraser.isDangerousPath dirPath = true) (d : ℕ)
    (hd : tree.lstat dirPath = some d) (t : Tour Text) (fuel : ℕ)
    (hroot : ((directoryChains tree opts (tree.device d) dirPath).place []).isSome)
    (hvalid : (directoryChains tree opts (tree.device d) dirPath).Valid opts.maxDepth [] t)
    (hadmitted : Admitted maxSeenInodes []
      ((directoryChains tree opts (tree.device d) dirPath).places t)) :
    ∃ run, folderErase fuel tree (tourIo t) dirPath opts = some run ∧
      readsOf tree run.events = (directoryChains tree opts (tree.device d) dirPath).places t := by
  obtain ⟨n, hplace⟩ := Option.isSome_iff_exists.mp hroot
  obtain ⟨hlstat, hkind, _⟩ := (place_iff tree opts (tree.device d) dirPath [] n).mp hplace
  obtain rfl := Option.some.inj (hlstat.symm.trans hd)
  have hstart : Touring tree [] (startState tree dirPath) :=
    ⟨⟨shrunk_refl tree, rfl, List.Sublist.refl _⟩, rfl, rfl⟩
  rw [Chains.places, hplace] at hadmitted ⊢
  obtain ⟨s, hvisit, hs⟩ := visit_realized tree opts (tree.device n) dirPath fuel t opts.maxDepth []
    n [] _ hplace hvalid hstart hadmitted
  exact ⟨_, folderErase_enters fuel (tourIo t) opts tree dirPath n s .ok hsafe rfl hd hkind hvisit,
    hs.reads⟩

/-- A folder is read once, whatever the calls do, when no tour of its directories
repeats one that is beyond the table. -/
theorem reads_once_iff : (∀ fuel io run, folderErase fuel tree io dirPath opts = some run →
    (readsOf tree run.events).Nodup) ↔
      (FolderEraser.isDangerousPath dirPath = true ∨ ∀ d, tree.lstat dirPath = some d →
        (directoryChains tree opts (tree.device d) dirPath).Complete maxSeenInodes
          opts.maxDepth) := by
  constructor
  · intro h
    by_cases hsafe : FolderEraser.isDangerousPath dirPath = true
    · exact Or.inl hsafe
    refine Or.inr fun d hd => (Chains.complete_iff _ _ _).mpr fun t hroot hvalid hadmitted => ?_
    obtain ⟨run, hrun, hreads⟩ := tour_read tree dirPath opts hsafe d hd t 0 hroot hvalid hadmitted
    exact hreads ▸ h 0 (tourIo t) run hrun
  · rintro (hdanger | hcomplete) fuel io run h
    · rw [folderErase, if_pos hdanger] at h
      cases h
      exact List.nodup_nil
    · exact complete_once tree dirPath opts hcomplete fuel io run h

section Star
variable (k : ℕ)

def starEntries : List (Text × ℕ) :=
  (List.range k).map (fun i => (decimal i, i+2))++[(['x'], k+1)]

theorem star_distinct : ((starEntries k).map Prod.fst).Nodup := by
  rw [starEntries, List.map_append, List.map_map]
  refine List.nodup_append'.mpr ⟨List.nodup_range.map decimal_injective, List.nodup_singleton _, ?_⟩
  intro name hname hx
  obtain ⟨i, _, rfl⟩ := List.mem_map.mp hname
  have hdecimal : decimal i = ['x'] := List.mem_singleton.mp hx
  exact absurd (decimal_digit i 'x' (hdecimal ▸ List.mem_singleton_self _)) (by decide)

theorem star_named : ∀ e ∈ starEntries k, FileName e.1 := by
  intro e he
  rcases List.mem_append.mp he with he | he
  · obtain ⟨i, _, rfl⟩ := List.mem_map.mp he
    have hplain : ∀ c, c.isDigit = false → c ∉ decimal i := fun c hc hmem =>
      Bool.false_ne_true (hc.symm.trans (decimal_digit i c hmem))
    refine ⟨Nat.toDigits_ne_nil, hplain '/' rfl, fun (h : decimal i = ['.']) => ?_,
      fun (h : decimal i = ['.', '.']) => ?_⟩
    · exact hplain '.' rfl (h ▸ List.mem_singleton_self _)
    · exact hplain '.' rfl (h ▸ List.mem_cons_self)
  · obtain rfl := List.mem_singleton.mp he
    exact (by decide : FileName ['x'])

theorem star_length (hk : k ≤ 10^4) (e : Text × ℕ) (he : e ∈ starEntries k) : e.1.length ≤ 4 := by
  rcases List.mem_append.mp he with he | he
  · obtain ⟨i, hi, rfl⟩ := List.mem_map.mp he
    exact decimal_length i 4 (by decide) ((List.mem_range.mp hi).trans_le hk)
  · obtain rfl := List.mem_singleton.mp he
    exact (by decide : 1 ≤ 4)

/-- The directory 1 below the working directory 0, with the others in it. -/
def starTree : FileTree where
  root := 0
  cwd := 0
  object _ := .directory 0
  directory n :=
    match n with
    | 0 => .ofEntries [(['d'], 1)]
    | 1 => ⟨starEntries k, star_distinct k, star_named k⟩
    | _ => .ofEntries []
  parent n := n-1
  device _ := 0
  target _ := []

def starTour : Tour Text := .flat ((starEntries k).map Prod.fst)

theorem star_root : (starTree k).lstat ['d'] = some 1 := rfl

variable (opts : FolderEraseOptions)

theorem star_start : (directoryChains (starTree k) opts 0 ['d']).place [] = some 1 := by
  rw [place_iff]
  exact ⟨star_root k, rfl, Or.inr rfl⟩

theorem star_place (hk : k ≤ 10^4) (e : Text × ℕ) (he : e ∈ starEntries k) :
    (directoryChains (starTree k) opts 0 ['d']).place ([]++[e.1]) = some e.2 := by
  have hfits : (child ['d'] e.1).length < pathCap := by
    have hlen := star_length k hk e he
    have hchild : (child ['d'] e.1).length = e.1.length+2 := by simp [child]
    rw [pathCap]
    omega
  rw [place_iff, List.nil_append]
  refine ⟨?_, rfl, Or.inr rfl⟩
  show (starTree k).lstat (entryPath ['d'] e.1) = some e.2
  rw [entryPath_fits _ _ hfits, lstat_child (starTree k) ['d'] e.1 1 (star_root k) rfl
    (star_named k e he) (hfits.trans (by decide))]
  exact (((starTree k).directory 1).find_iff e.1 e.2).mpr he

theorem star_valid (hk : k ≤ 10^4) (hdepth : 0 < opts.maxDepth) :
    (directoryChains (starTree k) opts 0 ['d']).Valid opts.maxDepth [] (starTour k) := by
  obtain ⟨levels, hlevels⟩ := Nat.exists_eq_add_one.mpr hdepth
  rw [hlevels]
  refine Chains.valid_flat _ levels [] _ (star_distinct k) fun name hname => ?_
  obtain ⟨e, he, rfl⟩ := List.mem_map.mp hname
  rw [star_place k opts hk e he, mem_chains (starTree k) opts 0 ['d'] [] 1 (star_root k)]
  exact ⟨hname, rfl⟩

theorem star_places (hk : k ≤ 10^4) (hpos : 0 < k) :
    (directoryChains (starTree k) opts 0 ['d']).places (starTour k) =
      List.range' 1 k++[k+1, k+1] := by
  have hentered : (directoryChains (starTree k) opts 0 ['d']).entered [] (starTour k) =
      (starEntries k).map Prod.snd := by
    rw [starTour, Chains.entered_flat, List.flatMap_map, List.map_eq_flatMap]
    apply List.flatMap_congr
    intro e he
    rw [star_place k opts hk e he]
    rfl
  obtain ⟨j, rfl⟩ := Nat.exists_eq_add_one.mpr hpos
  have hrange : (List.range (j+1)).map (fun i => i+2) = List.range' 2 j++[j+2] := by
    rw [List.map_congr_left (fun i _ => Nat.add_comm i 2), ← List.range'_eq_map_range,
      List.range'_1_concat, Nat.add_comm 2 j]
  rw [Chains.places, star_start, hentered, starEntries, List.map_append, List.map_map]
  show 1::((List.range (j+1)).map (fun i => i+2)++[j+2]) = _
  rw [hrange, List.range'_succ, List.append_assoc]
  rfl

/-- With as many directories in it as the table has places the last is read under
each of its names. -/
theorem star_reread (hk : k = maxSeenInodes) (hdepth : 0 < opts.maxDepth) : ∃ run,
    folderErase 0 (starTree k) (tourIo (starTour k)) ['d'] opts = some run ∧
      ¬ (readsOf (starTree k) run.events).Nodup := by
  have hsmall : k ≤ 10^4 := by
    rw [hk]
    decide
  have hplaces := star_places k opts hsmall (by rw [hk]; decide)
  have hadmitted : Admitted maxSeenInodes []
      ((directoryChains (starTree k) opts 0 ['d']).places (starTour k)) := by
    rw [hplaces, ← hk, admitted_iff, List.take_left' List.length_range',
      List.drop_left' List.length_range']
    refine ⟨List.nodup_range', fun n hn hlast => ?_⟩
    have hlt := (List.mem_range'_1.mp hn).2
    simp at hlast
    omega
  have hroot : ((directoryChains (starTree k) opts 0 ['d']).place []).isSome := by
    rw [star_start]
    rfl
  obtain ⟨run, hrun, hreads⟩ := tour_read (starTree k) ['d'] opts (by decide) 1 (star_root k)
    (starTour k) 0 hroot (star_valid k opts hsmall hdepth) hadmitted
  refine ⟨run, hrun, ?_⟩
  have hreads : readsOf (starTree k) run.events = List.range' 1 k++[k+1, k+1] :=
    hreads.trans hplaces
  rw [hreads, List.nodup_append']
  rintro ⟨_, h, _⟩
  simp at h

end Star

theorem directory_read_twice : ∃ run,
    folderErase 0 (starTree maxSeenInodes) (tourIo (starTour maxSeenInodes)) ['d']
      folderEraseOptionsInit = some run ∧
      ¬ (readsOf (starTree maxSeenInodes) run.events).Nodup :=
  star_reread maxSeenInodes folderEraseOptionsInit rfl (by decide)

/-- A folder with no more directories than the table has places is read once. -/
theorem reads_once_few (all : List ℕ) (hall : ∀ d chain n, tree.lstat dirPath = some d →
      (directoryChains tree opts (tree.device d) dirPath).Reached chain n → n ∈ all)
    (hfew : all.length ≤ maxSeenInodes) (fuel : ℕ) (io : FolderIo) (run : FolderRun)
    (h : folderErase fuel tree io dirPath opts = some run) :
    (readsOf tree run.events).Nodup :=
  complete_once tree dirPath opts (fun d hd =>
    Chains.complete_few _ maxSeenInodes opts.maxDepth all (fun chain n => hall d chain n hd) hfew)
    fuel io run h

/-- So is one of any size whose directories have one path each. -/
theorem reads_once_unique (hunique : ∀ d chain chain' n, tree.lstat dirPath = some d →
      (directoryChains tree opts (tree.device d) dirPath).Reached chain n →
      (directoryChains tree opts (tree.device d) dirPath).Reached chain' n → chain = chain')
    (fuel : ℕ) (io : FolderIo) (run : FolderRun)
    (h : folderErase fuel tree io dirPath opts = some run) :
    (readsOf tree run.events).Nodup :=
  complete_once tree dirPath opts (fun d hd => Chains.complete_unique _
    (fun chain chain' n => hunique d chain chain' n hd) maxSeenInodes opts.maxDepth) fuel io run h

end Folders

end EraseCure.RepeatedReads
