import EraseCure.FileCalls
import EraseCure.FolderEraser

/-!
# What holds through the visits of a folder

A property of the state that each step of a visit keeps is kept by whole visits,
at every depth. The steps may rely on what is known of the place of the visit and
of its entries, which follows from the places above. Nothing is added to the
files, and the record of the calls and the count of failures only grow.
-/

set_option autoImplicit false

namespace EraseCure.FolderVisits
open EraseCure.CText EraseCure.ErrorCodes EraseCure.FileSystems EraseCure.FileEraser
open EraseCure.PathNames EraseCure.FileTrees EraseCure.FileCalls EraseCure.FolderEraser
open EraseCure.FileTrees.FileTree

theorem foldlM_invariant {σ α : Type*} (I : σ → Prop) (f : σ → α → Option σ) (xs : List α)
    (h : ∀ s x s', x ∈ xs → I s → f s x = some s' → I s') (s s' : σ) (hs : I s)
    (hf : xs.foldlM f s = some s') : I s' := by
  induction xs generalizing s with
  | nil =>
    cases hf
    exact hs
  | cons x xs ih =>
    rw [List.foldlM_cons] at hf
    obtain ⟨s₁, h₁, hf⟩ := Option.bind_eq_some_iff.mp hf
    exact ih (fun s x s' hx => h s x s' (List.mem_cons_of_mem _ hx)) s₁
      (h s x s₁ List.mem_cons_self hs h₁) hf

theorem foldlM_split {σ α : Type*} (f : σ → α → Option σ) (xs : List α) (x : α) (hx : x ∈ xs)
    (s s' : σ) (h : xs.foldlM f s = some s') : ∃ before after s₁ s₂, xs = before++x::after ∧
      x ∉ before ∧ before.foldlM f s = some s₁ ∧ f s₁ x = some s₂ ∧
      after.foldlM f s₂ = some s' := by
  obtain ⟨before, after, rfl, hnot⟩ := List.eq_append_cons_of_mem hx
  rw [List.foldlM_append] at h
  obtain ⟨s₁, h₁, h⟩ := Option.bind_eq_some_iff.mp h
  rw [List.foldlM_cons] at h
  obtain ⟨s₂, h₂, h₃⟩ := Option.bind_eq_some_iff.mp h
  exact ⟨before, after, s₁, s₂, rfl, hnot, h₁, h₂, h₃⟩

section Rule
variable (fuel : ℕ) (io : FolderIo) (opts : FolderEraseOptions) (initialDev : ℕ)

/-- What each step of a visit has to keep, at a place with so many levels left. -/
structure VisitRule (I : FolderState → Prop) (At Entry : ℕ → List Text → Text → Prop) :
    Prop where
  message : ∀ s text, I s → I (s.message text)
  skip : ∀ s, I s → I s.skipLink
  record : ∀ levels chain path s n, At (levels+1) chain path → I s →
    s.tree.lstat path = some n → s.tree.kind n = .directory → I (s.record n)
  opened : ∀ levels chain path s, At (levels+1) chain path → I s → I (s.opened path)
  child : ∀ levels chain path s n name, At (levels+1) chain path → I s →
    s.tree.lstat path = some n → s.tree.kind n = .directory →
    io.lstatDir chain = true → io.opendir chain = true → name ∈ (s.tree.directory n).names →
    Entry levels (chain++[name]) (entryPath path name)
  file : ∀ levels chain path s n run, Entry levels chain path → I s →
    io.lstatEntry chain = true → s.tree.lstat path = some n → s.tree.kind n = .regular →
    fileErase fuel s.tree.files (io.file chain) path opts.fileOpts = some run →
    I (s.erased path run)
  down : ∀ levels chain path s n, Entry levels chain path → I s →
    io.lstatEntry chain = true → s.tree.lstat path = some n → s.tree.kind n = .directory →
    At levels chain path
  leave : ∀ levels chain path s s' n, At (levels+1) chain path → I s →
    s.tree.lstat path = some n → s.tree.kind n = .directory →
    opts.followMount = true ∨ s.tree.device n = initialDev →
    io.lstatDir chain = true → io.opendir chain = true →
    I s' → I (s'.leave opts.removeDirs (io.rmdir chain) path)

variable (I : FolderState → Prop) (At Entry : ℕ → List Text → Text → Prop)
  (rule : VisitRule fuel io opts initialDev I At Entry)
include rule

theorem entry_invariant (levels : ℕ) (chain : List Text) (dirPath name : Text)
    (visit : List Text → Text → FolderState → Option FolderState)
    (hvisit : ∀ chain path s s', At levels chain path → I s → visit chain path s = some s' → I s')
    (hentry : name ≠ ".".toList → name ≠ "..".toList →
      Entry levels (chain++[name]) (entryPath dirPath name))
    (s s' : FolderState) (hs : I s)
    (h : eraseEntry fuel io opts visit chain dirPath s name = some s') : I s' := by
  unfold eraseEntry at h
  split_ifs at h with hdot hl
  · cases h
    exact hs
  · push Not at hdot
    have he := hentry hdot.1 hdot.2
    dsimp only at h
    split at h
    · cases h
      exact hs
    rename_i n hn
    split at h
    · cases h
      exact rule.skip s hs
    · rename_i hk
      obtain ⟨run, hrun, rfl⟩ := Option.map_eq_some_iff.mp h
      exact rule.file levels _ _ s n run he hs hl hn hk hrun
    · rename_i hk
      exact hvisit _ _ s s' (rule.down levels _ _ s n he hs hl hn hk) hs h
    · cases h
      exact hs
  · cases h
    exact hs

/-- The loop keeps what entries and deeper visits keep. -/
theorem loop_invariant (levels : ℕ) (chain : List Text) (path : Text)
    (visit : List Text → Text → FolderState → Option (FolderState × ErasecureError))
    (hvisit : ∀ chain path s s' code, At levels chain path → I s →
      visit chain path s = some (s', code) → I s')
    (names : List Text)
    (hentry : ∀ name ∈ names, name ≠ ".".toList → name ≠ "..".toList →
      Entry levels (chain++[name]) (entryPath path name))
    (s s' : FolderState) (hs : I s)
    (h : names.foldlM (eraseEntry fuel io opts
      (fun chain path s => (visit chain path s).map Prod.fst) chain path) s = some s') : I s' := by
  apply foldlM_invariant I _ _ _ s s' hs h
  intro s₁ name s₁' hname hs₁ h₁
  apply entry_invariant fuel io opts initialDev I At Entry rule levels chain path name _ _
    (hentry name hname) s₁ s₁' hs₁ h₁
  intro chain' path' s₂ s₂' hat hs₂ hv
  obtain ⟨⟨s₃, code⟩, hv', rfl⟩ := Option.map_eq_some_iff.mp hv
  exact hvisit chain' path' s₂ s₃ code hat hs₂ hv'

/-- A visit keeps what its steps keep. -/
theorem visit_invariant (levels : ℕ) (chain : List Text) (path : Text) (s s' : FolderState)
    (code : ErasecureError) (hat : At levels chain path) (hs : I s)
    (h : folderEraseRecursive fuel io opts initialDev levels chain path s = some (s', code)) :
    I s' := by
  induction levels generalizing chain path s s' code with
  | zero =>
    cases h
    exact rule.message s _ hs
  | succ levels ih =>
    rw [folderEraseRecursive] at h
    split at h
    · cases h
      exact hs
    rename_i n hn
    split_ifs at hn with hl
    split_ifs at h with hk hdev hseen hopen
    · cases h
      exact hs
    · cases h
      exact hs
    · cases h
      exact rule.message s _ hs
    · cases h
      exact rule.record levels chain path s n hat hs hn (not_not.mp hk)
    · obtain ⟨s₂, hloop, h⟩ := Option.map_eq_some_iff.mp h
      cases h
      have hk := not_not.mp hk
      have hopen := Bool.eq_true_of_not_eq_false hopen
      have hdev : opts.followMount = true ∨ s.tree.device n = initialDev := by
        rw [not_and, not_not] at hdev
        cases hf : opts.followMount with
        | true => exact Or.inl rfl
        | false => exact Or.inr (hdev hf)
      apply rule.leave levels chain path s s₂ n hat hs hn hk hdev hl hopen
      apply loop_invariant fuel io opts initialDev I At Entry rule levels chain path
        (folderEraseRecursive fuel io opts initialDev levels) ih _ _ _ s₂ _ hloop
      · intro name hname hdot hdotdot
        apply rule.child levels chain path s n name hat hs hn hk hl hopen
        have hmem := (io.reads chain _).mem_iff.mp hname
        rw [listing, List.mem_cons, List.mem_cons] at hmem
        exact (hmem.resolve_left hdot).resolve_left hdotdot
      · exact rule.opened levels chain path _ hat
          (rule.record levels chain path s n hat hs hn hk)

end Rule

section States
variable (s : FolderState)

@[simp] theorem message_tree (text : Text) : (s.message text).tree = s.tree := rfl

@[simp] theorem message_seen (text : Text) : (s.message text).seen = s.seen := rfl

@[simp] theorem message_events (text : Text) : (s.message text).events = s.events := rfl

@[simp] theorem record_tree (n : ℕ) : (s.record n).tree = s.tree := by
  unfold FolderState.record
  split_ifs <;> rfl

@[simp] theorem record_events (n : ℕ) : (s.record n).events = s.events := by
  unfold FolderState.record
  split_ifs <;> rfl

@[simp] theorem record_result (n : ℕ) : (s.record n).result = s.result := by
  unfold FolderState.record
  split_ifs <;> rfl

theorem record_seen (n : ℕ) (r : ℕ × ℕ) (h : r ∈ (s.record n).seen) :
    r ∈ s.seen ∨ r = (s.tree.device n, n) := by
  unfold FolderState.record at h
  split_ifs at h
  · exact (List.mem_append.mp h).imp_right List.mem_singleton.mp
  · exact Or.inl h

@[simp] theorem leave_seen (removeDirs allowed : Bool) (path : Text) :
    (s.leave removeDirs allowed path).seen = s.seen := by
  unfold FolderState.leave
  split
  · dsimp only
    split <;> rfl
  · rfl

@[simp] theorem leave_failed (removeDirs allowed : Bool) (path : Text) :
    (s.leave removeDirs allowed path).result.filesFailed = s.result.filesFailed := by
  unfold FolderState.leave
  split
  · dsimp only
    split <;> rfl
  · rfl

theorem leave_events (removeDirs allowed : Bool) (path : Text) :
    (s.leave removeDirs allowed path).events =
      s.events++(if removeDirs then [.rmdir path (s.tree.lstat path)] else []) := by
  unfold FolderState.leave
  split
  · dsimp only
    split <;> rfl
  · exact (List.append_nil _).symm

theorem leave_mem (removeDirs allowed : Bool) (path : Text) (e : FolderEvent)
    (h : e ∈ s.events) : e ∈ (s.leave removeDirs allowed path).events := by
  rw [leave_events]
  exact List.mem_append_left _ h

theorem leave_tree (removeDirs allowed : Bool) (path : Text) :
    (s.leave removeDirs allowed path).tree = s.tree ∨
      removeDirs = true ∧ allowed = true ∧
        s.tree.rmdir path = some (s.leave removeDirs allowed path).tree := by
  unfold FolderState.leave
  split
  · rename_i hdirs
    dsimp only
    split
    · exact Or.inl rfl
    · rename_i tree h
      split_ifs at h with hallowed
      exact Or.inr ⟨hdirs, hallowed, h⟩
  · exact Or.inl rfl

theorem leave_removes (path : Text) (tree : FileTree) (h : s.tree.rmdir path = some tree) :
    (s.leave true true path).tree = tree := by
  rw [FolderState.leave, if_pos rfl]
  dsimp only
  rw [if_pos rfl, h]

theorem leave_shrunk (removeDirs allowed : Bool) (path : Text) :
    Shrunk s.tree (s.leave removeDirs allowed path).tree := by
  rcases leave_tree s removeDirs allowed path with h | ⟨_, _, h⟩
  · rw [h]
    exact shrunk_refl _
  · exact rmdir_shrunk _ _ _ h

theorem erased_tree (path : Text) (run : FileEraseRun) :
    (s.erased path run).tree = afterCall s.tree path run := rfl

theorem erased_shrunk (fuel : ℕ) (io : FileEraseIo) (path : Text) (opts : FileEraseOptions)
    (run : FileEraseRun) (h : fileErase fuel s.tree.files io path opts = some run) :
    Shrunk s.tree (s.erased path run).tree := by
  have hobjects := shrunk_objects s.tree run.fs.object (fileErase_kind _ _ _ _ _ _ h)
  unfold FolderState.erased
  dsimp only
  split
  · exact shrunk_trans _ _ _ hobjects (unlink_shrunk _ _)
  · exact hobjects

theorem erased_failed (path : Text) (run : FileEraseRun) :
    s.result.filesFailed ≤ (s.erased path run).result.filesFailed ∧
      (run.result.resultCode ≠ .ok →
        s.result.filesFailed < (s.erased path run).result.filesFailed) := by
  unfold FolderState.erased FolderState.count
  dsimp only
  split_ifs with hok
  · exact ⟨Nat.le_refl _, fun h => absurd hok h⟩
  · exact ⟨Nat.le_succ _, fun _ => Nat.lt_succ_self _⟩

end States

/-- What was there before, with names taken away, calls added and failures
counted. -/
structure Later (s s' : FolderState) : Prop where
  shrunk : Shrunk s.tree s'.tree
  events : s.events <+: s'.events
  failed : s.result.filesFailed ≤ s'.result.filesFailed

theorem later_rule (fuel : ℕ) (io : FolderIo) (opts : FolderEraseOptions) (initialDev : ℕ)
    (s₀ : FolderState) :
    VisitRule fuel io opts initialDev (Later s₀) (fun _ _ _ => True) (fun _ _ _ => True) where
  message := fun _ _ h => ⟨h.shrunk, h.events, h.failed⟩
  skip := fun _ h => ⟨h.shrunk, h.events, h.failed⟩
  record := by
    intro _ _ _ s n _ h _ _
    constructor
    · rw [record_tree]
      exact h.shrunk
    · rw [record_events]
      exact h.events
    · rw [record_result]
      exact h.failed
  opened := fun _ _ _ _ _ h => ⟨h.shrunk, h.events.trans (List.prefix_append _ _), h.failed⟩
  child := fun _ _ _ _ _ _ _ _ _ _ _ _ _ => trivial
  file := fun _ _ _ s _ run _ h _ _ _ hr =>
    ⟨shrunk_trans _ _ _ h.shrunk (erased_shrunk s _ _ _ _ run hr),
      h.events.trans (List.prefix_append _ _), h.failed.trans (erased_failed s _ run).1⟩
  down := fun _ _ _ _ _ _ _ _ _ _ => trivial
  leave := by
    intro _ chain path _ s _ _ _ _ _ _ _ _ h
    constructor
    · exact shrunk_trans _ _ _ h.shrunk (leave_shrunk s _ _ path)
    · rw [leave_events]
      exact h.events.trans (List.prefix_append _ _)
    · rw [leave_failed]
      exact h.failed

theorem later_refl (s : FolderState) : Later s s :=
  ⟨shrunk_refl s.tree, List.prefix_rfl, Nat.le_refl _⟩

section Visits
variable (fuel : ℕ) (io : FolderIo) (opts : FolderEraseOptions) (initialDev : ℕ)

/-- One round of the loop, with the visits one level deeper. -/
def eraseOne (levels : ℕ) (chain : List Text) (dirPath : Text) (s : FolderState) (name : Text) :
    Option FolderState :=
  eraseEntry fuel io opts
    (fun chain path s =>
      (folderEraseRecursive fuel io opts initialDev levels chain path s).map Prod.fst)
    chain dirPath s name

def eraseEntries (levels : ℕ) (chain : List Text) (dirPath : Text) (names : List Text)
    (s : FolderState) : Option FolderState :=
  names.foldlM (eraseOne fuel io opts initialDev levels chain dirPath) s

theorem visit_enters (levels : ℕ) (chain : List Text) (path : Text) (s : FolderState) (n : ℕ)
    (hl : io.lstatDir chain = true) (hn : s.tree.lstat path = some n)
    (hk : s.tree.kind n = .directory)
    (hdev : opts.followMount = true ∨ s.tree.device n = initialDev)
    (hseen : (s.tree.device n, n) ∉ s.seen) (hopen : io.opendir chain = true) :
    folderEraseRecursive fuel io opts initialDev (levels+1) chain path s =
      (eraseEntries fuel io opts initialDev levels chain path
        (io.readdir chain (listing s.tree n)) ((s.record n).opened path)).map
        (fun s => (s.leave opts.removeDirs (io.rmdir chain) path, .ok)) := by
  have hdev' : ¬ (opts.followMount = false ∧ s.tree.device n ≠ initialDev) := by
    rintro ⟨hf, hne⟩
    rcases hdev with h | h
    · rw [hf] at h
      contradiction
    · exact hne h
  rw [folderEraseRecursive, if_pos hl, hn]
  dsimp only
  rw [if_neg (not_not.mpr hk), if_neg hdev', if_neg hseen, if_neg (by rw [hopen]; simp)]
  rfl

/-- A visit makes no call of the file eraser, or it goes through the entries and leaves. -/
theorem visit_cases (levels : ℕ) (chain : List Text) (path : Text) (s s' : FolderState)
    (code : ErasecureError)
    (h : folderEraseRecursive fuel io opts initialDev levels chain path s = some (s', code)) :
    s'.events = s.events ∧ s'.tree = s.tree ∨
      ∃ below n s₃, levels = below+1 ∧ s.tree.lstat path = some n ∧ s.tree.kind n = .directory ∧
        eraseEntries fuel io opts initialDev below chain path (io.readdir chain (listing s.tree n))
          ((s.record n).opened path) = some s₃ ∧
        s' = s₃.leave opts.removeDirs (io.rmdir chain) path := by
  cases levels with
  | zero =>
    cases h
    exact Or.inl ⟨rfl, rfl⟩
  | succ below =>
    rw [folderEraseRecursive] at h
    split at h
    · cases h
      exact Or.inl ⟨rfl, rfl⟩
    rename_i n hn
    split_ifs at hn with hl
    split_ifs at h with hk hdev hseen hopen
    · cases h
      exact Or.inl ⟨rfl, rfl⟩
    · cases h
      exact Or.inl ⟨rfl, rfl⟩
    · cases h
      exact Or.inl ⟨rfl, rfl⟩
    · cases h
      exact Or.inl ⟨record_events s n, record_tree s n⟩
    · obtain ⟨s₃, hloop, h⟩ := Option.map_eq_some_iff.mp h
      cases h
      exact Or.inr ⟨below, n, s₃, rfl, hn, not_not.mp hk, hloop, rfl⟩

theorem one_cases (levels : ℕ) (chain : List Text) (path name : Text) (s s' : FolderState)
    (h : eraseOne fuel io opts initialDev levels chain path s name = some s') :
    s'.events = s.events ∧ s'.tree = s.tree ∨
      ∃ n, s.tree.lstat (entryPath path name) = some n ∧
        (s.tree.kind n = .regular ∨ s.tree.kind n = .directory ∧ ∃ code,
          folderEraseRecursive fuel io opts initialDev levels (chain++[name]) (entryPath path name)
            s = some (s', code)) := by
  unfold eraseOne eraseEntry at h
  split_ifs at h with hdot hl
  · cases h
    exact Or.inl ⟨rfl, rfl⟩
  · dsimp only at h
    split at h
    · cases h
      exact Or.inl ⟨rfl, rfl⟩
    rename_i n hn
    split at h
    · cases h
      exact Or.inl ⟨rfl, rfl⟩
    · rename_i hk
      exact Or.inr ⟨n, hn, Or.inl hk⟩
    · rename_i hk
      obtain ⟨⟨s₂, code⟩, hv, rfl⟩ := Option.map_eq_some_iff.mp h
      exact Or.inr ⟨n, hn, Or.inr ⟨hk, code, hv⟩⟩
    · cases h
      exact Or.inl ⟨rfl, rfl⟩
  · cases h
    exact Or.inl ⟨rfl, rfl⟩

theorem visit_later (levels : ℕ) (chain : List Text) (path : Text) (s s' : FolderState)
    (code : ErasecureError)
    (h : folderEraseRecursive fuel io opts initialDev levels chain path s = some (s', code)) :
    Later s s' :=
  visit_invariant fuel io opts initialDev (Later s) _ _ (later_rule fuel io opts initialDev s)
    levels chain path s s' code trivial (later_refl s) h

theorem one_later (levels : ℕ) (chain : List Text) (path name : Text) (s s' : FolderState)
    (h : eraseOne fuel io opts initialDev levels chain path s name = some s') : Later s s' :=
  entry_invariant fuel io opts initialDev (Later s) _ _ (later_rule fuel io opts initialDev s)
    levels chain path name _ (fun chain path s₁ s₂ hat h₁ hv => by
      obtain ⟨⟨s₃, code⟩, hv', rfl⟩ := Option.map_eq_some_iff.mp hv
      exact visit_invariant fuel io opts initialDev (Later s) _ _
        (later_rule fuel io opts initialDev s) levels chain path s₁ s₃ code hat h₁ hv')
    (fun _ _ => trivial) s s' (later_refl s) h

theorem entries_invariant (I : FolderState → Prop) (At Entry : ℕ → List Text → Text → Prop)
    (rule : VisitRule fuel io opts initialDev I At Entry) (levels : ℕ) (chain : List Text)
    (path : Text) (names : List Text)
    (hentry : ∀ name ∈ names, name ≠ ".".toList → name ≠ "..".toList →
      Entry levels (chain++[name]) (entryPath path name))
    (s s' : FolderState) (hs : I s)
    (h : eraseEntries fuel io opts initialDev levels chain path names s = some s') : I s' :=
  loop_invariant fuel io opts initialDev I At Entry rule levels chain path _
    (visit_invariant fuel io opts initialDev I At Entry rule levels) names hentry s s' hs h

theorem entries_later (levels : ℕ) (chain : List Text) (path : Text) (names : List Text)
    (s s' : FolderState)
    (h : eraseEntries fuel io opts initialDev levels chain path names s = some s') : Later s s' :=
  entries_invariant fuel io opts initialDev (Later s) _ _ (later_rule fuel io opts initialDev s)
    levels chain path names (fun _ _ _ _ => trivial) s s' (later_refl s) h

theorem listing_nodup (t : FileTree) (n : ℕ) : (listing t n).Nodup := by
  have hnamed : ∀ name ∈ (t.directory n).names, FileName name := by
    intro name hname
    obtain ⟨m, hm⟩ := (Directory.mem_names _ _).mp hname
    exact (t.directory n).find_named name m hm
  rw [listing, List.nodup_cons, List.nodup_cons]
  refine ⟨?_, fun h => (hnamed _ h).2.2.2 rfl, (t.directory n).distinct⟩
  intro h
  rcases List.mem_cons.mp h with h | h
  · revert h
    decide
  · exact (hnamed _ h).2.2.1 rfl

section Loops
variable (levels : ℕ) (chain : List Text) (path : Text) (s : FolderState)

theorem entry_skipped (name : Text)
    (h : name = ".".toList ∨ name = "..".toList ∨ io.lstatEntry (chain++[name]) = false) :
    eraseOne fuel io opts initialDev levels chain path s name = some s := by
  unfold eraseOne eraseEntry
  split
  · rfl
  · rename_i hdot
    push Not at hdot
    rw [(h.resolve_left hdot.1).resolve_left hdot.2]
    rfl

theorem entries_skipped (names : List Text) (h : ∀ name ∈ names,
    name = ".".toList ∨ name = "..".toList ∨ io.lstatEntry (chain++[name]) = false) :
    eraseEntries fuel io opts initialDev levels chain path names s = some s := by
  induction names with
  | nil => rfl
  | cons name rest ih =>
    rw [eraseEntries, List.foldlM_cons,
      entry_skipped fuel io opts initialDev levels chain path s name (h name List.mem_cons_self)]
    exact ih (fun n hn => h n (List.mem_cons_of_mem _ hn))

theorem entries_single (names : List Text) (name : Text) (hnodup : names.Nodup)
    (hname : name ∈ names) (h : ∀ other ∈ names, other ≠ name →
      other = ".".toList ∨ other = "..".toList ∨ io.lstatEntry (chain++[other]) = false) :
    eraseEntries fuel io opts initialDev levels chain path names s =
      eraseOne fuel io opts initialDev levels chain path s name := by
  induction names with
  | nil => contradiction
  | cons x rest ih =>
    obtain ⟨hx, hnodup⟩ := List.nodup_cons.mp hnodup
    rw [eraseEntries, List.foldlM_cons]
    by_cases hxn : x = name
    · subst hxn
      have hskip : ∀ s',
          eraseEntries fuel io opts initialDev levels chain path rest s' = some s' := by
        intro s'
        apply entries_skipped
        intro other ho
        exact h other (List.mem_cons_of_mem _ ho) (fun he => hx (he ▸ ho))
      cases hone : eraseOne fuel io opts initialDev levels chain path s x with
      | none => rfl
      | some s' => exact hskip s'
    · rw [entry_skipped fuel io opts initialDev levels chain path s x (h x List.mem_cons_self hxn)]
      exact ih hnodup ((List.mem_cons.mp hname).resolve_left (Ne.symm hxn))
        (fun o ho => h o (List.mem_cons_of_mem _ ho))

theorem one_entry (name : Text) (n : ℕ) (hname : FileName name)
    (hl : io.lstatEntry (chain++[name]) = true) (hn : s.tree.lstat (entryPath path name) = some n) :
    eraseOne fuel io opts initialDev levels chain path s name =
      match s.tree.kind n with
      | .symlink => some s.skipLink
      | .regular =>
        (fileErase fuel s.tree.files (io.file (chain++[name])) (entryPath path name)
          opts.fileOpts).map (s.erased (entryPath path name))
      | .directory =>
        (folderEraseRecursive fuel io opts initialDev levels (chain++[name])
          (entryPath path name) s).map Prod.fst
      | .special => some s := by
  have hdot : ¬ (name = ".".toList ∨ name = "..".toList) := by
    rintro (h | h)
    · exact hname.2.2.1 h
    · exact hname.2.2.2 h
  have hfound : (if io.lstatEntry (chain++[name]) = true then
      s.tree.lstat (entryPath path name) else none) = some n := by
    rw [if_pos hl, hn]
  cases hk : s.tree.kind n <;> simp only [eraseOne, eraseEntry, if_neg hdot, hfound, hk]

end Loops

theorem entryPath_fits (path name : Text) (h : (child path name).length < pathCap) :
    entryPath path name = child path name :=
  List.take_of_length_le (by omega)

/-- The path is the one of the names, and leads where they lead. -/
structure Straight (t : FileTree) (dirPath : Text) (d : ℕ) (names : List Text) (path : Text) :
    Prop where
  spelled : path = descendant dirPath names
  leads : ∀ n, t.lstat path = some n → t.descend d names = some n

theorem straight_start (t : FileTree) (dirPath : Text) (d : ℕ) (hd : t.lstat dirPath = some d) :
    Straight t dirPath d [] dirPath := by
  refine ⟨rfl, fun n hn => ?_⟩
  rw [hd] at hn
  exact hn

theorem straight_child (t : FileTree) (dirPath : Text) (d : ℕ) (names : List Text)
    (path name : Text) (n m : ℕ) (h : Straight t dirPath d names path) (hn : t.lstat path = some n)
    (hk : t.kind n = .directory) (hm : (t.directory n).find name = some m)
    (hfits : (child path name).length < pathCap) :
    Straight t dirPath d (names++[name]) (child path name) := by
  have hname := (t.directory n).find_named name m hm
  constructor
  · rw [descendant_concat, h.spelled]
  · intro k hk'
    rw [lstat_child t path name n hn hk hname (hfits.trans (by decide)), hm] at hk'
    rw [descend_concat t d n names name (h.leads n hn) hk, hm, hk']

section Turns
variable (t : FileTree) (dirPath : Text) (d : ℕ) (names : List Text) (n : ℕ)

/-- A directory on the way to an object, and the name with which the way goes on. -/
structure Turn (chain : List Text) (path : Text) (k : ℕ) (next : Text) (rest : List Text)
    (m : ℕ) : Prop where
  names : names = chain++next::rest
  straight : Straight t dirPath d chain path
  here : t.descend d chain = some k
  dir : t.kind k = .directory
  found : (t.directory k).find next = some m
  rest : t.descend m rest = some n

theorem turn_exists (chain : List Text) (path : Text) (k : ℕ) (next : Text) (rest : List Text)
    (hn : t.descend d names = some n) (hnames : names = chain++next::rest)
    (hstraight : Straight t dirPath d chain path) (hk : t.descend d chain = some k) :
    ∃ m, Turn t dirPath d names n chain path k next rest m := by
  have hsplit := hn
  rw [hnames, descend_append, hk] at hsplit
  change t.descend k (next::rest) = some n at hsplit
  rw [descend] at hsplit
  split_ifs at hsplit with hdir
  obtain ⟨m, hm, hrest⟩ := Option.bind_eq_some_iff.mp hsplit
  exact ⟨m, hnames, hstraight, hk, hdir, hm, hrest⟩

variable {t dirPath d names n} {chain : List Text} {path : Text} {k : ℕ} {next : Text}
  {rest : List Text} {m : ℕ} (hturn : Turn t dirPath d names n chain path k next rest m)
include hturn

theorem turn_names : names = (chain++[next])++rest := by
  rw [hturn.names, List.append_assoc]
  rfl

theorem turn_descend : t.descend d (chain++[next]) = some m :=
  (descend_concat t d k chain next hturn.here hturn.dir).trans hturn.found

theorem turn_path : descendant dirPath (chain++[next]) = child path next := by
  rw [descendant_concat, hturn.straight.spelled]

theorem turn_named : FileName next :=
  (t.directory k).find_named next m hturn.found

theorem turn_above : chain <+: names ∧ chain ≠ names := by
  rw [hturn.names]
  exact ⟨List.prefix_append _ _, by simp⟩

omit hturn in
theorem turn_on (after : Text)
    (hturn : Turn t dirPath d names n chain path k next (after::rest) m) :
    t.kind m = .directory := by
  have hend := hturn.rest
  rw [descend] at hend
  split_ifs at hend with hkind
  exact hkind

end Turns

def startState (tree : FileTree) (dirPath : Text) : FolderState where
  tree := tree
  result := ⟨.ok, printed256 dirPath, 0, 0, 0, 0, 0, 0, printed256 []⟩
  seen := []
  events := []

theorem folderErase_cases (tree : FileTree) (dirPath : Text) (d : ℕ) (run : FolderRun)
    (hd : tree.lstat dirPath = some d)
    (h : folderErase fuel tree io dirPath opts = some run) :
    (run.events = [] ∧ run.result.resultCode ≠ .ok) ∨
      FolderEraser.isDangerousPath dirPath = false ∧ tree.kind d = .directory ∧
      ∃ s code, folderEraseRecursive fuel io opts (tree.device d) (opts.maxDepth+1) [] dirPath
        (startState tree dirPath) = some (s, code) ∧
        run = ⟨s.tree, { s.result with resultCode := code }, s.events⟩ := by
  unfold folderErase at h
  dsimp only at h
  split at h
  · cases h
    exact Or.inl ⟨rfl, by simp⟩
  rename_i hdanger
  rw [hd] at h
  split at h
  · cases h
    exact Or.inl ⟨rfl, by simp⟩
  rename_i n hn
  split_ifs at hn
  cases hn
  split at h
  · cases h
    exact Or.inl ⟨rfl, by simp⟩
  · rename_i hk
    obtain ⟨⟨s, code⟩, hv, rfl⟩ := Option.map_eq_some_iff.mp h
    exact Or.inr ⟨Bool.eq_false_of_not_eq_true hdanger, not_not.mp hk, s, code, hv, rfl⟩

theorem folderErase_enters (tree : FileTree) (dirPath : Text) (d : ℕ) (s : FolderState)
    (code : ErasecureError) (hsafe : ¬ FolderEraser.isDangerousPath dirPath = true)
    (hio : io.lstatTop = true) (hd : tree.lstat dirPath = some d) (hk : tree.kind d = .directory)
    (hv : folderEraseRecursive fuel io opts (tree.device d) (opts.maxDepth+1) [] dirPath
      (startState tree dirPath) = some (s, code)) :
    folderErase fuel tree io dirPath opts =
      some ⟨s.tree, { s.result with resultCode := code }, s.events⟩ := by
  rw [folderErase, if_neg hsafe, hio, hd]
  dsimp only
  rw [if_pos rfl]
  dsimp only
  rw [if_neg (not_not.mpr hk)]
  exact congrArg (Option.map _) hv

end Visits

end EraseCure.FolderVisits
