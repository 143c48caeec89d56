import EraseCure.FileSystems
import EraseCure.PathNames
import Mathlib.Data.List.DropRight
import Mathlib.Data.List.Nodup

/-!
# File trees

Directories name numbered objects. A path is walked from the root or the working
directory, through at most forty symbolic links; whether its last name is itself
a link is not looked at. Names are only ever taken away, and what a path names
afterwards it named before.
-/

set_option autoImplicit false

namespace EraseCure.FileTrees
open EraseCure.CText EraseCure.FileSystems EraseCure.PathNames

inductive Kind where
  | regular | directory | symlink | special
  deriving DecidableEq

def kindOf : Object → Kind
  | .regular _ => .regular
  | .directory _ => .directory
  | .symlink _ => .symlink
  | .blockDevice _ | .other => .special

theorem kindOf_put (o : Object) (c : Bytes) : kindOf (o.put c) = kindOf o := by
  cases o <;> rfl

/-- No two of the names are the same. -/
structure Directory where
  entries : List (Text × ℕ)
  distinct : (entries.map Prod.fst).Nodup
  named : ∀ e ∈ entries, FileName e.1

namespace Directory

def names (d : Directory) : List Text := d.entries.map Prod.fst

def find (d : Directory) (name : Text) : Option ℕ :=
  (d.entries.find? (fun e => e.1 = name)).map Prod.snd

theorem find_iff (d : Directory) (name : Text) (n : ℕ) :
    d.find name = some n ↔ (name, n) ∈ d.entries := by
  rw [find, Option.map_eq_some_iff]
  constructor
  · rintro ⟨e, he, rfl⟩
    have hname : e.1 = name := by simpa using List.find?_some he
    rw [← hname]
    exact List.mem_of_find?_eq_some he
  · intro h
    cases hf : d.entries.find? (fun e => e.1 = name) with
    | none => exact absurd (decide_eq_true rfl) (List.find?_eq_none.mp hf (name, n) h)
    | some e =>
      have hname : e.1 = name := by simpa using List.find?_some hf
      have he := List.mem_of_find?_eq_some hf
      have := List.inj_on_of_nodup_map d.distinct he h hname
      exact ⟨e, rfl, by rw [this]⟩

theorem find_named (d : Directory) (name : Text) (n : ℕ) (h : d.find name = some n) :
    FileName name := d.named _ ((d.find_iff name n).mp h)

theorem mem_names (d : Directory) (name : Text) : name ∈ d.names ↔ ∃ n, d.find name = some n := by
  simp only [names, List.mem_map, find_iff]
  constructor
  · rintro ⟨e, he, rfl⟩
    exact ⟨e.2, he⟩
  · rintro ⟨n, hn⟩
    exact ⟨_, hn, rfl⟩

theorem erase_distinct (d : Directory) (name : Text) :
    ((d.entries.filter (fun e => e.1 ≠ name)).map Prod.fst).Nodup :=
  d.distinct.sublist (List.filter_sublist.map _)

theorem erase_named (d : Directory) (name : Text) :
    ∀ e ∈ d.entries.filter (fun e => e.1 ≠ name), FileName e.1 :=
  fun e he => d.named e (List.mem_of_mem_filter he)

def erase (d : Directory) (name : Text) : Directory where
  entries := d.entries.filter (fun e => e.1 ≠ name)
  distinct := erase_distinct d name
  named := erase_named d name

theorem find_erase (d : Directory) (name name' : Text) (n : ℕ) :
    (d.erase name).find name' = some n ↔ d.find name' = some n ∧ name' ≠ name := by
  simp [find_iff, erase]

theorem none_named : ∀ e ∈ ([] : List (Text × ℕ)), FileName e.1 :=
  fun _ he => absurd he List.not_mem_nil

def ofEntries (entries : List (Text × ℕ)) : Directory :=
  if h : (entries.map Prod.fst).Nodup ∧ ∀ e ∈ entries, FileName e.1 then ⟨entries, h.1, h.2⟩
  else ⟨[], List.nodup_nil, none_named⟩

end Directory

/-- An object that is not a directory has no names in it that count. -/
structure FileTree where
  root : ℕ
  cwd : ℕ
  object : ℕ → Object
  directory : ℕ → Directory
  parent : ℕ → ℕ
  device : ℕ → ℕ
  target : ℕ → Text

namespace FileTree

def kind (t : FileTree) (n : ℕ) : Kind := kindOf (t.object n)

def lookup (t : FileTree) (n : ℕ) (name : Text) : Option ℕ :=
  if t.kind n ≠ .directory then none
  else if name = [] ∨ name = ['.'] then some n
  else if name = ['.', '.'] then some (t.parent n)
  else (t.directory n).find name

def start (t : FileTree) (path : Text) (dir : ℕ) : ℕ :=
  if path.head? = some '/' then t.root else dir

/-- Walks the names up to a link, and follows that. -/
def walkNames (t : FileTree) (follow : ℕ → List Text → Option (ℕ × ℕ)) (links : ℕ) :
    ℕ → List Text → Option (ℕ × ℕ)
  | n, [] => some (links, n)
  | n, name::rest =>
    match t.lookup n name with
    | none => none
    | some m =>
      if t.kind m = .symlink then
        follow (t.start (t.target m) n) (components (t.target m)++rest)
      else walkNames t follow links m rest

/-- Walks the names with the links that may still be followed. -/
def walk (t : FileTree) : ℕ → ℕ → List Text → Option (ℕ × ℕ)
  | 0 => t.walkNames (fun _ _ => none) 0
  | links+1 => t.walkNames (walk t links) (links+1)

def maxLinks : ℕ := 40

def pathMax : ℕ := 4096

/-- The directory and the last name of a path. -/
def locate (t : FileTree) (path : Text) : Option (ℕ × Text) :=
  if path = [] ∨ pathMax ≤ path.length then none
  else (t.walk maxLinks (t.start path t.cwd) (components path).dropLast).map
    (fun r => (r.2, (components path).getLastD []))

def lstat (t : FileTree) (path : Text) : Option ℕ :=
  (t.locate path).bind (fun r => t.lookup r.1 r.2)

def stat (t : FileTree) (path : Text) : Option ℕ :=
  if path = [] ∨ pathMax ≤ path.length then none
  else (t.walk maxLinks (t.start path t.cwd) (components path)).map Prod.snd

def files (t : FileTree) : FileSystem := ⟨t.stat, t.lstat, t.object⟩

def erase (t : FileTree) (n : ℕ) (name : Text) : FileTree :=
  { t with directory := Function.update t.directory n ((t.directory n).erase name) }

def unlink (t : FileTree) (path : Text) : FileTree :=
  match t.locate path with
  | none => t
  | some (n, name) => t.erase n name

/-- Trailing slashes do not count, and only an empty directory goes. -/
def rmdir (t : FileTree) (path : Text) : Option FileTree :=
  match t.locate (path.rdropWhile (fun c => c = '/')) with
  | none => none
  | some (n, name) =>
    match (t.directory n).find name with
    | none => none
    | some m =>
      if t.kind m = .directory ∧ (t.directory m).entries = [] then some (t.erase n name) else none

/-- The object at the end of some names below a directory. -/
def descend (t : FileTree) : ℕ → List Text → Option ℕ
  | n, [] => some n
  | n, name::rest =>
    if t.kind n = .directory then ((t.directory n).find name).bind (fun m => t.descend m rest)
    else none

def Within (t : FileTree) (d n : ℕ) : Prop := ∃ names, t.descend d names = some n

def Below (t : FileTree) (d n : ℕ) : Prop := ∃ names, names ≠ [] ∧ t.descend d names = some n

/-- No directory of the subtree has two names, or a name inside itself. -/
def TreeShaped (t : FileTree) (d : ℕ) : Prop :=
  ∀ names names' n, t.kind n = .directory → t.descend d names = some n →
    t.descend d names' = some n → names = names'

def OneDevice (t : FileTree) (d : ℕ) : Prop := ∀ n, t.Within d n → t.device n = t.device d

/-- Only names have been taken away since, and contents changed. -/
structure Shrunk (t t' : FileTree) : Prop where
  root : t'.root = t.root
  cwd : t'.cwd = t.cwd
  kind : ∀ n, t'.kind n = t.kind n
  parent : t'.parent = t.parent
  device : t'.device = t.device
  target : t'.target = t.target
  find : ∀ n name m, (t'.directory n).find name = some m → (t.directory n).find name = some m

theorem lookup_name (t : FileTree) (n : ℕ) (name : Text) (hd : t.kind n = .directory)
    (hn : FileName name) : t.lookup n name = (t.directory n).find name := by
  rw [lookup, if_neg (by rw [hd]; simp), if_neg (by rintro (h | h); exacts [hn.1 h, hn.2.2.1 h]),
    if_neg hn.2.2.2]

section Walks
variable (t : FileTree) (links n m : ℕ) (name : Text) (rest : List Text)

@[simp] theorem walk_nil : t.walk links n [] = some (links, n) := by
  cases links <;> rfl

theorem walk_missing (h : t.lookup n name = none) : t.walk links n (name::rest) = none := by
  cases links <;> rw [walk, walkNames, h]

theorem walk_name (h : t.lookup n name = some m) (hk : t.kind m ≠ .symlink) :
    t.walk links n (name::rest) = t.walk links m rest := by
  cases links with
  | zero =>
    rw [walk, walkNames, h]
    exact if_neg hk
  | succ links =>
    rw [walk, walkNames, h]
    exact if_neg hk

theorem walk_link (h : t.lookup n name = some m) (hk : t.kind m = .symlink) :
    t.walk (links+1) n (name::rest) =
      t.walk links (t.start (t.target m) n) (components (t.target m)++rest) := by
  rw [walk, walkNames, h]
  exact if_pos hk

theorem walk_out (h : t.lookup n name = some m) (hk : t.kind m = .symlink) :
    t.walk 0 n (name::rest) = none := by
  rw [walk, walkNames, h]
  exact if_pos hk

end Walks

/-- Over the links left, and over the names up to the next of them. -/
theorem walk_induction (t : FileTree) (motive : ℕ → ℕ → List Text → Prop)
    (nil : ∀ links n, motive links n [])
    (missing : ∀ links n name rest, t.lookup n name = none → motive links n (name::rest))
    (out : ∀ n name rest m, t.lookup n name = some m → t.kind m = .symlink →
      motive 0 n (name::rest))
    (link : ∀ links n name rest m, t.lookup n name = some m → t.kind m = .symlink →
      motive links (t.start (t.target m) n) (components (t.target m)++rest) →
      motive (links+1) n (name::rest))
    (step : ∀ links n name rest m, t.lookup n name = some m → t.kind m ≠ .symlink →
      motive links m rest → motive links n (name::rest))
    (links n : ℕ) (names : List Text) : motive links n names := by
  induction links generalizing n names with
  | zero =>
    induction names generalizing n with
    | nil => exact nil 0 n
    | cons name rest ih =>
      cases h : t.lookup n name with
      | none => exact missing 0 n name rest h
      | some m =>
        by_cases hk : t.kind m = .symlink
        · exact out n name rest m h hk
        · exact step 0 n name rest m h hk (ih m)
  | succ links ihl =>
    induction names generalizing n with
    | nil => exact nil _ n
    | cons name rest ih =>
      cases h : t.lookup n name with
      | none => exact missing _ n name rest h
      | some m =>
        by_cases hk : t.kind m = .symlink
        · exact link links n name rest m h hk (ihl _ _)
        · exact step _ n name rest m h hk (ih m)

theorem walk_append (t : FileTree) (links n : ℕ) (names rest : List Text) :
    t.walk links n (names++rest) =
      (t.walk links n names).bind (fun r => t.walk r.1 r.2 rest) := by
  induction links, n, names using walk_induction t with
  | nil links n => rw [walk_nil]; rfl
  | missing links n name names h =>
    rw [List.cons_append, walk_missing _ _ _ _ _ h, walk_missing _ _ _ _ _ h]
    rfl
  | out n name names m h hlink =>
    rw [List.cons_append, walk_out _ _ _ _ _ h hlink, walk_out _ _ _ _ _ h hlink]
    rfl
  | link links n name names m h hlink ih =>
    rw [List.cons_append, walk_link _ _ _ _ _ _ h hlink, walk_link _ _ _ _ _ _ h hlink, ← ih,
      List.append_assoc]
  | step links n name names m h hlink ih =>
    rw [List.cons_append, walk_name _ _ _ _ _ _ h hlink, walk_name _ _ _ _ _ _ h hlink, ih]

theorem shrunk_refl (t : FileTree) : Shrunk t t :=
  ⟨rfl, rfl, fun _ => rfl, rfl, rfl, rfl, fun _ _ _ h => h⟩

theorem shrunk_trans (t t' t'' : FileTree) (h : Shrunk t t') (h' : Shrunk t' t'') :
    Shrunk t t'' :=
  ⟨h'.root.trans h.root, h'.cwd.trans h.cwd, fun n => (h'.kind n).trans (h.kind n),
    h'.parent.trans h.parent, h'.device.trans h.device, h'.target.trans h.target,
    fun n name m hf => h.find n name m (h'.find n name m hf)⟩

theorem find_erase (t : FileTree) (n n' : ℕ) (name name' : Text) (m : ℕ) :
    ((t.erase n name).directory n').find name' = some m ↔
      (t.directory n').find name' = some m ∧ ¬ (n' = n ∧ name' = name) := by
  change (Function.update t.directory n ((t.directory n).erase name) n').find name' = some m ↔ _
  by_cases hn : n' = n
  · subst hn
    rw [Function.update_self, Directory.find_erase]
    simp
  · rw [Function.update_of_ne hn]
    simp [hn]

theorem shrunk_objects (t : FileTree) (object : ℕ → Object)
    (h : ∀ n, kindOf (object n) = t.kind n) :
    Shrunk t { t with object := object } :=
  ⟨rfl, rfl, h, rfl, rfl, rfl, fun _ _ _ hf => hf⟩

theorem shrunk_erase (t : FileTree) (n : ℕ) (name : Text) : Shrunk t (t.erase n name) :=
  ⟨rfl, rfl, fun _ => rfl, rfl, rfl, rfl,
    fun _ _ _ h => ((t.find_erase _ _ _ _ _).mp h).1⟩

section Shrunk
variable (t t' : FileTree) (h : Shrunk t t')
include h

theorem start_shrunk (path : Text) (n : ℕ) : t'.start path n = t.start path n := by
  rw [start, start, h.root]

theorem lookup_shrunk (n : ℕ) (name : Text) (m : ℕ) (hl : t'.lookup n name = some m) :
    t.lookup n name = some m := by
  unfold lookup at hl ⊢
  rw [h.kind n, h.parent] at hl
  split_ifs at hl ⊢
  · exact hl
  · exact hl
  · exact h.find n name m hl

theorem walk_shrunk (links n : ℕ) (names : List Text) (r : ℕ × ℕ)
    (hw : t'.walk links n names = some r) : t.walk links n names = some r := by
  induction links, n, names using walk_induction t' with
  | nil links n =>
    rw [walk_nil] at hw ⊢
    exact hw
  | missing links n name names hl =>
    rw [walk_missing _ _ _ _ _ hl] at hw
    contradiction
  | out n name names m hl hlink =>
    rw [walk_out _ _ _ _ _ hl hlink] at hw
    contradiction
  | link links n name names m hl hlink ih =>
    rw [walk_link _ _ _ _ _ _ hl hlink] at hw
    rw [walk_link _ _ _ _ _ _ (lookup_shrunk t t' h n name m hl) (h.kind m ▸ hlink),
      ← h.target, ← start_shrunk t t' h]
    exact ih hw
  | step links n name names m hl hlink ih =>
    rw [walk_name _ _ _ _ _ _ hl hlink] at hw
    rw [walk_name _ _ _ _ _ _ (lookup_shrunk t t' h n name m hl) (h.kind m ▸ hlink)]
    exact ih hw

theorem locate_shrunk (path : Text) (r : ℕ × Text) (hl : t'.locate path = some r) :
    t.locate path = some r := by
  unfold locate at hl ⊢
  split_ifs at hl ⊢
  obtain ⟨w, hw, rfl⟩ := Option.map_eq_some_iff.mp hl
  rw [start_shrunk t t' h, h.cwd] at hw
  rw [walk_shrunk t t' h _ _ _ _ hw]
  rfl

theorem lstat_shrunk (path : Text) (n : ℕ) (hl : t'.lstat path = some n) :
    t.lstat path = some n := by
  obtain ⟨r, hr, hn⟩ := Option.bind_eq_some_iff.mp hl
  rw [lstat, locate_shrunk t t' h path r hr]
  exact lookup_shrunk t t' h _ _ _ hn

end Shrunk

theorem lookup_erase (t : FileTree) (k : ℕ) (gone : Text) (n : ℕ) (name : Text) (m : ℕ)
    (h : t.lookup n name = some m) (hother : ¬ (n = k ∧ name = gone)) :
    (t.erase k gone).lookup n name = some m := by
  unfold lookup at h ⊢
  rw [show (t.erase k gone).kind n = t.kind n from rfl]
  split_ifs at h ⊢
  · exact h
  · exact h
  · exact (find_erase t k n gone name m).mpr ⟨h, hother⟩

section Erased
variable (t t' : FileTree) (h : Shrunk t t') (k : ℕ) (gone : Text)
include h

theorem lookup_erased (n : ℕ) (name : Text) (m : ℕ) (hl : t'.lookup n name = some m)
    (hwithout : ((t.erase k gone).lookup n name).isSome = true) :
    (t.erase k gone).lookup n name = some m ∧ (t'.erase k gone).lookup n name = some m := by
  obtain ⟨j, hj⟩ := Option.isSome_iff_exists.mp hwithout
  obtain rfl : j = m := Option.some.inj ((lookup_shrunk t _ (shrunk_erase t k gone) n name j
    hj).symm.trans (lookup_shrunk t t' h n name m hl))
  refine ⟨hj, ?_⟩
  unfold lookup at hl hj ⊢
  rw [show (t.erase k gone).kind n = t'.kind n from (h.kind n).symm] at hj
  rw [show (t'.erase k gone).kind n = t'.kind n from rfl]
  split_ifs at hl hj ⊢
  · exact hl
  · exact hl
  · exact (find_erase t' k n gone name j).mpr ⟨hl, ((find_erase t k n gone name j).mp hj).2⟩

/-- A walk that did not need a name before does not need it later. -/
theorem walk_erased (links n : ℕ) (names : List Text) (r : ℕ × ℕ)
    (hw : t'.walk links n names = some r)
    (hwithout : ((t.erase k gone).walk links n names).isSome = true) :
    (t'.erase k gone).walk links n names = some r := by
  have hfirst : ∀ links n name rest,
      ((t.erase k gone).walk links n (name::rest)).isSome = true →
        ((t.erase k gone).lookup n name).isSome = true := by
    intro links n name rest hsome
    by_contra hnone
    rw [walk_missing _ _ _ _ _ (by simpa using hnone)] at hsome
    contradiction
  induction links, n, names using walk_induction t' with
  | nil links n =>
    rw [walk_nil] at hw ⊢
    exact hw
  | missing links n name rest hl =>
    rw [walk_missing _ _ _ _ _ hl] at hw
    contradiction
  | out n name rest m hl hlink =>
    rw [walk_out _ _ _ _ _ hl hlink] at hw
    contradiction
  | link links n name rest m hl hlink ih =>
    obtain ⟨hm, hm'⟩ := lookup_erased t t' h k gone n name m hl (hfirst _ _ _ _ hwithout)
    rw [walk_link _ _ _ _ _ _ hl hlink] at hw
    rw [walk_link _ _ _ _ _ _ hm ((h.kind m).symm.trans hlink)] at hwithout
    rw [walk_link _ _ _ _ _ _ hm' hlink]
    apply ih hw
    rw [start_shrunk t t' h, h.target]
    exact hwithout
  | step links n name rest m hl hlink ih =>
    obtain ⟨hm, hm'⟩ := lookup_erased t t' h k gone n name m hl (hfirst _ _ _ _ hwithout)
    rw [walk_name _ _ _ _ _ _ hl hlink] at hw
    rw [walk_name _ _ _ _ _ _ hm ((h.kind m).symm.trans_ne hlink)] at hwithout
    rw [walk_name _ _ _ _ _ _ hm' hlink]
    exact ih hw hwithout

theorem lstat_erased (path : Text) (n : ℕ) (hn : t'.lstat path = some n)
    (hwithout : ((t.erase k gone).lstat path).isSome = true) :
    (t'.erase k gone).lstat path = some n := by
  obtain ⟨⟨j, last⟩, hr, hl⟩ := Option.bind_eq_some_iff.mp hn
  obtain ⟨m, hm⟩ := Option.isSome_iff_exists.mp hwithout
  obtain ⟨⟨j', last'⟩, hr', hl'⟩ := Option.bind_eq_some_iff.mp hm
  have hsame := (locate_shrunk t _ (shrunk_erase t k gone) path _ hr').symm.trans
    (locate_shrunk t t' h path _ hr)
  cases hsame
  have hlocate : (t'.erase k gone).locate path = some (j, last) := by
    unfold locate at hr hr' ⊢
    split_ifs at hr hr' ⊢
    obtain ⟨w, hw, heq⟩ := Option.map_eq_some_iff.mp hr
    obtain ⟨w', hw', _⟩ := Option.map_eq_some_iff.mp hr'
    have hwalk := walk_erased t t' h k gone maxLinks (t'.start path t'.cwd)
      (components path).dropLast w hw (by
        rw [start_shrunk t t' h, h.cwd]
        exact Option.isSome_of_mem hw')
    rw [show (t'.erase k gone).start path (t'.erase k gone).cwd = t'.start path t'.cwd from rfl,
      hwalk, ← heq]
    rfl
  rw [lstat, hlocate]
  exact (lookup_erased t t' h k gone j last n hl (Option.isSome_of_mem hl')).2

end Erased

theorem walk_file (t : FileTree) (links n : ℕ) (names : List Text) (r : ℕ × ℕ)
    (h : t.walk links n names = some r) (hreg : t.kind n = .regular) : r.2 = n := by
  cases names with
  | nil =>
    rw [walk_nil] at h
    exact (congrArg Prod.snd (Option.some.inj h)).symm
  | cons name rest =>
    have hnone : t.lookup n name = none := if_pos (by rw [hreg]; decide)
    rw [walk_missing _ _ _ _ _ hnone] at h
    contradiction

section Unlinked
variable (t : FileTree) (k m : ℕ) (gone : Text) (hgone : t.lookup k gone = some m)
  (hreg : t.kind m = .regular)
include hgone hreg

theorem walk_unlinked (links n : ℕ) (names : List Text) (r : ℕ × ℕ)
    (h : t.walk links n names = some r) (hr : t.kind r.2 ≠ .regular) :
    (t.erase k gone).walk links n names = some r := by
  induction links, n, names using walk_induction t with
  | nil links n =>
    rw [walk_nil] at h ⊢
    exact h
  | missing links n name rest hl =>
    rw [walk_missing _ _ _ _ _ hl] at h
    contradiction
  | out n name rest j hl hlink =>
    rw [walk_out _ _ _ _ _ hl hlink] at h
    contradiction
  | link links n name rest j hl hlink ih =>
    have hother : ¬ (n = k ∧ name = gone) := by
      rintro ⟨rfl, rfl⟩
      rw [hgone] at hl
      cases hl
      rw [hreg] at hlink
      contradiction
    rw [walk_link _ _ _ _ _ _ hl hlink] at h
    rw [walk_link _ _ _ _ _ _ (lookup_erase t k gone n name j hl hother) hlink]
    exact ih h
  | step links n name rest j hl hlink ih =>
    rw [walk_name _ _ _ _ _ _ hl hlink] at h
    by_cases hsame : n = k ∧ name = gone
    · obtain ⟨rfl, rfl⟩ := hsame
      rw [hgone] at hl
      cases hl
      rw [walk_file t links m rest r h hreg] at hr
      exact absurd hreg hr
    · rw [walk_name _ _ _ _ _ _ (lookup_erase t k gone n name j hl hsame) hlink]
      exact ih h

theorem lstat_unlinked (path : Text) (hother : t.locate path ≠ some (k, gone)) :
    (t.erase k gone).lstat path = t.lstat path := by
  cases hn : t.lstat path with
  | none =>
    by_contra hsome
    obtain ⟨n, hn'⟩ := Option.ne_none_iff_exists'.mp hsome
    rw [lstat_shrunk t _ (shrunk_erase t k gone) path n hn'] at hn
    contradiction
  | some n =>
    obtain ⟨⟨j, last⟩, hlocate, hl⟩ := Option.bind_eq_some_iff.mp hn
    have hdir : t.kind j = .directory := by
      by_contra hno
      rw [lookup, if_pos hno] at hl
      contradiction
    have hsame : ¬ (j = k ∧ last = gone) := by
      rintro ⟨rfl, rfl⟩
      exact hother hlocate
    have hlocate' : (t.erase k gone).locate path = some (j, last) := by
      unfold locate at hlocate ⊢
      split_ifs at hlocate ⊢
      obtain ⟨w, hw, heq⟩ := Option.map_eq_some_iff.mp hlocate
      obtain ⟨hj, hlast⟩ := Prod.mk.inj heq
      have hwalk := walk_unlinked t k m gone hgone hreg _ _ _ w hw
        (by rw [hj, hdir]; decide)
      rw [show (t.erase k gone).start path (t.erase k gone).cwd = t.start path t.cwd from rfl,
        hwalk, ← heq]
      rfl
    rw [lstat, hlocate']
    exact lookup_erase t k gone j last n hl hsame

end Unlinked

theorem unlink_shrunk (t : FileTree) (path : Text) : Shrunk t (t.unlink path) := by
  unfold unlink
  split
  · exact shrunk_refl t
  · exact shrunk_erase t _ _

theorem rmdir_shrunk (t t' : FileTree) (path : Text) (h : t.rmdir path = some t') :
    Shrunk t t' := by
  unfold rmdir at h
  split at h
  · contradiction
  split at h
  · contradiction
  split_ifs at h
  cases h
  exact shrunk_erase t _ _

theorem locate_child (t : FileTree) (dir name : Text) (n : ℕ) (hdir : t.lstat dir = some n)
    (hk : t.kind n = .directory) (hname : '/' ∉ name) (hlen : (child dir name).length < pathMax) :
    t.locate (child dir name) = some (n, name) := by
  obtain ⟨r, hr, hn⟩ := Option.bind_eq_some_iff.mp hdir
  unfold locate at hr
  split_ifs at hr with hlong
  obtain ⟨w, hw, rfl⟩ := Option.map_eq_some_iff.mp hr
  push Not at hlong
  have hwalk : t.walk maxLinks (t.start dir t.cwd) (components dir) = some (w.1, n) := by
    rw [← List.dropLast_concat_getLast (components_ne_nil dir), walk_append, hw]
    show t.walk w.1 w.2 [_] = _
    rw [List.getLastD_eq_getLast?, List.getLast?_eq_some_getLast (components_ne_nil dir)] at hn
    dsimp only [Option.getD_some] at hn
    rw [walk_name _ _ _ _ _ _ hn (by rw [hk]; simp), walk_nil]
  have hstart : t.start (child dir name) t.cwd = t.start dir t.cwd := by
    rw [start, start, child, List.head?_append_of_ne_nil _ hlong.1]
  rw [locate, if_neg (by rintro (hnil | hle); exacts [by simp [child] at hnil, by omega]), hstart,
    components_child dir name hname, List.dropLast_concat, hwalk]
  simp

theorem lstat_child (t : FileTree) (dir name : Text) (n : ℕ) (hdir : t.lstat dir = some n)
    (hk : t.kind n = .directory) (hname : FileName name)
    (hlen : (child dir name).length < pathMax) :
    t.lstat (child dir name) = (t.directory n).find name := by
  rw [lstat, locate_child t dir name n hdir hk hname.2.1 hlen]
  exact lookup_name t n name hk hname

/-- As long as a path below a directory names something, the path of the directory does. -/
theorem lstat_above (t t' : FileTree) (h : Shrunk t t') (dir name : Text) (n m : ℕ)
    (hdir : t.lstat dir = some n) (hname : '/' ∉ name) (hm : t'.lstat (child dir name) = some m) :
    t'.lstat dir = some n := by
  obtain ⟨⟨j, last⟩, hr, hn⟩ := Option.bind_eq_some_iff.mp hdir
  obtain ⟨r', hr', _⟩ := Option.bind_eq_some_iff.mp hm
  unfold locate at hr hr'
  split_ifs at hr hr' with hempty hlong
  push Not at hempty
  obtain ⟨w, hw, heq⟩ := Option.map_eq_some_iff.mp hr
  obtain ⟨w', hw', _⟩ := Option.map_eq_some_iff.mp hr'
  obtain ⟨rfl, rfl⟩ := Prod.mk.inj heq
  have hstart : t'.start (child dir name) t'.cwd = t.start dir t.cwd := by
    rw [start_shrunk t t' h, h.cwd, start, start, child, List.head?_append_of_ne_nil _ hempty.1]
  rw [hstart, components_child dir name hname, List.dropLast_concat,
    ← List.dropLast_concat_getLast (components_ne_nil dir), walk_append] at hw'
  obtain ⟨w₁, hw₁, hlast⟩ := Option.bind_eq_some_iff.mp hw'
  obtain rfl := Option.some.inj ((walk_shrunk t t' h _ _ _ _ hw₁).symm.trans hw)
  have hlookup : t'.lookup w₁.2 ((components dir).getLastD []) = some n := by
    rw [List.getLastD_eq_getLast?, List.getLast?_eq_some_getLast (components_ne_nil dir)] at hn ⊢
    dsimp only [Option.getD_some] at hn ⊢
    cases hl : t'.lookup w₁.2 ((components dir).getLast (components_ne_nil dir)) with
    | none =>
      rw [walk_missing _ _ _ _ _ hl] at hlast
      contradiction
    | some i => exact (lookup_shrunk t t' h _ _ _ hl).symm.trans hn
  have hlocate : t'.locate dir = some (w₁.2, (components dir).getLastD []) := by
    rw [locate, if_neg (by push Not; exact hempty), start_shrunk t t' h, h.cwd, hw₁]
    rfl
  rw [lstat, hlocate]
  exact hlookup

theorem descend_append (t : FileTree) (n : ℕ) (names rest : List Text) :
    t.descend n (names++rest) = (t.descend n names).bind (fun m => t.descend m rest) := by
  induction names generalizing n with
  | nil => rfl
  | cons name names ih =>
    rw [List.cons_append, descend, descend]
    split_ifs
    · rw [Option.bind_assoc]
      simp only [ih]
    · rfl

theorem descend_concat (t : FileTree) (n m : ℕ) (names : List Text) (name : Text)
    (h : t.descend n names = some m) (hk : t.kind m = .directory) :
    t.descend n (names++[name]) = (t.directory m).find name := by
  rw [descend_append, h]
  show t.descend m [name] = _
  rw [descend, if_pos hk]
  cases (t.directory m).find name <;> rfl

theorem descend_split (t : FileTree) (n m : ℕ) (names : List Text) (name : Text)
    (h : t.descend n (names++[name]) = some m) :
    ∃ k, t.descend n names = some k ∧ t.kind k = .directory ∧
      (t.directory k).find name = some m := by
  rw [descend_append] at h
  obtain ⟨k, hk, h⟩ := Option.bind_eq_some_iff.mp h
  rw [descend] at h
  split_ifs at h with hdir
  obtain ⟨m', hm', h⟩ := Option.bind_eq_some_iff.mp h
  cases h
  exact ⟨k, hk, hdir, hm'⟩

theorem descend_named (t : FileTree) (n m : ℕ) (names : List Text)
    (h : t.descend n names = some m) : ∀ name ∈ names, FileName name := by
  induction names generalizing n with
  | nil => exact fun _ hx => absurd hx List.not_mem_nil
  | cons name rest ih =>
    rw [descend] at h
    split_ifs at h
    obtain ⟨k, hk, h⟩ := Option.bind_eq_some_iff.mp h
    intro x hx
    rcases List.mem_cons.mp hx with rfl | hx
    · exact (t.directory n).find_named x k hk
    · exact ih k h x hx

theorem descend_shrunk (t t' : FileTree) (h : Shrunk t t') (n m : ℕ) (names : List Text)
    (hd : t'.descend n names = some m) : t.descend n names = some m := by
  induction names generalizing n with
  | nil => exact hd
  | cons name rest ih =>
    rw [descend, h.kind n] at hd
    rw [descend]
    split_ifs at hd ⊢
    obtain ⟨k, hk, hd⟩ := Option.bind_eq_some_iff.mp hd
    rw [h.find n name k hk]
    exact ih k hd

theorem descend_objects (t : FileTree) (object : ℕ → Object)
    (hk : ∀ m, kindOf (object m) = t.kind m) (n : ℕ) (names : List Text) :
    FileTree.descend { t with object := object } n names = t.descend n names := by
  induction names generalizing n with
  | nil => rfl
  | cons name rest ih =>
    rw [descend, descend]
    simp only [ih]
    rw [show FileTree.kind { t with object := object } n = t.kind n from hk n]

theorem descend_file (t : FileTree) (n m : ℕ) (names : List Text) (hk : t.kind n ≠ .directory)
    (h : t.descend n names = some m) : names = [] := by
  cases names with
  | nil => rfl
  | cons name rest =>
    rw [descend, if_neg hk] at h
    contradiction

theorem descend_erase (t : FileTree) (k : ℕ) (gone : Text) (n m : ℕ) (names : List Text)
    (h : t.descend n names = some m)
    (hoff : ∀ above name rest, names = above++name::rest → t.descend n above = some k →
      name ≠ gone) : (t.erase k gone).descend n names = some m := by
  induction names generalizing n with
  | nil => exact h
  | cons name rest ih =>
    rw [descend] at h
    split_ifs at h with hk
    obtain ⟨j, hj, h⟩ := Option.bind_eq_some_iff.mp h
    have hkeep : ((t.erase k gone).directory n).find name = some j := by
      rw [find_erase]
      refine ⟨hj, ?_⟩
      rintro ⟨rfl, rfl⟩
      exact hoff [] name rest rfl rfl rfl
    rw [descend, if_pos (show (t.erase k gone).kind n = .directory from hk), hkeep]
    apply ih j h
    intro above other more heq habove
    apply hoff (name::above) other more (by rw [heq]; rfl)
    rw [descend, if_pos hk, hj]
    exact habove

theorem lstat_descendant (t : FileTree) (dir : Text) (d m : ℕ) (names : List Text)
    (hd : t.lstat dir = some d) (hm : t.descend d names = some m)
    (hlen : names ≠ [] → (descendant dir names).length < pathMax) :
    t.lstat (descendant dir names) = some m := by
  induction names using List.reverseRecOn generalizing m with
  | nil =>
    cases hm
    exact hd
  | append_singleton names name ih =>
    obtain ⟨k, hk, hdir, hfind⟩ := descend_split t d m names name hm
    have hlong := hlen (by simp)
    have hshort := (descendant_length dir names [name]).trans_lt hlong
    rw [descendant_concat] at hlong ⊢
    rw [lstat_child t _ name k (ih k hk (fun _ => hshort)) hdir
      ((t.directory k).find_named name m hfind) hlong]
    exact hfind

theorem lstat_root (t t' : FileTree) (h : Shrunk t t') (dir : Text) (d n m : ℕ)
    (names : List Text) (hd : t.lstat dir = some d) (hn : t.descend d names = some n)
    (hlen : names ≠ [] → (descendant dir names).length < pathMax)
    (hm : t'.lstat (descendant dir names) = some m) : t'.lstat dir = some d := by
  induction names using List.reverseRecOn generalizing n m with
  | nil =>
    obtain rfl := Option.some.inj ((lstat_shrunk t t' h dir m hm).symm.trans hd)
    exact hm
  | append_singleton names name ih =>
    obtain ⟨k, hk, _, hfind⟩ := descend_split t d n names name hn
    have hshort := (descendant_length dir names [name]).trans_lt (hlen (by simp))
    have hhere := lstat_descendant t dir d k names hd hk (fun _ => hshort)
    rw [descendant_concat] at hm
    exact ih k k hk (fun _ => hshort) (lstat_above t t' h _ name k m hhere
      ((t.directory k).find_named name n hfind).2.1 hm)

theorem unlink_located (t : FileTree) (path : Text) (k : ℕ) (name : Text)
    (h : t.locate path = some (k, name)) : t.unlink path = t.erase k name := by
  rw [unlink, h]

theorem rdropWhile_child (dir name : Text) (h : FileName name) :
    (child dir name).rdropWhile (fun c => c = '/') = child dir name := by
  obtain ⟨rest, last, rfl⟩ := (List.eq_nil_or_concat' name).resolve_left h.1
  rw [child, ← List.cons_append, ← List.append_assoc]
  apply List.rdropWhile_concat_neg
  rw [decide_eq_true_eq]
  rintro rfl
  exact h.2.1 (List.mem_append_right _ (List.mem_singleton_self _))

theorem rmdir_located (t t' : FileTree) (dir name : Text) (k : ℕ) (hname : FileName name)
    (h : t.locate (child dir name) = some (k, name)) (hr : t.rmdir (child dir name) = some t') :
    t' = t.erase k name := by
  rw [rmdir, rdropWhile_child dir name hname, h] at hr
  dsimp only at hr
  split at hr
  · contradiction
  · split_ifs at hr
    cases hr
    rfl

/-- Of a tree the removal of an entry takes away what lies at it and below. -/
theorem descend_kept (t t' : FileTree) (d k : ℕ) (hshape : t.TreeShaped d) (h : Shrunk t t')
    (above : List Text) (name : Text) (habove : t.descend d above = some k)
    (hk : t.kind k = .directory) (names : List Text) (n : ℕ) (hn : t'.descend d names = some n)
    (hoff : ¬ above++[name] <+: names) : (t'.erase k name).descend d names = some n := by
  apply descend_erase t' k name d n names hn
  rintro pre other rest hnames hpre rfl
  apply hoff
  have hsame := hshape pre above k hk (descend_shrunk t t' h d k pre hpre) habove
  rw [hnames, hsame]
  exact ⟨rest, by rw [List.append_assoc]; rfl⟩

end FileTree

end EraseCure.FileTrees
