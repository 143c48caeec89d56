import EraseCure.FileEraser
import EraseCure.FileTrees

/-!
# Calls of the file eraser in a tree

A call rewrites the content of the file that its path names, and may remove the
name. A removed name is gone under every path that led to it, and every other path
names what it named before.
-/

set_option autoImplicit false

namespace EraseCure.FileCalls
open EraseCure.CText EraseCure.ErrorCodes EraseCure.FileSystems EraseCure.FileEraser
open EraseCure.PathNames EraseCure.FileTrees
open EraseCure.FileTrees.FileTree

theorem fileErase_kind (fuel : ℕ) (fs : FileSystem) (io : FileEraseIo) (path : Text)
    (opts : FileEraseOptions) (run : FileEraseRun) (h : fileErase fuel fs io path opts = some run)
    (n : ℕ) : kindOf (run.fs.object n) = kindOf (fs.object n) := by
  have hstore : ∀ node c, kindOf ((fs.store node c).object n) = kindOf (fs.object n) := by
    intro node c
    by_cases hn : n = node
    · rw [hn, store_same, kindOf_put]
    · rw [store_other fs node n c hn]
  rcases fileErase_cases fuel fs io path opts run h with
    ⟨_, hrefused⟩ | ⟨node, _, s, _, _, _, hended⟩
  · rw [hrefused.fs]
  · rw [hended.fs]
    split <;> exact hstore node s.content

def rewritten (t : FileTree) (run : FileEraseRun) : FileTree := { t with object := run.fs.object }

def afterCall (t : FileTree) (path : Text) (run : FileEraseRun) : FileTree :=
  if run.result.fileRemoved then (rewritten t run).unlink path else rewritten t run

section Calls
variable (fuel : ℕ) (t : FileTree) (io : FileEraseIo) (path : Text) (opts : FileEraseOptions)
  (run : FileEraseRun)

theorem call_object : (afterCall t path run).object = run.fs.object := by
  unfold afterCall unlink
  split
  · split <;> rfl
  · rfl

variable (h : fileErase fuel t.files io path opts = some run)
include h

theorem rewritten_shrunk : Shrunk t (rewritten t run) ∧ Shrunk (rewritten t run) t := by
  have hkind := fileErase_kind _ _ _ _ _ _ h
  exact ⟨shrunk_objects t run.fs.object hkind,
    ⟨rfl, rfl, fun n => (hkind n).symm, rfl, rfl, rfl, fun _ _ _ hf => hf⟩⟩

theorem rewritten_lstat (other : Text) : (rewritten t run).lstat other = t.lstat other := by
  obtain ⟨hthere, hback⟩ := rewritten_shrunk fuel t io path opts run h
  exact Option.ext fun n => ⟨lstat_shrunk _ _ hthere other n, lstat_shrunk _ _ hback other n⟩

theorem call_shrunk : Shrunk t (afterCall t path run) := by
  obtain ⟨hthere, _⟩ := rewritten_shrunk fuel t io path opts run h
  unfold afterCall
  split
  · exact shrunk_trans _ _ _ hthere (unlink_shrunk _ _)
  · exact hthere

theorem call_writes (n : ℕ) : run.fs.object n = t.object n ∨
    t.lstat path = some n ∧ ∃ content, t.object n = .regular content := by
  rcases fileErase_cases fuel t.files io path opts run h with
    ⟨_, hrefused⟩ | ⟨node, content, s, done, hstarted, _, hended⟩
  · rw [hrefused.fs]
    exact Or.inl rfl
  · by_cases hn : n = node
    · rw [hn]
      exact Or.inr ⟨hstarted.resolved, content, hstarted.regular⟩
    · have hstore := store_other t.files node n s.content hn
      rw [hended.fs]
      split
      · exact Or.inl hstore
      · exact Or.inl hstore

/-- What a call removes is the name of a regular file. -/
theorem call_located (hremoved : run.result.fileRemoved = true) : ∃ k name m,
    t.locate path = some (k, name) ∧ t.lookup k name = some m ∧ t.kind m = .regular ∧
      afterCall t path run = (rewritten t run).erase k name := by
  rcases fileErase_cases fuel t.files io path opts run h with
    ⟨_, hrefused⟩ | ⟨node, content, s, done, hstarted, _, _⟩
  · exact absurd (hrefused.kept.symm.trans hremoved) Bool.false_ne_true
  · obtain ⟨_, hback⟩ := rewritten_shrunk fuel t io path opts run h
    obtain ⟨⟨k, name⟩, hlocate, hl⟩ := Option.bind_eq_some_iff.mp hstarted.resolved
    refine ⟨k, name, node, hlocate, hl, ?_, ?_⟩
    · rw [FileTree.kind, show t.object node = .regular content from hstarted.regular]
      rfl
    · rw [afterCall, if_pos hremoved]
      exact unlink_located _ _ _ _ (locate_shrunk _ _ hback path _ hlocate)

theorem call_removed (hremoved : run.result.fileRemoved = true) :
    opts.removeFile = true ∧ io.removed = true := by
  rcases fileErase_cases fuel t.files io path opts run h with
    ⟨_, hrefused⟩ | ⟨_, _, _, _, _, _, hended⟩
  · exact absurd (hrefused.kept.symm.trans hremoved) Bool.false_ne_true
  · rw [hended.removed, Bool.and_eq_true, Bool.and_eq_true] at hremoved
    exact ⟨hremoved.1.2, hremoved.2⟩

theorem call_removes (hok : run.result.resultCode = .ok) (hasked : opts.removeFile = true)
    (hallowed : io.removed = true) : run.result.fileRemoved = true := by
  rcases fileErase_cases fuel t.files io path opts run h with
    ⟨_, hrefused⟩ | ⟨_, _, _, _, _, _, hended⟩
  · exact absurd hok hrefused.fails
  · rw [hended.removed, hended.ok_iff.mp hok, hasked, hallowed]
    rfl

/-- A path that does not lead to the removed name names what it named before. -/
theorem call_kept (other : Text)
    (hother : run.result.fileRemoved = true → t.locate other ≠ t.locate path) :
    (afterCall t path run).lstat other = t.lstat other := by
  by_cases hremoved : run.result.fileRemoved = true
  · obtain ⟨hthere, hback⟩ := rewritten_shrunk fuel t io path opts run h
    obtain ⟨k, name, m, hlocate, hl, hreg, hafter⟩ :=
      call_located fuel t io path opts run h hremoved
    rw [hafter, lstat_unlinked _ k m name (lookup_shrunk _ _ hback k name m hl)
      ((hthere.kind m).trans hreg), rewritten_lstat fuel t io path opts run h]
    intro hmeets
    exact hother hremoved ((locate_shrunk _ _ hthere other _ hmeets).trans hlocate.symm)
  · rw [afterCall, if_neg hremoved]
    exact rewritten_lstat fuel t io path opts run h other

/-- A removed name is gone under every path that led to it in an earlier tree. -/
theorem call_gone (t₀ : FileTree) (hbefore : Shrunk t₀ t)
    (hdots : ∀ n, t₀.kind (t₀.parent n) = .directory) (hremoved : run.result.fileRemoved = true)
    (other : Text) (hother : t₀.locate other = t₀.locate path) :
    (afterCall t path run).lstat other = none := by
  obtain ⟨k, name, m, hlocate, hl, hreg, hafter⟩ :=
    call_located fuel t io path opts run h hremoved
  have hshrunk := shrunk_trans _ _ _ hbefore (call_shrunk fuel t io path opts run h)
  cases hn : (afterCall t path run).lstat other with
  | none => rfl
  | some n =>
    exfalso
    obtain ⟨r, hr, hn⟩ := Option.bind_eq_some_iff.mp hn
    have hsame := locate_shrunk _ _ hshrunk other r hr
    rw [hother, locate_shrunk _ _ hbefore path _ hlocate] at hsame
    cases hsame
    -- neither the directory itself nor its parent is a regular file
    rw [hafter] at hn
    unfold lookup at hl hn
    split_ifs at hl hn with hdir hdir' hself hparent
    · cases hl
      rw [hreg] at hdir
      exact hdir Kind.noConfusion
    · cases hl
      rw [hbefore.parent, hbefore.kind, hdots] at hreg
      contradiction
    · exact ((find_erase _ _ _ _ _ _).mp hn).2 ⟨rfl, rfl⟩

end Calls

end EraseCure.FileCalls
