import EraseCure.CText
import EraseCure.ErrorCodes
import Mathlib.Data.List.Nodup

/-!
# Erasing metadata

The timestamps of a file are set to now, and its extended attributes are listed
into a buffer and removed one by one. The names stand in the buffer one after
the other, each with its terminator. What the removals return is not looked at,
and neither is the second listing.
-/

set_option autoImplicit false

namespace EraseCure.MetadataEraser
open EraseCure.CText EraseCure.ErrorCodes

structure MetadataEraseResult where
  timestampsCleared : Bool
  nameRemoved : Bool
  xattrsCleared : Bool
  limitationNote : CString 256

def limitationText : Text :=
  "Filesystem journal, inode table, block allocation bitmaps are NOT controlled by userspace".toList

structure Xattrs where
  names : List Text
  distinct : names.Nodup
  ended : ∀ name ∈ names, nul ∉ name

/-- Which calls succeed: the two listings, the allocation between them, and each
removal by its number. -/
structure MetadataIo where
  lstat : Bool
  utimensat : Bool
  sized : Bool
  allocated : Bool
  listed : Bool
  removed : ℕ → Bool

/-- The names in the buffer. -/
def packed (names : List Text) : Text := names.flatMap (fun name => name++[nul])

def llistxattr (succeeds : Bool) (names : List Text) : ℤ :=
  if succeeds then (packed names).length else -1

/-- The names that are still there, and those that were passed to `lremovexattr`. -/
structure Removals where
  left : List Text
  calls : List Text

def lremovexattr (succeeds : Bool) (key : Text) (r : Removals) : Removals where
  left := if succeeds then r.left.erase key else r.left
  calls := r.calls++[key]

/-- The loop over the buffer, on what is left of it. There is no result when
`strlen` runs past the end. -/
def removeKeys (removed : ℕ → Bool) : ℕ → ℕ → Text → Removals → Option Removals
  | 0, _, _, r => some r
  | fuel+1, k, buffer, r =>
    if buffer = [] then some r
    else if nul ∉ buffer then none
    else
      let key := cstr buffer
      removeKeys removed fuel (k+1) (buffer.drop (key.length+1)) (lremovexattr (removed k) key r)

structure MetadataRun where
  code : ErasecureError
  result : MetadataEraseResult
  removals : Removals

def metadataErase (io : MetadataIo) (attrs : Xattrs) : Option MetadataRun :=
  let result : MetadataEraseResult := ⟨false, false, false, printed256 limitationText⟩
  let untouched : Removals := ⟨attrs.names, []⟩
  if io.lstat = false then some ⟨.generic, result, untouched⟩
  else
    let result := { result with timestampsCleared := io.utimensat }
    if 0 < llistxattr io.sized attrs.names ∧ io.allocated = true then
      let listSize := llistxattr io.listed attrs.names
      let buffer := (packed attrs.names).take listSize.toNat
      (removeKeys io.removed buffer.length 0 buffer untouched).map
        (fun removals => ⟨.ok, { result with xattrsCleared := true }, removals⟩)
    else some ⟨.ok, result, untouched⟩

theorem packed_cons (name : Text) (rest : List Text) :
    packed (name::rest) = name++nul::packed rest := by
  rw [packed, List.flatMap_cons, List.append_assoc]
  rfl

theorem cstr_first (name rest : Text) (h : nul ∉ name) : cstr (name++nul::rest) = name := by
  rw [cstr, List.takeWhile_append_of_pos]
  · simp
  · intro c hc
    have hne : c ≠ nul := fun he => h (he ▸ hc)
    simpa using hne

/-- What the removals leave, from the call with number `k` on. -/
def leftAfter (removed : ℕ → Bool) : ℕ → List Text → List Text → List Text
  | _, [], left => left
  | k, name::rest, left =>
    leftAfter removed (k+1) rest (if removed k then left.erase name else left)

/-- The loop passes the names in their order, whatever the calls return. -/
theorem removeKeys_packed (removed : ℕ → Bool) (names : List Text)
    (hended : ∀ name ∈ names, nul ∉ name) (fuel k : ℕ) (hfuel : (packed names).length ≤ fuel)
    (r : Removals) : removeKeys removed fuel k (packed names) r =
      some ⟨leftAfter removed k names r.left, r.calls++names⟩ := by
  induction names generalizing fuel k r with
  | nil =>
    cases fuel <;> simp [removeKeys, packed, leftAfter]
  | cons name rest ih =>
    rw [packed_cons, List.length_append, List.length_cons] at hfuel
    obtain ⟨fuel, rfl⟩ : ∃ f, fuel = f+1 := ⟨fuel-1, by omega⟩
    have hne : name++nul::packed rest ≠ [] := by simp
    have hnul : ¬ nul ∉ name++nul::packed rest := by simp
    have hdrop : (name++nul::packed rest).drop (name.length+1) = packed rest := by
      rw [← List.drop_drop, List.drop_left]
      rfl
    rw [packed_cons, removeKeys, if_neg hne, if_neg hnul]
    dsimp only
    rw [cstr_first name _ (hended name List.mem_cons_self), hdrop,
      ih (fun n hn => hended n (List.mem_cons_of_mem _ hn)) fuel (k+1) (by omega)]
    simp [lremovexattr, leftAfter]

theorem mem_leftAfter (removed : ℕ → Bool) (k : ℕ) (names left : List Text) (hd : left.Nodup)
    (x : Text) : x ∈ leftAfter removed k names left ↔
      x ∈ left ∧ ∀ i, names[i]? = some x → removed (k+i) = false := by
  induction names generalizing k left with
  | nil => simp [leftAfter]
  | cons name rest ih =>
    have hleft : x ∈ (if removed k then left.erase name else left) ↔
        x ∈ left ∧ (name = x → removed k = false) := by
      split_ifs with hr
      · rw [hd.mem_erase_iff, hr]
        simp [and_comm, eq_comm]
      · simp [hr]
    have hd' : (if removed k then left.erase name else left).Nodup := by
      split_ifs
      · exact hd.erase name
      · exact hd
    rw [leftAfter, ih (k+1) _ hd', hleft, and_assoc]
    apply and_congr_right
    intro _
    constructor
    · rintro ⟨hfirst, hrest⟩ i hi
      cases i with
      | zero => exact hfirst (Option.some.inj hi)
      | succ i =>
        have := hrest i hi
        rwa [Nat.add_right_comm] at this
    · intro hall
      refine ⟨fun hx => hall 0 (congrArg some hx), fun i hi => ?_⟩
      rw [Nat.add_right_comm]
      exact hall (i+1) hi

theorem leftAfter_nil (removed : ℕ → Bool) (names : List Text) (hd : names.Nodup) :
    leftAfter removed 0 names names = [] ↔ ∀ i < names.length, removed i = true := by
  rw [List.eq_nil_iff_forall_not_mem]
  constructor
  · intro hnone i hi
    by_contra hr
    apply hnone names[i]
    rw [mem_leftAfter removed 0 names names hd]
    refine ⟨List.getElem_mem hi, fun j hj => ?_⟩
    obtain ⟨hj, heq⟩ := List.getElem?_eq_some_iff.mp hj
    rw [hd.getElem_inj_iff] at heq
    rw [Nat.zero_add, heq]
    exact Bool.eq_false_of_not_eq_true hr
  · intro hall x hx
    obtain ⟨hmem, hx⟩ := (mem_leftAfter removed 0 names names hd x).mp hx
    obtain ⟨i, hi, rfl⟩ := List.mem_iff_getElem.mp hmem
    have := hx i (List.getElem?_eq_getElem hi)
    rw [Nat.zero_add, hall i hi] at this
    contradiction

def listedNames (io : MetadataIo) (attrs : Xattrs) : List Text :=
  if io.lstat = true ∧ io.sized = true ∧ io.allocated = true ∧ io.listed = true then attrs.names
  else []

theorem packed_nil (names : List Text) : (packed names).length = 0 ↔ names = [] := by
  cases names with
  | nil => simp [packed]
  | cons name rest => rw [packed_cons]; simp

/-- Each listed name is passed on once, in its order, and the attributes are
reported as cleared only when none is left. -/
def Erased (io : MetadataIo) (attrs : Xattrs) : Prop :=
  ∃ run, metadataErase io attrs = some run ∧ run.removals.calls = listedNames io attrs ∧
    (run.result.xattrsCleared = true → run.removals.left = [])

theorem metadataErase_skipped (io : MetadataIo) (attrs : Xattrs)
    (h : io.lstat = false ∨ attrs.names = [] ∨ io.sized = false ∨ io.allocated = false) :
    ∃ run, metadataErase io attrs = some run ∧ run.removals = ⟨attrs.names, []⟩ ∧
      run.result.xattrsCleared = false := by
  unfold metadataErase
  split_ifs with hl hs
  · exact ⟨_, rfl, rfl, rfl⟩
  · exfalso
    obtain ⟨hsize, halloc⟩ := hs
    rw [llistxattr] at hsize
    rcases h with h | h | h | h
    · exact hl h
    · rw [h] at hsize
      split_ifs at hsize <;> simp [packed] at hsize
    · rw [h] at hsize
      simp at hsize
    · rw [h] at halloc
      contradiction
  · exact ⟨_, rfl, rfl, rfl⟩

theorem metadataErase_walked (io : MetadataIo) (attrs : Xattrs) (hl : io.lstat = true)
    (hne : attrs.names ≠ []) (hs : io.sized = true) (ha : io.allocated = true) :
    ∃ run, metadataErase io attrs = some run ∧ run.result.xattrsCleared = true ∧
      run.removals = if io.listed = true then
        ⟨leftAfter io.removed 0 attrs.names attrs.names, attrs.names⟩ else ⟨attrs.names, []⟩ := by
  have hlen : 0 < (packed attrs.names).length :=
    Nat.pos_of_ne_zero (fun h => hne ((packed_nil attrs.names).mp h))
  have hsize : 0 < llistxattr io.sized attrs.names ∧ io.allocated = true := by
    rw [llistxattr, if_pos hs]
    exact ⟨by omega, ha⟩
  have hpass : ¬ io.lstat = false := by
    rw [hl]
    simp
  rw [metadataErase, if_neg hpass]
  dsimp only
  rw [if_pos hsize, llistxattr]
  split_ifs with hlisted
  · rw [Int.toNat_natCast, List.take_length,
      removeKeys_packed io.removed attrs.names attrs.ended _ 0 (Nat.le_refl _)]
    exact ⟨_, rfl, rfl, rfl⟩
  · exact ⟨_, rfl, rfl, rfl⟩

def refusedIo : MetadataIo := ⟨true, true, true, true, true, fun _ => false⟩

def oneXattr : Xattrs := ⟨["user.a".toList], by decide, by decide⟩

end EraseCure.MetadataEraser
