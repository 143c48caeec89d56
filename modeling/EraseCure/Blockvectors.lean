import EraseCure.ArrayStacks
import EraseCure.CarveStates
import Mathlib.Logic.Function.Basic

/-!
# Blockvectors

A blockvector is a stack: appending puts a slot on it, and backtracking takes
slots off it again and leaves them in the array. The calls work on the vectors
that the variables of a program hold; a slot outside the array is never read or
written.
-/

set_option autoImplicit false

namespace EraseCure.Blockvectors
open EraseCure.CheckedReads EraseCure.CarveStates EraseCure.ArrayStacks

section Memory

def bvSlotSize : ℕ := 24

/-- No allocation has more than 2^63-1 bytes. -/
def callocGives (memory : Bool) (count : ℕ) : Bool :=
  memory && decide (count*bvSlotSize < 2^63)

/-- The slots that fit are kept, and those behind them are arbitrary. -/
def reallocSlots (memory : Option (ℕ → BvSlot)) (slots : List BvSlot) (bytes : ℕ) :
    Option (List BvSlot) :=
  memory.bind fun garbage =>
    if bytes < 2^63 then
      some ((List.range (bytes/bvSlotSize)).map fun i => slots.getD i (garbage i))
    else none

end Memory

section Calls

abbrev Vectors := ℕ → Option Blockvector

abbrev Outcome := Option CarveStateError

/-- The slots that can be read; there are none behind a null pointer. -/
def slotsOf (v : Blockvector) : List BvSlot := v.slots.getD []

def updateSlot (v : Blockvector) (i : ℕ) (f : BvSlot → BvSlot) : Checked Blockvector :=
  (readAt (slotsOf v) i).map fun _ => { v with slots := v.slots.map (·.modify i f) }

def load (vs : Vectors) (x : ℕ) : Checked Blockvector :=
  match vs x with
  | none => .error .fault
  | some v => .ok v

/-- A call with a null pointer is refused, and any other works on a vector. -/
def withVector (vs : Vectors) (bv : Option ℕ) (f : Blockvector → Checked (Outcome × Blockvector)) :
    Checked (Outcome × Vectors) :=
  match bv with
  | none => .ok (some .invalidArg, vs)
  | some x => do
    let v ← load vs x
    let (e, v') ← f v
    return (e, Function.update vs x (some v'))

def created (memory : Bool) (initialCapacity : ℕ) : Outcome × Blockvector :=
  blockvectorCreate
    (callocGives memory (if 0 < initialCapacity then initialCapacity else 16)) initialCapacity

def grown (memory : Option (ℕ → BvSlot)) (v : Blockvector) : Option Blockvector :=
  if v.length ≥ v.capacity then
    let doubled := v.capacity*2 % 2^64
    let newCapacity := if doubled = 0 then 16 else doubled
    (reallocSlots memory (slotsOf v) (newCapacity*bvSlotSize % 2^64)).map fun slots =>
      { v with slots := some slots, capacity := newCapacity }
  else some v

def blockvectorAppend (memory : Option (ℕ → BvSlot)) (vs : Vectors) (bv : Option ℕ)
    (apparentBlock actualBlock : UInt64) : Checked (Outcome × Vectors) :=
  withVector vs bv fun v =>
    match grown memory v with
    | none => return (some .noMem, v)
    | some v => do
      let v' ← updateSlot { v with length := (v.length+1) % 2^64 } v.length fun _ =>
        ⟨apparentBlock, actualBlock, false, false⟩
      return (none, v')

def blockvectorRemoveLast (vs : Vectors) (bv : Option ℕ) : Checked (Outcome × Vectors) :=
  withVector vs bv fun v =>
    if v.length = 0 then return (some .invalidArg, v)
    else return (none, { v with length := v.length-1 })

def blockvectorGet (vs : Vectors) (bv : Option ℕ) (index : ℕ) : Checked (Option BvSlot) :=
  match bv with
  | none => return none
  | some x => do
    let v ← load vs x
    if index ≥ v.length then return none
    else (readAt (slotsOf v) index).map some

def markSlot (vs : Vectors) (bv : Option ℕ) (index : ℕ) (f : BvSlot → BvSlot) :
    Checked (Outcome × Vectors) :=
  withVector vs bv fun v =>
    if index ≥ v.length then return (some .invalidArg, v)
    else do
      let v' ← updateSlot v index f
      return (none, v')

def setTried (slot : BvSlot) : BvSlot := { slot with tried := true }

def setValid (slot : BvSlot) : BvSlot := { slot with valid := true }

def blockvectorMarkTried (vs : Vectors) (bv : Option ℕ) (index : ℕ) :
    Checked (Outcome × Vectors) :=
  markSlot vs bv index setTried

def blockvectorMarkValid (vs : Vectors) (bv : Option ℕ) (index : ℕ) :
    Checked (Outcome × Vectors) :=
  markSlot vs bv index setValid

def blockvectorRestore (vs : Vectors) (bv : Option ℕ) (length : ℕ) :
    Checked (Outcome × Vectors) :=
  withVector vs bv fun v =>
    if length > v.length then return (some .invalidArg, v)
    else return (none, { v with length := length })

def copySlots (dst src : Blockvector) : Checked Blockvector := do
  let n := src.length*bvSlotSize % 2^64/bvSlotSize
  let copied ← readRange (slotsOf src) 0 n
  let _ ← readRange (slotsOf dst) 0 n
  return { dst with slots := dst.slots.map (copied++·.drop n) }

def takeOver (dst src : Blockvector) : Checked Blockvector :=
  let dst := { dst with length := src.length }
  if src.length > 0 then copySlots dst src else return dst

/-- The source is read again after the new vector has been made, which may lie over it. -/
def blockvectorClone (memory : Bool) (vs : Vectors) (src dst : Option ℕ) :
    Checked (Outcome × Vectors) :=
  match src, dst with
  | some x, some y => do
    let v ← load vs x
    let (e, w) := created memory v.capacity
    let vs := Function.update vs y (some w)
    if e ≠ none then return (e, vs)
    else do
      let v ← load vs x
      let w ← takeOver w v
      return (none, Function.update vs y (some w))
  | _, _ => return (some .invalidArg, vs)

def blockvectorLength (vs : Vectors) (bv : Option ℕ) : Checked ℕ :=
  match bv with
  | none => return 0
  | some x => (load vs x).map Blockvector.length

end Calls

section Vectors

/-- The array has the capacity, and its first slots are the stack. -/
structure Kept (v : Blockvector) (stack : List BvSlot) : Prop where
  array : v.slots = some (slotsOf v)
  capacity : (slotsOf v).length = v.capacity
  holds : Holds (slotsOf v) v.length stack
  room : 0 < v.capacity
  small : v.capacity*bvSlotSize < 2^63

theorem created_kept (memory : Bool) (initialCapacity : ℕ)
    (h : (created memory initialCapacity).1 = none) :
    Kept (created memory initialCapacity).2 [] := by
  rw [created, blockvectorCreate] at h ⊢
  cases hgives : callocGives memory (if 0 < initialCapacity then initialCapacity else 16) with
  | false =>
    rw [hgives] at h
    contradiction
  | true =>
    rw [callocGives, Bool.and_eq_true, decide_eq_true_eq] at hgives
    refine ⟨rfl, List.length_replicate, holds_none _, ?_, hgives.2⟩
    change 0 < (if 0 < initialCapacity then initialCapacity else 16)
    split_ifs <;> omega

theorem reallocSlots_kept (memory : Option (ℕ → BvSlot)) (slots slots' : List BvSlot)
    (bytes : ℕ) (h : reallocSlots memory slots bytes = some slots') :
    bytes < 2^63 ∧ slots'.length = bytes/bvSlotSize ∧
      ∀ i, i < slots.length → i < bytes/bvSlotSize → slots'[i]? = slots[i]? := by
  rw [reallocSlots, Option.bind_eq_some_iff] at h
  obtain ⟨garbage, _, h⟩ := h
  split_ifs at h with hsmall
  cases h
  refine ⟨hsmall, by rw [List.length_map, List.length_range], fun i hi hfit => ?_⟩
  rw [List.getElem?_map, List.getElem?_range hfit, Option.map_some,
    List.getD_eq_getElem?_getD, List.getElem?_eq_getElem hi, Option.getD_some]

theorem reallocSlots_fails (memory : Option (ℕ → BvSlot)) (slots : List BvSlot)
    (bytes : ℕ) (h : reallocSlots memory slots bytes = none) : memory = none ∨ 2^63 ≤ bytes := by
  cases memory with
  | none => exact Or.inl rfl
  | some garbage =>
    rw [reallocSlots, Option.bind_some] at h
    split_ifs at h with hsmall
    exact Or.inr (not_lt.mp hsmall)

variable (v : Blockvector) (stack : List BvSlot)

theorem kept_length (h : Kept v stack) : stack.length = v.length :=
  holds_length _ _ _ h.holds

theorem kept_fits (h : Kept v stack) : v.length ≤ v.capacity :=
  h.holds.fits.trans_eq h.capacity

theorem doubled_plain (h : Kept v stack) :
    v.capacity*2 % 2^64 = v.capacity*2 ∧
      v.capacity*2*bvSlotSize % 2^64 = v.capacity*2*bvSlotSize := by
  have hsmall := h.small
  rw [bvSlotSize] at hsmall ⊢
  omega

theorem grown_kept (memory : Option (ℕ → BvSlot)) (h : Kept v stack) (w : Blockvector)
    (hw : grown memory v = some w) :
    Kept w stack ∧ w.length = v.length ∧ w.length < w.capacity := by
  rw [grown] at hw
  by_cases hfull : v.length ≥ v.capacity
  · obtain ⟨hplain, hbytes⟩ := doubled_plain v stack h
    have hroom := h.room
    rw [if_pos hfull] at hw
    dsimp only at hw
    rw [hplain, if_neg (by omega), hbytes, Option.map_eq_some_iff] at hw
    obtain ⟨slots, hslots, rfl⟩ := hw
    obtain ⟨hsmall, hlength, hsame⟩ := reallocSlots_kept memory _ _ _ hslots
    have hcount : v.capacity*2*bvSlotSize/bvSlotSize = v.capacity*2 :=
      Nat.mul_div_cancel _ (by decide)
    rw [hcount] at hlength hsame
    have hcapacity := h.capacity
    have hfits := kept_fits v stack h
    refine ⟨⟨rfl, hlength, ?_, by dsimp only; omega, hsmall⟩, rfl, by dsimp only; omega⟩
    exact holds_move (slotsOf v) v.length stack h.holds slots
      fun i hi => hsame i (by omega) (by omega)
  · rw [if_neg hfull] at hw
    cases hw
    exact ⟨h, rfl, not_le.mp hfull⟩

/-- There is no room only without memory, or when the array would be too large. -/
theorem grown_fails (memory : Option (ℕ → BvSlot)) (h : Kept v stack)
    (hw : grown memory v = none) : memory = none ∨ 2^62 ≤ stack.length*bvSlotSize := by
  rw [grown] at hw
  by_cases hfull : v.length ≥ v.capacity
  · obtain ⟨hplain, hbytes⟩ := doubled_plain v stack h
    have hroom := h.room
    rw [if_pos hfull] at hw
    dsimp only at hw
    rw [hplain, if_neg (by omega), hbytes, Option.map_eq_none_iff] at hw
    refine (reallocSlots_fails memory _ _ hw).imp_right fun hlarge => ?_
    rw [kept_length v stack h]
    rw [bvSlotSize] at hlarge ⊢
    omega
  · rw [if_neg hfull] at hw
    contradiction

theorem kept_resize (h : Kept v stack) (n : ℕ) (stack' : List BvSlot)
    (hholds : Holds (slotsOf v) n stack') : Kept { v with length := n } stack' :=
  ⟨h.array, h.capacity, hholds, h.room, h.small⟩

theorem kept_update (h : Kept v stack) (i : ℕ) (f : BvSlot → BvSlot) (n : ℕ)
    (stack' : List BvSlot) (hi : i < v.capacity)
    (hholds : Holds ((slotsOf v).modify i f) n stack') :
    ∃ w, updateSlot { v with length := n } i f = .ok w ∧ Kept w stack' := by
  have hlt : i < (slotsOf v).length := hi.trans_eq h.capacity.symm
  have hread : readAt (slotsOf v) i = .ok (slotsOf v)[i] :=
    readAt_get _ _ _ (List.getElem?_eq_getElem hlt)
  refine ⟨⟨some ((slotsOf v).modify i f), n, v.capacity⟩, ?_, rfl, ?_, hholds, h.room, h.small⟩
  · change (readAt (slotsOf v) i).map _ = _
    rw [hread, h.array]
    rfl
  · exact (List.length_modify f (slotsOf v) i).trans h.capacity

theorem copySlots_kept (w : Blockvector) (h : Kept v stack) (hw : Kept w [])
    (hcapacity : w.capacity = v.capacity) :
    ∃ w', copySlots { w with length := v.length } v = .ok w' ∧ Kept w' stack := by
  have hfits := kept_fits v stack h
  have hsmall := h.small
  have hcells := h.capacity
  have hroom := hw.capacity
  have hcount : v.length*bvSlotSize % 2^64/bvSlotSize = v.length := by
    rw [bvSlotSize] at hsmall ⊢
    omega
  have hcells' : ((slotsOf v).take v.length++(slotsOf w).drop v.length).length = w.capacity := by
    rw [List.length_append, List.length_take, List.length_drop]
    omega
  refine ⟨⟨some ((slotsOf v).take v.length++(slotsOf w).drop v.length), v.length, w.capacity⟩, ?_,
    rfl, hcells', ?_, hw.room, hw.small⟩
  · change (readRange (slotsOf v) 0 _ >>= fun copied =>
      readRange (slotsOf w) 0 _ >>= fun _ => _) = _
    rw [hcount, readRange_within _ 0 _ (by omega), ok_bind, readRange_within _ 0 _ (by omega),
      ok_bind, hw.array]
    rfl
  · apply holds_move (slotsOf v) v.length stack h.holds
    intro i hi
    change ((slotsOf v).take v.length++(slotsOf w).drop v.length)[i]? = _
    rw [List.getElem?_append_left (by rw [List.length_take]; omega), List.getElem?_take_of_lt hi]

theorem takeOver_kept (w : Blockvector) (h : Kept v stack) (hw : Kept w [])
    (hcapacity : w.capacity = v.capacity) :
    ∃ w', takeOver w v = .ok w' ∧ Kept w' stack := by
  rw [takeOver]
  by_cases hpos : v.length > 0
  · rw [if_pos hpos]
    exact copySlots_kept v stack w h hw hcapacity
  · rw [if_neg hpos]
    have hzero : v.length = 0 := by omega
    have hempty : stack = [] := List.length_eq_zero_iff.mp ((kept_length v stack h).trans hzero)
    refine ⟨_, rfl, kept_resize w [] hw _ _ ?_⟩
    rw [hzero, hempty]
    exact holds_none _

end Vectors

section Stacks

/-- The calls that change one vector. -/
inductive VectorCall where
  | append (apparentBlock actualBlock : UInt64) (memory : Option (ℕ → BvSlot))
  | removeLast
  | restore (length : ℕ)
  | markTried (index : ℕ)
  | markValid (index : ℕ)

def VectorCall.run (vs : Vectors) (bv : Option ℕ) : VectorCall → Checked (Outcome × Vectors)
  | .append a b memory => blockvectorAppend memory vs bv a b
  | .removeLast => blockvectorRemoveLast vs bv
  | .restore n => blockvectorRestore vs bv n
  | .markTried i => blockvectorMarkTried vs bv i
  | .markValid i => blockvectorMarkValid vs bv i

def VectorCall.onStack (stack : List BvSlot) : VectorCall → List BvSlot
  | .append a b _ => stack++[⟨a, b, false, false⟩]
  | .removeLast => stack.dropLast
  | .restore n => stack.take n
  | .markTried i => stack.modify i setTried
  | .markValid i => stack.modify i setValid

def refusedIf (p : Prop) [Decidable p] : Outcome := if p then some .invalidArg else none

/-- What a call returns on a stack. Only appending may fail, for want of memory. -/
def VectorCall.Returns (stack : List BvSlot) (e : Outcome) : VectorCall → Prop
  | .append _ _ memory =>
    e = none ∨ e = some .noMem ∧ (memory = none ∨ 2^62 ≤ stack.length*bvSlotSize)
  | .removeLast => e = refusedIf (stack = [])
  | .restore n => e = refusedIf (stack.length < n)
  | .markTried i | .markValid i => e = refusedIf (stack.length ≤ i)

def VectorCall.after (c : VectorCall) (stack : List BvSlot) (e : Outcome) : List BvSlot :=
  if e = none then c.onStack stack else stack

/-- A result on the vector of a stack, which keeps it or changes it as the call says. -/
def Works (c : VectorCall) (stack : List BvSlot) (r : Checked (Outcome × Blockvector)) : Prop :=
  ∃ e w, r = .ok (e, w) ∧ c.Returns stack e ∧ Kept w (c.after stack e)

variable (v : Blockvector) (stack : List BvSlot) (h : Kept v stack)
include h

theorem works_refused (c : VectorCall) (e : CarveStateError) (hreturns : c.Returns stack (some e)) :
    Works c stack (.ok (some e, v)) :=
  ⟨some e, v, rfl, hreturns, h⟩

omit h in
theorem works_done (c : VectorCall) (w : Blockvector) (hreturns : c.Returns stack none)
    (hw : Kept w (c.onStack stack)) : Works c stack (.ok (none, w)) :=
  ⟨none, w, rfl, hreturns, hw⟩

theorem append_works (a b : UInt64) (memory : Option (ℕ → BvSlot)) :
    Works (.append a b memory) stack (
      match grown memory v with
      | none => pure (some .noMem, v)
      | some v => do
        let v' ← updateSlot { v with length := (v.length+1) % 2^64 } v.length fun _ =>
          ⟨a, b, false, false⟩
        return (none, v')) := by
  cases hgrown : grown memory v with
  | none =>
    exact works_refused v stack h _ .noMem (Or.inr ⟨rfl, grown_fails v stack memory h hgrown⟩)
  | some w =>
    obtain ⟨hkept, hlength, hroom⟩ := grown_kept v stack memory h w hgrown
    have hsmall := hkept.small
    have hplain : (w.length+1) % 2^64 = w.length+1 := by
      rw [bvSlotSize] at hsmall
      omega
    have hpush := holds_push (slotsOf w) w.length stack hkept.holds ⟨a, b, false, false⟩
      (hroom.trans_eq hkept.capacity.symm)
    obtain ⟨w', hupdate, hw'⟩ := kept_update w stack hkept w.length _ (w.length+1) _ hroom hpush
    dsimp only
    rw [hplain, hupdate, ok_bind]
    exact works_done stack _ w' (Or.inl rfl) hw'

theorem removeLast_works : Works .removeLast stack (
    if v.length = 0 then pure (some .invalidArg, v)
    else pure (none, { v with length := v.length-1 })) := by
  have hlength := kept_length v stack h
  by_cases hzero : v.length = 0
  · rw [if_pos hzero]
    have hempty : stack = [] := List.length_eq_zero_iff.mp (hlength.trans hzero)
    exact works_refused v stack h _ _ (if_pos hempty).symm
  · rw [if_neg hzero]
    have hne : ¬ stack = [] := fun hempty => hzero (by rw [← hlength, hempty]; rfl)
    exact works_done stack _ _ (if_neg hne).symm
      (kept_resize v stack h _ _ (holds_pop _ _ _ h.holds))

theorem restore_works (n : ℕ) : Works (.restore n) stack (
    if n > v.length then pure (some .invalidArg, v)
    else pure (none, { v with length := n })) := by
  have hlength := kept_length v stack h
  by_cases hlarge : n > v.length
  · rw [if_pos hlarge]
    exact works_refused v stack h _ _ (if_pos (by omega)).symm
  · rw [if_neg hlarge]
    exact works_done stack _ _ (if_neg (by omega)).symm
      (kept_resize v stack h _ _ (holds_truncate _ _ _ h.holds n (not_lt.mp hlarge)))

theorem mark_works (c : VectorCall) (i : ℕ) (f : BvSlot → BvSlot)
    (hreturns : ∀ e, c.Returns stack e ↔ e = refusedIf (stack.length ≤ i))
    (honStack : c.onStack stack = stack.modify i f) : Works c stack (
      if i ≥ v.length then pure (some .invalidArg, v)
      else do
        let v' ← updateSlot v i f
        return (none, v')) := by
  have hlength := kept_length v stack h
  have hfits := kept_fits v stack h
  by_cases hlarge : i ≥ v.length
  · rw [if_pos hlarge]
    exact works_refused v stack h _ _ ((hreturns _).mpr (if_pos (by omega)).symm)
  · rw [if_neg hlarge]
    obtain ⟨w, hupdate, hw⟩ := kept_update v stack h i f v.length _ (by omega)
      (holds_modify _ _ _ h.holds i f)
    change updateSlot v i f = .ok w at hupdate
    rw [hupdate, ok_bind]
    rw [← honStack] at hw
    exact works_done stack c w ((hreturns _).mpr (if_neg (by omega)).symm) hw

end Stacks

section Programs

abbrev Stacks := ℕ → Option (List BvSlot)

def Matches (vs : Vectors) (held : Stacks) : Prop :=
  ∀ x stack, held x = some stack → ∃ v, vs x = some v ∧ Kept v stack

inductive Call where
  | on (bv : Option ℕ) (c : VectorCall)
  | clone (memory : Bool) (src dst : Option ℕ)

def Call.run (vs : Vectors) : Call → Checked (Outcome × Vectors)
  | .on bv c => c.run vs bv
  | .clone memory src dst => blockvectorClone memory vs src dst

/-- A call is given null pointers or vectors that have been made; a clone that may fail
goes to a variable without one. -/
def Call.Allowed (held : Stacks) : Call → Prop
  | .on (some x) _ => held x ≠ none
  | .clone memory (some x) (some y) => held x ≠ none ∧ (memory = true ∨ held y = none)
  | _ => True

def Call.Returns (held : Stacks) (e : Outcome) : Call → Prop
  | .on (some x) c => ∀ stack, held x = some stack → c.Returns stack e
  | .clone memory (some _) (some _) => e = if memory then none else some .noMem
  | _ => e = some .invalidArg

/-- What a call does to the stacks: nothing when it fails. A stack cloned onto another is
copied, and one that is cloned onto itself is emptied. -/
def Call.onStacks (held : Stacks) : Call → Outcome → Stacks
  | .on (some x) c, none => Function.update held x ((held x).map c.onStack)
  | .clone _ (some x) (some y), none =>
    Function.update held y (if x = y then some [] else held x)
  | _, _ => held

variable (vs : Vectors) (held : Stacks) (h : Matches vs held)
include h

theorem matches_update (x : ℕ) (v : Blockvector) (stack : List BvSlot) (hv : Kept v stack) :
    Matches (Function.update vs x (some v)) (Function.update held x (some stack)) := by
  intro y stack' hy
  by_cases hxy : y = x
  · subst hxy
    rw [Function.update_self] at hy ⊢
    cases hy
    exact ⟨v, rfl, hv⟩
  · rw [Function.update_of_ne hxy] at hy ⊢
    exact h y stack' hy

theorem matches_outside (x : ℕ) (v : Option Blockvector) (hx : held x = none) :
    Matches (Function.update vs x v) held := by
  intro y stack hy
  have hxy : y ≠ x := by
    rintro rfl
    rw [hx] at hy
    contradiction
  rw [Function.update_of_ne hxy]
  exact h y stack hy

omit h in
theorem load_found (x : ℕ) (v : Blockvector) (hv : vs x = some v) : load vs x = .ok v := by
  rw [load, hv]

theorem withVector_matches (x : ℕ) (stack : List BvSlot) (hx : held x = some stack)
    (c : VectorCall) (f : Blockvector → Checked (Outcome × Blockvector))
    (hf : ∀ v, Kept v stack → Works c stack (f v)) :
    ∃ e vs', withVector vs (some x) f = .ok (e, vs') ∧ c.Returns stack e ∧
      Matches vs' (Call.onStacks held (.on (some x) c) e) := by
  obtain ⟨v, hv, hkept⟩ := h x stack hx
  obtain ⟨e, w, hok, hreturns, hw⟩ := hf v hkept
  refine ⟨e, Function.update vs x (some w), ?_, hreturns, ?_⟩
  · rw [withVector]
    dsimp only
    rw [load_found vs x v hv, ok_bind, hok, ok_bind]
    rfl
  · have hmatches := matches_update vs held h x w _ hw
    cases e with
    | none =>
      change Matches _ (Function.update held x ((held x).map c.onStack))
      rw [hx]
      exact hmatches
    | some e =>
      change Matches _ held
      rwa [VectorCall.after, if_neg (Option.some_ne_none e), ← hx,
        Function.update_eq_self] at hmatches

theorem vectorCall_matches (x : ℕ) (stack : List BvSlot) (hx : held x = some stack)
    (c : VectorCall) :
    ∃ e vs', c.run vs (some x) = .ok (e, vs') ∧ c.Returns stack e ∧
      Matches vs' (Call.onStacks held (.on (some x) c) e) := by
  cases c with
  | append a b memory =>
    exact withVector_matches vs held h x stack hx _ _ fun v hv =>
      append_works v stack hv a b memory
  | removeLast =>
    exact withVector_matches vs held h x stack hx _ _ fun v hv => removeLast_works v stack hv
  | restore n =>
    exact withVector_matches vs held h x stack hx _ _ fun v hv => restore_works v stack hv n
  | markTried i =>
    exact withVector_matches vs held h x stack hx _ _ fun v hv =>
      mark_works v stack hv (.markTried i) i setTried (fun _ => Iff.rfl) rfl
  | markValid i =>
    exact withVector_matches vs held h x stack hx _ _ fun v hv =>
      mark_works v stack hv (.markValid i) i setValid (fun _ => Iff.rfl) rfl

omit h in
theorem vectorCall_null (c : VectorCall) : c.run vs none = .ok (some .invalidArg, vs) := by
  cases c <;> rfl

theorem clone_fails (x y : ℕ) (v : Blockvector) (hv : vs x = some v) (hy : held y = none) :
    ∃ vs', blockvectorClone false vs (some x) (some y) = .ok (some .noMem, vs') ∧
      Matches vs' held := by
  refine ⟨Function.update vs y (some (created false v.capacity).2), ?_,
    matches_outside vs held h y _ hy⟩
  rw [blockvectorClone]
  dsimp only
  rw [load_found vs x v hv]
  rfl

theorem clone_copies (x y : ℕ) (stack : List BvSlot) (v : Blockvector) (hv : vs x = some v)
    (hkept : Kept v stack) :
    ∃ vs', blockvectorClone true vs (some x) (some y) = .ok (none, vs') ∧
      Matches vs' (Function.update held y (some (if x = y then [] else stack))) := by
  have hgives : callocGives true (if 0 < v.capacity then v.capacity else 16) = true := by
    rw [if_pos hkept.room, callocGives, Bool.true_and, decide_eq_true_eq]
    exact hkept.small
  have hnone : (created true v.capacity).1 = none := by
    rw [created, blockvectorCreate, hgives]
    rfl
  have hnew := created_kept true v.capacity hnone
  have hcapacity : (created true v.capacity).2.capacity = v.capacity := by
    rw [created, blockvectorCreate, hgives]
    exact if_pos hkept.room
  rw [blockvectorClone]
  dsimp only
  rw [load_found vs x v hv, ok_bind]
  rcases hmade : created true v.capacity with ⟨e, w⟩
  rw [hmade] at hnone hnew hcapacity
  obtain rfl : e = none := hnone
  dsimp only
  rw [if_neg (not_not.mpr rfl)]
  by_cases hxy : x = y
  · subst hxy
    obtain ⟨w', hcopied, hw'⟩ := takeOver_kept w [] w hnew hnew rfl
    rw [load_found _ x w (Function.update_self ..), ok_bind, if_pos rfl, hcopied, ok_bind,
      Function.update_idem]
    exact ⟨_, rfl, matches_update vs held h x w' [] hw'⟩
  · obtain ⟨w', hcopied, hw'⟩ := takeOver_kept v stack w hkept hnew hcapacity
    rw [load_found _ x v ((Function.update_of_ne hxy ..).trans hv), ok_bind, if_neg hxy, hcopied,
      ok_bind, Function.update_idem]
    exact ⟨_, rfl, matches_update vs held h y w' stack hw'⟩

/-- An allowed call has a result, and the vectors stay the stacks that it says. -/
theorem call_matches (c : Call) (hc : c.Allowed held) :
    ∃ e vs', c.run vs = .ok (e, vs') ∧ c.Returns held e ∧ Matches vs' (c.onStacks held e) := by
  cases c with
  | on bv c =>
    cases bv with
    | none => exact ⟨_, vs, vectorCall_null vs c, rfl, h⟩
    | some x =>
      obtain ⟨stack, hx⟩ := Option.ne_none_iff_exists'.mp hc
      obtain ⟨e, vs', hrun, hreturns, hmatches⟩ := vectorCall_matches vs held h x stack hx c
      refine ⟨e, vs', hrun, fun stack' hx' => ?_, hmatches⟩
      obtain rfl := Option.some.inj (hx'.symm.trans hx)
      exact hreturns
  | clone memory src dst =>
    rcases src with _ | x
    · exact ⟨_, vs, rfl, rfl, h⟩
    rcases dst with _ | y
    · exact ⟨_, vs, rfl, rfl, h⟩
    obtain ⟨hlive, hmemory⟩ := hc
    obtain ⟨stack, hx⟩ := Option.ne_none_iff_exists'.mp hlive
    obtain ⟨v, hv, hkept⟩ := h x stack hx
    cases memory with
    | false =>
      have hy : held y = none := hmemory.resolve_left Bool.false_ne_true
      obtain ⟨vs', hrun, hmatches⟩ := clone_fails vs held h x y v hv hy
      exact ⟨_, vs', hrun, rfl, hmatches⟩
    | true =>
      obtain ⟨vs', hrun, hmatches⟩ := clone_copies vs held h x y stack v hv hkept
      refine ⟨none, vs', hrun, rfl, ?_⟩
      rw [Call.onStacks, hx, ← apply_ite some]
      exact hmatches

end Programs

section Runs

/-- What a program can see of a vector: its length and the slot at every index. -/
def Shows (vs : Vectors) (x : ℕ) (stack : List BvSlot) : Prop :=
  (∃ v, vs x = some v ∧ v.length ≤ v.capacity) ∧
    blockvectorLength vs (some x) = .ok stack.length ∧
    ∀ i, blockvectorGet vs (some x) i = .ok stack[i]?

theorem kept_shows (vs : Vectors) (x : ℕ) (v : Blockvector) (stack : List BvSlot)
    (hv : vs x = some v) (h : Kept v stack) : Shows vs x stack := by
  have hlength := kept_length v stack h
  refine ⟨⟨v, hv, kept_fits v stack h⟩, ?_, fun i => ?_⟩
  · rw [blockvectorLength, load_found vs x v hv, hlength]
    rfl
  · rw [blockvectorGet, load_found vs x v hv, ok_bind]
    by_cases hi : i ≥ v.length
    · rw [if_pos hi, List.getElem?_eq_none (by omega)]
      rfl
    · have hlt : i < (slotsOf v).length := by
        have := h.holds.fits
        omega
      rw [if_neg hi, readAt_get _ i _ (List.getElem?_eq_getElem hlt),
        ← holds_get _ _ _ h.holds i (not_le.mp hi), List.getElem?_eq_getElem hlt]
      rfl

theorem matches_shows (vs : Vectors) (held : Stacks) (h : Matches vs held) (x : ℕ)
    (stack : List BvSlot) (hx : held x = some stack) : Shows vs x stack := by
  obtain ⟨v, hv, hkept⟩ := h x stack hx
  exact kept_shows vs x v stack hv hkept

/-- The runs of calls from some vectors on, with the stacks beside them. -/
inductive Ran (vs : Vectors) (held : Stacks) : Vectors → Stacks → Prop where
  | start : Ran vs held vs held
  | call (ws ws' : Vectors) (held' : Stacks) (c : Call) (e : Outcome) : Ran vs held ws held' →
      c.Allowed held' → c.run ws = .ok (e, ws') → Ran vs held ws' (c.onStacks held' e)

theorem ran_matches (vs ws : Vectors) (held held' : Stacks) (h : Matches vs held)
    (hran : Ran vs held ws held') : Matches ws held' := by
  induction hran with
  | start => exact h
  | call ws ws' held' c e _ hallowed hrun ih =>
    obtain ⟨e', ws'', hrun', _, hmatches⟩ := call_matches ws held' ih c hallowed
    rw [hrun] at hrun'
    cases hrun'
    exact hmatches

def appendAll (x : ℕ) :
    List (UInt64 × UInt64 × Option (ℕ → BvSlot)) → Vectors → Checked Vectors
  | [], vs => .ok vs
  | (a, b, memory)::blocks, vs => do
    let r ← blockvectorAppend memory vs (some x) a b
    appendAll x blocks r.2

theorem appendAll_extends (x : ℕ) (blocks : List (UInt64 × UInt64 × Option (ℕ → BvSlot)))
    (vs : Vectors) (held : Stacks) (h : Matches vs held) (stack : List BvSlot)
    (hx : held x = some stack) :
    ∃ vs' held' more, appendAll x blocks vs = .ok vs' ∧ Matches vs' held' ∧
      held' x = some (stack++more) := by
  induction blocks generalizing vs held stack with
  | nil => exact ⟨vs, held, [], rfl, h, by rw [hx, List.append_nil]⟩
  | cons block blocks ih =>
    obtain ⟨a, b, memory⟩ := block
    obtain ⟨e, vs', hrun, _, hmatches⟩ :=
      vectorCall_matches vs held h x stack hx (.append a b memory)
    have hnext : ∃ more, Call.onStacks held (.on (some x) (.append a b memory)) e x =
        some (stack++more) := by
      cases e with
      | none =>
        refine ⟨[⟨a, b, false, false⟩], ?_⟩
        rw [Call.onStacks, Function.update_self, hx]
        rfl
      | some e => exact ⟨[], by rw [List.append_nil]; exact hx⟩
    obtain ⟨more, hmore⟩ := hnext
    obtain ⟨vs'', held'', rest, hall, hmatches', hx'⟩ := ih vs' _ hmatches _ hmore
    refine ⟨vs'', held'', more++rest, ?_, hmatches', by rw [hx', List.append_assoc]⟩
    rw [appendAll, show blockvectorAppend memory vs (some x) a b = .ok (e, vs') from hrun, ok_bind]
    exact hall

/-- Restoring the length that a vector had before blocks were appended. -/
theorem backtrack_shows (x : ℕ) (blocks : List (UInt64 × UInt64 × Option (ℕ → BvSlot)))
    (vs : Vectors) (held : Stacks) (h : Matches vs held) (stack : List BvSlot)
    (hx : held x = some stack) :
    ∃ vs' vs'', appendAll x blocks vs = .ok vs' ∧
      blockvectorRestore vs' (some x) stack.length = .ok (none, vs'') ∧ Shows vs'' x stack := by
  obtain ⟨vs', held', more, hall, hmatches, hx'⟩ :=
    appendAll_extends x blocks vs held h stack hx
  obtain ⟨e, vs'', hrun, hreturns, hmatches'⟩ :=
    vectorCall_matches vs' held' hmatches x _ hx' (.restore stack.length)
  have hfits : ¬ (stack++more).length < stack.length := by
    rw [List.length_append]
    omega
  obtain rfl : e = none := hreturns.trans (if_neg hfits)
  refine ⟨vs', vs'', hall, hrun, matches_shows vs'' _ hmatches' x stack ?_⟩
  rw [Call.onStacks, Function.update_self, hx', Option.map_some]
  exact congrArg some List.take_left

/-- The slot that an append takes has no mark of an earlier slot at its place. -/
theorem append_unmarked (vs vs' : Vectors) (held : Stacks) (h : Matches vs held) (x : ℕ)
    (stack : List BvSlot) (hx : held x = some stack) (a b : UInt64)
    (memory : Option (ℕ → BvSlot))
    (happend : blockvectorAppend memory vs (some x) a b = .ok (none, vs')) :
    Shows vs' x (stack++[⟨a, b, false, false⟩]) := by
  obtain ⟨e, ws, hrun, _, hmatches⟩ := vectorCall_matches vs held h x stack hx (.append a b memory)
  change blockvectorAppend memory vs (some x) a b = _ at hrun
  rw [happend] at hrun
  cases hrun
  apply matches_shows vs' _ hmatches x
  rw [Call.onStacks, Function.update_self, hx]
  rfl

def madeVectors (x : ℕ) (v : Blockvector) : Vectors := Function.update (fun _ => none) x (some v)

def madeStacks (x : ℕ) : Stacks := Function.update (fun _ => none) x (some [])

theorem made_matches (x : ℕ) (v : Blockvector) (h : Kept v []) :
    Matches (madeVectors x v) (madeStacks x) :=
  matches_update _ _ (fun _ _ hy => absurd hy (Option.some_ne_none _).symm) x v [] h

/-- The calls on a blockvector are those on a stack, in every run after it was made and
however the allocations of appends turn out. A call that fails changes nothing that can
be seen, backtracking gives back the earlier slots, and a slot that is used again has
none of its old marks. -/
theorem blockvector_stack (memory : Bool) (initialCapacity x : ℕ)
    (hcreated : (created memory initialCapacity).1 = none) (vs : Vectors) (held : Stacks)
    (hran : Ran (madeVectors x (created memory initialCapacity).2) (madeStacks x) vs held) :
    (∀ y stack, held y = some stack → Shows vs y stack) ∧
    (∀ c : Call, c.Allowed held → ∃ e vs', c.run vs = .ok (e, vs') ∧ c.Returns held e ∧
      (e ≠ none → ∀ y stack, held y = some stack → Shows vs' y stack)) ∧
    (∀ y stack blocks, held y = some stack → ∃ vs' vs'', appendAll y blocks vs = .ok vs' ∧
      blockvectorRestore vs' (some y) stack.length = .ok (none, vs'') ∧ Shows vs'' y stack) ∧
    ∀ y stack n, held y = some stack → n ≤ stack.length →
      ∃ vs', blockvectorRestore vs (some y) n = .ok (none, vs') ∧
        ∀ a b memory vs'', blockvectorAppend memory vs' (some y) a b = .ok (none, vs'') →
          Shows vs'' y (stack.take n++[⟨a, b, false, false⟩]) := by
  have h := ran_matches _ vs _ held
    (made_matches x _ (created_kept memory initialCapacity hcreated)) hran
  refine ⟨matches_shows vs held h, fun c hc => ?_, fun y stack blocks hy =>
    backtrack_shows y blocks vs held h stack hy, fun y stack n hy hn => ?_⟩
  · obtain ⟨e, vs', hrun, hreturns, hmatches⟩ := call_matches vs held h c hc
    refine ⟨e, vs', hrun, hreturns, fun hfails => ?_⟩
    obtain ⟨error, rfl⟩ := Option.ne_none_iff_exists'.mp hfails
    have hsame : c.onStacks held (some error) = held := by
      rcases c with ⟨_ | _, _⟩ | ⟨_, _ | _, _ | _⟩ <;> rfl
    rw [hsame] at hmatches
    exact matches_shows vs' held hmatches
  · obtain ⟨e, vs', hrun, hreturns, hmatches⟩ :=
      vectorCall_matches vs held h y stack hy (.restore n)
    obtain rfl : e = none := hreturns.trans (if_neg (not_lt.mpr hn))
    refine ⟨vs', hrun, fun a b memory vs'' happend => ?_⟩
    apply append_unmarked vs' vs'' _ hmatches y (stack.take n) _ a b memory happend
    rw [Call.onStacks, Function.update_self, hy]
    rfl

theorem full_vector_shown : ∃ vs, Shows vs 0 [⟨7, 9, false, true⟩] :=
  ⟨_, (blockvector_stack true 1 0 rfl _ _
    (.call _ _ _ (.on (some 0) (.markTried 0)) none
      (.call _ _ _ (.on (some 0) (.append 8 8 none)) (some .noMem)
        (.call _ _ _ (.on (some 0) (.append 7 9 none)) none .start
          (Option.some_ne_none _) rfl)
        (Option.some_ne_none _) rfl)
      (Option.some_ne_none _) rfl)).1 0 _ rfl⟩

end Runs

end EraseCure.Blockvectors
