import EraseCure.FileTypeRegistry

/-!
# All or nothing at a registration

A registration copies the signatures of its descriptor one by one. The registry
is left as it was when it cannot grow. An allocation that fails after that leaves
a null pointer in the copy, and the registration is reported as a success.
-/

set_option autoImplicit false

namespace EraseCure.Registrations
open EraseCure.CText EraseCure.FileSystems EraseCure.Discovery EraseCure.FileTypeRegistry

section Allocating

/-- The allocations that must succeed, in their order, do. A `false` stands for
one whose result does not matter. -/
def Granted : List Bool → Allocations → Prop
  | [], _ => True
  | must::needs, a => (must = true → (allocate a).1 = true) ∧ Granted needs (allocate a).2

instance decidableGranted : ∀ needs a, Decidable (Granted needs a)
  | [], _ => .isTrue trivial
  | must::needs, a =>
    have := decidableGranted needs (allocate a).2
    inferInstanceAs (Decidable ((must = true → (allocate a).1 = true) ∧ _))

theorem allocate_drop (a : Allocations) : (allocate a).2 = a.drop 1 := by
  cases a <;> rfl

theorem granted_append (xs ys : List Bool) (a : Allocations) :
    Granted (xs++ys) a ↔ Granted xs a ∧ Granted ys (a.drop xs.length) := by
  induction xs generalizing a with
  | nil => simp [Granted]
  | cons must xs ih =>
    rw [List.cons_append, Granted, Granted, ih, allocate_drop, List.drop_drop,
      List.length_cons, Nat.add_comm 1, and_assoc]

end Allocating

structure Copies (src dst : SignaturePattern) : Prop where
  length : dst.length = src.length
  offset : dst.offset = src.offset
  isFooter : dst.isFooter = src.isFooter
  typeName : dst.typeName = src.typeName
  text : dst.text = src.text
  full : dst.text.length = src.length

/-- As many signatures as the count says, each of them copied. -/
def DeepCopy (src : Option (List SignaturePattern)) (count : ℕ)
    (dst : Option (List SignaturePattern)) : Prop :=
  (dst.getD []).length = count ∧ List.Forall₂ Copies ((src.getD []).take count) (dst.getD [])

/-- There are as many signatures as the count says, with as many bytes as they say. -/
def Counted (src : Option (List SignaturePattern)) (count : ℕ) : Prop :=
  count ≤ (src.getD []).length ∧
    ∀ s ∈ (src.getD []).take count, s.length ≤ (s.bytes.getD []).length

structure WellFormed (desc : FileTypeDescriptor) : Prop where
  headers : Counted desc.headers desc.headerCount
  footers : Counted desc.footers desc.footerCount

/-- The new last entry after a success, and the entries as before after an error. -/
def AllOrNothing (reg : Registry) (desc : FileTypeDescriptor) (a : Allocations) : Prop :=
  match fileTypeRegistryRegister reg desc a with
  | (none, reg', _) => ∃ headers footers,
      reg'.types = reg.types++[{ desc with headers := headers, footers := footers }] ∧
        DeepCopy desc.headers desc.headerCount headers ∧
        DeepCopy desc.footers desc.footerCount footers
  | (some _, reg', _) => reg'.types = reg.types

section Needs

/-- Bytes are allocated for a signature, and a name when it has one. -/
def signatureNeeds (src : SignaturePattern) : List Bool :=
  decide (0 < src.length)::(if src.typeName.isSome then [true] else [])

def copyNeeds (src : Option (List SignaturePattern)) (count : ℕ) : List Bool :=
  match src with
  | none => []
  | some src => if count = 0 then [] else true::(src.take count).flatMap signatureNeeds

def registerNeeds (desc : FileTypeDescriptor) : List Bool :=
  copyNeeds desc.headers desc.headerCount++copyNeeds desc.footers desc.footerCount

def Full (reg : Registry) : Prop := reg.capacity ≤ reg.types.length

instance (reg : Registry) : Decidable (Full reg) := inferInstanceAs (Decidable (_ ≤ _))

def Refused (reg : Registry) (a : Allocations) : Prop := Full reg ∧ (allocate a).1 = false

instance (reg : Registry) (a : Allocations) : Decidable (Refused reg a) :=
  inferInstanceAs (Decidable (_ ∧ _))

def copyAllocations (reg : Registry) (a : Allocations) : Allocations :=
  if Full reg then (allocate a).2 else a

end Needs

section Copying

/-- A signature is copied when its bytes are, if it has some, and its name is. -/
theorem copies_iff (src : SignaturePattern) (h : src.length ≤ (src.bytes.getD []).length)
    (ok : Bool) (name : Option Text) :
    Copies src { src with bytes := if ok then some src.text else none, typeName := name } ↔
      (0 < src.length → ok = true) ∧ name = src.typeName := by
  have htext : src.text.length = src.length := by
    rw [SignaturePattern.text, List.length_take]
    exact min_eq_left h
  cases ok with
  | true =>
    have hagain : src.text.take src.length = src.text := List.take_of_length_le (by omega)
    constructor
    · intro hc
      exact ⟨fun _ => rfl, hc.typeName⟩
    · rintro ⟨_, rfl⟩
      exact ⟨rfl, rfl, rfl, rfl, hagain, (congrArg List.length hagain).trans htext⟩
  | false =>
    constructor
    · intro hc
      have hfull := hc.full
      simp only [SignaturePattern.text, Bool.false_eq_true, if_false, Option.getD_none,
        List.take_nil, List.length_nil] at hfull
      exact ⟨fun hpos => absurd hpos (by omega), hc.typeName⟩
    · rintro ⟨hzero, rfl⟩
      have hlen : src.length = 0 := by
        by_contra hpos
        exact absurd (hzero (by omega)) (by decide)
      have hnone : src.text = [] := List.length_eq_zero_iff.mp (htext.trans hlen)
      exact ⟨rfl, rfl, rfl, rfl, by rw [hnone, SignaturePattern.text]; exact List.take_nil,
        by rw [hlen, SignaturePattern.text]; exact congrArg List.length List.take_nil⟩

theorem copySignature_spec (src : SignaturePattern) (a : Allocations)
    (h : src.length ≤ (src.bytes.getD []).length) :
    (Copies src (copySignature src a).1 ↔ Granted (signatureNeeds src) a) ∧
    (copySignature src a).2 = a.drop (signatureNeeds src).length := by
  have hcopies := copies_iff src h (allocate a).1
  rw [copySignature, signatureNeeds, Granted, decide_eq_true_eq]
  cases hname : src.typeName with
  | none =>
    rw [hname] at hcopies
    refine ⟨?_, allocate_drop a⟩
    exact (hcopies none).trans (and_congr_right fun _ => iff_of_true rfl trivial)
  | some name =>
    rw [hname] at hcopies
    refine ⟨?_, ?_⟩
    · refine (hcopies _).trans (and_congr_right fun _ => ?_)
      cases hok : (allocate (allocate a).2).1 with
      | true => simp [Granted, hok]
      | false => simp [Granted, hok]
    · dsimp only [Option.isSome_some]
      rw [if_pos rfl, allocate_drop, allocate_drop, List.drop_drop]
      rfl

theorem copyEach_spec (srcs : List SignaturePattern) (a : Allocations)
    (h : ∀ s ∈ srcs, s.length ≤ (s.bytes.getD []).length) :
    (List.Forall₂ Copies srcs (copyEach srcs a).1 ↔ Granted (srcs.flatMap signatureNeeds) a) ∧
    (copyEach srcs a).2 = a.drop (srcs.flatMap signatureNeeds).length := by
  induction srcs generalizing a with
  | nil => exact ⟨iff_of_true List.Forall₂.nil trivial, rfl⟩
  | cons src rest ih =>
    obtain ⟨hcopy, hleft⟩ := copySignature_spec src a (h src List.mem_cons_self)
    obtain ⟨hrest, hend⟩ := ih (copySignature src a).2 (fun s hs => h s (List.mem_cons_of_mem _ hs))
    rw [copyEach]
    dsimp only
    rw [List.forall₂_cons, hcopy, hrest, hend, hleft, List.flatMap_cons, granted_append,
      List.drop_drop, List.length_append]
    exact ⟨Iff.rfl, rfl⟩

theorem copyEach_length (srcs : List SignaturePattern) (a : Allocations) :
    (copyEach srcs a).1.length = srcs.length := by
  induction srcs generalizing a with
  | nil => rfl
  | cons src rest ih =>
    rw [copyEach]
    exact congrArg (·+1) (ih (copySignature src a).2)

/-- The copy is complete when its allocations are granted, and the allocations
that follow are then those of what comes next. -/
theorem copySignatures_spec (src : Option (List SignaturePattern)) (count : ℕ) (a : Allocations)
    (h : Counted src count) :
    (DeepCopy src count (copySignatures src count a).1 ↔ Granted (copyNeeds src count) a) ∧
    (Granted (copyNeeds src count) a →
      (copySignatures src count a).2 = a.drop (copyNeeds src count).length) := by
  obtain ⟨hcount, hbytes⟩ := h
  cases src with
  | none =>
    have hzero : count = 0 := Nat.le_zero.mp hcount
    rw [hzero]
    exact ⟨iff_of_true ⟨rfl, List.Forall₂.nil⟩ trivial, fun _ => rfl⟩
  | some srcs =>
    rw [Option.getD_some] at hcount hbytes
    rw [copySignatures, copyNeeds]
    by_cases hzero : count = 0
    · rw [if_pos hzero, if_pos hzero, hzero]
      exact ⟨iff_of_true ⟨rfl, List.Forall₂.nil⟩ trivial, fun _ => rfl⟩
    rw [if_neg hzero, if_neg hzero]
    cases hok : (allocate a).1 with
    | false =>
      simp only [hok, Bool.not_false, if_true, Granted]
      constructor
      · constructor
        · rintro ⟨hlen, _⟩
          exact absurd hlen.symm hzero
        · rintro ⟨hcalloc, _⟩
          exact absurd (hcalloc trivial) (by decide)
      · rintro ⟨hcalloc, _⟩
        exact absurd (hcalloc trivial) (by decide)
    | true =>
      obtain ⟨hcopy, hend⟩ := copyEach_spec (srcs.take count) (allocate a).2 hbytes
      simp only [hok, Bool.not_true, Bool.false_eq_true, if_false, Granted]
      constructor
      · rw [← hcopy, DeepCopy, Option.getD_some, Option.getD_some, copyEach_length,
          List.length_take, min_eq_left hcount]
        exact and_congr (iff_of_true rfl fun _ => trivial) Iff.rfl
      · rintro -
        rw [hend, allocate_drop, List.drop_drop, List.length_cons, Nat.add_comm]

end Copying

section Registering
variable (reg : Registry) (desc : FileTypeDescriptor) (a : Allocations)

def newHeaders : Option (List SignaturePattern) × Allocations :=
  copySignatures desc.headers desc.headerCount (copyAllocations reg a)

def newFooters : Option (List SignaturePattern) × Allocations :=
  copySignatures desc.footers desc.footerCount (newHeaders reg desc a).2

def newEntry : FileTypeDescriptor :=
  { desc with headers := (newHeaders reg desc a).1, footers := (newFooters reg desc a).1 }

theorem register_refused (h : Refused reg a) :
    fileTypeRegistryRegister reg desc a = (some .memory, reg, (allocate a).2) := by
  obtain ⟨hfull, hgrow⟩ := h
  have hfull' : reg.capacity ≤ reg.types.length := hfull
  simp only [fileTypeRegistryRegister, hfull', if_true, hgrow, Bool.not_false]

theorem register_done (h : ¬ Refused reg a) :
    ∃ capacity, fileTypeRegistryRegister reg desc a =
      (none, ⟨reg.types++[newEntry reg desc a], capacity⟩, (newFooters reg desc a).2) := by
  by_cases hfull : reg.capacity ≤ reg.types.length
  · have hgrow : (allocate a).1 = true := by
      cases hok : (allocate a).1 with
      | true => rfl
      | false => exact absurd ⟨hfull, hok⟩ h
    have hleft : copyAllocations reg a = (allocate a).2 := if_pos hfull
    refine ⟨reg.capacity*2, ?_⟩
    rw [newEntry, newFooters, newHeaders, hleft]
    simp only [fileTypeRegistryRegister, hfull, if_true, hgrow, Bool.not_true,
      Bool.false_eq_true, if_false]
  · have hleft : copyAllocations reg a = a := if_neg hfull
    refine ⟨reg.capacity, ?_⟩
    rw [newEntry, newFooters, newHeaders, hleft]
    simp only [fileTypeRegistryRegister, hfull, Bool.false_eq_true, if_false,
      Bool.not_true]

theorem copies_granted (h : WellFormed desc) :
    (DeepCopy desc.headers desc.headerCount (newHeaders reg desc a).1 ∧
      DeepCopy desc.footers desc.footerCount (newFooters reg desc a).1) ↔
    Granted (registerNeeds desc) (copyAllocations reg a) := by
  obtain ⟨hheaders, hend⟩ := copySignatures_spec desc.headers desc.headerCount
    (copyAllocations reg a) h.headers
  have hfooters := (copySignatures_spec desc.footers desc.footerCount (newHeaders reg desc a).2
    h.footers).1
  rw [registerNeeds, granted_append, newHeaders, hheaders]
  refine and_congr_right fun hgranted => ?_
  rw [← hend hgranted]
  exact hfooters

theorem refused_nothing (h : Refused reg a) : AllOrNothing reg desc a := by
  rw [AllOrNothing, register_refused reg desc a h]

theorem done_copies (h : ¬ Refused reg a) : AllOrNothing reg desc a ↔
    DeepCopy desc.headers desc.headerCount (newHeaders reg desc a).1 ∧
      DeepCopy desc.footers desc.footerCount (newFooters reg desc a).1 := by
  obtain ⟨capacity, hdone⟩ := register_done reg desc a h
  rw [AllOrNothing, hdone]
  constructor
  · rintro ⟨headers, footers, htypes, hcopies⟩
    have hentry : newEntry reg desc a = { desc with headers := headers, footers := footers } :=
      List.singleton_inj.mp (List.append_cancel_left htypes)
    rw [newEntry, FileTypeDescriptor.mk.injEq] at hentry
    obtain ⟨_, _, _, _, _, _, hheaders, _, hfooters, _⟩ := hentry
    rwa [hheaders, hfooters]
  · intro hcopies
    exact ⟨_, _, rfl, hcopies⟩

end Registering

/-- A registration is all or nothing exactly when the registry cannot grow or
every allocation of the copy succeeds. -/
theorem registration_complete (reg : Registry) (desc : FileTypeDescriptor) (a : Allocations)
    (h : WellFormed desc) : AllOrNothing reg desc a ↔
      Refused reg a ∨ Granted (registerNeeds desc) (copyAllocations reg a) := by
  by_cases hrefused : Refused reg a
  · exact iff_of_true (refused_nothing reg desc a hrefused) (Or.inl hrefused)
  · rw [done_copies reg desc a hrefused, or_iff_right hrefused]
    exact copies_granted reg desc a h

theorem jpeg_wellFormed : WellFormed jpeg :=
  ⟨⟨le_rfl, by simp [jpeg, builtIn]⟩, ⟨le_rfl, by simp [jpeg, builtIn]⟩⟩

theorem jpeg_registration_complete : AllOrNothing ⟨[], 16⟩ jpeg [] :=
  (registration_complete ⟨[], 16⟩ jpeg [] jpeg_wellFormed).mpr (Or.inr (by decide))

/-- The bytes of the signature cannot be allocated. -/
theorem registration_null_bytes : ¬ ∀ reg desc a, WellFormed desc → AllOrNothing reg desc a := by
  intro h
  have hcopies := (done_copies ⟨[], 16⟩ jpeg [true, false] (by decide)).mp
    (h _ _ _ jpeg_wellFormed)
  rw [copies_granted _ _ _ jpeg_wellFormed] at hcopies
  exact absurd hcopies (by decide)

end EraseCure.Registrations
