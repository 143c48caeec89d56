import EraseCure.ExactScans

/-!
# Hits that are lost

An engine is used by any run of registrations and scans, with one schedule of
allocations. A failed allocation either makes a call fail or loses one hit of a
scan that succeeds, and nothing else is lost.
-/

set_option autoImplicit false

namespace EraseCure.DroppedHits
open EraseCure.CText EraseCure.FileSystems EraseCure.FileMirrors EraseCure.Discovery
open EraseCure.ExactScans

section Allocating

/-- So many allocations failed between two schedules. -/
def Spends (a a' : Allocations) (k : ℕ) : Prop := ∃ used, a = used++a' ∧ used.count false = k

theorem spends_refl (a : Allocations) : Spends a a 0 := ⟨[], rfl, rfl⟩

theorem spends_trans (a b c : Allocations) (j k : ℕ) (hab : Spends a b j) (hbc : Spends b c k) :
    Spends a c (j+k) := by
  obtain ⟨used, rfl, rfl⟩ := hab
  obtain ⟨more, rfl, rfl⟩ := hbc
  exact ⟨used++more, (List.append_assoc _ _ _).symm, List.count_append⟩

theorem allocate_spends (a : Allocations) :
    Spends a (allocate a).2 (if (allocate a).1 then 0 else 1) := by
  cases a with
  | nil => exact spends_refl []
  | cons ok rest => cases ok <;> exact ⟨[_], rfl, rfl⟩

theorem allocate_granted (a : Allocations) (h : (allocate a).1 = true) :
    Spends a (allocate a).2 0 := by
  have hs := allocate_spends a
  rwa [if_pos h] at hs

theorem allocate_refused (a : Allocations) (h : ¬ (allocate a).1 = true) :
    Spends a (allocate a).2 1 := by
  have hs := allocate_spends a
  rwa [if_neg h] at hs

/-- An allocation that is made only when an array is full. -/
def grow (full : Prop) [Decidable full] (a : Allocations) : Bool × Allocations :=
  if full then allocate a else (true, a)

theorem grow_granted (full : Prop) [Decidable full] (a : Allocations)
    (h : (grow full a).1 = true) : Spends a (grow full a).2 0 := by
  rw [grow] at h ⊢
  split_ifs at h ⊢ with hfull
  · exact allocate_granted a h
  · exact spends_refl a

theorem grow_refused (full : Prop) [Decidable full] (a : Allocations)
    (h : ¬ (grow full a).1 = true) : Spends a (grow full a).2 1 := by
  rw [grow] at h ⊢
  split_ifs at h ⊢ with hfull
  · exact allocate_refused a h
  · exact absurd rfl h

end Allocating

section Calls

/-- A call keeps the engine and returns an error when one allocation failed, and
else it does what it is for. -/
def Settles (engine done : DiscoveryEngine) (a : Allocations)
    (out : Option DiscoveryError × DiscoveryEngine × Allocations) : Prop :=
  (out.1 = none ∧ out.2.1.patterns = done.patterns ∧ out.2.1.hits = done.hits ∧
      Spends a out.2.2 0) ∨
    (out.1 = some .memory ∧ out.2.1.patterns = engine.patterns ∧
      out.2.1.hits = engine.hits ∧ Spends a out.2.2 1)

theorem settles_done (engine done done' : DiscoveryEngine) (a : Allocations)
    (hp : done'.patterns = done.patterns) (hh : done'.hits = done.hits) :
    Settles engine done a (none, done', a) :=
  Or.inl ⟨rfl, hp, hh, spends_refl a⟩

theorem settles_guarded (engine failed done : DiscoveryEngine) (a : Allocations)
    (x : Bool × Allocations) (out : Option DiscoveryError × DiscoveryEngine × Allocations)
    (hgranted : x.1 = true → Spends a x.2 0) (hrefused : ¬ x.1 = true → Spends a x.2 1)
    (hp : failed.patterns = engine.patterns) (hh : failed.hits = engine.hits)
    (h : Settles engine done x.2 out) :
    Settles engine done a (if !x.1 then (some .memory, failed, x.2) else out) := by
  by_cases hx : x.1 = true
  · rw [if_neg (by simpa using hx)]
    rcases h with ⟨hnone, hpatterns, hhits, hspent⟩ | ⟨herror, hpatterns, hhits, hspent⟩
    · exact Or.inl ⟨hnone, hpatterns, hhits, spends_trans _ _ _ 0 0 (hgranted hx) hspent⟩
    · exact Or.inr ⟨herror, hpatterns, hhits, spends_trans _ _ _ 0 1 (hgranted hx) hspent⟩
  · rw [if_pos (by simpa using hx)]
    exact Or.inr ⟨rfl, hp, hh, hrefused hx⟩

variable (engine : DiscoveryEngine) (a : Allocations)

theorem addHit_settles (hit : SignatureHit) :
    Settles engine { engine with hits := engine.hits++[hit] } a (addHit engine hit a) := by
  have hgrown : addHit engine hit a =
      let x := grow (engine.hits.length = engine.hitCapacity) a
      let grown := if engine.hits.length = engine.hitCapacity then
        { engine with hitCapacity := engine.hitCapacity*2 } else engine
      if !x.1 then (some .memory, engine, x.2)
      else if !(allocate x.2).1 then (some .memory, grown, (allocate x.2).2)
      else (none, { grown with hits := grown.hits++[hit] }, (allocate x.2).2) := rfl
  rw [hgrown]
  refine settles_guarded _ _ _ _ _ _ (grow_granted _ a) (grow_refused _ a) rfl rfl
    (settles_guarded _ _ _ _ _ _ (allocate_granted _) (allocate_refused _) ?_ ?_
      (settles_done _ _ _ _ ?_ ?_))
  all_goals split_ifs <;> rfl

theorem register_settles (pattern : SignaturePattern) :
    Settles engine { engine with patterns := engine.patterns++[stored pattern] } a
      (discoveryRegisterSignature engine pattern a) := by
  have hgrown : discoveryRegisterSignature engine pattern a =
      let x := grow (engine.patterns.length = engine.patternCapacity) a
      let grown := if engine.patterns.length = engine.patternCapacity then
        { engine with patternCapacity := engine.patternCapacity*2 } else engine
      let y := allocate x.2
      if !x.1 then (some .memory, engine, x.2)
      else if !y.1 then (some .memory, grown, y.2)
      else if !(allocate y.2).1 then (some .memory, grown, (allocate y.2).2)
      else (none, { grown with patterns := grown.patterns++[stored pattern] },
        (allocate y.2).2) := rfl
  rw [hgrown]
  refine settles_guarded _ _ _ _ _ _ (grow_granted _ a) (grow_refused _ a) rfl rfl
    (settles_guarded _ _ _ _ _ _ (allocate_granted _) (allocate_refused _) ?_ ?_
      (settles_guarded _ _ _ _ _ _ (allocate_granted _) (allocate_refused _) ?_ ?_
        (settles_done _ _ _ _ ?_ ?_)))
  all_goals split_ifs <;> rfl

end Calls

section Scans

/-- From one state to another, some of the hits that are due are added in their order.
Each allocation that failed lost one of them or was reported. -/
def Drops (patterns : List SignaturePattern) (due : List SignatureHit) (reported : ℕ)
    (s s' : DiscoveryEngine × Allocations) : Prop :=
  s'.1.patterns = patterns ∧ ∃ found lost, s'.1.hits = s.1.hits++found ∧ found.Sublist due ∧
    due.length = found.length+lost ∧ Spends s.2 s'.2 (lost+reported)

theorem drops_trans (patterns patterns' : List SignaturePattern) (due due' : List SignatureHit)
    (reported reported' : ℕ) (s t u : DiscoveryEngine × Allocations)
    (hst : Drops patterns due reported s t) (htu : Drops patterns' due' reported' t u) :
    Drops patterns' (due++due') (reported+reported') s u := by
  obtain ⟨_, found, lost, hhits, hsub, hlen, hspent⟩ := hst
  obtain ⟨hp, found', lost', hhits', hsub', hlen', hspent'⟩ := htu
  refine ⟨hp, found++found', lost+lost', ?_, hsub.append hsub', ?_, ?_⟩
  · rw [hhits', hhits, List.append_assoc]
  · rw [List.length_append, List.length_append, hlen, hlen']
    omega
  · have hboth := spends_trans _ _ _ _ _ hspent hspent'
    rwa [Nat.add_add_add_comm] at hboth

theorem drops_idle (patterns : List SignaturePattern) (reported : ℕ)
    (s s' : DiscoveryEngine × Allocations) (hp : s'.1.patterns = patterns)
    (hh : s'.1.hits = s.1.hits) (hspent : Spends s.2 s'.2 reported) :
    Drops patterns [] reported s s' := by
  refine ⟨hp, [], 0, ?_, List.Sublist.slnil, rfl, ?_⟩
  · rw [hh, List.append_nil]
  · rwa [Nat.zero_add]

theorem drops_none (s : DiscoveryEngine × Allocations) : Drops s.1.patterns [] 0 s s :=
  drops_idle _ 0 s s rfl rfl (spends_refl s.2)

/-- The result of adding a hit is not looked at, so a failed allocation loses it. -/
theorem addHit_drops (s : DiscoveryEngine × Allocations) (hit : SignatureHit) :
    Drops s.1.patterns [hit] 0 s (addHit s.1 hit s.2).2 := by
  rcases addHit_settles s.1 s.2 hit with ⟨_, hp, hh, hspent⟩ | ⟨_, hp, hh, hspent⟩
  · exact ⟨hp, [hit], 0, hh, List.Sublist.refl _, rfl, hspent⟩
  · exact ⟨hp, [], 1, by rw [hh, List.append_nil], List.nil_sublist _, rfl, hspent⟩

variable (patterns : List SignaturePattern)

theorem fold_drops {β : Type}
    (f : DiscoveryEngine × Allocations → β → DiscoveryEngine × Allocations)
    (hits : β → List SignatureHit)
    (hf : ∀ s b, s.1.patterns = patterns → Drops patterns (hits b) 0 s (f s b)) (l : List β)
    (s : DiscoveryEngine × Allocations) (hs : s.1.patterns = patterns) :
    Drops patterns (l.flatMap hits) 0 s (l.foldl f s) := by
  induction l generalizing s with
  | nil =>
    rw [← hs]
    exact drops_none s
  | cons b l ih =>
    have hstep := hf s b hs
    exact drops_trans _ _ _ _ 0 0 _ _ _ hstep (ih (f s b) hstep.1)

theorem scanPattern_drops (fm : FileMirror) (block : UInt64) (buffer : Bytes)
    (s : DiscoveryEngine × Allocations) (pat : SignaturePattern) (hs : s.1.patterns = patterns) :
    Drops patterns (patternHit fm block buffer pat).toList 0 s
      (scanPattern fm block buffer s pat) := by
  rw [← hs, scanPattern]
  cases patternHit fm block buffer pat with
  | none => exact drops_none s
  | some hit => exact addHit_drops s hit

variable (readBlock : ReadBlock) (fm : FileMirror)

theorem scanBlock_drops (s : DiscoveryEngine × Allocations) (block : ℕ)
    (hs : s.1.patterns = patterns) :
    Drops patterns (blockHits readBlock fm patterns block) 0 s
      (scanBlock readBlock fm s block) := by
  rw [scanBlock, blockHits]
  cases readBlock fm (UInt64.ofNat block) with
  | error e =>
    rw [← hs]
    exact drops_none s
  | ok buffer =>
    dsimp only
    split
    · rw [← hs]
      exact drops_none s
    · rw [hs, List.filterMap_eq_flatMap_toList]
      exact fold_drops patterns _ _ (scanPattern_drops patterns fm _ buffer) patterns s hs

def scanHits : List SignatureHit :=
  (List.range fm.totalBlocks.toNat).flatMap (blockHits readBlock fm patterns)

/-- A scan that succeeds loses one hit for each allocation that failed. -/
theorem scan_drops (engine : DiscoveryEngine) (a : Allocations) :
    let out := discoveryScan readBlock engine fm a
    (out.1 = none ∧
        Drops engine.patterns (scanHits engine.patterns readBlock fm) 0 (engine, a) out.2) ∨
      (out.1 = some .memory ∧ Drops engine.patterns [] 1 (engine, a) out.2) := by
  intro out
  have hout : out = if !(allocate a).1 then (some .memory, engine, (allocate a).2)
      else (none, (List.range fm.totalBlocks.toNat).foldl (scanBlock readBlock fm)
        (engine, (allocate a).2)) := rfl
  by_cases hok : (allocate a).1 = true
  · rw [hout, if_neg (by simpa using hok)]
    refine Or.inl ⟨rfl, drops_trans engine.patterns _ [] _ 0 0 _
      (engine, (allocate a).2) _ ?_ ?_⟩
    · exact drops_idle _ 0 _ _ rfl rfl (allocate_granted a hok)
    · exact fold_drops engine.patterns _ _ (scanBlock_drops engine.patterns readBlock fm) _ _ rfl
  · rw [hout, if_pos (by simpa using hok)]
    exact Or.inr ⟨rfl, drops_idle _ 1 _ _ rfl rfl (allocate_refused a hok)⟩

theorem scan_adds (engine : DiscoveryEngine) (a : Allocations) :
    ∃ added, added.Sublist (scanHits engine.patterns readBlock fm) ∧
      (discoveryScan readBlock engine fm a).2.1.hits = engine.hits++added := by
  rcases scan_drops readBlock fm engine a with ⟨_, _, found, _, hhits, hsub, _⟩ |
    ⟨_, _, found, _, hhits, hsub, _⟩
  · exact ⟨found, hsub, hhits⟩
  · exact ⟨found, hsub.trans (List.nil_sublist _), hhits⟩

end Scans

section Types

def discoveryHitsForType (isFooter : Bool) (engine : DiscoveryEngine) (typeName : Text)
    (a : Allocations) : Except DiscoveryError (List SignatureHit) × Allocations :=
  let (ok, a) := allocate a
  if !ok then (.error .memory, a)
  else (.ok (engine.hits.filter fun hit => hit.isFooter = isFooter ∧ hit.typeName = typeName), a)

def discoveryGetHeadersForType := discoveryHitsForType false

def discoveryGetFootersForType := discoveryHitsForType true

theorem drops_hitsForType (patterns : List SignaturePattern) (due : List SignatureHit)
    (reported : ℕ) (s s' : DiscoveryEngine × Allocations)
    (hdrops : Drops patterns due reported s s') (isFooter : Bool) (typeName : Text)
    (hits : List SignatureHit)
    (h : (discoveryHitsForType isFooter s'.1 typeName s'.2).1 = .ok hits) :
    ∃ found, hits = s.1.hits.filter (fun hit => hit.isFooter = isFooter ∧
        hit.typeName = typeName)++found ∧
      found.Sublist (due.filter fun hit => hit.isFooter = isFooter ∧ hit.typeName = typeName) := by
  obtain ⟨_, found, _, hhits, hsub, _⟩ := hdrops
  rw [discoveryHitsForType, hhits, List.filter_append] at h
  dsimp only at h
  split at h
  · contradiction
  · exact ⟨_, (Except.ok.inj h).symm, hsub.filter _⟩

end Types

section Runs

inductive EngineCall where
  | register (pattern : SignaturePattern)
  | scan (fm : FileMirror)

/-- A call and the error that it returned. -/
abbrev Answered := EngineCall × Option DiscoveryError

variable (readBlock : ReadBlock)

def engineCall (engine : DiscoveryEngine) (a : Allocations) :
    EngineCall → Option DiscoveryError × DiscoveryEngine × Allocations
  | .register pattern => discoveryRegisterSignature engine pattern a
  | .scan fm => discoveryScan readBlock engine fm a

def engineCalls (engine : DiscoveryEngine) (a : Allocations) :
    List EngineCall → List Answered × DiscoveryEngine × Allocations
  | [] => ([], engine, a)
  | call::calls =>
    let out := engineCall readBlock engine a call
    let rest := engineCalls out.2.1 out.2.2 calls
    ((call, out.1)::rest.1, rest.2)

def learned (patterns : List SignaturePattern) : Answered → List SignaturePattern
  | (.register pattern, none) => patterns++[stored pattern]
  | _ => patterns

/-- The hits of the blocks that a scan which succeeded read. -/
def dueOf (patterns : List SignaturePattern) : Answered → List SignatureHit
  | (.scan fm, none) => scanHits patterns readBlock fm
  | _ => []

def due (patterns : List SignaturePattern) : List Answered → List SignatureHit
  | [] => []
  | answered::rest => dueOf readBlock patterns answered++due (learned patterns answered) rest

/-- What one call does: the next patterns, and its hits but those that are dropped. -/
theorem call_drops (engine : DiscoveryEngine) (a : Allocations) (call : EngineCall) :
    let out := engineCall readBlock engine a call
    Drops (learned engine.patterns (call, out.1)) (dueOf readBlock engine.patterns (call, out.1))
      (if out.1.isSome then 1 else 0) (engine, a) out.2 := by
  intro out
  cases call with
  | register pattern =>
    rcases register_settles engine a pattern with ⟨hnone, hp, hh, hs⟩ | ⟨herror, hp, hh, hs⟩
    · rw [show out.1 = none from hnone]
      exact drops_idle _ 0 _ _ hp hh hs
    · rw [show out.1 = some .memory from herror]
      exact drops_idle _ 1 _ _ hp hh hs
  | scan fm =>
    rcases scan_drops readBlock fm engine a with ⟨hnone, hdrops⟩ | ⟨herror, hdrops⟩
    · rw [show out.1 = none from hnone]
      exact hdrops
    · rw [show out.1 = some .memory from herror]
      exact hdrops

/-- Registrations and scans in any order, with any allocations: the engine knows the
patterns whose registration succeeded, and its hits are those of the scans that
succeeded, in their order, but as many as allocations failed without an error. -/
theorem run_drops (calls : List EngineCall) (engine : DiscoveryEngine) (a : Allocations) :
    let run := engineCalls readBlock engine a calls
    Drops (run.1.foldl learned engine.patterns) (due readBlock engine.patterns run.1)
      (run.1.countP (·.2.isSome)) (engine, a) run.2 := by
  induction calls generalizing engine a with
  | nil => exact drops_none (engine, a)
  | cons call calls ih =>
    intro run
    have hcall := call_drops readBlock engine a call
    have hrest := ih (engineCall readBlock engine a call).2.1
      (engineCall readBlock engine a call).2.2
    have hboth := drops_trans _ _ _ _ _ _ _ _ _ hcall hrest
    have hcount : run.1.countP (·.2.isSome) = _ := List.countP_cons
    rw [hcount, Nat.add_comm]
    rw [hcall.1] at hboth
    exact hboth

/-- The allocation for the first hit fails, and the scan reports the other two. -/
example : (discoveryScan fileMirrorReadBlock pairEngine pairMirror [true, false]).1 = none ∧
    (discoveryScan fileMirrorReadBlock pairEngine pairMirror [true, false]).2.1.hits.map
      (·.byteOffset) = [2, 5] := by decide

end Runs

end EraseCure.DroppedHits
