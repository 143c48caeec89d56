import EraseCure.Blockmaps
import EraseCure.Monitors

/-!
# Workers on a block map

Every worker makes its calls one after the other. A call on one entry and a
merge are one critical section each. Hashing and finding duplicates are loops
that look at the image or at the primary entries without the lock and take it
for each of their updates.
-/

set_option autoImplicit false

namespace EraseCure.BlockmapWorkers
open EraseCure.CText EraseCure.Hashing EraseCure.FileMirrors EraseCure.Blockmaps EraseCure.Monitors

variable {ι : Type*} {n : ℕ}

inductive BlockmapCall (n : ℕ) where
  | reserve (block : ℕ)
  | release (block : ℕ)
  | setCovered (block : ℕ) (covered : Bool)
  | setHash (block : ℕ) (hashHex : Option Text)
  | setZero (block : ℕ) (isZero : Bool)
  | setDuplicate (block exemplar : ℕ)
  | mergeShadow
  | computeHashes (io : HashIo) (fm : FileMirror)
  | findDuplicates (malloc : Bool) (qsort : Qsort n)

inductive Task (n : ℕ) where
  | returned
  | hashing (io : HashIo) (fm : FileMirror) (i : ℕ) (digest : Digest)
  | settingHash (io : HashIo) (fm : FileMirror) (i : ℕ) (digest : Digest) (hex : Text)
      (isZero : Bool)
  | settingZero (io : HashIo) (fm : FileMirror) (i : ℕ) (digest : Digest) (isZero : Bool)
  | gathering (qsort : Qsort n) (i : ℕ) (entries : List (HashEntry n))
  | marking (entries : List (HashEntry n))
  | merging

structure Worker (n : ℕ) where
  task : Task n
  calls : List (BlockmapCall n)

/-- A call that fails leaves the map as it was. -/
def performed (bm : Blockmap n) (result : Except BlockmapError (Blockmap n)) : Blockmap n :=
  match result with
  | .ok bm' => bm'
  | .error _ => bm

def startCall (bm : Blockmap n) : BlockmapCall n → Blockmap n × Task n
  | .reserve block => (performed bm (blockmapReserve bm block), .returned)
  | .release block => (performed bm (blockmapRelease bm block), .returned)
  | .setCovered block covered =>
    (performed bm (blockmapShadowSetCovered bm block covered), .returned)
  | .setHash block hashHex => (performed bm (blockmapShadowSetHash bm block hashHex), .returned)
  | .setZero block isZero => (performed bm (blockmapShadowSetZero bm block isZero), .returned)
  | .setDuplicate block exemplar =>
    (performed bm (blockmapShadowSetDuplicate bm block exemplar), .returned)
  | .mergeShadow => (blockmapMergeShadow bm, .returned)
  | .computeHashes io fm => (bm, if io.malloc then .hashing io fm 0 io.stack else .returned)
  | .findDuplicates malloc qsort => (bm, if malloc then .gathering qsort 0 [] else .returned)

def taskStep (bm : Blockmap n) : Task n → Blockmap n × Task n
  | .returned => (bm, .returned)
  | .hashing io fm i digest =>
    if i < n then
      match hashBlock io fm i digest with
      | none => (bm, .hashing io fm (i+1) digest)
      | some (digest, hex, isZero) => (bm, .settingHash io fm i digest hex isZero)
    else (bm, .merging)
  | .settingHash io fm i digest hex isZero =>
    (performed bm (blockmapShadowSetHash bm i (some hex)), .settingZero io fm i digest isZero)
  | .settingZero io fm i digest isZero =>
    (performed bm (blockmapShadowSetZero bm i isZero), .hashing io fm (i+1) digest)
  | .gathering qsort i entries =>
    if h : i < n then
      (bm, .gathering qsort (i+1) (entries++(hashEntry bm ⟨i, h⟩).toList))
    else (bm, .marking (qsort.sort entries))
  | .marking (previous::entry::rest) =>
    if compareHashes entry previous = .eq then
      (markDuplicate bm previous.block entry.block, .marking (entry::rest))
    else (bm, .marking (entry::rest))
  | .marking _ => (bm, .merging)
  | .merging => (blockmapMergeShadow bm, .returned)

def workerStep (bm : Blockmap n) (w : Worker n) : Option (Blockmap n × Worker n) :=
  match w.task with
  | .returned =>
    match w.calls with
    | [] => none
    | call::calls => some ((startCall bm call).1, ⟨(startCall bm call).2, calls⟩)
  | task => some ((taskStep bm task).1, ⟨(taskStep bm task).2, w.calls⟩)

def blockmapMachine : Machine ι (Blockmap n) Empty (Worker n) where
  act := fun _ w bm => (workerStep bm w).map (fun r => ⟨r.1, .ready r.2, .none⟩)
  spurious := false

inductive Event (n : ℕ) where
  | reserved (block : Fin n)
  | released (block : Fin n)
  | merged (shadow : Vector BlockmapEntry n)
  | other

def event (w : Worker n) (bm : Blockmap n) : Event n :=
  match w.task, w.calls with
  | .returned, .reserve block::_ => if h : block < n then .reserved ⟨block, h⟩ else .other
  | .returned, .release block::_ => if h : block < n then .released ⟨block, h⟩ else .other
  | .returned, .mergeShadow::_ => .merged bm.shadow
  | .merging, _ => .merged bm.shadow
  | _, _ => .other

section Entries
variable (entries : Vector BlockmapEntry n) (f : BlockmapEntry → BlockmapEntry)

theorem setEntry_get (block other : Fin n) : (setEntry entries block f).get other =
    if block = other then f (entries.get other) else entries.get other := by
  have hset : (setEntry entries block f).get other =
      if block.val = other.val then f (entries.get block) else entries.get other :=
    Vector.getElem_set block.isLt other.isLt
  rw [hset]
  by_cases h : block = other
  · rw [if_pos h, if_pos (congrArg Fin.val h), h]
  · rw [if_neg h, if_neg (fun hval => h (Fin.ext hval))]

theorem setEntry_count (block : Fin n) (hf : ∀ e, (f e).reservationCount = e.reservationCount)
    (other : Fin n) :
    ((setEntry entries block f).get other).reservationCount =
      (entries.get other).reservationCount := by
  rw [setEntry_get]
  split_ifs
  · exact hf _
  · rfl

end Entries

/-- What a step can do: it reserves, releases or merges, or it touches neither a
count nor a primary entry. -/
inductive Effect (bm : Blockmap n) : Event n → Blockmap n → Prop where
  | other (bm' : Blockmap n) : bm'.primary = bm.primary →
      (∀ block : Fin n,
        (bm'.shadow.get block).reservationCount = (bm.shadow.get block).reservationCount) →
      Effect bm .other bm'
  | reserved (block : Fin n) : Effect bm (.reserved block) { bm with
      shadow := setEntry bm.shadow block (fun e =>
        { e with reservationCount := e.reservationCount+1 }) }
  | released (block : Fin n) : Effect bm (.released block) { bm with
      shadow := setEntry bm.shadow block (fun e => if 0 < e.reservationCount then
        { e with reservationCount := e.reservationCount-1 } else e) }
  | merged : Effect bm (.merged bm.shadow) (blockmapMergeShadow bm)

section Effects
variable (bm : Blockmap n)

theorem same_effect : Effect bm .other bm := .other bm rfl (fun _ => rfl)

theorem update_effect (block : ℕ) (f : BlockmapEntry → BlockmapEntry)
    (hf : ∀ e, (f e).reservationCount = e.reservationCount) :
    Effect bm .other (performed bm (updateShadow bm block f)) := by
  rw [updateShadow]
  split_ifs with h
  · exact .other _ rfl (setEntry_count bm.shadow f ⟨block, h⟩ hf)
  · exact same_effect bm

theorem hash_effect (block : ℕ) (hashHex : Option Text) :
    Effect bm .other (performed bm (blockmapShadowSetHash bm block hashHex)) := by
  cases hashHex with
  | none => exact same_effect bm
  | some hex => exact update_effect bm block _ (fun _ => rfl)

theorem zero_effect (block : ℕ) (isZero : Bool) :
    Effect bm .other (performed bm (blockmapShadowSetZero bm block isZero)) :=
  update_effect bm block _ (fun _ => rfl)

theorem duplicate_effect (block exemplar : ℕ) :
    Effect bm .other (performed bm (blockmapShadowSetDuplicate bm block exemplar)) := by
  rw [blockmapShadowSetDuplicate]
  split_ifs
  · exact same_effect bm
  · exact update_effect bm block _ (fun _ => rfl)

theorem mark_effect (exemplar duplicate : Fin n) :
    Effect bm .other (markDuplicate bm exemplar duplicate) := by
  refine .other _ rfl ?_
  intro block
  have hexemplar := setEntry_count bm.shadow (fun e => { e with isExemplar := true }) exemplar
    (fun _ => rfl) block
  exact (setEntry_count _ (fun e => { e with isDuplicate := true, exemplarBlock := exemplar })
    duplicate (fun _ => rfl) block).trans hexemplar

theorem reserve_effect (block : ℕ) :
    Effect bm (if h : block < n then .reserved ⟨block, h⟩ else .other)
      (performed bm (blockmapReserve bm block)) := by
  rw [blockmapReserve, updateShadow]
  split_ifs with h
  · exact .reserved ⟨block, h⟩
  · exact same_effect bm

theorem release_effect (block : ℕ) :
    Effect bm (if h : block < n then .released ⟨block, h⟩ else .other)
      (performed bm (blockmapRelease bm block)) := by
  rw [blockmapRelease, updateShadow]
  split_ifs with h
  · exact .released ⟨block, h⟩
  · exact same_effect bm

theorem start_effect (call : BlockmapCall n) (calls : List (BlockmapCall n)) :
    Effect bm (event ⟨.returned, call::calls⟩ bm) (startCall bm call).1 := by
  cases call with
  | reserve block => exact reserve_effect bm block
  | release block => exact release_effect bm block
  | setCovered block covered => exact update_effect bm block _ (fun _ => rfl)
  | setHash block hashHex => exact hash_effect bm block hashHex
  | setZero block isZero => exact zero_effect bm block isZero
  | setDuplicate block exemplar => exact duplicate_effect bm block exemplar
  | mergeShadow => exact .merged
  | computeHashes io fm | findDuplicates malloc qsort => exact same_effect bm

theorem task_effect (task : Task n) (calls : List (BlockmapCall n)) (ht : task ≠ .returned) :
    Effect bm (event ⟨task, calls⟩ bm) (taskStep bm task).1 := by
  cases task with
  | returned => contradiction
  | hashing io fm i digest =>
    rw [taskStep]
    split_ifs
    · split <;> exact same_effect bm
    · exact same_effect bm
  | settingHash io fm i digest hex isZero => exact hash_effect bm i (some hex)
  | settingZero io fm i digest isZero => exact zero_effect bm i isZero
  | gathering qsort i entries =>
    rw [taskStep]
    split_ifs <;> exact same_effect bm
  | marking entries =>
    cases entries with
    | nil => exact same_effect bm
    | cons previous entries =>
      cases entries with
      | nil => exact same_effect bm
      | cons entry rest =>
        rw [taskStep]
        split_ifs
        · exact mark_effect bm previous.block entry.block
        · exact same_effect bm
  | merging => exact .merged

theorem step_effect (bm' : Blockmap n) (w w' : Worker n)
    (h : workerStep bm w = some (bm', w')) : Effect bm (event w bm) bm' := by
  obtain ⟨task, calls⟩ := w
  by_cases ht : task = .returned
  · subst ht
    cases calls with
    | nil => contradiction
    | cons call calls =>
      cases h
      exact start_effect bm call calls
  · have hstep : workerStep bm ⟨task, calls⟩ =
        some ((taskStep bm task).1, ⟨(taskStep bm task).2, calls⟩) := by
      cases task <;> first | contradiction | rfl
    rw [hstep] at h
    cases h
    exact task_effect bm task calls ht

end Effects

/-- The reservations of a block that are not yet released. -/
def outstanding : List (Event n) → Fin n → ℕ
  | [], _ => 0
  | .reserved b::events, block => outstanding events block+(if b = block then 1 else 0)
  | .released b::events, block => outstanding events block-(if b = block then 1 else 0)
  | _::events, block => outstanding events block

/-- Every release follows a reservation of its block that is not yet released,
and a count never has to go past its 32 bits. -/
def Disciplined : List (Event n) → Prop
  | [] => True
  | .reserved b::events => Disciplined events ∧ outstanding events b+1 < 2^32
  | .released b::events => Disciplined events ∧ 0 < outstanding events b
  | _::events => Disciplined events

instance decidableDisciplined : (events : List (Event n)) → Decidable (Disciplined events)
  | [] => isTrue trivial
  | .reserved _::events | .released _::events =>
    have := decidableDisciplined events
    inferInstanceAs (Decidable (_ ∧ _))
  | .merged _::events | .other::events => decidableDisciplined events

/-- The shadow entries at the latest merge. -/
def snapshot : List (Event n) → Vector BlockmapEntry n
  | [] => Vector.replicate n .zero
  | .merged shadow::_ => shadow
  | _::events => snapshot events

structure Tracks (bm : Blockmap n) (events : List (Event n)) : Prop where
  counts : Disciplined events →
    ∀ block : Fin n, (bm.shadow.get block).reservationCount.toNat = outstanding events block
  primary : bm.primary = snapshot events

section Tracking
variable (bm : Blockmap n) (events : List (Event n))

theorem tracks_reserved (h : Tracks bm events) (block : Fin n) : Tracks { bm with
    shadow := setEntry bm.shadow block (fun e =>
      { e with reservationCount := e.reservationCount+1 }) } (.reserved block::events) := by
  refine ⟨?_, h.primary⟩
  rintro ⟨hd, hlt⟩ other
  rw [outstanding]
  dsimp only
  rw [setEntry_get]
  by_cases hb : block = other
  · subst hb
    rw [if_pos rfl, if_pos rfl]
    dsimp only
    rw [UInt32.toNat_add, h.counts hd block]
    exact Nat.mod_eq_of_lt hlt
  · rw [if_neg hb, if_neg hb, Nat.add_zero, h.counts hd other]

theorem tracks_released (h : Tracks bm events) (block : Fin n) : Tracks { bm with
    shadow := setEntry bm.shadow block (fun e => if 0 < e.reservationCount then
      { e with reservationCount := e.reservationCount-1 } else e) }
    (.released block::events) := by
  refine ⟨?_, h.primary⟩
  rintro ⟨hd, hpos⟩ other
  rw [outstanding]
  dsimp only
  rw [setEntry_get]
  by_cases hb : block = other
  · subst hb
    have hcount := h.counts hd block
    have hp : 0 < (bm.shadow.get block).reservationCount := by
      rw [UInt32.lt_iff_toNat_lt, hcount]
      exact hpos
    rw [if_pos rfl, if_pos rfl, if_pos hp]
    dsimp only
    rw [UInt32.toNat_sub_of_le _ _ (UInt32.le_iff_toNat_le.mpr (by rw [hcount]; exact hpos)),
      hcount]
    rfl
  · rw [if_neg hb, if_neg hb, Nat.sub_zero, h.counts hd other]

theorem tracks_step (e : Event n) (bm' : Blockmap n) (h : Tracks bm events)
    (he : Effect bm e bm') : Tracks bm' (e::events) := by
  cases he with
  | other bm' hprimary hcounts =>
    exact ⟨fun hd block => by rw [hcounts]; exact h.counts hd block, hprimary.trans h.primary⟩
  | reserved block => exact tracks_reserved bm events h block
  | released block => exact tracks_released bm events h block
  | merged => exact ⟨h.counts, rfl⟩

end Tracking

theorem snapshot_append (new events : List (Event n)) (h : ∀ shadow, .merged shadow ∉ new) :
    snapshot (new++events) = snapshot events := by
  induction new with
  | nil => rfl
  | cons e new ih =>
    have hrest : snapshot (new++events) = snapshot events :=
      ih (fun shadow hmem => h shadow (List.mem_cons_of_mem e hmem))
    cases e with
    | merged shadow => exact absurd List.mem_cons_self (h shadow)
    | reserved block | released block | other => exact hrest

section Runs
variable [DecidableEq ι] [Fintype ι]

abbrev BlockmapRun (ι : Type*) (n : ℕ) :=
  State ι (Recording (Blockmap n) (Event n)) Empty (Worker n)

def blockmapStart (bm : Blockmap n) (programs : ι → List (BlockmapCall n)) :
    BlockmapRun ι n where
  shared := ⟨bm, []⟩
  status := fun i => .ready ⟨.returned, programs i⟩

theorem created_tracks (callocPrimary callocShadow : Bool) (bm : Blockmap n)
    (h : blockmapCreate n callocPrimary callocShadow = .ok bm) : Tracks bm [] := by
  rw [blockmapCreate] at h
  split_ifs at h
  cases h
  refine ⟨fun _ block => ?_, rfl⟩
  have hzero : (Vector.replicate n BlockmapEntry.zero).get block = .zero :=
    Vector.getElem_replicate block.isLt
  rw [hzero]
  rfl

theorem run_tracks (callocPrimary callocShadow : Bool) (bm : Blockmap n)
    (hbm : blockmapCreate n callocPrimary callocShadow = .ok bm)
    (programs : ι → List (BlockmapCall n)) (s : BlockmapRun ι n)
    (h : Reachable (recorded blockmapMachine event) (blockmapStart bm programs) s) :
    Tracks s.shared.shared s.shared.events := by
  apply recorded_invariant blockmapMachine event _ Tracks
    (created_tracks callocPrimary callocShadow bm hbm) _ s h
  intro bm events i w sec ht hact
  obtain ⟨⟨bm', w'⟩, hstep, rfl⟩ := Option.map_eq_some_iff.mp hact
  exact tracks_step bm events _ bm' ht (step_effect bm bm' w w' hstep)

/-- The counts are those of the reservations that are not yet released, and the
primary entries are the shadow entries of the latest merge. -/
theorem reservations_and_snapshots (callocPrimary callocShadow : Bool) (bm : Blockmap n)
    (hbm : blockmapCreate n callocPrimary callocShadow = .ok bm)
    (programs : ι → List (BlockmapCall n)) (s : BlockmapRun ι n)
    (h : Reachable (recorded blockmapMachine event) (blockmapStart bm programs) s) :
    (Disciplined s.shared.events → ∀ block : Fin n,
      (blockmapReservationCount s.shared.shared block).toNat =
        outstanding s.shared.events block) ∧
    s.shared.shared.primary = snapshot s.shared.events ∧
    ∀ (s' : BlockmapRun ι n) (new : List (Event n)),
      Reachable (recorded blockmapMachine event) s s' →
      s'.shared.events = new++s.shared.events → (∀ shadow, .merged shadow ∉ new) →
      s'.shared.shared.primary = s.shared.shared.primary := by
  have htracks := run_tracks callocPrimary callocShadow bm hbm programs s h
  refine ⟨?_, htracks.primary, ?_⟩
  · intro hd block
    rw [blockmapReservationCount, dif_pos block.isLt]
    exact htracks.counts hd block
  · intro s' new hs' hnew hquiet
    have htracks' := run_tracks callocPrimary callocShadow bm hbm programs s'
      (reachable_trans _ _ _ _ h hs')
    rw [htracks'.primary, htracks.primary, hnew, snapshot_append new _ hquiet]

end Runs

def pairPrograms (first : Bool) : List (BlockmapCall 1) :=
  if first then [.reserve 0, .mergeShadow, .release 0] else [.reserve 0]

def pairStart : BlockmapRun Bool 1 :=
  blockmapStart ⟨Vector.replicate 1 .zero, Vector.replicate 1 .zero⟩ pairPrograms

def pairMoves : List (Move Bool) :=
  [.act true none, .act false none, .act true none, .act true none]

theorem reservations_and_snapshots_pair : ∃ s,
    run (recorded blockmapMachine event) pairStart pairMoves = some s ∧
      (blockmapReservationCount s.shared.shared 0).toNat = 1 ∧
      s.shared.shared.primary = snapshot s.shared.events := by
  have hrun : run (recorded blockmapMachine event) pairStart pairMoves = some _ := rfl
  obtain ⟨hcounts, hprimary, _⟩ := reservations_and_snapshots true true _ rfl pairPrograms _
    (run_reachable _ _ _ _ _ .start hrun)
  exact ⟨_, hrun, hcounts (by decide) 0, hprimary⟩

end EraseCure.BlockmapWorkers
