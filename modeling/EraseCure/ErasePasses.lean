import EraseCure.ByteRanges
import EraseCure.Devices
import EraseCure.ErrorCodes
import EraseCure.FileSystems

/-!
# Passes over a target

The options, the state and the pass loop that the image eraser and the device
eraser share. The state keeps the trace of the data written by each pass, and
a pass that completes leaves pieces that tile the whole target.
-/

set_option autoImplicit false

namespace EraseCure.ErasePasses
open EraseCure.CText EraseCure.Devices EraseCure.ErrorCodes EraseCure.FileSystems
open EraseCure.ByteRanges

structure BlockEraseOptions where
  pattern : ErasePattern
  blockSize : ℕ
  passes : ℕ
  verifyMode : VerifyMode
  progressCb : Bool

structure BlockEraseResult where
  bytesWritten : ℕ
  passesCompleted : ℕ
  resultCode : ErasecureError
  errorMessage : CString 128
  deriving DecidableEq

def defaultBlockSize : ℕ := 1024*1024

def minBlockSize : ℕ := 512

def maxBlockSize : ℕ := 64*1024*1024

def defaultPasses : ℕ := 1

def maxPasses : ℕ := 35

def blockEraseOptionsInit : BlockEraseOptions where
  pattern := .zero
  blockSize := defaultBlockSize
  passes := defaultPasses
  verifyMode := .none
  progressCb := false

def clampBlockSize (blockSize : ℕ) : ℕ :=
  if blockSize < minBlockSize then defaultBlockSize
  else if maxBlockSize < blockSize then maxBlockSize else blockSize

def clampPasses (passes : ℕ) : ℕ :=
  if passes = 0 then defaultPasses else if maxPasses < passes then maxPasses else passes

theorem clampBlockSize_pos (n : ℕ) : 0 < clampBlockSize n := by
  grind [clampBlockSize, minBlockSize, defaultBlockSize, maxBlockSize]

theorem clampBlockSize_le (n : ℕ) : clampBlockSize n ≤ maxBlockSize := by
  grind [clampBlockSize, minBlockSize, defaultBlockSize, maxBlockSize]

theorem clampPasses_pos (n : ℕ) : 0 < clampPasses n := by
  grind [clampPasses, defaultPasses, maxPasses]

/-- What `RAND_bytes` puts into the buffer, or its failure. -/
abbrev RandBytes := Option (ℕ → UInt8)

def blockEraseFillPattern (rand : RandBytes) (len : ℕ) :
    ErasePattern → Except ErasecureError Bytes
  | .zero => .ok (List.replicate len 0x00)
  | .one => .ok (List.replicate len 0xFF)
  | .random =>
    match rand with
    | some bytes => .ok ((List.range len).map bytes)
    | none => .error .crypto
  | .other _ _ => .error .invalidArg

/-- The byte that a constant pattern leaves everywhere. -/
def patternByte : ErasePattern → Option UInt8
  | .zero => some 0x00
  | .one => some 0xFF
  | _ => none

def Filled (pattern : ErasePattern) (data : Bytes) : Prop :=
  ∀ b ∈ patternByte pattern, ∀ x ∈ data, x = b

theorem fill_ok (rand : RandBytes) (len : ℕ) (pattern : ErasePattern) (buf : Bytes)
    (h : blockEraseFillPattern rand len pattern = .ok buf) :
    buf.length = len ∧ Filled pattern buf := by
  cases pattern with
  | zero =>
    obtain rfl := Except.ok.inj h
    simp [Filled, patternByte]
  | one =>
    obtain rfl := Except.ok.inj h
    simp [Filled, patternByte]
  | random =>
    cases rand with
    | none => simp [blockEraseFillPattern] at h
    | some bytes =>
      obtain rfl := Except.ok.inj h
      simp [Filled, patternByte]
  | other n hn => simp [blockEraseFillPattern] at h

theorem fill_error (rand : RandBytes) (len : ℕ) (pattern : ErasePattern) (e : ErasecureError)
    (h : blockEraseFillPattern rand len pattern = .error e) : e ≠ .ok := by
  cases pattern with
  | zero | one => simp [blockEraseFillPattern] at h
  | random =>
    cases rand with
    | none =>
      obtain rfl := Except.error.inj h
      decide
    | some bytes => simp [blockEraseFillPattern] at h
  | other n hn =>
    obtain rfl := Except.error.inj h
    decide

theorem filled_part (pattern : ErasePattern) (data part : Bytes) (h : Filled pattern data)
    (hs : part ⊆ data) : Filled pattern part :=
  fun b hb x hx => h b hb x (hs hx)

/-- The content of the target, the pieces written by each pass, and the
counters of the result. -/
structure EraseState where
  content : Bytes
  writes : List (ℕ × Piece UInt8)
  bytesWritten : ℕ
  passesCompleted : ℕ
  progress : List (ℕ × ℕ)

def eraseStart (content : Bytes) : EraseState := ⟨content, [], 0, 0, []⟩

def EraseState.put (s : EraseState) (pass start : ℕ) (data : Bytes) : EraseState :=
  { s with
    content := overwrite s.content ⟨start, data⟩
    writes := s.writes++[(pass, ⟨start, data⟩)] }

/-- The 64-bit counter of bytes and the progress callback after a chunk. -/
def EraseState.account (s : EraseState) (n total : ℕ) (cb : Bool) : EraseState :=
  { s with
    bytesWritten := (s.bytesWritten+n) % 2^64
    progress := if cb then s.progress++[((s.bytesWritten+n) % 2^64, total)] else s.progress }

def EraseState.passDone (s : EraseState) : EraseState :=
  { s with passesCompleted := s.passesCompleted+1 }

abbrev Failure := ErasecureError × Text

def runPasses (step : ℕ → EraseState → EraseState × Option Failure) :
    List ℕ → EraseState → EraseState × Option Failure
  | [], s => (s, none)
  | pass::rest, s =>
    match step pass s with
    | (s', none) => runPasses step rest s'
    | (s', some e) => (s', some e)

/-- The later state has written the given pieces over the earlier one. -/
def Extends (s s' : EraseState) (ws : List (ℕ × Piece UInt8)) : Prop :=
  s'.writes = s.writes++ws ∧ s'.content = replay s.content (ws.map Prod.snd)

theorem extends_refl (s : EraseState) : Extends s s [] := ⟨by simp, rfl⟩

theorem extends_put (s : EraseState) (pass start : ℕ) (data : Bytes) :
    Extends s (s.put pass start data) [(pass, ⟨start, data⟩)] := ⟨rfl, rfl⟩

theorem extends_trans (s t u : EraseState) (vs ws : List (ℕ × Piece UInt8))
    (hv : Extends s t vs) (hw : Extends t u ws) : Extends s u (vs++ws) := by
  constructor
  · rw [hw.1, hv.1, List.append_assoc]
  · rw [hw.2, hv.2, List.map_append, replay_append]

def Within (pattern : ErasePattern) (passes : List ℕ) (size : ℕ)
    (ws : List (ℕ × Piece UInt8)) : Prop :=
  ∀ w ∈ ws, w.1 ∈ passes ∧ w.2.stop ≤ size ∧ Filled pattern w.2.data

theorem within_append (pattern : ErasePattern) (passes : List ℕ) (size : ℕ)
    (vs ws : List (ℕ × Piece UInt8)) (hv : Within pattern passes size vs)
    (hw : Within pattern passes size ws) : Within pattern passes size (vs++ws) := by
  intro w h
  rcases List.mem_append.mp h with h | h
  · exact hv w h
  · exact hw w h

theorem within_passes (pattern : ErasePattern) (ps qs : List ℕ) (size : ℕ)
    (ws : List (ℕ × Piece UInt8)) (h : Within pattern ps size ws) (hs : ps ⊆ qs) :
    Within pattern qs size ws :=
  fun w hw => ⟨hs (h w hw).1, (h w hw).2⟩

/-- What a loop that writes the range from `a` to the size in one pass does. -/
structure Wrote (pattern : ErasePattern) (pass a size : ℕ) (s : EraseState)
    (out : EraseState × Option Failure) (ws : List (ℕ × Piece UInt8)) : Prop where
  extends_ : Extends s out.1 ws
  within : Within pattern [pass] size ws
  tiled : out.2 = none → Tiles a (ws.map Prod.snd) size
  failed : ∀ e ∈ out.2, e.1 ≠ .ok

theorem wrote_failure (pattern : ErasePattern) (pass a size : ℕ) (s : EraseState) (e : Failure)
    (he : e.1 ≠ .ok) : Wrote pattern pass a size s (s, some e) [] where
  extends_ := extends_refl s
  within := by simp [Within]
  tiled := by simp
  failed := by simpa using he

theorem wrote_nothing (pattern : ErasePattern) (pass size : ℕ) (s : EraseState) :
    Wrote pattern pass size size s (s, none) [] where
  extends_ := extends_refl s
  within := by simp [Within]
  tiled := fun _ => rfl
  failed := by simp

theorem wrote_fail (pattern : ErasePattern) (pass a size : ℕ) (s t : EraseState)
    (f : Option Failure) (ws : List (ℕ × Piece UInt8)) (e : Failure) (he : e.1 ≠ .ok)
    (h : Wrote pattern pass a size s (t, f) ws) :
    Wrote pattern pass a size s (t, some e) ws where
  extends_ := h.extends_
  within := h.within
  tiled := by simp
  failed := by simpa using he

theorem wrote_account (pattern : ErasePattern) (pass a size n total : ℕ) (cb : Bool)
    (s t : EraseState) (f : Option Failure) (ws : List (ℕ × Piece UInt8))
    (h : Wrote pattern pass a size s (t, f) ws) :
    Wrote pattern pass a size s (t.account n total cb, f) ws where
  extends_ := h.extends_
  within := h.within
  tiled := h.tiled
  failed := h.failed

theorem wrote_trans (pattern : ErasePattern) (pass a b size : ℕ) (s t : EraseState)
    (out : EraseState × Option Failure) (vs ws : List (ℕ × Piece UInt8)) (hb : b ≤ size)
    (hv : Wrote pattern pass a b s (t, none) vs) (hw : Wrote pattern pass b size t out ws) :
    Wrote pattern pass a size s out (vs++ws) where
  extends_ := extends_trans s t out.1 vs ws hv.extends_ hw.extends_
  within := within_append pattern [pass] size vs ws
    (fun w h => ⟨(hv.within w h).1, (hv.within w h).2.1.trans hb, (hv.within w h).2.2⟩) hw.within
  tiled := fun hnone => by
    rw [List.map_append]
    exact tiles_append _ _ a b size (hv.tiled rfl) (hw.tiled hnone)
  failed := hw.failed

theorem wrote_part (pattern : ErasePattern) (pass a b size : ℕ) (s t : EraseState) (e : Failure)
    (ws : List (ℕ × Piece UInt8)) (hb : b ≤ size)
    (h : Wrote pattern pass a b s (t, some e) ws) :
    Wrote pattern pass a size s (t, some e) ws where
  extends_ := h.extends_
  within := fun w hw =>
    ⟨(h.within w hw).1, (h.within w hw).2.1.trans hb, (h.within w hw).2.2⟩
  tiled := by simp
  failed := h.failed

theorem wrote_put (pattern : ErasePattern) (pass start : ℕ) (data : Bytes) (s : EraseState)
    (hd : Filled pattern data) :
    Wrote pattern pass start (start+data.length) s (s.put pass start data, none)
      [(pass, ⟨start, data⟩)] where
  extends_ := extends_put s pass start data
  within := fun w hw => by
    obtain rfl := List.mem_singleton.mp hw
    exact ⟨by simp, Nat.le_refl _, hd⟩
  tiled := fun _ => ⟨rfl, rfl⟩
  failed := by simp

section Chunks
variable (pattern : ErasePattern) (random : ℕ → RandBytes) (fillText : Text)
  (write : ℕ → ℕ → Bytes → EraseState → EraseState × Option Failure) (cb : Bool)
  (size blockSize total : ℕ)

/-- The loop over the chunks of a pass, with the way a chunk is written. A
chunk is never empty, so the size of the target bounds their number. -/
def eraseChunks : ℕ → ℕ → ℕ → EraseState → EraseState × Option Failure
  | 0, _, _, s => (s, none)
  | fuel+1, k, remaining, s =>
    if remaining = 0 then (s, none)
    else
      let chunk := if remaining < blockSize then remaining else blockSize
      match blockEraseFillPattern (random k) chunk pattern with
      | .error e => (s, some (e, fillText))
      | .ok buf =>
        match write k (size-remaining) buf s with
        | (s', some e) => (s', some e)
        | (s', none) => eraseChunks fuel (k+1) (remaining-chunk) (s'.account chunk total cb)

theorem eraseChunks_end (fuel k : ℕ) (s : EraseState) :
    eraseChunks pattern random fillText write cb size blockSize total fuel k 0 s = (s, none) := by
  cases fuel <;> rfl

theorem eraseChunks_cases (fuel k remaining : ℕ) (s : EraseState) (hr : remaining ≠ 0) :
    (∃ e, blockEraseFillPattern (random k) (min remaining blockSize) pattern = .error e ∧
        eraseChunks pattern random fillText write cb size blockSize total (fuel+1) k remaining s =
          (s, some (e, fillText))) ∨
      ∃ buf, blockEraseFillPattern (random k) (min remaining blockSize) pattern = .ok buf ∧
        ((∃ s' e, write k (size-remaining) buf s = (s', some e) ∧
            eraseChunks pattern random fillText write cb size blockSize total (fuel+1) k remaining
              s = (s', some e)) ∨
          ∃ s', write k (size-remaining) buf s = (s', none) ∧
            eraseChunks pattern random fillText write cb size blockSize total (fuel+1) k remaining
              s = eraseChunks pattern random fillText write cb size blockSize total fuel (k+1)
                (remaining-min remaining blockSize)
                (s'.account (min remaining blockSize) total cb)) := by
  have hchunk : (if remaining < blockSize then remaining else blockSize) =
      min remaining blockSize := by
    split <;> omega
  rw [eraseChunks, if_neg hr, hchunk]
  dsimp only
  cases blockEraseFillPattern (random k) (min remaining blockSize) pattern with
  | error e => exact Or.inl ⟨e, rfl, rfl⟩
  | ok buf =>
    refine Or.inr ⟨buf, rfl, ?_⟩
    dsimp only
    rcases write k (size-remaining) buf s with ⟨s', _ | e⟩
    · exact Or.inr ⟨s', rfl, rfl⟩
    · exact Or.inl ⟨s', e, rfl, rfl⟩

/-- The chunks of a pass, from the position that the loop has reached on. -/
theorem eraseChunks_spec (pass fuel k remaining : ℕ) (s : EraseState)
    (hwrite : ∀ k start buf s, Filled pattern buf →
      ∃ ws, Wrote pattern pass start (start+buf.length) s (write k start buf s) ws)
    (hb : 0 < blockSize) (hr : remaining ≤ size) (hf : remaining ≤ fuel) :
    ∃ ws, Wrote pattern pass (size-remaining) size s
      (eraseChunks pattern random fillText write cb size blockSize total fuel k remaining s)
      ws := by
  induction fuel generalizing k remaining s with
  | zero =>
    obtain rfl := Nat.le_zero.mp hf
    exact ⟨[], wrote_nothing pattern pass size s⟩
  | succ fuel ih =>
    by_cases h0 : remaining = 0
    · subst h0
      exact ⟨[], wrote_nothing pattern pass size s⟩
    rcases eraseChunks_cases pattern random fillText write cb size blockSize total fuel k remaining
      s h0 with ⟨e, hfill, hout⟩ | ⟨buf, hfill, hwritten⟩
    · rw [hout]
      exact ⟨[], wrote_failure _ _ _ _ _ _ (fill_error _ _ _ e hfill)⟩
    · obtain ⟨hlen, hfilled⟩ := fill_ok _ _ _ _ hfill
      obtain ⟨vs, hv⟩ := hwrite k (size-remaining) buf s hfilled
      rw [hlen] at hv
      rcases hwritten with ⟨s', e, hw, hout⟩ | ⟨s', hw, hout⟩
      · rw [hw] at hv
        rw [hout]
        exact ⟨vs, wrote_part pattern pass _ _ size s s' e vs (by omega) hv⟩
      · have hstop : size-remaining+min remaining blockSize =
            size-(remaining-min remaining blockSize) := by omega
        rw [hw, hstop] at hv
        rw [hout]
        obtain ⟨ws, hrest⟩ := ih (k+1) (remaining-min remaining blockSize)
          (s'.account (min remaining blockSize) total cb) (by omega) (by omega)
        exact ⟨vs++ws, wrote_trans pattern pass _ _ size s _ _ vs ws (Nat.sub_le _ _)
          (wrote_account pattern pass _ _ _ total cb s s' none vs hv) hrest⟩

end Chunks

def PassSpec (pattern : ErasePattern) (size pass : ℕ) (s : EraseState)
    (out : EraseState × Option Failure) : Prop :=
  ∃ ws, Wrote pattern pass 0 size s out ws

/-- Every position is covered by a piece of every pass. -/
def Overwritten (passes : List ℕ) (size : ℕ) (ws : List (ℕ × Piece UInt8)) : Prop :=
  ∀ pass ∈ passes, ∀ i < size, ∃ w ∈ ws, w.1 = pass ∧ w.2.Covers i

theorem runPasses_spec (pattern : ErasePattern) (size : ℕ)
    (step : ℕ → EraseState → EraseState × Option Failure)
    (hstep : ∀ pass s, PassSpec pattern size pass s (step pass s)) (passes : List ℕ)
    (s : EraseState) :
    ∃ ws, Extends s (runPasses step passes s).1 ws ∧ Within pattern passes size ws ∧
      ((runPasses step passes s).2 = none → Overwritten passes size ws) ∧
      ∀ e ∈ (runPasses step passes s).2, e.1 ≠ .ok := by
  induction passes generalizing s with
  | nil => exact ⟨[], extends_refl s, by simp [Within], by simp [Overwritten], by simp [runPasses]⟩
  | cons pass rest ih =>
    obtain ⟨vs, hv⟩ := hstep pass s
    have hpass : Within pattern (pass::rest) size vs :=
      within_passes pattern [pass] _ size vs hv.within (by simp)
    rw [runPasses]
    rcases hs : step pass s with ⟨s', f⟩
    rw [hs] at hv
    cases f with
    | some e =>
      exact ⟨vs, hv.extends_, hpass, by simp, hv.failed⟩
    | none =>
      obtain ⟨ws, hext, hwithin, hover, hfail⟩ := ih s'
      refine ⟨vs++ws, extends_trans s s' _ vs ws hv.extends_ hext, ?_, fun hnone => ?_, hfail⟩
      · exact within_append pattern _ size vs ws hpass
          (within_passes pattern rest _ size ws hwithin (by simp))
      · intro p hp i hi
        rcases List.mem_cons.mp hp with rfl | hp
        · obtain ⟨w, hw, hwi⟩ := tiles_cover _ 0 size (hv.tiled rfl) i (Nat.zero_le i) hi
          obtain ⟨v, hv', rfl⟩ := List.mem_map.mp hw
          exact ⟨v, by simp [hv'], by simpa using (hv.within v hv').1, hwi⟩
        · obtain ⟨w, hw, hwp, hwi⟩ := hover hnone p hp i hi
          exact ⟨w, by simp [hw], hwp, hwi⟩

/-- Pieces of a constant pattern leave its byte wherever one of them lies. -/
theorem overwritten_constant (pattern : ErasePattern) (passes : List ℕ) (size : ℕ)
    (ws : List (ℕ × Piece UInt8)) (content : Bytes) (hp : passes ≠ [])
    (hw : Within pattern passes size ws) (ho : Overwritten passes size ws)
    (hl : size ≤ content.length) (b : UInt8) (hb : b ∈ patternByte pattern) (i : ℕ)
    (hi : i < size) : (replay content (ws.map Prod.snd))[i]? = some b := by
  obtain ⟨p, ps, rfl⟩ := List.exists_cons_of_ne_nil hp
  obtain ⟨w, hm, _, hc⟩ := ho p (by simp) i hi
  refine replay_covered content _ b i (fun v hv => ?_) (Or.inr ⟨w.2, List.mem_map_of_mem hm, hc⟩)
  obtain ⟨u, hu, rfl⟩ := List.mem_map.mp hv
  obtain ⟨_, hstop, hfill⟩ := hw u hu
  exact ⟨hstop.trans hl, hfill b hb⟩

theorem within_length (pattern : ErasePattern) (passes : List ℕ) (size : ℕ)
    (ws : List (ℕ × Piece UInt8)) (content : Bytes) (hw : Within pattern passes size ws)
    (hl : size ≤ content.length) :
    (replay content (ws.map Prod.snd)).length = content.length := by
  apply replay_length content _
  intro v hv
  obtain ⟨u, hu, rfl⟩ := List.mem_map.mp hv
  exact (hw u hu).2.1.trans hl

end EraseCure.ErasePasses
