import EraseCure.ErasePasses
import Mathlib.Data.List.Chain

/-!
# The trace of the passes

A pass leaves pieces that tile the target from its start up to where the pass
ends, and it goes through exactly when that is the end of the target and the
flush succeeds. The counter of bytes and the progress calls advance by whole
chunks.
-/

set_option autoImplicit false

namespace EraseCure.PassTraces
open EraseCure.CText EraseCure.Devices EraseCure.FileSystems
open EraseCure.ByteRanges EraseCure.ErasePasses

structure SameCounts (s t : EraseState) : Prop where
  bytesWritten : t.bytesWritten = s.bytesWritten
  passesCompleted : t.passesCompleted = s.passesCompleted
  progress : t.progress = s.progress

/-- The pieces that a pass writes from one position to another. -/
structure Advances (pattern : ErasePattern) (pass start stop : ℕ) (s t : EraseState)
    (ws : List (Piece UInt8)) : Prop where
  extends_ : Extends s t (ws.map (Prod.mk pass))
  filled : ∀ w ∈ ws, Filled pattern w.data
  tiled : Tiles start ws stop

theorem counts_refl (s : EraseState) : SameCounts s s := ⟨rfl, rfl, rfl⟩

theorem counts_trans (s t u : EraseState) (h : SameCounts s t) (h' : SameCounts t u) :
    SameCounts s u :=
  ⟨h'.bytesWritten.trans h.bytesWritten, h'.passesCompleted.trans h.passesCompleted,
    h'.progress.trans h.progress⟩

section Advancing
variable (pattern : ErasePattern) (pass start : ℕ) (s : EraseState)

theorem advances_refl : Advances pattern pass start start s s [] where
  extends_ := extends_refl s
  filled := by simp
  tiled := rfl

theorem advances_put (data : Bytes) (h : Filled pattern data) :
    Advances pattern pass start (start+data.length) s (s.put pass start data)
      [⟨start, data⟩] where
  extends_ := extends_put s pass start data
  filled := by simpa using h
  tiled := ⟨rfl, rfl⟩

theorem advances_trans (mid stop : ℕ) (t u : EraseState) (vs ws : List (Piece UInt8))
    (hv : Advances pattern pass start mid s t vs) (hw : Advances pattern pass mid stop t u ws) :
    Advances pattern pass start stop s u (vs++ws) where
  extends_ := by
    rw [List.map_append]
    exact extends_trans s t u _ _ hv.extends_ hw.extends_
  filled := by
    intro w h
    rcases List.mem_append.mp h with h | h
    · exact hv.filled w h
    · exact hw.filled w h
  tiled := tiles_append vs ws start mid stop hv.tiled hw.tiled

end Advancing

/-- A write of data puts as many of its bytes as it takes, and it fails when
these are not all. -/
structure Takes (pattern : ErasePattern) (pass start : ℕ) (data : Bytes) (n : ℕ) (s : EraseState)
    (out : EraseState × Option Failure) : Prop where
  le : n ≤ data.length
  advances : ∃ ws, Advances pattern pass start (start+n) s out.1 ws
  counts : SameCounts s out.1
  complete : out.2 = none ↔ n = data.length

section Taking
variable (pattern : ErasePattern) (pass : ℕ)

theorem put_advances (start n : ℕ) (data : Bytes) (s : EraseState) (hn : n ≤ data.length)
    (hd : Filled pattern data) :
    Advances pattern pass start (start+n) s (s.put pass start (data.take n))
      [⟨start, data.take n⟩] := by
  have hput := advances_put pattern pass start s (data.take n)
    (filled_part _ _ _ hd (List.take_subset _ _))
  rwa [List.length_take, Nat.min_eq_left hn] at hput

theorem takes_part (start n : ℕ) (data : Bytes) (s : EraseState) (f : Option Failure)
    (hn : n ≤ data.length) (hd : Filled pattern data) (hf : f = none ↔ n = data.length) :
    Takes pattern pass start data n s (s.put pass start (data.take n), f) where
  le := hn
  advances := ⟨_, put_advances pattern pass start n data s hn hd⟩
  counts := ⟨rfl, rfl, rfl⟩
  complete := hf

end Taking

/-- The values that the counter of bytes goes through, one chunk at a time, each
reported when there is a callback. -/
structure Reported (blockSize total : ℕ) (cb : Bool) (s t : EraseState) (dones : List ℕ) :
    Prop where
  progress : t.progress = s.progress++(if cb then dones.map (fun d => (d, total)) else [])
  grows : (s.bytesWritten::dones).IsChain (fun x y => x < y ∧ y ≤ x+blockSize)
  last : t.bytesWritten = dones.getLast?.getD s.bytesWritten
  below : ∀ d ∈ s.bytesWritten::dones, d ≤ t.bytesWritten

/-- The counter gets on by at most so many bytes, and by all of them with so many
reports when the loop goes through. -/
def Accounted (blockSize total : ℕ) (cb : Bool) (bytes count : ℕ) (s : EraseState)
    (out : EraseState × Option Failure) : Prop :=
  ∃ dones, Reported blockSize total cb s out.1 dones ∧
    out.1.bytesWritten ≤ s.bytesWritten+bytes ∧
    (out.2 = none → out.1.bytesWritten = s.bytesWritten+bytes ∧ dones.length = count)

section Reports
variable (blockSize total : ℕ) (cb : Bool)

theorem reported_same (s t : EraseState) (h : SameCounts s t) :
    Reported blockSize total cb s t [] where
  progress := by
    rw [h.progress]
    cases cb <;> simp
  grows := List.isChain_singleton _
  last := h.bytesWritten
  below := by
    rw [h.bytesWritten]
    simp

theorem reported_account (s : EraseState) (chunk : ℕ) (hpos : 0 < chunk) (hle : chunk ≤ blockSize)
    (hbytes : s.bytesWritten+chunk < 2^64) :
    Reported blockSize total cb s (s.account chunk total cb) [s.bytesWritten+chunk] where
  progress := by
    rw [EraseState.account, Nat.mod_eq_of_lt hbytes]
    cases cb <;> simp
  grows := by
    rw [List.isChain_cons_cons]
    exact ⟨⟨by omega, by omega⟩, List.isChain_singleton _⟩
  last := Nat.mod_eq_of_lt hbytes
  below := by
    rw [EraseState.account, Nat.mod_eq_of_lt hbytes]
    simp

theorem reported_trans (s t u : EraseState) (ds es : List ℕ)
    (hd : Reported blockSize total cb s t ds) (he : Reported blockSize total cb t u es) :
    Reported blockSize total cb s u (ds++es) where
  progress := by
    rw [he.progress, hd.progress]
    cases cb <;> simp
  grows := by
    rw [← List.cons_append, List.isChain_append]
    refine ⟨hd.grows, he.grows.tail, fun x hx y hy => ?_⟩
    obtain ⟨es', rfl⟩ : ∃ es', es = y::es' := List.head?_eq_some_iff.mp hy
    have hlast : x = t.bytesWritten := by
      rw [hd.last]
      exact (Option.some.inj (hx.symm.trans List.getLast?_cons))
    rw [hlast]
    exact (List.isChain_cons_cons.mp he.grows).1
  last := by
    rw [he.last, hd.last, List.getLast?_append]
    cases es.getLast? <;> rfl
  below := by
    have hle : t.bytesWritten ≤ u.bytesWritten := he.below _ List.mem_cons_self
    intro d h
    rw [← List.cons_append] at h
    rcases List.mem_append.mp h with h | h
    · exact (hd.below d h).trans hle
    · exact he.below d (List.mem_cons_of_mem _ h)

theorem accounted_none (s : EraseState) :
    Accounted blockSize total cb 0 0 s (s, none) :=
  ⟨[], reported_same blockSize total cb s s (counts_refl s), le_rfl, fun _ => ⟨rfl, rfl⟩⟩

theorem accounted_failed (bytes count : ℕ) (s t : EraseState) (e : Failure)
    (h : SameCounts s t) : Accounted blockSize total cb bytes count s (t, some e) := by
  refine ⟨[], reported_same blockSize total cb s t h, ?_, fun hnone => by simp at hnone⟩
  rw [h.bytesWritten]
  exact Nat.le_add_right _ _

/-- A part that was counted in full and what comes after it. -/
theorem accounted_trans (m n b d : ℕ) (s t : EraseState) (out : EraseState × Option Failure)
    (ds : List ℕ) (hd : Reported blockSize total cb s t ds) (hlen : ds.length = b)
    (ht : t.bytesWritten = s.bytesWritten+m) (h : Accounted blockSize total cb n d t out) :
    Accounted blockSize total cb (m+n) (b+d) s out := by
  obtain ⟨es, he, hle, hdone⟩ := h
  refine ⟨ds++es, reported_trans blockSize total cb s t _ ds es hd he, by omega, fun hnone => ?_⟩
  obtain ⟨hend, hcount⟩ := hdone hnone
  rw [List.length_append]
  exact ⟨by omega, by omega⟩

end Reports

section Chunks
variable (pattern : ErasePattern) (random : ℕ → RandBytes) (fillText : Text)
  (write : ℕ → ℕ → Bytes → EraseState → EraseState × Option Failure) (cb : Bool)
  (size blockSize total pass : ℕ) (taken : ℕ → ℕ → ℕ → ℕ)

/-- The writes of the chunks, by what they take of a length at a position. -/
def Delivers : Prop := ∀ k start buf s, Filled pattern buf →
  Takes pattern pass start buf (taken k start buf.length) s (write k start buf s)

variable (hwrite : Delivers pattern write pass taken)
include hwrite

theorem eraseChunks_trace (fuel k remaining : ℕ) (s : EraseState) (hb : 0 < blockSize)
    (hr : remaining ≤ size) (hf : remaining ≤ fuel) :
    let out := eraseChunks pattern random fillText write cb size blockSize total fuel k remaining s
    ∃ ws stop, Advances pattern pass (size-remaining) stop s out.1 ws ∧ stop ≤ size ∧
      (out.2 = none ↔ stop = size) ∧ out.1.passesCompleted = s.passesCompleted := by
  induction fuel generalizing k remaining s with
  | zero =>
    obtain rfl := Nat.le_zero.mp hf
    exact ⟨[], size, advances_refl pattern pass size s, le_rfl, iff_of_true rfl rfl, rfl⟩
  | succ fuel ih =>
    dsimp only
    by_cases h0 : remaining = 0
    · rw [h0, eraseChunks_end]
      exact ⟨[], size, advances_refl pattern pass size s, le_rfl, iff_of_true rfl rfl, rfl⟩
    rcases eraseChunks_cases pattern random fillText write cb size blockSize total fuel k remaining
      s h0 with ⟨e, _, hout⟩ | ⟨buf, hfill, hwritten⟩
    · rw [hout]
      exact ⟨[], size-remaining, advances_refl pattern pass _ s, Nat.sub_le _ _,
        iff_of_false (by simp) (by omega), rfl⟩
    obtain ⟨hlen, hfilled⟩ := fill_ok _ _ _ _ hfill
    obtain ⟨hle, ⟨vs, hv⟩, hcounts, hcomplete⟩ := hwrite k (size-remaining) buf s hfilled
    rcases hwritten with ⟨s', e, hw, hout⟩ | ⟨s', hw, hout⟩
    · rw [hw] at hv hcounts hcomplete
      rw [hout]
      have hpart : taken k (size-remaining) buf.length ≠ buf.length :=
        fun hall => by simpa using hcomplete.mpr hall
      exact ⟨vs, _, hv, by omega, iff_of_false (by simp) (by omega), hcounts.passesCompleted⟩
    · rw [hw] at hv hcounts hcomplete
      rw [hout]
      have hall := hcomplete.mp rfl
      have hstop : size-remaining+buf.length = size-(remaining-min remaining blockSize) := by
        omega
      rw [hall, hstop] at hv
      obtain ⟨ws, stop, hrest, hws⟩ := ih (k+1) (remaining-min remaining blockSize)
        (s'.account (min remaining blockSize) total cb) (by omega) (by omega)
      have hacc : Advances pattern pass (size-remaining)
          (size-(remaining-min remaining blockSize)) s
          (s'.account (min remaining blockSize) total cb) vs := ⟨hv.extends_, hv.filled, hv.tiled⟩
      exact ⟨vs++ws, stop, advances_trans pattern pass _ s _ stop _ _ vs ws hacc hrest, hws.1,
        hws.2.1, hws.2.2.trans hcounts.passesCompleted⟩

theorem eraseChunks_accounted (fuel k remaining : ℕ) (s : EraseState) (hb : 0 < blockSize)
    (hf : remaining ≤ fuel) (hbytes : s.bytesWritten+remaining < 2^64) :
    Accounted blockSize total cb remaining (blockCount remaining blockSize) s
      (eraseChunks pattern random fillText write cb size blockSize total fuel k remaining s) := by
  induction fuel generalizing k remaining s with
  | zero =>
    obtain rfl := Nat.le_zero.mp hf
    rw [blockCount_zero]
    exact accounted_none blockSize total cb s
  | succ fuel ih =>
    by_cases h0 : remaining = 0
    · rw [h0, eraseChunks_end, blockCount_zero]
      exact accounted_none blockSize total cb s
    rcases eraseChunks_cases pattern random fillText write cb size blockSize total fuel k remaining
      s h0 with ⟨e, _, hout⟩ | ⟨buf, hfill, hwritten⟩
    · rw [hout]
      exact accounted_failed blockSize total cb _ _ s s _ (counts_refl s)
    have hcounts := (hwrite k (size-remaining) buf s (fill_ok _ _ _ _ hfill).2).counts
    rcases hwritten with ⟨s', e, hw, hout⟩ | ⟨s', hw, hout⟩
    · rw [hw] at hcounts
      rw [hout]
      exact accounted_failed blockSize total cb _ _ s s' e hcounts
    · rw [hw] at hcounts
      rw [hout]
      have hcount := blockCount_rest remaining blockSize (by omega) hb
      have hpos : 0 < min remaining blockSize := by omega
      have hsplit : min remaining blockSize+(remaining-min remaining blockSize) = remaining := by
        omega
      have hle : min remaining blockSize ≤ blockSize := Nat.min_le_right _ _
      generalize min remaining blockSize = chunk at hcount hpos hsplit hle ⊢
      have hsame : s'.bytesWritten = s.bytesWritten := hcounts.bytesWritten
      have hreport := reported_trans blockSize total cb s s' _ _ _
        (reported_same blockSize total cb s s' hcounts)
        (reported_account blockSize total cb s' chunk hpos hle (by omega))
      have hacc : (s'.account chunk total cb).bytesWritten = s.bytesWritten+chunk := by
        rw [EraseState.account, hsame]
        exact Nat.mod_eq_of_lt (by omega)
      have htail := accounted_trans blockSize total cb chunk (remaining-chunk) 1 _ s _ _ _
        hreport rfl hacc (ih (k+1) (remaining-chunk) (s'.account chunk total cb) (by omega)
          (by omega))
      rwa [hsplit, Nat.add_comm 1, ← hcount] at htail

end Chunks

/-- A pass, with what has to come before its chunks and the flush after them. -/
def passOf (ready flushed : Bool) (chunks : EraseState → EraseState × Option Failure)
    (notReady notFlushed : Failure) (s : EraseState) : EraseState × Option Failure :=
  if ready then
    match chunks s with
    | (s', some e) => (s', some e)
    | (s', none) => if flushed then (s'.passDone, none) else (s', some notFlushed)
  else (s, some notReady)

theorem passOf_accounted (ready flushed : Bool)
    (chunks : EraseState → EraseState × Option Failure) (notReady notFlushed : Failure)
    (s : EraseState) (blockSize total : ℕ) (cb : Bool) (bytes count : ℕ)
    (h : Accounted blockSize total cb bytes count s (chunks s)) :
    Accounted blockSize total cb bytes count s
      (passOf ready flushed chunks notReady notFlushed s) := by
  rw [passOf]
  cases ready with
  | false => exact accounted_failed blockSize total cb _ _ s s _ (counts_refl s)
  | true =>
    rw [if_pos rfl]
    rcases hchunks : chunks s with ⟨s', _ | e⟩
    · rw [hchunks] at h
      obtain ⟨dones, hreport, hle, hdone⟩ := h
      cases flushed with
      | false => exact ⟨dones, hreport, hle, fun hnone => by simp at hnone⟩
      | true =>
        exact ⟨dones, ⟨hreport.progress, hreport.grows, hreport.last, hreport.below⟩, hle, hdone⟩
    · rwa [hchunks] at h

section Runs

/-- The pieces of a pass tile the target, and its flush succeeds. -/
def WholePass (size : ℕ) (flushed : ℕ → Bool) (pass : ℕ) (pieces : List (Piece UInt8)) : Prop :=
  Tiles 0 pieces size ∧ flushed pass = true

instance (size : ℕ) (flushed : ℕ → Bool) (pass : ℕ) (pieces : List (Piece UInt8)) :
    Decidable (WholePass size flushed pass pieces) :=
  inferInstanceAs (Decidable (_ ∧ _))

/-- What a pass does: it goes through exactly when it is whole, and is counted then. -/
structure PassRun (pattern : ErasePattern) (size : ℕ) (flushed : ℕ → Bool) (pass : ℕ)
    (s : EraseState) (out : EraseState × Option Failure) (pieces : List (Piece UInt8)) : Prop where
  advances : ∃ stop, Advances pattern pass 0 stop s out.1 pieces
  whole : out.2 = none ↔ WholePass size flushed pass pieces
  counted : out.1.passesCompleted = s.passesCompleted+(if out.2 = none then 1 else 0)

theorem passOf_run (pattern : ErasePattern) (size : ℕ) (flushed : ℕ → Bool) (pass : ℕ)
    (ready : Bool) (chunks : EraseState → EraseState × Option Failure)
    (notReady notFlushed : Failure) (s : EraseState) (hpos : 0 < size)
    (h : ∃ ws stop, Advances pattern pass 0 stop s (chunks s).1 ws ∧
      ((chunks s).2 = none ↔ stop = size) ∧
      (chunks s).1.passesCompleted = s.passesCompleted) :
    ∃ pieces, PassRun pattern size flushed pass s
      (passOf ready (flushed pass) chunks notReady notFlushed s) pieces := by
  rw [passOf]
  cases ready with
  | false =>
    refine ⟨[], ⟨0, advances_refl pattern pass 0 s⟩, iff_of_false (by simp) (fun hw => ?_), rfl⟩
    exact absurd hw.1 (Nat.ne_of_lt hpos)
  | true =>
    obtain ⟨ws, stop, hadv, hstop, hcounted⟩ := h
    have htiles : Tiles 0 ws size ↔ stop = size := by
      constructor
      · exact fun ht => tiles_unique ws 0 stop size hadv.tiled ht
      · rintro rfl
        exact hadv.tiled
    rw [if_pos rfl]
    rcases hchunks : chunks s with ⟨s', _ | e⟩
    · rw [hchunks] at hadv hstop hcounted
      have hfull := htiles.mpr (hstop.mp rfl)
      dsimp only
      cases hflushed : flushed pass with
      | false =>
        refine ⟨ws, ⟨stop, hadv⟩, iff_of_false (by simp) (fun hw => ?_), hcounted⟩
        exact absurd (hw.2.symm.trans hflushed) (by decide)
      | true =>
        exact ⟨ws, ⟨stop, hadv.extends_, hadv.filled, hadv.tiled⟩,
          iff_of_true rfl ⟨hfull, hflushed⟩, congrArg (·+1) hcounted⟩
    · rw [hchunks] at hadv hstop hcounted
      refine ⟨ws, ⟨stop, hadv⟩, iff_of_false (by simp) (fun hw => ?_), hcounted⟩
      simpa using hstop.mpr (htiles.mp hw.1)

structure PassesRun (pattern : ErasePattern) (size : ℕ) (flushed : ℕ → Bool) (passes : List ℕ)
    (s t : EraseState) (pieces : ℕ → List (Piece UInt8)) : Prop where
  extends_ : Extends s t (passes.flatMap (fun p => (pieces p).map (Prod.mk p)))
  filled : ∀ p ∈ passes, ∀ w ∈ pieces p, Filled pattern w.data
  tiled : ∀ p ∈ passes, ∃ stop, Tiles 0 (pieces p) stop
  counted : t.passesCompleted =
    s.passesCompleted+(passes.filter (fun p => WholePass size flushed p (pieces p))).length

variable (pattern : ErasePattern) (size : ℕ) (flushed : ℕ → Bool)

theorem passes_unreached (hpos : 0 < size) (passes : List ℕ) (s : EraseState) :
    PassesRun pattern size flushed passes s s (fun _ => []) where
  extends_ := by
    have hnil : passes.flatMap (fun p => ([] : List (Piece UInt8)).map (Prod.mk p)) = [] :=
      List.flatMap_eq_nil_iff.mpr fun _ _ => rfl
    rw [hnil]
    exact extends_refl s
  filled := by simp
  tiled := fun _ _ => ⟨0, rfl⟩
  counted := by
    have hnone : passes.filter (fun p => WholePass size flushed p []) = [] := by
      rw [List.filter_eq_nil_iff]
      intro p _ h
      exact absurd (of_decide_eq_true h).1 (Nat.ne_of_lt hpos)
    rw [hnone]
    rfl

theorem passes_agree (passes : List ℕ) (s t : EraseState) (pieces pieces' : ℕ → List (Piece UInt8))
    (h : PassesRun pattern size flushed passes s t pieces)
    (hsame : ∀ p ∈ passes, pieces' p = pieces p) :
    PassesRun pattern size flushed passes s t pieces' where
  extends_ := by
    rw [List.flatMap_congr fun p hp => by rw [hsame p hp]]
    exact h.extends_
  filled := fun p hp => by
    rw [hsame p hp]
    exact h.filled p hp
  tiled := fun p hp => by
    rw [hsame p hp]
    exact h.tiled p hp
  counted := by
    rw [List.filter_congr fun p hp => by rw [hsame p hp]]
    exact h.counted

theorem passes_cons (pass : ℕ) (rest : List ℕ) (s t : EraseState)
    (out : EraseState × Option Failure) (pieces : ℕ → List (Piece UInt8))
    (hpass : PassRun pattern size flushed pass s out (pieces pass))
    (hrest : PassesRun pattern size flushed rest out.1 t pieces) :
    PassesRun pattern size flushed (pass::rest) s t pieces := by
  obtain ⟨⟨stop, hadv⟩, hwhole, hcounted⟩ := hpass
  refine ⟨?_, List.forall_mem_cons.mpr ⟨hadv.filled, hrest.filled⟩,
    List.forall_mem_cons.mpr ⟨⟨stop, hadv.tiled⟩, hrest.tiled⟩, ?_⟩
  · rw [List.flatMap_cons]
    exact extends_trans s out.1 t _ _ hadv.extends_ hrest.extends_
  · rw [hrest.counted, hcounted, List.filter_cons]
    by_cases h : WholePass size flushed pass (pieces pass)
    · rw [if_pos (hwhole.mpr h), if_pos (decide_eq_true h), List.length_cons]
      omega
    · rw [if_neg (fun hnone => h (hwhole.mp hnone)), if_neg (by simpa using h)]
      omega

/-- A last pass that tiles the target leaves the byte of a constant pattern. -/
theorem passes_constant (earlier : List ℕ) (last : ℕ) (s t : EraseState)
    (pieces : ℕ → List (Piece UInt8))
    (h : PassesRun pattern size flushed (earlier++[last]) s t pieces)
    (hlast : Tiles 0 (pieces last) size) (b : UInt8) (hb : b ∈ patternByte pattern) :
    ∀ i < size, t.content[i]? = some b := by
  have hsplit : ((earlier++[last]).flatMap (fun p => (pieces p).map (Prod.mk p))).map Prod.snd =
      earlier.flatMap pieces++pieces last := by
    rw [List.map_flatMap, List.flatMap_append, List.flatMap_singleton]
    simp [Function.comp_def]
  have hdata : ∀ w ∈ pieces last, ∀ x ∈ w.data, x = b :=
    fun w hw => h.filled last (by simp) w hw b hb
  rw [h.extends_.2, hsplit, replay_append]
  exact tiles_replay (pieces last) _ 0 size b hlast (Nat.zero_le _)
    (fun i hi => absurd hi (Nat.not_lt_zero i)) hdata

/-- A loop over passes goes through exactly when all of them are whole. -/
theorem runPasses_trace (step : ℕ → EraseState → EraseState × Option Failure) (hpos : 0 < size)
    (hstep : ∀ pass s, ∃ pieces, PassRun pattern size flushed pass s (step pass s) pieces)
    (passes : List ℕ) (hdistinct : passes.Nodup) (s : EraseState) :
    ∃ pieces, PassesRun pattern size flushed passes s (runPasses step passes s).1 pieces ∧
      ((runPasses step passes s).2 = none ↔ ∀ p ∈ passes, WholePass size flushed p (pieces p)) := by
  induction passes generalizing s with
  | nil => exact ⟨_, passes_unreached pattern size flushed hpos [] s, iff_of_true rfl (by simp)⟩
  | cons pass rest ih =>
    obtain ⟨hpass, hrest⟩ := List.nodup_cons.mp hdistinct
    obtain ⟨vs, hthis⟩ := hstep pass s
    -- The pieces of the others with those of this pass.
    have hother : ∀ (pieces : ℕ → List (Piece UInt8)), ∀ p ∈ rest,
        Function.update pieces pass vs p = pieces p := by
      intro pieces p hp
      exact Function.update_of_ne (ne_of_mem_of_not_mem hp hpass) vs pieces
    have hown : ∀ pieces : ℕ → List (Piece UInt8), Function.update pieces pass vs pass = vs :=
      fun pieces => Function.update_self pass vs pieces
    have hcons : ∀ t pieces, PassesRun pattern size flushed rest (step pass s).1 t pieces →
        PassesRun pattern size flushed (pass::rest) s t (Function.update pieces pass vs) := by
      intro t pieces h
      refine passes_cons pattern size flushed pass rest s t (step pass s) _ ?_
        (passes_agree pattern size flushed rest _ t pieces _ h (hother pieces))
      rw [hown]
      exact hthis
    have hwhole := hthis.whole
    rw [runPasses]
    rcases hs : step pass s with ⟨s', _ | e⟩
    · rw [hs] at hcons hwhole
      obtain ⟨pieces, hrun, hall⟩ := ih hrest s'
      refine ⟨_, hcons _ pieces hrun, ?_⟩
      rw [List.forall_mem_cons, hown, and_iff_right (hwhole.mp rfl)]
      refine hall.trans (forall₂_congr fun p hp => ?_)
      rw [hother pieces p hp]
    · rw [hs] at hcons hwhole
      refine ⟨_, hcons _ _ (passes_unreached pattern size flushed hpos rest s'), ?_⟩
      rw [List.forall_mem_cons, hown]
      exact iff_of_false (by simp) (fun h => by simpa using hwhole.mpr h.1)

theorem runPasses_accounted (step : ℕ → EraseState → EraseState × Option Failure)
    (blockSize total : ℕ) (cb : Bool) (count : ℕ)
    (hstep : ∀ pass s, s.bytesWritten+size < 2^64 →
      Accounted blockSize total cb size count s (step pass s))
    (passes : List ℕ) (s : EraseState) (hbytes : s.bytesWritten+passes.length*size < 2^64) :
    Accounted blockSize total cb (passes.length*size) (passes.length*count) s
      (runPasses step passes s) := by
  induction passes generalizing s with
  | nil =>
    rw [List.length_nil, Nat.zero_mul, Nat.zero_mul]
    exact accounted_none blockSize total cb s
  | cons pass rest ih =>
    rw [List.length_cons, Nat.add_mul, Nat.one_mul, Nat.add_comm (_*size)] at hbytes
    obtain ⟨dones, hreport, hle, hdone⟩ := hstep pass s (by omega)
    rw [runPasses, List.length_cons, Nat.add_mul, Nat.one_mul, Nat.add_comm (_*size), Nat.add_mul,
      Nat.one_mul, Nat.add_comm (_*count)]
    rcases hs : step pass s with ⟨s', _ | e⟩
    · rw [hs] at hreport hdone
      obtain ⟨hend, hcount⟩ := hdone rfl
      exact accounted_trans blockSize total cb size _ count _ s s' _ dones hreport hcount hend
        (ih s' (by dsimp only at hend; omega))
    · rw [hs] at hreport hle
      exact ⟨dones, hreport, by dsimp only at hle ⊢; omega, fun hnone => by simp at hnone⟩

end Runs

end EraseCure.PassTraces
