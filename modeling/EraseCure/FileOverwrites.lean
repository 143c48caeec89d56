import EraseCure.FileEraser

/-!
# What erasing a file overwrites

The chunks of a pass lie between the positions that its writes reach. A run
that succeeds has written every chunk of every pass, with pattern bytes where
the pattern is constant or random bytes were drawn for the chunk; without a
pass it has written nothing.
-/

set_option autoImplicit false

namespace EraseCure.FileOverwrites
open EraseCure.CText EraseCure.Devices EraseCure.FileSystems
open EraseCure.ByteRanges EraseCure.ErasePasses EraseCure.FileVerify
open EraseCure.FileEraser

/-- The position of the file before chunk `k` of a pass. -/
def filePosition (io : FileEraseIo) (size pass : ℕ) : ℕ → ℕ
  | 0 => 0
  | k+1 => filePosition io size pass k+
      min ((io.write pass k).getD 0) (toWrite (size-filePosition io size pass k))

def InChunk (io : FileEraseIo) (size pass k i : ℕ) : Prop :=
  filePosition io size pass k ≤ i ∧ i < filePosition io size pass (k+1)

/-- The data consists of bytes of the pattern; random bytes are those drawn
for the chunk. -/
def PatternData : ErasePattern → RandBytes → Bytes → Prop
  | .zero, _, data => ∀ x ∈ data, x = 0x00
  | .one, _, data => ∀ x ∈ data, x = 0xFF
  | .random, rand, data => ∃ bytes ∈ rand, data = (List.range data.length).map bytes
  | .other _ _, _, _ => False

def Generates : ErasePattern → RandBytes → Prop
  | .zero, _ | .one, _ => True
  | .random, rand => rand.isSome
  | .other _ _, _ => False

def Buffered (pattern : ErasePattern) (buffer : Bytes) : Prop :=
  buffer.length = chunkSize ∧ Filled pattern buffer

theorem toWrite_le (bytesLeft : ℕ) :
    toWrite bytesLeft ≤ bytesLeft ∧ toWrite bytesLeft ≤ chunkSize := by
  rw [toWrite]
  split <;> omega

theorem toWrite_pos (bytesLeft : ℕ) (h : 0 < bytesLeft) : 0 < toWrite bytesLeft := by
  rw [toWrite, chunkSize]
  split <;> omega

theorem startBuffer_buffered (pattern : ErasePattern) (buffer : Bytes)
    (h : buffer.length = chunkSize) : Buffered pattern (startBuffer pattern buffer) := by
  cases pattern with
  | zero | one => simp [Buffered, startBuffer, Filled, patternByte]
  | random | other => exact ⟨h, by simp [Filled, patternByte]⟩

theorem drawBuffer_buffered (pattern : ErasePattern) (rand : RandBytes) (len : ℕ)
    (buffer : Bytes) (hl : len ≤ chunkSize) (h : Buffered pattern buffer) :
    Buffered pattern (drawBuffer pattern rand len buffer) := by
  cases pattern with
  | zero | one | other => exact h
  | random =>
    cases rand with
    | none => exact h
    | some bytes =>
      refine ⟨?_, by simp [Filled, patternByte]⟩
      simp only [drawBuffer, List.length_append, List.length_map, List.length_range,
        List.length_drop, h.1]
      omega

theorem drawBuffer_pattern (pattern : ErasePattern) (rand : RandBytes) (len n : ℕ)
    (buffer : Bytes) (hn : n ≤ len) (h : Buffered pattern buffer) :
    PatternData pattern rand ((drawBuffer pattern rand len buffer).take n) ↔
      Generates pattern rand := by
  cases pattern with
  | zero | one =>
    exact iff_of_true (fun x hx => h.2 _ rfl x (List.mem_of_mem_take hx)) trivial
  | other code hcode => exact Iff.rfl
  | random =>
    cases rand with
    | none => simp [PatternData, Generates]
    | some bytes =>
      refine iff_of_true ⟨bytes, rfl, ?_⟩ rfl
      have htake : ((List.range len).map bytes++buffer.drop len).take n =
          (List.range n).map bytes := by
        rw [List.take_append_of_le_length (by simpa using hn), ← List.map_take, List.take_range,
          Nat.min_eq_left hn]
      rw [drawBuffer, htake, List.length_map, List.length_range]

section Chunks
variable (io : FileEraseIo) (pattern : ErasePattern) (size : ℕ)

theorem position_step (pass k n : ℕ) (h : io.write pass k = some n) :
    filePosition io size pass (k+1) = filePosition io size pass k+
      min n (toWrite (size-filePosition io size pass k)) := by
  rw [filePosition, h, Option.getD_some]

theorem position_mono (pass j k : ℕ) (h : j ≤ k) :
    filePosition io size pass j ≤ filePosition io size pass k :=
  monotone_nat_of_le_succ (fun _ => Nat.le_add_right _ _) h

theorem position_le (pass k : ℕ) : filePosition io size pass k ≤ size := by
  induction k with
  | zero => exact Nat.zero_le size
  | succ k ih =>
    have := (toWrite_le (size-filePosition io size pass k)).1
    rw [filePosition]
    omega

theorem position_inChunk (pass last i : ℕ) (h : i < filePosition io size pass last) :
    ∃ k, InChunk io size pass k i := by
  induction last with
  | zero => exact absurd h (Nat.not_lt_zero i)
  | succ last ih =>
    by_cases hi : i < filePosition io size pass last
    · exact ih hi
    · exact ⟨last, Nat.le_of_not_lt hi, h⟩

structure OfChunk (pass : ℕ) (w : FileWrite) : Prop where
  pass_eq : w.pass = pass
  start_eq : w.piece.start = filePosition io size pass w.index
  stop_eq : w.piece.stop = filePosition io size pass (w.index+1)
  pattern_iff : PatternData pattern (io.random pass w.index) w.piece.data ↔
    Generates pattern (io.random pass w.index)

theorem chunk_ofChunk (pass k bytesLeft n : ℕ) (buffer : Bytes) (hl : bytesLeft ≤ size)
    (hk : filePosition io size pass k = size-bytesLeft) (hw : io.write pass k = some n)
    (hb : Buffered pattern buffer) :
    OfChunk io pattern size pass ⟨pass, k, ⟨size-bytesLeft,
      (drawBuffer pattern (io.random pass k) (toWrite bytesLeft) buffer).take
        (min n (toWrite bytesLeft))⟩⟩ where
  pass_eq := rfl
  start_eq := hk.symm
  stop_eq := by
    have hleft : size-(size-bytesLeft) = bytesLeft := by omega
    have hlen := (drawBuffer_buffered pattern (io.random pass k) (toWrite bytesLeft) buffer
      (toWrite_le bytesLeft).2 hb).1
    have hle := (toWrite_le bytesLeft).2
    rw [position_step io size pass k n hw, hk, hleft]
    simp only [Piece.stop, List.length_take, hlen]
    omega
  pattern_iff := drawBuffer_pattern pattern _ _ _ buffer (Nat.min_le_right _ _) hb

/-- What a pass that goes through has done from chunk `k` on: it has written
the chunks before the last position, which is the end of the file. -/
structure Chunked (pass k last : ℕ) (s s' : FileEraseState) (ws : List FileWrite) : Prop where
  buffered : Buffered pattern s'.buffer
  reached : filePosition io size pass last = size
  writes_eq : s'.writes = s.writes++ws
  ofChunk : ∀ w ∈ ws, OfChunk io pattern size pass w
  every : ∀ j, k ≤ j → j < last → ∃ w ∈ ws, w.index = j

theorem chunked_end (pass k : ℕ) (s : FileEraseState) (hb : Buffered pattern s.buffer)
    (hk : filePosition io size pass k = size) : Chunked io pattern size pass k k s s [] where
  buffered := hb
  reached := hk
  writes_eq := by simp
  ofChunk := by simp
  every := fun j hj hlt => by omega

theorem chunked_cons (pass k last start n : ℕ) (buffer : Bytes) (s s' : FileEraseState)
    (ws : List FileWrite)
    (hw : OfChunk io pattern size pass ⟨pass, k, ⟨start, buffer.take n⟩⟩)
    (h : Chunked io pattern size pass (k+1) last (s.put pass k start buffer n) s' ws) :
    Chunked io pattern size pass k last s s' (⟨pass, k, ⟨start, buffer.take n⟩⟩::ws) where
  buffered := h.buffered
  reached := h.reached
  writes_eq := by rw [h.writes_eq, FileEraseState.put, List.append_assoc, List.singleton_append]
  ofChunk := List.forall_mem_cons.mpr ⟨hw, h.ofChunk⟩
  every := fun j hj hlt => by
    rcases Nat.eq_or_lt_of_le hj with rfl | hj
    · exact ⟨_, List.mem_cons_self, rfl⟩
    · obtain ⟨w, hw, hwj⟩ := h.every j hj hlt
      exact ⟨w, by simp [hw], hwj⟩

theorem fileEraseChunks_spec (pass fuel k bytesLeft : ℕ) (s s' : FileEraseState)
    (hl : bytesLeft ≤ size) (hk : filePosition io size pass k = size-bytesLeft)
    (hb : Buffered pattern s.buffer)
    (h : fileEraseChunks io pattern size pass fuel k bytesLeft s = some (s', true)) :
    ∃ last ws, Chunked io pattern size pass k last s s' ws := by
  revert hl hk hb
  refine fileEraseChunks_rule io pattern size pass s' true (fun k bytesLeft s => bytesLeft ≤ size →
    filePosition io size pass k = size-bytesLeft → Buffered pattern s.buffer →
    ∃ last ws, Chunked io pattern size pass k last s s' ws) ?_ ?_ ?_ fuel k bytesLeft s h
  · intro k _ _ hk hb
    exact ⟨k, [], chunked_end io pattern size pass k s' hb hk⟩
  · intro k bytesLeft s _ _ hdone
    contradiction
  · intro k bytesLeft s n h0 hw ih hl hk hb
    have hchunk := chunk_ofChunk io pattern size pass k bytesLeft n s.buffer hl hk hw hb
    have hle := toWrite_le bytesLeft
    have hnext : filePosition io size pass (k+1) =
        size-(bytesLeft-min n (toWrite bytesLeft)) := by
      have hleft : size-(size-bytesLeft) = bytesLeft := by omega
      rw [position_step io size pass k n hw, hk, hleft]
      omega
    obtain ⟨last, ws, hrest⟩ := ih (by omega) hnext
      (drawBuffer_buffered pattern (io.random pass k) _ s.buffer hle.2 hb)
    exact ⟨last, _, chunked_cons io pattern size pass k last _ _ _ s s' ws hchunk hrest⟩

/-- What a run that goes through has done: it has written every chunk of each
pass up to the end of the file. -/
structure Passed (passes : List ℕ) (s s' : FileEraseState) (ws : List FileWrite) : Prop where
  buffered : s'.buffer.length = chunkSize
  writes_eq : s'.writes = s.writes++ws
  ofChunk : ∀ w ∈ ws, w.pass ∈ passes ∧ OfChunk io pattern size w.pass w
  every : ∀ pass ∈ passes, ∃ last, filePosition io size pass last = size ∧
    ∀ j < last, ∃ w ∈ ws, w.pass = pass ∧ w.index = j

theorem fileErasePasses_spec (fuel : ℕ) (passes : List ℕ) (s s' : FileEraseState)
    (hb : s.buffer.length = chunkSize)
    (h : fileErasePasses io pattern size fuel passes s = some (s', true)) :
    ∃ ws, Passed io pattern size passes s s' ws := by
  induction passes generalizing s with
  | nil =>
    cases h
    exact ⟨[], hb, by simp, by simp, by simp⟩
  | cons pass rest ih =>
    rw [fileErasePasses] at h
    rcases hc : fileEraseChunks io pattern size pass fuel 0 size
      { s with buffer := startBuffer pattern s.buffer } with _ | ⟨t, _ | _⟩
    · simp [hc] at h
    · simp [hc] at h
    · rw [hc] at h
      obtain ⟨last, vs, hchunks⟩ := fileEraseChunks_spec io pattern size pass fuel 0 size _ t
        (Nat.le_refl _) (Nat.sub_self size).symm (startBuffer_buffered pattern s.buffer hb) hc
      obtain ⟨ws, hrest⟩ := ih { t with passesCompleted := t.passesCompleted+1 }
        hchunks.buffered.1 h
      refine ⟨vs++ws, hrest.buffered, ?_, fun w hw => ?_, fun p hp => ?_⟩
      · rw [hrest.writes_eq, ← List.append_assoc]
        exact congrArg (·++ws) hchunks.writes_eq
      · rcases List.mem_append.mp hw with hw | hw
        · have hof := hchunks.ofChunk w hw
          rw [hof.pass_eq]
          exact ⟨by simp, hof⟩
        · exact ⟨by simp [(hrest.ofChunk w hw).1], (hrest.ofChunk w hw).2⟩
      · rcases List.mem_cons.mp hp with rfl | hp
        · refine ⟨last, hchunks.reached, fun j hj => ?_⟩
          obtain ⟨w, hw, hwj⟩ := hchunks.every j (Nat.zero_le j) hj
          exact ⟨w, by simp [hw], (hchunks.ofChunk w hw).pass_eq, hwj⟩
        · obtain ⟨last, hlast, hevery⟩ := hrest.every p hp
          refine ⟨last, hlast, fun j hj => ?_⟩
          obtain ⟨w, hw, hwp, hwj⟩ := hevery j hj
          exact ⟨w, by simp [hw], hwp, hwj⟩

/-- A byte gets pattern bytes exactly in the chunks that it lies in and that
the pattern has bytes for. -/
theorem passed_pattern (passes : List ℕ) (s s' : FileEraseState) (ws : List FileWrite)
    (h : Passed io pattern size passes s s' ws) (i : ℕ) (hi : i < size) :
    (∃ w ∈ ws, w.piece.Covers i ∧
        PatternData pattern (io.random w.pass w.index) w.piece.data) ↔
      ∃ pass ∈ passes, ∃ k, InChunk io size pass k i ∧
        Generates pattern (io.random pass k) := by
  constructor
  · rintro ⟨w, hw, ⟨hstart, hstop⟩, hdata⟩
    obtain ⟨hpass, hof⟩ := h.ofChunk w hw
    rw [hof.start_eq] at hstart
    rw [hof.stop_eq] at hstop
    exact ⟨w.pass, hpass, w.index, ⟨hstart, hstop⟩, hof.pattern_iff.mp hdata⟩
  · rintro ⟨pass, hpass, k, ⟨hstart, hstop⟩, hgen⟩
    obtain ⟨last, hlast, hevery⟩ := h.every pass hpass
    have hk : k < last := by
      by_contra hk
      have := position_mono io size pass last k (Nat.le_of_not_lt hk)
      omega
    obtain ⟨w, hw, rfl, rfl⟩ := hevery k hk
    obtain ⟨_, hof⟩ := h.ofChunk w hw
    exact ⟨w, hw, ⟨by rwa [hof.start_eq], by rwa [hof.stop_eq]⟩, hof.pattern_iff.mpr hgen⟩

end Chunks

/-- Every byte of the content was overwritten with bytes of the pattern
before the file was removed or the call returned. -/
def OverwrittenFirst (io : FileEraseIo) (pattern : ErasePattern) (content : Bytes)
    (run : FileEraseRun) : Prop :=
  ∀ i < content.length, ∃ w, FileEvent.wrote w ∈ run.events.takeWhile FileEvent.isWrite ∧
    w.piece.Covers i ∧ PatternData pattern (io.random w.pass w.index) w.piece.data

theorem writes_first (ws : List FileWrite) (removed : Bool) :
    (ws.map FileEvent.wrote++(if removed then [FileEvent.removed] else [])).takeWhile
      FileEvent.isWrite = ws.map FileEvent.wrote := by
  rw [List.takeWhile_append_of_pos (by simp [FileEvent.isWrite])]
  cases removed <;> simp [FileEvent.isWrite]

/-- Writes that accept something need a round for every byte at most. -/
theorem fileEraseChunks_returns (io : FileEraseIo) (pattern : ErasePattern)
    (size pass fuel k bytesLeft : ℕ) (s : FileEraseState) (hf : bytesLeft ≤ fuel)
    (hw : ∀ k n, io.write pass k = some n → 0 < n) :
    (fileEraseChunks io pattern size pass fuel k bytesLeft s).isSome = true := by
  induction fuel generalizing k bytesLeft s with
  | zero =>
    rw [Nat.le_zero.mp hf, fileEraseChunks_end]
    rfl
  | succ fuel ih =>
    by_cases h0 : bytesLeft = 0
    · rw [h0, fileEraseChunks_end]
      rfl
    cases hwrite : io.write pass k with
    | none =>
      rw [fileEraseChunks_failed io pattern size pass fuel k bytesLeft s h0 hwrite]
      rfl
    | some n =>
      rw [fileEraseChunks_written io pattern size pass fuel k bytesLeft s h0 n hwrite]
      have hn := hw k n hwrite
      have hpos := toWrite_pos bytesLeft (by omega)
      exact ih (k+1) _ _ (by omega)

theorem fileErasePasses_returns (io : FileEraseIo) (pattern : ErasePattern) (size : ℕ)
    (passes : List ℕ) (s : FileEraseState)
    (hw : ∀ pass k n, io.write pass k = some n → 0 < n) :
    (fileErasePasses io pattern size size passes s).isSome = true := by
  induction passes generalizing s with
  | nil => rfl
  | cons pass rest ih =>
    rw [fileErasePasses]
    have hchunks := fileEraseChunks_returns io pattern size pass size 0 size
      { s with buffer := startBuffer pattern s.buffer } (Nat.le_refl _) (hw pass)
    obtain ⟨⟨s', done⟩, hs'⟩ := Option.isSome_iff_exists.mp hchunks
    rw [hs']
    cases done with
    | false => rfl
    | true => exact ih _

theorem fileErase_returns (fs : FileSystem) (io : FileEraseIo) (path : Text)
    (opts : FileEraseOptions) (content : Bytes) (hs : fs.lstat path = some (.regular content))
    (hw : ∀ pass k n, io.write pass k = some n → 0 < n) :
    (fileErase content.length fs io path opts).isSome = true := by
  by_cases hstarted : ∃ node content', FileStarted fs io path node content'
  · obtain ⟨node, content', hstarted⟩ := hstarted
    obtain rfl := started_content fs io path node content' content hstarted hs
    obtain ⟨⟨s, done⟩, hpasses⟩ := Option.isSome_iff_exists.mp (fileErasePasses_returns io
      opts.pattern content'.length (List.range opts.passes) (fileEraseStart io content') hw)
    obtain ⟨run, hrun, _⟩ := fileErase_started _ fs io path opts node content' hstarted s done
      hpasses
    exact Option.isSome_iff_exists.mpr ⟨run, hrun⟩
  · obtain ⟨run, hrun, _⟩ := fileErase_refused content.length fs io path opts
      fun node content' h => hstarted ⟨node, content', h⟩
    exact Option.isSome_iff_exists.mpr ⟨run, hrun⟩

/-- A run that succeeds on a regular file has gone through its passes, and
nothing was removed before. -/
theorem fileErase_ok (fuel : ℕ) (fs : FileSystem) (io : FileEraseIo) (path : Text)
    (opts : FileEraseOptions) (run : FileEraseRun) (content : Bytes)
    (hrun : fileErase fuel fs io path opts = some run) (hok : run.result.resultCode = .ok)
    (hs : fs.lstat path = some (.regular content)) :
    ∃ s, fileErasePasses io opts.pattern content.length fuel (List.range opts.passes)
        (fileEraseStart io content) = some (s, true) ∧
      run.events.takeWhile FileEvent.isWrite = s.writes.map FileEvent.wrote := by
  rcases fileErase_cases fuel fs io path opts run hrun with
    ⟨_, hrefused⟩ | ⟨node, content', s, done, hstarted, hpasses, hended⟩
  · exact absurd hok hrefused.fails
  · obtain rfl := started_content fs io path node content' content hstarted hs
    obtain rfl : done = true := hended.ok_iff.mp hok
    refine ⟨s, hpasses, ?_⟩
    rw [hended.events]
    exact writes_first s.writes _

theorem erased_chunks (fuel : ℕ) (fs : FileSystem) (io : FileEraseIo) (path : Text)
    (opts : FileEraseOptions) (run : FileEraseRun) (content : Bytes)
    (hrun : fileErase fuel fs io path opts = some run) (hok : run.result.resultCode = .ok)
    (hs : fs.lstat path = some (.regular content)) :
    (∀ pass < opts.passes, ∀ i < content.length, ∃ k, InChunk io content.length pass k i) ∧
      (OverwrittenFirst io opts.pattern content run ↔
        ∀ i < content.length, ∃ pass < opts.passes, ∃ k, InChunk io content.length pass k i ∧
          Generates opts.pattern (io.random pass k)) := by
  obtain ⟨s, hp, hevents⟩ := fileErase_ok fuel fs io path opts run content hrun hok hs
  obtain ⟨ws, hpassed⟩ := fileErasePasses_spec io opts.pattern content.length fuel
    (List.range opts.passes) (fileEraseStart io content) s (by simp [fileEraseStart]) hp
  have hws : s.writes = ws := hpassed.writes_eq
  refine ⟨fun pass hpass i hi => ?_, forall₂_congr fun i hi => ?_⟩
  · obtain ⟨last, hlast, _⟩ := hpassed.every pass (List.mem_range.mpr hpass)
    exact position_inChunk io content.length pass last i (by omega)
  · have hiff := passed_pattern io opts.pattern content.length _ _ s ws hpassed i hi
    simp only [List.mem_range] at hiff
    rw [← hiff, hevents, hws]
    simp

/-- A run that succeeds has overwritten the content with pattern bytes exactly
when the file is empty, or there is a pass and the pattern is constant, or
random bytes were drawn for some chunk at every position. -/
theorem erased_first_iff (fuel : ℕ) (fs : FileSystem) (io : FileEraseIo) (path : Text)
    (opts : FileEraseOptions) (run : FileEraseRun) (content : Bytes)
    (hrun : fileErase fuel fs io path opts = some run) (hok : run.result.resultCode = .ok)
    (hs : fs.lstat path = some (.regular content)) :
    OverwrittenFirst io opts.pattern content run ↔
      content = [] ∨ 0 < opts.passes ∧ (opts.pattern = .zero ∨ opts.pattern = .one ∨
        opts.pattern = .random ∧ ∀ i < content.length, ∃ pass < opts.passes, ∃ k,
          InChunk io content.length pass k i ∧ (io.random pass k).isSome = true) := by
  obtain ⟨hreach, hiff⟩ := erased_chunks fuel fs io path opts run content hrun hok hs
  rw [hiff]
  constructor
  · intro h
    rcases content.eq_nil_or_concat with rfl | ⟨_, _, hne⟩
    · exact Or.inl rfl
    · have hpos : 0 < content.length := by simp [hne]
      obtain ⟨pass, hpass, k, _, hgen⟩ := h 0 hpos
      refine Or.inr ⟨by omega, ?_⟩
      cases hpat : opts.pattern with
      | zero => exact Or.inl rfl
      | one => exact Or.inr (Or.inl rfl)
      | random =>
        rw [hpat] at h
        exact Or.inr (Or.inr ⟨rfl, h⟩)
      | other code hcode =>
        rw [hpat] at hgen
        exact hgen.elim
  · rintro (rfl | ⟨hpos, hpat⟩) i hi
    · exact absurd hi (Nat.not_lt_zero i)
    · rcases hpat with hpat | hpat | ⟨hpat, hdrawn⟩
      · obtain ⟨k, hk⟩ := hreach 0 hpos i hi
        exact ⟨0, hpos, k, hk, by rw [hpat]; trivial⟩
      · obtain ⟨k, hk⟩ := hreach 0 hpos i hi
        exact ⟨0, hpos, k, hk, by rw [hpat]; trivial⟩
      · obtain ⟨pass, hpass, k, hk, hr⟩ := hdrawn i hi
        exact ⟨pass, hpass, k, hk, by rw [hpat]; exact hr⟩

theorem erased_first_zero : ∃ run,
    fileErase 1 (soleObject "a".toList (.regular [0x41])) FileEraseIo.calm "a".toList
      { fileEraseOptionsInit with pattern := .zero } = some run ∧
    OverwrittenFirst FileEraseIo.calm .zero [0x41] run :=
  ⟨_, rfl, (erased_first_iff 1 (soleObject "a".toList (.regular [0x41])) FileEraseIo.calm
    "a".toList { fileEraseOptionsInit with pattern := .zero } _ [0x41] rfl rfl rfl).mpr
    (Or.inr ⟨by decide, Or.inl rfl⟩)⟩

/-- With no pass the file is removed as it is. -/
theorem removed_unwritten : ∃ run,
    fileErase 1 (soleObject "a".toList (.regular [0x41])) FileEraseIo.calm "a".toList
      { fileEraseOptionsInit with passes := 0 } = some run ∧
    run.result.resultCode = .ok ∧ run.result.fileRemoved = true ∧
    ¬ OverwrittenFirst FileEraseIo.calm .random [0x41] run := by
  refine ⟨_, rfl, rfl, rfl, fun h => ?_⟩
  obtain ⟨w, hw, _⟩ := h 0 (by decide)
  exact absurd hw (by nofun)

end EraseCure.FileOverwrites
