import EraseCure.FileOverwrites

/-!
# Where the passes over a file stop

A call that returns has stopped at a write that fails, or after its last pass.
What it has written until then tiles each pass from the start of the file up to
the position that the pass came to.
-/

set_option autoImplicit false

namespace EraseCure.FilePasses
open EraseCure.Devices EraseCure.FileSystems
open EraseCure.ByteRanges EraseCure.ErasePasses EraseCure.FileVerify
open EraseCure.FileEraser EraseCure.FileOverwrites

def acceptedBytes (writes : List FileWrite) : ℕ :=
  (writes.map (fun w => w.piece.data.length)).sum

section Schedule
variable (io : FileEraseIo) (size : ℕ)

/-- No write of a pass fails before it comes to the end of the file. -/
def FilePassWhole (pass : ℕ) : Prop :=
  ∃ last, filePosition io size pass last = size ∧ ∀ k < last, io.write pass k ≠ none

/-- The writes of a pass before one do not fail and leave something to write. -/
def WritesBefore (pass last : ℕ) : Prop :=
  ∀ k < last, filePosition io size pass k < size ∧ io.write pass k ≠ none

theorem failed_not_whole (pass last : ℕ) (hlt : filePosition io size pass last < size)
    (hfailed : io.write pass last = none) : ¬ FilePassWhole io size pass := by
  rintro ⟨stop, hstop, hall⟩
  by_cases h : last < stop
  · exact hall last h hfailed
  · have := position_mono io size pass stop last (by omega)
    omega

end Schedule

section Chunks
variable (io : FileEraseIo) (pattern : ErasePattern) (size : ℕ)

/-- The chunks of a pass from one on to where the pass stops. -/
structure ChunksRun (pass k last : ℕ) (s s' : FileEraseState) (done : Bool)
    (ws : List FileWrite) : Prop where
  order : k ≤ last
  before : ∀ j, k ≤ j → j < last → filePosition io size pass j < size ∧ io.write pass j ≠ none
  done_iff : done = true ↔ filePosition io size pass last = size
  failed : done = false → io.write pass last = none
  writes_eq : s'.writes = s.writes++ws
  replayed : s'.content = replay s.content (ws.map FileWrite.piece)
  tiled : Tiles (filePosition io size pass k) (ws.map FileWrite.piece)
    (filePosition io size pass last)
  filled : ∀ w ∈ ws, Filled pattern w.piece.data
  buffered : Buffered pattern s'.buffer
  bytes : s'.bytesWritten =
    (s.bytesWritten+(filePosition io size pass last-filePosition io size pass k)) % 2^64
  completed : s'.passesCompleted = s.passesCompleted

theorem chunksRun_stop (pass k : ℕ) (s s' : FileEraseState) (done : Bool)
    (hsame : s' = { s with buffer := s'.buffer }) (hb : Buffered pattern s'.buffer)
    (hs : s.bytesWritten < 2^64) (hdone : done = true ↔ filePosition io size pass k = size)
    (hfailed : done = false → io.write pass k = none) :
    ChunksRun io pattern size pass k k s s' done [] where
  order := le_rfl
  before := fun j hj hlt => by omega
  done_iff := hdone
  failed := hfailed
  writes_eq := by
    rw [hsame]
    exact (List.append_nil _).symm
  replayed := by
    rw [hsame]
    rfl
  tiled := rfl
  filled := by simp
  buffered := hb
  bytes := by
    rw [hsame, Nat.sub_self, Nat.add_zero, Nat.mod_eq_of_lt hs]
  completed := by rw [hsame]

theorem chunksRun_put (pass k last : ℕ) (buffer : Bytes) (n : ℕ) (s s' : FileEraseState)
    (done : Bool) (ws : List FileWrite) (hn : n ≤ buffer.length) (hb : Buffered pattern buffer)
    (hinside : filePosition io size pass k < size) (hwrite : io.write pass k ≠ none)
    (hnext : filePosition io size pass (k+1) = filePosition io size pass k+n)
    (h : ChunksRun io pattern size pass (k+1) last
      (s.put pass k (filePosition io size pass k) buffer n) s' done ws) :
    ChunksRun io pattern size pass k last s s' done
      (⟨pass, k, ⟨filePosition io size pass k, buffer.take n⟩⟩::ws) where
  order := by
    have := h.order
    omega
  before := fun j hj hlt => by
    rcases Nat.eq_or_lt_of_le hj with rfl | hj
    · exact ⟨hinside, hwrite⟩
    · exact h.before j hj hlt
  done_iff := h.done_iff
  failed := h.failed
  writes_eq := by rw [h.writes_eq, FileEraseState.put, List.append_assoc, List.singleton_append]
  replayed := h.replayed
  tiled := by
    have hstop : (⟨filePosition io size pass k, buffer.take n⟩ : Piece UInt8).stop =
        filePosition io size pass (k+1) := by
      rw [Piece.stop, List.length_take, Nat.min_eq_left hn, hnext]
    refine ⟨rfl, ?_⟩
    rw [hstop]
    exact h.tiled
  filled := List.forall_mem_cons.mpr
    ⟨filled_part _ _ _ hb.2 (List.take_subset _ _), h.filled⟩
  buffered := h.buffered
  bytes := by
    have hmono := position_mono io size pass (k+1) last h.order
    have hbytes := h.bytes
    dsimp only [FileEraseState.put] at hbytes
    omega
  completed := h.completed

theorem chunksRun_end (pass k : ℕ) (s : FileEraseState) (hb : Buffered pattern s.buffer)
    (hs : s.bytesWritten < 2^64) (hk : filePosition io size pass k = size) :
    ChunksRun io pattern size pass k k s s true [] :=
  chunksRun_stop io pattern size pass k s s true rfl hb hs (iff_of_true rfl hk) (by simp)

theorem fileEraseChunks_run (pass fuel k bytesLeft : ℕ) (s s' : FileEraseState) (done : Bool)
    (hl : bytesLeft ≤ size) (hk : filePosition io size pass k = size-bytesLeft)
    (hb : Buffered pattern s.buffer) (hs : s.bytesWritten < 2^64)
    (h : fileEraseChunks io pattern size pass fuel k bytesLeft s = some (s', done)) :
    ∃ last ws, ChunksRun io pattern size pass k last s s' done ws := by
  revert hl hk hb hs
  refine fileEraseChunks_rule io pattern size pass s' done (fun k bytesLeft s =>
    bytesLeft ≤ size → filePosition io size pass k = size-bytesLeft →
    Buffered pattern s.buffer → s.bytesWritten < 2^64 →
    ∃ last ws, ChunksRun io pattern size pass k last s s' done ws) ?_ ?_ ?_ fuel k bytesLeft s h
  · rintro k rfl _ hk hb hs
    exact ⟨k, [], chunksRun_end io pattern size pass k s' hb hs hk⟩
  · rintro k bytesLeft s h0 hw rfl rfl hl hk hb hs
    have hdraw := drawBuffer_buffered pattern (io.random pass k) (toWrite bytesLeft) s.buffer
      (toWrite_le bytesLeft).2 hb
    exact ⟨k, [], chunksRun_stop io pattern size pass k s _ false rfl hdraw hs
      (iff_of_false (by decide) (by omega)) (fun _ => hw)⟩
  · intro k bytesLeft s n h0 hw ih hl hk hb hs
    obtain ⟨hle, hchunk⟩ := toWrite_le bytesLeft
    have hdraw := drawBuffer_buffered pattern (io.random pass k) (toWrite bytesLeft) s.buffer
      hchunk hb
    have hleft : size-(size-bytesLeft) = bytesLeft := by omega
    have hnext := position_step io size pass k n hw
    rw [hk, hleft] at hnext
    obtain ⟨last, ws, hrest⟩ := ih (by omega) (by omega) hdraw (Nat.mod_lt _ (by decide))
    rw [← hk] at hrest hnext
    exact ⟨last, _, chunksRun_put io pattern size pass k last _ _ s s' done ws
      (by rw [hdraw.1]; omega) hdraw (by omega) (by simp [hw]) hnext hrest⟩

theorem chunksRun_whole (pass last : ℕ) (s s' : FileEraseState) (done : Bool)
    (ws : List FileWrite) (h : ChunksRun io pattern size pass 0 last s s' done ws) :
    done = true ↔ FilePassWhole io size pass := by
  constructor
  · intro hdone
    exact ⟨last, h.done_iff.mp hdone, fun k hk => (h.before k (Nat.zero_le k) hk).2⟩
  · intro hwhole
    by_contra hdone
    have hne : filePosition io size pass last ≠ size := fun heq => hdone (h.done_iff.mpr heq)
    have hle := position_le io size pass last
    exact failed_not_whole io size pass last (by omega)
      (h.failed (Bool.eq_false_of_not_eq_true hdone)) hwhole

end Chunks

section Passes
variable (io : FileEraseIo) (pattern : ErasePattern) (size : ℕ)

structure FileStopped (first count pass last : ℕ) (done : Bool) : Prop where
  after : first ≤ pass
  earlier : ∀ p, first ≤ p → p < pass → FilePassWhole io size p
  before : WritesBefore io size pass last
  ends : done = true ∧ pass = first+count ∧ last = 0 ∨
    done = false ∧ pass < first+count ∧ filePosition io size pass last < size ∧
      io.write pass last = none

/-- What the passes from one on have written when they stop. -/
structure FilePassesRun (first count : ℕ) (s s' : FileEraseState) (done : Bool)
    (pass last : ℕ) : Prop where
  stopped : FileStopped io size first count pass last done
  accepted : acceptedBytes s'.writes =
    acceptedBytes s.writes+((pass-first)*size+filePosition io size pass last)
  bytes : s'.bytesWritten =
    (s.bytesWritten+((pass-first)*size+filePosition io size pass last)) % 2^64
  completed : s'.passesCompleted = s.passesCompleted+(pass-first)
  kept : s'.content.length = s.content.length
  unwritten : count = 0 → s'.content = s.content
  constant : done = true → 0 < count → ∀ b ∈ patternByte pattern, ∀ i < size,
    s'.content[i]? = some b

theorem passesRun_none (first : ℕ) (s : FileEraseState) (hs : s.bytesWritten < 2^64) :
    FilePassesRun io pattern size first 0 s s true first 0 where
  stopped := ⟨le_rfl, fun p hp hlt => by omega, fun k hk => by omega, Or.inl ⟨rfl, rfl, rfl⟩⟩
  accepted := by rw [Nat.sub_self, Nat.zero_mul, filePosition, Nat.add_zero]
  bytes := by rw [Nat.sub_self, Nat.zero_mul, filePosition, Nat.add_zero, Nat.mod_eq_of_lt hs]
  completed := by rw [Nat.sub_self, Nat.add_zero]
  kept := rfl
  unwritten := fun _ => rfl
  constant := fun _ hpos => absurd hpos (Nat.lt_irrefl 0)

/-- What one pass comes to, by the bytes that it has taken. -/
structure PassTaken (pass last : ℕ) (s t : FileEraseState) (done : Bool) : Prop where
  whole : done = true ↔ FilePassWhole io size pass
  before : WritesBefore io size pass last
  position : done = true ↔ filePosition io size pass last = size
  failed : done = false → io.write pass last = none
  accepted : acceptedBytes t.writes = acceptedBytes s.writes+filePosition io size pass last
  bytes : t.bytesWritten = (s.bytesWritten+filePosition io size pass last) % 2^64
  completed : t.passesCompleted = s.passesCompleted
  kept : t.content.length = s.content.length
  constant : done = true → ∀ b ∈ patternByte pattern, ∀ i < size, t.content[i]? = some b
  buffered : t.buffer.length = chunkSize

theorem chunksRun_taken (pass last : ℕ) (buffer : Bytes) (s t : FileEraseState) (done : Bool)
    (ws : List FileWrite) (hlen : s.content.length = size)
    (h : ChunksRun io pattern size pass 0 last { s with buffer := buffer } t done ws) :
    PassTaken io pattern size pass last s t done where
  whole := chunksRun_whole io pattern size pass last _ t done ws h
  before := fun k hk => h.before k (Nat.zero_le k) hk
  position := h.done_iff
  failed := h.failed
  accepted := by
    have htotal := tiles_length _ _ _ h.tiled
    rw [List.map_map, filePosition, Nat.zero_add] at htotal
    rw [h.writes_eq, acceptedBytes, List.map_append, List.sum_append, ← htotal]
    rfl
  bytes := h.bytes
  completed := h.completed
  kept := by
    rw [h.replayed]
    have hle := position_le io size pass last
    exact replay_length _ _ fun w hw =>
      ((tiles_within _ _ _ h.tiled).2 w hw).trans (hle.trans_eq hlen.symm)
  constant := fun hdone b hb => by
    rw [h.replayed, ← h.done_iff.mp hdone]
    refine tiles_replay _ _ 0 _ b h.tiled (Nat.zero_le _)
      (fun i hi => absurd hi (Nat.not_lt_zero i)) fun w hw => ?_
    obtain ⟨v, hv, rfl⟩ := List.mem_map.mp hw
    exact h.filled v hv b hb
  buffered := h.buffered.1

theorem passesRun_cons (first count : ℕ) (s t s' : FileEraseState) (done : Bool)
    (last pass stop : ℕ) (htaken : PassTaken io pattern size first last s t true)
    (h : FilePassesRun io pattern size (first+1) count
      { t with passesCompleted := t.passesCompleted+1 } s' done pass stop) :
    FilePassesRun io pattern size first (count+1) s s' done pass stop := by
  have hend := htaken.position.mp rfl
  have hafter := h.stopped.after
  have htotal : (pass-first)*size = size+(pass-(first+1))*size := by
    rw [show pass-first = pass-(first+1)+1 by omega, Nat.add_mul, Nat.one_mul, Nat.add_comm]
  have hearlier : ∀ p, first ≤ p → p < pass → FilePassWhole io size p := by
    intro p hp hlt
    rcases Nat.eq_or_lt_of_le hp with rfl | hp
    · exact htaken.whole.mp rfl
    · exact h.stopped.earlier p hp hlt
  refine ⟨⟨by omega, hearlier, h.stopped.before, ?_⟩, ?_, ?_, ?_, h.kept.trans htaken.kept,
    by simp, ?_⟩
  · rcases h.stopped.ends with ⟨hdone, hpass, hstop⟩ | ⟨hdone, hpass, hfailed⟩
    · exact Or.inl ⟨hdone, by omega, hstop⟩
    · exact Or.inr ⟨hdone, by omega, hfailed⟩
  · rw [h.accepted, htotal]
    dsimp only
    rw [htaken.accepted, hend]
    omega
  · rw [h.bytes, htotal]
    dsimp only
    rw [htaken.bytes, hend]
    omega
  · rw [h.completed]
    dsimp only
    rw [htaken.completed]
    omega
  · intro hdone _
    rcases Nat.eq_zero_or_pos count with hcount | hcount
    · rw [h.unwritten hcount]
      exact htaken.constant rfl
    · exact h.constant hdone hcount

theorem fileErasePasses_run (fuel first count : ℕ) (s s' : FileEraseState) (done : Bool)
    (hb : s.buffer.length = chunkSize) (hs : s.bytesWritten < 2^64)
    (hlen : s.content.length = size)
    (h : fileErasePasses io pattern size fuel (List.range' first count) s = some (s', done)) :
    ∃ pass last, FilePassesRun io pattern size first count s s' done pass last := by
  induction count generalizing first s with
  | zero =>
    cases h
    exact ⟨first, 0, passesRun_none io pattern size first s' hs⟩
  | succ count ih =>
    rw [List.range'_succ, fileErasePasses] at h
    rcases hc : fileEraseChunks io pattern size first fuel 0 size
      { s with buffer := startBuffer pattern s.buffer } with _ | ⟨t, done'⟩
    · simp [hc] at h
    obtain ⟨last, ws, hchunks⟩ := fileEraseChunks_run io pattern size first fuel 0 size
      { s with buffer := startBuffer pattern s.buffer } t done' le_rfl (Nat.sub_self size).symm
      (startBuffer_buffered pattern s.buffer hb) hs hc
    have htaken := chunksRun_taken io pattern size first last _ s t done' ws hlen hchunks
    rw [hc] at h
    cases done' with
    | false =>
      cases h
      have hle := position_le io size first last
      have hne : filePosition io size first last ≠ size := fun heq => by
        simpa using htaken.position.mpr heq
      refine ⟨first, last, ⟨le_rfl, fun p hp hlt => by omega, htaken.before,
        Or.inr ⟨rfl, by omega, by omega, htaken.failed rfl⟩⟩, ?_, ?_, ?_, htaken.kept,
        by simp, by simp⟩
      · rw [Nat.sub_self, Nat.zero_mul, Nat.zero_add]
        exact htaken.accepted
      · rw [Nat.sub_self, Nat.zero_mul, Nat.zero_add]
        exact htaken.bytes
      · rw [Nat.sub_self, Nat.add_zero]
        exact htaken.completed
    | true =>
      obtain ⟨pass, stop, hrun⟩ := ih (first+1) { t with passesCompleted := t.passesCompleted+1 }
        htaken.buffered (by rw [htaken.bytes]; exact Nat.mod_lt _ (by decide))
        (htaken.kept.trans hlen) h
      exact ⟨pass, stop, passesRun_cons io pattern size first count s t s' done last pass stop
        htaken hrun⟩

end Passes

end EraseCure.FilePasses
