import EraseCure.DevicePasses
import EraseCure.FilePasses

/-!
# The bytes reported and the bytes accepted

The device eraser counts a chunk when all of it is written, so what was accepted
of a chunk that then fails is not reported. The file eraser counts each write.
Both counters have 64 bits.
-/

set_option autoImplicit false

namespace EraseCure.AcceptedBytes
open EraseCure.CText EraseCure.Devices EraseCure.FileSystems
open EraseCure.ByteRanges EraseCure.ErasePasses EraseCure.BlockEraseImage
open EraseCure.BlockEraseDevice EraseCure.PassTraces EraseCure.DevicePasses
open EraseCure.FileEraser EraseCure.FileOverwrites EraseCure.FilePasses

def accepted (writes : List (ℕ × Piece UInt8)) : ℕ :=
  (writes.map (fun w => w.2.data.length)).sum

/-- The counter of bytes is behind what was accepted by so many bytes at least. -/
def Behind (lag : ℕ) (s : EraseState) : Prop := s.bytesWritten+lag ≤ accepted s.writes

section Chunks
variable (pattern : ErasePattern) (random : ℕ → RandBytes) (taken : ℕ → ℕ → ℕ → ℕ)
  (size blockSize : ℕ)

def chunkLength (k : ℕ) : ℕ := min (size-k*blockSize) blockSize

def chunkTaken (k : ℕ) : ℕ := taken k (k*blockSize) (chunkLength size blockSize k)

def ChunkWhole (k : ℕ) : Prop :=
  Generates pattern (random k) ∧
    chunkTaken taken size blockSize k = chunkLength size blockSize k

structure ChunkReached (first k : ℕ) : Prop where
  after : first ≤ k
  inside : k*blockSize < size
  before : ∀ j, first ≤ j → j < k → ChunkWhole pattern random taken size blockSize j
  generates : Generates pattern (random k)

/-- The writes of a chunk take nothing, or all of it with a count that fits. -/
def ChunkCounted (base k : ℕ) : Prop :=
  chunkTaken taken size blockSize k = 0 ∨
    chunkTaken taken size blockSize k = chunkLength size blockSize k ∧
      base+k*blockSize+chunkLength size blockSize k < 2^64

theorem fill_generates (rand : RandBytes) (len : ℕ) :
    (∃ buf, blockEraseFillPattern rand len pattern = .ok buf) ↔ Generates pattern rand := by
  cases pattern with
  | zero | one => exact iff_of_true ⟨_, rfl⟩ trivial
  | random => cases rand <;> simp [blockEraseFillPattern, Generates]
  | other code hcode => simp [blockEraseFillPattern, Generates]

theorem chunks_from (first : ℕ) (P : ℕ → Prop) :
    (∀ k, ChunkReached pattern random taken size blockSize first k → P k) ↔
      (first*blockSize < size → Generates pattern (random first) → P first) ∧
        (first*blockSize < size → ChunkWhole pattern random taken size blockSize first →
          ∀ k, ChunkReached pattern random taken size blockSize (first+1) k → P k) := by
  constructor
  · intro h
    refine ⟨fun hin hgen => h first ⟨le_rfl, hin, fun j hj hlt => by omega, hgen⟩,
      fun _ hwhole k hk => h k ⟨?_, hk.inside, fun j hj hlt => ?_, hk.generates⟩⟩
    · have := hk.after
      omega
    · rcases Nat.eq_or_lt_of_le hj with rfl | hj
      · exact hwhole
      · exact hk.before j hj hlt
  · rintro ⟨hfirst, hrest⟩ k hk
    rcases Nat.eq_or_lt_of_le hk.after with rfl | hlt
    · exact hfirst hk.inside hk.generates
    · have hin : first*blockSize < size :=
        (Nat.mul_le_mul_right blockSize hk.after).trans_lt hk.inside
      exact hrest hin (hk.before first le_rfl hlt) k
        ⟨hlt, hk.inside, fun j hj hlt => hk.before j (by omega) hlt, hk.generates⟩

end Chunks

section Loops
variable (pattern : ErasePattern) (random : ℕ → RandBytes) (fillText : Text)
  (write : ℕ → ℕ → Bytes → EraseState → EraseState × Option Failure) (cb : Bool)
  (size blockSize total pass : ℕ) (taken : ℕ → ℕ → ℕ → ℕ)

theorem advances_accepted (start stop : ℕ) (s t : EraseState) (ws : List (Piece UInt8))
    (h : Advances pattern pass start stop s t ws) :
    accepted t.writes+start = accepted s.writes+stop := by
  have hlen := tiles_length ws start stop h.tiled
  rw [h.extends_.1, accepted, List.map_append, List.sum_append, List.map_map]
  change accepted s.writes+(ws.map (fun w => w.data.length)).sum+start = _
  omega

theorem takes_accepted (start n : ℕ) (data : Bytes) (s : EraseState)
    (out : EraseState × Option Failure) (h : Takes pattern pass start data n s out) :
    accepted out.1.writes = accepted s.writes+n := by
  obtain ⟨ws, hw⟩ := h.advances
  have := advances_accepted pattern pass start _ s out.1 ws hw
  omega

/-- Counting a whole chunk keeps a counter that agrees, or it wraps and is behind. -/
theorem account_level (chunk : ℕ) (s s' : EraseState) (hcounts : SameCounts s s')
    (haccepted : accepted s'.writes = accepted s.writes+chunk)
    (hlevel : s.bytesWritten = accepted s.writes) :
    let t := s'.account chunk total cb
    (s.bytesWritten+chunk < 2^64 ∧ t.bytesWritten = s.bytesWritten+chunk ∧
        t.bytesWritten = accepted t.writes) ∨
      2^64 ≤ s.bytesWritten+chunk ∧ Behind 1 t := by
  have hacc : (s'.account chunk total cb).bytesWritten = (s.bytesWritten+chunk) % 2^64 := by
    rw [EraseState.account, hcounts.bytesWritten]
  have hwrites : accepted (s'.account chunk total cb).writes = s.bytesWritten+chunk := by
    rw [hlevel]
    exact haccepted
  dsimp only
  rw [Behind, hacc, hwrites]
  rcases Nat.lt_or_ge (s.bytesWritten+chunk) (2^64) with hfits | hwraps
  · rw [Nat.mod_eq_of_lt hfits]
    exact Or.inl ⟨hfits, rfl, rfl⟩
  · exact Or.inr ⟨hwraps, by omega⟩

def ChunksFrom (fuel k : ℕ) (s : EraseState) (out : EraseState × Option Failure) : Prop :=
  size-k*blockSize ≤ fuel ∧
    out = eraseChunks pattern random fillText write cb size blockSize total fuel k
      (size-k*blockSize) s

theorem chunks_end (fuel k : ℕ) (s : EraseState) (out : EraseState × Option Failure)
    (hend : size ≤ k*blockSize)
    (h : ChunksFrom pattern random fillText write cb size blockSize total fuel k s out) :
    out = (s, none) := by
  obtain ⟨_, rfl⟩ := h
  rw [Nat.sub_eq_zero_of_le hend]
  cases fuel <;> rfl

variable (hwrite : Delivers pattern write pass taken) (hb : 0 < blockSize)
include hwrite hb

/-- What the loop does with a chunk: it fails before the write or at it, or it
counts the chunk and goes on. -/
theorem chunk_cases (fuel k : ℕ) (s : EraseState) (out : EraseState × Option Failure)
    (hin : k*blockSize < size)
    (h : ChunksFrom pattern random fillText write cb size blockSize total (fuel+1) k s out) :
    (¬ Generates pattern (random k) ∧ out.1 = s ∧ out.2 ≠ none) ∨
      (Generates pattern (random k) ∧ out.2 ≠ none ∧ SameCounts s out.1 ∧
        chunkTaken taken size blockSize k ≠ chunkLength size blockSize k ∧
        accepted out.1.writes = accepted s.writes+chunkTaken taken size blockSize k) ∨
      ∃ s', ChunkWhole pattern random taken size blockSize k ∧ SameCounts s s' ∧
        accepted s'.writes = accepted s.writes+chunkLength size blockSize k ∧
        ChunksFrom pattern random fillText write cb size blockSize total fuel (k+1)
          (s'.account (chunkLength size blockSize k) total cb) out := by
  obtain ⟨hfuel, hloop⟩ := h
  have hstart : size-(size-k*blockSize) = k*blockSize := by omega
  have hrest : size-k*blockSize-chunkLength size blockSize k = size-(k+1)*blockSize := by
    rw [chunkLength, Nat.add_mul, Nat.one_mul]
    omega
  have hless : size-(k+1)*blockSize ≤ fuel := by
    rw [Nat.add_mul, Nat.one_mul]
    omega
  have hgen := fill_generates pattern (random k) (chunkLength size blockSize k)
  have hcases := eraseChunks_cases pattern random fillText write cb size blockSize total fuel k
    (size-k*blockSize) s (by omega)
  rw [← hloop, ← chunkLength, hstart, hrest] at hcases
  rcases hcases with ⟨e, hfill, hout⟩ | ⟨buf, hfill, hwritten⟩
  · rw [hout]
    refine Or.inl ⟨fun h => ?_, rfl, by simp⟩
    obtain ⟨buf, hbuf⟩ := hgen.mpr h
    rw [hfill] at hbuf
    contradiction
  · obtain ⟨hlen, hfilled⟩ := fill_ok _ _ _ _ hfill
    have hdrawn := hgen.mp ⟨buf, hfill⟩
    have htakes := hwrite k (k*blockSize) buf s hfilled
    rw [hlen] at htakes
    have haccepted := takes_accepted pattern pass _ _ buf s _ htakes
    obtain ⟨_, _, hcounts, hcomplete⟩ := htakes
    rw [hlen] at hcomplete
    rcases hwritten with ⟨s', e, hw, hout⟩ | ⟨s', hw, hout⟩
    · rw [hw] at haccepted hcounts hcomplete
      rw [hout]
      exact Or.inr (Or.inl ⟨hdrawn, by simp, hcounts,
        fun hall => by simpa using hcomplete.mpr hall, haccepted⟩)
    · rw [hw] at haccepted hcounts hcomplete
      have hall := hcomplete.mp rfl
      refine Or.inr (Or.inr ⟨s', ⟨hdrawn, hall⟩, hcounts, ?_, hless, hout⟩)
      rw [← hall]
      exact haccepted

theorem chunks_whole (fuel k : ℕ) (s : EraseState) (out : EraseState × Option Failure)
    (h : ChunksFrom pattern random fillText write cb size blockSize total fuel k s out) :
    (out.2 = none ↔ ∀ j, k ≤ j → j*blockSize < size →
      ChunkWhole pattern random taken size blockSize j) ∧
      (out.2 = none → accepted out.1.writes = accepted s.writes+(size-k*blockSize)) := by
  induction fuel generalizing k s with
  | zero =>
    have hend : size ≤ k*blockSize := Nat.sub_eq_zero_iff_le.mp (Nat.le_zero.mp h.1)
    obtain rfl := chunks_end _ _ _ _ _ _ _ _ 0 k s out hend h
    refine ⟨iff_of_true rfl fun j hj hin => ?_, fun _ => ?_⟩
    · have := Nat.mul_le_mul_right blockSize hj
      omega
    · rw [Nat.sub_eq_zero_of_le hend]
      rfl
  | succ fuel ih =>
    by_cases hin : k*blockSize < size
    · rcases chunk_cases pattern random fillText write cb size blockSize total pass taken hwrite
        hb fuel k s out hin h with ⟨hgen, _, hfails⟩ | ⟨_, hfails, _, hpart, _⟩ |
          ⟨s', hwhole, _, haccepted, hrest⟩
      · exact ⟨iff_of_false hfails fun hall => hgen (hall k le_rfl hin).1,
          fun hnone => absurd hnone hfails⟩
      · exact ⟨iff_of_false hfails fun hall => hpart (hall k le_rfl hin).2,
          fun hnone => absurd hnone hfails⟩
      · obtain ⟨hiff, hdone⟩ := ih (k+1) _ hrest
        refine ⟨hiff.trans ⟨fun hall j hj hj' => ?_, fun hall j hj hj' => hall j (by omega) hj'⟩,
          fun hnone => ?_⟩
        · rcases Nat.eq_or_lt_of_le hj with rfl | hj
          · exact hwhole
          · exact hall j hj hj'
        · rw [hdone hnone]
          dsimp only [EraseState.account]
          rw [haccepted, chunkLength, Nat.add_mul, Nat.one_mul]
          omega
    · obtain rfl := chunks_end _ _ _ _ _ _ _ _ _ k s out (Nat.le_of_not_lt hin) h
      refine ⟨iff_of_true rfl fun j hj hj' => ?_, fun _ => ?_⟩
      · have := Nat.mul_le_mul_right blockSize hj
        omega
      · rw [Nat.sub_eq_zero_of_le (Nat.le_of_not_lt hin)]
        rfl

theorem chunks_behind (lag fuel k : ℕ) (s : EraseState) (out : EraseState × Option Failure)
    (h : ChunksFrom pattern random fillText write cb size blockSize total fuel k s out)
    (hs : Behind lag s) : Behind lag out.1 := by
  induction fuel generalizing k s with
  | zero =>
    have hend : size ≤ k*blockSize := Nat.sub_eq_zero_iff_le.mp (Nat.le_zero.mp h.1)
    obtain rfl := chunks_end _ _ _ _ _ _ _ _ 0 k s out hend h
    exact hs
  | succ fuel ih =>
    by_cases hin : k*blockSize < size
    · rcases chunk_cases pattern random fillText write cb size blockSize total pass taken hwrite
        hb fuel k s out hin h with ⟨_, hsame, _⟩ | ⟨_, _, hcounts, _, haccepted⟩ |
          ⟨s', _, hcounts, haccepted, hrest⟩
      · rw [hsame]
        exact hs
      · rw [Behind, hcounts.bytesWritten, haccepted]
        exact hs.trans (Nat.le_add_right _ _)
      · refine ih (k+1) _ hrest ?_
        have hmod := Nat.mod_le (s.bytesWritten+chunkLength size blockSize k) (2^64)
        rw [Behind] at hs ⊢
        dsimp only [EraseState.account]
        rw [haccepted, hcounts.bytesWritten]
        omega
    · obtain rfl := chunks_end _ _ _ _ _ _ _ _ _ k s out (Nat.le_of_not_lt hin) h
      exact hs

theorem chunks_counted (base fuel k : ℕ) (s : EraseState) (out : EraseState × Option Failure)
    (h : ChunksFrom pattern random fillText write cb size blockSize total fuel k s out)
    (hlevel : s.bytesWritten = accepted s.writes)
    (hbase : s.bytesWritten = base+min (k*blockSize) size) :
    out.1.bytesWritten = accepted out.1.writes ↔
      ∀ j, ChunkReached pattern random taken size blockSize k j →
        ChunkCounted taken size blockSize base j := by
  induction fuel generalizing k s with
  | zero =>
    have hend : size ≤ k*blockSize := Nat.sub_eq_zero_iff_le.mp (Nat.le_zero.mp h.1)
    obtain rfl := chunks_end _ _ _ _ _ _ _ _ 0 k s out hend h
    refine iff_of_true hlevel fun j hj => ?_
    have := Nat.mul_le_mul_right blockSize hj.after
    have := hj.inside
    omega
  | succ fuel ih =>
    rw [chunks_from]
    by_cases hin : k*blockSize < size
    · rcases chunk_cases pattern random fillText write cb size blockSize total pass taken hwrite
        hb fuel k s out hin h with ⟨hgen, hsame, _⟩ | ⟨hgen, _, hcounts, hpart, haccepted⟩ |
          ⟨s', hwhole, hcounts, haccepted, hrest⟩
      · rw [hsame]
        exact iff_of_true hlevel ⟨fun _ hg => absurd hg hgen, fun _ hw => absurd hw.1 hgen⟩
      · rw [hcounts.bytesWritten, haccepted, hlevel]
        constructor
        · intro hzero
          exact ⟨fun _ _ => Or.inl (by omega), fun _ hw => absurd hw.2 hpart⟩
        · rintro ⟨hcounted, _⟩
          rcases hcounted hin hgen with hzero | ⟨hall, _⟩
          · omega
          · exact absurd hall hpart
      · have hpos : 0 < chunkLength size blockSize k := by
          rw [chunkLength]
          omega
        have hnext : min (k*blockSize) size+chunkLength size blockSize k =
            min ((k+1)*blockSize) size := by
          rw [chunkLength, Nat.add_mul, Nat.one_mul]
          omega
        rcases account_level cb total _ s s' hcounts haccepted hlevel with
          ⟨hfits, hbytes, hlevel'⟩ | ⟨hwraps, hbehind⟩
        · rw [ih (k+1) _ hrest hlevel' (by rw [hbytes, hbase, Nat.add_assoc, hnext])]
          exact ⟨fun hall => ⟨fun _ _ => Or.inr ⟨hwhole.2, by omega⟩, fun _ _ => hall⟩,
            fun hall => hall.2 hin hwhole⟩
        · have hlast := chunks_behind pattern random fillText write cb size blockSize total pass
            taken hwrite hb 1 fuel (k+1) _ out hrest hbehind
          refine iff_of_false (Nat.ne_of_lt hlast) fun hall => ?_
          rcases hall.1 hin hwhole.1 with hzero | ⟨_, hlt⟩
          · have := hwhole.2
            omega
          · omega
    · obtain rfl := chunks_end _ _ _ _ _ _ _ _ _ k s out (Nat.le_of_not_lt hin) h
      exact iff_of_true hlevel ⟨fun hin' => absurd hin' hin, fun hin' => absurd hin' hin⟩

end Loops

theorem passOf_same (ready flushed : Bool) (chunks : EraseState → EraseState × Option Failure)
    (notReady notFlushed : Failure) (s : EraseState) :
    let out := passOf ready flushed chunks notReady notFlushed s
    let t := if ready then (chunks s).1 else s
    out.1.bytesWritten = t.bytesWritten ∧ out.1.writes = t.writes ∧
      (out.2 = none ↔ ready = true ∧ flushed = true ∧ (chunks s).2 = none) := by
  cases ready with
  | false =>
    exact ⟨rfl, rfl, iff_of_false (Option.some_ne_none _) fun h => Bool.false_ne_true h.1⟩
  | true =>
    dsimp only
    rw [passOf, if_pos rfl, if_pos rfl]
    rcases chunks s with ⟨s', _ | e⟩
    · cases flushed with
      | false => exact ⟨rfl, rfl, iff_of_false (by simp) (by simp)⟩
      | true => exact ⟨rfl, rfl, iff_of_true rfl ⟨rfl, rfl, rfl⟩⟩
    · exact ⟨rfl, rfl, iff_of_false (by simp) (by simp)⟩

section Device
variable (io : DeviceIo) (opts : BlockEraseOptions) (room : Option ℕ)
  (capacity blockSize total : ℕ)

def deviceTaken (pass k start len : ℕ) : ℕ := taken room (io.writes pass k) start len

def DevicePassWhole (pass : ℕ) : Prop :=
  io.seeked pass = true ∧ io.flushed pass = true ∧ ∀ k, k*blockSize < capacity →
    ChunkWhole opts.pattern (io.random pass) (deviceTaken io room pass) capacity blockSize k

/-- A chunk of a pass that is written when the passes start with an earlier one. -/
structure DeviceReached (first pass k : ℕ) : Prop where
  after : first ≤ pass
  earlier : ∀ p, first ≤ p → p < pass → DevicePassWhole io opts room capacity blockSize p
  seeked : io.seeked pass = true
  chunk : ChunkReached opts.pattern (io.random pass) (deviceTaken io room pass) capacity blockSize
    0 k

/-- What the writes of a chunk of a pass take is counted. -/
def DeviceCounted (pass k : ℕ) : Prop :=
  ChunkCounted (deviceTaken io room pass) capacity blockSize ((pass-1)*capacity) k

theorem passes_from (first count : ℕ) (P : ℕ → ℕ → Prop) :
    (∀ pass k, pass < first+(count+1) →
        DeviceReached io opts room capacity blockSize first pass k → P pass k) ↔
      (io.seeked first = true → ∀ k, ChunkReached opts.pattern (io.random first)
        (deviceTaken io room first) capacity blockSize 0 k → P first k) ∧
      (DevicePassWhole io opts room capacity blockSize first → ∀ pass k, pass < first+1+count →
        DeviceReached io opts room capacity blockSize (first+1) pass k → P pass k) := by
  constructor
  · intro h
    refine ⟨fun hseeked k hk => h first k (by omega)
      ⟨le_rfl, fun p hp hlt => by omega, hseeked, hk⟩, fun hwhole pass k hpass hk => ?_⟩
    refine h pass k (by omega) ⟨?_, fun p hp hlt => ?_, hk.seeked, hk.chunk⟩
    · have := hk.after
      omega
    · rcases Nat.eq_or_lt_of_le hp with rfl | hp
      · exact hwhole
      · exact hk.earlier p hp hlt
  · rintro ⟨hfirst, hrest⟩ pass k hpass hk
    rcases Nat.eq_or_lt_of_le hk.after with rfl | hlt
    · exact hfirst hk.seeked k hk.chunk
    · exact hrest (hk.earlier first le_rfl hlt) pass k (by omega)
        ⟨hlt, fun p hp hlt => hk.earlier p (by omega) hlt, hk.seeked, hk.chunk⟩

variable (hb : 0 < blockSize)
include hb

structure PassCounted (pass : ℕ) (s : EraseState) (out : EraseState × Option Failure) : Prop where
  done_iff : out.2 = none ↔ DevicePassWhole io opts room capacity blockSize pass
  accepted_eq : out.2 = none → accepted out.1.writes = accepted s.writes+capacity
  behind : ∀ lag, Behind lag s → Behind lag out.1
  level_iff : s.bytesWritten = accepted s.writes → ∀ base, s.bytesWritten = base →
    (out.1.bytesWritten = accepted out.1.writes ↔ (io.seeked pass = true → ∀ k,
      ChunkReached opts.pattern (io.random pass) (deviceTaken io room pass) capacity blockSize 0 k →
        ChunkCounted (deviceTaken io room pass) capacity blockSize base k))

theorem devicePass_counted (pass : ℕ) (s : EraseState) :
    PassCounted io opts room capacity blockSize pass s
      (devicePass io opts room capacity blockSize total pass s) := by
  obtain ⟨notReady, notFlushed, hof⟩ := devicePass_of io opts room capacity blockSize total pass
  have hloop : ChunksFrom opts.pattern (io.random pass) [] (deviceWrite io room pass)
      opts.progressCb capacity blockSize total capacity 0 s
      (deviceChunks io opts room capacity blockSize total pass capacity 0 capacity s) := by
    refine ⟨Nat.sub_le _ _, ?_⟩
    rw [Nat.zero_mul, Nat.sub_zero]
    rfl
  have hdelivers := deviceWrite_delivers io opts.pattern room pass
  obtain ⟨hiff, hdone⟩ := chunks_whole opts.pattern (io.random pass) [] _ opts.progressCb capacity
    blockSize total pass _ hdelivers hb capacity 0 s _ hloop
  have hbehind := fun lag => chunks_behind opts.pattern (io.random pass) [] _ opts.progressCb
    capacity blockSize total pass _ hdelivers hb lag capacity 0 s _ hloop
  obtain ⟨hbytes, hwrites, hnone⟩ := passOf_same (io.seeked pass) (io.flushed pass)
    (deviceChunks io opts room capacity blockSize total pass capacity 0 capacity)
    notReady notFlushed s
  rw [← hof] at hbytes hwrites hnone
  refine ⟨hnone.trans ?_, fun hout => ?_, fun lag hs => ?_, fun hlevel base hbase => ?_⟩
  · rw [hiff, DevicePassWhole]
    simp only [Nat.zero_le, true_implies]
    rfl
  · obtain ⟨hready, _, hchunks⟩ := hnone.mp hout
    rw [hwrites, if_pos hready, hdone hchunks, Nat.zero_mul, Nat.sub_zero]
  · rw [Behind, hbytes, hwrites]
    split
    · exact hbehind lag hs
    · exact hs
  · rw [hbytes, hwrites]
    split
    · rename_i hready
      rw [chunks_counted opts.pattern (io.random pass) [] _ opts.progressCb capacity blockSize total
        pass _ hdelivers hb base capacity 0 s _ hloop hlevel
        (by rw [Nat.zero_mul, Nat.zero_min]; exact hbase)]
      exact ⟨fun h _ => h, fun h => h hready⟩
    · rename_i hready
      exact iff_of_true hlevel fun h => absurd h hready

theorem devicePasses_behind (lag : ℕ) (passes : List ℕ) (s : EraseState) (h : Behind lag s) :
    Behind lag (runPasses (devicePass io opts room capacity blockSize total) passes s).1 := by
  induction passes generalizing s with
  | nil => exact h
  | cons pass rest ih =>
    have hpass := (devicePass_counted io opts room capacity blockSize total hb pass s).behind lag h
    rw [runPasses]
    rcases hout : devicePass io opts room capacity blockSize total pass s with ⟨s', _ | e⟩
    · rw [hout] at hpass
      exact ih s' hpass
    · rw [hout] at hpass
      exact hpass

/-- From a counter that agrees on, the passes keep it so exactly when each chunk of
them that is reached is counted. -/
theorem devicePasses_counted (first count : ℕ) (s : EraseState) (hfirst : 0 < first)
    (hlevel : s.bytesWritten = accepted s.writes) (hbase : s.bytesWritten = (first-1)*capacity) :
    let out := runPasses (devicePass io opts room capacity blockSize total)
      (List.range' first count) s
    out.1.bytesWritten = accepted out.1.writes ↔ ∀ pass k, pass < first+count →
      DeviceReached io opts room capacity blockSize first pass k →
        DeviceCounted io room capacity blockSize pass k := by
  induction count generalizing first s with
  | zero =>
    refine iff_of_true hlevel fun pass k hpass hk => ?_
    have := hk.after
    omega
  | succ count ih =>
    dsimp only
    have hpass := devicePass_counted io opts room capacity blockSize total hb first s
    have hiff := hpass.level_iff hlevel _ hbase
    rw [passes_from, List.range'_succ, runPasses]
    rcases hout : devicePass io opts room capacity blockSize total first s with ⟨s', _ | e⟩
    · rw [hout] at hpass hiff
      have hwhole := hpass.done_iff.mp rfl
      have haccepted := hpass.accepted_eq rfl
      have hnext : (first+1-1)*capacity = (first-1)*capacity+capacity := by
        rw [show first+1-1 = first-1+1 by omega, Nat.add_mul, Nat.one_mul]
      dsimp only at haccepted hiff ⊢
      rcases Nat.lt_or_eq_of_le (hpass.behind 0 hlevel.le) with hlt | heq
      · refine iff_of_false (fun heq => ?_) (fun hall => ?_)
        · have := devicePasses_behind io opts room capacity blockSize total hb 1
            (List.range' (first+1) count) s' hlt
          rw [Behind] at this
          omega
        · exact absurd (hiff.mpr hall.1) (Nat.ne_of_lt hlt)
      · have hlevel' : s'.bytesWritten = accepted s'.writes := heq
        have hrest := ih (first+1) s' (Nat.succ_pos first) hlevel' (by omega)
        exact hrest.trans ⟨fun h => ⟨hiff.mp hlevel', fun _ => h⟩, fun h => h.2 hwhole⟩
    · rw [hout] at hpass hiff
      have hpartial : ¬ DevicePassWhole io opts room capacity blockSize first :=
        fun h => by simpa using hpass.done_iff.mpr h
      exact hiff.trans ⟨fun h => ⟨h, fun hwhole => absurd hwhole hpartial⟩, fun h => h.1⟩

end Device

section Runs
variable (fs : FileSystem) (io : DeviceIo) (device : StorageDevice) (opts : BlockEraseOptions)
  (confirmation : Text)

theorem devicePasses_range' (passes : ℕ) : devicePasses passes = List.range' 1 passes := by
  rw [devicePasses, List.range'_eq_map_range]
  exact List.map_congr_left fun _ _ => Nat.add_comm _ _

def ChunksCounted (node : ℕ) : Prop :=
  ∀ pass k, pass ≤ clampPasses opts.passes →
    DeviceReached io opts (fs.object node).room (deviceCapacity io device)
      (clampBlockSize opts.blockSize) 1 pass k →
    DeviceCounted io (fs.object node).room (deviceCapacity io device)
      (clampBlockSize opts.blockSize) pass k

theorem blockEraseDevice_counted :
    let run := blockEraseDevice fs io device opts confirmation
    run.result.bytesWritten = accepted run.writes ↔
      ∀ node, Started fs io device confirmation node → ChunksCounted fs io device opts node := by
  dsimp only
  rcases started_or_refused fs io device opts confirmation with
    ⟨node, hstarted⟩ | ⟨hnone, code, message, hrefused, _⟩
  · have hsole : ∀ node', Started fs io device confirmation node' → node' = node :=
      fun node' h => Except.ok.inj (h.opened.symm.trans hstarted.opened)
    rw [started_finished fs io device opts confirmation node hstarted]
    have hcounted := devicePasses_counted io opts (fs.object node).room (deviceCapacity io device)
      (clampBlockSize opts.blockSize) (deviceCapacity io device*clampPasses opts.passes % 2^64)
      (clampBlockSize_pos _) 1 (clampPasses opts.passes) (eraseStart (fs.object node).content)
      Nat.one_pos rfl (Nat.zero_mul _).symm
    rw [← devicePasses_range'] at hcounted
    refine hcounted.trans ⟨fun h node' hstarted' => ?_, fun h pass k hpass hk => ?_⟩
    · rw [hsole node' hstarted']
      exact fun pass k hpass hk => h pass k (by omega) hk
    · exact h node hstarted pass k (by omega) hk
  · rw [hrefused]
    exact iff_of_true rfl fun node h => absurd h (hnone node)

end Runs

section File
variable (io : FileEraseIo) (size passes : ℕ)

structure FileReached (pass k : ℕ) : Prop where
  counted : pass < passes
  earlier : ∀ p < pass, FilePassWhole io size p
  before : WritesBefore io size pass k
  left : filePosition io size pass k < size

theorem whole_last_write (pass : ℕ) (hpos : 0 < size) (h : FilePassWhole io size pass) :
    ∃ k, WritesBefore io size pass k ∧ filePosition io size pass k < size ∧
      filePosition io size pass (k+1) = size := by
  obtain ⟨stop, hstop, hwrites⟩ := h
  have hreached : ∃ l, filePosition io size pass l = size := ⟨stop, hstop⟩
  have hend := Nat.find_spec hreached
  obtain ⟨k, hk⟩ : ∃ k, Nat.find hreached = Nat.succ k := by
    refine Nat.exists_eq_succ_of_ne_zero fun hzero => ?_
    rw [hzero, filePosition] at hend
    omega
  rw [hk] at hend
  have hleft : ∀ j ≤ k, filePosition io size pass j < size := by
    intro j hj
    have hne := Nat.find_min hreached (hk.symm ▸ Nat.lt_succ_of_le hj)
    have hle := position_le io size pass j
    omega
  have hwithin : k < stop := by
    by_contra hlt
    have := position_mono io size pass stop k (Nat.le_of_not_lt hlt)
    have := hleft k le_rfl
    omega
  exact ⟨k, fun j hj => ⟨hleft j hj.le, hwrites j (by omega)⟩, hleft k le_rfl, hend⟩

/-- What was accepted until the passes stop is below a bound exactly when what was
accepted up to each write that is made is. -/
theorem stopped_below (bound pass last : ℕ) (done : Bool) (hbound : 0 < bound)
    (h : FileStopped io size 0 passes pass last done) :
    pass*size+filePosition io size pass last < bound ↔
      ∀ p k, FileReached io size passes p k →
        p*size+filePosition io size p (k+1) < bound := by
  have hends := h.ends
  rw [Nat.zero_add] at hends
  constructor
  · intro hlt p k hk
    refine lt_of_le_of_lt ?_ hlt
    have hle := position_le io size p (k+1)
    rcases Nat.lt_trichotomy p pass with hp | rfl | hp
    · have := Nat.mul_le_mul_right size (Nat.succ_le_of_lt hp)
      rw [Nat.succ_mul] at this
      omega
    · rcases hends with ⟨_, hpass, _⟩ | ⟨_, _, _, hfailed⟩
      · have := hk.counted
        omega
      · have hklast : k ≤ last := by
          by_contra hlast
          exact (hk.before last (by omega)).2 hfailed
        rcases Nat.eq_or_lt_of_le hklast with rfl | hklast
        · rw [filePosition, hfailed, Option.getD_none, Nat.zero_min, Nat.add_zero]
        · exact Nat.add_le_add_left (position_mono io size p (k+1) last hklast) _
    · rcases hends with ⟨_, hpass, _⟩ | ⟨_, _, hleft, hfailed⟩
      · have := hk.counted
        omega
      · exact absurd (hk.earlier pass hp) (failed_not_whole io size pass last hleft hfailed)
  · intro hall
    rcases Nat.eq_zero_or_pos last with rfl | hlast
    · rw [filePosition, Nat.add_zero]
      rcases pass with _ | pass
      · rwa [Nat.zero_mul]
      rcases Nat.eq_zero_or_pos size with rfl | hpos
      · rwa [Nat.mul_zero]
      obtain ⟨k, hbefore, hleft, hend⟩ := whole_last_write io size pass hpos
        (h.earlier pass (Nat.zero_le _) (Nat.lt_succ_self _))
      have hlt := hall pass k ⟨by omega, fun p hp => h.earlier p (Nat.zero_le _) (by omega),
        hbefore, hleft⟩
      rw [hend] at hlt
      rwa [Nat.succ_mul]
    · obtain ⟨k, rfl⟩ := Nat.exists_eq_succ_of_ne_zero (Nat.ne_of_gt hlast)
      refine hall pass k ⟨?_, fun p hp => h.earlier p (Nat.zero_le _) hp,
        fun j hj => h.before j (by omega), (h.before k (by omega)).1⟩
      omega

end File

def eventAccepted : FileEvent → ℕ
  | .wrote w => w.piece.data.length
  | .removed => 0

def fileAccepted (events : List FileEvent) : ℕ := (events.map eventAccepted).sum

theorem fileAccepted_writes (writes : List FileWrite) (removed : Bool) :
    fileAccepted (writes.map .wrote++(if removed then [.removed] else [])) =
      acceptedBytes writes := by
  have hremoved : fileAccepted (if removed then [.removed] else []) = 0 := by
    cases removed <;> rfl
  rw [fileAccepted, List.map_append, List.sum_append, List.map_map]
  exact congrArg _ hremoved

/-- What was accepted up to each write that is made can be counted. -/
def WritesCounted (io : FileEraseIo) (opts : FileEraseOptions) (size : ℕ) : Prop :=
  ∀ pass k, FileReached io size opts.passes pass k →
    pass*size+filePosition io size pass (k+1) < 2^64

theorem fileErase_counted (fuel : ℕ) (fs : FileSystem) (io : FileEraseIo) (path : Text)
    (opts : FileEraseOptions) (run : FileEraseRun)
    (hrun : fileErase fuel fs io path opts = some run) :
    run.result.bytesWritten = fileAccepted run.events ↔
      ∀ node content, FileStarted fs io path node content →
        WritesCounted io opts content.length := by
  rcases fileErase_cases fuel fs io path opts run hrun with
    ⟨hnone, hrefused⟩ | ⟨node, content, s, done, hstarted, hpasses, hended⟩
  · rw [hrefused.bytesWritten, hrefused.events]
    exact iff_of_true rfl fun node content h => absurd h (hnone node content)
  · rw [List.range_eq_range'] at hpasses
    obtain ⟨pass, last, hran⟩ := fileErasePasses_run io opts.pattern content.length fuel 0
      opts.passes _ s done (by simp [fileEraseStart]) (Nat.two_pow_pos 64) rfl hpasses
    have hbytes : s.bytesWritten =
        (pass*content.length+filePosition io content.length pass last) % 2^64 :=
      hran.bytes.trans (by rw [Nat.sub_zero]; congr 1; exact Nat.zero_add _)
    have haccepted : acceptedBytes s.writes =
        pass*content.length+filePosition io content.length pass last :=
      hran.accepted.trans (by rw [Nat.sub_zero]; exact Nat.zero_add _)
    rw [hended.bytesWritten, hended.events, fileAccepted_writes, hbytes, haccepted,
      Nat.mod_eq_iff_lt (by decide), stopped_below io content.length opts.passes (2^64) pass last
        done (Nat.two_pow_pos 64) hran.stopped]
    refine ⟨fun h node' content' hstarted' => ?_, fun h => h node content hstarted⟩
    have hsame := started_content fs io path node' content' content hstarted' (by
      rw [FileSystem.lstat, hstarted.resolved, Option.map_some, hstarted.regular])
    rwa [hsame]

/-- The device eraser reports the bytes that were accepted exactly when each chunk
that a run reaches is refused or taken whole and the count fits; the file eraser does
exactly when the count fits at each write. -/
theorem reported_accepted_iff (fs : FileSystem) (io : DeviceIo) (device : StorageDevice)
    (opts : BlockEraseOptions) (confirmation : Text) (fuel : ℕ) (fileIo : FileEraseIo)
    (path : Text) (fileOpts : FileEraseOptions) (fileRun : FileEraseRun)
    (hrun : fileErase fuel fs fileIo path fileOpts = some fileRun) :
    let run := blockEraseDevice fs io device opts confirmation
    (run.result.bytesWritten = accepted run.writes ↔
      ∀ node, Started fs io device confirmation node → ChunksCounted fs io device opts node) ∧
    (fileRun.result.bytesWritten = fileAccepted fileRun.events ↔
      ∀ node content, FileStarted fs fileIo path node content →
        WritesCounted fileIo fileOpts content.length) :=
  ⟨blockEraseDevice_counted fs io device opts confirmation,
    fileErase_counted fuel fs fileIo path fileOpts fileRun hrun⟩

def cutIo : DeviceIo := { DeviceIo.calm 3 with writes := fun _ _ => [.wrote 1, .failed] }

def shortIo : FileEraseIo :=
  { FileEraseIo.calm with write := fun pass k => if pass = 1 ∧ k = 1 then none else some 2 }

def deviceAndFile : FileSystem where
  resolve := fun p => if p = "/dev/sdb".toList then some 0 else none
  resolveLink := fun p => if p = "a".toList then some 1 else none
  object := fun n => if n = 0 then .blockDevice [0x41, 0x42, 0x43] else
    .regular [0x41, 0x42, 0x43, 0x44, 0x45]

theorem reported_accepted_once : ∃ fileRun,
    fileErase 5 deviceAndFile shortIo "a".toList fileEraseOptionsInit = some fileRun ∧
    fileRun.result.resultCode ≠ .ok ∧ fileRun.result.bytesWritten = 7 ∧
    let run := blockEraseDevice deviceAndFile cutIo threeBytes blockEraseOptionsInit
      "/dev/sdb".toList
    run.result.bytesWritten = 0 ∧ accepted run.writes = 1 ∧
    (run.result.bytesWritten = accepted run.writes ↔
      ∀ node, Started deviceAndFile cutIo threeBytes "/dev/sdb".toList node →
        ChunksCounted deviceAndFile cutIo threeBytes blockEraseOptionsInit node) ∧
    (fileRun.result.bytesWritten = fileAccepted fileRun.events ↔
      ∀ node content, FileStarted deviceAndFile shortIo "a".toList node content →
        WritesCounted shortIo fileEraseOptionsInit content.length) := by
  have h : (fileErase 5 deviceAndFile shortIo "a".toList fileEraseOptionsInit).any (fun run =>
      run.result.resultCode ≠ .ok && run.result.bytesWritten = 7) = true := by
    decide
  obtain ⟨fileRun, hrun, hresult⟩ := (Option.any_eq_true _ _).mp h
  simp only [Bool.and_eq_true, decide_eq_true_eq] at hresult
  exact ⟨fileRun, hrun, hresult.1, hresult.2, by decide, by decide,
    reported_accepted_iff deviceAndFile cutIo threeBytes blockEraseOptionsInit "/dev/sdb".toList 5
      shortIo "a".toList fileEraseOptionsInit fileRun hrun⟩

/-- The byte that was accepted is on the device and is not reported. -/
theorem cut_chunk_unreported :
    ¬ ∀ (fs : FileSystem) (io : DeviceIo) (device : StorageDevice) (opts : BlockEraseOptions)
      (confirmation : Text),
      let run := blockEraseDevice fs io device opts confirmation
      run.result.bytesWritten = accepted run.writes := by
  intro h
  have hcut := h threeFs cutIo threeBytes blockEraseOptionsInit "/dev/sdb".toList
  have hbytes : (blockEraseDevice threeFs cutIo threeBytes blockEraseOptionsInit
      "/dev/sdb".toList).result.bytesWritten = 0 := rfl
  have haccepted : accepted (blockEraseDevice threeFs cutIo threeBytes blockEraseOptionsInit
      "/dev/sdb".toList).writes = 1 := rfl
  dsimp only at hcut
  rw [hbytes, haccepted] at hcut
  exact absurd hcut (by decide)

end EraseCure.AcceptedBytes
