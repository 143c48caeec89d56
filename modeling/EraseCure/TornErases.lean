import EraseCure.DevicePasses
import EraseCure.ProgressTraces
import EraseCure.TornWrites

/-!
# What an erase leaves, finished or not

The bytes of a pass are those made for its chunks, one after the other. Where an
erase stops depends on what its calls return and not on the content. It leaves the
bytes of its last pass up to there, and behind them those of the pass before, or the
old content in the first pass. The counter of bytes is behind by less than a block.
-/

set_option autoImplicit false

namespace EraseCure.TornErases
open EraseCure.CText EraseCure.Devices EraseCure.ErrorCodes EraseCure.FileSystems
open EraseCure.ByteRanges EraseCure.TornWrites EraseCure.ErasePasses EraseCure.PassTraces
open EraseCure.BlockEraseImage EraseCure.BlockEraseDevice EraseCure.DevicePasses
open EraseCure.ProgressTraces

/-- The bytes for the chunks of a pass, up to the first chunk that has none. -/
def chunkBytes (pattern : ErasePattern) (random : ℕ → RandBytes) (blockSize : ℕ) :
    ℕ → ℕ → ℕ → Bytes
  | 0, _, _ => []
  | fuel+1, k, remaining =>
    if remaining = 0 then []
    else
      match blockEraseFillPattern (random k) (min remaining blockSize) pattern with
      | .error _ => []
      | .ok buf =>
        buf++chunkBytes pattern random blockSize fuel (k+1) (remaining-min remaining blockSize)

def passBytes (pattern : ErasePattern) (random : ℕ → RandBytes) (blockSize size : ℕ) : Bytes :=
  chunkBytes pattern random blockSize size 0 size

/-- A write behind a first part puts so many bytes of its data there. -/
structure Stores (done data : Bytes) (n : ℕ) (s : EraseState)
    (out : EraseState × Option Failure) : Prop where
  le : n ≤ data.length
  content : ∀ rest, s.content = done++rest → out.1.content = done++torn data rest n
  counts : SameCounts s out.1
  complete : out.2 = none ↔ n = data.length

/-- The writes of the chunks, by how much each takes of a length at a position. -/
def Storing (write : ℕ → ℕ → Bytes → EraseState → EraseState × Option Failure)
    (taken : ℕ → ℕ → ℕ → ℕ) : Prop :=
  ∀ k done buf s, Stores done buf (taken k done.length buf.length) s (write k done.length buf s)

section Chunks
variable (pattern : ErasePattern) (random : ℕ → RandBytes) (fillText : Text)
  (write : ℕ → ℕ → Bytes → EraseState → EraseState × Option Failure) (cb : Bool)
  (size blockSize total : ℕ) (taken : ℕ → ℕ → ℕ → ℕ)

structure ChunksTorn (bytes done : Bytes) (remaining reached counted : ℕ) (through : Bool)
    (s : EraseState) (out : EraseState × Option Failure) : Prop where
  content : ∀ rest, s.content = done++rest → out.1.content = done++torn bytes rest reached
  bytesWritten : s.bytesWritten < 2^64 →
    out.1.bytesWritten < 2^64 ∧ out.1.bytesWritten = (s.bytesWritten+counted) % 2^64
  passesCompleted : out.1.passesCompleted = s.passesCompleted
  through_iff : out.2 = none ↔ through = true

structure Reach (bytes : Bytes) (remaining blockSize reached counted : ℕ) (through : Bool) :
    Prop where
  le : reached ≤ bytes.length
  bytes_le : bytes.length ≤ remaining
  counted_le : counted ≤ reached
  near : reached < counted+blockSize
  whole : through = true → reached = remaining ∧ counted = remaining

theorem chunksTorn_end (done : Bytes) (s : EraseState) :
    ChunksTorn [] done 0 0 0 true s (s, none) where
  content := fun _ h => h
  bytesWritten := fun h => ⟨h, (Nat.mod_eq_of_lt h).symm⟩
  passesCompleted := rfl
  through_iff := iff_of_true rfl rfl

theorem chunksTorn_part (done buf more : Bytes) (remaining n : ℕ) (s s' : EraseState)
    (e : Failure) (h : Stores done buf n s (s', some e)) :
    ChunksTorn (buf++more) done remaining n 0 false s (s', some e) where
  content := fun rest hs => by
    rw [h.content rest hs, torn, torn, List.take_append_of_le_length h.le]
  bytesWritten := fun hs => by
    rw [h.counts.bytesWritten]
    exact ⟨hs, (Nat.mod_eq_of_lt hs).symm⟩
  passesCompleted := h.counts.passesCompleted
  through_iff := iff_of_false (by simp) (by simp)

theorem chunksTorn_next (done buf more : Bytes) (remaining reached counted : ℕ) (through : Bool)
    (s s' : EraseState) (out : EraseState × Option Failure)
    (hstore : Stores done buf buf.length s (s', none))
    (h : ChunksTorn more (done++buf) (remaining-buf.length) reached counted through
      (s'.account buf.length total cb) out) :
    ChunksTorn (buf++more) done remaining (buf.length+reached) (buf.length+counted) through s
      out where
  content := fun rest hs => by
    have hfirst : (s'.account buf.length total cb).content =
        (done++buf)++rest.drop buf.length := by
      have hc := hstore.content rest hs
      rw [torn, List.take_length, ← List.append_assoc] at hc
      exact hc
    rw [h.content _ hfirst, List.append_assoc, torn_append]
  bytesWritten := fun hs => by
    have hcount : (s'.account buf.length total cb).bytesWritten =
        (s.bytesWritten+buf.length) % 2^64 := by
      rw [EraseState.account, hstore.counts.bytesWritten]
    obtain ⟨hlt, heq⟩ := h.bytesWritten (by rw [hcount]; exact Nat.mod_lt _ (by decide))
    rw [hcount, Nat.mod_add_mod, Nat.add_assoc] at heq
    exact ⟨hlt, heq⟩
  passesCompleted := h.passesCompleted.trans hstore.counts.passesCompleted
  through_iff := h.through_iff

theorem eraseChunks_torn (hwrite : Storing write taken) (hb : 0 < blockSize) (fuel k remaining : ℕ)
    (hr : remaining ≤ size) (hf : remaining ≤ fuel) :
    ∃ reached counted through,
      Reach (chunkBytes pattern random blockSize fuel k remaining) remaining blockSize reached
        counted through ∧
      ∀ done s, done.length = size-remaining →
        ChunksTorn (chunkBytes pattern random blockSize fuel k remaining) done remaining reached
          counted through s
          (eraseChunks pattern random fillText write cb size blockSize total fuel k remaining
            s) := by
  induction fuel generalizing k remaining with
  | zero =>
    obtain rfl := Nat.le_zero.mp hf
    exact ⟨0, 0, true, ⟨Nat.zero_le _, Nat.zero_le _, le_rfl, by omega, fun _ => ⟨rfl, rfl⟩⟩,
      fun done s _ => chunksTorn_end done s⟩
  | succ fuel ih =>
    by_cases h0 : remaining = 0
    · subst h0
      rw [chunkBytes, if_pos rfl]
      refine ⟨0, 0, true, ⟨Nat.zero_le _, Nat.zero_le _, le_rfl, by omega, fun _ => ⟨rfl, rfl⟩⟩, ?_⟩
      intro done s _
      rw [eraseChunks_end]
      exact chunksTorn_end done s
    have hcases := eraseChunks_cases pattern random fillText write cb size blockSize total fuel k
      remaining
    rw [chunkBytes, if_neg h0]
    cases hfill : blockEraseFillPattern (random k) (min remaining blockSize) pattern with
    | error e =>
      refine ⟨0, 0, false, ⟨Nat.zero_le _, Nat.zero_le _, le_rfl, by omega, by simp⟩, ?_⟩
      intro done s _
      rcases hcases s h0 with ⟨e', _, hout⟩ | ⟨buf, hbuf, _⟩
      · rw [hout]
        exact ⟨fun _ h => h, fun h => ⟨h, (Nat.mod_eq_of_lt h).symm⟩, rfl, by simp⟩
      · rw [hfill] at hbuf
        contradiction
    | ok buf =>
      obtain ⟨hlen, -⟩ := fill_ok _ _ _ _ hfill
      dsimp only
      obtain ⟨reached, counted, through, hreach, hrest⟩ := ih (k+1)
        (remaining-min remaining blockSize) (by omega) (by omega)
      generalize hmore : chunkBytes pattern random blockSize fuel (k+1)
        (remaining-min remaining blockSize) = more at hreach hrest ⊢
      have hbytes : (buf++more).length ≤ remaining := by
        have := hreach.bytes_le
        rw [List.length_append]
        omega
      -- the write of the chunk, and with it the loop, goes on or not at every state alike
      by_cases hall : taken k (size-remaining) buf.length = buf.length
      · refine ⟨buf.length+reached, buf.length+counted, through,
          ⟨by have := hreach.le; rw [List.length_append]; omega, hbytes,
            by have := hreach.counted_le; omega, by have := hreach.near; omega,
            fun ht => by have := hreach.whole ht; omega⟩, ?_⟩
        intro done s hdone
        have hstore := hwrite k done buf s
        rw [hdone, hall] at hstore
        rcases hcases s h0 with ⟨e', hbuf, _⟩ | ⟨buf', hbuf, hwritten⟩
        · rw [hfill] at hbuf
          contradiction
        obtain rfl := Except.ok.inj (hfill.symm.trans hbuf)
        rcases hwritten with ⟨s', e, hw, _⟩ | ⟨s', hw, hout⟩
        · rw [hw] at hstore
          exact absurd (hstore.complete.mpr rfl) (by simp)
        · rw [hw] at hstore
          have hnext := hrest (done++buf) (s'.account buf.length total cb)
            (by rw [List.length_append]; omega)
          rw [hout, ← hlen]
          rw [← hlen] at hnext
          exact chunksTorn_next cb total done buf more remaining reached counted through s s' _
            hstore hnext
      · have hle := (hwrite k (List.replicate (size-remaining) 0) buf (eraseStart [])).le
        rw [List.length_replicate] at hle
        refine ⟨taken k (size-remaining) buf.length, 0, false,
          ⟨by rw [List.length_append]; omega, hbytes, Nat.zero_le _, by omega, by simp⟩, ?_⟩
        intro done s hdone
        have hstore := hwrite k done buf s
        rw [hdone] at hstore
        rcases hcases s h0 with ⟨e', hbuf, _⟩ | ⟨buf', hbuf, hwritten⟩
        · rw [hfill] at hbuf
          contradiction
        obtain rfl := Except.ok.inj (hfill.symm.trans hbuf)
        rcases hwritten with ⟨s', e, hw, hout⟩ | ⟨s', hw, _⟩
        · rw [hw] at hstore
          rw [hout]
          exact chunksTorn_part done buf more remaining _ s s' e hstore
        · rw [hw] at hstore
          exact absurd (hstore.complete.mp rfl) hall

end Chunks

section Writes
variable (pass : ℕ) (done data : Bytes) (s : EraseState)

theorem put_content (n : ℕ) (hn : n ≤ data.length) (rest : Bytes) (hs : s.content = done++rest) :
    (s.put pass done.length (data.take n)).content = done++torn data rest n := by
  change overwrite s.content ⟨done.length, data.take n⟩ = _
  rw [hs, overwrite_torn, torn, List.take_length, List.length_take, Nat.min_eq_left hn]
  rfl

theorem put_stores (n : ℕ) (f : Option Failure) (hn : n ≤ data.length)
    (hf : f = none ↔ n = data.length) :
    Stores done data n s (s.put pass done.length (data.take n), f) where
  le := hn
  content := put_content pass done data s n hn
  counts := ⟨rfl, rfl, rfl⟩
  complete := hf

theorem stores_rest (n m : ℕ) (out : EraseState × Option Failure) (hn : n ≤ data.length)
    (h : Stores (done++data.take n) (data.drop n) m (s.put pass done.length (data.take n)) out) :
    Stores done data (n+m) s out where
  le := by
    have := h.le
    rw [List.length_drop] at this
    omega
  content := fun rest hs => by
    have hput : (s.put pass done.length (data.take n)).content =
        (done++data.take n)++rest.drop n := by
      rw [put_content pass done data s n hn rest hs, torn, List.append_assoc]
    rw [h.content _ hput, List.append_assoc, torn_rest data rest n m hn]
  counts := counts_trans s (s.put pass done.length (data.take n)) out.1 ⟨rfl, rfl, rfl⟩ h.counts
  complete := by
    rw [h.complete, List.length_drop]
    omega

theorem stores_nothing (f : Option Failure) (hf : f = none ↔ data = []) :
    Stores done data 0 s (s, f) where
  le := Nat.zero_le _
  content := fun _ h => h
  counts := counts_refl s
  complete := by rw [hf, ← List.length_eq_zero_iff, eq_comm]

end Writes

theorem imageWrite_storing (io : ImageIo) (pass : ℕ) :
    Storing (imageWrite io pass) (fun k _ len => min (io.accepted pass k) len) := by
  intro k done buf s
  rw [imageWrite]
  dsimp only
  split_ifs with hpart
  · exact put_stores pass done buf s _ _ (Nat.min_le_right _ _) (iff_of_false (by simp) hpart)
  · exact put_stores pass done buf s _ none (Nat.min_le_right _ _)
      (iff_of_true rfl (not_not.mp hpart))

theorem writeLoop_stores (io : DeviceIo) (room : Option ℕ) (pass : ℕ)
    (outcomes : List WriteOutcome) (done data : Bytes) (s : EraseState) :
    Stores done data (taken room outcomes done.length data.length) s
      (writeLoop io room pass outcomes done.length data s) := by
  induction outcomes generalizing done data s with
  | nil =>
    rw [writeLoop, taken]
    split_ifs with hd
    · subst hd
      rw [List.length_nil, Nat.le_zero.mp (writable_le room done.length 0)]
      exact stores_nothing done [] s none (iff_of_true rfl rfl)
    · dsimp only
      split_ifs with hall
      · exact put_stores pass done data s _ none (writable_le _ _ _) (iff_of_true rfl hall)
      · exact put_stores pass done data s _ _ (writable_le _ _ _) (iff_of_false (by simp) hall)
  | cons outcome rest ih =>
    rw [writeLoop.eq_def]
    dsimp only
    split_ifs with hd
    · subst hd
      rw [List.length_nil, taken_empty]
      exact stores_nothing done [] s none (iff_of_true rfl rfl)
    have hlen : data.length ≠ 0 := fun h => hd (List.length_eq_zero_iff.mp h)
    cases outcome with
    | interrupted =>
      rw [taken, if_neg hlen]
      exact ih done data s
    | failed =>
      rw [taken]
      exact stores_nothing done data s _ (iff_of_false (by simp) hd)
    | wrote n =>
      rw [taken]
      dsimp only
      have hle := writable_le room done.length data.length
      by_cases hzero : min n (writable room done.length data.length) = 0
      · rw [if_pos hzero, if_pos hzero]
        exact stores_nothing done data s _ (iff_of_false (by simp) hd)
      · rw [if_neg hzero, if_neg hzero]
        have hn : min n (writable room done.length data.length) ≤ data.length := by omega
        have hrest := ih (done++data.take (min n (writable room done.length data.length)))
          (data.drop (min n (writable room done.length data.length)))
          (s.put pass done.length (data.take (min n (writable room done.length data.length))))
        rw [List.length_append, List.length_take, Nat.min_eq_left hn, List.length_drop] at hrest
        exact stores_rest pass done data s _ _ _ hn hrest

theorem deviceWrite_storing (io : DeviceIo) (room : Option ℕ) (pass : ℕ) :
    Storing (deviceWrite io room pass)
      (fun k start len => taken room (io.writes pass k) start len) :=
  fun k done buf s => writeLoop_stores io room pass (io.writes pass k) done buf s

section Passes
variable (stream : ℕ → Bytes) (size blockSize : ℕ)

/-- What a pass leaves of a target: so many of its bytes over what was there. -/
structure PassTorn (bytes : Bytes) (reached counted : ℕ) (through : Bool) (s : EraseState)
    (out : EraseState × Option Failure) : Prop where
  content : out.1.content = torn bytes s.content reached
  bytesWritten : s.bytesWritten < 2^64 →
    out.1.bytesWritten < 2^64 ∧ out.1.bytesWritten = (s.bytesWritten+counted) % 2^64
  passesCompleted : out.1.passesCompleted = s.passesCompleted+(if through then 1 else 0)
  through_iff : out.2 = none ↔ through = true

theorem passOf_torn (bytes : Bytes) (ready flushed : Bool)
    (chunks : EraseState → EraseState × Option Failure) (notReady notFlushed : Failure)
    (hb : 0 < blockSize) (hbytes : bytes.length ≤ size) (h : ∃ reached counted through,
      Reach bytes size blockSize reached counted through ∧
        ∀ s, ChunksTorn bytes [] size reached counted through s (chunks s)) :
    ∃ reached counted through, Reach bytes size blockSize reached counted through ∧
      ∀ s, PassTorn bytes reached counted through s
        (passOf ready flushed chunks notReady notFlushed s) := by
  obtain ⟨reached, counted, through, hreach, hchunks⟩ := h
  cases ready with
  | false =>
    refine ⟨0, 0, false, ⟨Nat.zero_le _, hbytes, le_rfl, by omega, by simp⟩, fun s => ?_⟩
    exact ⟨(torn_zero _ _).symm, fun h => ⟨h, (Nat.mod_eq_of_lt h).symm⟩, rfl, by simp [passOf]⟩
  | true =>
    refine ⟨reached, counted, through && flushed,
      ⟨hreach.le, hbytes, hreach.counted_le, hreach.near,
        fun ht => hreach.whole (Bool.and_eq_true_iff.mp ht).1⟩, fun s => ?_⟩
    have hs := hchunks s
    have hcontent := hs.content s.content rfl
    rw [List.nil_append] at hcontent
    rw [passOf, if_pos rfl]
    rcases hc : chunks s with ⟨s', _ | e⟩
    · rw [hc] at hs hcontent
      obtain rfl := hs.through_iff.mp rfl
      cases flushed with
      | false => exact ⟨hcontent, hs.bytesWritten, hs.passesCompleted, by simp⟩
      | true =>
        exact ⟨hcontent, hs.bytesWritten, congrArg (·+1) hs.passesCompleted, by simp⟩
    · rw [hc] at hs hcontent
      have hthrough : through = false := by
        rw [← Bool.not_eq_true, ← hs.through_iff]
        simp
      rw [hthrough]
      exact ⟨hcontent, hs.bytesWritten, hs.passesCompleted, by simp⟩

/-- Where a run over passes stops: the passes before, the pass it stops in or the
last one, and how many bytes of it are written and counted. -/
structure Stop where
  before : List ℕ
  pass : ℕ
  after : List ℕ
  reached : ℕ
  counted : ℕ
  through : Bool

/-- Every earlier pass is whole, and a run that goes through stops behind the last. -/
structure Stop.Fits (stop : Stop) (passes : List ℕ) : Prop where
  split : passes = stop.before++stop.pass::stop.after
  whole : ∀ p ∈ stop.before, (stream p).length = size
  reach : Reach (stream stop.pass) size blockSize stop.reached stop.counted stop.through
  last : stop.through = true → stop.after = []

structure Stop.Left (stop : Stop) (s : EraseState) (out : EraseState × Option Failure) : Prop where
  content : out.1.content = torn (stream stop.pass) (layered stream size s.content stop.before)
    stop.reached
  bytesWritten : s.bytesWritten < 2^64 → out.1.bytesWritten =
    (s.bytesWritten+(stop.before.length*size+stop.counted)) % 2^64
  passesCompleted : out.1.passesCompleted =
    s.passesCompleted+stop.before.length+(if stop.through then 1 else 0)
  through_iff : out.2 = none ↔ stop.through = true

/-- A run over passes stops at the same place from every state, also where less comes to
the target of the pass that it stops in. -/
theorem runPasses_stop {κ : Type*} (step : κ → ℕ → EraseState → EraseState × Option Failure)
    (cut : κ → ℕ → Bool → ℕ → ℕ) (hcut : ∀ way pass reached, cut way pass true reached = reached)
    (hstep : ∀ pass, ∃ reached counted through,
      Reach (stream pass) size blockSize reached counted through ∧
        ∀ way s, PassTorn (stream pass) (cut way pass through reached) counted through s
          (step way pass s))
    (first : ℕ) (rest : List ℕ) :
    ∃ stop : Stop, stop.Fits stream size blockSize (first::rest) ∧
      ∀ way s, ({ stop with reached := cut way stop.pass stop.through stop.reached } : Stop).Left
        stream size s (runPasses (step way) (first::rest) s) := by
  induction rest generalizing first with
  | nil =>
    obtain ⟨reached, counted, through, hreach, hpass⟩ := hstep first
    refine ⟨⟨[], first, [], reached, counted, through⟩, ⟨rfl, by simp, hreach, fun _ => rfl⟩,
      fun way s => ?_⟩
    have h := hpass way s
    have hrun : runPasses (step way) [first] s = step way first s := by
      rw [runPasses]
      rcases step way first s with ⟨s', _ | e⟩ <;> rfl
    rw [hrun]
    exact ⟨h.content, fun hlt => by simpa using (h.bytesWritten hlt).2, h.passesCompleted,
      h.through_iff⟩
  | cons second rest ih =>
    obtain ⟨reached, counted, through, hreach, hpass⟩ := hstep first
    cases through with
    | false =>
      refine ⟨⟨[], first, second::rest, reached, counted, false⟩,
        ⟨rfl, by simp, hreach, by simp⟩, fun way s => ?_⟩
      have h := hpass way s
      rw [runPasses]
      rcases hs : step way first s with ⟨s', _ | e⟩
      · rw [hs] at h
        exact absurd (h.through_iff.mp rfl) Bool.false_ne_true
      · rw [hs] at h
        exact ⟨h.content, fun hlt => by simpa using (h.bytesWritten hlt).2, h.passesCompleted,
          h.through_iff⟩
    | true =>
      obtain ⟨rfl, rfl⟩ := hreach.whole rfl
      simp only [hcut] at hpass
      obtain ⟨stop, hfits, hleft⟩ := ih second
      have hlen : (stream first).length = counted := le_antisymm hreach.bytes_le hreach.le
      refine ⟨{ stop with before := first::stop.before },
        ⟨congrArg (first::·) hfits.split, ?_, hfits.reach, hfits.last⟩, fun way s => ?_⟩
      · intro p hp
        rcases List.mem_cons.mp hp with rfl | hp
        · exact hlen
        · exact hfits.whole p hp
      have h := hpass way s
      rw [runPasses]
      rcases hs : step way first s with ⟨s', _ | e⟩
      · rw [hs] at h
        have hrest := hleft way s'
        refine ⟨?_, fun hlt => ?_, ?_, hrest.through_iff⟩
        · rw [hrest.content, h.content]
          rfl
        · obtain ⟨hlt', heq⟩ := h.bytesWritten hlt
          rw [hrest.bytesWritten hlt', heq, Nat.mod_add_mod]
          congr 1
          dsimp only
          rw [List.length_cons, Nat.succ_mul]
          omega
        · rw [hrest.passesCompleted, h.passesCompleted, List.length_cons]
          simp only [if_true]
          omega
      · rw [hs] at h
        exact absurd (h.through_iff.mpr rfl) (by simp)

end Passes

structure Leaves (stream : ℕ → Bytes) (size : ℕ) (stop : Stop) (old new : Bytes)
    (run : EraseRun) : Prop where
  content : new = torn (stream stop.pass) (underneath stream size old stop.before) stop.reached
  ok_iff : run.code = .ok ↔ stop.through = true
  bytesWritten : run.result.bytesWritten = (stop.before.length*size+stop.counted) % 2^64
  passesCompleted : run.result.passesCompleted =
    stop.before.length+(if stop.through then 1 else 0)

def Untouched (fs : FileSystem) (run : EraseRun) : Prop :=
  run.fs = fs ∧ run.code ≠ .ok ∧ run.result.bytesWritten = 0 ∧ run.result.passesCompleted = 0

theorem finished_leaves (fs : FileSystem) (node : ℕ) (stream : ℕ → Bytes) (size : ℕ)
    (stop : Stop) (old : Bytes) (out : EraseState × Option Failure)
    (hwhole : ∀ p ∈ stop.before, (stream p).length = size)
    (hleft : stop.Left stream size (eraseStart old) out) (hfails : ∀ e ∈ out.2, e.1 ≠ .ok) :
    Leaves stream size stop old out.1.content (finished fs node out) where
  content := by
    rw [hleft.content]
    exact congrArg (fun under => torn (stream stop.pass) under stop.reached)
      (layered_last stream size old stop.before (fun p hp => (hwhole p hp).ge))
  ok_iff := by
    rw [← hleft.through_iff]
    refine ⟨finished_ok fs node out hfails, fun h => ?_⟩
    rw [finished, h]
  bytesWritten := by
    have h := hleft.bytesWritten (Nat.two_pow_pos 64)
    rwa [show (eraseStart old).bytesWritten = 0 from rfl, Nat.zero_add] at h
  passesCompleted := by
    have h := hleft.passesCompleted
    rwa [show (eraseStart old).passesCompleted = 0 from rfl, Nat.zero_add] at h

section Image
variable (io : ImageIo) (imagePath : Text) (opts : BlockEraseOptions) (size : ℕ)

def imageStream (pass : ℕ) : Bytes :=
  passBytes opts.pattern (io.random pass) (clampBlockSize opts.blockSize) size

theorem imagePass_torn (total pass : ℕ) : ∃ reached counted through,
    Reach (imageStream io opts size pass) size (clampBlockSize opts.blockSize) reached counted
        through ∧
      ∀ s, PassTorn (imageStream io opts size pass) reached counted through s
        (imagePass io opts imagePath size (clampBlockSize opts.blockSize) total pass s) := by
  obtain ⟨notReady, notFlushed, hof⟩ :=
    imagePass_of io opts imagePath size (clampBlockSize opts.blockSize) total pass
  obtain ⟨reached, counted, through, hreach, hchunks⟩ := eraseChunks_torn opts.pattern
    (io.random pass) "Pattern generation failed.".toList (imageWrite io pass) opts.progressCb size
    (clampBlockSize opts.blockSize) total _ (imageWrite_storing io pass)
    (clampBlockSize_pos opts.blockSize) size 0 size le_rfl le_rfl
  obtain ⟨reached, counted, through, hreach, hpass⟩ := passOf_torn size
    (clampBlockSize opts.blockSize) (imageStream io opts size pass) (io.opened pass)
    (io.flushed pass) _ notReady notFlushed (clampBlockSize_pos opts.blockSize) hreach.bytes_le
    ⟨reached, counted, through, hreach, fun s => hchunks [] s (Nat.sub_self size).symm⟩
  refine ⟨reached, counted, through, hreach, fun s => ?_⟩
  rw [hof]
  exact hpass s

theorem image_stop : ∃ stop : Stop,
    stop.Fits (imageStream io opts size) size (clampBlockSize opts.blockSize)
        (List.range (clampPasses opts.passes)) ∧
      ∀ content : Bytes, content.length = size →
        stop.Left (imageStream io opts size) size (eraseStart content)
          (imagePassesOf io imagePath opts content) := by
  have hne : List.range (clampPasses opts.passes) ≠ [] := by
    have := clampPasses_pos opts.passes
    rw [Ne, List.range_eq_nil]
    omega
  obtain ⟨first, rest, hpasses⟩ := List.exists_cons_of_ne_nil hne
  obtain ⟨stop, hfits, hleft⟩ := runPasses_stop (imageStream io opts size) size
    (clampBlockSize opts.blockSize) (fun _ : Unit => imagePass io opts imagePath size
      (clampBlockSize opts.blockSize) (size*clampPasses opts.passes % 2^64))
    (fun _ _ _ reached => reached) (fun _ _ _ => rfl) (fun pass => by
      obtain ⟨reached, counted, through, hreach, hpass⟩ :=
        imagePass_torn io imagePath opts size (size*clampPasses opts.passes % 2^64) pass
      exact ⟨reached, counted, through, hreach, fun _ => hpass⟩) first rest
  rw [hpasses]
  refine ⟨stop, hfits, fun content hlen => ?_⟩
  rw [imagePassesOf, hpasses, hlen]
  exact hleft () (eraseStart content)

theorem image_ends (stop : Stop)
    (hfits : stop.Fits (imageStream io opts size) size (clampBlockSize opts.blockSize)
      (List.range (clampPasses opts.passes)))
    (hleft : ∀ content : Bytes, content.length = size →
      stop.Left (imageStream io opts size) size (eraseStart content)
        (imagePassesOf io imagePath opts content))
    (fs : FileSystem) (node : ℕ) (content : Bytes) (hres : fs.resolve imagePath = some node)
    (hfile : fs.object node = .regular content) (hlen : content.length = size) :
    Untouched fs (blockEraseImage fs io imagePath opts) ∨
      ∃ new, (blockEraseImage fs io imagePath opts).fs = fs.store node new ∧
        Leaves (imageStream io opts size) size stop content new
          (blockEraseImage fs io imagePath opts) := by
  rcases image_finished_or_refused fs io imagePath opts node content hres hfile with
    ⟨_, _, hrun⟩ | ⟨code, message, hrun, hcode⟩
  · rw [hrun]
    exact Or.inr ⟨_, rfl, finished_leaves fs node _ size stop content _ hfits.whole
      (hleft content hlen) (imagePassesOf_fails io imagePath opts content)⟩
  · rw [hrun]
    exact Or.inl ⟨rfl, hcode, rfl, rfl⟩

end Image

def stoppedIo : ImageIo :=
  { ImageIo.calm with accepted := fun pass _ => if pass = 0 then maxBlockSize else 1 }

def twiceRandom : BlockEraseOptions :=
  { blockEraseOptionsInit with pattern := .random, passes := 2 }

section Device
variable (io : DeviceIo) (opts : BlockEraseOptions)

def deviceStream (capacity pass : ℕ) : Bytes :=
  passBytes opts.pattern (io.random pass) (clampBlockSize opts.blockSize) capacity

theorem devicePass_torn (room : Option ℕ) (capacity total pass : ℕ) :
    ∃ reached counted through,
      Reach (deviceStream io opts capacity pass) capacity (clampBlockSize opts.blockSize) reached
          counted through ∧
        ∀ s, PassTorn (deviceStream io opts capacity pass) reached counted through s
          (devicePass io opts room capacity (clampBlockSize opts.blockSize) total pass s) := by
  obtain ⟨notReady, notFlushed, hof⟩ :=
    devicePass_of io opts room capacity (clampBlockSize opts.blockSize) total pass
  obtain ⟨reached, counted, through, hreach, hchunks⟩ := eraseChunks_torn opts.pattern
    (io.random pass) [] (deviceWrite io room pass) opts.progressCb capacity
    (clampBlockSize opts.blockSize) total _ (deviceWrite_storing io room pass)
    (clampBlockSize_pos opts.blockSize) capacity 0 capacity le_rfl le_rfl
  obtain ⟨reached, counted, through, hreach, hpass⟩ := passOf_torn capacity
    (clampBlockSize opts.blockSize) (deviceStream io opts capacity pass) (io.seeked pass)
    (io.flushed pass) _ notReady notFlushed (clampBlockSize_pos opts.blockSize) hreach.bytes_le
    ⟨reached, counted, through, hreach, fun s => hchunks [] s (Nat.sub_self capacity).symm⟩
  refine ⟨reached, counted, through, hreach, fun s => ?_⟩
  rw [hof]
  exact hpass s

theorem device_stop (room : Option ℕ) (device : StorageDevice) : ∃ stop : Stop,
    stop.Fits (deviceStream io opts (deviceCapacity io device)) (deviceCapacity io device)
        (clampBlockSize opts.blockSize) (devicePasses (clampPasses opts.passes)) ∧
      ∀ old : Bytes, stop.Left (deviceStream io opts (deviceCapacity io device))
        (deviceCapacity io device) (eraseStart old)
        (runPasses (devicePass io opts room (deviceCapacity io device)
            (clampBlockSize opts.blockSize)
            (deviceCapacity io device*clampPasses opts.passes % 2^64))
          (devicePasses (clampPasses opts.passes)) (eraseStart old)) := by
  obtain ⟨earlier, hlast⟩ :=
    devicePasses_last (clampPasses opts.passes) (clampPasses_pos opts.passes)
  obtain ⟨first, rest, hpasses⟩ := List.exists_cons_of_ne_nil
    (List.ne_nil_of_mem (hlast ▸ List.mem_append_right earlier (List.mem_singleton_self _)))
  obtain ⟨stop, hfits, hleft⟩ := runPasses_stop
    (deviceStream io opts (deviceCapacity io device)) (deviceCapacity io device)
    (clampBlockSize opts.blockSize) (fun _ : Unit => devicePass io opts room
      (deviceCapacity io device) (clampBlockSize opts.blockSize)
      (deviceCapacity io device*clampPasses opts.passes % 2^64))
    (fun _ _ _ reached => reached) (fun _ _ _ => rfl) (fun pass => by
      obtain ⟨reached, counted, through, hreach, hpass⟩ :=
        devicePass_torn io opts room (deviceCapacity io device)
          (deviceCapacity io device*clampPasses opts.passes % 2^64) pass
      exact ⟨reached, counted, through, hreach, fun _ => hpass⟩) first rest
  rw [hpasses]
  exact ⟨stop, hfits, fun old => hleft () (eraseStart old)⟩

theorem device_ends (room : Option ℕ) (device : StorageDevice) (stop : Stop)
    (hfits : stop.Fits (deviceStream io opts (deviceCapacity io device))
      (deviceCapacity io device) (clampBlockSize opts.blockSize)
      (devicePasses (clampPasses opts.passes)))
    (hleft : ∀ old : Bytes, stop.Left (deviceStream io opts (deviceCapacity io device))
      (deviceCapacity io device) (eraseStart old)
      (runPasses (devicePass io opts room (deviceCapacity io device)
          (clampBlockSize opts.blockSize)
          (deviceCapacity io device*clampPasses opts.passes % 2^64))
        (devicePasses (clampPasses opts.passes)) (eraseStart old)))
    (fs : FileSystem) (confirmation : Text) (node : ℕ)
    (hstarted : Started fs io device confirmation node) (hroom : (fs.object node).room = room) :
    ∃ new, (blockEraseDevice fs io device opts confirmation).fs = fs.store node new ∧
      Leaves (deviceStream io opts (deviceCapacity io device)) (deviceCapacity io device) stop
        (fs.object node).content new (blockEraseDevice fs io device opts confirmation) := by
  rw [started_finished fs io device opts confirmation node hstarted]
  refine ⟨_, rfl, finished_leaves fs node _ _ stop _ _ hfits.whole ?_
    (devicePassesOf_fails fs io device opts node)⟩
  rw [devicePassesOf, hroom]
  exact hleft (fs.object node).content

/-- Where a run that comes to its passes stops is fixed by what its calls return, the
capacity and the end of the device. It leaves the bytes of the pass it stops in over
those of the pass before, or over the old content when there is none. -/
theorem device_leaves (room : Option ℕ) (device : StorageDevice) : ∃ stop : Stop,
    stop.Fits (deviceStream io opts (deviceCapacity io device)) (deviceCapacity io device)
        (clampBlockSize opts.blockSize) (devicePasses (clampPasses opts.passes)) ∧
      ∀ fs confirmation node, Started fs io device confirmation node →
        (fs.object node).room = room →
        ∃ new, (blockEraseDevice fs io device opts confirmation).fs = fs.store node new ∧
          Leaves (deviceStream io opts (deviceCapacity io device)) (deviceCapacity io device) stop
            (fs.object node).content new (blockEraseDevice fs io device opts confirmation) := by
  obtain ⟨stop, hfits, hleft⟩ := device_stop io opts room device
  exact ⟨stop, hfits, device_ends io opts room device stop hfits hleft⟩

end Device

theorem device_leaves_three : ∃ stop new,
    (blockEraseDevice threeFs interruptedIo threeBytes twiceRandom "/dev/sdb".toList).fs =
        threeFs.store 0 new ∧
      Leaves (deviceStream interruptedIo twiceRandom 3) 3 stop [0x41, 0x42, 0x43] new
        (blockEraseDevice threeFs interruptedIo threeBytes twiceRandom "/dev/sdb".toList) := by
  obtain ⟨stop, _, hleaves⟩ := device_leaves interruptedIo twiceRandom (some 3) threeBytes
  obtain ⟨new, hfs, hleft⟩ := hleaves threeFs "/dev/sdb".toList 0
    ⟨⟨rfl, by decide, rfl, by decide, by decide⟩, rfl, rfl⟩ rfl
  exact ⟨stop, new, hfs, hleft⟩

end EraseCure.TornErases
