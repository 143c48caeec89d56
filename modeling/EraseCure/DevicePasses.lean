import EraseCure.BlockEraseDevice
import EraseCure.PassTraces
import Mathlib.Data.List.Nodup

/-!
# Whole passes over a device

However the writes of a chunk are cut, a pass over a device goes through exactly
when its pieces tile the capacity from the start on and the flush succeeds. The
passes that are counted are those, and after a success they are all of them.
-/

set_option autoImplicit false

namespace EraseCure.DevicePasses
open EraseCure.CText EraseCure.Devices EraseCure.ErrorCodes EraseCure.FileSystems
open EraseCure.ByteRanges EraseCure.ErasePasses EraseCure.BlockEraseImage
open EraseCure.BlockEraseDevice EraseCure.PassTraces

/-- The bytes of a chunk that its writes take until one of them fails. -/
def taken (room : Option ℕ) : List WriteOutcome → ℕ → ℕ → ℕ
  | [], start, len => writable room start len
  | .interrupted::rest, start, len => if len = 0 then 0 else taken room rest start len
  | .failed::_, _, _ => 0
  | .wrote n::rest, start, len =>
    let written := min n (writable room start len)
    if written = 0 then 0 else written+taken room rest (start+written) (len-written)

section Writing
variable (io : DeviceIo) (pattern : ErasePattern) (room : Option ℕ) (pass : ℕ)

theorem takes_nothing (start : ℕ) (data : Bytes) (s : EraseState) (f : Option Failure)
    (hf : f = none ↔ data = []) : Takes pattern pass start data 0 s (s, f) where
  le := Nat.zero_le _
  advances := ⟨[], advances_refl pattern pass start s⟩
  counts := counts_refl s
  complete := by
    rw [hf, eq_comm (a := 0)]
    exact List.length_eq_zero_iff.symm

theorem taken_empty (outcomes : List WriteOutcome) (start : ℕ) :
    taken room outcomes start 0 = 0 := by
  have hnone : writable room start 0 = 0 := Nat.le_zero.mp (writable_le room start 0)
  cases outcomes with
  | nil => exact hnone
  | cons outcome rest =>
    cases outcome with
    | interrupted => rfl
    | failed => rfl
    | wrote n =>
      rw [taken, hnone, Nat.min_zero]
      rfl

theorem takes_rest (start n m : ℕ) (data : Bytes) (s : EraseState)
    (out : EraseState × Option Failure) (hn : n ≤ data.length) (hd : Filled pattern data)
    (h : Takes pattern pass (start+n) (data.drop n) m (s.put pass start (data.take n)) out) :
    Takes pattern pass start data (n+m) s out := by
  have hlen : (data.drop n).length = data.length-n := List.length_drop
  obtain ⟨hle, ⟨ws, hw⟩, hcounts, hcomplete⟩ := h
  have hsame : SameCounts s (s.put pass start (data.take n)) := ⟨rfl, rfl, rfl⟩
  have hall := advances_trans pattern pass start s _ _ _ _ _ ws
    (put_advances pattern pass start n data s hn hd) hw
  rw [Nat.add_assoc] at hall
  exact ⟨by omega, ⟨_, hall⟩, counts_trans s _ _ hsame hcounts, hcomplete.trans (by omega)⟩

theorem writeLoop_takes (outcomes : List WriteOutcome) (start : ℕ) (data : Bytes) (s : EraseState)
    (hd : Filled pattern data) :
    Takes pattern pass start data (taken room outcomes start data.length) s
      (writeLoop io room pass outcomes start data s) := by
  induction outcomes generalizing start data s with
  | nil =>
    rw [writeLoop, taken]
    by_cases hempty : data = []
    · subst hempty
      rw [if_pos rfl, List.length_nil, Nat.le_zero.mp (writable_le room start 0)]
      exact takes_nothing pattern pass start [] s none (by simp)
    · rw [if_neg hempty]
      have hle := writable_le room start data.length
      dsimp only
      split_ifs with hall
      · exact takes_part pattern pass start _ data s none hle hd (iff_of_true rfl hall)
      · exact takes_part pattern pass start _ data s _ hle hd (iff_of_false (by simp) hall)
  | cons outcome rest ih =>
    rw [writeLoop.eq_def]
    dsimp only
    by_cases hempty : data = []
    · subst hempty
      rw [if_pos rfl, List.length_nil, taken_empty]
      exact takes_nothing pattern pass start [] s none (by simp)
    rw [if_neg hempty]
    have hpos : data.length ≠ 0 := fun h => hempty (List.length_eq_zero_iff.mp h)
    cases outcome with
    | interrupted =>
      rw [taken, if_neg hpos]
      exact ih start data s hd
    | failed => exact takes_nothing pattern pass start data s _ (by simpa using hempty)
    | wrote n =>
      have hle := writable_le room start data.length
      dsimp only
      rw [taken]
      generalize hwritten : min n (writable room start data.length) = written
      by_cases hzero : written = 0
      · rw [if_pos hzero, if_pos hzero]
        exact takes_nothing pattern pass start data s _ (by simpa using hempty)
      · rw [if_neg hzero, if_neg hzero]
        have hrest := ih (start+written) (data.drop written)
          (s.put pass start (data.take written)) (filled_part _ _ _ hd (List.drop_subset _ _))
        rw [List.length_drop] at hrest
        exact takes_rest pattern pass start written _ data s _ (by omega) hd hrest

theorem deviceWrite_delivers : Delivers pattern (deviceWrite io room pass) pass
    (fun k start len => taken room (io.writes pass k) start len) :=
  fun k start buf s hd => writeLoop_takes io pattern room pass (io.writes pass k) start buf s hd

end Writing

section Passes
variable (io : DeviceIo) (opts : BlockEraseOptions) (room : Option ℕ)
  (capacity blockSize total : ℕ)

/-- What a pass of a device comes to when it cannot seek or flush. -/
theorem devicePass_of (pass : ℕ) : ∃ notReady notFlushed, ∀ s,
    devicePass io opts room capacity blockSize total pass s =
      passOf (io.seeked pass) (io.flushed pass)
        (deviceChunks io opts room capacity blockSize total pass capacity 0 capacity)
        notReady notFlushed s :=
  ⟨_, _, fun _ => rfl⟩

variable (hb : 0 < blockSize)
include hb

theorem devicePass_run (hpos : 0 < capacity) (pass : ℕ) (s : EraseState) :
    ∃ pieces, PassRun opts.pattern capacity io.flushed pass s
      (devicePass io opts room capacity blockSize total pass s) pieces := by
  obtain ⟨notReady, notFlushed, hof⟩ := devicePass_of io opts room capacity blockSize total pass
  obtain ⟨ws, stop, hadv, _, hstop, hcounted⟩ := eraseChunks_trace opts.pattern (io.random pass) []
    (deviceWrite io room pass) opts.progressCb capacity blockSize total pass _
    (deviceWrite_delivers io opts.pattern room pass) capacity 0 capacity s hb le_rfl le_rfl
  rw [Nat.sub_self] at hadv
  rw [hof]
  exact passOf_run opts.pattern capacity io.flushed pass _ _ _ _ s hpos
    ⟨ws, stop, hadv, hstop, hcounted⟩

theorem devicePass_accounted (pass : ℕ) (s : EraseState) (hbytes : s.bytesWritten+capacity < 2^64) :
    Accounted blockSize total opts.progressCb capacity (blockCount capacity blockSize) s
      (devicePass io opts room capacity blockSize total pass s) := by
  obtain ⟨notReady, notFlushed, hof⟩ := devicePass_of io opts room capacity blockSize total pass
  rw [hof]
  exact passOf_accounted _ _ _ _ _ s blockSize total opts.progressCb _ _
    (eraseChunks_accounted opts.pattern (io.random pass) [] (deviceWrite io room pass)
      opts.progressCb capacity blockSize total pass _
      (deviceWrite_delivers io opts.pattern room pass) capacity 0 capacity s hb le_rfl hbytes)

end Passes

theorem devicePasses_distinct (passes : ℕ) : (devicePasses passes).Nodup :=
  List.Nodup.map Nat.succ_injective List.nodup_range

theorem devicePasses_length (passes : ℕ) : (devicePasses passes).length = passes := by
  rw [devicePasses, List.length_map, List.length_range]

theorem devicePasses_last (passes : ℕ) (h : 0 < passes) :
    ∃ earlier, devicePasses passes = earlier++[passes] := by
  obtain ⟨n, rfl⟩ := Nat.exists_eq_succ_of_ne_zero (Nat.ne_of_gt h)
  exact ⟨_, by rw [devicePasses, List.range_succ, List.map_append]; rfl⟩

section Runs
variable (fs : FileSystem) (io : DeviceIo) (device : StorageDevice) (opts : BlockEraseOptions)
  (node : ℕ)

theorem devicePassesOf_trace (hsized : deviceCapacity io device ≠ 0) :
    ∃ pieces, PassesRun opts.pattern (deviceCapacity io device) io.flushed
        (devicePasses (clampPasses opts.passes)) (eraseStart (fs.object node).content)
        (devicePassesOf fs io device opts node).1 pieces ∧
      ((devicePassesOf fs io device opts node).2 = none ↔
        ∀ p ∈ devicePasses (clampPasses opts.passes),
          WholePass (deviceCapacity io device) io.flushed p (pieces p)) :=
  runPasses_trace opts.pattern (deviceCapacity io device) io.flushed _
    (Nat.pos_of_ne_zero hsized)
    (fun pass s => devicePass_run io opts _ _ _ _ (clampBlockSize_pos _)
      (Nat.pos_of_ne_zero hsized) pass s)
    (devicePasses (clampPasses opts.passes)) (devicePasses_distinct _) _

theorem devicePassesOf_fails :
    ∀ e ∈ (devicePassesOf fs io device opts node).2, e.1 ≠ .ok := by
  obtain ⟨_, _, _, _, hfail⟩ := runPasses_spec opts.pattern (deviceCapacity io device) _
    (fun pass s => devicePass_spec io opts (fs.object node).room (deviceCapacity io device)
      (clampBlockSize opts.blockSize) (deviceCapacity io device*clampPasses opts.passes % 2^64)
      pass s (clampBlockSize_pos _))
    (devicePasses (clampPasses opts.passes)) (eraseStart (fs.object node).content)
  exact hfail

theorem devicePassesOf_bytes (hbytes : clampPasses opts.passes*deviceCapacity io device < 2^64)
    (h : (devicePassesOf fs io device opts node).2 = none) :
    (devicePassesOf fs io device opts node).1.bytesWritten =
      clampPasses opts.passes*deviceCapacity io device := by
  have hlen := devicePasses_length (clampPasses opts.passes)
  obtain ⟨_, _, _, hdone⟩ := runPasses_accounted (deviceCapacity io device)
    (devicePass io opts (fs.object node).room (deviceCapacity io device)
      (clampBlockSize opts.blockSize) (deviceCapacity io device*clampPasses opts.passes % 2^64))
    (clampBlockSize opts.blockSize) (deviceCapacity io device*clampPasses opts.passes % 2^64)
    opts.progressCb (blockCount (deviceCapacity io device) (clampBlockSize opts.blockSize))
    (fun pass s hs => devicePass_accounted io opts _ _ _ _ (clampBlockSize_pos _) pass s hs)
    (devicePasses (clampPasses opts.passes)) (eraseStart (fs.object node).content)
    (by rw [hlen]; simpa [eraseStart] using hbytes)
  have hend := (hdone h).1
  rw [hlen] at hend
  exact hend.trans (Nat.zero_add _)

end Runs

/-- An object that keeps what is written to it. -/
def Keeps (o : Object) : Prop := ∀ c, (o.put c).content = c

theorem blockDevice_keeps (c : Bytes) : Keeps (.blockDevice c) := fun _ => rfl

structure TiledRun (fs : FileSystem) (io : DeviceIo) (device : StorageDevice)
    (opts : BlockEraseOptions) (run : EraseRun) (pieces : ℕ → List (Piece UInt8)) : Prop where
  writes : run.writes =
    (devicePasses (clampPasses opts.passes)).flatMap (fun p => (pieces p).map (Prod.mk p))
  counted : run.result.passesCompleted = ((devicePasses (clampPasses opts.passes)).filter
    (fun p => WholePass (deviceCapacity io device) io.flushed p (pieces p))).length
  whole : run.code = .ok → ∀ p ∈ devicePasses (clampPasses opts.passes),
    WholePass (deviceCapacity io device) io.flushed p (pieces p)
  completed : run.code = .ok → run.result.passesCompleted = clampPasses opts.passes
  bytes : run.code = .ok →
    run.result.bytesWritten = clampPasses opts.passes*deviceCapacity io device
  constant : run.code = .ok → ∀ b ∈ patternByte opts.pattern,
    ∀ node, fs.resolve device.path.chars = some node → Keeps (fs.object node) →
      ∀ i < deviceCapacity io device, (run.fs.object node).content[i]? = some b

section Tiling
variable (fs : FileSystem) (io : DeviceIo) (device : StorageDevice) (opts : BlockEraseOptions)

theorem refused_tiled (hsized : deviceCapacity io device ≠ 0) (code : ErasecureError)
    (message : Text) (h : code ≠ .ok) :
    TiledRun fs io device opts (refused fs code message) (fun _ => []) where
  writes := (List.flatMap_eq_nil_iff.mpr fun _ _ => rfl).symm
  counted := by
    have hnone := (passes_unreached opts.pattern (deviceCapacity io device) io.flushed
      (Nat.pos_of_ne_zero hsized) (devicePasses (clampPasses opts.passes)) (eraseStart [])).counted
    exact hnone.trans (Nat.zero_add _)
  whole := fun hok => absurd hok h
  completed := fun hok => absurd hok h
  bytes := fun hok => absurd hok h
  constant := fun hok => absurd hok h

theorem finished_tiled (hsized : deviceCapacity io device ≠ 0)
    (hbytes : clampPasses opts.passes*deviceCapacity io device < 2^64) (node : ℕ)
    (hnode : fs.resolve device.path.chars = some node) :
    ∃ pieces, TiledRun fs io device opts
      (finished fs node (devicePassesOf fs io device opts node)) pieces := by
  obtain ⟨pieces, hrun, hall⟩ := devicePassesOf_trace fs io device opts node hsized
  have hfails := devicePassesOf_fails fs io device opts node
  have hcounted : (devicePassesOf fs io device opts node).1.passesCompleted = _ :=
    hrun.counted.trans (Nat.zero_add _)
  refine ⟨pieces, hrun.extends_.1, hcounted, ?_, ?_, ?_, ?_⟩
  · intro hok
    exact hall.mp (finished_ok fs node _ hfails hok)
  · intro hok
    have hwhole := hall.mp (finished_ok fs node _ hfails hok)
    have hfilter := List.filter_eq_self.mpr fun p hp => decide_eq_true (hwhole p hp)
    refine hcounted.trans ?_
    rw [hfilter, devicePasses_length]
  · intro hok
    exact devicePassesOf_bytes fs io device opts node hbytes (finished_ok fs node _ hfails hok)
  · intro hok b hb node' hnode' hkeeps i hi
    obtain rfl : node = node' := Option.some.inj (hnode.symm.trans hnode')
    have hwhole := hall.mp (finished_ok fs node _ hfails hok)
    obtain ⟨earlier, hlast⟩ := devicePasses_last (clampPasses opts.passes) (clampPasses_pos _)
    rw [hlast] at hrun hwhole
    have hcontent : ((finished fs node (devicePassesOf fs io device opts node)).fs.object
        node).content = (devicePassesOf fs io device opts node).1.content := by
      rw [finished, store_same]
      exact hkeeps _
    rw [hcontent]
    exact passes_constant opts.pattern _ io.flushed earlier _ _ _ pieces hrun
      (hwhole _ (by simp)).1 b hb i hi

end Tiling

/-- When the checks are passed, the passes that are counted are those whose pieces
tile the capacity and that are flushed; after a success these are all passes, in
order and each from the start, the bytes are counted in full, and a constant
pattern has left its byte everywhere. -/
theorem device_passes_tile (fs : FileSystem) (io : DeviceIo) (device : StorageDevice)
    (opts : BlockEraseOptions) (confirmation : Text) (hgates : Gated fs io device confirmation)
    (hbytes : clampPasses opts.passes*deviceCapacity io device < 2^64) :
    ∃ pieces, TiledRun fs io device opts (blockEraseDevice fs io device opts confirmation)
      pieces := by
  rcases started_or_refused fs io device opts confirmation with
    ⟨node, hstarted⟩ | ⟨_, code, message, hrefused, hcode⟩
  · rw [started_finished fs io device opts confirmation node hstarted]
    exact finished_tiled fs io device opts hgates.sized hbytes node
      (openDevice_node fs io _ node hstarted.opened)
  · rw [hrefused]
    exact ⟨_, refused_tiled fs io device opts hgates.sized code message hcode⟩

def threeBytes : StorageDevice where
  path := printed256 "/dev/sdb".toList
  capacityBytes := 3
  deviceType := .usbFlash
  transportType := .usb
  isReadOnly := false
  encryptionStatus := .unknown
  capabilities := ⟨true, false, false⟩

def threeFs : FileSystem := soleObject "/dev/sdb".toList (.blockDevice [0x41, 0x42, 0x43])

def interruptedIo : DeviceIo :=
  { DeviceIo.calm 3 with writes := fun pass _ => if pass = 1 then [.wrote 1, .interrupted] else [] }

theorem three_gated (io : DeviceIo) (hp : io.procMounts = some []) (hb : io.blkgetsize = some 3) :
    Gated threeFs io threeBytes "/dev/sdb".toList where
  confirmed := rfl
  blockDevice := rfl
  writable := rfl
  unmounted := by
    rw [hp]
    rfl
  sized := by
    rw [deviceCapacity, hb]
    decide

theorem device_passes_tile_three : ∃ pieces,
    TiledRun threeFs interruptedIo threeBytes { blockEraseOptionsInit with passes := 2 }
      (blockEraseDevice threeFs interruptedIo threeBytes { blockEraseOptionsInit with passes := 2 }
        "/dev/sdb".toList) pieces :=
  device_passes_tile threeFs interruptedIo threeBytes _ _ (three_gated interruptedIo rfl rfl)
    (by decide)

example : ((blockEraseDevice threeFs interruptedIo threeBytes
    { blockEraseOptionsInit with passes := 2 } "/dev/sdb".toList).writes.map
      (fun w => (w.1, w.2.start, w.2.data.length))) = [(1, 0, 1), (1, 1, 2), (2, 0, 3)] := by
  rfl

end EraseCure.DevicePasses
