import EraseCure.BlockEraseImage

/-!
# Erasing a device

Four checks come before the device is opened. Its size is what the kernel
reports, or else what the record says. A chunk is written by as many calls as
it takes: an interrupted one is made again, and a device ends where it ends.
-/

set_option autoImplicit false

namespace EraseCure.BlockEraseDevice
open EraseCure.CText EraseCure.Devices EraseCure.FileSystems
open EraseCure.ErasePasses EraseCure.BlockEraseImage

inductive OpenOutcome where
  | opened | denied | busy | failed
  deriving DecidableEq

inductive WriteOutcome where
  | interrupted
  | failed
  | wrote (n : ℕ)
  deriving DecidableEq

/-- What the calls of one run return: the mount tables, the opening, the size
that the kernel reports, the buffer, and by pass the seek, random bytes for
each chunk, the writes of each chunk and the flush. Writes that are not listed
take what is left. -/
structure DeviceIo where
  procMounts : Option Text
  mtab : Option Text
  openOutcome : OpenOutcome
  blkgetsize : Option ℕ
  allocated : Bool
  seeked : ℕ → Bool
  random : ℕ → ℕ → RandBytes
  writes : ℕ → ℕ → List WriteOutcome
  flushed : ℕ → Bool
  strerror : Text

def DeviceIo.calm (size : ℕ) : DeviceIo where
  procMounts := some []
  mtab := none
  openOutcome := .opened
  blkgetsize := some size
  allocated := true
  seeked := fun _ => true
  random := fun _ _ => some (fun _ => 0x5A)
  writes := fun _ _ => []
  flushed := fun _ => true
  strerror := "Success".toList

section Loops
variable (io : DeviceIo) (opts : BlockEraseOptions) (room : Option ℕ)
  (capacity blockSize total pass : ℕ)

def writeFailure : Failure :=
  (.writeFailed, "write() failed at pass ".toList++decimal pass++": ".toList++io.strerror)

def writeNothing : Failure :=
  (.writeFailed, "write() returned 0 unexpectedly at pass ".toList++decimal pass)

/-- What a write of a length at a position can take. At the end of a device
it takes nothing and fails. -/
def writable (start len : ℕ) : ℕ :=
  match room with
  | none => len
  | some size => min len (size-start)

def writeLoop : List WriteOutcome → ℕ → Bytes → EraseState → EraseState × Option Failure
  | [], start, data, s =>
    if data = [] then (s, none)
    else
      let written := writable room start data.length
      let s' := s.put pass start (data.take written)
      if written = data.length then (s', none) else (s', some (writeFailure io pass))
  | outcome::rest, start, data, s =>
    if data = [] then (s, none)
    else
      match outcome with
      | .interrupted => writeLoop rest start data s
      | .failed => (s, some (writeFailure io pass))
      | .wrote n =>
        let written := min n (writable room start data.length)
        if written = 0 then
          (s, some (if n = 0 then writeNothing pass else writeFailure io pass))
        else
          writeLoop rest (start+written) (data.drop written)
            (s.put pass start (data.take written))

def deviceWrite (k start : ℕ) (buf : Bytes) (s : EraseState) : EraseState × Option Failure :=
  writeLoop io room pass (io.writes pass k) start buf s

def deviceChunks : ℕ → ℕ → ℕ → EraseState → EraseState × Option Failure :=
  eraseChunks opts.pattern (io.random pass) [] (deviceWrite io room pass) opts.progressCb capacity
    blockSize total

def devicePass (s : EraseState) : EraseState × Option Failure :=
  if io.seeked pass then
    match deviceChunks io opts room capacity blockSize total pass capacity 0 capacity s with
    | (s', some e) => (s', some e)
    | (s', none) =>
      if io.flushed pass then (s'.passDone, none)
      else (s', some (.syncFailed, "fsync failed at pass ".toList++decimal pass++
        ": ".toList++io.strerror))
  else (s, some (.seekFailed, "lseek failed on pass ".toList++decimal pass++
    ": ".toList++io.strerror))

end Loops

/-- Passes of a device are counted from one. -/
def devicePasses (passes : ℕ) : List ℕ := (List.range passes).map (·+1)

def deviceCapacity (io : DeviceIo) (device : StorageDevice) : ℕ :=
  match io.blkgetsize with
  | some size => if 0 < size then size else device.capacityBytes
  | none => device.capacityBytes

/-- What opening a path for writing comes to. -/
def openDevice (fs : FileSystem) (io : DeviceIo) (path : Text) : Except OpenOutcome ℕ :=
  match io.openOutcome, fs.resolve path with
  | .opened, some node =>
    match fs.object node with
    | .directory _ | .symlink _ => .error .failed
    | _ => .ok node
  | .opened, none => .error .failed
  | outcome, _ => .error outcome

def openRefused (fs : FileSystem) (io : DeviceIo) (path : Text) : OpenOutcome → EraseRun
  | .denied => refused fs .permissionDenied
      ("Permission denied opening '".toList++path++"'. Root privileges required.".toList)
  | .busy => refused fs .deviceBusy
      ("Device '".toList++path++"' is busy or held exclusively by another process.".toList)
  | _ => refused fs .openFailed ("open('".toList++path++"') failed: ".toList++io.strerror)

def blockEraseDevice (fs : FileSystem) (io : DeviceIo) (device : StorageDevice)
    (opts : BlockEraseOptions) (confirmation : Text) : EraseRun :=
  let path := device.path.chars
  if confirmation ≠ path then
    refused fs .confirmation ("SAFETY: Confirmation token '".toList++confirmation++
      "' does not match device path '".toList++path++"'".toList)
  else if !devicePathIsBlockDevice fs path then
    refused fs .notADevice ("SAFETY: '".toList++path++
      "' is not recognized as a physical block device".toList)
  else if device.isReadOnly then
    refused fs .deviceReadOnly ("SAFETY: Device '".toList++path++"' is reported read-only".toList)
  else if deviceIsMounted io.procMounts io.mtab path then
    refused fs .deviceMounted ("SAFETY: Device '".toList++path++
      "' or one of its partitions is mounted. Refusing erasure.".toList)
  else
    let blockSize := clampBlockSize opts.blockSize
    let passes := clampPasses opts.passes
    match openDevice fs io path with
    | .error outcome => openRefused fs io path outcome
    | .ok node =>
      let capacity := deviceCapacity io device
      if capacity = 0 then
        refused fs .deviceScanFail ("Device '".toList++path++"' reported zero capacity".toList)
      else if !io.allocated then
        refused fs .alloc ("Failed to allocate ".toList++decimal blockSize++
          "-byte I/O buffer".toList)
      else
        finished fs node (runPasses
          (devicePass io opts (fs.object node).room capacity blockSize (capacity*passes % 2^64))
          (devicePasses passes) (eraseStart (fs.object node).content))

theorem writable_le (room : Option ℕ) (start len : ℕ) : writable room start len ≤ len := by
  cases room with
  | none => exact Nat.le_refl _
  | some size => exact Nat.min_le_left _ _

theorem wrote_taken (pattern : ErasePattern) (pass start n : ℕ) (data : Bytes) (s : EraseState)
    (hn : n ≤ data.length) (hf : Filled pattern data) :
    Wrote pattern pass start (start+n) s (s.put pass start (data.take n), none)
      [(pass, ⟨start, data.take n⟩)] := by
  have hput := wrote_put pattern pass start (data.take n) s
    (filled_part _ _ _ hf (List.take_subset _ _))
  rwa [List.length_take, Nat.min_eq_left hn] at hput

theorem writeLoop_spec (io : DeviceIo) (pattern : ErasePattern) (room : Option ℕ) (pass : ℕ)
    (outcomes : List WriteOutcome) (start : ℕ) (data : Bytes) (s : EraseState)
    (hf : Filled pattern data) :
    ∃ ws, Wrote pattern pass start (start+data.length) s
      (writeLoop io room pass outcomes start data s) ws := by
  induction outcomes generalizing start data s with
  | nil =>
    rw [writeLoop]
    split
    · rename_i hd
      subst hd
      exact ⟨[], wrote_nothing pattern pass start s⟩
    · have hle := writable_le room start data.length
      have hput := wrote_taken pattern pass start _ data s hle hf
      dsimp only
      split
      · rename_i hall
        rw [hall] at hput ⊢
        exact ⟨_, hput⟩
      · exact ⟨_, wrote_part pattern pass start _ _ s _ _ _ (by omega)
          (wrote_fail pattern pass start _ s _ none _ _ (by nofun) hput)⟩
  | cons outcome rest ih =>
    rw [writeLoop.eq_def]
    dsimp only
    split
    · rename_i hd
      subst hd
      exact ⟨[], wrote_nothing pattern pass start s⟩
    · cases outcome with
      | interrupted => exact ih start data s hf
      | failed => exact ⟨[], wrote_failure _ _ _ _ _ _ (by nofun)⟩
      | wrote n =>
        have hle := writable_le room start data.length
        dsimp only
        generalize hwritten : min n (writable room start data.length) = written
        split
        · split
          · exact ⟨[], wrote_failure _ _ _ _ _ _ (by nofun)⟩
          · exact ⟨[], wrote_failure _ _ _ _ _ _ (by nofun)⟩
        · have hw : written ≤ data.length := by omega
          have hput := wrote_taken pattern pass start written data s hw hf
          obtain ⟨ws, hrest⟩ := ih (start+written) (data.drop written)
            (s.put pass start (data.take written))
            (filled_part _ _ _ hf (List.drop_subset _ _))
          have hend : start+written+(data.drop written).length = start+data.length := by
            rw [List.length_drop]
            omega
          rw [hend] at hrest
          exact ⟨_, wrote_trans pattern pass start _ _ s _ _ _ ws (by omega) hput hrest⟩

theorem devicePass_spec (io : DeviceIo) (opts : BlockEraseOptions) (room : Option ℕ)
    (capacity blockSize total pass : ℕ) (s : EraseState) (hb : 0 < blockSize) :
    PassSpec opts.pattern capacity pass s
      (devicePass io opts room capacity blockSize total pass s) := by
  obtain ⟨ws, hw⟩ := eraseChunks_spec opts.pattern (io.random pass) [] (deviceWrite io room pass)
    opts.progressCb capacity blockSize total pass capacity 0 capacity s
    (fun k start buf s => writeLoop_spec io opts.pattern room pass (io.writes pass k) start buf s)
    hb (Nat.le_refl _) (Nat.le_refl _)
  change Wrote _ _ _ _ _
    (deviceChunks io opts room capacity blockSize total pass capacity 0 capacity s) _ at hw
  rw [Nat.sub_self] at hw
  rw [devicePass]
  split
  · rcases hc : deviceChunks io opts room capacity blockSize total pass capacity 0 capacity s with
      ⟨s', _ | e⟩
    · rw [hc] at hw
      dsimp only
      split
      · exact ⟨ws, hw.extends_, hw.within, fun _ => hw.tiled rfl, by simp⟩
      · exact ⟨ws, wrote_fail _ _ _ _ _ _ _ _ _ (by nofun) hw⟩
    · rw [hc] at hw
      exact ⟨ws, hw⟩
  · exact ⟨[], wrote_failure _ _ _ _ _ _ (by nofun)⟩

theorem openDevice_node (fs : FileSystem) (io : DeviceIo) (path : Text) (node : ℕ)
    (h : openDevice fs io path = .ok node) : fs.resolve path = some node := by
  rw [openDevice] at h
  split at h
  · rename_i n ho hn
    split at h
    · contradiction
    · contradiction
    · cases h
      exact hn
  · contradiction
  · contradiction

/-- The checks of the confirmation, the device and its size. -/
structure Gated (fs : FileSystem) (io : DeviceIo) (device : StorageDevice) (confirmation : Text) :
    Prop where
  confirmed : confirmation = device.path.chars
  blockDevice : devicePathIsBlockDevice fs device.path.chars = true
  writable : device.isReadOnly = false
  unmounted : deviceIsMounted io.procMounts io.mtab device.path.chars = false
  sized : deviceCapacity io device ≠ 0

/-- A run that comes to its passes, with the object that was opened. -/
structure Started (fs : FileSystem) (io : DeviceIo) (device : StorageDevice) (confirmation : Text)
    (node : ℕ) : Prop where
  gated : Gated fs io device confirmation
  opened : openDevice fs io device.path.chars = .ok node
  allocated : io.allocated = true

section Runs
variable (fs : FileSystem) (io : DeviceIo) (device : StorageDevice) (opts : BlockEraseOptions)
  (confirmation : Text)

def devicePassesOf (node : ℕ) : EraseState × Option Failure :=
  runPasses (devicePass io opts (fs.object node).room (deviceCapacity io device)
      (clampBlockSize opts.blockSize) (deviceCapacity io device*clampPasses opts.passes % 2^64))
    (devicePasses (clampPasses opts.passes)) (eraseStart (fs.object node).content)

theorem started_finished (node : ℕ) (h : Started fs io device confirmation node) :
    blockEraseDevice fs io device opts confirmation =
      finished fs node (devicePassesOf fs io device opts node) := by
  obtain ⟨⟨hconfirmed, hdevice, hwritable, hunmounted, hsized⟩, hopened, hallocated⟩ := h
  rw [blockEraseDevice]
  dsimp only
  rw [if_neg (not_not_intro hconfirmed), if_neg (by simp [hdevice]), if_neg (by simp [hwritable]),
    if_neg (by simp [hunmounted]), hopened]
  dsimp only
  rw [if_neg hsized, if_neg (by simp [hallocated])]
  rfl

/-- A run that does not come to its passes is refused with an error. -/
theorem started_or_refused :
    (∃ node, Started fs io device confirmation node) ∨
      (∀ node, ¬ Started fs io device confirmation node) ∧
        ∃ code message, blockEraseDevice fs io device opts confirmation =
          refused fs code message ∧ code ≠ .ok := by
  by_cases hstarted : ∃ node, Started fs io device confirmation node
  · exact Or.inl hstarted
  refine Or.inr ⟨not_exists.mp hstarted, ?_⟩
  rw [blockEraseDevice]
  dsimp only
  cases hopen : openDevice fs io device.path.chars with
  | error outcome =>
    dsimp only
    split_ifs
    · exact ⟨_, _, rfl, by decide⟩
    · exact ⟨_, _, rfl, by decide⟩
    · exact ⟨_, _, rfl, by decide⟩
    · exact ⟨_, _, rfl, by decide⟩
    · cases outcome <;> exact ⟨_, _, rfl, by decide⟩
  | ok node =>
    dsimp only
    split_ifs with hconfirmed hdevice hwritable hunmounted hsized hallocated
    · exact ⟨_, _, rfl, by decide⟩
    · exact ⟨_, _, rfl, by decide⟩
    · exact ⟨_, _, rfl, by decide⟩
    · exact ⟨_, _, rfl, by decide⟩
    · exact ⟨_, _, rfl, by decide⟩
    · exact ⟨_, _, rfl, by decide⟩
    · refine absurd ⟨node, ⟨not_not.mp hconfirmed, ?_, ?_, ?_, hsized⟩, hopen, ?_⟩ hstarted
      · simpa using hdevice
      · simpa using hwritable
      · simpa using hunmounted
      · simpa using hallocated

/-- A run of the device eraser is refused and changes nothing, or it writes
to the object of the path. -/
theorem blockEraseDevice_spec :
    (∃ code message, blockEraseDevice fs io device opts confirmation = refused fs code message ∧
      code ≠ .ok) ∨
      ∃ node out ws, fs.resolve device.path.chars = some node ∧
        blockEraseDevice fs io device opts confirmation = finished fs node out ∧
        Extends (eraseStart (fs.object node).content) out.1 ws ∧
        Within opts.pattern (devicePasses (clampPasses opts.passes))
          (deviceCapacity io device) ws ∧
        (out.2 = none → Overwritten (devicePasses (clampPasses opts.passes))
          (deviceCapacity io device) ws) ∧
        ∀ e ∈ out.2, e.1 ≠ .ok := by
  rcases started_or_refused fs io device opts confirmation with ⟨node, hstarted⟩ | ⟨_, hrefused⟩
  · obtain ⟨ws, hext, hwithin, hover, hfail⟩ := runPasses_spec opts.pattern
      (deviceCapacity io device)
      (devicePass io opts (fs.object node).room (deviceCapacity io device)
        (clampBlockSize opts.blockSize) (deviceCapacity io device*clampPasses opts.passes % 2^64))
      (fun pass s => devicePass_spec io opts _ _ _ _ pass s (clampBlockSize_pos opts.blockSize))
      (devicePasses (clampPasses opts.passes)) (eraseStart (fs.object node).content)
    exact Or.inr ⟨node, _, ws, openDevice_node fs io _ node hstarted.opened,
      started_finished fs io device opts confirmation node hstarted, hext, hwithin, hover, hfail⟩
  · exact Or.inl hrefused

end Runs

/-- A run that succeeds has written the whole capacity in every pass. Where
the kernel reported the true size, the device is erased. -/
theorem blockEraseDevice_ok (fs : FileSystem) (io : DeviceIo) (device : StorageDevice)
    (opts : BlockEraseOptions) (confirmation : Text)
    (hsize : ∀ node, fs.resolve device.path.chars = some node →
      io.blkgetsize = some (fs.object node).content.length)
    (h : (blockEraseDevice fs io device opts confirmation).code = .ok) :
    ∃ node, fs.resolve device.path.chars = some node ∧
      Erased opts.pattern (devicePasses (clampPasses opts.passes)) fs
        (blockEraseDevice fs io device opts confirmation).fs node
        (blockEraseDevice fs io device opts confirmation).writes := by
  rcases blockEraseDevice_spec fs io device opts confirmation with
    ⟨code, message, hrun, hne⟩ | ⟨node, out, ws, hres, hrun, hext, hwithin, hover, hfail⟩
  · rw [hrun] at h
    exact absurd h hne
  · rw [hrun] at h ⊢
    refine ⟨node, hres, ?_⟩
    have ho := hover (finished_ok fs node out hfail h)
    have hpasses : devicePasses (clampPasses opts.passes) ≠ [] := by
      have := clampPasses_pos opts.passes
      rw [devicePasses, Ne, List.map_eq_nil_iff, List.range_eq_nil]
      omega
    rcases Nat.eq_zero_or_pos (fs.object node).content.length with hzero | hpos
    · exact erased_empty _ _ fs _ node _ hzero
    · have hcap : deviceCapacity io device = (fs.object node).content.length := by
        rw [deviceCapacity, hsize node hres]
        exact if_pos hpos
      rw [hcap] at hwithin ho
      exact finished_erased fs node out ws _ _ hpasses hext hwithin ho

end EraseCure.BlockEraseDevice
