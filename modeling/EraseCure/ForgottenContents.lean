import EraseCure.TornErases

/-!
# What an erase tells of the old content

Two erases that differ in the old content alone run in step: what they return, count,
report and write is the same. Once a pass is counted the file systems they leave are
the same as well, whether the run succeeds or stops in a later pass.
-/

set_option autoImplicit false

namespace EraseCure.ForgottenContents
open EraseCure.CText EraseCure.Devices EraseCure.ErrorCodes EraseCure.FileSystems
open EraseCure.ByteRanges EraseCure.TornWrites EraseCure.ErasePasses EraseCure.PassTraces
open EraseCure.BlockEraseImage EraseCure.BlockEraseDevice EraseCure.DevicePasses
open EraseCure.ProgressTraces EraseCure.TornErases

def blinded (s : EraseState) : EraseState := { s with content := [] }

/-- A step that does the same whatever the content is. -/
def Blind (step : EraseState → EraseState × Option Failure) : Prop :=
  ∀ s t, blinded s = blinded t →
    blinded (step s).1 = blinded (step t).1 ∧ (step s).2 = (step t).2

section Blinded
variable (s t : EraseState) (h : blinded s = blinded t)
include h

theorem blinded_put (pass start : ℕ) (data : Bytes) :
    blinded (s.put pass start data) = blinded (t.put pass start data) :=
  congrArg (fun u : EraseState => { u with writes := u.writes++[(pass, Piece.mk start data)] }) h

theorem blinded_account (n total : ℕ) (cb : Bool) :
    blinded (s.account n total cb) = blinded (t.account n total cb) :=
  congrArg (fun u : EraseState => u.account n total cb) h

theorem blinded_passDone : blinded s.passDone = blinded t.passDone :=
  congrArg EraseState.passDone h

end Blinded

theorem blind_done : Blind (fun s => (s, none)) := fun _ _ h => ⟨h, rfl⟩

theorem blind_failed (e : Failure) : Blind (fun s => (s, some e)) := fun _ _ h => ⟨h, rfl⟩

def andThen (step next : EraseState → EraseState × Option Failure) (s : EraseState) :
    EraseState × Option Failure :=
  match step s with
  | (s', none) => next s'
  | (s', some e) => (s', some e)

theorem andThen_blind (step next : EraseState → EraseState × Option Failure) (hstep : Blind step)
    (hnext : Blind next) : Blind (andThen step next) := by
  intro s t h
  obtain ⟨hstate, hfail⟩ := hstep s t h
  rw [andThen, andThen]
  rcases hs : step s with ⟨s', f⟩
  rcases ht : step t with ⟨t', g⟩
  rw [hs, ht] at hstate hfail
  obtain rfl : f = g := hfail
  cases f with
  | none => exact hnext s' t' hstate
  | some e => exact ⟨hstate, rfl⟩

theorem eraseChunks_blind (pattern : ErasePattern) (random : ℕ → RandBytes) (fillText : Text)
    (write : ℕ → ℕ → Bytes → EraseState → EraseState × Option Failure) (cb : Bool)
    (size blockSize total : ℕ) (hwrite : ∀ k start buf, Blind (write k start buf))
    (fuel k remaining : ℕ) :
    Blind (eraseChunks pattern random fillText write cb size blockSize total fuel k remaining) := by
  induction fuel generalizing k remaining with
  | zero => exact blind_done
  | succ fuel ih =>
    by_cases h0 : remaining = 0
    · subst h0
      intro s t h
      rw [eraseChunks_end, eraseChunks_end]
      exact ⟨h, rfl⟩
    have hcases := eraseChunks_cases pattern random fillText write cb size blockSize total fuel k
      remaining
    cases hfill : blockEraseFillPattern (random k) (min remaining blockSize) pattern with
    | error e =>
      intro s t h
      rcases hcases s h0 with ⟨e, he, hs⟩ | ⟨_, hbuf, _⟩
      · rcases hcases t h0 with ⟨e', he', ht⟩ | ⟨_, hbuf, _⟩
        · obtain rfl := Except.error.inj (he.symm.trans he')
          rw [hs, ht]
          exact ⟨h, rfl⟩
        · rw [hfill] at hbuf
          contradiction
      · rw [hfill] at hbuf
        contradiction
    | ok buf =>
      have hthen : eraseChunks pattern random fillText write cb size blockSize total (fuel+1) k
          remaining = andThen (write k (size-remaining) buf) (fun s =>
            eraseChunks pattern random fillText write cb size blockSize total fuel (k+1)
              (remaining-min remaining blockSize)
              (s.account (min remaining blockSize) total cb)) := by
        funext s
        rw [andThen]
        rcases hcases s h0 with ⟨_, he, _⟩ | ⟨buf', hbuf, hwritten⟩
        · rw [hfill] at he
          contradiction
        obtain rfl := Except.ok.inj (hfill.symm.trans hbuf)
        rcases hwritten with ⟨s', e, hw, hout⟩ | ⟨s', hw, hout⟩
        · rw [hout, hw]
        · rw [hout, hw]
      rw [hthen]
      exact andThen_blind _ _ (hwrite k (size-remaining) buf) fun s t h =>
        ih _ _ _ _ (blinded_account s t h (min remaining blockSize) total cb)

theorem passOf_blind (ready flushed : Bool) (chunks : EraseState → EraseState × Option Failure)
    (notReady notFlushed : Failure) (h : Blind chunks) :
    Blind (passOf ready flushed chunks notReady notFlushed) := by
  cases ready with
  | false => exact blind_failed notReady
  | true =>
    have hthen : passOf true flushed chunks notReady notFlushed = andThen chunks (fun s =>
        if flushed then (s.passDone, none) else (s, some notFlushed)) := by
      funext s
      rw [passOf, andThen, if_pos rfl]
      rcases chunks s with ⟨s', _ | e⟩
      · rfl
      · rfl
    rw [hthen]
    refine andThen_blind _ _ h fun s t hst => ?_
    cases flushed with
    | false => exact ⟨hst, rfl⟩
    | true => exact ⟨blinded_passDone s t hst, rfl⟩

theorem runPasses_blind (step : ℕ → EraseState → EraseState × Option Failure)
    (hstep : ∀ pass, Blind (step pass)) (passes : List ℕ) : Blind (runPasses step passes) := by
  induction passes with
  | nil => exact blind_done
  | cons pass rest ih =>
    have hthen : runPasses step (pass::rest) = andThen (step pass) (runPasses step rest) := rfl
    rw [hthen]
    exact andThen_blind _ _ (hstep pass) ih

theorem imageWrite_blind (io : ImageIo) (pass k start : ℕ) (buf : Bytes) :
    Blind (imageWrite io pass k start buf) := by
  intro s t h
  have hput := blinded_put s t h pass start (buf.take (min (io.accepted pass k) buf.length))
  rw [imageWrite, imageWrite]
  split_ifs
  · exact ⟨hput, rfl⟩
  · exact ⟨hput, rfl⟩

theorem writeLoop_blind (io : DeviceIo) (room : Option ℕ) (pass : ℕ)
    (outcomes : List WriteOutcome) (start : ℕ) (data : Bytes) :
    Blind (writeLoop io room pass outcomes start data) := by
  induction outcomes generalizing start data with
  | nil =>
    intro s t h
    have hput := blinded_put s t h pass start (data.take (writable room start data.length))
    rw [writeLoop, writeLoop]
    dsimp only
    split_ifs
    · exact ⟨h, rfl⟩
    · exact ⟨hput, rfl⟩
    · exact ⟨hput, rfl⟩
  | cons outcome rest ih =>
    intro s t h
    rw [writeLoop.eq_def, writeLoop.eq_def io room pass (outcome::rest) start data t]
    dsimp only
    split_ifs with hd
    · exact ⟨h, rfl⟩
    cases outcome with
    | interrupted => exact ih start data s t h
    | failed => exact ⟨h, rfl⟩
    | wrote n =>
      dsimp only
      generalize min n (writable room start data.length) = written
      by_cases hzero : written = 0
      · rw [if_pos hzero, if_pos hzero]
        exact ⟨h, rfl⟩
      · rw [if_neg hzero, if_neg hzero]
        exact ih _ _ _ _ (blinded_put s t h pass start _)

theorem imagePass_blind (io : ImageIo) (opts : BlockEraseOptions) (imagePath : Text)
    (size total pass : ℕ) :
    Blind (imagePass io opts imagePath size (clampBlockSize opts.blockSize) total pass) := by
  obtain ⟨notReady, notFlushed, hof⟩ :=
    imagePass_of io opts imagePath size (clampBlockSize opts.blockSize) total pass
  rw [funext hof]
  exact passOf_blind _ _ _ _ _ (eraseChunks_blind opts.pattern (io.random pass) _
    (imageWrite io pass) opts.progressCb size _ total (imageWrite_blind io pass) size 0 size)

theorem devicePass_blind (io : DeviceIo) (opts : BlockEraseOptions) (room : Option ℕ)
    (capacity total pass : ℕ) :
    Blind (devicePass io opts room capacity (clampBlockSize opts.blockSize) total pass) := by
  obtain ⟨notReady, notFlushed, hof⟩ :=
    devicePass_of io opts room capacity (clampBlockSize opts.blockSize) total pass
  rw [funext hof]
  exact passOf_blind _ _ _ _ _ (eraseChunks_blind opts.pattern (io.random pass) _
    (deviceWrite io room pass) opts.progressCb capacity _ total
    (fun k => writeLoop_blind io room pass (io.writes pass k)) capacity 0 capacity)

/-- What a run tells: all but the file system. -/
structure SameReports (run run' : EraseRun) : Prop where
  code : run.code = run'.code
  result : run.result = run'.result
  writes : run.writes = run'.writes
  progress : run.progress = run'.progress

theorem finished_reports (fs fs' : FileSystem) (node : ℕ) (out out' : EraseState × Option Failure)
    (hstate : blinded out.1 = blinded out'.1) (hfail : out.2 = out'.2) :
    SameReports (finished fs node out) (finished fs' node out') := by
  simp only [blinded, EraseState.mk.injEq, true_and] at hstate
  obtain ⟨hwrites, hbytes, hpasses, hprogress⟩ := hstate
  constructor
  · rw [finished, finished, hfail]
  · rw [finished, finished, hfail, hbytes, hpasses]
  · exact hwrites
  · exact hprogress

theorem put_put (o : Object) (c c' : Bytes) : (o.put c).put c' = o.put c' := by
  cases o <;> rfl

theorem store_store (fs : FileSystem) (node : ℕ) (c c' : Bytes) :
    (fs.store node c).store node c' = fs.store node c' := by
  rw [FileSystem.store, store_same, put_put, FileSystem.store, FileSystem.store,
    Function.update_idem]

theorem put_room (o : Object) (c : Bytes) (h : c.length = o.content.length) :
    (o.put c).room = o.room := by
  cases o with
  | blockDevice _ => exact congrArg some h
  | regular _ | directory _ | symlink _ | other => rfl

theorem device_store (fs : FileSystem) (node : ℕ) (c : Bytes) (path : Text) :
    devicePathIsBlockDevice (fs.store node c) path = devicePathIsBlockDevice fs path := by
  rw [devicePathIsBlockDevice, devicePathIsBlockDevice, FileSystem.stat, FileSystem.stat,
    store_resolve]
  congr 1
  cases fs.resolve path with
  | none => rfl
  | some n =>
    by_cases hn : n = node
    · subst hn
      rw [Option.map_some, Option.map_some, store_same]
      cases fs.object n <;> rfl
    · rw [Option.map_some, Option.map_some, store_other fs node n c hn]

theorem open_store (fs : FileSystem) (io : DeviceIo) (node : ℕ) (c : Bytes) (path : Text) :
    openDevice (fs.store node c) io path = openDevice fs io path := by
  rw [openDevice, openDevice, store_resolve]
  rcases io.openOutcome with _ | _ | _ | _ <;> rcases fs.resolve path with _ | n
  case opened.some =>
    by_cases hn : n = node
    · subst hn
      dsimp only
      rw [store_same]
      cases fs.object n <;> rfl
    · dsimp only
      rw [store_other fs node n c hn]
  all_goals rfl

/-- Behind a counted pass two stops leave the same, whatever was there before. -/
theorem leaves_same (stream : ℕ → Bytes) (size blockSize : ℕ) (passes : List ℕ) (stop : Stop)
    (old old' new new' : Bytes) (run run' : EraseRun) (hold : old.length ≤ size)
    (hold' : old'.length ≤ size) (hfits : stop.Fits stream size blockSize passes)
    (h : Leaves stream size stop old new run) (h' : Leaves stream size stop old' new' run')
    (hcount : 1 ≤ run.result.passesCompleted) : new = new' := by
  rw [h.content, h'.content]
  by_cases hbefore : stop.before = []
  · -- the pass it stops in is the only one and goes through
    have hthrough : stop.through = true := by
      have hpasses := h.passesCompleted
      rw [hbefore] at hpasses
      by_contra hnot
      rw [if_neg hnot] at hpasses
      simp [hpasses] at hcount
    have hreached := (hfits.reach.whole hthrough).1
    rw [hbefore, hreached]
    exact (torn_covered _ _ _ hold).trans (torn_covered _ _ _ hold').symm
  · rw [underneath_same stream size old old' stop.before hbefore hold hold']

section Image
variable (fs : FileSystem) (io : ImageIo) (imagePath : Text) (opts : BlockEraseOptions) (node : ℕ)
  (old old' : Bytes) (hres : fs.resolve imagePath = some node)
  (hfile : fs.object node = .regular old) (hlen : old'.length = old.length)
include hres hfile hlen

theorem image_reports : SameReports (blockEraseImage fs io imagePath opts)
    (blockEraseImage (fs.store node old') io imagePath opts) := by
  have hfile' : (fs.store node old').object node = .regular old' := by
    rw [store_same, hfile]
    rfl
  rw [blockEraseImage, blockEraseImage, eraseImageRun, eraseImageRun, device_store, store_resolve,
    hres]
  dsimp only
  rw [hfile, hfile']
  dsimp only
  rw [hlen]
  split_ifs
  · exact ⟨rfl, rfl, rfl, rfl⟩
  · exact ⟨rfl, rfl, rfl, rfl⟩
  · exact ⟨rfl, rfl, rfl, rfl⟩
  · obtain ⟨hstate, hfail⟩ := runPasses_blind _ (imagePass_blind io opts imagePath old.length
      (old.length*clampPasses opts.passes % 2^64)) (List.range (clampPasses opts.passes))
      (eraseStart old) (eraseStart old') rfl
    exact finished_reports _ _ node _ _ hstate hfail

/-- Whatever a run over an image tells does not depend on its old content, and once a
pass is counted what it leaves does not either. -/
theorem image_forgets :
    SameReports (blockEraseImage fs io imagePath opts)
        (blockEraseImage (fs.store node old') io imagePath opts) ∧
      (1 ≤ (blockEraseImage fs io imagePath opts).result.passesCompleted →
        (blockEraseImage fs io imagePath opts).fs =
          (blockEraseImage (fs.store node old') io imagePath opts).fs) := by
  have hreports := image_reports fs io imagePath opts node old old' hres hfile hlen
  refine ⟨hreports, fun hcount => ?_⟩
  have hfile' : (fs.store node old').object node = .regular old' := by
    rw [store_same, hfile]
    rfl
  obtain ⟨stop, hfits, hstop⟩ := image_stop io imagePath opts old.length
  have hleaves := image_ends io imagePath opts old.length stop hfits hstop
  rcases hleaves fs node old hres hfile rfl with hnone | ⟨new, hfs, hleft⟩
  · have hzero := hnone.2.2.2
    omega
  rcases hleaves (fs.store node old') node old' hres hfile' hlen with hnone | ⟨new', hfs', hleft'⟩
  · have hzero := hnone.2.2.2
    rw [hreports.result] at hcount
    omega
  · rw [hfs, hfs', store_store, leaves_same _ _ _ _ stop old old' new new' _ _ le_rfl hlen.le hfits
      hleft hleft' hcount]

end Image

theorem image_forgets_stopped :
    (blockEraseImage (soleObject "a".toList (.regular [1, 2, 3])) stoppedIo "a".toList
        twiceRandom).code = .writeFailed ∧
      (blockEraseImage (soleObject "a".toList (.regular [1, 2, 3])) stoppedIo "a".toList
          twiceRandom).fs =
        (blockEraseImage ((soleObject "a".toList (.regular [1, 2, 3])).store 0 [7, 8, 9])
          stoppedIo "a".toList twiceRandom).fs :=
  ⟨rfl, (image_forgets (soleObject "a".toList (.regular [1, 2, 3])) stoppedIo "a".toList
    twiceRandom 0 [1, 2, 3] [7, 8, 9] rfl rfl rfl).2 (by decide)⟩

section Device
variable (fs : FileSystem) (io : DeviceIo) (device : StorageDevice) (opts : BlockEraseOptions)
  (confirmation : Text) (node : ℕ) (old' : Bytes)

theorem started_store (h : Started fs io device confirmation node) :
    Started (fs.store node old') io device confirmation node where
  gated := ⟨h.gated.confirmed, by rw [device_store]; exact h.gated.blockDevice, h.gated.writable,
    h.gated.unmounted, h.gated.sized⟩
  opened := by rw [open_store]; exact h.opened
  allocated := h.allocated

variable (hres : fs.resolve device.path.chars = some node)
  (hlen : old'.length = (fs.object node).content.length)
include hres hlen

theorem device_reports : SameReports (blockEraseDevice fs io device opts confirmation)
    (blockEraseDevice (fs.store node old') io device opts confirmation) := by
  rw [blockEraseDevice, blockEraseDevice, device_store, open_store]
  dsimp only
  cases hopen : openDevice fs io device.path.chars with
  | error outcome =>
    dsimp only
    split_ifs
    · exact ⟨rfl, rfl, rfl, rfl⟩
    · exact ⟨rfl, rfl, rfl, rfl⟩
    · exact ⟨rfl, rfl, rfl, rfl⟩
    · exact ⟨rfl, rfl, rfl, rfl⟩
    · cases outcome <;> exact ⟨rfl, rfl, rfl, rfl⟩
  | ok n =>
    obtain rfl := Option.some.inj (hres.symm.trans (openDevice_node fs io _ n hopen))
    dsimp only
    split_ifs
    · exact ⟨rfl, rfl, rfl, rfl⟩
    · exact ⟨rfl, rfl, rfl, rfl⟩
    · exact ⟨rfl, rfl, rfl, rfl⟩
    · exact ⟨rfl, rfl, rfl, rfl⟩
    · exact ⟨rfl, rfl, rfl, rfl⟩
    · exact ⟨rfl, rfl, rfl, rfl⟩
    · rw [store_same, put_room _ _ hlen]
      obtain ⟨hstate, hfail⟩ := runPasses_blind _ (devicePass_blind io opts (fs.object node).room
        (deviceCapacity io device) (deviceCapacity io device*clampPasses opts.passes % 2^64))
        (devicePasses (clampPasses opts.passes)) (eraseStart (fs.object node).content)
        (eraseStart ((fs.object node).put old').content) rfl
      exact finished_reports _ _ node _ _ hstate hfail

/-- Whatever a run over a device tells does not depend on its old content, and once a
pass over all of it is counted what it leaves does not either. -/
theorem device_forgets :
    SameReports (blockEraseDevice fs io device opts confirmation)
        (blockEraseDevice (fs.store node old') io device opts confirmation) ∧
      (1 ≤ (blockEraseDevice fs io device opts confirmation).result.passesCompleted →
        (fs.object node).content.length ≤ deviceCapacity io device →
        (blockEraseDevice fs io device opts confirmation).fs =
          (blockEraseDevice (fs.store node old') io device opts confirmation).fs) := by
  have hreports := device_reports fs io device opts confirmation node old' hres hlen
  refine ⟨hreports, fun hcount hcap => ?_⟩
  rcases started_or_refused fs io device opts confirmation with ⟨n, hstarted⟩ | ⟨_, _, _, hrun, _⟩
  · obtain rfl := Option.some.inj (hres.symm.trans (openDevice_node fs io _ n hstarted.opened))
    have hroom : ((fs.store node old').object node).room = (fs.object node).room := by
      rw [store_same, put_room _ _ hlen]
    have hold' : ((fs.store node old').object node).content.length ≤ deviceCapacity io device := by
      rw [store_same]
      cases hobj : fs.object node <;> simp_all [Object.put, Object.content]
    obtain ⟨stop, hfits, hstop⟩ := device_stop io opts (fs.object node).room device
    have hleaves := device_ends io opts (fs.object node).room device stop hfits hstop
    obtain ⟨new, hfs, hleft⟩ := hleaves fs confirmation node hstarted rfl
    obtain ⟨new', hfs', hleft'⟩ := hleaves (fs.store node old') confirmation node
      (started_store fs io device confirmation node old' hstarted) hroom
    rw [hfs, hfs', store_store, leaves_same _ _ _ _ stop _ _ new new' _ _ hcap hold' hfits hleft
      hleft' hcount]
  · rw [hrun] at hcount
    exact absurd hcount (Nat.not_succ_le_zero 0)

end Device

theorem device_forgets_interrupted :
    (blockEraseDevice threeFs interruptedIo threeBytes twiceRandom "/dev/sdb".toList).fs =
      (blockEraseDevice (threeFs.store 0 [7, 8, 9]) interruptedIo threeBytes twiceRandom
        "/dev/sdb".toList).fs :=
  (device_forgets threeFs interruptedIo threeBytes twiceRandom "/dev/sdb".toList 0 [7, 8, 9]
    (by decide) rfl).2 (by decide) (by decide)

end EraseCure.ForgottenContents
