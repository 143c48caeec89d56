import EraseCure.BufferedErases
import EraseCure.DroppedHits
import EraseCure.SanitizerRuns

/-!
# Recovery after an erase

An erase with a constant pattern leaves its byte as far as it got, over the whole
target once a pass is counted. A signature that holds another byte is found no more
before that end, and no validator accepts a file whose first bytes lie there. This
also holds of a run that fails, up to the bytes that it reports, and of an image up to
those of them that have come to the file.
-/

set_option autoImplicit false

namespace EraseCure.RecoveryAfterErase
open EraseCure.CText EraseCure.Devices EraseCure.ErrorCodes EraseCure.FileSystems
open EraseCure.Occurrences EraseCure.TornWrites EraseCure.ErasePasses EraseCure.BlockEraseImage
open EraseCure.BlockEraseDevice EraseCure.DevicePasses EraseCure.Sanitizers
open EraseCure.SanitizerRuns EraseCure.TornErases EraseCure.BufferedErases
open EraseCure.FileMirrors EraseCure.HashedBlocks EraseCure.FileValidators
open EraseCure.ParsedSizes EraseCure.Discovery EraseCure.ExactScans
open EraseCure.DefaultSignatures EraseCure.DroppedHits

def Blank (b : UInt8) (limit : ℕ) (content : Bytes) : Prop := ∀ i < limit, content[i]? = some b

/-- A text with another byte in it. -/
def Varied (b : UInt8) (text : Bytes) : Prop := ∃ x ∈ text, x ≠ b

instance (b : UInt8) (text : Bytes) : Decidable (Varied b text) :=
  inferInstanceAs (Decidable (∃ x ∈ text, x ≠ b))

section Blanks
variable (pattern : ErasePattern) (b : UInt8) (hb : patternByte pattern = some b)
include hb

theorem chunkBytes_constant (random : ℕ → RandBytes) (blockSize fuel k remaining : ℕ) :
    ∀ x ∈ chunkBytes pattern random blockSize fuel k remaining, x = b := by
  induction fuel generalizing k remaining with
  | zero => simp [chunkBytes]
  | succ fuel ih =>
    rw [chunkBytes]
    split_ifs
    · simp
    cases hfill : blockEraseFillPattern (random k) (min remaining blockSize) pattern with
    | error e => simp
    | ok buf =>
      intro x hx
      rcases List.mem_append.mp hx with hx | hx
      · exact (fill_ok _ _ _ _ hfill).2 b hb x hx
      · exact ih _ _ x hx

omit hb in
theorem constant_get (bytes : Bytes) (h : ∀ x ∈ bytes, x = b) (i : ℕ) (hi : i < bytes.length) :
    bytes[i]? = some b := by
  rw [List.getElem?_eq_getElem hi, h _ (List.getElem_mem hi)]

end Blanks

section Ends
variable (b : UInt8)

/-- A run leaves its byte as far as it has come to the target in the first pass, and to
the end once a pass is counted. -/
theorem leaves_blank (stream : ℕ → Bytes) (size limit : ℕ) (stop : Stop) (old new : Bytes)
    (run : EraseRun) (hstream : ∀ p, ∀ x ∈ stream p, x = b)
    (hwhole : ∀ p ∈ stop.before, (stream p).length = size)
    (hle : stop.reached ≤ (stream stop.pass).length)
    (hthrough : stop.through = true → stop.reached = size)
    (h : Leaves stream size stop old new run) (hsize : limit ≤ size)
    (hfirst : run.result.passesCompleted = 0 → limit ≤ stop.reached) : Blank b limit new := by
  intro i hi
  rw [h.content]
  by_cases hreached : i < stop.reached
  · rw [torn_inside _ _ _ hle i hreached]
    exact constant_get b _ (hstream stop.pass) i (hreached.trans_le hle)
  rw [torn_outside _ _ _ hle i (not_lt.mp hreached)]
  rcases List.eq_nil_or_concat stop.before with hbefore | ⟨before, last, hbefore⟩
  · exfalso
    by_cases hdone : stop.through = true
    · have := hthrough hdone
      omega
    · have hpasses := h.passesCompleted
      rw [hbefore, List.length_nil, if_neg hdone] at hpasses
      have := hfirst hpasses
      omega
  · rw [List.concat_eq_append] at hbefore
    have hlast := hwhole last (by rw [hbefore]; simp)
    rw [hbefore, underneath, List.getLast?_append, List.getLast?_singleton]
    dsimp only [Option.or]
    rw [torn_inside _ _ _ hlast.ge i (hi.trans_le hsize)]
    exact constant_get b _ (hstream last) i (by omega)

theorem leaves_first (stream : ℕ → Bytes) (size : ℕ) (stop : Stop) (old new : Bytes)
    (run : EraseRun) (h : Leaves stream size stop old new run)
    (hnone : run.result.passesCompleted = 0) :
    stop.before = [] ∧ stop.through = false ∧ run.result.bytesWritten ≤ stop.counted := by
  have hpasses := h.passesCompleted
  have hbytes := h.bytesWritten
  have hbefore : stop.before = [] := List.length_eq_zero_iff.mp (by omega)
  rw [hbefore, List.length_nil, Nat.zero_mul, Nat.zero_add] at hbytes
  refine ⟨hbefore, ?_, hbytes.trans_le (Nat.mod_le _ _)⟩
  by_contra hthrough
  rw [Bool.not_eq_false] at hthrough
  rw [if_pos hthrough] at hpasses
  omega

/-- How far a device is blank: to the end once a pass is counted, and else up to the
bytes that are reported. -/
def blankEnd (run : EraseRun) (size : ℕ) : ℕ :=
  if run.result.passesCompleted = 0 then run.result.bytesWritten else size

/-- How far an image is blank: of a first pass that is not flushed only what has come to
the file. -/
def bufferedEnd (drained : ℕ → ℕ) (run : EraseRun) (size : ℕ) : ℕ :=
  if run.result.passesCompleted = 0 then min (drained 0) run.result.bytesWritten else size

theorem stop_blank (stream : ℕ → Bytes) (size blockSize : ℕ) (passes : List ℕ) (stop : Stop)
    (old new : Bytes) (run : EraseRun) (hstream : ∀ p, ∀ x ∈ stream p, x = b)
    (hfits : stop.Fits stream size blockSize passes) (h : Leaves stream size stop old new run) :
    Blank b (blankEnd run size) new := by
  have hcounted := hfits.reach.counted_le
  have hle := hfits.reach.le
  have hbytes := hfits.reach.bytes_le
  refine leaves_blank b stream size _ stop old new run hstream hfits.whole hle
    (fun ht => (hfits.reach.whole ht).1) h ?_ fun hnone => ?_
  · rw [blankEnd]
    split_ifs with hnone
    · have := (leaves_first stream size stop old new run h hnone).2.2
      omega
    · exact le_rfl
  · rw [blankEnd, if_pos hnone]
    exact (leaves_first stream size stop old new run h hnone).2.2.trans hcounted

theorem inFile_blank (stream : ℕ → Bytes) (size blockSize n : ℕ) (drained : ℕ → ℕ) (stop : Stop)
    (old new : Bytes) (run : EraseRun) (hstream : ∀ p, ∀ x ∈ stream p, x = b)
    (hfits : stop.Fits stream size blockSize (List.range n))
    (h : Leaves stream size (inFile drained stop) old new run) :
    Blank b (bufferedEnd drained run size) new := by
  have hcounted := hfits.reach.counted_le
  have hle := hfits.reach.le
  have hbytes := hfits.reach.bytes_le
  refine leaves_blank b stream size _ (inFile drained stop) old new run hstream hfits.whole
    ((inFile_le drained stop).trans hle)
    (fun ht => (inFile_through drained stop ht).trans (hfits.reach.whole ht).1) h ?_
    fun hnone => ?_
  · rw [bufferedEnd]
    split_ifs with hnone
    · have := (leaves_first stream size _ old new run h hnone).2.2
      change _ ≤ stop.counted at this
      omega
    · exact le_rfl
  · obtain ⟨hbefore, hthrough, hreported⟩ := leaves_first stream size _ old new run h hnone
    change stop.before = [] at hbefore
    change stop.through = false at hthrough
    change _ ≤ stop.counted at hreported
    have hpass : stop.pass = 0 := by
      have hsplit := hfits.split
      rw [hbefore, List.nil_append] at hsplit
      have hhead : (List.range n)[0]? = some stop.pass := by
        rw [hsplit]
        rfl
      obtain ⟨hlt, hget⟩ := List.getElem?_eq_some_iff.mp hhead
      rw [List.getElem_range] at hget
      exact hget.symm
    rw [bufferedEnd, if_pos hnone, inFile_part drained stop hthrough, hpass]
    omega

end Ends

section Signatures
variable (b : UInt8) (limit : ℕ)

theorem patternMatch_occurs (blockSize : UInt64) (buffer : Bytes) (pat : SignaturePattern) (o : ℕ)
    (hpos : 0 < pat.text.length) (h : patternMatch blockSize buffer pat = some o) :
    OccursAt buffer o pat.text := by
  rw [patternMatch] at h
  split_ifs at h with hoffset hfits hbytes
  · obtain rfl := Option.some.inj h
    exact (compared_occurs buffer pat.text hpos _).mp hbytes
  · exact ((memmem_first buffer pat.text hpos o).mp h).1

theorem blank_occurs (content : Bytes) (text : Bytes) (start n o : ℕ)
    (hblank : Blank b limit content) (hvaried : Varied b text)
    (h : OccursAt ((content.drop start).take n) o text) :
    limit < start+o+text.length ∧ start+o+text.length ≤ content.length := by
  obtain ⟨x, hx, hne⟩ := hvaried
  have hpos := List.length_pos_of_mem hx
  refine ⟨?_, by have hlen := h.1; rw [List.length_take, List.length_drop] at hlen; omega⟩
  obtain ⟨j, hj, rfl⟩ := List.getElem_of_mem hx
  by_contra hle
  have hget : content[start+o+j]? = some text[j] := by
    have hlen := h.1
    rw [← List.getElem?_eq_getElem hj, ← h.2, List.getElem?_take_of_lt hj, List.getElem?_drop,
      List.getElem?_take_of_lt (by rw [List.length_take] at hlen; omega), List.getElem?_drop,
      Nat.add_assoc]
  rw [hblank _ (by omega)] at hget
  exact hne (Option.some.inj hget).symm

end Signatures

section Files
variable (b : UInt8) (hb : b = 0x00 ∨ b = 0xFF)

theorem prefix_varied (text data : Bytes) (h : text <+: data) (hvaried : Varied b (text.take 3)) :
    Varied b (data.take 3) := by
  obtain ⟨x, hx, hne⟩ := hvaried
  exact ⟨x, (h.take 3).subset hx, hne⟩

include hb

theorem mp3_varied (data : Bytes) (h : (mp3FileValidator data).outcome = .validates) :
    Varied b (data.take 3) := by
  obtain ⟨h10, hframe⟩ := mp3_first data h
  by_cases htag : bytesAt data 0 id3 = true
  · have hbegins := magic_prefix data id3 (show 3 ≤ _ by omega) htag
    refine prefix_varied b id3 data hbegins ?_
    rcases hb with rfl | rfl <;> decide
  rw [mp3Start, if_neg htag] at hframe
  by_contra hsame
  have hbyte : ∀ i < 3, byteAt data i = b := by
    intro i hi
    by_contra hne
    refine hsame ⟨byteAt data i, List.mem_of_getElem? (i := i) ?_, hne⟩
    rw [List.getElem?_take_of_lt hi]
    exact get_byteAt data i (by omega)
  rw [frameHeader, Nat.zero_add, Nat.zero_add, hbyte 0 (by omega), hbyte 1 (by omega),
    hbyte 2 (by omega)] at hframe
  rcases hb with rfl | rfl <;> exact absurd hframe (by decide)

/-- A valid file does not begin with three bytes of zeros or of ones. -/
theorem valid_varied (crc32 : Bytes → ℕ) (data : Bytes) (format : FileFormat) (v : Verdict)
    (h : fileValidator crc32 format data = some v) (hv : v.outcome = .validates) :
    Varied b (data.take 3) := by
  cases format with
  | jpeg =>
    obtain rfl := Option.some.inj h
    by_cases hh : jpegHeader data
    · obtain ⟨hlen, h0, h1⟩ := hh
      refine prefix_varied b [0xFF, 0xD8] data ?_ (by rcases hb with rfl | rfl <;> decide)
      rw [← occurs_zero, occurs_cons, occurs_singleton, get_byteAt data 0 (by omega),
        get_byteAt data (0+1) (by omega), h0, h1]
      exact ⟨rfl, rfl⟩
    · rw [jpeg_reject data hh] at hv
      contradiction
  | gif =>
    obtain rfl := Option.some.inj h
    by_cases hh : gifHeader data
    · rcases ((GifWords.gifHeader_iff data).mp hh).2 with hm | hm
      · exact prefix_varied b gif87a data hm (by rcases hb with rfl | rfl <;> decide)
      · exact prefix_varied b gif89a data hm (by rcases hb with rfl | rfl <;> decide)
    · rw [gif_reject data hh] at hv
      contradiction
  | mp3 =>
    obtain rfl := Option.some.inj h
    exact mp3_varied b hb data hv
  | png =>
    exact prefix_varied b _ data (png_begins crc32 data v h hv)
      (by rcases hb with rfl | rfl <;> decide)
  | pdf =>
    obtain rfl := Option.some.inj h
    exact prefix_varied b _ data (pdf_begins data hv) (by rcases hb with rfl | rfl <;> decide)
  | zip =>
    obtain rfl := Option.some.inj h
    exact prefix_varied b _ data (zip_begins data hv) (by rcases hb with rfl | rfl <;> decide)
  | elf =>
    obtain rfl := Option.some.inj h
    exact prefix_varied b _ data (elf_begins data hv) (by rcases hb with rfl | rfl <;> decide)

end Files

/-- What cannot be recovered of a content that was erased up to an end: of the signatures
that hold another byte a scan finds none before the end, and no file that begins with
bytes from there is valid. -/
structure Unrecoverable (b : UInt8) (limit : ℕ) (content : Bytes) : Prop where
  hits : ∀ (fm : FileMirror) (engine : DiscoveryEngine) (a : Allocations), fm.image = content →
    Sized fm → (∀ pat ∈ engine.patterns, Varied b pat.text) →
    ∃ added, (discoveryScan fileMirrorReadBlock engine fm a).2.1.hits = engine.hits++added ∧
      ∀ hit ∈ added, ∃ pat ∈ engine.patterns, hit.typeName = pat.typeName.getD [] ∧
        limit < hit.byteOffset.toNat+pat.text.length ∧
        hit.byteOffset.toNat+pat.text.length ≤ content.length
  files : ∀ (crc32 : Bytes → ℕ) (format : FileFormat) (data : Bytes) (v : Verdict),
    (∀ x ∈ data.take 3, ∃ i < limit, content[i]? = some x) →
    fileValidator crc32 format data = some v → v.outcome ≠ .validates

theorem position_toNat (fm : FileMirror) (block o : ℕ) (hsized : Sized fm)
    (hblock : block < fm.totalBlocks.toNat) (ho : o < fm.blockSize.toNat) :
    (UInt64.ofNat block*fm.blockSize+UInt64.ofNat o).toNat = block*fm.blockSize.toNat+o := by
  have htotal := fm.totalBlocks.toNat_lt
  have hbs := fm.blockSize.toNat_lt
  have hsize := fm.imageSize.toNat_lt
  have hlt : UInt64.ofNat block < fm.totalBlocks := by
    rw [UInt64.lt_iff_toNat_lt, UInt64.toNat_ofNat_of_lt' (show block < 2^64 by omega)]
    exact hblock
  have hdiv : fm.totalBlocks.toNat = fm.imageSize.toNat / fm.blockSize.toNat := by
    rw [hsized, UInt64.toNat_div]
  have hend : (block+1)*fm.blockSize.toNat ≤ fm.imageSize.toNat :=
    (Nat.mul_le_mul_right _ (by omega)).trans (Nat.div_mul_le_self _ fm.blockSize.toNat)
  rw [Nat.succ_mul] at hend
  rw [UInt64.toNat_add, block_offset fm block hsized (by omega) hlt,
    UInt64.toNat_ofNat_of_lt' (show o < 2^64 by omega), Nat.mod_eq_of_lt (by omega)]

theorem blank_unrecoverable (b : UInt8) (limit : ℕ) (content : Bytes)
    (hb : b = 0x00 ∨ b = 0xFF) (h : Blank b limit content) : Unrecoverable b limit content where
  hits := by
    intro fm engine a himage hsized hvaried
    obtain ⟨added, hsub, hadded⟩ := scan_adds fileMirrorReadBlock fm engine a
    refine ⟨added, hadded, fun hit hmem => ?_⟩
    obtain ⟨block, hblock, hhit⟩ := List.mem_flatMap.mp (hsub.subset hmem)
    have hlt : block < fm.totalBlocks.toNat := List.mem_range.mp hblock
    rw [blockHits] at hhit
    cases hread : fileMirrorReadBlock fm (UInt64.ofNat block) with
    | error e =>
      rw [hread] at hhit
      contradiction
    | ok buffer =>
      rw [hread] at hhit
      dsimp only at hhit
      split_ifs at hhit with hshort
      · contradiction
      obtain ⟨pat, hpat, hmatch⟩ := List.mem_filterMap.mp hhit
      obtain ⟨o, ho, rfl⟩ := Option.map_eq_some_iff.mp hmatch
      refine ⟨pat, hpat, rfl, ?_⟩
      obtain rfl := read_own fm block hsized (by have := fm.totalBlocks.toNat_lt; omega) buffer
        hread
      have hvar := hvaried pat hpat
      have hpos : 0 < pat.text.length := by
        obtain ⟨x, hx, _⟩ := hvar
        exact List.length_pos_of_mem hx
      have hoccurs := patternMatch_occurs fm.blockSize _ pat o hpos ho
      have hbeyond := blank_occurs b limit fm.image pat.text (block*fm.blockSize.toNat)
        fm.blockSize.toNat o (himage ▸ h) hvar hoccurs
      have hinside : o < fm.blockSize.toNat := by
        have hlen := hoccurs.1
        rw [ownBytes, List.length_take] at hlen
        omega
      rw [position_toNat fm block o hsized hlt hinside, ← himage]
      exact hbeyond
  files := by
    intro crc32 format data v hfirst hv hvalid
    obtain ⟨x, hx, hne⟩ := valid_varied b hb crc32 data format v hv hvalid
    obtain ⟨i, hi, hget⟩ := hfirst x hx
    rw [h i hi] at hget
    exact hne (Option.some.inj hget).symm

/-- Where all of the content is one byte a scan adds nothing, and no file made of its
bytes is valid. -/
theorem constant_unrecoverable (b : UInt8) (content : Bytes) (hb : b = 0x00 ∨ b = 0xFF)
    (h : ∀ x ∈ content, x = b) :
    (∀ (fm : FileMirror) (engine : DiscoveryEngine) (a : Allocations), fm.image = content →
      Sized fm → (∀ pat ∈ engine.patterns, Varied b pat.text) →
      (discoveryScan fileMirrorReadBlock engine fm a).2.1.hits = engine.hits) ∧
    ∀ (crc32 : Bytes → ℕ) (format : FileFormat) (data : Bytes) (v : Verdict),
      (∀ x ∈ data, x ∈ content) → fileValidator crc32 format data = some v →
        v.outcome ≠ .validates := by
  obtain ⟨hhits, hfiles⟩ :=
    blank_unrecoverable b content.length content hb (constant_get b content h)
  constructor
  · intro fm engine a himage hsized hvaried
    obtain ⟨added, hadded, hbeyond⟩ := hhits fm engine a himage hsized hvaried
    rw [hadded]
    cases added with
    | nil => exact List.append_nil _
    | cons hit rest =>
      obtain ⟨pat, _, _, hlow, hhigh⟩ := hbeyond hit List.mem_cons_self
      omega
  · intro crc32 format data v hmem
    refine hfiles crc32 format data v fun x hx => ?_
    obtain ⟨i, hi, rfl⟩ := List.getElem_of_mem (hmem x (List.mem_of_mem_take hx))
    exact ⟨i, hi, List.getElem?_eq_getElem hi⟩

theorem pattern_byte (pattern : ErasePattern) (b : UInt8) (hb : patternByte pattern = some b) :
    b = 0x00 ∨ b = 0xFF := by
  cases pattern with
  | zero => exact Or.inl (Option.some.inj hb).symm
  | one => exact Or.inr (Option.some.inj hb).symm
  | random => contradiction
  | other _ _ => contradiction

theorem default_varied (b : UInt8) (hb : b = 0x00 ∨ b = 0xFF) :
    ∀ pat ∈ defaultEngine.patterns, Varied b pat.text := by
  rw [default_patterns]
  rcases hb with rfl | rfl
  · decide
  · decide

section Image
variable (drained : ℕ → ℕ) (fs : FileSystem) (io : ImageIo) (imagePath : Text)
  (opts : BlockEraseOptions) (b : UInt8) (hb : patternByte opts.pattern = some b)
include hb

theorem image_blank (node : ℕ) (content : Bytes) (hres : fs.resolve imagePath = some node)
    (hfile : fs.object node = .regular content) :
    Blank b (bufferedEnd drained (blockEraseImageBuffered drained fs io imagePath opts)
        content.length)
      ((blockEraseImageBuffered drained fs io imagePath opts).fs.object node).content := by
  obtain ⟨stop, hfits, hstop⟩ := buffered_stop io imagePath opts content.length
  rcases buffered_ends drained fs io imagePath opts stop hfits.whole (hstop drained) node content
    hres hfile rfl with ⟨_, _, hbytes, hpasses⟩ | ⟨new, hfs, hleft⟩
  · rw [bufferedEnd, if_pos hpasses, hbytes, Nat.min_zero]
    exact fun i hi => absurd hi (Nat.not_lt_zero i)
  · rw [hfs, store_same, hfile]
    exact inFile_blank b _ _ _ _ drained stop content new _
      (fun p => chunkBytes_constant opts.pattern b hb (io.random p) _ _ _ _) hfits hleft

/-- Of an image that was overwritten with zeros or ones nothing can be recovered up to
where the run says that it came, as far as that has come to the file, whether the run
succeeds or fails. -/
theorem image_unrecoverable (node : ℕ) (content : Bytes) (hres : fs.resolve imagePath = some node)
    (hfile : fs.object node = .regular content) :
    Unrecoverable b (bufferedEnd drained (blockEraseImageBuffered drained fs io imagePath opts)
        content.length)
      ((blockEraseImageBuffered drained fs io imagePath opts).fs.object node).content :=
  blank_unrecoverable b _ _ (pattern_byte opts.pattern b hb)
    (image_blank drained fs io imagePath opts b hb node content hres hfile)

end Image

def shortJpeg : Bytes := [0xFF, 0xD8, 0xFF, 0xD9, 0x00, 0x00]

def neverFlushedIo : ImageIo := { ImageIo.calm with flushed := fun _ => false }

/-- The run reports six bytes, of which three have come to the file. -/
theorem image_unrecoverable_short :
    (blockEraseImageBuffered (fun _ => 3) (soleObject "a".toList (.regular shortJpeg))
        neverFlushedIo "a".toList blockEraseOptionsInit).result.bytesWritten = 6 ∧
      Unrecoverable 0x00 3 ((blockEraseImageBuffered (fun _ => 3)
        (soleObject "a".toList (.regular shortJpeg)) neverFlushedIo "a".toList
        blockEraseOptionsInit).fs.object 0).content := by
  have h := image_unrecoverable (fun _ => 3) (soleObject "a".toList (.regular shortJpeg))
    neverFlushedIo "a".toList blockEraseOptionsInit 0x00 rfl 0 shortJpeg rfl rfl
  have hend : bufferedEnd (fun _ => 3) (blockEraseImageBuffered (fun _ => 3)
      (soleObject "a".toList (.regular shortJpeg)) neverFlushedIo "a".toList
      blockEraseOptionsInit) shortJpeg.length = 3 := by decide
  rw [hend] at h
  exact ⟨by decide, h⟩

section Device
variable (fs : FileSystem) (io : DeviceIo) (device : StorageDevice) (opts : BlockEraseOptions)
  (confirmation : Text) (b : UInt8) (hb : patternByte opts.pattern = some b)
include hb

theorem device_blank (node : ℕ) (hres : fs.resolve device.path.chars = some node)
    (hkeeps : DevicePasses.Keeps (fs.object node)) :
    Blank b (blankEnd (blockEraseDevice fs io device opts confirmation) (deviceCapacity io device))
      ((blockEraseDevice fs io device opts confirmation).fs.object node).content := by
  rcases started_or_refused fs io device opts confirmation with ⟨n, hstarted⟩ | ⟨_, _, _, hrun, _⟩
  · obtain rfl := Option.some.inj (hres.symm.trans (openDevice_node fs io _ n hstarted.opened))
    obtain ⟨stop, hfits, hstop⟩ := device_stop io opts (fs.object node).room device
    obtain ⟨new, hfs, hleft⟩ := device_ends io opts _ device stop hfits hstop fs confirmation node
      hstarted rfl
    rw [hfs, store_same, hkeeps new]
    exact stop_blank b _ _ _ _ stop _ new _
      (fun p => chunkBytes_constant opts.pattern b hb (io.random p) _ _ _ _) hfits hleft
  · rw [hrun]
    exact fun i hi => absurd hi (Nat.not_lt_zero i)

/-- The same of a device, whatever the capacity that the kernel reports. -/
theorem device_unrecoverable (node : ℕ) (hres : fs.resolve device.path.chars = some node)
    (hkeeps : DevicePasses.Keeps (fs.object node)) :
    Unrecoverable b
      (blankEnd (blockEraseDevice fs io device opts confirmation) (deviceCapacity io device))
      ((blockEraseDevice fs io device opts confirmation).fs.object node).content :=
  blank_unrecoverable b _ _ (pattern_byte opts.pattern b hb)
    (device_blank fs io device opts confirmation b hb node hres hkeeps)

end Device

theorem device_unrecoverable_three : Unrecoverable 0xFF
    (blankEnd (blockEraseDevice threeFs interruptedIo threeBytes
      { blockEraseOptionsInit with pattern := .one } "/dev/sdb".toList) 3)
    ((blockEraseDevice threeFs interruptedIo threeBytes
      { blockEraseOptionsInit with pattern := .one } "/dev/sdb".toList).fs.object 0).content :=
  device_unrecoverable threeFs interruptedIo threeBytes
    { blockEraseOptionsInit with pattern := .one } "/dev/sdb".toList 0xFF rfl 0 (by decide)
    (blockDevice_keeps _)

section Successes
variable (fs : FileSystem) (b : UInt8)

/-- A content that is blank up to its end. -/
theorem blank_constant (limit : ℕ) (content : Bytes) (hlen : content.length ≤ limit)
    (h : Blank b limit content) : ∀ x ∈ content, x = b := by
  intro x hx
  obtain ⟨i, hi, rfl⟩ := List.getElem_of_mem hx
  have hget := h i (hi.trans_le hlen)
  rw [List.getElem?_eq_getElem hi] at hget
  exact Option.some.inj hget

theorem image_constant (io : ImageIo) (imagePath : Text) (opts : BlockEraseOptions)
    (hb : patternByte opts.pattern = some b)
    (hok : (blockEraseImage fs io imagePath opts).code = .ok) :
    ∃ node, fs.resolve imagePath = some node ∧
      ∀ x ∈ ((blockEraseImage fs io imagePath opts).fs.object node).content, x = b := by
  obtain ⟨node, content, erased, hres, hfile, _, hfs, hlen, herased⟩ :=
    blockEraseImage_ok fs io imagePath opts hok
  refine ⟨node, hres, blank_constant b content.length _ ?_ fun i hi => ?_⟩
  · rw [hfs, store_same, hfile]
    exact hlen.le
  · refine herased.constant b hb i ?_
    rw [hfile]
    exact hi

theorem device_constant (io : DeviceIo) (device : StorageDevice) (opts : BlockEraseOptions)
    (confirmation : Text) (hb : patternByte opts.pattern = some b)
    (hsize : ∀ node, fs.resolve device.path.chars = some node →
      io.blkgetsize = some (fs.object node).content.length)
    (hok : (blockEraseDevice fs io device opts confirmation).code = .ok) :
    ∃ node, fs.resolve device.path.chars = some node ∧
      ∀ x ∈ ((blockEraseDevice fs io device opts confirmation).fs.object node).content,
        x = b := by
  rcases started_or_refused fs io device opts confirmation with
    ⟨node, hstarted⟩ | ⟨_, _, _, hrun, hne⟩
  · have hres := openDevice_node fs io _ node hstarted.opened
    refine ⟨node, hres, ?_⟩
    obtain ⟨stop, hfits, hstop⟩ := device_stop io opts (fs.object node).room device
    obtain ⟨new, hfs, hleft⟩ := device_ends io opts _ device stop hfits hstop fs confirmation node
      hstarted rfl
    have hcap : (fs.object node).content.length ≤ deviceCapacity io device := by
      rw [deviceCapacity, hsize node hres]
      dsimp only
      split_ifs <;> omega
    have hlen : new.length ≤ deviceCapacity io device := by
      rw [hleft.content]
      refine (torn_length_le _ _ _ _ (hfits.reach.le.trans hfits.reach.bytes_le)).trans ?_
      have := underneath_length_le (deviceStream io opts (deviceCapacity io device))
        (deviceCapacity io device) (fs.object node).content stop.before
      omega
    have hblank := stop_blank b _ _ _ _ stop _ new _
      (fun p => chunkBytes_constant opts.pattern b hb (io.random p) _ _ _ _) hfits hleft
    have hwhole : blankEnd (blockEraseDevice fs io device opts confirmation)
        (deviceCapacity io device) = deviceCapacity io device := by
      have hpasses := hleft.passesCompleted
      rw [if_pos (hleft.ok_iff.mp hok)] at hpasses
      exact if_neg (by omega)
    rw [hwhole] at hblank
    rw [hfs, store_same]
    cases hobj : fs.object node with
    | regular _ | blockDevice _ => exact blank_constant b _ new hlen hblank
    | directory _ | symlink _ | other => simp [Object.put, Object.content]
  · rw [hrun] at hok
    exact absurd hok hne

/-- After a run of the sanitizer that succeeds the whole target is one byte. -/
theorem sanitized_constant (io : SanitizerIo) (device : StorageDevice)
    (opts : SanitizationOptions) (hb : patternByte opts.blockErase.pattern = some b)
    (hsize : opts.testMode = false → ∀ node, fs.resolve device.path.chars = some node →
      io.device.blkgetsize = some (fs.object node).content.length)
    (hok : (sanitizerRun fs io device opts).code = .ok) :
    ∃ node, fs.resolve device.path.chars = some node ∧
      ∀ x ∈ ((sanitizerRun fs io device opts).fs.object node).content, x = b := by
  rcases sanitizerRun_routed fs io device opts with
    ⟨cb, _, _, hfs, hcode, _⟩ | ⟨_, hmode, hfs, hcode, _⟩ | ⟨_, hfails⟩
  · rw [hfs]
    exact image_constant fs b io.image device.path.chars _ hb (hcode ▸ hok)
  · rw [hfs]
    exact device_constant fs b io.device device (beOpts opts) device.path.chars hb (hsize hmode)
      (hcode ▸ hok)
  · exact absurd hok hfails.1

end Successes

/-- After a run of the sanitizer that succeeds with zeros or ones nothing of the whole
target can be recovered: a scan with the built-in signatures adds no hit, and no file put
together from the bytes of the target is valid. -/
theorem sanitized_unrecoverable (fs : FileSystem) (io : SanitizerIo) (device : StorageDevice)
    (opts : SanitizationOptions) (b : UInt8) (hb : patternByte opts.blockErase.pattern = some b)
    (hsize : opts.testMode = false → ∀ node, fs.resolve device.path.chars = some node →
      io.device.blkgetsize = some (fs.object node).content.length)
    (hok : (sanitizerRun fs io device opts).code = .ok) :
    ∃ node, fs.resolve device.path.chars = some node ∧
      (∀ fm a, fm.image = ((sanitizerRun fs io device opts).fs.object node).content → Sized fm →
        (discoveryScan fileMirrorReadBlock defaultEngine fm a).2.1.hits = []) ∧
      ∀ (crc32 : Bytes → ℕ) (format : FileFormat) (data : Bytes) (v : Verdict),
        (∀ x ∈ data, x ∈ ((sanitizerRun fs io device opts).fs.object node).content) →
        fileValidator crc32 format data = some v → v.outcome ≠ .validates := by
  obtain ⟨node, hres, hall⟩ := sanitized_constant fs b io device opts hb hsize hok
  have hbyte := pattern_byte _ b hb
  obtain ⟨hhits, hfiles⟩ := constant_unrecoverable b _ hbyte hall
  refine ⟨node, hres, fun fm a himage hsized => ?_, hfiles⟩
  rw [hhits fm defaultEngine a himage hsized (default_varied b hbyte)]
  decide

theorem sanitized_unrecoverable_drive :
    ∃ node, (soleObject "/dev/sda".toList (.blockDevice shortJpeg)).resolve drive.path.chars =
        some node ∧
      (∀ fm a, fm.image = ((sanitizerRun (soleObject "/dev/sda".toList (.blockDevice shortJpeg))
          (SanitizerIo.calm 6) drive
          { sanitizerOptionsInit with testMode := false }).fs.object node).content → Sized fm →
        (discoveryScan fileMirrorReadBlock defaultEngine fm a).2.1.hits = []) ∧
      ∀ (crc32 : Bytes → ℕ) (format : FileFormat) (data : Bytes) (v : Verdict),
        (∀ x ∈ data, x ∈ ((sanitizerRun (soleObject "/dev/sda".toList (.blockDevice shortJpeg))
          (SanitizerIo.calm 6) drive
          { sanitizerOptionsInit with testMode := false }).fs.object node).content) →
        fileValidator crc32 format data = some v → v.outcome ≠ .validates :=
  sanitized_unrecoverable (soleObject "/dev/sda".toList (.blockDevice shortJpeg))
    (SanitizerIo.calm 6) drive { sanitizerOptionsInit with testMode := false } 0x00 rfl
    (fun _ _ _ => rfl) (by decide)

end EraseCure.RecoveryAfterErase
