import EraseCure.JpegMarkers
import Mathlib.Tactic.Ring

/-!
# Parsed sizes

The parsed size stays within the buffer unless a length read from the buffer
leads past its end: a segment of a JPEG, a color table or a chain of sub-blocks
of a GIF, a tag or a frame of an MP3. These are the only ways, and each of them
is reported as a parsed size.
-/

set_option autoImplicit false

namespace EraseCure.ParsedSizes
open EraseCure.FileSystems EraseCure.Scans EraseCure.FileValidators EraseCure.JpegMarkers

inductive FileFormat where
  | jpeg | png | gif | pdf | zip | mp3 | elf
  deriving DecidableEq

def fileValidator (crc32 : Bytes → ℕ) (format : FileFormat) (data : Bytes) : Option Verdict :=
  match format with
  | .jpeg => some (jpegFileValidator data)
  | .png => pngFileValidator crc32 data
  | .gif => some (gifFileValidator data)
  | .pdf => some (pdfFileValidator data)
  | .zip => some (zipFileValidator data)
  | .mp3 => some (mp3FileValidator data)
  | .elf => some (elfFileValidator data)

/-- The outcome is one for which the file is kept. -/
def Verdict.Kept (v : Verdict) : Prop := v.outcome = .promising ∨ v.outcome = .validates

instance (v : Verdict) : Decidable (Verdict.Kept v) := inferInstanceAs (Decidable (_ ∨ _))

def Verdict.Bounded (v : Verdict) (size : ℕ) : Prop :=
  Verdict.Kept v → ∀ n, v.parsedSize = some n → n ≤ size

theorem reject_bounded (size : ℕ) : Verdict.Bounded .reject size := by
  intro _ n hn
  contradiction

theorem bounded_some (outcome : FileValidationOutcome) (n size : ℕ) (h : n ≤ size) :
    Verdict.Bounded ⟨outcome, some n⟩ size := by
  intro _ m hm
  cases hm
  exact h

theorem promising_bounded (n size : ℕ) :
    Verdict.Bounded ⟨.promising, some n⟩ size ↔ n ≤ size := by
  constructor
  · exact fun h => h (Or.inl rfl) n rfl
  · exact bounded_some .promising n size

section Jpeg
variable (data : Bytes)

def jpegHeader : Prop := 4 ≤ data.length ∧ byteAt data 0 = 0xFF ∧ byteAt data 1 = 0xD8

/-- A start of scan and a segment that ends past the buffer. -/
def JpegOverrun : Prop :=
  jpegHeader data ∧ (∃ o, JpegPosition data o ∧ Marker data o 0xDA) ∧
    ∃ o, JpegPosition data o ∧ Segment data o ∧
      data.length < o+(2+bigEndian16 data (o+2))

theorem position_past (o : ℕ) (h : JpegPosition data o) (hlen : 4 ≤ data.length)
    (ho : data.length < o) : ∃ p, JpegPosition data p ∧ Segment data p ∧
      data.length < p+(2+bigEndian16 data (p+2)) := by
  cases h with
  | start | skip | bare => omega
  | sos p _ hm =>
    have := hm.1
    omega
  | segment p hp hs => exact ⟨p, hp, hs, ho⟩

theorem jpeg_run (h : jpegHeader data) :
    jpegFileValidator data = (jpegScan data).run ⟨2, false⟩ := by
  obtain ⟨hlen, h0, h1⟩ := h
  rw [jpegFileValidator, if_neg (by omega), if_neg (by simp [h0, h1])]

theorem jpeg_reject (h : ¬ jpegHeader data) : jpegFileValidator data = .reject := by
  rw [jpegFileValidator]
  by_cases hlen : data.length < 4
  · rw [if_pos hlen]
  · rw [if_neg hlen, if_pos]
    by_contra hne
    push Not at hne
    exact h ⟨by omega, hne⟩

/-- After a segment that ends past the buffer the scan is over. -/
theorem jpeg_overrun (o : ℕ) (hp : JpegPosition data o) (hs : Segment data o)
    (hlt : data.length < o+(2+bigEndian16 data (o+2)))
    (hsos : ∃ o, JpegPosition data o ∧ Marker data o 0xDA) :
    (jpegScan data).run ⟨2, false⟩ =
      ⟨.promising, some (o+(2+bigEndian16 data (o+2)))⟩ := by
  obtain ⟨s, hv, hr, hflag⟩ := jpeg_last data
  obtain ⟨b, hb⟩ := position_visited data o hp
  have hn : Visits (jpegScan data) ⟨2, false⟩ ⟨o+(2+bigEndian16 data (o+2)), b⟩ :=
    .next _ _ hb (round_segment data ⟨o, b⟩ hs)
  have hd : jpegRound data ⟨o+(2+bigEndian16 data (o+2)), b⟩ =
      .done (JpegState.verdict ⟨o+(2+bigEndian16 data (o+2)), b⟩) := by
    rw [jpegRound, if_pos (by dsimp only; omega)]
  rcases visits_cases _ _ _ (visits_last _ _ _ s _ hn hv hr) with rfl | ⟨s', hn', _⟩
  · rw [run_visited _ _ _ hn, run_done _ _ _ hd, JpegState.verdict]
    rw [if_pos (hflag.mpr hsos)]
  · rw [show (jpegScan data).round _ = _ from hd] at hn'
    contradiction

theorem jpeg_bounded :
    Verdict.Bounded (jpegFileValidator data) data.length ↔ ¬ JpegOverrun data := by
  by_cases hh : jpegHeader data
  · rw [jpeg_run data hh]
    constructor
    · rintro hb ⟨_, hsos, o, hp, hs, hlt⟩
      rw [jpeg_overrun data o hp hs hlt hsos, promising_bounded] at hb
      omega
    · intro hno
      obtain ⟨s, hv, hr, hflag⟩ := jpeg_last data
      have hstep := round_step data s
      rw [hr] at hstep
      generalize (jpegScan data).run ⟨2, false⟩ = r at hstep
      cases hstep with
      | eoi hm =>
        apply bounded_some
        have := hm.1
        omega
      | stop =>
        rw [JpegState.verdict]
        by_cases hb : s.hasSos = true
        · rw [if_pos hb, promising_bounded]
          by_contra hlt
          exact hno ⟨hh, hflag.mp hb,
            position_past data _ (visited_position data s hv).1 hh.1 (not_le.mp hlt)⟩
        · rw [if_neg hb]
          rintro (hk | hk) <;> contradiction
  · rw [jpeg_reject data hh]
    exact iff_of_true (reject_bounded _) (fun ho => hh ho.1)

end Jpeg

theorem png_bounded (crc32 : Bytes → ℕ) (data : Bytes) (v : Verdict)
    (h : pngFileValidator crc32 data = some v) : Verdict.Bounded v data.length := by
  rw [pngFileValidator] at h
  split_ifs at h with h1 h2
  · cases h
    exact reject_bounded _
  · cases h
    exact reject_bounded _
  obtain ⟨s, hv, hr⟩ := run_last (pngScan crc32 data) ⟨8, false⟩
  have hle : s.offset ≤ data.length := by
    apply visits_invariant (pngScan crc32 data) ⟨8, false⟩ (fun s => s.offset ≤ data.length)
      (by dsimp only; omega) _ s hv
    intro t t' _ ht
    simp only [pngScan, pngRound] at ht
    split_ifs at ht
    all_goals
      cases ht
      dsimp only
      omega
  rw [h] at hr
  simp only [pngScan, pngRound] at hr
  split_ifs at hr with g1 g2 g3 g4 g5 g6
  all_goals cases hr
  · exact bounded_some _ _ _ hle
  · exact bounded_some _ _ _ hle
  · exact reject_bounded _
  · exact reject_bounded _
  all_goals exact bounded_some _ _ _ (by omega)

theorem pdf_bounded (data : Bytes) :
    Verdict.Bounded (pdfFileValidator data) data.length := by
  rw [pdfFileValidator]
  split_ifs with h1 h2
  · exact reject_bounded _
  · exact reject_bounded _
  all_goals
    dsimp only
    split
    · rename_i i hi
      apply bounded_some
      have hm := List.mem_of_find?_eq_some hi
      rw [searchRange, List.mem_range'_1] at hm
      omega
    · exact bounded_some _ _ _ le_rfl

theorem zip_bounded (data : Bytes) :
    Verdict.Bounded (zipFileValidator data) data.length := by
  rw [zipFileValidator]
  split_ifs
  · exact reject_bounded _
  · exact reject_bounded _
  all_goals
    dsimp only
    split <;> exact bounded_some _ _ _ le_rfl

theorem elf_bounded (data : Bytes) :
    Verdict.Bounded (elfFileValidator data) data.length := by
  rw [elfFileValidator]
  split_ifs
  all_goals first | exact reject_bounded _ | exact bounded_some _ _ _ le_rfl

section Gif
variable (data : Bytes)

def gifHeader : Prop :=
  14 ≤ data.length ∧ (bytesAt data 0 gif87a = true ∨ bytesAt data 0 gif89a = true)

def imageData (o : ℕ) : ℕ := o+10+colorTable (byteAt data (o+9))

def ImageBlock (o : ℕ) : Prop := o+10 ≤ data.length ∧ byteAt data o = 0x2C

def ExtensionBlock (o : ℕ) : Prop := o+2 ≤ data.length ∧ byteAt data o = 0x21

/-- No zero byte closes the chain of sub-blocks from here. -/
def OpenChain (o : ℕ) : Prop := data.length ≤ (subBlocks data).run o

inductive GifPosition : ℕ → Prop where
  | start : GifPosition (13+colorTable (byteAt data 10))
  | image (o : ℕ) : GifPosition o → ImageBlock data o → imageData data o < data.length →
      GifPosition ((subBlocks data).run (imageData data o+1)+1)
  | extension (o : ℕ) : GifPosition o → ExtensionBlock data o →
      GifPosition ((subBlocks data).run (o+2)+1)

/-- A color table or a chain of sub-blocks that goes past the end. -/
def GifOverrun : Prop :=
  gifHeader data ∧
    (data.length < 13+colorTable (byteAt data 10) ∨
      ∃ o, GifPosition data o ∧
        ((ImageBlock data o ∧ data.length < imageData data o) ∨
          (ImageBlock data o ∧ imageData data o < data.length ∧
            OpenChain data (imageData data o+1)) ∨
          (ExtensionBlock data o ∧ OpenChain data (o+2))))

inductive GifStep (o : ℕ) : Round ℕ Verdict → Prop where
  | stop : GifStep o (.done ⟨.promising, some o⟩)
  | trailer : o < data.length → GifStep o (.done ⟨.validates, some (o+1)⟩)
  | table : ImageBlock data o → data.length ≤ imageData data o →
      GifStep o (.done ⟨.promising, some (imageData data o)⟩)
  | image : ImageBlock data o → imageData data o < data.length →
      GifStep o (.next ((subBlocks data).run (imageData data o+1)+1))
  | extension : ExtensionBlock data o → GifStep o (.next ((subBlocks data).run (o+2)+1))

theorem gif_step (o : ℕ) : GifStep data o (gifRound data o) := by
  unfold gifRound
  dsimp only
  split_ifs with h1 h2 h3 h4 h5 h6 h7
  · exact .stop
  · exact .trailer (by omega)
  · exact .stop
  · exact .table ⟨by omega, h3⟩ h5
  · exact .image ⟨by omega, h3⟩ (by rw [imageData]; omega)
  · exact .stop
  · exact .extension ⟨by omega, h6⟩
  · exact .stop

theorem round_image (o : ℕ) (h : ImageBlock data o) (hlt : imageData data o < data.length) :
    gifRound data o = .next ((subBlocks data).run (imageData data o+1)+1) := by
  obtain ⟨hlen, hb⟩ := h
  rw [gifRound, if_neg (by omega), if_neg (by rw [hb]; decide), if_pos hb, if_neg (by omega)]
  dsimp only
  exact if_neg (by rw [imageData] at hlt; omega)

theorem round_table (o : ℕ) (h : ImageBlock data o) (hle : data.length ≤ imageData data o) :
    gifRound data o = .done ⟨.promising, some (imageData data o)⟩ := by
  obtain ⟨hlen, hb⟩ := h
  rw [gifRound, if_neg (by omega), if_neg (by rw [hb]; decide), if_pos hb, if_neg (by omega)]
  dsimp only
  exact if_pos hle

theorem round_extension (o : ℕ) (h : ExtensionBlock data o) :
    gifRound data o = .next ((subBlocks data).run (o+2)+1) := by
  obtain ⟨hlen, hb⟩ := h
  rw [gifRound, if_neg (by omega), if_neg (by rw [hb]; decide), if_neg (by rw [hb]; decide),
    if_pos hb, if_neg (by omega)]

theorem gif_visited (o : ℕ) :
    Visits (gifScan data) (13+colorTable (byteAt data 10)) o ↔ GifPosition data o := by
  constructor
  · intro h
    apply visits_invariant (gifScan data) _ (GifPosition data) .start _ o h
    intro t t' ht hr
    have hstep := gif_step data t
    rw [show gifRound data t = .next t' from hr] at hstep
    cases hstep with
    | image hi hlt => exact .image t ht hi hlt
    | extension he => exact .extension t ht he
  · intro h
    induction h with
    | start => exact .start
    | image o _ hi hlt ih => exact .next _ _ ih (round_image data o hi hlt)
    | extension o _ he ih => exact .next _ _ ih (round_extension data o he)

/-- A block that starts past the end follows one whose chain stays open. -/
theorem gif_past (o : ℕ) (h : GifPosition data o) (hh : gifHeader data)
    (ho : data.length < o) : GifOverrun data := by
  cases h with
  | start => exact ⟨hh, Or.inl ho⟩
  | image p hp hi hlt =>
    exact ⟨hh, Or.inr ⟨p, hp, Or.inr (Or.inl ⟨hi, hlt, Nat.le_of_lt_succ ho⟩)⟩⟩
  | extension p hp he =>
    exact ⟨hh, Or.inr ⟨p, hp, Or.inr (Or.inr ⟨he, Nat.le_of_lt_succ ho⟩)⟩⟩

theorem gif_stops (o : ℕ) (h : GifPosition data o) (hle : data.length ≤ o) :
    (gifScan data).run (13+colorTable (byteAt data 10)) = ⟨.promising, some o⟩ := by
  rw [run_visited _ _ _ ((gif_visited data o).mpr h)]
  exact run_done _ _ _ (if_pos hle)

theorem gif_overrun (h : GifOverrun data) :
    ∃ n, data.length < n ∧
      (gifScan data).run (13+colorTable (byteAt data 10)) = ⟨.promising, some n⟩ := by
  obtain ⟨_, hstart | ⟨o, ho, ⟨hi, hlt⟩ | ⟨hi, hlt, hopen⟩ | ⟨he, hopen⟩⟩⟩ := h
  · exact ⟨_, hstart, gif_stops data _ .start hstart.le⟩
  · refine ⟨_, hlt, ?_⟩
    rw [run_visited _ _ _ ((gif_visited data o).mpr ho)]
    exact run_done _ _ _ (round_table data o hi hlt.le)
  · rw [OpenChain] at hopen
    exact ⟨_, Nat.lt_succ_of_le hopen,
      gif_stops data _ (.image o ho hi hlt) (by omega)⟩
  · rw [OpenChain] at hopen
    exact ⟨_, Nat.lt_succ_of_le hopen, gif_stops data _ (.extension o ho he) (by omega)⟩

theorem gif_run (h : gifHeader data) :
    gifFileValidator data = (gifScan data).run (13+colorTable (byteAt data 10)) := by
  obtain ⟨hlen, hm⟩ := h
  rw [gifFileValidator, if_neg (by omega), if_neg]
  rcases hm with hm | hm <;> simp [hm]

theorem gif_reject (h : ¬ gifHeader data) : gifFileValidator data = .reject := by
  rw [gifFileValidator]
  by_cases hlen : data.length < 14
  · rw [if_pos hlen]
  · rw [if_neg hlen, if_pos]
    by_contra hne
    apply h
    simp only [Bool.and_eq_true, Bool.not_eq_true', not_and_or, Bool.not_eq_false] at hne
    exact ⟨by omega, hne⟩

theorem gif_bounded :
    Verdict.Bounded (gifFileValidator data) data.length ↔ ¬ GifOverrun data := by
  by_cases hh : gifHeader data
  · rw [gif_run data hh]
    constructor
    · intro hb ho
      obtain ⟨n, hn, hr⟩ := gif_overrun data ho
      rw [hr, promising_bounded] at hb
      omega
    · intro hno
      obtain ⟨o, hv, hr⟩ := run_last (gifScan data) (13+colorTable (byteAt data 10))
      have ho := (gif_visited data o).mp hv
      have hstep := gif_step data o
      rw [show gifRound data o = _ from hr] at hstep
      generalize (gifScan data).run _ = r at hstep
      cases hstep with
      | stop =>
        rw [promising_bounded]
        by_contra hlt
        exact hno (gif_past data o ho hh (not_le.mp hlt))
      | trailer hlt => exact bounded_some _ _ _ hlt
      | table hi _ =>
        rw [promising_bounded]
        by_contra hlt
        exact hno ⟨hh, Or.inr ⟨o, ho, Or.inl ⟨hi, not_le.mp hlt⟩⟩⟩
  · rw [gif_reject data hh]
    exact iff_of_true (reject_bounded _) (fun ho => hh ho.1)

end Gif

section Mp3
variable (data : Bytes)

def mp3Start : ℕ := if bytesAt data 0 id3 then 10+tagSize data else 0

def Mp3Frames (n : ℕ) : Prop :=
  ∀ i < n, mp3Start data+frameLen*i+4 ≤ data.length ∧
    frameHeader data (mp3Start data+frameLen*i) = true

/-- A tag or a frame that ends past the buffer. -/
def Mp3Overrun : Prop :=
  10 ≤ data.length ∧ (data.length < mp3Start data ∨
    ∃ n, Mp3Frames data (n+1) ∧ data.length < mp3Start data+frameLen*(n+1))

theorem mp3_next (o n : ℕ) (h : o+4 ≤ data.length ∧ frameHeader data o = true) :
    mp3Round data ⟨o, n⟩ = .next ⟨o+frameLen, n+1⟩ := by
  rw [mp3Round, if_pos h]

theorem mp3_done (o n : ℕ) (h : data.length < o) :
    mp3Round data ⟨o, n⟩ = .done ⟨if 3 ≤ n then .validates else .promising, some o⟩ := by
  rw [mp3Round, if_neg (by dsimp only; omega)]

theorem mp3_visited (n : ℕ) (h : Mp3Frames data n) :
    Visits (mp3Scan data) ⟨mp3Start data, 0⟩ ⟨mp3Start data+frameLen*n, n⟩ := by
  induction n with
  | zero => exact .start
  | succ n ih =>
    have hn := ih (fun i hi => h i (by omega))
    rw [Nat.mul_succ, ← Nat.add_assoc]
    exact .next _ _ hn (mp3_next data _ n (h n (by omega)))

theorem visited_mp3 (s : Mp3State) (h : Visits (mp3Scan data) ⟨mp3Start data, 0⟩ s) :
    s.offset = mp3Start data+frameLen*s.validFrames ∧ Mp3Frames data s.validFrames := by
  apply visits_invariant (mp3Scan data) ⟨mp3Start data, 0⟩ (fun s =>
    s.offset = mp3Start data+frameLen*s.validFrames ∧ Mp3Frames data s.validFrames)
    ⟨rfl, fun i hi => absurd hi (Nat.not_lt_zero i)⟩ _ s h
  rintro t t' ⟨ho, hf⟩ hr
  simp only [mp3Scan, mp3Round] at hr
  split_ifs at hr with hh
  cases hr
  constructor
  · dsimp only
    rw [ho]
    ring
  · intro i hi
    rcases Nat.lt_succ_iff_lt_or_eq.mp hi with hlt | rfl
    · exact hf i hlt
    · rwa [← ho]

theorem mp3_run (h : 10 ≤ data.length) :
    mp3FileValidator data = (mp3Scan data).run ⟨mp3Start data, 0⟩ := by
  rw [mp3FileValidator, if_neg (not_lt.mpr h), mp3Start]

theorem mp3_last : ∃ frames, Mp3Frames data frames ∧ (mp3Scan data).run ⟨mp3Start data, 0⟩ =
    ⟨if 3 ≤ frames then .validates else .promising, some (mp3Start data+frameLen*frames)⟩ := by
  obtain ⟨s, hv, hr⟩ := run_last (mp3Scan data) ⟨mp3Start data, 0⟩
  obtain ⟨ho, hf⟩ := visited_mp3 data s hv
  change mp3Round data s = _ at hr
  rw [mp3Round] at hr
  split at hr
  · contradiction
  · exact ⟨s.validFrames, hf, by rw [← Round.done.inj hr, ho]⟩

theorem mp3_ends (n : ℕ) (h : Mp3Frames data n) (hlt : data.length < mp3Start data+frameLen*n) :
    ∃ outcome, (mp3Scan data).run ⟨mp3Start data, 0⟩ =
        ⟨outcome, some (mp3Start data+frameLen*n)⟩ ∧
      (outcome = .promising ∨ outcome = .validates) := by
  refine ⟨_, (run_visited _ _ _ (mp3_visited data n h)).trans
    (run_done _ _ _ (mp3_done data _ n hlt)), ?_⟩
  split
  · exact Or.inr rfl
  · exact Or.inl rfl

theorem mp3_bounded :
    Verdict.Bounded (mp3FileValidator data) data.length ↔ ¬ Mp3Overrun data := by
  by_cases hlen : 10 ≤ data.length
  · rw [mp3_run data hlen]
    constructor
    · rintro hb ⟨_, ho⟩
      obtain ⟨n, hf, hlt⟩ : ∃ n, Mp3Frames data n ∧
          data.length < mp3Start data+frameLen*n := by
        rcases ho with hlt | ⟨n, hf, hlt⟩
        · exact ⟨0, fun i hi => absurd hi (Nat.not_lt_zero i), hlt⟩
        · exact ⟨n+1, hf, hlt⟩
      obtain ⟨outcome, hr, hk⟩ := mp3_ends data n hf hlt
      rw [hr] at hb
      have := hb hk _ rfl
      omega
    · intro hno
      obtain ⟨frames, hf, hr⟩ := mp3_last data
      rw [hr]
      apply bounded_some
      by_contra hlt
      cases frames with
      | zero => exact hno ⟨hlen, Or.inl (by simpa using hlt)⟩
      | succ n => exact hno ⟨hlen, Or.inr ⟨n, hf, not_le.mp hlt⟩⟩
  · rw [mp3FileValidator, if_pos (not_le.mp hlen)]
    exact iff_of_true (reject_bounded _) (fun ho => hlen ho.1)

end Mp3

def Overruns : FileFormat → Bytes → Prop
  | .jpeg => JpegOverrun
  | .gif => GifOverrun
  | .mp3 => Mp3Overrun
  | _ => fun _ => False

/-- The parsed size of a kept file is within the buffer exactly when no length
read from the buffer leads past its end. -/
theorem parsed_bounded (crc32 : Bytes → ℕ) (format : FileFormat) (data : Bytes) :
    (∀ v, fileValidator crc32 format data = some v → Verdict.Bounded v data.length) ↔
      ¬ Overruns format data := by
  have hsome : ∀ v : Verdict, (∀ v', some v = some v' → Verdict.Bounded v' data.length) ↔
      Verdict.Bounded v data.length := by
    intro v
    constructor
    · exact fun h => h v rfl
    · rintro h v' hv
      cases hv
      exact h
  cases format with
  | jpeg => exact (hsome _).trans (jpeg_bounded data)
  | gif => exact (hsome _).trans (gif_bounded data)
  | mp3 => exact (hsome _).trans (mp3_bounded data)
  | png => exact iff_of_true (png_bounded crc32 data) not_false
  | pdf => exact iff_of_true ((hsome _).mpr (pdf_bounded data)) not_false
  | zip => exact iff_of_true ((hsome _).mpr (zip_bounded data)) not_false
  | elf => exact iff_of_true ((hsome _).mpr (elf_bounded data)) not_false

def cutSegment : Bytes := [0xFF, 0xD8, 0xFF, 0xDA, 0xFF, 0xE0, 0x00, 0x10]

theorem cut_segment_past : ¬ ∀ (format : FileFormat) (data : Bytes) (v : Verdict),
    fileValidator (fun _ => 0) format data = some v → Verdict.Bounded v data.length := by
  intro h
  have hv : fileValidator (fun _ => 0) .jpeg cutSegment = some ⟨.promising, some 22⟩ := by
    decide +kernel
  have hb := h .jpeg cutSegment _ hv
  rw [promising_bounded] at hb
  exact absurd hb (by decide)

end EraseCure.ParsedSizes
