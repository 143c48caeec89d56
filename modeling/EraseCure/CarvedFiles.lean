import EraseCure.Crc32
import EraseCure.GifWords

/-!
# Carved files

A file that a validator accepts is cut to the parsed size, or more data follows
it. What follows does not matter for a GIF, a PNG or a JPEG. A cut file is
accepted again with the same size, unless it is a PDF in which the search for the
end then meets an earlier one, or a PNG in which a chunk goes past the cut.
-/

set_option autoImplicit false

namespace EraseCure.CarvedFiles
open EraseCure.FileSystems EraseCure.Scans EraseCure.FileValidators EraseCure.JpegMarkers
open EraseCure.ParsedSizes EraseCure.TruncatedFiles EraseCure.GifWords

section Jpeg
variable (data : Bytes)

theorem jpeg_validates (n : ℕ) : jpegFileValidator data = ⟨.validates, some n⟩ ↔
    jpegHeader data ∧ ∃ o, JpegPosition data o ∧ Marker data o 0xD9 ∧ n = o+2 := by
  constructor
  · intro h
    have hh := (jpeg_header_of_validates data n h).1
    obtain ⟨s, hv, hr, _⟩ := jpeg_last data
    rw [← jpeg_run data hh, h] at hr
    have hstep := round_step data s
    rw [hr] at hstep
    generalize hd : (⟨.validates, some n⟩ : Verdict) = r at hstep
    cases hstep with
    | eoi hm =>
      cases hd
      exact ⟨hh, _, (visited_position data s hv).1, hm, rfl⟩
    | stop =>
      rw [JpegState.verdict, Verdict.mk.injEq] at hd
      have := hd.1
      split at this <;> contradiction
  · rintro ⟨hh, o, ho, hm, rfl⟩
    obtain ⟨b, hb⟩ := position_visited data o ho
    rw [jpeg_run data hh, run_visited _ _ _ hb, run_done _ _ _ (round_eoi data ⟨o, b⟩ hm)]

theorem jpeg_take (k n : ℕ) (hk : k ≤ data.length) (hn : n ≤ k) :
    jpegFileValidator (data.take k) = ⟨.validates, some n⟩ ↔
      jpegFileValidator data = ⟨.validates, some n⟩ := by
  rw [jpeg_validates, jpeg_validates]
  constructor
  · rintro ⟨⟨hlen, h0, h1⟩, o, ho, hm, rfl⟩
    rw [List.length_take_of_le hk] at hlen
    rw [byteAt_take data k 0 (by omega)] at h0
    rw [byteAt_take data k 1 (by omega)] at h1
    exact ⟨⟨hlen.trans hk, h0, h1⟩, o, position_of_take data k hk o ho,
      ((marker_take data k hk o _).mp hm).2, rfl⟩
  · rintro ⟨⟨hlen, h0, h1⟩, o, ho, hm, rfl⟩
    have hge := position_ge data o ho
    refine ⟨⟨?_, ?_, ?_⟩, o, position_take data k hk o ho hn,
      (marker_take data k hk o _).mpr ⟨hn, hm⟩, rfl⟩
    · rw [List.length_take_of_le hk]
      omega
    · rwa [byteAt_take data k 0 (by omega)]
    · rwa [byteAt_take data k 1 (by omega)]

end Jpeg

theorem gif_take (data : Bytes) (k n : ℕ) (hk : k ≤ data.length) (hn : n ≤ k) :
    gifFileValidator (data.take k) = ⟨.validates, some n⟩ ↔
      gifFileValidator data = ⟨.validates, some n⟩ := by
  rw [gif_validates_word, gif_validates_word, List.length_take_of_le hk, List.take_take,
    Nat.min_eq_left hn]
  constructor
  · exact fun h => ⟨h.1.trans hk, h.2⟩
  · exact fun h => ⟨hn, h.2⟩

section Png
variable (crc32 : Bytes → ℕ) (data : Bytes)

inductive PngPosition : ℕ → Prop where
  | start : PngPosition 8
  | next (o : ℕ) : PngPosition o → bytesAt data (o+4) iend = false →
      PngPosition (o+(12+bigEndian32 data o)%2^32)

theorem ihdr_not_iend (i : ℕ) (h : bytesAt data i ihdr = true) : bytesAt data i iend = false := by
  rw [bytesAt, decide_eq_true_eq] at h
  rw [bytesAt, decide_eq_false_iff_not, show iend.length = ihdr.length from rfl, h]
  decide

theorem round_goes (s s' : PngState) (h : pngRound crc32 data s = .next s') :
    ChunkWithin data data.length s.offset ∧ bytesAt data (s.offset+4) iend = false ∧
      s'.offset = s.offset+(12+bigEndian32 data s.offset)%2^32 := by
  unfold pngRound at h
  dsimp only at h
  split_ifs at h with h1 h2 h3 h4 h5 h6
  · cases h
    exact ⟨⟨by omega, by omega⟩, ihdr_not_iend data _ h4, rfl⟩
  · cases h
    exact ⟨⟨by omega, by omega⟩, by simpa using h6, rfl⟩

theorem round_accepts (s : PngState) (m : Option ℕ)
    (h : pngRound crc32 data s = .done (some ⟨.validates, m⟩)) :
    ChunkWithin data data.length s.offset ∧ bytesAt data (s.offset+4) iend = true := by
  unfold pngRound PngState.verdict Verdict.reject at h
  dsimp only at h
  split_ifs at h
  all_goals cases h
  exact ⟨⟨by omega, by omega⟩, by assumption⟩

variable (m : Option ℕ)

/-- The scan of an accepted file reads whole chunks only. -/
theorem visited_within (h : (pngScan crc32 data).run ⟨8, false⟩ = some ⟨.validates, m⟩)
    (s : PngState) (hs : Visits (pngScan crc32 data) ⟨8, false⟩ s) :
    ChunkWithin data data.length s.offset := by
  cases hr : pngRound crc32 data s with
  | next s' => exact (round_goes crc32 data s s' hr).1
  | done v =>
    rw [run_visited _ _ _ hs, run_done _ _ _ hr] at h
    rw [h] at hr
    exact (round_accepts crc32 data s m hr).1

theorem position_read (h : (pngScan crc32 data).run ⟨8, false⟩ = some ⟨.validates, m⟩) (o : ℕ)
    (ho : PngPosition data o) : ∃ b, Visits (pngScan crc32 data) ⟨8, false⟩ ⟨o, b⟩ := by
  induction ho with
  | start => exact ⟨false, .start⟩
  | next o _ hend ih =>
    obtain ⟨b, hb⟩ := ih
    cases hr : pngRound crc32 data ⟨o, b⟩ with
    | next s =>
      obtain ⟨_, _, hs⟩ := round_goes crc32 data ⟨o, b⟩ s hr
      refine ⟨s.hasIhdr, ?_⟩
      dsimp only at hs
      rw [← hs]
      exact .next _ _ hb hr
    | done v =>
      rw [run_visited _ _ _ hb, run_done _ _ _ hr] at h
      rw [h] at hr
      have := (round_accepts crc32 data ⟨o, b⟩ m hr).2
      dsimp only at this
      rw [hend] at this
      contradiction

theorem read_position (s : PngState) (h : Visits (pngScan crc32 data) ⟨8, false⟩ s) :
    PngPosition data s.offset := by
  induction h with
  | start => exact .start
  | next t t' _ hr ih =>
    obtain ⟨_, hend, hs⟩ := round_goes crc32 data t t' hr
    rw [hs]
    exact .next t.offset ih hend

theorem magic_take (k : ℕ) (h8 : 8 ≤ k) :
    bytesAt (data.take k) 0 pngMagic = bytesAt data 0 pngMagic :=
  bytesAt_take data k 0 pngMagic (show 0+8 ≤ k by omega)

variable (k : ℕ) (hk : k ≤ data.length)
include hk

/-- A file that the first bytes hold is the same file in the whole. -/
theorem png_of_take (n : ℕ)
    (h : pngFileValidator crc32 (data.take k) = some ⟨.validates, some n⟩) :
    pngFileValidator crc32 data = some ⟨.validates, some n⟩ := by
  obtain ⟨hm, h8⟩ := png_magic_of_validates crc32 (data.take k) n h
  rw [png_run crc32 _ h8 hm] at h
  rw [List.length_take_of_le hk] at h8
  rw [magic_take data k h8] at hm
  rw [png_run crc32 data (h8.trans hk) hm, ← h]
  apply run_agree (pngScan crc32 (data.take k))
  intro s hs
  have hw := visited_within crc32 (data.take k) (some n) h s hs
  rw [ChunkWithin, List.length_take_of_le hk] at hw
  rw [bigEndian32_take data k s.offset (by omega)] at hw
  exact (round_within crc32 data k hk s hw).symm

theorem png_take (n : ℕ) (h8 : 8 ≤ k)
    (h : pngFileValidator crc32 data = some ⟨.validates, some n⟩) :
    pngFileValidator crc32 (data.take k) = some ⟨.validates, some n⟩ ↔
      ∀ o, PngPosition data o → o+12+bigEndian32 data o ≤ k := by
  obtain ⟨hm, hlen⟩ := png_magic_of_validates crc32 data n h
  rw [png_run crc32 data hlen hm] at h
  rw [png_run crc32 (data.take k) (by rwa [List.length_take_of_le hk])
    (by rwa [magic_take data k h8])]
  constructor
  · intro ht o ho
    have hpos : PngPosition (data.take k) o := by
      induction ho with
      | start => exact .start
      | next o _ hend ih =>
        obtain ⟨b, hb⟩ := position_read crc32 (data.take k) (some n) ht o ih
        have hw := visited_within crc32 (data.take k) (some n) ht _ hb
        rw [ChunkWithin, List.length_take_of_le hk] at hw
        dsimp only at hw
        rw [← bigEndian32_take data k o (by omega)]
        apply PngPosition.next o ih
        rwa [bytesAt_take data k (o+4) iend (show o+4+4 ≤ k by omega)]
    obtain ⟨b, hb⟩ := position_read crc32 (data.take k) (some n) ht o hpos
    have hw := visited_within crc32 (data.take k) (some n) ht _ hb
    rw [ChunkWithin, List.length_take_of_le hk] at hw
    dsimp only at hw
    rw [bigEndian32_take data k o (by omega)] at hw
    exact hw.2
  · intro hall
    rw [← h]
    apply run_agree (pngScan crc32 data)
    intro s hs
    have hle := hall s.offset (read_position crc32 data s hs)
    exact round_within crc32 data k hk s ⟨by omega, hle⟩

end Png

section Pdf
variable (data : Bytes)

def searchStart (size : ℕ) : ℕ := if size > 1024 then size-1024 else 0

theorem pdf_found (h5 : 5 ≤ data.length) (hm : bytesAt data 0 pdfMagic = true) (i : ℕ)
    (h : (searchRange data (searchStart data.length) 5).find? (fun i => bytesAt data i pdfEof) =
      some i) : pdfFileValidator data = ⟨.validates, some (i+5)⟩ := by
  rw [searchStart] at h
  rw [pdfFileValidator, if_neg (by omega), if_neg (by simp [hm])]
  dsimp only
  rw [h]

theorem pdf_missing (h5 : 5 ≤ data.length) (hm : bytesAt data 0 pdfMagic = true)
    (h : (searchRange data (searchStart data.length) 5).find? (fun i => bytesAt data i pdfEof) =
      none) : pdfFileValidator data = ⟨.promising, some data.length⟩ := by
  rw [searchStart] at h
  rw [pdfFileValidator, if_neg (by omega), if_neg (by simp [hm])]
  dsimp only
  rw [h]

theorem pdf_first (i : ℕ) :
    (searchRange data (searchStart data.length) 5).find? (fun i => bytesAt data i pdfEof) = some i ↔
      bytesAt data i pdfEof = true ∧ i+5 ≤ data.length ∧ searchStart data.length ≤ i ∧
        ∀ j, searchStart data.length ≤ j → j < i → bytesAt data j pdfEof = false := by
  rw [searchRange, List.find?_range'_eq_some, List.mem_range'_1]
  constructor
  · rintro ⟨heof, hrange, hfirst⟩
    exact ⟨heof, by omega, hrange.1, by simpa using hfirst⟩
  · rintro ⟨heof, hlen, hstart, hfirst⟩
    exact ⟨heof, by omega, by simpa using hfirst⟩

theorem pdf_validates (n : ℕ) : pdfFileValidator data = ⟨.validates, some n⟩ ↔
    bytesAt data 0 pdfMagic = true ∧ ∃ i, n = i+5 ∧ bytesAt data i pdfEof = true ∧
      i+5 ≤ data.length ∧ searchStart data.length ≤ i ∧
        ∀ j, searchStart data.length ≤ j → j < i → bytesAt data j pdfEof = false := by
  by_cases h5 : 5 ≤ data.length
  · by_cases hm : bytesAt data 0 pdfMagic = true
    · constructor
      · intro h
        cases hf : (searchRange data (searchStart data.length) 5).find?
            (fun i => bytesAt data i pdfEof) with
        | some i =>
          rw [pdf_found data h5 hm i hf, Verdict.mk.injEq, Option.some.injEq] at h
          exact ⟨hm, i, h.2.symm, (pdf_first data i).mp hf⟩
        | none =>
          rw [pdf_missing data h5 hm hf, Verdict.mk.injEq] at h
          exact absurd h.1 (by decide)
      · rintro ⟨_, i, rfl, hi⟩
        exact pdf_found data h5 hm i ((pdf_first data i).mpr hi)
    · rw [pdfFileValidator, if_neg (by omega), if_pos (by simpa using hm)]
      exact iff_of_false (reject_ne n) (fun h => hm h.1)
  · rw [pdfFileValidator, if_pos (by omega)]
    exact iff_of_false (reject_ne n) (by rintro ⟨_, i, _, _, hi, _⟩; omega)

theorem searchStart_mono (n size : ℕ) (h : n ≤ size) : searchStart n ≤ searchStart size := by
  unfold searchStart
  split_ifs
  all_goals omega

theorem pdf_take (n : ℕ) (hn : n ≤ data.length)
    (h : pdfFileValidator data = ⟨.validates, some n⟩) :
    pdfFileValidator (data.take n) = ⟨.validates, some n⟩ ↔
      ∀ i, searchStart n ≤ i → i+5 < n → bytesAt data i pdfEof = false := by
  obtain ⟨hm, i, rfl, heof, _, hstart, _⟩ := (pdf_validates data n).mp h
  rw [pdf_validates, List.length_take_of_le hn]
  constructor
  · rintro ⟨_, i', hi', _, _, _, hfirst⟩ j hj hlt
    rw [← bytesAt_take data (i+5) j pdfEof (show j+5 ≤ i+5 by omega)]
    exact hfirst j hj (by omega)
  · intro hnone
    refine ⟨?_, i, rfl, ?_, le_rfl, (searchStart_mono _ _ hn).trans hstart, ?_⟩
    · rwa [bytesAt_take data (i+5) 0 pdfMagic (show 0+5 ≤ i+5 by omega)]
    · rwa [bytesAt_take data (i+5) i pdfEof le_rfl]
    · intro j hj hlt
      rw [bytesAt_take data (i+5) j pdfEof (show j+5 ≤ i+5 by omega)]
      exact hnone j hj (by omega)

end Pdf

section Mp3
variable (data : Bytes)

theorem frameHeader_take (k o : ℕ) (h : o+3 ≤ k) :
    frameHeader (data.take k) o = frameHeader data o := by
  rw [frameHeader, frameHeader, byteAt_take data k o (by omega),
    byteAt_take data k (o+1) (by omega), byteAt_take data k (o+2) (by omega)]

theorem tagSize_take (k : ℕ) (h : 10 ≤ k) : tagSize (data.take k) = tagSize data := by
  rw [tagSize, tagSize, byteAt_take data k 6 (by omega), byteAt_take data k 7 (by omega),
    byteAt_take data k 8 (by omega), byteAt_take data k 9 (by omega)]

theorem mp3Start_take (k : ℕ) (h : 10 ≤ k) : mp3Start (data.take k) = mp3Start data := by
  rw [mp3Start, mp3Start, bytesAt_take data k 0 id3 (show 0+3 ≤ k by omega), tagSize_take data k h]

theorem mp3_frames (n : ℕ) (h : mp3FileValidator data = ⟨.validates, some n⟩) :
    10 ≤ data.length ∧ ∃ c, 3 ≤ c ∧ Mp3Frames data c ∧ n = mp3Start data+frameLen*c := by
  by_cases h10 : 10 ≤ data.length
  · rw [mp3_run data h10] at h
    obtain ⟨frames, hf, hr⟩ := mp3_last data
    rw [h] at hr
    split_ifs at hr with h3
    · cases hr
      exact ⟨h10, frames, h3, hf, rfl⟩
    · cases hr
  · rw [mp3FileValidator, if_pos (by omega)] at h
    exact absurd h (reject_ne n)

theorem mp3_take (n : ℕ) (hn : n ≤ data.length)
    (h : mp3FileValidator data = ⟨.validates, some n⟩) :
    mp3FileValidator (data.take n) = ⟨.validates, some n⟩ := by
  obtain ⟨_, c, hc, hf, hend⟩ := mp3_frames data n h
  rw [frameLen] at hend
  have hstart := mp3Start_take data n (by omega)
  have hlen := List.length_take_of_le hn
  have hf' : Mp3Frames (data.take n) c := by
    intro i hi
    obtain ⟨_, hh⟩ := hf i hi
    rw [frameLen] at hh ⊢
    rw [hlen, hstart, frameHeader_take data n _ (by omega)]
    exact ⟨by omega, hh⟩
  have hdone : mp3Round (data.take n) ⟨mp3Start (data.take n)+frameLen*c, c⟩ =
      .done ⟨.validates, some n⟩ := by
    rw [mp3Round, if_neg, if_pos hc, hstart, frameLen, ← hend]
    dsimp only
    rw [hlen, hstart, frameLen]
    omega
  rw [mp3_run _ (by omega), run_visited _ _ _ (mp3_visited (data.take n) c hf'),
    run_done _ _ _ hdone]

end Mp3

theorem zip_whole (data : Bytes) (n : ℕ) (h : zipFileValidator data = ⟨.validates, some n⟩) :
    n = data.length := by
  rw [zipFileValidator] at h
  split_ifs at h
  · exact absurd h (reject_ne n)
  · exact absurd h (reject_ne n)
  all_goals
    dsimp only at h
    split at h
    · cases h
      rfl
    · cases h

theorem elf_whole (data : Bytes) (n : ℕ) (h : elfFileValidator data = ⟨.validates, some n⟩) :
    n = data.length := by
  rw [elfFileValidator] at h
  split_ifs at h
  · exact absurd h (reject_ne n)
  · exact absurd h (reject_ne n)
  · exact absurd h (reject_ne n)
  · exact absurd h (reject_ne n)
  · cases h
    rfl

section Carved
variable (crc32 : Bytes → ℕ) (data : Bytes) (n : ℕ) (format : FileFormat)

/-- Data that follow an accepted GIF, PNG or JPEG do not change the verdict. -/
theorem trailing_ignored (hformat : format = .gif ∨ format = .png ∨ format = .jpeg)
    (h : fileValidator crc32 format data = some ⟨.validates, some n⟩) (trailing : Bytes) :
    fileValidator crc32 format (data++trailing) = some ⟨.validates, some n⟩ := by
  have htake : (data++trailing).take data.length = data := List.take_left
  have hle : data.length ≤ (data++trailing).length := by
    rw [List.length_append]
    exact Nat.le_add_right _ _
  rcases hformat with rfl | rfl | rfl
  · have hg : gifFileValidator data = ⟨.validates, some n⟩ := Option.some.inj h
    have hn := ((gif_validates_word data n).mp hg).1
    rw [← htake, gif_take (data++trailing) data.length n hle hn] at hg
    exact congrArg some hg
  · apply png_of_take crc32 (data++trailing) data.length hle
    rwa [htake]
  · have hj : jpegFileValidator data = ⟨.validates, some n⟩ := Option.some.inj h
    have hn : n ≤ data.length := by
      obtain ⟨_, o, _, hm, rfl⟩ := (jpeg_validates data n).mp hj
      exact hm.1
    rw [← htake, jpeg_take (data++trailing) data.length n hle hn] at hj
    exact congrArg some hj

/-- The cut does not change what the validator reads. -/
def CutUnseen : FileFormat → Prop
  | .pdf => ∀ i, searchStart n ≤ i → i+5 < n → bytesAt data i pdfEof = false
  | .png => ∀ o, PngPosition data o → o+12+bigEndian32 data o ≤ n
  | _ => True

/-- An accepted file that is cut to the parsed size is accepted again with that
size exactly when the cut is not seen. -/
theorem cut_accepted (h : fileValidator crc32 format data = some ⟨.validates, some n⟩)
    (hn : n ≤ data.length) :
    fileValidator crc32 format (data.take n) = some ⟨.validates, some n⟩ ↔
      CutUnseen data n format := by
  cases format with
  | jpeg =>
    have hj : jpegFileValidator data = ⟨.validates, some n⟩ := Option.some.inj h
    exact iff_of_true (congrArg some ((jpeg_take data n n hn le_rfl).mpr hj)) trivial
  | png => exact png_take crc32 data n hn n (png_size_of_validates crc32 data n h) h
  | gif =>
    have hg : gifFileValidator data = ⟨.validates, some n⟩ := Option.some.inj h
    exact iff_of_true (congrArg some ((gif_take data n n hn le_rfl).mpr hg)) trivial
  | pdf =>
    have hp : pdfFileValidator data = ⟨.validates, some n⟩ := Option.some.inj h
    rw [CutUnseen, ← pdf_take data n hn hp]
    exact Option.some_inj
  | zip =>
    rw [zip_whole data n (Option.some.inj h), List.take_length]
    rw [zip_whole data n (Option.some.inj h)] at h
    exact iff_of_true h trivial
  | mp3 =>
    have hm : mp3FileValidator data = ⟨.validates, some n⟩ := Option.some.inj h
    exact iff_of_true (congrArg some (mp3_take data n hn hm)) trivial
  | elf =>
    rw [elf_whole data n (Option.some.inj h), List.take_length]
    rw [elf_whole data n (Option.some.inj h)] at h
    exact iff_of_true h trivial

end Carved

theorem trailing_ignored_segment :
    fileValidator (fun _ => 0) .jpeg (oneSegment++[0xFF]) = some ⟨.validates, some 22⟩ :=
  trailing_ignored (fun _ => 0) oneSegment 22 .jpeg (by decide) (one_segment_validates _) [0xFF]

def endedEarly : Bytes := pdfMagic++(pdfEof++[0x0A, 0x25, 0x25])

theorem cut_accepted_early :
    fileValidator (fun _ => 0) .pdf (endedEarly.take 10) = some ⟨.validates, some 10⟩ := by
  refine (cut_accepted (fun _ => 0) endedEarly 10 .pdf (congrArg some (by decide))
    (by decide)).mpr fun i _ hi => ?_
  have hnone : ∀ i < 5, bytesAt endedEarly i pdfEof = false := by decide
  exact hnone i (by omega)

def twoEnds : Bytes := pdfMagic++(pdfEof++(pdfEof++List.replicate 1019 0))

theorem first_end_met : ¬ ∀ (format : FileFormat) (data : Bytes) (n : ℕ),
    fileValidator Crc32.crc32 format data = some ⟨.validates, some n⟩ → n ≤ data.length →
      fileValidator Crc32.crc32 format (data.take n) = some ⟨.validates, some n⟩ := by
  intro h
  have hv : pdfFileValidator twoEnds = ⟨.validates, some 15⟩ := by decide +kernel
  have hcut : pdfFileValidator (twoEnds.take 15) = ⟨.validates, some 10⟩ := by decide
  have hsame := h .pdf twoEnds 15 (congrArg some hv) (by decide +kernel)
  rw [show fileValidator Crc32.crc32 .pdf (twoEnds.take 15) = some _ from congrArg some hcut,
    Option.some.injEq, Verdict.mk.injEq] at hsame
  exact absurd hsame.2 (by decide)

end EraseCure.CarvedFiles
