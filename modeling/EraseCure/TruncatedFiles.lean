import EraseCure.ParsedSizes

/-!
# Truncated files

A validator is run on a file and on the first bytes of it. Five validators keep
every truncation that is long enough to be looked at. The JPEG validator keeps
those that reach a start of scan or the end of the image, and the PNG validator
those that hold the whole header chunk.
-/

set_option autoImplicit false

namespace EraseCure.TruncatedFiles
open EraseCure.FileSystems EraseCure.Scans EraseCure.FileValidators EraseCure.JpegMarkers
open EraseCure.ParsedSizes

def minimumLength : FileFormat → ℕ
  | .jpeg => 4
  | .png => 8
  | .gif => 14
  | .pdf => 5
  | .zip => 22
  | .mp3 => 10
  | .elf => 52

def Keeps (r : Option Verdict) : Prop := ∃ v, r = some v ∧ Verdict.Kept v

theorem keeps_some (v : Verdict) : Keeps (some v) ↔ Verdict.Kept v := by
  constructor
  · rintro ⟨v', hv, hk⟩
    cases hv
    exact hk
  · exact fun h => ⟨v, rfl, h⟩

section Prefixes
variable (data : Bytes) (k : ℕ)

theorem byteAt_take (i : ℕ) (h : i < k) : byteAt (data.take k) i = byteAt data i := by
  rw [byteAt, byteAt, List.getD_eq_getElem?_getD, List.getD_eq_getElem?_getD,
    List.getElem?_take_of_lt h]

theorem slice_take (i n : ℕ) (h : i+n ≤ k) :
    ((data.take k).drop i).take n = (data.drop i).take n := by
  rw [List.drop_take, List.take_take, Nat.min_eq_left (by omega)]

theorem bytesAt_take (i : ℕ) (text : Bytes) (h : i+text.length ≤ k) :
    bytesAt (data.take k) i text = bytesAt data i text := by
  rw [bytesAt, bytesAt, slice_take data k i _ h]

theorem bigEndian16_take (i : ℕ) (h : i+1 < k) :
    bigEndian16 (data.take k) i = bigEndian16 data i := by
  rw [bigEndian16, bigEndian16, byteAt_take data k i (by omega), byteAt_take data k (i+1) h]

theorem bigEndian32_take (i : ℕ) (h : i+3 < k) :
    bigEndian32 (data.take k) i = bigEndian32 data i := by
  rw [bigEndian32, bigEndian32, byteAt_take data k i (by omega),
    byteAt_take data k (i+1) (by omega), bigEndian16_take data k (i+2) (by omega)]

end Prefixes

section Jpeg
variable (data : Bytes) (k : ℕ)

theorem marker_take (hk : k ≤ data.length) (o : ℕ) (m : UInt8) :
    Marker (data.take k) o m ↔ o+1 < k ∧ Marker data o m := by
  rw [Marker, Marker, List.length_take_of_le hk]
  constructor
  · rintro ⟨hlt, hb, hm⟩
    rw [byteAt_take data k o (by omega)] at hb
    rw [byteAt_take data k (o+1) hlt] at hm
    exact ⟨hlt, by omega, hb, hm⟩
  · rintro ⟨hlt, _, hb, hm⟩
    rw [byteAt_take data k o (by omega), byteAt_take data k (o+1) hlt]
    exact ⟨hlt, hb, hm⟩

theorem segment_take (hk : k ≤ data.length) (o : ℕ) :
    Segment (data.take k) o ↔ o+3 < k ∧ Segment data o := by
  rw [Segment, Segment, List.length_take_of_le hk]
  constructor
  · rintro ⟨hlt, hs⟩
    rw [byteAt_take data k o (by omega), byteAt_take data k (o+1) (by omega)] at hs
    exact ⟨hlt, by omega, hs⟩
  · rintro ⟨hlt, _, hs⟩
    rw [byteAt_take data k o (by omega), byteAt_take data k (o+1) (by omega)]
    exact ⟨hlt, hs⟩

theorem position_of_take (hk : k ≤ data.length) (o : ℕ) (h : JpegPosition (data.take k) o) :
    JpegPosition data o := by
  induction h with
  | start => exact .start
  | skip o _ hlt hb ih =>
    rw [List.length_take_of_le hk] at hlt
    rw [byteAt_take data k o (by omega)] at hb
    exact .skip o ih (by omega) hb
  | bare o _ hlt hb hm ih =>
    rw [List.length_take_of_le hk] at hlt
    rw [byteAt_take data k o (by omega)] at hb
    rw [byteAt_take data k (o+1) (by omega)] at hm
    exact .bare o ih (by omega) hb hm
  | sos o _ hm ih => exact .sos o ih ((marker_take data k hk o _).mp hm).2
  | segment o _ hs ih =>
    obtain ⟨hlt, hs⟩ := (segment_take data k hk o).mp hs
    rw [bigEndian16_take data k (o+2) (by omega)]
    exact .segment o ih hs

theorem position_take (hk : k ≤ data.length) (o : ℕ) (h : JpegPosition data o) (ho : o+1 < k) :
    JpegPosition (data.take k) o := by
  have hlen := List.length_take_of_le hk
  induction h with
  | start => exact .start
  | skip o _ hlt hb ih =>
    apply JpegPosition.skip o (ih (by omega)) (by omega)
    rwa [byteAt_take data k o (by omega)]
  | bare o _ hlt hb hm ih =>
    apply JpegPosition.bare o (ih (by omega)) (by omega)
    · rwa [byteAt_take data k o (by omega)]
    · rwa [byteAt_take data k (o+1) (by omega)]
  | sos o _ hm ih =>
    exact .sos o (ih (by omega)) ((marker_take data k hk o _).mpr ⟨by omega, hm⟩)
  | segment o _ hs ih =>
    have hn := JpegPosition.segment o (ih (by omega))
      ((segment_take data k hk o).mpr ⟨by omega, hs⟩)
    rwa [bigEndian16_take data k (o+2) (by omega)] at hn

/-- A start of scan or an end of image. -/
def Telling (o : ℕ) : Prop := Marker data o 0xDA ∨ Marker data o 0xD9

theorem jpeg_kept (h : jpegHeader data) :
    Verdict.Kept (jpegFileValidator data) ↔ ∃ o, JpegPosition data o ∧ Telling data o := by
  rw [jpeg_run data h]
  obtain ⟨s, hv, hr, hflag⟩ := jpeg_last data
  constructor
  · intro hk
    have hstep := round_step data s
    rw [hr] at hstep
    generalize (jpegScan data).run ⟨2, false⟩ = r at hstep hk
    cases hstep with
    | eoi hm => exact ⟨_, (visited_position data s hv).1, Or.inr hm⟩
    | stop =>
      by_cases hb : s.hasSos = true
      · obtain ⟨o, ho, hm⟩ := hflag.mp hb
        exact ⟨o, ho, Or.inl hm⟩
      · rw [JpegState.verdict, if_neg hb] at hk
        rcases hk with hk | hk <;> contradiction
  · rintro ⟨o, ho, hm | hm⟩
    · have hb := hflag.mpr ⟨o, ho, hm⟩
      have hstep := round_step data s
      rw [hr] at hstep
      generalize (jpegScan data).run ⟨2, false⟩ = r at hstep
      cases hstep with
      | eoi => exact Or.inr rfl
      | stop =>
        rw [JpegState.verdict, if_pos hb]
        exact Or.inl rfl
    · obtain ⟨b, hb⟩ := position_visited data o ho
      rw [run_visited _ _ _ hb, run_done _ _ _ (round_eoi data ⟨o, b⟩ hm)]
      exact Or.inr rfl

theorem jpeg_truncated (h : jpegHeader data) (hmin : 4 ≤ k) (hk : k ≤ data.length) :
    Verdict.Kept (jpegFileValidator (data.take k)) ↔
      ∃ o, o+2 ≤ k ∧ JpegPosition data o ∧ Telling data o := by
  obtain ⟨_, h0, h1⟩ := h
  rw [jpeg_kept (data.take k)]
  · constructor
    · rintro ⟨o, ho, hm⟩
      rw [Telling, marker_take data k hk, marker_take data k hk, ← and_or_left] at hm
      exact ⟨o, hm.1, position_of_take data k hk o ho, hm.2⟩
    · rintro ⟨o, hlt, ho, hm⟩
      refine ⟨o, position_take data k hk o ho hlt, ?_⟩
      rw [Telling, marker_take data k hk, marker_take data k hk, ← and_or_left]
      exact ⟨hlt, hm⟩
  · rw [jpegHeader, List.length_take_of_le hk, byteAt_take data k 0 (by omega),
      byteAt_take data k 1 (by omega)]
    exact ⟨hmin, h0, h1⟩

end Jpeg

section Png
variable (crc32 : Bytes → ℕ) (data : Bytes) (k : ℕ)

def ChunkWithin (o : ℕ) : Prop := o+12 ≤ k ∧ o+12+bigEndian32 data o ≤ k

theorem round_within (hk : k ≤ data.length) (s : PngState) (h : ChunkWithin data k s.offset) :
    pngRound crc32 (data.take k) s = pngRound crc32 data s := by
  obtain ⟨h1, h2⟩ := h
  have hlen := List.length_take_of_le hk
  have hmod := Nat.mod_le (bigEndian32 data s.offset+4) (2^32)
  have hb := bigEndian32_take data k s.offset (by omega)
  have hc := bigEndian32_take data k (s.offset+8+bigEndian32 data s.offset) (by omega)
  have hs := slice_take data k (s.offset+4) ((bigEndian32 data s.offset+4)%2^32) (by omega)
  have hi := bytesAt_take data k (s.offset+4) ihdr (show s.offset+4+4 ≤ k by omega)
  have he := bytesAt_take data k (s.offset+4) iend (show s.offset+4+4 ≤ k by omega)
  have g1 : ¬ k < s.offset+12 := by omega
  have g2 : ¬ k < s.offset+12+bigEndian32 data s.offset := by omega
  have g3 : ¬ data.length < s.offset+12 := by omega
  have g4 : ¬ data.length < s.offset+12+bigEndian32 data s.offset := by omega
  simp only [pngRound, hlen, hb, hc, hs, hi, he, if_neg g1, if_neg g2, if_neg g3, if_neg g4]

theorem round_cut (hk : k ≤ data.length) (s : PngState) (h : ¬ ChunkWithin data k s.offset) :
    pngRound crc32 (data.take k) s = .done (some s.verdict) := by
  rw [pngRound, List.length_take_of_le hk]
  by_cases h1 : k < s.offset+12
  · rw [if_pos h1]
  · rw [if_neg h1, bigEndian32_take data k s.offset (by omega)]
    apply if_pos
    by_contra h2
    exact h ⟨by omega, by omega⟩

def HeaderRead : Prop :=
  ChunkWithin data 33 8 ∧ bigEndian32 data 8 = 13 ∧
    pngRound crc32 data ⟨8, false⟩ = .next ⟨33, true⟩

theorem png_header (s : PngState) (h : Visits (pngScan crc32 data) ⟨8, false⟩ s)
    (hs : s.hasIhdr = true) : HeaderRead crc32 data := by
  have hinv : (s.offset = 8 → s.hasIhdr = false) ∧ 8 ≤ s.offset ∧
      (s.hasIhdr = true → HeaderRead crc32 data) := by
    apply visits_invariant (pngScan crc32 data) ⟨8, false⟩ (fun s =>
      (s.offset = 8 → s.hasIhdr = false) ∧ 8 ≤ s.offset ∧
        (s.hasIhdr = true → HeaderRead crc32 data)) ⟨fun _ => rfl, le_rfl, by simp⟩ _ s h
    rintro t t' ⟨hf, hle, hh⟩ hr
    have hround := hr
    simp only [pngScan, pngRound] at hr
    split_ifs at hr with h1 h2 h3 h4 h5
    · cases hr
      push Not at h5
      obtain ⟨ho, hlen⟩ := h5
      have ht : t = ⟨8, false⟩ := by
        cases t
        simp only at ho hf
        rw [ho, hf ho]
      subst ht
      dsimp only at hlen hround ⊢
      rw [hlen] at hround
      exact ⟨by omega, by omega, fun _ => ⟨⟨le_of_lt (by norm_num), by rw [hlen]⟩, hlen, hround⟩⟩
    · cases hr
      dsimp only
      exact ⟨by omega, by omega, hh⟩
  exact hinv.2.2 hs

theorem png_flag_kept (s t : PngState) (hs : s.hasIhdr = true)
    (h : Visits (pngScan crc32 data) s t) : t.hasIhdr = true := by
  apply visits_invariant (pngScan crc32 data) s (fun t => t.hasIhdr = true) hs _ t h
  intro t t' ht hr
  simp only [pngScan, pngRound] at hr
  split_ifs at hr
  · cases hr
    rfl
  · cases hr
    exact ht

theorem png_validates (m : Option ℕ)
    (h : (pngScan crc32 data).run ⟨8, false⟩ = some ⟨.validates, m⟩) :
    HeaderRead crc32 data := by
  obtain ⟨s, hv, hr⟩ := run_last (pngScan crc32 data) ⟨8, false⟩
  apply png_header crc32 data s hv
  rw [h] at hr
  simp only [pngScan, pngRound, PngState.verdict, Verdict.reject] at hr
  split_ifs at hr
  all_goals cases hr
  assumption

theorem png_run (h : 8 ≤ data.length) (hm : bytesAt data 0 pngMagic = true) :
    pngFileValidator crc32 data = (pngScan crc32 data).run ⟨8, false⟩ := by
  rw [pngFileValidator, if_neg (by omega), if_neg (by simp [hm])]

/-- A truncation of a valid PNG is kept from the end of the header chunk on. -/
theorem png_truncated (hmin : 8 ≤ k) (hk : k ≤ data.length)
    (hm : bytesAt data 0 pngMagic = true) (m : Option ℕ)
    (hv : (pngScan crc32 data).run ⟨8, false⟩ = some ⟨.validates, m⟩) :
    Keeps (pngFileValidator crc32 (data.take k)) ↔ 33 ≤ k := by
  obtain ⟨hfirst, hlen, hround⟩ := png_validates crc32 data m hv
  have hm' : bytesAt (data.take k) 0 pngMagic = true := by
    rwa [bytesAt_take data k 0 pngMagic (show 0+8 ≤ k by omega)]
  rw [png_run crc32 _ (by rw [List.length_take_of_le hk]; exact hmin) hm']
  by_cases h33 : 33 ≤ k
  · refine iff_of_true ?_ h33
    obtain ⟨s, hs, hr⟩ := run_last (pngScan crc32 (data.take k)) ⟨8, false⟩
    have hsame : pngRound crc32 (data.take k) ⟨8, false⟩ = .next ⟨33, true⟩ := by
      rw [round_within crc32 data k hk ⟨8, false⟩ ⟨by dsimp only; omega, by dsimp only; omega⟩,
        hround]
    have hflag : s.hasIhdr = true := by
      rcases visits_cases _ _ _ hs with rfl | ⟨t, ht, hst⟩
      · rw [show (pngScan crc32 (data.take k)).round ⟨8, false⟩ = _ from hsame] at hr
        contradiction
      · rw [show (pngScan crc32 (data.take k)).round ⟨8, false⟩ = _ from hsame] at ht
        cases ht
        exact png_flag_kept crc32 (data.take k) ⟨33, true⟩ s rfl hst
    change pngRound crc32 (data.take k) s = _ at hr
    by_cases hw : ChunkWithin data k s.offset
    · rw [round_within crc32 data k hk s hw] at hr
      have hs' : Visits (pngScan crc32 data) ⟨8, false⟩ s := by
        apply visits_of_rounds _ _ _ _ s hs
        intro t t' ht
        change pngRound crc32 (data.take k) t = _ at ht
        by_cases hw : ChunkWithin data k t.offset
        · rwa [round_within crc32 data k hk t hw] at ht
        · rw [round_cut crc32 data k hk t hw] at ht
          contradiction
      rw [run_visited _ _ _ hs', run_done _ _ _ hr] at hv
      rw [hv]
      exact ⟨_, rfl, Or.inr rfl⟩
    · rw [round_cut crc32 data k hk s hw, Round.done.injEq] at hr
      rw [← hr, PngState.verdict, if_pos hflag]
      exact ⟨_, rfl, Or.inl rfl⟩
  · refine iff_of_false ?_ h33
    have hcut : pngRound crc32 (data.take k) ⟨8, false⟩ = _ :=
      round_cut crc32 data k hk ⟨8, false⟩ (fun hw => by
        have := hw.2
        dsimp only at this
        omega)
    rw [run_done (pngScan crc32 (data.take k)) _ _ hcut, keeps_some]
    rintro (hkept | hkept) <;> contradiction

end Png

section Others
variable (data : Bytes) (k : ℕ)

theorem gif_kept (h : gifHeader data) : Verdict.Kept (gifFileValidator data) := by
  rw [gif_run data h]
  obtain ⟨o, _, hr⟩ := run_last (gifScan data) (13+colorTable (byteAt data 10))
  have hstep := gif_step data o
  rw [show gifRound data o = _ from hr] at hstep
  generalize (gifScan data).run _ = r at hstep
  cases hstep with
  | stop | table => exact Or.inl rfl
  | trailer => exact Or.inr rfl

theorem mp3_kept (h : 10 ≤ data.length) : Verdict.Kept (mp3FileValidator data) := by
  rw [mp3_run data h]
  obtain ⟨frames, _, hr⟩ := mp3_last data
  rw [hr, Verdict.Kept]
  dsimp only
  split
  · exact Or.inr rfl
  · exact Or.inl rfl

theorem pdf_kept (hlen : 5 ≤ data.length) (hm : bytesAt data 0 pdfMagic = true) :
    Verdict.Kept (pdfFileValidator data) := by
  rw [pdfFileValidator, if_neg (by omega), if_neg (by simp [hm])]
  dsimp only
  split
  · exact Or.inr rfl
  · exact Or.inl rfl

theorem elf_kept (hlen : 52 ≤ data.length) (hm : bytesAt data 0 elfMagic = true)
    (hc : byteAt data 4 = 1 ∨ byteAt data 4 = 2) (hd : byteAt data 5 = 1 ∨ byteAt data 5 = 2) :
    Verdict.Kept (elfFileValidator data) := by
  rw [elfFileValidator, if_neg (by omega), if_neg (by simp [hm]), if_neg (by tauto),
    if_neg (by tauto)]
  exact Or.inr rfl

theorem zip_kept (hlen : 22 ≤ data.length) (hm : bytesAt data 0 zipLocalHeader = true) :
    Verdict.Kept (zipFileValidator data) := by
  rw [zipFileValidator, if_neg (by omega), if_neg (by simp [hm])]
  dsimp only
  split
  · exact Or.inr rfl
  · exact Or.inl rfl

theorem reject_kept : ¬ Verdict.Kept .reject := by
  rintro (h | h) <;> contradiction

variable (hk : k ≤ data.length)
include hk

theorem gif_truncated (hmin : 14 ≤ k) (h : Verdict.Kept (gifFileValidator data)) :
    Verdict.Kept (gifFileValidator (data.take k)) := by
  by_cases hh : gifHeader data
  · apply gif_kept
    rw [gifHeader, List.length_take_of_le hk,
      bytesAt_take data k 0 gif87a (show 0+6 ≤ k by omega),
      bytesAt_take data k 0 gif89a (show 0+6 ≤ k by omega)]
    exact ⟨hmin, hh.2⟩
  · rw [gif_reject data hh] at h
    exact absurd h reject_kept

theorem pdf_truncated (hmin : 5 ≤ k) (h : Verdict.Kept (pdfFileValidator data)) :
    Verdict.Kept (pdfFileValidator (data.take k)) := by
  apply pdf_kept _ (by rwa [List.length_take_of_le hk])
  rw [bytesAt_take data k 0 pdfMagic (show 0+5 ≤ k by omega)]
  by_contra hm
  rw [pdfFileValidator, if_neg (by omega), if_pos (by simp [hm])] at h
  exact reject_kept h

theorem zip_truncated (hmin : 22 ≤ k) (h : Verdict.Kept (zipFileValidator data)) :
    Verdict.Kept (zipFileValidator (data.take k)) := by
  apply zip_kept _ (by rwa [List.length_take_of_le hk])
  rw [bytesAt_take data k 0 zipLocalHeader (show 0+4 ≤ k by omega)]
  by_contra hm
  rw [zipFileValidator, if_neg (by omega), if_pos (by simp [hm])] at h
  exact reject_kept h

theorem elf_truncated (hmin : 52 ≤ k) (h : Verdict.Kept (elfFileValidator data)) :
    Verdict.Kept (elfFileValidator (data.take k)) := by
  rw [elfFileValidator, if_neg (by omega)] at h
  split_ifs at h with h1 h2 h3
  · exact absurd h reject_kept
  · exact absurd h reject_kept
  · exact absurd h reject_kept
  · apply elf_kept _ (by rwa [List.length_take_of_le hk])
    · rw [bytesAt_take data k 0 elfMagic (show 0+4 ≤ k by omega)]
      simpa using h1
    · rw [byteAt_take data k 4 (by omega)]
      tauto
    · rw [byteAt_take data k 5 (by omega)]
      tauto

end Others

/-- What the first `k` bytes must hold for the file to be kept. -/
def Recognised (data : Bytes) (k : ℕ) : FileFormat → Prop
  | .jpeg => ∃ o, o+2 ≤ k ∧ JpegPosition data o ∧ Telling data o
  | .png => 33 ≤ k
  | _ => True

/-- The file is kept from the minimum length on. -/
def RecognisedAtOnce (data : Bytes) : FileFormat → Prop
  | .jpeg => byteAt data 2 = 0xFF ∧ (byteAt data 3 = 0xDA ∨ byteAt data 3 = 0xD9)
  | .png => False
  | _ => True

section Valid
variable (crc32 : Bytes → ℕ) (data : Bytes) (n : ℕ)

theorem reject_ne : Verdict.reject ≠ ⟨.validates, some n⟩ := by
  intro h
  have := congrArg Verdict.outcome h
  contradiction

theorem jpeg_header_of_validates (h : jpegFileValidator data = ⟨.validates, some n⟩) :
    jpegHeader data ∧ 4 ≤ n := by
  by_cases hh : jpegHeader data
  · rw [jpeg_run data hh] at h
    obtain ⟨s, hv, hr, _⟩ := jpeg_last data
    have hstep := round_step data s
    rw [hr, h] at hstep
    generalize hd : (⟨.validates, some n⟩ : Verdict) = r at hstep
    cases hstep with
    | eoi =>
      cases hd
      have := position_ge data _ (visited_position data s hv).1
      exact ⟨hh, by omega⟩
    | stop =>
      rw [JpegState.verdict, Verdict.mk.injEq] at hd
      have := hd.1
      split at this <;> contradiction
  · rw [jpeg_reject data hh] at h
    exact absurd h (reject_ne n)

theorem png_magic_of_validates (h : pngFileValidator crc32 data = some ⟨.validates, some n⟩) :
    bytesAt data 0 pngMagic = true ∧ 8 ≤ data.length := by
  rw [pngFileValidator] at h
  split_ifs at h with h1 h2
  · exact absurd (Option.some.inj h) (reject_ne n)
  · exact absurd (Option.some.inj h) (reject_ne n)
  · exact ⟨by simpa using h2, by omega⟩

theorem png_size_of_validates (h : pngFileValidator crc32 data = some ⟨.validates, some n⟩) :
    8 ≤ n := by
  obtain ⟨hm, hlen⟩ := png_magic_of_validates crc32 data n h
  rw [png_run crc32 data hlen hm] at h
  obtain ⟨s, hv, hr⟩ := run_last (pngScan crc32 data) ⟨8, false⟩
  have hge : 8 ≤ s.offset := by
    apply visits_invariant (pngScan crc32 data) ⟨8, false⟩ (fun s => 8 ≤ s.offset) le_rfl _ s hv
    intro t t' ht hr
    simp only [pngScan, pngRound] at hr
    split_ifs at hr
    all_goals
      cases hr
      dsimp only
      omega
  rw [h] at hr
  simp only [pngScan, pngRound, PngState.verdict, Verdict.reject] at hr
  split_ifs at hr
  all_goals cases hr
  omega

theorem jpeg_at_once (h : 4 ≤ data.length) :
    (∃ o, o+2 ≤ 4 ∧ JpegPosition data o ∧ Telling data o) ↔ RecognisedAtOnce data .jpeg := by
  constructor
  · rintro ⟨o, ho, hp, hm⟩
    have := position_ge data o hp
    obtain rfl : o = 2 := by omega
    rcases hm with hm | hm
    · exact ⟨hm.2.1, Or.inl hm.2.2⟩
    · exact ⟨hm.2.1, Or.inr hm.2.2⟩
  · rintro ⟨hb, hm | hm⟩
    · exact ⟨2, le_rfl, .start, Or.inl ⟨by omega, hb, hm⟩⟩
    · exact ⟨2, le_rfl, .start, Or.inr ⟨by omega, hb, hm⟩⟩

theorem recognised_mono (k l : ℕ) (format : FileFormat) (hkl : k ≤ l)
    (h : Recognised data k format) : Recognised data l format := by
  cases format with
  | jpeg =>
    obtain ⟨o, ho, hp⟩ := h
    exact ⟨o, ho.trans hkl, hp⟩
  | png => exact le_trans h hkl
  | gif | pdf | zip | mp3 | elf => trivial

theorem truncated_kept (format : FileFormat) (k : ℕ)
    (h : fileValidator crc32 format data = some ⟨.validates, some n⟩)
    (hmin : minimumLength format ≤ k) (hk : k ≤ data.length) :
    Keeps (fileValidator crc32 format (data.take k)) ↔ Recognised data k format := by
  have hkept : ∀ v, v = (⟨.validates, some n⟩ : Verdict) → Verdict.Kept v := by
    rintro v rfl
    exact Or.inr rfl
  cases format with
  | jpeg =>
    exact (keeps_some _).trans
      (jpeg_truncated data k (jpeg_header_of_validates data n (Option.some.inj h)).1 hmin hk)
  | png =>
    obtain ⟨hm, hlen⟩ := png_magic_of_validates crc32 data n h
    apply png_truncated crc32 data k hmin hk hm (some n)
    rw [← png_run crc32 data hlen hm]
    exact h
  | gif =>
    have hg := gif_truncated data k hk hmin (hkept _ (Option.some.inj h))
    exact iff_of_true ((keeps_some _).mpr hg) trivial
  | pdf =>
    have hp := pdf_truncated data k hk hmin (hkept _ (Option.some.inj h))
    exact iff_of_true ((keeps_some _).mpr hp) trivial
  | zip =>
    have hz := zip_truncated data k hk hmin (hkept _ (Option.some.inj h))
    exact iff_of_true ((keeps_some _).mpr hz) trivial
  | mp3 =>
    have hm := mp3_kept (data.take k) (by rwa [List.length_take_of_le hk])
    exact iff_of_true ((keeps_some _).mpr hm) trivial
  | elf =>
    have he := elf_truncated data k hk hmin (hkept _ (Option.some.inj h))
    exact iff_of_true ((keeps_some _).mpr he) trivial

/-- Which truncations of a valid file are kept, and when all of them are. -/
theorem truncations_kept (format : FileFormat)
    (h : fileValidator crc32 format data = some ⟨.validates, some n⟩) (hn : n ≤ data.length) :
    (∀ k, minimumLength format ≤ k → k ≤ n →
      (Keeps (fileValidator crc32 format (data.take k)) ↔ Recognised data k format)) ∧
    ((∀ k, minimumLength format ≤ k → k ≤ n →
      Keeps (fileValidator crc32 format (data.take k))) ↔ RecognisedAtOnce data format) := by
  have hall : ∀ k, minimumLength format ≤ k → k ≤ n →
      (Keeps (fileValidator crc32 format (data.take k)) ↔ Recognised data k format) :=
    fun k hmin hk => truncated_kept crc32 data n format k h hmin (hk.trans hn)
  refine ⟨hall, ?_⟩
  cases format with
  | jpeg =>
    have h4 := (jpeg_header_of_validates data n (Option.some.inj h)).2
    rw [← jpeg_at_once data (h4.trans hn)]
    constructor
    · exact fun hk => (hall 4 le_rfl h4).mp (hk 4 le_rfl h4)
    · exact fun hr k hmin hk => (hall k hmin hk).mpr (recognised_mono data 4 k .jpeg hmin hr)
  | png =>
    have h8 := png_size_of_validates crc32 data n h
    refine iff_of_false (fun hk => ?_) not_false
    exact absurd ((hall 8 le_rfl h8).mp (hk 8 le_rfl h8)) (show ¬ 33 ≤ 8 by decide)
  | gif | pdf | zip | mp3 | elf =>
    exact iff_of_true (fun k hmin hk => (hall k hmin hk).mpr trivial) trivial

end Valid

def oneSegment : Bytes :=
  [0xFF, 0xD8, 0xFF, 0xE0, 0x00, 0x10, 0x4A, 0x46, 0x49, 0x46, 0x00, 0x01, 0x01, 0x00, 0x00, 0x01,
   0x00, 0x01, 0x00, 0x00, 0xFF, 0xD9]

theorem one_segment_validates (crc32 : Bytes → ℕ) :
    fileValidator crc32 .jpeg oneSegment = some ⟨.validates, some 22⟩ := by
  have hv : jpegFileValidator oneSegment = ⟨.validates, some 22⟩ := by decide +kernel
  exact congrArg some hv

theorem truncations_kept_segment :
    (∀ k, 4 ≤ k → k ≤ 22 →
      (Keeps (fileValidator (fun _ => 0) .jpeg (oneSegment.take k)) ↔
        Recognised oneSegment k .jpeg)) ∧
    ((∀ k, 4 ≤ k → k ≤ 22 →
      Keeps (fileValidator (fun _ => 0) .jpeg (oneSegment.take k))) ↔
        RecognisedAtOnce oneSegment .jpeg) :=
  truncations_kept (fun _ => 0) oneSegment 22 .jpeg (one_segment_validates _) (by decide)

theorem one_segment_rejected : ¬ ∀ (format : FileFormat) (data : Bytes) (n : ℕ),
    fileValidator (fun _ => 0) format data = some ⟨.validates, some n⟩ → n ≤ data.length →
    ∀ k, minimumLength format ≤ k → k ≤ n →
      Keeps (fileValidator (fun _ => 0) format (data.take k)) := by
  intro h
  have hk := h .jpeg oneSegment 22 (one_segment_validates _) (by decide) 4 le_rfl (by decide)
  have hv : jpegFileValidator (oneSegment.take 4) = ⟨.invalid, some 2⟩ := by decide +kernel
  rw [show fileValidator (fun _ => 0) .jpeg (oneSegment.take 4) = some _ from congrArg some hv,
    keeps_some] at hk
  rcases hk with hk | hk <;> contradiction

end EraseCure.TruncatedFiles
