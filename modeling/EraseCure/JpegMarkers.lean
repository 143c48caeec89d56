import EraseCure.FileValidators

/-!
# Markers of a JPEG buffer

The positions at which the scan stands depend on the bytes alone. The scan ends
at the first end-of-image marker or at the end of the data, and it has the
start-of-scan flag when one of its positions holds that marker.
-/

set_option autoImplicit false

namespace EraseCure.JpegMarkers
open EraseCure.FileSystems EraseCure.Scans EraseCure.FileValidators

def Marker (data : Bytes) (o : ℕ) (marker : UInt8) : Prop :=
  o+1 < data.length ∧ byteAt data o = 0xFF ∧ byteAt data (o+1) = marker

def Segment (data : Bytes) (o : ℕ) : Prop :=
  o+3 < data.length ∧ byteAt data o = 0xFF ∧ isBareMarker (byteAt data (o+1)) = false ∧
    byteAt data (o+1) ≠ 0xD9 ∧ byteAt data (o+1) ≠ 0xDA

inductive JpegPosition (data : Bytes) : ℕ → Prop where
  | start : JpegPosition data 2
  | skip (o : ℕ) : JpegPosition data o → o+1 < data.length → byteAt data o ≠ 0xFF →
      JpegPosition data (o+1)
  | bare (o : ℕ) : JpegPosition data o → o+1 < data.length → byteAt data o = 0xFF →
      isBareMarker (byteAt data (o+1)) = true → JpegPosition data (o+2)
  | sos (o : ℕ) : JpegPosition data o → Marker data o 0xDA → JpegPosition data (o+2)
  | segment (o : ℕ) : JpegPosition data o → Segment data o →
      JpegPosition data (o+(2+bigEndian16 data (o+2)))

theorem position_ge (data : Bytes) (o : ℕ) (h : JpegPosition data o) : 2 ≤ o := by
  induction h with
  | start => exact le_rfl
  | skip | bare | sos | segment => omega

section Rounds
variable (data : Bytes) (s : JpegState)

theorem round_skip (hlt : s.offset+1 < data.length) (hb : byteAt data s.offset ≠ 0xFF) :
    jpegRound data s = .next { s with offset := s.offset+1 } := by
  rw [jpegRound, if_neg (by omega), if_pos hb]

theorem round_bare (hlt : s.offset+1 < data.length) (hb : byteAt data s.offset = 0xFF)
    (hm : isBareMarker (byteAt data (s.offset+1)) = true) :
    jpegRound data s = .next { s with offset := s.offset+2 } := by
  rw [jpegRound, if_neg (by omega), if_neg (not_not.mpr hb)]
  dsimp only
  rw [if_pos hm]

theorem round_eoi (h : Marker data s.offset 0xD9) :
    jpegRound data s = .done ⟨.validates, some (s.offset+2)⟩ := by
  obtain ⟨hlt, hb, hm⟩ := h
  rw [jpegRound, if_neg (by omega), if_neg (not_not.mpr hb)]
  dsimp only
  rw [hm, if_neg (by decide), if_pos rfl]

theorem round_sos (h : Marker data s.offset 0xDA) :
    jpegRound data s = .next ⟨s.offset+2, true⟩ := by
  obtain ⟨hlt, hb, hm⟩ := h
  rw [jpegRound, if_neg (by omega), if_neg (not_not.mpr hb)]
  dsimp only
  rw [hm, if_neg (by decide), if_neg (by decide), if_pos rfl]

theorem round_segment (h : Segment data s.offset) :
    jpegRound data s =
      .next { s with offset := s.offset+(2+bigEndian16 data (s.offset+2)) } := by
  obtain ⟨hlt, hb, hm, h9, ha⟩ := h
  rw [jpegRound, if_neg (by omega), if_neg (not_not.mpr hb)]
  dsimp only
  rw [if_neg (by simp [hm]), if_neg h9, if_neg ha, if_neg (by omega)]

inductive JpegStep : Round JpegState Verdict → Prop where
  | skip : s.offset+1 < data.length → byteAt data s.offset ≠ 0xFF →
      JpegStep (.next { s with offset := s.offset+1 })
  | bare : s.offset+1 < data.length → byteAt data s.offset = 0xFF →
      isBareMarker (byteAt data (s.offset+1)) = true →
      JpegStep (.next { s with offset := s.offset+2 })
  | eoi : Marker data s.offset 0xD9 → JpegStep (.done ⟨.validates, some (s.offset+2)⟩)
  | sos : Marker data s.offset 0xDA → JpegStep (.next ⟨s.offset+2, true⟩)
  | segment : Segment data s.offset →
      JpegStep (.next { s with offset := s.offset+(2+bigEndian16 data (s.offset+2)) })
  | stop : data.length ≤ s.offset+3 → JpegStep (.done s.verdict)

theorem round_step : JpegStep data s (jpegRound data s) := by
  unfold jpegRound
  dsimp only
  split_ifs with h1 h2 h3 h4 h5 h6
  · exact .stop (by omega)
  · exact .skip (by omega) h2
  · exact .bare (by omega) (not_not.mp h2) h3
  · exact .eoi ⟨by omega, not_not.mp h2, h4⟩
  · exact .sos ⟨by omega, not_not.mp h2, h5⟩
  · exact .stop h6
  · exact .segment ⟨by omega, not_not.mp h2, by simpa using h3, h4, h5⟩

end Rounds

theorem position_visited (data : Bytes) (o : ℕ) (h : JpegPosition data o) :
    ∃ b, Visits (jpegScan data) ⟨2, false⟩ ⟨o, b⟩ := by
  induction h with
  | start => exact ⟨false, .start⟩
  | skip o _ hlt hb ih =>
    obtain ⟨b, hv⟩ := ih
    exact ⟨b, .next _ _ hv (round_skip data ⟨o, b⟩ hlt hb)⟩
  | bare o _ hlt hb hm ih =>
    obtain ⟨b, hv⟩ := ih
    exact ⟨b, .next _ _ hv (round_bare data ⟨o, b⟩ hlt hb hm)⟩
  | sos o _ hm ih =>
    obtain ⟨b, hv⟩ := ih
    exact ⟨true, .next _ _ hv (round_sos data ⟨o, b⟩ hm)⟩
  | segment o _ hs ih =>
    obtain ⟨b, hv⟩ := ih
    exact ⟨b, .next _ _ hv (round_segment data ⟨o, b⟩ hs)⟩

theorem visited_position (data : Bytes) (s : JpegState)
    (h : Visits (jpegScan data) ⟨2, false⟩ s) :
    JpegPosition data s.offset ∧
      (s.hasSos = true → ∃ o, JpegPosition data o ∧ Marker data o 0xDA) := by
  apply visits_invariant (jpegScan data) ⟨2, false⟩ (fun s => JpegPosition data s.offset ∧
    (s.hasSos = true → ∃ o, JpegPosition data o ∧ Marker data o 0xDA)) ⟨.start, by simp⟩ _ s h
  intro t t' ht hr
  have hstep := round_step data t
  rw [show jpegRound data t = .next t' from hr] at hstep
  cases hstep with
  | skip hlt hb => exact ⟨.skip _ ht.1 hlt hb, ht.2⟩
  | bare hlt hb hm => exact ⟨.bare _ ht.1 hlt hb hm, ht.2⟩
  | sos hm => exact ⟨.sos _ ht.1 hm, fun _ => ⟨_, ht.1, hm⟩⟩
  | segment hs => exact ⟨.segment _ ht.1 hs, ht.2⟩

theorem flag_kept (data : Bytes) (s t : JpegState) (hs : s.hasSos = true)
    (h : Visits (jpegScan data) s t) : t.hasSos = true := by
  apply visits_invariant (jpegScan data) s (fun t => t.hasSos = true) hs _ t h
  intro t t' ht hr
  have hstep := round_step data t
  rw [show jpegRound data t = .next t' from hr] at hstep
  cases hstep with
  | skip | bare | segment => exact ht
  | sos => rfl

theorem jpeg_last (data : Bytes) : ∃ s, Visits (jpegScan data) ⟨2, false⟩ s ∧
    jpegRound data s = .done ((jpegScan data).run ⟨2, false⟩) ∧
    (s.hasSos = true ↔ ∃ o, JpegPosition data o ∧ Marker data o 0xDA) := by
  obtain ⟨s, hv, hr⟩ := run_last (jpegScan data) ⟨2, false⟩
  refine ⟨s, hv, hr, (visited_position data s hv).2, ?_⟩
  rintro ⟨o, ho, hm⟩
  obtain ⟨b, hb⟩ := position_visited data o ho
  have hn : Visits (jpegScan data) ⟨2, false⟩ ⟨o+2, true⟩ :=
    .next _ _ hb (round_sos data ⟨o, b⟩ hm)
  exact flag_kept data ⟨o+2, true⟩ s rfl (visits_last (jpegScan data) _ _ s _ hn hv hr)

end EraseCure.JpegMarkers
