import EraseCure.CarvedFiles

/-!
# Words of JPEG segments and scans

A JPEG is a start of image, segments and scans, and an end of image. Fill bytes
may stand before a marker. The validator takes a fill byte for a marker with a
length, and it does not skip the header of a scan by its length. It accepts a
word exactly when these readings come to the end of image nevertheless, and it
always does when there are no fill bytes and no marker within a scan header.
-/

set_option autoImplicit false

namespace EraseCure.JpegWords
open EraseCure.FileSystems EraseCure.FileValidators EraseCure.JpegMarkers
open EraseCure.ParsedSizes EraseCure.CarvedFiles EraseCure.Occurrences

/-- The byte after an `FF` that belongs to the entropy-coded data. -/
def Stuffed (b : UInt8) : Prop := b = 0x00 ∨ (0xD0 ≤ b ∧ b ≤ 0xD7)

def SegmentMarker (b : UInt8) : Prop :=
  b ≠ 0x00 ∧ b ≠ 0x01 ∧ ¬ (0xD0 ≤ b ∧ b ≤ 0xDA) ∧ b ≠ 0xFF

instance (b : UInt8) : Decidable (Stuffed b) := inferInstanceAs (Decidable (_ ∨ _))

instance (b : UInt8) : Decidable (SegmentMarker b) := inferInstanceAs (Decidable (_ ∧ _))

inductive Entropy : Bytes → Prop where
  | nil : Entropy []
  | byte (b : UInt8) (rest : Bytes) : b ≠ 0xFF → Entropy rest → Entropy (b::rest)
  | stuffed (b : UInt8) (rest : Bytes) : Stuffed b → Entropy rest → Entropy (0xFF::b::rest)

inductive Part where
  | segment (fill : ℕ) (marker : UInt8) (length body : Bytes)
  | scan (length header entropy : Bytes)

def Part.bytes : Part → Bytes
  | .segment fill marker length body => List.replicate fill 0xFF++0xFF::marker::(length++body)
  | .scan length header entropy => 0xFF::0xDA::(length++(header++entropy))

/-- A length counts itself and what follows it. -/
def Counts (length body : Bytes) : Prop :=
  length.length = 2 ∧ bigEndian16 length 0 = 2+body.length

instance (length body : Bytes) : Decidable (Counts length body) :=
  inferInstanceAs (Decidable (_ ∧ _))

def Part.WellFormed : Part → Prop
  | .segment _ marker length body => SegmentMarker marker ∧ Counts length body
  | .scan length header entropy => Counts length header ∧ Entropy entropy

/-- There are no fill bytes, and no marker in the header of a scan. -/
def Part.Plain : Part → Prop
  | .segment fill _ _ _ => fill = 0
  | .scan length header _ => Entropy (length++header)

def jpegWord (parts : List Part) (fill : ℕ) : Bytes :=
  0xFF::0xD8::(parts.flatMap Part.bytes++(List.replicate fill 0xFF++[0xFF, 0xD9]))

/-- The bytes can be read up to a final end of image in single bytes, stuffed
bytes, starts of scan and other markers, which are skipped by the length that
follows them. -/
inductive ReadsToEnd : Bytes → Prop where
  | eoi : ReadsToEnd [0xFF, 0xD9]
  | byte (b : UInt8) (rest : Bytes) : b ≠ 0xFF → ReadsToEnd rest → ReadsToEnd (b::rest)
  | bare (b : UInt8) (rest : Bytes) : Stuffed b ∨ b = 0xDA → ReadsToEnd rest →
      ReadsToEnd (0xFF::b::rest)
  | marker (b : UInt8) (skipped rest : Bytes) : ¬ Stuffed b → b ≠ 0xD9 → b ≠ 0xDA →
      skipped.length = bigEndian16 (skipped++rest) 0 → ReadsToEnd rest →
      ReadsToEnd (0xFF::b::(skipped++rest))

theorem isBareMarker_iff (b : UInt8) : isBareMarker b = true ↔ Stuffed b := by
  simp [isBareMarker, Stuffed]

theorem reads_length (xs : Bytes) (h : ReadsToEnd xs) : 2 ≤ xs.length := by
  induction h with
  | eoi => exact le_rfl
  | byte | bare | marker =>
    simp only [List.length_cons, List.length_append]
    omega

theorem entropy_reads (xs rest : Bytes) (h : Entropy xs) (hrest : ReadsToEnd rest) :
    ReadsToEnd (xs++rest) := by
  induction h with
  | nil => exact hrest
  | byte b xs hb _ ih => exact .byte b _ hb ih
  | stuffed b xs hb _ ih => exact .bare b _ (Or.inl hb) ih

theorem bigEndian16_append (xs ys : Bytes) (h : 1 < xs.length) :
    bigEndian16 (xs++ys) 0 = bigEndian16 xs 0 :=
  bigEndian16_occurs (xs++ys) 0 xs 0 ((occurs_zero _ _).mpr (List.prefix_append xs ys)) h

theorem segment_reads (marker : UInt8) (length body rest : Bytes) (hm : SegmentMarker marker)
    (hlength : Counts length body) (hrest : ReadsToEnd rest) :
    ReadsToEnd (0xFF::marker::(length++(body++rest))) := by
  obtain ⟨h0, _, hd, _⟩ := hm
  obtain ⟨h2, hcount⟩ := hlength
  rw [← List.append_assoc]
  apply ReadsToEnd.marker marker (length++body) rest _ _ _ _ hrest
  · rintro (h | h)
    · exact h0 h
    · exact hd ⟨h.1, UInt8.le_trans h.2 (by decide)⟩
  · rintro rfl
    exact hd (by decide)
  · rintro rfl
    exact hd (by decide)
  · rw [List.append_assoc, bigEndian16_append length _ (by omega), List.length_append, h2, hcount]

theorem part_reads (p : Part) (hwf : p.WellFormed) (hplain : p.Plain) (rest : Bytes)
    (hrest : ReadsToEnd rest) : ReadsToEnd (p.bytes++rest) := by
  cases p with
  | segment fill marker length body =>
    obtain rfl : fill = 0 := hplain
    have h := segment_reads marker length body rest hwf.1 hwf.2 hrest
    simpa [Part.bytes] using h
  | scan length header entropy =>
    have h := entropy_reads (length++header) _ hplain (entropy_reads entropy rest hwf.2 hrest)
    simpa [Part.bytes] using ReadsToEnd.bare 0xDA _ (Or.inr rfl) h

theorem plain_reads (parts : List Part) (hwf : ∀ p ∈ parts, p.WellFormed)
    (hplain : ∀ p ∈ parts, p.Plain) : ReadsToEnd (parts.flatMap Part.bytes++[0xFF, 0xD9]) := by
  induction parts with
  | nil => exact .eoi
  | cons p parts ih =>
    rw [List.flatMap_cons, List.append_assoc]
    apply part_reads p (hwf p List.mem_cons_self) (hplain p List.mem_cons_self)
    exact ih (fun q hq => hwf q (List.mem_cons_of_mem _ hq))
      (fun q hq => hplain q (List.mem_cons_of_mem _ hq))

section Positions
variable (data : Bytes)

theorem drop_byteAt (o : ℕ) (b : UInt8) (rest : Bytes) (h : data.drop o = b::rest) :
    o < data.length ∧ byteAt data o = b ∧ data.drop (o+1) = rest := by
  have hlen := congrArg List.length h
  rw [List.length_drop, List.length_cons] at hlen
  refine ⟨by omega, ?_, ?_⟩
  · apply byteAt_get
    rw [← Nat.add_zero o, ← List.getElem?_drop, h]
    rfl
  · rw [← List.drop_drop, h]
    rfl

theorem bigEndian16_drop (o : ℕ) (h : o+1 < data.length) :
    bigEndian16 (data.drop o) 0 = bigEndian16 data o := by
  have hocc := occurs_slice data o (data.length-o) (by omega)
  rw [List.take_of_length_le (by rw [List.length_drop])] at hocc
  exact (bigEndian16_occurs data o _ 0 hocc (by rw [List.length_drop]; omega)).symm

/-- Where the bytes read to the end, the scan comes to the final end of image. -/
theorem reads_position (xs : Bytes) (h : ReadsToEnd xs) (o : ℕ) (hxs : data.drop o = xs)
    (ho : JpegPosition data o) :
    JpegPosition data (data.length-2) ∧ Marker data (data.length-2) 0xD9 := by
  induction h generalizing o with
  | eoi =>
    obtain ⟨h0, hff, hnext⟩ := drop_byteAt data o _ _ hxs
    obtain ⟨h1, hd9, hend⟩ := drop_byteAt data (o+1) _ _ hnext
    have hlen : data.length-2 = o := by
      have := congrArg List.length hend
      rw [List.length_drop, List.length_nil] at this
      omega
    rw [hlen]
    exact ⟨ho, h1, hff, hd9⟩
  | byte b rest hb hrest ih =>
    obtain ⟨_, hbyte, hnext⟩ := drop_byteAt data o _ _ hxs
    have hlen := reads_length rest hrest
    rw [← hnext, List.length_drop] at hlen
    exact ih _ hnext (.skip o ho (by omega) (by rwa [hbyte]))
  | bare b rest hb _ ih =>
    obtain ⟨_, hff, hnext⟩ := drop_byteAt data o _ _ hxs
    obtain ⟨h1, hbyte, hafter⟩ := drop_byteAt data (o+1) _ _ hnext
    rcases hb with hb | rfl
    · exact ih _ hafter (.bare o ho h1 hff (by rwa [hbyte, isBareMarker_iff]))
    · exact ih _ hafter (.sos o ho ⟨h1, hff, hbyte⟩)
  | marker b skipped rest hs h9 ha hlen hrest ih =>
    obtain ⟨_, hff, hnext⟩ := drop_byteAt data o _ _ hxs
    obtain ⟨h1, hbyte, hnext⟩ := drop_byteAt data (o+1) _ _ hnext
    have h2 := reads_length rest hrest
    have hsum := congrArg List.length hnext
    rw [List.length_drop, List.length_append] at hsum
    have hseg : Segment data o := by
      refine ⟨by omega, hff, ?_, by rwa [hbyte], by rwa [hbyte]⟩
      rwa [hbyte, Bool.eq_false_iff, ne_eq, isBareMarker_iff]
    rw [← hnext, bigEndian16_drop data (o+2) (by omega)] at hlen
    apply ih _ _ (.segment o ho hseg)
    rw [← hlen, ← Nat.add_assoc, ← List.drop_drop, hnext, List.drop_left]

/-- From each position of the scan the bytes read like those from the first one. -/
theorem position_reads (o : ℕ) (ho : JpegPosition data o) (h : ReadsToEnd (data.drop o)) :
    ReadsToEnd (data.drop 2) := by
  have hcons : ∀ i, i < data.length → data.drop i = byteAt data i::data.drop (i+1) := by
    intro i hi
    rw [List.drop_eq_getElem_cons hi]
    congr 1
    exact (byteAt_get data i _ (List.getElem?_eq_getElem hi)).symm
  induction ho with
  | start => exact h
  | skip o _ hlt hb ih =>
    apply ih
    rw [hcons o (by omega)]
    exact .byte _ _ hb h
  | bare o _ hlt hb hm ih =>
    apply ih
    rw [hcons o (by omega), hcons (o+1) hlt, hb]
    exact .bare _ _ (Or.inl ((isBareMarker_iff _).mp hm)) h
  | sos o _ hm ih =>
    apply ih
    rw [hcons o (by have := hm.1; omega), hcons (o+1) hm.1, hm.2.1, hm.2.2]
    exact .bare _ _ (Or.inr rfl) h
  | segment o _ hs ih =>
    obtain ⟨hlt, hb, hm, h9, ha⟩ := hs
    have hlen := reads_length _ h
    rw [List.length_drop] at hlen
    have hsplit := List.take_append_drop (bigEndian16 data (o+2)) (data.drop (o+2))
    rw [List.drop_drop, Nat.add_assoc] at hsplit
    apply ih
    rw [hcons o (by omega), hcons (o+1) (by omega), hb, Nat.add_assoc, ← hsplit]
    apply ReadsToEnd.marker _ _ _ _ h9 ha _ h
    · rw [← isBareMarker_iff, hm]
      exact Bool.false_ne_true
    · rw [hsplit, bigEndian16_drop data (o+2) (by omega), slice_length data _ _ (by omega)]

theorem reads_accepted (h4 : 4 ≤ data.length) (h0 : byteAt data 0 = 0xFF)
    (h1 : byteAt data 1 = 0xD8) (hend : data.drop (data.length-2) = [0xFF, 0xD9]) :
    jpegFileValidator data = ⟨.validates, some data.length⟩ ↔ ReadsToEnd (data.drop 2) := by
  rw [jpeg_validates]
  constructor
  · rintro ⟨_, o, ho, _, hlen⟩
    apply position_reads data o ho
    rw [show o = data.length-2 by omega, hend]
    exact .eoi
  · intro h
    obtain ⟨ho, hm⟩ := reads_position data _ h 2 rfl .start
    exact ⟨⟨h4, h0, h1⟩, _, ho, hm, by omega⟩

end Positions

section Words
variable (parts : List Part) (fill : ℕ)

theorem word_end :
    (jpegWord parts fill).drop ((jpegWord parts fill).length-2) = [0xFF, 0xD9] := by
  have hsplit : jpegWord parts fill =
      (0xFF::0xD8::(parts.flatMap Part.bytes++List.replicate fill 0xFF))++[0xFF, 0xD9] := by
    simp [jpegWord]
  rw [hsplit]
  apply List.drop_left'
  rw [List.length_append]
  rfl

theorem word_length : 4 ≤ (jpegWord parts fill).length := by
  simp only [jpegWord, List.length_cons, List.length_append]
  omega

/-- A well-formed word with anything after it is accepted with its own length
exactly when its bytes read to the end, as they do when all parts are plain. -/
theorem jpeg_complete (hwf : ∀ p ∈ parts, p.WellFormed) (trailing : Bytes) :
    (jpegFileValidator (jpegWord parts fill++trailing) =
        ⟨.validates, some (jpegWord parts fill).length⟩ ↔
      ReadsToEnd ((jpegWord parts fill).drop 2)) ∧
    ((∀ p ∈ parts, p.Plain) ∧ fill = 0 → ReadsToEnd ((jpegWord parts fill).drop 2)) := by
  constructor
  · have htake : (jpegWord parts fill++trailing).take (jpegWord parts fill).length =
        jpegWord parts fill := List.take_left
    have hle : (jpegWord parts fill).length ≤ (jpegWord parts fill++trailing).length := by
      rw [List.length_append]
      exact Nat.le_add_right _ _
    rw [← jpeg_take (jpegWord parts fill++trailing) _ _ hle le_rfl, htake]
    exact reads_accepted _ (word_length parts fill) rfl rfl (word_end parts fill)
  · rintro ⟨hplain, rfl⟩
    exact plain_reads parts hwf hplain

end Words

def filledSegment : List Part := [.segment 1 0xE0 [0x00, 0x02] []]

theorem filled_wellFormed : ∀ p ∈ filledSegment, p.WellFormed := by
  intro p hp
  rw [List.mem_singleton.mp hp]
  exact ⟨by decide, by decide⟩

theorem jpeg_complete_filled :
    (jpegFileValidator (jpegWord filledSegment 0++[0x00]) =
        ⟨.validates, some (jpegWord filledSegment 0).length⟩ ↔
      ReadsToEnd ((jpegWord filledSegment 0).drop 2)) ∧
    ((∀ p ∈ filledSegment, p.Plain) ∧ 0 = 0 → ReadsToEnd ((jpegWord filledSegment 0).drop 2)) :=
  jpeg_complete filledSegment 0 filled_wellFormed [0x00]

theorem fill_byte_rejected : ¬ ∀ (parts : List Part) (fill : ℕ) (trailing : Bytes),
    (∀ p ∈ parts, p.WellFormed) → jpegFileValidator (jpegWord parts fill++trailing) =
      ⟨.validates, some (jpegWord parts fill).length⟩ := by
  intro h
  have hv : jpegFileValidator (jpegWord filledSegment 0++[]) = ⟨.invalid, some 57348⟩ := by
    decide +kernel
  have hsame := h filledSegment 0 [] filled_wellFormed
  rw [hv, Verdict.mk.injEq] at hsame
  exact absurd hsame.1 (by decide)

end EraseCure.JpegWords
