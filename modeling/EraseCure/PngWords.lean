import EraseCure.Crc32
import EraseCure.TruncatedFiles

/-!
# The words that the PNG validator accepts

A PNG is the magic, a header chunk of thirteen bytes, other chunks and an end
chunk. Each chunk is a length, a type, data and a checksum of the type and the
data. The validator also accepts an end chunk that has data, and then reports
where a chunk without data would end.
-/

set_option autoImplicit false

namespace EraseCure.PngWords
open EraseCure.FileSystems EraseCure.Scans EraseCure.FileValidators EraseCure.ParsedSizes
open EraseCure.TruncatedFiles EraseCure.Occurrences

/-- A complete chunk. Its length and its checksum are big-endian words. -/
inductive Chunk (crc32 : Bytes → ℕ) (type body : Bytes) : Bytes → Prop where
  | chunk (length check : Bytes) : length.length = 4 → bigEndian32 length 0 = body.length →
      type.length = 4 → check.length = 4 → bigEndian32 check 0 = crc32 (type++body) →
      Chunk crc32 type body (length++(type++(body++check)))

def InnerChunk (crc32 : Bytes → ℕ) (w : Bytes) : Prop :=
  ∃ type body, type ≠ ihdr ∧ type ≠ iend ∧ Chunk crc32 type body w

/-- The word of a PNG whose end chunk has the given data. -/
inductive PngFile (crc32 : Bytes → ℕ) (tail : Bytes) : Bytes → Prop where
  | file (body header : Bytes) (chunks : List Bytes) (last : Bytes) :
      Chunk crc32 ihdr body header → body.length = 13 → (∀ c ∈ chunks, InnerChunk crc32 c) →
      Chunk crc32 iend tail last → PngFile crc32 tail (pngMagic++(header++(chunks.flatten++last)))

def PngWord (crc32 : Bytes → ℕ) : Bytes → Prop := PngFile crc32 []

/-- The data begins like a PNG, but its end chunk has data. -/
def LongEnd (crc32 : Bytes → ℕ) (data : Bytes) : Prop :=
  ∃ tail w, tail ≠ [] ∧ PngFile crc32 tail w ∧ w <+: data

section Chunks
variable (crc32 : Bytes → ℕ) (data : Bytes)

theorem chunk_length (type body w : Bytes) (h : Chunk crc32 type body w) :
    w.length = 12+body.length := by
  cases h with
  | chunk length check hl _ ht hc _ =>
    simp only [List.length_append, hl, ht, hc]
    omega

theorem chunk_end (type body w : Bytes) (h : Chunk crc32 type body w) (o : ℕ)
    (ho : OccursAt data o w) : o+(12+body.length) ≤ data.length := by
  have := ho.1
  rwa [chunk_length crc32 type body w h] at this

theorem chunk_reads (type body w : Bytes) (h : Chunk crc32 type body w) (o : ℕ)
    (ho : OccursAt data o w) :
    bigEndian32 data o = body.length ∧ OccursAt data (o+4) type ∧
      (data.drop (o+4)).take (body.length+4) = type++body ∧
      bigEndian32 data (o+8+body.length) = crc32 (type++body) := by
  cases h with
  | chunk length check hl hlen ht hc hcrc =>
    obtain ⟨hlength, ho⟩ := (occurs_append data o length _).mp ho
    rw [hl] at ho
    obtain ⟨htype, ho⟩ := (occurs_append data (o+4) type _).mp ho
    rw [ht] at ho
    obtain ⟨hbody, hcheck⟩ := (occurs_append data (o+4+4) body check).mp ho
    refine ⟨?_, htype, ?_, ?_⟩
    · rw [bigEndian32_occurs data o length hlength hl, hlen]
    · have hboth := (occurs_append data (o+4) type body).mpr ⟨htype, by rwa [ht]⟩
      have hsum : (type++body).length = body.length+4 := by
        rw [List.length_append, ht, Nat.add_comm]
      rw [← hsum]
      exact hboth.2
    · rw [← hcrc, ← bigEndian32_occurs data _ check hcheck hc]

theorem bytesAt_type (o : ℕ) (type text : Bytes) (h : OccursAt data o type)
    (ht : type.length = 4) (hx : text.length = 4) : bytesAt data o text = true ↔ type = text := by
  have hle := h.1
  rw [bytesAt_occurs data o text (by omega)]
  constructor
  · exact fun h' => occurs_unique data o type text h h' (by rw [ht, hx])
  · rintro rfl
    exact h

end Chunks

section Rounds
variable (crc32 : Bytes → ℕ) (data : Bytes) (hsize : data.length < 2^32)
include hsize

theorem round_chunk (type body w : Bytes) (h : Chunk crc32 type body w) (s : PngState)
    (ho : OccursAt data s.offset w) :
    pngRound crc32 data s =
      if type = ihdr then
        if s.offset ≠ 8 ∨ body.length ≠ 13 then .done (some .reject)
        else .next ⟨s.offset+w.length, true⟩
      else if type = iend then
        .done (some ⟨if s.hasIhdr then .validates else .invalid, some (s.offset+12)⟩)
      else .next { s with offset := s.offset+w.length } := by
  have hle := chunk_end crc32 data type body w h s.offset ho
  have hw := chunk_length crc32 type body w h
  obtain ⟨hlen, htype, hslice, hcheck⟩ := chunk_reads crc32 data type body w h s.offset ho
  have h4 : type.length = 4 := by
    cases h
    assumption
  have hi := bytesAt_type data (s.offset+4) type ihdr htype h4 rfl
  have he := bytesAt_type data (s.offset+4) type iend htype h4 rfl
  have hstep : (12+body.length)%2^32 = w.length := by
    rw [hw]
    exact Nat.mod_eq_of_lt (by omega)
  rw [pngRound, if_neg (by omega)]
  dsimp only
  rw [hlen, if_neg (by omega), Nat.mod_eq_of_lt (by omega : body.length+4 < 2^32), hslice, hcheck,
    if_neg (not_not.mpr rfl), hstep, if_neg (by omega : w.length ≠ 0)]
  simp only [hi, he]

theorem round_reads (s : PngState) :
    (∃ type body w, Chunk crc32 type body w ∧ OccursAt data s.offset w) ∨
      ∃ v, pngRound crc32 data s = .done (some v) ∧ v.outcome ≠ .validates := by
  by_cases h1 : data.length < s.offset+12
  · refine Or.inr ⟨s.verdict, if_pos h1, ?_⟩
    rw [PngState.verdict]
    split <;> simp
  by_cases h2 : data.length < s.offset+12+bigEndian32 data s.offset
  · refine Or.inr ⟨s.verdict, ?_, ?_⟩
    · rw [pngRound, if_neg h1]
      exact if_pos h2
    · rw [PngState.verdict]
      split <;> simp
  generalize hlen : bigEndian32 data s.offset = length at h2
  have hmod : (length+4)%2^32 = length+4 := Nat.mod_eq_of_lt (by omega)
  by_cases h3 : crc32 ((data.drop (s.offset+4)).take (length+4)) =
      bigEndian32 data (s.offset+8+length)
  · apply Or.inl
    have ho : ∀ o n, o+n ≤ data.length → OccursAt data o ((data.drop o).take n) :=
      occurs_slice data
    have hl := slice_length data s.offset 4 (by omega)
    have ht := slice_length data (s.offset+4) 4 (by omega)
    have hb := slice_length data (s.offset+4+4) length (by omega)
    have hc := slice_length data (s.offset+4+4+length) 4 (by omega)
    have hsplit : (data.drop (s.offset+4)).take (length+4) =
        (data.drop (s.offset+4)).take 4++(data.drop (s.offset+4+4)).take length := by
      rw [Nat.add_comm length 4, List.take_add, List.drop_drop]
    refine ⟨_, (data.drop (s.offset+4+4)).take length, _, .chunk _ _ hl ?_ ht hc ?_, ?_⟩
    · rw [hb, ← bigEndian32_occurs data _ _ (ho _ 4 (by omega)) hl, hlen]
    · rw [← hsplit, h3, bigEndian32_occurs data _ _ (ho _ 4 (by omega)) hc]
    · rw [occurs_append, hl, occurs_append, ht, occurs_append, hb]
      exact ⟨ho _ 4 (by omega), ho _ 4 (by omega), ho _ length (by omega), ho _ 4 (by omega)⟩
  · refine Or.inr ⟨.reject, ?_, by simp [Verdict.reject]⟩
    rw [pngRound, if_neg h1]
    dsimp only
    rw [hlen, if_neg h2, hmod, if_pos h3]

theorem visited_chunks (s : PngState) (h : Visits (pngScan crc32 data) ⟨8, false⟩ s) :
    8 ≤ s.offset ∧ (s.hasIhdr = true → ∃ body header, ∃ chunks : List Bytes,
      Chunk crc32 ihdr body header ∧ body.length = 13 ∧ (∀ c ∈ chunks, InnerChunk crc32 c) ∧
        OccursAt data 8 (header++chunks.flatten) ∧
          s.offset = 8+(header++chunks.flatten).length) := by
  induction h with
  | start => exact ⟨le_rfl, by simp⟩
  | next t t' _ hr ih =>
    change pngRound crc32 data t = .next t' at hr
    rcases round_reads crc32 data hsize t with ⟨type, body, w, hw, ho⟩ | ⟨v, hv, _⟩
    · rw [round_chunk crc32 data hsize type body w hw t ho] at hr
      split_ifs at hr with hi hbad he
      · cases hr
        push Not at hbad
        obtain ⟨h8, h13⟩ := hbad
        subst hi
        rw [h8] at ho
        refine ⟨by dsimp only; omega, fun _ => ⟨body, w, [], hw, h13, by simp, ?_, ?_⟩⟩
        · rwa [List.flatten_nil, List.append_nil]
        · rw [List.flatten_nil, List.append_nil, h8]
      · cases hr
        refine ⟨by dsimp only; omega, fun hflag => ?_⟩
        obtain ⟨body', header, chunks, hheader, h13, hchunks, hocc, hoff⟩ := ih.2 hflag
        refine ⟨body', header, chunks++[w], hheader, h13, ?_, ?_, ?_⟩
        · intro c hc
          rcases List.mem_append.mp hc with hc | hc
          · exact hchunks c hc
          · rw [List.mem_singleton.mp hc]
            exact ⟨type, body, hi, he, hw⟩
        · rw [List.flatten_concat, ← List.append_assoc, occurs_append, ← hoff]
          exact ⟨hocc, ho⟩
        · rw [List.flatten_concat, ← List.append_assoc, List.length_append, ← Nat.add_assoc, hoff]
    · rw [hv] at hr
      contradiction

theorem chunks_visited (start : ℕ) (chunks : List Bytes)
    (hchunks : ∀ c ∈ chunks, InnerChunk crc32 c) (ho : OccursAt data start chunks.flatten) :
    Visits (pngScan crc32 data) ⟨start, true⟩ ⟨start+chunks.flatten.length, true⟩ := by
  induction chunks generalizing start with
  | nil => exact .start
  | cons c chunks ih =>
    rw [List.flatten_cons, occurs_append] at ho
    rw [List.flatten_cons, List.length_append, ← Nat.add_assoc]
    obtain ⟨type, body, hi, he, hc⟩ := hchunks c List.mem_cons_self
    apply visits_head (pngScan crc32 data) ⟨start, true⟩ ⟨start+c.length, true⟩
    · have hround := round_chunk crc32 data hsize type body c hc ⟨start, true⟩ ho.1
      rw [if_neg hi, if_neg he] at hround
      exact hround
    · exact ih _ (fun x hx => hchunks x (List.mem_cons_of_mem _ hx)) ho.2

theorem file_end (tail w : Bytes) (h : PngFile crc32 tail w) (ho : OccursAt data 0 w) :
    ∃ o last, Chunk crc32 iend tail last ∧ OccursAt data o last ∧ w.length = o+last.length ∧
      Visits (pngScan crc32 data) ⟨8, false⟩ ⟨o, true⟩ := by
  cases h with
  | file body header chunks last hheader h13 hchunks hlast =>
    obtain ⟨_, ho⟩ := (occurs_append data 0 pngMagic _).mp ho
    obtain ⟨hhead, ho⟩ := (occurs_append data _ header _).mp ho
    obtain ⟨hocc, ho⟩ := (occurs_append data _ chunks.flatten last).mp ho
    refine ⟨_, last, hlast, ho, ?_, ?_⟩
    · simp only [List.length_append]
      omega
    · apply visits_head (pngScan crc32 data) ⟨8, false⟩ ⟨8+header.length, true⟩
      · have hround := round_chunk crc32 data hsize ihdr body header hheader ⟨8, false⟩ hhead
        rw [if_pos rfl, if_neg (by simp [h13])] at hround
        exact hround
      · exact chunks_visited crc32 data hsize _ chunks hchunks hocc

theorem file_length (tail w : Bytes) (h : PngFile crc32 tail w) (ho : OccursAt data 0 w) :
    ∃ o, w.length = o+12+tail.length ∧ bigEndian32 data o = tail.length := by
  obtain ⟨o, last, hlast, hat, hlen, _⟩ := file_end crc32 data hsize tail w h ho
  refine ⟨o, ?_, (chunk_reads crc32 data iend tail last hlast o hat).1⟩
  rw [hlen, chunk_length crc32 iend tail last hlast, Nat.add_assoc]

/-- What is accepted begins with a word, whose end chunk may have data. -/
theorem png_validates_iff (n : ℕ) :
    pngFileValidator crc32 data = some ⟨.validates, some n⟩ ↔
      ∃ tail w, PngFile crc32 tail w ∧ OccursAt data 0 w ∧ w.length = n+tail.length := by
  constructor
  · intro h
    obtain ⟨hm, h8⟩ := png_magic_of_validates crc32 data n h
    rw [bytesAt_occurs data 0 pngMagic (show 0+8 ≤ _ by omega)] at hm
    rw [png_run crc32 data h8 (png_magic_of_validates crc32 data n h).1] at h
    obtain ⟨s, hv, hr⟩ := run_last (pngScan crc32 data) ⟨8, false⟩
    rw [h] at hr
    change pngRound crc32 data s = _ at hr
    rcases round_reads crc32 data hsize s with ⟨type, tail, w, hw, ho⟩ | ⟨v, hd, hne⟩
    · rw [round_chunk crc32 data hsize type tail w hw s ho] at hr
      have hflag : type = iend ∧ s.hasIhdr = true ∧ n = s.offset+12 := by
        split_ifs at hr with hi hbad he hb
        all_goals cases hr
        exact ⟨he, hb, rfl⟩
      obtain ⟨rfl, hflag, rfl⟩ := hflag
      obtain ⟨body, header, chunks, hheader, h13, hchunks, hocc, hoff⟩ :=
        (visited_chunks crc32 data hsize s hv).2 hflag
      refine ⟨tail, _, .file body header chunks w hheader h13 hchunks hw, ?_, ?_⟩
      · rw [occurs_append, ← List.append_assoc, occurs_append]
        refine ⟨hm, hocc, ?_⟩
        rwa [hoff] at ho
      · have hlen := chunk_length crc32 iend tail w hw
        have h8 : pngMagic.length = 8 := rfl
        simp only [List.length_append, h8] at hoff ⊢
        omega
    · rw [hd, Round.done.injEq, Option.some.injEq] at hr
      rw [hr] at hne
      exact absurd rfl hne
  · rintro ⟨tail, w, hw, ho, hn⟩
    obtain ⟨o, last, hlast, hat, hlen, hv⟩ := file_end crc32 data hsize tail w hw ho
    have hlast12 := chunk_length crc32 iend tail last hlast
    have hround := round_chunk crc32 data hsize iend tail last hlast ⟨o, true⟩ hat
    rw [if_neg (by decide), if_pos rfl, if_pos rfl] at hround
    have hmagic : OccursAt data 0 pngMagic := by
      cases hw with
      | file => exact ((occurs_append data 0 pngMagic _).mp ho).1
    have h8 := hmagic.1
    rw [png_run crc32 data (show 8 ≤ _ by simpa [pngMagic] using h8)
      ((bytesAt_occurs data 0 pngMagic h8).mpr hmagic), run_visited _ _ _ hv,
      run_done _ _ _ hround]
    congr 3
    dsimp only
    omega

/-- The validator accepts exactly the words of PNGs when the end chunk of the data
is empty. -/
theorem png_exact :
    (∀ n, pngFileValidator crc32 data = some ⟨.validates, some n⟩ ↔
      n ≤ data.length ∧ PngWord crc32 (data.take n)) ↔ ¬ LongEnd crc32 data := by
  constructor
  · rintro hexact ⟨tail, w, hne, hw, hbegins⟩
    have ho := (occurs_zero data w).mpr hbegins
    obtain ⟨o, hlen, hend⟩ := file_length crc32 data hsize tail w hw ho
    have hvalid := (png_validates_iff crc32 data hsize (o+12)).mpr ⟨tail, w, hw, ho, hlen⟩
    obtain ⟨hle, hword⟩ := (hexact (o+12)).mp hvalid
    obtain ⟨o', hlen', hend'⟩ :=
      file_length crc32 data hsize [] _ hword (occurs_take_iff data (o+12) hle)
    rw [List.length_take_of_le hle, List.length_nil] at hlen'
    obtain rfl : o' = o := by omega
    rw [hend] at hend'
    exact hne (List.eq_nil_of_length_eq_zero hend')
  · intro hno n
    rw [png_validates_iff crc32 data hsize n]
    constructor
    · rintro ⟨tail, w, hw, ho, hn⟩
      have hbegins := (occurs_zero data w).mp ho
      obtain rfl : tail = [] := by
        by_contra hne
        exact hno ⟨tail, w, hne, hw, hbegins⟩
      rw [List.length_nil, Nat.add_zero] at hn
      rw [← hn, ← List.prefix_iff_eq_take.mp hbegins]
      exact ⟨hbegins.length_le, hw⟩
    · rintro ⟨hle, hword⟩
      exact ⟨[], _, hword, occurs_take_iff data n hle, List.length_take_of_le hle⟩

end Rounds

def oneByteEnd : Bytes :=
  [0x89, 0x50, 0x4E, 0x47, 0x0D, 0x0A, 0x1A, 0x0A, 0x00, 0x00, 0x00, 0x0D, 0x49, 0x48, 0x44, 0x52,
   0x00, 0x00, 0x00, 0x01, 0x00, 0x00, 0x00, 0x01, 0x08, 0x00, 0x00, 0x00, 0x00, 0x3A, 0x7E, 0x9B,
   0x55, 0x00, 0x00, 0x00, 0x01, 0x49, 0x45, 0x4E, 0x44, 0x00, 0xD1, 0x1A, 0x4F, 0xE1]

theorem png_exact_end :
    (∀ n, pngFileValidator Crc32.crc32 oneByteEnd = some ⟨.validates, some n⟩ ↔
      n ≤ oneByteEnd.length ∧ PngWord Crc32.crc32 (oneByteEnd.take n)) ↔
        ¬ LongEnd Crc32.crc32 oneByteEnd :=
  png_exact Crc32.crc32 oneByteEnd (by decide)

theorem end_data_accepted : ¬ ∀ (data : Bytes) (n : ℕ), data.length < 2^32 →
    (pngFileValidator Crc32.crc32 data = some ⟨.validates, some n⟩ ↔
      n ≤ data.length ∧ PngWord Crc32.crc32 (data.take n)) := by
  intro h
  have hv : pngFileValidator Crc32.crc32 oneByteEnd = some ⟨.validates, some 45⟩ := by
    decide +kernel
  obtain ⟨hle, hword⟩ := (h oneByteEnd 45 (by decide)).mp hv
  obtain ⟨o, hlen, hend⟩ := file_length Crc32.crc32 oneByteEnd (by decide) [] _ hword
    (occurs_take_iff oneByteEnd 45 hle)
  rw [List.length_take_of_le hle, List.length_nil] at hlen
  obtain rfl : o = 33 := by omega
  exact absurd hend (by decide)

end EraseCure.PngWords
