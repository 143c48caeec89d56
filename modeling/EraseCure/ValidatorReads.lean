import EraseCure.CarvedFiles
import EraseCure.CheckedValidators

/-!
# Reads of the validators

Each validator reads within its buffer and comes to an end, for every buffer of
less than 2^63 bytes and every content, with one exception: the PNG validator
does not end when it comes to a chunk for which twelve plus the length is zero as
a word of 32 bits.
-/

set_option autoImplicit false

namespace EraseCure.ValidatorReads
open EraseCure.FileSystems EraseCure.Scans EraseCure.JpegMarkers
open EraseCure.FileValidators hiding jpegFileValidator pngFileValidator gifFileValidator
  pdfFileValidator zipFileValidator elfFileValidator mp3FileValidator
open EraseCure.ParsedSizes hiding fileValidator
open EraseCure.CarvedFiles
open EraseCure.CheckedReads EraseCure.CheckedValidators

section Words

theorem sizeT_of_lt (n : ℕ) (h : n < 2^64) : sizeT n = n := Nat.mod_eq_of_lt h

theorem sizeSub_of_le (a b : ℕ) (h : b ≤ a) (ha : a < 2^64) : sizeSub a b = a-b := by
  rw [sizeSub]
  omega

variable (data : Bytes) (i : ℕ)

theorem readAt_byteAt (h : i < data.length) : readAt data i = .ok (byteAt data i) :=
  readAt_get data i _ (get_byteAt data i h)

theorem compareAt_bytesAt (text : Bytes) (h : i+text.length ≤ data.length) :
    compareAt data i text = .ok (bytesAt data i text) :=
  compareAt_within data i text h

theorem compareAny_within (texts : List Bytes)
    (h : ∀ text ∈ texts, i+text.length ≤ data.length) :
    compareAny data i texts = .ok (texts.any (bytesAt data i)) := by
  induction texts with
  | nil => rfl
  | cons text texts ih =>
    rw [compareAny, compareAt_bytesAt data i text (h text List.mem_cons_self), ok_bind,
      ih (fun t ht => h t (List.mem_cons_of_mem _ ht)), List.any_cons]
    cases bytesAt data i text <;> rfl

end Words

section Blocks
variable (must : Bool) (data : Bytes) (hsize : data.length < 2^63)

/-- A round of a block validator leaves, or it goes on closer to the end. -/
def Advances (s : Score) (r : Round Score ℕ) : Prop :=
  Leads (fun _ => True) (fun t => data.length-t.i) (fun _ => True) s r

theorem meets_score (body : Score → Checked (Round Score ℕ))
    (h : ∀ s, Meets must (Advances data s) (body s)) (fuel : ℕ)
    (hfuel : must = true → data.length < fuel) (s : Score) :
    Meets must (fun _ => True) (loop body fuel s) := by
  apply meets_loop must body _ _ _ (fun t _ => h t) fuel s trivial
  intro hm
  have := hfuel hm
  omega

theorem done_advances (s : Score) (v : ℕ) : Advances data s (.done v) := trivial

include hsize

theorem step_advances (s t : Score) (ht : t.i = s.i) (h : s.i < data.length) :
    Advances data s (.next t.step) := by
  refine ⟨trivial, ?_⟩
  rw [Score.step, ht]
  dsimp only
  rw [sizeT_of_lt _ (by omega)]
  omega

omit hsize in
def pairBody (p : UInt8 → Prop) [DecidablePred p] (points : ℕ) (s : Score) :
    Checked (Round Score ℕ) :=
  if s.i < sizeSub data.length 1 then do
    let first ← readAt data s.i
    if first = 0xFF then do
      let second ← readAt data (sizeT (s.i+1))
      if p second then return .next (s.add points).step else return .next s.step
    else return .next s.step
  else return .done s.score

theorem pair_advances (p : UInt8 → Prop) [DecidablePred p] (points : ℕ) (h : 1 ≤ data.length)
    (s : Score) : Meets must (Advances data s) (pairBody data p points s) := by
  rw [pairBody, sizeSub_of_le _ _ h (by omega)]
  split_ifs with hlt
  · apply meets_read must data s.i (by omega)
    intro first
    split_ifs
    · rw [sizeT_of_lt _ (by omega)]
      apply meets_read must data (s.i+1) (by omega)
      intro second
      split_ifs
      · exact meets_pure must _ _ (step_advances data hsize s (s.add points) rfl (by omega))
      · exact meets_pure must _ _ (step_advances data hsize s s rfl (by omega))
    · exact meets_pure must _ _ (step_advances data hsize s s rfl (by omega))
  · exact meets_pure must _ _ (done_advances data s _)

theorem jpeg_block_advances (h : 1 ≤ data.length) (s : Score) :
    Meets must (Advances data s) (jpegBlockBody data s) :=
  pair_advances must data hsize (fun marker => marker = 0xC0 ∨ marker = 0xC2 ∨ marker = 0xC4 ∨
    marker = 0xDB ∨ marker = 0xDA) 10 h s

theorem mp3_block_advances (h : 1 ≤ data.length) (s : Score) :
    Meets must (Advances data s) (mp3BlockBody data s) :=
  pair_advances must data hsize (fun second => second &&& 0xE0 = 0xE0) 5 h s

theorem names_advances (names : List Bytes) (points : ℕ) (hnames : ∀ n ∈ names, n.length = 4)
    (h : 3 ≤ data.length) (s : Score) :
    Meets must (Advances data s) (namesBody names points data s) := by
  rw [namesBody, sizeSub_of_le _ _ h (by omega)]
  split_ifs with hlt
  · rw [compareAny_within data s.i names (fun n hn => by rw [hnames n hn]; omega), ok_bind]
    split_ifs
    · exact meets_pure must _ _ (step_advances data hsize s (s.add points) rfl (by omega))
    · exact meets_pure must _ _ (step_advances data hsize s s rfl (by omega))
  · exact meets_pure must _ _ (done_advances data s _)

theorem keyword_round (keyword : Bytes) (hpos : 0 < keyword.length)
    (hkey : keyword.length ≤ 9) (s : Score) (hs : s.i ≤ data.length+10) :
    Meets must (Leads (fun t => t.i ≤ data.length+10) (fun t => data.length-t.i)
      (fun _ => True) s) (keywordBody data keyword s) := by
  rw [keywordBody, sizeT_of_lt _ (by omega)]
  split_ifs with hle
  · apply meets_compare must data s.i keyword hle
    intro found
    split_ifs
    · apply meets_pure
      dsimp only [Leads, Score.add]
      rw [sizeT_of_lt (s.i+keyword.length) (by omega), sizeT_of_lt _ (by omega)]
      omega
    · apply meets_pure
      dsimp only [Leads, Score.step]
      rw [sizeT_of_lt _ (by omega)]
      omega
  · exact meets_pure must _ _ trivial

theorem keyword_loop (keyword : Bytes) (hpos : 0 < keyword.length) (hkey : keyword.length ≤ 9)
    (fuel : ℕ) (hfuel : must = true → data.length < fuel) (score : ℕ) :
    Meets must (fun _ => True) (loop (keywordBody data keyword) fuel ⟨0, score⟩) := by
  apply meets_loop must _ _ _ _ (keyword_round must data hsize keyword hpos hkey) fuel _
    (Nat.zero_le _)
  intro hm
  have := hfuel hm
  omega

theorem keywords_meet (fuel : ℕ) (hfuel : must = true → data.length < fuel) (names : List Bytes)
    (hnames : ∀ n ∈ names, 0 < n.length ∧ n.length ≤ 9) (score : ℕ) :
    Meets must (fun _ => True) (keywordsFrom data fuel names score) := by
  induction names generalizing score with
  | nil => exact meets_pure must _ _ trivial
  | cons n names ih =>
    obtain ⟨hpos, hkey⟩ := hnames n List.mem_cons_self
    apply meets_bind must _ _ _ _ (keyword_loop must data hsize n hpos hkey fuel hfuel score)
    intro score' _
    exact ih (fun x hx => hnames x (List.mem_cons_of_mem _ hx)) score'

theorem elf_block_meets : Meets must (fun _ => True) (elfBlockValidator data) := by
  rw [elfBlockValidator]
  split_ifs with hlen
  · exact meets_pure must _ _ trivial
  apply meets_compare must data 0 elfMagic (show 0+4 ≤ _ by omega)
  intro magic
  split_ifs
  · apply meets_read must data 4 (by omega)
    intro eiClass
    split_ifs
    · apply meets_read must data 5 (by omega)
      intro eiData
      split_ifs <;> exact meets_pure must _ _ trivial
    · exact meets_pure must _ _ trivial
  · exact meets_pure must _ _ trivial

theorem gif_block_meets : Meets must (fun _ => True) (gifBlockValidator data) := by
  rw [gifBlockValidator]
  split_ifs with hlen
  · exact meets_pure must _ _ trivial
  rw [compareAny_within data 0 [gif87a, gif89a], ok_bind]
  · split_ifs <;> exact meets_pure must _ _ trivial
  · intro text ht
    have h6 : text.length = 6 := by
      revert text
      decide
    omega

/-- A block validator reads within the block and comes to an end. -/
theorem block_meets (format : FileFormat) (fuel : ℕ) (hfuel : must = true → data.length < fuel) :
    Meets must (fun _ => True) (blockValidator format data fuel) := by
  cases format with
  | jpeg =>
    change Meets must _ (jpegBlockValidator data fuel)
    rw [jpegBlockValidator]
    split_ifs with hlen
    · exact meets_pure must _ _ trivial
    · have h := jpeg_block_advances must data hsize (by omega)
      exact meets_score must data (jpegBlockBody data) h fuel hfuel _
  | png =>
    change Meets must _ (pngBlockValidator data fuel)
    rw [pngBlockValidator]
    split_ifs with hlen
    · exact meets_pure must _ _ trivial
    · apply meets_score must data _ _ fuel hfuel
      exact names_advances must data hsize _ 20 (by decide) (by omega)
  | gif => exact gif_block_meets must data hsize
  | pdf =>
    change Meets must _ (pdfBlockValidator data fuel)
    rw [pdfBlockValidator]
    split_ifs with hlen
    · exact meets_pure must _ _ trivial
    · exact keywords_meet must data hsize fuel hfuel keywords (by decide) 0
  | zip =>
    change Meets must _ (zipBlockValidator data fuel)
    rw [zipBlockValidator]
    split_ifs with hlen
    · exact meets_pure must _ _ trivial
    · apply meets_score must data _ _ fuel hfuel
      exact names_advances must data hsize _ 15 (by decide) (by omega)
  | mp3 =>
    change Meets must _ (mp3BlockValidator data fuel)
    rw [mp3BlockValidator]
    split_ifs with hlen
    · exact meets_pure must _ _ trivial
    · have h := mp3_block_advances must data hsize (by omega)
      exact meets_score must data (mp3BlockBody data) h fuel hfuel _
  | elf => exact elf_block_meets must data hsize

end Blocks

section Files
variable (data : Bytes) (hsize : data.length < 2^63)

theorem bigEndian16_lt (i : ℕ) : bigEndian16 data i < 2^16 := by
  have h0 := (byteAt data i).toNat_lt
  have h1 := (byteAt data (i+1)).toNat_lt
  rw [bigEndian16]
  omega

theorem bigEndian32_lt (i : ℕ) : bigEndian32 data i < 2^32 := by
  have h0 := (byteAt data i).toNat_lt
  have h1 := (byteAt data (i+1)).toNat_lt
  have h2 := bigEndian16_lt data (i+2)
  rw [bigEndian32]
  omega

/-- The offsets of the JPEG scan stay below the end and one segment. -/
theorem jpeg_near (s s' : JpegState) (hr : jpegRound data s = .next s') :
    s'.offset ≤ data.length+2^17 := by
  have hstep := round_step data s
  rw [hr] at hstep
  cases hstep with
  | skip hlt | bare hlt => dsimp only; omega
  | sos hm =>
    have := hm.1
    dsimp only
    omega
  | segment hs =>
    have h1 := hs.1
    have h2 := bigEndian16_lt data (s.offset+2)
    dsimp only
    omega

theorem colorTable_le (packed : UInt8) : colorTable packed ≤ 768 := by
  rw [GifWords.colorTable_length, GifWords.tableLength]
  split
  · have hle : packed.toNat%8+1 ≤ 8 := by omega
    have := Nat.pow_le_pow_right (show 0 < 2 by decide) hle
    omega
  · omega

theorem subBlocks_near (o o' : ℕ) (hr : (subBlocks data).round o = .next o') :
    o' ≤ data.length+256 := by
  have hb := (byteAt data o).toNat_lt
  simp only [subBlocks] at hr
  split_ifs at hr
  cases hr
  omega

theorem subBlocks_end (o : ℕ) (h : o ≤ data.length+256) :
    (subBlocks data).run o ≤ data.length+256 := by
  obtain ⟨t, ht, hr⟩ := run_last (subBlocks data) o
  have hle := visits_invariant (subBlocks data) o (fun o => o ≤ data.length+256) h
    (fun o o' _ => subBlocks_near data o o') t ht
  simp only [subBlocks] at hr
  split_ifs at hr
  cases hr
  exact hle

theorem gif_near (o o' : ℕ) (hr : gifRound data o = .next o') : o' ≤ data.length+1024 := by
  have hstep := gif_step data o
  rw [hr] at hstep
  cases hstep with
  | image _ hlt =>
    have := subBlocks_end data (imageData data o+1) (by omega)
    omega
  | extension he =>
    have hlen := he.1
    have := subBlocks_end data (o+2) (by omega)
    omega

include hsize

theorem readWord_within (i : ℕ) (h : i+3 < data.length) :
    readWord data i = .ok (bigEndian32 data i) := by
  rw [readWord, sizeT_of_lt (i+1) (by omega), sizeT_of_lt (i+2) (by omega),
    sizeT_of_lt (i+3) (by omega), readAt_byteAt data i (by omega), ok_bind,
    readAt_byteAt data (i+1) (by omega), ok_bind, readAt_byteAt data (i+2) (by omega), ok_bind,
    readAt_byteAt data (i+3) (by omega), ok_bind]
  rfl

theorem jpeg_round (hpos : 1 ≤ data.length) (s : JpegState) (h : s.offset ≤ data.length+2^17) :
    jpegFileBody data s = .ok (jpegRound data s) := by
  rw [jpegFileBody, jpegRound, sizeSub_of_le _ _ hpos (by omega)]
  by_cases hend : data.length-1 ≤ s.offset
  · rw [if_neg (not_lt.mpr hend), if_pos hend]
    rfl
  rw [if_pos (not_le.mp hend), if_neg hend, readAt_byteAt data _ (by omega), ok_bind,
    sizeT_of_lt (s.offset+1) (by omega), sizeT_of_lt (s.offset+2) (by omega),
    sizeT_of_lt (s.offset+3) (by omega)]
  by_cases hff : byteAt data s.offset ≠ 0xFF
  · rw [if_pos hff, if_pos hff]
    rfl
  rw [if_neg hff, if_neg hff, readAt_byteAt data _ (by omega), ok_bind]
  dsimp only
  by_cases hbare : isBareMarker (byteAt data (s.offset+1)) = true
  · rw [if_pos hbare, if_pos hbare]
    rfl
  rw [if_neg hbare, if_neg hbare]
  by_cases heoi : byteAt data (s.offset+1) = 0xD9
  · rw [if_pos heoi, if_pos heoi]
    rfl
  rw [if_neg heoi, if_neg heoi]
  by_cases hsos : byteAt data (s.offset+1) = 0xDA
  · rw [if_pos hsos, if_pos hsos]
    rfl
  rw [if_neg hsos, if_neg hsos]
  by_cases hcut : data.length ≤ s.offset+3
  · rw [if_pos hcut, if_pos hcut]
    rfl
  have hlen := bigEndian16_lt data (s.offset+2)
  rw [if_neg hcut, if_neg hcut, readAt_byteAt data _ (by omega), ok_bind,
    readAt_byteAt data _ (by omega), ok_bind]
  change Except.ok (Round.next { s with
    offset := sizeT (s.offset+(2+bigEndian16 data (s.offset+2))) }) = _
  rw [sizeT_of_lt _ (by omega)]

theorem subBlocks_round (o : ℕ) :
    subBlocksBody data o = .ok ((subBlocks data).round o) := by
  have hb := (byteAt data o).toNat_lt
  rw [subBlocksBody]
  simp only [subBlocks]
  by_cases hlt : o < data.length
  · rw [if_pos hlt, readAt_byteAt data o hlt, ok_bind]
    by_cases hz : byteAt data o ≠ 0
    · rw [if_pos hz, if_pos ⟨hlt, hz⟩, sizeT_of_lt _ (by omega)]
      rfl
    · rw [if_neg hz, if_neg (fun hb => hz hb.2)]
      rfl
  · rw [if_neg hlt, if_neg (fun hb => hlt hb.1)]
    rfl

variable (must : Bool) (fuel : ℕ) (hfuel : must = true → data.length < fuel)
include hfuel

theorem jpeg_meets : Meets must (fun v => v = FileValidators.jpegFileValidator data)
    (jpegFileValidator data fuel) := by
  rw [jpegFileValidator, FileValidators.jpegFileValidator]
  by_cases hlen : data.length < 4
  · rw [if_pos hlen, if_pos hlen]
    exact meets_pure must _ _ rfl
  rw [if_neg hlen, if_neg hlen, readAt_byteAt data 0 (by omega), ok_bind]
  by_cases h0 : byteAt data 0 ≠ 0xFF
  · rw [if_pos h0, if_pos (Or.inl h0)]
    exact meets_pure must _ _ rfl
  rw [if_neg h0, readAt_byteAt data 1 (by omega), ok_bind]
  by_cases h1 : byteAt data 1 ≠ 0xD8
  · rw [if_pos h1, if_pos (Or.inr h1)]
    exact meets_pure must _ _ rfl
  rw [if_neg h1, if_neg (not_or.mpr ⟨h0, h1⟩)]
  apply meets_scan must (jpegScan data) _ (fun s => s.offset ≤ data.length+2^17)
  · intro s hs
    exact meets_ok must _ _ _ (jpeg_round data hsize (by omega) s hs) rfl
  · exact fun s s' _ => jpeg_near data s s'
  · dsimp only
    omega
  · intro hm
    have := hfuel hm
    change data.length-2 < fuel
    omega

theorem subBlocks_meets (o : ℕ) (h : o ≤ data.length+256) :
    Meets must (fun t => t = (subBlocks data).run o) (loop (subBlocksBody data) fuel o) := by
  apply meets_scan must (subBlocks data) _ (fun o => o ≤ data.length+256) _ _ fuel o h
  · intro hm
    have := hfuel hm
    change data.length-o < fuel
    omega
  · intro o _
    exact meets_ok must _ _ _ (subBlocks_round data hsize o) rfl
  · exact fun o o' _ => subBlocks_near data o o'

theorem gif_round (o : ℕ) :
    Meets must (fun r => r = gifRound data o) (gifFileBody data fuel o) := by
  rw [gifFileBody, gifRound]
  by_cases hlt : o < data.length
  · rw [if_pos hlt, if_neg (not_le.mpr hlt), readAt_byteAt data o hlt, ok_bind]
    by_cases htrailer : byteAt data o = 0x3B
    · rw [if_pos htrailer, if_pos htrailer, sizeT_of_lt _ (by omega)]
      exact meets_pure must _ _ rfl
    rw [if_neg htrailer, if_neg htrailer]
    by_cases himage : byteAt data o = 0x2C
    · rw [if_pos himage, if_pos himage, sizeT_of_lt (o+10) (by omega)]
      by_cases hcut : data.length < o+10
      · rw [if_pos hcut, if_pos hcut]
        exact meets_pure must _ _ rfl
      have htable := colorTable_le (byteAt data (o+9))
      have hpacked : sizeSub (o+10) 1 = o+9 := sizeSub_of_le (o+10) 1 (by omega) (by omega)
      rw [if_neg hcut, if_neg hcut, hpacked, readAt_byteAt data (o+9) (by omega), ok_bind]
      dsimp only
      generalize colorTable (byteAt data (o+9)) = table at htable
      rw [sizeT_of_lt (o+10+table) (by omega)]
      split_ifs
      · exact meets_pure must _ _ rfl
      · rw [sizeT_of_lt (o+10+table+1) (by omega)]
        apply meets_bind must _ _ _ _
          (subBlocks_meets data hsize must fuel hfuel (o+10+table+1) (by omega))
        rintro t rfl
        have := subBlocks_end data (o+10+table+1) (by omega)
        rw [sizeT_of_lt _ (by omega)]
        exact meets_pure must _ _ rfl
    rw [if_neg himage, if_neg himage]
    by_cases hext : byteAt data o = 0x21
    · rw [if_pos hext, if_pos hext, sizeT_of_lt (o+2) (by omega)]
      split_ifs
      · exact meets_pure must _ _ rfl
      · apply meets_bind must _ _ _ _
          (subBlocks_meets data hsize must fuel hfuel _ (by omega))
        rintro t rfl
        have := subBlocks_end data (o+2) (by omega)
        rw [sizeT_of_lt _ (by omega)]
        exact meets_pure must _ _ rfl
    rw [if_neg hext, if_neg hext]
    exact meets_pure must _ _ rfl
  · rw [if_neg hlt, if_pos (not_lt.mp hlt)]
    exact meets_pure must _ _ rfl

theorem gif_meets : Meets must (fun v => v = FileValidators.gifFileValidator data)
    (gifFileValidator data fuel) := by
  rw [gifFileValidator, FileValidators.gifFileValidator]
  by_cases hlen : data.length < 14
  · rw [if_pos hlen, if_pos hlen]
    exact meets_pure must _ _ rfl
  have h6 : ∀ text ∈ [gif87a, gif89a], text.length = 6 := by decide
  rw [if_neg hlen, if_neg hlen, compareAny_within data 0 [gif87a, gif89a]
    (fun text ht => by rw [h6 text ht]; omega), ok_bind]
  by_cases hmagic : [gif87a, gif89a].any (bytesAt data 0) = true
  · have hm : ¬ (!bytesAt data 0 gif87a && !bytesAt data 0 gif89a) = true := by
      simpa [or_iff_not_imp_left] using hmagic
    have htable := colorTable_le (byteAt data 10)
    rw [if_pos hmagic, if_neg hm, readAt_byteAt data 10 (by omega), ok_bind,
      sizeT_of_lt _ (by omega)]
    apply meets_scan must (gifScan data) _ (fun o => o ≤ data.length+1024)
    · exact fun o _ => gif_round data hsize must fuel hfuel o
    · exact fun o o' _ => gif_near data o o'
    · omega
    · intro hm
      have := hfuel hm
      change data.length-(13+colorTable (byteAt data 10)) < fuel
      omega
  · have hm : (!bytesAt data 0 gif87a && !bytesAt data 0 gif89a) = true := by
      simpa using hmagic
    rw [if_neg hmagic, if_pos hm]
    exact meets_pure must _ _ rfl

omit hfuel hsize in
theorem tagSize_lt : tagSize data < 2^29 := by
  have h6 := (byteAt data 6).toNat_lt
  have h7 := (byteAt data 7).toNat_lt
  have h8 := (byteAt data 8).toNat_lt
  have h9 := (byteAt data 9).toNat_lt
  rw [tagSize]
  simp only [Nat.shiftLeft_eq]
  refine Nat.or_lt_two_pow (Nat.or_lt_two_pow (Nat.or_lt_two_pow ?_ ?_) ?_) ?_
  all_goals omega

omit hfuel hsize in
theorem frameHeader_iff (o : ℕ) : frameHeader data o = true ↔
    byteAt data o = 0xFF ∧ byteAt data (o+1) &&& 0xE0 = 0xE0 ∧
      ¬ ((byteAt data (o+1) >>> 3) &&& 0x03 = 1 ∨ (byteAt data (o+1) >>> 1) &&& 0x03 = 0 ∨
        (byteAt data (o+2) >>> 4) &&& 0x0F = 0 ∨ (byteAt data (o+2) >>> 4) &&& 0x0F = 15 ∨
        (byteAt data (o+2) >>> 2) &&& 0x03 = 3) := by
  simp [frameHeader, and_assoc]

omit hfuel in
theorem mp3_round (s : Mp3State) (h : s.offset ≤ data.length+2^31) :
    mp3FileBody data s = .ok (mp3Round data s) := by
  have hframe := frameHeader_iff data s.offset
  rw [mp3FileBody, mp3Round]
  dsimp only
  rw [sizeT_of_lt (s.offset+4) (by omega), sizeT_of_lt (s.offset+1) (by omega),
    sizeT_of_lt (s.offset+2) (by omega), sizeT_of_lt (s.offset+frameLen) (by rw [frameLen]; omega)]
  by_cases hlen : s.offset+4 ≤ data.length
  · rw [if_pos hlen, readAt_byteAt data _ (by omega), ok_bind]
    by_cases hgood : frameHeader data s.offset = true
    · obtain ⟨h0, h1, hbad⟩ := hframe.mp hgood
      rw [if_pos h0, readAt_byteAt data _ (by omega), ok_bind, if_pos h1,
        readAt_byteAt data _ (by omega), ok_bind, if_neg hbad, if_pos ⟨hlen, hgood⟩]
      rfl
    · have hno : ¬ (s.offset+4 ≤ data.length ∧ frameHeader data s.offset = true) :=
        fun h => hgood h.2
      rw [if_neg hno]
      by_cases h0 : byteAt data s.offset = 0xFF
      · rw [if_pos h0, readAt_byteAt data _ (by omega), ok_bind]
        by_cases h1 : byteAt data (s.offset+1) &&& 0xE0 = 0xE0
        · have hbad := fun hb => hgood (hframe.mpr ⟨h0, h1, hb⟩)
          rw [if_pos h1, readAt_byteAt data _ (by omega), ok_bind, if_pos (not_not.mp hbad)]
          rfl
        · rw [if_neg h1]
          rfl
      · rw [if_neg h0]
        rfl
  · have hno : ¬ (s.offset+4 ≤ data.length ∧ frameHeader data s.offset = true) :=
      fun h => hlen h.1
    rw [if_neg hlen, if_neg hno]
    rfl

theorem mp3_meets : Meets must (fun v => v = FileValidators.mp3FileValidator data)
    (mp3FileValidator data fuel) := by
  rw [mp3FileValidator, FileValidators.mp3FileValidator]
  by_cases hlen : data.length < 10
  · rw [if_pos hlen, if_pos hlen]
    exact meets_pure must _ _ rfl
  have hloop : ∀ o, o ≤ 2^30 → Meets must (fun v => v = (mp3Scan data).run ⟨o, 0⟩)
      (loop (mp3FileBody data) fuel ⟨o, 0⟩) := by
    intro o ho
    apply meets_scan must (mp3Scan data) _ (fun s => s.offset ≤ data.length+2^31)
    · intro s hs
      exact meets_ok must _ _ _ (mp3_round data hsize s hs) rfl
    · intro s s' _ hr
      simp only [mp3Scan, mp3Round] at hr
      split_ifs at hr
      cases hr
      dsimp only [frameLen]
      omega
    · dsimp only
      omega
    · intro hm
      have := hfuel hm
      change data.length-o < fuel
      omega
  rw [if_neg hlen, if_neg hlen, compareAt_bytesAt data 0 id3 (show 0+3 ≤ _ by omega), ok_bind]
  by_cases htag : bytesAt data 0 id3 = true
  · have hsmall := tagSize_lt data
    rw [if_pos htag, if_pos htag, readAt_byteAt data 6 (by omega), ok_bind,
      readAt_byteAt data 7 (by omega), ok_bind, readAt_byteAt data 8 (by omega), ok_bind,
      readAt_byteAt data 9 (by omega), ok_bind]
    change Meets must _ (loop (mp3FileBody data) fuel ⟨(10+tagSize data)%2^32, 0⟩)
    rw [Nat.mod_eq_of_lt (by omega)]
    exact hloop _ (by omega)
  · rw [if_neg htag, if_neg htag]
    exact hloop 0 (by omega)

omit hsize hfuel in
theorem elf_meets : Meets must (fun v => v = FileValidators.elfFileValidator data)
    (elfFileValidator data) := by
  rw [elfFileValidator, FileValidators.elfFileValidator]
  by_cases hlen : data.length < 52
  · rw [if_pos hlen, if_pos hlen]
    exact meets_pure must _ _ rfl
  rw [if_neg hlen, if_neg hlen, compareAt_bytesAt data 0 elfMagic (show 0+4 ≤ _ by omega), ok_bind]
  by_cases hm : bytesAt data 0 elfMagic = true
  · rw [if_pos hm, if_neg (by simp [hm]), readAt_byteAt data 4 (by omega), ok_bind,
      readAt_byteAt data 5 (by omega), ok_bind]
    split_ifs <;> exact meets_pure must _ _ rfl
  · rw [if_neg hm, if_pos (by simpa using hm)]
    exact meets_pure must _ _ rfl

/-- There is no end of file from where the search begins up to the position. -/
structure PdfSearched (i : ℕ) : Prop where
  inside : i ≤ data.length
  begun : searchStart data.length ≤ i
  missing : ∀ j, searchStart data.length ≤ j → j < i → bytesAt data j pdfEof = false

omit hfuel in
theorem pdf_round (h5 : 5 ≤ data.length) (hm : bytesAt data 0 pdfMagic = true) (i : ℕ)
    (h : PdfSearched data i) : Meets must (Leads (PdfSearched data) (fun i => data.length-i)
      (fun v => v = FileValidators.pdfFileValidator data) i) (pdfFileBody data i) := by
  have hi := h.inside
  have hge := h.begun
  rw [pdfFileBody, sizeT_of_lt (i+5) (by omega), sizeT_of_lt (i+1) (by omega)]
  by_cases hin : i+5 ≤ data.length
  · rw [if_pos hin, compareAt_bytesAt data i pdfEof hin, ok_bind]
    by_cases heof : bytesAt data i pdfEof = true
    · have hfirst := (pdf_first data i).mpr ⟨heof, hin, hge, h.missing⟩
      rw [if_pos heof]
      exact meets_pure must _ _ (pdf_found data h5 hm i hfirst).symm
    · rw [if_neg heof]
      apply meets_pure
      refine ⟨⟨by omega, by omega, ?_⟩, by dsimp only; omega⟩
      intro j hj hlt
      rcases Nat.lt_succ_iff_lt_or_eq.mp hlt with hlt | rfl
      · exact h.missing j hj hlt
      · simpa using heof
  · rw [if_neg hin]
    apply meets_pure
    apply (pdf_missing data h5 hm _).symm
    rw [List.find?_eq_none]
    intro j hj
    rw [searchRange, List.mem_range'_1] at hj
    rw [h.missing j hj.1 (by omega)]
    exact Bool.false_ne_true

theorem pdf_meets : Meets must (fun v => v = FileValidators.pdfFileValidator data)
    (pdfFileValidator data fuel) := by
  rw [pdfFileValidator]
  by_cases hlen : data.length < 5
  · rw [if_pos hlen, FileValidators.pdfFileValidator, if_pos hlen]
    exact meets_pure must _ _ rfl
  rw [if_neg hlen, compareAt_bytesAt data 0 pdfMagic (show 0+5 ≤ _ by omega), ok_bind]
  by_cases hm : bytesAt data 0 pdfMagic = true
  · have hstart : (if data.length > 1024 then sizeSub data.length 1024 else 0) =
        searchStart data.length := by
      rw [searchStart]
      split_ifs
      · exact sizeSub_of_le _ _ (by omega) (by omega)
      · rfl
    have hle : searchStart data.length ≤ data.length := by
      rw [searchStart]
      split_ifs
      all_goals omega
    rw [if_pos hm, hstart]
    apply meets_loop must _ _ _ _ (pdf_round data hsize must (by omega) hm)
    · exact ⟨hle, le_rfl, fun j hj hlt => absurd hlt (not_lt.mpr hj)⟩
    · intro hmust
      have := hfuel hmust
      omega
  · rw [if_neg hm, FileValidators.pdfFileValidator, if_neg hlen, if_pos (by simpa using hm)]
    exact meets_pure must _ _ rfl

def zipStart (size : ℕ) : ℕ := if size > 65536+22 then size-65536-22 else 0

omit hsize hfuel in
theorem zip_found (h22 : 22 ≤ data.length) (hm : bytesAt data 0 zipLocalHeader = true) (i : ℕ)
    (hi : i+22 ≤ data.length) (hge : zipStart data.length ≤ i)
    (h : bytesAt data i zipEocd = true) :
    FileValidators.zipFileValidator data = ⟨.validates, some data.length⟩ := by
  rw [FileValidators.zipFileValidator, if_neg (by omega), if_neg (by simp [hm])]
  dsimp only
  cases hf : (searchRange data (zipStart data.length) 22).reverse.find?
      (fun i => bytesAt data i zipEocd) with
  | some j =>
    rw [zipStart] at hf
    rw [hf]
  | none =>
    rw [List.find?_eq_none] at hf
    exact absurd h (hf i (by rw [List.mem_reverse, searchRange, List.mem_range'_1]; omega))

omit hsize hfuel in
theorem zip_missing (h22 : 22 ≤ data.length) (hm : bytesAt data 0 zipLocalHeader = true)
    (h : ∀ i, zipStart data.length ≤ i → i+22 ≤ data.length → bytesAt data i zipEocd = false) :
    FileValidators.zipFileValidator data = ⟨.promising, some data.length⟩ := by
  have hf : (searchRange data (zipStart data.length) 22).reverse.find?
      (fun i => bytesAt data i zipEocd) = none := by
    rw [List.find?_eq_none]
    intro i hi
    rw [List.mem_reverse, searchRange, List.mem_range'_1] at hi
    rw [h i hi.1 (by omega)]
    exact Bool.false_ne_true
  rw [zipStart] at hf
  rw [FileValidators.zipFileValidator, if_neg (by omega), if_neg (by simp [hm])]
  dsimp only
  rw [hf]

/-- There is no end of central directory after the position. -/
structure ZipSearched (i : ℕ) : Prop where
  inside : i+22 ≤ data.length
  missing : ∀ j, zipStart data.length ≤ j → i < j → j+22 ≤ data.length →
    bytesAt data j zipEocd = false

omit hsize hfuel in
theorem ZipSearched.here (i : ℕ) (h : ZipSearched data i) (heocd : ¬ bytesAt data i zipEocd = true)
    (j : ℕ) (hj : zipStart data.length ≤ j) (hij : i ≤ j) (hlen : j+22 ≤ data.length) :
    bytesAt data j zipEocd = false := by
  rcases Nat.lt_or_eq_of_le hij with hlt | rfl
  · exact h.missing j hj hlt hlen
  · simpa using heocd

omit hsize hfuel in
theorem zip_body (start i : ℕ) (h64 : data.length < 2^64) (hi : i+22 ≤ data.length) :
    zipFileBody data start i = .ok (
      if start ≤ i then
        if bytesAt data i zipEocd then .done ⟨.validates, some data.length⟩
        else if i = 0 then .done ⟨.promising, some data.length⟩
        else .next (i-1)
      else .done ⟨.promising, some data.length⟩) := by
  rw [zipFileBody]
  by_cases hge : start ≤ i
  · rw [if_pos hge, if_pos hge, compareAt_bytesAt data i zipEocd (show i+4 ≤ _ by omega), ok_bind]
    by_cases hocc : bytesAt data i zipEocd = true
    · rw [if_pos hocc, if_pos hocc]
      rfl
    rw [if_neg hocc, if_neg hocc]
    by_cases hz : i = 0
    · rw [if_pos hz, if_pos hz]
      rfl
    · rw [if_neg hz, if_neg hz, sizeSub_of_le i 1 (by omega) (by omega)]
      rfl
  · rw [if_neg hge, if_neg hge]
    rfl

omit hsize hfuel in
theorem zip_window (h64 : data.length < 2^64) :
    (if data.length > 65536+22 then sizeSub (sizeSub data.length 65536) 22 else 0) =
      data.length-65558 := by
  split_ifs
  · rw [sizeSub_of_le _ 65536 (by omega) h64, sizeSub_of_le _ _ (by omega) (by omega)]
    omega
  · omega

omit hfuel in
theorem zip_round (hm : bytesAt data 0 zipLocalHeader = true) (i : ℕ) (h : ZipSearched data i) :
    Meets must (Leads (ZipSearched data) (fun i => i)
      (fun v => v = FileValidators.zipFileValidator data) i)
      (zipFileBody data (zipStart data.length) i) := by
  have hi := h.inside
  apply meets_ok must _ _ _ (zip_body data _ i (by omega) hi)
  by_cases hge : zipStart data.length ≤ i
  · rw [if_pos hge]
    by_cases heocd : bytesAt data i zipEocd = true
    · rw [if_pos heocd]
      exact (zip_found data (by omega) hm i hi hge heocd).symm
    have hfrom := ZipSearched.here data i h heocd
    rw [if_neg heocd]
    by_cases hz : i = 0
    · rw [if_pos hz]
      exact (zip_missing data (by omega) hm (fun j hj => hfrom j hj (by omega))).symm
    · rw [if_neg hz]
      exact ⟨⟨by omega, fun j hj hij => hfrom j hj (by omega)⟩, by dsimp only; omega⟩
  · rw [if_neg hge]
    exact (zip_missing data (by omega) hm (fun j hj => h.missing j hj (by omega))).symm

theorem zip_meets : Meets must (fun v => v = FileValidators.zipFileValidator data)
    (zipFileValidator data fuel) := by
  rw [zipFileValidator]
  by_cases hlen : data.length < 22
  · rw [if_pos hlen, FileValidators.zipFileValidator, if_pos hlen]
    exact meets_pure must _ _ rfl
  rw [if_neg hlen, compareAt_bytesAt data 0 zipLocalHeader (show 0+4 ≤ _ by omega), ok_bind]
  by_cases hm : bytesAt data 0 zipLocalHeader = true
  · have hstart : zipStart data.length = data.length-65558 := by
      rw [zipStart]
      split_ifs
      all_goals omega
    rw [if_pos hm]
    dsimp only
    rw [zip_window data (by omega), ← hstart, sizeSub_of_le data.length 22 (by omega) (by omega)]
    apply meets_loop must _ _ _ _ (zip_round data hsize must hm)
    · exact ⟨by omega, fun j _ hij hjlen => absurd hij (by omega)⟩
    · intro hmust
      have := hfuel hmust
      omega
  · rw [if_neg hm, FileValidators.zipFileValidator, if_neg hlen, if_pos (by simpa using hm)]
    exact meets_pure must _ _ rfl

end Files

section Png
variable (crc32 : Bytes → ℕ) (data : Bytes) (hsize : data.length < 2^63)

/-- A round of the loop: it goes on from the same state after a step of zero. -/
def repeated (s : PngState) : Round PngState (Option Verdict) → Round PngState Verdict
  | .next s' => .next s'
  | .done (some v) => .done v
  | .done none => .next s

theorem png_near (s s' : PngState) (h : pngRound crc32 data s = .next s') :
    s'.offset ≤ data.length := by
  obtain ⟨hw, _, hs⟩ := round_goes crc32 data s s' h
  have hlen := hw.2
  have hmod := Nat.mod_le (12+bigEndian32 data s.offset) (2^32)
  omega

include hsize

theorem png_round (s : PngState) (h : s.offset ≤ data.length) :
    pngFileBody data crc32 s = .ok (repeated s (pngRound crc32 data s)) := by
  rw [pngFileBody, pngRound, sizeT_of_lt (s.offset+12) (by omega),
    sizeT_of_lt (s.offset+4) (by omega)]
  by_cases hcut : data.length < s.offset+12
  · rw [if_neg (not_le.mpr hcut), if_pos hcut]
    rfl
  have hlt := bigEndian32_lt data s.offset
  rw [if_pos (not_lt.mp hcut), if_neg hcut, readWord_within data hsize s.offset (by omega), ok_bind]
  dsimp only
  generalize bigEndian32 data s.offset = length at hlt
  rw [sizeT_of_lt (s.offset+12+length) (by omega), sizeT_of_lt (s.offset+8+length) (by omega)]
  by_cases hend : data.length < s.offset+12+length
  · rw [if_pos hend, if_pos hend]
    rfl
  have hmod4 := Nat.mod_le (length+4) (2^32)
  have hmod12 := Nat.mod_le (12+length) (2^32)
  rw [if_neg hend, if_neg hend, readRange_within data _ _ (by omega), ok_bind,
    readWord_within data hsize (s.offset+8+length) (by omega), ok_bind,
    sizeT_of_lt (s.offset+(12+length)%2^32) (by omega)]
  by_cases hcrc : crc32 ((data.drop (s.offset+4)).take ((length+4)%2^32)) ≠
      bigEndian32 data (s.offset+8+length)
  · rw [if_pos hcrc, if_pos hcrc]
    rfl
  rw [if_neg hcrc, if_neg hcrc, compareAt_bytesAt data _ ihdr (show s.offset+4+4 ≤ _ by omega),
    ok_bind]
  by_cases hihdr : bytesAt data (s.offset+4) ihdr = true
  · rw [if_pos hihdr, if_pos hihdr]
    by_cases hbad : s.offset ≠ 8 ∨ length ≠ 13
    · rw [if_pos hbad, if_pos hbad]
      rfl
    · rw [if_neg hbad, if_neg hbad]
      rfl
  rw [if_neg hihdr, if_neg hihdr, compareAt_bytesAt data _ iend (show s.offset+4+4 ≤ _ by omega),
    ok_bind]
  by_cases hiend : bytesAt data (s.offset+4) iend = true
  · rw [if_pos hiend, if_pos hiend]
    rfl
  rw [if_neg hiend, if_neg hiend]
  by_cases hzero : (12+length)%2^32 = 0
  · rw [if_pos hzero, hzero]
    rfl
  · rw [if_neg hzero]
    rfl

theorem png_loop_meets (must : Bool) (fuel : ℕ) (s : PngState) (hs : s.offset ≤ data.length)
    (hfuel : must = true → data.length-s.offset < fuel) (v : Verdict)
    (hrun : (pngScan crc32 data).run s = some v) :
    Meets must (fun w => w = v) (loop (pngFileBody data crc32) fuel s) := by
  apply meets_loop must _ (fun s => s.offset ≤ data.length ∧ (pngScan crc32 data).run s = some v)
    (fun s => data.length-s.offset) _ _ fuel s ⟨hs, hrun⟩ hfuel
  rintro t ⟨ht, hrun⟩
  apply meets_ok must _ _ _ (png_round crc32 data hsize t ht)
  cases hr : pngRound crc32 data t with
  | next t' =>
    rw [run_next _ _ _ hr] at hrun
    exact ⟨⟨png_near crc32 data t t' hr, hrun⟩, (pngScan crc32 data).falls t t' hr⟩
  | done r =>
    rw [run_done _ _ _ hr] at hrun
    rw [hrun]
    rfl

/-- Where the scan has none, the loop does not come to an end. -/
theorem png_loop_endless (fuel : ℕ) (s : PngState) (hs : s.offset ≤ data.length)
    (hrun : (pngScan crc32 data).run s = none) :
    loop (pngFileBody data crc32) fuel s = .error .unfinished := by
  induction fuel generalizing s with
  | zero => rfl
  | succ fuel ih =>
    rw [loop, png_round crc32 data hsize s hs]
    cases hr : pngRound crc32 data s with
    | next s' =>
      rw [run_next _ _ _ hr] at hrun
      exact ih s' (png_near crc32 data s s' hr) hrun
    | done r =>
      have hnone := hrun
      rw [run_done _ _ _ hr] at hnone
      rw [hnone]
      exact ih s hs hrun

theorem png_meets (must : Bool) (fuel : ℕ) (hfuel : must = true → data.length < fuel)
    (v : Verdict) (hv : FileValidators.pngFileValidator crc32 data = some v) :
    Meets must (fun w => w = v) (pngFileValidator data crc32 fuel) := by
  rw [FileValidators.pngFileValidator] at hv
  rw [pngFileValidator]
  by_cases hlen : data.length < 8
  · rw [if_pos hlen] at hv ⊢
    exact meets_pure must _ _ (Option.some.inj hv)
  rw [if_neg hlen] at hv ⊢
  rw [compareAt_bytesAt data 0 pngMagic (show 0+8 ≤ _ by omega), ok_bind]
  by_cases hm : bytesAt data 0 pngMagic = true
  · rw [if_neg (by simp [hm])] at hv
    rw [if_pos hm]
    apply png_loop_meets crc32 data hsize must fuel ⟨8, false⟩ (by dsimp only; omega) _ v hv
    intro hmust
    have := hfuel hmust
    dsimp only
    omega
  · rw [if_pos (by simpa using hm)] at hv
    rw [if_neg hm]
    exact meets_pure must _ _ (Option.some.inj hv)

theorem png_endless (fuel : ℕ) (h : FileValidators.pngFileValidator crc32 data = none) :
    pngFileValidator data crc32 fuel = .error .unfinished := by
  rw [FileValidators.pngFileValidator] at h
  split_ifs at h with hlen hm
  rw [pngFileValidator, if_neg hlen, compareAt_bytesAt data 0 pngMagic (show 0+8 ≤ _ by omega),
    ok_bind, if_pos (by simpa using hm)]
  exact png_loop_endless crc32 data hsize fuel ⟨8, false⟩ (by dsimp only; omega) h

end Png

/-- A file validator that has a verdict reads within the file and returns it. -/
theorem file_meets (crc32 : Bytes → ℕ) (format : FileFormat) (data : Bytes)
    (hsize : data.length < 2^63) (must : Bool) (fuel : ℕ)
    (hfuel : must = true → data.length < fuel) (v : Verdict)
    (hv : ParsedSizes.fileValidator crc32 format data = some v) :
    Meets must (fun w => w = v) (fileValidator crc32 format data fuel) := by
  cases format with
  | png => exact png_meets crc32 data hsize must fuel hfuel v hv
  | jpeg =>
    obtain rfl := Option.some.inj hv
    exact jpeg_meets data hsize must fuel hfuel
  | gif =>
    obtain rfl := Option.some.inj hv
    exact gif_meets data hsize must fuel hfuel
  | pdf =>
    obtain rfl := Option.some.inj hv
    exact pdf_meets data hsize must fuel hfuel
  | zip =>
    obtain rfl := Option.some.inj hv
    exact zip_meets data hsize must fuel hfuel
  | mp3 =>
    obtain rfl := Option.some.inj hv
    exact mp3_meets data hsize must fuel hfuel
  | elf =>
    obtain rfl := Option.some.inj hv
    exact elf_meets data must

end EraseCure.ValidatorReads
