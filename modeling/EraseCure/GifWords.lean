import EraseCure.TruncatedFiles

/-!
# The words that the GIF validator accepts

A GIF is a screen descriptor with an optional color table, blocks and a trailer.
A block is an image or an extension and ends with a chain of sub-blocks. The
validator accepts a buffer exactly when it begins with such a word, and reports
its length.
-/

set_option autoImplicit false

namespace EraseCure.GifWords
open EraseCure.FileSystems EraseCure.Scans EraseCure.FileValidators EraseCure.ParsedSizes
open EraseCure.TruncatedFiles EraseCure.Occurrences

/-- Blocks that are prefixed by their length, up to an empty one. -/
inductive SubBlocks : Bytes → Prop where
  | terminator : SubBlocks [0]
  | block (length : UInt8) (body rest : Bytes) : length ≠ 0 → body.length = length.toNat →
      SubBlocks rest → SubBlocks (length::(body++rest))

/-- The length of the color table that a packed byte announces: bit 7 tells
whether there is one, and the low three bits its size. -/
def tableLength (packed : UInt8) : ℕ :=
  if 128 ≤ packed.toNat then 3*2^(packed.toNat%8+1) else 0

inductive Block : Bytes → Prop where
  | image (place : Bytes) (packed : UInt8) (table : Bytes) (codeSize : UInt8) (blocks : Bytes) :
      place.length = 8 → table.length = tableLength packed → SubBlocks blocks →
      Block (0x2C::(place++packed::(table++codeSize::blocks)))
  | extension (label : UInt8) (blocks : Bytes) : SubBlocks blocks → Block (0x21::label::blocks)

inductive GifWord : Bytes → Prop where
  | word (magic size : Bytes) (packed background aspect : UInt8) (table : Bytes)
      (blocks : List Bytes) : magic = gif87a ∨ magic = gif89a → size.length = 4 →
      table.length = tableLength packed → (∀ b ∈ blocks, Block b) →
      GifWord (magic++(size++packed::background::aspect::(table++(blocks.flatten++[0x3B]))))

theorem colorTable_length (packed : UInt8) : colorTable packed = tableLength packed := by
  have h : ∀ i : Fin 256, colorTable (UInt8.ofNat i) = tableLength (UInt8.ofNat i) := by
    decide +kernel
  have hp := h ⟨packed.toNat, packed.toNat_lt⟩
  rwa [UInt8.ofNat_toNat] at hp

section Chains
variable (data : Bytes)

/-- The loop over sub-blocks stops at the terminator of the chain. -/
theorem chain_run (o : ℕ) (xs : Bytes) (h : SubBlocks xs) (ho : OccursAt data o xs) :
    (subBlocks data).run o+1 = o+xs.length := by
  induction h generalizing o with
  | terminator =>
    rw [occurs_singleton] at ho
    have hdone : (subBlocks data).round o = .done o := by
      apply if_neg
      rw [byteAt_get data o 0 ho]
      simp
    rw [run_done _ _ _ hdone]
    rfl
  | block length body rest hne hbody _ ih =>
    obtain ⟨hb, ho⟩ := (occurs_cons data o length _).mp ho
    obtain ⟨_, ho⟩ := (occurs_append data (o+1) body rest).mp ho
    have hlt := (List.getElem?_eq_some_iff.mp hb).1
    have hnext : (subBlocks data).round o = .next (o+(1+length.toNat)) := by
      rw [← byteAt_get data o length hb]
      exact if_pos ⟨hlt, by rwa [byteAt_get data o length hb]⟩
    rw [hbody, Nat.add_assoc] at ho
    rw [run_next _ _ _ hnext, ih _ ho, List.length_cons, List.length_append, hbody]
    omega

/-- Where the loop stops before the end there is a chain. -/
theorem run_chain (o : ℕ) (h : (subBlocks data).run o < data.length) :
    ∃ xs, SubBlocks xs ∧ OccursAt data o xs ∧ (subBlocks data).run o+1 = o+xs.length := by
  induction o using Scan.run.induct (subBlocks data) with
  | case1 o o' hr ih =>
    rw [run_next _ _ _ hr] at h ⊢
    obtain ⟨xs, hxs, ho, hrun⟩ := ih h
    simp only [subBlocks] at hr
    split_ifs at hr with hlt
    cases hr
    have hle := ho.1
    have hbody := occurs_slice data (o+1) (byteAt data o).toNat (by omega)
    have hlen := slice_length data (o+1) (byteAt data o).toNat (by omega)
    refine ⟨_, .block _ _ xs hlt.2 hlen hxs, ?_, ?_⟩
    · rw [occurs_cons, occurs_append, hlen, Nat.add_assoc]
      exact ⟨get_byteAt data o hlt.1, hbody, ho⟩
    · rw [hrun, List.length_cons, List.length_append, hlen]
      omega
  | case2 o r hr =>
    rw [run_done _ _ _ hr] at h ⊢
    simp only [subBlocks] at hr
    split_ifs at hr with hlt
    cases hr
    push Not at hlt
    refine ⟨[0], .terminator, ?_, rfl⟩
    rw [occurs_singleton, get_byteAt data o h, hlt h]

theorem block_round (o : ℕ) (b : Bytes) (h : Block b) (ho : OccursAt data o b) :
    gifRound data o = .next (o+b.length) := by
  cases h with
  | image place packed table codeSize blocks hplace htable hblocks =>
    obtain ⟨hb, ho⟩ := (occurs_cons data o _ _).mp ho
    obtain ⟨_, ho⟩ := (occurs_append data (o+1) place _).mp ho
    obtain ⟨hp, ho⟩ := (occurs_cons data _ packed _).mp ho
    obtain ⟨_, ho⟩ := (occurs_append data _ table _).mp ho
    obtain ⟨hcode, ho⟩ := (occurs_cons data _ codeSize _).mp ho
    rw [hplace] at hp hcode ho
    have hpacked : byteAt data (o+9) = packed := byteAt_get data _ packed hp
    have hdata : imageData data o = o+1+8+1+table.length := by
      rw [imageData, hpacked, colorTable_length, htable]
    have hlt := (List.getElem?_eq_some_iff.mp hcode).1
    have hblock : ImageBlock data o := ⟨by omega, byteAt_get data o _ hb⟩
    rw [round_image data o hblock (by omega), hdata, chain_run data _ blocks hblocks ho]
    simp only [List.length_cons, List.length_append, hplace]
    congr 1
    omega
  | extension label blocks hblocks =>
    obtain ⟨hb, ho⟩ := (occurs_cons data o _ _).mp ho
    obtain ⟨hl, ho⟩ := (occurs_cons data (o+1) label _).mp ho
    have hlt := (List.getElem?_eq_some_iff.mp hl).1
    rw [round_extension data o ⟨hlt, byteAt_get data o _ hb⟩, chain_run data _ blocks hblocks ho]
    simp only [List.length_cons]
    congr 1
    omega

theorem round_block (o o' : ℕ) (h : gifRound data o = .next o') (hle : o' ≤ data.length) :
    o < data.length ∧ ∃ b, Block b ∧ OccursAt data o b ∧ o' = o+b.length := by
  have hstep := gif_step data o
  rw [h] at hstep
  cases hstep with
  | image hblock hlt =>
    obtain ⟨hlen, hb⟩ := hblock
    obtain ⟨xs, hxs, ho, hrun⟩ := run_chain data _ (Nat.lt_of_succ_le hle)
    have hplace := occurs_slice data (o+1) 8 (by omega)
    have hplen := slice_length data (o+1) 8 (by omega)
    rw [imageData] at hlt ho hrun
    have htable := occurs_slice data (o+10) (colorTable (byteAt data (o+9))) (by omega)
    have htlen : ((data.drop (o+10)).take (colorTable (byteAt data (o+9)))).length =
        tableLength (byteAt data (o+9)) := by
      rw [slice_length data (o+10) _ (by omega), colorTable_length]
    refine ⟨by omega, _, .image _ (byteAt data (o+9)) _ (byteAt data (imageData data o)) xs hplen
      htlen hxs, ?_, ?_⟩
    · rw [occurs_cons, occurs_append, hplen, occurs_cons, occurs_append, htlen,
        ← colorTable_length, occurs_cons]
      exact ⟨hb ▸ get_byteAt data o (by omega), hplace, get_byteAt data (o+9) (by omega), htable,
        get_byteAt data _ hlt, ho⟩
    · simp only [imageData, List.length_cons, List.length_append, hplen, htlen,
        ← colorTable_length]
      omega
  | extension hblock =>
    obtain ⟨hlen, hb⟩ := hblock
    obtain ⟨xs, hxs, ho, hrun⟩ := run_chain data _ (Nat.lt_of_succ_le hle)
    refine ⟨by omega, _, .extension (byteAt data (o+1)) xs hxs, ?_, ?_⟩
    · rw [occurs_cons, occurs_cons]
      exact ⟨hb ▸ get_byteAt data o (by omega), get_byteAt data (o+1) (by omega), ho⟩
    · simp only [List.length_cons]
      omega

/-- The offsets that the scan reaches within the buffer are the ends of blocks. -/
theorem visits_blocks (start o : ℕ) (h : Visits (gifScan data) start o) (hle : o ≤ data.length) :
    ∃ blocks : List Bytes, (∀ b ∈ blocks, Block b) ∧ OccursAt data start blocks.flatten ∧
      o = start+blocks.flatten.length := by
  induction h with
  | start => exact ⟨[], by simp, (occurs_nil data start).mpr hle, rfl⟩
  | next o o' _ hr ih =>
    obtain ⟨hlt, b, hb, ho, rfl⟩ := round_block data o o' hr hle
    obtain ⟨blocks, hblocks, hocc, rfl⟩ := ih hlt.le
    refine ⟨blocks++[b], ?_, ?_, ?_⟩
    · intro x hx
      rcases List.mem_append.mp hx with hx | hx
      · exact hblocks x hx
      · rw [List.mem_singleton.mp hx]
        exact hb
    · rw [List.flatten_concat, occurs_append]
      exact ⟨hocc, ho⟩
    · rw [List.flatten_concat, List.length_append, Nat.add_assoc]

theorem blocks_visited (start : ℕ) (blocks : List Bytes) (hblocks : ∀ b ∈ blocks, Block b)
    (ho : OccursAt data start blocks.flatten) :
    Visits (gifScan data) start (start+blocks.flatten.length) := by
  induction blocks generalizing start with
  | nil => exact .start
  | cons b blocks ih =>
    rw [List.flatten_cons, occurs_append] at ho
    rw [List.flatten_cons, List.length_append, ← Nat.add_assoc]
    apply visits_head (gifScan data) start (start+b.length)
    · exact block_round data start b (hblocks b List.mem_cons_self) ho.1
    · exact ih _ (fun x hx => hblocks x (List.mem_cons_of_mem _ hx)) ho.2

theorem trailer_round (o : ℕ) (n : Option ℕ) : gifRound data o = .done ⟨.validates, n⟩ ↔
    o < data.length ∧ byteAt data o = 0x3B ∧ n = some (o+1) := by
  constructor
  · intro h
    unfold gifRound at h
    dsimp only at h
    split_ifs at h with h1 h2
    all_goals cases h
    exact ⟨by omega, h2, rfl⟩
  · rintro ⟨hlt, hb, rfl⟩
    rw [gifRound, if_neg (by omega), if_pos hb]

theorem gif_validates (n : ℕ) : gifFileValidator data = ⟨.validates, some n⟩ ↔
    gifHeader data ∧ ∃ o, Visits (gifScan data) (13+colorTable (byteAt data 10)) o ∧
      o < data.length ∧ byteAt data o = 0x3B ∧ n = o+1 := by
  by_cases hh : gifHeader data
  · rw [gif_run data hh]
    constructor
    · intro h
      obtain ⟨o, hv, hr⟩ := run_last (gifScan data) (13+colorTable (byteAt data 10))
      rw [h] at hr
      obtain ⟨hlt, hb, hn⟩ := (trailer_round data o _).mp hr
      exact ⟨hh, o, hv, hlt, hb, Option.some.inj hn⟩
    · rintro ⟨_, o, hv, hlt, hb, rfl⟩
      rw [run_visited _ _ _ hv, run_done _ _ _ ((trailer_round data o _).mpr ⟨hlt, hb, rfl⟩)]
  · rw [gif_reject data hh]
    exact iff_of_false (reject_ne n) (fun h => hh h.1)

theorem gifHeader_iff : gifHeader data ↔
    14 ≤ data.length ∧ (gif87a <+: data ∨ gif89a <+: data) := by
  constructor
  · rintro ⟨hlen, hm⟩
    rw [bytesAt_occurs data 0 gif87a (show 0+6 ≤ _ by omega),
      bytesAt_occurs data 0 gif89a (show 0+6 ≤ _ by omega), occurs_zero, occurs_zero] at hm
    exact ⟨hlen, hm⟩
  · rintro ⟨hlen, hm⟩
    rw [gifHeader, bytesAt_occurs data 0 gif87a (show 0+6 ≤ _ by omega),
      bytesAt_occurs data 0 gif89a (show 0+6 ≤ _ by omega), occurs_zero, occurs_zero]
    exact ⟨hlen, hm⟩

theorem word_accepted (w : Bytes) (hw : GifWord w) (ho : OccursAt data 0 w) :
    gifFileValidator data = ⟨.validates, some w.length⟩ := by
  cases hw with
  | word magic size packed background aspect table blocks hmagic hsize htable hblocks =>
    have hlen := ho.1
    obtain ⟨hm, ho⟩ := (occurs_append data 0 magic _).mp ho
    obtain ⟨_, ho⟩ := (occurs_append data _ size _).mp ho
    obtain ⟨hp, ho⟩ := (occurs_cons data _ packed _).mp ho
    obtain ⟨_, ho⟩ := (occurs_cons data _ background _).mp ho
    obtain ⟨_, ho⟩ := (occurs_cons data _ aspect _).mp ho
    obtain ⟨_, ho⟩ := (occurs_append data _ table _).mp ho
    obtain ⟨hb, ho⟩ := (occurs_append data _ blocks.flatten _).mp ho
    rw [occurs_singleton] at ho
    have h6 : magic.length = 6 := by
      rcases hmagic with rfl | rfl <;> rfl
    rw [h6, hsize] at hp hb ho
    have hpacked : byteAt data 10 = packed := byteAt_get data 10 packed hp
    have hstart : 13+colorTable (byteAt data 10) = 0+6+4+1+1+1+table.length := by
      rw [hpacked, colorTable_length, htable]
    simp only [List.length_append, List.length_cons, List.length_nil, h6, hsize] at hlen
    rw [gif_validates, gifHeader_iff, hstart]
    refine ⟨⟨by omega, ?_⟩, _, blocks_visited data _ blocks hblocks hb,
      (List.getElem?_eq_some_iff.mp ho).1, byteAt_get data _ _ ho, ?_⟩
    · rw [occurs_zero] at hm
      rcases hmagic with rfl | rfl
      · exact Or.inl hm
      · exact Or.inr hm
    · simp only [List.length_append, List.length_cons, List.length_nil, h6, hsize]
      omega

theorem accepted_word (n : ℕ) (h : gifFileValidator data = ⟨.validates, some n⟩) :
    ∃ w, GifWord w ∧ OccursAt data 0 w ∧ w.length = n := by
  obtain ⟨hh, o, hv, hlt, hb, rfl⟩ := (gif_validates data n).mp h
  obtain ⟨hlen, hm⟩ := (gifHeader_iff data).mp hh
  obtain ⟨blocks, hblocks, hocc, rfl⟩ := visits_blocks data _ o hv hlt.le
  obtain ⟨magic, hmagic, hfirst⟩ : ∃ magic, (magic = gif87a ∨ magic = gif89a) ∧
      OccursAt data 0 magic := by
    simp only [occurs_zero]
    rcases hm with hm | hm
    · exact ⟨_, Or.inl rfl, hm⟩
    · exact ⟨_, Or.inr rfl, hm⟩
  have h6 : magic.length = 6 := by
    rcases hmagic with rfl | rfl <;> rfl
  have hsize := occurs_slice data 6 4 (by omega)
  have hslen := slice_length data 6 4 (by omega)
  have htable := occurs_slice data 13 (colorTable (byteAt data 10)) (by omega)
  have htlen : ((data.drop 13).take (colorTable (byteAt data 10))).length =
      tableLength (byteAt data 10) := by
    rw [slice_length data 13 _ (by omega), colorTable_length]
  refine ⟨_, .word magic _ (byteAt data 10) (byteAt data 11) (byteAt data 12) _ blocks hmagic
    hslen htlen hblocks, ?_, ?_⟩
  · rw [occurs_append, h6, occurs_append, hslen, occurs_cons, occurs_cons, occurs_cons,
      occurs_append, htlen, ← colorTable_length, occurs_append, occurs_singleton]
    exact ⟨hfirst, hsize, get_byteAt data 10 (by omega), get_byteAt data 11 (by omega),
      get_byteAt data 12 (by omega), htable, hocc, hb ▸ get_byteAt data _ hlt⟩
  · simp only [List.length_append, List.length_cons, List.length_nil, h6, hslen, htlen,
      ← colorTable_length]
    omega

/-- The validator accepts the data with a parsed size when that many bytes are a word. -/
theorem gif_validates_word (n : ℕ) : gifFileValidator data = ⟨.validates, some n⟩ ↔
    n ≤ data.length ∧ GifWord (data.take n) := by
  constructor
  · intro h
    obtain ⟨w, hw, ho, rfl⟩ := accepted_word data n h
    have hbegins := (occurs_zero data w).mp ho
    refine ⟨hbegins.length_le, ?_⟩
    rwa [← List.prefix_iff_eq_take.mp hbegins]
  · rintro ⟨hle, hw⟩
    have h := word_accepted data _ hw (occurs_take_iff data n hle)
    rwa [List.length_take_of_le hle] at h

end Chains

/-- The validator accepts a buffer with a parsed size exactly when that many bytes
of it are a word, it rejects only what is too short or begins with neither
magic, and a buffer begins with one word at most. -/
theorem gif_exact (data : Bytes) :
    (∀ n, gifFileValidator data = ⟨.validates, some n⟩ ↔
      n ≤ data.length ∧ GifWord (data.take n)) ∧
    ((gifFileValidator data).outcome = .invalid ↔
      data.length < 14 ∨ ¬ (gif87a <+: data ∨ gif89a <+: data)) ∧
    ∀ n m, n ≤ data.length → m ≤ data.length → GifWord (data.take n) → GifWord (data.take m) →
      n = m := by
  refine ⟨gif_validates_word data, ?_, ?_⟩
  · by_cases hh : gifHeader data
    · have hkept := gif_kept data hh
      rw [gifHeader_iff] at hh
      apply iff_of_false
      · intro h
        rcases hkept with hk | hk
        · rw [h] at hk
          contradiction
        · rw [h] at hk
          contradiction
      · rintro (hlt | hno)
        · exact absurd hh.1 (not_le.mpr hlt)
        · exact hno hh.2
    · rw [gif_reject data hh]
      refine iff_of_true rfl ?_
      by_contra hno
      push Not at hno
      exact hh ((gifHeader_iff data).mpr ⟨hno.1, hno.2⟩)
  · intro n m hn hm hw hw'
    have h := (gif_validates_word data n).mpr ⟨hn, hw⟩
    rw [(gif_validates_word data m).mpr ⟨hm, hw'⟩] at h
    exact (Option.some.inj (congrArg Verdict.parsedSize h)).symm

end EraseCure.GifWords
