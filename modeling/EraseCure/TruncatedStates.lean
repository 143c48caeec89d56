import EraseCure.BlockStates

/-!
# Reading truncated block states

A block state is read from any bytes. The header is read without a look at how
many bytes there are, and the sum that the declared length is checked with may
wrap. All other inputs are read within their bounds, and rejected when they are
too short. The state that is read into is freed when the magic is right, and an
error after that leaves it with what the header says.
-/

set_option autoImplicit false

namespace EraseCure.TruncatedStates
open EraseCure.FileSystems EraseCure.WordBytes EraseCure.CheckedReads EraseCure.BlockStates

section Fields
variable (order : ByteOrder) (data : Bytes)

def magic : ℕ := loaded order (data.take 4)

def declared : ℕ := loaded order ((data.drop 65).take 8)

theorem readWord_within (ptr width : ℕ) (h : ptr+width ≤ data.length) :
    readWord order data ptr width = .ok (loaded order ((data.drop ptr).take width)) := by
  rw [readWord, readRange_within data ptr width h]
  rfl

theorem readWord_beyond (ptr width : ℕ) (h : data.length < ptr+width) :
    readWord order data ptr width = .error .fault := by
  rw [readWord, readRange_beyond data ptr width h]
  rfl

theorem readWord_inside (ptr width v : ℕ) (h : readWord order data ptr width = .ok v) :
    ptr+width ≤ data.length := by
  by_contra hn
  rw [readWord_beyond order data ptr width (by omega)] at h
  contradiction

theorem read_magic (h : 4 ≤ data.length) :
    readWord order data 0 4 = .ok (magic order data) :=
  readWord_within order data 0 4 (by omega)

theorem read_declared (h : 73 ≤ data.length) :
    readWord order data 65 8 = .ok (declared order data) :=
  readWord_within order data 65 8 h

def headerOf : BlockState :=
  { BlockState.zero with
    blockNumber := UInt64.ofNat (loaded order ((data.drop 4).take 8))
    confidence := UInt32.ofNat (loaded order ((data.drop 12).take 4))
    validation := UInt32.ofNat (loaded order ((data.drop 16).take 4))
    fileType := Vector.ofFn (fun i => ((data.drop 20).take 32).getD i 0)
    offsetInFile := UInt64.ofNat (loaded order ((data.drop 52).take 8))
    crc32 := UInt32.ofNat (loaded order ((data.drop 60).take 4))
    crcValid := loaded order ((data.drop 64).take 1) ≠ 0 }

theorem declared_lt : declared order data < 2^64 := by
  have h := loaded_lt order ((data.drop 65).take 8)
  have hlen : ((data.drop 65).take 8).length ≤ 8 := List.length_take_le 8 _
  calc declared order data < 256^((data.drop 65).take 8).length := h
    _ ≤ 256^8 := Nat.pow_le_pow_right (by decide) hlen
    _ = 2^64 := by decide

end Fields

section Deserializing
variable (order : ByteOrder) (malloc : Bool) (bs : BlockState) (data : Bytes)

theorem deserialize_unmarked
    (h : data.length < 4 ∨ magic order data ≠ blockStateMagic) :
    blockStateDeserialize order malloc bs data = .ok (some .invalidArg, bs) := by
  rw [blockStateDeserialize]
  by_cases hshort : data.length < 4
  · rw [if_pos hshort]
    rfl
  · rw [if_neg hshort, read_magic order data (by omega), ok_bind,
      if_pos (h.resolve_left hshort)]
    rfl

/-- With the magic, only a whole header is read without a fault. -/
theorem deserialize_header (h : 4 ≤ data.length) (hm : magic order data = blockStateMagic)
    (r : Option BlockStateError × BlockState)
    (hr : blockStateDeserialize order malloc bs data = .ok r) : 73 ≤ data.length := by
  rw [blockStateDeserialize, if_neg (by omega), read_magic order data h, ok_bind,
    if_neg (not_not.mpr hm)] at hr
  dsimp only at hr
  obtain ⟨_, _, hr⟩ := bind_ok _ _ _ hr
  obtain ⟨_, _, hr⟩ := bind_ok _ _ _ hr
  obtain ⟨_, _, hr⟩ := bind_ok _ _ _ hr
  obtain ⟨_, _, hr⟩ := bind_ok _ _ _ hr
  obtain ⟨_, _, hr⟩ := bind_ok _ _ _ hr
  obtain ⟨_, _, hr⟩ := bind_ok _ _ _ hr
  obtain ⟨_, _, hr⟩ := bind_ok _ _ _ hr
  obtain ⟨_, hlen, _⟩ := bind_ok _ _ _ hr
  exact readWord_inside order data 65 8 _ hlen

theorem deserialize_whole (h : 73 ≤ data.length) (hm : magic order data = blockStateMagic) :
    blockStateDeserialize order malloc bs data =
      if 0 < declared order data then
        if data.length < (73+declared order data)%2^64 then
          .ok (some .invalidArg, headerOf order data)
        else if !malloc then .ok (some .noMem, headerOf order data)
        else (readRange data 73 (declared order data)).map (fun bytes => (none,
          { headerOf order data with
            formatData := some bytes
            formatDataLen := UInt64.ofNat (declared order data) }))
      else .ok (none, headerOf order data) := by
  rw [blockStateDeserialize, if_neg (by omega), read_magic order data (by omega), ok_bind,
    if_neg (not_not.mpr hm), readWord_within order data 4 8 (by omega), ok_bind,
    readWord_within order data 12 4 (by omega), ok_bind,
    readWord_within order data 16 4 (by omega), ok_bind, readRange_within data 20 32 (by omega),
    ok_bind, readWord_within order data 52 8 (by omega), ok_bind,
    readWord_within order data 60 4 (by omega), ok_bind,
    readWord_within order data 64 1 (by omega), ok_bind, read_declared order data h, ok_bind]
  rfl

/-- A result comes back, and it is the error when the bytes are fewer than the
header and the length it declares. -/
def ReadsSafely : Prop :=
  ∃ r bs', blockStateDeserialize order malloc bs data = .ok (r, bs') ∧
    (data.length < 73+declared order data → r = some .invalidArg)

theorem reads_whole (h : 73 ≤ data.length) (hm : magic order data = blockStateMagic)
    (hd : 73+declared order data < 2^64) : ReadsSafely order malloc bs data := by
  have hst := deserialize_whole order malloc bs data h hm
  rw [Nat.mod_eq_of_lt hd] at hst
  rw [ReadsSafely, hst]
  split_ifs with hpos hshort hmalloc
  · exact ⟨_, _, rfl, fun _ => rfl⟩
  · exact ⟨_, _, rfl, fun hlt => absurd hlt hshort⟩
  · rw [readRange_within data 73 _ (by omega)]
    exact ⟨_, _, rfl, fun hlt => absurd hlt hshort⟩
  · exact ⟨_, _, rfl, fun hlt => absurd hlt (by omega)⟩

/-- A sum that wraps is never too large. -/
theorem wrapped_unsafe (h : 73 ≤ data.length) (hsize : data.length < 2^64)
    (hm : magic order data = blockStateMagic) (hd : 2^64 ≤ 73+declared order data) :
    ¬ ReadsSafely order malloc bs data := by
  rintro ⟨r, bs', hr, hrejects⟩
  have hlt := declared_lt order data
  have hst := deserialize_whole order malloc bs data h hm
  rw [if_pos (by omega), if_neg (by omega), hr,
    readRange_beyond data 73 _ (by omega)] at hst
  rw [hrejects (by omega)] at hst
  split_ifs at hst
  · cases hst
  · contradiction

/-- What is read is within bounds and too short an input is rejected, except
where the magic is there with less than a header, or with a declared length that
wraps. -/
theorem truncated_states_rejected (hsize : data.length < 2^64) :
    ReadsSafely order malloc bs data ↔ data.length < 4 ∨ magic order data ≠ blockStateMagic ∨
      (73 ≤ data.length ∧ 73+declared order data < 2^64) := by
  by_cases hunmarked : data.length < 4 ∨ magic order data ≠ blockStateMagic
  · rw [← or_assoc]
    exact iff_of_true ⟨_, _, deserialize_unmarked order malloc bs data hunmarked, fun _ => rfl⟩
      (Or.inl hunmarked)
  · obtain ⟨hfour, hm⟩ := not_or.mp hunmarked
    rw [not_not] at hm
    rw [or_iff_right hfour, or_iff_right (not_not.mpr hm)]
    constructor
    · rintro ⟨r, bs', hr, hrejects⟩
      have h := deserialize_header order malloc bs data (by omega) hm _ hr
      refine ⟨h, ?_⟩
      by_contra hd
      exact wrapped_unsafe order malloc bs data h hsize hm (by omega) ⟨r, bs', hr, hrejects⟩
    · rintro ⟨h, hd⟩
      exact reads_whole order malloc bs data h hm hd

def cutState : Bytes :=
  [0x53, 0x4B, 0x4C, 0x42]++(List.replicate 61 0++2::(List.replicate 7 0++[0xAB]))

theorem truncated_states_rejected_cut : ReadsSafely .little true .zero cutState :=
  (truncated_states_rejected .little true .zero cutState (by decide)).mpr
    (Or.inr (Or.inr (by decide)))

/-- The magic and nothing else. -/
theorem magic_alone_unsafe : ¬ ReadsSafely .little true .zero [0x53, 0x4B, 0x4C, 0x42] := by
  rintro ⟨r, bs', hr, _⟩
  have h := deserialize_header .little true .zero _ (by decide) (by decide) _ hr
  contradiction

/-- A result comes back, and with an error the state that there was. -/
def NothingLost : Prop :=
  ∃ r bs', blockStateDeserialize order malloc bs data = .ok (r, bs') ∧ (r ≠ none → bs' = bs)

/-- The format data is there and is allocated. -/
def DataTaken : Prop := 73+declared order data ≤ data.length ∧ malloc = true

/-- The format data is found to be too short, or is not allocated. -/
def DataRefused : Prop := data.length < (73+declared order data)%2^64 ∨ malloc = false

theorem error_keeps (e : BlockStateError) (st : BlockState) :
    (∃ r bs', (.ok (some e, st) : Checked (Option BlockStateError × BlockState)) = .ok (r, bs') ∧
      (r ≠ none → bs' = bs)) ↔ bs = st := by
  constructor
  · rintro ⟨_, _, hr, hkeeps⟩
    cases hr
    exact (hkeeps (Option.some_ne_none e)).symm
  · rintro rfl
    exact ⟨_, _, rfl, fun _ => rfl⟩

theorem whole_lost (h : 73 ≤ data.length) (hm : magic order data = blockStateMagic) :
    NothingLost order malloc bs data ↔ declared order data = 0 ∨ DataTaken order malloc data ∨
      (DataRefused order malloc data ∧ bs = headerOf order data) := by
  rw [NothingLost, deserialize_whole order malloc bs data h hm]
  by_cases hnone : declared order data = 0
  · rw [hnone, if_neg (lt_irrefl 0)]
    exact iff_of_true ⟨_, _, rfl, fun hne => absurd rfl hne⟩ (Or.inl rfl)
  rw [if_pos (Nat.pos_of_ne_zero hnone), or_iff_right hnone, DataTaken, DataRefused]
  have hwrap := Nat.mod_le (73+declared order data) (2^64)
  by_cases hshort : data.length < (73+declared order data)%2^64
  · rw [if_pos hshort, or_iff_right (fun htaken => by omega), and_iff_right (Or.inl hshort)]
    exact error_keeps bs _ _
  rw [if_neg hshort]
  cases malloc with
  | false =>
    rw [or_iff_right (fun htaken => absurd htaken.2 (by decide)), and_iff_right (Or.inr rfl)]
    exact error_keeps bs _ _
  | true =>
    rw [or_iff_left (fun hrefused => hrefused.1.elim hshort (by decide)), and_iff_left rfl]
    by_cases hthere : 73+declared order data ≤ data.length
    · rw [readRange_within data 73 _ hthere]
      exact iff_of_true ⟨_, _, rfl, fun hne => absurd rfl hne⟩ hthere
    · rw [readRange_beyond data 73 _ (by omega)]
      exact iff_of_false (by rintro ⟨_, _, hr, _⟩; contradiction) hthere

/-- A result comes back, with an error the state that there was, exactly at one of the
first two exits, or after a whole header when none of the later ones is taken and the
data is within bounds, or when the state was already the one that the header encodes. -/
theorem failed_decoding_keeps : NothingLost order malloc bs data ↔
    data.length < 4 ∨ magic order data ≠ blockStateMagic ∨ 73 ≤ data.length ∧
      (declared order data = 0 ∨ DataTaken order malloc data ∨
        (DataRefused order malloc data ∧ bs = headerOf order data)) := by
  by_cases hunmarked : data.length < 4 ∨ magic order data ≠ blockStateMagic
  · rw [← or_assoc]
    exact iff_of_true ⟨_, _, deserialize_unmarked order malloc bs data hunmarked, fun _ => rfl⟩
      (Or.inl hunmarked)
  obtain ⟨hfour, hm⟩ := not_or.mp hunmarked
  rw [or_iff_right hfour, or_iff_right hm]
  rw [not_not] at hm
  by_cases hshort : 73 ≤ data.length
  · rw [and_iff_right hshort]
    exact whole_lost order malloc bs data hshort hm
  · refine iff_of_false ?_ (fun hwhole => hshort hwhole.1)
    rintro ⟨_, _, hr, _⟩
    exact hshort (deserialize_header order malloc bs data (by omega) hm _ hr)

/-- A header that declares one byte, with nothing after it, is read into a state
with two bytes of data. -/
theorem failed_decoding_loses : ¬ ∀ order malloc bs data code bs',
    blockStateDeserialize order malloc bs data = .ok (some code, bs') → bs' = bs := by
  intro h
  have hsame := h .little true twoBytes
    ([0x53, 0x4B, 0x4C, 0x42]++List.replicate 61 0++1::List.replicate 7 0) _ _
    (by rw [deserialize_whole .little true twoBytes _ (by decide) (by decide), if_pos (by decide),
      if_pos (by decide)])
  exact absurd (congrArg BlockState.formatData hsame) (by decide)

end Deserializing

end EraseCure.TruncatedStates
