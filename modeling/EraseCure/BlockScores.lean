import EraseCure.ValidatorReads

/-!
# Scores of blocks

Five of the block validators add points for each match in the block, so their
score follows the number of matches and has no bound but that of its word. The
other two look at the first bytes only.
-/

set_option autoImplicit false

namespace EraseCure.BlockScores
open EraseCure.FileSystems EraseCure.Scans EraseCure.CheckedReads EraseCure.CheckedValidators
open EraseCure.ValidatorReads
open EraseCure.FileValidators hiding jpegFileValidator pngFileValidator gifFileValidator
  pdfFileValidator zipFileValidator elfFileValidator mp3FileValidator
open EraseCure.ParsedSizes hiding fileValidator

def confidenceMin : ℕ := 0

def confidenceMax : ℕ := 100

section Counting
variable (hit : Bytes → Bool) (gap : ℕ)

/-- The matches in a text. The first positions are passed over, `hidden` of them,
and so are the positions after each match, `gap` of them. -/
def counted : ℕ → Bytes → ℕ
  | _, [] => 0
  | hidden+1, _::rest => counted hidden rest
  | 0, b::rest => if hit (b::rest) then counted gap rest+1 else counted 0 rest

theorem counted_drop (hidden : ℕ) (text : Bytes) :
    counted hit gap hidden text = counted hit gap 0 (text.drop hidden) := by
  induction text generalizing hidden with
  | nil =>
    rw [List.drop_nil]
    cases hidden <;> rfl
  | cons b rest ih =>
    cases hidden with
    | zero => rfl
    | succ hidden => exact ih hidden

theorem counted_at (data : Bytes) (i : ℕ) (h : i < data.length) :
    counted hit gap 0 (data.drop i) =
      if hit (data.drop i) then counted hit gap 0 (data.drop (i+1+gap))+1
      else counted hit gap 0 (data.drop (i+1)) := by
  rw [List.drop_eq_getElem_cons h, counted, counted_drop hit gap gap, List.drop_drop]

theorem counted_short (width : ℕ) (hwidth : ∀ text, hit text = true → width ≤ text.length)
    (text : Bytes) (h : text.length < width) : counted hit gap 0 text = 0 := by
  induction text with
  | nil => rfl
  | cons b rest ih =>
    rw [counted, if_neg (fun hhit => Nat.not_lt.mpr (hwidth _ hhit) h)]
    exact ih (Nat.lt_of_succ_lt h)

variable (points width : ℕ) (data : Bytes)

/-- A round of the loops that try each position with `width` bytes from it on. -/
def countRound (s : Score) : Round Score ℕ :=
  if s.i+width ≤ data.length then
    if hit (data.drop s.i) then .next { s.add points with i := s.i+1+gap }
    else .next { s with i := s.i+1 }
  else .done s.score

theorem loop_counts (hwidth : ∀ text, hit text = true → width ≤ text.length) (hpos : 0 < width)
    (body : Score → Checked (Round Score ℕ))
    (hbody : ∀ s, s.i ≤ data.length+gap → body s = .ok (countRound hit gap points width data s))
    (fuel : ℕ) (s : Score) (hs : s.i ≤ data.length+gap) (hscore : s.score < 2^32)
    (hfuel : data.length-s.i < fuel) :
    loop body fuel s = .ok ((s.score+points*counted hit gap 0 (data.drop s.i))%2^32) := by
  induction fuel generalizing s with
  | zero => exact absurd hfuel (Nat.not_lt_zero _)
  | succ fuel ih =>
    rw [loop, hbody s hs, countRound]
    by_cases hroom : s.i+width ≤ data.length
    · rw [if_pos hroom, counted_at hit gap data s.i (by omega)]
      by_cases hhit : hit (data.drop s.i) = true
      · rw [if_pos hhit, if_pos hhit]
        dsimp only
        rw [ih _ (by dsimp only; omega) (Nat.mod_lt _ (by decide)) (by dsimp only; omega)]
        rw [Score.add, Nat.mod_add_mod, Nat.mul_succ, Nat.add_assoc, Nat.add_comm points]
      · rw [if_neg hhit, if_neg hhit]
        exact ih ⟨s.i+1, s.score⟩ (by dsimp only; omega) hscore (by dsimp only; omega)
    · rw [if_neg hroom, counted_short hit gap width hwidth _ (by rw [List.length_drop]; omega),
        Nat.mul_zero, Nat.add_zero, Nat.mod_eq_of_lt hscore]

end Counting

def pairHit (p : UInt8 → Bool) : Bytes → Bool
  | first::second::_ => first = 0xFF && p second
  | _ => false

def namesHit (names : List Bytes) (text : Bytes) : Bool := names.any (bytesAt text 0)

theorem pairHit_width (p : UInt8 → Bool) (text : Bytes) (h : pairHit p text = true) :
    2 ≤ text.length := by
  match text with
  | [] => contradiction
  | [_] => contradiction
  | _::_::_ => exact Nat.le_add_left 2 _

theorem namesHit_width (names : List Bytes) (width : ℕ) (hnames : ∀ n ∈ names, n.length = width)
    (text : Bytes) (h : namesHit names text = true) : width ≤ text.length := by
  obtain ⟨name, hname, hat⟩ := List.any_eq_true.mp h
  have htake : text.take name.length = name := of_decide_eq_true hat
  rw [← hnames name hname, ← htake, List.length_take, hnames name hname]
  exact Nat.min_le_right _ _

theorem namesHit_drop (names : List Bytes) (data : Bytes) (i : ℕ) :
    namesHit names (data.drop i) = names.any (bytesAt data i) := rfl

theorem pairHit_drop (p : UInt8 → Bool) (data : Bytes) (i : ℕ) (h : i+2 ≤ data.length) :
    pairHit p (data.drop i) = (decide (byteAt data i = 0xFF) && p (byteAt data (i+1))) := by
  have h0 := byteAt_get data i _ (List.getElem?_eq_getElem (show i < data.length by omega))
  have h1 := byteAt_get data (i+1) _ (List.getElem?_eq_getElem (show i+1 < data.length by omega))
  rw [List.drop_eq_getElem_cons (by omega), List.drop_eq_getElem_cons (by omega), h0, h1]
  rfl

section Loops
variable (data : Bytes) (hsize : data.length < 2^63)
include hsize

theorem pair_round (p : UInt8 → Prop) [DecidablePred p] (points : ℕ) (hlen : 1 ≤ data.length)
    (s : Score) (hs : s.i ≤ data.length) : pairBody data p points s =
      .ok (countRound (pairHit (fun b => p b)) 0 points 2 data s) := by
  rw [pairBody, sizeSub_of_le _ _ hlen (by omega), countRound]
  by_cases hroom : s.i+2 ≤ data.length
  · rw [if_pos (by omega), if_pos hroom, readAt_byteAt data s.i (by omega), ok_bind,
      pairHit_drop _ data s.i hroom, Score.step, Score.step, Score.add, sizeT_of_lt _ (by omega),
      readAt_byteAt data (s.i+1) (by omega), ok_bind]
    by_cases hfirst : byteAt data s.i = 0xFF <;> by_cases hsecond : p (byteAt data (s.i+1)) <;>
      simp only [hfirst, hsecond, if_true, if_false, decide_true, decide_false, Bool.and_self,
        Bool.and_false, Bool.false_and, Bool.false_eq_true, Nat.add_zero] <;> rfl
  · rw [if_neg (by omega), if_neg hroom]
    rfl

theorem pair_scored (p : UInt8 → Prop) [DecidablePred p] (points : ℕ) (hlen : 1 ≤ data.length)
    (fuel : ℕ) (hfuel : data.length < fuel) : loop (pairBody data p points) fuel ⟨0, 0⟩ =
      .ok (points*counted (pairHit (fun b => p b)) 0 0 data%2^32) := by
  rw [loop_counts _ 0 points 2 data (pairHit_width _) (by decide) _
    (pair_round data hsize p points hlen) fuel ⟨0, 0⟩ (Nat.zero_le _) (by decide) hfuel,
    List.drop_zero, Nat.zero_add]

theorem names_round (names : List Bytes) (hnames : ∀ n ∈ names, n.length = 4) (points : ℕ)
    (hlen : 3 ≤ data.length) (s : Score) (hs : s.i ≤ data.length) :
    namesBody names points data s = .ok (countRound (namesHit names) 0 points 4 data s) := by
  rw [namesBody, sizeSub_of_le _ _ hlen (by omega), countRound]
  by_cases hroom : s.i+4 ≤ data.length
  · rw [if_pos (by omega), if_pos hroom,
      compareAny_within data s.i names (fun n hn => by rw [hnames n hn]; exact hroom), ok_bind,
      namesHit_drop, Score.step, Score.step, Score.add]
    dsimp only
    rw [sizeT_of_lt (s.i+1) (by omega)]
    cases names.any (bytesAt data s.i) <;> rfl
  · rw [if_neg (by omega), if_neg hroom]
    rfl

theorem names_scored (names : List Bytes) (hnames : ∀ n ∈ names, n.length = 4) (points : ℕ)
    (hlen : 3 ≤ data.length) (fuel : ℕ) (hfuel : data.length < fuel) :
    loop (namesBody names points data) fuel ⟨0, 0⟩ =
      .ok (points*counted (namesHit names) 0 0 data%2^32) := by
  rw [loop_counts _ 0 points 4 data (namesHit_width names 4 hnames) (by decide) _
    (names_round data hsize names hnames points hlen) fuel ⟨0, 0⟩ (Nat.zero_le _) (by decide)
    hfuel, List.drop_zero, Nat.zero_add]

theorem keyword_counted (keyword : Bytes) (hpos : 0 < keyword.length) (hkey : keyword.length ≤ 9)
    (s : Score) (hs : s.i ≤ data.length+keyword.length) : keywordBody data keyword s =
      .ok (countRound (namesHit [keyword]) keyword.length 5 keyword.length data s) := by
  rw [keywordBody, sizeT_of_lt _ (by omega), countRound]
  by_cases hroom : s.i+keyword.length ≤ data.length
  · rw [if_pos hroom, if_pos hroom, compareAt_bytesAt data s.i keyword hroom, ok_bind,
      namesHit_drop, List.any_cons, List.any_nil, Bool.or_false]
    cases bytesAt data s.i keyword with
    | true =>
      simp only [if_true, Score.add]
      rw [sizeT_of_lt (s.i+keyword.length) (by omega), sizeT_of_lt _ (by omega),
        Nat.add_right_comm]
      rfl
    | false =>
      simp only [Bool.false_eq_true, if_false, Score.step]
      rw [sizeT_of_lt _ (by omega)]
      rfl
  · rw [if_neg hroom, if_neg hroom]
    rfl

end Loops

/-- The matches of all keywords, each one hiding its own length and a byte more. -/
def keywordMatches (names : List Bytes) (data : Bytes) : ℕ :=
  names.foldr (fun keyword n => counted (namesHit [keyword]) keyword.length 0 data+n) 0

theorem keywords_scored (data : Bytes) (hsize : data.length < 2^63) (fuel : ℕ)
    (hfuel : data.length < fuel) (names : List Bytes)
    (hnames : ∀ n ∈ names, 0 < n.length ∧ n.length ≤ 9) (score : ℕ) (hscore : score < 2^32) :
    keywordsFrom data fuel names score = .ok ((score+5*keywordMatches names data)%2^32) := by
  induction names generalizing score with
  | nil =>
    rw [keywordsFrom, keywordMatches, List.foldr_nil, Nat.mul_zero, Nat.add_zero,
      Nat.mod_eq_of_lt hscore]
    rfl
  | cons keyword names ih =>
    obtain ⟨hpos, hkey⟩ := hnames keyword List.mem_cons_self
    have hwidth := namesHit_width [keyword] keyword.length (by simp)
    rw [keywordsFrom, loop_counts _ keyword.length 5 keyword.length data hwidth hpos _
      (keyword_counted data hsize keyword hpos hkey) fuel ⟨0, score⟩ (Nat.zero_le _) hscore hfuel,
      ok_bind, ih (fun n hn => hnames n (List.mem_cons_of_mem _ hn)) _ (Nat.mod_lt _ (by decide)),
      Nat.mod_add_mod, List.drop_zero, Nat.add_assoc, ← Nat.mul_add]
    rfl

def elfStart (data : Bytes) : Bool :=
  16 ≤ data.length ∧ bytesAt data 0 elfMagic ∧ (byteAt data 4 = 1 ∨ byteAt data 4 = 2) ∧
    (byteAt data 5 = 1 ∨ byteAt data 5 = 2)

def pointsOf : FileFormat → ℕ
  | .jpeg => 10
  | .png => 20
  | .gif => 100
  | .pdf => 5
  | .zip => 15
  | .mp3 => 5
  | .elf => 100

def jpegMarker (marker : UInt8) : Bool :=
  marker = 0xC0 ∨ marker = 0xC2 ∨ marker = 0xC4 ∨ marker = 0xDB ∨ marker = 0xDA

def matchesOf (data : Bytes) : FileFormat → ℕ
  | .jpeg => counted (pairHit jpegMarker) 0 0 data
  | .png => counted (namesHit [ihdr, idat, plte, iend]) 0 0 data
  | .gif => if namesHit [gif87a, gif89a] data then 1 else 0
  | .pdf => keywordMatches keywords data
  | .zip => counted (namesHit [zipLocalHeader, zipCentralDir, zipEocd]) 0 0 data
  | .mp3 => counted (pairHit (fun second => second &&& 0xE0 = 0xE0)) 0 0 data
  | .elf => if elfStart data then 1 else 0

theorem gif_scored (data : Bytes) :
    gifBlockValidator data = .ok (100*(if namesHit [gif87a, gif89a] data then 1 else 0)%2^32) := by
  rw [gifBlockValidator]
  split_ifs with hlen hhit hhit
  · have := namesHit_width [gif87a, gif89a] 6 (by decide) data hhit
    omega
  · rfl
  all_goals
    have hsix : ∀ text ∈ [gif87a, gif89a], text.length = 6 := by decide
    rw [compareAny_within data 0 _ (fun text ht => by rw [hsix text ht]; omega), ok_bind]
  · rw [if_pos (show [gif87a, gif89a].any (bytesAt data 0) = true from hhit)]
    rfl
  · rw [if_neg (show ¬ [gif87a, gif89a].any (bytesAt data 0) = true from hhit)]
    rfl

theorem elf_scored (data : Bytes) :
    elfBlockValidator data = .ok (100*(if elfStart data then 1 else 0)%2^32) := by
  rw [elfBlockValidator, elfStart]
  by_cases hlen : data.length < 16
  · rw [if_pos hlen, if_neg (fun h => Nat.not_le_of_lt hlen (of_decide_eq_true h).1)]
    rfl
  · rw [if_neg hlen, compareAt_bytesAt data 0 elfMagic (show 0+4 ≤ _ by omega), ok_bind,
      readAt_byteAt data 4 (by omega), ok_bind, readAt_byteAt data 5 (by omega), ok_bind]
    have hlong : 16 ≤ data.length := by omega
    by_cases hmagic : bytesAt data 0 elfMagic = true <;>
      by_cases hclass : byteAt data 4 = 1 ∨ byteAt data 4 = 2 <;>
        by_cases hdata : byteAt data 5 = 1 ∨ byteAt data 5 = 2 <;>
          simp only [hlong, hmagic, hclass, hdata, if_true, if_false, and_true, and_false,
            decide_true, decide_false, Bool.false_eq_true] <;> rfl

theorem block_scored (data : Bytes) (hsize : data.length < 2^63) (format : FileFormat) (fuel : ℕ)
    (hfuel : data.length < fuel) : blockValidator format data fuel =
      .ok (pointsOf format*matchesOf data format%2^32) := by
  cases format with
  | jpeg =>
    change jpegBlockValidator data fuel = _
    rw [jpegBlockValidator]
    split_ifs with hlen
    · rw [List.length_eq_zero_iff.mp hlen]
      rfl
    · exact pair_scored data hsize _ 10 (by omega) fuel hfuel
  | png =>
    change pngBlockValidator data fuel = _
    rw [pngBlockValidator]
    split_ifs with hlen
    · rw [matchesOf, counted_short _ 0 4 (namesHit_width _ 4 (by decide)) data hlen]
      rfl
    · exact names_scored data hsize _ (by decide) 20 (by omega) fuel hfuel
  | gif => exact gif_scored data
  | pdf =>
    change pdfBlockValidator data fuel = _
    rw [pdfBlockValidator]
    split_ifs with hlen
    · rw [List.length_eq_zero_iff.mp hlen]
      rfl
    · rw [keywords_scored data hsize fuel hfuel keywords (by decide) 0 (by decide), Nat.zero_add]
      rfl
  | zip =>
    change zipBlockValidator data fuel = _
    rw [zipBlockValidator]
    split_ifs with hlen
    · rw [matchesOf, counted_short _ 0 4 (namesHit_width _ 4 (by decide)) data hlen]
      rfl
    · exact names_scored data hsize _ (by decide) 15 (by omega) fuel hfuel
  | mp3 =>
    change mp3BlockValidator data fuel = _
    rw [mp3BlockValidator]
    split_ifs with hlen
    · rw [matchesOf, counted_short _ 0 2 (pairHit_width _) data hlen]
      rfl
    · exact pair_scored data hsize _ 5 (by omega) fuel hfuel
  | elf => exact elf_scored data

/-- The points stay within the range of a confidence, up to turns of the word that
they are added in. -/
def WithinRange (points : ℕ) : Prop :=
  ∃ turns, turns*2^32+confidenceMin ≤ points ∧ points ≤ turns*2^32+confidenceMax

theorem within_word (points : ℕ) : WithinRange points ↔
    confidenceMin ≤ points%2^32 ∧ points%2^32 ≤ confidenceMax := by
  simp only [WithinRange, confidenceMin, confidenceMax]
  constructor
  · rintro ⟨turns, hlow, hhigh⟩
    omega
  · rintro ⟨_, hhigh⟩
    exact ⟨points/2^32, by omega, by omega⟩

/-- A block validator ends, and its score is a confidence exactly when the points
of its matches are. -/
theorem confidence_in_range_iff (format : FileFormat) (data : Bytes) (hsize : data.length < 2^63)
    (fuel : ℕ) (hfuel : data.length < fuel) :
    ∃ score, blockValidator format data fuel = .ok score ∧
      ((confidenceMin ≤ score ∧ score ≤ confidenceMax) ↔
        WithinRange (pointsOf format*matchesOf data format)) :=
  ⟨_, block_scored data hsize format fuel hfuel, (within_word _).symm⟩

def scanMarkers (n : ℕ) : Bytes := (List.replicate n [0xFF, 0xDA]).flatten

theorem confidence_in_range_ten :
    ∃ score, blockValidator .jpeg (scanMarkers 10) 21 = .ok score ∧
      confidenceMin ≤ score ∧ score ≤ confidenceMax := by
  obtain ⟨score, hscore, hiff⟩ :=
    confidence_in_range_iff .jpeg (scanMarkers 10) (by decide) 21 (by decide)
  exact ⟨score, hscore, hiff.mpr ⟨0, by decide, by decide⟩⟩

theorem score_above_range : (scanMarkers 11).length < 2^63 ∧
    blockValidator .jpeg (scanMarkers 11) 23 = .ok 110 ∧ ¬ 110 ≤ confidenceMax := by
  refine ⟨by decide, rfl, by decide⟩

end EraseCure.BlockScores
