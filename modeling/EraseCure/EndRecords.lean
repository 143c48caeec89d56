import EraseCure.ValidatorReads

/-!
# The end record of a ZIP archive

The validator looks for the end of central directory from the last 22 bytes
down. The search stops at offset zero before it would go below it, and the
window leaves room for a record whose comment is as long as it can be.
-/

set_option autoImplicit false

namespace EraseCure.EndRecords
open EraseCure.FileSystems EraseCure.Scans EraseCure.Occurrences
open EraseCure.FileValidators hiding jpegFileValidator pngFileValidator gifFileValidator
  pdfFileValidator zipFileValidator elfFileValidator mp3FileValidator
open EraseCure.CheckedReads EraseCure.CheckedValidators EraseCure.ValidatorReads

section Rounds
variable (data : Bytes) (start i : ℕ)

/-- The record starts at an offset from the end of the window to the offset. -/
def RecordBelow : Prop := ∃ j, start ≤ j ∧ j ≤ i ∧ OccursAt data j zipEocd

theorem below_here (hi : start ≤ i) (h : OccursAt data i zipEocd) : RecordBelow data start i :=
  ⟨i, hi, le_rfl, h⟩

theorem below_pred (h : ¬ OccursAt data i zipEocd) (hpos : i ≠ 0) :
    RecordBelow data start (i-1) ↔ RecordBelow data start i := by
  constructor
  · rintro ⟨j, hj, hle, hocc⟩
    exact ⟨j, hj, by omega, hocc⟩
  · rintro ⟨j, hj, hle, hocc⟩
    have hne : j ≠ i := by
      rintro rfl
      exact h hocc
    exact ⟨j, hj, by omega, hocc⟩

theorem below_zero (h : ¬ OccursAt data 0 zipEocd) : ¬ RecordBelow data start 0 := by
  rintro ⟨j, _, hle, hocc⟩
  rw [Nat.le_zero.mp hle] at hocc
  exact h hocc

theorem below_end (h : ¬ start ≤ i) : ¬ RecordBelow data start i := by
  rintro ⟨j, hj, hle, _⟩
  exact h (hj.trans hle)

theorem eocd_occurs (hi : i+22 ≤ data.length) :
    bytesAt data i zipEocd = true ↔ OccursAt data i zipEocd :=
  bytesAt_occurs data i zipEocd (show i+4 ≤ _ by omega)

theorem search_next (hsize : data.length < 2^64) (hi : i+22 ≤ data.length) (j : ℕ)
    (h : zipFileBody data start i = .ok (.next j)) : j+1 = i := by
  rw [zip_body data start i hsize hi] at h
  have hr := Except.ok.inj h
  split_ifs at hr with hge hocc hz
  cases hr
  omega

def Answers (v : Verdict) : Prop := v.outcome = .validates ↔ RecordBelow data start i

theorem answers_found (hge : start ≤ i) (hocc : OccursAt data i zipEocd) :
    Answers data start i ⟨.validates, some data.length⟩ :=
  ⟨fun _ => below_here data start i hge hocc, fun _ => rfl⟩

theorem answers_missing (h : ¬ RecordBelow data start i) :
    Answers data start i ⟨.promising, some data.length⟩ := by
  constructor
  · intro hv
    contradiction
  · intro hb
    exact absurd hb h

/-- What is left to look at has the record exactly when there was one at first. -/
structure Searching (first i : ℕ) : Prop where
  inside : i+22 ≤ data.length
  same : RecordBelow data start i ↔ RecordBelow data start first

theorem search_leads (hsize : data.length < 2^64) (first : ℕ)
    (h : Searching data start first i) :
    Meets true (Leads (Searching data start first) (fun j => j) (Answers data start first) i)
      (zipFileBody data start i) := by
  have hi := h.inside
  apply meets_ok true _ _ _ (zip_body data start i hsize hi)
  have hanswers : ∀ v, Answers data start i v → Answers data start first v :=
    fun v hv => hv.trans h.same
  by_cases hge : start ≤ i
  · rw [if_pos hge]
    by_cases hb : bytesAt data i zipEocd = true
    · rw [if_pos hb]
      exact hanswers _ (answers_found data start i hge ((eocd_occurs data i hi).mp hb))
    have hocc : ¬ OccursAt data i zipEocd := fun h => hb ((eocd_occurs data i hi).mpr h)
    rw [if_neg hb]
    by_cases hz : i = 0
    · rw [if_pos hz]
      apply hanswers _ (answers_missing data start i _)
      subst hz
      exact below_zero data start hocc
    · rw [if_neg hz]
      have hpred := below_pred data start i hocc hz
      exact ⟨⟨by omega, hpred.trans h.same⟩, by dsimp only; omega⟩
  · rw [if_neg hge]
    exact hanswers _ (answers_missing data start i (below_end data start i hge))

end Rounds

section Search
variable (data : Bytes)

def searchStart : ℕ :=
  if data.length > 65536+22 then sizeSub (sizeSub data.length 65536) 22 else 0

/-- The offsets that the search visits. -/
def SearchVisits (i : ℕ) : Prop :=
  Visited (zipFileBody data (searchStart data)) (sizeSub data.length 22) i

variable (hsize : data.length < 2^64) (h22 : 22 ≤ data.length)
include hsize

theorem searchStart_eq : searchStart data = data.length-65558 :=
  zip_window data hsize

include h22

theorem visits_within (i : ℕ) (h : SearchVisits data i) : i+22 ≤ data.length := by
  apply visited_kept _ (fun i => i+22 ≤ data.length) _ i _ _ h
  · rw [sizeSub_of_le _ _ h22 hsize]
    omega
  · intro i j hi hr
    have := search_next data _ i hsize hi j hr
    omega

/-- None of the subtractions of the search wraps around. -/
structure PlainSubtractions : Prop where
  window : searchStart data = data.length-65558
  first : sizeSub data.length 22+22 = data.length
  down : ∀ i j, SearchVisits data i →
    zipFileBody data (searchStart data) i = .ok (.next j) → j+1 = i

theorem plain_subtractions : PlainSubtractions data where
  window := searchStart_eq data hsize
  first := by
    rw [sizeSub_of_le _ _ h22 hsize]
    omega
  down i j hi hr := search_next data _ i hsize (visits_within data hsize h22 i hi) j hr

/-- A search with a bound beyond the buffer has its answer. -/
theorem search_answers (hmagic : OccursAt data 0 zipLocalHeader) (fuel : ℕ)
    (hfuel : data.length < fuel) :
    ∃ v, zipFileValidator data fuel = .ok v ∧
      Answers data (searchStart data) (data.length-22) v := by
  have hm : bytesAt data 0 zipLocalHeader = true :=
    (bytesAt_occurs data 0 zipLocalHeader (show 0+4 ≤ _ by omega)).mpr hmagic
  have hmeets : Meets true (Answers data (searchStart data) (data.length-22))
      (zipFileValidator data fuel) := by
    rw [zipFileValidator, if_neg (by omega),
      compareAt_bytesAt data 0 zipLocalHeader (show 0+4 ≤ _ by omega), ok_bind, if_pos hm]
    dsimp only
    rw [sizeSub_of_le data.length 22 h22 hsize]
    apply meets_loop true _ (Searching data (searchStart data) (data.length-22)) (fun j => j)
    · exact fun i => search_leads data (searchStart data) i hsize (data.length-22)
    · exact ⟨by omega, Iff.rfl⟩
    · intro _
      omega
  exact meets_returns _ _ hmeets

end Search

/-- The 22 bytes of an end record and its comment of at most 65535 bytes start
within the window. -/
theorem record_within (front fields comment : Bytes) (hfields : fields.length = 18)
    (hcomment : comment.length ≤ 65535) :
    RecordBelow (front++(zipEocd++(fields++comment)))
      ((front++(zipEocd++(fields++comment))).length-65558)
      ((front++(zipEocd++(fields++comment))).length-22) := by
  have hlen : (front++(zipEocd++(fields++comment))).length =
      front.length+(22+comment.length) := by
    simp only [List.length_append, hfields]
    change _+(4+(18+_)) = _
    omega
  have hocc : OccursAt (front++(zipEocd++(fields++comment))) front.length zipEocd := by
    refine ⟨?_, ?_⟩
    · rw [hlen]
      change _+4 ≤ _
      omega
    · rw [List.drop_left, List.take_left]
  exact ⟨front.length, by omega, by omega, hocc⟩

/-- The search for the end record subtracts without wrapping around and ends, and it
finds the record exactly when its signature starts in the window. A record that
ends the buffer is found with every comment. -/
theorem end_record_search (data : Bytes) (hsize : data.length < 2^64) (h22 : 22 ≤ data.length)
    (hmagic : OccursAt data 0 zipLocalHeader) :
    PlainSubtractions data ∧
    (∀ fuel, data.length < fuel → ∃ v, zipFileValidator data fuel = .ok v ∧
      (v.outcome = .validates ↔ ∃ i, data.length-65558 ≤ i ∧ i ≤ data.length-22 ∧
        OccursAt data i zipEocd)) ∧
    ∀ front fields comment, fields.length = 18 → comment.length ≤ 65535 →
      data = front++(zipEocd++(fields++comment)) → ∀ fuel, data.length < fuel →
        ∃ v, zipFileValidator data fuel = .ok v ∧ v.outcome = .validates := by
  have hanswers := search_answers data hsize h22 hmagic
  rw [searchStart_eq data hsize] at hanswers
  refine ⟨plain_subtractions data hsize h22, hanswers, ?_⟩
  intro front fields comment hfields hcomment hdata fuel hfuel
  obtain ⟨v, hv, hiff⟩ := hanswers fuel hfuel
  refine ⟨v, hv, hiff.mpr ?_⟩
  rw [hdata]
  exact record_within front fields comment hfields hcomment

theorem end_record_found : ∃ v,
    zipFileValidator (zipLocalHeader++(zipEocd++List.replicate 18 0)) 27 = .ok v ∧
      v.outcome = .validates :=
  (end_record_search (zipLocalHeader++(zipEocd++List.replicate 18 0)) (by decide) (by decide)
    (by decide)).2.2 zipLocalHeader (List.replicate 18 0) [] rfl (by decide) rfl 27 (by decide)

end EraseCure.EndRecords
