import EraseCure.AuditLog

/-!
# What the reader finds in a written line

Values without quotes cannot imitate a key, so both searches stop at the label
of their field. Every record fits the buffers of the writer and the reader.
-/

set_option autoImplicit false

namespace EraseCure.AuditLines
open EraseCure.CText EraseCure.TextSearch
open EraseCure.AuditRecords EraseCure.AuditLog

def QuoteFree (text : Field → Text) : Prop := ∀ f, '"' ∉ text f

/-- The search for a key that closes a label passes all earlier fields. -/
theorem search_field (body : Text) (text : Field → Text) (before after : List Field)
    (f : Field) (hb : '"' ∉ body) (hq : QuoteFree text)
    (ho : jsonOrder = before++f::after)
    (hl : jsonLabel f = "\",".toList++('"'::body++"\":\"".toList))
    (hs : ∀ s ∈ ("\",".toList).tails, s = [] ∨ Apart s ('"'::body++"\":\"".toList))
    (hc : List.IsChain (Clears '"' body ":\"".toList) (before.map jsonLabel++[jsonLabel f])) :
    search ('"'::body++"\":\"".toList) (jsonLine text) =
      some ('"'::body++"\":\"".toList++(text f++spell jsonLabel text after++jsonEnd)) := by
  have hskip := search_spell '"' body ":\"".toList jsonLabel text before (jsonLabel f)
    (text f++spell jsonLabel text after++jsonEnd) hb (fun g _ => hq g) hc
  have hline : jsonLine text = spell jsonLabel text before++
      (jsonLabel f++(text f++spell jsonLabel text after++jsonEnd)) := by
    simp [jsonLine, ho, spell_append, spell]
  rw [hline]
  apply hskip.trans
  rw [hl, List.append_assoc, search_skip]
  · exact search_begins _ _ (by simp)
  · intro s hne hsuf hk
    rcases hs s ((List.mem_tails _ _).mpr hsuf) with h | h
    · exact hne h
    · exact apart_append s _ _ h hk

theorem readTag_field (t more : Text) (h : '"' ∉ t) :
    readTag (t ++ '"'::more) = t.take 64 := by
  have ht : (t ++ '"'::more).takeWhile (fun c => c ≠ '"') = t := by
    rw [List.takeWhile_append_of_pos]
    · simp
    · intro c hc
      have : c ≠ '"' := fun he => h (he ▸ hc)
      simpa using this
  rw [readTag, ht]

def beforeHash : List Field := jsonOrder.take 22

def beforePrev : List Field := jsonOrder.take 21

theorem keys_clear :
    List.IsChain (Clears '"' "this_record_hash".toList ":\"".toList)
        (beforeHash.map jsonLabel++[jsonLabel .thisRecordHash]) ∧
      List.IsChain (Clears '"' "previous_record_hash".toList ":\"".toList)
        (beforePrev.map jsonLabel++[jsonLabel (.hashed .previousRecordHash)]) := by
  -- the kernel is slow at `toList` of a literal, so the literals go first
  delta beforeHash beforePrev jsonOrder jsonLabel
  dsimp only [List.map, List.take, -String.reduceToList]
  repeat rw [String.toList_ofList]
  decide

theorem search_hash (text : Field → Text) (hq : QuoteFree text) :
    search hashKey (jsonLine text) = some (hashKey++
      (text .thisRecordHash++spell jsonLabel text [.notes]++jsonEnd)) :=
  search_field "this_record_hash".toList text beforeHash [.notes] .thisRecordHash
    (by decide) hq rfl rfl (by decide) keys_clear.1

theorem search_prev (text : Field → Text) (hq : QuoteFree text) :
    search prevKey (jsonLine text) = some (prevKey++
      (text (.hashed .previousRecordHash)++
        spell jsonLabel text [.thisRecordHash, .notes]++jsonEnd)) :=
  search_field "previous_record_hash".toList text beforePrev [.thisRecordHash, .notes]
    (.hashed .previousRecordHash) (by decide) hq rfl rfl (by decide) keys_clear.2

theorem line_hash (text : Field → Text) (hq : QuoteFree text) :
    storedHash (jsonLine text) = (text .thisRecordHash).take 64 := by
  rw [storedHash, tagAfter, search_hash text hq]
  simp only [Option.map_some, Option.getD_some, List.drop_left, List.append_assoc]
  exact readTag_field _ _ (hq _)

theorem line_prev (text : Field → Text) (hq : QuoteFree text) :
    storedPrev (jsonLine text) = (text (.hashed .previousRecordHash)).take 64 := by
  rw [storedPrev, tagAfter, search_prev text hq]
  simp only [Option.map_some, Option.getD_some, List.drop_left, List.append_assoc]
  exact readTag_field _ _ (hq _)

/-- The hash key occurs once, so no second piece of a line can hold it. -/
theorem hash_once (text : Field → Text) (hq : QuoteFree text) (x y : Text)
    (h : jsonLine text = x++y) (hx : hashKey <:+: x) : ¬ hashKey <:+: y := by
  refine sole_occurrence hashKey _ _ x y (search_hash text hq) ?_ h hx
  rw [List.drop_left, ← search_none_iff]
  have h1 := search_label '"' "this_record_hash".toList ":\"".toList [] (text .thisRecordHash)
    (jsonLabel .notes) (text .notes++jsonEnd) (by decide) (hq _) (by simp [Clears])
  have h2 := search_label '"' "this_record_hash".toList ":\"".toList (jsonLabel .notes)
    (text .notes) jsonEnd [] (by decide) (hq _) (by decide)
  have h3 : search hashKey (jsonEnd++[]) = none := by decide
  rw [← h3]
  refine Eq.trans ?_ (h1.trans (Eq.trans ?_ h2))
  · congr 1
    simp [spell]
  · simp

theorem missing_hash (line : Text) (h : ¬ hashKey <:+: line) : storedHash line = [] := by
  rw [storedHash, tagAfter, (search_none_iff hashKey line).mpr h]
  rfl

def stringFields (r : AuditRecord) : List Text :=
  [r.caseId.chars, r.operationId.chars, r.deviceId.chars, r.devicePath.chars,
   r.deviceModel.chars, r.deviceSerial.chars, r.appVersion.chars, r.preHashSha256.chars,
   r.postHashSha256.chars, r.notes.chars]

def hashFields (r : AuditRecord) : List Text :=
  [r.previousRecordHash.chars, r.thisRecordHash.chars]

theorem twoDigits_plain (n : ℕ) : Plain (twoDigits n) := by
  intro c hc
  simp only [twoDigits, List.mem_cons, List.not_mem_nil, or_false] at hc
  rcases hc with rfl | rfl <;> exact digitChar_plain _

theorem timestamp_plain (ts : Int64) : Plain (timestampToIso8601 ts) := by
  simp only [timestampToIso8601]
  split
  · have hsep : ∀ c : Char, c = '-' ∨ c = 'T' ∨ c = ':' ∨ c = 'Z' → PlainChar c := by
      rintro c (rfl | rfl | rfl | rfl) <;> decide
    intro c hc
    simp only [List.mem_append, List.mem_cons, List.not_mem_nil, or_false] at hc
    rcases hc with (((((h | h | h) | h | h) | h | h) | h | h) | h | h) | h
    all_goals first
      | exact signed_plain _ c h
      | exact twoDigits_plain _ c h
      | exact hsep c (by simp [h])
  · decide

/-- A character of a written value belongs to a string of the record or is
plain. -/
theorem jsonText_char (r : AuditRecord) (f : Field) (c : Char) (hc : c ∈ jsonText r f) :
    PlainChar c ∨ ∃ t ∈ stringFields r++hashFields r, c ∈ t := by
  cases f with
  | hashed f =>
    cases f with
    | caseId | operationId | devicePath | deviceModel | deviceSerial | preHashSha256
    | postHashSha256 | appVersion | previousRecordHash =>
      exact Or.inr ⟨_, by simp [stringFields, hashFields, jsonText, canonicalText], hc⟩
    | sequenceNumber | deviceCapacityBytes | passes => exact Or.inl (decimal_plain _ c hc)
    | deviceType | transportType | method | pattern | sanitizationResult
    | verificationResultCode => exact Or.inl (signed_plain _ c hc)
    | startTime | endTime => exact Or.inl (timestamp_plain _ c hc)
    | verificationPassed =>
      have ht : Plain "true".toList ∧ Plain "false".toList := by decide
      simp only [jsonText] at hc
      split at hc
      · exact Or.inl (ht.1 c hc)
      · exact Or.inl (ht.2 c hc)
  | deviceId | thisRecordHash | notes =>
    exact Or.inr ⟨_, by simp [stringFields, hashFields, jsonText], hc⟩

/-- Room for the text of a field: the array behind a string, or the digits of
the widest number. -/
def textBound : Field → ℕ
  | .hashed .caseId | .hashed .operationId | .hashed .deviceModel
  | .hashed .deviceSerial => 63
  | .hashed .devicePath | .deviceId => 255
  | .hashed .preHashSha256 | .hashed .postHashSha256 | .hashed .previousRecordHash
  | .thisRecordHash => 64
  | .hashed .appVersion => 31
  | .notes => 511
  | _ => 30

theorem string_length {cap : ℕ} (s : CString cap) (n : ℕ) (h : cap = n+1) :
    s.chars.length ≤ n := by
  have := s.fits
  omega

theorem int32_text (n : Int32) : (signedDecimal n.toInt).length ≤ 30 := by
  have h1 := n.le_toInt
  have h2 := n.toInt_lt
  exact (signed_length _ 20 (by decide) (by omega)).trans (by decide)

theorem int64_text (n : Int64) : (signedDecimal n.toInt).length ≤ 30 := by
  have h1 := n.le_toInt
  have h2 := n.toInt_lt
  exact (signed_length _ 20 (by decide) (by omega)).trans (by decide)

theorem uint64_text (n : UInt64) : (decimal n.toNat).length ≤ 30 :=
  (decimal_length _ 20 (by decide) (by have := n.toNat_lt; omega)).trans (by decide)

theorem uint32_text (n : UInt32) : (decimal n.toNat).length ≤ 30 :=
  (decimal_length _ 20 (by decide) (by have := n.toNat_lt; omega)).trans (by decide)

theorem timestamp_length (ts : Int64) : (timestampToIso8601 ts).length ≤ 30 := by
  simp only [timestampToIso8601]
  split
  · rename_i hy
    have := signed_length (civilDate (ts.toInt/86400)).1 10 (by decide) (by omega)
    simp only [List.length_append, List.length_cons, List.length_nil, twoDigits]
    omega
  · decide

theorem canonicalText_length (r : AuditRecord) (f : HashedField) :
    (canonicalText r f).length ≤ textBound (.hashed f) := by
  cases f with
  | caseId | operationId | devicePath | deviceModel | deviceSerial | preHashSha256
  | postHashSha256 | appVersion | previousRecordHash => exact string_length _ _ rfl
  | sequenceNumber | deviceCapacityBytes => exact uint64_text _
  | passes => exact uint32_text _
  | deviceType | transportType | method | pattern | sanitizationResult
  | verificationResultCode => exact int32_text _
  | startTime | endTime => exact int64_text _
  | verificationPassed =>
    simp only [canonicalText]
    split <;> decide

theorem jsonText_length (r : AuditRecord) (f : Field) :
    (jsonText r f).length ≤ textBound f := by
  cases f with
  | hashed f =>
    have h := canonicalText_length r f
    cases f with
    | startTime | endTime => exact timestamp_length _
    | verificationPassed =>
      simp only [jsonText]
      split <;> decide
    | _ => exact h
  | deviceId | thisRecordHash | notes => exact string_length _ _ rfl

theorem spell_length {ι : Type*} (label text : ι → Text) (bound : ι → ℕ) (fs : List ι)
    (h : ∀ f, (text f).length ≤ bound f) :
    (spell label text fs).length ≤ (fs.map (fun f => (label f).length+bound f)).sum := by
  induction fs with
  | nil => exact Nat.le_refl _
  | cons f fs ih =>
    have := h f
    simp only [spell, List.length_append, List.map_cons, List.sum_cons]
    omega

/-- The canonical buffer never overflows. -/
theorem canonical_length (r : AuditRecord) : (canonical r).length < 4096 :=
  (spell_length canonicalLabel (canonicalText r) (fun f => textBound (.hashed f)) canonicalOrder
    (canonicalText_length r)).trans_lt (by decide)

theorem json_length (r : AuditRecord) : (auditRecordJson r).length ≤ 4000 := by
  have h := spell_length jsonLabel (jsonText r) textBound jsonOrder (jsonText_length r)
  have hb : (jsonOrder.map (fun f => (jsonLabel f).length+textBound f)).sum ≤ 3990 := by
    decide
  have he : jsonEnd.length = 2 := rfl
  simp only [auditRecordJson, jsonLine, List.length_append]
  omega

end EraseCure.AuditLines
