import EraseCure.AuditSessions

/-!
# Edited fields of an honest log

The value of one hashed field is replaced in one line. The reader compares
stored hashes only, so it notices an edit of the back link of a later record
and an edit that makes the line longer than its buffer, and no other edit.
-/

set_option autoImplicit false

namespace EraseCure.AuditEdits
open EraseCure.CText EraseCure.LinkedRuns
open EraseCure.AuditRecords EraseCure.AuditLog EraseCure.AuditLines EraseCure.AuditSessions
open EraseCure.Hashing

def editedLine (r : AuditRecord) (f : HashedField) (t : Text) : Text :=
  jsonLine (Function.update (jsonText r) (.hashed f) t)

def editedLog (log : List AuditRecord) (i : ℕ) (hi : i < log.length) (f : HashedField)
    (t : Text) : Text :=
  logText ((log.map auditRecordJson).set i (editedLine log[i] f t))

theorem edited_plain (r : AuditRecord) (hr : ∀ f, Plain (jsonText r f)) (f : HashedField)
    (t : Text) (ht : Plain t) (g : Field) :
    Plain (Function.update (jsonText r) (.hashed f) t g) := by
  by_cases hg : g = .hashed f
  · simpa [hg] using ht
  · simpa [hg] using hr g

theorem edited_hash (r : AuditRecord) (hr : ∀ f, Plain (jsonText r f)) (f : HashedField)
    (t : Text) (ht : Plain t) :
    storedHash (editedLine r f t) = storedHash (auditRecordJson r) := by
  have hq : QuoteFree (jsonText r) := fun g => plain_quote _ (hr g)
  rw [editedLine, line_hash _ (fun g => plain_quote _ (edited_plain r hr f t ht g)),
    auditRecordJson, line_hash _ hq]
  simp

theorem edited_prev (r : AuditRecord) (hr : ∀ f, Plain (jsonText r f)) (f : HashedField)
    (t : Text) (ht : Plain t) :
    storedPrev (editedLine r f t) =
      if f = .previousRecordHash then t.take 64 else storedPrev (auditRecordJson r) := by
  have hq : QuoteFree (jsonText r) := fun g => plain_quote _ (hr g)
  rw [editedLine, line_prev _ (fun g => plain_quote _ (edited_plain r hr f t ht g)),
    auditRecordJson, line_prev _ hq]
  by_cases hf : f = .previousRecordHash
  · simp [hf]
  · have : Field.hashed .previousRecordHash ≠ .hashed f := fun he => hf (Field.hashed.inj he).symm
    simp [hf, this]

/-- A log with an overlong line is never chained: the key stands in one of the
two pieces only. -/
theorem overlong_detected (before after : List Text) (text : Field → Text)
    (hb : ∀ l ∈ before, Readable l) (hp : ∀ f, Plain (text f))
    (hl : 8191 < (jsonLine text).length) :
    auditLogValidateChain (some (logText (before++jsonLine text::after))) =
      (.ok, .tampered) := by
  have hn : '\n' ∉ jsonLine text := fun hc => by
    obtain ⟨f, hf⟩ := line_char text '\n' (by decide) hc
    exact plain_newline _ (hp f) hf
  have hz : nul ∉ jsonLine text := fun hc => by
    obtain ⟨f, hf⟩ := line_char text nul (by decide) hc
    exact plain_nul _ (hp f) hf
  obtain ⟨e, es, he, hinf⟩ := entries_long (jsonLine text) (logText after) hn hz hl
  rw [validate_tampered, logText_append, logText_cons, entries_logText before _ hb, he]
  refine ⟨by simp, fun hc => ?_⟩
  have hfirst : (storedHash ((jsonLine text).take 8191)).length = 64 := hc.1 _ (by simp)
  have hsecond : (storedHash e).length = 64 := hc.1 e (by simp)
  have hkey : hashKey <:+: (jsonLine text).take 8191 := by
    by_contra hk
    simp [missing_hash _ hk] at hfirst
  have honce := hash_once text (fun f => plain_quote _ (hp f)) _ _
    (List.take_append_drop 8191 (jsonLine text)).symm hkey
  have hmiss : ¬ hashKey <:+: e := fun hk => honce (hk.trans hinf)
  simp [missing_hash e hmiss] at hsecond

theorem edited_chained (evp : Evp) (log : List AuditRecord) (h : Honest evp log) (i : ℕ)
    (hi : i < log.length) (f : HashedField) (t : Text) (ht : Plain t) :
    Chained ((log.map auditRecordJson).set i (editedLine log[i] f t)) ↔
      (0 < i → f = .previousRecordHash → t.take 64 = log[i].previousRecordHash.chars) := by
  have hm : log[i] ∈ log := List.getElem_mem hi
  have hr : ∀ g, Plain (jsonText log[i] g) := honest_text evp log h _ hm
  obtain ⟨horig, hlink⟩ := honest_chained evp log h
  have hlen : ∀ l ∈ (log.map auditRecordJson).set i (editedLine log[i] f t),
      (storedHash l).length = 64 := by
    intro l hl
    rcases List.mem_or_eq_of_mem_set hl with hl | rfl
    · exact horig l hl
    · rw [edited_hash log[i] hr f t ht]
      exact horig _ (List.mem_map_of_mem hm)
  have htag : storedHash (editedLine log[i] f t) =
      storedHash ((log.map auditRecordJson).get ⟨i, by simpa using hi⟩) := by
    rw [List.get_eq_getElem, List.getElem_map]
    exact edited_hash log[i] hr f t ht
  have hprev := (record_tags log[i] (honest_quoteFree evp log h _ hm)).2
  rw [Chained, and_iff_right hlen,
    linked_set storedHash storedPrev _ hlink i (by simpa using hi) _ htag,
    List.getElem_map, edited_prev log[i] hr f t ht, hprev]
  by_cases hf : f = .previousRecordHash <;> simp [hf]

theorem edit_verdict (evp : Evp) (log : List AuditRecord) (h : Honest evp log) (i : ℕ)
    (hi : i < log.length) (f : HashedField) (t : Text) (ht : Plain t) :
    auditLogValidateChain (some (editedLog log i hi f t)) = (.ok, .tampered) ↔
      8191 < (editedLine log[i] f t).length ∨
        f = .previousRecordHash ∧ 0 < i ∧ t.take 64 ≠ log[i].previousRecordHash.chars := by
  have hr : ∀ g, Plain (jsonText log[i] g) := honest_text evp log h _ (List.getElem_mem hi)
  have hplain := edited_plain log[i] hr f t ht
  have hi' : i < (log.map auditRecordJson).length := by simpa using hi
  have hread : ∀ l ∈ log.map auditRecordJson, Readable l ∧ l ≠ [] := honest_line evp log h
  by_cases hl : 8191 < (editedLine log[i] f t).length
  · have hlong := overlong_detected ((log.map auditRecordJson).take i)
      ((log.map auditRecordJson).drop (i+1)) _ (fun l hm => (hread l (List.mem_of_mem_take hm)).1)
      hplain hl
    rw [editedLog, List.set_eq_take_append_cons_drop, if_pos hi']
    exact ⟨fun _ => Or.inl hl, fun _ => hlong⟩
  · have hset : ∀ l ∈ (log.map auditRecordJson).set i (editedLine log[i] f t),
        Readable l ∧ l ≠ [] := by
      intro l hm
      rcases List.mem_or_eq_of_mem_set hm with hm | rfl
      · exact hread l hm
      · exact ⟨plain_readable _ hplain (Nat.le_of_not_lt hl), line_nonempty _⟩
    have hne : (log.map auditRecordJson).set i (editedLine log[i] f t) ≠ [] :=
      List.ne_nil_of_mem (List.mem_set hi' _)
    have hc := edited_chained evp log h i hi f t ht
    rw [editedLog]
    rcases readable_verdict _ hset hne with ⟨hv, hk⟩ | ⟨hv, hk⟩
    · have hcond := hc.mp hk
      simp only [hv, Prod.mk.injEq, reduceCtorEq, and_false, false_iff, not_or, hl,
        not_false_eq_true, true_and]
      exact fun ⟨hf, hpos, hd⟩ => hd (hcond hpos hf)
    · have hcond := fun hall => hk (hc.mpr hall)
      simp only [hv, true_iff]
      by_contra hno
      exact hcond fun hpos hf => by_contra fun hd => hno (Or.inr ⟨hf, hpos, hd⟩)

/-- An edit of one hashed field of an honest log is reported exactly when it
changes the back link of a record that is not the first, or when the edited
line no longer fits the reader's buffer. -/
theorem edit_detected_iff (evp : Evp) (rs log : List AuditRecord) (file : Text)
    (hs : auditSession evp [] [] rs = some (log, file))
    (hp : ∀ r ∈ rs, ∀ s ∈ stringFields r, Plain s) :
    file = logText (log.map auditRecordJson) ∧
      ∀ (i : ℕ) (hi : i < log.length) (f : HashedField) (t : Text), Plain t →
        (auditLogValidateChain (some (editedLog log i hi f t)) = (.ok, .tampered) ↔
          8191 < (editedLine log[i] f t).length ∨
            f = .previousRecordHash ∧ 0 < i ∧
              t.take 64 ≠ log[i].previousRecordHash.chars) := by
  obtain ⟨hfile, hh⟩ := session_honest evp rs log file hs hp
  exact ⟨hfile, fun i hi f t ht => edit_verdict evp log hh i hi f t ht⟩

theorem edit_detected_back_link :
    auditLogValidateChain (some (editedLog [tamperTestFirst, tamperTestSecond] 1 (by decide)
      .previousRecordHash [])) = (.ok, .tampered) :=
  ((edit_detected_iff tamperTestEvp [tamperTest, tamperTest] [tamperTestFirst, tamperTestSecond]
    (logText ([tamperTestFirst, tamperTestSecond].map auditRecordJson)) tamperTest_repeated
    (by decide)).2 1 (by decide) .previousRecordHash [] (by decide)).mpr
    (Or.inr ⟨rfl, by decide, by decide⟩)

/-- Every edit of a hashed field is reported, the digest not colliding on the
texts hashed. -/
def EditsDetected : Prop :=
  ∀ (evp : Evp) (rs log : List AuditRecord) (file : Text),
    auditSession evp [] [] rs = some (log, file) →
    (∀ r ∈ rs, ∀ s ∈ stringFields r, Plain s) →
    Set.InjOn evp {x | ∃ r ∈ log, canonical r = x} →
    ∀ (i : ℕ) (hi : i < log.length) (f : HashedField) (t : Text), Plain t →
      t ≠ jsonText log[i] (.hashed f) →
      auditLogValidateChain (some (editedLog log i hi f t)) = (.ok, .tampered)

/-- The case id of the only record is edited, and the reader reports the log
as valid. -/
theorem case_id_undetected : ¬ EditsDetected := by
  intro h
  have hdet := h tamperTestEvp [tamperTest] [tamperTestFirst]
    (logText ([tamperTestFirst].map auditRecordJson)) tamperTest_session (by decide)
    (by simp) 0 (by decide) .caseId "TAMPER-TEST-MODIFIED".toList (by decide) (by decide)
  have hvalid : auditLogValidateChain (some (editedLog [tamperTestFirst] 0 (by decide) .caseId
      "TAMPER-TEST-MODIFIED".toList)) = (.ok, .valid) := by decide +kernel
  rw [hvalid] at hdet
  exact absurd hdet (by decide)

end EraseCure.AuditEdits
