import EraseCure.AuditSessions

/-!
# Lines of an untouched log

The writer prints strings as they are. A newline in a string cuts the line in
two pieces of which only one can hold the hash key, and without quotes the
reader accepts an untouched log exactly when no string holds a newline.
-/

set_option autoImplicit false

namespace EraseCure.AuditFraming
open EraseCure.CText EraseCure.TextSearch EraseCure.LinkedRuns
open EraseCure.AuditRecords EraseCure.AuditLog EraseCure.AuditLines EraseCure.AuditSessions
open EraseCure.Hashing

theorem split_logText (t : Text) : logText (t.splitOn '\n') = t++['\n'] := by
  induction t with
  | nil => rfl
  | cons c t ih =>
    obtain ⟨p, ps, hp⟩ := List.exists_cons_of_ne_nil (List.splitOn_ne_nil '\n' t)
    rw [hp, logText_cons] at ih
    rw [List.splitOn_cons_eq_if_modifyHead, hp]
    split
    · rename_i hc
      obtain rfl := eq_of_beq hc
      rw [logText_cons, logText_cons, ih]
      rfl
    · rw [List.modifyHead_cons, logText_cons, List.cons_append, ih]
      rfl

theorem split_newline (t p : Text) (hp : p ∈ t.splitOn '\n') : '\n' ∉ p := by
  induction t generalizing p with
  | nil =>
    obtain rfl : p = [] := by simpa using hp
    simp
  | cons c t ih =>
    obtain ⟨q, qs, hq⟩ := List.exists_cons_of_ne_nil (List.splitOn_ne_nil '\n' t)
    rw [List.splitOn_cons_eq_if_modifyHead, hq] at hp
    rw [hq] at ih
    split at hp
    · rcases List.mem_cons.mp hp with rfl | hp
      · simp
      · exact ih p hp
    · rename_i hc
      rcases List.mem_cons.mp hp with rfl | hp
      · have hne : '\n' ≠ c := fun he => hc (beq_iff_eq.mpr he.symm)
        simp [hne, ih q (by simp)]
      · exact ih p (by simp [hp])

theorem logText_first (p : Text) (ps : List Text) : ∃ u, logText (p::ps) = p++u++['\n'] := by
  rcases List.eq_nil_or_concat ps with rfl | ⟨qs, q, rfl⟩
  · exact ⟨[], by simp [logText]⟩
  · exact ⟨'\n'::(logText qs++q), by simp [logText]⟩

theorem split_within (t p : Text) (hp : p ∈ t.splitOn '\n') : p <:+: t := by
  obtain ⟨a, b, hab⟩ := List.append_of_mem hp
  obtain ⟨u, hu⟩ := logText_first p b
  have ht := split_logText t
  rw [hab, logText_append, hu, ← List.append_assoc] at ht
  exact ⟨logText a, u, by simpa using (List.append_cancel_right ht)⟩

theorem split_mem (t : Text) (c : Char) (hc : c ∈ t) (hn : c ≠ '\n') :
    ∃ p ∈ t.splitOn '\n', c ∈ p := by
  have hm : c ∈ logText (t.splitOn '\n') := by
    rw [split_logText]
    simp [hc]
  obtain ⟨p, hp, hcp⟩ := List.mem_flatMap.mp hm
  exact ⟨p, hp, by simpa [hn] using hcp⟩

/-- The non-empty pieces of the lines, cut at the newlines inside them. -/
def pieces (log : List AuditRecord) : List Text :=
  (log.flatMap (fun r => (auditRecordJson r).splitOn '\n')).filter (fun p => p ≠ [])

theorem pieces_logText (lines : List Text) :
    logText (lines.flatMap (fun l => l.splitOn '\n')) = logText lines := by
  induction lines with
  | nil => rfl
  | cons l ls ih =>
    rw [List.flatMap_cons, logText_append, split_logText, ih, logText_cons]
    simp

/-- No record is longer than the reader's buffer, so its entries are the pieces. -/
theorem untouched_entries (log : List AuditRecord) :
    fileEntries (logText (log.map auditRecordJson)) = pieces log := by
  have hread : ∀ p ∈ log.flatMap (fun r => (auditRecordJson r).splitOn '\n'), Readable p := by
    intro p hp
    obtain ⟨r, _, hpr⟩ := List.mem_flatMap.mp hp
    have hinf := split_within _ p hpr
    refine ⟨split_newline _ p hpr, fun hz => json_nul r (hinf.subset hz), ?_⟩
    exact hinf.length_le.trans ((json_length r).trans (by decide))
  have he := entries_logText _ [] hread
  have hmap : log.flatMap (fun r => (auditRecordJson r).splitOn '\n') =
      (log.map auditRecordJson).flatMap (fun l => l.splitOn '\n') := by
    rw [List.flatMap_map]
  rw [List.append_nil] at he
  rw [← pieces_logText, ← hmap, he, pieces]
  simp [fileEntries, fileLines_nil, entries]

theorem brace_piece (text : Field → Text) : ∃ p ∈ (jsonLine text).splitOn '\n', p ≠ [] := by
  have hb : '{' ∈ jsonLine text := by
    refine List.mem_append_left _ ((mem_spell _ _ _ _).mpr ⟨.hashed .caseId, by decide, ?_⟩)
    exact Or.inl (by decide)
  obtain ⟨p, hp, hm⟩ := split_mem _ '{' hb (by decide)
  exact ⟨p, hp, List.ne_nil_of_mem hm⟩

theorem pieces_nil (log : List AuditRecord) : pieces log = [] ↔ log = [] := by
  constructor
  · intro h
    by_contra hne
    obtain ⟨r, rs, rfl⟩ := List.exists_cons_of_ne_nil hne
    obtain ⟨p, hp, hpn⟩ := brace_piece (jsonText r)
    have hall := List.filter_eq_nil_iff.mp h p
      (List.mem_flatMap.mpr ⟨r, by simp, hp⟩)
    simp [hpn] at hall
  · rintro rfl
    rfl

/-- A newline leaves non-empty pieces on both sides, and one of them lacks the
hash key. -/
theorem newline_breaks (text : Field → Text) (hq : QuoteFree text)
    (hn : '\n' ∈ jsonLine text) :
    ∃ p ∈ (jsonLine text).splitOn '\n', p ≠ [] ∧ ¬ hashKey <:+: p := by
  obtain ⟨x, y, hxy, hx⟩ := List.eq_append_cons_of_mem hn
  have hsplit : (jsonLine text).splitOn '\n' = x::y.splitOn '\n' := by
    rw [hxy, List.splitOn_append_cons_self_of_not_mem hx]
  by_cases hk : hashKey <:+: x
  · have hy : '}' ∈ y := by
      have hlast : (jsonLine text).getLast? = some '}' := by
        rw [jsonLine, List.getLast?_append]
        rfl
      have hm : '}' ∈ '\n'::y := by
        rw [hxy, List.getLast?_append_of_ne_nil x (by simp)] at hlast
        exact List.mem_of_getLast? hlast
      simpa using hm
    obtain ⟨p, hp, hm⟩ := split_mem y '}' hy (by decide)
    refine ⟨p, by simp [hsplit, hp], List.ne_nil_of_mem hm, fun hkp => ?_⟩
    have honce := hash_once text hq x ('\n'::y) hxy hk
    exact honce (List.infix_cons (hkp.trans (split_within y p hp)))
  · refine ⟨x, by simp [hsplit], ?_, hk⟩
    rintro rfl
    have hhead : (jsonLine text).head? = some '{' := rfl
    rw [hxy] at hhead
    simp at hhead

theorem untouched_verdict (log : List AuditRecord) :
    auditLogValidateChain (some (logText (log.map auditRecordJson))) =
        (.ok, if log = [] then .empty else .valid) ↔
      Chained (pieces log) := by
  by_cases hl : log = []
  · subst hl
    simp only [pieces, Chained, Linked, List.map_nil, List.flatMap_nil, List.filter_nil,
      List.isChain_nil, List.not_mem_nil, false_implies, implies_true, and_self, if_true, iff_true]
    rfl
  · have hv := validate_entries (logText (log.map auditRecordJson))
    rw [untouched_entries] at hv
    rw [if_neg hl]
    rcases hv (fun h => hl ((pieces_nil log).mp h)) with ⟨hr, hc⟩ | ⟨hr, hc⟩ <;> simp [hr, hc]

theorem sealed_avoids (evp : Evp) (log : List AuditRecord) (hs : Sealed evp [] log) (c : Char)
    (hc : ¬ PlainChar c) (r : AuditRecord) (hr : r ∈ log) (hstr : ∀ t ∈ stringFields r, c ∉ t)
    (f : Field) : c ∉ jsonText r f := by
  refine text_avoids r c hc (fun t ht hm => ?_) f
  rcases List.mem_append.mp ht with ht | ht
  · exact hstr t ht hm
  · exact hc ((sealed_hash evp [] log (by simp [Plain]) hs r hr).1 t ht c hm)

theorem string_written (r : AuditRecord) (t : Text) (ht : t ∈ stringFields r) (c : Char)
    (hc : c ∈ t) : c ∈ auditRecordJson r := by
  have hf : ∃ f ∈ jsonOrder, jsonText r f = t := by
    simp only [stringFields, List.mem_cons, List.not_mem_nil, or_false] at ht
    rcases ht with rfl | rfl | rfl | rfl | rfl | rfl | rfl | rfl | rfl | rfl
    · exact ⟨.hashed .caseId, by decide, rfl⟩
    · exact ⟨.hashed .operationId, by decide, rfl⟩
    · exact ⟨.deviceId, by decide, rfl⟩
    · exact ⟨.hashed .devicePath, by decide, rfl⟩
    · exact ⟨.hashed .deviceModel, by decide, rfl⟩
    · exact ⟨.hashed .deviceSerial, by decide, rfl⟩
    · exact ⟨.hashed .appVersion, by decide, rfl⟩
    · exact ⟨.hashed .preHashSha256, by decide, rfl⟩
    · exact ⟨.hashed .postHashSha256, by decide, rfl⟩
    · exact ⟨.notes, by decide, rfl⟩
  obtain ⟨f, hf, rfl⟩ := hf
  exact List.mem_append_left _ ((mem_spell _ _ _ _).mpr ⟨f, hf, Or.inr hc⟩)

theorem quoteFree_chained (evp : Evp) (log : List AuditRecord) (hs : Sealed evp [] log)
    (hq : ∀ r ∈ log, ∀ t ∈ stringFields r, '"' ∉ t) :
    Chained (pieces log) ↔ ∀ r ∈ log, ∀ t ∈ stringFields r, '\n' ∉ t := by
  have hquote : ∀ r ∈ log, QuoteFree (jsonText r) := fun r hr f =>
    sealed_avoids evp log hs '"' (by decide) r hr (hq r hr) f
  constructor
  · intro hc r hr t ht hn
    obtain ⟨p, hp, hne, hkey⟩ := newline_breaks (jsonText r) (hquote r hr)
      (string_written r t ht _ hn)
    have hm : p ∈ pieces log :=
      List.mem_filter.mpr ⟨List.mem_flatMap.mpr ⟨r, hr, hp⟩, by simpa using hne⟩
    have hlen := hc.1 p hm
    simp [missing_hash p hkey] at hlen
  · intro hn
    have hline : ∀ r ∈ log, (auditRecordJson r).splitOn '\n' = [auditRecordJson r] := by
      refine fun r hr => List.splitOn_eq_singleton fun hm => ?_
      obtain ⟨f, hf⟩ := line_char _ '\n' (by decide) hm
      exact sealed_avoids evp log hs '\n' (by decide) r hr (hn r hr) f hf
    have hpieces : pieces log = log.map auditRecordJson := by
      rw [pieces, List.flatMap_congr hline, ← List.map_eq_flatMap, List.filter_eq_self]
      intro l hl
      obtain ⟨r, _, rfl⟩ := List.mem_map.mp hl
      exact decide_eq_true (line_nonempty (jsonText r))
    rw [hpieces]
    exact sealed_chained evp log hs hquote

/-- An untouched log is accepted exactly when the pieces of its lines form a
chain. Without quotes this means that no string holds a newline. -/
theorem untouched_valid_iff (evp : Evp) (rs log : List AuditRecord) (file : Text)
    (hs : auditSession evp [] [] rs = some (log, file)) :
    (auditLogValidateChain (some file) = (.ok, if rs = [] then .empty else .valid) ↔
        Chained (pieces log)) ∧
      ((∀ r ∈ rs, ∀ t ∈ stringFields r, '"' ∉ t) →
        (auditLogValidateChain (some file) = (.ok, if rs = [] then .empty else .valid) ↔
          ∀ r ∈ rs, ∀ t ∈ stringFields r, '\n' ∉ t)) := by
  obtain ⟨hfile, hseal, hstr⟩ := session_spec evp [] [] rs log file (by simp) (by simp) hs
  have hnil : rs = [] ↔ log = [] := by
    have := congrArg List.length hstr
    simp only [List.length_map] at this
    rw [← List.length_eq_zero_iff, ← List.length_eq_zero_iff, this]
  have hv := untouched_verdict log
  rw [← List.nil_append (logText _), ← hfile] at hv
  simp only [hnil]
  refine ⟨hv, fun hq => hv.trans ?_⟩
  rw [← strings_kept rs log hstr (fun t => '\n' ∉ t)]
  exact quoteFree_chained evp log hseal ((strings_kept rs log hstr (fun t => '"' ∉ t)).mpr hq)

theorem untouched_valid_repeated :
    auditLogValidateChain (some (logText
      ([tamperTestFirst, tamperTestSecond].map auditRecordJson))) = (.ok, .valid) :=
  ((untouched_valid_iff tamperTestEvp [tamperTest, tamperTest] [tamperTestFirst, tamperTestSecond]
    _ tamperTest_repeated).2 (by decide)).mpr (by decide)

def UntouchedAccepted : Prop :=
  ∀ (evp : Evp) (rs log : List AuditRecord) (file : Text),
    auditSession evp [] [] rs = some (log, file) →
    auditLogValidateChain (some file) = (.ok, if rs = [] then .empty else .valid)

def brokenCase : AuditRecord :=
  { auditRecordInit with caseId := printed64 "TEST\nCASE".toList }

def brokenCaseDigest : Digest :=
  #v[0x36, 0x98, 0x84, 0xbe, 0xb9, 0x00, 0xa3, 0x4a, 0x01, 0x04, 0x0d, 0x71, 0x09, 0xa0, 0xb1,
     0x46, 0x11, 0xb0, 0x77, 0xf0, 0x9a, 0xc4, 0x87, 0x67, 0x60, 0x05, 0x36, 0x9c, 0x72, 0x6e,
     0x6f, 0xbd]

def brokenCaseFinal : AuditRecord :=
  { brokenCase with
    thisRecordHash := printed65 (hashDigestToHex brokenCaseDigest) }

/-- A newline in the case id makes the reader report an untouched log as
tampered. -/
theorem newline_rejected : ¬ UntouchedAccepted := by
  intro h
  have hrun : auditSession (tableEvp [(canonical brokenCase, brokenCaseDigest)]) [] []
        [brokenCase] = some ([brokenCaseFinal], logText [auditRecordJson brokenCaseFinal]) ∧
      auditLogValidateChain (some (logText [auditRecordJson brokenCaseFinal])) ≠ (.ok, .valid) := by
    decide +kernel
  have hok := h (tableEvp [(canonical brokenCase, brokenCaseDigest)]) [brokenCase]
    [brokenCaseFinal] (logText [auditRecordJson brokenCaseFinal]) hrun.1
  exact hrun.2 hok

end EraseCure.AuditFraming
