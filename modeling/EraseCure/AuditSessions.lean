import EraseCure.AuditLines

/-!
# Honest audit sessions

A session finalises every record with the hash of the one before it and
appends it. Its log is the list of the JSON lines; its records are sealed in a
chain that starts from the empty hash.
-/

set_option autoImplicit false

namespace EraseCure.AuditSessions
open EraseCure.CText EraseCure.TextSearch EraseCure.LinkedRuns
open EraseCure.AuditRecords EraseCure.AuditLog EraseCure.AuditLines EraseCure.Hashing

/-- The previous hash of a sealed record is the given one and its own hash is
the digest of its canonical text. -/
def Seal (evp : Evp) (prev : Text) (r : AuditRecord) : Prop :=
  r.previousRecordHash.chars = prev ∧
    ∃ d, evp (canonical r) = .ok d ∧ r.thisRecordHash.chars = hashDigestToHex d

theorem finalize_digest (evp : Evp) (r final : AuditRecord) (prev : Text)
    (h : auditRecordFinalize evp r prev = (final, .ok)) :
    final.previousRecordHash = printed65 prev ∧
      (∃ d, evp (canonical final) = .ok d ∧
        final.thisRecordHash.chars = hashDigestToHex d) ∧
      stringFields final = stringFields r := by
  simp only [auditRecordFinalize] at h
  split at h
  · split at h
    · rename_i e he
      exact absurd (Prod.mk.inj h).2 (hash_error evp _ e he)
    · rename_i d hd
      obtain ⟨rfl, _⟩ := Prod.mk.inj h
      refine ⟨rfl, ⟨d, (hash_ok evp _ d).mp hd, ?_⟩, rfl⟩
      exact printed_chars 65 (Nat.succ_pos _) _ (plain_nul _ (hex_plain d))
        (by rw [hex_length]; decide)
  · exact absurd (Prod.mk.inj h).2 (by decide)

theorem finalize_seal (evp : Evp) (r final : AuditRecord) (prev : Text)
    (hn : nul ∉ prev) (hl : prev.length < 65)
    (h : auditRecordFinalize evp r prev = (final, .ok)) :
    Seal evp prev final ∧ stringFields final = stringFields r := by
  obtain ⟨hprev, hd, hstr⟩ := finalize_digest evp r final prev h
  refine ⟨⟨?_, hd⟩, hstr⟩
  rw [hprev]
  exact printed_chars 65 (Nat.succ_pos _) prev hn hl

/-- Every record is sealed with the hash of the one before it. -/
def Sealed (evp : Evp) : Text → List AuditRecord → Prop
  | _, [] => True
  | prev, r::rest => Seal evp prev r ∧ Sealed evp r.thisRecordHash.chars rest

theorem label_printable (f : Field) : ∀ c ∈ jsonLabel f, 32 ≤ c.toNat := by
  have hall : (jsonLabel f).all (fun c => 32 ≤ c.toNat) = true := by
    cases f with
    | hashed f => cases f <;> decide
    | _ => decide
  simpa using hall

theorem line_char (text : Field → Text) (c : Char) (hc : c.toNat < 32)
    (h : c ∈ jsonLine text) : ∃ f, c ∈ text f := by
  rcases List.mem_append.mp h with h | h
  · obtain ⟨f, _, hf | hf⟩ := (mem_spell _ _ _ _).mp h
    · have := label_printable f c hf
      omega
    · exact ⟨f, hf⟩
  · have hend : c = '"' ∨ c = '\x7d' := by simpa [jsonEnd] using h
    rcases hend with rfl | rfl <;> exact absurd hc (by decide)

theorem json_nul (r : AuditRecord) : nul ∉ auditRecordJson r := by
  intro h
  obtain ⟨f, hf⟩ := line_char _ nul (by decide) h
  rcases jsonText_char r f nul hf with hp | ⟨t, ht, hc⟩
  · exact absurd hp (by decide)
  · simp only [stringFields, hashFields, List.cons_append, List.nil_append, List.mem_cons,
      List.not_mem_nil, or_false] at ht
    rcases ht with rfl | rfl | rfl | rfl | rfl | rfl | rfl | rfl | rfl | rfl | rfl | rfl <;>
      exact CString.ended _ hc

theorem append_done (log : Text) (r : AuditRecord) :
    auditLogAppendFile .done log r = (log++(auditRecordJson r++['\n']), .ok) := by
  have hl := json_length r
  have hpos : ¬ ((auditRecordJson r).length : ℤ) ≤ 0 := by
    have : 0 < (auditRecordJson r).length := by simp [auditRecordJson, jsonLine, jsonEnd]
    omega
  have hcut : (auditRecordJson r).take (8192-1) = auditRecordJson r :=
    List.take_of_length_le (by omega)
  simp only [auditLogAppendFile, auditRecordToJson, if_neg (show ¬ 8192 = 0 by decide), hcut,
    if_neg hpos, cstr_id _ (json_nul r)]

theorem session_cons (evp : Evp) (prev log0 file : Text) (r final : AuditRecord)
    (rs log : List AuditRecord) (hf : auditRecordFinalize evp r prev = (final, .ok))
    (h : auditSession evp final.thisRecordHash.chars (log0++(auditRecordJson final++['\n'])) rs =
      some (log, file)) :
    auditSession evp prev log0 (r::rs) = some (final::log, file) := by
  rw [auditSession, hf]
  simp [append_done, h]

theorem session_spec (evp : Evp) (prev log0 : Text) (rs log : List AuditRecord)
    (file : Text) (hn : nul ∉ prev) (hl : prev.length < 65)
    (h : auditSession evp prev log0 rs = some (log, file)) :
    file = log0++logText (log.map auditRecordJson) ∧ Sealed evp prev log ∧
      log.map stringFields = rs.map stringFields := by
  induction rs generalizing prev log0 log file with
  | nil =>
    obtain ⟨rfl, rfl⟩ := Prod.mk.inj (Option.some.inj h)
    simp [logText, Sealed]
  | cons r rs ih =>
    rw [auditSession] at h
    split at h
    · rename_i final hf
      obtain ⟨hseal, hstr⟩ := finalize_seal evp r final prev hn hl hf
      rw [append_done] at h
      simp only [Option.map_eq_some_iff, Prod.mk.injEq] at h
      obtain ⟨⟨log', file'⟩, hrest, rfl, rfl⟩ := h
      obtain ⟨hfile, hsealed, hstrs⟩ :=
        ih _ _ log' file' final.thisRecordHash.ended final.thisRecordHash.fits hrest
      refine ⟨?_, ⟨hseal, hsealed⟩, by simp [hstr, hstrs]⟩
      simpa [logText] using hfile
    · contradiction

theorem sealed_hash (evp : Evp) (prev : Text) (log : List AuditRecord) (hp : Plain prev)
    (hs : Sealed evp prev log) (r : AuditRecord) (hr : r ∈ log) :
    (∀ t ∈ hashFields r, Plain t) ∧
      ∃ d, evp (canonical r) = .ok d ∧ r.thisRecordHash.chars = hashDigestToHex d := by
  induction log generalizing prev with
  | nil => simp at hr
  | cons a log ih =>
    obtain ⟨⟨hprev, d, hd, hh⟩, hrest⟩ := hs
    have hplain : Plain a.thisRecordHash.chars := hh ▸ hex_plain d
    rcases List.mem_cons.mp hr with rfl | hr
    · refine ⟨?_, d, hd, hh⟩
      simp only [hashFields, List.mem_cons, List.not_mem_nil, or_false, forall_eq_or_imp,
        forall_eq]
      exact ⟨hprev ▸ hp, hplain⟩
    · exact ih _ hplain hrest hr

theorem sealed_linked (evp : Evp) (prev : Text) (log : List AuditRecord)
    (hs : Sealed evp prev log) :
    Linked (fun r : AuditRecord => r.thisRecordHash.chars)
        (fun r => r.previousRecordHash.chars) log ∧
      ∀ r ∈ log.head?, r.previousRecordHash.chars = prev := by
  induction log generalizing prev with
  | nil => simp [Linked]
  | cons a log ih =>
    obtain ⟨hl, hh⟩ := ih _ hs.2
    refine ⟨?_, by simpa using hs.1.1⟩
    rw [Linked, List.isChain_cons]
    exact ⟨hh, hl⟩

theorem strings_kept (rs log : List AuditRecord)
    (h : log.map stringFields = rs.map stringFields) (p : Text → Prop) :
    (∀ r ∈ log, ∀ t ∈ stringFields r, p t) ↔ ∀ r ∈ rs, ∀ t ∈ stringFields r, p t := by
  have hmap : ∀ xs : List AuditRecord, (∀ r ∈ xs, ∀ t ∈ stringFields r, p t) ↔
      ∀ ts ∈ xs.map stringFields, ∀ t ∈ ts, p t := fun xs => by simp
  rw [hmap log, hmap rs, h]

theorem text_avoids (r : AuditRecord) (c : Char) (hc : ¬ PlainChar c)
    (hs : ∀ t ∈ stringFields r++hashFields r, c ∉ t) (f : Field) : c ∉ jsonText r f := by
  intro hm
  rcases jsonText_char r f c hm with hp | ⟨t, ht, hct⟩
  · exact hc hp
  · exact hs t ht hct

/-- The records of an honest log whose strings are plain. -/
structure Honest (evp : Evp) (log : List AuditRecord) : Prop where
  seals : Sealed evp [] log
  strings : ∀ r ∈ log, ∀ t ∈ stringFields r, Plain t

theorem session_honest (evp : Evp) (rs log : List AuditRecord) (file : Text)
    (h : auditSession evp [] [] rs = some (log, file))
    (hp : ∀ r ∈ rs, ∀ t ∈ stringFields r, Plain t) :
    file = logText (log.map auditRecordJson) ∧ Honest evp log := by
  obtain ⟨hfile, hseal, hstr⟩ := session_spec evp [] [] rs log file (by simp) (by simp) h
  exact ⟨by simpa using hfile, hseal, (strings_kept rs log hstr Plain).mpr hp⟩

section
variable (evp : Evp) (log : List AuditRecord) (h : Honest evp log) (r : AuditRecord) (hr : r ∈ log)
include h hr

theorem honest_hash :
    ∃ d, evp (canonical r) = .ok d ∧ r.thisRecordHash.chars = hashDigestToHex d :=
  (sealed_hash evp [] log (by simp [Plain]) h.seals r hr).2

theorem honest_text (f : Field) : Plain (jsonText r f) := by
  intro c hc
  rcases jsonText_char r f c hc with hp | ⟨t, ht, hct⟩
  · exact hp
  · rcases List.mem_append.mp ht with ht | ht
    · exact h.strings r hr t ht c hct
    · exact (sealed_hash evp [] log (by simp [Plain]) h.seals r hr).1 t ht c hct

end

/-- A line of plain values is read in one piece when the buffer holds it. -/
theorem plain_readable (text : Field → Text) (hp : ∀ f, Plain (text f))
    (hl : (jsonLine text).length ≤ 8191) : Readable (jsonLine text) := by
  refine ⟨fun hc => ?_, fun hc => ?_, hl⟩
  · obtain ⟨f, hf⟩ := line_char text '\n' (by decide) hc
    exact plain_newline _ (hp f) hf
  · obtain ⟨f, hf⟩ := line_char text nul (by decide) hc
    exact plain_nul _ (hp f) hf

theorem line_nonempty (text : Field → Text) : jsonLine text ≠ [] := by
  simp [jsonLine, jsonEnd]

theorem honest_line (evp : Evp) (log : List AuditRecord) (h : Honest evp log)
    (l : Text) (hl : l ∈ log.map auditRecordJson) : Readable l ∧ l ≠ [] := by
  obtain ⟨r, hr, rfl⟩ := List.mem_map.mp hl
  refine ⟨plain_readable _ (honest_text evp log h r hr) ?_, line_nonempty _⟩
  exact (json_length r).trans (by decide)

theorem record_tags (r : AuditRecord) (hq : QuoteFree (jsonText r)) :
    storedHash (auditRecordJson r) = r.thisRecordHash.chars ∧
      storedPrev (auditRecordJson r) = r.previousRecordHash.chars := by
  have h1 := r.thisRecordHash.fits
  have h2 := r.previousRecordHash.fits
  refine ⟨(line_hash _ hq).trans ?_, (line_prev _ hq).trans ?_⟩
  · exact List.take_of_length_le (Nat.le_of_lt_succ h1)
  · exact List.take_of_length_le (Nat.le_of_lt_succ h2)

theorem sealed_chained (evp : Evp) (log : List AuditRecord) (hs : Sealed evp [] log)
    (hq : ∀ r ∈ log, QuoteFree (jsonText r)) : Chained (log.map auditRecordJson) := by
  constructor
  · intro l hl
    obtain ⟨r, hr, rfl⟩ := List.mem_map.mp hl
    obtain ⟨d, _, hd⟩ := (sealed_hash evp [] log (by simp [Plain]) hs r hr).2
    rw [(record_tags r (hq r hr)).1, hd, hex_length]
  · rw [Linked, List.isChain_map]
    refine List.IsChain.imp_of_mem_imp ?_ (sealed_linked evp [] log hs).1
    intro a b ha hb hab
    rw [(record_tags a (hq a ha)).1, (record_tags b (hq b hb)).2]
    exact hab

theorem honest_quoteFree (evp : Evp) (log : List AuditRecord) (h : Honest evp log) :
    ∀ r ∈ log, QuoteFree (jsonText r) :=
  fun r hr f => plain_quote _ (honest_text evp log h r hr f)

theorem honest_chained (evp : Evp) (log : List AuditRecord) (h : Honest evp log) :
    Chained (log.map auditRecordJson) :=
  sealed_chained evp log h.seals (honest_quoteFree evp log h)

theorem session_total (evp : Evp) (he : ∀ t, ∃ d, evp t = .ok d) (prev log0 : Text)
    (rs : List AuditRecord) : ∃ out, auditSession evp prev log0 rs = some out := by
  induction rs generalizing prev log0 with
  | nil => exact ⟨_, rfl⟩
  | cons r rs ih =>
    have hf : ∃ final, auditRecordFinalize evp r prev = (final, .ok) := by
      obtain ⟨d, hd⟩ := he
        (canonical { r with previousRecordHash := printed65 prev })
      simp only [auditRecordFinalize, if_pos (canonical_length _), (hash_ok evp _ d).mpr hd]
      exact ⟨_, rfl⟩
    obtain ⟨final, hf⟩ := hf
    obtain ⟨out, ho⟩ := ih final.thisRecordHash.chars (log0++(auditRecordJson final++['\n']))
    exact ⟨(final::out.1, out.2), session_cons evp prev log0 _ r final rs _ hf ho⟩

def tamperTest : AuditRecord :=
  { auditRecordInit with caseId := printed64 "TAMPER-TEST".toList }

def tamperTestDigest : Digest :=
  #v[0xc5, 0x60, 0x28, 0x07, 0xf8, 0xbc, 0x64, 0x7a, 0xf4, 0x38, 0x01, 0xe5, 0x44, 0xe9, 0x78,
     0x80, 0x41, 0x56, 0xd5, 0xde, 0x19, 0xee, 0xfa, 0xf6, 0x5f, 0x93, 0x5e, 0x2c, 0x4b, 0x3e,
     0x9e, 0xc7]

def tamperTestFirst : AuditRecord :=
  { tamperTest with
    thisRecordHash := printed65 (hashDigestToHex tamperTestDigest) }

def repeatedDigest : Digest :=
  #v[0x1d, 0xe9, 0x10, 0xe6, 0x01, 0xa9, 0xbd, 0x6a, 0x3a, 0xba, 0x91, 0x2d, 0x6b, 0x08, 0x7b,
     0x71, 0x26, 0xd4, 0xfe, 0x5d, 0x23, 0xed, 0x7b, 0x6b, 0xba, 0x6b, 0x10, 0x0e, 0x4b, 0x1b,
     0x35, 0x27]

def tamperTestSecond : AuditRecord :=
  { tamperTest with
    previousRecordHash := tamperTestFirst.thisRecordHash
    thisRecordHash := printed65 (hashDigestToHex repeatedDigest) }

def tamperTestEvp : Evp :=
  tableEvp [(canonical tamperTestFirst, tamperTestDigest),
    (canonical tamperTestSecond, repeatedDigest)]

theorem tamperTest_first :
    auditRecordFinalize tamperTestEvp tamperTest [] = (tamperTestFirst, .ok) := by
  decide +kernel

theorem tamperTest_second :
    auditRecordFinalize tamperTestEvp tamperTest tamperTestFirst.thisRecordHash.chars =
      (tamperTestSecond, .ok) := by
  decide +kernel

theorem tamperTest_session :
    auditSession tamperTestEvp [] [] [tamperTest] =
      some ([tamperTestFirst], logText ([tamperTestFirst].map auditRecordJson)) :=
  session_cons _ _ _ _ _ _ _ _ tamperTest_first (by simp [auditSession, logText])

theorem tamperTest_repeated :
    auditSession tamperTestEvp [] [] [tamperTest, tamperTest] =
      some ([tamperTestFirst, tamperTestSecond],
        logText ([tamperTestFirst, tamperTestSecond].map auditRecordJson)) :=
  session_cons _ _ _ _ _ _ _ _ tamperTest_first
    (session_cons _ _ _ _ _ _ _ _ tamperTest_second (by simp [auditSession, logText]))

end EraseCure.AuditSessions
