import EraseCure.AuditSessions

/-!
# Lines drawn from an honest log

The canonical text ends with the previous hash, so without collisions the hash
of a record binds its back link and all hashes of a log differ. A sequence of
lines of the log is then accepted exactly when it is a contiguous run of it.
-/

set_option autoImplicit false

namespace EraseCure.AuditRuns
open EraseCure.CText EraseCure.TextSearch EraseCure.LinkedRuns
open EraseCure.AuditRecords EraseCure.AuditLog EraseCure.AuditLines EraseCure.AuditSessions
open EraseCure.Hashing

theorem sealed_prev (evp : Evp) (prev : Text) (log : List AuditRecord)
    (hs : Sealed evp prev log) (r : AuditRecord) (hr : r ∈ log) :
    r.previousRecordHash.chars = prev ∨
      ∃ d, r.previousRecordHash.chars = hashDigestToHex d := by
  induction log generalizing prev with
  | nil => simp at hr
  | cons a log ih =>
    obtain ⟨⟨hprev, d, _, hd⟩, hrest⟩ := hs
    rcases List.mem_cons.mp hr with rfl | hr
    · exact Or.inl hprev
    · rcases ih _ hrest hr with h | h
      · exact Or.inr ⟨d, h.trans hd⟩
      · exact Or.inr h

def canonicalBody (r : AuditRecord) : Text :=
  spell canonicalLabel (canonicalText r) (canonicalOrder.take 20)++"|prev_hash=".toList

theorem canonical_tail (r : AuditRecord) :
    canonical r = canonicalBody r++r.previousRecordHash.chars := by
  have ho : canonicalOrder = canonicalOrder.take 20++[.previousRecordHash] := rfl
  have hs : spell canonicalLabel (canonicalText r) [.previousRecordHash] =
      "|prev_hash=".toList++r.previousRecordHash.chars := by
    rw [spell, spell, List.append_nil]
    rfl
  rw [canonical, ho, spell_append, hs, canonicalBody, List.append_assoc]

theorem body_last (r : AuditRecord) : (canonicalBody r).getLast? = some '=' := by
  rw [canonicalBody, List.getLast?_append]
  rfl

theorem hex_last (d : Digest) (b : Text) : (b++hashDigestToHex d).getLast? ≠ some '=' := by
  intro h
  have hne : hashDigestToHex d ≠ [] := fun h0 => by
    have := hex_length d
    simp [h0] at this
  rw [List.getLast?_append_of_ne_nil b hne] at h
  obtain ⟨n, hn⟩ := hex_char d '=' (List.mem_of_getLast? h)
  exact digitChar_equals n hn.symm

/-- Equal canonical texts of sealed records end with the same previous hash. -/
theorem canonical_binds_prev (a b : AuditRecord)
    (ha : a.previousRecordHash.chars = [] ∨ ∃ d, a.previousRecordHash.chars = hashDigestToHex d)
    (hb : b.previousRecordHash.chars = [] ∨ ∃ d, b.previousRecordHash.chars = hashDigestToHex d)
    (h : canonical a = canonical b) :
    a.previousRecordHash.chars = b.previousRecordHash.chars := by
  rw [canonical_tail, canonical_tail] at h
  rcases ha with ha | ⟨d, ha⟩ <;> rcases hb with hb | ⟨e, hb⟩ <;> rw [ha, hb] at h ⊢
  · have hl := hex_last e (canonicalBody b)
    rw [← h, List.append_nil, body_last] at hl
    exact absurd rfl hl
  · have hl := hex_last d (canonicalBody a)
    rw [h, List.append_nil, body_last] at hl
    exact absurd rfl hl
  · exact (List.append_inj' h (by rw [hex_length, hex_length])).2

theorem hash_binds_prev (evp : Evp) (log : List AuditRecord) (h : Honest evp log)
    (hinj : Set.InjOn evp {x | ∃ r ∈ log, canonical r = x}) (a b : AuditRecord) (ha : a ∈ log)
    (hb : b ∈ log) (hab : a.thisRecordHash.chars = b.thisRecordHash.chars) :
    a.previousRecordHash.chars = b.previousRecordHash.chars := by
  obtain ⟨d, hd, hda⟩ := honest_hash evp log h a ha
  obtain ⟨e, he, heb⟩ := honest_hash evp log h b hb
  have hde : d = e := hex_injective (by rw [← hda, ← heb, hab])
  have hc : canonical a = canonical b :=
    hinj ⟨a, ha, rfl⟩ ⟨b, hb, rfl⟩ (by rw [hd, he, hde])
  exact canonical_binds_prev a b (sealed_prev evp [] log h.seals a ha)
    (sealed_prev evp [] log h.seals b hb) hc

theorem honest_rooted (evp : Evp) (log : List AuditRecord) (h : Honest evp log) :
    Rooted storedHash storedPrev (log.map auditRecordJson) := by
  intro y hy x hx he
  obtain ⟨r, hr, rfl⟩ : ∃ r, log.head? = some r ∧ auditRecordJson r = y := by
    simpa using hy
  have hm : r ∈ log := List.mem_of_head? hr
  have hlen := (honest_chained evp log h).1 x hx
  rw [← he, (record_tags r (honest_quoteFree evp log h r hm)).2,
    (sealed_linked evp [] log h.seals).2 r hr] at hlen
  simp at hlen

theorem honest_nodup (evp : Evp) (log : List AuditRecord) (h : Honest evp log)
    (hinj : Set.InjOn evp {x | ∃ r ∈ log, canonical r = x}) :
    ((log.map auditRecordJson).map storedHash).Nodup := by
  apply tags_nodup storedHash storedPrev _ (honest_chained evp log h).2
    (honest_rooted evp log h) ?_
  intro x hx y hy hxy
  obtain ⟨a, ha, rfl⟩ := List.mem_map.mp hx
  obtain ⟨b, hb, rfl⟩ := List.mem_map.mp hy
  have hqa := record_tags a (honest_quoteFree evp log h a ha)
  have hqb := record_tags b (honest_quoteFree evp log h b hb)
  rw [hqa.1, hqb.1] at hxy
  rw [hqa.2, hqb.2]
  exact hash_binds_prev evp log h hinj a b ha hb hxy

theorem drawn_chained_iff (evp : Evp) (log : List AuditRecord) (h : Honest evp log)
    (hinj : Set.InjOn evp {x | ∃ r ∈ log, canonical r = x}) (ls : List Text)
    (hm : ∀ l ∈ ls, l ∈ log.map auditRecordJson) :
    Chained ls ↔ ls <:+: log.map auditRecordJson := by
  have hc := honest_chained evp log h
  rw [Chained, and_iff_right (fun l hl => hc.1 l (hm l hl))]
  exact linked_iff_run storedHash storedPrev _ hc.2 (honest_rooted evp log h)
    (honest_nodup evp log h hinj) ls hm

/-- Lines drawn from an honest log in any order and with any repetition are
accepted exactly when they are a contiguous run of it. -/
theorem drawn_valid_iff (evp : Evp) (rs log : List AuditRecord) (file : Text)
    (hs : auditSession evp [] [] rs = some (log, file))
    (hp : ∀ r ∈ rs, ∀ s ∈ stringFields r, Plain s)
    (hinj : Set.InjOn evp {x | ∃ r ∈ log, canonical r = x}) :
    file = logText (log.map auditRecordJson) ∧
      ∀ ls : List Text, ls ≠ [] → (∀ l ∈ ls, l ∈ log.map auditRecordJson) →
        (auditLogValidateChain (some (logText ls)) = (.ok, .valid) ↔
            ls <:+: log.map auditRecordJson) ∧
          (¬ ls <:+: log.map auditRecordJson →
            auditLogValidateChain (some (logText ls)) = (.ok, .tampered)) := by
  obtain ⟨hfile, hh⟩ := session_honest evp rs log file hs hp
  refine ⟨hfile, fun ls hne hm => ?_⟩
  rw [← drawn_chained_iff evp log hh hinj ls hm]
  have hread : ∀ l ∈ ls, Readable l ∧ l ≠ [] := fun l hl => honest_line evp log hh l (hm l hl)
  rcases readable_verdict ls hread hne with ⟨hv, hc⟩ | ⟨hv, hc⟩ <;> simp [hv, hc]

theorem repeated_tampered :
    auditLogValidateChain (some (logText [auditRecordJson tamperTestSecond,
      auditRecordJson tamperTestSecond])) = (.ok, .tampered) := by
  obtain ⟨hne, hrun⟩ : tamperTestEvp (canonical tamperTestFirst) ≠
        tamperTestEvp (canonical tamperTestSecond) ∧
      ¬ [auditRecordJson tamperTestSecond, auditRecordJson tamperTestSecond] <:+:
        [tamperTestFirst, tamperTestSecond].map auditRecordJson := by
    decide +kernel
  have hinj : Set.InjOn tamperTestEvp
      {x | ∃ r ∈ [tamperTestFirst, tamperTestSecond], canonical r = x} := by
    rintro x ⟨r, hr, rfl⟩ y ⟨s, hs, rfl⟩ h
    simp only [List.mem_cons, List.not_mem_nil, or_false] at hr hs
    rcases hr with rfl | rfl <;> rcases hs with rfl | rfl
    · rfl
    · exact absurd h hne
    · exact absurd h.symm hne
    · rfl
  exact ((drawn_valid_iff tamperTestEvp [tamperTest, tamperTest]
    [tamperTestFirst, tamperTestSecond]
    (logText ([tamperTestFirst, tamperTestSecond].map auditRecordJson)) tamperTest_repeated
    (by decide) hinj).2 [auditRecordJson tamperTestSecond, auditRecordJson tamperTestSecond]
    (by simp) (by simp)).2 hrun

end EraseCure.AuditRuns
