import EraseCure.AuditSessions

/-!
# Appends that are cut

A line may be written in part, because the machine stops or because an append
fails and is made again on the same line. The reader takes what stands on a line
for one record. It finds the two hashes behind the first keys, and a hash that was
cut goes on with the brace that the next line begins with.
-/

set_option autoImplicit false

namespace EraseCure.TornAppends
open EraseCure.CText EraseCure.ErrorCodes EraseCure.TextSearch EraseCure.LinkedRuns
open EraseCure.AuditRecords EraseCure.AuditLog EraseCure.AuditLines EraseCure.AuditSessions
open EraseCure.Hashing

def hashStart (r : AuditRecord) : ℕ :=
  (spell jsonLabel (jsonText r) beforeHash++jsonLabel .thisRecordHash).length

def prevStart (r : AuditRecord) : ℕ :=
  (spell jsonLabel (jsonText r) beforePrev++jsonLabel (.hashed .previousRecordHash)).length

/-- What the line of a record leaves when its append was cut and made again. -/
def retried (r : AuditRecord) (kept : ℕ) : Text := (auditRecordJson r).take kept++auditRecordJson r

/-- A value that was cut and goes on with the next line. -/
def spliced (value : Text) (kept : ℕ) : Text := (value.take kept++['\x7b']).take 64

section Tags

theorem readTag_cut (w z rest : Text) (hw : '"' ∉ w) (m : ℕ) :
    readTag ((w ++ '"'::z).take m++rest) =
      if m ≤ w.length then readTag (w.take m++rest) else w.take 64 := by
  by_cases hm : m ≤ w.length
  · rw [if_pos hm, List.take_append_of_le_length hm]
  · obtain ⟨n, hn⟩ : ∃ n, m-w.length = n+1 := ⟨m-w.length-1, by omega⟩
    rw [if_neg hm, List.take_append, List.take_of_length_le (by omega), hn, List.take_succ_cons,
      List.append_assoc]
    exact readTag_field w _ hw

theorem tag_cut (key a w z rest : Text) (hw : '"' ∉ w)
    (h : search key (a++(key++(w ++ '"'::z))) = some (key++(w ++ '"'::z)))
    (hrest : ∀ c ∈ rest.head?, c ∉ key) (k : ℕ) :
    tagAfter key ((a++(key++(w ++ '"'::z))).take k++rest) =
      if k < (a++key).length then tagAfter key rest
      else some (if k-(a++key).length ≤ w.length then
        readTag (w.take (k-(a++key).length)++rest) else w.take 64) := by
  rw [tagAfter, search_cut key a _ rest h hrest k]
  by_cases hk : k < (a++key).length
  · rw [if_pos hk, if_pos hk]
    rfl
  · rw [if_neg hk, if_neg hk, Option.map_some, List.drop_left, readTag_cut w z rest hw]

/-- A line whose value has the length that the reader takes, cut and not made again. -/
theorem tag_torn (key a w z : Text) (hw : '"' ∉ w) (hlen : w.length = 64) (hkey : key ≠ [])
    (h : search key (a++(key++(w ++ '"'::z))) = some (key++(w ++ '"'::z))) (k : ℕ) :
    (tagAfter key ((a++(key++(w ++ '"'::z))).take k)).getD [] = w.take (k-(a++key).length) := by
  have hcut := tag_cut key a w z [] hw h (by simp) k
  have hall : ∀ v : Text, '"' ∉ v → readTag v = v.take 64 := by
    intro v hv
    rw [readTag, List.takeWhile_eq_self_iff.mpr]
    intro c hc
    have : c ≠ '"' := fun he => hv (he ▸ hc)
    simpa using this
  rw [List.append_nil] at hcut
  rw [hcut]
  split_ifs with hk hm
  · rw [tagAfter, search, if_neg hkey, Option.map_none, Option.getD_none,
      Nat.sub_eq_zero_of_le hk.le, List.take_zero]
  · rw [List.append_nil, hall _ (fun hc => hw (List.mem_of_mem_take hc)), Option.getD_some,
      List.take_take, Nat.min_eq_right (by omega)]
  · rw [Option.getD_some, List.take_of_length_le hlen.le, List.take_of_length_le (by omega)]

/-- The same line, cut and made again. -/
theorem tag_retried (key a w z more : Text) (hw : '"' ∉ w) (hlen : w.length = 64)
    (hbrace : '\x7b' ∉ key)
    (h : search key (a++(key++(w ++ '"'::z))) = some (key++(w ++ '"'::z)))
    (hline : a++(key++(w ++ '"'::z)) = '\x7b' :: '"'::more) (k : ℕ) :
    (tagAfter key ((a++(key++(w ++ '"'::z))).take k++(a++(key++(w ++ '"'::z))))).getD [] =
      if k < (a++key).length then w else spliced w (k-(a++key).length) := by
  have hwhole : tagAfter key (a++(key++(w ++ '"'::z))) = some w := by
    rw [tagAfter, h, Option.map_some, List.drop_left, readTag_field w z hw,
      List.take_of_length_le hlen.le]
  rw [tag_cut key a w z _ hw h (by rw [hline]; simpa using hbrace) k, hwhole]
  split_ifs with hk hm
  · rfl
  · have hquote : '"' ∉ w.take (k-(a++key).length)++['\x7b'] := by
      rw [List.mem_append, not_or]
      exact ⟨fun hc => hw (List.mem_of_mem_take hc), by decide⟩
    have hfield := readTag_field _ more hquote
    rw [List.append_assoc, List.singleton_append] at hfield
    rw [Option.getD_some, hline, hfield, spliced]
  · rw [Option.getD_some, spliced, List.take_of_length_le (l := w) (i := k-_) (by omega),
      List.take_append_of_le_length hlen.ge]

variable (value : Text) (hlen : value.length = 64)
include hlen

theorem spliced_whole (k : ℕ) (hk : 64 ≤ k) : spliced value k = value := by
  rw [spliced, List.take_of_length_le (hlen.trans_le hk), List.take_append_of_le_length hlen.ge,
    List.take_of_length_le hlen.le]

theorem spliced_short (k : ℕ) (hk : k < 64) : spliced value k = value.take k++['\x7b'] := by
  apply List.take_of_length_le
  rw [List.length_append, List.length_take, List.length_singleton]
  omega

theorem spliced_length (k : ℕ) : (spliced value k).length = 64 ↔ 63 ≤ k := by
  rw [spliced, List.length_take, List.length_append, List.length_take, List.length_singleton]
  omega

/-- A value that was cut is told from every whole one by the brace. -/
theorem spliced_foreign (k : ℕ) (hk : k < 64) (w : Text) (hw : '\x7b' ∉ w) :
    spliced value k ≠ w := by
  rintro rfl
  rw [spliced_short value hlen k hk] at hw
  simp at hw

end Tags

section Lines
variable (r : AuditRecord) (hq : QuoteFree (jsonText r))

theorem line_begins : ∃ more, auditRecordJson r = '\x7b' :: '"'::more := ⟨_, rfl⟩

theorem line_at (text : Field → Text) (before after : List Field) (f : Field) (key z : Text)
    (ho : jsonOrder = before++f::after) (hl : jsonLabel f = "\",".toList++key)
    (hz : spell jsonLabel text after++jsonEnd = '"'::z) :
    jsonLine text = (spell jsonLabel text before++"\",".toList)++(key++(text f ++ '"'::z)) := by
  rw [← hz]
  simp [jsonLine, ho, spell_append, spell, hl]

theorem prev_before : prevStart r+r.previousRecordHash.chars.length ≤ hashStart r := by
  have hsplit : beforeHash = beforePrev++[.hashed .previousRecordHash] := rfl
  have htext : jsonText r (.hashed .previousRecordHash) = r.previousRecordHash.chars := rfl
  rw [prevStart, hashStart, hsplit, spell_append]
  simp only [spell, htext, List.length_append, List.append_nil]
  omega

include hq

theorem hash_at : ∃ a z, (a++hashKey).length = hashStart r ∧
    auditRecordJson r = a++(hashKey++(r.thisRecordHash.chars ++ '"'::z)) ∧
    search hashKey (auditRecordJson r) = some (hashKey++(r.thisRecordHash.chars ++ '"'::z)) := by
  obtain ⟨z, hz⟩ : ∃ z, spell jsonLabel (jsonText r) [.notes]++jsonEnd = '"'::z := ⟨_, rfl⟩
  refine ⟨spell jsonLabel (jsonText r) beforeHash++"\",".toList, z, ?_,
    line_at _ beforeHash [.notes] .thisRecordHash hashKey z rfl rfl hz, ?_⟩
  · rw [List.append_assoc]
    rfl
  · rw [auditRecordJson, search_hash (jsonText r) hq, List.append_assoc, hz]
    rfl

theorem prev_at : ∃ a z, (a++prevKey).length = prevStart r ∧
    auditRecordJson r = a++(prevKey++(r.previousRecordHash.chars ++ '"'::z)) ∧
    search prevKey (auditRecordJson r) =
      some (prevKey++(r.previousRecordHash.chars ++ '"'::z)) := by
  obtain ⟨z, hz⟩ : ∃ z, spell jsonLabel (jsonText r) [.thisRecordHash, .notes]++jsonEnd =
      '"'::z := ⟨_, rfl⟩
  refine ⟨spell jsonLabel (jsonText r) beforePrev++"\",".toList, z, ?_,
    line_at _ beforePrev [.thisRecordHash, .notes] (.hashed .previousRecordHash) prevKey z
      rfl rfl hz, ?_⟩
  · rw [List.append_assoc]
    rfl
  · rw [auditRecordJson, search_prev (jsonText r) hq, List.append_assoc, hz]
    rfl

section Hash
variable (hlen : r.thisRecordHash.chars.length = 64)
include hlen

theorem torn_hash (k : ℕ) : storedHash ((auditRecordJson r).take k) =
    r.thisRecordHash.chars.take (k-hashStart r) := by
  obtain ⟨a, z, ha, hline, hs⟩ := hash_at r hq
  rw [hline] at hs
  rw [hline, ← ha]
  exact tag_torn hashKey a _ z (hq .thisRecordHash) hlen (by decide) hs k

theorem retried_hash (k : ℕ) : storedHash (retried r k) =
    if k < hashStart r then r.thisRecordHash.chars
    else spliced r.thisRecordHash.chars (k-hashStart r) := by
  obtain ⟨a, z, ha, hline, hs⟩ := hash_at r hq
  obtain ⟨more, hmore⟩ := line_begins r
  rw [hline] at hs hmore
  rw [retried, hline, ← ha]
  exact tag_retried hashKey a _ z more (hq .thisRecordHash) hlen (by decide) hs hmore k

end Hash

section Prev
variable (hlen : r.previousRecordHash.chars.length = 64)
include hlen

theorem torn_prev (k : ℕ) : storedPrev ((auditRecordJson r).take k) =
    r.previousRecordHash.chars.take (k-prevStart r) := by
  obtain ⟨a, z, ha, hline, hs⟩ := prev_at r hq
  rw [hline] at hs
  rw [hline, ← ha]
  exact tag_torn prevKey a _ z (hq (.hashed .previousRecordHash)) hlen (by decide) hs k

theorem retried_prev (k : ℕ) : storedPrev (retried r k) =
    if k < prevStart r then r.previousRecordHash.chars
    else spliced r.previousRecordHash.chars (k-prevStart r) := by
  obtain ⟨a, z, ha, hline, hs⟩ := prev_at r hq
  obtain ⟨more, hmore⟩ := line_begins r
  rw [hline] at hs hmore
  rw [retried, hline, ← ha]
  exact tag_retried prevKey a _ z more (hq (.hashed .previousRecordHash)) hlen (by decide) hs
    hmore k

end Prev

end Lines

section Sessions

/-- A session in which each append fails once, after so many characters, and is
made again. -/
def retriedSession (evp : Evp) : Text → Text → List (AuditRecord × ℕ) →
    Option (List AuditRecord × Text)
  | _, log, [] => some ([], log)
  | prev, log, (record, kept)::rest =>
    match auditRecordFinalize evp record prev with
    | (final, .ok) =>
      match auditLogAppendFile .done (auditLogAppendFile (.printFailed kept) log final).1 final with
      | (log', .ok) =>
        (retriedSession evp final.thisRecordHash.chars log' rest).map
          (fun out => (final::out.1, out.2))
      | _ => none
    | _ => none

theorem append_failed (kept : ℕ) (log : Text) (r : AuditRecord) :
    auditLogAppendFile (.printFailed kept) log r =
      (log++(auditRecordJson r++['\n']).take kept, .writeFailed) := by
  have hl := json_length r
  have hpos : ¬ ((auditRecordJson r).length : ℤ) ≤ 0 := by
    have : 0 < (auditRecordJson r).length := by simp [auditRecordJson, jsonLine, jsonEnd]
    omega
  have hcut : (auditRecordJson r).take (8192-1) = auditRecordJson r :=
    List.take_of_length_le (by omega)
  simp only [auditLogAppendFile, auditRecordToJson, if_neg (show ¬ 8192 = 0 by decide), hcut,
    if_neg hpos, cstr_id _ (json_nul r)]

def retriedLine (x : AuditRecord × ℕ) : Text :=
  (auditRecordJson x.1++['\n']).take x.2++(auditRecordJson x.1++['\n'])

theorem retried_spec (evp : Evp) (prev log0 : Text) (rs : List (AuditRecord × ℕ))
    (log : List AuditRecord) (file : Text) (hn : nul ∉ prev) (hl : prev.length < 65)
    (h : retriedSession evp prev log0 rs = some (log, file)) :
    file = log0++(log.zip (rs.map Prod.snd)).flatMap retriedLine ∧ Sealed evp prev log ∧
      log.map stringFields = (rs.map Prod.fst).map stringFields := by
  induction rs generalizing prev log0 log file with
  | nil =>
    obtain ⟨rfl, rfl⟩ := Prod.mk.inj (Option.some.inj h)
    simp [Sealed]
  | cons x rs ih =>
    obtain ⟨r, kept⟩ := x
    rw [retriedSession] at h
    split at h
    · rename_i final hf
      obtain ⟨hseal, hstr⟩ := finalize_seal evp r final prev hn hl hf
      rw [append_failed, append_done] at h
      simp only [Option.map_eq_some_iff, Prod.mk.injEq] at h
      obtain ⟨⟨log', file'⟩, hrest, rfl, rfl⟩ := h
      obtain ⟨hfile, hsealed, hstrs⟩ :=
        ih _ _ log' file' final.thisRecordHash.ended final.thisRecordHash.fits hrest
      refine ⟨?_, ⟨hseal, hsealed⟩, by simp [hstr, hstrs]⟩
      simpa [retriedLine] using hfile
    · contradiction

end Sessions

/-- The cut leaves the reader a hash of the full length. -/
def HashKept (x : AuditRecord × ℕ) : Prop :=
  x.2 < hashStart x.1 ∨ hashStart x.1+63 ≤ x.2

/-- The back link that the reader finds is the hash that it found before. -/
def LinkKept (x y : AuditRecord × ℕ) : Prop :=
  if x.2 = hashStart x.1+63 then y.2 = prevStart y.1+63
  else y.2 < prevStart y.1 ∨ prevStart y.1+64 ≤ y.2

section Reading
variable (evp : Evp) (log : List AuditRecord) (h : Honest evp log) (x : AuditRecord × ℕ)
  (hx : x.1 ∈ log)
include h hx

theorem retried_readable : Readable (retried x.1 x.2) ∧ retried x.1 x.2 ≠ [] := by
  obtain ⟨⟨hn, hz, _⟩, hne⟩ := honest_line evp log h _ (List.mem_map_of_mem hx)
  have hlen := json_length x.1
  refine ⟨⟨?_, ?_, ?_⟩, List.append_ne_nil_of_right_ne_nil _ hne⟩
  · rw [retried, List.mem_append, not_or]
    exact ⟨fun hc => hn (List.mem_of_mem_take hc), hn⟩
  · rw [retried, List.mem_append, not_or]
    exact ⟨fun hc => hz (List.mem_of_mem_take hc), hz⟩
  · rw [retried, List.length_append, List.length_take]
    omega

theorem hash_whole : x.1.thisRecordHash.chars.length = 64 ∧ '\x7b' ∉ x.1.thisRecordHash.chars := by
  obtain ⟨d, _, hd⟩ := honest_hash evp log h x.1 hx
  rw [hd]
  refine ⟨hex_length d, fun hc => ?_⟩
  obtain ⟨n, hn⟩ := hex_char d _ hc
  exact digitChar_cases (fun c => c ≠ '\x7b') (by decide) (by decide) n hn.symm

theorem retried_kept : (storedHash (retried x.1 x.2)).length = 64 ↔ HashKept x := by
  obtain ⟨hlen, _⟩ := hash_whole evp log h x hx
  rw [retried_hash x.1 (honest_quoteFree evp log h x.1 hx) hlen, HashKept]
  split_ifs with hk
  · exact iff_of_true hlen (Or.inl hk)
  · rw [spliced_length _ hlen]
    omega

end Reading

section Links
variable (evp : Evp) (log : List AuditRecord) (h : Honest evp log) (x y : AuditRecord × ℕ)
  (hx : x.1 ∈ log) (hy : y.1 ∈ log)
include h hx hy

theorem retried_link (hkept : HashKept x)
    (hlink : y.1.previousRecordHash.chars = x.1.thisRecordHash.chars) :
    storedPrev (retried y.1 y.2) = storedHash (retried x.1 x.2) ↔ LinkKept x y := by
  obtain ⟨hlen, hbrace⟩ := hash_whole evp log h x hx
  have hhash := retried_hash x.1 (honest_quoteFree evp log h x.1 hx) hlen x.2
  have hprev := retried_prev y.1 (honest_quoteFree evp log h y.1 hy) (hlink ▸ hlen) y.2
  rw [hlink] at hprev
  rw [hprev, LinkKept]
  by_cases hcut : x.2 = hashStart x.1+63
  · -- The hash lost its last character to the brace.
    have hlost : storedHash (retried x.1 x.2) = spliced x.1.thisRecordHash.chars 63 := by
      rw [hhash, if_neg (by omega), show x.2-hashStart x.1 = 63 by omega]
    rw [if_pos hcut, hlost]
    split_ifs with hk
    · refine iff_of_false (fun he => ?_) (by omega)
      exact spliced_foreign _ hlen 63 (by decide) _ hbrace he.symm
    · constructor
      · intro he
        have hl := congrArg List.length he
        rw [(spliced_length _ hlen 63).mpr le_rfl, spliced_length _ hlen] at hl
        by_contra hne
        rw [spliced_whole _ hlen _ (by omega)] at he
        exact spliced_foreign _ hlen 63 (by decide) _ hbrace he.symm
      · intro hk'
        rw [show y.2-prevStart y.1 = 63 by omega]
  · have hwhole : storedHash (retried x.1 x.2) = x.1.thisRecordHash.chars := by
      rw [hhash]
      split_ifs with hk
      · rfl
      · rcases hkept with hk' | hk'
        · exact absurd hk' hk
        · exact spliced_whole _ hlen _ (by omega)
    rw [if_neg hcut, hwhole]
    split_ifs with hk
    · exact iff_of_true rfl (Or.inl hk)
    · by_cases hk' : y.2-prevStart y.1 < 64
      · exact iff_of_false (spliced_foreign _ hlen _ hk' _ hbrace) (by omega)
      · exact iff_of_true (spliced_whole _ hlen _ (by omega)) (by omega)

end Links

/-- Two records next to each other are sealed next to each other, whatever they
are paired with. -/
theorem zip_linked {β : Type*} (evp : Evp) (log : List AuditRecord) (h : Honest evp log)
    (cuts : List β) (hlen : log.length ≤ cuts.length) :
    (log.zip cuts).IsChain (fun x y =>
      y.1.previousRecordHash.chars = x.1.thisRecordHash.chars) := by
  have hl := (sealed_linked evp [] log h.seals).1
  rw [Linked, ← List.map_fst_zip hlen, List.isChain_map] at hl
  exact hl

section Chains
variable (evp : Evp) (log : List AuditRecord) (h : Honest evp log) (cuts : List ℕ)
  (hcuts : log.length ≤ cuts.length)
include h

theorem zip_readable : ∀ l ∈ (log.zip cuts).map (fun x => retried x.1 x.2),
    Readable l ∧ l ≠ [] := by
  intro l hl
  obtain ⟨x, hx, rfl⟩ := List.mem_map.mp hl
  exact retried_readable evp log h x (List.of_mem_zip hx).1

include hcuts

theorem zip_chained : Chained ((log.zip cuts).map (fun x => retried x.1 x.2)) ↔
    (∀ x ∈ log.zip cuts, HashKept x) ∧ (log.zip cuts).IsChain LinkKept := by
  have hmem : ∀ x ∈ log.zip cuts, x.1 ∈ log := fun x hx => (List.of_mem_zip hx).1
  have hkept : (∀ l ∈ (log.zip cuts).map (fun x => retried x.1 x.2),
      (storedHash l).length = 64) ↔ ∀ x ∈ log.zip cuts, HashKept x := by
    rw [List.forall_mem_map]
    exact forall₂_congr (fun x hx => retried_kept evp log h x (hmem x hx))
  rw [Chained, hkept, Linked, List.isChain_map]
  refine and_congr_right (fun hall => ?_)
  have hseals := List.isChain_iff_getElem.mp (zip_linked evp log h cuts hcuts)
  rw [List.isChain_iff_getElem, List.isChain_iff_getElem]
  refine forall₂_congr (fun i hi => ?_)
  have hx := List.getElem_mem (show i < (log.zip cuts).length by omega)
  have hy := List.getElem_mem hi
  exact retried_link evp log h _ _ (hmem _ hx) (hmem _ hy) (hall _ hx) (hseals i hi)

end Chains

/-- A log in which every append failed once within its line and was made again is
accepted exactly when no cut spoils a hash or a link. -/
theorem retried_valid_iff (evp : Evp) (rs : List (AuditRecord × ℕ)) (log : List AuditRecord)
    (file : Text) (hs : retriedSession evp [] [] rs = some (log, file))
    (hp : ∀ x ∈ rs, ∀ s ∈ stringFields x.1, Plain s)
    (hkept : ∀ x ∈ log.zip (rs.map Prod.snd), x.2 ≤ (auditRecordJson x.1).length) :
    auditLogValidateChain (some file) = (.ok, if rs = [] then .empty else .valid) ↔
      (∀ x ∈ log.zip (rs.map Prod.snd), HashKept x) ∧
        (log.zip (rs.map Prod.snd)).IsChain LinkKept := by
  obtain ⟨hfile, hseal, hstr⟩ := retried_spec evp [] [] rs log file (by simp) (by simp) hs
  have hlen : log.length = (rs.map Prod.snd).length := by
    simpa using congrArg List.length hstr
  have hhonest : Honest evp log := by
    refine ⟨hseal, (strings_kept _ log hstr Plain).mpr ?_⟩
    rwa [List.forall_mem_map]
  have hlines : file = logText ((log.zip (rs.map Prod.snd)).map (fun x => retried x.1 x.2)) := by
    rw [hfile, List.nil_append, logText, List.flatMap_map]
    apply List.flatMap_congr
    intro x hx
    rw [retriedLine, retried, List.take_append_of_le_length (hkept x hx), List.append_assoc]
  have hreadable := zip_readable evp log hhonest (rs.map Prod.snd)
  rw [hlines, ← zip_chained evp log hhonest _ hlen.le]
  by_cases hnil : rs = []
  · obtain rfl : log = [] := by simpa [hnil] using hlen
    subst hnil
    exact iff_of_true rfl ⟨by simp, List.isChain_nil⟩
  · rw [if_neg hnil]
    have hne : (log.zip (rs.map Prod.snd)).map (fun x => retried x.1 x.2) ≠ [] := by
      rw [ne_eq, List.map_eq_nil_iff, List.zip_eq_nil_iff]
      rintro (rfl | hmap)
      · exact hnil (by simpa using hlen.symm)
      · exact hnil (by simpa using hmap)
    rcases readable_verdict _ hreadable hne with ⟨hv, hc⟩ | ⟨hv, hc⟩
    · exact iff_of_true hv hc
    · exact iff_of_false (by rw [hv]; simp) hc

def braceCuts : List (AuditRecord × ℕ) := [(tamperTest, 1), (tamperTest, 1)]

theorem braceCuts_session : ∃ file, retriedSession tamperTestEvp [] [] braceCuts =
    some ([tamperTestFirst, tamperTestSecond], file) := by
  simp [braceCuts, retriedSession, tamperTest_first, tamperTest_second, append_done]

theorem braceCuts_zip : [tamperTestFirst, tamperTestSecond].zip (braceCuts.map Prod.snd) =
    [(tamperTestFirst, 1), (tamperTestSecond, 1)] := rfl

theorem tamperTest_plain : ∀ s ∈ stringFields tamperTest, Plain s := by
  decide +kernel

theorem prevStart_late (r : AuditRecord) : 1 < prevStart r := by
  have hlabel : (jsonLabel (.hashed .previousRecordHash)).length = 26 := by decide
  rw [prevStart, List.length_append, hlabel]
  omega

theorem retried_valid_braces : ∃ file, retriedSession tamperTestEvp [] [] braceCuts =
      some ([tamperTestFirst, tamperTestSecond], file) ∧
    auditLogValidateChain (some file) = (.ok, .valid) := by
  obtain ⟨file, hs⟩ := braceCuts_session
  have hiff := retried_valid_iff tamperTestEvp braceCuts _ file hs
  rw [braceCuts_zip] at hiff
  have hbefore := fun r : AuditRecord => (prevStart_late r).trans_le
    ((Nat.le_add_right _ _).trans (prev_before r))
  refine ⟨file, hs, (hiff ?_ ?_).mpr ⟨?_, List.isChain_pair.mpr ?_⟩⟩
  · rw [braceCuts, List.forall_mem_cons, List.forall_mem_singleton]
    exact ⟨tamperTest_plain, tamperTest_plain⟩
  · rw [List.forall_mem_cons, List.forall_mem_singleton]
    exact ⟨Nat.succ_le_of_lt (List.length_pos_of_ne_nil (line_nonempty _)),
      Nat.succ_le_of_lt (List.length_pos_of_ne_nil (line_nonempty _))⟩
  · rw [List.forall_mem_cons, List.forall_mem_singleton]
    exact ⟨Or.inl (hbefore _), Or.inl (hbefore _)⟩
  · rw [LinkKept, if_neg (by omega)]
    exact Or.inl (prevStart_late _)

section Tails
variable (evp : Evp) (log : List AuditRecord)

def lastHash (prev : Text) : List AuditRecord → Text
  | [] => prev
  | r::rest => lastHash r.thisRecordHash.chars rest

theorem sealed_append (prev : Text) (r : AuditRecord) (h : Sealed evp prev log)
    (hr : Seal evp (lastHash prev log) r) : Sealed evp prev (log++[r]) := by
  induction log generalizing prev with
  | nil => exact ⟨hr, trivial⟩
  | cons a log ih => exact ⟨h.1, ih _ h.2 hr⟩

theorem lastHash_last (prev : Text) (r : AuditRecord) (h : log.getLast? = some r) :
    lastHash prev log = r.thisRecordHash.chars := by
  induction log generalizing prev with
  | nil => contradiction
  | cons a log ih =>
    cases log with
    | nil =>
      obtain rfl : a = r := by simpa using h
      rfl
    | cons b log => exact ih a.thisRecordHash.chars (by rwa [List.getLast?_cons_cons] at h)

theorem entries_tail (t : Text) (hn : '\n' ∉ t) (hz : nul ∉ t) (hne : t ≠ [])
    (hl : t.length ≤ 8191) : fileEntries t = [t] := by
  have hall : t.takeWhile (fun c => c ≠ '\n') = t := by
    rw [List.takeWhile_eq_self_iff]
    intro c hc
    have : c ≠ '\n' := fun he => hn (he ▸ hc)
    simpa using this
  have hgets : fgets 8192 t = (t, []) := by
    rw [fgets, hall]
    rw [List.take_of_length_le (by omega), List.drop_of_length_le (by omega)]
  rw [fileEntries, fileLines_step 8192 t (by decide) hne, hgets, fileLines_nil, entries]
  simp [cstr_id t hz, chomp_other t hn, hne]

variable (r : AuditRecord) (h : Honest evp (log++[r]))
include h

theorem torn_link (k : ℕ) (hk : hashStart r+64 ≤ k) (a : AuditRecord) (ha : log.getLast? = some a) :
    storedPrev ((auditRecordJson r).take k) = storedHash (auditRecordJson a) := by
  have hmem : a ∈ log++[r] := List.mem_append_left _ (List.mem_of_getLast? ha)
  have hr : r ∈ log++[r] := List.mem_append_right _ List.mem_cons_self
  have hquote := honest_quoteFree evp _ h
  have hlink : r.previousRecordHash.chars = a.thisRecordHash.chars := by
    have hl := (sealed_linked evp [] _ h.seals).1
    rw [Linked, List.isChain_append] at hl
    exact hl.2.2 a ha r rfl
  have hlen : r.previousRecordHash.chars.length = 64 := by
    rw [hlink]
    exact (hash_whole evp _ h (a, 0) hmem).1
  have hbefore := prev_before r
  rw [torn_prev r (hquote r hr) hlen, List.take_of_length_le (by omega), hlink,
    (record_tags a (hquote a hmem)).1]

theorem torn_chained (k : ℕ) :
    Chained (log.map auditRecordJson++[(auditRecordJson r).take k]) ↔ hashStart r+64 ≤ k := by
  have hr : r ∈ log++[r] := List.mem_append_right _ List.mem_cons_self
  have hlen := (hash_whole evp _ h (r, 0) hr).1
  have hhash := torn_hash r (honest_quoteFree evp _ h r hr) hlen k
  have hbefore := honest_chained evp _ h
  rw [List.map_append, Chained, Linked, List.isChain_append] at hbefore
  have hfull : (storedHash ((auditRecordJson r).take k)).length = 64 ↔ hashStart r+64 ≤ k := by
    rw [hhash, List.length_take, hlen]
    omega
  constructor
  · intro hc
    exact hfull.mp (hc.1 _ (List.mem_append_right _ List.mem_cons_self))
  · intro hk
    refine ⟨?_, List.isChain_append.mpr ⟨hbefore.2.1, List.isChain_singleton _, ?_⟩⟩
    · intro l hl
      rcases List.mem_append.mp hl with hl | hl
      · exact hbefore.1 l (List.mem_append_left _ hl)
      · rw [List.mem_singleton.mp hl]
        exact hfull.mpr hk
    · intro x hx y hy
      obtain ⟨a, ha, rfl⟩ : ∃ a, log.getLast? = some a ∧ auditRecordJson a = x := by
        simpa [List.getLast?_map] using hx
      obtain rfl : (auditRecordJson r).take k = y := by simpa using hy
      exact torn_link evp log r h k hk a ha

theorem torn_entries (k : ℕ) (hpos : 0 < k) (hk : k ≤ (auditRecordJson r).length) :
    fileEntries (logText (log.map auditRecordJson)++(auditRecordJson r).take k) =
      log.map auditRecordJson++[(auditRecordJson r).take k] := by
  have hlines := honest_line evp _ h
  obtain ⟨⟨hn, hz, hl⟩, hne⟩ := hlines (auditRecordJson r) (by simp)
  have hold : ∀ l ∈ log.map auditRecordJson, Readable l ∧ l ≠ [] :=
    fun l hl => hlines l (by simpa using Or.inl (by simpa using hl))
  have htail := entries_tail ((auditRecordJson r).take k)
    (fun hc => hn (List.mem_of_mem_take hc)) (fun hc => hz (List.mem_of_mem_take hc))
    (by rw [ne_eq, List.take_eq_nil_iff, not_or]; exact ⟨by omega, hne⟩)
    (by rw [List.length_take]; omega)
  rw [entries_logText _ _ (fun l hl => (hold l hl).1), htail,
    List.filter_eq_self.mpr (fun l hl => by simpa using (hold l hl).2)]

end Tails

theorem honest_verdict (evp : Evp) (log : List AuditRecord) (h : Honest evp log) :
    auditLogValidateChain (some (logText (log.map auditRecordJson))) =
      (.ok, if log = [] then .empty else .valid) := by
  by_cases hnil : log = []
  · subst hnil
    rfl
  · rw [if_neg hnil]
    rcases readable_verdict _ (honest_line evp log h) (by simpa using hnil) with hv | hv
    · exact hv.1
    · exact absurd (honest_chained evp log h) hv.2

/-- A log whose last append was cut is valid when nothing was written or the cut is
behind the hash, and else it is tampered with. -/
theorem torn_verdict (evp : Evp) (rs log : List AuditRecord) (file : Text)
    (hs : auditSession evp [] [] rs = some (log, file))
    (hp : ∀ r ∈ rs, ∀ s ∈ stringFields r, Plain s) (record final : AuditRecord)
    (hf : auditRecordFinalize evp record (lastHash [] log) = (final, .ok))
    (hr : ∀ s ∈ stringFields record, Plain s) (kept : ℕ) :
    auditLogValidateChain (some (auditLogAppendFile (.printFailed kept) file final).1) =
      (.ok, if kept = 0 then (if log = [] then .empty else .valid)
        else if kept < hashStart final+64 then .tampered else .valid) := by
  obtain ⟨rfl, hlog⟩ := session_honest evp rs log file hs hp
  have hlast : nul ∉ lastHash [] log ∧ (lastHash [] log).length < 65 := by
    cases hl : log.getLast? with
    | none =>
      rw [List.getLast?_eq_none_iff.mp hl]
      exact ⟨by simp [lastHash], by simp [lastHash]⟩
    | some a =>
      rw [lastHash_last log [] a hl]
      exact ⟨a.thisRecordHash.ended, a.thisRecordHash.fits⟩
  obtain ⟨hseal, hstr⟩ := finalize_seal evp record final _ hlast.1 hlast.2 hf
  have hall : Honest evp (log++[final]) := by
    refine ⟨sealed_append evp log [] final hlog.seals hseal, ?_⟩
    rw [List.forall_mem_append, List.forall_mem_singleton, hstr]
    exact ⟨hlog.strings, hr⟩
  have hbehind : hashStart final+64 < (auditRecordJson final).length := by
    have hmem : final ∈ log++[final] := by simp
    obtain ⟨a, z, ha, hline, _⟩ := hash_at final (honest_quoteFree evp _ hall final hmem)
    have hlen := (hash_whole evp _ hall (final, 0) hmem).1
    rw [hline, ← ha]
    simp only [List.length_append, List.length_cons] at hlen ⊢
    omega
  rw [append_failed]
  by_cases hzero : kept = 0
  · rw [if_pos hzero, hzero, List.take_zero, List.append_nil]
    exact honest_verdict evp log hlog
  rw [if_neg hzero]
  by_cases hk : kept ≤ (auditRecordJson final).length
  · rw [List.take_append_of_le_length hk]
    have hentries := torn_entries evp log final hall kept (Nat.pos_of_ne_zero hzero) hk
    have hchained := torn_chained evp log final hall kept
    split_ifs with hcut
    · rw [validate_tampered, hentries, hchained]
      exact ⟨by simp, by omega⟩
    · rw [validate_valid, hentries, hchained]
      exact ⟨by simp, by omega⟩
  · -- The line is there with its newline.
    have hwhole := honest_verdict evp _ hall
    rw [List.map_append, logText_append] at hwhole
    rw [if_neg (by omega), List.take_of_length_le (by simp; omega)]
    simpa [logText] using hwhole

/-- The first append of a log is cut behind the first brace. -/
theorem torn_verdict_brace : auditLogValidateChain
    (some (auditLogAppendFile (.printFailed 1) [] tamperTestFirst).1) = (.ok, .tampered) := by
  have hv := torn_verdict tamperTestEvp [] [] [] rfl (by simp) tamperTest tamperTestFirst
    tamperTest_first tamperTest_plain 1
  rwa [if_neg one_ne_zero, if_pos (by omega)] at hv

end EraseCure.TornAppends
