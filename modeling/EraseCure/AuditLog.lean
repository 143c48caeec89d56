import EraseCure.AuditRecords
import EraseCure.LinkedRuns

/-!
# The audit log and its reader

Records are appended as lines of one file. The reader takes the file in pieces
of at most 8191 bytes and extracts the two stored hashes of every piece by
textual search. It compares stored hashes with stored hashes only.
-/

set_option autoImplicit false

namespace EraseCure.AuditLog
open EraseCure.CText EraseCure.ErrorCodes EraseCure.TextSearch EraseCure.LinkedRuns
open EraseCure.AuditRecords EraseCure.Hashing

/-- What the file system answers to one append. -/
inductive AppendIo where
  | openFailed
  | printFailed (kept : ℕ)
  | done
  deriving DecidableEq

def auditLogAppendFile (io : AppendIo) (log : Text) (record : AuditRecord) :
    Text × ErasecureError :=
  match io with
  | .openFailed => (log, .openFailed)
  | .printFailed kept =>
    let (jsonBuf, n) := auditRecordToJson record 8192
    if n ≤ 0 then (log, .audit)
    else (log++((cstr jsonBuf)++['\n']).take kept, .writeFailed)
  | .done =>
    let (jsonBuf, n) := auditRecordToJson record 8192
    if n ≤ 0 then (log, .audit) else (log++((cstr jsonBuf)++['\n']), .ok)

inductive AuditChainStatus where
  | valid | tampered | empty | error
  deriving DecidableEq

def hashKey : Text := "\"this_record_hash\":\"".toList

def prevKey : Text := "\"previous_record_hash\":\"".toList

/-- The characters up to the next quote, at most 64 of them. -/
def readTag (p : Text) : Text := (p.takeWhile (fun c => c ≠ '"')).take 64

def tagAfter (key line : Text) : Option Text :=
  (search key line).map (fun p => readTag (p.drop key.length))

/-- The loop over the pieces of the file: the number of records seen, and
whether the chain was intact so far. -/
def validateLoop : List Text → ℕ → Text → ℕ × Bool
  | [], recordCount, _ => (recordCount, true)
  | buf::rest, recordCount, prevComputed =>
    let line := chomp (cstr buf)
    if line = [] then validateLoop rest recordCount prevComputed
    else match tagAfter hashKey line with
      | none => (recordCount+1, false)
      | some storedHash =>
        let storedPrev := (tagAfter prevKey line).getD []
        if 1 < recordCount+1 ∧ storedPrev ≠ prevComputed then (recordCount+1, false)
        else if storedHash.length ≠ 64 then (recordCount+1, false)
        else validateLoop rest (recordCount+1) storedHash

/-- `audit_log_validate_chain` on the content of the log, or on a log that
cannot be opened. -/
def auditLogValidateChain : Option Text → ErasecureError × AuditChainStatus
  | none => (.openFailed, .error)
  | some log =>
    match validateLoop (fileLines 8192 log) 0 [] with
    | (0, _) => (.ok, .empty)
    | (_+1, true) => (.ok, .valid)
    | (_+1, false) => (.ok, .tampered)

/-- Records finalised and appended in order, every call succeeding. The result
is the list of records as finalised and the content of the log. -/
def auditSession (evp : Evp) : Text → Text → List AuditRecord →
    Option (List AuditRecord × Text)
  | _, log, [] => some ([], log)
  | prev, log, record::rest =>
    match auditRecordFinalize evp record prev with
    | (final, .ok) =>
      match auditLogAppendFile .done log final with
      | (log', .ok) =>
        (auditSession evp final.thisRecordHash.chars log' rest).map
          (fun out => (final::out.1, out.2))
      | _ => none
    | _ => none

def logText (lines : List Text) : Text := lines.flatMap (fun l => l++['\n'])

def storedHash (line : Text) : Text := (tagAfter hashKey line).getD []

def storedPrev (line : Text) : Text := (tagAfter prevKey line).getD []

/-- Every entry stores a full hash, and every entry but the first stores the
hash of the one before it. -/
def Chained (entries : List Text) : Prop :=
  (∀ e ∈ entries, (storedHash e).length = 64) ∧ Linked storedHash storedPrev entries

def entries (pieces : List Text) : List Text :=
  (pieces.map (fun b => chomp (cstr b))).filter (fun l => l ≠ [])

def fileEntries (log : Text) : List Text := entries (fileLines 8192 log)

theorem loop_skip (buf : Text) (rest : List Text) (n : ℕ) (prev : Text)
    (h : chomp (cstr buf) = []) :
    validateLoop (buf::rest) n prev = validateLoop rest n prev := by
  simp [validateLoop, h]

theorem loop_step (buf : Text) (rest : List Text) (n : ℕ) (prev : Text)
    (h : chomp (cstr buf) ≠ []) :
    validateLoop (buf::rest) n prev =
      if (storedHash (chomp (cstr buf))).length = 64 ∧
          (0 < n → storedPrev (chomp (cstr buf)) = prev) then
        validateLoop rest (n+1) (storedHash (chomp (cstr buf)))
      else (n+1, false) := by
  rw [validateLoop, if_neg h]
  cases ht : tagAfter hashKey (chomp (cstr buf)) with
  | none => simp [storedHash, ht]
  | some w =>
    simp only [storedHash, storedPrev, ht, Option.getD_some, ne_eq, Nat.lt_add_left_iff_pos]
    by_cases hn : 0 < n <;> by_cases hp : (tagAfter prevKey (chomp (cstr buf))).getD [] = prev <;>
      by_cases hw : w.length = 64 <;> simp [hn, hp, hw]

theorem loop_count (pieces : List Text) (n : ℕ) (prev : Text) :
    n ≤ (validateLoop pieces n prev).1 ∧
      ((validateLoop pieces n prev).1 = n → entries pieces = []) := by
  induction pieces generalizing n prev with
  | nil => simp [validateLoop, entries]
  | cons buf rest ih =>
    by_cases h : chomp (cstr buf) = []
    · rw [loop_skip buf rest n prev h]
      simpa [entries, h] using ih n prev
    · rw [loop_step buf rest n prev h]
      split
      · have := (ih (n+1) (storedHash (chomp (cstr buf)))).1
        exact ⟨by omega, fun he => by omega⟩
      · simp

/-- After an entry the loop succeeds when the remaining entries continue the
chain from the hash handed on. -/
theorem loop_intact (pieces : List Text) (n : ℕ) (prev : Text) :
    (validateLoop pieces n prev).2 = true ↔
      Chained (entries pieces) ∧
        (0 < n → ∀ e ∈ (entries pieces).head?, storedPrev e = prev) := by
  induction pieces generalizing n prev with
  | nil => simp [validateLoop, entries, Chained, Linked]
  | cons buf rest ih =>
    by_cases h : chomp (cstr buf) = []
    · rw [loop_skip buf rest n prev h, ih]
      simp [entries, h]
    · have he : entries (buf::rest) = chomp (cstr buf)::entries rest := by simp [entries, h]
      rw [loop_step buf rest n prev h, he]
      split
      · rename_i hc
        rw [ih, Chained, Chained, Linked, Linked, List.isChain_cons]
        simp only [List.forall_mem_cons, List.head?_cons, Option.mem_def, Option.some.injEq,
          forall_eq']
        constructor
        · rintro ⟨⟨hl, hk⟩, hh⟩
          exact ⟨⟨⟨hc.1, hl⟩, hh (by omega), hk⟩, hc.2⟩
        · rintro ⟨⟨⟨_, hl⟩, hh, hk⟩, _⟩
          exact ⟨⟨hl, hk⟩, fun _ => hh⟩
      · rename_i hc
        simp only [Chained, List.forall_mem_cons, List.head?_cons, Option.mem_def,
          Option.some.injEq, forall_eq', Bool.false_eq_true, false_iff]
        rintro ⟨⟨⟨hl, _⟩, _⟩, hp⟩
        exact hc ⟨hl, hp⟩

theorem validate_empty (log : Text) (h : fileEntries log = []) :
    auditLogValidateChain (some log) = (.ok, .empty) := by
  have hall : ∀ pieces : List Text, ∀ n prev, entries pieces = [] →
      validateLoop pieces n prev = (n, true) := by
    intro pieces
    induction pieces with
    | nil => simp [validateLoop]
    | cons buf rest ih =>
      intro n prev he
      have hb : chomp (cstr buf) = [] := by
        by_contra hb
        simp [entries, hb] at he
      rw [loop_skip buf rest n prev hb]
      exact ih n prev (by simpa [entries, hb] using he)
  rw [auditLogValidateChain, hall (fileLines 8192 log) 0 [] h]

theorem validate_entries (log : Text) (h : fileEntries log ≠ []) :
    (auditLogValidateChain (some log) = (.ok, .valid) ∧ Chained (fileEntries log)) ∨
      (auditLogValidateChain (some log) = (.ok, .tampered) ∧ ¬ Chained (fileEntries log)) := by
  have hi := loop_intact (fileLines 8192 log) 0 []
  have hc := (loop_count (fileLines 8192 log) 0 []).2
  rw [auditLogValidateChain, fileEntries]
  rcases hv : validateLoop (fileLines 8192 log) 0 [] with ⟨n, b⟩
  simp only [hv] at hi hc
  cases n with
  | zero => exact absurd (hc rfl) h
  | succ n => cases b <;> simpa using hi

theorem validate_valid (log : Text) :
    auditLogValidateChain (some log) = (.ok, .valid) ↔
      fileEntries log ≠ [] ∧ Chained (fileEntries log) := by
  by_cases h : fileEntries log = []
  · simp [validate_empty log h, h]
  · rcases validate_entries log h with ⟨hv, hc⟩ | ⟨hv, hc⟩ <;> simp [hv, hc, h]

theorem validate_tampered (log : Text) :
    auditLogValidateChain (some log) = (.ok, .tampered) ↔
      fileEntries log ≠ [] ∧ ¬ Chained (fileEntries log) := by
  by_cases h : fileEntries log = []
  · simp [validate_empty log h, h]
  · rcases validate_entries log h with ⟨hv, hc⟩ | ⟨hv, hc⟩ <;> simp [hv, hc, h]

theorem logText_append (a b : List Text) : logText (a++b) = logText a++logText b := by
  simp [logText]

theorem logText_cons (l : Text) (ls : List Text) : logText (l::ls) = l ++ '\n'::logText ls := by
  simp [logText]

/-- A line that the reader takes in one piece. -/
def Readable (line : Text) : Prop := '\n' ∉ line ∧ nul ∉ line ∧ line.length ≤ 8191

theorem clean_newline (line : Text) (h : nul ∉ line) : cstr (line++['\n']) = line++['\n'] :=
  cstr_id _ (by
    have : nul ≠ '\n' := by decide
    simp [h, this])

theorem entries_short (line rest : Text) (hn : '\n' ∉ line) (hz : nul ∉ line)
    (hl : line.length+2 ≤ 8192) :
    fileEntries (line ++ '\n'::rest) =
      (if line = [] then [] else [line])++fileEntries rest := by
  rw [fileEntries, fileLines_line 8192 line rest hn hl]
  simp only [entries, List.map_cons, List.filter_cons, clean_newline line hz, chomp_line]
  by_cases he : line = [] <;> simp [he, fileEntries, entries]

theorem entries_full (line rest : Text) (hn : '\n' ∉ line) (hz : nul ∉ line)
    (hl : 8191 ≤ line.length) :
    fileEntries (line ++ '\n'::rest) =
      line.take 8191::fileEntries (line.drop 8191 ++ '\n'::rest) := by
  have ht : '\n' ∉ line.take 8191 := fun hm => hn (List.mem_of_mem_take hm)
  have hz' : nul ∉ line.take 8191 := fun hm => hz (List.mem_of_mem_take hm)
  have hne : line.take 8191 ≠ [] := by
    intro h0
    have := congrArg List.length h0
    simp only [List.length_take, List.length_nil] at this
    omega
  rw [fileEntries, fileLines_long 8192 line rest hn (by decide) (by omega)]
  simp only [entries, List.map_cons, cstr_id _ hz', chomp_other _ ht]
  rw [List.filter_cons_of_pos (by simpa using hne)]
  rfl

theorem entries_line (line rest : Text) (h : Readable line) :
    fileEntries (line ++ '\n'::rest) =
      (if line = [] then [] else [line])++fileEntries rest := by
  obtain ⟨hn, hz, hl⟩ := h
  by_cases hle : line.length+2 ≤ 8192
  · exact entries_short line rest hn hz hle
  · have hne : line ≠ [] := by
      rintro rfl
      simp at hle
    rw [entries_full line rest hn hz (by omega), List.take_of_length_le hl,
      List.drop_of_length_le hl, entries_short [] rest (by simp) (by simp) (by decide)]
    simp [hne]

theorem entries_logText (lines : List Text) (rest : Text) (h : ∀ l ∈ lines, Readable l) :
    fileEntries (logText lines++rest) = lines.filter (fun l => l ≠ [])++fileEntries rest := by
  induction lines with
  | nil => simp [logText]
  | cons l ls ih =>
    have hl := entries_line l (logText ls++rest) (h l (by simp))
    rw [logText_cons, List.append_assoc, List.cons_append, hl,
      ih (fun x hx => h x (by simp [hx]))]
    by_cases he : l = [] <;> simp [he]

theorem entries_first (line rest : Text) (hn : '\n' ∉ line) (hz : nul ∉ line)
    (hne : line ≠ []) :
    ∃ e es, fileEntries (line ++ '\n'::rest) = e::es ∧ e <:+: line := by
  by_cases hl : line.length ≤ 8191
  · rw [entries_line line rest ⟨hn, hz, hl⟩, if_neg hne]
    exact ⟨line, _, rfl, List.infix_refl line⟩
  · rw [entries_full line rest hn hz (by omega)]
    exact ⟨_, _, rfl, (List.take_prefix 8191 line).isInfix⟩

/-- An overlong line is read as a full buffer and a further entry from the
rest of the line. -/
theorem entries_long (line rest : Text) (hn : '\n' ∉ line) (hz : nul ∉ line)
    (hl : 8191 < line.length) :
    ∃ e es, fileEntries (line ++ '\n'::rest) = line.take 8191::e::es ∧
      e <:+: line.drop 8191 := by
  have hne : line.drop 8191 ≠ [] := by
    intro h0
    have := congrArg List.length h0
    simp only [List.length_drop, List.length_nil] at this
    omega
  obtain ⟨e, es, he, hinf⟩ := entries_first (line.drop 8191) rest
    (fun hm => hn (List.mem_of_mem_drop hm)) (fun hm => hz (List.mem_of_mem_drop hm)) hne
  exact ⟨e, es, by rw [entries_full line rest hn hz (by omega), he], hinf⟩

theorem readable_entries (lines : List Text) (h : ∀ l ∈ lines, Readable l ∧ l ≠ []) :
    fileEntries (logText lines) = lines := by
  have he := entries_logText lines [] (fun l hl => (h l hl).1)
  have hf : lines.filter (fun l => l ≠ []) = lines :=
    List.filter_eq_self.mpr (fun l hl => by simpa using (h l hl).2)
  rw [List.append_nil, hf] at he
  simpa [fileEntries, fileLines_nil, entries] using he

/-- The verdict on a log of lines that are read in one piece. -/
theorem readable_verdict (lines : List Text) (h : ∀ l ∈ lines, Readable l ∧ l ≠ [])
    (hne : lines ≠ []) :
    (auditLogValidateChain (some (logText lines)) = (.ok, .valid) ∧ Chained lines) ∨
      (auditLogValidateChain (some (logText lines)) = (.ok, .tampered) ∧ ¬ Chained lines) := by
  have hv := validate_entries (logText lines)
  rw [readable_entries lines h] at hv
  exact hv hne

end EraseCure.AuditLog
