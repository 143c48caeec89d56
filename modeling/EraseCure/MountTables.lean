import EraseCure.FileSystems

/-!
# Entries of a mount table

A table is read in pieces that end at a newline or fill the buffer. The first
field of a line is found when it lies within one piece, which it does when the
line begins with it.
-/

set_option autoImplicit false

namespace EraseCure.MountTables
open EraseCure.CText EraseCure.FileSystems

section Pieces
variable (size : ℕ)

def LineEnd (rest : Text) : Prop := rest = [] ∨ ∃ next, rest = '\n'::next

/-- The text is a line of the table, without its newline. -/
def IsLine (table line : Text) : Prop :=
  '\n' ∉ line ∧ ∃ before rest, table = before++line++rest ∧ LineEnd rest ∧
    (before = [] ∨ ∃ earlier, before = earlier++['\n'])

theorem takeWhile_lineEnd (line rest : Text) (h : '\n' ∉ line) (hr : LineEnd rest) :
    (line++rest).takeWhile (fun c => c ≠ '\n') = line := by
  rcases hr with rfl | ⟨next, rfl⟩
  · rw [List.append_nil, List.takeWhile_eq_self_iff]
    intro c hc
    have hne : c ≠ '\n' := fun he => h (he ▸ hc)
    simpa using hne
  · exact takeWhile_line line next h

theorem takeWhile_before (before t : Text) :
    ((before++ '\n'::t).takeWhile (fun c => c ≠ '\n')).length ≤ before.length := by
  induction before with
  | nil => simp
  | cons c before ih =>
    rw [List.cons_append, List.takeWhile_cons]
    split
    · rw [List.length_cons, List.length_cons]
      omega
    · exact Nat.zero_le _

theorem pieces_after (before t : Text) (hs : 2 ≤ size) :
    fileLines size t ⊆ fileLines size (before++ '\n'::t) := by
  induction hn : before.length using Nat.strong_induction_on generalizing before with
  | _ n ih =>
    subst hn
    have hfirst := takeWhile_before before t
    rw [fileLines_step size (before++ '\n'::t) hs (by simp), fgets]
    dsimp only
    generalize hm : min (size-1)
      (((before++ '\n'::t).takeWhile (fun c => c ≠ '\n')).length+1) = m
    rcases Nat.lt_or_ge before.length m with hlt | hge
    · -- the piece ends with the newline before the text
      have hlast : m = (before++['\n']).length := by
        rw [List.length_append, List.length_singleton]
        omega
      have hsplit : before++ '\n'::t = (before++['\n'])++t := by simp
      rw [hsplit, hlast, List.drop_left]
      exact List.subset_cons_self _ _
    · rw [List.drop_append_of_le_length hge]
      have hdrop := ih (before.drop m).length (by rw [List.length_drop]; omega) (before.drop m) rfl
      exact fun x hx => List.mem_cons_of_mem _ (hdrop hx)

/-- A line is read in pieces of the size of the buffer; the last one has its
newline as well. -/
theorem line_piece (line rest : Text) (hs : 2 ≤ size) (hl : '\n' ∉ line) (hr : LineEnd rest)
    (k : ℕ) (hk : (size-1)*k < line.length) :
    ∃ ending, (ending = [] ∨ ending = ['\n']) ∧
      (line.drop ((size-1)*k)).take (size-1)++ending ∈ fileLines size (line++rest) := by
  induction k generalizing line with
  | zero =>
    have hne : line++rest ≠ [] :=
      List.append_ne_nil_of_left_ne_nil (List.ne_nil_of_length_pos (by omega)) rest
    rw [Nat.mul_zero, List.drop_zero, fileLines_step size _ hs hne, fgets,
      takeWhile_lineEnd line rest hl hr]
    dsimp only
    by_cases hlong : size-1 ≤ line.length
    · refine ⟨[], Or.inl rfl, ?_⟩
      rw [Nat.min_eq_left (by omega), List.take_append_of_le_length hlong, List.append_nil]
      exact List.mem_cons_self
    · have hmin : min (size-1) (line.length+1) = line.length+1 := by omega
      have htake : line.take (size-1) = line := List.take_of_length_le (by omega)
      rw [hmin, List.take_length_add_append, htake]
      refine ⟨rest.take 1, ?_, List.mem_cons_self⟩
      rcases hr with rfl | ⟨next, rfl⟩
      · exact Or.inl rfl
      · exact Or.inr rfl
  | succ k ih =>
    rw [Nat.mul_succ] at hk ⊢
    have hlong : size-1 ≤ line.length := by omega
    have hne : line++rest ≠ [] :=
      List.append_ne_nil_of_left_ne_nil (List.ne_nil_of_length_pos (by omega)) rest
    obtain ⟨ending, hending, hmem⟩ := ih (line.drop (size-1))
      (fun h => hl (List.mem_of_mem_drop h)) (by rw [List.length_drop]; omega)
    rw [List.drop_drop, Nat.add_comm (size-1)] at hmem
    refine ⟨ending, hending, ?_⟩
    rw [fileLines_step size _ hs hne, fgets, takeWhile_lineEnd line rest hl hr]
    dsimp only
    rw [Nat.min_eq_left (by omega), List.drop_append_of_le_length hlong]
    exact List.mem_cons_of_mem _ hmem

/-- The pieces of every line of a table are read. -/
theorem table_piece (table line : Text) (hs : 2 ≤ size) (h : IsLine table line) (k : ℕ)
    (hk : (size-1)*k < line.length) :
    ∃ ending, (ending = [] ∨ ending = ['\n']) ∧
      (line.drop ((size-1)*k)).take (size-1)++ending ∈ fileLines size table := by
  obtain ⟨hl, before, rest, rfl, hr, hb⟩ := h
  obtain ⟨ending, hending, hmem⟩ := line_piece size line rest hs hl hr k hk
  refine ⟨ending, hending, ?_⟩
  rcases hb with rfl | ⟨earlier, rfl⟩
  · exact hmem
  · have hsplit : earlier++['\n']++line++rest = earlier++ '\n'::(line++rest) := by simp
    rw [hsplit]
    exact pieces_after size earlier (line++rest) hs hmem

end Pieces

/-- The first field of a line, which starts behind the blanks. -/
def FirstField (line : Text) (start : ℕ) (field : Text) : Prop :=
  ∃ blanks rest, line = blanks++field++rest ∧ blanks.length = start ∧
    (∀ c ∈ blanks, isSpace c = true) ∧ field ≠ [] ∧ (∀ c ∈ field, isSpace c = false) ∧
    ∀ c ∈ rest.head?, isSpace c = true

/-- The device itself or one of its partitions. -/
def NamesDevice (devicePath field : Text) : Prop :=
  field = devicePath ∨ ∃ digits, digits ≠ [] ∧ (∀ c ∈ digits, c.isDigit = true) ∧
    (field = devicePath++digits ∨ field = devicePath++ 'p'::digits)

/-- The field lies within one of the pieces that a line is read in. -/
def OnePiece (start : ℕ) (field : Text) : Prop := start/1023 = (start+field.length-1)/1023

theorem cstr_append (t u : Text) (h : nul ∉ t) : cstr (t++u) = t++cstr u := by
  rw [cstr, List.takeWhile_append_of_pos]
  · rfl
  · intro c hc
    have hne : c ≠ nul := fun he => h (he ▸ hc)
    simpa using hne

theorem blank_ended (blanks : Text) (h : ∀ c ∈ blanks, isSpace c = true) : nul ∉ blanks :=
  fun hc => absurd (h nul hc) (by decide)

theorem space_stops (rest : Text) (hr : ∀ c ∈ rest.head?, isSpace c = true) :
    (cstr rest).takeWhile (fun c => !isSpace c) = [] := by
  cases rest with
  | nil => rfl
  | cons c rest =>
    have hc : isSpace c = true := hr c rfl
    have hne : c ≠ nul := by
      rintro rfl
      exact absurd hc (by decide)
    rw [cstr, List.takeWhile_cons_of_pos (by simpa using hne),
      List.takeWhile_cons_of_neg (by simpa using hc)]

/-- The first field is what is scanned, up to the width. -/
theorem field_scanned (blanks field rest : Text) (hb : ∀ c ∈ blanks, isSpace c = true)
    (hne : field ≠ []) (hf : ∀ c ∈ field, isSpace c = false) (hended : nul ∉ field)
    (hr : ∀ c ∈ rest.head?, isSpace c = true) :
    scanWord 511 (blanks++field++rest) = some (field.take 511) := by
  have hword : ((cstr (blanks++field++rest)).dropWhile isSpace).takeWhile
      (fun c => !isSpace c) = field := by
    rw [List.append_assoc, cstr_append blanks _ (blank_ended blanks hb),
      cstr_append field _ hended, List.dropWhile_append_of_pos hb]
    obtain ⟨c, field', rfl⟩ := List.exists_cons_of_ne_nil hne
    have hc : ¬ isSpace c = true := by
      rw [hf c List.mem_cons_self]
      decide
    rw [List.cons_append, List.dropWhile_cons_of_neg hc, ← List.cons_append,
      List.takeWhile_append_of_pos (fun d hd => by rw [hf d hd]; rfl), space_stops rest hr,
      List.append_nil]
  rw [scanWord, hword, if_neg]
  obtain ⟨c, field', rfl⟩ := List.exists_cons_of_ne_nil hne
  simp

theorem named_entry (devicePath field : Text) (h : NamesDevice devicePath field)
    (hl : field.length ≤ 511 ∨ devicePath.length < 511) :
    mountEntry devicePath (field.take 511) = true := by
  have hpartition : ∀ c tail, (c.isDigit = true ∨ c = 'p') → field = devicePath++c::tail →
      mountEntry devicePath (field.take 511) = true := by
    rintro c tail hc rfl
    have hlt : devicePath.length < 511 := by
      rcases hl with hl | hl
      · rw [List.length_append, List.length_cons] at hl
        omega
      · exact hl
    obtain ⟨k, hk⟩ : ∃ k, 511-devicePath.length = k+1 := ⟨510-devicePath.length, by omega⟩
    have htake : (devicePath++c::tail).take 511 = devicePath++c::tail.take k := by
      rw [List.take_append, List.take_of_length_le (Nat.le_of_lt hlt), hk, List.take_succ_cons]
    have hnext : (c.isDigit || c = 'p') = true := by
      rcases hc with hc | hc <;> simp [hc]
    rw [htake, mountEntry, List.drop_left]
    dsimp only
    rw [hnext, List.isPrefixOf_iff_prefix.mpr (List.prefix_append _ _), Bool.and_self,
      Bool.or_true]
  rcases h with rfl | ⟨digits, hne, hdigits, hfield⟩
  · have htake : field.take 511 = field := List.take_of_length_le (by omega)
    rw [htake, mountEntry, decide_eq_true rfl, Bool.true_or]
  · obtain ⟨c, tail, rfl⟩ := List.exists_cons_of_ne_nil hne
    rcases hfield with hfield | hfield
    · exact hpartition c tail (Or.inl (hdigits c List.mem_cons_self)) hfield
    · exact hpartition 'p' _ (Or.inr rfl) hfield

/-- Some line of the table has a first field, not cut by the reading, that names
the device. -/
def Listed (table devicePath : Text) : Prop :=
  ∃ line start field, IsLine table line ∧ FirstField line start field ∧ OnePiece start field ∧
    NamesDevice devicePath field

theorem numbered_ended (name digits : Text) (hname : nul ∉ name)
    (hdigits : ∀ c ∈ digits, c.isDigit = true) :
    nul ∉ name++digits ∧ nul ∉ name++ 'p'::digits := by
  have hdigit : nul ∉ digits := fun hc => absurd (hdigits nul hc) (by decide)
  have hp : nul ∉ 'p'::digits := fun hc =>
    (List.mem_cons.mp hc).elim (by decide) hdigit
  exact ⟨fun hc => (List.mem_append.mp hc).elim hname hdigit,
    fun hc => (List.mem_append.mp hc).elim hname hp⟩

theorem named_ended (devicePath field : Text) (hd : nul ∉ devicePath)
    (h : NamesDevice devicePath field) : nul ∉ field := by
  rcases h with rfl | ⟨digits, _, hdigits, rfl | rfl⟩
  · exact hd
  · exact (numbered_ended devicePath digits hd hdigits).1
  · exact (numbered_ended devicePath digits hd hdigits).2

theorem field_piece (line field : Text) (start : ℕ) (hfirst : FirstField line start field)
    (hpiece : OnePiece start field) (ending : Text) (hending : ending = [] ∨ ending = ['\n'])
    (hended : nul ∉ field) :
    scanWord 511 ((line.drop (1023*(start/1023))).take 1023++ending) = some (field.take 511) := by
  obtain ⟨blanks, rest, rfl, rfl, hb, hne, hf, hr⟩ := hfirst
  have hpos : 0 < field.length := List.length_pos_iff.mpr hne
  rw [OnePiece] at hpiece
  have hdrop : 1023*(blanks.length/1023) ≤ blanks.length := Nat.mul_div_le _ _
  generalize hq : 1023*(blanks.length/1023) = skipped at hdrop ⊢
  have hfits : (blanks.drop skipped++field).length ≤ 1023 := by
    rw [List.length_append, List.length_drop]
    omega
  have hsplit : (blanks++field++rest).drop skipped = blanks.drop skipped++field++rest := by
    rw [List.append_assoc, List.drop_append_of_le_length hdrop, List.append_assoc]
  rw [hsplit, List.take_append, List.take_of_length_le hfits, List.append_assoc,
    List.append_assoc]
  generalize 1023-(blanks.drop skipped++field).length = left
  have hspace : ∀ c ∈ (rest.take left++ending).head?, isSpace c = true := by
    intro c hc
    cases htake : rest.take left with
    | nil =>
      rw [htake, List.nil_append] at hc
      rcases hending with rfl | rfl
      · contradiction
      · obtain rfl := Option.some.inj hc
        decide
    | cons d tail =>
      rw [htake] at hc
      obtain rfl := Option.some.inj hc
      refine hr d ?_
      cases rest with
      | nil => simp at htake
      | cons e rest =>
        cases left with
        | zero => simp at htake
        | succ left => exact congrArg some (List.cons.inj htake).1
  rw [← List.append_assoc]
  exact field_scanned (blanks.drop skipped) field _ (fun c hc => hb c (List.mem_of_mem_drop hc)) hne
    hf hended hspace

theorem listed_mounted (procMounts mtab : Option Text) (table devicePath line field : Text)
    (start : ℕ) (htable : procMounts.or mtab = some table) (hd : nul ∉ devicePath)
    (hline : IsLine table line) (hfirst : FirstField line start field)
    (hpiece : OnePiece start field) (hname : NamesDevice devicePath field)
    (hl : field.length ≤ 511 ∨ devicePath.length < 511) :
    deviceIsMounted procMounts mtab devicePath = true := by
  have hstart : 1023*(start/1023) < line.length := by
    obtain ⟨blanks, rest, rfl, rfl, _, hne, _, _⟩ := hfirst
    have hpos : 0 < field.length := List.length_pos_iff.mpr hne
    rw [List.length_append, List.length_append]
    omega
  obtain ⟨ending, hending, hmem⟩ :=
    table_piece 1024 table line (by decide) hline (start/1023) hstart
  have hscan := field_piece line field start hfirst hpiece ending hending
    (named_ended devicePath field hd hname)
  rw [deviceIsMounted, htable]
  dsimp only
  rw [List.any_eq_true]
  refine ⟨_, hmem, ?_⟩
  rw [hscan]
  exact named_entry devicePath field hname hl

/-- Every line whose first field names the device and lies in one piece makes the
device a mounted one. -/
theorem mount_found (cap : ℕ) (procMounts mtab : Option Text) (table line field : Text)
    (devicePath : CString cap) (start : ℕ) (htable : procMounts.or mtab = some table)
    (hline : IsLine table line) (hfirst : FirstField line start field)
    (hl : field.length ≤ 511) (hpiece : OnePiece start field)
    (hname : NamesDevice devicePath.chars field) :
    deviceIsMounted procMounts mtab devicePath.chars = true :=
  listed_mounted procMounts mtab table devicePath.chars line field start htable devicePath.ended
    hline hfirst hpiece hname (Or.inl hl)

/-- A field at the beginning of its line lies in one piece. -/
theorem onePiece_start (field : Text) (hl : field.length ≤ 1023) : OnePiece 0 field := by
  rw [OnePiece]
  omega

def firstPartition : Text := "/dev/sda1 / ext4 rw 0 0".toList

theorem firstPartition_field (blanks : Text) (hb : ∀ c ∈ blanks, isSpace c = true) :
    FirstField (blanks++firstPartition) blanks.length "/dev/sda1".toList :=
  ⟨blanks, " / ext4 rw 0 0".toList, by rw [List.append_assoc]; rfl, rfl, hb, by decide,
    by simp [isSpace], by simp [isSpace]⟩

theorem firstPartition_names : NamesDevice "/dev/sda".toList "/dev/sda1".toList :=
  Or.inr ⟨"1".toList, by decide, by simp, Or.inl rfl⟩

theorem mount_found_partition :
    deviceIsMounted (some (firstPartition++['\n'])) none "/dev/sda".toList = true :=
  mount_found 256 (some (firstPartition++['\n'])) none (firstPartition++['\n']) firstPartition
    "/dev/sda1".toList (printed256 "/dev/sda".toList) 0 rfl
    ⟨by decide, [], ['\n'], rfl, Or.inr ⟨[], rfl⟩, Or.inl rfl⟩ (firstPartition_field [] (by simp))
    (by decide) (onePiece_start _ (by decide)) firstPartition_names

def blanksBefore : Text := List.replicate 1020 ' '

theorem mount_missed :
    IsLine (blanksBefore++firstPartition++['\n']) (blanksBefore++firstPartition) ∧
      FirstField (blanksBefore++firstPartition) 1020 "/dev/sda1".toList ∧
      "/dev/sda1".toList.length ≤ 511 ∧
      NamesDevice "/dev/sda".toList "/dev/sda1".toList ∧
      deviceIsMounted (some (blanksBefore++firstPartition++['\n'])) none "/dev/sda".toList =
        false := by
  have hblank : ∀ c ∈ blanksBefore, isSpace c = true := by
    intro c hc
    rw [List.eq_of_mem_replicate hc]
    decide
  have hline : '\n' ∉ blanksBefore++firstPartition := by
    intro hc
    rcases List.mem_append.mp hc with hc | hc
    · exact absurd (List.eq_of_mem_replicate hc) (by decide)
    · exact absurd hc (by decide)
  have hfield := firstPartition_field blanksBefore hblank
  rw [blanksBefore, List.length_replicate] at hfield
  exact ⟨⟨hline, [], ['\n'], rfl, Or.inr ⟨[], rfl⟩, Or.inl rfl⟩, hfield, by decide,
    firstPartition_names, by decide +kernel⟩

end EraseCure.MountTables
