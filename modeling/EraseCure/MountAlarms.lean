import EraseCure.MountTables

/-!
# Entries of other disks

A word of the mount table is taken for a partition of a disk when it goes on with
a digit or with `p`, whatever the name of the disk ends in and whatever comes
after. So a disk is told apart from some of the others only.
-/

set_option autoImplicit false

namespace EraseCure.MountAlarms
open EraseCure.CText EraseCure.FileSystems EraseCure.MountTables

def Digits (t : Text) : Prop := t ≠ [] ∧ ∀ c ∈ t, c.isDigit = true

def Lettered (disk : Text) : Prop :=
  ∃ kind ∈ ["/dev/sd".toList, "/dev/hd".toList, "/dev/vd".toList], ∃ letters,
    letters ≠ [] ∧ (∀ c ∈ letters, c.isAlpha = true) ∧ disk = kind++letters

def Namespaced (disk : Text) : Prop :=
  ∃ x y, Digits x ∧ Digits y ∧ disk = "/dev/nvme".toList++(x++ 'n'::y)

def Carded (disk : Text) : Prop := ∃ x, Digits x ∧ disk = "/dev/mmcblk".toList++x

def WholeDisk (disk : Text) : Prop := Lettered disk ∨ Namespaced disk ∨ Carded disk

def EndsIn (p : Char → Bool) (disk : Text) : Prop := ∃ start c, disk = start++[c] ∧ p c = true

/-- The disk itself, or a number after it that is set apart by `p` when the disk
ends in a digit. -/
def OwnName (disk field : Text) : Prop :=
  field = disk ∨ ∃ digits, Digits digits ∧
    ((EndsIn Char.isAlpha disk ∧ field = disk++digits) ∨
      (EndsIn Char.isDigit disk ∧ field = disk++ 'p'::digits))

/-- Some line of the table has a first field that names the disk or one of its own
partitions. -/
def OwnListed (table disk : Text) : Prop :=
  ∃ line start field, IsLine table line ∧ FirstField line start field ∧ OwnName disk field

/-- The disk, and after it what makes no partition of its own: a `p`, or a number
that does not end the name, when the disk ends in a letter, and a digit, or a `p`
without a number that ends the name, when it ends in a digit. -/
def ForeignName (disk word : Text) : Prop :=
  ∃ next rest, word = disk++next::rest ∧
    ((EndsIn Char.isAlpha disk ∧ (next = 'p' ∨ next.isDigit = true ∧ ¬ Digits (next::rest))) ∨
      (EndsIn Char.isDigit disk ∧ (next.isDigit = true ∨ next = 'p' ∧ ¬ Digits rest)))

/-- The words at the start of the pieces that a table is read in. -/
def wordsRead (table : Text) : List Text := (fileLines 1024 table).filterMap (scanWord 511)

theorem isAlpha_not_digit (c : Char) (h : c.isAlpha = true) : c.isDigit = false := by
  refine Bool.eq_false_iff.mpr fun hdigit => ?_
  have hle := (digit_bound c hdigit).2
  have hletter : (c.isUpper || c.isLower) = true := h
  rcases (Bool.or_eq_true _ _).mp hletter with hupper | hlower
  · have hge : 'A'.val ≤ c.val := (of_decide_eq_true hupper).1
    have : 65 ≤ c.toNat := UInt32.le_iff_toNat_le.mp hge
    omega
  · have hge : 'a'.val ≤ c.val := of_decide_eq_true ((Bool.and_eq_true _ _).mp hlower).1
    have : 97 ≤ c.toNat := UInt32.le_iff_toNat_le.mp hge
    omega

theorem endsIn_last (p : Char → Bool) (start : Text) (c : Char) :
    EndsIn p (start++[c]) ↔ p c = true := by
  constructor
  · rintro ⟨start', c', h, hc⟩
    obtain ⟨_, h⟩ := List.append_inj' h rfl
    rwa [(List.cons.inj h).1]
  · exact fun hc => ⟨start, c, rfl, hc⟩

theorem endsIn_tail (p : Char → Bool) (start tail : Text) (hne : tail ≠ [])
    (h : ∀ c ∈ tail, p c = true) : EndsIn p (start++tail) := by
  refine ⟨start++tail.dropLast, tail.getLast hne, ?_, h _ (List.getLast_mem hne)⟩
  rw [List.append_assoc, List.dropLast_append_getLast hne]

theorem wholeDisk_ends (disk : Text) (hd : WholeDisk disk) :
    EndsIn Char.isAlpha disk ∨ EndsIn Char.isDigit disk := by
  rcases hd with ⟨kind, _, letters, hne, hl, rfl⟩ | ⟨x, y, _, hy, rfl⟩ | ⟨x, hx, rfl⟩
  · exact Or.inl (endsIn_tail _ kind letters hne hl)
  · right
    have hsplit : "/dev/nvme".toList++(x++ 'n'::y) = ("/dev/nvme".toList++x++['n'])++y := by simp
    rw [hsplit]
    exact endsIn_tail _ _ y hy.1 hy.2
  · exact Or.inr (endsIn_tail _ _ x hx.1 hx.2)

theorem entry_next (disk word : Text) : mountEntry disk word = true ↔
    word = disk ∨ ∃ next rest, word = disk++next::rest ∧ (next.isDigit = true ∨ next = 'p') := by
  rw [mountEntry, Bool.or_eq_true, decide_eq_true_eq, Bool.and_eq_true,
    List.isPrefixOf_iff_prefix]
  apply or_congr_right
  constructor
  · rintro ⟨⟨rest, rfl⟩, hnext⟩
    rw [List.drop_left] at hnext
    cases rest with
    | nil => contradiction
    | cons next rest => exact ⟨next, rest, rfl, by simpa using hnext⟩
  · rintro ⟨next, rest, rfl, hnext⟩
    rw [List.drop_left]
    exact ⟨List.prefix_append _ _, by simpa using hnext⟩

/-- A word is taken for the disk or a partition of it when it is one, and when it
is foreign. -/
theorem entry_iff (disk word : Text) (hd : WholeDisk disk) :
    mountEntry disk word = true ↔ OwnName disk word ∨ ForeignName disk word := by
  rw [entry_next]
  constructor
  · rintro (rfl | ⟨next, rest, rfl, hnext⟩)
    · exact Or.inl (Or.inl rfl)
    rcases wholeDisk_ends disk hd with hend | hend
    · rcases hnext with hnext | hnext
      · by_cases hall : Digits (next::rest)
        · exact Or.inl (Or.inr ⟨_, hall, Or.inl ⟨hend, rfl⟩⟩)
        · exact Or.inr ⟨next, rest, rfl, Or.inl ⟨hend, Or.inr ⟨hnext, hall⟩⟩⟩
      · exact Or.inr ⟨next, rest, rfl, Or.inl ⟨hend, Or.inl hnext⟩⟩
    · rcases hnext with hnext | rfl
      · exact Or.inr ⟨next, rest, rfl, Or.inr ⟨hend, Or.inl hnext⟩⟩
      · by_cases hall : Digits rest
        · exact Or.inl (Or.inr ⟨rest, hall, Or.inr ⟨hend, rfl⟩⟩)
        · exact Or.inr ⟨'p', rest, rfl, Or.inr ⟨hend, Or.inr ⟨rfl, hall⟩⟩⟩
  · rintro ((rfl | ⟨digits, hdigits, ⟨_, rfl⟩ | ⟨_, rfl⟩⟩) |
      ⟨next, rest, rfl, ⟨_, hnext⟩ | ⟨_, hnext⟩⟩)
    · exact Or.inl rfl
    · obtain ⟨c, rest, rfl⟩ := List.exists_cons_of_ne_nil hdigits.1
      exact Or.inr ⟨c, rest, rfl, Or.inl (hdigits.2 c List.mem_cons_self)⟩
    · exact Or.inr ⟨'p', digits, rfl, Or.inr rfl⟩
    · exact Or.inr ⟨next, rest, rfl, hnext.elim Or.inr fun h => Or.inl h.1⟩
    · exact Or.inr ⟨next, rest, rfl, hnext.elim Or.inl fun h => Or.inr h.1⟩

/-- The table that is read, if one of the two can be opened. -/
def tableRead (procMounts mtab : Option Text) : Text := (procMounts.or mtab).getD []

theorem mounted_words (procMounts mtab : Option Text) (disk : Text) :
    deviceIsMounted procMounts mtab disk = true ↔
      ∃ word ∈ wordsRead (tableRead procMounts mtab), mountEntry disk word = true := by
  rw [deviceIsMounted, tableRead]
  cases procMounts.or mtab with
  | none => simp [wordsRead, fileLines, readLines]
  | some table =>
    dsimp only [Option.getD_some]
    rw [List.any_eq_true]
    constructor
    · rintro ⟨piece, hpiece, hentry⟩
      cases hscan : scanWord 511 piece with
      | none =>
        rw [hscan] at hentry
        contradiction
      | some word =>
        rw [hscan] at hentry
        exact ⟨word, List.mem_filterMap.mpr ⟨piece, hpiece, hscan⟩, hentry⟩
    · rintro ⟨word, hword, hentry⟩
      obtain ⟨piece, hpiece, hscan⟩ := List.mem_filterMap.mp hword
      refine ⟨piece, hpiece, ?_⟩
      rw [hscan]
      exact hentry

/-- An alarm is true when the disk is listed, and there is none when no piece of
the table starts with a name of its own or a foreign one. -/
theorem no_false_alarm_iff (procMounts mtab : Option Text) (disk : Text) (hd : WholeDisk disk) :
    (deviceIsMounted procMounts mtab disk = true →
      OwnListed (tableRead procMounts mtab) disk) ↔
        OwnListed (tableRead procMounts mtab) disk ∨
          ∀ word ∈ wordsRead (tableRead procMounts mtab),
            ¬ OwnName disk word ∧ ¬ ForeignName disk word := by
  rw [mounted_words]
  constructor
  · intro h
    by_cases hlisted : OwnListed (tableRead procMounts mtab) disk
    · exact Or.inl hlisted
    · refine Or.inr fun word hword => not_or.mp fun hname => hlisted (h ⟨word, hword, ?_⟩)
      exact (entry_iff disk word hd).mpr hname
  · rintro (hlisted | hclear) ⟨word, hword, hentry⟩
    · exact hlisted
    · exact absurd ((entry_iff disk word hd).mp hentry) (not_or.mpr (hclear word hword))

theorem number_unique (x x' y y' : Text) (hx : ∀ c ∈ x, c.isDigit = true)
    (hx' : ∀ c ∈ x', c.isDigit = true) (h : x++ 'n'::y = x'++ 'n'::y') : y = y' := by
  have hstop : ∀ z u : Text, (∀ c ∈ z, c.isDigit = true) →
      (z++ 'n'::u).dropWhile Char.isDigit = 'n'::u := by
    intro z u hz
    rw [List.dropWhile_append_of_pos hz, List.dropWhile_cons_of_neg (by decide)]
  have hdrop := congrArg (List.dropWhile Char.isDigit) h
  rw [hstop x y hx, hstop x' y' hx'] at hdrop
  exact (List.cons.inj hdrop).2

/-- The name of a disk after its first seven characters, which tell its kind. -/
def Body (stem body : Text) : Prop :=
  (stem ∈ ["/dev/sd".toList, "/dev/hd".toList, "/dev/vd".toList] ∧ body ≠ [] ∧
    ∀ c ∈ body, c.isAlpha = true) ∨
  (stem = "/dev/nv".toList ∧ ∃ x y, Digits x ∧ Digits y ∧ body = "me".toList++(x++ 'n'::y)) ∨
  (stem = "/dev/mm".toList ∧ ∃ x, Digits x ∧ body = "cblk".toList++x)

theorem disk_body (disk : Text) (hd : WholeDisk disk) :
    ∃ stem body, disk = stem++body ∧ stem.length = 7 ∧ Body stem body := by
  rcases hd with ⟨kind, hkind, letters, hne, hl, rfl⟩ | ⟨x, y, hx, hy, rfl⟩ | ⟨x, hx, rfl⟩
  · have hseven : ∀ k ∈ ["/dev/sd".toList, "/dev/hd".toList, "/dev/vd".toList], k.length = 7 := by
      decide
    exact ⟨kind, letters, rfl, hseven kind hkind, Or.inl ⟨hkind, hne, hl⟩⟩
  · exact ⟨"/dev/nv".toList, _, rfl, rfl, Or.inr (Or.inl ⟨rfl, x, y, hx, hy, rfl⟩)⟩
  · exact ⟨"/dev/mm".toList, _, rfl, rfl, Or.inr (Or.inr ⟨rfl, x, hx, rfl⟩)⟩

/-- One disk whose name begins with that of another has more letters, or more
digits at its end. -/
theorem longer_disk (other tail : Text) (hd : WholeDisk (other++tail)) (ho : WholeDisk other) :
    (EndsIn Char.isAlpha other ∧ ∀ c ∈ tail, c.isAlpha = true) ∨
      (EndsIn Char.isDigit other ∧ ∀ c ∈ tail, c.isDigit = true) := by
  obtain ⟨stem, body, h, hlen, hbody⟩ := disk_body _ hd
  obtain ⟨stem', body', rfl, hlen', hbody'⟩ := disk_body other ho
  rw [List.append_assoc] at h
  obtain ⟨rfl, rfl⟩ := List.append_inj h (hlen'.trans hlen.symm)
  rcases hbody with ⟨hk, _, hl⟩ | ⟨rfl, x, y, hx, hy, hname⟩ | ⟨rfl, x, hx, hname⟩
  · rcases hbody' with ⟨_, hne, hl'⟩ | ⟨rfl, _⟩ | ⟨rfl, _⟩
    · exact Or.inl ⟨endsIn_tail _ _ _ hne hl', fun c hc => hl c (List.mem_append_right _ hc)⟩
    · exact absurd hk (by decide)
    · exact absurd hk (by decide)
  · rcases hbody' with ⟨hk, _⟩ | ⟨_, x', y', hx', hy', rfl⟩ | ⟨hk, _⟩
    · exact absurd hk (by decide)
    · have hrest : x'++ 'n'::(y'++tail) = x++ 'n'::y := by
        rw [List.append_assoc] at hname
        simpa using List.append_cancel_left hname
      have htail := number_unique x' x _ y hx'.2 hx.2 hrest
      have hsplit : "/dev/nv".toList++("me".toList++(x'++ 'n'::y')) =
          ("/dev/nvme".toList++x'++['n'])++y' := by simp
      refine Or.inr ⟨?_, fun c hc => hy.2 c (htail ▸ List.mem_append_right _ hc)⟩
      rw [hsplit]
      exact endsIn_tail _ _ y' hy'.1 hy'.2
    · exact absurd hk (by decide)
  · rcases hbody' with ⟨hk, _⟩ | ⟨hk, _⟩ | ⟨_, x', hx', rfl⟩
    · exact absurd hk (by decide)
    · exact absurd hk (by decide)
    · rw [List.append_assoc] at hname
      have hrest := List.append_cancel_left hname
      refine Or.inr ⟨?_, fun c hc => hx.2 c (hrest ▸ List.mem_append_right _ hc)⟩
      rw [← List.append_assoc]
      exact endsIn_tail _ _ x' hx'.1 hx'.2

theorem ends_exclusive (disk : Text) (ha : EndsIn Char.isAlpha disk)
    (hn : EndsIn Char.isDigit disk) : False := by
  obtain ⟨start, c, rfl, hc⟩ := ha
  rw [endsIn_last, isAlpha_not_digit c hc] at hn
  contradiction

/-- A disk is at the start of an entry of another one only by being at the start of
its name. -/
theorem entry_prefix (disk other word : Text) (hd : WholeDisk disk) (ho : WholeDisk other)
    (hname : OwnName other word) (h : disk <+: word) : disk <+: other := by
  obtain ⟨suffix, rfl⟩ : other <+: word := by
    rcases hname with rfl | ⟨digits, _, ⟨_, rfl⟩ | ⟨_, rfl⟩⟩
    · exact List.prefix_rfl
    all_goals exact List.prefix_append _ _
  rcases List.prefix_or_prefix_of_prefix h (List.prefix_append other suffix) with h | ⟨tail, rfl⟩
  · exact h
  cases tail with
  | nil => rw [List.append_nil]
  | cons c tail =>
    have htail := longer_disk other (c::tail) hd ho
    obtain ⟨rest, rfl⟩ := (List.prefix_append_right_inj other).mp h
    rcases hname with hself | ⟨digits, hdigits, ⟨hend, heq⟩ | ⟨hend, heq⟩⟩
    · exact absurd (congrArg List.length hself) (by simp)
    · obtain rfl := List.append_cancel_left heq
      have hdigit := hdigits.2 c (by simp)
      rcases htail with ⟨_, hall⟩ | ⟨hend', _⟩
      · rw [isAlpha_not_digit c (hall c List.mem_cons_self)] at hdigit
        contradiction
      · exact (ends_exclusive other hend hend').elim
    · have hp := List.append_cancel_left heq
      rw [List.cons_append, List.cons.injEq] at hp
      rcases htail with ⟨hend', _⟩ | ⟨_, hall⟩
      · exact (ends_exclusive other hend' hend).elim
      · have hdigit := hall c List.mem_cons_self
        rw [hp.1] at hdigit
        contradiction

/-- An entry of another disk raises an alarm exactly when the name of that disk
goes on from this one with a digit or with `p`. -/
theorem other_disk_entry (disk other word : Text) (hd : WholeDisk disk) (ho : WholeDisk other)
    (hne : other ≠ disk) (hname : OwnName other word) : mountEntry disk word = true ↔
      ∃ next rest, other = disk++next::rest ∧ (next.isDigit = true ∨ next = 'p') := by
  have hlonger : ∃ suffix, word = other++suffix := by
    rcases hname with rfl | ⟨digits, _, ⟨_, rfl⟩ | ⟨_, rfl⟩⟩
    · exact ⟨[], (List.append_nil _).symm⟩
    all_goals exact ⟨_, rfl⟩
  rw [entry_next]
  constructor
  · intro hentry
    have hpre : disk <+: word := by
      rcases hentry with rfl | ⟨_, _, rfl, _⟩
      · exact List.prefix_rfl
      · exact List.prefix_append _ _
    obtain ⟨tail, rfl⟩ := entry_prefix disk other word hd ho hname hpre
    cases tail with
    | nil => exact absurd (List.append_nil disk) hne
    | cons c tail =>
      refine ⟨c, tail, rfl, ?_⟩
      obtain ⟨suffix, rfl⟩ := hlonger
      rcases hentry with hself | ⟨next, rest, hword, hnext⟩
      · exact absurd (congrArg List.length hself) (by simp)
      · rw [List.append_assoc, List.cons_append] at hword
        rwa [(List.cons.inj (List.append_cancel_left hword)).1]
  · rintro ⟨next, rest, rfl, hnext⟩
    obtain ⟨suffix, rfl⟩ := hlonger
    exact Or.inr ⟨next, rest++suffix, by rw [List.append_assoc, List.cons_append], hnext⟩

section Fields

/-- Every line is read in one piece, with its first field as a whole. -/
structure PlainTable (table : Text) : Prop where
  lines : ∀ line, IsLine table line → line.length < 1023
  fields : ∀ line start field, IsLine table line → FirstField line start field →
    field.length ≤ 511
  ended : nul ∉ table

theorem line_split (t : Text) : ∃ line rest, t = line++rest ∧ '\n' ∉ line ∧ LineEnd rest := by
  induction t with
  | nil => exact ⟨[], [], rfl, List.not_mem_nil, Or.inl rfl⟩
  | cons c t ih =>
    by_cases hc : c = '\n'
    · exact ⟨[], c::t, rfl, List.not_mem_nil, Or.inr ⟨t, by rw [hc]⟩⟩
    · obtain ⟨line, rest, rfl, hline, hrest⟩ := ih
      refine ⟨c::line, rest, rfl, fun hmem => ?_, hrest⟩
      rcases List.mem_cons.mp hmem with rfl | hmem
      · exact hc rfl
      · exact hline hmem

/-- The pieces are the lines, over what is left of the table. -/
theorem piece_line (table before t : Text) (htable : table = before++t)
    (hlines : ∀ line, IsLine table line → line.length < 1023)
    (hbefore : before = [] ∨ ∃ earlier, before = earlier++['\n']) (piece : Text)
    (h : piece ∈ fileLines 1024 t) : ∃ line ending, IsLine table line ∧
      (ending = [] ∨ ending = ['\n']) ∧ piece = line++ending := by
  induction hn : t.length using Nat.strong_induction_on generalizing before t with
  | _ n ih =>
    subst hn
    by_cases ht : t = []
    · subst ht
      exact absurd h List.not_mem_nil
    obtain ⟨line, rest, hsplit, hline, hrest⟩ := line_split t
    have his : IsLine table line :=
      ⟨hline, before, rest, by rw [htable, hsplit, List.append_assoc], hrest, hbefore⟩
    have hshorter := fgets_shorter 1024 t (by decide) ht
    have hshort := hlines line his
    have hread : fgets 1024 t = (line++rest.take 1, rest.drop 1) := by
      rw [fgets, hsplit, takeWhile_lineEnd line rest hline hrest]
      have hmin : min (1024-1) (line.length+1) = line.length+1 := by omega
      rw [hmin, List.take_length_add_append, List.drop_length_add_append]
    rw [fileLines_step 1024 t (by decide) ht, hread] at h
    rw [hread] at hshorter
    rcases List.mem_cons.mp h with rfl | h
    · refine ⟨line, rest.take 1, his, ?_, rfl⟩
      rcases hrest with rfl | ⟨next, rfl⟩
      · exact Or.inl rfl
      · exact Or.inr rfl
    · rcases hrest with rfl | ⟨next, rfl⟩
      · exact absurd h List.not_mem_nil
      · exact ih next.length hshorter (before++line++['\n']) next
          (by rw [htable, hsplit]; simp) (Or.inr ⟨_, rfl⟩) h rfl

theorem scanned_field (line ending word : Text) (hended : nul ∉ line)
    (hending : ending = [] ∨ ending = ['\n']) (h : scanWord 511 (line++ending) = some word) :
    ∃ start field, FirstField line start field ∧ word = field.take 511 := by
  have hblank : ∀ c ∈ line.takeWhile isSpace, isSpace c = true :=
    fun c hc => List.mem_takeWhile_imp hc
  have hspaces : ∀ c ∈ ending, isSpace c = true := by
    rcases hending with rfl | rfl
    · exact fun c hc => absurd hc List.not_mem_nil
    · exact List.forall_mem_singleton.mpr (by decide)
  have hsplit := List.takeWhile_append_dropWhile (p := isSpace) (l := line)
  generalize line.takeWhile isSpace = blanks at hblank hsplit
  cases htail : line.dropWhile isSpace with
  | nil =>
    -- a line of blanks
    rw [htail, List.append_nil] at hsplit
    subst hsplit
    have hall : ∀ c ∈ blanks++ending, isSpace c = true := by
      intro c hc
      rcases List.mem_append.mp hc with hc | hc
      · exact hblank c hc
      · exact hspaces c hc
    have hcstr : cstr (blanks++ending) = blanks++ending :=
      List.takeWhile_eq_self_iff.mpr fun c hc => by
        have hne : c ≠ nul := fun he => absurd (hall c hc) (by rw [he]; decide)
        simpa using hne
    rw [scanWord, hcstr, List.dropWhile_eq_nil_iff.mpr hall] at h
    contradiction
  | cons c tail =>
    have hfirst : isSpace c = false := by
      have := List.head?_dropWhile_not isSpace line
      rw [htail] at this
      simpa using this
    have hcut := List.takeWhile_append_dropWhile (p := fun c => !isSpace c) (l := c::tail)
    have hfield : ∀ x ∈ (c::tail).takeWhile (fun c => !isSpace c), isSpace x = false := fun x hx =>
      by simpa using List.mem_takeWhile_imp hx
    have hrest : ∀ x ∈ ((c::tail).dropWhile (fun c => !isSpace c)).head?, isSpace x = true := by
      intro x hx
      have := List.head?_dropWhile_not (fun c => !isSpace c) (c::tail)
      rw [Option.mem_def.mp hx] at this
      simpa using this
    have hne : (c::tail).takeWhile (fun c => !isSpace c) ≠ [] := by
      rw [List.takeWhile_cons_of_pos (by rw [hfirst]; rfl)]
      exact List.cons_ne_nil _ _
    generalize (c::tail).takeWhile (fun c => !isSpace c) = field at hcut hfield hne
    generalize (c::tail).dropWhile (fun c => !isSpace c) = rest at hcut hrest
    have hline : line = blanks++field++rest := by rw [← hsplit, htail, ← hcut, List.append_assoc]
    refine ⟨blanks.length, field, ⟨blanks, rest, hline, rfl, hblank, hne, hfield, hrest⟩, ?_⟩
    rw [hline, List.append_assoc, field_scanned blanks field (rest++ending) hblank hne hfield
      (fun hmem => hended (by rw [hline]; simp [hmem])) (fun x hx => ?_)] at h
    · exact (Option.some.inj h).symm
    · rcases List.eq_nil_or_concat rest with rfl | ⟨_, _, rfl⟩
      · exact hspaces x (List.mem_of_mem_head? hx)
      · rw [List.head?_append_of_ne_nil _ (by simp)] at hx
        exact hrest x hx

variable (table : Text) (hplain : PlainTable table)
include hplain

theorem plain_words (word : Text) : word ∈ wordsRead table ↔
    ∃ line start, IsLine table line ∧ FirstField line start word := by
  rw [wordsRead, List.mem_filterMap]
  constructor
  · rintro ⟨piece, hpiece, hscan⟩
    obtain ⟨line, ending, hline, hending, rfl⟩ :=
      piece_line table [] table rfl hplain.lines (Or.inl rfl) piece hpiece
    have hended : nul ∉ line := by
      obtain ⟨_, before, rest, htable, _⟩ := hline
      exact fun hmem => hplain.ended (by rw [htable]; simp [hmem])
    obtain ⟨start, field, hfirst, rfl⟩ := scanned_field line ending word hended hending hscan
    rw [List.take_of_length_le (hplain.fields line start field hline hfirst)]
    exact ⟨line, start, hline, hfirst⟩
  · rintro ⟨line, start, hline, hfirst⟩
    have hshort := hplain.lines line hline
    have hlong : start+word.length ≤ line.length ∧ 0 < word.length := by
      obtain ⟨blanks, rest, rfl, rfl, _, hne, _⟩ := hfirst
      rw [List.length_append, List.length_append]
      exact ⟨by omega, List.length_pos_iff.mpr hne⟩
    have hended : nul ∉ word := by
      obtain ⟨_, before, rest, htable, _⟩ := hline
      obtain ⟨blanks, behind, rfl, _⟩ := hfirst
      exact fun hmem => hplain.ended (by rw [htable]; simp [hmem])
    have hpiece : OnePiece start word := by
      rw [OnePiece]
      omega
    obtain ⟨ending, hending, hmem⟩ := table_piece 1024 table line (by decide) hline (start/1023)
      (by omega)
    refine ⟨_, hmem, ?_⟩
    rw [field_piece line word start hfirst hpiece ending hending hended,
      List.take_of_length_le (hplain.fields line start word hline hfirst)]

end Fields

/-- Where the lines fit, the alarms are told by their first fields: there is no false one
when the disk is listed or no field is foreign. -/
theorem plain_alarm_iff (procMounts mtab : Option Text) (disk : Text) (hd : WholeDisk disk)
    (hplain : PlainTable (tableRead procMounts mtab)) :
    (deviceIsMounted procMounts mtab disk = true → OwnListed (tableRead procMounts mtab) disk) ↔
      OwnListed (tableRead procMounts mtab) disk ∨
        ∀ line start field, IsLine (tableRead procMounts mtab) line →
          FirstField line start field → ¬ ForeignName disk field := by
  rw [mounted_words]
  constructor
  · intro h
    by_cases hlisted : OwnListed (tableRead procMounts mtab) disk
    · exact Or.inl hlisted
    · refine Or.inr fun line start field hline hfirst hforeign => hlisted (h ⟨field, ?_, ?_⟩)
      · exact (plain_words _ hplain field).mpr ⟨line, start, hline, hfirst⟩
      · exact (entry_iff disk field hd).mpr (Or.inr hforeign)
  · rintro (hlisted | hclear) ⟨word, hword, hentry⟩
    · exact hlisted
    · obtain ⟨line, start, hline, hfirst⟩ := (plain_words _ hplain word).mp hword
      rcases (entry_iff disk word hd).mp hentry with hown | hforeign
      · exact ⟨line, start, word, hline, hfirst, hown⟩
      · exact absurd hforeign (hclear line start word hline hfirst)

/-- Where the lines fit and begin with the names of disks and their partitions, an alarm
is raised by the disk itself, or by a disk whose name goes on from its with a digit or
with `p`. -/
theorem disks_alarm_iff (procMounts mtab : Option Text) (disk : Text) (hd : WholeDisk disk)
    (hplain : PlainTable (tableRead procMounts mtab))
    (hdisks : ∀ line start field, IsLine (tableRead procMounts mtab) line →
      FirstField line start field → ∃ other, WholeDisk other ∧ OwnName other field) :
    deviceIsMounted procMounts mtab disk = true ↔
      OwnListed (tableRead procMounts mtab) disk ∨
        ∃ line start field other next rest, IsLine (tableRead procMounts mtab) line ∧
          FirstField line start field ∧ WholeDisk other ∧ OwnName other field ∧
          other = disk++next::rest ∧ (next.isDigit = true ∨ next = 'p') := by
  rw [mounted_words]
  constructor
  · rintro ⟨word, hword, hentry⟩
    obtain ⟨line, start, hline, hfirst⟩ := (plain_words _ hplain word).mp hword
    obtain ⟨other, hother, hname⟩ := hdisks line start word hline hfirst
    by_cases hsame : other = disk
    · exact Or.inl ⟨line, start, word, hline, hfirst, hsame ▸ hname⟩
    · obtain ⟨next, rest, hlonger⟩ := (other_disk_entry disk other word hd hother hsame hname).mp
        hentry
      exact Or.inr ⟨line, start, word, other, next, rest, hline, hfirst, hother, hname, hlonger⟩
  · rintro (⟨line, start, field, hline, hfirst, hown⟩ |
      ⟨line, start, field, other, next, rest, hline, hfirst, hother, hname, hlonger⟩)
    · exact ⟨field, (plain_words _ hplain field).mpr ⟨line, start, hline, hfirst⟩,
        (entry_iff disk field hd).mpr (Or.inl hown)⟩
    · have hne : other ≠ disk := by
        rw [hlonger.1]
        intro heq
        exact absurd (congrArg List.length heq) (by simp)
      exact ⟨field, (plain_words _ hplain field).mpr ⟨line, start, hline, hfirst⟩,
        (other_disk_entry disk other field hd hother hne hname).mpr ⟨next, rest, hlonger⟩⟩

theorem line_alone (entry line : Text) (he : '\n' ∉ entry) (h : IsLine (entry++['\n']) line) :
    line = entry ∨ line = [] := by
  obtain ⟨hl, before, rest, htable, hrest, rfl | ⟨earlier, rfl⟩⟩ := h
  · left
    rw [List.nil_append] at htable
    rw [← takeWhile_lineEnd line rest hl hrest, ← htable]
    exact takeWhile_line entry [] he
  · right
    rcases List.eq_nil_or_concat (line++rest) with hnil | ⟨init, c, hlast⟩
    · exact (List.append_eq_nil_iff.mp hnil).1
    · rw [List.append_assoc, hlast, List.concat_eq_append, ← List.append_assoc] at htable
      have hentry := (List.append_inj' htable rfl).1
      exact absurd (hentry ▸ List.mem_append_left _ (List.mem_append_right _ List.mem_cons_self)) he

theorem own_ended (disk field : Text) (hd : nul ∉ disk) (h : OwnName disk field) :
    nul ∉ field := by
  rcases h with rfl | ⟨digits, hdigits, ⟨_, rfl⟩ | ⟨_, rfl⟩⟩
  · exact hd
  · exact (numbered_ended disk digits hd hdigits.2).1
  · exact (numbered_ended disk digits hd hdigits.2).2

theorem listed_alone (disk entry word : Text) (hd : nul ∉ disk) (he : '\n' ∉ entry)
    (hscan : scanWord 511 entry = some word) (hlen : word.length < 511)
    (h : OwnListed (entry++['\n']) disk) : OwnName disk word := by
  obtain ⟨line, start, field, hline, ⟨blanks, rest, hsplit, _, hb, hne, hf, hr⟩, hown⟩ := h
  rcases line_alone entry line he hline with rfl | rfl
  · rw [hsplit, field_scanned blanks field rest hb hne hf (own_ended disk field hd hown) hr]
      at hscan
    obtain rfl := Option.some.inj hscan
    rw [List.length_take] at hlen
    rwa [List.take_of_length_le (by omega)]
  · have hnil := List.append_eq_nil_iff.mp hsplit.symm
    exact absurd (List.append_eq_nil_iff.mp hnil.1).2 hne

def otherEntry : Text := "/dev/sdap1 / ext4 rw 0 0".toList

theorem sda_whole : WholeDisk "/dev/sda".toList :=
  Or.inl ⟨"/dev/sd".toList, by decide, "a".toList, by decide, List.all_eq_true.mp rfl, rfl⟩

theorem no_false_alarm_sda : WholeDisk "/dev/sda".toList ∧
    (deviceIsMounted (some "/dev/sdb1 / ext4 rw 0 0\n".toList) none "/dev/sda".toList = true →
      OwnListed (tableRead (some "/dev/sdb1 / ext4 rw 0 0\n".toList) none)
        "/dev/sda".toList) := by
  refine ⟨sda_whole, (no_false_alarm_iff (some "/dev/sdb1 / ext4 rw 0 0\n".toList) none
    "/dev/sda".toList sda_whole).mpr (Or.inr fun word hword => ?_)⟩
  have hwords : wordsRead (tableRead (some "/dev/sdb1 / ext4 rw 0 0\n".toList) none) =
      ["/dev/sdb1".toList] := by decide
  rw [hwords, List.mem_singleton] at hword
  rw [hword, ← not_or, ← entry_iff _ _ sda_whole]
  decide

theorem other_disk_mounted :
    WholeDisk "/dev/sda".toList ∧ WholeDisk "/dev/sdap".toList ∧
      OwnName "/dev/sdap".toList "/dev/sdap1".toList ∧
      deviceIsMounted (some (otherEntry++['\n'])) none "/dev/sda".toList = true ∧
      ¬ OwnListed (tableRead (some (otherEntry++['\n'])) none) "/dev/sda".toList := by
  refine ⟨sda_whole, ?_, ?_, by decide, fun h => ?_⟩
  · exact Or.inl ⟨"/dev/sd".toList, by decide, "ap".toList, by decide, List.all_eq_true.mp rfl, rfl⟩
  · exact Or.inr ⟨"1".toList, ⟨by decide, List.all_eq_true.mp rfl⟩,
      Or.inl ⟨⟨"/dev/sda".toList, 'p', rfl, by decide⟩, rfl⟩⟩
  · have hname := listed_alone "/dev/sda".toList otherEntry "/dev/sdap1".toList (by decide)
      (by decide) (by decide) (by decide) h
    rcases hname with hself | ⟨digits, hdigits, ⟨_, heq⟩ | ⟨hend, _⟩⟩
    · exact absurd hself (by decide)
    · have htail : "/dev/sda".toList++"p1".toList = "/dev/sda".toList++digits := heq
      obtain rfl := List.append_cancel_left htail
      exact absurd (hdigits.2 'p' (by decide)) (by decide)
    · exact ends_exclusive _ ⟨"/dev/sd".toList, 'a', rfl, by decide⟩ hend

end EraseCure.MountAlarms
