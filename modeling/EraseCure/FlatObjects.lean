import EraseCure.JsonTexts
import EraseCure.TextSearch

/-!
# Objects written without escapes

A writer that puts the characters of a string between quotes as they are is
decoded to what it was given exactly when every string is UTF-8 and has no quote,
no backslash and no control character. No text of another kind comes back by
chance: a quote in it would have to be escaped, and so stand there once more,
before itself.
-/

set_option autoImplicit false

namespace EraseCure.FlatObjects
open EraseCure.CText EraseCure.TextSearch EraseCure.JsonTexts

section Strings

theorem hexWord_split (t rest : Text) (n : ℕ) (h : hexWord t = some (n, rest)) :
    ∃ e, t = e++rest ∧ e.length = 4 ∧ '"' ∉ e := by
  match t with
  | [] | [_] | [_, _] | [_, _, _] => contradiction
  | a::b::c::d::t =>
    simp only [hexWord, Option.bind_eq_bind, Option.bind_eq_some_iff] at h
    obtain ⟨x, hx, y, hy, z, hz, w, hw, heq⟩ := h
    obtain ⟨_, rfl⟩ := Prod.mk.inj (Option.some.inj heq)
    refine ⟨[a, b, c, d], rfl, rfl, ?_⟩
    have hquote : ∀ c n, hexValue c = some n → '"' ≠ c := by
      rintro c n hc rfl
      contradiction
    simp only [List.mem_cons, List.not_mem_nil, or_false, not_or]
    exact ⟨hquote a x hx, hquote b y hy, hquote c z hz, hquote d w hw⟩

theorem utf8Bytes_length (n : ℕ) : (utf8Bytes n).length ≤ 4 := by
  rw [utf8Bytes, List.length_map]
  split_ifs <;> exact Nat.le_of_ble_eq_true rfl

theorem lowHalf_split (high : ℕ) (t s rest : Text) (h : lowHalf high t = some (s, rest)) :
    ∃ e, t = e++rest ∧ s.length ≤ e.length ∧ '"' ∉ e := by
  rw [lowHalf.eq_def] at h
  split at h
  · rename_i t
    simp only [Option.bind_eq_bind, Option.bind_eq_some_iff, Prod.exists,
      Option.ite_none_right_eq_some] at h
    obtain ⟨low, rest', hlow, _, heq⟩ := h
    obtain ⟨rfl, rfl⟩ := Prod.mk.inj (Option.some.inj heq)
    obtain ⟨e, rfl, hlen, hquote⟩ := hexWord_split t rest' low hlow
    refine ⟨'\\':: 'u'::e, rfl, ?_, by simpa using hquote⟩
    have := utf8Bytes_length (0x10000+(high-0xD800)*0x400+(low-0xDC00))
    rw [List.length_cons, List.length_cons]
    omega
  · contradiction

theorem codeUnit_split (t s rest : Text) (h : codeUnit t = some (s, rest)) :
    ∃ e, t = e++rest ∧ s.length ≤ e.length ∧ '"' ∉ e := by
  simp only [codeUnit, Option.bind_eq_bind, Option.bind_eq_some_iff, Prod.exists] at h
  obtain ⟨unit, t', hword, h⟩ := h
  obtain ⟨e, rfl, hlen, hquote⟩ := hexWord_split t t' unit hword
  split_ifs at h
  · obtain ⟨e', rfl, hlen', hquote'⟩ := lowHalf_split unit t' s rest h
    refine ⟨e++e', (List.append_assoc _ _ _).symm, ?_, by simp [hquote, hquote']⟩
    rw [List.length_append]
    omega
  · obtain ⟨rfl, rfl⟩ := Prod.mk.inj (Option.some.inj h)
    have := utf8Bytes_length unit
    exact ⟨e, rfl, by omega, hquote⟩

/-- An escape is no shorter than what it stands for, and it has no quote but the
one that it stands for. -/
theorem escape_split (t s rest : Text) (h : escape t = some (s, rest)) :
    ∃ e, t = e++rest ∧ s.length ≤ e.length ∧ ((e = ['"'] ∧ s = ['"']) ∨ '"' ∉ e) := by
  cases t with
  | nil => contradiction
  | cons c t =>
    rw [escape] at h
    by_cases hself : c = '"' ∨ c = '\\' ∨ c = '/'
    · rw [if_pos hself] at h
      obtain ⟨rfl, rfl⟩ := Prod.mk.inj (Option.some.inj h)
      refine ⟨[c], rfl, Nat.le_refl _, ?_⟩
      by_cases hc : c = '"'
      · exact Or.inl ⟨by rw [hc], by rw [hc]⟩
      · exact Or.inr (by simpa using Ne.symm hc)
    · rw [if_neg hself] at h
      have hc : '"' ≠ c := fun hc => hself (Or.inl hc.symm)
      have hone : ∀ d : Char, some ([d], t) = some (s, rest) →
          ∃ e, c::t = e++rest ∧ s.length ≤ e.length ∧ ((e = ['"'] ∧ s = ['"']) ∨ '"' ∉ e) := by
        intro d hd
        obtain ⟨rfl, rfl⟩ := Prod.mk.inj (Option.some.inj hd)
        exact ⟨[c], rfl, Nat.le_refl _, Or.inr (by simpa using hc)⟩
      split_ifs at h
      · exact hone _ h
      · exact hone _ h
      · exact hone _ h
      · exact hone _ h
      · exact hone _ h
      · obtain ⟨e, rfl, hlen, hquote⟩ := codeUnit_split t s rest h
        exact ⟨c::e, rfl, Nat.le_succ_of_le hlen, Or.inr (by simp [hc, hquote])⟩

/-- What was read of a string: it is no shorter than the string, only as long if it
is the string itself, and its first quote comes after one in the string. -/
structure Lexed (u s : Text) : Prop where
  length : s.length ≤ u.length
  plain : s.length = u.length → u = s ∧ Plain u
  earlier : ∀ a b, u = a++ '"'::b → '"' ∉ a → ∃ o < a.length, s[o]? = some '"'

theorem lexed_nil : Lexed [] [] :=
  ⟨Nat.le_refl _, fun _ => ⟨rfl, fun _ hc => absurd hc List.not_mem_nil⟩,
    fun a b h _ => absurd h (by simp)⟩

theorem lexed_cons (c : Char) (u s : Text) (hc : PlainChar c) (h : Lexed u s) :
    Lexed (c::u) (c::s) where
  length := Nat.succ_le_succ h.length
  plain := fun hlen => by
    obtain ⟨rfl, hplain⟩ := h.plain (Nat.succ.inj hlen)
    exact ⟨rfl, List.forall_mem_cons.mpr ⟨hc, hplain⟩⟩
  earlier := fun a b hu ha => by
    cases a with
    | nil => exact absurd (List.cons.inj hu).1 hc.1
    | cons d a =>
      obtain ⟨o, ho, hs⟩ := h.earlier a b (List.cons.inj hu).2 (fun hd => ha (by simp [hd]))
      exact ⟨o+1, Nat.succ_lt_succ ho, hs⟩

theorem lexed_escape (e s u t : Text) (hlen : s.length ≤ e.length)
    (hquote : (e = ['"'] ∧ s = ['"']) ∨ '"' ∉ e) (h : Lexed u t) :
    Lexed ('\\'::(e++u)) (s++t) where
  length := by
    have := h.length
    simp only [List.length_append, List.length_cons]
    omega
  plain := fun heq => by
    have := h.length
    simp only [List.length_append, List.length_cons] at heq
    omega
  earlier := fun a b hu ha => by
    cases a with
    | nil => exact absurd (List.cons.inj hu).1 (by decide)
    | cons d a =>
      have hrest := (List.cons.inj hu).2
      rcases hquote with ⟨rfl, rfl⟩ | hquote
      · exact ⟨0, Nat.succ_pos _, rfl⟩
      · rcases List.append_eq_append_iff.mp hrest with ⟨a', rfl, hu'⟩ | ⟨e', rfl, he'⟩
        · obtain ⟨o, ho, ht⟩ := h.earlier a' b hu' (fun hd => ha (by simp [hd]))
          refine ⟨s.length+o, ?_, ?_⟩
          · rw [List.length_cons, List.length_append]
            omega
          · rw [List.getElem?_append_right (Nat.le_add_right _ _), Nat.add_sub_cancel_left, ht]
        · cases e' with
          | nil =>
            obtain ⟨o, ho, _⟩ := h.earlier [] b he'.symm List.not_mem_nil
            exact absurd ho (Nat.not_lt_zero o)
          | cons f e' =>
            rw [List.cons_append, List.cons.injEq] at he'
            exact absurd (by simp [← he'.1]) hquote

theorem body_lexed (fuel : ℕ) (t s rest : Text) (h : stringBody fuel t = some (s, rest)) :
    ∃ u, t = u++ '"'::rest ∧ Lexed u s := by
  induction fuel generalizing t s with
  | zero => contradiction
  | succ fuel ih =>
    cases t with
    | nil => contradiction
    | cons c t =>
      rw [stringBody] at h
      split_ifs at h with hquote hslash hcontrol
      · obtain ⟨rfl, rfl⟩ := Prod.mk.inj (Option.some.inj h)
        exact ⟨[], by rw [hquote]; rfl, lexed_nil⟩
      · simp only [Option.bind_eq_bind, Option.bind_eq_some_iff, Prod.exists] at h
        obtain ⟨s', t', hescape, rest', t'', hbody, heq⟩ := h
        obtain ⟨rfl, rfl⟩ := Prod.mk.inj (Option.some.inj heq)
        obtain ⟨e, rfl, hlen, hq⟩ := escape_split t s' t' hescape
        obtain ⟨u, rfl, hu⟩ := ih t' rest' hbody
        refine ⟨'\\'::(e++u), by simp [hslash], lexed_escape e s' u rest' hlen hq hu⟩
      · simp only [Option.bind_eq_bind, Option.bind_eq_some_iff, Prod.exists] at h
        obtain ⟨rest', t', hbody, heq⟩ := h
        obtain ⟨rfl, rfl⟩ := Prod.mk.inj (Option.some.inj heq)
        obtain ⟨u, rfl, hu⟩ := ih t rest' hbody
        exact ⟨c::u, rfl, lexed_cons c u rest' ⟨hquote, hslash, by omega⟩ hu⟩

/-- What was read of a string with a quote after it has no quote, if it comes back
as that string. -/
theorem lexed_quote (s r u rest : Text) (hu : Lexed u s) (h : s++ '"'::r = u++ '"'::rest) :
    '"' ∉ u := by
  intro hmem
  obtain ⟨a, b, rfl, hfirst⟩ := List.eq_append_cons_of_mem hmem
  obtain ⟨o, ho, hat⟩ := hu.earlier a b rfl hfirst
  have hs : o < s.length := (List.getElem?_eq_some_iff.mp hat).1
  have hwhole := congrArg (fun t : Text => t[o]?) h
  simp only [List.append_assoc, List.getElem?_append_left hs, List.getElem?_append_left ho]
    at hwhole
  exact hfirst (List.mem_of_getElem? (hwhole.symm.trans hat))

/-- A string that comes back from its own characters is plain, and all of it was
read. -/
theorem body_exact (fuel : ℕ) (s r rest : Text)
    (h : stringBody fuel (s++ '"'::r) = some (s, rest)) : Plain s ∧ rest = r := by
  obtain ⟨u, hsplit, hu⟩ := body_lexed fuel _ s rest h
  have hquote := lexed_quote s r u rest hu hsplit
  have hle : u.length ≤ s.length := by
    by_contra hlong
    have hwhole := congrArg (fun t : Text => t[s.length]?) hsplit
    simp only [List.getElem?_append_right (Nat.le_refl _), Nat.sub_self, List.getElem?_cons_zero,
      List.getElem?_append_left (Nat.lt_of_not_le hlong)] at hwhole
    exact hquote (List.mem_of_getElem? hwhole.symm)
  obtain ⟨rfl, hplain⟩ := hu.plain (Nat.le_antisymm hu.length hle)
  exact ⟨hplain, (List.cons.inj (List.append_cancel_left hsplit)).2.symm⟩

theorem body_plain (fuel : ℕ) (s r : Text) (h : Plain s) (hfuel : s.length < fuel) :
    stringBody fuel (s++ '"'::r) = some (s, r) := by
  induction s generalizing fuel with
  | nil =>
    obtain ⟨fuel, rfl⟩ := Nat.exists_eq_succ_of_ne_zero (Nat.ne_of_gt hfuel)
    rfl
  | cons c s ih =>
    obtain ⟨fuel, rfl⟩ := Nat.exists_eq_succ_of_ne_zero (Nat.ne_of_gt (Nat.zero_lt_of_lt hfuel))
    obtain ⟨⟨hquote, hslash, hcontrol⟩, hs⟩ := List.forall_mem_cons.mp h
    rw [List.cons_append, stringBody, if_neg hquote, if_neg hslash, if_neg (by omega),
      ih fuel hs (Nat.lt_of_succ_lt_succ hfuel)]
    rfl

theorem string_plain (s r : Text) (h : Plain s) : string (s++ '"'::r) = some (s, r) :=
  body_plain _ s r h (by rw [List.length_append, List.length_cons]; omega)

theorem string_exact (s r rest : Text) (h : string (s++ '"'::r) = some (s, rest)) :
    Plain s ∧ rest = r :=
  body_exact _ s r rest h

end Strings

section Numbers

theorem decimal_zero (n : ℕ) (h : (decimal n).head? = some '0') : n = 0 := by
  induction n using Nat.strong_induction_on with
  | _ n ih =>
    by_cases hsmall : n < 10
    · rw [decimal, Nat.toDigits_of_lt_base hsmall, List.head?_cons, Option.some.injEq] at h
      exact digitChar_injective n 0 (by omega) (by decide) h
    · rw [decimal, Nat.toDigits_of_base_le (by decide) (by omega),
        List.head?_append_of_ne_nil _ Nat.toDigits_ne_nil] at h
      have := ih (n/10) (by omega) h
      omega

/-- A character that does not go on with a number. -/
def Ends (c : Char) : Prop := c.isDigit = false ∧ c ≠ '.' ∧ c ≠ 'e' ∧ c ≠ 'E'

instance (c : Char) : Decidable (Ends c) := inferInstanceAs (Decidable (_ ∧ _))

theorem magnitude_decimal (n : ℕ) (c : Char) (r : Text) (hc : Ends c) :
    magnitude (decimal n++c::r) = some (n, 0, c::r) := by
  obtain ⟨hdigit, hpoint, he, hE⟩ := hc
  have hall : ∀ d ∈ decimal n, d.isDigit = true := fun d hd => decimal_digit n d hd
  have htake : (decimal n++c::r).takeWhile Char.isDigit = decimal n := by
    rw [List.takeWhile_append_of_pos hall, List.takeWhile_cons_of_neg (by simp [hdigit]),
      List.append_nil]
  have hdrop : (decimal n++c::r).dropWhile Char.isDigit = c::r := by
    rw [List.dropWhile_append_of_pos hall, List.dropWhile_cons_of_neg (by simp [hdigit])]
  have hzero : ¬ (decimal n = [] ∨ ((decimal n).head? = some '0' ∧ decimal n ≠ ['0'])) := by
    rintro (hnil | ⟨hhead, hne⟩)
    · exact Nat.toDigits_ne_nil hnil
    · rw [decimal_zero n hhead] at hne
      exact hne rfl
  rw [magnitude, htake, hdrop]
  dsimp only
  rw [if_neg hzero, fraction, if_neg hpoint]
  simp only [Option.bind_eq_bind, Option.bind_some, exponent, he, hE, or_self, if_false,
    List.append_nil, List.length_nil, numeral, decimal, Nat.ofDigitChars_ten_toDigits]
  rfl

theorem number_signed (z : ℤ) (c : Char) (r : Text) (hc : Ends c) :
    number (signedDecimal z++c::r) = some (.number z 0, c::r) := by
  cases z with
  | ofNat n =>
    obtain ⟨d, t, hd⟩ := List.exists_cons_of_ne_nil (Nat.toDigits_ne_nil (b := 10) (n := n))
    have hminus : d ≠ '-' := by
      rintro rfl
      exact minus_not_digit n (by rw [decimal, hd]; exact List.mem_cons_self)
    have hmag := magnitude_decimal n c r hc
    rw [decimal, hd, List.cons_append] at hmag
    rw [signedDecimal, decimal, hd, List.cons_append, number, if_neg hminus, hmag]
    rfl
  | negSucc n =>
    rw [signedDecimal, List.cons_append, number, if_pos rfl, magnitude_decimal (n+1) c r hc]
    rfl

end Numbers

/-- A value that is written as it is. -/
inductive Scalar where
  | text (s : Text)
  | integer (z : ℤ)
  | flag (b : Bool)

def Scalar.written : Scalar → Text
  | .text s => '"'::(s++['"'])
  | .integer z => signedDecimal z
  | .flag b => if b then "true".toList else "false".toList

def Scalar.json : Scalar → Json
  | .text s => .string s
  | .integer z => .number z 0
  | .flag b => .boolean b

def Scalar.PlainText : Scalar → Prop
  | .text s => Plain s
  | _ => True

def Scalar.utf8Text : Scalar → Bool
  | .text s => utf8 s
  | _ => true

def memberWritten (m : Text × Scalar) : Text := '"'::(m.1++ '"':: ':'::m.2.written)

def membersWritten : List (Text × Scalar) → Text
  | [] => []
  | [m] => memberWritten m
  | m::ms => memberWritten m++ ','::membersWritten ms

def objectWritten (ms : List (Text × Scalar)) : Text := '\x7b'::(membersWritten ms++['\x7d'])

def memberJson (m : Text × Scalar) : Text × Json := (m.1, m.2.json)

section Values

theorem digit_scan (d : Char) (h : d = '-' ∨ d.isDigit = true) :
    isBlank d = false ∧ d ≠ '"' ∧ d ≠ '[' ∧ d ≠ '\x7b' ∧ d ≠ 't' ∧ d ≠ 'f' ∧ d ≠ 'n' := by
  rcases h with rfl | h
  · decide
  · refine ⟨?_, ?_, ?_, ?_, ?_, ?_, ?_⟩
    · have := digit_bound d h
      rw [isBlank, decide_eq_false_iff_not]
      rintro (rfl | rfl | rfl | rfl) <;> contradiction
    all_goals
      rintro rfl
      contradiction

theorem skipBlanks_cons (c : Char) (t : Text) (h : isBlank c = false) :
    skipBlanks (c::t) = c::t :=
  List.dropWhile_cons_of_neg (by simp [h])

theorem value_integer (fuel : ℕ) (z : ℤ) (c : Char) (r : Text) (hc : Ends c) :
    value (fuel+1) (signedDecimal z++c::r) = some (.number z 0, c::r) := by
  have hnumber := number_signed z c r hc
  obtain ⟨d, t, hd, hfirst⟩ : ∃ d t, signedDecimal z = d::t ∧ (d = '-' ∨ d.isDigit = true) := by
    cases z with
    | ofNat n =>
      obtain ⟨d, t, hd⟩ := List.exists_cons_of_ne_nil (Nat.toDigits_ne_nil (b := 10) (n := n))
      exact ⟨d, t, hd, Or.inr (decimal_digit n d (by rw [decimal, hd]; exact List.mem_cons_self))⟩
    | negSucc n => exact ⟨'-', _, rfl, Or.inl rfl⟩
  obtain ⟨hblank, hq, ha, ho, ht, hf, hn⟩ := digit_scan d hfirst
  rw [hd, List.cons_append] at hnumber ⊢
  rw [value, skipBlanks_cons d _ hblank]
  dsimp only
  rw [if_neg hq, if_neg ha, if_neg ho, if_neg ht, if_neg hf, if_neg hn, hnumber]

theorem value_flag (fuel : ℕ) (b : Bool) (r : Text) :
    value (fuel+1) ((Scalar.flag b).written++r) = some (.boolean b, r) := by
  cases b with
  | true =>
    change value (fuel+1) ('t':: 'r':: 'u':: 'e'::r) = _
    rw [value, skipBlanks_cons 't' _ (by decide)]
    rfl
  | false =>
    change value (fuel+1) ('f':: 'a':: 'l':: 's':: 'e'::r) = _
    rw [value, skipBlanks_cons 'f' _ (by decide)]
    rfl

/-- A value comes back as it was written exactly when its text is plain, and then
all of it was read. -/
theorem value_written (fuel : ℕ) (v : Scalar) (c : Char) (r rest : Text) (hc : Ends c) :
    value (fuel+1) (v.written++c::r) = some (v.json, rest) ↔ v.PlainText ∧ rest = c::r := by
  cases v with
  | text s =>
    have happ : (Scalar.text s).written++c::r = '"'::(s++ '"'::c::r) := by
      simp [Scalar.written]
    rw [happ, value, skipBlanks_cons '"' _ (by decide)]
    dsimp only
    rw [if_pos rfl]
    constructor
    · intro h
      obtain ⟨⟨s', t⟩, hs, heq⟩ := Option.map_eq_some_iff.mp h
      obtain ⟨hs', rfl⟩ := Prod.mk.inj heq
      obtain rfl : s' = s := Json.string.inj hs'
      exact string_exact s' (c::r) t hs
    · rintro ⟨hplain, rfl⟩
      rw [string_plain s _ hplain]
      rfl
  | integer z =>
    rw [Scalar.written, value_integer fuel z c r hc]
    simp [Scalar.json, Scalar.PlainText, eq_comm]
  | flag b =>
    rw [value_flag fuel b]
    simp [Scalar.json, Scalar.PlainText, eq_comm]

end Values

section Objects

theorem member_written (fuel : ℕ) (m : Text × Scalar) (hkey : Plain m.1) (c : Char) (r : Text) :
    member (value fuel) (memberWritten m++c::r) =
      (value fuel (m.2.written++c::r)).map (fun p => ((m.1, p.1), p.2)) := by
  have happ : memberWritten m++c::r = '"'::(m.1++ '"':: ':'::(m.2.written++c::r)) := by
    simp [memberWritten]
  rw [happ, member, skipBlanks_cons '"' _ (by decide)]
  dsimp only
  rw [if_pos rfl, string_plain m.1 _ hkey, Option.bind_eq_bind, Option.bind_some]
  dsimp only
  rw [skipBlanks_cons ':' _ (by decide)]
  dsimp only
  rw [if_pos rfl]
  cases value fuel (m.2.written++c::r) <;> rfl

theorem items_next {α : Type} (item : Text → Option (α × Text)) (close : Char) (fuel : ℕ)
    (t : Text) (x : α) (xs : List α) (rest : Text) (hclose : close ≠ ',') :
    items item close (fuel+1) t = some (x::xs, rest) ↔ ∃ t', item t = some (x, t') ∧
      ((∃ t'', skipBlanks t' = ','::t'' ∧ items item close fuel t'' = some (xs, rest)) ∨
        (xs = [] ∧ skipBlanks t' = close::rest)) := by
  rw [items]
  cases hitem : item t with
  | none => simp
  | some p =>
    obtain ⟨y, t'⟩ := p
    simp only [Option.bind_eq_bind, Option.bind_some, Option.some.injEq, Prod.mk.injEq]
    cases hskip : skipBlanks t' with
    | nil => simp [hskip]
    | cons c t'' =>
      dsimp only
      constructor
      · intro h
        split_ifs at h with hcomma hend
        · obtain ⟨⟨xs', rest'⟩, hitems, heq⟩ := Option.bind_eq_some_iff.mp h
          obtain ⟨hlist, rfl⟩ := Prod.mk.inj (Option.some.inj heq)
          obtain ⟨hx, rfl⟩ := List.cons.inj hlist
          exact ⟨t', ⟨hx, rfl⟩, Or.inl ⟨t'', by rw [hskip, hcomma], hitems⟩⟩
        · obtain ⟨hlist, rfl⟩ := Prod.mk.inj (Option.some.inj h)
          obtain ⟨hx, rfl⟩ := List.cons.inj hlist
          exact ⟨t', ⟨hx, rfl⟩, Or.inr ⟨rfl, by rw [hskip, hend]⟩⟩
      · rintro ⟨_, ⟨rfl, rfl⟩, ⟨u, hu, hitems⟩ | ⟨rfl, hu⟩⟩
        · obtain ⟨hcomma, rfl⟩ := List.cons.inj (hskip.symm.trans hu)
          rw [if_pos hcomma, hitems]
          rfl
        · obtain ⟨hend, rfl⟩ := List.cons.inj (hskip.symm.trans hu)
          rw [if_neg (hend ▸ hclose), if_pos hend]

theorem member_exact (fuel : ℕ) (m : Text × Scalar) (hkey : Plain m.1) (c : Char) (r t : Text)
    (hc : Ends c) : member (value (fuel+1)) (memberWritten m++c::r) = some (memberJson m, t) ↔
      m.2.PlainText ∧ t = c::r := by
  rw [member_written (fuel+1) m hkey, ← value_written fuel m.2 c r t hc, Option.map_eq_some_iff]
  constructor
  · rintro ⟨p, hp, heq⟩
    obtain ⟨hv, rfl⟩ := Prod.mk.inj heq
    rw [hp, ← (Prod.mk.inj hv).2]
  · exact fun h => ⟨_, h, rfl⟩

theorem members_written (fuel n : ℕ) (ms : List (Text × Scalar)) (hne : ms ≠ [])
    (hkeys : ∀ m ∈ ms, Plain m.1) (hn : ms.length ≤ n) (rest : Text) :
    items (member (value (fuel+1))) '\x7d' n (membersWritten ms++['\x7d']) =
        some (ms.map memberJson, rest) ↔ (∀ m ∈ ms, m.2.PlainText) ∧ rest = [] := by
  induction ms generalizing n with
  | nil => contradiction
  | cons m ms ih =>
    obtain ⟨hkey, hkeys⟩ := List.forall_mem_cons.mp hkeys
    obtain ⟨n, rfl⟩ := Nat.exists_eq_succ_of_ne_zero (Nat.ne_of_gt (Nat.zero_lt_of_lt hn))
    rw [List.map_cons, items_next _ _ _ _ _ _ _ (by decide), List.forall_mem_cons]
    cases ms with
    | nil =>
      rw [membersWritten]
      simp only [member_exact fuel m hkey '\x7d' [] _ (by decide)]
      constructor
      · rintro ⟨t, ⟨hm, rfl⟩, ⟨t', ht', _⟩ | ⟨_, ht⟩⟩
        · rw [skipBlanks_cons _ _ (by decide)] at ht'
          exact absurd (List.cons.inj ht').1 (by decide)
        · rw [skipBlanks_cons _ _ (by decide)] at ht
          exact ⟨⟨hm, by simp⟩, (List.cons.inj ht).2.symm⟩
      · rintro ⟨⟨hm, _⟩, rfl⟩
        exact ⟨_, ⟨hm, rfl⟩, Or.inr ⟨rfl, skipBlanks_cons _ _ (by decide)⟩⟩
    | cons m' ms =>
      have hwritten : membersWritten (m::m'::ms)++['\x7d'] =
          memberWritten m++ ','::(membersWritten (m'::ms)++['\x7d']) := List.append_assoc _ _ _
      rw [hwritten]
      simp only [member_exact fuel m hkey ',' _ _ (by decide)]
      have hrest := ih n (by simp) hkeys (Nat.le_of_succ_le_succ hn)
      constructor
      · rintro ⟨t, ⟨hm, rfl⟩, ⟨t', ht', hitems⟩ | ⟨hnil, _⟩⟩
        · rw [skipBlanks_cons _ _ (by decide)] at ht'
          obtain rfl := (List.cons.inj ht').2
          obtain ⟨hall, rfl⟩ := hrest.mp hitems
          exact ⟨⟨hm, hall⟩, rfl⟩
        · contradiction
      · rintro ⟨⟨hm, hall⟩, rfl⟩
        exact ⟨_, ⟨hm, rfl⟩, Or.inl ⟨_, skipBlanks_cons _ _ (by decide), hrest.mpr ⟨hall, rfl⟩⟩⟩

theorem signed_ascii (z : ℤ) : Ascii (signedDecimal z) := by
  have hdigits : ∀ n, Ascii (decimal n) := by
    intro n c hc
    have := digit_bound c (decimal_digit n c hc)
    omega
  cases z with
  | ofNat n => exact hdigits n
  | negSucc n => exact List.forall_mem_cons.mpr ⟨by decide, hdigits (n+1)⟩

theorem utf8_cons (c : Char) (r : Text) (hc : c.toNat < 0x80) : utf8 (c::r) = utf8 r :=
  utf8_split [] r c hc

theorem utf8_scalar (v : Scalar) (c : Char) (r : Text) (hc : c.toNat < 0x80) :
    utf8 (v.written++c::r) = (v.utf8Text && utf8 r) := by
  cases v with
  | text s =>
    have happ : (Scalar.text s).written++c::r = '"'::(s++ '"'::c::r) := by
      simp [Scalar.written]
    rw [happ, utf8_cons _ _ (by decide), utf8_split _ _ _ (by decide), utf8_cons c r hc]
    rfl
  | integer z =>
    rw [Scalar.written, utf8_ascii _ _ (signed_ascii z), utf8_cons c r hc]
    rfl
  | flag b =>
    rw [utf8_ascii _ _ (by cases b <;> simp [Scalar.written, Ascii]), utf8_cons c r hc]
    rfl

theorem utf8_member (m : Text × Scalar) (hkey : Ascii m.1) (c : Char) (r : Text)
    (hc : c.toNat < 0x80) :
    utf8 (memberWritten m++c::r) = (m.2.utf8Text && utf8 r) := by
  have happ : memberWritten m++c::r = '"'::(m.1++ '"':: ':'::(m.2.written++c::r)) := by
    simp [memberWritten]
  rw [happ, utf8_cons _ _ (by decide), utf8_ascii _ _ hkey, utf8_cons _ _ (by decide),
    utf8_cons _ _ (by decide), utf8_scalar m.2 c r hc]

theorem utf8_members (ms : List (Text × Scalar)) (hkeys : ∀ m ∈ ms, Ascii m.1) (c : Char)
    (r : Text) (hc : c.toNat < 0x80) :
    utf8 (membersWritten ms++c::r) = (ms.all (fun m => m.2.utf8Text) && utf8 r) := by
  induction ms with
  | nil => exact utf8_cons c r hc
  | cons m ms ih =>
    obtain ⟨hkey, hkeys⟩ := List.forall_mem_cons.mp hkeys
    cases ms with
    | nil =>
      rw [membersWritten, utf8_member m hkey c r hc, List.all_cons, List.all_nil, Bool.and_true]
    | cons m' ms =>
      have hwritten : membersWritten (m::m'::ms)++c::r =
          memberWritten m++ ','::(membersWritten (m'::ms)++c::r) := List.append_assoc _ _ _
      rw [hwritten, utf8_member m hkey ',' _ (by decide), ih hkeys, List.all_cons (l := m'::ms),
        Bool.and_assoc]

theorem members_length (ms : List (Text × Scalar)) : ms.length ≤ (membersWritten ms).length := by
  induction ms with
  | nil => exact Nat.le_refl 0
  | cons m ms ih =>
    cases ms with
    | nil => exact Nat.succ_le_succ (Nat.zero_le _)
    | cons m' ms =>
      change (m'::ms).length+1 ≤ (memberWritten m++ ','::membersWritten (m'::ms)).length
      rw [List.length_append]
      exact (Nat.succ_le_succ ih).trans (Nat.le_add_left _ _)

theorem members_first (ms : List (Text × Scalar)) (hne : ms ≠ []) (r : Text) :
    ∃ t, membersWritten ms++r = '"'::t := by
  match ms with
  | [m] => exact ⟨_, rfl⟩
  | m::m'::ms => exact ⟨_, rfl⟩

theorem object_value (fuel : ℕ) (ms : List (Text × Scalar)) (hne : ms ≠ []) :
    value (fuel+1) (objectWritten ms) =
      (items (member (value fuel)) '\x7d' ((membersWritten ms++['\x7d']).length+1)
        (membersWritten ms++['\x7d'])).map (fun r => (.object r.1, r.2)) := by
  obtain ⟨t, ht⟩ := members_first ms hne ['\x7d']
  have hhead : ¬ (skipBlanks (membersWritten ms++['\x7d'])).head? = some '\x7d' := by
    rw [ht, skipBlanks_cons '"' t (by decide), List.head?_cons]
    decide
  rw [value, objectWritten, skipBlanks_cons _ _ (by decide)]
  dsimp only
  rw [if_neg (by decide), if_neg (by decide), if_pos rfl, JsonTexts.sequence, if_neg hhead]

/-- An object comes back member by member exactly when every text in it is plain
and UTF-8. -/
theorem object_decoded (ms : List (Text × Scalar)) (hne : ms ≠ [])
    (hkeys : ∀ m ∈ ms, Plain m.1 ∧ Ascii m.1) :
    decode (objectWritten ms) = some (.object (ms.map memberJson)) ↔
      ∀ m ∈ ms, m.2.PlainText ∧ m.2.utf8Text = true := by
  have hutf8 : utf8 (objectWritten ms) = ms.all (fun m => m.2.utf8Text) := by
    rw [objectWritten, utf8_cons _ _ (by decide),
      utf8_members ms (fun m hm => (hkeys m hm).2) '\x7d' [] (by decide)]
    exact Bool.and_true _
  have hlen : ms.length ≤ (membersWritten ms++['\x7d']).length+1 := by
    have := members_length ms
    rw [List.length_append]
    omega
  have hitems := members_written (membersWritten ms++['\x7d']).length _ ms hne
    (fun m hm => (hkeys m hm).1) hlen
  have hfuel : (objectWritten ms).length+1 = (membersWritten ms++['\x7d']).length+1+1 := rfl
  rw [decode, hutf8, hfuel, object_value _ ms hne]
  constructor
  · intro h
    split_ifs at h with hall
    cases hrun : items (member (value ((membersWritten ms++['\x7d']).length+1))) '\x7d'
        ((membersWritten ms++['\x7d']).length+1) (membersWritten ms++['\x7d']) with
    | none =>
      rw [hrun] at h
      contradiction
    | some r =>
      rw [hrun] at h
      dsimp only [Option.map_some] at h
      split_ifs at h
      obtain ⟨js, rest⟩ := r
      obtain rfl := Json.object.inj (Option.some.inj h)
      obtain ⟨hplain, _⟩ := (hitems rest).mp hrun
      exact fun m hm => ⟨hplain m hm, List.all_eq_true.mp hall m hm⟩
  · intro h
    have hrun := (hitems []).mpr ⟨fun m hm => (h m hm).1, rfl⟩
    rw [if_pos (List.all_eq_true.mpr fun m hm => (h m hm).2), hrun]
    rfl

end Objects

theorem scalar_newline (v : Scalar) (h : v.PlainText) : '\n' ∉ v.written := by
  cases v with
  | text s =>
    have := plain_newline s h
    simp [Scalar.written, this]
  | integer z => exact plain_newline _ (signed_plain z)
  | flag b => cases b <;> decide

/-- An object of plain texts stands on one line. -/
theorem object_line (ms : List (Text × Scalar)) (hkeys : ∀ m ∈ ms, Plain m.1)
    (h : ∀ m ∈ ms, m.2.PlainText) : '\n' ∉ objectWritten ms := by
  have hmember : ∀ m ∈ ms, '\n' ∉ memberWritten m := by
    intro m hm
    have := plain_newline _ (hkeys m hm)
    have := scalar_newline _ (h m hm)
    simp [memberWritten, *]
  have hmembers : '\n' ∉ membersWritten ms := by
    clear hkeys h
    induction ms with
    | nil => exact List.not_mem_nil
    | cons m ms ih =>
      obtain ⟨hm, hms⟩ := List.forall_mem_cons.mp hmember
      cases ms with
      | nil => exact hm
      | cons m' ms =>
        have hrest := ih hms
        have hwritten : membersWritten (m::m'::ms) =
          memberWritten m++ ','::membersWritten (m'::ms) := rfl
        rw [hwritten]
        simp [hm, hrest]
  simp [objectWritten, hmembers]

section Spelled

def Scalar.raw : Scalar → Text
  | .text s => s
  | v => v.written

def Scalar.quote : Scalar → Text
  | .text _ => ['"']
  | _ => []

theorem written_raw (v : Scalar) : v.written = v.quote++(v.raw++v.quote) := by
  cases v with
  | text s => rfl
  | integer z => exact (List.append_nil _).symm
  | flag b => exact (List.append_nil _).symm

def opening (m : Text × Scalar) : Text := '"'::(m.1++ '"':: ':'::m.2.quote)

theorem memberWritten_raw (m : Text × Scalar) :
    memberWritten m = opening m++(m.2.raw++m.2.quote) := by
  rw [memberWritten, opening, written_raw]
  simp

variable {ι : Type} (label text : ι → Text) (toMember : ι → Text × Scalar)

/-- The labels close the member before and open the next. -/
def Joins (f g : ι) : Prop := label g = (toMember f).2.quote++ ','::opening (toMember g)

instance (f g : ι) : Decidable (Joins label toMember f g) :=
  inferInstanceAs (Decidable (_ = _))

/-- Only the keys matter for that, and which values stand between quotes. -/
theorem joins_congr (other : ι → Text × Scalar) (hkey : ∀ f, (toMember f).1 = (other f).1)
    (hquote : ∀ f, (toMember f).2.quote = (other f).2.quote) (f g : ι)
    (h : Joins label toMember f g) : Joins label other f g := by
  rw [Joins, opening] at h ⊢
  rw [← hkey, ← hquote, ← hquote]
  exact h

theorem spell_members (hraw : ∀ f, (toMember f).2.raw = text f) (f : ι) (fs : List ι)
    (hjoins : (f::fs).IsChain (Joins label toMember)) (r : Text) :
    opening (toMember f)++(text f++(spell label text fs++
      ((toMember ((f::fs).getLast (List.cons_ne_nil f fs))).2.quote++r))) =
        membersWritten ((f::fs).map toMember)++r := by
  induction fs generalizing f with
  | nil =>
    rw [List.map_singleton, membersWritten, memberWritten_raw, hraw, spell]
    simp
  | cons g fs ih =>
    obtain ⟨hjoin, hrest⟩ := List.isChain_cons_cons.mp hjoins
    have hwritten : membersWritten ((f::g::fs).map toMember) =
        memberWritten (toMember f)++ ','::membersWritten ((g::fs).map toMember) := rfl
    have hnext := ih g hrest
    rw [hwritten, memberWritten_raw, hraw, spell, hjoin, List.getLast_cons (List.cons_ne_nil g fs)]
    simp only [List.append_assoc, List.cons_append, ← hnext]

/-- A text that is spelled with such labels is an object. -/
theorem spell_object (hraw : ∀ f, (toMember f).2.raw = text f) (f : ι) (fs : List ι)
    (hfirst : label f = '\x7b'::opening (toMember f))
    (hjoins : (f::fs).IsChain (Joins label toMember)) (ending : Text)
    (hending : ending =
      (toMember ((f::fs).getLast (List.cons_ne_nil f fs))).2.quote++['\x7d']) :
    spell label text (f::fs)++ending = objectWritten ((f::fs).map toMember) := by
  rw [objectWritten, ← spell_members label text toMember hraw f fs hjoins, spell, hfirst, hending]
  simp

end Spelled

end EraseCure.FlatObjects
