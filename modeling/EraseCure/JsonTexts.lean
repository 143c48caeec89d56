import EraseCure.CText

/-!
# JSON texts

A decoder for JSON: strings with all their escapes, numbers with a fraction and
an exponent, arrays and objects. A character stands for one byte, so a text has
to be UTF-8 as a whole before its structure is looked at, and an escape by a code
point stands for the bytes of the code point.
-/

set_option autoImplicit false

namespace EraseCure.JsonTexts
open EraseCure.CText

section Utf8

/-- What the next byte of a character has to lie between, and how many bytes come
after that one. -/
structure Pending where
  low : ℕ
  high : ℕ
  more : ℕ
  above : 0x80 ≤ low

/-- A byte in the middle of a character or, without one, the first of the next. -/
def utf8Step : Option Pending → Char → Option (Option Pending)
  | some p, c =>
    if p.low ≤ c.toNat ∧ c.toNat ≤ p.high then
      if p.more = 0 then some none else some (some ⟨0x80, 0xBF, p.more-1, by decide⟩)
    else none
  | none, c =>
    let n := c.toNat
    if n < 0x80 then some none
    else if n < 0xC2 then none
    else if n < 0xE0 then some (some ⟨0x80, 0xBF, 0, by decide⟩)
    else if n = 0xE0 then some (some ⟨0xA0, 0xBF, 1, by decide⟩)
    else if n = 0xED then some (some ⟨0x80, 0x9F, 1, by decide⟩)
    else if n < 0xF0 then some (some ⟨0x80, 0xBF, 1, by decide⟩)
    else if n = 0xF0 then some (some ⟨0x90, 0xBF, 2, by decide⟩)
    else if n < 0xF4 then some (some ⟨0x80, 0xBF, 2, by decide⟩)
    else if n = 0xF4 then some (some ⟨0x80, 0x8F, 2, by decide⟩)
    else none

def utf8From : Option Pending → Text → Bool
  | state, [] => state.isNone
  | state, c::t =>
    match utf8Step state c with
    | none => false
    | some next => utf8From next t

def utf8 (t : Text) : Bool := utf8From none t

def utf8Bytes (n : ℕ) : Text :=
  (if n < 0x80 then [n]
  else if n < 0x800 then [0xC0+n/64, 0x80+n%64]
  else if n < 0x10000 then [0xE0+n/4096, 0x80+n/64%64, 0x80+n%64]
  else [0xF0+n/262144, 0x80+n/4096%64, 0x80+n/64%64, 0x80+n%64]).map Char.ofNat

def Ascii (t : Text) : Prop := ∀ c ∈ t, c.toNat < 0x80

instance (t : Text) : Decidable (Ascii t) := List.decidableBAll (fun c : Char => c.toNat < 0x80) t

theorem utf8Step_ascii (c : Char) (h : c.toNat < 0x80) : utf8Step none c = some none := by
  rw [utf8Step]
  exact if_pos h

theorem utf8Step_inside (p : Pending) (c : Char) (h : c.toNat < 0x80) :
    utf8Step (some p) c = none := by
  have := p.above
  rw [utf8Step, if_neg (by omega)]

theorem utf8From_split (state : Option Pending) (a b : Text) (c : Char) (h : c.toNat < 0x80) :
    utf8From state (a++c::b) = (utf8From state a && utf8 b) := by
  induction a generalizing state with
  | nil =>
    rw [List.nil_append, utf8From, utf8From]
    cases state with
    | none =>
      rw [utf8Step_ascii c h]
      rfl
    | some p =>
      rw [utf8Step_inside p c h]
      rfl
  | cons d a ih =>
    rw [List.cons_append, utf8From, utf8From]
    cases utf8Step state d with
    | none => rfl
    | some next => exact ih next

theorem utf8_split (a b : Text) (c : Char) (h : c.toNat < 0x80) :
    utf8 (a++c::b) = (utf8 a && utf8 b) :=
  utf8From_split none a b c h

theorem utf8_ascii (a b : Text) (h : Ascii a) : utf8 (a++b) = utf8 b := by
  induction a with
  | nil => rfl
  | cons c a ih =>
    have hsplit := utf8_split [] (a++b) c (h c List.mem_cons_self)
    rw [List.nil_append] at hsplit
    rw [List.cons_append, hsplit, ih (fun d hd => h d (List.mem_cons_of_mem _ hd))]
    rfl

end Utf8

inductive Json where
  | null
  | boolean (b : Bool)
  /-- A mantissa and the power of ten that it is multiplied by. -/
  | number (mantissa exponent : ℤ)
  | string (s : Text)
  | array (items : List Json)
  | object (members : List (Text × Json))

def isBlank (c : Char) : Bool := c = ' ' ∨ c = '\t' ∨ c = '\n' ∨ c = '\r'

def skipBlanks (t : Text) : Text := t.dropWhile isBlank

section Strings

def hexValue (c : Char) : Option ℕ :=
  let n := c.toNat
  if 48 ≤ n ∧ n ≤ 57 then some (n-48)
  else if 65 ≤ n ∧ n ≤ 70 then some (n-55)
  else if 97 ≤ n ∧ n ≤ 102 then some (n-87)
  else none

def hexWord : Text → Option (ℕ × Text)
  | a::b::c::d::t => do
    let a ← hexValue a
    let b ← hexValue b
    let c ← hexValue c
    let d ← hexValue d
    some (((a*16+b)*16+c)*16+d, t)
  | _ => none

/-- What the second half of a pair of code units adds to the first. -/
def lowHalf (high : ℕ) : Text → Option (Text × Text)
  | '\\':: 'u'::t => do
    let (low, t) ← hexWord t
    if 0xDC00 ≤ low ∧ low < 0xE000 then
      some (utf8Bytes (0x10000+(high-0xD800)*0x400+(low-0xDC00)), t)
    else none
  | _ => none

def codeUnit (t : Text) : Option (Text × Text) := do
  let (unit, t) ← hexWord t
  if 0xD800 ≤ unit ∧ unit < 0xDC00 then lowHalf unit t
  else if 0xDC00 ≤ unit ∧ unit < 0xE000 then none
  else some (utf8Bytes unit, t)

/-- What an escape stands for, after its backslash, and what follows it. -/
def escape : Text → Option (Text × Text)
  | [] => none
  | c::t =>
    if c = '"' ∨ c = '\\' ∨ c = '/' then some ([c], t)
    else if c = 'b' then some ([Char.ofNat 8], t)
    else if c = 'f' then some ([Char.ofNat 12], t)
    else if c = 'n' then some ([Char.ofNat 10], t)
    else if c = 'r' then some ([Char.ofNat 13], t)
    else if c = 't' then some ([Char.ofNat 9], t)
    else if c = 'u' then codeUnit t
    else none

def stringBody : ℕ → Text → Option (Text × Text)
  | 0, _ => none
  | _+1, [] => none
  | fuel+1, c::t =>
    if c = '"' then some ([], t)
    else if c = '\\' then do
      let (s, t) ← escape t
      let (rest, t) ← stringBody fuel t
      some (s++rest, t)
    else if c.toNat < 32 then none
    else do
      let (rest, t) ← stringBody fuel t
      some (c::rest, t)

def string (t : Text) : Option (Text × Text) := stringBody (t.length+1) t

end Strings

section Numbers

def numeral (t : Text) : ℕ := Nat.ofDigitChars 10 t 0

def fraction : Text → Option (Text × Text)
  | [] => some ([], [])
  | c::t =>
    if c = '.' then
      if t.takeWhile Char.isDigit = [] then none
      else some (t.takeWhile Char.isDigit, t.dropWhile Char.isDigit)
    else some ([], c::t)

def sign : Text → ℤ × Text
  | [] => (1, [])
  | c::t => if c = '-' then (-1, t) else if c = '+' then (1, t) else (1, c::t)

def exponent : Text → Option (ℤ × Text)
  | [] => some (0, [])
  | c::t =>
    if c = 'e' ∨ c = 'E' then
      let (s, t) := sign t
      if t.takeWhile Char.isDigit = [] then none
      else some (s*numeral (t.takeWhile Char.isDigit), t.dropWhile Char.isDigit)
    else some (0, c::t)

/-- A number without its minus sign. A leading zero stands alone. -/
def magnitude (t : Text) : Option (ℕ × ℤ × Text) :=
  let whole := t.takeWhile Char.isDigit
  if whole = [] ∨ (whole.head? = some '0' ∧ whole ≠ ['0']) then none
  else do
    let (decimals, t) ← fraction (t.dropWhile Char.isDigit)
    let (e, t) ← exponent t
    some (numeral (whole++decimals), e-decimals.length, t)

def number (t : Text) : Option (Json × Text) :=
  match t with
  | [] => none
  | c::rest =>
    if c = '-' then (magnitude rest).map (fun r => (.number (-r.1) r.2.1, r.2.2))
    else (magnitude t).map (fun r => (.number r.1 r.2.1, r.2.2))

end Numbers

section Values

def literal (word : Text) (v : Json) (t : Text) : Option (Json × Text) :=
  if word.isPrefixOf t then some (v, t.drop word.length) else none

def items {α : Type} (item : Text → Option (α × Text)) (close : Char) :
    ℕ → Text → Option (List α × Text)
  | 0, _ => none
  | fuel+1, t => do
    let (x, t) ← item t
    match skipBlanks t with
    | [] => none
    | c::t =>
      if c = ',' then do
        let (xs, t) ← items item close fuel t
        some (x::xs, t)
      else if c = close then some ([x], t)
      else none

def sequence {α : Type} (item : Text → Option (α × Text)) (close : Char) (t : Text) :
    Option (List α × Text) :=
  if (skipBlanks t).head? = some close then some ([], (skipBlanks t).tail)
  else items item close (t.length+1) t

def member (value : Text → Option (Json × Text)) (t : Text) : Option ((Text × Json) × Text) :=
  match skipBlanks t with
  | [] => none
  | c::t =>
    if c = '"' then do
      let (key, t) ← string t
      match skipBlanks t with
      | [] => none
      | c::t =>
        if c = ':' then do
          let (v, t) ← value t
          some ((key, v), t)
        else none
    else none

def value : ℕ → Text → Option (Json × Text)
  | 0, _ => none
  | fuel+1, t =>
    match skipBlanks t with
    | [] => none
    | c::rest =>
      if c = '"' then (string rest).map (fun r => (.string r.1, r.2))
      else if c = '[' then (sequence (value fuel) ']' rest).map (fun r => (.array r.1, r.2))
      else if c = '\x7b' then
        (sequence (member (value fuel)) '\x7d' rest).map (fun r => (.object r.1, r.2))
      else if c = 't' then literal "true".toList (.boolean true) (c::rest)
      else if c = 'f' then literal "false".toList (.boolean false) (c::rest)
      else if c = 'n' then literal "null".toList .null (c::rest)
      else number (c::rest)

/-- The value of a text, which has to be UTF-8 and nothing but one value. -/
def decode (t : Text) : Option Json :=
  if utf8 t then
    match value (t.length+1) t with
    | none => none
    | some (v, rest) => if skipBlanks rest = [] then some v else none
  else none

end Values

end EraseCure.JsonTexts
