import Mathlib.Data.List.Infix
import Mathlib.Data.List.TakeWhile
import Mathlib.Data.Nat.Digits.Defs

/-!
# C strings, formatted numbers and line input

A character stands for one byte of text. Fixed arrays carry the proof that the
string and its terminator fit, so a record never holds an unterminated field.
Line input returns at most one line and never more than the buffer holds.
-/

set_option autoImplicit false

namespace EraseCure.CText

abbrev Text := List Char

def nul : Char := Char.ofNat 0

def cstr (buf : Text) : Text := buf.takeWhile (fun c => c ≠ nul)

@[ext]
structure CString (cap : ℕ) where
  chars : Text
  fits : chars.length < cap
  ended : nul ∉ chars
  deriving DecidableEq

/-- `snprintf(buf, cap, "%s", t)` into an array of `cap` bytes. -/
def printed (cap : ℕ) (hc : 0 < cap) (t : Text) : CString cap where
  chars := (cstr t).take (cap-1)
  fits := by
    have := List.length_take_le (cap-1) (cstr t)
    omega
  ended := fun h => by
    have := List.mem_takeWhile_imp (List.mem_of_mem_take h)
    simp at this

def printed32 (t : Text) : CString 32 := printed 32 (by decide) t

def printed37 (t : Text) : CString 37 := printed 37 (by decide) t

def printed64 (t : Text) : CString 64 := printed 64 (by decide) t

def printed65 (t : Text) : CString 65 := printed 65 (by decide) t

def printed128 (t : Text) : CString 128 := printed 128 (by decide) t

def printed256 (t : Text) : CString 256 := printed 256 (by decide) t

def printed512 (t : Text) : CString 512 := printed 512 (by decide) t

theorem cstr_id (t : Text) (h : nul ∉ t) : cstr t = t := by
  rw [cstr, List.takeWhile_eq_self_iff]
  intro c hc
  have : c ≠ nul := fun he => h (he ▸ hc)
  simpa using this

theorem printed_chars (cap : ℕ) (hc : 0 < cap) (t : Text) (ht : nul ∉ t)
    (hl : t.length < cap) : (printed cap hc t).chars = t := by
  change (cstr t).take (cap-1) = t
  rw [cstr_id t ht, List.take_of_length_le (by omega)]

def decimal (n : ℕ) : Text := Nat.toDigits 10 n

def signedDecimal : ℤ → Text
  | .ofNat n => decimal n
  | .negSucc n => '-' :: decimal (n+1)

def twoDigits (n : ℕ) : Text := [Nat.digitChar (n/10%10), Nat.digitChar (n%10)]

def hexByte (b : UInt8) : Text := [Nat.digitChar (b.toNat/16), Nat.digitChar (b.toNat%16)]

def PlainChar (c : Char) : Prop := c ≠ '"' ∧ c ≠ '\\' ∧ 32 ≤ c.toNat

instance (c : Char) : Decidable (PlainChar c) := inferInstanceAs (Decidable (_ ∧ _ ∧ _))

def Plain (t : Text) : Prop := ∀ c ∈ t, PlainChar c

instance (t : Text) : Decidable (Plain t) := List.decidableBAll PlainChar t

theorem plain_quote (t : Text) (h : Plain t) : '"' ∉ t := fun hq => (h _ hq).1 rfl

theorem plain_newline (t : Text) (h : Plain t) : '\n' ∉ t :=
  fun hn => absurd (h _ hn).2.2 (by decide)

theorem plain_nul (t : Text) (h : Plain t) : nul ∉ t :=
  fun hn => absurd (h _ hn).2.2 (by decide)

theorem digit_bound (c : Char) (h : c.isDigit) : 48 ≤ c.toNat ∧ c.toNat ≤ 57 := by
  simpa [Char.isDigit, UInt32.le_iff_toNat_le] using h

theorem decimal_digit (n : ℕ) (c : Char) (hc : c ∈ decimal n) : c.isDigit :=
  Nat.isDigit_of_mem_toDigits (by decide) (by decide) hc

theorem digit_plain (c : Char) (h : c.isDigit) : PlainChar c := by
  have hb := digit_bound c h
  refine ⟨?_, ?_, by omega⟩ <;> rintro rfl <;> revert h <;> decide

theorem decimal_plain (n : ℕ) : Plain (decimal n) :=
  fun c hc => digit_plain c (decimal_digit n c hc)

theorem signed_plain (z : ℤ) : Plain (signedDecimal z) := by
  cases z with
  | ofNat n => exact decimal_plain n
  | negSucc n =>
    intro c hc
    rcases List.mem_cons.mp hc with rfl | hc
    · decide
    · exact decimal_plain _ c hc

theorem decimal_injective : Function.Injective decimal := by
  intro m n h
  have := congrArg (Nat.ofDigitChars 10 · 0) h
  simpa [decimal, Nat.ofDigitChars_ten_toDigits] using this

theorem minus_not_digit (n : ℕ) : '-' ∉ decimal n := fun h =>
  absurd (decimal_digit n _ h) (by decide)

theorem signed_injective : Function.Injective signedDecimal := by
  intro y z h
  cases y with
  | ofNat m =>
    cases z with
    | ofNat n => rw [decimal_injective h]
    | negSucc n =>
      exact absurd (by simp [signedDecimal, show decimal m = _ from h]) (minus_not_digit m)
  | negSucc m =>
    cases z with
    | ofNat n =>
      exact absurd (by simp [signedDecimal, ← show _ = decimal n from h]) (minus_not_digit n)
    | negSucc n =>
      have := decimal_injective (List.cons.inj h).2
      rw [Nat.succ.inj this]

theorem decimal_length (n k : ℕ) (hk : 0 < k) (h : n < 10^k) : (decimal n).length ≤ k :=
  (Nat.length_toDigits_le_iff (by decide) hk).mpr h

theorem signed_length (z : ℤ) (k : ℕ) (hk : 0 < k) (h : z.natAbs < 10^k) :
    (signedDecimal z).length ≤ k+1 := by
  cases z with
  | ofNat n => exact (decimal_length n k hk h).trans (by omega)
  | negSucc n =>
    have := decimal_length (n+1) k hk (by simpa using h)
    simpa [signedDecimal] using this

theorem digitChar_cases (p : Char → Prop) (hd : ∀ m < 16, p (Nat.digitChar m)) (hs : p '*')
    (n : ℕ) : p (Nat.digitChar n) := by
  by_cases h : n < 16
  · exact hd n h
  · rw [Nat.digitChar]
    simp only [show n ≠ 0 by omega, show n ≠ 1 by omega, show n ≠ 2 by omega,
      show n ≠ 3 by omega, show n ≠ 4 by omega, show n ≠ 5 by omega, show n ≠ 6 by omega,
      show n ≠ 7 by omega, show n ≠ 8 by omega, show n ≠ 9 by omega, show n ≠ 10 by omega,
      show n ≠ 11 by omega, show n ≠ 12 by omega, show n ≠ 13 by omega, show n ≠ 14 by omega,
      show n ≠ 15 by omega, if_false]
    exact hs

theorem digitChar_plain (n : ℕ) : PlainChar (Nat.digitChar n) :=
  digitChar_cases PlainChar (by decide) (by decide) n

theorem digitChar_equals (n : ℕ) : Nat.digitChar n ≠ '=' :=
  digitChar_cases (fun c => c ≠ '=') (by decide) (by decide) n

theorem digitChar_injective (m n : ℕ) (hm : m < 16) (hn : n < 16)
    (h : Nat.digitChar m = Nat.digitChar n) : m = n := by
  have hall : ∀ a < 16, ∀ b < 16, Nat.digitChar a = Nat.digitChar b → a = b := by decide
  exact hall m hm n hn h

theorem hexByte_injective : Function.Injective hexByte := by
  intro a b h
  have ha := a.toNat_lt
  have hb := b.toNat_lt
  simp only [hexByte, List.cons.injEq, and_true] at h
  have h1 := digitChar_injective _ _ (by omega) (by omega) h.1
  have h2 := digitChar_injective _ _ (by omega) (by omega) h.2
  exact UInt8.toNat_inj.mp (by omega)

/-- One call of `fgets`: the piece read and what is left of the stream. -/
def fgets (size : ℕ) (t : Text) : Text × Text :=
  let n := min (size-1) ((t.takeWhile (fun c => c ≠ '\n')).length+1)
  (t.take n, t.drop n)

def readLines (size : ℕ) : ℕ → Text → List Text
  | 0, _ => []
  | fuel+1, t =>
    if t = [] then [] else (fgets size t).1::readLines size fuel (fgets size t).2

/-- All pieces that `fgets` returns until the end of the stream. Every call
consumes a byte, so the length of the stream bounds the calls. -/
def fileLines (size : ℕ) (t : Text) : List Text := readLines size t.length t

theorem fgets_shorter (size : ℕ) (t : Text) (hs : 2 ≤ size) (ht : t ≠ []) :
    (fgets size t).2.length < t.length := by
  have := List.length_pos_iff.mpr ht
  simp only [fgets, List.length_drop]
  omega

theorem readLines_fuel (size f g : ℕ) (t : Text) (hs : 2 ≤ size) (hf : t.length ≤ f)
    (hg : t.length ≤ g) : readLines size f t = readLines size g t := by
  induction f generalizing g t with
  | zero =>
    obtain rfl := List.length_eq_zero_iff.mp (Nat.le_zero.mp hf)
    cases g <;> simp [readLines]
  | succ f ih =>
    by_cases ht : t = []
    · cases g <;> simp [readLines, ht]
    · have hlt := fgets_shorter size t hs ht
      obtain ⟨k, rfl⟩ : ∃ k, g = k+1 := by
        have := List.length_pos_iff.mpr ht
        exact ⟨g-1, by omega⟩
      rw [readLines, readLines, if_neg ht, if_neg ht, ih k _ (by omega) (by omega)]

theorem fileLines_step (size : ℕ) (t : Text) (hs : 2 ≤ size) (ht : t ≠ []) :
    fileLines size t = (fgets size t).1::fileLines size (fgets size t).2 := by
  have hlt := fgets_shorter size t hs ht
  obtain ⟨k, hk⟩ : ∃ k, t.length = k+1 := ⟨t.length-1, by omega⟩
  rw [fileLines, hk, readLines, if_neg ht, fileLines]
  rw [readLines_fuel size k _ _ hs (by omega) (le_refl _)]

theorem takeWhile_line (line rest : Text) (h : '\n' ∉ line) :
    (line ++ '\n'::rest).takeWhile (fun c => c ≠ '\n') = line := by
  rw [List.takeWhile_append_of_pos]
  · simp
  · intro c hc
    have : c ≠ '\n' := fun he => h (he ▸ hc)
    simpa using this

theorem fileLines_line (size : ℕ) (line rest : Text) (h : '\n' ∉ line)
    (hl : line.length+2 ≤ size) :
    fileLines size (line ++ '\n'::rest) = (line++['\n'])::fileLines size rest := by
  have hn : min (size-1) (line.length+1) = (line++['\n']).length := by
    simp only [List.length_append, List.length_singleton]
    omega
  have happ : line ++ '\n'::rest = (line++['\n'])++rest := by simp
  rw [fileLines_step size _ (by omega) (by simp)]
  simp only [fgets, takeWhile_line line rest h, hn]
  rw [happ, List.take_left, List.drop_left]

/-- A line that fills the buffer is returned in pieces. -/
theorem fileLines_long (size : ℕ) (line rest : Text) (h : '\n' ∉ line) (hs : 2 ≤ size)
    (hl : size ≤ line.length+1) :
    fileLines size (line ++ '\n'::rest) =
      line.take (size-1)::fileLines size (line.drop (size-1) ++ '\n'::rest) := by
  have hn : min (size-1) (line.length+1) = size-1 := by omega
  rw [fileLines_step size _ (by omega) (by simp)]
  simp only [fgets, takeWhile_line line rest h, hn]
  rw [List.take_append_of_le_length (by omega), List.drop_append_of_le_length (by omega)]

theorem fileLines_nil (size : ℕ) : fileLines size [] = [] := rfl

def chomp (line : Text) : Text :=
  if line.getLast? = some '\n' then line.dropLast else line

theorem chomp_line (line : Text) : chomp (line++['\n']) = line := by
  simp [chomp]

theorem chomp_other (line : Text) (h : '\n' ∉ line) : chomp line = line := by
  rw [chomp, if_neg]
  exact fun he => h (List.mem_of_getLast? he)

end EraseCure.CText
