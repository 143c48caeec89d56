import EraseCure.AuditRecords

/-!
# Dates back to seconds

A date gives back the day that it was computed from, and a time stamp the second,
for every year that is written without a sign.
-/

set_option autoImplicit false

namespace EraseCure.CivilDates
open EraseCure.CText EraseCure.AuditRecords

def dayNumber (year : ℤ) (month day : ℕ) : ℤ :=
  let y := if month ≤ 2 then year-1 else year
  let yoe := (y % 400).toNat
  let mp := if month ≤ 2 then month+9 else month-3
  let doy := (153*mp+2)/5+day-1
  y / 400*146097+(365*yoe+yoe/4-yoe/100+doy : ℕ)-719468

/-- The days of an era without its leap days. -/
def plainDays (doe : ℕ) : ℕ := doe-doe/1460+doe/36524-doe/146096

/-- The day of an era that a year begins with. -/
def yearStart (yoe : ℕ) : ℕ := 365*yoe+yoe/4-yoe/100

theorem plainDays_step (n : ℕ) : plainDays n ≤ plainDays (n+1) := by
  rw [plainDays, plainDays]
  omega

theorem plainDays_mono (m n : ℕ) (h : m ≤ n) : plainDays m ≤ plainDays n := by
  induction n, h using Nat.le_induction with
  | base => exact Nat.le_refl _
  | succ n _ ih => exact ih.trans (plainDays_step n)

theorem year_found (doe : ℕ) (h : doe < 146097) :
    plainDays doe/365 < 400 ∧ yearStart (plainDays doe/365) ≤ doe ∧
      doe ≤ yearStart (plainDays doe/365)+365 := by
  have hbefore : ∀ y < 400, 0 < y → plainDays (yearStart y-1) < 365*y := by decide +kernel
  have hafter : ∀ y < 400, 365*(y+1) ≤ plainDays (yearStart y+366) := by decide +kernel
  have hlast : plainDays 146096 = 145999 := by decide
  have hle := plainDays_mono doe 146096 (by omega)
  have hyear : plainDays doe/365 < 400 := by omega
  refine ⟨hyear, ?_, ?_⟩
  · by_contra hlate
    have hpos : 0 < plainDays doe/365 := by
      by_contra hzero
      rw [Nat.eq_zero_of_not_pos hzero] at hlate
      exact hlate (Nat.zero_le _)
    have := hbefore _ hyear hpos
    have := plainDays_mono doe (yearStart (plainDays doe/365)-1) (by omega)
    omega
  · by_contra hlate
    have := hafter _ hyear
    have := plainDays_mono (yearStart (plainDays doe/365)+366) doe (by omega)
    omega

/-- The parts of a date: a year of an era, and a month and a day in it. -/
theorem civilDate_parts (days : ℤ) : ∃ (era : ℤ) (yoe doy mp : ℕ),
    days+719468 = era*146097+(yearStart yoe+doy : ℕ) ∧ yoe < 400 ∧ mp < 12 ∧
      (153*mp+2)/5 ≤ doy ∧ doy < (153*mp+2)/5+31 ∧
      civilDate days = (era*400+yoe+(if (if mp < 10 then mp+3 else mp-9) ≤ 2 then 1 else 0),
        if mp < 10 then mp+3 else mp-9, doy-(153*mp+2)/5+1) := by
  obtain ⟨doe, hdoe⟩ : ∃ doe, doe = ((days+719468) % 146097).toNat := ⟨_, rfl⟩
  have hlt : doe < 146097 := by omega
  obtain ⟨hyear, hstart, hend⟩ := year_found doe hlt
  generalize hyoe : plainDays doe/365 = yoe at hyear hstart hend
  obtain ⟨doy, hdoy⟩ : ∃ doy, doe = yearStart yoe+doy := ⟨doe-yearStart yoe, by omega⟩
  refine ⟨(days+719468) / 146097, yoe, doy, (5*doy+2)/153, by omega, hyear, by omega, by omega,
    by omega, ?_⟩
  have hsub : doe-(365*yoe+yoe/4-yoe/100) = doy := by
    rw [yearStart] at hdoy
    omega
  rw [plainDays] at hyoe
  rw [civilDate, ← hdoe, hyoe, hsub]

theorem dayNumber_civilDate (days : ℤ) :
    dayNumber (civilDate days).1 (civilDate days).2.1 (civilDate days).2.2 = days := by
  obtain ⟨era, yoe, doy, mp, hdays, hyear, hmp, hlow, hhigh, hdate⟩ := civilDate_parts days
  rw [hdate, dayNumber]
  dsimp only
  rw [yearStart] at hdays
  by_cases hlate : mp < 10
  · rw [if_pos hlate, if_neg (by omega), if_neg (by omega), if_neg (by omega)]
    have hera : (era*400+(yoe : ℤ)+0) / 400 = era := by omega
    have hyoe : ((era*400+(yoe : ℤ)+0) % 400).toNat = yoe := by omega
    rw [hera, hyoe]
    omega
  · rw [if_neg hlate, if_pos (by omega), if_pos (by omega), if_pos (by omega)]
    have hera : (era*400+(yoe : ℤ)+1-1) / 400 = era := by omega
    have hyoe : ((era*400+(yoe : ℤ)+1-1) % 400).toNat = yoe := by omega
    rw [hera, hyoe]
    omega

theorem civilDate_small (days : ℤ) :
    (civilDate days).2.1 < 100 ∧ (civilDate days).2.2 < 100 := by
  obtain ⟨era, yoe, doy, mp, _, _, _, _, _, hdate⟩ := civilDate_parts days
  rw [hdate]
  dsimp only
  split_ifs <;> omega

def numberTo (stop : Char) (t : Text) : Option (ℕ × Text) :=
  match t.dropWhile Char.isDigit with
  | [] => none
  | c::rest =>
    if c = stop then some (Nat.ofDigitChars 10 (t.takeWhile Char.isDigit) 0, rest) else none

def instantOf (t : Text) : Option ℤ := do
  let (year, t) ← numberTo '-' t
  let (month, t) ← numberTo '-' t
  let (day, t) ← numberTo 'T' t
  let (hour, t) ← numberTo ':' t
  let (minute, t) ← numberTo ':' t
  let (second, t) ← numberTo 'Z' t
  if t = [] then
    some (dayNumber year month day*86400+((hour*60+minute)*60+second : ℕ))
  else none

theorem numberTo_digits (stop : Char) (digits rest : Text) (hd : ∀ c ∈ digits, c.isDigit = true)
    (hstop : stop.isDigit = false) :
    numberTo stop (digits++stop::rest) = some (Nat.ofDigitChars 10 digits 0, rest) := by
  have hneg : ¬ stop.isDigit = true := by simp [hstop]
  have hdrop : (digits++stop::rest).dropWhile Char.isDigit = stop::rest := by
    rw [List.dropWhile_append_of_pos hd, List.dropWhile_cons_of_neg hneg]
  have htake : (digits++stop::rest).takeWhile Char.isDigit = digits := by
    rw [List.takeWhile_append_of_pos hd, List.takeWhile_cons_of_neg hneg, List.append_nil]
  rw [numberTo, hdrop, htake]
  exact if_pos rfl

theorem numberTo_decimal (stop : Char) (n : ℕ) (rest : Text) (hstop : stop.isDigit = false) :
    numberTo stop (decimal n++stop::rest) = some (n, rest) := by
  rw [numberTo_digits stop _ rest (decimal_digit n) hstop, decimal, Nat.ofDigitChars_ten_toDigits]

theorem numberTo_two (stop : Char) (n : ℕ) (rest : Text) (hn : n < 100)
    (hstop : stop.isDigit = false) : numberTo stop (twoDigits n++stop::rest) = some (n, rest) := by
  have hdigits : ∀ m < 100, (twoDigits m).all Char.isDigit = true := by decide
  have hvalue : ∀ m < 100, Nat.ofDigitChars 10 (twoDigits m) 0 = m := by decide
  rw [numberTo_digits stop _ rest (List.all_eq_true.mp (hdigits n hn)) hstop, hvalue n hn]

def yearOf (ts : Int64) : ℤ := (civilDate (ts.toInt / 86400)).1

theorem instantOf_timestamp (ts : Int64) (h0 : 0 ≤ yearOf ts) (h1 : yearOf ts ≤ 9999) :
    instantOf (timestampToIso8601 ts) = some ts.toInt := by
  obtain ⟨days, hdays⟩ : ∃ days, days = ts.toInt / 86400 := ⟨_, rfl⟩
  obtain ⟨secs, hsecs⟩ : ∃ secs, secs = (ts.toInt % 86400).toNat := ⟨_, rfl⟩
  obtain ⟨hmonth, hday⟩ := civilDate_small days
  have hback := dayNumber_civilDate days
  rw [yearOf, ← hdays] at h0 h1
  rw [timestampToIso8601]
  dsimp only
  rw [← hdays, ← hsecs, if_pos (by omega)]
  generalize civilDate days = date at h0 hmonth hday hback
  obtain ⟨year, month, day⟩ := date
  dsimp only at h0 hmonth hday hback
  obtain ⟨n, rfl⟩ := Int.eq_ofNat_of_zero_le h0
  have htext : signedDecimal n++ '-'::twoDigits month++ '-'::twoDigits day++
      'T'::twoDigits (secs/3600)++ ':'::twoDigits (secs/60%60)++ ':'::twoDigits (secs%60)++['Z'] =
        decimal n++ '-'::(twoDigits month++ '-'::(twoDigits day++ 'T'::(twoDigits (secs/3600)++
          ':'::(twoDigits (secs/60%60)++ ':'::(twoDigits (secs%60)++ 'Z'::[]))))) := by
    simp [signedDecimal]
  rw [htext, instantOf, numberTo_decimal '-' n _ (by decide)]
  simp only [Option.bind_eq_bind, Option.bind_some]
  rw [numberTo_two '-' month _ hmonth (by decide)]
  simp only [Option.bind_some]
  rw [numberTo_two 'T' day _ hday (by decide)]
  simp only [Option.bind_some]
  rw [numberTo_two ':' (secs/3600) _ (by omega) (by decide)]
  simp only [Option.bind_some]
  rw [numberTo_two ':' (secs/60%60) _ (by omega) (by decide)]
  simp only [Option.bind_some]
  rw [numberTo_two 'Z' (secs%60) _ (by omega) (by decide)]
  simp only [Option.bind_some, if_true]
  rw [hback]
  congr 1
  omega

end EraseCure.CivilDates
