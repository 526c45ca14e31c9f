import NtShm.ByteMemory
import Mathlib.Tactic.ByContra
import Mathlib.Tactic.SplitIfs

/-!
# The offset of the time zone

`common.c` computes the offset of the local time from its calendar date and that
of UTC, where the system does not tell it.  The leap years that it corrects for
are those of `tm_year`, which counts from 1900.
-/

namespace NtShm

/-! ## The proleptic Gregorian calendar

Days are counted from the start of the year 1970, in both directions, and years
by their numbers, also before the first. -/

/-- Every fourth year, but only every fourth of the last years of centuries. -/
def IsLeap (year : Int) : Prop := year % 4 = 0 ∧ (year % 100 ≠ 0 ∨ year % 400 = 0)

instance (year : Int) : Decidable (IsLeap year) :=
  inferInstanceAs (Decidable (year % 4 = 0 ∧ (year % 100 ≠ 0 ∨ year % 400 = 0)))

def yearLength (year : Int) : Int := if IsLeap year then 366 else 365

/-- The days from the start of 1970 to the start of a year; there were 477 leap
days in the years before. -/
def daysBeforeYear (year : Int) : Int :=
  365 * (year - 1970) + ((year - 1) / 4 - (year - 1) / 100 + (year - 1) / 400) - 477

/-- The day is the `yday`-th of the year, counted from 0. -/
structure CalendarDay (day year yday : Int) : Prop where
  start : 0 ≤ yday
  within : yday < yearLength year
  isDay : day = daysBeforeYear year + yday

example : daysBeforeYear 1970 = 0 := by decide

theorem daysBeforeYear_succ (year : Int) :
    daysBeforeYear (year + 1) = daysBeforeYear year + yearLength year := by
  unfold daysBeforeYear yearLength
  by_cases leap : IsLeap year
  · rw [if_pos leap]
    unfold IsLeap at leap
    omega
  · rw [if_neg leap]
    unfold IsLeap at leap
    omega

theorem yearLength_ge (year : Int) : 365 ≤ yearLength year := by
  unfold yearLength
  split_ifs <;> omega

theorem daysBeforeYear_add_le (year : Int) (years : Nat) :
    daysBeforeYear year + 365 * years ≤ daysBeforeYear (year + years) := by
  induction years with
  | zero => simp
  | succ years ih =>
      have next := daysBeforeYear_succ (year + years)
      have length := yearLength_ge (year + years)
      rw [Int.natCast_add, Int.natCast_one, ← Int.add_assoc]
      omega

/-- A day that is at most a year later is at most in the next year. -/
theorem CalendarDay.year_le_succ {day year yday day' year' yday' : Int}
    (first : CalendarDay day year yday) (second : CalendarDay day' year' yday')
    (near : day' ≤ day + 365) : year' ≤ year + 1 := by
  by_contra later
  obtain ⟨years, isYear⟩ : ∃ years : Nat, year' = year + 1 + (years + 1 : Nat) :=
    ⟨(year' - year - 2).toNat, by omega⟩
  have bound := daysBeforeYear_add_le (year + 1) (years + 1)
  have next := daysBeforeYear_succ year
  have length := first.within
  have isDay := first.isDay
  have isDay' := second.isDay
  have start := second.start
  rw [isYear] at isDay'
  omega

/-! ## The offset -/

/-- The fields of `struct tm` that say the time and the day of the year. -/
structure Tm where
  tmSec : Int
  tmMin : Int
  tmHour : Int
  tmYday : Int
  tmYear : Int

/-- `nt_timezone_t`. -/
structure NtTimezone where
  tzSign : Char
  tzHour : Int
  tzMin : Int

def secPerMin : Int := 60
def secPerHour : Int := 3600
def secPerDay : Int := 86400
def secPerYear : Int := 365 * secPerDay

/-- `is_leap_year`. -/
def isLeapYear (year : Int) : Int :=
  if 0 = year.tmod 4 ∧ (0 ≠ year.tmod 100 ∨ 0 = year.tmod 400) then succeed else fail

/-- The loop of `nt_get_timezone_offset` for a local year after that of UTC, on the
offset and the year of UTC. -/
def forwardYears (tmYear : Int) : Nat → Int → Int → Int × Int
  | 0, offset, utcYear => (offset, utcYear)
  | fuel + 1, offset, utcYear =>
      if tmYear > utcYear then
        forwardYears tmYear fuel
          (offset + if succeed = isLeapYear utcYear then secPerYear + secPerDay else secPerYear)
          (utcYear + 1)
      else (offset, utcYear)

/-- The loop for a local year before that of UTC. -/
def backwardYears (tmYear : Int) : Nat → Int → Int → Int × Int
  | 0, offset, utcYear => (offset, utcYear)
  | fuel + 1, offset, utcYear =>
      if tmYear < utcYear then
        backwardYears tmYear fuel
          (offset - if succeed = isLeapYear (utcYear - 1) then secPerYear + secPerDay
            else secPerYear)
          (utcYear - 1)
      else (offset, utcYear)

/-- `nt_get_timezone_offset` without `HAVE_TM_TM_GMTOFF`: the local time that it
stores, and the offset.  The loops end when the years are equal. -/
def ntGetTimezoneOffset (localtime gmtime : Int → Tm) (t : Int) : Tm × Int :=
  let tm := localtime t
  let tmUtc := gmtime t
  let offset := (tm.tmYday - tmUtc.tmYday) * secPerDay +
    (tm.tmHour - tmUtc.tmHour) * secPerHour + (tm.tmMin - tmUtc.tmMin) * secPerMin
  let forward := forwardYears tm.tmYear (tm.tmYear - tmUtc.tmYear).toNat offset tmUtc.tmYear
  let backward :=
    backwardYears tm.tmYear (forward.2 - tm.tmYear).toNat forward.1 forward.2
  (tm, backward.1)

/-- `nt_get_time`, after `gettimeofday` answered `tvSec` and `tvUsec`: the local
time, the milliseconds and, where `tz` is not NULL, the time zone. -/
def ntGetTime (localtime gmtime : Int → Tm) (tvSec tvUsec : Int) (tz : Bool) :
    Tm × Int × Option NtTimezone :=
  let milliseconds := tvUsec.tdiv 1000
  if tz then
    let (tm, offset) := ntGetTimezoneOffset localtime gmtime tvSec
    let labs : Int := offset.natAbs
    let tzHour := labs.tdiv secPerHour
    let tzMin := (labs - tzHour * secPerHour).tdiv secPerMin
    (tm, milliseconds, some ⟨if 0 ≤ offset then '+' else '-', tzHour, tzMin⟩)
  else (localtime tvSec, milliseconds, none)

/-- The calendar date and the time of day of an instant, counted in seconds from the
start of 1970. -/
structure IsBreakdown (t : Int) (tm : Tm) : Prop where
  sec : 0 ≤ tm.tmSec ∧ tm.tmSec < 60
  min : 0 ≤ tm.tmMin ∧ tm.tmMin < 60
  hour : 0 ≤ tm.tmHour ∧ tm.tmHour < 24
  time : t % secPerDay = tm.tmHour * secPerHour + tm.tmMin * secPerMin + tm.tmSec
  day : CalendarDay (t / secPerDay) (1900 + tm.tmYear) tm.tmYday

def NtTimezone.seconds (tz : NtTimezone) : Int :=
  (if tz.tzSign = '+' then 1 else -1) * (tz.tzHour * 3600 + tz.tzMin * 60)

section Years

theorem isLeapYear_eq_succeed (year : Int) : succeed = isLeapYear year ↔ IsLeap year := by
  have divides : ∀ number : Int, 0 = year.tmod number ↔ year % number = 0 := by
    intro number
    rw [eq_comm, ← Int.dvd_iff_tmod_eq_zero, Int.dvd_iff_emod_eq_zero]
  unfold isLeapYear IsLeap
  simp only [Ne, divides]
  split_ifs with leap
  · exact iff_of_true rfl leap
  · exact iff_of_false (by decide) leap

theorem yearSeconds_eq (year : Int) :
    (if succeed = isLeapYear year then secPerYear + secPerDay else secPerYear) =
      86400 * yearLength year := by
  simp only [isLeapYear_eq_succeed, yearLength, secPerYear, secPerDay]
  split_ifs <;> rfl

theorem forwardYears_eq (years : Nat) (offset utcYear : Int) :
    forwardYears (utcYear + years) years offset utcYear =
      (offset + 86400 * (daysBeforeYear (utcYear + years) - daysBeforeYear utcYear),
        utcYear + years) := by
  induction years generalizing offset utcYear with
  | zero => simp [forwardYears]
  | succ years ih =>
      have later : utcYear + (years + 1 : Nat) > utcYear := by omega
      have regroup : utcYear + (years + 1 : Nat) = utcYear + 1 + years := by omega
      have next := daysBeforeYear_succ utcYear
      rw [forwardYears, if_pos later, yearSeconds_eq, regroup, ih]
      congr 1
      omega

theorem backwardYears_eq (years : Nat) (offset tmYear : Int) :
    backwardYears tmYear years offset (tmYear + years) =
      (offset - 86400 * (daysBeforeYear (tmYear + years) - daysBeforeYear tmYear),
        tmYear) := by
  induction years generalizing offset with
  | zero => simp [backwardYears]
  | succ years ih =>
      have earlier : tmYear < tmYear + (years + 1 : Nat) := by omega
      have regroup : tmYear + (years + 1 : Nat) - 1 = tmYear + years := by omega
      have next := daysBeforeYear_succ (tmYear + years)
      have regroup' : tmYear + (years + 1 : Nat) = tmYear + years + 1 := by omega
      rw [backwardYears, if_pos earlier, yearSeconds_eq, regroup, ih, regroup', next]
      congr 1
      omega

end Years

section Offsets

variable {localtime gmtime : Int → Tm} {t off : Int}

/-- Both loops together put in the days between the two years, as if they were
numbered from 0. -/
theorem ntGetTimezoneOffset_eq (localtime gmtime : Int → Tm) (t : Int) :
    (ntGetTimezoneOffset localtime gmtime t).2 =
      ((localtime t).tmYday - (gmtime t).tmYday) * secPerDay +
        ((localtime t).tmHour - (gmtime t).tmHour) * secPerHour +
        ((localtime t).tmMin - (gmtime t).tmMin) * secPerMin +
        86400 * (daysBeforeYear (localtime t).tmYear - daysBeforeYear (gmtime t).tmYear) := by
  obtain ⟨years, later⟩ | ⟨years, earlier⟩ :
      (∃ years : Nat, (localtime t).tmYear = (gmtime t).tmYear + years) ∨
        ∃ years : Nat, (gmtime t).tmYear = (localtime t).tmYear + years := by
    rcases Int.le_total (gmtime t).tmYear (localtime t).tmYear with forwards | backwards
    · exact Or.inl ⟨((localtime t).tmYear - (gmtime t).tmYear).toNat, by omega⟩
    · exact Or.inr ⟨((gmtime t).tmYear - (localtime t).tmYear).toNat, by omega⟩
  · have count : ((gmtime t).tmYear + (years : Int) - (gmtime t).tmYear).toNat = years := by
      omega
    have noMore : ((gmtime t).tmYear + (years : Int) - ((gmtime t).tmYear + years)).toNat =
        0 := by omega
    simp only [ntGetTimezoneOffset, later, count, forwardYears_eq, noMore, backwardYears]
  · have none : ((localtime t).tmYear - ((localtime t).tmYear + (years : Int))).toNat = 0 := by
      omega
    have count : ((localtime t).tmYear + (years : Int) - (localtime t).tmYear).toNat =
        years := by omega
    simp only [ntGetTimezoneOffset, earlier, none, forwardYears, count, backwardYears_eq]
    omega

/-- The true offset, from the dates and the times of day. -/
theorem IsBreakdown.offset_eq {utc loc : Tm} (isUtc : IsBreakdown t utc)
    (isLocal : IsBreakdown (t + off) loc) (minutes : off % 60 = 0) :
    off = (loc.tmYday - utc.tmYday) * secPerDay + (loc.tmHour - utc.tmHour) * secPerHour +
      (loc.tmMin - utc.tmMin) * secPerMin +
      86400 * (daysBeforeYear (1900 + loc.tmYear) - daysBeforeYear (1900 + utc.tmYear)) := by
  have sec := isUtc.sec
  have sec' := isLocal.sec
  have time := isUtc.time
  have time' := isLocal.time
  have day := isUtc.day.isDay
  have day' := isLocal.day.isDay
  simp only [secPerDay, secPerHour, secPerMin] at *
  omega

/-- The years 400 apart that are numbered alike by the code are not leap years alike. -/
theorem yearLength_shift (year : Int) :
    yearLength year = yearLength (1900 + year) ↔
      (1900 + year) % 400 ≠ 0 ∧ (1900 + year) % 400 ≠ 300 := by
  unfold yearLength IsLeap
  split_ifs <;> omega

end Offsets

/-- The offset that is computed, and that of the time zone. -/
def TimezoneRight (localtime gmtime : Int → Tm) (t tvUsec off : Int) : Prop :=
  (ntGetTimezoneOffset localtime gmtime t).2 = off ∧
    ∃ tz, (ntGetTime localtime gmtime t tvUsec true).2.2 = some tz ∧ tz.seconds = off

/-- The code's year numbers have the leap years of the calendar. -/
def YearsRight (tm tmUtc : Tm) : Prop :=
  tm.tmYear = tmUtc.tmYear ∨
    ((1900 + min tm.tmYear tmUtc.tmYear) % 400 ≠ 0 ∧
      (1900 + min tm.tmYear tmUtc.tmYear) % 400 ≠ 300)

section Timezones

variable {localtime gmtime : Int → Tm} {t off : Int}

theorem ntGetTime_seconds (tvUsec : Int) (minutes : off % 60 = 0)
    (isOffset : (ntGetTimezoneOffset localtime gmtime t).2 = off) :
    ∃ tz, (ntGetTime localtime gmtime t tvUsec true).2.2 = some tz ∧ tz.seconds = off := by
  let labs : Int := off.natAbs
  have isTz : (ntGetTime localtime gmtime t tvUsec true).2.2 =
      some ⟨if 0 ≤ off then '+' else '-', labs.tdiv 3600,
        (labs - labs.tdiv 3600 * 3600).tdiv 60⟩ := by
    rw [show labs = off.natAbs from rfl, ← isOffset]
    rfl
  have positive : 0 ≤ labs := Int.natCast_nonneg _
  have hours : labs.tdiv 3600 = labs / 3600 := Int.tdiv_eq_ediv_of_nonneg positive
  have rest : 0 ≤ labs - labs / 3600 * 3600 := by omega
  refine ⟨_, isTz, ?_⟩
  rw [NtTimezone.seconds, hours, Int.tdiv_eq_ediv_of_nonneg rest]
  by_cases east : 0 ≤ off
  · simp only [if_pos east, if_true]
    omega
  · simp only [if_neg east]
    rw [if_neg (by decide)]
    omega

/-- The code's years from one date to the other are as long as those of the calendar. -/
theorem yearsRight_iff {tm tmUtc : Tm} (forward : tm.tmYear ≤ tmUtc.tmYear + 1)
    (backward : tmUtc.tmYear ≤ tm.tmYear + 1) :
    daysBeforeYear tm.tmYear - daysBeforeYear tmUtc.tmYear =
        daysBeforeYear (1900 + tm.tmYear) - daysBeforeYear (1900 + tmUtc.tmYear) ↔
      YearsRight tm tmUtc := by
  unfold YearsRight
  obtain same | later | earlier : tm.tmYear = tmUtc.tmYear ∨
      tm.tmYear = tmUtc.tmYear + 1 ∨ tmUtc.tmYear = tm.tmYear + 1 := by omega
  · rw [same]
    simp
  · have next := daysBeforeYear_succ tmUtc.tmYear
    have next' := daysBeforeYear_succ (1900 + tmUtc.tmYear)
    have first : min (tmUtc.tmYear + 1) tmUtc.tmYear = tmUtc.tmYear := by omega
    rw [later, first, ← yearLength_shift, ← Int.add_assoc]
    omega
  · have next := daysBeforeYear_succ tm.tmYear
    have next' := daysBeforeYear_succ (1900 + tm.tmYear)
    have first : min tm.tmYear (tm.tmYear + 1) = tm.tmYear := by omega
    rw [earlier, first, ← yearLength_shift, ← Int.add_assoc]
    omega

/-- The time zone is right unless the local time and UTC are in different years of which
the earlier is the last of a century that the code takes for another. -/
theorem ntGetTime_timezone_iff (isUtc : IsBreakdown t (gmtime t))
    (isLocal : IsBreakdown (t + off) (localtime t)) (minutes : off % 60 = 0)
    (small : off.natAbs < 86400) (tvUsec : Int) :
    TimezoneRight localtime gmtime t tvUsec off ↔ YearsRight (localtime t) (gmtime t) := by
  have offset := isUtc.offset_eq isLocal minutes
  have computed := ntGetTimezoneOffset_eq localtime gmtime t
  have nextDay : (t + off) / secPerDay ≤ t / secPerDay + 365 := by
    unfold secPerDay
    omega
  have dayBefore : t / secPerDay ≤ (t + off) / secPerDay + 365 := by
    unfold secPerDay
    omega
  have forward := isUtc.day.year_le_succ isLocal.day nextDay
  have backward := isLocal.day.year_le_succ isUtc.day dayBefore
  rw [← yearsRight_iff (by omega) (by omega)]
  constructor
  · rintro ⟨isOffset, -⟩
    omega
  · intro same
    have isOffset : (ntGetTimezoneOffset localtime gmtime t).2 = off := by omega
    exact ⟨isOffset, ntGetTime_seconds tvUsec minutes isOffset⟩

end Timezones

/-- Half an hour before the year 2001 in UTC, and an hour later in a time zone to the
east.  The year 2000 has 366 days, but the code takes it for the year 100. -/
theorem ntGetTimezoneOffset_newYear2001 :
    let utc : Tm := ⟨0, 30, 23, 365, 100⟩
    let loc : Tm := ⟨0, 30, 0, 0, 101⟩
    IsBreakdown 978305400 utc ∧ IsBreakdown (978305400 + 3600) loc ∧
      (ntGetTimezoneOffset (fun _ => loc) (fun _ => utc) 978305400).2 = 3600 - 86400 ∧
      ¬ TimezoneRight (fun _ => loc) (fun _ => utc) 978305400 0 3600 := by
  refine ⟨⟨by decide, by decide, by decide, by decide, ⟨by decide, by decide, by decide⟩⟩,
    ⟨by decide, by decide, by decide, by decide, ⟨by decide, by decide, by decide⟩⟩,
    by decide, ?_⟩
  rintro ⟨isOffset, -⟩
  exact absurd isOffset (by decide)

/-- The same a year later. -/
theorem ntGetTime_timezone_newYear2002 :
    TimezoneRight (fun _ => ⟨0, 30, 0, 0, 102⟩) (fun _ => ⟨0, 30, 23, 364, 101⟩)
      1009841400 0 3600 := by
  have isUtc : IsBreakdown 1009841400 ⟨0, 30, 23, 364, 101⟩ :=
    ⟨by decide, by decide, by decide, by decide, ⟨by decide, by decide, by decide⟩⟩
  have isLocal : IsBreakdown (1009841400 + 3600) ⟨0, 30, 0, 0, 102⟩ :=
    ⟨by decide, by decide, by decide, by decide, ⟨by decide, by decide, by decide⟩⟩
  exact (@ntGetTime_timezone_iff (fun _ => ⟨0, 30, 0, 0, 102⟩)
    (fun _ => ⟨0, 30, 23, 364, 101⟩) 1009841400 3600 isUtc isLocal (by decide) (by decide)
    0).mpr (Or.inr ⟨by decide, by decide⟩)

end NtShm
