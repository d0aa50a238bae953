import ByteHive.ForStd.Gregorian
import ByteHive.Native.Timestamps

/-!
# Timestamps denote the right civil date

Both conversions count years from the first of March, in eras of 400 years. A day of an era is
written as centuries, groups of four years, years and days (`exists_eraDay`), from which the year
that the source computes by division can be read off (`yearOfEra_eq`).
-/

namespace ByteHive

open Gregorian

/-! ## Eras -/

/-- The day `doy` of a year that begins in March, the year `s` of a group `q` of four, in the
    century `c` of its era. -/
structure EraDay (c q s doy doe : Int) : Prop where
  eq : doe = 36524 * c + 1461 * q + 365 * s + doy
  century : 0 ≤ c ∧ c ≤ 3
  group : 0 ≤ q ∧ q ≤ 24
  year : 0 ≤ s ∧ s ≤ 3
  day : 0 ≤ doy ∧ doy ≤ 365
  /-- The years with a leap day at their end are the last of a group. -/
  leap : doy = 365 → s = 3 ∧ (q = 24 → c = 3)

theorem exists_eraDay {doe : Int} (h : 0 ≤ doe) (h' : doe ≤ 146096) :
    ∃ c q s doy, EraDay c q s doy doe := by
  -- The last century and the last year of a group have a day more, which stays with them.
  obtain ⟨c, hc⟩ : ∃ c, c = min (doe / 36524) 3 := ⟨_, rfl⟩
  obtain ⟨q, hq⟩ : ∃ q, q = (doe - 36524 * c) / 1461 := ⟨_, rfl⟩
  obtain ⟨s, hs⟩ : ∃ s, s = min ((doe - 36524 * c - 1461 * q) / 365) 3 := ⟨_, rfl⟩
  refine ⟨c, q, s, doe - 36524 * c - 1461 * q - 365 * s, ?_, ?_, ?_, ?_, ?_, ?_⟩
  all_goals omega

namespace EraDay

variable {c q s doy doe : Int}

theorem le (h : EraDay c q s doy doe) : 0 ≤ doe ∧ doe ≤ 146096 := by
  obtain ⟨heq, hc, hq, hs, hdoy, hleap⟩ := h
  omega

/-- The year of the era, as both copies compute it. -/
theorem yearOfEra_eq (h : EraDay c q s doy doe) :
    (doe - doe / 1460 + doe / 36524 - doe / 146096) / 365 = 100 * c + 4 * q + s := by
  obtain ⟨heq, hc, hq, hs, hdoy, hleap⟩ := h
  -- The last day of the era is the only one past the fourth century.
  have hcenturies : doe / 36524 - doe / 146096 = c := by
    obtain hlt | ⟨rfl, hend⟩ : 1461 * q + 365 * s + doy ≤ 36523 ∨
        c = 3 ∧ 1461 * q + 365 * s + doy = 36524 := by omega
    · have hcentury : doe / 36524 = c := by omega
      have hera : doe / 146096 = 0 := by omega
      omega
    · omega
  -- Fourths are counted in years of 365 days: one more is passed in the last year of a group.
  obtain ⟨e, he, hfourths⟩ : ∃ e, (e = 0 ∧ doy ≤ 364 ∨ e = 1 ∧ 1 ≤ doy) ∧
      doe / 1460 = 25 * c + q + e := by
    by_cases hlast : 24 * c + q + 365 * s + doy < 1460
    · exact ⟨0, by omega, by omega⟩
    · exact ⟨1, by omega, by omega⟩
  omega

/-- The days of the years before. -/
theorem daysBefore_eq (h : EraDay c q s doy doe) {yoe : Int} (hyoe : yoe = 100 * c + 4 * q + s) :
    365 * yoe + yoe / 4 - yoe / 100 = doe - doy := by
  obtain ⟨heq, hc, hq, hs, hdoy, hleap⟩ := h
  omega

end EraDay

/-! ## Dates that count from March -/

/-- The date of the day `doy` of the year that begins in March of `y`, as the source computes it
    from there on. -/
def marchDate (y doy : Int) : Date :=
  let mp := (5 * doy + 2) / 153
  let d := doy - (153 * mp + 2) / 5 + 1
  if mp < 10 then ⟨y, mp + 3, d⟩ else ⟨y + 1, mp - 9, d⟩

/-- The first of March. -/
theorem dayNumber_march (y m d : Int) (h : 3 ≤ m) (h' : m ≤ 12) :
    Date.dayNumber ⟨y, m, d⟩ =
      365 * y + y / 4 - y / 100 + y / 400 + (153 * (m - 3) + 2) / 5 + (d - 1) - 719468 := by
  show yearStart y + monthStart y m + (d - 1) = _
  rw [yearStart_eq, monthStart_eq y (by omega) (by omega), if_neg (by omega)]
  split
  · next hleap =>
    rw [isLeap_iff] at hleap
    omega
  · next hleap =>
    rw [isLeap_iff] at hleap
    omega

theorem dayNumber_winter (y m d : Int) (h : 1 ≤ m) (h' : m ≤ 2) :
    Date.dayNumber ⟨y + 1, m, d⟩ =
      365 * y + y / 4 - y / 100 + y / 400 + (153 * (m + 9) + 2) / 5 + (d - 1) - 719468 := by
  show yearStart (y + 1) + monthStart (y + 1) m + (d - 1) = _
  rw [yearStart_eq, monthStart_eq _ (by omega) (by omega), if_pos h']
  omega

theorem dayNumber_marchDate (y doy : Int) (h : 0 ≤ doy) (h' : doy ≤ 365) :
    (marchDate y doy).dayNumber = 365 * y + y / 4 - y / 100 + y / 400 + doy - 719468 := by
  rw [marchDate]
  split
  · rw [dayNumber_march _ _ _ (by omega) (by omega), add_sub_cancel_right]
    omega
  · rw [dayNumber_winter _ _ _ (by omega) (by omega), sub_add_cancel]
    omega

theorem valid_marchDate {y doy : Int} (h : 0 ≤ doy) (h' : doy ≤ 365)
    (hleap : doy = 365 → isLeap (y + 1) = true) : (marchDate y doy).Valid := by
  obtain ⟨mp, hmp⟩ : ∃ mp, mp = (5 * doy + 2) / 153 := ⟨_, rfl⟩
  have hbounds : 0 ≤ mp ∧ mp ≤ 11 := by omega
  simp only [marchDate, ← hmp]
  split
  · next hlt =>
    refine ⟨by dsimp only; omega, by dsimp only; omega, by dsimp only; omega, ?_⟩
    dsimp only [daysInMonth]
    obtain ⟨hlow, -⟩ := hbounds
    interval_cases mp <;> simp <;> omega
  · next hge =>
    refine ⟨by dsimp only; omega, by dsimp only; omega, by dsimp only; omega, ?_⟩
    dsimp only [daysInMonth]
    obtain rfl | rfl : mp = 10 ∨ mp = 11 := by omega
    · simp; omega
    · by_cases hday : doy = 365
      · simp [hleap hday, hday]
      · simp only [show (11 : Int) - 9 = 2 from rfl, if_pos]
        split <;> omega

/-! ## The two conversions -/

theorem i64_then {α : Type} {x : Int} {f : Int → Option α} (h : -2 ^ 63 ≤ x) (h' : x ≤ 2 ^ 63 - 1) :
    (i64 x >>= f) = f x := by
  rw [i64, fits, if_pos ⟨h, h'⟩]
  rfl

theorem u64_then {α : Type} {x : Int} {f : Int → Option α} (h : 0 ≤ x) (h' : x ≤ 2 ^ 64 - 1) :
    (u64 x >>= f) = f x := by
  rw [u64, fits, if_pos ⟨h, h'⟩]
  rfl

theorem some_then {α : Type} {x : Int} {f : Int → Option α} : (some x >>= f) = f x := rfl

theorem asU64_of_bounds {x : Int} (h : 0 ≤ x) (h' : x < 2 ^ 64) : asU64 x = x :=
  Int.emod_eq_of_lt h h'

theorem asU32_of_bounds {x : Int} (h : 0 ≤ x) (h' : x < 2 ^ 32) : asU32 x = x :=
  Int.emod_eq_of_lt h h'

theorem asI64_of_bounds {x : Int} (h : 0 ≤ x) (h' : x < 2 ^ 63) : asI64 x = x := by
  rw [asI64, Int.bmod_def, Int.emod_eq_of_lt h (by omega), if_pos (by omega)]

/-- `civil_from_days` leaves no type on the way. -/
theorem civilFromDays_eq {z era c q s doy doe : Int} (h : EraDay c q s doy doe)
    (hz : z + 719468 = era * 146097 + doe) (hera : 0 ≤ era) (hera' : era < 2 ^ 40) :
    civilFromDays z =
      some ((marchDate (era * 400 + (100 * c + 4 * q + s)) doy).year,
        (marchDate (era * 400 + (100 * c + 4 * q + s)) doy).month,
        (marchDate (era * 400 + (100 * c + 4 * q + s)) doy).day) := by
  obtain ⟨hlow, hhigh⟩ := h.le
  have hdiv : (z + 719468).tdiv 146097 = era := by
    rw [Int.tdiv_eq_ediv_of_nonneg (by omega)]
    omega
  have hdoe : z + 719468 - era * 146097 = doe := by omega
  have hyoe := h.yearOfEra_eq
  have hbefore := h.daysBefore_eq rfl
  obtain ⟨-, hc, hq, hs, hdoy, -⟩ := h
  obtain ⟨yoe, hy⟩ : ∃ yoe, yoe = 100 * c + 4 * q + s := ⟨_, rfl⟩
  rw [← hy] at hyoe hbefore ⊢
  have hyoe' : 0 ≤ yoe ∧ yoe ≤ 399 := by omega
  unfold civilFromDays
  rw [i64_then (by omega) (by omega), if_pos (by omega), some_then]
  simp only [hdiv]
  rw [i64_then (by omega) (by omega), hdoe, i64_then (by omega) (by omega)]
  simp only [asU64_of_bounds hlow (by omega)]
  rw [u64_then (by omega) (by omega), u64_then (by omega) (by omega),
    u64_then (by omega) (by omega)]
  simp only [hyoe, asI64_of_bounds hyoe'.1 (by omega)]
  rw [i64_then (by omega) (by omega), i64_then (by omega) (by omega),
    u64_then (by omega) (by omega), u64_then (by omega) (by omega),
    u64_then (by omega) (by omega), hbefore, u64_then (by omega) (by omega), sub_sub_cancel]
  -- From the day of the year on.
  rw [u64_then (by omega) (by omega), u64_then (by omega) (by omega)]
  obtain ⟨mp, hmp⟩ : ∃ mp, mp = (5 * doy + 2) / 153 := ⟨_, rfl⟩
  simp only [marchDate, ← hmp]
  rw [u64_then (by omega) (by omega), u64_then (by omega) (by omega),
    u64_then (by omega) (by omega), u64_then (by omega) (by omega)]
  simp only [asU32_of_bounds (x := doy - (153 * mp + 2) / 5 + 1) (by omega) (by omega)]
  by_cases hspring : mp < 10
  · rw [if_pos hspring, if_pos hspring, u64_then (by omega) (by omega),
      asU32_of_bounds (by omega) (by omega), if_neg (by omega), some_then, add_comm yoe]
    rfl
  · rw [if_neg hspring, if_neg hspring, u64_then (by omega) (by omega),
      asU32_of_bounds (by omega) (by omega), if_pos (by omega), i64_then (by omega) (by omega),
      add_comm yoe]
    rfl

/-- The copy in `format_unix_secs` neither: in one type it divides the same numbers. -/
theorem unixDate_eq {z era c q s doy doe : Int} (h : EraDay c q s doy doe)
    (hz : z + 719468 = era * 146097 + doe) (hera : 0 ≤ era) (hera' : era < 2 ^ 40) :
    unixDate z =
      some ((marchDate (era * 400 + (100 * c + 4 * q + s)) doy).year,
        (marchDate (era * 400 + (100 * c + 4 * q + s)) doy).month,
        (marchDate (era * 400 + (100 * c + 4 * q + s)) doy).day) := by
  obtain ⟨hlow, hhigh⟩ := h.le
  have hdiv : (z + 719468).tdiv 146097 = era := by
    rw [Int.tdiv_eq_ediv_of_nonneg (by omega)]
    omega
  have hdoe : z + 719468 - era * 146097 = doe := by omega
  have hyoe := h.yearOfEra_eq
  have hbefore := h.daysBefore_eq rfl
  obtain ⟨-, hc, hq, hs, hdoy, -⟩ := h
  obtain ⟨yoe, hy⟩ : ∃ yoe, yoe = 100 * c + 4 * q + s := ⟨_, rfl⟩
  rw [← hy] at hyoe hbefore ⊢
  have hyoe' : 0 ≤ yoe ∧ yoe ≤ 399 := by omega
  unfold unixDate
  rw [i64_then (by omega) (by omega), if_pos (by omega), some_then]
  simp only [hdiv]
  rw [i64_then (by omega) (by omega), hdoe, i64_then (by omega) (by omega)]
  simp only [Int.tdiv_eq_ediv_of_nonneg hlow]
  rw [i64_then (by omega) (by omega), i64_then (by omega) (by omega),
    i64_then (by omega) (by omega), Int.tdiv_eq_ediv_of_nonneg (by omega)]
  simp only [hyoe, Int.tdiv_eq_ediv_of_nonneg hyoe'.1]
  rw [i64_then (by omega) (by omega), i64_then (by omega) (by omega),
    i64_then (by omega) (by omega), i64_then (by omega) (by omega),
    i64_then (by omega) (by omega), hbefore, i64_then (by omega) (by omega), sub_sub_cancel]
  -- From the day of the year on.
  rw [i64_then (by omega) (by omega), i64_then (by omega) (by omega)]
  simp only [Int.tdiv_eq_ediv_of_nonneg (by omega : 0 ≤ 5 * doy + 2)]
  obtain ⟨mp, hmp⟩ : ∃ mp, mp = (5 * doy + 2) / 153 := ⟨_, rfl⟩
  simp only [marchDate, ← hmp]
  rw [i64_then (by omega) (by omega), i64_then (by omega) (by omega)]
  simp only [Int.tdiv_eq_ediv_of_nonneg (by omega : 0 ≤ 153 * mp + 2)]
  rw [i64_then (by omega) (by omega), i64_then (by omega) (by omega)]
  by_cases hspring : mp < 10
  · rw [if_pos hspring, if_pos hspring, i64_then (by omega) (by omega), if_neg (by omega),
      some_then, add_comm yoe]
    rfl
  · rw [if_neg hspring, if_neg hspring, i64_then (by omega) (by omega), if_pos (by omega),
      i64_then (by omega) (by omega), add_comm yoe]
    rfl

/-- The days that a `u64` of seconds can give have one valid date, which both copies compute. -/
theorem exists_date {days : Nat} (h : days < 2 ^ 48) :
    ∃ date : Date, date.Valid ∧ date.dayNumber = days ∧
      civilFromDays days = some (date.year, date.month, date.day) ∧
      unixDate days = some (date.year, date.month, date.day) := by
  obtain ⟨era, hera⟩ : ∃ era : Int, era = (days + 719468) / 146097 := ⟨_, rfl⟩
  obtain ⟨doe, hdoe⟩ : ∃ doe : Int, doe = (days + 719468) % 146097 := ⟨_, rfl⟩
  obtain ⟨c, q, s, doy, hday⟩ := @exists_eraDay doe (by omega) (by omega)
  have hz : (days : Int) + 719468 = era * 146097 + doe := by omega
  refine ⟨marchDate (era * 400 + (100 * c + 4 * q + s)) doy, ?_, ?_,
    civilFromDays_eq hday hz (by omega) (by omega), unixDate_eq hday hz (by omega) (by omega)⟩
  · refine valid_marchDate hday.day.1 hday.day.2 fun hlast => ?_
    obtain ⟨rfl, hgroup⟩ := hday.leap hlast
    have hc := hday.century
    have hq := hday.group
    rw [isLeap_iff]
    omega
  · rw [dayNumber_marchDate _ _ hday.day.1 hday.day.2]
    have hbefore := hday.daysBefore_eq rfl
    have hc := hday.century
    have hq := hday.group
    have hs := hday.year
    omega

/-! ## Timestamps -/

/-- The date of a day, as both conversions and both printed forms give it. -/
structure DateOf (days : Nat) (date : Date) : Prop where
  only : ∀ other : Date, other.Valid ∧ other.dayNumber = days ↔ other = date
  civilFromDays : civilFromDays days = some (date.year, date.month, date.day)
  unixDate : unixDate days = some (date.year, date.month, date.day)
  formatUtcMs : ∀ ms < 2 ^ 64, ms / 1000 / 86400 = days → ∃ time, formatUtcMs ms =
    some (String.ofList (dateText date.year date.month date.day ++ 'T' :: time))
  formatUnixSecs : ∀ secs < 2 ^ 64, secs / 86400 = days → ∃ time, formatUnixSecs secs =
    some (String.ofList (dateText date.year date.month date.day ++ ' ' :: time))

/-- The days of every timestamp, in seconds or in milliseconds, have one date. -/
theorem timestamps_denote_date (days : Nat)
    (h : ∃ stamp < 2 ^ 64, days = stamp / 86400 ∨ days = stamp / 1000 / 86400) :
    ∃ date, DateOf days date := by
  obtain ⟨stamp, hstamp, hdays⟩ := h
  obtain ⟨date, hvalid, hnumber, hcivil, hunix⟩ := @exists_date days (by omega)
  have hcast : asI64 days = days := asI64_of_bounds (by omega) (by omega)
  refine ⟨date, ?_, hcivil, hunix, ?_, ?_⟩
  · intro other
    constructor
    · intro ⟨hother, heq⟩
      exact hother.ext_dayNumber hvalid (heq.trans hnumber.symm)
    · intro heq
      exact heq ▸ ⟨hvalid, hnumber⟩
  · intro ms _ hms
    have hday : ((ms / 1000 : Nat) : Int) / 86400 = days := by omega
    simp only [formatUtcMs, hday, hcast, hcivil, List.append_assoc, List.cons_append]
    exact ⟨_, rfl⟩
  · intro secs _ hsecs
    have hday : (secs : Int) / 86400 = days := by omega
    simp only [formatUnixSecs, hday, hcast, hunix, List.append_assoc, List.cons_append]
    exact ⟨_, rfl⟩

/-- 2000-02-29. -/
theorem leap_day_denoted : ∃ date, DateOf 11016 date :=
  timestamps_denote_date 11016 ⟨951782400, by decide, .inl (by decide)⟩

example : formatUtcMs 951782400000 = some "2000-02-29T00:00:00.000Z" := by decide

end ByteHive
