-- SUMMARY: The calendar and the text of a date read back: every day has its date, and which dates survive being written and parsed.
import Sxp.Java.Date
import Mathlib.Tactic.IntervalCases
import Mathlib.Data.List.TakeWhile

/-!
# Dates read back

A day is found again from its date. The text of a date leaves out the milliseconds and the
era and names the time zone, so it is read as the same date exactly if there are no
milliseconds, the era is the present one, and the name stands for the offset in force.
-/

namespace Sxp

/-! ## Calendars -/

namespace CivilDate

/-- The leap days of the Gregorian calendar before a year. -/
def leapDays (year : Int) : Int := year / 4 - year / 100 + year / 400

theorem leapDays_eq {e c q y : Int} (hc0 : 0 ≤ c) (hc : c ≤ 3) (hq0 : 0 ≤ q) (hq : q ≤ 24)
    (hy0 : 0 ≤ y)
    (hy : y ≤ 3) : leapDays (100 * c + 4 * q + y + e * 400) = 97 * e + 24 * c + q := by
  have h4 : (100 * c + 4 * q + y + e * 400) / 4 = 25 * c + q + 100 * e := by omega
  have h100 : (100 * c + 4 * q + y + e * 400) / 100 = c + 4 * e := by omega
  have h400 : (100 * c + 4 * q + y + e * 400) / 400 = e := by omega
  rw [leapDays, h4, h100, h400]
  omega

/-- A day of the cycle of 400 years, by centuries, cycles of four years, years and days. Only
the last year of four, and of the centuries only the last one, ends with a leap day. -/
structure CycleDay (doe c q y d : Int) : Prop where
  eq : doe = 36524 * c + 1461 * q + 365 * y + d
  c_nonneg : 0 ≤ c
  c_le : c ≤ 3
  q_nonneg : 0 ≤ q
  q_le : q ≤ 24
  y_nonneg : 0 ≤ y
  y_le : y ≤ 3
  d_nonneg : 0 ≤ d
  d_le : d ≤ 365
  leap : d = 365 → y = 3
  century : d = 365 → q = 24 → c = 3

theorem exists_cycleDay {doe : Int} (h0 : 0 ≤ doe) (h1 : doe < 146097) :
    ∃ c q y d, CycleDay doe c q y d := by
  obtain ⟨c, r, hc, hc0, hc3, hr0, hr⟩ :
      ∃ c r : Int, doe = 36524 * c + r ∧ 0 ≤ c ∧ c ≤ 3 ∧ 0 ≤ r ∧
      (r < 36524 ∨ c = 3 ∧ r = 36524) := by
    by_cases hlast : doe = 146096
    · exact ⟨3, 36524, by omega, by omega, by omega, by omega, by omega⟩
    · exact ⟨doe / 36524, doe % 36524, by omega, by omega, by omega, by omega, by omega⟩
  obtain ⟨q, s, hq, hq0, hq24, hs0, hs⟩ :
      ∃ q s : Int, r = 1461 * q + s ∧ 0 ≤ q ∧ q ≤ 24 ∧ 0 ≤ s ∧ s ≤ 1460 :=
    ⟨r / 1461, r % 1461, by omega, by omega, by omega, by omega, by omega⟩
  by_cases hleap : s = 1460
  · refine ⟨c, q, 3, 365, ?_⟩
    constructor <;> omega
  · refine ⟨c, q, s / 365, s % 365, ?_⟩
    constructor <;> omega

/-- The year of the cycle, as the calendar computes it. -/
theorem CycleDay.year_eq {doe c q y d : Int} (h : CycleDay doe c q y d) :
    (doe - doe / 1460 + doe / 36524 - doe / 146096) / 365 = 100 * c + 4 * q + y := by
  obtain ⟨heq, hc0, hc, hq0, hq, hy0, hy, hd0, hd, hleap, hcentury⟩ := h
  have h1460 : doe / 1460 = 25 * c + q ∨
      doe / 1460 = 25 * c + q + 1 ∧ 1460 ≤ 24 * c + q + 365 * y + d := by
    omega
  have h36524 : doe / 36524 = c ∨ doe = 146096 := by omega
  omega

theorem exists_gregorian (days : Int) :
    ∃ year doy, 0 ≤ doy ∧ doy ≤ 365 ∧ gregorian days = ofMarchYear year doy ∧
      days + 719468 = 365 * year + leapDays year + doy := by
  obtain ⟨era, doe, hera, hdoe, hz, h0, h1⟩ :
      ∃ era doe, (days + 719468) / 146097 = era ∧ (days + 719468) % 146097 = doe ∧
        days + 719468 = 146097 * era + doe ∧ 0 ≤ doe ∧ doe < 146097 :=
    ⟨_, _, rfl, rfl, by omega, by omega, by omega⟩
  obtain ⟨c, q, y, d, h⟩ := exists_cycleDay h0 h1
  have hyear := h.year_eq
  obtain ⟨heq, hc0, hc, hq0, hq, hy0, hy, hd0, hd, -, -⟩ := h
  have h4 : (100 * c + 4 * q + y) / 4 = 25 * c + q := by
    clear *- hy0 hy
    omega
  have h100 : (100 * c + 4 * q + y) / 100 = c := by
    clear *- hq0 hq hy0 hy
    omega
  refine ⟨100 * c + 4 * q + y + era * 400, d, hd0, hd, ?_, ?_⟩
  · simp only [gregorian, hera, hdoe, hyear, h4, h100]
    congr 1
    rw [heq]
    ring
  · rw [leapDays_eq hc0 hc hq0 hq hy0 hy, hz, heq]
    ring

theorem exists_julian (days : Int) :
    ∃ year doy, 0 ≤ doy ∧ doy ≤ 365 ∧ julian days = ofMarchYear year doy ∧
      days + 719470 = 365 * year + year / 4 + doy := by
  obtain ⟨q, y, d, h, hy0, hy, hd0, hd, hleap⟩ :
      ∃ q y d : Int, days + 719470 = 1461 * q + 365 * y + d ∧ 0 ≤ y ∧ y ≤ 3 ∧ 0 ≤ d ∧ d ≤ 365 ∧
        (d = 365 → y = 3) := by
    by_cases hleap : (days + 719470) % 1461 = 1460
    · exact ⟨(days + 719470) / 1461, 3, 365, by omega, by omega, by omega, by omega, by
        omega, by omega⟩
    · exact ⟨(days + 719470) / 1461, (days + 719470) % 1461 / 365, (days + 719470) % 1461 % 365,
        by omega, by omega, by omega, by omega, by omega, by omega⟩
  have hq : (days + 719470) / 1461 = q := by omega
  have hr : (days + 719470) % 1461 = 365 * y + d := by omega
  have hyear : (365 * y + d - (365 * y + d) / 1460) / 365 = y := by omega
  refine ⟨y + q * 4, d, hd0, hd, ?_, ?_⟩
  · simp only [julian, hq, hr, hyear]
    congr 1
    omega
  · omega

theorem ofMarchYear_spec (year : Int) {doy : Int} (h0 : 0 ≤ doy) (h : doy ≤ 365) :
    ∃ mp day, 0 ≤ mp ∧ mp ≤ 11 ∧ 1 ≤ day ∧ day ≤ 31 ∧ doy = (153 * mp + 2) / 5 + day - 1 ∧
      ofMarchYear year doy =
        if mp < 10 then ⟨year, mp + 3, day⟩ else ⟨year + 1, mp - 9, day⟩ := by
  refine ⟨(5 * doy + 2) / 153, doy - (153 * ((5 * doy + 2) / 153) + 2) / 5 + 1,
    by omega, by omega, by omega, by omega, by omega, ?_⟩
  by_cases hmp : (5 * doy + 2) / 153 < 10
  · simp only [ofMarchYear, hmp, if_true]
    rw [if_neg (by omega)]
  · simp only [ofMarchYear, hmp, if_false]
    rw [if_pos (by omega)]

/-- What the two calendars have in common, and what tells their days apart. -/
theorem ofDays_spec (days : Int) :
    ∃ year mp day leap, 0 ≤ mp ∧ mp ≤ 11 ∧ 1 ≤ day ∧ day ≤ 31 ∧
      days = 365 * year + leap + ((153 * mp + 2) / 5 + day - 1) ∧
      (if -141427 ≤ days then leap = leapDays year - 719468 else leap = year / 4 - 719470) ∧
      ofDays days = if mp < 10 then ⟨year, mp + 3, day⟩ else ⟨year + 1, mp - 9, day⟩ := by
  by_cases hdays : -141427 ≤ days
  · obtain ⟨year, doy, h0, h, heq, hday⟩ := exists_gregorian days
    obtain ⟨mp, day, hmp0, hmp, hday0, hday31, hdoy, hdate⟩ := ofMarchYear_spec year h0 h
    refine ⟨year, mp, day, leapDays year - 719468, hmp0, hmp, hday0, hday31, by omega, ?_, ?_⟩
    · rw [if_pos hdays]
    · rw [ofDays, if_pos hdays, heq, hdate]
  · obtain ⟨year, doy, h0, h, heq, hday⟩ := exists_julian days
    obtain ⟨mp, day, hmp0, hmp, hday0, hday31, hdoy, hdate⟩ := ofMarchYear_spec year h0 h
    refine ⟨year, mp, day, year / 4 - 719470, hmp0, hmp, hday0, hday31, by omega, ?_, ?_⟩
    · rw [if_neg hdays]
    · rw [ofDays, if_neg hdays, heq, hdate]

theorem ofDays_month (days : Int) : 1 ≤ (ofDays days).month ∧ (ofDays days).month ≤ 12 := by
  obtain ⟨year, mp, day, leap, hmp0, hmp, -, -, -, -, hdate⟩ := ofDays_spec days
  rw [hdate]
  split <;> constructor <;> dsimp only <;> omega

theorem ofDays_day (days : Int) : 1 ≤ (ofDays days).day ∧ (ofDays days).day ≤ 31 := by
  obtain ⟨year, mp, day, leap, -, -, hday0, hday, -, -, hdate⟩ := ofDays_spec days
  rw [hdate]
  split <;> exact ⟨hday0, hday⟩

/-- The calendars change on the 15th of October 1582, which is the 15th of the eighth month of a
year that starts in March. -/
theorem gregorian_iff {days year mp day leap : Int} (hmp0 : 0 ≤ mp) (hmp : mp ≤ 11)
    (hday0 : 1 ≤ day)
    (hday : day ≤ 31) (heq : days = 365 * year + leap + ((153 * mp + 2) / 5 + day - 1))
    (hleap : if -141427 ≤ days then leap = leapDays year - 719468 else leap = year / 4 - 719470) :
    -141427 ≤ days ↔ 1582 < year ∨ year = 1582 ∧ (7 < mp ∨ mp = 7 ∧ 15 ≤ day) := by
  have hpast : 0 ≤ year → leapDays year ≤ year / 4 := by
    rw [leapDays]
    omega
  have hbefore : year < 0 → leapDays year ≤ -year := by
    rw [leapDays]
    omega
  have h1582 : year = 1582 → leapDays year = 383 := by
    rintro rfl
    decide
  constructor
  · intro hdays
    rw [if_pos hdays] at hleap
    omega
  · intro hdate
    by_contra hdays
    rw [if_neg hdays] at hleap
    omega

/-- Every day is found again from its date. -/
theorem toDays_ofDays (days : Int) : (ofDays days).toDays = days := by
  obtain ⟨year, mp, day, leap, hmp0, hmp, hday0, hday, heq, hleap, hdate⟩ := ofDays_spec days
  have hcalendar := gregorian_iff hmp0 hmp hday0 hday heq hleap
  by_cases hmonth : mp < 10
  · rw [if_pos hmonth] at hdate
    rw [hdate, toDays]
    dsimp only
    rw [if_neg (by omega : ¬ mp + 3 ≤ 2), if_neg (by omega : ¬ mp + 3 ≤ 2)]
    by_cases hdays : -141427 ≤ days
    · have hyear := hcalendar.mp hdays
      rw [if_pos (by omega)]
      rw [if_pos hdays, leapDays] at hleap
      omega
    · rw [if_neg (by omega)]
      rw [if_neg hdays] at hleap
      omega
  · rw [if_neg hmonth] at hdate
    rw [hdate, toDays]
    dsimp only
    rw [if_pos (by omega : mp - 9 ≤ 2), if_pos (by omega : mp - 9 ≤ 2), add_sub_cancel_right]
    by_cases hdays : -141427 ≤ days
    · have hyear := hcalendar.mp hdays
      rw [if_pos (by omega)]
      rw [if_pos hdays, leapDays] at hleap
      omega
    · rw [if_neg (by omega)]
      rw [if_neg hdays] at hleap
      omega

theorem yearOfEra_pos (d : CivilDate) : 1 ≤ d.yearOfEra := by
  rw [yearOfEra]
  split <;> omega

/-- A date before the present era is most of a year earlier at least than the one it is read as. -/
theorem toDays_era (d : CivilDate) (h : d.year ≤ 0) :
    d.toDays + 300 ≤ toDays { d with year := d.yearOfEra } := by
  have hera : d.yearOfEra = 1 - d.year := by
    rw [yearOfEra, if_neg (by omega)]
  obtain ⟨year, month, day⟩ := d
  simp only [toDays, hera] at h ⊢
  by_cases hmonth : month ≤ 2
  · simp only [hmonth, if_true]
    split <;> split <;> omega
  · simp only [hmonth, if_false]
    split <;> split <;> omega

end CivilDate

/-! ## The parts of a text -/

theorem BigInteger.isDigit_of_mem_digits {n : Int} (h : 0 ≤ n) :
    ∀ c ∈ digits n, c.isDigit = true := by
  obtain ⟨n, rfl⟩ := Int.eq_ofNat_of_zero_le h
  exact fun c hc => Nat.isDigit_of_mem_toDigits (by decide) le_rfl hc

namespace Date

theorem isDigit_of_mem_pad2 {n : Int} (h : 0 ≤ n) : ∀ c ∈ (pad2 n).toList, c.isDigit = true := by
  intro c hc
  rw [pad2] at hc
  split at hc
  · rw [String.toList_append, List.mem_append, BigInteger.text] at hc
    rcases hc with hzero | hdigit
    · rw [List.mem_singleton.mp hzero]
      rfl
    · rw [String.toList_ofList] at hdigit
      exact BigInteger.isDigit_of_mem_digits h c hdigit
  · rw [BigInteger.text, String.toList_ofList] at hc
    exact BigInteger.isDigit_of_mem_digits h c hc

/-- A leading zero does not change the number. -/
theorem readNumber_pad2 {n : Int} (h : 0 ≤ n) : BigInteger.readNumber (pad2 n).toList = some n := by
  rw [pad2]
  split
  · rename_i hsmall
    obtain ⟨n, rfl⟩ := Int.eq_ofNat_of_zero_le h
    have hn : n < 10 := by omega
    interval_cases n <;> decide
  · rw [BigInteger.text, String.toList_ofList, BigInteger.readNumber_digits]

theorem findIdx_weekdays : ∀ i : Nat, i < 7 →
    (weekdays.findIdx? fun n => n.toList == (weekdays.getD i "").toList) = some i := by
  decide

theorem findIdx_months : ∀ i : Nat, i < 12 →
    (months.findIdx? fun n => n.toList == (months.getD i "").toList) = some i := by
  decide

theorem not_mem_weekdays : ∀ i : Nat, i < 7 → ' ' ∉ (weekdays.getD i "").toList := by decide

theorem not_mem_months : ∀ i : Nat, i < 12 → ' ' ∉ (months.getD i "").toList := by decide

/-- The local time of an instant, in seconds. -/
def localSeconds (zone : TimeZone) (t : Int) : Int := (t + zone.offset t) / 1000

/-- The local time that is read in the text of a date. -/
def wall (zone : TimeZone) (t : Int) : Int :=
  let seconds := localSeconds zone t
  let d := CivilDate.ofDays (seconds / 86400)
  (CivilDate.toDays { d with year := d.yearOfEra } * 86400 + seconds % 86400) * 1000

theorem not_mem_of_digits {c : Char} (hc : c.isDigit = false) {s : List Char}
    (h : ∀ a ∈ s, a.isDigit = true) : c ∉ s := by
  intro hmem
  rw [h c hmem] at hc
  cases hc

/-- The local time of day, as it stands in the text of a date. -/
def timeText (time : Int) : List Char :=
  [':'].intercalate [(pad2 (time / 3600)).toList, (pad2 (time / 60 % 60)).toList,
    (pad2 (time % 60)).toList]

theorem not_mem_timeText {time : Int} (h : 0 ≤ time) : ' ' ∉ timeText time := by
  have hpad : ∀ n, 0 ≤ n → ' ' ∉ (pad2 n).toList := fun n hn =>
    not_mem_of_digits rfl (isDigit_of_mem_pad2 hn)
  simp only [timeText, List.intercalate_cons_cons, List.intercalate_singleton, List.mem_append,
    List.mem_singleton, hpad (time / 3600) (by omega), hpad (time / 60 % 60) (by omega),
    hpad (time % 60) (by omega), false_or, or_false]
  decide

theorem splitOn_timeText {time : Int} (h : 0 ≤ time) :
    (timeText time).splitOn ':' =
      [(pad2 (time / 3600)).toList, (pad2 (time / 60 % 60)).toList, (pad2 (time % 60)).toList] := by
  have hpad : ∀ n, 0 ≤ n → ':' ∉ (pad2 n).toList := fun n hn =>
    not_mem_of_digits rfl (isDigit_of_mem_pad2 hn)
  apply List.splitOn_intercalate
  · simp only [List.forall_mem_cons]
    exact ⟨hpad _ (by omega), hpad _ (by omega), hpad _ (by omega),
      fun l hl => absurd hl List.not_mem_nil⟩
  · exact List.cons_ne_nil _ _

/-- The six parts of the text of a date. -/
theorem splitOn_toString (zone : TimeZone) (t : Int) {day : Int}
    (hday : localSeconds zone t / 86400 = day) : (toString zone t).toList.splitOn ' ' =
      [(weekdays.getD ((day + 4) % 7).toNat "").toList,
        (months.getD ((CivilDate.ofDays day).month - 1).toNat "").toList,
        (pad2 (CivilDate.ofDays day).day).toList, timeText (localSeconds zone t % 86400),
        (zone.name t).toList, BigInteger.digits (CivilDate.ofDays day).yearOfEra] := by
  subst hday
  have hjoin : (toString zone t).toList = [' '].intercalate
      [(weekdays.getD ((localSeconds zone t / 86400 + 4) % 7).toNat "").toList,
        (months.getD ((CivilDate.ofDays (localSeconds zone t / 86400)).month - 1).toNat "").toList,
        (pad2 (CivilDate.ofDays (localSeconds zone t / 86400)).day).toList,
        timeText (localSeconds zone t % 86400), (zone.name t).toList,
        BigInteger.digits (CivilDate.ofDays (localSeconds zone t / 86400)).yearOfEra] := by
    simp only [toString, timeText, String.toList_join, List.flatMap_cons, List.flatMap_nil,
      List.intercalate_cons_cons, List.intercalate_singleton, List.append_assoc, List.append_nil,
      BigInteger.text, String.toList_ofList]
    rfl
  have hmonth := CivilDate.ofDays_month (localSeconds zone t / 86400)
  have hday := CivilDate.ofDays_day (localSeconds zone t / 86400)
  have hera := CivilDate.yearOfEra_pos (CivilDate.ofDays (localSeconds zone t / 86400))
  rw [hjoin, List.splitOn_intercalate]
  · simp only [List.forall_mem_cons]
    refine ⟨not_mem_weekdays _ (by omega), not_mem_months _ (by omega), ?_,
      not_mem_timeText (by omega), zone.name_word t, ?_, fun l hl => absurd hl List.not_mem_nil⟩
    · exact not_mem_of_digits rfl (isDigit_of_mem_pad2 (by omega))
    · exact not_mem_of_digits rfl (BigInteger.isDigit_of_mem_digits (by omega))
  · exact List.cons_ne_nil _ _

/-- What the parser makes of the text of a date. -/
theorem parse_toString (zone : TimeZone) (t : Int) :
    SimpleDateFormat.parse zone (toString zone t) =
      (SimpleDateFormat.nameOffset zone (zone.name t) (wall zone t)).map (wall zone t - ·) := by
  have hmonth := CivilDate.ofDays_month (localSeconds zone t / 86400)
  have hday := CivilDate.ofDays_day (localSeconds zone t / 86400)
  have hera := CivilDate.yearOfEra_pos (CivilDate.ofDays (localSeconds zone t / 86400))
  have htime : 0 ≤ localSeconds zone t % 86400 := by omega
  have hyear : (BigInteger.digits
      (CivilDate.ofDays (localSeconds zone t / 86400)).yearOfEra).takeWhile Char.isDigit =
      BigInteger.digits (CivilDate.ofDays (localSeconds zone t / 86400)).yearOfEra :=
    List.takeWhile_eq_self_iff.mpr (BigInteger.isDigit_of_mem_digits (by omega))
  rw [SimpleDateFormat.parse, splitOn_toString zone t rfl]
  simp only [splitOn_timeText htime]
  rw [findIdx_weekdays _ (by omega), findIdx_months _ (by omega), readNumber_pad2 (by omega),
    readNumber_pad2 (by omega), readNumber_pad2 (by omega), readNumber_pad2 (by omega), hyear,
    BigInteger.readNumber_digits, String.ofList_toList]
  simp only [Option.bind_eq_bind, Option.bind_some, Option.pure_def, Option.map_eq_bind,
    Function.comp_def]
  -- the hours, minutes and seconds add up to the time of day
  have hmonths : (((CivilDate.ofDays (localSeconds zone t / 86400)).month - 1).toNat : Int) + 1 =
      (CivilDate.ofDays (localSeconds zone t / 86400)).month := by
    omega
  have hsum : ∀ days time : Int, 0 ≤ time →
      days * 86400 + time / 3600 * 3600 + time / 60 % 60 * 60 + time % 60 = days *
      86400 + time := by
    intro days time h
    omega
  rw [hmonths, if_neg (by omega), hsum _ _ htime]
  rfl

/-- The dates that survive being written: whole seconds in the present era, in a zone whose name
stands for the offset in force. -/
structure Readable (zone : TimeZone) (t : Int) : Prop where
  seconds : t % 1000 = 0
  era : 1 ≤ (CivilDate.ofDays ((t + zone.offset t) / 86400000)).year
  offset : SimpleDateFormat.nameOffset zone (zone.name t) (t + zone.offset t) = some (zone.offset t)

/-- The offset that a name stands for is of whole seconds, and of less than two days. -/
theorem nameOffset_bounds {zone : TimeZone} {name : String} {wall o : Int}
    (h : SimpleDateFormat.nameOffset zone name wall = some o) :
    o % 1000 = 0 ∧ -172800000 < o ∧ o < 172800000 := by
  have hvalid := zone.offsetsByWall_valid wall
  have hdst := zone.dstSavings_valid
  rw [SimpleDateFormat.nameOffset] at h
  generalize zone.offsetsByWall wall = offsets at h hvalid
  obtain ⟨standard, saving⟩ := offsets
  simp only [Offset] at hvalid hdst
  dsimp only at h
  split at h
  · split at h <;> cases h <;> omega
  · split at h
    · split at h <;> cases h <;> omega
    · cases h

/-- In the present era the local time that is read is the one that was written, in whole seconds. -/
theorem wall_of_era {zone : TimeZone} {t : Int}
    (h : 1 ≤ (CivilDate.ofDays ((t + zone.offset t) / 86400000)).year) :
    wall zone t = localSeconds zone t * 1000 := by
  have hday : localSeconds zone t / 86400 = (t + zone.offset t) / 86400000 := by
    rw [localSeconds, Int.ediv_ediv_of_nonneg (by decide)]
    rfl
  have hera : ({ CivilDate.ofDays (localSeconds zone t / 86400) with
      year := (CivilDate.ofDays (localSeconds zone t / 86400)).yearOfEra } : CivilDate) =
      CivilDate.ofDays (localSeconds zone t / 86400) := by
    rw [CivilDate.yearOfEra, hday, if_pos h]
  rw [wall, hera, CivilDate.toDays_ofDays]
  omega

/-- Before the present era it is far later. -/
theorem wall_before_era {zone : TimeZone} {t : Int}
    (h : (CivilDate.ofDays ((t + zone.offset t) / 86400000)).year ≤ 0) :
    localSeconds zone t * 1000 + 300 * 86400000 ≤ wall zone t := by
  have hday : localSeconds zone t / 86400 = (t + zone.offset t) / 86400000 := by
    rw [localSeconds, Int.ediv_ediv_of_nonneg (by decide)]
    rfl
  have hera := CivilDate.toDays_era (CivilDate.ofDays (localSeconds zone t / 86400)) (by rwa [hday])
  rw [CivilDate.toDays_ofDays] at hera
  simp only [wall]
  omega

theorem parse_toString_iff (zone : TimeZone) (t : Int) :
    SimpleDateFormat.parse zone (toString zone t) = some t ↔ Readable zone t := by
  have hoffset := zone.offset_valid t
  simp only [Offset] at hoffset
  rw [parse_toString, Option.map_eq_some_iff]
  by_cases hera : 1 ≤ (CivilDate.ofDays ((t + zone.offset t) / 86400000)).year
  · rw [wall_of_era hera, localSeconds]
    constructor
    · rintro ⟨o, ho, heq⟩
      have hbounds := nameOffset_bounds ho
      have hseconds : t % 1000 = 0 := by omega
      have hwall : (t + zone.offset t) / 1000 * 1000 = t + zone.offset t := by omega
      rw [hwall] at ho heq
      refine ⟨hseconds, hera, ?_⟩
      rw [ho]
      congr 1
      omega
    · rintro ⟨hseconds, -, ho⟩
      have hwall : (t + zone.offset t) / 1000 * 1000 = t + zone.offset t := by omega
      rw [hwall]
      exact ⟨zone.offset t, ho, by omega⟩
  · constructor
    · rintro ⟨o, ho, heq⟩
      have hbounds := nameOffset_bounds ho
      have hlate := @wall_before_era zone t (by omega)
      rw [localSeconds] at hlate
      omega
    · rintro ⟨-, hpresent, -⟩
      exact absurd hpresent hera

end Date

end Sxp
