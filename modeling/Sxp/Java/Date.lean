-- SUMMARY: Instants, time zones and the two date formats of the entities: the text of a date, its parser, and the day that the wire format keeps.
import Sxp.Java.Lang
import Mathlib.Data.List.Basic

/-!
# Dates

A `Date` is its number of milliseconds since 1970. Its text shows the local time of the
default time zone in whole seconds, in the calendar that is Julian before the 15th of
October 1582 and Gregorian from then on, with the year of its era.
-/

namespace Sxp

/-! ## Calendars -/

/-- A year, counted through year 0, a month and a day of the month. -/
structure CivilDate where
  year : Int
  month : Int
  day : Int
deriving Repr, DecidableEq

namespace CivilDate

/-- The day of a year that starts in March, as the date it has in a year that starts in January. -/
def ofMarchYear (year dayOfYear : Int) : CivilDate :=
  let mp := (5 * dayOfYear + 2) / 153
  let month := if mp < 10 then mp + 3 else mp - 9
  { year := if month ≤ 2 then year + 1 else year
    month
    day := dayOfYear - (153 * mp + 2) / 5 + 1 }

def gregorian (days : Int) : CivilDate :=
  let z := days + 719468
  let doe := z % 146097
  let yoe := (doe - doe / 1460 + doe / 36524 - doe / 146096) / 365
  ofMarchYear (yoe + z / 146097 * 400) (doe - (365 * yoe + yoe / 4 - yoe / 100))

def julian (days : Int) : CivilDate :=
  let z := days + 719470
  let doe := z % 1461
  let yoe := (doe - doe / 1460) / 365
  ofMarchYear (yoe + z / 1461 * 4) (doe - 365 * yoe)

/-- The date of a day counted from the first of January 1970. -/
def ofDays (days : Int) : CivilDate := if -141427 ≤ days then gregorian days else julian days

/-- The day of a date, which need not exist in the calendar: the count goes on. -/
def toDays (d : CivilDate) : Int :=
  let year := if d.month ≤ 2 then d.year - 1 else d.year
  let mp := if d.month ≤ 2 then d.month + 9 else d.month - 3
  let doy := (153 * mp + 2) / 5 + d.day - 1
  if 1582 * 10000 + 10 * 100 + 15 ≤ d.year * 10000 + d.month * 100 + d.day then
    365 * year + year / 4 - year / 100 + year / 400 + doy - 719468
  else 365 * year + year / 4 + doy - 719470

/-- The year as it is shown, without its era. -/
def yearOfEra (d : CivilDate) : Int := if 1 ≤ d.year then d.year else 1 - d.year

end CivilDate

/-! ## Time zones -/

/-- An offset from UTC, in milliseconds: whole seconds, and less than a day. -/
def Offset (o : Int) : Prop := o % 1000 = 0 ∧ -86400000 < o ∧ o < 86400000

instance Offset.decidable (o : Int) : Decidable (Offset o) := inferInstanceAs (Decidable (_ ∧ _))

/-- The default time zone of a machine, in milliseconds: its names, the offset that is in force
at an instant, and the standard offset and the saving that are in force at a local time. -/
structure TimeZone where
  dstSavings : Int
  standardName : String
  daylightName : String
  offset : Int → Int
  inDaylight : Int → Bool
  offsetsByWall : Int → Int × Int
  standardName_plain : Plain standardName
  daylightName_plain : Plain daylightName
  standardName_word : ' ' ∉ standardName.toList
  daylightName_word : ' ' ∉ daylightName.toList
  offset_valid : ∀ t, Offset (offset t)
  offsetsByWall_valid : ∀ w, Offset (offsetsByWall w).1 ∧ Offset (offsetsByWall w).2
  dstSavings_valid : Offset dstSavings

namespace TimeZone

/-- The name that `Date.toString` shows for an instant. -/
def name (zone : TimeZone) (t : Int) : String :=
  if zone.inDaylight t then zone.daylightName else zone.standardName

theorem name_plain (zone : TimeZone) (t : Int) : Plain (zone.name t) := by
  rw [name]
  split
  · exact zone.daylightName_plain
  · exact zone.standardName_plain

theorem name_word (zone : TimeZone) (t : Int) : ' ' ∉ (zone.name t).toList := by
  rw [name]
  split
  · exact zone.daylightName_word
  · exact zone.standardName_word

def utc : TimeZone where
  dstSavings := 0
  standardName := "UTC"
  daylightName := "UTC"
  offset _ := 0
  inDaylight _ := false
  offsetsByWall _ := (0, 0)
  standardName_plain := by decide
  daylightName_plain := by decide
  standardName_word := by decide
  daylightName_word := by decide
  offset_valid _ := by decide
  offsetsByWall_valid _ := by decide
  dstSavings_valid := by decide

end TimeZone

/-! ## The text of a date -/

namespace Date

def weekdays : List String := ["Sun", "Mon", "Tue", "Wed", "Thu", "Fri", "Sat"]

def months : List String :=
  ["Jan", "Feb", "Mar", "Apr", "May", "Jun", "Jul", "Aug", "Sep", "Oct", "Nov", "Dec"]

def pad2 (n : Int) : String := if n < 10 then "0" ++ BigInteger.text n else BigInteger.text n

/-- `date.toString()`: `EEE MMM dd HH:mm:ss zzz yyyy`. -/
def toString (zone : TimeZone) (t : Int) : String :=
  let seconds := (t + zone.offset t) / 1000
  let day := seconds / 86400
  let time := seconds % 86400
  let d := CivilDate.ofDays day
  String.join [weekdays.getD ((day + 4) % 7).toNat "", " ", months.getD (d.month - 1).toNat "", " ",
    pad2 d.day, " ", pad2 (time / 3600), ":", pad2 (time / 60 % 60), ":", pad2 (time % 60), " ",
    zone.name t, " ", BigInteger.text d.yearOfEra]

theorem pad2_plain (n : Int) : Plain (pad2 n) := by
  rw [pad2]
  split
  · exact Plain.append (by decide) (Plain.text n)
  · exact Plain.text n

theorem toString_plain (zone : TimeZone) (t : Int) : Plain (toString zone t) := by
  have hday := @Plain.getD weekdays (by decide)
  have hmonth := @Plain.getD months (by decide)
  have hspace : Plain " " := by decide
  have hcolon : Plain ":" := by decide
  refine Plain.join ?_
  simp only [List.forall_mem_cons, hday, hmonth, hspace, hcolon, pad2_plain,
    zone.name_plain, Plain.text, true_and]
  exact fun t ht => absurd ht List.not_mem_nil

end Date

/-! ## Parsing -/

namespace SimpleDateFormat

/-- The offset that a zone name stands for at a local time: the name decides about the saving,
unless the zone has one name for both or saves nothing now. -/
def nameOffset (zone : TimeZone) (name : String) (wall : Int) : Option Int :=
  let (standard, saving) := zone.offsetsByWall wall
  if name = zone.standardName then
    if zone.standardName = zone.daylightName then some (standard + saving) else some standard
  else if name = zone.daylightName then
    if zone.dstSavings = 0 then some (standard + saving) else some (standard + zone.dstSavings)
  else none

/-- `parse` with the pattern `EEE MMM dd kk:mm:ss z yyyy`, of a text whose parts are one blank
apart; none stands for a `ParseException`. -/
def parse (zone : TimeZone) (s : String) : Option Int :=
  match s.toList.splitOn ' ' with
  | weekday :: month :: day :: time :: name :: year :: _ =>
      match time.splitOn ':' with
      | [h, m, s] => do
          let _ ← Date.weekdays.findIdx? fun n => n.toList == weekday
          let month ← Date.months.findIdx? fun n => n.toList == month
          let day ← BigInteger.readNumber day
          let h ← BigInteger.readNumber h
          let m ← BigInteger.readNumber m
          let s ← BigInteger.readNumber s
          -- what stands behind the year is not read
          let year ← BigInteger.readNumber (year.takeWhile Char.isDigit)
          -- hours count from 1 to 24, and 24 is the hour 0
          let hour := if h = 24 then 0 else h
          let days := CivilDate.toDays { year, month := month + 1, day }
          let wall := (days * 86400 + hour * 3600 + m * 60 + s) * 1000
          let offset ← nameOffset zone (String.ofList name) wall
          return wall - offset
      | _ => none
  | _ => none

end SimpleDateFormat

/-! ## The day on the wire -/

namespace JsonFormat

/-- The instant that is read where `t` was written with the pattern `dd-MM-yyyy`, both in the
zone of the mapper: the start of the day, in the present era. -/
def day (t : Int) : Int :=
  let d := CivilDate.ofDays (t / 86400000)
  CivilDate.toDays { d with year := d.yearOfEra } * 86400000

end JsonFormat

end Sxp
