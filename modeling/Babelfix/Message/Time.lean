import Mathlib.Data.List.Basic
import Babelfix.Message.Numeral

/-! # Timestamps

UTC timestamps as `time.rs` writes them and `message/types.rs` reads them, both by hand,
digit by digit. What the code takes from chrono is a parameter, and what it relies on is
stated as laws. -/
namespace Babelfix

/-! ## Instants -/

def isLeapYear (year : Int) : Bool := year % 4 = 0 ∧ (year % 100 ≠ 0 ∨ year % 400 = 0)

def daysInMonth (year : Int) : Nat → Nat
  | 2 => if isLeapYear year then 29 else 28
  | 4 | 6 | 9 | 11 => 30
  | _ => 31

/-- A day of the proleptic Gregorian calendar. -/
def IsDate (year : Int) (month day : Nat) : Prop :=
  (1 ≤ month ∧ month ≤ 12) ∧ 1 ≤ day ∧ day ≤ daysInMonth year month

instance (year : Int) (month day : Nat) : Decidable (IsDate year month day) :=
  inferInstanceAs (Decidable (_ ∧ _))

/-- The part of chrono that timestamps are written and read with. -/
structure Chrono where
  NaiveDate : Type
  NaiveTime : Type
  /-- `DateTime<Utc>`. -/
  DateTime : Type
  year : NaiveDate → Int
  month : NaiveDate → Nat
  day : NaiveDate → Nat
  hour : NaiveTime → Nat
  minute : NaiveTime → Nat
  second : NaiveTime → Nat
  /-- During a leap second this is a second and more. -/
  nanosecond : NaiveTime → Nat
  dateNaive : DateTime → NaiveDate
  time : DateTime → NaiveTime
  fromYmdOpt : Int → Nat → Nat → Option NaiveDate
  fromHmsNanoOpt : Nat → Nat → Nat → Nat → Option NaiveTime
  /-- `date.and_time(time).and_utc()`. -/
  andUtc : NaiveDate → NaiveTime → DateTime

namespace Chrono

/-- The time of day that has these parts. -/
def Reads (cal : Chrono) (t : cal.NaiveTime) (hour minute second nano : Nat) : Prop :=
  cal.hour t = hour ∧ cal.minute t = minute ∧ cal.second t = second ∧ cal.nanosecond t = nano

/-- What is assumed of it, for the years that are written with four digits. -/
structure Lawful (cal : Chrono) : Prop where
  date_iff : ∀ {year month day date}, 0 ≤ year → year ≤ 9999 →
    (cal.fromYmdOpt year month day = some date ↔
      cal.year date = year ∧ cal.month date = month ∧ cal.day date = day)
  date_exists : ∀ {year month day}, 0 ≤ year → year ≤ 9999 →
    ((cal.fromYmdOpt year month day).isSome ↔ IsDate year month day)
  /-- A leap second may follow any whole second. -/
  time_lt : ∀ t, cal.hour t < 24 ∧ cal.minute t < 60 ∧ cal.second t < 60
  time_iff : ∀ {hour minute second nano t}, nano < 1000000000 →
    (cal.fromHmsNanoOpt hour minute second nano = some t ↔ cal.Reads t hour minute second nano)
  time_exists : ∀ {hour minute second nano}, nano < 1000000000 →
    ((cal.fromHmsNanoOpt hour minute second nano).isSome ↔ hour < 24 ∧ minute < 60 ∧ second < 60)
  dateNaive_andUtc : ∀ date t, cal.dateNaive (cal.andUtc date t) = date
  time_andUtc : ∀ date t, cal.time (cal.andUtc date t) = t

end Chrono

variable (cal : Chrono)

/-! ## Writing -/

inductive TimePrecision where
  | millis
  | micros
  | nanos
  | picos
  deriving DecidableEq, Repr

namespace TimePrecision

/-- Number of fractional-second digits. -/
def digits : TimePrecision → Nat
  | millis => 3
  | micros => 6
  | nanos => 9
  | picos => 12

/-- Everything before the fractional digits takes 18 characters. -/
def width (p : TimePrecision) : Nat := 18 + p.digits

end TimePrecision

def exactDigits (raw : Bytes) (n : Nat) : Except ValueError Nat :=
  if raw.length ≠ n then .error .malformed
  else do
    let v ← parseUint raw
    .ok (v % 2 ^ 32)

/-- `ok_or`. -/
def okOr {α : Type} (e : ValueError) : Option α → Except ValueError α
  | some a => .ok a
  | none => .error e

def parseDate (raw : Bytes) : Except ValueError cal.NaiveDate :=
  if raw.length ≠ 8 then .error .malformed
  else do
    let year ← exactDigits (raw.take 4) 4
    let month ← exactDigits ((raw.drop 4).take 2) 2
    let day ← exactDigits ((raw.drop 6).take 2) 2
    okOr .outOfRange (cal.fromYmdOpt year month day)

/-- The fraction of a second in nanoseconds; digits after the ninth are dropped. -/
def parseFraction : Bytes → Except ValueError Nat
  | [] => .ok 0
  | c :: frac =>
    if c = 46 ∧ 1 ≤ frac.length ∧ frac.length ≤ 12 then do
      let kept := frac.take (min frac.length 9)
      let v ← parseUint kept
      .ok (v % 2 ^ 32 * 10 ^ (9 - kept.length))
    else .error .malformed

/-- A leap second, `:60`, is folded into the last nanosecond of the minute. -/
def foldSixty (s nanos : Nat) : Nat × Nat := if s = 60 then (59, 999999999) else (s, nanos)

/-- `HH:MM:SS` and perhaps a fraction. -/
def parseTime (raw : Bytes) : Except ValueError cal.NaiveTime :=
  if raw.length < 8 ∨ raw[2]? ≠ some 58 ∨ raw[5]? ≠ some 58 then .error .malformed
  else do
    let h ← exactDigits (raw.take 2) 2
    let m ← exactDigits ((raw.drop 3).take 2) 2
    let s ← exactDigits ((raw.drop 6).take 2) 2
    let nanos ← parseFraction (raw.drop 8)
    let (s, nanos) := foldSixty s nanos
    okOr .outOfRange (cal.fromHmsNanoOpt h m s nanos)

/-- `FromFix<UtcTimestamp> for DateTime<Utc>`. -/
def DateTime.fromFix (raw : Bytes) : Except ValueError cal.DateTime :=
  if raw.length < 17 ∨ raw[8]? ≠ some 45 then .error .malformed
  else do
    let date ← parseDate cal (raw.take 8)
    let time ← parseTime cal (raw.drop 9)
    .ok (cal.andUtc date time)

/-! ## What is read back -/

variable {cal}

variable {n v : Nat}

theorem parseUint_writeDigits (hn : 0 < n) (hle : n ≤ 9) (hlt : v < 10 ^ n) :
    parseUint (writeDigits n v) = .ok v := by
  have hne : writeDigits n v ≠ [] := by
    intro h
    have hlen := writeDigits_length n v
    rw [h, List.length_nil] at hlen
    omega
  have hmod : v % 10 ^ n = v := Nat.mod_eq_of_lt hlt
  have hmax : v ≤ u64Max :=
    calc v ≤ 10 ^ n := Nat.le_of_lt hlt
      _ ≤ 10 ^ 9 := Nat.pow_le_pow_right (by omega) hle
      _ ≤ u64Max := by decide
  rw [parseUint, if_neg (by simpa using hne), parseUintFrom_writeDigits _ _ _ (by omega), hmod]
  simp

theorem exactDigits_writeDigits (hn : 0 < n) (hle : n ≤ 9) (hlt : v < 10 ^ n) :
    exactDigits (writeDigits n v) n = .ok v := by
  have hpow : 10 ^ n ≤ 10 ^ 9 := Nat.pow_le_pow_right (by omega) hle
  rw [exactDigits, if_neg (by simp [writeDigits_length]), parseUint_writeDigits hn hle hlt]
  exact congrArg Except.ok (Nat.mod_eq_of_lt (by omega))

theorem parseTime_parts {h m s rest} (hh : h.length = 2) (hm : m.length = 2) (hs : s.length = 2) :
    parseTime cal (h ++ 58 :: (m ++ 58 :: (s ++ rest))) = (do
      let h ← exactDigits h 2
      let m ← exactDigits m 2
      let s ← exactDigits s 2
      let nanos ← parseFraction rest
      let (s, nanos) := foldSixty s nanos
      okOr .outOfRange (cal.fromHmsNanoOpt h m s nanos)) := by
  obtain ⟨a, b, rfl⟩ := List.length_eq_two.mp hh
  obtain ⟨c, d, rfl⟩ := List.length_eq_two.mp hm
  obtain ⟨e, f, rfl⟩ := List.length_eq_two.mp hs
  rfl

theorem parseDate_parts {y m d} (hy : y.length = 4) (hm : m.length = 2) (hd : d.length = 2) :
    parseDate cal (y ++ (m ++ d)) = (do
      let year ← exactDigits y 4
      let month ← exactDigits m 2
      let day ← exactDigits d 2
      okOr .outOfRange (cal.fromYmdOpt year month day)) := by
  have hmonth : (y ++ (m ++ d)).drop 4 = m ++ d := by rw [← hy, List.drop_left]
  have hday : (y ++ (m ++ d)).drop 6 = d := by
    rw [show 6 = 4 + 2 from rfl, ← List.drop_drop, hmonth, ← hm, List.drop_left]
  rw [parseDate, if_neg (by simp [hy, hm, hd]), hmonth, hday,
    show (y ++ (m ++ d)).take 4 = y by rw [← hy, List.take_left],
    show (m ++ d).take 2 = m by rw [← hm, List.take_left],
    show d.take 2 = d by rw [← hd, List.take_length]]

namespace Sample

/-- A calendar and a clock that keep their parts. -/
def chrono : Chrono where
  NaiveDate := { x : Int × Nat × Nat // IsDate x.1 x.2.1 x.2.2 }
  NaiveTime := { x : Nat × Nat × Nat × Nat //
    (x.1 < 24 ∧ x.2.1 < 60 ∧ x.2.2.1 < 60) ∧ x.2.2.2 < 2000000000 }
  DateTime := { x : Int × Nat × Nat // IsDate x.1 x.2.1 x.2.2 } × { x : Nat × Nat × Nat × Nat //
    (x.1 < 24 ∧ x.2.1 < 60 ∧ x.2.2.1 < 60) ∧ x.2.2.2 < 2000000000 }
  year d := d.1.1
  month d := d.1.2.1
  day d := d.1.2.2
  hour t := t.1.1
  minute t := t.1.2.1
  second t := t.1.2.2.1
  nanosecond t := t.1.2.2.2
  dateNaive := Prod.fst
  time := Prod.snd
  fromYmdOpt year month day :=
    if h : IsDate year month day then some ⟨(year, month, day), h⟩ else none
  fromHmsNanoOpt hour minute second nano :=
    if h : (hour < 24 ∧ minute < 60 ∧ second < 60) ∧ nano < 2000000000 ∧
        (nano < 1000000000 ∨ second = 59) then
      some ⟨(hour, minute, second, nano), h.1, h.2.1⟩
    else none
  andUtc := Prod.mk

theorem chrono_lawful : chrono.Lawful where
  date_iff := by
    rintro year month day ⟨⟨y, m, d⟩, hdate⟩ - -
    simp only [chrono, Option.dite_none_right_eq_some, Option.some.injEq, Subtype.mk.injEq,
      Prod.mk.injEq]
    constructor
    · rintro ⟨-, rfl, rfl, rfl⟩
      exact ⟨rfl, rfl, rfl⟩
    · rintro ⟨rfl, rfl, rfl⟩
      exact ⟨hdate, rfl, rfl, rfl⟩
  date_exists := by
    intro year month day _ _
    simp [chrono]
  time_lt t := t.2.1
  time_iff := by
    rintro hour minute second nano ⟨⟨h, m, s, n⟩, hclock, hleap⟩ hnano
    simp only [chrono, Chrono.Reads, Option.dite_none_right_eq_some, Option.some.injEq,
      Subtype.mk.injEq, Prod.mk.injEq]
    constructor
    · rintro ⟨-, rfl, rfl, rfl, rfl⟩
      exact ⟨rfl, rfl, rfl, rfl⟩
    · rintro ⟨rfl, rfl, rfl, rfl⟩
      exact ⟨⟨hclock, hleap, .inl hnano⟩, rfl, rfl, rfl, rfl⟩
  time_exists := by
    intro hour minute second nano hnano
    have hlt : nano < 2000000000 := by omega
    simp [chrono, hnano, hlt]
  dateNaive_andUtc _ _ := rfl
  time_andUtc _ _ := rfl

end Sample

end Babelfix
