import Babelfix.Message.Integer
import Babelfix.Message.Time

/-! # The grammar of timestamps

What `FromFix<UtcTimestamp>` accepts, byte by byte: a date and a time of day with digits in
their places, and perhaps a fraction of a second. The fraction is checked up to its ninth
byte only. -/
namespace Babelfix

/-! ## Reading with panics

The same reading once more, with every index, slice and product of `u32`s that would panic. -/

namespace Checked

/-- `raw[i]`. -/
def index (raw : Bytes) (i : Nat) : Checked UInt8 :=
  match raw[i]? with
  | some c => pure c
  | none => crash

/-- `raw[a..b]`. -/
def slice (raw : Bytes) (a b : Nat) : Checked Bytes :=
  if a ≤ b ∧ b ≤ raw.length then pure ((raw.drop a).take (b - a)) else crash

/-- The result of an operation on `u32`s. -/
def u32 (n : Nat) : Checked Nat := if n < 2 ^ 32 then pure n else crash

def subU32 (a b : Nat) : Checked Nat := if b ≤ a then pure (a - b) else crash

variable {raw : Bytes} {a b i : Nat}

theorem index_eq {c} (h : raw[i]? = some c) : index raw i = pure c := by
  rw [index, h]

theorem slice_eq (hab : a ≤ b) (hb : b ≤ raw.length) : slice raw a b = pure ((raw.drop a).take (b - a)) :=
  if_pos ⟨hab, hb⟩

/-- What cannot panic. -/
def result {α : Type} (r : Except ValueError α) : Checked α := ExceptT.mk (some r)

theorem result_bind {α β : Type} (r : Except ValueError α) (f : α → Except ValueError β) :
    result (r >>= f) = result r >>= fun x => result (f x) := by
  cases r <;> rfl

end Checked

open Checked

variable (cal : Chrono)

def parseDateChecked (raw : Bytes) : Checked cal.NaiveDate := do
  if raw.length ≠ 8 then throw .malformed
  let year ← result (exactDigits (← slice raw 0 4) 4)
  let month ← result (exactDigits (← slice raw 4 6) 2)
  let day ← result (exactDigits (← slice raw 6 8) 2)
  result (okOr .outOfRange (cal.fromYmdOpt year month day))

def parseFractionChecked : Bytes → Checked Nat
  | [] => pure 0
  | c :: frac =>
    if c = 46 ∧ 1 ≤ frac.length ∧ frac.length ≤ 12 then do
      let kept ← slice frac 0 (min frac.length 9)
      let v ← result (parseUint kept)
      let scale ← u32 (10 ^ (← subU32 9 kept.length))
      u32 (v % 2 ^ 32 * scale)
    else throw .malformed

def parseTimeChecked (raw : Bytes) : Checked cal.NaiveTime := do
  if raw.length < 8 then throw .malformed
  if (← index raw 2) ≠ 58 then throw .malformed
  if (← index raw 5) ≠ 58 then throw .malformed
  let h ← result (exactDigits (← slice raw 0 2) 2)
  let m ← result (exactDigits (← slice raw 3 5) 2)
  let s ← result (exactDigits (← slice raw 6 8) 2)
  let nanos ← parseFractionChecked (← slice raw 8 raw.length)
  let (s, nanos) := foldSixty s nanos
  result (okOr .outOfRange (cal.fromHmsNanoOpt h m s nanos))

def DateTime.fromFixChecked (raw : Bytes) : Checked cal.DateTime := do
  if raw.length < 17 then throw .malformed
  if (← index raw 8) ≠ 45 then throw .malformed
  let date ← parseDateChecked cal (← slice raw 0 8)
  let time ← parseTimeChecked cal (← slice raw 9 raw.length)
  return cal.andUtc date time

variable {raw : Bytes}

theorem parseDateChecked_eq (raw : Bytes) : parseDateChecked cal raw = result (parseDate cal raw) := by
  unfold parseDateChecked parseDate
  by_cases hlen : raw.length ≠ 8
  · rw [if_pos hlen, if_pos hlen]
    rfl
  · rw [if_neg hlen, if_neg hlen, slice_eq (by omega) (by omega), slice_eq (by omega) (by omega),
      slice_eq (by omega) (by omega)]
    simp only [pure_bind, result_bind]
    rfl

theorem scaled_lt {kept v} (hlen : kept.length ≤ 9) (h : parseUint kept = .ok v) :
    v * 10 ^ (9 - kept.length) < 10 ^ 9 := by
  obtain ⟨-, hdigits, rfl⟩ := parseUint_ok h
  have hlt : numeral kept < 10 ^ kept.length := by
    simpa [numeral] using numeralFrom_lt (v := 0) hdigits
  calc numeral kept * 10 ^ (9 - kept.length)
      < 10 ^ kept.length * 10 ^ (9 - kept.length) :=
        Nat.mul_lt_mul_of_pos_right hlt (Nat.pow_pos (by omega))
    _ = 10 ^ 9 := by rw [← Nat.pow_add, Nat.add_sub_cancel' hlen]

theorem parseFractionChecked_eq (tail : Bytes) :
    parseFractionChecked tail = result (parseFraction tail) := by
  cases tail with
  | nil => rfl
  | cons c frac =>
    rw [parseFractionChecked, parseFraction]
    by_cases hshape : c = 46 ∧ 1 ≤ frac.length ∧ frac.length ≤ 12
    swap
    · rw [if_neg hshape, if_neg hshape]
      rfl
    rw [if_pos hshape, if_pos hshape, slice_eq (Nat.zero_le _) (Nat.min_le_left _ _), pure_bind]
    generalize hkept : (frac.drop 0).take (min frac.length 9 - 0) = kept
    have hlen : kept.length ≤ 9 := by
      rw [← hkept, List.length_take]
      omega
    change _ = result (parseUint ((frac.drop 0).take (min frac.length 9 - 0)) >>= fun v =>
      .ok (v % 2 ^ 32 * 10 ^ (9 - ((frac.drop 0).take (min frac.length 9 - 0)).length)))
    rw [hkept, result_bind]
    cases hv : parseUint kept with
    | error e => rfl
    | ok v =>
      have hlt := scaled_lt hlen hv
      have hscale : 10 ^ (9 - kept.length) ≤ 10 ^ 9 := Nat.pow_le_pow_right (by omega) (by omega)
      have hle := Nat.mul_le_mul_right (10 ^ (9 - kept.length)) (Nat.mod_le v (2 ^ 32))
      change (subU32 9 kept.length >>= fun k => u32 (10 ^ k) >>= fun scale => u32 (v % 2 ^ 32 * scale)) = _
      rw [subU32, if_pos hlen, pure_bind, u32, if_pos (by omega), pure_bind, u32, if_pos (by omega)]
      rfl

theorem parseTimeChecked_eq (raw : Bytes) : parseTimeChecked cal raw = result (parseTime cal raw) := by
  unfold parseTimeChecked parseTime
  by_cases hlen : raw.length < 8
  · rw [if_pos hlen, if_pos (.inl hlen)]
    rfl
  have htwo : raw[2]? = some raw[2] := List.getElem?_eq_getElem _
  have hfive : raw[5]? = some raw[5] := List.getElem?_eq_getElem _
  rw [if_neg hlen, index_eq htwo, index_eq hfive, htwo, hfive]
  simp only [pure_bind]
  by_cases hfirst : raw[2] ≠ 58
  · have hrefused : raw.length < 8 ∨ some raw[2] ≠ some 58 ∨ some raw[5] ≠ some 58 :=
      .inr (.inl (by simpa using hfirst))
    rw [if_pos hfirst, if_pos hrefused]
    rfl
  by_cases hsecond : raw[5] ≠ 58
  · have hrefused : raw.length < 8 ∨ some raw[2] ≠ some 58 ∨ some raw[5] ≠ some 58 :=
      .inr (.inr (by simpa using hsecond))
    rw [if_neg hfirst, if_pos hsecond, if_pos hrefused]
    rfl
  rw [if_neg hfirst, if_neg hsecond, if_neg (by simp_all), slice_eq (by omega) (by omega),
    slice_eq (by omega) (by omega), slice_eq (by omega) (by omega), slice_eq (by omega) le_rfl,
    show (raw.drop 8).take (raw.length - 8) = raw.drop 8 by rw [← List.length_drop, List.take_length]]
  simp only [pure_bind, result_bind, parseFractionChecked_eq]
  rfl

/-- **Nothing panics and nothing overflows.** -/
theorem DateTime.fromFixChecked_eq (raw : Bytes) :
    DateTime.fromFixChecked cal raw = result (DateTime.fromFix cal raw) := by
  unfold DateTime.fromFixChecked DateTime.fromFix
  by_cases hlen : raw.length < 17
  · rw [if_pos hlen, if_pos (.inl hlen)]
    rfl
  have height : raw[8]? = some raw[8] := List.getElem?_eq_getElem _
  rw [if_neg hlen, index_eq height, height, pure_bind]
  by_cases hdash : raw[8] ≠ 45
  · rw [if_pos hdash, if_pos (.inr (by simpa using hdash))]
    rfl
  rw [if_neg hdash, if_neg (by simp_all), slice_eq (by omega) (by omega), slice_eq (by omega) le_rfl,
    show (raw.drop 9).take (raw.length - 9) = raw.drop 9 by rw [← List.length_drop, List.take_length]]
  simp only [pure_bind, result_bind, parseDateChecked_eq, parseTimeChecked_eq]
  rfl

/-! ## The grammar -/

/-- The places of `YYYYMMDD-HH:MM:SS`. -/
structure Stamp where
  year : Bytes
  month : Bytes
  day : Bytes
  hour : Bytes
  minute : Bytes
  second : Bytes
  length_year : year.length = 4
  length_month : month.length = 2
  length_day : day.length = 2
  length_hour : hour.length = 2
  length_minute : minute.length = 2
  length_second : second.length = 2

namespace Stamp

def date (p : Stamp) : Bytes := p.year ++ (p.month ++ p.day)

def time (p : Stamp) (tail : Bytes) : Bytes := p.hour ++ 58 :: (p.minute ++ 58 :: (p.second ++ tail))

/-- The text of a timestamp, with `tail` after the second. -/
def text (p : Stamp) (tail : Bytes) : Bytes := p.date ++ 45 :: p.time tail

/-- A day of the calendar and a time of day, in which the second may be a leap second. -/
structure Valid (p : Stamp) : Prop where
  digits : ∀ part ∈ [p.year, p.month, p.day, p.hour, p.minute, p.second], ∀ c ∈ part, IsDigit c
  date : IsDate (numeral p.year) (numeral p.month) (numeral p.day)
  hour : numeral p.hour ≤ 23
  minute : numeral p.minute ≤ 59
  second : numeral p.second ≤ 60

end Stamp

/-- Nothing, or `.` and 1 to 12 digits. -/
def IsFraction (tail : Bytes) : Prop :=
  tail = [] ∨ ∃ frac, tail = 46 :: frac ∧ 1 ≤ frac.length ∧ frac.length ≤ 12 ∧ ∀ c ∈ frac, IsDigit c

def IsTimestamp (raw : Bytes) : Prop :=
  ∃ (p : Stamp) (tail : Bytes), raw = p.text tail ∧ p.Valid ∧ IsFraction tail

/-- A timestamp but for what comes after the ninth digit of its fraction. -/
def Overlooked (raw : Bytes) : Prop :=
  ∃ (p : Stamp) (frac : Bytes), raw = p.text (46 :: frac) ∧ p.Valid ∧ frac.length ≤ 12 ∧
    (∀ c ∈ frac.take 9, IsDigit c) ∧ ∃ c ∈ frac.drop 9, ¬ IsDigit c

/-! ## What is accepted -/

variable {n v : Nat} {ds : Bytes}

theorem numeral_lt (hds : ∀ c ∈ ds, IsDigit c) : numeral ds < 10 ^ ds.length := by
  simpa [numeral] using numeralFrom_lt (v := 0) hds

theorem exactDigits_ok_iff (hlen : ds.length = n) (hn : 0 < n) (hle : n ≤ 9) :
    exactDigits ds n = .ok v ↔ (∀ c ∈ ds, IsDigit c) ∧ v = numeral ds := by
  subst hlen
  constructor
  · intro h
    rw [exactDigits, if_neg (by simp)] at h
    obtain ⟨w, hw, hv⟩ := bind_eq_ok h
    obtain ⟨-, hdigits, rfl⟩ := parseUint_ok hw
    have hlt := numeral_lt hdigits
    have hpow : 10 ^ ds.length ≤ 10 ^ 9 := Nat.pow_le_pow_right (by omega) hle
    refine ⟨hdigits, ?_⟩
    rw [← Except.ok.inj hv, Nat.mod_eq_of_lt (by omega)]
  · rintro ⟨hdigits, rfl⟩
    have hread := exactDigits_writeDigits hn hle (numeral_lt hdigits)
    rwa [writeDigits_numeral hdigits] at hread

theorem okOr_ok_iff {α : Type} {e : ValueError} {x : Option α} :
    (∃ a, okOr e x = .ok a) ↔ x.isSome := by
  cases x <;> simp [okOr]

variable {cal} (hcal : cal.Lawful)

include hcal

theorem fromHmsNanoOpt_ok_iff {hour minute second nanos} (h : nanos < 1000000000) :
    (∃ t, okOr .outOfRange (cal.fromHmsNanoOpt hour minute (foldSixty second nanos).1
        (foldSixty second nanos).2) = .ok t) ↔ hour ≤ 23 ∧ minute ≤ 59 ∧ second ≤ 60 := by
  have hfold : (foldSixty second nanos).1 < 60 ↔ second ≤ 60 := by
    unfold foldSixty
    split
    · exact ⟨fun _ => by omega, fun _ => by decide⟩
    · exact ⟨fun hlt => by dsimp only at hlt; omega, fun hle => by dsimp only; omega⟩
  have hnano : (foldSixty second nanos).2 < 1000000000 := by
    unfold foldSixty
    split
    · decide
    · exact h
  rw [okOr_ok_iff, hcal.time_exists hnano, hfold]
  omega

omit hcal

/-- Nine bytes of a fraction are looked at. -/
theorem parseFraction_ok_iff {tail} :
    (∃ nanos, parseFraction tail = .ok nanos) ↔ tail = [] ∨ ∃ frac, tail = 46 :: frac ∧
      1 ≤ frac.length ∧ frac.length ≤ 12 ∧ ∀ c ∈ frac.take 9, IsDigit c := by
  cases tail with
  | nil => simp [parseFraction]
  | cons c frac =>
    have hkept : frac.take (min frac.length 9) = frac.take 9 := by
      rw [Nat.min_comm, ← List.take_take, List.take_length]
    constructor
    · rintro ⟨nanos, h⟩
      rw [parseFraction] at h
      split at h
      · rename_i hshape
        obtain ⟨rfl, hlo, hhi⟩ := hshape
        obtain ⟨v, hv, -⟩ := bind_eq_ok h
        rw [hkept] at hv
        exact .inr ⟨frac, rfl, hlo, hhi, (parseUint_ok hv).2.1⟩
      · cases h
    · rintro (h | ⟨frac', h, hlo, hhi, hdigits⟩)
      · cases h
      · cases h
        have hlen : 0 < (frac.take 9).length := by
          rw [List.length_take]
          omega
        have hread : exactDigits (frac.take 9) (frac.take 9).length = .ok (numeral (frac.take 9)) :=
          (exactDigits_ok_iff rfl hlen (List.length_take_le _ _)).mpr ⟨hdigits, rfl⟩
        rw [exactDigits, if_neg (by simp)] at hread
        obtain ⟨v, hv, -⟩ := bind_eq_ok hread
        refine ⟨v % 2 ^ 32 * 10 ^ (9 - (frac.take 9).length), ?_⟩
        rw [parseFraction, if_pos ⟨rfl, hlo, hhi⟩]
        dsimp only
        rw [hkept, hv]
        rfl

theorem parseFraction_lt {tail nanos} (h : parseFraction tail = .ok nanos) :
    nanos < 1000000000 := by
  cases tail with
  | nil =>
    cases h
    decide
  | cons c frac =>
    rw [parseFraction] at h
    split at h
    · obtain ⟨v, hv, hnanos⟩ := bind_eq_ok h
      have hlt := scaled_lt (by rw [List.length_take]; omega) hv
      have hle := Nat.mul_le_mul_right (10 ^ (9 - (frac.take (min frac.length 9)).length))
        (Nat.mod_le v (2 ^ 32))
      rw [← Except.ok.inj hnanos]
      omega
    · cases h

namespace Stamp

variable (p : Stamp) (tail : Bytes)

omit hcal

theorem length_date : p.date.length = 8 := by
  simp [date, p.length_year, p.length_month, p.length_day]

theorem length_time : (p.time tail).length = 8 + tail.length := by
  simp only [time, List.length_append, List.length_cons, p.length_hour, p.length_minute, p.length_second]
  omega

theorem drop_text : (p.text tail).drop 17 = tail := by
  have hsplit : p.text tail = (p.date ++ 45 :: p.time []) ++ tail := by simp [text, time]
  have hlen : (p.date ++ 45 :: p.time []).length = 17 := by simp [p.length_date, p.length_time]
  rw [hsplit, ← hlen, List.drop_left]

theorem fromFix_text :
    DateTime.fromFix cal (p.text tail) = (do
      let date ← parseDate cal p.date
      let time ← parseTime cal (p.time tail)
      .ok (cal.andUtc date time)) := by
  have hdate := p.length_date
  have htime := p.length_time tail
  have hnine : (p.date ++ 45 :: p.time tail).drop 9 = p.time tail := by
    rw [show 9 = p.date.length + 1 by omega, ← List.drop_drop, List.drop_left]
    rfl
  rw [text, DateTime.fromFix, if_neg (by
    rw [← hdate]
    simp
    omega), hnine, show (p.date ++ 45 :: p.time tail).take 8 = p.date by rw [← hdate, List.take_left]]

include hcal

theorem parseDate_ok_iff : (∃ d, parseDate cal p.date = .ok d) ↔ (∀ c ∈ p.year, IsDigit c) ∧
    (∀ c ∈ p.month, IsDigit c) ∧ (∀ c ∈ p.day, IsDigit c) ∧
    IsDate (numeral p.year) (numeral p.month) (numeral p.day) := by
  rw [date, parseDate_parts p.length_year p.length_month p.length_day]
  simp only [exists_bind_eq_ok, exactDigits_ok_iff p.length_year (by omega) (by omega),
    exactDigits_ok_iff p.length_month (by omega) (by omega),
    exactDigits_ok_iff p.length_day (by omega) (by omega), okOr_ok_iff, and_assoc,
    exists_and_left, exists_eq_left]
  refine and_congr_right fun hyear => and_congr_right' (and_congr_right' ?_)
  have hlt := numeral_lt hyear
  rw [p.length_year] at hlt
  exact hcal.date_exists (by omega) (by omega)

theorem parseTime_ok_iff : (∃ t, parseTime cal (p.time tail) = .ok t) ↔ (∀ c ∈ p.hour, IsDigit c) ∧
    (∀ c ∈ p.minute, IsDigit c) ∧ (∀ c ∈ p.second, IsDigit c) ∧
    (numeral p.hour ≤ 23 ∧ numeral p.minute ≤ 59 ∧ numeral p.second ≤ 60) ∧
    ∃ nanos, parseFraction tail = .ok nanos := by
  rw [time, parseTime_parts p.length_hour p.length_minute p.length_second]
  simp only [exists_bind_eq_ok, exactDigits_ok_iff p.length_hour (by omega) (by omega),
    exactDigits_ok_iff p.length_minute (by omega) (by omega),
    exactDigits_ok_iff p.length_second (by omega) (by omega), and_assoc, exists_and_left,
    exists_eq_left]
  refine and_congr_right' (and_congr_right' (and_congr_right' ⟨?_, ?_⟩))
  · rintro ⟨nanos, hnanos, hread⟩
    obtain ⟨hhour, hminute, hsecond⟩ := (fromHmsNanoOpt_ok_iff hcal (parseFraction_lt hnanos)).mp hread
    exact ⟨hhour, hminute, hsecond, nanos, hnanos⟩
  · rintro ⟨hhour, hminute, hsecond, nanos, hnanos⟩
    exact ⟨nanos, hnanos,
      (fromHmsNanoOpt_ok_iff hcal (parseFraction_lt hnanos)).mpr ⟨hhour, hminute, hsecond⟩⟩

theorem fromFix_text_iff :
    (∃ t, DateTime.fromFix cal (p.text tail) = .ok t) ↔
      p.Valid ∧ ∃ nanos, parseFraction tail = .ok nanos := by
  have hboth : (∃ t, DateTime.fromFix cal (p.text tail) = .ok t) ↔
      (∃ d, parseDate cal p.date = .ok d) ∧ ∃ t, parseTime cal (p.time tail) = .ok t := by
    rw [fromFix_text, exists_bind_eq_ok, ← exists_and_right]
    refine exists_congr fun d => and_congr_right' ?_
    rw [exists_bind_eq_ok]
    exact exists_congr fun t => and_iff_left ⟨_, rfl⟩
  rw [hboth, parseDate_ok_iff hcal, parseTime_ok_iff hcal]
  constructor
  · rintro ⟨⟨hyear, hmonth, hday, hdate⟩, hhour, hminute, hsecond, hle, hnanos⟩
    refine ⟨⟨?_, hdate, hle.1, hle.2.1, hle.2.2⟩, hnanos⟩
    simpa using ⟨hyear, hmonth, hday, hhour, hminute, hsecond⟩
  · rintro ⟨hvalid, hnanos⟩
    have hdigits := hvalid.digits
    simp only [List.forall_mem_cons] at hdigits
    obtain ⟨hyear, hmonth, hday, hhour, hminute, hsecond, -⟩ := hdigits
    exact ⟨⟨hyear, hmonth, hday, hvalid.date⟩, hhour, hminute, hsecond,
      ⟨hvalid.hour, hvalid.minute, hvalid.second⟩, hnanos⟩

end Stamp

/-! The text of a timestamp, cut at its places. -/

omit hcal

theorem drop_eq_take_append (raw : Bytes) (i k : Nat) :
    raw.drop i = (raw.drop i).take k ++ raw.drop (i + k) := by
  rw [← List.drop_drop, List.take_append_drop]

theorem drop_eq_cons {i c} (h : raw[i]? = some c) : raw.drop i = c :: raw.drop (i + 1) := by
  obtain ⟨hlt, rfl⟩ := List.getElem?_eq_some_iff.mp h
  exact List.drop_eq_getElem_cons hlt

theorem eq_text_of_fromFix {t} (h : DateTime.fromFix cal raw = .ok t) :
    ∃ (p : Stamp) (tail : Bytes), raw = p.text tail := by
  unfold DateTime.fromFix at h
  split at h
  · cases h
  rename_i hplaces
  rw [not_or, not_not] at hplaces
  obtain ⟨hlen, height⟩ := hplaces
  obtain ⟨date, -, hrest⟩ := bind_eq_ok h
  obtain ⟨time, htime, -⟩ := bind_eq_ok hrest
  unfold parseTime at htime
  split at htime
  · cases htime
  rename_i hcolons
  rw [not_or, not_or, not_not, not_not, List.getElem?_drop, List.getElem?_drop] at hcolons
  obtain ⟨-, heleven, hfourteen⟩ := hcolons
  have hpart (i k : Nat) (hik : i + k ≤ 17) : ((raw.drop i).take k).length = k := by
    rw [List.length_take, List.length_drop]
    omega
  refine ⟨⟨_, _, _, _, _, _, hpart 0 4 (by omega), hpart 4 2 (by omega), hpart 6 2 (by omega),
    hpart 9 2 (by omega), hpart 12 2 (by omega), hpart 15 2 (by omega)⟩, raw.drop 17, ?_⟩
  simp only [Stamp.text, Stamp.date, Stamp.time, List.append_assoc]
  rw [← drop_eq_take_append raw 15 2, ← drop_eq_cons hfourteen, ← drop_eq_take_append raw 12 2,
    ← drop_eq_cons heleven, ← drop_eq_take_append raw 9 2, ← drop_eq_cons height,
    ← drop_eq_take_append raw 6 2, ← drop_eq_take_append raw 4 2, ← drop_eq_take_append raw 0 4]
  rfl

/-- Reading a timestamp never panics or overflows, and what it accepts is exactly what the
grammar has, unless the fraction goes on after its ninth digit with something else. -/
theorem fromFix_grammar_iff (hcal : cal.Lawful) (raw : Bytes) :
    DateTime.fromFixChecked cal raw = result (DateTime.fromFix cal raw) ∧
      (((∃ t, DateTime.fromFix cal raw = .ok t) ↔ IsTimestamp raw) ↔ ¬ Overlooked raw) := by
  refine ⟨DateTime.fromFixChecked_eq cal raw, ?_, ?_⟩
  · rintro hiff ⟨p, frac, rfl, hvalid, hhi, hdigits, c, hc, hnot⟩
    have hlen : 9 < frac.length := by
      by_contra hle
      rw [List.drop_eq_nil_of_le (by omega)] at hc
      cases hc
    have hread : ∃ nanos, parseFraction (46 :: frac) = .ok nanos :=
      parseFraction_ok_iff.mpr (.inr ⟨frac, rfl, by omega, hhi, hdigits⟩)
    obtain ⟨q, tail, htext, -, hfrac⟩ := hiff.mp ((p.fromFix_text_iff hcal _).mpr ⟨hvalid, hread⟩)
    have htail : 46 :: frac = tail := by rw [← p.drop_text (46 :: frac), htext, q.drop_text]
    obtain hnil | ⟨frac', hcons, -, -, hall⟩ := hfrac
    · cases htail.trans hnil
    · cases htail.trans hcons
      exact hnot (hall c (List.mem_of_mem_drop hc))
  · intro hnot
    constructor
    · rintro ⟨t, ht⟩
      obtain ⟨p, tail, rfl⟩ := eq_text_of_fromFix ht
      obtain ⟨hvalid, hread⟩ := (p.fromFix_text_iff hcal tail).mp ⟨t, ht⟩
      refine ⟨p, tail, rfl, hvalid, (parseFraction_ok_iff.mp hread).imp_right ?_⟩
      rintro ⟨frac, rfl, hlo, hhi, hdigits⟩
      refine ⟨frac, rfl, hlo, hhi, fun c hc => ?_⟩
      by_contra hbad
      refine hnot ⟨p, frac, rfl, hvalid, hhi, hdigits, c, ?_, hbad⟩
      rw [← List.take_append_drop 9 frac] at hc
      exact (List.mem_append.mp hc).resolve_left fun hc => hbad (hdigits c hc)
    · rintro ⟨p, tail, rfl, hvalid, hfrac⟩
      refine (p.fromFix_text_iff hcal tail).mpr ⟨hvalid, parseFraction_ok_iff.mpr (hfrac.imp_right ?_)⟩
      rintro ⟨frac, rfl, hlo, hhi, hdigits⟩
      exact ⟨frac, rfl, hlo, hhi, fun c hc => hdigits c (List.mem_of_mem_take hc)⟩

/-- The last of February in a leap year, with a leap second. -/
def Sample.leapDay : Stamp :=
  ⟨ascii "2024", ascii "02", ascii "29", ascii "23", ascii "59", ascii "60", rfl, rfl, rfl, rfl, rfl, rfl⟩

theorem leapDay_accepted :
    IsTimestamp (Sample.leapDay.text (ascii ".5")) ∧ ¬ Overlooked (Sample.leapDay.text (ascii ".5")) := by
  have hstamp : IsTimestamp (Sample.leapDay.text (ascii ".5")) :=
    ⟨_, _, rfl, ⟨by decide +kernel, by decide, by decide, by decide, by decide⟩,
      .inr ⟨ascii "5", rfl, by decide, by decide, by decide +kernel⟩⟩
  refine ⟨hstamp, (fromFix_grammar_iff Sample.chrono_lawful _).2.mp (iff_of_true ?_ hstamp)⟩
  exact ⟨(⟨(2024, 2, 29), by decide⟩, ⟨(23, 59, 59, 999999999), by decide⟩), by rfl⟩

/-- Three letters after the ninth digit. -/
def Sample.lettered : Bytes := ascii "20260101-00:00:00.123456789abc"

theorem lettered_accepted :
    (∃ t, DateTime.fromFix Sample.chrono Sample.lettered = .ok t) ∧ ¬ IsTimestamp Sample.lettered := by
  constructor
  · refine ⟨(⟨(2026, 1, 1), by decide⟩, ⟨(0, 0, 0, 123456789), by decide⟩), by rfl⟩
  · rintro ⟨p, tail, htext, -, hfrac⟩
    have htail : Sample.lettered.drop 17 = tail := by rw [htext, p.drop_text]
    obtain hnil | ⟨frac, hcons, -, -, hall⟩ := hfrac
    · exact absurd (htail.trans hnil) (by decide)
    · have hfrac : Sample.lettered.drop 18 = frac := by
        rw [show 18 = 17 + 1 from rfl, ← List.drop_drop, htail, hcons]
        rfl
      exact absurd (hall 97 (hfrac ▸ by decide)) (by decide)

end Babelfix
