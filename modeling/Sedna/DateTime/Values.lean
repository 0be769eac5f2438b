import Sedna.Library.Calendar

/-!
# Date/time values and their comparison

`XMLDateTime` is one record for all date/time and duration types.  A field that the type does not
have is zero.  A duration keeps its sign in `utc` and all its fields carry that sign; any other
value keeps its timezone in `utc`, `tzHh` and `tzMm`.  The source computes with `int`: where its
sums can leave that type, `IsInt` of the sums is assumed.  Quotients of fractions in double
precision compare as the exact quotients do.
-/

namespace Sedna.DateTime

open Library.ThreeWay

inductive XmlscmType
  | dateTime | date | time | duration | yearMonthDuration | dayTimeDuration
  | gYearMonth | gYear | gMonthDay | gDay | gMonth
  deriving DecidableEq

def XmlscmType.code : XmlscmType → Int
  | dateTime => 10
  | date => 11
  | time => 12
  | duration => 13
  | yearMonthDuration => 14
  | dayTimeDuration => 15
  | gYearMonth => 16
  | gYear => 17
  | gMonthDay => 18
  | gDay => 19
  | gMonth => 20

inductive UtcType
  | unknown | std | pos | neg
  deriving DecidableEq

structure XMLDateTime where
  type : XmlscmType
  centYear : Int
  month : Int
  day : Int
  hour : Int
  minute : Int
  second : Int
  miliSecond : Int
  utc : UtcType
  tzHh : Int
  tzMm : Int
  deriving DecidableEq

def yearDefault : Int := 1972
def monthDefault : Int := 12
def dayDefault : Int := 31

def durMilisecondMaxValue : Int := 1000
def dtMilisecondMaxValue : Int := 100000

def IsInt (n : Int) : Prop := -2 ^ 31 ≤ n ∧ n < 2 ^ 31

instance (n : Int) : Decidable (IsInt n) := inferInstanceAs (Decidable (_ ∧ _))

/-! ## Arithmetic with carries -/

/-- Division as `div` does it: the quotient is rounded towards zero. -/
def fQuotient (a b : Int) : Int := a.tdiv b

def fQuotientRange (temp low high : Int) : Int := fQuotient (temp - low) (high - low)

def mod (a b quotient : Int) : Int := a - quotient * b

def modulo (temp low high : Int) : Int :=
  mod (temp - low) (high - low) (fQuotient (temp - low) (high - low)) + low

def isLeapYear (year : Int) : Bool := year.tmod 4 == 0 && (year.tmod 100 != 0 || year.tmod 400 == 0)

def maxDayInMonthFor (year month : Int) : Int :=
  if month = 4 ∨ month = 6 ∨ month = 9 ∨ month = 11 then 30
  else if month = 2 then (if isLeapYear year then 29 else 28)
  else 31

/-- A field brought below `base` and what it carries into the next field.
Seconds, minutes and hours are all treated so; `negate` is the sign that the
fields of a duration have in common and 1 otherwise. -/
def carryField (negate temp base : Int) : Int × Int :=
  let carry := fQuotient temp base
  let value := negate * mod temp base carry
  if negate * value < 0 then (value + base * negate, carry - 1) else (value, carry)

def carryMonth (temp : Int) : Int × Int :=
  let month := modulo temp 1 13
  let carry := fQuotientRange temp 1 13
  if month ≤ 0 then (month + 12, carry - 1) else (month, carry)

def stepMonth (year month carry : Int) : Int × Int :=
  let temp := month + carry
  let month' := modulo temp 1 13
  let year' := if month' ≤ 0 then year - 1 else year
  (year' + fQuotientRange temp 1 13, if month' ≤ 0 then month' + 12 else month')

theorem maxDayInMonthFor_bounds (year month : Int) :
    28 ≤ maxDayInMonthFor year month ∧ maxDayInMonthFor year month ≤ 31 := by
  unfold maxDayInMonthFor
  split_ifs <;> omega

def normalizeDays (year month day : Int) : Int × Int × Int :=
  if day < 1 then
    let next := stepMonth year month (-1)
    normalizeDays next.1 next.2 (day + maxDayInMonthFor year (month - 1))
  else if maxDayInMonthFor year month < day then
    let next := stepMonth year month 1
    normalizeDays next.1 next.2 (day - maxDayInMonthFor year month)
  else
    (year, month, day)
termination_by if day < 1 then (1 - day).toNat + 31 else day.toNat
decreasing_by
  · have hbnd := maxDayInMonthFor_bounds year (month - 1)
    split_ifs <;> omega
  · have hbnd := maxDayInMonthFor_bounds year month
    split_ifs <;> omega

/-! ## Normalisation -/

namespace XMLDateTime

variable (v : XMLDateTime)

def isDuration : Bool :=
  v.type == .duration || v.type == .dayTimeDuration || v.type == .yearMonthDuration

/-- Hours and minutes that a date keeps after the shift to UTC become its timezone. -/
def keepDateTimezone : XMLDateTime :=
  if v.type = .date ∧ (v.hour ≠ 0 ∨ v.minute ≠ 0) then
    let negate : Int := if v.hour < 0 ∨ v.minute < 0 then -1 else 1
    { v with
      utc := if negate = 1 then .neg else .pos
      tzHh := negate * v.hour
      tzMm := negate * v.minute
      hour := 0
      minute := 0 }
  else v

def normalizeDateTime : XMLDateTime :=
  let negate : Int := if v.utc = .pos then -1 else 1
  let months := carryMonth v.month
  let minutes := carryField 1 (v.minute + negate * v.tzMm) 60
  let hours := carryField 1 (v.hour + negate * v.tzHh + minutes.2) 24
  let v := keepDateTimezone { v with
    month := months.1
    centYear := v.centYear + months.2
    minute := minutes.1
    hour := hours.1 }
  let v :=
    if v.type ≠ .time then
      let date := normalizeDays v.centYear v.month (v.day + hours.2)
      { v with centYear := date.1, month := date.2.1, day := date.2.2 }
    else v
  if v.type ≠ .date then { v with utc := .std, tzHh := 0, tzMm := 0 } else v

/-- The value with seconds, minutes and hours below their bounds and months below 12.
Days have no bound, and the fraction is left as it is. -/
def normalizeDuration : XMLDateTime :=
  let negate : Int := if v.utc = .neg then -1 else 1
  let seconds := carryField negate (negate * v.second) 60
  let minutes := carryField negate (negate * v.minute + seconds.2) 60
  let hours := carryField negate (negate * v.hour + minutes.2) 24
  let months := carryField negate (negate * v.month) 12
  let v := { v with
    second := seconds.1
    minute := minutes.1
    hour := hours.1
    day := v.day + hours.2 * negate
    month := months.1
    centYear := v.centYear + months.2 * negate }
  if v.miliSecond = 0 ∧ v.second = 0 ∧ v.minute = 0 ∧ v.hour = 0 ∧ v.day = 0 ∧ v.month = 0
      ∧ v.centYear = 0 then
    { v with utc := .pos }
  else v

def normalize : XMLDateTime :=
  if v.isDuration then v.normalizeDuration else v.normalizeDateTime

/-! ## Comparison -/

def asDateTime : XMLDateTime :=
  { v with
    type := .dateTime
    centYear := yearDefault
    month := monthDefault
    day := dayDefault
    hour := if v.hour = 24 then 0 else v.hour }

def leading : List Int :=
  [v.type.code, v.centYear, v.month, v.day, v.hour, v.minute, v.second]

def milis (isDuration : Bool) : Rat :=
  v.miliSecond / (if isDuration then durMilisecondMaxValue else dtMilisecondMaxValue : Int)

/-- The fractions, which are looked at only when the left one is not zero. -/
def compareMilis (lTemp rTemp : XMLDateTime) : Int :=
  if lTemp.miliSecond ≠ 0 then
    threeWay [lTemp.milis lTemp.isDuration] [rTemp.milis lTemp.isDuration]
  else 0

/-- Normalised dates still have a timezone; negative timezones are the later ones. -/
def compareTimezones (lTemp rTemp : XMLDateTime) : Int :=
  if lTemp.type = .date ∧ rTemp.type = .date ∧ (lTemp.utc ≠ .std ∨ rTemp.utc ≠ .std) then
    let lNeg : Int := if lTemp.utc = .pos then -1 else 1
    let rNeg : Int := if rTemp.utc = .pos then -1 else 1
    threeWay [lTemp.tzHh * lNeg, lTemp.tzMm * lNeg] [rTemp.tzHh * rNeg, rTemp.tzMm * rNeg]
  else 0

/-- `-1`, `0` and `1` stand for `LESS_THAN`, `EQUAL` and `GREATER_THAN`. -/
def compare (lValue rValue : XMLDateTime) : Int :=
  let isTime := lValue.type = .time
  let lTemp := (if isTime then lValue.asDateTime else lValue).normalize
  let rTemp := (if isTime then rValue.asDateTime else rValue).normalize
  let byFields := threeWay lTemp.leading rTemp.leading
  if byFields ≠ 0 then byFields
  else
    let byMilis := compareMilis lTemp rTemp
    if byMilis ≠ 0 then byMilis else compareTimezones lTemp rTemp

/-! ## Validation -/

def validateDateTime : Except String Unit := do
  if (v.type = .date ∨ v.type = .dateTime ∨ v.type = .gYear ∨ v.type = .gYearMonth)
      ∧ v.centYear = 0 then
    throw "0000 is an illegal value for year"
  if (v.type = .date ∨ v.type = .dateTime ∨ v.type = .gMonth ∨ v.type = .gYearMonth
      ∨ v.type = .gMonthDay) ∧ (v.month < 1 ∨ 12 < v.month) then
    throw "invalid month value, must be between 1 and 12"
  if (v.type = .date ∨ v.type = .dateTime ∨ v.type = .gMonthDay ∨ v.type = .gDay)
      ∧ (maxDayInMonthFor v.centYear v.month < v.day ∨ v.day = 0) then
    throw "invalid day value"
  if v.hour < 0 ∨ 24 < v.hour
      ∨ (v.hour = 24 ∧ (v.minute ≠ 0 ∨ v.second ≠ 0 ∨ v.miliSecond ≠ 0)) then
    throw "invalid hour, values must be between 0 and 23"
  if v.minute < 0 ∨ 59 < v.minute then
    throw "invalid minutes, values must be between 0 and 59"
  if v.second < 0 ∨ 60 ≤ v.second then
    throw "invalid seconds, values must be between 0 and 59"
  if 14 < |v.tzHh| ∨ (|v.tzHh| = 14 ∧ v.tzMm ≠ 0) then
    throw "invalid timezone hours, values must be between -14 and 14"
  if 59 < |v.tzMm| then
    throw "invalid timezone minutes, values must be between 0 and 59"

end XMLDateTime

/-! ## What normalisation computes

The source carries with a division that rounds towards zero and repairs the result afterwards. -/

open Library.Calendar

variable {month : Int}

/-! ## Carries -/

theorem isLeapYear_iff (year : Int) : isLeapYear year = true ↔ IsLeap year := by
  have hmod (k : Int) : year.tmod k = 0 ↔ year % k = 0 := by
    rw [← Int.dvd_iff_tmod_eq_zero, ← Int.dvd_iff_emod_eq_zero]
  simp [isLeapYear, IsLeap, hmod]

theorem maxDayInMonthFor_eq (year month : Int) :
    maxDayInMonthFor year month = daysInMonth year month := by
  simp [maxDayInMonthFor, daysInMonth, isLeapYear_iff]

theorem fQuotient_eq (temp : Int) {base : Int} (hbase : 0 < base) :
    fQuotient temp base = if 0 ≤ temp ∨ base ∣ temp then temp / base else temp / base + 1 := by
  rw [fQuotient, Int.tdiv_eq_ediv, Int.sign_eq_one_of_pos hbase]
  split_ifs <;> omega

theorem carryField_eq {negate base : Int} (temp : Int) (hnegate : negate = 1 ∨ negate = -1)
    (hbase : 0 < base) : carryField negate temp base = (negate * (temp % base), temp / base) := by
  have hsquare : ∀ x : Int, negate * (negate * x) = x := by
    intro x
    rcases hnegate with rfl | rfl <;> omega
  have hdivision := Int.mul_ediv_add_emod temp base
  have hnonneg := Int.emod_nonneg temp hbase.ne'
  have hlt := Int.emod_lt_of_pos temp hbase
  simp only [carryField, mod, hsquare, fQuotient_eq temp hbase]
  by_cases hexact : 0 ≤ temp ∨ base ∣ temp
  · have hval : temp - temp / base * base = temp % base := by
      rw [mul_comm]
      omega
    rw [if_pos hexact, hval, if_neg (by omega)]
  · -- rounding towards zero was one too high
    have hval : temp - (temp / base + 1) * base = temp % base - base := by
      rw [add_mul, mul_comm]
      omega
    rw [if_neg hexact, hval, if_pos (by omega)]
    ext
    · show negate * (temp % base - base) + base * negate = negate * (temp % base)
      ring
    · show temp / base + 1 - 1 = temp / base
      omega

theorem carryMonth_zero : carryMonth 0 = (12, -1) := by decide

theorem carryMonth_of_month {m : Int} (h1 : 1 ≤ m) (h12 : m ≤ 12) : carryMonth m = (m, 0) := by
  interval_cases m <;> decide

/-! ## The loop over the days -/

section

variable (year : Int) (h1 : 1 ≤ month) (h12 : month ≤ 12)
include h1 h12

theorem stepMonth_back :
    stepMonth year month (-1) = if month = 1 then (year - 1, 12) else (year, month - 1) := by
  interval_cases month <;> simp [stepMonth, modulo, mod, fQuotientRange, fQuotient]

theorem stepMonth_forth :
    stepMonth year month 1 = if month = 12 then (year + 1, 1) else (year, month + 1) := by
  interval_cases month <;> simp [stepMonth, modulo, mod, fQuotientRange, fQuotient]

theorem dayNumber_stepMonth_back (day : Int) :
    dayNumber (stepMonth year month (-1)).1 (stepMonth year month (-1)).2
      (day + maxDayInMonthFor year (month - 1)) = dayNumber year month day := by
  rw [stepMonth_back year h1 h12, maxDayInMonthFor_eq]
  split_ifs with hfst
  · -- the month in front of January is looked up as the month 0 of the same year
    subst hfst
    have hlast : daysInMonth year (1 - 1) = daysInMonth (year - 1) 12 := by simp [daysInMonth]
    rw [hlast, ← dayNumber_next_year, sub_add_cancel]
  · rw [← dayNumber_next_month (by omega), sub_add_cancel]

theorem dayNumber_stepMonth_forth (day : Int) :
    dayNumber (stepMonth year month 1).1 (stepMonth year month 1).2
      (day - maxDayInMonthFor year month) = dayNumber year month day := by
  rw [stepMonth_forth year h1 h12, maxDayInMonthFor_eq]
  split_ifs with hlast
  · subst hlast
    rw [dayNumber_next_year, sub_add_cancel]
  · rw [dayNumber_next_month h1, sub_add_cancel]

theorem stepMonth_month {carry : Int} (hcarry : carry = -1 ∨ carry = 1) :
    1 ≤ (stepMonth year month carry).2 ∧ (stepMonth year month carry).2 ≤ 12 := by
  rcases hcarry with rfl | rfl
  · rw [stepMonth_back year h1 h12]
    split_ifs <;> dsimp only <;> omega
  · rw [stepMonth_forth year h1 h12]
    split_ifs <;> dsimp only <;> omega

end

theorem normalizeDays_spec (year month day : Int) (h1 : 1 ≤ month) (h12 : month ≤ 12) :
    IsDate (normalizeDays year month day).1 (normalizeDays year month day).2.1
        (normalizeDays year month day).2.2
      ∧ dayNumber (normalizeDays year month day).1 (normalizeDays year month day).2.1
        (normalizeDays year month day).2.2 = dayNumber year month day := by
  fun_induction normalizeDays year month day with
  | case1 year month day _ next ih =>
    have hmonth := stepMonth_month year h1 h12 (.inl rfl)
    have hrest := ih hmonth.1 hmonth.2
    exact ⟨hrest.1, hrest.2.trans (dayNumber_stepMonth_back year h1 h12 day)⟩
  | case2 year month day _ _ next ih =>
    have hmonth := stepMonth_month year h1 h12 (.inr rfl)
    have hrest := ih hmonth.1 hmonth.2
    exact ⟨hrest.1, hrest.2.trans (dayNumber_stepMonth_forth year h1 h12 day)⟩
  | case3 year month day hday hlast =>
    have hbound := maxDayInMonthFor_eq year month
    refine ⟨⟨h1, h12, ?_, ?_⟩, rfl⟩ <;> dsimp only <;> omega

end Sedna.DateTime
