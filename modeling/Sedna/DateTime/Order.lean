import Sedna.DateTime.Values

/-!
# What a value stands for

A value with a timezone stands for a point on the timeline, the first instant of the interval that
it names; a missing year, month or day is supplied from the reference date.  A duration stands for
a number of months and a number of seconds.  The definitions follow the meaning of the types and
not the code; `IsPoint.exists_normalized` connects the two for points.  Down to whole seconds the
comparison of two values of one type compares what they stand for.  The fractions are compared
only when the left value has one, and this decides on which sets the comparison is an order.
-/

namespace Sedna.DateTime

open Library.Calendar

namespace XmlscmType

def hasYear : XmlscmType → Bool
  | dateTime | date | duration | yearMonthDuration | gYearMonth | gYear => true
  | _ => false

def hasMonth : XmlscmType → Bool
  | dateTime | date | duration | yearMonthDuration | gYearMonth | gMonthDay | gMonth => true
  | _ => false

def hasDay : XmlscmType → Bool
  | dateTime | date | duration | dayTimeDuration | gMonthDay | gDay => true
  | _ => false

def hasTime : XmlscmType → Bool
  | dateTime | time | duration | dayTimeDuration => true
  | _ => false

end XmlscmType

variable {v : XMLDateTime}

namespace XMLDateTime

/-! ## The values of each type -/

structure AbsentZero (v : XMLDateTime) : Prop where
  year : v.type.hasYear = false → v.centYear = 0
  month : v.type.hasMonth = false → v.month = 0
  day : v.type.hasDay = false → v.day = 0
  time : v.type.hasTime = false → v.hour = 0 ∧ v.minute = 0 ∧ v.second = 0 ∧ v.miliSecond = 0

/-- A value other than a duration, with a timezone, as the parsers leave it:
numbers without a sign apart from the year, and the checks passed. -/
structure IsPoint (v : XMLDateTime) : Prop where
  absent : v.AbsentZero
  timezone : v.utc ≠ .unknown
  std_timezone : v.utc = .std → v.tzHh = 0 ∧ v.tzMm = 0
  tzHh_nonneg : 0 ≤ v.tzHh
  tzMm_nonneg : 0 ≤ v.tzMm
  day_nonneg : 0 ≤ v.day
  miliSecond_nonneg : 0 ≤ v.miliSecond
  miliSecond_lt : v.miliSecond < dtMilisecondMaxValue
  valid : v.validateDateTime = .ok ()

def sign (v : XMLDateTime) : Int := if v.utc = .neg then -1 else 1

/-- A duration: its fields have its sign, the fraction is below one second. -/
structure IsSpan (v : XMLDateTime) : Prop where
  absent : v.AbsentZero
  signed : v.utc = .pos ∨ v.utc = .neg
  centYear : 0 ≤ v.sign * v.centYear
  month : 0 ≤ v.sign * v.month
  day : 0 ≤ v.sign * v.day
  hour : 0 ≤ v.sign * v.hour
  minute : 0 ≤ v.sign * v.minute
  second : 0 ≤ v.sign * v.second
  miliSecond : 0 ≤ v.sign * v.miliSecond
  miliSecond_lt : v.sign * v.miliSecond < durMilisecondMaxValue

def IsValue (v : XMLDateTime) : Prop := if v.isDuration then v.IsSpan else v.IsPoint

/-! ## Points and spans -/

def startDate (v : XMLDateTime) : Int × Int × Int :=
  match v.type with
  | .time => (1972, 12, 31)
  | .gYearMonth => (v.centYear, v.month, 1)
  | .gYear => (v.centYear, 1, 1)
  | .gMonthDay => (1972, v.month, v.day)
  | .gDay => (1972, 12, v.day)
  | .gMonth => (1972, v.month, 1)
  | _ => (v.centYear, v.month, v.day)

/-- `24:00:00` is the end of a day in a date with time and the first instant of the day in a
time of day. -/
def startHour (v : XMLDateTime) : Int := if v.type = .time then v.hour % 24 else v.hour

def offset (v : XMLDateTime) : Int := v.sign * (60 * v.tzHh + v.tzMm)

/-- The comparison counts a year 0 in front of the year 1, unlike the addition
(`calendarYear`). -/
def startDay (v : XMLDateTime) : Int := dayNumber v.startDate.1 v.startDate.2.1 v.startDate.2.2

def pointSeconds (v : XMLDateTime) : Int :=
  60 * (60 * (24 * v.startDay + v.startHour) + v.minute - v.offset) + v.second

def spanMonths (v : XMLDateTime) : Int := 12 * v.centYear + v.month

def spanSeconds (v : XMLDateTime) : Int := 60 * (60 * (24 * v.day + v.hour) + v.minute) + v.second

def whole (v : XMLDateTime) : List Int :=
  if v.isDuration then [v.spanMonths, v.spanSeconds] else [v.pointSeconds]

def meaning (v : XMLDateTime) : List Int :=
  if v.isDuration then [v.spanMonths, durMilisecondMaxValue * v.spanSeconds + v.miliSecond]
  else [dtMilisecondMaxValue * v.pointSeconds + v.miliSecond]

/-! ## What validation gives -/

structure Validated (v : XMLDateTime) : Prop where
  month : v.type = .date ∨ v.type = .dateTime ∨ v.type = .gMonth ∨ v.type = .gYearMonth
    ∨ v.type = .gMonthDay → 1 ≤ v.month ∧ v.month ≤ 12
  hour : 0 ≤ v.hour ∧ v.hour ≤ 24
  minute : 0 ≤ v.minute ∧ v.minute ≤ 59
  second : 0 ≤ v.second ∧ v.second ≤ 59
  tzHh : |v.tzHh| ≤ 14
  tzMm : |v.tzMm| ≤ 59

theorem validated_of_ok (h : v.validateDateTime = .ok ()) : v.Validated := by
  unfold validateDateTime at h
  simp only [bind, Except.bind, pure, Except.pure, throw, throwThe, MonadExceptOf.throw] at h
  split_ifs at h with hyear hmonth hday hhour hminute hsnd htzHh htzMm
  exact {
    month := by
      intro htype
      have hrange : ¬(v.month < 1 ∨ 12 < v.month) := fun hout => hmonth ⟨htype, hout⟩
      omega
    hour := by omega
    minute := by omega
    second := by omega
    tzHh := by omega
    tzMm := by omega }

theorem IsPoint.validated (h : v.IsPoint) : v.Validated := validated_of_ok h.valid

theorem IsPoint.month_range (h : v.IsPoint) (hspan : v.isDuration = false) :
    0 ≤ v.month ∧ v.month ≤ 12 := by
  have hval := h.validated.month
  have habsent := h.absent.month
  cases htype : v.type <;> simp [htype, XmlscmType.hasMonth, isDuration] at hval habsent hspan
    <;> omega

/-! ## The shift to UTC -/

/-- The day on which the normalisation counts the hours. -/
def baseDay (v : XMLDateTime) : Int :=
  dayNumber (v.centYear + (carryMonth v.month).2) (carryMonth v.month).1 v.day

structure AtUtc (v : XMLDateTime) (year month day hour minute : Int) : Prop where
  date : IsDate year month day
  hour_range : 0 ≤ hour ∧ hour < 24
  minute_range : 0 ≤ minute ∧ minute < 60
  minutes : 60 * (24 * dayNumber year month day + hour) + minute
    = 60 * (24 * v.baseDay + v.hour) + v.minute - v.offset

theorem dayNumber_add (y m d n : Int) : dayNumber y m (d + n) = dayNumber y m d + n := by
  unfold dayNumber
  omega

theorem carryMonth_range {m : Int} (h0 : 0 ≤ m) (h12 : m ≤ 12) :
    1 ≤ (carryMonth m).1 ∧ (carryMonth m).1 ≤ 12 := by
  by_cases hzero : m = 0
  · rw [hzero, carryMonth_zero]
    omega
  · rw [carryMonth_of_month (by omega) h12]
    omega

def shifted (v : XMLDateTime) (year month day hour minute : Int) : XMLDateTime :=
  if v.type = .date then
    if hour ≠ 0 ∨ minute ≠ 0 then
      { v with centYear := year, month := month, day := day, hour := 0, minute := 0,
               utc := .neg, tzHh := hour, tzMm := minute }
    else { v with centYear := year, month := month, day := day, hour := 0, minute := 0 }
  else
    { v with centYear := year, month := month, day := day, hour := hour, minute := minute,
             utc := .std, tzHh := 0, tzMm := 0 }

theorem normalizeDateTime_eq (htime : v.type ≠ .time) (h0 : 0 ≤ v.month) (h12 : v.month ≤ 12)
    (hstd : v.utc = .unknown ∨ v.utc = .std → v.tzHh = 0 ∧ v.tzMm = 0) :
    ∃ year month day hour minute, v.AtUtc year month day hour minute
      ∧ v.normalizeDateTime = v.shifted year month day hour minute := by
  have hmonths := carryMonth_range h0 h12
  -- the source adds the timezone to a value behind UTC and takes it from one ahead
  obtain ⟨negate, hnegate, hoff⟩ : ∃ negate : Int, (if v.utc = .pos then -1 else 1) = negate
      ∧ negate * v.tzHh * 60 + negate * v.tzMm = -v.offset := by
    refine ⟨_, rfl, ?_⟩
    cases hutc : v.utc <;> simp [hutc] at hstd <;> simp [offset, sign, hutc] <;> omega
  obtain ⟨minutes, hmins⟩ : ∃ minutes, v.minute + negate * v.tzMm = minutes := ⟨_, rfl⟩
  obtain ⟨hours, hhours⟩ : ∃ hours, v.hour + negate * v.tzHh + minutes / 60 = hours := ⟨_, rfl⟩
  obtain ⟨date, hdate⟩ : ∃ date, normalizeDays (v.centYear + (carryMonth v.month).2)
      (carryMonth v.month).1 (v.day + hours / 24) = date := ⟨_, rfl⟩
  have hspec := normalizeDays_spec (v.centYear + (carryMonth v.month).2)
    (carryMonth v.month).1 (v.day + hours / 24) hmonths.1 hmonths.2
  rw [hdate, dayNumber_add] at hspec
  refine ⟨date.1, date.2.1, date.2.2, hours % 24, minutes % 60, ⟨hspec.1, ?_, ?_, ?_⟩, ?_⟩
  · omega
  · omega
  · have hday : dayNumber date.1 date.2.1 date.2.2 = v.baseDay + hours / 24 := hspec.2
    omega
  · have hhour : ¬hours % 24 < 0 := by omega
    have hminute : ¬minutes % 60 < 0 := by omega
    have hcarry (temp base : Int) (hbase : 0 < base) :
        carryField 1 temp base = (temp % base, temp / base) := by
      rw [carryField_eq temp (.inl rfl) hbase, one_mul]
    simp only [normalizeDateTime, shifted, keepDateTimezone, hnegate, hmins,
      hcarry minutes 60 (by decide), hhours, hcarry hours 24 (by decide)]
    by_cases htype : v.type = .date
    · by_cases hzero : hours % 24 ≠ 0 ∨ minutes % 60 ≠ 0
      · simp only [if_pos (And.intro htype hzero), if_pos hzero]
        simp [htype, hhour, hminute, hdate]
      · have hzero' : hours % 24 = 0 ∧ minutes % 60 = 0 := by omega
        simp [htype, hzero', hdate]
    · simp [htype, htime, hdate]

/-! ## Points in the form in which they are compared -/

def forComparison (v : XMLDateTime) : XMLDateTime :=
  if v.type = .time then v.asDateTime else v

/-- Days by which the normalised values of a type come too early.  They are the same for all
values of the type: a missing day counts as the day 0, a missing month as the month 0 and a
missing year as the year 0, which has the length of the reference year. -/
def dayShift : XmlscmType → Int
  | .gYearMonth => 1
  | .gYear => 32
  | .gMonthDay => daysBeforeYear 1972 - daysBeforeYear 0
  | .gDay => dayNumber 1972 12 0 - dayNumber (-1) 12 0
  | .gMonth => daysBeforeYear 1972 - daysBeforeYear 0 + 1
  | _ => 0

theorem dayNumber_reference (m d : Int) :
    dayNumber 1972 m d = dayNumber 0 m d + (daysBeforeYear 1972 - daysBeforeYear 0) := by
  have hmonths := @daysBeforeMonth_congr 1972 0 (by decide) m.toNat
  unfold dayNumber
  omega

theorem baseDay_of_month (h1 : 1 ≤ v.month) (h12 : v.month ≤ 12) :
    v.baseDay = dayNumber v.centYear v.month v.day := by
  rw [baseDay, carryMonth_of_month h1 h12, add_zero]

theorem baseDay_of_no_month (h : v.month = 0) :
    v.baseDay = dayNumber (v.centYear - 1) 12 v.day := by
  rw [baseDay, h]
  rfl

theorem forComparison_of_ne (h : v.type ≠ .time) : v.forComparison = v :=
  if_neg h

theorem IsPoint.startDay_eq (h : v.IsPoint) (hspan : v.isDuration = false) :
    v.startDay = v.forComparison.baseDay + dayShift v.type := by
  have hyear := h.absent.year
  have hmonth := h.absent.month
  have hday := h.absent.day
  have hrange := h.validated.month
  by_cases htime : v.type = .time
  · have hbase : v.asDateTime.baseDay = dayNumber 1972 12 31 :=
      baseDay_of_month (show (1 : Int) ≤ 12 by decide) (show (12 : Int) ≤ 12 by decide)
    simp [startDay, startDate, forComparison, htime, dayShift, hbase]
  rw [forComparison_of_ne htime]
  cases htype : v.type with
  | time => exact absurd htype htime
  | duration | yearMonthDuration | dayTimeDuration => simp [isDuration, htype] at hspan
  | dateTime | date =>
    have hmonths := hrange (by simp [htype])
    rw [baseDay_of_month hmonths.1 hmonths.2]
    simp [startDay, startDate, htype, dayShift]
  | gYearMonth =>
    have hmonths := hrange (by simp [htype])
    have hzero := hday (by rw [htype]; rfl)
    rw [baseDay_of_month hmonths.1 hmonths.2, hzero]
    simp [startDay, startDate, htype, dayShift, ← dayNumber_add]
  | gYear =>
    have hzero := hday (by rw [htype]; rfl)
    have hnext := dayNumber_next_year (v.centYear - 1) 1
    rw [baseDay_of_no_month (hmonth (by rw [htype]; rfl)), hzero]
    simp only [startDay, startDate, htype, dayShift]
    rw [sub_add_cancel] at hnext
    rw [hnext, ← dayNumber_add]
    simp [daysInMonth]
  | gMonthDay =>
    have hmonths := hrange (by simp [htype])
    have hzero := hyear (by rw [htype]; rfl)
    rw [baseDay_of_month hmonths.1 hmonths.2, hzero]
    simp [startDay, startDate, htype, dayShift, dayNumber_reference]
  | gDay =>
    have hzero := hyear (by rw [htype]; rfl)
    rw [baseDay_of_no_month (hmonth (by rw [htype]; rfl)), hzero]
    simp only [startDay, startDate, htype, dayShift]
    have hlinear := dayNumber_add 1972 12 0 v.day
    have hlinear' := dayNumber_add (-1) 12 0 v.day
    rw [zero_add] at hlinear hlinear'
    show dayNumber 1972 12 v.day = dayNumber (-1) 12 v.day + _
    omega
  | gMonth =>
    have hmonths := hrange (by simp [htype])
    have hzero := hyear (by rw [htype]; rfl)
    have hzero' := hday (by rw [htype]; rfl)
    have hlinear := dayNumber_add 0 v.month 0 1
    rw [baseDay_of_month hmonths.1 hmonths.2, hzero, hzero']
    simp only [startDay, startDate, htype, dayShift, dayNumber_reference]
    rw [zero_add] at hlinear
    omega

theorem IsPoint.startHour_eq (h : v.IsPoint) : v.startHour = v.forComparison.hour := by
  have hhour := h.validated.hour
  unfold startHour forComparison
  by_cases htime : v.type = .time
  · simp only [htime, if_true, asDateTime]
    split_ifs <;> omega
  · rw [if_neg htime, if_neg htime]

theorem IsPoint.exists_normalized (h : v.IsPoint) (hspan : v.isDuration = false) :
    ∃ year month day hour minute, v.forComparison.AtUtc year month day hour minute
      ∧ v.pointSeconds = 60 * (60 * (24 * dayNumber year month day + hour) + minute) + v.second
        + 86400 * dayShift v.type
      ∧ v.forComparison.normalize = v.forComparison.shifted year month day hour minute := by
  have hmonth : 0 ≤ v.forComparison.month ∧ v.forComparison.month ≤ 12 := by
    unfold forComparison
    split_ifs
    · exact ⟨show (0 : Int) ≤ 12 by decide, show (12 : Int) ≤ 12 by decide⟩
    · exact h.month_range hspan
  have htime : v.forComparison.type ≠ .time := by
    unfold forComparison
    split_ifs with htype
    · exact fun heq => by cases heq
    · exact htype
  obtain ⟨hutc, htzHh, htzMm, hminute⟩ : v.forComparison.utc = v.utc ∧ v.forComparison.tzHh = v.tzHh
      ∧ v.forComparison.tzMm = v.tzMm ∧ v.forComparison.minute = v.minute := by
    unfold forComparison
    split_ifs <;> exact ⟨rfl, rfl, rfl, rfl⟩
  have hoff : v.forComparison.offset = v.offset := by simp [offset, sign, hutc, htzHh, htzMm]
  have hstd : v.forComparison.utc = .unknown ∨ v.forComparison.utc = .std →
      v.forComparison.tzHh = 0 ∧ v.forComparison.tzMm = 0 := by
    rw [hutc, htzHh, htzMm]
    rintro (hunknown | hutc')
    · exact absurd hunknown h.timezone
    · exact h.std_timezone hutc'
  obtain ⟨year, month, day, hour, minute, hat, heq⟩ :=
    normalizeDateTime_eq htime hmonth.1 hmonth.2 hstd
  refine ⟨year, month, day, hour, minute, hat, ?_, ?_⟩
  · have hmins := hat.minutes
    rw [hoff, hminute] at hmins
    have hday := h.startDay_eq hspan
    have hhour := h.startHour_eq
    unfold pointSeconds
    omega
  · have hpoint : v.forComparison.isDuration = false := by
      unfold forComparison
      split_ifs
      · rfl
      · exact hspan
    rw [normalize, hpoint, if_neg (by decide), heq]

open Library.ThreeWay

/-! ## Durations -/

theorem sign_eq (v : XMLDateTime) : v.sign = 1 ∨ v.sign = -1 := by
  unfold sign
  split_ifs <;> omega

@[simp]
theorem normalizeDuration_type (v : XMLDateTime) : v.normalizeDuration.type = v.type := by
  unfold normalizeDuration
  dsimp only
  split_ifs <;> rfl

@[simp]
theorem normalizeDuration_miliSecond (v : XMLDateTime) :
    v.normalizeDuration.miliSecond = v.miliSecond := by
  unfold normalizeDuration
  dsimp only
  split_ifs <;> rfl

structure SpanDigits (v : XMLDateTime) (year month day hour minute second : Int) : Prop where
  year_nonneg : 0 ≤ year
  month_range : 0 ≤ month ∧ month < 12
  day_nonneg : 0 ≤ day
  hour_range : 0 ≤ hour ∧ hour < 24
  minute_range : 0 ≤ minute ∧ minute < 60
  second_range : 0 ≤ second ∧ second < 60
  months : v.spanMonths = v.sign * (12 * year + month)
  seconds : v.spanSeconds = v.sign * (60 * (60 * (24 * day + hour) + minute) + second)
  leading : v.normalizeDuration.leading = [v.type.code, v.sign * year, v.sign * month,
    v.sign * day, v.sign * hour, v.sign * minute, v.sign * second]

theorem IsSpan.exists_digits {v : XMLDateTime} (h : v.IsSpan) :
    ∃ year month day hour minute second, v.SpanDigits year month day hour minute second := by
  have hyear := h.centYear
  have hmonth := h.month
  have hday := h.day
  have hhour := h.hour
  have hminute := h.minute
  have hsnd := h.second
  obtain ⟨σ, hσ⟩ : ∃ σ, v.sign = σ := ⟨_, rfl⟩
  have hunit : σ = 1 ∨ σ = -1 := hσ ▸ v.sign_eq
  rw [hσ] at hyear hmonth hday hhour hminute hsnd
  obtain ⟨minutes, hmins⟩ : ∃ n, σ * v.minute + σ * v.second / 60 = n := ⟨_, rfl⟩
  obtain ⟨hours, hhours⟩ : ∃ n, σ * v.hour + minutes / 60 = n := ⟨_, rfl⟩
  refine ⟨σ * v.centYear + σ * v.month / 12, σ * v.month % 12, σ * v.day + hours / 24,
    hours % 24, minutes % 60, σ * v.second % 60, ?_⟩
  constructor
  case leading =>
    have hleading : v.normalizeDuration.leading = [v.type.code,
        v.centYear + σ * v.month / 12 * σ, σ * (σ * v.month % 12), v.day + hours / 24 * σ,
        σ * (hours % 24), σ * (minutes % 60), σ * (σ * v.second % 60)] := by
      have hnegate : (if v.utc = .neg then -1 else 1) = σ := hσ
      simp only [normalizeDuration, hnegate, carryField_eq _ hunit (show (0 : Int) < 60 by decide),
        carryField_eq _ hunit (show (0 : Int) < 24 by decide),
        carryField_eq _ hunit (show (0 : Int) < 12 by decide), hmins, hhours]
      split_ifs <;> rfl
    rw [hleading, hσ]
    rcases hunit with rfl | rfl
    · simp
    · simp
      omega
  case months =>
    rw [hσ, spanMonths]
    rcases hunit with rfl | rfl <;> omega
  case seconds =>
    rw [hσ, spanSeconds]
    rcases hunit with rfl | rfl <;> omega
  all_goals omega

variable {a b : XMLDateTime}

theorem IsSpan.threeWay_leading (ha : a.IsSpan) (hb : b.IsSpan) (htype : a.type = b.type) :
    threeWay a.normalizeDuration.leading b.normalizeDuration.leading
      = threeWay [a.spanMonths, a.spanSeconds] [b.spanMonths, b.spanSeconds] := by
  obtain ⟨year, month, day, hour, minute, second, hd⟩ := ha.exists_digits
  obtain ⟨year', month', day', hour', minute', second', hd'⟩ := hb.exists_digits
  have hdigit {u v base : Int} (hu : 0 ≤ u) (hv : 0 ≤ v ∧ v < base) :
      SignedDigit base (a.sign * u) (a.sign * v) := .of_sign a.sign_eq hu hv.1 hv.2
  have hdigit' {u v base : Int} (hu : 0 ≤ u) (hv : 0 ≤ v ∧ v < base) :
      SignedDigit base (b.sign * u) (b.sign * v) := .of_sign b.sign_eq hu hv.1 hv.2
  have hcollect (s base u v : Int) : base * (s * u) + s * v = s * (base * u + v) := by ring
  have hnonneg := hd.day_nonneg
  have hnonneg' := hd'.day_nonneg
  have hhours := hd.hour_range
  have hhours' := hd'.hour_range
  have hmins := hd.minute_range
  have hmins' := hd'.minute_range
  rw [hd.leading, hd'.leading, htype, threeWay_cons_self,
    threeWay_signedDigit (hdigit hd.year_nonneg hd.month_range)
      (hdigit' hd'.year_nonneg hd'.month_range), hcollect, hcollect, ← hd.months, ← hd'.months]
  apply threeWay_congr_tail
  rw [threeWay_signedDigit (hdigit hnonneg hhours) (hdigit' hnonneg' hhours'), hcollect, hcollect,
    threeWay_signedDigit (hdigit (by omega) hmins) (hdigit' (by omega) hmins'), hcollect,
    hcollect, threeWay_signedDigit (hdigit (by omega) hd.second_range)
      (hdigit' (by omega) hd'.second_range), hcollect, hcollect, ← hd.seconds, ← hd'.seconds]

/-! ## Points -/

theorem threeWay_add (x y c : Int) : threeWay [x + c] [y + c] = threeWay [x] [y] := by
  apply threeWay_congr_head <;> omega

theorem AtUtc.threeWay_fields {y m d h mi y' m' d' h' mi' : Int} (ha : a.AtUtc y m d h mi)
    (hb : b.AtUtc y' m' d' h' mi') (xs xs' : List Int) :
    threeWay (y :: m :: d :: h :: mi :: xs) (y' :: m' :: d' :: h' :: mi' :: xs')
      = threeWay ((60 * (24 * dayNumber y m d + h) + mi) :: xs)
        ((60 * (24 * dayNumber y' m' d' + h') + mi') :: xs') := by
  rw [threeWay_date ha.date hb.date, threeWay_digit ha.hour_range hb.hour_range,
    threeWay_digit ha.minute_range hb.minute_range]

theorem IsPoint.date_timezone {v : XMLDateTime} (h : v.IsPoint) (htype : v.type = .date)
    {y m d hour minute : Int} (hat : v.AtUtc y m d hour minute)
    (hzero : hour = 0 ∧ minute = 0) : v.tzHh = 0 ∧ v.tzMm = 0 := by
  have htime := h.absent.time (by rw [htype]; rfl)
  have hmins := hat.minutes
  have hhh := h.validated.tzHh
  have hmm := h.validated.tzMm
  have hhh' := h.tzHh_nonneg
  have hmm' := h.tzMm_nonneg
  have hoff : v.offset = 60 * v.tzHh + v.tzMm ∨ v.offset = -(60 * v.tzHh + v.tzMm) := by
    unfold offset
    rcases v.sign_eq with hsign | hsign <;> rw [hsign] <;> omega
  rw [abs_of_nonneg hhh'] at hhh
  rw [abs_of_nonneg hmm'] at hmm
  omega

theorem compare_of_type_eq (htype : a.type = b.type) :
    compare a b =
      let l := a.forComparison.normalize
      let r := b.forComparison.normalize
      if threeWay l.leading r.leading ≠ 0 then threeWay l.leading r.leading
      else if compareMilis l r ≠ 0 then compareMilis l r else compareTimezones l r := by
  simp [compare, forComparison, htype]

theorem compareMilis_eq (l r : XMLDateTime) :
    compareMilis l r = if l.miliSecond ≠ 0 then threeWay [l.miliSecond] [r.miliSecond] else 0 := by
  have hunits : (0 : Rat) < ((if l.isDuration then durMilisecondMaxValue
      else dtMilisecondMaxValue : Int) : Rat) := by
    cases l.isDuration <;> simp [durMilisecondMaxValue, dtMilisecondMaxValue]
  have hquot : threeWay [l.milis l.isDuration] [r.milis l.isDuration]
      = threeWay [l.miliSecond] [r.miliSecond] := by
    apply threeWay_congr_head
    all_goals rw [milis, milis, div_lt_div_iff_of_pos_right hunits, Int.cast_lt]
  rw [compareMilis, hquot]

theorem compareTimezones_eq {l r : XMLDateTime} {h mi h' mi' : Int} (hl : l.type = .date)
    (hr : r.type = .date) (htz : l.tzHh * (if l.utc = .pos then -1 else 1) = h
      ∧ l.tzMm * (if l.utc = .pos then -1 else 1) = mi)
    (htz' : r.tzHh * (if r.utc = .pos then -1 else 1) = h'
      ∧ r.tzMm * (if r.utc = .pos then -1 else 1) = mi')
    (hstd : l.utc = .std → h = 0 ∧ mi = 0) (hstd' : r.utc = .std → h' = 0 ∧ mi' = 0) :
    compareTimezones l r = threeWay [h, mi] [h', mi'] := by
  simp only [compareTimezones, hl, hr, htz, htz', true_and]
  split_ifs with hne
  · rfl
  · push Not at hne
    simp [hstd hne.1, hstd' hne.2]

structure DateParts (v : XMLDateTime) (y m d h mi : Int) : Prop where
  at_utc : v.AtUtc y m d h mi
  seconds : v.pointSeconds = 60 * (60 * (24 * dayNumber y m d + h) + mi)
  leading : v.forComparison.normalize.leading = [XmlscmType.date.code, y, m, d, 0, 0, 0]
  miliSecond : v.forComparison.normalize.miliSecond = 0
  type : v.forComparison.normalize.type = .date
  tzHh : v.forComparison.normalize.tzHh
    * (if v.forComparison.normalize.utc = .pos then -1 else 1) = h
  tzMm : v.forComparison.normalize.tzMm
    * (if v.forComparison.normalize.utc = .pos then -1 else 1) = mi
  std : v.forComparison.normalize.utc = .std → h = 0 ∧ mi = 0

theorem IsPoint.exists_dateParts {v : XMLDateTime} (hv : v.IsPoint) (hdate : v.type = .date) :
    ∃ y m d h mi, v.DateParts y m d h mi := by
  have htime := hv.absent.time (by rw [hdate]; rfl)
  have hshift : dayShift v.type = 0 := by rw [hdate]; rfl
  obtain ⟨y, m, d, h, mi, hat, hsecs, heq⟩ :=
    hv.exists_normalized (by simp [isDuration, hdate])
  have hself := forComparison_of_ne (v := v) (by simp [hdate])
  rw [hself, shifted, if_pos hdate] at heq
  by_cases hzero : h ≠ 0 ∨ mi ≠ 0
  · rw [if_pos hzero] at heq
    refine ⟨y, m, d, h, mi, hself ▸ hat, by omega, ?_, ?_, ?_, ?_, ?_, ?_⟩ <;>
      simp [hself, heq, leading, hdate, htime]
  · have hzero' : h = 0 ∧ mi = 0 := by omega
    have htz := hv.date_timezone hdate (hself ▸ hat) hzero'
    refine ⟨y, m, d, h, mi, hself ▸ hat, by omega, ?_, ?_, ?_, ?_, ?_, ?_⟩ <;>
      simp [hself, heq, leading, hdate, htime, htz, hzero']

theorem IsPoint.compare_date (ha : a.IsPoint) (hb : b.IsPoint) (htype : a.type = .date)
    (htype' : b.type = .date) : compare a b = threeWay [a.pointSeconds] [b.pointSeconds] := by
  obtain ⟨y, m, d, h, mi, hparts⟩ := ha.exists_dateParts htype
  obtain ⟨y', m', d', h', mi', hparts'⟩ := hb.exists_dateParts htype'
  have hdays : threeWay a.forComparison.normalize.leading b.forComparison.normalize.leading
      = threeWay [y, m, d] [y', m', d'] := by
    rw [hparts.leading, hparts'.leading]
    show threeWay ([y, m, d] ++ [0, 0, 0]) ([y', m', d'] ++ [0, 0, 0]) = _
    rw [threeWay_append (by rfl)]
    split_ifs with hequal
    · rfl
    · exact (not_not.1 hequal).symm
  have hzones := compareTimezones_eq hparts.type hparts'.type ⟨hparts.tzHh, hparts.tzMm⟩
    ⟨hparts'.tzHh, hparts'.tzMm⟩ hparts.std hparts'.std
  calc compare a b
      = if threeWay [y, m, d] [y', m', d'] ≠ 0 then threeWay [y, m, d] [y', m', d']
          else threeWay [h, mi] [h', mi'] := by
        rw [compare_of_type_eq (htype.trans htype'.symm)]
        simp [compareMilis_eq, hparts.miliSecond, hzones, hdays]
    _ = threeWay [y, m, d, h, mi] [y', m', d', h', mi'] :=
        (@threeWay_append Int _ [y, m, d] [y', m', d'] rfl [h, mi] [h', mi']).symm
    _ = threeWay [60 * (24 * dayNumber y m d + h) + mi]
          [60 * (24 * dayNumber y' m' d' + h') + mi'] :=
        hparts.at_utc.threeWay_fields hparts'.at_utc [] []
    _ = threeWay [a.pointSeconds] [b.pointSeconds] := by
        have hsecs := hparts.seconds
        have hsecs' := hparts'.seconds
        apply threeWay_congr_head <;> omega

theorem IsPoint.compare_of_ne_date (ha : a.IsPoint) (hb : b.IsPoint) (htype : a.type = b.type)
    (hspan : a.isDuration = false) (hdate : a.type ≠ .date) :
    compare a b = if threeWay [a.pointSeconds] [b.pointSeconds] ≠ 0 then
        threeWay [a.pointSeconds] [b.pointSeconds]
      else if a.miliSecond ≠ 0 then threeWay [a.miliSecond] [b.miliSecond] else 0 := by
  obtain ⟨y, m, d, h, mi, hat, hsecs, heq⟩ := ha.exists_normalized hspan
  obtain ⟨y', m', d', h', mi', hat', hsecs', heq'⟩ :=
    hb.exists_normalized (by simpa [isDuration, htype] using hspan)
  have hfraction (v : XMLDateTime) :
      v.forComparison.second = v.second ∧ v.forComparison.miliSecond = v.miliSecond := by
    unfold forComparison
    split_ifs <;> exact ⟨rfl, rfl⟩
  have hkind : a.forComparison.type = b.forComparison.type := by
    simp only [forComparison, htype]
    split_ifs
    · rfl
    · exact htype
  have hzones : a.forComparison.type ≠ .date := by
    unfold forComparison
    split_ifs
    · exact fun h => by cases h
    · exact hdate
  rw [shifted, if_neg hzones] at heq
  rw [shifted, if_neg (hkind ▸ hzones)] at heq'
  have hfields : threeWay a.forComparison.normalize.leading b.forComparison.normalize.leading
      = threeWay [a.pointSeconds] [b.pointSeconds] := by
    have hs := ha.validated.second
    have hs' := hb.validated.second
    rw [htype] at hsecs
    rw [heq, heq', hsecs, hsecs', threeWay_add]
    simp only [leading, hkind, threeWay_cons_self, hfraction]
    rw [hat.threeWay_fields hat', threeWay_digit (b := 60) ⟨hs.1, by omega⟩ ⟨hs'.1, by omega⟩]
  rw [compare_of_type_eq htype]
  simp only [hfields, compareMilis_eq]
  simp only [heq, heq', hfraction, compareTimezones, hzones, false_and, if_false]
  split_ifs <;> simp_all

theorem IsSpan.compare_span (ha : a.IsSpan) (hb : b.IsSpan) (htype : a.type = b.type)
    (hspan : a.isDuration = true) :
    compare a b = if threeWay a.whole b.whole ≠ 0 then threeWay a.whole b.whole
      else if a.miliSecond ≠ 0 then threeWay [a.miliSecond] [b.miliSecond] else 0 := by
  have hspan' : b.isDuration = true := by simpa [isDuration, htype] using hspan
  have hself {v : XMLDateTime} (hv : v.isDuration = true) :
      v.forComparison.normalize = v.normalizeDuration := by
    have htime : v.type ≠ .time := by
      intro h
      simp [isDuration, h] at hv
    rw [forComparison_of_ne htime, normalize, if_pos hv]
  have hdate : a.type ≠ .date := by
    intro h
    simp [isDuration, h] at hspan
  rw [compare_of_type_eq htype, hself hspan, hself hspan']
  simp only [ha.threeWay_leading hb htype, compareMilis_eq, normalizeDuration_miliSecond,
    compareTimezones, normalizeDuration_type, hdate, false_and, if_false, whole, hspan, hspan',
    if_true]
  split_ifs <;> simp_all

theorem compare_eq (ha : a.IsValue) (hb : b.IsValue) (htype : a.type = b.type) :
    compare a b = if threeWay a.whole b.whole ≠ 0 then threeWay a.whole b.whole
      else if a.miliSecond ≠ 0 then threeWay [a.miliSecond] [b.miliSecond] else 0 := by
  have hsame : b.isDuration = a.isDuration := by simp only [isDuration, htype]
  unfold IsValue at ha hb
  rw [hsame] at hb
  cases hspan : a.isDuration with
  | true =>
    rw [hspan] at ha hb
    exact ha.compare_span hb htype hspan
  | false =>
    rw [hspan] at ha hb
    simp only [whole, hsame, hspan, if_neg (show ¬false = true by decide)]
    by_cases hdate : a.type = .date
    · have hmilis := (ha.absent.time (by rw [hdate]; rfl)).2.2.2
      rw [ha.compare_date hb hdate (htype ▸ hdate), if_neg (show ¬a.miliSecond ≠ 0 by omega)]
      split_ifs with hne
      · rfl
      · exact not_not.1 hne
    · exact ha.compare_of_ne_date hb htype hspan hdate

/-! ## The laws of an order -/

/-- The comparison orders the set, and only values that stand for the same are equal. -/
structure OrdersValues (S : Set XMLDateTime) : Prop where
  antisymm : ∀ a ∈ S, ∀ b ∈ S, compare a b = -compare b a
  trans : ∀ a ∈ S, ∀ b ∈ S, ∀ c ∈ S, compare a b ≤ 0 → compare b c ≤ 0 → compare a c ≤ 0
  equal : ∀ a ∈ S, ∀ b ∈ S, compare a b = 0 → a.meaning = b.meaning

theorem meaning_eq_iff (htype : a.type = b.type) (h : a.whole = b.whole) :
    a.meaning = b.meaning ↔ a.miliSecond = b.miliSecond := by
  have hsame : b.isDuration = a.isDuration := by simp only [isDuration, htype]
  cases hspan : a.isDuration <;> simp [whole, meaning, hsame, hspan] at h ⊢ <;> simp [h]

theorem length_whole (htype : a.type = b.type) : a.whole.length = b.whole.length := by
  have hsame : b.isDuration = a.isDuration := by simp only [isDuration, htype]
  cases hspan : a.isDuration <;> simp [whole, hsame, hspan]

theorem compare_eq_threeWay (ha : a.IsValue) (hb : b.IsValue) (htype : a.type = b.type)
    (h : a.whole = b.whole → a.miliSecond = 0 → b.miliSecond = 0) :
    compare a b = threeWay (a.whole ++ [a.miliSecond]) (b.whole ++ [b.miliSecond]) := by
  have hlen := length_whole htype
  rw [compare_eq ha hb htype, threeWay_append hlen]
  by_cases hwhole : threeWay a.whole b.whole = 0
  · have hsnd := (threeWay_eq_zero_iff hlen).1 hwhole
    by_cases hmilis : a.miliSecond = 0
    · rw [if_neg (not_not.2 hmilis), hmilis, h hsnd hmilis, threeWay_cons_self, threeWay_nil]
    · rw [if_pos hmilis]
  · rw [if_pos hwhole, if_pos hwhole]

/-- The comparison is an order exactly on the sets in which a value at the beginning of a
second is not compared with one inside that second. -/
theorem compare_order_iff (t : XmlscmType) (S : Set XMLDateTime)
    (hS : ∀ v ∈ S, v.type = t ∧ v.IsValue) :
    OrdersValues S ↔ ∀ a ∈ S, ∀ b ∈ S, a.whole = b.whole → a.miliSecond = 0 → b.miliSecond = 0 := by
  have htype {a b : XMLDateTime} (ha : a ∈ S) (hb : b ∈ S) : a.type = b.type :=
    (hS a ha).1.trans (hS b hb).1.symm
  constructor
  · intro horder a ha b hb hwhole hmilis
    -- the fraction on the right is not looked at
    have hequal : compare a b = 0 := by
      have hsame := (threeWay_eq_zero_iff (length_whole (htype ha hb))).2 hwhole
      rw [compare_eq (hS a ha).2 (hS b hb).2 (htype ha hb), if_neg (not_not.2 hsame),
        if_neg (not_not.2 hmilis)]
    have hmeaning := horder.equal a ha b hb hequal
    rw [meaning_eq_iff (htype ha hb) hwhole] at hmeaning
    omega
  · intro hfractions
    have hcompare {a b : XMLDateTime} (ha : a ∈ S) (hb : b ∈ S) :
        compare a b = threeWay (a.whole ++ [a.miliSecond]) (b.whole ++ [b.miliSecond]) :=
      compare_eq_threeWay (hS a ha).2 (hS b hb).2 (htype ha hb) (hfractions a ha b hb)
    have hlen {a b : XMLDateTime} (ha : a ∈ S) (hb : b ∈ S) :
        (a.whole ++ [a.miliSecond]).length = (b.whole ++ [b.miliSecond]).length := by
      simp [length_whole (htype ha hb)]
    constructor
    case antisymm =>
      intro a ha b hb
      rw [hcompare ha hb, hcompare hb ha]
      exact threeWay_swap _ _
    case trans =>
      intro a ha b hb c hc
      rw [hcompare ha hb, hcompare hb hc, hcompare ha hc]
      exact threeWay_trans (hlen ha hb) (hlen hb hc)
    case equal =>
      intro a ha b hb hzero
      rw [hcompare ha hb, threeWay_eq_zero_iff (hlen ha hb)] at hzero
      have hparts := List.append_inj' hzero rfl
      exact (meaning_eq_iff (htype ha hb) hparts.1).2 (List.singleton_inj.1 hparts.2)

/-- `2000-01-01T00:00:00` with a fraction, in the timezone of the given hour. -/
def newYear (miliSecond tzHh : Int) : XMLDateTime :=
  { type := .dateTime, centYear := 2000, month := 1, day := 1, hour := 0, minute := 0, second := 0,
    miliSecond := miliSecond, utc := if tzHh = 0 then .std else .pos, tzHh := tzHh, tzMm := 0 }

theorem newYear_isValue {miliSecond tzHh : Int} (hmilis : 0 ≤ miliSecond ∧ miliSecond < 100000)
    (htz : tzHh = 0 ∨ tzHh = 2) : (newYear miliSecond tzHh).IsValue := by
  rcases htz with rfl | rfl <;>
    exact ⟨⟨nofun, nofun, nofun, nofun⟩, nofun, by simp [newYear], by simp [newYear],
      by simp [newYear], by simp [newYear], hmilis.1, hmilis.2, rfl⟩

/-- Midnight and half a second later: equal from the left, greater from the right. -/
theorem compare_ignores_right_fraction :
    (newYear 0 0).IsValue ∧ (newYear 50000 0).IsValue
      ∧ compare (newYear 0 0) (newYear 50000 0) = 0
      ∧ compare (newYear 50000 0) (newYear 0 0) = 1
      ∧ (newYear 0 0).meaning ≠ (newYear 50000 0).meaning := by
  have hmidnight : (newYear 0 0).IsValue := newYear_isValue (by decide) (.inl rfl)
  have hlater : (newYear 50000 0).IsValue := newYear_isValue (by decide) (.inl rfl)
  refine ⟨hmidnight, hlater, ?_, ?_, by decide⟩
  · rw [compare_eq hmidnight hlater rfl]
    decide
  · rw [compare_eq hlater hmidnight rfl]
    decide

theorem compare_order_iff_newYear :
    (∀ v ∈ ({newYear 0 0, newYear 7 0, newYear 7 2} : Set XMLDateTime),
        v.type = .dateTime ∧ v.IsValue)
      ∧ (OrdersValues {newYear 0 0, newYear 7 0, newYear 7 2} ↔
        ∀ a ∈ ({newYear 0 0, newYear 7 0, newYear 7 2} : Set XMLDateTime),
        ∀ b ∈ ({newYear 0 0, newYear 7 0, newYear 7 2} : Set XMLDateTime),
          a.whole = b.whole → a.miliSecond = 0 → b.miliSecond = 0) := by
  have hvals : ∀ v ∈ ({newYear 0 0, newYear 7 0, newYear 7 2} : Set XMLDateTime),
      v.type = .dateTime ∧ v.IsValue := by
    rintro v (rfl | rfl | rfl)
    · exact ⟨rfl, newYear_isValue (by decide) (.inl rfl)⟩
    · exact ⟨rfl, newYear_isValue (by decide) (.inl rfl)⟩
    · exact ⟨rfl, newYear_isValue (by decide) (.inr rfl)⟩
  exact ⟨hvals, compare_order_iff .dateTime _ hvals⟩

end XMLDateTime

end Sedna.DateTime
