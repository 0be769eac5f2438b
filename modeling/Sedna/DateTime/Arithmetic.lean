import Sedna.DateTime.Order

/-!
# Adding durations to points

The sum is carried from the seconds up to the days, and surplus days are moved
into the neighbouring months.  Fractions are exact quotients of the stored
numbers.
-/

namespace Sedna.DateTime

open Library.Calendar Library.ThreeWay

def xqRound (v : Rat) : Int :=
  let sign : Int := if 0 ≤ v then 1 else -1
  let truncated := v.num.tdiv v.den
  let remainder := sign * (v - truncated)
  if 1 / 2 ≤ remainder then
    if remainder = 1 / 2 ∧ sign = -1 then truncated else truncated + sign
  else truncated

theorem xqRound_intCast (n : Int) : xqRound n = n := by
  simp [xqRound]

theorem carryMonth_spec (temp : Int) :
    1 ≤ (carryMonth temp).1 ∧ (carryMonth temp).1 ≤ 12
      ∧ 12 * (carryMonth temp).2 + (carryMonth temp).1 = temp := by
  have hdivision := fQuotient_eq (temp - 1) (show (0 : Int) < 13 - 1 by decide)
  simp only [carryMonth, modulo, mod, fQuotientRange, hdivision]
  split_ifs <;> dsimp only <;> omega

theorem date_inj {y m d y' m' d' : Int} (h : IsDate y m d) (h' : IsDate y' m' d')
    (heq : dayNumber y m d = dayNumber y' m' d') : y = y' ∧ m = m' ∧ d = d' := by
  have hsame : [y, m, d] = [y', m', d'] := by
    rw [← threeWay_eq_zero_iff (by rfl), threeWay_date h h', heq, threeWay_cons_self, threeWay_nil]
  simpa using hsame

namespace XMLDateTime

/-- The sum, and the numbers that the source stores in an `int` on the way.  The years of the
loop over the months lie between the year before it and the year after it. -/
def addDurationSteps (dt fDuration : XMLDateTime) : XMLDateTime × List Int :=
  let temp := dt.month + fDuration.month
  let months := carryMonth temp
  let years := dt.centYear + fDuration.centYear
  let centYear := years + months.2
  let milis := dt.milis false + fDuration.milis true
  let carry : Int := if 1 ≤ milis then 1 else if milis < 0 then -1 else 0
  let second := dt.second + fDuration.second
  let seconds := carryField 1 (second + carry) 60
  let minute := dt.minute + fDuration.minute
  let minutes := carryField 1 (minute + seconds.2) 60
  let hour := dt.hour + fDuration.hour
  let hours := carryField 1 (hour + minutes.2) 24
  let maxDay := maxDayInMonthFor centYear months.1
  let day := (if maxDay < dt.day then maxDay else dt.day) + fDuration.day
  let date := normalizeDays centYear months.1 (day + hours.2)
  -- 0 is not a valid year
  let newYear :=
    if dt.centYear < 0 ∧ 0 ≤ date.1 then date.1 + 1
    else if 0 < dt.centYear ∧ date.1 ≤ 0 then date.1 - 1
    else date.1
  let fNewDate := { dt with
    centYear := newYear
    month := date.2.1
    day := date.2.2
    hour := hours.1
    minute := minutes.1
    second := seconds.1
    miliSecond := xqRound ((milis - carry) * dtMilisecondMaxValue) }
  (if dt.type = .date then { fNewDate with hour := 0, minute := 0, second := 0, miliSecond := 0 }
    else fNewDate,
    [temp, temp - 1, years, centYear, second, second + carry, minute, minute + seconds.2, hour,
      hour + minutes.2, day, day + hours.2, date.1, newYear])

def addDurationToDateTime (dt fDuration : XMLDateTime) : XMLDateTime :=
  (addDurationSteps dt fDuration).1

def SumsFit (dt fDuration : XMLDateTime) : Prop := ∀ n ∈ (addDurationSteps dt fDuration).2, IsInt n

instance (dt fDuration : XMLDateTime) : Decidable (SumsFit dt fDuration) :=
  inferInstanceAs (Decidable (∀ n ∈ _, IsInt n))

/-! ## Addition -/

/-- Years counted through: the year in front of the year 1 is written `-1`. -/
def calendarYear (year : Int) : Int := if year < 0 then year + 1 else year

structure IsDateTime (v : XMLDateTime) : Prop where
  type : v.type = .dateTime
  date : IsDate (calendarYear v.centYear) v.month v.day
  hour : 0 ≤ v.hour ∧ v.hour < 24
  minute : 0 ≤ v.minute ∧ v.minute < 60
  second : 0 ≤ v.second ∧ v.second < 60

def localSeconds (v : XMLDateTime) : Int :=
  86400 * dayNumber (calendarYear v.centYear) v.month v.day + 3600 * v.hour + 60 * v.minute
    + v.second

/-- The months are added first, then the rest to the last possible day of the month. -/
structure Added (dt d sum : XMLDateTime) (year month : Int) : Prop where
  fields : sum.IsDateTime
  fraction : sum.miliSecond = dt.miliSecond
  timezone : sum.utc = dt.utc ∧ sum.tzHh = dt.tzHh ∧ sum.tzMm = dt.tzMm
  month_range : 1 ≤ month ∧ month ≤ 12
  months : 12 * year + month = 12 * calendarYear dt.centYear + dt.month + d.spanMonths
  seconds : sum.localSeconds = 86400 * dayNumber year month (min (daysInMonth year month) dt.day)
    + 3600 * dt.hour + 60 * dt.minute + dt.second + d.spanSeconds

variable {dt d : XMLDateTime}

theorem SumsFit.centYear (h : SumsFit dt d) : IsInt (addDurationToDateTime dt d).centYear := by
  have hyear : (addDurationToDateTime dt d).centYear ∈ (addDurationSteps dt d).2 := by
    simp only [addDurationToDateTime, addDurationSteps]
    split_ifs <;> simp
  exact h _ hyear

theorem exists_added (htype : dt.type = .dateTime) (hyear : 1 ≤ dt.centYear)
    (hmilis : 0 ≤ dt.miliSecond ∧ dt.miliSecond < dtMilisecondMaxValue) (hd : d.miliSecond = 0) :
    ∃ year month, Added dt d (addDurationToDateTime dt d) year month := by
  obtain ⟨hmonth, hmonth', hmonths⟩ := carryMonth_spec (dt.month + d.month)
  have hmilis' : dt.milis false + d.milis true = dt.miliSecond / 100000 := by
    simp [milis, hd, dtMilisecondMaxValue]
  have hcarry : ¬(1 : Rat) ≤ dt.miliSecond / 100000 ∧ ¬(dt.miliSecond / 100000 : Rat) < 0 := by
    have hlt : (dt.miliSecond : Rat) < 100000 := by exact_mod_cast hmilis.2
    have hnonneg : (0 : Rat) ≤ dt.miliSecond := by exact_mod_cast hmilis.1
    constructor
    · rw [not_le, div_lt_one (by norm_num)]
      exact hlt
    · rw [not_lt]
      positivity
  have hfield (temp base : Int) (hbase : 0 < base) :
      carryField 1 temp base = (temp % base, temp / base) := by
    rw [carryField_eq temp (.inl rfl) hbase, one_mul]
  have hnot : dt.type ≠ .date := by simp [htype]
  simp only [addDurationToDateTime, addDurationSteps, hmilis', if_neg hcarry.1, if_neg hcarry.2,
    if_neg hnot, hfield _ 60 (by decide), hfield _ 24 (by decide), maxDayInMonthFor_eq,
    ← min_def_lt]
  generalize carryMonth (dt.month + d.month) = months at *
  generalize hsecs : dt.second + d.second + 0 = seconds at *
  generalize hmins : dt.minute + d.minute + seconds / 60 = minutes at *
  generalize hhours : dt.hour + d.hour + minutes / 60 = hours at *
  generalize hnew : normalizeDays (dt.centYear + d.centYear + months.2) months.1 _ = date at *
  have hspec := normalizeDays_spec (dt.centYear + d.centYear + months.2) months.1
    (min (daysInMonth (dt.centYear + d.centYear + months.2) months.1) dt.day + d.day + hours / 24)
    hmonth hmonth'
  rw [hnew, add_assoc (min _ _), dayNumber_add] at hspec
  have hcalendar : calendarYear dt.centYear = dt.centYear := if_neg (by omega)
  have hres : calendarYear (if dt.centYear < 0 ∧ 0 ≤ date.1 then date.1 + 1
      else if 0 < dt.centYear ∧ date.1 ≤ 0 then date.1 - 1 else date.1) = date.1 := by
    unfold calendarYear
    split_ifs <;> omega
  refine ⟨dt.centYear + d.centYear + months.2, months.1,
    ⟨htype, hres.symm ▸ hspec.1, ?_, ?_, ?_⟩, ?_, ⟨rfl, rfl, rfl⟩, ⟨hmonth, hmonth'⟩, ?_, ?_⟩
  · dsimp only
    omega
  · dsimp only
    omega
  · dsimp only
    omega
  · simpa [dtMilisecondMaxValue] using xqRound_intCast dt.miliSecond
  · rw [spanMonths]
    omega
  · simp only [localSeconds, spanSeconds, hres]
    omega

theorem Added.localSeconds_eq {sum : XMLDateTime} {year month : Int}
    (h : Added dt d sum year month) (hdt : dt.IsDateTime) (hmonths : d.spanMonths = 0) :
    sum.localSeconds = dt.localSeconds + d.spanSeconds := by
  have hdate := hdt.date.one_le_month
  have hdate' := hdt.date.month_le
  have hrange := h.month_range
  have hmonths' := h.months
  obtain ⟨rfl, rfl⟩ : year = calendarYear dt.centYear ∧ month = dt.month := by omega
  rw [h.seconds, min_eq_right hdt.date.day_le, localSeconds]

theorem IsDateTime.pointSeconds_eq (h : dt.IsDateTime) (hyear : 0 ≤ dt.centYear) :
    dt.pointSeconds = dt.localSeconds - 60 * dt.offset := by
  have hcalendar : calendarYear dt.centYear = dt.centYear := if_neg (by omega)
  simp only [pointSeconds, localSeconds, startDay, startDate, startHour, h.type, hcalendar,
    reduceCtorEq, if_false]
  ring

/-- From the year 0 on, the comparison finds the sum as much later as was added. -/
theorem Added.pointSeconds_eq {sum : XMLDateTime} {year month : Int}
    (h : Added dt d sum year month) (hdt : dt.IsDateTime) (hmonths : d.spanMonths = 0)
    (hyear : 0 ≤ dt.centYear) (hyear' : 0 ≤ sum.centYear) :
    sum.pointSeconds = dt.pointSeconds + d.spanSeconds := by
  obtain ⟨hutc, htzHh, htzMm⟩ := h.timezone
  have hoff : sum.offset = dt.offset := by rw [offset, offset, sign, sign, hutc, htzHh, htzMm]
  rw [h.fields.pointSeconds_eq hyear', hdt.pointSeconds_eq hyear, h.localSeconds_eq hdt hmonths,
    hoff]
  ring

/-- With a whole number of seconds the sum is the date and time that many seconds later; with
whole months the time of day stays, and the day is moved to the end of a shorter month. -/
theorem addDurationToDateTime_calendar (hdt : dt.IsDateTime) (hyear : 1 ≤ dt.centYear)
    (hmilis : dt.miliSecond = 0) (hd : d.AbsentZero) (hd' : d.miliSecond = 0)
    (hfit : SumsFit dt d) :
    let sum := addDurationToDateTime dt d
    sum.IsDateTime ∧ sum.miliSecond = 0 ∧ IsInt sum.centYear
      ∧ (sum.utc = dt.utc ∧ sum.tzHh = dt.tzHh ∧ sum.tzMm = dt.tzMm)
      ∧ (d.type = .dayTimeDuration → sum.localSeconds = dt.localSeconds + d.spanSeconds)
      ∧ (d.type = .yearMonthDuration →
        (sum.hour = dt.hour ∧ sum.minute = dt.minute ∧ sum.second = dt.second)
          ∧ 12 * calendarYear sum.centYear + sum.month
            = 12 * calendarYear dt.centYear + dt.month + d.spanMonths
          ∧ sum.day = min (daysInMonth (calendarYear sum.centYear) sum.month) dt.day) := by
  have hunits : 0 ≤ dt.miliSecond ∧ dt.miliSecond < dtMilisecondMaxValue := by
    rw [hmilis]
    decide
  obtain ⟨year, month, h⟩ := exists_added hdt.type hyear hunits hd'
  refine ⟨h.fields, h.fraction.trans hmilis, hfit.centYear, h.timezone, ?_, ?_⟩
  · intro htype
    have hyears := hd.year (by rw [htype]; rfl)
    have hmonth := hd.month (by rw [htype]; rfl)
    exact h.localSeconds_eq hdt (by unfold spanMonths; omega)
  · intro htype
    have hsecs := h.seconds
    have hrange := h.month_range
    have hday := hd.day (by rw [htype]; rfl)
    obtain ⟨hhour, hminute, hsnd, -⟩ := hd.time (by rw [htype]; rfl)
    have hlast := daysInMonth_bounds year month
    have hlimited : IsDate year month (min (daysInMonth year month) dt.day) :=
      ⟨hrange.1, hrange.2, le_min (by omega) hdt.date.one_le_day, min_le_left _ _⟩
    have hours := hdt.hour
    have hours' := h.fields.hour
    have minutes := hdt.minute
    have minutes' := h.fields.minute
    have seconds := hdt.second
    have seconds' := h.fields.second
    simp only [localSeconds, spanSeconds, hday, hhour, hminute, hsnd] at hsecs
    obtain ⟨hy, hm, hd⟩ := date_inj h.fields.date hlimited (by omega)
    rw [hy, hm, hd] at hsecs ⊢
    refine ⟨?_, h.months, rfl⟩
    omega

/-- The day before 2000. -/
theorem addDurationToDateTime_calendar_newYear :
    let day : XMLDateTime := ⟨.dayTimeDuration, 0, 0, -1, 0, 0, 0, 0, .neg, 0, 0⟩
    (newYear 0 0).IsDateTime ∧ day.AbsentZero ∧ SumsFit (newYear 0 0) day
      ∧ (addDurationToDateTime (newYear 0 0) day).localSeconds
        = (newYear 0 0).localSeconds + day.spanSeconds := by
  intro day
  have hfields : (newYear 0 0).IsDateTime := by
    refine ⟨rfl, ⟨?_, ?_, ?_, ?_⟩, ?_, ?_, ?_⟩ <;> decide
  have habsent : day.AbsentZero := by constructor <;> decide
  have hfit : SumsFit (newYear 0 0) day := by decide +kernel
  exact ⟨hfields, habsent, hfit,
    (addDurationToDateTime_calendar hfields (by decide) rfl habsent rfl hfit).2.2.2.2.1 rfl⟩

end XMLDateTime

end Sedna.DateTime
