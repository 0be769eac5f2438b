import Sedna.Library.ThreeWay

/-!
# The proleptic Gregorian calendar

Years are integers, the year 0 included.  `dayNumber` numbers the days consecutively; comparing
year, month and day in turn compares the numbers.  The second half compares mixed-radix numerals
in the same manner.
-/

namespace Sedna.Library.Calendar

open ThreeWay

variable {m y y' d m' d' b u v u' v' : Int}

def IsLeap (y : Int) : Prop := y % 4 = 0 ∧ (y % 100 ≠ 0 ∨ y % 400 = 0)

instance (y : Int) : Decidable (IsLeap y) := by unfold IsLeap; infer_instance

def daysInMonth (y m : Int) : Int :=
  if m = 4 ∨ m = 6 ∨ m = 9 ∨ m = 11 then 30
  else if m = 2 then (if IsLeap y then 29 else 28)
  else 31

def daysBeforeYear (y : Int) : Int := 365 * (y - 1) + (y - 1) / 4 - (y - 1) / 100 + (y - 1) / 400

def daysBeforeMonth (y : Int) : Nat → Int
  | 0 => 0
  | 1 => 0
  | n + 2 => daysBeforeMonth y (n + 1) + daysInMonth y (n + 1)

def dayNumber (y m d : Int) : Int := daysBeforeYear y + daysBeforeMonth y m.toNat + d

structure IsDate (y m d : Int) : Prop where
  one_le_month : 1 ≤ m
  month_le : m ≤ 12
  one_le_day : 1 ≤ d
  day_le : d ≤ daysInMonth y m

theorem daysInMonth_bounds (y m : Int) : 28 ≤ daysInMonth y m ∧ daysInMonth y m ≤ 31 := by
  unfold daysInMonth
  split_ifs <;> omega

theorem daysBeforeMonth_succ (y : Int) (hm : 1 ≤ m) :
    daysBeforeMonth y (m + 1).toNat = daysBeforeMonth y m.toNat + daysInMonth y m := by
  obtain ⟨n, rfl⟩ : ∃ n : Nat, m = n + 1 := ⟨(m - 1).toNat, by omega⟩
  rfl

theorem daysBeforeMonth_thirteen (y : Int) :
    daysBeforeMonth y 13 = if IsLeap y then 366 else 365 := by
  by_cases h : IsLeap y <;> simp [daysBeforeMonth, daysInMonth, h]

theorem daysBeforeYear_succ (y : Int) :
    daysBeforeYear (y + 1) = daysBeforeYear y + daysBeforeMonth y 13 := by
  rw [daysBeforeMonth_thirteen]
  unfold daysBeforeYear
  by_cases h : IsLeap y
  · rw [if_pos h]
    unfold IsLeap at h
    omega
  · rw [if_neg h]
    unfold IsLeap at h
    omega

theorem daysBeforeYear_mono (h : y ≤ y') : daysBeforeYear y ≤ daysBeforeYear y' := by
  unfold daysBeforeYear
  omega

theorem daysBeforeMonth_mono (y : Int) {n n' : Nat} (h : n ≤ n') :
    daysBeforeMonth y n ≤ daysBeforeMonth y n' := by
  induction n', h using Nat.le_induction with
  | base => exact le_refl _
  | succ k _ ih =>
    cases k with
    | zero => exact ih
    | succ k =>
      have hbnd := daysInMonth_bounds y (k + 1)
      show daysBeforeMonth y n ≤ daysBeforeMonth y (k + 1) + daysInMonth y (k + 1)
      omega

/-! ## Moving between months -/

theorem dayNumber_next_month (hm : 1 ≤ m) (d : Int) :
    dayNumber y (m + 1) d = dayNumber y m (d + daysInMonth y m) := by
  unfold dayNumber
  rw [daysBeforeMonth_succ y hm]
  omega

theorem dayNumber_next_year (y d : Int) :
    dayNumber (y + 1) 1 d = dayNumber y 12 (d + daysInMonth y 12) := by
  have hyear := daysBeforeYear_succ y
  have hmonth := daysBeforeMonth_succ y (m := 12) (by decide)
  show daysBeforeYear (y + 1) + 0 + d = daysBeforeYear y + daysBeforeMonth y 12 + _
  have hmonth' : daysBeforeMonth y 13 = daysBeforeMonth y 12 + daysInMonth y 12 := hmonth
  omega

theorem daysBeforeMonth_congr (h : IsLeap y ↔ IsLeap y') (n : Nat) :
    daysBeforeMonth y n = daysBeforeMonth y' n := by
  induction n with
  | zero => rfl
  | succ n ih =>
    cases n with
    | zero => rfl
    | succ n =>
      show daysBeforeMonth y (n + 1) + daysInMonth y (n + 1)
        = daysBeforeMonth y' (n + 1) + daysInMonth y' (n + 1)
      simp only [ih, daysInMonth, h]

/-! ## The order of dates -/

theorem dayNumber_lt_of_month_lt (h : IsDate y m d) (h' : IsDate y m' d') (hlt : m < m') :
    dayNumber y m d < dayNumber y m' d' := by
  have hstep := daysBeforeMonth_succ y h.one_le_month
  have hmono := daysBeforeMonth_mono y (show (m + 1).toNat ≤ m'.toNat by omega)
  have hday := h.day_le
  have hday' := h'.one_le_day
  unfold dayNumber
  omega

theorem dayNumber_lt_of_year_lt (h : IsDate y m d) (h' : IsDate y' m' d') (hlt : y < y') :
    dayNumber y m d < dayNumber y' m' d' := by
  have hstep := daysBeforeMonth_succ y h.one_le_month
  have hend : daysBeforeMonth y (m + 1).toNat ≤ daysBeforeMonth y 13 :=
    daysBeforeMonth_mono y (by have := h.month_le; omega)
  have hsta : (0 : Int) ≤ daysBeforeMonth y' m'.toNat :=
    daysBeforeMonth_mono y' (Nat.zero_le m'.toNat)
  have hyear := daysBeforeYear_succ y
  have hyears := daysBeforeYear_mono (show y + 1 ≤ y' by omega)
  have hday := h.day_le
  have hday' := h'.one_le_day
  unfold dayNumber
  omega

theorem threeWay_date (h : IsDate y m d) (h' : IsDate y' m' d') (xs xs' : List Int) :
    threeWay (y :: m :: d :: xs) (y' :: m' :: d' :: xs')
      = threeWay (dayNumber y m d :: xs) (dayNumber y' m' d' :: xs') := by
  rcases lt_trichotomy y y' with hy | rfl | hy
  · rw [threeWay_of_lt _ _ hy, threeWay_of_lt _ _ (dayNumber_lt_of_year_lt h h' hy)]
  · rw [threeWay_cons_self]
    apply threeWay_merge
    · exact dayNumber_lt_of_month_lt h h'
    · exact dayNumber_lt_of_month_lt h' h
    · rintro rfl
      unfold dayNumber
      omega
  · rw [threeWay_of_gt _ _ hy, threeWay_of_gt _ _ (dayNumber_lt_of_year_lt h' h hy)]

/-! ## Mixed-radix numerals -/

theorem threeWay_digit (hv : 0 ≤ v ∧ v < b) (hv' : 0 ≤ v' ∧ v' < b) (xs xs' : List Int) :
    threeWay (u :: v :: xs) (u' :: v' :: xs')
      = threeWay ((b * u + v) :: xs) ((b * u' + v') :: xs') := by
  apply threeWay_merge
  · intro h
    nlinarith
  · intro h
    nlinarith
  · rintro rfl
    omega

/-- A numeral whose digits all carry its sign: `v` has at most `b - 1` units
and does not point the other way than `u`. -/
structure SignedDigit (b u v : Int) : Prop where
  neg_lt : -b < v
  lt : v < b
  nonneg : 0 < u → 0 ≤ v
  nonpos : u < 0 → v ≤ 0

theorem SignedDigit.of_sign {s : Int} (hs : s = 1 ∨ s = -1) (hu : 0 ≤ u) (hv : 0 ≤ v) (hlt : v < b)
    : SignedDigit b (s * u) (s * v) := by
  rcases hs with rfl | rfl <;> constructor <;> omega

theorem SignedDigit.merge_lt (h : SignedDigit b u v) (h' : SignedDigit b u' v') (hlt : u < u') :
    b * u + v < b * u' + v' := by
  have hb : 0 < b := by have := h.neg_lt; have := h.lt; omega
  by_cases hpos : 0 < u'
  · have := h.lt
    have := h'.nonneg hpos
    nlinarith
  · have := h'.neg_lt
    have := h.nonpos (by omega)
    nlinarith

theorem threeWay_signedDigit (h : SignedDigit b u v) (h' : SignedDigit b u' v') (xs xs' : List Int)
    :
    threeWay (u :: v :: xs) (u' :: v' :: xs')
      = threeWay ((b * u + v) :: xs) ((b * u' + v') :: xs') := by
  apply threeWay_merge
  · exact h.merge_lt h'
  · exact h'.merge_lt h
  · rintro rfl
    omega

end Sedna.Library.Calendar
