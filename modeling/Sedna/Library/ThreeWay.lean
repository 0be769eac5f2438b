import Mathlib

/-!
# Three-way comparison of lists

`threeWay` compares two lists letter by letter and answers `-1`, `0` or `1` at the first
difference.  `threeWay_merge` replaces the two leading letters of both lists by one number each;
this is how a mixed-radix numeral is compared digit by digit.
-/

namespace Sedna.Library.ThreeWay

variable {α : Type*} [LinearOrder α]

def threeWay : List α → List α → Int
  | l :: ls, r :: rs => if l < r then -1 else if r < l then 1 else threeWay ls rs
  | _, _ => 0

@[simp]
theorem threeWay_nil : threeWay ([] : List α) [] = 0 := rfl

theorem threeWay_of_lt {l r : α} (ls rs : List α) (h : l < r) :
    threeWay (l :: ls) (r :: rs) = -1 := by
  rw [threeWay, if_pos h]

theorem threeWay_of_gt {l r : α} (ls rs : List α) (h : r < l) :
    threeWay (l :: ls) (r :: rs) = 1 := by
  rw [threeWay, if_neg (lt_asymm h), if_pos h]

@[simp]
theorem threeWay_cons_self (a : α) (ls rs : List α) :
    threeWay (a :: ls) (a :: rs) = threeWay ls rs := by
  rw [threeWay, if_neg (lt_irrefl a), if_neg (lt_irrefl a)]

theorem threeWay_swap (ls rs : List α) : threeWay ls rs = -threeWay rs ls := by
  induction ls generalizing rs with
  | nil => cases rs <;> rfl
  | cons l ls ih =>
    cases rs with
    | nil => rfl
    | cons r rs =>
      rcases lt_trichotomy l r with h | rfl | h
      · rw [threeWay_of_lt ls rs h, threeWay_of_gt rs ls h]
      · simpa using ih rs
      · rw [threeWay_of_gt ls rs h, threeWay_of_lt rs ls h, neg_neg]

theorem threeWay_eq_zero_iff {ls rs : List α} (hlen : ls.length = rs.length) :
    threeWay ls rs = 0 ↔ ls = rs := by
  induction ls generalizing rs with
  | nil =>
    have hnil : rs = [] := List.eq_nil_of_length_eq_zero hlen.symm
    simp [hnil]
  | cons l ls ih =>
    cases rs with
    | nil => simp at hlen
    | cons r rs =>
      rcases lt_trichotomy l r with h | rfl | h
      · simp [threeWay_of_lt ls rs h, h.ne]
      · simpa using ih (by simpa using hlen)
      · simp [threeWay_of_gt ls rs h, h.ne']

theorem threeWay_trans {ls ms rs : List α} (hlm : ls.length = ms.length)
    (hmr : ms.length = rs.length) (hle : threeWay ls ms ≤ 0) (hle' : threeWay ms rs ≤ 0) :
    threeWay ls rs ≤ 0 := by
  induction ls generalizing ms rs with
  | nil => cases rs <;> simp [threeWay]
  | cons l ls ih =>
    cases ms with
    | nil => simp at hlm
    | cons m ms =>
      cases rs with
      | nil => simp at hmr
      | cons r rs =>
        rcases lt_trichotomy l m with h | rfl | h
        · rcases lt_trichotomy m r with h' | rfl | h'
          · simp [threeWay_of_lt ls rs (h.trans h')]
          · simp [threeWay_of_lt ls rs h]
          · simp [threeWay_of_gt ms rs h'] at hle'
        · rcases lt_trichotomy l r with h' | rfl | h'
          · simp [threeWay_of_lt ls rs h']
          · rw [threeWay_cons_self] at hle hle' ⊢
            exact ih (by simpa using hlm) (by simpa using hmr) hle hle'
          · simp [threeWay_of_gt ms rs h'] at hle'
        · simp [threeWay_of_gt ls ms h] at hle

theorem threeWay_append {xs ys : List α} (hlen : xs.length = ys.length) (us vs : List α) :
    threeWay (xs ++ us) (ys ++ vs)
      = if threeWay xs ys ≠ 0 then threeWay xs ys else threeWay us vs := by
  induction xs generalizing ys with
  | nil =>
    have hnil : ys = [] := List.eq_nil_of_length_eq_zero hlen.symm
    simp [hnil]
  | cons x xs ih =>
    cases ys with
    | nil => simp at hlen
    | cons y ys =>
      rcases lt_trichotomy x y with h | rfl | h
      · simp [threeWay_of_lt _ _ h]
      · simpa using ih (by simpa using hlen)
      · simp [threeWay_of_gt _ _ h]

theorem threeWay_congr_tail {xs ys xs' ys' : List α} (x y : α)
    (h : threeWay xs ys = threeWay xs' ys') :
    threeWay (x :: xs) (y :: ys) = threeWay (x :: xs') (y :: ys') := by
  rw [threeWay, threeWay, h]

theorem threeWay_congr_head {β : Type*} [LinearOrder β] {x y : α} {x' y' : β}
    (hlt : x < y ↔ x' < y') (hgt : y < x ↔ y' < x') : threeWay [x] [y] = threeWay [x'] [y'] := by
  simp [threeWay, hlt, hgt]

theorem threeWay_merge {x x' y y' z z' : α} (xs xs' : List α)
    (hlt : x < x' → z < z') (hgt : x' < x → z' < z)
    (heq : x = x' → (y < y' → z < z') ∧ (y' < y → z' < z) ∧ (y = y' → z = z')) :
    threeWay (x :: y :: xs) (x' :: y' :: xs') = threeWay (z :: xs) (z' :: xs') := by
  rcases lt_trichotomy x x' with h | h | h
  · rw [threeWay_of_lt _ _ h, threeWay_of_lt _ _ (hlt h)]
  · obtain ⟨hy, hy', hyy⟩ := heq h
    subst h
    rw [threeWay_cons_self]
    rcases lt_trichotomy y y' with h' | rfl | h'
    · rw [threeWay_of_lt _ _ h', threeWay_of_lt _ _ (hy h')]
    · rw [hyy rfl, threeWay_cons_self, threeWay_cons_self]
    · rw [threeWay_of_gt _ _ h', threeWay_of_gt _ _ (hy' h')]
  · rw [threeWay_of_gt _ _ h, threeWay_of_gt _ _ (hgt h)]

end Sedna.Library.ThreeWay
