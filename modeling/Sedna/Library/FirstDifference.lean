import Mathlib

/-!
# Words compared at their first difference

`Below` relates two words if the first one has the smaller letter at the first position where they
differ, so the relation survives any extension on the right.  `Precedes top` also holds if the
second word extends the first one with the reserved letter `top`.  When no letter exceeds `top`
the relation is transitive, and the words between two words with a common prefix share that
prefix.
-/

namespace Sedna.Library.FirstDifference

open List

variable {α : Type*} [LinearOrder α]

def Below (p q : List α) : Prop := ∃ w a b u v, p = w ++ a :: u ∧ q = w ++ b :: v ∧ a < b

variable {a b top : α} {p q : List α}

theorem below_head (u v : List α) (hab : a < b) : Below (a :: u) (b :: v) :=
  ⟨[], a, b, u, v, rfl, rfl, hab⟩

theorem Below.append_left (w : List α) (h : Below p q) : Below (w ++ p) (w ++ q) := by
  obtain ⟨w', a, b, u, v, rfl, rfl, hab⟩ := h
  exact ⟨w ++ w', a, b, u, v, by simp, by simp, hab⟩

theorem Below.append (h : Below p q) (x y : List α) : Below (p ++ x) (q ++ y) := by
  obtain ⟨w, a, b, u, v, rfl, rfl, hab⟩ := h
  exact ⟨w, a, b, u ++ x, v ++ y, by simp, by simp, hab⟩

theorem below_cons_cons : Below (a :: p) (b :: q) ↔ a < b ∨ (a = b ∧ Below p q) := by
  constructor
  · rintro ⟨w, c, d, u, v, hp, hq, hcd⟩
    cases w with
    | nil =>
      simp only [nil_append, cons.injEq] at hp hq
      left
      rw [hp.1, hq.1]
      exact hcd
    | cons e w =>
      simp only [cons_append, cons.injEq] at hp hq
      exact .inr ⟨hp.1.trans hq.1.symm, w, c, d, u, v, hp.2, hq.2, hcd⟩
  · rintro (hab | ⟨rfl, h⟩)
    · exact below_head p q hab
    · exact h.append_left [a]

theorem not_below_nil (p : List α) : ¬ Below p [] := by
  rintro ⟨w, a, b, u, v, -, hq, -⟩
  simp at hq

theorem nil_not_below (q : List α) : ¬ Below [] q := by
  rintro ⟨w, a, b, u, v, hp, -, -⟩
  simp at hp

theorem below_append_iff (w p q : List α) : Below (w ++ p) (w ++ q) ↔ Below p q := by
  induction w with
  | nil => rfl
  | cons a w ih => simp [below_cons_cons, ih]

theorem lex_trans {c : α} {P Q R : Prop} (hab : a < b ∨ a = b ∧ P) (hbc : b < c ∨ b = c ∧ Q)
    (h : P → Q → R) : a < c ∨ a = c ∧ R := by
  rcases hab with hab | ⟨rfl, hp⟩
  · rcases hbc with hbc | ⟨rfl, -⟩
    · exact .inl (hab.trans hbc)
    · exact .inl hab
  · exact hbc.imp_right fun hq => ⟨hq.1, h hp hq.2⟩

theorem Below.trans {r : List α} (hpq : Below p q) (hqr : Below q r) : Below p r := by
  induction p generalizing q r with
  | nil => exact absurd hpq (nil_not_below q)
  | cons a p ih =>
    cases q with
    | nil => exact absurd hpq (not_below_nil _)
    | cons b q =>
      cases r with
      | nil => exact absurd hqr (not_below_nil _)
      | cons c r =>
        rw [below_cons_cons] at hpq hqr ⊢
        exact lex_trans hpq hqr ih

theorem Below.not_isPrefix (h : Below p q) (x : List α) : q ≠ p ++ x := by
  rintro rfl
  have hself : Below (p ++ []) (p ++ x) := by simpa using h
  exact nil_not_below x ((below_append_iff p [] x).1 hself)

/-! ## Extension by the reserved letter -/

def Precedes (top : α) (p q : List α) : Prop := Below p q ∨ ∃ u, q = p ++ top :: u

theorem Precedes.append_left (w : List α) (h : Precedes top p q) :
    Precedes top (w ++ p) (w ++ q) := by
  rcases h with h | ⟨u, rfl⟩
  · exact .inl (h.append_left w)
  · exact .inr ⟨u, by simp⟩

theorem precedes_cons_cons :
    Precedes top (a :: p) (b :: q) ↔ a < b ∨ (a = b ∧ Precedes top p q) := by
  constructor
  · rintro (h | ⟨u, hu⟩)
    · rcases below_cons_cons.1 h with hab | ⟨rfl, hpq⟩
      · exact .inl hab
      · exact .inr ⟨rfl, .inl hpq⟩
    · simp only [cons_append, cons.injEq] at hu
      exact .inr ⟨hu.1.symm, .inr ⟨u, hu.2⟩⟩
  · rintro (hab | ⟨rfl, h⟩)
    · exact .inl (below_head p q hab)
    · exact h.append_left [a]

theorem not_precedes_nil (top : α) (p : List α) : ¬ Precedes top p [] := by
  rintro (h | ⟨u, hu⟩)
  · exact not_below_nil p h
  · simp at hu

theorem nil_precedes_iff : Precedes top [] q ↔ ∃ u, q = top :: u := by
  simp [Precedes, nil_not_below]

theorem Precedes.trans {r : List α} (hr : ∀ a ∈ r, a ≤ top) (hpq : Precedes top p q)
    (hqr : Precedes top q r) : Precedes top p r := by
  induction p generalizing q r with
  | nil =>
    obtain ⟨u, rfl⟩ := nil_precedes_iff.1 hpq
    cases r with
    | nil => exact absurd hqr (not_precedes_nil top _)
    | cons c r =>
      rcases precedes_cons_cons.1 hqr with htop | ⟨rfl, -⟩
      · exact absurd (hr c (by simp)) (not_le_of_gt htop)
      · exact nil_precedes_iff.2 ⟨r, rfl⟩
  | cons a p ih =>
    cases q with
    | nil => exact absurd hpq (not_precedes_nil top _)
    | cons b q =>
      cases r with
      | nil => exact absurd hqr (not_precedes_nil top _)
      | cons c r =>
        rw [precedes_cons_cons] at hpq hqr ⊢
        exact lex_trans hpq hqr (ih fun x hx => hr x (by simp [hx]))

theorem between_extends {w u v r : List α} (hb : b < top) (hleft : Precedes top (w ++ a :: u) r)
    (hright : Precedes top r (w ++ b :: v)) : ∃ c s, r = w ++ c :: s ∧ c < top := by
  induction w generalizing r with
  | nil =>
    cases r with
    | nil => exact absurd hleft (not_precedes_nil top _)
    | cons c s =>
      refine ⟨c, s, rfl, ?_⟩
      rcases precedes_cons_cons.1 hright with hcb | ⟨rfl, -⟩
      · exact hcb.trans hb
      · exact hb
  | cons d w ih =>
    cases r with
    | nil => exact absurd hleft (not_precedes_nil top _)
    | cons c s =>
      rw [cons_append, precedes_cons_cons] at hleft hright
      have hdc : d ≤ c := by
        rcases hleft with h | ⟨rfl, -⟩
        · exact h.le
        · exact le_rfl
      rcases hright with hcd | ⟨rfl, hright⟩
      · exact absurd hdc (not_le_of_gt hcd)
      · rcases hleft with hcc | ⟨-, hleft⟩
        · exact absurd hcc (lt_irrefl c)
        · obtain ⟨e, t, rfl, he⟩ := ih hleft hright
          exact ⟨e, t, rfl, he⟩

end Sedna.Library.FirstDifference
