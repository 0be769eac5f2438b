import Mathlib.Data.List.Forall2
import Mathlib.Data.List.Flatten

/-!
# Lists that are related entry by entry, and searches in lists

What is shared by the modules that keep two lists in step.
-/

namespace Sedna.Library.Lists

open List

variable {α β γ : Type*} {R : α → β → Prop} {xs : List α} {ys : List β}

theorem exists_of_forall₂ (h : List.Forall₂ R xs ys) {y : β} (hy : y ∈ ys) : ∃ x ∈ xs, R x y := by
  induction h with
  | nil => exact absurd hy not_mem_nil
  | cons hxy _ ih =>
    rcases mem_cons.1 hy with rfl | hy
    · exact ⟨_, mem_cons_self, hxy⟩
    · obtain ⟨x, hx, hR⟩ := ih hy
      exact ⟨x, mem_cons_of_mem _ hx, hR⟩

theorem exists_of_forall₂' (h : List.Forall₂ R xs ys) {x : α} (hx : x ∈ xs) : ∃ y ∈ ys, R x y :=
  exists_of_forall₂ h.flip hx

theorem map_eq_of_forall₂ {f : α → γ} {g : β → γ} (h : List.Forall₂ R xs ys)
    (hfg : ∀ x y, R x y → f x = g y) : xs.map f = ys.map g := by
  rw [← forall₂_eq_eq_eq, forall₂_map_left_iff, forall₂_map_right_iff]
  exact h.imp hfg

theorem findSome?_flatMap (f : α → List β) (p : β → Option γ) (l : List α) :
    (l.flatMap f).findSome? p = l.findSome? fun x => (f x).findSome? p := by
  rw [← head?_filterMap, filterMap_flatMap, head?_flatMap]
  simp only [head?_filterMap]

theorem findSome?_congr {f g : α → Option β} {l : List α} (hfg : ∀ x ∈ l, f x = g x) :
    l.findSome? f = l.findSome? g := by
  rw [← head?_filterMap, filterMap_congr hfg, head?_filterMap]

theorem takeWhile_eq_filter {p : α → Bool} {l : List α}
    (h : l.Pairwise fun a b => p b → p a) :
    l.takeWhile p = l.filter p := by
  induction l with
  | nil => rfl
  | cons a l ih =>
    rw [pairwise_cons] at h
    by_cases ha : p a
    · rw [takeWhile_cons_of_pos ha, filter_cons_of_pos ha, ih h.2]
    · rw [takeWhile_cons_of_neg ha, filter_cons_of_neg ha]
      symm
      rw [filter_eq_nil_iff]
      exact fun b hb hpb => ha (h.1 b hb hpb)

theorem forall_getElem?_append {P : Nat → α → Prop} {xs ys : List α}
    (hxs : ∀ i x, xs[i]? = some x → P i x) (hys : ∀ i y, ys[i]? = some y → P (xs.length + i) y) :
    ∀ i x, (xs ++ ys)[i]? = some x → P i x := by
  intro i x hx
  by_cases hi : i < xs.length
  · rw [getElem?_append_left hi] at hx
    exact hxs i x hx
  · obtain ⟨j, rfl⟩ := Nat.exists_eq_add_of_le (Nat.le_of_not_lt hi)
    rw [getElem?_append_right (Nat.le_add_right _ j), Nat.add_sub_cancel_left] at hx
    exact hys j x hx

end Sedna.Library.Lists
