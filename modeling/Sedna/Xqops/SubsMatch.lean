import Mathlib

/-!
# Substring search

`PPSubsMatch::contains` compares characters only where the hash of the window is that of the
pattern.  Characters and hashes are words of 32 bits with wrapping arithmetic; an iterator is the
rest of its string.
-/

namespace Sedna.Xqops.SubsMatch

open List

abbrev Word := BitVec 32

def memcmpt : List Word → List Word → Nat → Word
  | c1 :: i1, c2 :: i2, len + 1 => if c1 ≠ c2 then c1 - c2 else memcmpt i1 i2 len
  | _, _, _ => 0

def hash (h : Word) (window : List Word) : Word := window.foldl (fun h c => (h <<< 1) + c) h

/-- The main loop and the comparison behind it: `i3` is what follows the window, so that it
has `l1 - l2 - j` characters. -/
def search (it2 : List Word) (hx d : Word) : (hy : Word) → (i1 i3 : List Word) → (j : Nat) → Int
  | hy, i1, [], j => if hx = hy ∧ memcmpt it2 i1 it2.length = 0 then j else -1
  | hy, i1, c :: i3, j =>
    if hx = hy ∧ memcmpt it2 i1 it2.length = 0 then j
    else search it2 hx d (((hy - i1.headD 0 * d) <<< 1) + c) i1.tail i3 (j + 1)

def contains (it1 it2 : List Word) : Int :=
  if it2.length = 0 then 0
  else if it1.length = 0 then -1
  else if it2.length > it1.length then -1
  else
    let d := (fun d : Word => d <<< 1)^[it2.length - 1] 1
    search it2 (hash 0 it2) d (hash 0 (it1.take it2.length)) it1 (it1.drop it2.length) 0

/-! ## The hash -/

theorem shift_eq (h : Word) : h <<< 1 = h * 2 := by
  bv_omega

theorem hash_eq (h : Word) (w : List Word) : hash h w = h * 2 ^ w.length + hash 0 w := by
  induction w generalizing h with
  | nil => simp [hash]
  | cons c w ih =>
    have hcons : ∀ h, hash h (c :: w) = (h * 2 + c) * 2 ^ w.length + hash 0 w := by
      intro h
      rw [← shift_eq]
      exact ih _
    rw [hcons, hcons, length_cons]
    ring

theorem iterate_shift (n : Nat) : (fun d : Word => d <<< 1)^[n] 1 = 2 ^ n := by
  induction n with
  | zero => rfl
  | succ n ih => rw [Function.iterate_succ_apply', ih, shift_eq, pow_succ]

theorem hash_roll (c0 c : Word) (w : List Word) :
    ((hash 0 (c0 :: w) - c0 * 2 ^ w.length) <<< 1) + c = hash 0 (w ++ [c]) := by
  have hfst : hash 0 (c0 :: w) = hash c0 w := by simp [hash]
  rw [hfst, hash_eq, add_sub_cancel_left, hash, hash, foldl_append]
  rfl

/-! ## The search -/

theorem memcmpt_eq_zero_iff {y w : List Word} (rest : List Word) (h : w.length = y.length) :
    memcmpt y (w ++ rest) y.length = 0 ↔ w = y := by
  induction y generalizing w with
  | nil => simp [memcmpt, eq_nil_of_length_eq_zero h]
  | cons c y ih =>
    cases w with
    | nil => cases h
    | cons c' w =>
      rw [length_cons, cons_append, memcmpt, cons.injEq]
      split_ifs with hc
      · exact iff_of_false (sub_ne_zero.2 hc) fun heq => hc heq.1.symm
      · rw [ih (Nat.succ.inj h), and_iff_right (not_not.1 hc).symm]

theorem matches_iff {y w : List Word} (rest : List Word) (h : w.length = y.length) :
    hash 0 y = hash 0 w ∧ memcmpt y (w ++ rest) y.length = 0 ↔ w = y := by
  rw [memcmpt_eq_zero_iff rest h, and_iff_right_of_imp]
  rintro rfl
  rfl

def Occurs (x y : List Word) (i : Nat) : Prop := y <+: x.drop i

def Finds (x y : List Word) (j : Nat) (result : Int) : Prop :=
  (∃ i : Nat, IsLeast {i | Occurs x y i} i ∧ result = j + i) ∨ (∀ i, ¬ Occurs x y i) ∧ result = -1

variable {x y w : List Word} {c : Word} {j : Nat} {result : Int}

theorem finds_prefix (h : y <+: x) : Finds x y j j :=
  .inl ⟨0, ⟨h, fun _ _ => Nat.zero_le _⟩, (add_zero _).symm⟩

theorem finds_short (h : x.length < y.length) : Finds x y j (-1) := by
  refine .inr ⟨fun i hi => ?_, rfl⟩
  have hle := hi.length_le
  rw [length_drop] at hle
  omega

theorem Finds.cons (h : Finds x y (j + 1 : Nat) result) (hnot : ¬ Occurs (c :: x) y 0) :
    Finds (c :: x) y j result := by
  rcases h with ⟨i, ⟨hi, hleast⟩, hres⟩ | ⟨hnone, hres⟩
  · refine .inl ⟨i + 1, ⟨hi, ?_⟩, by omega⟩
    intro k hk
    cases k with
    | zero => exact absurd hk hnot
    | succ k => exact Nat.succ_le_succ (hleast hk)
  · refine .inr ⟨?_, hres⟩
    intro k hk
    cases k with
    | zero => exact hnot hk
    | succ k => exact hnone k hk

theorem not_occurs_zero {rest : List Word} (h : w.length = y.length) (hne : w ≠ y) :
    ¬ Occurs (w ++ rest) y 0 := by
  intro hpre
  have hw := prefix_of_prefix_length_le (prefix_append w rest) hpre h.le
  exact hne (hw.eq_of_length h)

theorem search_finds (rest : List Word) (hy : y ≠ []) (h : w.length = y.length) :
    Finds (w ++ rest) y j
      (search y (hash 0 y) (2 ^ (y.length - 1)) (hash 0 w) (w ++ rest) rest j) := by
  induction rest generalizing w j with
  | nil =>
    obtain ⟨c0, w, rfl⟩ := exists_cons_of_length_pos (h ▸ length_pos_iff.2 hy)
    rw [search]
    split_ifs with hif
    · exact finds_prefix ((matches_iff [] h).1 hif ▸ prefix_append ..)
    · refine Finds.cons (finds_short ?_) (not_occurs_zero h (mt (matches_iff [] h).2 hif))
      simp [← h]
  | cons c rest ih =>
    obtain ⟨c0, w, rfl⟩ := exists_cons_of_length_pos (h ▸ length_pos_iff.2 hy)
    rw [search]
    split_ifs with hif
    · exact finds_prefix ((matches_iff _ h).1 hif ▸ prefix_append ..)
    · refine Finds.cons ?_ (not_occurs_zero h (mt (matches_iff _ h).2 hif))
      have hnext := @ih (w ++ [c]) (j + 1) (by simpa using h)
      have hd : y.length - 1 = w.length := by
        rw [← h]
        rfl
      rw [hd, ← hash_roll, append_assoc] at hnext
      rw [hd]
      exact hnext

/-- The result is the least index at which the pattern occurs, or -1 if it does not occur. -/
theorem contains_exact (x y : List Word) :
    contains x [] = 0 ∧ ((∃ i : Nat, IsLeast {i | Occurs x y i} i ∧ contains x y = i) ∨
      (∀ i, ¬ Occurs x y i) ∧ contains x y = -1) := by
  have hfinds : Finds x y 0 (contains x y) := by
    unfold contains
    split_ifs with hy hx hlt
    · exact finds_prefix (length_eq_zero_iff.1 hy ▸ nil_prefix)
    · exact finds_short (by omega)
    · exact finds_short hlt
    · have hsearch := @search_finds y (x.take y.length) 0 (x.drop y.length)
        (mt length_eq_zero_iff.2 hy) (length_take_of_le (not_lt.1 hlt))
      rw [take_append_drop] at hsearch
      rwa [iterate_shift]
  exact ⟨rfl, by simpa [Finds] using hfinds⟩

end Sedna.Xqops.SubsMatch
