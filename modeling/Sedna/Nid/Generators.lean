import Sedna.Library.FirstDifference
import Sedna.Nid.NumbScheme

/-!
# What the label generators produce

Each generator is described by where its result stands relative to its
arguments, in terms of the first difference of two labels.  A label is always
read as a parent part followed by the letters the generator may change.
-/

namespace Sedna.Nid.Generators

open Library.FirstDifference NumbScheme List

variable {m a i : Nat} {label w u : TPrefix}

/-- The last letter is one of 1 .. 254, and every letter is a byte. -/
structure Proper (label : TPrefix) : Prop where
  ends : ∃ t m, label = t ++ [m] ∧ 1 ≤ m ∧ m ≤ maxLetter
  letters : ∀ a ∈ label, a ≤ alphabetSize

theorem proper_append {t : TPrefix} (ht : ∀ a ∈ t, a ≤ alphabetSize) (hm : 1 ≤ m)
    (hm' : m ≤ maxLetter) : Proper (t ++ [m]) := by
  refine ⟨⟨t, m, rfl, hm, hm'⟩, forall_mem_append.2 ⟨ht, forall_mem_singleton.2 ?_⟩⟩
  simp only [maxLetter, alphabetSize] at hm' ⊢
  omega

theorem Proper.ne_nil (h : Proper label) : label ≠ [] := by
  obtain ⟨t, m, rfl, -, -⟩ := h.ends
  simp

theorem Proper.nidConsistent (h : Proper label) : nidConsistent label = true := by
  obtain ⟨t, m, rfl, -, hm⟩ := h.ends
  simp only [maxLetter] at hm
  simp [NumbScheme.nidConsistent, alphabetSize]
  omega

theorem Proper.append_left (h : Proper label) (hw : ∀ a ∈ w, a ≤ alphabetSize) :
    Proper (w ++ label) := by
  obtain ⟨t, m, rfl, hm, hm'⟩ := h.ends
  rw [← append_assoc]
  apply proper_append _ hm hm'
  exact forall_mem_append.2 ⟨hw, fun a ha => h.letters a (by simp [ha])⟩

theorem Proper.of_append {s : TPrefix} (h : Proper (w ++ s)) (hs : s ≠ []) : Proper s := by
  obtain ⟨t, m, heq, hm, hm'⟩ := h.ends
  refine ⟨⟨s.dropLast, m, ?_, hm, hm'⟩, fun a ha => h.letters a (by simp [ha])⟩
  have hlast : s.getLast hs = m := by
    have := congrArg (fun l => l.getLast?) heq
    simpa [getLast?_eq_getLast_of_ne_nil hs] using this
  rw [← hlast, dropLast_append_getLast hs]

/-! ## Reading and writing one position -/

theorem getD_at {d : Nat} (hi : i = w.length) : (w ++ a :: u).getD i d = a := by
  subst hi
  simp

theorem set_at {x : Nat} (hi : i = w.length) : (w ++ a :: u).set i x = w ++ x :: u := by
  subst hi
  simp

theorem take_at (hi : i = w.length) : (w ++ a :: u).take (i + 1) = w ++ [a] := by
  subst hi
  rw [take_length_add_append]
  rfl

/-! ## `decrementNID` -/

theorem getD_last : (w ++ [m]).getD ((w ++ [m]).length - 1) 0 = m := getD_at (by simp)

theorem set_last {x : Nat} : (w ++ [m]).set ((w ++ [m]).length - 1) x = w ++ [x] := set_at (by simp)

theorem pred_below (hw : ∀ a ∈ w, a ≤ alphabetSize) (hm : 1 < m) (hm' : m ≤ alphabetSize)
    (tail : TPrefix) :
    dec m = m - 1 ∧ Below (w ++ [m - 1]) (w ++ m :: tail) ∧ Proper (w ++ [m - 1]) := by
  simp only [alphabetSize] at hm'
  refine ⟨by simp only [dec]; omega, (below_head _ _ (by omega)).append_left w, ?_⟩
  exact proper_append hw (by omega) (by simp only [maxLetter]; omega)

theorem zero_below (hw : ∀ a ∈ w, a ≤ alphabetSize) (hm : 0 < m) (tail : TPrefix) :
    Below (w ++ [0, defLetter]) (w ++ m :: tail) ∧ Proper (w ++ [0, defLetter]) := by
  refine ⟨(below_head _ _ hm).append_left w, ?_⟩
  rw [append_cons]
  exact proper_append (forall_mem_append.2 ⟨hw, by simp⟩) (by decide) (by decide)

/-- The backward scan over `t`: it stops at the last nonzero letter of `t`. -/
theorem decrementScan_spec (w t tail : TPrefix) (htail : tail ≠ [])
    (ht : ∀ a ∈ t, a ≤ alphabetSize) :
    decrementScan (w ++ (t ++ tail)) w.length (w.length + t.length) = none ∨
    ∃ s, decrementScan (w ++ (t ++ tail)) w.length (w.length + t.length) = some (w ++ s) ∧
      Below s (t ++ tail) ∧ Proper s := by
  induction t using reverseRecOn generalizing tail with
  | nil =>
    left
    cases hw : w.length with
    | zero => rfl
    | succ n => simp [decrementScan]
  | append_singleton t m ih =>
    rw [forall_mem_append, forall_mem_singleton] at ht
    have hlen : w.length + (t ++ [m]).length = (w ++ t).length + 1 := by simp [add_assoc]
    rw [append_assoc t, singleton_append, hlen, ← append_assoc, decrementScan,
      if_neg (by simp; omega), getD_at rfl, set_at rfl, set_at rfl]
    by_cases hzero : m > 0
    · right
      rw [if_pos hzero]
      by_cases hone : m > 1
      · obtain ⟨hdec, hbel⟩ := pred_below ht.1 hone ht.2 tail
        exact ⟨_, by rw [if_pos hone, take_at rfl, hdec, append_assoc], hbel⟩
      · obtain ⟨x, tail', rfl⟩ := exists_cons_of_ne_nil htail
        have hpos : (w ++ t).length + 1 = (w ++ t ++ [0]).length := by simp; omega
        refine ⟨_, ?_, zero_below ht.1 hzero _⟩
        rw [if_neg hone, append_cons, set_at hpos, take_at hpos]
        simp
    · -- a zero letter is passed over and becomes part of the tail
      rw [if_neg hzero]
      simpa using ih (m :: tail) (by simp) ht.1

theorem decrementNID_spec (w s : TPrefix) (hs : Proper s) :
    ∃ s', decrementNID (w ++ s) w.length = w ++ s' ∧ Below s' s ∧ Proper s' := by
  obtain ⟨t, m, rfl, hm, hm'⟩ := hs.ends
  have ht := (forall_mem_append.1 hs.letters).1
  have hzero : w ++ t ++ [0] ++ [defLetter] = w ++ (t ++ [0, defLetter]) := by simp
  unfold decrementNID
  dsimp only
  rw [← append_assoc, getD_last, set_last, set_last, hzero]
  by_cases hne : m ≠ 1
  · obtain ⟨hdec, hbel⟩ := pred_below ht (by omega) (Nat.le_succ_of_le hm') []
    exact ⟨_, by rw [if_pos hne, hdec, append_assoc], hbel⟩
  · rw [if_neg hne]
    split
    · rcases decrementScan_spec w t [m] (by simp) ht with hnone | ⟨s', hsome, hs'⟩
      · have hscan : decrementScan (w ++ t ++ [m]) w.length
            ((w ++ t ++ [m]).length - 1) = none := by
          simpa using hnone
        rw [hscan]
        exact ⟨_, rfl, zero_below ht hm []⟩
      · have hscan : decrementScan (w ++ t ++ [m]) w.length ((w ++ t ++ [m]).length - 1) =
            some (w ++ s') := by
          simpa using hsome
        rw [hscan]
        exact ⟨s', rfl, hs'⟩
    · exact ⟨_, rfl, zero_below ht hm []⟩

/-! ## The carry loop -/

theorem inc_eq (hm : m < alphabetSize) : inc m = m + 1 := by
  simp only [inc, alphabetSize] at hm ⊢
  omega

/-- The carry passes over letters equal to 255.  Either all of `t` is such, or
the carry ends in the last letter that is not. -/
theorem carry_spec (w t tail : TPrefix) (ht : ∀ a ∈ t, a ≤ alphabetSize) :
    (∃ k, t = replicate k alphabetSize ∧
      carry w.length (w ++ t).length (w ++ t ++ alphabetSize :: tail) =
        (w ++ alphabetSize :: (replicate k 1 ++ tail), false)) ∨
    (∃ u m k, t = u ++ m :: replicate k alphabetSize ∧ m < alphabetSize ∧
      carry w.length (w ++ t).length (w ++ t ++ alphabetSize :: tail) =
        (w ++ (u ++ (m + 1) :: (replicate (k + 1) 1 ++ tail)), true)) := by
  induction t using reverseRecOn generalizing tail with
  | nil =>
    refine .inl ⟨0, rfl, ?_⟩
    rw [append_nil]
    cases hw : w.length with
    | zero => rfl
    | succ n => simp [carry]
  | append_singleton t m ih =>
    rw [forall_mem_append, forall_mem_singleton] at ht
    have hpos : (w ++ t).length + 1 = (w ++ t ++ [m]).length := by simp; omega
    rw [← append_assoc, length_append, length_singleton, carry, set_at hpos,
      append_assoc (w ++ t), singleton_append]
    dsimp only
    rw [getD_at rfl]
    by_cases htop : m ≠ alphabetSize
    · have hlt : m < alphabetSize := lt_of_le_of_ne ht.2 htop
      refine .inr ⟨t, m, 0, rfl, hlt, ?_⟩
      rw [if_pos htop, inc_eq hlt]
      simp
    · obtain rfl : m = alphabetSize := by simpa using htop
      rcases ih (1 :: tail) ht.1 with ⟨k, rfl, hcarry⟩ | ⟨u, m', k, rfl, hm', hcarry⟩
      · refine .inl ⟨k + 1, by rw [replicate_succ'], ?_⟩
        rw [hcarry, replicate_succ']
        simp
      · refine .inr ⟨u, m', k + 1, by simp [replicate_succ'], hm', ?_⟩
        rw [hcarry, replicate_succ' (n := k + 1)]
        simp

theorem proper_succ (hw : ∀ a ∈ w, a ≤ alphabetSize) (hm : m + 1 < alphabetSize) :
    Proper (w ++ [m + 1]) :=
  proper_append hw (Nat.le_add_left 1 m) (Nat.le_of_lt_succ hm)

theorem proper_ones {k : Nat} (hu : ∀ a ∈ u, a ≤ alphabetSize) (hm : m < alphabetSize) :
    Proper (u ++ (m + 1) :: replicate (k + 1) 1) := by
  rw [replicate_succ', ← cons_append, ← append_assoc]
  apply proper_append _ (by decide) (by decide)
  simp only [forall_mem_append, forall_mem_cons]
  exact ⟨hu, hm, fun a ha => eq_of_mem_replicate ha ▸ by decide⟩

theorem proper_filled (k : Nat) (hu : ∀ a ∈ u, a ≤ alphabetSize) :
    Proper (u ++ replicate k alphabetSize ++ [defLetter, 1]) := by
  rw [append_cons]
  apply proper_append _ (by decide) (by decide)
  simp only [forall_mem_append, forall_mem_singleton]
  exact ⟨⟨hu, fun a ha => (eq_of_mem_replicate ha).le⟩, by decide⟩

theorem fillFrom_eq (w s : TPrefix) :
    fillFrom (w ++ s) w.length = w ++ replicate s.length alphabetSize := by
  simp [fillFrom]

/-! ## `incrementNID_between` and `incrementNID` -/

theorem incrementNIDBetween_spec (w s : TPrefix) (hs : Proper s) :
    ∃ s', incrementNIDBetween (w ++ s) w.length = w ++ s' ∧ Below s s' ∧ Proper s' := by
  obtain ⟨t, m, rfl, hm, hm'⟩ := hs.ends
  have ht := (forall_mem_append.1 hs.letters).1
  have hlt : m < alphabetSize := Nat.lt_succ_of_le hm'
  unfold incrementNIDBetween
  dsimp only
  rw [← append_assoc, getD_last, set_last, inc_eq hlt, getD_last]
  by_cases htop : m + 1 = alphabetSize
  · rw [if_pos htop, htop, length_append, length_singleton, Nat.add_sub_cancel]
    rcases carry_spec w t [] ht with ⟨k, rfl, hcarry⟩ | ⟨u, m', k, rfl, hm1, hcarry⟩
    · rw [hcarry]
      dsimp only
      rw [fillFrom_eq]
      refine ⟨replicate (k + 1) alphabetSize ++ [defLetter, 1], by simp, ?_, ?_⟩
      · rw [replicate_succ', append_assoc]
        exact (below_head _ _ hlt).append_left _
      · exact proper_filled (u := []) (k + 1) (by simp)
    · rw [hcarry, append_nil, append_assoc]
      refine ⟨_, rfl, (below_head _ _ (Nat.lt_succ_self m')).append_left u, ?_⟩
      exact proper_ones (forall_mem_append.1 ht).1 hm1
  · rw [if_neg htop, append_assoc]
    refine ⟨_, rfl, (below_head _ _ (Nat.lt_succ_self m)).append_left t, ?_⟩
    exact proper_succ ht (lt_of_le_of_ne hlt htop)

theorem incrementNID_spec (w s : TPrefix) (c : Nat) (hs : Proper (c :: s)) (hc : c < alphabetSize) :
    ∃ c' s', incrementNID (w ++ c :: s) w.length = .ok (w ++ c' :: s') ∧
      Precedes alphabetSize (c :: s) (c' :: s') ∧ c' < alphabetSize ∧ Proper (c' :: s') := by
  obtain ⟨t, m, hts, hm, hm'⟩ := hs.ends
  have hlt : m < alphabetSize := Nat.lt_succ_of_le hm'
  rw [hts] at hs ⊢
  have ht := (forall_mem_append.1 hs.letters).1
  unfold incrementNID
  dsimp only
  rw [← append_assoc, getD_last, set_last, inc_eq hlt, getD_last]
  cases t with
  | nil =>
    -- the label is one letter longer than the parent's
    obtain ⟨rfl, rfl⟩ := cons.inj hts
    rw [append_nil, getD_at rfl]
    by_cases htop : c + 1 = alphabetSize
    · obtain rfl : c = maxLetter := Nat.succ.inj htop
      rw [if_pos htop]
      refine ⟨maxLetter, [alphabetSize, 1], by simp, .inr ⟨[1], rfl⟩, by decide, ?_⟩
      exact proper_append (t := [maxLetter, alphabetSize]) (by decide) (by decide) (by decide)
    · have hlt' := lt_of_le_of_ne hlt htop
      rw [if_neg htop, if_neg htop]
      exact ⟨c + 1, [], rfl, .inl (below_head _ _ (Nat.lt_succ_self c)), hlt', proper_succ ht hlt'⟩
  | cons d t =>
    obtain ⟨rfl, rfl⟩ := cons.inj hts
    have hpar : (w ++ c :: t ++ [m + 1]).getD w.length 0 = c := by
      rw [append_assoc]
      exact getD_at rfl
    rw [hpar, if_neg hc.ne]
    by_cases htop : m + 1 = alphabetSize
    · rw [if_pos htop, htop, length_append, length_singleton, Nat.add_sub_cancel]
      rcases carry_spec w (c :: t) [] ht with ⟨k, hk, -⟩ | ⟨u, m', k, hu, hm1, hcarry⟩
      · -- the first letter is below 255, so the carry is always absorbed
        have hmem : c ∈ replicate k alphabetSize := hk ▸ mem_cons_self
        exact absurd (eq_of_mem_replicate hmem) hc.ne
      · rw [hcarry, append_nil]
        cases u with
        | nil =>
          obtain ⟨rfl, rfl⟩ := cons.inj hu
          rw [nil_append, getD_at rfl, set_at rfl]
          by_cases hfull : c + 1 = alphabetSize
          · obtain rfl : c = maxLetter := Nat.succ.inj hfull
            have hfill := fillFrom_eq (w ++ [maxLetter]) (replicate (k + 1) 1)
            rw [← append_cons, length_append, length_singleton] at hfill
            rw [if_pos hfull, hfill]
            refine ⟨maxLetter, replicate (k + 1) alphabetSize ++ [defLetter, 1],
              by simp, .inl ?_, by decide, ?_⟩
            · rw [replicate_succ', append_assoc]
              exact (below_head _ _ hlt).append_left (maxLetter :: replicate k alphabetSize)
            · exact proper_filled (u := [maxLetter]) (k + 1) (by decide)
          · rw [if_neg hfull]
            refine ⟨c + 1, replicate (k + 1) 1, rfl, .inl (below_head _ _ (Nat.lt_succ_self c)),
              lt_of_le_of_ne hc hfull, ?_⟩
            exact proper_ones (u := []) (by simp) hc
        | cons d u =>
          rw [cons_append] at hu
          obtain ⟨rfl, rfl⟩ := hu
          rw [cons_append, getD_at rfl, if_neg hc.ne, cons_append, append_assoc]
          refine ⟨c, _, rfl, .inl ?_, hc, proper_ones (u := c :: u) (forall_mem_append.1 ht).1 hm1⟩
          exact (below_head _ _ (Nat.lt_succ_self m')).append_left (c :: u)
    · rw [if_neg htop]
      refine ⟨c, t ++ [m + 1], by simp, .inl ?_, hc, proper_succ ht (lt_of_le_of_ne hlt htop)⟩
      exact (below_head _ _ (Nat.lt_succ_self m)).append_left (c :: t)

/-! ## `betweenNID` -/

theorem findDiff_append (w lp rp : TPrefix) (pos difsmall : Nat) :
    findDiff (w ++ lp) (w ++ rp) pos difsmall = findDiff lp rp (pos + w.length) difsmall := by
  induction w generalizing pos with
  | nil => rfl
  | cons a w ih =>
    rw [cons_append, cons_append, findDiff, if_neg (lt_irrefl a), ih]
    congr 1
    simp only [length_cons]
    omega

theorem findDiff_later (lp rp : TPrefix) (pos difsmall : Nat) (hdif : difsmall ≠ 0) :
    findDiff lp rp pos difsmall = (none, difsmall) ∨
    ∃ k a b, lp[k]? = some a ∧ rp[k]? = some b ∧ a + 1 < b ∧
      findDiff lp rp pos difsmall = (some (pos + k), difsmall) := by
  induction lp generalizing rp pos with
  | nil => exact .inl rfl
  | cons l lp ih =>
    cases rp with
    | nil => exact .inl rfl
    | cons r rp =>
      have hstep : (findDiff lp rp (pos + 1) difsmall = (none, difsmall)) ∨
          ∃ k a b, (l :: lp)[k]? = some a ∧ (r :: rp)[k]? = some b ∧ a + 1 < b ∧
            findDiff lp rp (pos + 1) difsmall = (some (pos + k), difsmall) := by
        rcases ih rp (pos + 1) with hnone | ⟨k, a, b, ha, hb, hab, hsome⟩
        · exact .inl hnone
        · refine .inr ⟨k + 1, a, b, by simpa using ha, by simpa using hb, hab, ?_⟩
          rw [hsome, show pos + 1 + k = pos + (k + 1) by omega]
      rw [findDiff]
      by_cases hlr : l < r
      · rw [if_pos hlr]
        by_cases hgap : l + 1 < r
        · rw [if_pos hgap]
          exact .inr ⟨0, l, r, rfl, rfl, hgap, rfl⟩
        · rw [if_neg hgap, if_neg hdif]
          exact hstep
      · rw [if_neg hlr]
        exact hstep

theorem increment_take {lp : TPrefix} {k : Nat} (hk : lp[k]? = some a) (ha : a + 1 < alphabetSize)
    (hlp : ∀ x ∈ lp, x ≤ alphabetSize) :
    ∃ u v, lp = u ++ a :: v ∧ u.length = k ∧
      (lp.set k (inc (lp.getD k 0))).take (k + 1) = u ++ [a + 1] ∧ Proper (u ++ [a + 1]) := by
  obtain ⟨hlt, hget⟩ := List.getElem?_eq_some_iff.1 hk
  have hspl : lp = lp.take k ++ a :: lp.drop (k + 1) := by
    rw [← hget, ← drop_eq_getElem_cons hlt, take_append_drop]
  have hlen : k = (lp.take k).length := by simp; omega
  refine ⟨lp.take k, lp.drop (k + 1), hspl, hlen.symm, ?_, ?_⟩
  · conv_lhs => rw [hspl]
    rw [getD_at hlen, set_at hlen, take_at hlen, inc_eq (by omega)]
  · exact proper_succ (fun x hx => hlp x (mem_of_mem_take hx)) ha

def Between (lp rp p : TPrefix) : Prop :=
  Precedes alphabetSize lp p ∧ Precedes alphabetSize p rp ∧ Proper p

section

variable {w u v : TPrefix} {b : Nat}

/-- Whatever is appended to `w ++ [a]` stays below the right sibling. -/
theorem precedes_of_head (s : TPrefix) (hab : a < b) :
    Precedes alphabetSize (w ++ a :: s) (w ++ b :: v) :=
  .inl ((below_head s v hab).append_left w)

variable (hlp : Proper (w ++ a :: u))
include hlp

theorem between_gap (hgap : a + 1 < b) (hb : b ≤ alphabetSize) :
    Between (w ++ a :: u) (w ++ b :: v)
      (((w ++ a :: u).set w.length (inc ((w ++ a :: u).getD w.length 0))).take (w.length + 1)) := by
  have hindex : (w ++ a :: u)[w.length]? = some a := by simp
  obtain ⟨u', v', hspl, hlen, htake, hprop⟩ := increment_take hindex (by omega) hlp.letters
  obtain rfl : u' = w := (append_inj hspl hlen.symm).1.symm
  rw [htake]
  exact ⟨.inl ((below_head _ _ (Nat.lt_succ_self a)).append_left u'),
    .inl ((below_head _ _ hgap).append_left u'), hprop⟩

theorem between_later {k x : Nat} (hab : a < b) (hx : u[k]? = some x) (hlt : x + 1 < alphabetSize) :
    Between (w ++ a :: u) (w ++ b :: v) (((w ++ a :: u).set (w.length + 1 + k)
      (inc ((w ++ a :: u).getD (w.length + 1 + k) 0))).take (w.length + 1 + k + 1)) := by
  have hindex : (w ++ a :: u)[w.length + 1 + k]? = some x := by
    rw [getElem?_append_right (by omega), show w.length + 1 + k - w.length = k + 1 by omega]
    simpa using hx
  obtain ⟨u', v', hspl, hlen, htake, hprop⟩ := increment_take hindex hlt hlp.letters
  -- the cut is after position `w.length`, so the new label still starts with `w ++ [a]`
  obtain ⟨s, rfl⟩ : ∃ s, u' = w ++ a :: s := by
    have hle : (w ++ [a]).length ≤ u'.length := by simp; omega
    obtain ⟨s, hs⟩ : w ++ [a] <+: u' := by
      have hleft : w ++ [a] <+: w ++ a :: u := ⟨u, by simp⟩
      exact prefix_of_prefix_length_le hleft ⟨x :: v', hspl.symm⟩ hle
    exact ⟨s, by rw [← hs]; simp⟩
  rw [htake, hspl]
  refine ⟨.inl ((below_head _ _ (Nat.lt_succ_self x)).append_left _), ?_, hprop⟩
  rw [append_assoc]
  exact precedes_of_head _ hab

theorem between_increment (hab : a < b) (hune : u ≠ []) :
    Between (w ++ a :: u) (w ++ b :: v) (incrementNIDBetween (w ++ a :: u) (w.length + 1)) := by
  have hlen : w.length + 1 = (w ++ [a]).length := by simp
  rw [append_cons] at hlp ⊢
  obtain ⟨s, heq, hless, hprop⟩ := incrementNIDBetween_spec (w ++ [a]) u (hlp.of_append hune)
  rw [hlen, heq]
  refine ⟨.inl (hless.append_left _), ?_,
    hprop.append_left (forall_mem_append.1 hlp.letters).1⟩
  rw [append_assoc]
  exact precedes_of_head s hab

theorem between_append (hab : a < b) :
    Between (w ++ a :: u) (w ++ b :: v) (w ++ a :: u ++ [alphabetSize, defLetter]) := by
  refine ⟨.inr ⟨[defLetter], rfl⟩, ?_, ?_⟩
  · rw [append_assoc]
    exact precedes_of_head _ hab
  · rw [append_cons]
    apply proper_append _ (by decide) (by decide)
    exact forall_mem_append.2 ⟨hlp.letters, by simp⟩

end

theorem between_decrement {p u : TPrefix} (hrp : Proper (p ++ alphabetSize :: u)) :
    Between p (p ++ alphabetSize :: u) (decrementNID (p ++ alphabetSize :: u) (p.length + 1)) := by
  have hune : u ≠ [] := by
    rintro rfl
    obtain ⟨t, m, heq, -, hm⟩ := hrp.ends
    have hlast := congrArg getLast? heq
    simp only [alphabetSize, getLast?_append, getLast?_singleton, Option.some_or,
      Option.some.injEq] at hlast
    simp only [maxLetter] at hm
    omega
  have hlen : p.length + 1 = (p ++ [alphabetSize]).length := by simp
  rw [append_cons] at hrp ⊢
  obtain ⟨s, heq, hless, hprop⟩ := decrementNID_spec (p ++ [alphabetSize]) u (hrp.of_append hune)
  rw [hlen, heq]
  exact ⟨.inr ⟨s, by simp⟩, .inl (hless.append_left _),
    hprop.append_left (forall_mem_append.1 hrp.letters).1⟩

/-- Two labels with the same first letter that are in sibling order: the
generated label stands strictly between them. -/
theorem betweenNID_spec (g : Nat) (lp rp : TPrefix) (hlp : Proper (g :: lp))
    (hrp : Proper (g :: rp)) (hlr : Precedes alphabetSize (g :: lp) (g :: rp)) :
    Between (g :: lp) (g :: rp) (betweenNID (g :: lp) (g :: rp)) := by
  unfold betweenNID
  rcases hlr with ⟨w, a, b, u, v, hl, hr, hab⟩ | ⟨u, hu⟩
  · have hwne : w.length ≠ 0 := by
      intro hw
      rw [length_eq_zero_iff] at hw
      subst hw
      simp only [nil_append, cons.injEq] at hl hr
      omega
    rw [hl] at hlp ⊢
    rw [hr] at hrp ⊢
    rw [findDiff_append, findDiff, if_pos hab]
    by_cases hgap : a + 1 < b
    · rw [if_pos hgap, zero_add]
      exact between_gap hlp hgap (hrp.letters b (by simp))
    · rw [if_neg hgap, if_pos rfl, zero_add]
      rcases findDiff_later u v (w.length + 1) w.length hwne with
        hnone | ⟨k, x, y, hx, hy, hxy, hsome⟩
      · rw [hnone]
        dsimp only
        rw [if_pos hwne]
        by_cases hlong : w.length < (w ++ a :: u).length - 1
        · rw [if_pos hlong]
          exact between_increment hlp hab (by rintro rfl; simp at hlong)
        · rw [if_neg hlong]
          exact between_append hlp hab
      · rw [hsome]
        have hy255 : y ≤ alphabetSize := hrp.letters y (by simp [mem_of_getElem? hy])
        exact between_later hlp hab hx (by omega)
  · -- the right label extends the left one with 255
    rw [hu] at hrp ⊢
    have hfind : findDiff (g :: lp) ((g :: lp) ++ alphabetSize :: u) 0 0 = (none, 0) := by
      have := findDiff_append (g :: lp) [] (alphabetSize :: u) 0 0
      rw [append_nil] at this
      rw [this]
      rfl
    rw [hfind]
    exact between_decrement hrp

end Sedna.Nid.Generators
