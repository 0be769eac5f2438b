import Sedna.Library.ZerolessNumerals
import Sedna.Nid.Document

/-!
# Root labels

The labels of document nodes count up in numerals with the digits 1 .. 254.
A label is such a numeral, most significant digit first, with the letter 255
between the digits.
-/

namespace Sedna.Nid.Roots

open Library.FirstDifference Library.ZerolessNumerals NumbScheme Generators Document List

/-! ## Labels as numerals -/

/-- The label of a numeral, whose least significant digit comes first. -/
def rootLabel : List Nat → TPrefix
  | [] => []
  | [digit] => [digit]
  | digit :: digits => rootLabel digits ++ [alphabetSize, digit]

def sameDigits (digit : Nat) : Nat → TPrefix
  | 0 => []
  | n + 1 => alphabetSize :: digit :: sameDigits digit n

variable {digits : List Nat} {digit : Nat} {c : Nat} {p q : TPrefix} {n m : TNid}

theorem rootLabel_cons (hne : digits ≠ []) :
    rootLabel (digit :: digits) = rootLabel digits ++ [alphabetSize, digit] := by
  cases digits with
  | nil => exact absurd rfl hne
  | cons _ _ => rfl

theorem rootLabel_ends (digit : Nat) (digits : List Nat) :
    ∃ w, (∀ new, rootLabel (new :: digits) = w ++ [new]) ∧
      (rootLabel (digit :: digits)).length = w.length + 1 := by
  cases digits with
  | nil => exact ⟨[], fun _ => rfl, rfl⟩
  | cons next digits =>
    refine ⟨rootLabel (next :: digits) ++ [alphabetSize], ?_, ?_⟩
    · intro new
      rw [rootLabel_cons (by simp)]
      simp
    · rw [rootLabel_cons (by simp)]
      simp

theorem length_rootLabel (digits : List Nat) :
    (rootLabel digits).length = 2 * digits.length - 1 := by
  induction digits with
  | nil => rfl
  | cons digit digits ih =>
    cases digits with
    | nil => rfl
    | cons next digits =>
      rw [rootLabel_cons (by simp), length_append, ih]
      simp only [length_cons, length_nil]
      omega

theorem resetFrom_sameDigits (w : TPrefix) (letter n : Nat) :
    resetFrom (w ++ letter :: sameDigits maxLetter n) (w.length + 2) =
      w ++ letter :: sameDigits 1 n := by
  have htail : ∀ n offset, offset % 2 = 0 →
      (sameDigits maxLetter n).mapIdx (fun i a =>
        if w.length + 2 ≤ offset + i + (w.length + 1) ∧
          (offset + i + (w.length + 1) - (w.length + 2)) % 2 = 0 then 1 else a) =
        sameDigits 1 n := by
    intro n
    induction n with
    | zero => intro _ _; rfl
    | succ n ih =>
      intro offset hoff
      have hrest := ih (offset + 2) (by omega)
      rw [sameDigits, mapIdx_cons, mapIdx_cons, if_neg (by omega),
        if_pos (by omega)]
      refine congrArg (alphabetSize :: 1 :: ·) (Eq.trans ?_ hrest)
      congr 1
      funext i a
      congr 3 <;> omega
  have hkeep : ∀ (u : TPrefix) (f : Nat → Nat → Nat), (∀ i, i < u.length → ∀ a, f i a = a) →
      u.mapIdx f = u := by
    intro u f hf
    apply ext_getElem
    · simp
    · intro i hi _
      rw [getElem_mapIdx]
      exact hf i (by simpa using hi) _
  unfold resetFrom
  rw [mapIdx_append, mapIdx_cons, hkeep w _ fun i hi a => if_neg (by omega),
    if_neg (by omega)]
  refine congrArg (fun t => w ++ letter :: t) (Eq.trans ?_ (htail n 0 rfl))
  congr 1
  funext i a
  congr 3 <;> omega

/-! ## `updateEP_nid` counts up -/

theorem inc_of_lt {letter : Nat} (h : letter < maxLetter) : inc letter = letter + 1 := by
  apply inc_eq
  simp only [maxLetter, alphabetSize] at h ⊢
  omega

theorem rootScan_rootLabel (hne : digits ≠ []) (h : IsNumeral maxLetter digits) (n : Nat) :
    digits = List.replicate digits.length maxLetter ∧
        rootScan (rootLabel digits ++ sameDigits maxLetter n)
          ((rootLabel digits).length + 1) = none ∨
      rootScan (rootLabel digits ++ sameDigits maxLetter n) ((rootLabel digits).length + 1) =
        some (rootLabel (increment maxLetter digits) ++ sameDigits 1 n) := by
  induction digits generalizing n with
  | nil => exact absurd rfl hne
  | cons digit digits ih =>
    obtain ⟨hdigit, hdigits⟩ := forall_mem_cons.1 h
    obtain ⟨w, hw, hlen⟩ := rootLabel_ends digit digits
    have hread : (rootLabel (digit :: digits) ++ sameDigits maxLetter n).getD w.length 0 =
        digit := by
      rw [hw digit, append_assoc]
      exact getD_at rfl
    rw [hlen, rootScan, hread]
    by_cases hlt : digit < maxLetter
    · right
      rw [if_pos hlt, inc_of_lt hlt, hw digit, append_assoc, cons_append, nil_append,
        set_at rfl, resetFrom_sameDigits, increment, if_pos hlt, hw (digit + 1)]
      simp
    · have hfull : digit = maxLetter := by omega
      subst hfull
      rw [if_neg hlt]
      cases digits with
      | nil =>
        left
        refine ⟨rfl, ?_⟩
        have hnil : w.length = 0 := by simpa [rootLabel] using hlen.symm
        rw [hnil, rootScan]
      | cons next digits =>
        -- The letter 255 and this digit belong to what has been scanned.
        have hlabel : rootLabel (maxLetter :: next :: digits) ++ sameDigits maxLetter n =
            rootLabel (next :: digits) ++ sameDigits maxLetter (n + 1) := by
          rw [rootLabel_cons (by simp), append_assoc]
          rfl
        have hpos : w.length = (rootLabel (next :: digits)).length + 1 := by
          rw [rootLabel_cons (by simp)] at hlen
          simpa using hlen.symm
        rw [hlabel, hpos]
        rcases ih (by simp) hdigits (n + 1) with ⟨hfull, hnone⟩ | hsome
        · left
          refine ⟨?_, hnone⟩
          rw [length_cons, replicate_succ, ← hfull]
        · right
          have hcarry : increment maxLetter (maxLetter :: next :: digits) =
              1 :: increment maxLetter (next :: digits) := if_neg hlt
          rw [hsome, hcarry, rootLabel_cons increment_ne_nil, append_assoc]
          rfl

theorem rootLabel_ones (n : Nat) :
    rootLabel (List.replicate (n + 1) 1) =
      (List.range (2 * n + 1)).map fun i => if i % 2 = 0 then 1 else alphabetSize := by
  induction n with
  | zero => rfl
  | succ n ih =>
    have hrange : range (2 * (n + 1) + 1) = range (2 * n + 1) ++ [2 * n + 1, 2 * n + 2] := by
      rw [mul_add, range_succ, range_succ]
      simp
    rw [replicate_succ, rootLabel_cons (by simp), ih, hrange]
    simp

theorem updateEPNid_rootLabel (h : IsNumeral maxLetter digits)
    (hlimit : (rootLabel digits).length ≠ 255) :
    updateEPNid (rootLabel digits) = rootLabel (increment maxLetter digits) := by
  cases digits with
  | nil => rfl
  | cons digit digits =>
    obtain ⟨hdigit, -⟩ := forall_mem_cons.1 h
    obtain ⟨w, hw, hlen⟩ := rootLabel_ends digit digits
    have hread : (rootLabel (digit :: digits)).getD w.length 0 = digit := by
      rw [hw digit]
      exact getD_at rfl
    unfold updateEPNid
    rw [if_neg hlimit, if_neg (by omega), hlen, Nat.add_sub_cancel, hread]
    by_cases hfull : digit = maxLetter
    · have hscan := rootScan_rootLabel (cons_ne_nil digit digits) h 0
      -- The scan starts before the last digit, which is full.
      have hlast : rootScan (rootLabel (digit :: digits)) (w.length + 2) =
          rootScan (rootLabel (digit :: digits)) w.length := by
        rw [rootScan, if_neg (by omega)]
      simp only [sameDigits, append_nil, hlen, hlast] at hscan
      rw [if_neg (by simpa using hfull)]
      rcases hscan with ⟨hall, hnone⟩ | hsome
      · have hsize : w.length + 1 + 2 = 2 * (digits.length + 1) + 1 := by
          rw [← hlen, length_rootLabel, length_cons]
          omega
        rw [hnone, hall, length_cons, increment_replicate, rootLabel_ones, ← hsize]
      · rw [hsome]
    · have hlt : digit < maxLetter := by omega
      rw [if_pos hfull, inc_of_lt hlt, hw digit, set_at rfl, increment, if_pos hlt, hw (digit + 1)]

theorem repeat_updateEPNid (count : Nat)
    (hlimit : ∀ earlier, earlier < count → (Nat.repeat updateEPNid earlier []).length ≠ 255) :
    Nat.repeat updateEPNid count [] = rootLabel (numeral maxLetter count) := by
  induction count with
  | zero => rfl
  | succ count ih =>
    have hcount := ih fun earlier hearlier => hlimit earlier (by omega)
    have hlen := hlimit count (by omega)
    rw [hcount] at hlen
    rw [Nat.repeat, hcount, updateEPNid_rootLabel (isNumeral_numeral (by decide) count) hlen]
    rfl

theorem limit_of_later {earlier count : Nat} (hle : earlier ≤ count)
    (hlimit : (Nat.repeat updateEPNid count []).length ≠ 255) :
    (Nat.repeat updateEPNid earlier []).length ≠ 255 := by
  induction hle with
  | refl => exact hlimit
  | step _ ih =>
    apply ih
    intro hfull
    apply hlimit
    rw [Nat.repeat, updateEPNid]
    simp [hfull]

theorem rootLabel_injective {digits digits' : List Nat} (h : rootLabel digits = rootLabel digits') :
    digits = digits' := by
  have hlen : digits.length = digits'.length := by
    have hlab := congrArg length h
    rw [length_rootLabel, length_rootLabel] at hlab
    omega
  induction digits generalizing digits' with
  | nil => exact (eq_nil_of_length_eq_zero hlen.symm).symm
  | cons digit digits ih =>
    cases digits' with
    | nil => cases hlen
    | cons digit' digits' =>
      have hsame : digits.length = digits'.length := Nat.succ.inj hlen
      by_cases hne : digits = []
      · subst hne
        have hne' : digits' = [] := eq_nil_of_length_eq_zero hsame.symm
        subst hne'
        simpa [rootLabel] using h
      · have hne' : digits' ≠ [] := by
          rintro rfl
          exact hne (eq_nil_of_length_eq_zero hsame)
        rw [rootLabel_cons hne, rootLabel_cons hne'] at h
        obtain ⟨hrest, hlast⟩ := append_inj' h rfl
        simp only [cons.injEq, true_and, and_true] at hlast
        rw [hlast, ih hrest hsame]

theorem getElem?_rootLabel (digits : List Nat) {i : Nat} (hodd : i % 2 = 1)
    (hi : i < (rootLabel digits).length) : (rootLabel digits)[i]? = some alphabetSize := by
  induction digits with
  | nil => cases hi
  | cons digit digits ih =>
    by_cases hne : digits = []
    · subst hne
      simp only [rootLabel, length_cons, length_nil] at hi
      omega
    · have hlen := length_rootLabel digits
      have hpos := length_pos_iff.2 hne
      rw [rootLabel_cons hne] at hi ⊢
      simp only [length_append, length_cons, length_nil] at hi
      by_cases hlt : i < (rootLabel digits).length
      · rw [getElem?_append_left hlt]
        exact ih hlt
      · have heq : i = (rootLabel digits).length := by omega
        rw [heq, getElem?_append_right le_rfl, Nat.sub_self]
        rfl

theorem letter_after_rootLabel {digits digits' : List Nat} (hne : digits ≠ []) {s : TPrefix}
    (h : rootLabel digits' = rootLabel digits ++ c :: s) : c = alphabetSize := by
  have hlen := length_rootLabel digits
  have hpos := length_pos_iff.2 hne
  have hletter := getElem?_rootLabel digits' (i := (rootLabel digits).length) (by omega)
    (by rw [h]; simp)
  rw [h, getElem?_append_right le_rfl, Nat.sub_self] at hletter
  exact Option.some.inj hletter

/-! ## Nodes of different documents -/

theorem label_newDocument (count : Nat) :
    (newDocument count true).label = Nat.repeat updateEPNid (count + 1) [] := by
  simp only [newDocument, nidCreateRoot, if_true]
  split <;> rfl

/-- Neither label is the other one continued by a letter that stands for a descendant. -/
structure Apart (p q : TPrefix) : Prop where
  ne : p ≠ q
  right : ∀ c s, q = p ++ c :: s → c = alphabetSize
  left : ∀ c s, p = q ++ c :: s → c = alphabetSize

theorem Apart.symm (h : Apart p q) : Apart q p := ⟨h.ne.symm, h.left, h.right⟩

theorem roots_apart {i j : Nat} (hij : i < j)
    (hlimit : (Nat.repeat updateEPNid j []).length ≠ 255) :
    Apart (newDocument i true).label (newDocument j true).label := by
  have hlabel : ∀ count, count ≤ j →
      (newDocument count true).label = rootLabel (numeral maxLetter (count + 1)) := by
    intro count hcount
    rw [label_newDocument]
    apply repeat_updateEPNid
    intro earlier hearlier
    exact limit_of_later (by omega) hlimit
  have hne : ∀ count, numeral maxLetter (count + 1) ≠ [] := fun _ => increment_ne_nil
  rw [hlabel i (by omega), hlabel j (le_refl j)]
  refine ⟨?_, fun c s => letter_after_rootLabel (hne i), fun c s => letter_after_rootLabel (hne j)⟩
  intro heq
  have hval := congrArg (value maxLetter) (rootLabel_injective heq)
  rw [value_numeral (by decide), value_numeral (by decide)] at hval
  omega

/-- A label with its root: the root's own, or one continued by a letter other than 255. -/
def Under (root label : TPrefix) : Prop :=
  ∃ t, label = root ++ t ∧ ∀ c s, t = c :: s → c ≠ alphabetSize

theorem under_of_nodeAt {doc n : DocNode} (h : WellLabelled doc) {path : List Nat}
    (hn : nodeAt doc path = some n) : Under doc.label n.label := by
  rcases (descendant_label h hn).2 with ⟨-, rfl⟩ | ⟨-, -, c, s, heq, hc⟩
  · exact ⟨[], by simp, fun _ _ hnil => by cases hnil⟩
  · refine ⟨c :: s, heq, ?_⟩
    rintro c' s' ⟨⟩
    exact hc.ne

theorem Apart.extends {a b : TPrefix} (h : Apart p q) (ha : Under p a) (hb : Under q b)
    {r : TPrefix} (heq : b = a ++ r) : ∃ s, r = alphabetSize :: s := by
  obtain ⟨s, rfl, hs⟩ := ha
  obtain ⟨t, rfl, ht⟩ := hb
  rw [append_assoc] at heq
  rcases append_eq_append_iff.1 heq with ⟨v, hp, htail⟩ | ⟨v, hq, htail⟩
  · cases v with
    | nil => exact absurd (hp.trans (append_nil q)) h.ne
    | cons c v => exact absurd (h.left c v hp) (ht c _ htail)
  · cases v with
    | nil => exact absurd (hq.trans (append_nil p)).symm h.ne
    | cons c v =>
      have hc := h.right c v hq
      subst hc
      cases s with
      | nil => exact ⟨v ++ t, htail⟩
      | cons d s => exact absurd (cons.inj htail).1 (hs d s rfl)

theorem lexIsprefFrom_iff {n : Nat} :
    lexIsprefFrom p q n = true ↔ ∀ i, i < n → p.getD i 0 = q.getD i 0 := by
  induction n with
  | zero => simp [lexIsprefFrom]
  | succ n ih =>
    rw [lexIsprefFrom]
    split
    next hne =>
      constructor
      · intro hfalse
        cases hfalse
      · intro hall
        exact absurd (hall n (Nat.lt_succ_self n)) hne
    next heq =>
      have heq : p.getD n 0 = q.getD n 0 := by simpa using heq
      rw [ih]
      constructor
      · intro hall i hi
        by_cases hlast : i = n
        · rw [hlast]
          exact heq
        · exact hall i (by omega)
      · intro hall i hi
        exact hall i (by omega)

theorem exists_append_of_lexIspref (hlen : p.length ≤ q.length) (h : lexIspref p q = true) :
    ∃ r, q = p ++ r := by
  refine ⟨q.drop p.length, ?_⟩
  have htake : q.take p.length = p := by
    apply ext_getElem
    · simp [hlen]
    · intro i hi hi'
      have heq := lexIsprefFrom_iff.1 h i hi'
      rw [getD_eq_getElem?_getD, getD_eq_getElem?_getD, getElem?_eq_getElem hi',
        getElem?_eq_getElem (show i < q.length by omega)] at heq
      rw [getElem_take]
      exact heq.symm
  conv_lhs => rw [← take_append_drop p.length q, htake]

theorem lexCmp_cases (p q : TPrefix) :
    lexCmp p q = 0 ∧ p = q ∨ lexCmp p q = 1 ∨ lexCmp p q = -1 := by
  fun_induction lexCmp p q with
  | case1 => exact .inl ⟨rfl, rfl⟩
  | case2 => exact .inr (.inl rfl)
  | case3 => exact .inr (.inr rfl)
  | case4 => exact .inr (.inl rfl)
  | case5 => exact .inr (.inr rfl)
  | case6 a p b q heq ih =>
    have heq : a = b := by simpa using heq
    subst heq
    rcases ih with ⟨hzero, rfl⟩ | hcmp
    · exact .inl ⟨hzero, rfl⟩
    · exact .inr hcmp

theorem lexCmp_swap (p q : TPrefix) : lexCmp q p = -lexCmp p q := by
  fun_induction lexCmp p q with
  | case1 => rfl
  | case2 => rfl
  | case3 => rfl
  | case4 a p b q hne hgt => rw [lexCmp, if_pos (Ne.symm hne), if_neg (by omega)]
  | case5 a p b q hne hle => rw [lexCmp, if_pos (Ne.symm hne), if_pos (by omega)]; rfl
  | case6 a p b q heq ih =>
    have heq : a = b := by simpa using heq
    rw [lexCmp, if_neg (by simp [heq]), ih]

theorem lexCmp_of_ne (hne : p ≠ q) : lexCmp p q = -1 ∨ lexCmp q p = -1 := by
  rcases lexCmp_cases p q with ⟨-, heq⟩ | hone | hone
  · exact absurd heq hne
  · exact .inr (by rw [lexCmp_swap, hone])
  · exact .inl hone

/-- A label goes on from another one as the labels of descendants do. -/
def Extends (p q : TPrefix) : Prop := ∃ c s, q = p ++ c :: s ∧ c ≠ alphabetSize

theorem getD_of_eq_append {r : TPrefix} (h : q = p ++ c :: r) : q.getD p.length 0 = c := by
  rw [h]
  exact getD_at rfl

theorem nidAncestor_iff : nidAncestor n m = true ↔ Extends (nidGetPrefix n) (nidGetPrefix m) := by
  constructor
  · intro h
    unfold nidAncestor nidGetSize at h
    split at h
    · cases h
    next hsize =>
      obtain ⟨hletter, hispref⟩ := Bool.and_eq_true_iff.1 h
      obtain ⟨r, hr⟩ := exists_append_of_lexIspref (by omega) hispref
      cases r with
      | nil =>
        rw [hr, append_nil] at hsize
        exact absurd le_rfl hsize
      | cons c s =>
        rw [getD_of_eq_append hr] at hletter
        exact ⟨c, s, hr, by simpa using hletter⟩
  · rintro ⟨c, s, heq, hc⟩
    have hispref : lexIspref (nidGetPrefix n) (nidGetPrefix m) = true := by
      refine lexIsprefFrom_iff.2 fun i hi => ?_
      rw [heq, getD_append _ _ _ _ hi]
    unfold nidAncestor nidGetSize
    rw [if_neg (by rw [heq]; simp), getD_of_eq_append heq, hispref]
    simpa using hc

theorem below_or_extend (h : lexCmp p q = -1) : Below p q ∨ ∃ c s, q = p ++ c :: s := by
  fun_induction lexCmp p q with
  | case1 | case2 | case4 => exact absurd h (by decide)
  | case3 c s => exact .inr ⟨c, s, rfl⟩
  | case5 a p b q hne hle => exact .inl (below_head p q (by omega))
  | case6 a p b q heq ih =>
    have heq : a = b := by simpa using heq
    subst heq
    rcases ih h with hbel | ⟨c, s, rfl⟩
    · exact .inl (hbel.append_left [a])
    · exact .inr ⟨c, s, rfl⟩

theorem below_take_min (h : Below p q) :
    Below (p.take (min p.length q.length)) (q.take (min p.length q.length)) := by
  obtain ⟨w, a, b, u, v, rfl, rfl, hab⟩ := h
  have hlen : min (w ++ a :: u).length (w ++ b :: v).length =
      w.length + (min u.length v.length + 1) := by
    simp only [length_append, length_cons]
    omega
  rw [hlen, take_length_add_append, take_length_add_append, take_succ_cons]
  exact (below_head _ _ hab).append_left w

theorem effective_of_below (h : Below (nidGetPrefix n) (nidGetPrefix m)) :
    cmpEffective n m = -1 ∧ cmpEffective m n = 1 := by
  obtain ⟨hlt, hgt⟩ := lexCmp_below (below_take_min h)
  unfold cmpEffective
  dsimp only
  rw [min_comm (nidGetPrefix m).length, hlt, hgt]
  exact ⟨rfl, rfl⟩

theorem effective_of_extend {s : TPrefix} (h : nidGetPrefix m = nidGetPrefix n ++ c :: s) :
    cmpEffective n m = (if c = alphabetSize then -1 else -2) ∧
      cmpEffective m n = (if c = alphabetSize then 1 else 2) := by
  have hlen : (nidGetPrefix n).length < (nidGetPrefix m).length := by
    rw [h, length_append, length_cons]
    omega
  have htake : (nidGetPrefix m).take (nidGetPrefix n).length = nidGetPrefix n := by
    rw [h, take_left]
  have hzero := lexCmp_self (nidGetPrefix n)
  have hletter := getD_of_eq_append h
  unfold cmpEffective
  dsimp only
  rw [min_eq_left (by omega), min_eq_right (by omega), htake, take_length, hzero,
    if_neg (by decide), if_neg (by omega), if_pos hlen, hletter]
  exact ⟨rfl, rfl⟩

theorem effective_of_lexCmp (h : lexCmp (nidGetPrefix n) (nidGetPrefix m) = -1) :
    cmpEffective n m = -2 ∧ cmpEffective m n = 2 ∧ Extends (nidGetPrefix n) (nidGetPrefix m) ∨
      cmpEffective n m = -1 ∧ cmpEffective m n = 1 ∧
        ¬ Extends (nidGetPrefix n) (nidGetPrefix m) := by
  rcases below_or_extend h with hbel | ⟨c, s, hextend⟩
  · obtain ⟨hlt, hgt⟩ := effective_of_below hbel
    refine .inr ⟨hlt, hgt, ?_⟩
    rintro ⟨c, s, hextend, -⟩
    exact hbel.not_isPrefix (c :: s) hextend
  · obtain ⟨hlt, hgt⟩ := effective_of_extend hextend
    rw [hlt, hgt]
    by_cases hc : c = alphabetSize
    · refine .inr ⟨if_pos hc, if_pos hc, ?_⟩
      rintro ⟨c', s', hextend', hc'⟩
      rw [hextend] at hextend'
      exact hc' ((cons.inj (append_cancel_left hextend')).1 ▸ hc)
    · exact .inl ⟨if_neg hc, if_neg hc, c, s, hextend, hc⟩

/-- The comparisons do not take one node for a descendant of the other. -/
structure Unrelated (nid1 nid2 : TNid) : Prop where
  ancestor : nidAncestor nid1 nid2 = false
  descendant : nidAncestor nid2 nid1 = false
  effective : cmpEffective nid1 nid2 ≠ 2 ∧ cmpEffective nid1 nid2 ≠ -2

theorem Apart.not_extends {a b : TPrefix} (h : Apart p q) (ha : Under p a) (hb : Under q b) :
    ¬ Extends a b := by
  rintro ⟨c, s, heq, hc⟩
  obtain ⟨s', hs'⟩ := h.extends ha hb heq
  exact hc (cons.inj hs').1

theorem Apart.unrelated (h : Apart p q) {nid1 nid2 : TNid} (h1 : Under p (nidGetPrefix nid1))
    (h2 : Under q (nidGetPrefix nid2)) : Unrelated nid1 nid2 := by
  have hforth := h.not_extends h1 h2
  have hback := h.symm.not_extends h2 h1
  refine ⟨?_, ?_, ?_⟩
  · exact Bool.eq_false_iff.2 fun hyes => hforth (nidAncestor_iff.1 hyes)
  · exact Bool.eq_false_iff.2 fun hyes => hback (nidAncestor_iff.1 hyes)
  · have hne : nidGetPrefix nid1 ≠ nidGetPrefix nid2 := by
      intro heq
      obtain ⟨s, hs⟩ := h.extends h1 h2 (heq.symm.trans (append_nil _).symm)
      cases hs
    rcases lexCmp_of_ne hne with hcmp | hcmp
    · rcases effective_of_lexCmp hcmp with ⟨-, -, hyes⟩ | ⟨heff, -, -⟩
      · exact absurd hyes hforth
      · rw [heff]
        decide
    · rcases effective_of_lexCmp hcmp with ⟨-, -, hyes⟩ | ⟨-, heff, -⟩
      · exact absurd hyes hback
      · rw [heff]
        decide

theorem under_of_run {count : Nat} {edits : List Edit} {doc n : DocNode} {path : List Nat}
    (hrun : run edits (newDocument count true) = .ok doc) (hn : nodeAt doc path = some n) :
    Under (newDocument count true).label (nidGetPrefix n.nid) := by
  rcases run_spec edits (newDocument_wellLabelled count true) with herr | ⟨doc', hok, hnid, hwell⟩
  · rw [herr] at hrun
    cases hrun
  · rw [hok] at hrun
    cases hrun
    have hunder := under_of_nodeAt hwell hn
    rw [DocNode.label, hnid] at hunder
    exact hunder

theorem root_labels_apart (i j : Nat) (hij : i < j)
    (hlimit : (Nat.repeat updateEPNid j []).length ≠ 255) :
    Apart (newDocument i true).label (newDocument j true).label ∧
      ∀ edits edits' doc doc' x y nx ny, run edits (newDocument i true) = .ok doc →
        run edits' (newDocument j true) = .ok doc' → nodeAt doc x = some nx →
        nodeAt doc' y = some ny → Unrelated nx.nid ny.nid := by
  have hapart := roots_apart hij hlimit
  refine ⟨hapart, ?_⟩
  intro edits edits' doc doc' x y nx ny hrun hrun' hx hy
  exact hapart.unrelated (under_of_run hrun hx) (under_of_run hrun' hy)

/-- The first label with three letters is the first label continued by 255. -/
theorem root_labels_apart_small :
    (newDocument 0 true).label = [1] ∧ (newDocument 254 true).label = [1, 255, 1] ∧
      Apart (newDocument 0 true).label (newDocument 254 true).label := by
  have hlater : Nat.repeat updateEPNid 254 [] = [254] := by decide +kernel
  refine ⟨by decide +kernel, by decide +kernel, ?_⟩
  exact (root_labels_apart 0 254 (by decide) (by rw [hlater]; decide)).1

end Sedna.Nid.Roots
