import Sedna.Library.StateInvariant
import Sedna.Nid.BulkLoad
import Sedna.Nid.Document

/-!
# Labels given under a size hint

Under a size hint the children of an element are labelled by words of a fixed length over the
letters 1..254, each the one before it with `increment` added.  The loader also computes hints
with the increment 0, and then every child gets the label of the first one.
-/

namespace Sedna.Nid.BulkLoad

open NumbScheme Generators Document Library.FirstDifference Library.StateInvariant
open List hiding get

/-! ## The hints that the loader computes -/

theorem nidHint_size (indefinite : Int32) (statistic : Nat) :
    (nidHint indefinite statistic).size = max (Nat.clog maxLetter (max statistic 1)) 1 :=
  rfl

theorem nidHint_increment (indefinite : Int32) (statistic : Nat) :
    (nidHint indefinite statistic).increment =
      min (defLetter : Int) ((toInt indefinite
        (maxLetter ^ (nidHint indefinite statistic).size)).tdiv (2 + (max statistic 1 : Nat))) :=
  rfl

/-- The hints under which labels keep their shape: the power of 254 fits an `int`, or the
increment came out positive all the same. -/
def Usable (hint : NidHint) : Prop := hint.size ≤ 3 ∨ 0 < hint.increment

structure SoundHint (hint : NidHint) : Prop where
  one_le_size : 1 ≤ hint.size
  increment_le : hint.increment ≤ 25
  size_le : Usable hint → hint.size ≤ 4
  increment_nonneg : Usable hint → 0 ≤ hint.increment

theorem toInt_of_size_le_three {indefinite : Int32} {size : Nat} (h : size ≤ 3) :
    toInt indefinite (maxLetter ^ size) = (maxLetter ^ size : Nat) := by
  have hpow : maxLetter ^ size ≤ maxLetter ^ 3 := Nat.pow_le_pow_right (by decide) h
  have hcube : maxLetter ^ 3 = 16387064 := by decide
  rw [toInt, if_pos (by omega)]

theorem toInt_lt (indefinite : Int32) (n : Nat) : toInt indefinite n < 2147483648 := by
  unfold toInt
  split
  · omega
  · have h := Int32.toInt_lt indefinite
    omega

theorem lt_of_five_le_size {indefinite : Int32} {statistic : Nat}
    (h : 5 ≤ (nidHint indefinite statistic).size) : 2147483648 < max statistic 1 := by
  rw [nidHint_size] at h
  have hclog : 4 < Nat.clog maxLetter (max statistic 1) := by omega
  have hpow := (Nat.lt_clog_iff_pow_lt (by decide : 1 < maxLetter)).1 hclog
  have hval : maxLetter ^ 4 = 4162314256 := by decide
  omega

theorem tdiv_not_pos_of_lt {a b : Int} (hb : 0 < b) (h : a < b) : ¬ 0 < a.tdiv b := by
  intro hpos
  by_cases ha : 0 ≤ a
  · rw [Int.tdiv_eq_zero_of_lt ha h] at hpos
    omega
  · have hneg : 0 ≤ (-a).tdiv b := Int.tdiv_nonneg (by omega) (by omega)
    rw [Int.neg_tdiv] at hneg
    omega

theorem nidHint_sound (indefinite : Int32) (statistic : Nat) :
    SoundHint (nidHint indefinite statistic) := by
  have hone : 1 ≤ (nidHint indefinite statistic).size := by
    rw [nidHint_size]
    omega
  have hincrement := nidHint_increment indefinite statistic
  have hsmall : (nidHint indefinite statistic).size ≤ 3 →
      0 ≤ (nidHint indefinite statistic).increment := by
    intro hsize
    have hquot : 0 ≤ ((maxLetter ^ (nidHint indefinite statistic).size : Nat) : Int).tdiv
        (2 + (max statistic 1 : Nat)) := Int.tdiv_nonneg (by omega) (by omega)
    rw [toInt_of_size_le_three hsize] at hincrement
    omega
  have hlarge : 5 ≤ (nidHint indefinite statistic).size →
      ¬ 0 < (nidHint indefinite statistic).increment := by
    intro hsize hpos
    have hcount := lt_of_five_le_size hsize
    have hlt := toInt_lt indefinite (maxLetter ^ (nidHint indefinite statistic).size)
    apply tdiv_not_pos_of_lt (a := toInt indefinite
      (maxLetter ^ (nidHint indefinite statistic).size)) (b := 2 + (max statistic 1 : Nat))
    · omega
    · omega
    · omega
  constructor
  · exact hone
  · simp only [defLetter] at hincrement
    omega
  · intro husable
    by_contra hsize
    rcases husable with h | h
    · omega
    · exact hlarge (by omega) h
  · intro husable
    rcases husable with h | h
    · exact hsmall h
    · omega

theorem nidHint_size_le_three (indefinite : Int32) {statistic : Nat} (h : statistic ≤ 16387064) :
    (nidHint indefinite statistic).size ≤ 3 := by
  have hclog : Nat.clog maxLetter (max statistic 1) ≤ 3 :=
    Nat.clog_le_of_le_pow (by simp only [maxLetter]; omega)
  rw [nidHint_size]
  omega

/-- The counts for which the increment comes out as zero, as far as 254³. -/
def zeroCounts : List Nat := [253, 254, 64515, 64516, 16387063, 16387064]

theorem nidHint_increment_pos_iff (indefinite : Int32) {statistic : Nat}
    (h : statistic ≤ 16387064) :
    0 < (nidHint indefinite statistic).increment ↔
      statistic ∉ zeroCounts := by
  have hincrement := nidHint_increment indefinite statistic
  have hsize := nidHint_size indefinite statistic
  have hle := nidHint_size_le_three indefinite h
  generalize hn : (nidHint indefinite statistic).size = size at hincrement hsize hle
  have hupper : max statistic 1 ≤ maxLetter ^ size := by
    calc max statistic 1 ≤ maxLetter ^ Nat.clog maxLetter (max statistic 1) :=
          Nat.le_pow_clog (by decide) _
      _ ≤ maxLetter ^ size := Nat.pow_le_pow_right (by decide) (by omega)
  have hlower : size = 1 ∨ maxLetter ^ (size - 1) < max statistic 1 := by
    by_cases hone : size = 1
    · exact .inl hone
    · have hlt : size - 1 < Nat.clog maxLetter (max statistic 1) := by omega
      exact .inr ((Nat.lt_clog_iff_pow_lt (by decide)).1 hlt)
  rw [toInt_of_size_le_three hle] at hincrement
  have hpos : 0 < (nidHint indefinite statistic).increment ↔
      2 + max statistic 1 ≤ maxLetter ^ size := by
    have hdiv : ((maxLetter ^ size : Nat) : Int).tdiv (2 + (max statistic 1 : Nat)) =
        ((maxLetter ^ size / (2 + max statistic 1) : Nat) : Int) := by
      rfl
    have hquot := Nat.div_pos_iff (a := maxLetter ^ size) (b := 2 + max statistic 1)
    simp only [defLetter] at hincrement
    omega
  rw [hpos]
  simp only [zeroCounts, mem_cons, not_mem_nil, or_false, not_or]
  have hcases : size = 1 ∨ size = 2 ∨ size = 3 := by omega
  simp only [maxLetter] at hupper hlower ⊢
  rcases hcases with rfl | rfl | rfl
  all_goals omega

/-! ## Generators under a hint -/

def Letters (w : TPrefix) : Prop := ∀ a ∈ w, 1 ≤ a ∧ a ≤ maxLetter

theorem letters_append {u v : TPrefix} : Letters (u ++ v) ↔ Letters u ∧ Letters v := by
  simp only [Letters, forall_mem_append]

variable {a : Nat} {hint : NidHint} {w : TPrefix} {nid parent : TNid} {parser : DataParser}
  {left docNode : TNid} {loader : Loader} {hints : List NidHint} {zero : Prop}

theorem letters_singleton : Letters [a] ↔ 1 ≤ a ∧ a ≤ maxLetter := by
  simp [Letters]

theorem letters_replicate (n : Nat) : Letters (List.replicate n 1) := by
  intro a ha
  have hone := (mem_replicate.1 ha).2
  simp only [maxLetter]
  omega

theorem hintCarry_spec (w tail : TPrefix) :
    ∀ t, Letters t →
    hintCarry w.length (w ++ t).length (w ++ t ++ tail) = .error .se2023 ∨
    ∃ t', hintCarry w.length (w ++ t).length (w ++ t ++ tail) = .ok (w ++ t' ++ tail) ∧
      t'.length = t.length ∧ Letters t' ∧ Below t t' := by
  intro t
  -- the loop goes through the letters from the last one
  induction t using reverseRecOn generalizing tail with
  | nil =>
    intro _
    left
    rw [append_nil]
    cases hw : w.length with
    | zero => rfl
    | succ n => rw [hintCarry, if_pos rfl]
  | append_singleton t a ih =>
    intro hlet
    obtain ⟨ht, ha⟩ := letters_append.1 hlet
    obtain ⟨ha, ha'⟩ := letters_singleton.1 ha
    rw [← append_assoc, length_append, length_singleton, append_assoc (w ++ t), singleton_append,
      hintCarry, if_neg (by simp; omega), getD_at rfl, set_at rfl, inc_eq (Nat.lt_succ_of_le ha')]
    dsimp only
    rw [getD_at rfl]
    by_cases htop : a + 1 = alphabetSize
    · rw [if_neg (by simp [htop]), set_at rfl]
      rcases ih (1 :: tail) ht with herror | ⟨t', hok, hlen, hlet', hbel⟩
      · exact .inl herror
      · refine .inr ⟨t' ++ [1], ?_, by simp [hlen], ?_, hbel.append [a] [1]⟩
        · rw [hok]
          simp
        · apply letters_append.2
          exact ⟨hlet', letters_singleton.2 (by decide)⟩
    · rw [if_pos htop]
      refine .inr ⟨t ++ [a + 1], by simp, by simp, ?_, ?_⟩
      · apply letters_append.2
        exact ⟨ht, letters_singleton.2
          ⟨Nat.le_add_left 1 a, Nat.le_of_lt_succ (Nat.lt_of_le_of_ne (Nat.succ_le_succ ha') htop)⟩⟩
      · exact (below_head [] [] (Nat.lt_succ_self a)).append_left t

/-- `label` extends the parent's label by a word of the hint's length. -/
def HintedLabel (hint : NidHint) (parent label : TPrefix) : Prop :=
  ∃ u, label = parent ++ u ∧ u.length = hint.size ∧ Letters u

theorem hintedLabel_append {t : TPrefix} (hlen : t.length + 1 = hint.size) (ht : Letters t)
    (ha : 1 ≤ a) (ha' : a ≤ maxLetter) : HintedLabel hint w ((w ++ t) ++ [a]) := by
  refine ⟨t ++ [a], by simp, by simpa using hlen, ?_⟩
  exact letters_append.2 ⟨ht, letters_singleton.2 ⟨ha, ha'⟩⟩

theorem HintedLabel.last {label : TPrefix} (h : HintedLabel hint w label) (hsize : 1 ≤ hint.size) :
    ∃ t a, label = (w ++ t) ++ [a] ∧ t.length + 1 = hint.size ∧ Letters t ∧ 1 ≤ a ∧
      a ≤ maxLetter := by
  obtain ⟨u, rfl, hlen, hlet⟩ := h
  rcases u.eq_nil_or_concat' with rfl | ⟨t, a, rfl⟩
  · rw [length_nil] at hlen
    omega
  · obtain ⟨ht, ha⟩ := letters_append.1 hlet
    exact ⟨t, a, by simp, by simpa using hlen, ht, letters_singleton.1 ha⟩

theorem HintedLabel.childLabel {label : TPrefix} (h : HintedLabel hint w label)
    (hsize : 1 ≤ hint.size) : ChildLabel w label := by
  obtain ⟨t, a, rfl, -, ht, ha, ha'⟩ := h.last hsize
  have hbytes : ∀ b ∈ t, b ≤ alphabetSize := fun b hb => Nat.le_succ_of_le (ht b hb).2
  have hprop := proper_append hbytes ha ha'
  cases t with
  | nil => exact ⟨a, [], by simp, Nat.lt_succ_of_le ha', hprop⟩
  | cons c t => exact ⟨c, t ++ [a], by simp, Nat.lt_succ_of_le (ht c mem_cons_self).2, hprop⟩

theorem nidGetPrefix_of_nidAssign {p : TPrefix} (h : nidAssign p = .ok nid) :
    nidGetPrefix nid = p := by
  rcases nidAssign_cases p with herror | ⟨nid', hok, hpre⟩
  · rw [herror] at h
    cases h
  · rw [hok] at h
    cases h
    exact hpre

theorem nidCreateChild_hint (hsound : SoundHint hint) (husable : Usable hint)
    (h : nidCreateChild (some hint) parent = .ok nid) :
    HintedLabel hint (nidGetPrefix parent) (nidGetPrefix nid) := by
  have hone := hsound.one_le_size
  have hfour := hsound.size_le husable
  have hmod : (1 + hint.size) % 256 = 1 + hint.size := Nat.mod_eq_of_lt (by omega)
  rw [nidGetPrefix_of_nidAssign h]
  apply hintedLabel_append
  · simp only [length_replicate]
    omega
  · exact letters_replicate _
  · omega
  · simp only [maxLetter]
    omega

theorem nidCreateRight_of_lt {b : Nat} (hleft : nidGetPrefix left = w ++ [a])
    (hb : (a : Int) + hint.increment = b) (hlt : b < alphabetSize) :
    nidCreateRight (some hint) left parent = nidAssign (w ++ [b]) := by
  simp only [alphabetSize] at hlt
  have hbyte : ((b : Int) % 256).toNat = b := by omega
  simp only [nidCreateRight]
  rw [hleft, getD_last, hb, if_pos (by simp only [alphabetSize]; omega), set_last, hbyte]

theorem nidCreateRight_of_ge {t : TPrefix} {b : Nat} (hleft : nidGetPrefix left = (w ++ t) ++ [a])
    (hlen : t.length + 1 = hint.size) (hb : (a : Int) + hint.increment = maxLetter + b)
    (hpos : 1 ≤ b) (hlt : b < 256) :
    nidCreateRight (some hint) left parent =
      (hintCarry w.length (w ++ t).length (w ++ t ++ [b])).bind nidAssign := by
  simp only [maxLetter] at hb
  simp only [nidCreateRight]
  rw [hleft, getD_last, if_neg (by simp only [alphabetSize]; omega), set_last]
  have hbyte : ((hint.increment + (a : Int) - (maxLetter : Nat)) % 256).toNat = b := by
    simp only [maxLetter]
    omega
  have hlimit : ((w ++ t) ++ [b]).length - hint.size = w.length := by
    simp only [length_append, length_singleton]
    omega
  rw [hbyte, hlimit, length_append, length_singleton]
  rfl

/-- `q` is given after `p`; under the increment 0 it is the same label. -/
def Follows (hint : NidHint) (p q : TPrefix) : Prop :=
  hint.increment = 0 ∧ p = q ∨ 0 < hint.increment ∧ Below p q

theorem Follows.trans {p q r : TPrefix} (h : Follows hint p q) (h' : Follows hint q r) :
    Follows hint p r := by
  rcases h with ⟨-, rfl⟩ | ⟨hpos, hbel⟩
  · exact h'
  · rcases h' with ⟨hzero, -⟩ | ⟨-, hbel'⟩
    · omega
    · exact .inr ⟨hpos, hbel.trans hbel'⟩

theorem nidCreateRight_hint (hsound : SoundHint hint) (husable : Usable hint)
    (hleft : HintedLabel hint w (nidGetPrefix left))
    (h : nidCreateRight (some hint) left parent = .ok nid) :
    HintedLabel hint w (nidGetPrefix nid) ∧
      Follows hint (nidGetPrefix left) (nidGetPrefix nid) := by
  have hle := hsound.increment_le
  have hnonneg := hsound.increment_nonneg husable
  obtain ⟨t, a, hlabel, hlen, ht, ha, ha'⟩ := hleft.last hsound.one_le_size
  simp only [maxLetter] at ha'
  by_cases hfits : (a : Int) + hint.increment < 255
  · obtain ⟨b, hb⟩ := Int.eq_ofNat_of_zero_le (by omega : 0 ≤ (a : Int) + hint.increment)
    rw [nidCreateRight_of_lt hlabel hb (by simp only [alphabetSize]; omega)] at h
    rw [nidGetPrefix_of_nidAssign h, hlabel]
    refine ⟨hintedLabel_append hlen ht (by omega) (by simp only [maxLetter]; omega), ?_⟩
    rcases hnonneg.eq_or_lt with hzero | hpos
    · obtain rfl : a = b := by omega
      exact .inl ⟨hzero.symm, rfl⟩
    · exact .inr ⟨hpos, (below_head [] [] (by omega)).append_left (w ++ t)⟩
  · obtain ⟨b, hb⟩ := Int.eq_ofNat_of_zero_le
      (by omega : 0 ≤ (a : Int) + hint.increment - 254)
    rw [nidCreateRight_of_ge hlabel hlen (b := b) (by simp only [maxLetter]; omega)
      (by omega) (by omega)] at h
    rcases hintCarry_spec w [b] t ht with herror | ⟨t', hok, hlen', ht', hbel⟩
    · rw [herror] at h
      cases h
    · rw [hok] at h
      rw [nidGetPrefix_of_nidAssign h, hlabel]
      refine ⟨hintedLabel_append (by omega) ht' (by omega) (by simp only [maxLetter]; omega),
        .inr ⟨by omega, ?_⟩⟩
      rw [append_assoc, append_assoc]
      exact (hbel.append [a] [b]).append_left w

/-! ## Elements of the second pass -/

structure Ordered (hints : List NidHint) (parser : DataParser) : Prop where
  sound : SoundHint parser.hint
  level : parser.hint = hints.getD parser.level ⟨1, defLetter⟩
  follows : Usable parser.hint → parser.hintedLabels.Pairwise (Follows parser.hint)

structure Running (parser : DataParser) : Prop where
  hinted_nil : parser.left = none → parser.hintedLabels = []
  left_label : ∀ child, parser.left = some child → Usable parser.hint →
    HintedLabel parser.hint (nidGetPrefix parser.self) (nidGetPrefix child.nid)
  follows_left : ∀ child, parser.left = some child → Usable parser.hint →
    ∀ label ∈ parser.hintedLabels,
      label = nidGetPrefix child.nid ∨ Follows parser.hint label (nidGetPrefix child.nid)

def DataParser.insert (parser : DataParser) (sizehnt : Option NidHint) (nid : TNid)
    (isText : Bool) : DataParser :=
  { parser with
    left := some ⟨nid, isText⟩
    given := parser.given ++ [⟨sizehnt, nidGetPrefix nid⟩]
    children := parser.children ++ [.mk nid []] }

theorem hintedLabels_insert_none (parser : DataParser) (nid : TNid) (isText : Bool) :
    (parser.insert none nid isText).hintedLabels = parser.hintedLabels := by
  simp [DataParser.insert, DataParser.hintedLabels]

theorem hintedLabels_insert_some (parser : DataParser) (hint : NidHint) (nid : TNid)
    (isText : Bool) :
    (parser.insert (some hint) nid isText).hintedLabels =
      parser.hintedLabels ++ [nidGetPrefix nid] := by
  simp [DataParser.insert, DataParser.hintedLabels]

theorem Ordered.insert_none (h : Ordered hints parser) (nid : TNid) (isText : Bool) :
    Ordered hints (parser.insert none nid isText) := by
  refine ⟨h.sound, h.level, ?_⟩
  rw [hintedLabels_insert_none]
  exact h.follows

structure Continues (parser : DataParser) (label : TPrefix) : Prop where
  shape : HintedLabel parser.hint (nidGetPrefix parser.self) label
  follows : ∀ p ∈ parser.hintedLabels, Follows parser.hint p label
  left : ∀ child, parser.left = some child → Follows parser.hint (nidGetPrefix child.nid) label

theorem Running.continues (h : Running parser) (hsound : SoundHint parser.hint)
    (hnid : createNID (some parser.hint) (parser.left.map Child.nid) none parser.self = .ok nid)
    (husable : Usable parser.hint) : Continues parser (nidGetPrefix nid) := by
  cases hleft : parser.left with
  | none =>
    rw [hleft] at hnid
    refine ⟨nidCreateChild_hint hsound husable hnid, ?_, by simp [hleft]⟩
    rw [h.hinted_nil hleft]
    exact fun _ hp => absurd hp not_mem_nil
  | some child =>
    rw [hleft] at hnid
    have hcreate : nidCreateRight (some parser.hint) child.nid parser.self = .ok nid := hnid
    obtain ⟨hshape, hfollows⟩ := nidCreateRight_hint hsound husable
      (h.left_label child hleft husable) hcreate
    refine ⟨hshape, fun p hp => ?_, fun child' hch' => ?_⟩
    · rcases h.follows_left child hleft husable p hp with rfl | hp
      · exact hfollows
      · exact hp.trans hfollows
    · obtain rfl := Option.some.inj (hleft.symm.trans hch')
      exact hfollows

theorem Ordered.insert_some (h : Ordered hints parser)
    (hnext : Usable parser.hint → Continues parser (nidGetPrefix nid)) (isText : Bool) :
    Ordered hints (parser.insert (some parser.hint) nid isText) := by
  refine ⟨h.sound, h.level, fun husable => ?_⟩
  rw [hintedLabels_insert_some, pairwise_append]
  refine ⟨h.follows husable, pairwise_singleton _ _, fun p hp q hq => ?_⟩
  rw [mem_singleton.1 hq]
  exact (hnext husable).follows p hp

theorem Running.insert (hnext : Usable parser.hint → Continues parser (nidGetPrefix nid))
    (isText : Bool) : Running (parser.insert (some parser.hint) nid isText) := by
  constructor
  · intro hnone
    cases hnone
  · rintro child ⟨⟩ husable
    exact (hnext husable).shape
  · rintro child ⟨⟩ husable label hlabel
    rw [hintedLabels_insert_some] at hlabel
    rcases mem_append.1 hlabel with hlabel | hlabel
    · exact .inr ((hnext husable).follows label hlabel)
    · exact .inl (mem_singleton.1 hlabel)

/-! ## The document -/

/-- A document in which siblings have labels in order, or the same one if there may be an
increment of zero. -/
abbrev Grown (zero : Prop) : DocNode → Prop :=
  LabelledBy fun p q => zero ∧ p = q ∨ Precedes alphabetSize p q

theorem grown_leaf (h : Proper (nidGetPrefix nid)) : Grown zero (.mk nid []) :=
  .node h.ne_nil h.letters (by simp) .nil (by simp)

theorem Grown.append_child {children : List DocNode} (h : Grown zero (.mk parent children))
    (hnew : ChildLabel (nidGetPrefix parent) (nidGetPrefix nid))
    (hlast : ∀ l ∈ children.getLast?, zero ∧ l.label = nidGetPrefix nid ∨
      Precedes alphabetSize l.label (nidGetPrefix nid)) :
    Grown zero (.mk parent (children ++ [.mk nid []])) := by
  cases h with
  | node hne hlet hch hsib hsub =>
    have hprop := hnew.proper hlet
    refine .node hne hlet (forall_mem_append.2 ⟨hch, forall_mem_singleton.2 hnew⟩) ?_
      (forall_mem_append.2 ⟨hsub, forall_mem_singleton.2 (grown_leaf hprop)⟩)
    refine pairwise_append.2 ⟨hsib, pairwise_singleton _ _, fun c hc d hd => ?_⟩
    rw [mem_singleton.1 hd]
    rcases children.eq_nil_or_concat' with rfl | ⟨init, l, rfl⟩
    · cases hc
    · have hl := hlast l (by simp)
      rcases mem_append.1 hc with hc | hc
      · rcases (pairwise_append.1 hsib).2.2 c hc l (by simp) with ⟨-, heq⟩ | hlt
        · rw [heq]
          exact hl
        · rcases hl with ⟨-, heq⟩ | hl
          · rw [heq] at hlt
            exact .inr hlt
          · exact .inr (hlt.trans hprop.letters hl)
      · rw [mem_singleton.1 hc]
        exact hl

structure Sprouts (zero : Prop) (parser : DataParser) : Prop where
  usable : Usable parser.hint
  increment : parser.hint.increment = 0 → zero
  grown : Grown zero (.mk parser.self parser.children)
  left : parser.children.getLast?.map DocNode.nid = parser.left.map Child.nid

theorem Sprouts.insert (h : Sprouts zero parser)
    (hnew : ChildLabel (nidGetPrefix parser.self) (nidGetPrefix nid))
    (hleft : ∀ child, parser.left = some child → zero ∧ nidGetPrefix child.nid = nidGetPrefix nid ∨
      Precedes alphabetSize (nidGetPrefix child.nid) (nidGetPrefix nid))
    (sizehnt : Option NidHint) (isText : Bool) :
    Sprouts zero (parser.insert sizehnt nid isText) := by
  refine ⟨h.usable, h.increment, h.grown.append_child hnew fun l hl => ?_,
    by simp [DataParser.insert, DocNode.nid]⟩
  have hlast := h.left
  rw [Option.mem_def.1 hl] at hlast
  obtain ⟨child, hch, heq⟩ := Option.map_eq_some_iff.1 hlast.symm
  rw [DocNode.label, ← heq]
  exact hleft child hch

theorem Sprouts.insert_hinted (h : Sprouts zero parser) (hsound : SoundHint parser.hint)
    (hnext : Continues parser (nidGetPrefix nid)) (isText : Bool) :
    Sprouts zero (parser.insert (some parser.hint) nid isText) :=
  h.insert (hnext.shape.childLabel hsound.one_le_size)
    (fun child hch => (hnext.left child hch).imp
      (fun heq => ⟨h.increment heq.1, heq.2⟩) fun hlt => .inl hlt.2) _ _

theorem Sprouts.left_label {child : Child} (h : Sprouts zero parser)
    (hch : parser.left = some child) :
    ChildLabel (nidGetPrefix parser.self) (nidGetPrefix child.nid) := by
  obtain ⟨l, hl, heq⟩ := Option.map_eq_some_iff.1 (h.left.trans (congrArg _ hch))
  rw [← heq]
  exact (h.grown.mem_child (mem_of_getLast? hl)).1

theorem Sprouts.insert_unhinted {child : Child} (h : Sprouts zero parser)
    (hch : parser.left = some child)
    (hnid : createNID none (some child.nid) none parser.self = .ok nid) (isText : Bool) :
    Sprouts zero (parser.insert none nid isText) := by
  have hlabel := h.left_label hch
  cases h.grown with
  | node hne hlet hlab =>
    have hleft : ∀ l ∈ some child.nid, ChildLabel (nidGetPrefix parser.self) (nidGetPrefix l) := by
      rintro l ⟨⟩
      exact hlabel
    have hright : ∀ r ∈ (none : Option TNid),
        ChildLabel (nidGetPrefix parser.self) (nidGetPrefix r) := by simp
    rcases createNID_spec hne hlet hleft hright (by simp) with
      herror | ⟨nid', hok, hfits⟩
    · rw [herror] at hnid
      cases hnid
    · obtain rfl := Except.ok.inj (hok.symm.trans hnid)
      refine h.insert hfits.child (fun child' hch' => ?_) _ _
      obtain rfl := Option.some.inj (hch.symm.trans hch')
      exact .inr (hfits.after_left _ rfl)

/-- The element of `inner` is the last child of that of `outer`. -/
def Inside (inner outer : DataParser) : Prop := outer.left.map Child.nid = some inner.self

theorem Sprouts.finish {inner outer : DataParser} (h : Sprouts zero outer)
    (hinner : Sprouts zero inner) (hinside : Inside inner outer) :
    Sprouts zero (outer.finish inner) := by
  have hlast : outer.children.getLast?.map DocNode.nid = some inner.self := h.left.trans hinside
  obtain ⟨l, hl, heq⟩ := Option.map_eq_some_iff.1 hlast
  rw [getLast?_eq_getElem?] at hl
  obtain ⟨hlt, -⟩ := List.getElem?_eq_some_iff.1 hl
  refine ⟨h.usable, h.increment, h.grown.set_child hl hinner.grown heq.symm, ?_⟩
  change _ = outer.left.map Child.nid
  rw [hinside]
  simp [DataParser.finish, getLast?_eq_getElem?, hlt, DocNode.nid]

theorem sprouts_outermost : ∀ (stack : List DataParser) (parser : DataParser),
    (∀ p ∈ parser :: stack, Sprouts zero p) → (parser :: stack).IsChain Inside →
    Sprouts zero (stack.foldl (fun inner outer => outer.finish inner) parser) := by
  intro stack
  induction stack with
  | nil =>
    intro parser h _
    exact h parser mem_cons_self
  | cons outer stack ih =>
    intro parser h hchn
    obtain ⟨hinside, hchn⟩ := isChain_cons_cons.1 hchn
    rw [forall_mem_cons, forall_mem_cons] at h
    apply ih
    · exact forall_mem_cons.2 ⟨h.2.1.finish h.1 hinside, h.2.2⟩
    · cases hchn with
      | singleton => exact .singleton _
      | cons_cons hrel htail => exact .cons_cons hrel htail

/-! ## The loader -/

/-- A load: whether an increment of zero may be among the hints, the document node, and the
hints. -/
structure Load where
  zero : Prop
  docNode : TNid
  hints : List NidHint

structure Tidy (load : Load) : Prop where
  grown : Grown load.zero (.mk load.docNode [])
  usable : ∀ hint ∈ load.hints, Usable hint
  increment : ∀ hint ∈ load.hints, hint.increment = 0 → load.zero

/-- The invariant of the second pass.  Only the innermost element can have its hint in
force: opening a child sets the child's hint, and closing it sets none. -/
structure Labelled (load : Load) (loader : Loader) : Prop where
  numbSchemeHints : loader.numbSchemeHints = load.hints
  ordered : ∀ parser ∈ loader.elements, Ordered load.hints parser
  running : ∀ hint, loader.sizehnt = some hint →
    hint = loader.producer.hint ∧ Running loader.producer
  unhinted : loader.sizehnt = none → loader.producer.left ≠ none
  sprouts : Tidy load → ∀ parser ∈ loader.producer :: loader.producerStack,
    Sprouts load.zero parser
  nested : (loader.producer :: loader.producerStack).IsChain Inside

variable {load : Load}

structure SameLabels (parser parser' : DataParser) : Prop where
  level : parser'.level = parser.level
  self : parser'.self = parser.self
  hint : parser'.hint = parser.hint
  left : parser'.left = parser.left
  given : parser'.given = parser.given
  children : parser'.children = parser.children

section

variable {parser' : DataParser} (hs : SameLabels parser parser')
include hs

theorem SameLabels.ordered (h : Ordered hints parser) : Ordered hints parser' := by
  cases parser'
  obtain ⟨rfl, rfl, rfl, rfl, rfl, rfl⟩ := hs
  exact ⟨h.sound, h.level, h.follows⟩

theorem SameLabels.running (h : Running parser) : Running parser' := by
  cases parser'
  obtain ⟨rfl, rfl, rfl, rfl, rfl, rfl⟩ := hs
  exact ⟨h.hinted_nil, h.left_label, h.follows_left⟩

theorem SameLabels.sprouts (h : Sprouts zero parser) : Sprouts zero parser' := by
  cases parser'
  obtain ⟨rfl, rfl, rfl, rfl, rfl, rfl⟩ := hs
  exact ⟨h.usable, h.increment, h.grown, h.left⟩

end

theorem Labelled.producer_ordered (h : Labelled load loader) :
    Ordered load.hints loader.producer :=
  h.ordered _ mem_cons_self

theorem isChain_setHead {stack : List DataParser} {parser parser' : DataParser}
    (h : (parser :: stack).IsChain Inside) (hself : parser'.self = parser.self) :
    (parser' :: stack).IsChain Inside := by
  cases h with
  | singleton => exact .singleton _
  | cons_cons hrel htail => exact .cons_cons (hrel.trans (congrArg some hself.symm)) htail

theorem Labelled.setProducer (h : Labelled load loader)
    (hself : parser.self = loader.producer.self) (hord : Ordered load.hints parser)
    (hrun : ∀ hint, loader.sizehnt = some hint → hint = parser.hint ∧ Running parser)
    (hunhinted : loader.sizehnt = none → parser.left ≠ none)
    (hsprouts : Tidy load → Sprouts load.zero parser) :
    Labelled load { loader with producer := parser } where
  numbSchemeHints := h.numbSchemeHints
  ordered := forall_mem_cons.2 ⟨hord, (forall_mem_cons.1 h.ordered).2⟩
  running := hrun
  unhinted := hunhinted
  sprouts htidy := forall_mem_cons.2
    ⟨hsprouts htidy, (forall_mem_cons.1 (h.sprouts htidy)).2⟩
  nested := isChain_setHead h.nested hself

theorem keeps_modifyProducer {f : DataParser → DataParser}
    (hf : ∀ parser, SameLabels parser (f parser)) : Keeps (Labelled load) (modifyProducer f) := by
  apply keeps_modify
  intro loader h
  apply h.setProducer (hf _).self
  · exact (hf _).ordered h.producer_ordered
  · intro hint hhint
    obtain ⟨heq, hrun⟩ := h.running hint hhint
    exact ⟨heq.trans (hf _).hint.symm, (hf _).running hrun⟩
  · rw [(hf _).left]
    exact h.unhinted
  · exact fun htidy => (hf _).sprouts (h.sprouts htidy _ mem_cons_self)

structure SameElements (loader loader' : Loader) : Prop where
  hints : loader'.numbSchemeHints = loader.numbSchemeHints
  sizehnt : loader'.sizehnt = loader.sizehnt
  producer : loader'.producer = loader.producer
  producerStack : loader'.producerStack = loader.producerStack
  closed : loader'.closed = loader.closed

theorem keeps_modify_of_same {f : Loader → Loader} (hf : ∀ loader, SameElements loader (f loader)) :
    Keeps (Labelled load) (modify f : LoadM PUnit) := by
  apply keeps_modify
  intro loader h
  have hsame := hf loader
  generalize f loader = loader' at hsame
  cases loader'
  obtain ⟨rfl, rfl, rfl, rfl, rfl⟩ := hsame
  exact ⟨h.numbSchemeHints, h.ordered, h.running, h.unhinted, h.sprouts, h.nested⟩

theorem keeps_setTextBuffer (value : List UInt8) : Keeps (Labelled load) (setTextBuffer value) :=
  keeps_modify_of_same fun _ => ⟨rfl, rfl, rfl, rfl, rfl⟩

theorem keeps_insertNode (isText : Bool) : Keeps (Labelled load) (insertNode isText) := by
  intro loader h
  simp only [insertNode, bind, EStateM.bind, get, getThe, MonadStateOf.get, EStateM.get]
  cases hnid : createNID loader.sizehnt (loader.producer.left.map Child.nid) none
      loader.producer.self with
  | error error => exact h
  | ok nid =>
    have hord := h.producer_ordered
    have hsprouts := fun htidy => h.sprouts htidy _ mem_cons_self
    change Labelled load
      { loader with producer := loader.producer.insert loader.sizehnt nid isText }
    rcases Option.eq_none_or_eq_some loader.sizehnt with hnone | ⟨hint, hhint⟩
    · obtain ⟨child, hch⟩ := Option.ne_none_iff_exists'.1 (h.unhinted hnone)
      rw [hnone, hch] at hnid
      apply h.setProducer
      · rfl
      · rw [hnone]
        exact hord.insert_none nid isText
      · rw [hnone]
        rintro hint ⟨⟩
      · exact fun _ => Option.some_ne_none _
      · rw [hnone]
        exact fun htidy => (hsprouts htidy).insert_unhinted hch hnid isText
    · obtain ⟨rfl, hrun⟩ := h.running hint hhint
      rw [hhint] at hnid
      have hnext := hrun.continues hord.sound hnid
      apply h.setProducer
      · rfl
      · rw [hhint]
        exact hord.insert_some hnext isText
      · rw [hhint]
        rintro hint ⟨⟩
        exact ⟨rfl, .insert hnext isText⟩
      · exact fun _ => Option.some_ne_none _
      · rw [hhint]
        exact fun htidy => (hsprouts htidy).insert_hinted hord.sound
          (hnext (hsprouts htidy).usable) isText

theorem keeps_addTextNode : Keeps (Labelled load) addTextNode := by
  have hmark : Keeps (Labelled load)
      (modifyProducer fun parser => { parser with hasText := true }) :=
    keeps_modifyProducer fun _ => ⟨rfl, rfl, rfl, rfl, rfl, rfl⟩
  refine keeps_get.bind fun loader => ?_
  apply Keeps.ite
  · exact hmark
  · exact (keeps_insertNode true).bind fun _ => hmark

theorem keeps_flushText (strip : Bool) (value : List UInt8) :
    Keeps (Labelled load) (flushText strip value) := by
  refine keeps_get.bind fun loader => ?_
  refine Keeps.ite (keeps_pure _) ?_
  apply Keeps.ite
  · apply keeps_addTextNode.bind
    intro _
    refine Keeps.bind (keeps_modify_of_same ?_) fun _ => keeps_addTextNode
    intro _
    exact ⟨rfl, rfl, rfl, rfl, rfl⟩
  · exact keeps_addTextNode

theorem keeps_processText (strip save breaks : Bool) :
    Keeps (Labelled load) (processText strip save breaks) := by
  have hbreak : Keeps (Labelled load)
      (modifyProducer fun parser => { parser with stripLeftSpaces := false }) :=
    keeps_modifyProducer fun _ => ⟨rfl, rfl, rfl, rfl, rfl, rfl⟩
  refine keeps_get.bind fun loader => ?_
  apply Keeps.ite
  · exact hbreak.ite (keeps_pure _)
  apply (keeps_setTextBuffer _).ite
  apply Keeps.ite
  · refine Keeps.bind (keeps_modifyProducer ?_) fun _ => keeps_setTextBuffer _
    intro _
    exact ⟨rfl, rfl, rfl, rfl, rfl, rfl⟩
  · refine Keeps.bind (keeps_modifyProducer ?_) fun _ => ?_
    · intro _
      exact ⟨rfl, rfl, rfl, rfl, rfl, rfl⟩
    · refine (keeps_flushText _ _).bind fun _ => (keeps_setTextBuffer _).bind fun _ => ?_
      exact hbreak.ite (keeps_pure _)

theorem running_init {level : Nat} {self : TNid} : Running (.init level self hint) := by
  refine ⟨fun _ => rfl, ?_, ?_⟩
  all_goals
    intro child hch
    cases hch

theorem ordered_init {level : Nat} {self : TNid} (hsound : SoundHint hint)
    (hlevel : hint = hints.getD level ⟨1, defLetter⟩) : Ordered hints (.init level self hint) :=
  ⟨hsound, hlevel, fun _ => List.Pairwise.nil⟩

variable (hsound : ∀ hint ∈ load.hints, SoundHint hint)

include hsound in
theorem keeps_openChild : Keeps (Labelled load) openChild := by
  intro loader h
  simp only [openChild, bind, EStateM.bind, get, getThe, MonadStateOf.get, EStateM.get]
  cases hch : loader.producer.left with
  | none => exact h
  | some child =>
    cases hhint : loader.numbSchemeHints[loader.producer.level + 1]? with
    | none => exact h
    | some hint =>
      rw [h.numbSchemeHints] at hhint
      have hmem := mem_of_getElem? hhint
      have hsame : SameLabels loader.producer { loader.producer with
          left := some child, nextChildNamespaces := 0 } :=
        ⟨rfl, rfl, rfl, hch.symm, rfl, rfl⟩
      constructor
      · exact h.numbSchemeHints
      · exact forall_mem_cons.2 ⟨ordered_init (hsound hint hmem) (by simp [hhint]),
          forall_mem_cons.2 ⟨hsame.ordered h.producer_ordered, (forall_mem_cons.1 h.ordered).2⟩⟩
      · rintro hint ⟨⟩
        exact ⟨rfl, running_init⟩
      · intro hnone
        cases hnone
      · intro htidy
        obtain ⟨hproducer, hstack⟩ := forall_mem_cons.1 (h.sprouts htidy)
        refine forall_mem_cons.2 ⟨⟨htidy.usable hint hmem, htidy.increment hint hmem, ?_, rfl⟩,
          forall_mem_cons.2 ⟨hsame.sprouts hproducer, hstack⟩⟩
        cases hproducer.grown with
        | node _ hlet => exact grown_leaf ((hproducer.left_label hch).proper hlet)
      · exact .cons_cons rfl (isChain_setHead h.nested rfl)

include hsound in
theorem keeps_addElement : Keeps (Labelled load) addElement := by
  apply (keeps_processText _ _ _).bind
  intro _
  apply (keeps_insertNode _).bind
  intro _
  refine keeps_get.bind fun loader => ?_
  apply (keeps_openChild hsound).bind
  intro _
  exact keeps_forM (fun _ => keeps_insertNode _) _

theorem keeps_addText (value : List UInt8) : Keeps (Labelled load) (addText value) := by
  have happend : ∀ rest, Keeps (Labelled load) (modify fun loader =>
      { loader with textBuffer := loader.textBuffer ++ value.drop rest } : LoadM PUnit) :=
    fun _ => keeps_modify_of_same fun _ => ⟨rfl, rfl, rfl, rfl, rfl⟩
  refine (keeps_throw _).ite ?_
  refine keeps_get.bind fun loader => ?_
  apply Keeps.ite
  · apply (keeps_setTextBuffer _).bind
    intro _
    apply (keeps_processText _ _ _).bind
    intro _
    refine keeps_get.bind fun loader' => ?_
    apply Keeps.ite
    · refine Keeps.bind (keeps_modify_of_same ?_) fun _ => happend _
      intro _
      exact ⟨rfl, rfl, rfl, rfl, rfl⟩
    · exact happend _
  · exact keeps_setTextBuffer _

theorem keeps_close : Keeps (Labelled load) close := by
  apply (keeps_processText _ _ _).bind
  intro _ loader h
  simp only [bind, EStateM.bind, get, getThe, MonadStateOf.get, EStateM.get]
  cases hstack : loader.producerStack with
  | nil => exact h
  | cons outer stack =>
    have hnested := h.nested
    rw [hstack] at hnested
    obtain ⟨hinside, hchn⟩ := isChain_cons_cons.1 hnested
    have hord : ∀ p ∈ loader.elements, Ordered load.hints p := h.ordered
    rw [Loader.elements, hstack, cons_append, forall_mem_cons, forall_mem_cons,
      forall_mem_append] at hord
    obtain ⟨hinner, houter, hoth, hclosed⟩ := hord
    constructor
    · exact h.numbSchemeHints
    · exact forall_mem_cons.2 ⟨⟨houter.sound, houter.level, houter.follows⟩,
        forall_mem_append.2 ⟨hoth, forall_mem_cons.2 ⟨hinner, hclosed⟩⟩⟩
    · rintro hint ⟨⟩
    · intro _ hnone
      rw [Inside, show outer.left = none from hnone] at hinside
      cases hinside
    · intro htidy
      have hsprouts := h.sprouts htidy
      rw [hstack, forall_mem_cons, forall_mem_cons] at hsprouts
      exact forall_mem_cons.2 ⟨hsprouts.2.1.finish hsprouts.1 hinside, hsprouts.2.2⟩
    · exact isChain_setHead hchn rfl

include hsound in
theorem keeps_call {Q : Type} (c : Call Q) : Keeps (Labelled load) (call c) := by
  have hins : Keeps (Labelled load) (do processText false false true; insertNode false) :=
    (keeps_processText _ _ _).bind fun _ => keeps_insertNode _
  cases c with
  | addNS =>
    rw [call]
    apply keeps_modifyProducer
    intro _
    exact ⟨rfl, rfl, rfl, rfl, rfl, rfl⟩
  | addElement qname => exact keeps_addElement hsound
  | addAttribute qname => exact keeps_insertNode _
  | addText value => exact keeps_addText value
  | addComment => exact hins
  | addPI => exact hins
  | close => exact keeps_close
  | startCData | endCData =>
    refine (keeps_processText _ _ _).bind fun _ => keeps_modify_of_same ?_
    intro _
    exact ⟨rfl, rfl, rfl, rfl, rfl⟩

theorem labelled_start {strip : Bool} (hhint : hint = load.hints.getD 0 ⟨1, defLetter⟩)
    (hsound : SoundHint hint)
    (hsprouts : Tidy load → Sprouts load.zero (.init 0 load.docNode hint)) :
    Labelled load (.start load.hints hint strip load.docNode) := by
  constructor
  · rfl
  · exact forall_mem_singleton.2 (ordered_init hsound hhint)
  · rintro hint ⟨⟩
    exact ⟨rfl, running_init⟩
  · intro hnone
    cases hnone
  · exact fun htidy => forall_mem_singleton.2 (hsprouts htidy)
  · exact .singleton _

variable (zero) in
theorem loadDocument_labelled {Q : Type} [DecidableEq Q] (indefinite : Int32) (strip : Bool)
    (docNode : TNid) (calls : List (Call Q)) :
    Labelled ⟨zero, docNode, numbSchemeHints indefinite (nodeStatistics strip calls)⟩
      (finalState (loadDocument indefinite strip docNode calls)) := by
  have hhints : ∀ h ∈ numbSchemeHints indefinite (nodeStatistics strip calls), SoundHint h := by
    intro h hh
    obtain ⟨statistic, -, rfl⟩ := mem_map.1 hh
    exact nidHint_sound indefinite statistic
  apply keeps_forM (keeps_call hhints)
  apply labelled_start rfl
  · cases hlevels : numbSchemeHints indefinite (nodeStatistics strip calls) with
    | nil =>
      show SoundHint ⟨1, defLetter⟩
      exact ⟨by decide, by decide, fun _ => by decide, fun _ => by decide⟩
    | cons h hs =>
      rw [hlevels] at hhints
      exact hhints h mem_cons_self
  · intro htidy
    cases hlevels : numbSchemeHints indefinite (nodeStatistics strip calls) with
    | nil =>
      exact ⟨.inl (by simp [DataParser.init]), by simp [DataParser.init, defLetter], htidy.grown,
        rfl⟩
    | cons h hs =>
      have hmem : h ∈ numbSchemeHints indefinite (nodeStatistics strip calls) := by simp [hlevels]
      exact ⟨htidy.usable h hmem, htidy.increment h hmem, htidy.grown, rfl⟩

theorem Ordered.pairwise (h : Ordered hints parser) (hinc : 0 < parser.hint.increment) :
    parser.hintedLabels.Pairwise fun a b => lexCmp a b < 0 ∧ a ≠ b := by
  apply (h.follows (.inr hinc)).imp
  intro a b hfollows
  have hcmp := (lexCmp_below (hfollows.resolve_left fun heq => hinc.ne' heq.1).2).1
  refine ⟨by omega, ?_⟩
  intro heq
  rw [heq, lexCmp_self] at hcmp
  omega

theorem loadDocument_grown {Q : Type} [DecidableEq Q] (indefinite : Int32) (strip : Bool)
    {docNode : TNid} (calls : List (Call Q)) (hdoc : WellLabelled (.mk docNode []))
    (hcount : ∀ n ∈ nodeStatistics strip calls, n ≤ 16387064) :
    Grown (∃ n ∈ nodeStatistics strip calls, n ∈ zeroCounts)
      (finalState (loadDocument indefinite strip docNode calls)).document := by
  have hlabelled := loadDocument_labelled (∃ n ∈ nodeStatistics strip calls, n ∈ zeroCounts)
    indefinite strip docNode calls
  refine (sprouts_outermost _ _ (hlabelled.sprouts ⟨?_, ?_, ?_⟩) hlabelled.nested).grown
  · cases hdoc with
    | node hne hlet => exact .node hne hlet (by simp) .nil (by simp)
  · intro hint hhint
    obtain ⟨n, hn, rfl⟩ := mem_map.1 hhint
    exact .inl (nidHint_size_le_three indefinite (hcount n hn))
  · intro hint hhint hzero
    obtain ⟨n, hn, rfl⟩ := mem_map.1 hhint
    refine ⟨n, hn, not_not.1 fun hnot => ?_⟩
    have hpos := (nidHint_increment_pos_iff indefinite (hcount n hn)).2 hnot
    omega

/-- The labels given under a hint increase when the hint has a positive increment, and
whenever at most one label was given.  Where the power of 254 fits an `int` these are the
only cases, and the increment is positive but for six counts. -/
theorem hinted_labels_increase {Q : Type} [DecidableEq Q] (indefinite : Int32) (strip : Bool)
    (docNode : TNid) (calls : List (Call Q)) :
    ∀ parser ∈ (finalState (loadDocument indefinite strip docNode calls)).elements,
      ((2 ≤ parser.hintedLabels.length → 0 < parser.hint.increment) →
        parser.hintedLabels.Pairwise fun a b => lexCmp a b < 0 ∧ a ≠ b) ∧
      (parser.hint.size ≤ 3 →
        (parser.hintedLabels.Pairwise fun a b => lexCmp a b < 0 ∧ a ≠ b) →
        2 ≤ parser.hintedLabels.length → 0 < parser.hint.increment) ∧
      ∀ n ∈ (nodeStatistics strip calls)[parser.level]?, n ≤ 16387064 →
        (0 < parser.hint.increment ↔ n ∉ zeroCounts) := by
  intro parser hparser
  have hord :=
    (loadDocument_labelled True indefinite strip docNode calls).ordered parser hparser
  refine ⟨?_, ?_, ?_⟩
  · intro hcond
    by_cases htwo : 2 ≤ parser.hintedLabels.length
    · exact hord.pairwise (hcond htwo)
    · match hlab : parser.hintedLabels with
      | [] => exact List.Pairwise.nil
      | [a] => exact pairwise_singleton _ _
      | a :: b :: labels =>
        rw [hlab] at htwo
        simp only [length_cons] at htwo
        omega
  · intro hsize hpairwise htwo
    by_contra hinc
    have hfollows := hord.follows (.inl hsize)
    match hlab : parser.hintedLabels with
    | [] =>
      rw [hlab] at htwo
      simp at htwo
    | [a] =>
      rw [hlab] at htwo
      simp at htwo
    | a :: b :: labels =>
      rw [hlab] at hpairwise hfollows
      have hne := (rel_of_pairwise_cons hpairwise mem_cons_self).2
      rcases rel_of_pairwise_cons hfollows mem_cons_self with ⟨-, heq⟩ | ⟨hpos, -⟩
      · exact hne heq
      · exact hinc hpos
  · intro n hn hle
    have hhint : parser.hint = nidHint indefinite n := by
      rw [hord.level, numbSchemeHints, getD_eq_getElem?_getD, List.getElem?_map, hn]
      rfl
    rw [hhint]
    exact nidHint_increment_pos_iff indefinite hle

/-- An element with two attributes. -/
theorem two_attributes_increase :
    ∃ parser ∈ (finalState (loadDocument 0 true (.internal [1])
        (elementStart 0 [1, 2] ++ [.close]))).elements,
      parser.hintedLabels = [[1, 2, 2], [1, 2, 27]] ∧
      parser.hintedLabels.Pairwise fun a b => lexCmp a b < 0 ∧ a ≠ b := by
  have helements : (finalState (loadDocument 0 true (.internal [1])
      (elementStart 0 [1, 2] ++ [.close]))).elements.map
        (fun parser => (parser.hintedLabels, parser.hint.increment)) =
      [([[1, 2]], 25), ([[1, 2, 2], [1, 2, 27]], 25)] := by
    decide +kernel
  obtain ⟨parser, hmem, heq⟩ := mem_map.1 (helements ▸ mem_cons_of_mem _ mem_cons_self)
  obtain ⟨hlab, hincrement⟩ := Prod.mk.inj heq
  refine ⟨parser, hmem, hlab, (hinted_labels_increase _ _ _ _ parser hmem).1 fun _ => ?_⟩
  rw [hincrement]
  decide

/-- An element with 253 attributes: every attribute gets the label of the first one. -/
theorem attributes_share_label :
    (finalState (loadDocument 0 true (.internal [1])
      (elementStart 0 (List.range 253) ++ [.close]))).elements.map DataParser.hintedLabels =
        [[[1, 2]], List.replicate 253 [1, 2, 2]] ∧
    ¬ (List.replicate 253 [1, 2, 2]).Pairwise fun a b => lexCmp a b < 0 ∧ a ≠ b := by
  constructor
  · decide +kernel
  · intro h
    have hpair : ([1, 2, 2] : TPrefix) :: [1, 2, 2] :: replicate 251 [1, 2, 2] =
        replicate 253 [1, 2, 2] := by
      rw [← replicate_succ, ← replicate_succ]
    exact (rel_of_pairwise_cons h mem_cons_self).2 rfl

end Sedna.Nid.BulkLoad
