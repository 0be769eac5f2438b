import Sedna.Btree.Search

/-!
# Well-formed trees and the way down

A well-formed tree is a list of leaf units, each a single page or a cluster,
chained by their next links, with separators above them.  A search goes down to
the unit that the key belongs to.
-/

namespace Sedna.Btree

open List

variable {P K O : Type} [LinearOrder K]

/-! ## Bisection -/

section

variable {keys : List K} {key : K} (hs : keys.Pairwise (· < ·))

end

/-- A leaf page, or a cluster.  A page of a cluster before its tail holds objects of the key of the
cluster, or has lost its objects and the key with them; the tail has other keys after it. -/
inductive LeafUnit (P K O : Type) where
  | single (p : P) (entries : List (K × List O))
  | cluster (head : P × Option (List O)) (middle : List (P × Option (List O))) (tail : P) (key : K)
      (tailObjs : List O) (rest : List (K × List O))

def nextPage (front : List (P × Option (List O))) (tail : P) : P :=
  match front with
  | [] => tail
  | (p, _) :: _ => p

def FrontAt (pages : P → Option (Page P K O)) (key : K) (tail : P) :
    Bool → List (P × Option (List O)) → Prop
  | _, [] => True
  | isHead, (p, objs) :: front =>
    pages p = some ⟨some (nextPage front tail), true, isHead, false,
      .leaf (objs.toList.map fun objs => (key, objs))⟩ ∧
    FrontAt pages key tail false front

namespace LeafUnit

def first : LeafUnit P K O → P
  | .single p _ => p
  | .cluster head .. => head.1

def last : LeafUnit P K O → P
  | .single p _ => p
  | .cluster _ _ tail .. => tail

def keys : LeafUnit P K O → List K
  | .single _ entries => entries.map Prod.fst
  | .cluster _ _ _ key _ rest => key :: rest.map Prod.fst

def At (pages : P → Option (Page P K O)) (next : Option P) : LeafUnit P K O → Prop
  | .single p entries => pages p = some ⟨next, false, false, false, .leaf entries⟩
  | .cluster head middle tail key tailObjs rest =>
    FrontAt pages key tail true (head :: middle) ∧
    pages tail = some ⟨next, true, false, true, .leaf ((key, tailObjs) :: rest)⟩

end LeafUnit

def ChainAt (pages : P → Option (Page P K O)) : List (LeafUnit P K O) → Prop
  | [] => True
  | u :: units => u.At pages (units.head?.map LeafUnit.first) ∧ ChainAt pages units

def allKeys (units : List (LeafUnit P K O)) : List K := units.flatMap LeafUnit.keys

/-- The page `p` at some height spans the units.  Pages on the left spine have a leftmost pointer,
the others have none.  A separator bounds the keys on both of its sides; only that of a leaf has to
be a key itself, since a deletion does not reach all pages above. -/
def TreeAt (pages : P → Option (Page P K O)) : Nat → P → Bool → List (LeafUnit P K O) → Prop
  | 0, p, _, units => ∃ u, units = [u] ∧ u.first = p
  | height + 1, p, spine, units => ∃ page lmp entries front,
    ∃ below : List (List (LeafUnit P K O)),
      pages p = some page ∧ page.body = .nonLeaf lmp entries ∧ units = front ++ below.flatten ∧
      (if spine then ∃ l, lmp = some l ∧ TreeAt pages height l true front
        else lmp = none ∧ front = []) ∧
      entries ≠ [] ∧ (entries.map Prod.fst).Pairwise (· < ·) ∧ below.length = entries.length ∧
      ∀ i e us, entries[i]? = some e → below[i]? = some us →
        TreeAt pages height e.2 false us ∧
        (∀ k ∈ allKeys (front ++ (below.take i).flatten), k < e.1) ∧ (∀ k ∈ allKeys us, e.1 ≤ k) ∧
        (height = 0 → (allKeys us).head? = some e.1)

/-- Only the leftmost leaf can be empty: above any other one there is a separator. -/
structure WellFormed (pages : P → Option (Page P K O)) (root : P) (height : Nat)
    (units : List (LeafUnit P K O)) : Prop where
  tree : TreeAt pages height root true units
  chain : ChainAt pages units
  sorted : (allKeys units).Pairwise (· < ·)
  nonempty : ∀ u ∈ units.tail, u.keys ≠ []

/-! ## Going down -/

/-- The unit that a key belongs to: smaller keys before it, bigger keys after it, and keys up
to the key in it, unless it is the first. -/
structure Splits (units pre : List (LeafUnit P K O)) (u : LeafUnit P K O)
    (post : List (LeafUnit P K O)) (key : K) : Prop where
  eq : units = pre ++ u :: post
  before : ∀ k ∈ allKeys pre, k < key
  after : ∀ k ∈ allKeys post, key < k
  start : (∃ k ∈ u.keys, k ≤ key) ∨ pre = []

omit [LinearOrder K] in
theorem allKeys_append (us vs : List (LeafUnit P K O)) :
    allKeys (us ++ vs) = allKeys us ++ allKeys vs := flatMap_append

omit [LinearOrder K] in
theorem mem_allKeys {units : List (LeafUnit P K O)} {u : LeafUnit P K O} {k : K}
    (hu : u ∈ units) (hk : k ∈ u.keys) : k ∈ allKeys units :=
  mem_flatMap.2 ⟨u, hu, hk⟩

section

variable {units pre pre' post post' : List (LeafUnit P K O)} {u u' : LeafUnit P K O} {key : K}

theorem Splits.not_inside (h : Splits units pre u post key) (h' : Splits units pre' u' post' key)
    {as : List (LeafUnit P K O)} (hpre : pre' = pre ++ as) (hpost : u :: post = as ++ u' :: post') :
    as = [] := by
  cases as with
  | nil => rfl
  | cons v as =>
    cases hpost
    rcases h'.start with ⟨k, hk, hle⟩ | hnil
    · exact absurd (h.after k (mem_allKeys (by simp) hk)) (not_lt_of_ge hle)
    · rw [hnil] at hpre
      cases (append_eq_nil_iff.1 hpre.symm).2

theorem Splits.unique (h : Splits units pre u post key) (h' : Splits units pre' u' post' key) :
    u = u' ∧ post = post' := by
  rcases append_eq_append_iff.1 (h.eq.symm.trans h'.eq) with ⟨as, hpre, hpost⟩ | ⟨as, hpre, hpost⟩
  · obtain rfl := h.not_inside h' hpre hpost
    exact cons_eq_cons.1 hpost
  · obtain rfl := h'.not_inside h hpre hpost
    exact cons_eq_cons.1 hpost.symm

end

section

variable {entries : List (K × P)} {key : K} {n : Nat}

variable (hs : (entries.map Prod.fst).Pairwise (· < ·))
include hs

end

section

variable {pages : P → Option (Page P K O)} {key : K}

theorem Splits.widen {A B C pre post : List (LeafUnit P K O)} {u : LeafUnit P K O}
    (h : Splits B pre u post key) (hA : ∀ k ∈ allKeys A, k < key) (hC : ∀ k ∈ allKeys C, key < k)
    (hsta : A = [] ∨ ∃ k ∈ u.keys, k ≤ key) :
    Splits (A ++ (B ++ C)) (A ++ pre) u (post ++ C) key := by
  constructor
  · simp [h.eq]
  · intro k hk
    rw [allKeys_append, mem_append] at hk
    exact hk.elim (hA k) (h.before k)
  · intro k hk
    rw [allKeys_append, mem_append] at hk
    exact hk.elim (h.after k) (hC k)
  · rcases hsta with rfl | hsta
    · exact h.start
    · exact .inl hsta

end

end Sedna.Btree
