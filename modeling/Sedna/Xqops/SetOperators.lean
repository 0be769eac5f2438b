import Mathlib
import Sedna.Library.PullIterator

/-!
# Union, intersection and difference of node sequences

`PPUnion`, `PPIntersect` and `PPExcept` merge two inputs in document order.  They hold one item of
each input, and flags say which input has to give the next one.  An input starts again after the
end of its sequence.
-/

namespace Sedna.Xqops.SetOperators

open Library.PullIterator List

/-- One input with the fields that belong to it.  `rest` is what the child returns before its
end, and `XNULL` is no `xptr`. -/
structure Side (N : Type*) where
  items : List N
  rest : List N
  xptr : Option N
  tug : Bool
  needReopen : Bool

/-- The items of the first input only, of both, and of the second only are returned or not. -/
structure Op where
  first : Bool
  both : Bool
  second : Bool

def ppUnion : Op := ⟨true, true, true⟩

def ppIntersect : Op := ⟨false, true, false⟩

def ppExcept : Op := ⟨true, false, false⟩

variable {N : Type*} {items items' p q : List N}

def Side.open (items : List N) : Side N := ⟨items, items, none, true, false⟩

@[simp]
def Side.reopen (s : Side N) : Side N :=
  if s.needReopen then { s with rest := s.items, needReopen := false } else s

def Side.pull (s : Side N) : Side N :=
  if s.tug then
    match s.rest with
    | [] => { s with rest := s.items, xptr := none, tug := false }
    | x :: rest => { s with rest, xptr := some x, tug := false }
  else s

/-! ## The states between two calls -/

def holding (items : List N) : List N → Side N
  | [] => ⟨items, items, none, false, false⟩
  | x :: rest => ⟨items, rest, some x, false, false⟩

def At (items p : List N) (s : Side N) : Prop :=
  s.reopen.pull = holding items p ∧ s.items = items ∧ p.length ≤ items.length

theorem at_open : At items items (.open items) := by
  cases items <;> exact ⟨rfl, rfl, le_rfl⟩

theorem at_holding (h : p.length ≤ items.length) : At items p (holding items p) := by
  cases p <;> exact ⟨rfl, rfl, h⟩

theorem at_tug {x : N} (h : (x :: p).length ≤ items.length) :
    At items p { holding items (x :: p) with tug := true } := by
  cases p <;> exact ⟨rfl, rfl, Nat.le_of_succ_le h⟩

theorem at_eos : At items items { holding items [] with tug := true } := by
  cases items <;> exact ⟨rfl, rfl, le_rfl⟩

theorem at_left {x : N} :
    At items items { holding items (x :: p) with tug := true, needReopen := true } := by
  cases items <;> exact ⟨rfl, rfl, le_rfl⟩

variable [LinearOrder N]

/-- `xptr_compare` for nodes in document order: `XNULL` is behind all of them. -/
@[simp]
def xptrCompare : Option N → Option N → Ordering
  | none, none => .eq
  | none, some _ => .gt
  | some _, none => .lt
  | some x, some y => cmp x y

variable (op : Op)

def switch (a b : Side N) : Option (Option N) × Side N × Side N :=
  match xptrCompare a.xptr b.xptr with
  | .lt =>
    if op.first then (some a.xptr, { a with tug := true }, b)
    else if b.xptr = none then
      (some none, { a with tug := true, needReopen := true }, { b with tug := true })
    else (none, { a with tug := true }, b)
  | .eq =>
    (if op.both || a.xptr = none then some a.xptr else none, { a with tug := true },
      { b with tug := true })
  | .gt =>
    if op.second then (some b.xptr, a, { b with tug := true })
    else if a.xptr = none then
      (some none, { a with tug := true }, { b with tug := true, needReopen := true })
    else (none, a, { b with tug := true })

/-- The loop of `do_next`; the one round of `PPUnion` always returns. -/
def loop (op : Op) : Nat → Side N → Side N → Option N × Side N × Side N
  | 0, a, b => (none, a, b)
  | fuel + 1, a, b =>
    match switch op a.pull b.pull with
    | (some result, s) => (result, s)
    | (none, a, b) => loop op fuel a b

/-- `do_next`.  A round of the loop uses up an item, so there are enough of them. -/
def doNext (s : Side N × Side N) : Option N × Side N × Side N :=
  loop op (s.1.items.length + s.2.items.length + 1) s.1.reopen s.2.reopen

/-! ## What a merge returns -/

def combine (op : Op) : List N → List N → List N
  | [], q => if op.second then q else []
  | x :: p, [] => if op.first then x :: p else []
  | x :: p, y :: q =>
    match cmp x y with
    | .lt => (if op.first then [x] else []) ++ combine op p (y :: q)
    | .eq => (if op.both then [x] else []) ++ combine op p q
    | .gt => (if op.second then [y] else []) ++ combine op (x :: p) q
  termination_by p q => p.length + q.length

def Op.selects (first second : Prop) : Prop :=
  first ∧ ¬ second ∧ op.first ∨ first ∧ second ∧ op.both ∨ ¬ first ∧ second ∧ op.second

theorem combine_nil : combine op p [] = if op.first then p else [] := by
  cases p <;> simp [combine]

theorem emit_spec {c : Bool} {x : N} {l : List N} (hl : l.Pairwise (· < ·))
    (hx : ∀ z ∈ l, x < z) :
    ((if c then [x] else []) ++ l).Pairwise (· < ·) ∧
      ∀ z, z ∈ (if c then [x] else []) ++ l ↔ (z = x ∧ c) ∨ z ∈ l := by
  cases c <;> simp_all

theorem combine_spec (hp : p.Pairwise (· < ·)) (hq : q.Pairwise (· < ·)) :
    (combine op p q).Pairwise (· < ·) ∧ ∀ z, z ∈ combine op p q ↔ op.selects (z ∈ p) (z ∈ q) := by
  fun_induction combine op p q with
  | case1 | case2 | case3 | case4 => simp_all [Op.selects]
  | case5 x p y q hcmp ih =>
    have hlt := (cmp_eq_lt_iff _ _).1 hcmp
    obtain ⟨hsort, hmem⟩ := ih hp.of_cons hq
    rw [pairwise_cons] at hp hq
    obtain ⟨hemit, hmem'⟩ := @emit_spec _ _ op.first x _ hsort (by grind [Op.selects])
    exact ⟨hemit, fun z => by grind [Op.selects]⟩
  | case6 x p y q hcmp ih =>
    obtain rfl := (cmp_eq_eq_iff _ _).1 hcmp
    obtain ⟨hsort, hmem⟩ := ih hp.of_cons hq.of_cons
    rw [pairwise_cons] at hp hq
    obtain ⟨hemit, hmem'⟩ := @emit_spec _ _ op.both x _ hsort (by grind [Op.selects])
    exact ⟨hemit, fun z => by grind [Op.selects]⟩
  | case7 x p y q hcmp ih =>
    have hlt := (cmp_eq_gt_iff _ _).1 hcmp
    obtain ⟨hsort, hmem⟩ := ih hp hq.of_cons
    rw [pairwise_cons] at hp hq
    obtain ⟨hemit, hmem'⟩ := @emit_spec _ _ op.second y _ hsort (by grind [Op.selects])
    exact ⟨hemit, fun z => by grind [Op.selects]⟩

/-- A call that has to return the items of a list returned the first of them, or the end and
is ready to start again. -/
def Returned (items items' zs : List N) (r : Option N × Side N × Side N) : Prop :=
  r.1 = zs.head? ∧ ∃ p q, At items p r.2.1 ∧ At items' q r.2.2 ∧
    if zs = [] then p = items ∧ q = items' else combine op p q = zs.tail

theorem returned_eos {a b : Side N} (ha : At items items a) (hb : At items' items' b) :
    Returned op items items' [] (none, a, b) :=
  ⟨rfl, _, _, ha, hb, rfl, rfl⟩

theorem returned_item {a b : Side N} (z : N) (ha : At items p a) (hb : At items' q b) :
    Returned op items items' (z :: combine op p q) (some z, a, b) :=
  ⟨rfl, _, _, ha, hb, rfl⟩

theorem loop_returned {fuel : Nat} {a b : Side N} (ha : At items p a)
    (hb : At items' q b) (hfuel : p.length + q.length < fuel) :
    Returned op items items' (combine op p q) (loop op fuel a.reopen b.reopen) := by
  induction fuel generalizing a b p q with
  | zero => omega
  | succ fuel ih =>
    obtain ⟨ha, -, hp⟩ := ha
    obtain ⟨hb, -, hq⟩ := hb
    rw [loop, ha, hb, switch.eq_def]
    -- the side that holds the smaller item is pulled, and the loop goes on if it is not returned
    rcases p with _ | ⟨x, p⟩ <;> rcases q with _ | ⟨y, q⟩
    · simpa [holding, combine] using returned_eos op at_eos at_eos
    · cases h : op.second
      · simpa [holding, combine, h] using returned_eos op at_eos at_left
      · simpa [holding, combine, h] using returned_item op y (at_holding hp) (at_tug hq)
    · cases h : op.first
      · simpa [holding, combine, h] using returned_eos op at_left at_eos
      · simpa [holding, combine_nil, h] using returned_item op x (at_tug hp) (at_holding hq)
    · rw [combine]
      cases hcmp : cmp x y
      · have hnext := @ih _ _ _ _ (at_tug hp) (at_holding hq) (by grind)
        cases h : op.first
        · simpa [holding, hcmp, h] using hnext
        · simpa [holding, hcmp, h] using returned_item op x (at_tug hp) (at_holding hq)
      · have hnext := @ih _ _ _ _ (at_tug hp) (at_tug hq) (by grind)
        cases h : op.both
        · simpa [holding, hcmp, h] using hnext
        · simpa [holding, hcmp, h] using returned_item op x (at_tug hp) (at_tug hq)
      · have hnext := @ih _ _ _ _ (at_holding hp) (at_tug hq) (by grind)
        cases h : op.second
        · simpa [holding, hcmp, h] using hnext
        · simpa [holding, hcmp, h] using returned_item op y (at_holding hp) (at_tug hq)

theorem doNext_returned {s : Side N × Side N} (h1 : At items p s.1)
    (h2 : At items' q s.2) : Returned op items items' (combine op p q) (doNext op s) :=
  loop_returned op h1 h2 (by have := h1.2; have := h2.2; grind)

def Ready (xs ys : List N) (s : Side N × Side N) : Prop := At xs xs s.1 ∧ At ys ys s.2

theorem produces_combine {xs ys : List N} {s : Side N × Side N} (h : Ready xs ys s) :
    ∃ s', Produces (doNext op) s (combine op xs ys) s' ∧ Ready xs ys s' := by
  refine produces_of_step
    (fun s zs => ∃ p q, At xs p s.1 ∧ At ys q s.2 ∧ combine op p q = zs) (Ready xs ys) ?_ ?_
    ⟨xs, ys, h.1, h.2, rfl⟩
  · rintro s ⟨p, q, h1, h2, hcombine⟩
    obtain ⟨hres, p', q', h1', h2', hrest⟩ := hcombine ▸ doNext_returned op h1 h2
    obtain ⟨rfl, rfl⟩ := hrest
    exact ⟨_, Prod.ext hres rfl, h1', h2'⟩
  · rintro s z zs ⟨p, q, h1, h2, hcombine⟩
    obtain ⟨hres, p', q', h1', h2', hrest⟩ := hcombine ▸ doNext_returned op h1 h2
    exact ⟨_, Prod.ext hres rfl, p', q', h1', h2', hrest⟩

def Repeats (op : Op) (zs : List N) : Nat → Side N × Side N → Prop
  | 0, _ => True
  | n + 1, s => ∃ s', Produces (doNext op) s zs s' ∧ Repeats op zs n s'

theorem repeats_combine {xs ys : List N} (n : Nat) {s : Side N × Side N}
    (h : Ready xs ys s) : Repeats op (combine op xs ys) n s := by
  induction n generalizing s with
  | zero => trivial
  | succ n ih =>
    obtain ⟨s', hprod, hready⟩ := produces_combine op h
    exact ⟨s', hprod, ih hready⟩

/-- The operator returns the nodes of a set in document order, each once, however often it is
evaluated. -/
def Computes (xs ys : List N) (nodes : Set N) : Prop :=
  ∃ zs : List N, zs.Pairwise (· < ·) ∧ (∀ z, z ∈ zs ↔ z ∈ nodes) ∧
    ∀ n, Repeats op zs n (.open xs, .open ys)

theorem nodeSetOperators_exact {xs ys : List N} (hxs : xs.Pairwise (· < ·))
    (hys : ys.Pairwise (· < ·)) :
    Computes ppUnion xs ys ({z | z ∈ xs} ∪ {z | z ∈ ys}) ∧
    Computes ppIntersect xs ys ({z | z ∈ xs} ∩ {z | z ∈ ys}) ∧
    Computes ppExcept xs ys ({z | z ∈ xs} \ {z | z ∈ ys}) := by
  have hcomputes (op : Op) (nodes : Set N)
      (h : ∀ z, op.selects (z ∈ xs) (z ∈ ys) ↔ z ∈ nodes) : Computes op xs ys nodes := by
    obtain ⟨hsort, hmem⟩ := combine_spec op hxs hys
    exact ⟨_, hsort, fun z => (hmem z).trans (h z),
      fun n => repeats_combine op n ⟨at_open, at_open⟩⟩
  refine ⟨hcomputes _ _ fun z => ?_, hcomputes _ _ fun z => ?_, hcomputes _ _ fun z => ?_⟩
  · simp [Op.selects, ppUnion]
    tauto
  · simp [Op.selects, ppIntersect]
  · simp [Op.selects, ppExcept]

theorem nodeSetOperators_exact_overlapping :
    Computes ppIntersect [1, 3, 5] [2, 3] ({z | z ∈ [1, 3, 5]} ∩ {z | z ∈ [2, 3]}) :=
  (nodeSetOperators_exact (by decide) (by decide)).2.1

end Sedna.Xqops.SetOperators
