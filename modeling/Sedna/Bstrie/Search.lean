import Mathlib

/-!
# Searching a trie

The search of `btrie_search.cpp` and the enumeration of `btrie_traverse.cpp`.  A state has a
prefix, an object if it is final, and edges to further states; whether an edge leads to another
page makes no difference here.  A key is a place in memory and a length, and the search moves both
along.
-/

namespace Sedna.Bstrie

open List

structure State (C O : Type) where
  pfx : List C
  object : Option O
  edges : List (C × State C O)

variable {C O : Type}

def State.labels (s : State C O) : List C := s.edges.map Prod.fst

structure StPath (C O : Type) where
  states : List (State C O × Nat)
  lastState : State C O
  prefixBreakPosition : Nat
  keyBreakPosition : Nat
  keyFound : Bool

def StPath.after (path : StPath C O) (s : State C O) (j i : Nat) : StPath C O :=
  { path with
    states := (s, j) :: path.states
    keyBreakPosition := i + 1 + path.keyBreakPosition }

theorem sizeOf_lt_of_edge {s t : State C O} {c : C} {j : Nat} (hedge : s.edges[j]? = some (c, t)) :
    sizeOf t < sizeOf s := by
  have hlt := sizeOf_lt_of_mem (mem_of_getElem? hedge)
  cases s
  simp only [Prod.mk.sizeOf_spec, State.mk.sizeOf_spec] at hlt ⊢
  omega

section

variable [LinearOrder C]

def bisearch (k : C) (A : List C) (l r : Nat) : Nat :=
  if l < r then
    let m := (l + r - 1) / 2
    match A[m]? with
    | none => l
    | some a => if a = k then m else if a < k then bisearch k A (m + 1) r else bisearch k A l m
  else l
termination_by r - l

def findStateEdge (k : C) (s : State C O) : Option (Nat × State C O) :=
  let i := bisearch k s.labels 0 s.labels.length
  match s.edges[i]? with
  | some (c, t) => if c = k then some (i, t) else none
  | none => none

def agreement : List C → List C → Nat
  | c :: pfx, d :: key => if c = d then agreement pfx key + 1 else 0
  | _, _ => 0

theorem getElem?_of_findStateEdge {k : C} {s t : State C O} {i : Nat}
    (h : findStateEdge k s = some (i, t)) : s.edges[i]? = some (k, t) := by
  unfold findStateEdge at h
  grind

/-- The stack of an enumeration, the innermost state first: each state with the number of its
edges that have been taken. -/
abbrev Stack (C O : Type) := List (State C O × Nat)

section

omit [LinearOrder C]

noncomputable def weight (stack : Stack C O) : Nat :=
  (stack.map fun frame => sizeOf (frame.1.edges.drop frame.2)).sum

theorem weight_push {s t : State C O} {n : Nat} {c : C} (h : s.edges[n]? = some (c, t))
    (stack : Stack C O) : weight ((t, 0) :: (s, n + 1) :: stack) < weight ((s, n) :: stack) := by
  obtain ⟨hn, heq⟩ := List.getElem?_eq_some_iff.1 h
  have hdrop : sizeOf (s.edges.drop n) = 1 + sizeOf (c, t) + sizeOf (s.edges.drop (n + 1)) := by
    rw [drop_eq_getElem_cons hn, heq]
    rfl
  cases t
  simp only [weight, map_cons, sum_cons, hdrop, Prod.mk.sizeOf_spec, State.mk.sizeOf_spec,
    drop_zero]
  omega

theorem weight_pop (s : State C O) (n : Nat) (stack : Stack C O) :
    weight stack < weight ((s, n) :: stack) := by
  simp only [weight, map_cons, sum_cons]
  have : 0 < sizeOf (s.edges.drop n) := by cases s.edges.drop n <;> simp
  omega

def StPath.below (path : StPath C O) (stack : Stack C O) : Stack C O :=
  (path.states.map fun step => (step.1, step.2 + 1)).reverse ++ stack

end

end

/-! ## The keys of a trie -/

inductive Reaches : State C O → List C → State C O → Prop
  | here (s : State C O) : Reaches s s.pfx s
  | edge {s t u : State C O} {c : C} {key : List C} (hedge : (c, t) ∈ s.edges)
    (h : Reaches t key u) : Reaches s (s.pfx ++ c :: key) u

variable (root : Option (State C O))

def Stored (key : List C) (u : State C O) : Prop :=
  ∃ s ∈ root, Reaches s key u ∧ u.object.isSome

variable [LinearOrder C]

def Ordered (s : State C O) : Prop := ∀ key u, Reaches s key u → u.labels.Pairwise (· < ·)

def edgeFor (s : State C O) (key : List C) : Option (Nat × State C O) :=
  if s.pfx <+: key then (key.drop s.pfx.length).head?.bind (findStateEdge · s) else none

theorem exists_of_edgeFor {s t : State C O} {key : List C} {j : Nat}
    (h : edgeFor s key = some (j, t)) :
    ∃ c key', key = s.pfx ++ c :: key' ∧ findStateEdge c s = some (j, t) := by
  obtain ⟨⟨key, rfl⟩, hfnd⟩ := Option.ite_none_right_eq_some.1 h
  rw [drop_left] at hfnd
  obtain ⟨c, hc, hfnd⟩ := Option.bind_eq_some_iff.1 hfnd
  obtain ⟨key, rfl⟩ := head?_eq_some_iff.1 hc
  exact ⟨c, key, rfl, hfnd⟩

/-- The search that reads the characters of the key only. -/
def keyPath (s : State C O) (key : List C) : StPath C O :=
  match h : edgeFor s key with
  | none =>
    let i := agreement s.pfx (key.take s.pfx.length)
    ⟨[], s, i, i, i = s.pfx.length && key.length = i && s.object.isSome⟩
  | some (j, t) => (keyPath t (key.drop (s.pfx.length + 1))).after s j s.pfx.length
termination_by sizeOf s
decreasing_by
  obtain ⟨c, key', -, hfnd⟩ := exists_of_edgeFor h
  exact sizeOf_lt_of_edge (getElem?_of_findStateEdge hfnd)

def Barren (s : State C O) : Prop := ∀ key u, Reaches s key u → u.object = none

/-- No key is stored at the state or behind its edges before the edge `j`. -/
def Passes (s : State C O) (j : Nat) : Prop :=
  s.object = none ∧ ∀ edge ∈ s.edges.take j, Barren edge.2

section

omit [LinearOrder C]

/-- Where an enumeration comes from a stack on. -/
def upcoming : Stack C O → List (Stack C O)
  | [] => []
  | (s, n) :: stack =>
    match _h : s.edges[n]? with
    | none => upcoming stack
    | some (_, t) =>
      (if t.object.isSome then [(t, 0) :: (s, n + 1) :: stack] else [])
        ++ upcoming ((t, 0) :: (s, n + 1) :: stack)
termination_by stack => weight stack
decreasing_by
  · exact weight_pop s n stack
  · exact weight_push _h stack

def visits (s : State C O) (stack : Stack C O) : List (Stack C O) :=
  (if s.object.isSome then [(s, 0) :: stack] else []) ++ upcoming ((s, 0) :: stack)

variable {s t : State C O} {n j : Nat} {c : C} {stack : Stack C O}

end

/-! ## Edges -/

variable {s : State C O} {key : List C}

variable {k : Stream' C} {klen i : Nat}

def StPath.behind (path : StPath C O) (steps : List (State C O × Nat)) (n : Nat) : StPath C O :=
  { path with
    states := steps ++ path.states
    keyBreakPosition := n + path.keyBreakPosition }

omit [LinearOrder C] in
theorem Reaches.append {t u v : State C O} {c : C} {key key' : List C} (h : Reaches s key u)
    (hedge : (c, t) ∈ u.edges) (hv : Reaches t key' v) : Reaches s (key ++ c :: key') v := by
  induction h with
  | here s => exact .edge hedge hv
  | edge hedge' _ ih =>
    rw [append_assoc, cons_append]
    exact .edge hedge' (ih hedge)

end Sedna.Bstrie
