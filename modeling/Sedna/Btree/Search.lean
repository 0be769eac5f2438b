import Mathlib

/-!
# Searching a B-tree

The search functions of `find.cpp`, `bisection.cpp`, `btree.cpp` and the cursor of `btstruct.cpp`.
A page is what its tables hold.  The key comparison of an index is a linear order.  Loops over
pages take fuel.  `slots` says what a page without keys has in the place of its first chunk size.
-/

namespace Sedna.Btree

inductive Body (P K O : Type) where
  | leaf (entries : List (K × List O))
  | nonLeaf (lmp : Option P) (entries : List (K × P))
  deriving DecidableEq

structure Page (P K O : Type) where
  next : Option P
  isClus : Bool
  isClusHead : Bool
  isClusTail : Bool
  body : Body P K O
  deriving DecidableEq

/-- The causes of `SE1008`, a page or key that is not there, and a loop cut short. -/
inductive BtError where
  | incorrectBisection
  | leftmostInClusterTail
  | nonClusterInCluster
  | nullLeftmost
  | nonHeadClusterPage
  | noPage
  | outOfFuel
  deriving DecidableEq

section

variable {α β : Type}

@[simp] theorem error_bind (e : BtError) (f : α → Except BtError β) :
    (.error e >>= f) = .error e := rfl

@[simp] theorem pure_eq_ok (a : α) : (pure a : Except BtError α) = .ok a := rfl

end

/-- Where a search ends: on the key, before the first bigger key (`BT_LEFTMOST` is
`before 0`), or right of all keys (`BT_RIGHTMOST`). -/
inductive Hit where
  | found (keyIdx : Nat)
  | before (keyIdx : Nat)
  | rightmost
  deriving DecidableEq

structure Cursor (P K : Type) where
  curPage : P
  keyIdx : Nat
  chnkSize : Nat
  key : K
  deriving DecidableEq

section

variable {P K O : Type}

def Page.keys (page : Page P K O) : List K :=
  match page.body with
  | .leaf entries => entries.map Prod.fst
  | .nonLeaf _ entries => entries.map Prod.fst

def Page.chnkSize (page : Page P K O) (i : Nat) : Nat :=
  match page.body with
  | .leaf entries => ((entries[i]?).map fun entry => entry.2.length).getD 0
  | .nonLeaf _ _ => 0

variable [LinearOrder K]

variable (pages : P → Option (Page P K O)) (slots : P → Nat)

def pageAt (p : P) : Except BtError (Page P K O) :=
  match pages p with
  | some page => .ok page
  | none => .error .noPage

def nextOf (page : Page P K O) : Except BtError P :=
  match page.next with
  | some p => .ok p
  | none => .error .noPage

def clusterTail : Nat → P → Except BtError P
  | 0, _ => .error .outOfFuel
  | fuel + 1, p => do
    let page ← pageAt pages p
    if page.isClus = false then .error .nonClusterInCluster
    else if page.isClusTail = true then .ok p
    else clusterTail fuel (← nextOf page)

def toTail (fuel : Nat) (p : P) (page : Page P K O) : Except BtError P :=
  if page.isClus = true then clusterTail pages fuel p else .ok p

/-- The page to which `bt_find_key` goes down from a page that is not a leaf; `none` when
the page has no key at all. -/
def childFor (lmp : Option P) (entries : List (K × P)) : Hit → Except BtError (Option P)
  | .found i => .ok ((entries[i]?).map Prod.snd)
  | .before 0 => match lmp with | some p => .ok (some p) | none => .error .nullLeftmost
  | .before (i + 1) => .ok ((entries[i]?).map Prod.snd)
  | .rightmost => .ok ((entries.getLast?).map Prod.snd)

variable (fuel : Nat)

def nextKey (cursor : Cursor P K) : Except BtError (Option (Cursor P K)) := do
  let page ← pageAt pages cursor.curPage
  let p ← toTail pages fuel cursor.curPage page
  let page ← pageAt pages p
  let enter (p : P) (page : Page P K O) (i : Nat) : Except BtError (Option (Cursor P K)) :=
    match page.keys[i]? with
    | some key => .ok (some ⟨p, i, page.chnkSize i, key⟩)
    | none => .error .noPage
  if page.keys.length ≤ cursor.keyIdx + 1 then
    match page.next with
    | none => return none
    | some p' => enter p' (← pageAt pages p') 0
  else enter p page (cursor.keyIdx + 1)

end

end Sedna.Btree
