/-!
# The numbering scheme

Node labels (`nid` prefixes) and the functions of `numb_scheme.cpp` and `lex.cpp` that compare and
generate them.  A `t_prefix` is the list of its first `size` letters, which are unsigned bytes.
-/

namespace Sedna.Nid.NumbScheme

/-- `ALPHABET_SIZE`: the letter that separates a sibling from a descendant. -/
def alphabetSize : Nat := 255

def maxLetter : Nat := 254

def defLetter : Nat := 25

def maxInternalPrefix : Nat := 11

/-- `PSTRMAXSIZE`: the page less the string block header and one slot. -/
def pstrMaxSize : Nat := 65536 - (104 + 6 * 2 + 124 * 4) - 2

abbrev TPrefix := List Nat

inductive NidError where
  | algoError
  | se2023
  deriving DecidableEq

def inc (letter : Nat) : Nat := (letter + 1) % 256

def dec (letter : Nat) : Nat := (letter + 255) % 256

/-! ## `lex.cpp` -/

def lexCmp : TPrefix → TPrefix → Int
  | [], [] => 0
  | _ :: _, [] => 1
  | [], _ :: _ => -1
  | a :: p1, b :: p2 =>
    if a ≠ b then
      if a > b then 1 else -1
    else lexCmp p1 p2

def lexIsprefFrom (p1 p2 : TPrefix) : Nat → Bool
  | 0 => true
  | i + 1 => if p1.getD i 0 ≠ p2.getD i 0 then false else lexIsprefFrom p1 p2 i

def lexIspref (p1 p2 : TPrefix) : Bool := lexIsprefFrom p1 p2 p1.length

/-! ## Generators -/

/-- The backward scan of `decrementNID`.  The argument is the position before
`pos--`; `none` is the exit through `pos == size - 1`. -/
def decrementScan (lp : TPrefix) (size : Nat) : Nat → Option TPrefix
  | 0 => none
  | pos + 1 =>
    if pos + 1 = size then none
    else if lp.getD pos 0 > 0 then
      if lp.getD pos 0 > 1 then
        some ((lp.set pos (dec (lp.getD pos 0))).take (pos + 1))
      else
        some (((lp.set pos 0).set (pos + 1) defLetter).take (pos + 2))
    else decrementScan lp size pos

def decrementNID (lp : TPrefix) (size : Nat) : TPrefix :=
  let pos := lp.length - 1
  if lp.getD pos 0 ≠ 1 then lp.set pos (dec (lp.getD pos 0))
  else if lp.length - size > 1 then
    match decrementScan lp size pos with
    | some result => result
    | none => lp.set (lp.length - 1) 0 ++ [defLetter]
  else lp.set pos 0 ++ [defLetter]

/-- The carry loop shared by `incrementNID_between` and `incrementNID`; the
flag says whether some letter absorbed the carry. -/
def carry (size : Nat) : Nat → TPrefix → TPrefix × Bool
  | 0, lp => (lp, false)
  | pos + 1, lp =>
    if pos + 1 > size then
      let lp := lp.set (pos + 1) 1
      if lp.getD pos 0 ≠ alphabetSize then (lp.set pos (inc (lp.getD pos 0)), true)
      else carry size pos lp
    else (lp, false)

def fillFrom (lp : TPrefix) (pos : Nat) : TPrefix :=
  lp.take pos ++ List.replicate (lp.length - pos) alphabetSize

def incrementNIDBetween (lp : TPrefix) (size : Nat) : TPrefix :=
  let lp := lp.set (lp.length - 1) (inc (lp.getD (lp.length - 1) 0))
  if lp.getD (lp.length - 1) 0 = alphabetSize then
    match carry size (lp.length - 1) lp with
    | (lp, true) => lp
    | (lp, false) => fillFrom lp size ++ [defLetter, 1]
  else lp

def incrementNID (lp : TPrefix) (size : Nat) : Except NidError TPrefix :=
  let lp := lp.set (lp.length - 1) (inc (lp.getD (lp.length - 1) 0))
  if lp.getD size 0 = alphabetSize then
    if lp.length ≠ size + 1 then .error .algoError
    else .ok (lp.set size maxLetter ++ [alphabetSize, 1])
  else if lp.getD (lp.length - 1) 0 = alphabetSize then
    let lp := (carry size (lp.length - 1) lp).1
    if lp.getD size 0 = alphabetSize then
      .ok (fillFrom (lp.set size maxLetter) (size + 1) ++ [defLetter, 1])
    else .ok lp
  else .ok lp

/-- The search for a difference in `betweenNID`, over the letters not yet
compared.  The first component is the position of a gap of at least two. -/
def findDiff : TPrefix → TPrefix → Nat → Nat → Option Nat × Nat
  | l :: lp, r :: rp, pos, difsmall =>
    if l < r then
      if l + 1 < r then (some pos, difsmall)
      else findDiff lp rp (pos + 1) (if difsmall = 0 then pos else difsmall)
    else findDiff lp rp (pos + 1) difsmall
  | _, _, _, difsmall => (none, difsmall)

def betweenNID (lp rp : TPrefix) : TPrefix :=
  match findDiff lp rp 0 0 with
  | (some pos, _) => (lp.set pos (inc (lp.getD pos 0))).take (pos + 1)
  | (none, difsmall) =>
    if difsmall ≠ 0 then
      if difsmall < lp.length - 1 then incrementNIDBetween lp (difsmall + 1)
      else lp ++ [alphabetSize, defLetter]
    else decrementNID rp (lp.length + 1)

/-! ## Labels stored in node descriptors -/

/-- `t_nid`: a short label sits in the descriptor, a long one in a string block. -/
inductive TNid where
  | internal (letters : TPrefix)
  | external (letters : TPrefix)
  deriving DecidableEq

def nidGetPrefix : TNid → TPrefix
  | .internal letters => letters
  | .external letters => letters

def nidGetSize (nid : TNid) : Nat := (nidGetPrefix nid).length

def nidAssign (p : TPrefix) : Except NidError TNid :=
  if p.length ≤ maxInternalPrefix then .ok (.internal p)
  else if p.length > pstrMaxSize then .error .se2023
  else .ok (.external p)

def nidConsistent (p : TPrefix) : Bool := p.getD (p.length - 1) 0 != alphabetSize

structure NidHint where
  size : Nat
  increment : Int
  deriving DecidableEq

/-- The carry loop of `nid_create_right` under a size hint, from position `pos`
down to `limit`. -/
def hintCarry (limit : Nat) : Nat → TPrefix → Except NidError TPrefix
  | 0, _ => .error .se2023
  | pos + 1, lp =>
    if pos + 1 = limit then .error .se2023
    else
      let lp := lp.set pos (inc (lp.getD pos 0))
      if lp.getD pos 0 ≠ alphabetSize then .ok lp
      else hintCarry limit pos (lp.set pos 1)

def nidCreateBetween (left right : TNid) : Except NidError TNid :=
  nidAssign (betweenNID (nidGetPrefix left) (nidGetPrefix right))

variable (sizehnt : Option NidHint)

def nidCreateRight (left parent : TNid) : Except NidError TNid := do
  let lp := nidGetPrefix left
  match sizehnt with
  | some hint =>
    let pos := lp.length - 1
    -- the sum is taken in `int`, and stored in an unsigned byte
    if (lp.getD pos 0 : Int) + hint.increment < alphabetSize then
      nidAssign (lp.set pos (((lp.getD pos 0 : Int) + hint.increment) % 256).toNat)
    else
      let lp := lp.set pos ((hint.increment + lp.getD pos 0 - maxLetter) % 256).toNat
      nidAssign (← hintCarry (lp.length - hint.size) pos lp)
  | none => nidAssign (← incrementNID lp (nidGetSize parent))

def nidCreateLeft (right parent : TNid) : Except NidError TNid :=
  nidAssign (decrementNID (nidGetPrefix right) (nidGetSize parent))

def nidCreateChild (parent : TNid) : Except NidError TNid :=
  match sizehnt with
  | some hint =>
    nidAssign (nidGetPrefix parent ++ List.replicate (hint.size - 1) 1 ++ [(1 + hint.size) % 256])
  | none => nidAssign (nidGetPrefix parent ++ [1])

/-- `createNID` of `nodeinsert.cpp`: the siblings decide which generator runs. -/
def createNID (leftSibling rightSibling : Option TNid) (parent : TNid) : Except NidError TNid :=
  match leftSibling, rightSibling with
  | some left, some right => nidCreateBetween left right
  | some left, none => nidCreateRight sizehnt left parent
  | none, some right => nidCreateLeft right parent
  | none, none => nidCreateChild sizehnt parent

/-! ## Comparison of nodes -/

def nidAncestor (nid1 nid2 : TNid) : Bool :=
  if nidGetSize nid1 ≥ nidGetSize nid2 then false
  else
    (nidGetPrefix nid2).getD (nidGetSize nid1) 0 != alphabetSize &&
      lexIspref (nidGetPrefix nid1) (nidGetPrefix nid2)

/-- What `nid_cmp_effective` makes of the labels of two different nodes; 2 and -2 stand for a
descendant and an ancestor. -/
def cmpEffective (nid1 nid2 : TNid) : Int :=
  let p1 := nidGetPrefix nid1
  let p2 := nidGetPrefix nid2
  let size := min p1.length p2.length
  let result := lexCmp (p1.take size) (p2.take size)
  if result ≠ 0 then result
  else if p1.length > p2.length then
    if p1.getD p2.length 0 = alphabetSize then 1 else 2
  else if p2.getD p1.length 0 = alphabetSize then -1 else -2

def nidCmpEffective {α : Type _} [DecidableEq α] (node1 node2 : α) (nid1 nid2 : TNid) : Int :=
  if node1 = node2 then 0 else cmpEffective nid1 nid2

def nidCmp {α : Type _} [DecidableEq α] (node1 node2 : α) (nid1 nid2 : TNid) : Int :=
  if node1 = node2 then 0 else lexCmp (nidGetPrefix nid1) (nidGetPrefix nid2)

/-! ## Root labels -/

def resetFrom (lastNid : TPrefix) (pos : Nat) : TPrefix :=
  lastNid.mapIdx fun i letter => if pos ≤ i ∧ (i - pos) % 2 = 0 then 1 else letter

/-- The search for a position to increment in `updateEP_nid`; the argument is `pos + 2`. -/
def rootScan (lastNid : TPrefix) : Nat → Option TPrefix
  | 0 => none
  | 1 => none
  | pos + 2 =>
    if lastNid.getD pos 0 < maxLetter then
      some (resetFrom (lastNid.set pos (inc (lastNid.getD pos 0))) (pos + 2))
    else rootScan lastNid pos

def updateEPNid (lastNid : TPrefix) : TPrefix :=
  let size := lastNid.length
  if size = 255 then lastNid
  else if size = 0 then [1]
  else if lastNid.getD (size - 1) 0 ≠ maxLetter then
    lastNid.set (size - 1) (inc (lastNid.getD (size - 1) 0))
  else
    match rootScan lastNid (size - 1) with
    | some result => result
    | none => (List.range (size + 2)).map fun i => if i % 2 = 0 then 1 else alphabetSize

def nidCreateRoot (lastNid : TPrefix) (persistent : Bool) : TNid × TPrefix :=
  if persistent then
    let lastNid := updateEPNid lastNid
    if lastNid.length ≤ maxInternalPrefix then (.internal lastNid, lastNid)
    else (.external lastNid, lastNid)
  else (.internal [0], lastNid)

end Sedna.Nid.NumbScheme
