import Sedna.XPath.NodeStore

/-!
# `PPAxisStep`

The axis step of a path expression goes through the nodes of an axis for every context node, one
node with every call.  The procedures are those of the descendant, descendant-or-self, following
and preceding axes.  Loops over links take a bound on their rounds.
-/

namespace Sedna.XPath.AxisStep

open Structures.Schema

/-! ## Node tests -/

inductive Axis where
  | child
  | descendant
  | attribute
  | self
  | descendantOrSelf
  | descendantAttr
  | parent
  | ancestor
  | ancestorOrSelf
  | following
  | followingSibling
  | preceding
  | precedingSibling
  deriving DecidableEq

inductive NodeTestType where
  | pi
  | comment
  | text
  | node
  | element
  | attribute
  | document
  | qname
  | wildcardStar
  | wildcardNcnameStar
  | wildcardStarNcname
  deriving DecidableEq

structure NodeTest where
  axis : Axis
  type : NodeTestType
  uri : Option String
  localName : Option String
  qname : Option (Option String × String)
  deriving DecidableEq

def NodeTest.isAnyQName (nt : NodeTest) : Bool := nt.qname.isNone

def nodeTypeTestMap : NodeTestType → Option TypeMask
  | .pi => some {.prIns}
  | .comment => some {.comment}
  | .text => some {.text}
  | .node => some tiAllValid
  | .element => some {.element}
  | .attribute => some {.attribute}
  | .document => some {.document}
  | .qname => none
  | .wildcardStar => none
  | .wildcardNcnameStar => none
  | .wildcardStarNcname => none

def Axis.fromFollowing : Axis → Bool
  | .following => true
  | .followingSibling => true
  | .preceding => true
  | .precedingSibling => true
  | _ => false

def Axis.fromAncestor (axis : Axis) : Bool :=
  axis = .ancestor || axis = .ancestorOrSelf || axis.fromFollowing

def getNodeTestTypeMask (nt : NodeTest) : TypeMask :=
  match nodeTypeTestMap nt.type with
  | none => if nt.axis = .attribute ∨ nt.axis = .descendantAttr then {.attribute} else {.element}
  | some nodeKind =>
    if nt.axis = .attribute ∨ nt.axis = .descendantAttr then nodeKind ∩ {.attribute}
    else if nt.axis = .child ∨ nt.axis = .descendant ∨ nt.axis = .descendantOrSelf ∨
        nt.axis.fromFollowing then
      nodeKind ∩ tiDmchildren
    else nodeKind

/-! ## Tests on schema nodes -/

inductive SchemaTestOperator where
  | type
  | qnameType
  | localType
  | uriType
  deriving DecidableEq

structure SchemaTest where
  op : SchemaTestOperator
  typeMask : TypeMask
  uri : Option String
  localName : Option String
  deriving DecidableEq

def SchemaTest.test (test : SchemaTest) (node : ScRef) : Bool :=
  match test.op with
  | .type => node.type ∈ test.typeMask
  | .qnameType =>
    node.type ∈ test.typeMask && sameXmlnsUri node.xmlns test.uri && node.name = test.localName
  | .localType => node.type ∈ test.typeMask && node.name = test.localName
  | .uriType => node.type ∈ test.typeMask && sameXmlnsUri node.xmlns test.uri

def createSchemaTest (nt : NodeTest) : Option SchemaTest :=
  let typeTestMasks := getNodeTestTypeMask nt
  let qnameUri := nt.qname.bind Prod.fst
  let qnameLocal := nt.qname.map Prod.snd
  if typeTestMasks = ∅ then none
  else if typeTestMasks ∩ {.element, .attribute} = ∅ then
    some ⟨.type, typeTestMasks, none, none⟩
  else
    match nt.type with
    | .qname => some ⟨.qnameType, typeTestMasks, qnameUri, qnameLocal⟩
    | .wildcardStar => some ⟨.type, typeTestMasks, none, none⟩
    | .wildcardNcnameStar => some ⟨.uriType, typeTestMasks, nt.uri, none⟩
    | .wildcardStarNcname => some ⟨.localType, typeTestMasks, none, nt.localName⟩
    | _ =>
      if nt.isAnyQName then some ⟨.type, typeTestMasks, none, none⟩
      else some ⟨.qnameType, typeTestMasks, qnameUri, qnameLocal⟩

/-! ## Schema paths -/

mutual

/-- `getDescendants`: the paths to the schema nodes below one that pass the test. -/
def getDescendants (test : SchemaTest) : Tree ScRef → List SchemaPath
  | .node _ children => getDescendantsFrom test 0 children

def getDescendantsFrom (test : SchemaTest) (childIndex : Nat) :
    List (Tree ScRef) → List SchemaPath
  | [] => []
  | child :: children =>
    (if test.test child.value then [[childIndex]] else []) ++
      (if child.value.type ∈ ({.element, .document} : TypeMask) then
        (getDescendants test child).map (childIndex :: ·) else []) ++
      getDescendantsFrom test (childIndex + 1) children

end

def selfPaths (node : Tree ScRef) (nt : NodeTest) : List SchemaPath :=
  if nt.axis = .descendantOrSelf then
    match createSchemaTest { nt with axis := .self } with
    | none => []
    | some selfTest => if selfTest.test node.value then [[]] else []
  else []

def executeNodeTestPath (node : Tree ScRef) (nt : NodeTest) : List SchemaPath :=
  match createSchemaTest nt with
  | none => selfPaths node nt
  | some test => selfPaths node nt ++ getDescendants test node

/-! ## The operation -/

inductive EvaluateAxisProc where
  | resolveNull
  | resolveDescendant
  | resolveSelf
  | resolveChildFirst
  | resolveFollowing
  | resolvePreceding
  deriving DecidableEq

inductive NextNodeProc where
  | rightDescendantMerge
  | traverseAll
  | following
  | preceding
  deriving DecidableEq

inductive TestNodeProc where
  | piName
  | schemaTest
  deriving DecidableEq

/-- The part of `axisResolutionProcs` for the axes that leave the children of a node. -/
def axisResolutionProcs : Axis → Option (NextNodeProc × EvaluateAxisProc)
  | .descendant => some (.rightDescendantMerge, .resolveDescendant)
  | .descendantOrSelf => some (.rightDescendantMerge, .resolveDescendant)
  | .descendantAttr => some (.rightDescendantMerge, .resolveDescendant)
  | .following => some (.following, .resolveFollowing)
  | .preceding => some (.preceding, .resolvePreceding)
  | _ => none

structure PPAxisStep where
  nt : NodeTest
  childTypeMask : TypeMask
  schemaTest : Option SchemaTest
  selfSchemaTest : Option SchemaTest
  evaluateAxisProc : EvaluateAxisProc
  nextNodeProc : Option NextNodeProc
  testNodeProc : Option TestNodeProc
  deriving DecidableEq

def nullStep (nt : NodeTest) : PPAxisStep where
  nt := nt
  childTypeMask := {.element}
  schemaTest := none
  selfSchemaTest := none
  evaluateAxisProc := .resolveNull
  nextNodeProc := none
  testNodeProc := none

def traversesAll (nt : NodeTest) (childTypeMask : TypeMask) : Bool :=
  (nt.axis = .descendant || nt.axis = .descendantOrSelf) &&
    (.element ∈ childTypeMask && nt.isAnyQName)

def create (nt : NodeTest) : Option PPAxisStep :=
  match axisResolutionProcs nt.axis with
  | none => none
  | some (nextProc, evalProc) =>
    match createSchemaTest nt with
    | none => some (nullStep nt)
    | some test =>
      let mask := test.typeMask
      if traversesAll nt mask then
        some {
          nt := nt
          childTypeMask := mask
          schemaTest := some test
          selfSchemaTest :=
            if nt.axis = .descendantOrSelf then createSchemaTest { nt with axis := .self }
            else none
          evaluateAxisProc :=
            if nt.axis = .descendantOrSelf then .resolveSelf else .resolveChildFirst
          nextNodeProc := some .traverseAll
          testNodeProc := some .schemaTest }
      else
        some {
          nt := nt
          childTypeMask := mask
          schemaTest := some test
          selfSchemaTest := none
          evaluateAxisProc := evalProc
          nextNodeProc := some nextProc
          testNodeProc :=
            if nt.axis.fromAncestor then some .schemaTest
            else if mask = {.prIns} then some .piName
            else none }

structure AxisHints (α : Type*) where
  baseNode : Option α
  descendantPathIndex : List (SchemaPath × List SchemaPath)
  nodeHeapStorage : List α
  nodeStackStorage : List α

/-- The operation between two calls.  `child` is what the child operation still returns; an item
that is not a node is `none`. -/
structure State (α : Type*) where
  hint : AxisHints α
  currentNode : Option α
  child : List (Option α)

def doOpen {α : Type*} (child : List (Option α)) : State α := ⟨⟨none, [], [], []⟩, none, child⟩

variable {α : Type*} [DecidableEq α] (st : NodeStore α)

/-! ## The heap and the stack -/

def heapFront : List α → Option α
  | [] => none
  | node :: heap =>
    match heapFront heap with
    | none => some node
    | some front => if st.nidCmp front node < 0 then some front else some node

def nodeHeapPop (hint : AxisHints α) : Option α × AxisHints α :=
  match heapFront st hint.nodeHeapStorage with
  | none => (none, hint)
  | some result => (some result, { hint with nodeHeapStorage := hint.nodeHeapStorage.erase result })

omit [DecidableEq α] in
def nodeHeapPush (node : Option α) (hint : AxisHints α) : AxisHints α :=
  match node with
  | none => hint
  | some node => { hint with nodeHeapStorage := node :: hint.nodeHeapStorage }

/-! ## Merging the descriptors of several sorts -/

def getRightBrother (node commonAncestor : α) : Option α :=
  match st.getNextDescriptorOfSameSort node with
  | none => none
  | some n =>
    if st.nidCmpEffective n commonAncestor ≠ 2 ∧ st.nidCmpEffective n commonAncestor ≠ 0 then none
    else some n

/-- The search of `getFirstNodeByPath` for a node with a child of the sort asked for. -/
def childOfBrothers (childIndex : Nat) (commonAncestor : α) : Nat → α → Except StepError (Option α)
  | 0, _ => .error .outOfRounds
  | n + 1, nodeI =>
    match st.getChildAt nodeI childIndex with
    | some nodeJ => .ok (some nodeJ)
    | none =>
      match getRightBrother st nodeI commonAncestor with
      | none => .ok none
      | some brother => childOfBrothers childIndex commonAncestor n brother

def getFirstNodeByPath (limit : Nat) (commonAncestor : α) :
    SchemaPath → α → Except StepError (Option α)
  | [], nodeI => .ok (some nodeI)
  | i :: path, nodeI =>
    match childOfBrothers st i commonAncestor limit nodeI with
    | .error e => .error e
    | .ok none => .ok none
    | .ok (some nodeJ) => getFirstNodeByPath limit commonAncestor path nodeJ

def traverseSchemaPathList (limit : Nat) (node : α) :
    List SchemaPath → AxisHints α → Except StepError (AxisHints α)
  | [], hint => .ok hint
  | path :: list, hint =>
    match getFirstNodeByPath st limit (hint.baseNode.getD node) path node with
    | .error e => .error e
    | .ok result => traverseSchemaPathList limit node list (nodeHeapPush result hint)

variable (step : PPAxisStep)

/-- The paths of a context node, which are kept for persistent schema nodes. -/
def descendantPaths (node : α) (hint : AxisHints α) : List SchemaPath × AxisHints α :=
  let compute := fun _ : Unit =>
    match st.getSchemaNode node with
    | none => []
    | some scn => executeNodeTestPath scn step.nt
  if st.persistent then
    match hint.descendantPathIndex.lookup (st.schemaNode node) with
    | some paths => (paths, hint)
    | none =>
      (compute (), { hint with
        descendantPathIndex := (st.schemaNode node, compute ()) :: hint.descendantPathIndex })
  else (compute (), hint)

def resolveAxisDescendant (limit : Nat) (node : α) (hint : AxisHints α) :
    Except StepError (Option α × AxisHints α) :=
  let (paths, hint) := descendantPaths st step node hint
  match traverseSchemaPathList st limit node paths hint with
  | .error e => .error e
  | .ok hint => .ok (nodeHeapPop st hint)

def nextNodeRightDescendantMerge (node : α) (hint : AxisHints α) : Option α × AxisHints α :=
  nodeHeapPop st (nodeHeapPush (getRightBrother st node (hint.baseNode.getD node)) hint)

/-! ## Traversing a subtree -/

omit [DecidableEq α] in
def nodeStackPop (hint : AxisHints α) : Option α × AxisHints α :=
  match hint.nodeStackStorage with
  | [] => (none, hint)
  | node :: stack => (some node, { hint with nodeStackStorage := stack })

def nextOrUp : Nat → Option α → AxisHints α → Except StepError (Option α × AxisHints α)
  | 0, _, _ => .error .outOfRounds
  | _ + 1, none, hint => .ok (none, hint)
  | n + 1, some node, hint =>
    if some node = hint.baseNode then .ok (none, hint)
    else
      match st.getRight node with
      | some right => .ok (some right, hint)
      | none =>
        let (node, hint) := nodeStackPop hint
        nextOrUp n node hint

def nextNodeTraverseAll (limit : Nat) (node : α) (hint : AxisHints α) :
    Except StepError (Option α × AxisHints α) :=
  let child :=
    if st.nodeType node ∈ ({.element, .document} : TypeMask) then
      st.getFirstChildByTypeMask node step.childTypeMask
    else none
  match child with
  | some nextNode =>
    .ok (some nextNode, { hint with nodeStackStorage := node :: hint.nodeStackStorage })
  | none => nextOrUp st limit (some node) hint

/-! ## Following and preceding nodes -/

omit [DecidableEq α] in
def resolveAxisFollowing : Nat → α → Except StepError (Option α)
  | 0, _ => .error .outOfRounds
  | n + 1, node =>
    match st.getRight node with
    | some x => .ok (some x)
    | none =>
      match st.getActualParent node with
      | none => .ok none
      | some parent => resolveAxisFollowing n parent

omit [DecidableEq α] in
def followingLoop : Nat → α → AxisHints α → Except StepError (Option α × AxisHints α)
  | 0, _, _ => .error .outOfRounds
  | n + 1, node, hint =>
    let up :=
      match hint.nodeStackStorage with
      | [] => (st.getActualParent node, hint)
      | top :: stack => (some top, { hint with nodeStackStorage := stack })
    match up with
    | (none, hint) => .ok (none, hint)
    | (some node, hint) =>
      match st.getRight node with
      | some x => .ok (some x, hint)
      | none => followingLoop n node hint

omit [DecidableEq α] in
def nextNodeFollowing (limit : Nat) (node : α) (hint : AxisHints α) :
    Except StepError (Option α × AxisHints α) :=
  let hint := { hint with nodeStackStorage := node :: hint.nodeStackStorage }
  match st.getFirstChild node with
  | some x => .ok (some x, hint)
  | none => followingLoop st limit node hint

/-- The last loop of `nextNode_preceding`, down to the last node below `x`. -/
def lastBelow (limit : Nat) : Nat → α → Except StepError α
  | 0, _ => .error .outOfRounds
  | n + 1, x =>
    match st.getLastChild limit x with
    | .error e => .error e
    | .ok none => .ok x
    | .ok (some y) => lastBelow limit n y

def nextNodePreceding (limit : Nat) (baseNode : α) : Nat → α → Except StepError (Option α)
  | 0, _ => .error .outOfRounds
  | n + 1, node =>
    match st.getLeft node with
    | some x => (lastBelow st limit limit x).map some
    | none =>
      match st.getActualParent node with
      | none => .ok none
      | some parent =>
        if st.nidCmpEffective parent baseNode ≠ -2 then .ok (some parent)
        else nextNodePreceding limit baseNode n parent

/-! ## `do_next` -/

def evaluateAxis (limit : Nat) (node : α) (hint : AxisHints α) :
    Except StepError (Option α × AxisHints α) :=
  match step.evaluateAxisProc with
  | .resolveNull => .ok (none, hint)
  | .resolveDescendant => resolveAxisDescendant st step limit node hint
  | .resolveSelf => .ok (some node, hint)
  | .resolveChildFirst => .ok (st.getFirstChild node, hint)
  | .resolveFollowing => (resolveAxisFollowing st limit node).map fun x => (x, hint)
  | .resolvePreceding =>
    (nextNodePreceding st limit (hint.baseNode.getD node) limit node).map fun x => (x, hint)

def nextNode (limit : Nat) (node : α) (hint : AxisHints α) :
    Except StepError (Option α × AxisHints α) :=
  match step.nextNodeProc with
  | none => .error .nullProc
  | some .rightDescendantMerge => .ok (nextNodeRightDescendantMerge st node hint)
  | some .traverseAll => nextNodeTraverseAll st step limit node hint
  | some .following => nextNodeFollowing st limit node hint
  | some .preceding =>
    (nextNodePreceding st limit (hint.baseNode.getD node) limit node).map fun x => (x, hint)

omit [DecidableEq α] in
def testSchemaOf (test : SchemaTest) (node : α) : Bool :=
  match st.getSchemaNode node with
  | none => false
  | some scn => test.test scn.value

omit [DecidableEq α] in
def compareTarget (nt : NodeTest) (node : α) : Bool :=
  match nt.localName with
  | none => true
  | some target => (st.descriptor node).target = target

/-- `schemaTest`: the context node itself has a test of its own on some axes. -/
def schemaTest (step : PPAxisStep) (baseNode : Option α) (node : α) : Bool :=
  match (if some node = baseNode then step.selfSchemaTest else none) with
  | some selfTest => testSchemaOf st selfTest node
  | none =>
    match step.schemaTest with
    | none => false
    | some test =>
      testSchemaOf st test node &&
        if st.nodeType node = .prIns then compareTarget st step.nt node else true

def testNode (baseNode : Option α) (node : α) : Bool :=
  match step.testNodeProc with
  | none => true
  | some .piName => compareTarget st step.nt node
  | some .schemaTest => schemaTest st step baseNode node

/-- The inner loop of `do_next`: the first context node with a node on the axis. -/
def nextContext (step : PPAxisStep) (limit : Nat) :
    List (Option α) → AxisHints α → Except StepError (Option α × State α)
  | [], hint => .ok (none, ⟨hint, none, []⟩)
  | none :: _, _ => .error .xpty0020
  | some node :: child, hint =>
    match evaluateAxis st step limit node { hint with baseNode := some node } with
    | .error e => .error e
    | .ok (some x, hint) => .ok (some x, ⟨hint, none, child⟩)
    | .ok (none, hint) => nextContext step limit child hint

def fetch (limit : Nat) (s : State α) : Except StepError (Option α × State α) :=
  match s.currentNode with
  | none => nextContext st step limit s.child s.hint
  | some node =>
    match nextNode st step limit node s.hint with
    | .error e => .error e
    | .ok (some x, hint) => .ok (some x, { s with hint := hint })
    | .ok (none, hint) => nextContext st step limit s.child hint

def doNextLoop (step : PPAxisStep) (limit : Nat) :
    Nat → State α → Except StepError (Option α × State α)
  | 0, _ => .error .outOfRounds
  | n + 1, s =>
    match fetch st step limit s with
    | .error e => .error e
    | .ok (none, s) => .ok (none, s)
    | .ok (some x, s) =>
      if testNode st step s.hint.baseNode x then .ok (some x, { s with currentNode := some x })
      else doNextLoop step limit n { s with currentNode := some x }

def doNext (limit : Nat) (s : State α) : Option (Except StepError α) × State α :=
  match doNextLoop st step limit limit s with
  | .error e => (some (.error e), s)
  | .ok (none, s) => (none, s)
  | .ok (some x, s) => (some (.ok x), s)

end Sedna.XPath.AxisStep
