import Mathlib
import Sedna.Nid.Document

/-!
# Bulk load

`BulkLoader::loadDocument` parses a document twice.  The first pass counts children and keeps the
greatest count of every level; one size hint a level is computed from these.  In the second pass
the hint of the innermost open element decides the labels of its children until its first element
child is closed.  A document is the list of calls that the XML parser makes; the handlers of CDATA
sections are set for the second pass only.
-/

namespace Sedna.Nid.BulkLoad

open NumbScheme Document

def textBufferSize : Nat := 65536

/-- The calls of the XML parser; the values of attributes, comments and
processing instructions have no influence on labels. -/
inductive Call (Q : Type) where
  | addNS
  | addElement (qname : Q)
  | addAttribute (qname : Q)
  | addText (value : List UInt8)
  | addComment
  | addPI
  | close
  | startCData
  | endCData
  deriving DecidableEq

def elementStart {Q : Type} (qname : Q) (attrs : List Q) : List (Call Q) :=
  .addElement qname :: attrs.map .addAttribute

def utfsafeIsspace (c : UInt8) : Bool := c = 32 || (9 ≤ c && c ≤ 13)

def whitespaceOnly (value : List UInt8) : Bool := value.all utfsafeIsspace

def clearLeftSpaces (value : List UInt8) : List UInt8 := value.dropWhile utfsafeIsspace

def getRightSpaces (value : List UInt8) : List UInt8 :=
  (value.reverse.takeWhile utfsafeIsspace).reverse

/-! ## First pass -/

section

variable {Q : Type} [DecidableEq Q]

/-- The counters of a `SchemaParser`.  There is one parser a path, kept from one
element of the path to the next. -/
structure SchemaParser where
  nextChildNamespaceCount : Nat := 0
  textCount : Nat := 0
  count : Nat := 0
  deriving DecidableEq

/-- The parsers by path (innermost name first), the path of the open element and
`nodeStatistics`. -/
structure SchemaPass (Q : Type) where
  parsers : List Q → Option SchemaParser
  path : List Q
  nodeStatistics : List Nat

namespace SchemaPass

def start : SchemaPass Q := ⟨fun path => if path = [] then some {} else none, [], [1]⟩

variable (pass : SchemaPass Q)

def current : SchemaParser := (pass.parsers pass.path).getD {}

def setParser (path : List Q) (parser : SchemaParser) : SchemaPass Q :=
  { pass with parsers := Function.update pass.parsers path (some parser) }

def addCount : SchemaPass Q :=
  pass.setParser pass.path { pass.current with count := pass.current.count + 1 }

/-- `SchemaParser::addElement`: the namespaces collected so far are counted for the
child only when its path is new, and kept for the next new path otherwise. -/
def addElement (qname : Q) : SchemaPass Q :=
  let child := qname :: pass.path
  let opened :=
    match pass.parsers child with
    | some _ => pass
    | none =>
      let missing := child.length + 1 - pass.nodeStatistics.length
      let pass := { pass with nodeStatistics :=
        pass.nodeStatistics ++ List.replicate missing 0 }
      let pass := pass.setParser child { count := pass.current.nextChildNamespaceCount }
      pass.setParser pass.path { pass.current with nextChildNamespaceCount := 0 }
  { opened.addCount with path := child }

/-- `SchemaParser::addText`: a path counts its first text only. -/
def addText (stripBoundarySpaces : Bool) (value : List UInt8) : SchemaPass Q :=
  if 0 < pass.current.textCount || (stripBoundarySpaces && whitespaceOnly value) then pass
  else
    (pass.setParser pass.path
      { pass.current with textCount := pass.current.textCount + 1 }).addCount

def close : SchemaPass Q :=
  let level := pass.path.length
  let count := pass.current.count
  let statistics :=
    if pass.nodeStatistics.getD level 0 < count then pass.nodeStatistics.set level count
    else pass.nodeStatistics
  { pass.setParser pass.path { pass.current with count := 0 } with
    nodeStatistics := statistics
    path := pass.path.tail }

def call (stripBoundarySpaces : Bool) (pass : SchemaPass Q) : Call Q → SchemaPass Q
  | .addNS =>
    pass.setParser pass.path { pass.current with
      nextChildNamespaceCount := pass.current.nextChildNamespaceCount + 1 }
  | .addElement qname => pass.addElement qname
  | .addAttribute _ => pass.addCount
  | .addText value => pass.addText stripBoundarySpaces value
  | .addComment => pass.addCount
  | .addPI => pass.addCount
  | .close => pass.close
  | .startCData => pass
  | .endCData => pass

end SchemaPass

def nodeStatistics (stripBoundarySpaces : Bool) (calls : List (Call Q)) : List Nat :=
  (calls.foldl (SchemaPass.call stripBoundarySpaces) SchemaPass.start).nodeStatistics

end

/-! ## Size hints -/

/-- The conversion of a number to `int`.  Out of range its value is not defined by the
language; `indefinite` is what the platform gives. -/
def toInt (indefinite : Int32) (n : Nat) : Int :=
  if n < 2147483648 then n else indefinite.toInt

/-- The hint of a level, from the greatest count of that level.  The quotient of
logarithms, rounded up, is the least exponent with `count ≤ 254 ^ exponent`. -/
def nidHint (indefinite : Int32) (statistic : Nat) : NidHint :=
  let count := max statistic 1
  let size := max (Nat.clog maxLetter count) 1
  ⟨size, min defLetter ((toInt indefinite (maxLetter ^ size)).tdiv (2 + count))⟩

def numbSchemeHints (indefinite : Int32) (nodeStatistics : List Nat) : List NidHint :=
  nodeStatistics.map (nidHint indefinite)

/-! ## Second pass -/

inductive LoadError where
  | nid (error : NidError)
  /-- `numbSchemeHints.at(level)` -/
  | outOfRange
  /-- `Text buffer exceeds parse buffer` -/
  | textExceedsBuffer
  /-- an end tag with no element open; the XML parser never calls so -/
  | unbalanced
  deriving DecidableEq

structure Child where
  nid : TNid
  isText : Bool
  deriving DecidableEq

structure Given where
  sizehnt : Option NidHint
  label : TPrefix
  deriving DecidableEq

/-- `DataParser`.  `hint` is the hint that `init` set.  `given` and `children` record the labels
of the children in document order, and the children with what is below them. -/
structure DataParser where
  level : Nat
  self : TNid
  hint : NidHint
  left : Option Child := none
  hasText : Bool := false
  stripLeftSpaces : Bool := true
  nextChildNamespaces : Nat := 0
  given : List Given := []
  children : List DocNode := []

/-- The labels given to the children while a size hint was active. -/
def DataParser.hintedLabels (parser : DataParser) : List TPrefix :=
  (parser.given.filter fun g => g.sizehnt.isSome).map Given.label

/-- The element of `inner`, which is the last child, ends. -/
def DataParser.finish (outer inner : DataParser) : DataParser :=
  { outer with children :=
      outer.children.set (outer.children.length - 1) (.mk inner.self inner.children) }

structure Loader where
  numbSchemeHints : List NidHint
  sizehnt : Option NidHint
  stripBoundarySpaces : Bool
  saveWSOption : Bool
  textBuffer : List UInt8
  tailingWhitespaceBuffer : List UInt8
  producer : DataParser
  producerStack : List DataParser
  /-- The elements closed so far. -/
  closed : List DataParser

def Loader.elements (loader : Loader) : List DataParser :=
  loader.producer :: (loader.producerStack ++ loader.closed)

/-- The document so far, with the open elements as they are. -/
def Loader.document (loader : Loader) : DocNode :=
  let outermost := loader.producerStack.foldl (fun inner outer => outer.finish inner)
    loader.producer
  .mk outermost.self outermost.children

abbrev LoadM := EStateM LoadError Loader

def modifyProducer (f : DataParser → DataParser) : LoadM Unit :=
  modify fun loader => { loader with producer := f loader.producer }

def setTextBuffer (value : List UInt8) : LoadM Unit :=
  modify fun loader => { loader with textBuffer := value }

/-- `insert_element`, `insert_attribute`, `insert_comment`, `insert_pi` and
`insert_namespace` as the loader calls them: after `left`, which is the last child, or as
the first child of `self`. -/
def insertNode (isText : Bool) : LoadM Unit := do
  let loader ← get
  let parser := loader.producer
  match createNID loader.sizehnt (parser.left.map Child.nid) none parser.self with
  | .error error => throw (.nid error)
  | .ok nid =>
    modifyProducer fun _ => { parser with
      left := some ⟨nid, isText⟩
      given := parser.given ++ [⟨loader.sizehnt, nidGetPrefix nid⟩]
      children := parser.children ++ [.mk nid []] }

/-- `addTextNode`: `insert_text` appends to a text node on the left. -/
def addTextNode : LoadM Unit := do
  let loader ← get
  if loader.producer.left.any Child.isText then pure () else insertNode true
  modifyProducer fun parser => { parser with hasText := true }

def flushText (stripBoundarySpaces : Bool) (value : List UInt8) : LoadM Unit := do
  let loader ← get
  if value = [] then pure ()
  else do
    if stripBoundarySpaces && loader.tailingWhitespaceBuffer ≠ [] then do
      addTextNode
      modify fun loader => { loader with tailingWhitespaceBuffer := [] }
    addTextNode

def processText (stripTrailingSpaces saveTrailingWhitespaces breaksWhitespaces : Bool) :
    LoadM Unit := do
  let loader ← get
  let strip := loader.stripBoundarySpaces
  let parser := loader.producer
  let text := loader.textBuffer
  if text = [] then
    if breaksWhitespaces then
      modifyProducer fun parser => { parser with stripLeftSpaces := false }
  else if strip && breaksWhitespaces && !parser.stripLeftSpaces && !parser.hasText &&
      whitespaceOnly text then
    setTextBuffer []
  else if strip && parser.stripLeftSpaces && clearLeftSpaces text = [] then do
    modifyProducer fun parser => { parser with stripLeftSpaces := !breaksWhitespaces }
    setTextBuffer []
  else do
    let text := if strip && parser.stripLeftSpaces then clearLeftSpaces text else text
    let tailingWhitespace := if strip && stripTrailingSpaces then getRightSpaces text else []
    modifyProducer fun parser => { parser with
      stripLeftSpaces := !strip && parser.stripLeftSpaces }
    flushText strip (text.take (text.length - tailingWhitespace.length))
    setTextBuffer (if saveTrailingWhitespaces then tailingWhitespace else [])
    if breaksWhitespaces then
      modifyProducer fun parser => { parser with stripLeftSpaces := false }

/-- `DataParser::init`, for the node inserted last or for the document node. -/
def DataParser.init (level : Nat) (self : TNid) (hint : NidHint) : DataParser :=
  { level, self, hint }

/-- `result->init(left)`: the child's parser takes over, under the hint of its level. -/
def openChild : LoadM Unit := do
  let loader ← get
  let parser := loader.producer
  match parser.left, loader.numbSchemeHints[parser.level + 1]? with
  | some child, some hint =>
    modify fun loader => { loader with
      sizehnt := some hint
      producer := .init (parser.level + 1) child.nid hint
      producerStack := { parser with nextChildNamespaces := 0 } :: loader.producerStack }
  | _, _ => throw .outOfRange

def addElement : LoadM Unit := do
  processText false false true
  insertNode false
  let loader ← get
  openChild
  (List.range loader.producer.nextChildNamespaces).forM fun _ => insertNode false

def addText (value : List UInt8) : LoadM Unit := do
  if textBufferSize < value.length then throw .textExceedsBuffer
  else do
    let loader ← get
    let rest := textBufferSize - loader.textBuffer.length
    if rest < value.length then do
      setTextBuffer (loader.textBuffer ++ value.take rest)
      processText true true false
      let loader ← get
      if textBufferSize - loader.textBuffer.length < value.length then
        modify fun loader => { loader with
          tailingWhitespaceBuffer := loader.tailingWhitespaceBuffer ++ loader.textBuffer
          textBuffer := [] }
      modify fun loader => { loader with textBuffer := loader.textBuffer ++ value.drop rest }
    else
      setTextBuffer (loader.textBuffer ++ value)

/-- `DataParser::close`, and the pop of the producer stack in `elementEnd`. -/
def close : LoadM Unit := do
  processText true false true
  let loader ← get
  match loader.producerStack with
  | [] => throw .unbalanced
  | outer :: stack =>
    modify fun loader => { loader with
      tailingWhitespaceBuffer :=
        if loader.stripBoundarySpaces then [] else loader.tailingWhitespaceBuffer
      sizehnt := none
      producer := outer.finish loader.producer
      producerStack := stack
      closed := loader.producer :: loader.closed }

def call {Q : Type} : Call Q → LoadM Unit
  | .addNS =>
    modifyProducer fun parser => { parser with
      nextChildNamespaces := parser.nextChildNamespaces + 1 }
  | .addElement _ => addElement
  | .addAttribute _ => insertNode false
  | .addText value => addText value
  | .addComment => do
    processText false false true
    insertNode false
  | .addPI => do
    processText false false true
    insertNode false
  | .close => close
  | .startCData => do
    processText false false true
    modify fun loader => { loader with
      saveWSOption := loader.stripBoundarySpaces
      stripBoundarySpaces := false }
  | .endCData => do
    processText false false true
    modify fun loader => { loader with stripBoundarySpaces := loader.saveWSOption }

def Loader.start (hints : List NidHint) (hint : NidHint) (stripBoundarySpaces : Bool)
    (docNode : TNid) : Loader where
  numbSchemeHints := hints
  sizehnt := some hint
  stripBoundarySpaces := stripBoundarySpaces
  saveWSOption := false
  textBuffer := []
  tailingWhitespaceBuffer := []
  producer := .init 0 docNode hint
  producerStack := []
  closed := []

/-- `BulkLoader::loadDocument` for a document node labelled `docNode`: what the loader has
done when the second pass ends or stops with an error. -/
def loadDocument {Q : Type} [DecidableEq Q] (indefinite : Int32) (stripBoundarySpaces : Bool)
    (docNode : TNid) (calls : List (Call Q)) : EStateM.Result LoadError Loader Unit :=
  let hints := numbSchemeHints indefinite (nodeStatistics stripBoundarySpaces calls)
  calls.forM call (Loader.start hints (hints.getD 0 ⟨1, defLetter⟩) stripBoundarySpaces docNode)

end Sedna.Nid.BulkLoad
