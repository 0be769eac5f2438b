/-!
# Schema nodes

The name and the type of a schema node, as its parent's child list has them,
and the searches of `schema.cpp` in that list.
-/

namespace Sedna.Structures.Schema

inductive TItem where
  | element
  | text
  | attribute
  | document
  | virtualRoot
  | xmlNamespace
  | comment
  | prIns
  deriving DecidableEq

def TItem.code : TItem → Nat
  | .element => 0x1
  | .text => 0x2
  | .attribute => 0x4
  | .document => 0x8
  | .virtualRoot => 0x10
  | .xmlNamespace => 0x20
  | .comment => 0x40
  | .prIns => 0x80

/-- `xmlns_local_object`.  `xmlns_touch` keeps one object for a prefix and a URI, so that two
pointers are equal just when both strings are. -/
structure Xmlns (S : Type := String) where
  pref : S
  uri : S
  deriving DecidableEq

structure ScRef where
  name : Option String
  xmlns : Option Xmlns
  type : TItem
  deriving DecidableEq

def uriOf (xmlns : Option Xmlns) : Option String := xmlns.map Xmlns.uri

abbrev ExpandedName := Option String × Option String

def ScRef.expandedName (ref : ScRef) : ExpandedName := (uriOf ref.xmlns, ref.name)

def sameXmlnsUri (ns : Option Xmlns) (uri : Option String) : Bool :=
  uriOf ns = if uri = some "" then none else uri

def ScRef.sameNodeFair (ref : ScRef) (uri name : Option String) (type : TItem) : Bool :=
  ref.name = name && ref.type = type && sameXmlnsUri ref.xmlns uri

def findChildFair (refs : List ScRef) (uri name : Option String) (type : TItem) : Option Nat :=
  refs.findIdx? fun ref => ref.sameNodeFair uri name type

/-- `findAttribute` of an element whose schema node has the children `refs`. -/
def findAttribute {A : Type _} (getChildAt : Nat → Option A) (refs : List ScRef)
    (name uri : Option String) : Option A :=
  (findChildFair refs uri name .attribute).bind getChildAt

theorem ScRef.sameNodeFair_iff {ref : ScRef} {uri name : Option String} {type : TItem}
    (hne : uri ≠ some "") :
    ref.sameNodeFair uri name type = true ↔ ref.type = type ∧ ref.expandedName = (uri, name) := by
  simp only [sameNodeFair, sameXmlnsUri, if_neg hne, expandedName, Bool.and_eq_true,
    decide_eq_true_eq, Prod.mk.injEq]
  exact ⟨fun h => ⟨h.1.2, h.2, h.1.1⟩, fun h => ⟨⟨h.2.2, h.1⟩, h.2.1⟩⟩

end Sedna.Structures.Schema
