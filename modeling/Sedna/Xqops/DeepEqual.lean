import Mathlib
import Sedna.Structures.Schema

/-!
# Deep equality of nodes

The node comparison of `PPFnDeepEqual.cpp`.  The lookup of attributes goes through the schema node
of an element, which is shared by all elements of one path.  Values of type `V` are compared by a
collation.
-/

namespace Sedna.Xqops.DeepEqual

open Structures.Schema List

/-! ## Nodes -/

structure ElementScm where
  xmlns : Option Xmlns
  name : Option String
  children : List ScRef
  deriving DecidableEq

structure Attribute (V : Type) where
  slot : Nat
  scm : ScRef
  value : V
  deriving DecidableEq

/-- A node of the content of a node with its right siblings, or the end of the siblings. -/
inductive Siblings (V : Type) where
  | none
  | element (scm : ElementScm) (attrs : List (Attribute V)) (content right : Siblings V)
  | text (value : V) (right : Siblings V)
  | comment (value : V) (right : Siblings V)
  | prIns (target : String) (value : V) (right : Siblings V)

inductive Node (V : Type) where
  | element (scm : ElementScm) (attrs : List (Attribute V)) (content : Siblings V)
  | document (content : Siblings V)
  | attribute (scm : ScRef) (value : V)
  | text (value : V)
  | comment (value : V)
  | prIns (target : String) (value : V)

/-! ## Comparison -/

def compareFullSchemaNames (xmlns1 : Option Xmlns) (name1 : Option String)
    (xmlns2 : Option Xmlns) (name2 : Option String) : Bool :=
  name2 = name1 &&
    match xmlns1, xmlns2 with
    | none, none => true
    | some ns1, some ns2 => ns2.uri = ns1.uri
    | _, _ => false

section

variable {V : Type}

def getChildAt (attrs : List (Attribute V)) (slot : Nat) : Option (Attribute V) :=
  attrs.find? fun a => a.slot = slot

def findAttribute (scm : ElementScm) (attrs : List (Attribute V)) (name : Option String)
    (xmlns : Option Xmlns) : Option (Attribute V) :=
  Structures.Schema.findAttribute (getChildAt attrs) scm.children name (uriOf xmlns)

variable (same : V → V → Bool)

def areAttributesEqual (scm1 : ScRef) (value1 : V) (scm2 : ScRef) (value2 : V) : Bool :=
  compareFullSchemaNames scm1.xmlns scm1.name scm2.xmlns scm2.name && same value1 value2

def areHeadsEqual (scm1 : ElementScm) (attrs1 : List (Attribute V)) (scm2 : ElementScm)
    (attrs2 : List (Attribute V)) : Bool :=
  compareFullSchemaNames scm1.xmlns scm1.name scm2.xmlns scm2.name &&
  attrs1.all (fun a =>
    match findAttribute scm2 attrs2 a.scm.name a.scm.xmlns with
    | none => false
    | some nd => areAttributesEqual same a.scm a.value nd.scm nd.value) &&
  attrs1.length = attrs2.length

def skip : Siblings V → Siblings V
  | .comment _ right => skip right
  | .prIns _ _ right => skip right
  | s => s

def areDocumentsDeepEqual : Siblings V → Siblings V → Bool
  | .none, s => match skip s with | .none => true | _ => false
  | .comment _ right, s => areDocumentsDeepEqual right s
  | .prIns _ _ right, s => areDocumentsDeepEqual right s
  | .text value right, s =>
    match skip s with
    | .text value' right' => same value value' && areDocumentsDeepEqual right right'
    | _ => false
  | .element scm attrs content right, s =>
    match skip s with
    | .element scm' attrs' content' right' =>
      areHeadsEqual same scm attrs scm' attrs' && areDocumentsDeepEqual content content' &&
        areDocumentsDeepEqual right right'
    | _ => false

def areNodesDeepEqual : Node V → Node V → Bool
  | .element scm attrs content, .element scm' attrs' content' =>
    areHeadsEqual same scm attrs scm' attrs' && areDocumentsDeepEqual same content content'
  | .document content, .document content' => areDocumentsDeepEqual same content content'
  | .attribute scm value, .attribute scm' value' => areAttributesEqual same scm value scm' value'
  | .text value, .text value' => same value value'
  | .comment value, .comment value' => same value value'
  | .prIns target value, .prIns target' value' => target = target' && same value value'
  | _, _ => false

end

/-! ## What should count -/

def ElementScm.expandedName (scm : ElementScm) : ExpandedName := (uriOf scm.xmlns, scm.name)

/-- The content without prefixes, order of attributes, comments and instructions, and with the
values up to the collation. -/
inductive Content (Q : Type) where
  | none
  | element (name : ExpandedName) (attrs : Multiset (ExpandedName × Q)) (content right : Content Q)
  | text (value : Q) (right : Content Q)

section

variable {V Q : Type}

def Attribute.named (a : Attribute V) : ExpandedName × V := (a.scm.expandedName, a.value)

def attrsContent (key : V → Q) (attrs : List (Attribute V)) : Multiset (ExpandedName × Q) :=
  (attrs.map Attribute.named).map (Prod.map id key)

def Siblings.toContent (key : V → Q) : Siblings V → Content Q
  | .none => .none
  | .element scm attrs content right =>
    .element scm.expandedName (attrsContent key attrs) (content.toContent key) (right.toContent key)
  | .text value right => .text (key value) (right.toContent key)
  | .comment _ right => right.toContent key
  | .prIns _ _ right => right.toContent key

def Node.toContent (key : V → Q) : Node V → TItem × ExpandedName × Content Q
  | .element scm attrs content => (.element, scm.expandedName,
      .element scm.expandedName (attrsContent key attrs) (content.toContent key) .none)
  | .document content => (.document, (none, none), content.toContent key)
  | .attribute scm value => (.attribute, scm.expandedName, .text (key value) .none)
  | .text value => (.text, (none, none), .text (key value) .none)
  | .comment value => (.comment, (none, none), .text (key value) .none)
  | .prIns target value => (.prIns, (none, some target), .text (key value) .none)

/-- One change that must not count: other prefixes and another order of the attributes of an
element, or a comment or an instruction less. -/
inductive Siblings.Step : Siblings V → Siblings V → Prop
  | element {scm scm' : ElementScm} {attrs attrs' : List (Attribute V)} {content right} :
      scm.expandedName = scm'.expandedName →
      (attrs.map Attribute.named).Perm (attrs'.map Attribute.named) →
      Step (.element scm attrs content right) (.element scm' attrs' content right)
  | comment {value right} : Step (.comment value right) right
  | prIns {target value right} : Step (.prIns target value right) right
  | content {scm attrs content content' right} : Step content content' →
      Step (.element scm attrs content right) (.element scm attrs content' right)
  | afterElement {scm attrs content right right'} : Step right right' →
      Step (.element scm attrs content right) (.element scm attrs content right')
  | afterText {value right right'} : Step right right' →
      Step (.text value right) (.text value right')
  | afterComment {value right right'} : Step right right' →
      Step (.comment value right) (.comment value right')
  | afterPrIns {target value right right'} : Step right right' →
      Step (.prIns target value right) (.prIns target value right')

inductive Node.Step : Node V → Node V → Prop
  | element {scm scm' : ElementScm} {attrs attrs' : List (Attribute V)} {content} :
      scm.expandedName = scm'.expandedName →
      (attrs.map Attribute.named).Perm (attrs'.map Attribute.named) →
      Step (.element scm attrs content) (.element scm' attrs' content)
  | content {scm attrs content content'} : Siblings.Step content content' →
      Step (.element scm attrs content) (.element scm attrs content')
  | document {content content'} : Siblings.Step content content' →
      Step (.document content) (.document content')
  | renamed {scm scm' : ScRef} {value} : scm.expandedName = scm'.expandedName →
      Step (.attribute scm value) (.attribute scm' value)

structure InSlots (scm : ElementScm) (attrs : List (Attribute V)) : Prop where
  stored : ∀ a ∈ attrs, scm.children[a.slot]? = some a.scm ∧ a.scm.type = .attribute
  nodup : (attrs.map Attribute.slot).Nodup

variable (S : ElementScm → Prop)

def Siblings.Over : Siblings V → Prop
  | .none => True
  | .element scm attrs content right => S scm ∧ InSlots scm attrs ∧ content.Over ∧ right.Over
  | .text _ right => right.Over
  | .comment _ right => right.Over
  | .prIns _ _ right => right.Over

def Node.Over : Node V → Prop
  | .element scm attrs content => S scm ∧ InSlots scm attrs ∧ content.Over S
  | .document content => content.Over S
  | _ => True

/-- An equivalence on the nodes that does not see prefixes, the order of attributes, comments
and instructions. -/
structure Lawful (same : V → V → Bool) : Prop where
  refl : ∀ n : Node V, n.Over S → areNodesDeepEqual same n n = true
  symm : ∀ m n : Node V, m.Over S → n.Over S →
    areNodesDeepEqual same m n = true → areNodesDeepEqual same n m = true
  trans : ∀ l m n : Node V, l.Over S → m.Over S → n.Over S → areNodesDeepEqual same l m = true →
    areNodesDeepEqual same m n = true → areNodesDeepEqual same l n = true
  insensitive : ∀ m m' n : Node V, m.Over S → m'.Over S → n.Over S → m.Step m' →
    areNodesDeepEqual same m n = areNodesDeepEqual same m' n ∧
      areNodesDeepEqual same n m = areNodesDeepEqual same n m'

end

/-! ## The lookup -/

/-- The schema node tells its attributes apart by their expanded names. -/
structure Distinguished (scm : ElementScm) : Prop where
  uri_ne : ∀ ref ∈ scm.children, ref.type = .attribute → uriOf ref.xmlns ≠ some ""
  unique : ∀ (i j : Nat) (a b : ScRef), scm.children[i]? = some a → scm.children[j]? = some b →
    a.type = .attribute → b.type = .attribute → a.expandedName = b.expandedName → i = j

theorem compareFullSchemaNames_iff (xmlns1 : Option Xmlns) (name1 : Option String)
    (xmlns2 : Option Xmlns) (name2 : Option String) :
    compareFullSchemaNames xmlns1 name1 xmlns2 name2 = true ↔
      (uriOf xmlns1, name1) = (uriOf xmlns2, name2) := by
  cases xmlns1 <;> cases xmlns2 <;> simp [compareFullSchemaNames, uriOf, @eq_comm _ name2]
  exact and_comm.trans (and_congr_left fun _ => eq_comm)

section

variable {V Q : Type} {scm : ElementScm} {attrs : List (Attribute V)}

theorem findAttribute_eq_some_iff (hscm : Distinguished scm) (hattrs : InSlots scm attrs)
    {ats : ScRef} (hne : uriOf ats.xmlns ≠ some "") {nd : Attribute V} :
    findAttribute scm attrs ats.name ats.xmlns = some nd ↔
      nd ∈ attrs ∧ nd.scm.expandedName = ats.expandedName := by
  rw [findAttribute, Structures.Schema.findAttribute]
  constructor
  · intro hbind
    obtain ⟨slot, hslot, h⟩ := Option.bind_eq_some_iff.1 hbind
    have hfnd := find?_some h
    obtain rfl := of_decide_eq_true hfnd
    rw [findChildFair, findIdx?_eq_some_iff_getElem] at hslot
    obtain ⟨hlt, hsame, -⟩ := hslot
    have hnd := mem_of_find?_eq_some h
    obtain ⟨hstored, -⟩ := hattrs.stored nd hnd
    rw [getElem?_eq_getElem hlt, Option.some.injEq] at hstored
    rw [hstored] at hsame
    exact ⟨hnd, ((ScRef.sameNodeFair_iff hne).1 hsame).2⟩
  · rintro ⟨hnd, hname⟩
    obtain ⟨hstored, htype⟩ := hattrs.stored nd hnd
    -- there is one schema node with the name, so the lookup ends on this slot
    have hfind : findChildFair scm.children (uriOf ats.xmlns) ats.name .attribute =
        some nd.slot := by
      obtain ⟨hlt, hget⟩ := List.getElem?_eq_some_iff.1 hstored
      rw [findChildFair, findIdx?_eq_some_iff_getElem]
      refine ⟨hlt, by rw [hget]; exact (ScRef.sameNodeFair_iff hne).2 ⟨htype, hname⟩, ?_⟩
      intro j hj hsame
      obtain ⟨htype', hname'⟩ := (ScRef.sameNodeFair_iff hne).1 hsame
      have hslot := hscm.unique j nd.slot _ _ (getElem?_eq_getElem (by omega)) hstored htype'
        htype (hname'.trans hname.symm)
      omega
    rw [hfind, Option.bind_some, getChildAt]
    obtain ⟨a, ha⟩ := Option.isSome_iff_exists.1 (find?_isSome.2 ⟨nd, hnd, by simp⟩ :
      (attrs.find? fun a => a.slot = nd.slot).isSome = true)
    have hslot : a.slot = nd.slot := by simpa using find?_some ha
    rw [ha, inj_on_of_nodup_map hattrs.nodup (mem_of_find?_eq_some ha) hnd hslot]

theorem named_nodup (hscm : Distinguished scm) (hattrs : InSlots scm attrs) :
    attrs.Pairwise fun a b => a.scm.expandedName ≠ b.scm.expandedName := by
  refine (pairwise_map.1 hattrs.nodup).imp_of_mem ?_
  intro a b ha hb hslot hname
  obtain ⟨hstored, htype⟩ := hattrs.stored a ha
  obtain ⟨hstored', htype'⟩ := hattrs.stored b hb
  exact hslot (hscm.unique _ _ _ _ hstored hstored' htype htype' hname)

end

/-! ## The comparison -/

section

variable {V Q : Type} {same : V → V → Bool} {key : V → Q}
  (hkey : ∀ v w, same v w = true ↔ key v = key w)

include hkey in
theorem areAttributesEqual_iff (scm1 : ScRef) (value1 : V) (scm2 : ScRef) (value2 : V) :
    areAttributesEqual same scm1 value1 scm2 value2 = true ↔
      scm1.expandedName = scm2.expandedName ∧ key value1 = key value2 := by
  rw [areAttributesEqual, Bool.and_eq_true, compareFullSchemaNames_iff, hkey]
  rfl

include hkey in
theorem areHeadsEqual_iff {scm1 scm2 : ElementScm} {attrs1 attrs2 : List (Attribute V)}
    (h1 : Distinguished scm1) (h2 : Distinguished scm2) (hattrs1 : InSlots scm1 attrs1)
    (hattrs2 : InSlots scm2 attrs2) :
    areHeadsEqual same scm1 attrs1 scm2 attrs2 = true ↔
      scm1.expandedName = scm2.expandedName ∧
        attrsContent key attrs1 = attrsContent key attrs2 := by
  have hne : ∀ a ∈ attrs1, uriOf a.scm.xmlns ≠ some "" := by
    intro a ha
    obtain ⟨hstored, htype⟩ := hattrs1.stored a ha
    exact h1.uri_ne a.scm (mem_of_getElem? hstored) htype
  have hall : attrs1.all (fun a =>
      match findAttribute scm2 attrs2 a.scm.name a.scm.xmlns with
      | none => false
      | some nd => areAttributesEqual same a.scm a.value nd.scm nd.value) = true ↔
      ∀ a ∈ attrs1, ∃ nd ∈ attrs2, nd.scm.expandedName = a.scm.expandedName ∧
        key nd.value = key a.value := by
    rw [all_eq_true]
    refine forall₂_congr fun a ha => ?_
    have hlookup := @findAttribute_eq_some_iff _ _ _ h2 hattrs2 a.scm (hne a ha)
    cases hfind : findAttribute scm2 attrs2 a.scm.name a.scm.xmlns with
    | none =>
      refine iff_of_false (by simp) ?_
      rintro ⟨nd, hnd, hname, -⟩
      rw [hlookup.2 ⟨hnd, hname⟩] at hfind
      cases hfind
    | some nd =>
      obtain ⟨hnd, hname⟩ := hlookup.1 hfind
      refine (areAttributesEqual_iff hkey ..).trans ⟨?_, ?_⟩
      · intro h
        exact ⟨nd, hnd, hname, h.2.symm⟩
      · rintro ⟨nd', hnd', hname', hval⟩
        rw [hlookup.2 ⟨hnd', hname'⟩] at hfind
        cases hfind
        exact ⟨hname.symm, hval.symm⟩
  rw [areHeadsEqual, Bool.and_eq_true, Bool.and_eq_true, compareFullSchemaNames_iff, hall,
    decide_eq_true_eq, and_assoc]
  refine and_congr_right fun _ => ?_
  simp only [attrsContent, map_map, Multiset.coe_eq_coe]
  constructor
  · rintro ⟨hmem, hlen⟩
    refine (subperm_of_subset ?_ ?_).perm_of_length_le (by simp [hlen])
    · refine pairwise_map.2 ((named_nodup h1 hattrs1).imp fun hname h => hname ?_)
      exact congrArg Prod.fst h
    · intro x hx
      obtain ⟨a, ha, rfl⟩ := mem_map.1 hx
      obtain ⟨nd, hnd, hname, hval⟩ := hmem a ha
      exact mem_map.2 ⟨nd, hnd, Prod.ext hname hval⟩
  · intro hperm
    refine ⟨fun a ha => ?_, by simpa using hperm.length_eq⟩
    obtain ⟨nd, hnd, h⟩ := mem_map.1 (hperm.subset (mem_map_of_mem ha))
    exact ⟨nd, hnd, congrArg Prod.fst h, congrArg Prod.snd h⟩

theorem toContent_skip (s : Siblings V) : (skip s).toContent key = s.toContent key := by
  induction s <;> simp_all [skip, Siblings.toContent]

theorem over_skip {S : ElementScm → Prop} {s : Siblings V} (h : s.Over S) : (skip s).Over S := by
  induction s <;> simp_all [skip, Siblings.Over]

theorem skip_cases (s : Siblings V) : skip s = .none ∨
    (∃ value right, skip s = .text value right) ∨
    ∃ scm attrs content right, skip s = .element scm attrs content right := by
  induction s <;> simp_all [skip]

variable {S : ElementScm → Prop} (hS : ∀ scm, S scm → Distinguished scm)

include hkey hS in
theorem areDocumentsDeepEqual_iff (s1 : Siblings V) : ∀ s2 : Siblings V, s1.Over S → s2.Over S →
    (areDocumentsDeepEqual same s1 s2 = true ↔ s1.toContent key = s2.toContent key) := by
  induction s1 with
  | none =>
    intro s2 _ _
    rw [areDocumentsDeepEqual, ← toContent_skip s2]
    rcases skip_cases s2 with h | ⟨_, _, h⟩ | ⟨_, _, _, _, h⟩ <;>
      simp [h, Siblings.toContent]
  | comment _ right ih | prIns _ _ right ih => exact ih
  | text value right ih =>
    intro s2 h1 h2
    have hover := over_skip h2
    rw [areDocumentsDeepEqual, ← toContent_skip s2]
    rcases skip_cases s2 with h | ⟨value', right', h⟩ | ⟨_, _, _, _, h⟩
    · simp [h, Siblings.toContent]
    · rw [h] at hover
      simp [h, Siblings.toContent, hkey, ih right' h1 hover]
    · simp [h, Siblings.toContent]
  | element scm attrs content right ihContent ihRight =>
    rintro s2 ⟨hscm, hattrs, hcont, hright⟩ h2
    have hover := over_skip h2
    rw [areDocumentsDeepEqual, ← toContent_skip s2]
    rcases skip_cases s2 with h | ⟨_, _, h⟩ | ⟨_, _, _, _, h⟩
    · simp [h, Siblings.toContent]
    · simp [h, Siblings.toContent]
    · rw [h] at hover
      obtain ⟨hscm', hattrs', hcont', hright'⟩ := hover
      simp [h, Siblings.toContent, ihContent _ hcont hcont', ihRight _ hright hright',
        areHeadsEqual_iff hkey (hS _ hscm) (hS _ hscm') hattrs hattrs', and_assoc]

include hkey hS in
theorem areNodesDeepEqual_iff {m n : Node V} (hm : m.Over S) (hn : n.Over S) :
    areNodesDeepEqual same m n = true ↔ m.toContent key = n.toContent key := by
  cases m <;> cases n <;> simp [areNodesDeepEqual, Node.toContent, hkey]
  case element.element =>
    simp [areHeadsEqual_iff hkey (hS _ hm.1) (hS _ hn.1) hm.2.1 hn.2.1, and_assoc,
      areDocumentsDeepEqual_iff hkey hS _ _ hm.2.2 hn.2.2]
  case document.document => exact areDocumentsDeepEqual_iff hkey hS _ _ hm hn
  case attribute.attribute => exact areAttributesEqual_iff hkey ..

theorem attrsContent_perm (key : V → Q) {attrs attrs' : List (Attribute V)}
    (h : (attrs.map Attribute.named).Perm (attrs'.map Attribute.named)) :
    attrsContent key attrs = attrsContent key attrs' :=
  Multiset.coe_eq_coe.2 (h.map _)

theorem toContent_step (key : V → Q) {s s' : Siblings V} (h : s.Step s') :
    s.toContent key = s'.toContent key := by
  induction h with
  | element hname hattrs => simp [Siblings.toContent, hname, attrsContent_perm key hattrs]
  | comment => rfl
  | prIns => rfl
  | content _ ih | afterElement _ ih | afterText _ ih => simp [Siblings.toContent, ih]
  | afterComment _ ih => exact ih
  | afterPrIns _ ih => exact ih

theorem Node.toContent_step (key : V → Q) {m m' : Node V} (h : m.Step m') :
    m.toContent key = m'.toContent key := by
  cases h with
  | element hname hattrs => simp [Node.toContent, hname, attrsContent_perm key hattrs]
  | content h | document h => simp [Node.toContent, DeepEqual.toContent_step key h]
  | renamed hname => simp [Node.toContent, hname]

end

/-! ## The laws -/

section

variable {V : Type} {same : V → V → Bool} {S : ElementScm → Prop}

theorem lawful_of_distinguished (hsame : Equivalence fun v w => same v w = true)
    (hS : ∀ scm, S scm → Distinguished scm) : Lawful S same := by
  let values : Setoid V := ⟨_, hsame⟩
  have hkey : ∀ v w, same v w = true ↔ (Quotient.mk values v) = Quotient.mk values w :=
    fun v w => (Quotient.eq (r := values)).symm
  have hiff := fun {m n : Node V} => @areNodesDeepEqual_iff V _ same _ hkey S hS m n
  constructor
  · intro n hn
    exact (hiff hn hn).2 rfl
  · intro m n hm hn h
    exact (hiff hn hm).2 ((hiff hm hn).1 h).symm
  · intro l m n hl hm hn hlm hmn
    exact (hiff hl hn).2 (((hiff hl hm).1 hlm).trans ((hiff hm hn).1 hmn))
  · intro m m' n hm hm' hn hstep
    have heq := Node.toContent_step (Quotient.mk values) hstep
    constructor
    · rw [Bool.eq_iff_iff, hiff hm hn, hiff hm' hn, heq]
    · rw [Bool.eq_iff_iff, hiff hn hm, hiff hn hm', heq]

theorem findChildFair_of_refl (h : Lawful S same) (value : V) {scm : ElementScm} (hscm : S scm)
    {i : Nat} {ref : ScRef} (href : scm.children[i]? = some ref) (htype : ref.type = .attribute) :
    findChildFair scm.children (uriOf ref.xmlns) ref.name .attribute = some i := by
  have hself := h.refl (.element scm [⟨i, ref, value⟩] .none)
    ⟨hscm, ⟨by simp [href, htype], by simp⟩, trivial⟩
  by_contra hne
  have hnone : findAttribute scm [⟨i, ref, value⟩] ref.name ref.xmlns = none := by
    rw [findAttribute, Structures.Schema.findAttribute, Option.bind_eq_none_iff]
    rintro slot hslot
    simpa [getChildAt] using fun heq : i = slot => hne (heq ▸ hslot)
  simp [areNodesDeepEqual, areHeadsEqual, hnone] at hself

/-- The comparison is lawful on the elements of some schema nodes if and only if no two
attributes of one of these schema nodes have the same expanded name. -/
theorem deepEqual_lawful_iff [Nonempty V] (hsame : Equivalence fun v w => same v w = true) :
    Lawful S same ↔ ∀ scm, S scm → Distinguished scm := by
  refine ⟨fun h scm hscm => ⟨?_, ?_⟩, lawful_of_distinguished hsame⟩
  · intro ref href htype huri
    obtain ⟨i, hi, rfl⟩ := getElem_of_mem href
    have hfind := findChildFair_of_refl h (Classical.arbitrary V) hscm
      (getElem?_eq_getElem hi) htype
    rw [findChildFair, findIdx?_eq_some_iff_getElem] at hfind
    obtain ⟨_, hfair, -⟩ := hfind
    rw [huri] at hfair
    obtain ⟨ns, hns, -⟩ := Option.map_eq_some_iff.1 huri
    simp [ScRef.sameNodeFair, sameXmlnsUri, uriOf, hns] at hfair
  · intro i j a b ha hb htype htype' hname
    have hi := findChildFair_of_refl h (Classical.arbitrary V) hscm ha htype
    have hj := findChildFair_of_refl h (Classical.arbitrary V) hscm hb htype'
    obtain ⟨huri, hlocal⟩ := Prod.mk.inj hname
    rw [huri, hlocal, hj] at hi
    exact (Option.some.inj hi).symm

end

/-- Elements `e` of which one has had the attribute `p:a` and another one `q:a`, with one URI
for both prefixes. -/
def twoPrefixes : ElementScm :=
  ⟨none, some "e",
    [⟨some "a", some ⟨"p", "u"⟩, .attribute⟩, ⟨some "a", some ⟨"q", "u"⟩, .attribute⟩]⟩

theorem beq_equivalence : Equivalence fun v w : String => (v == w) = true :=
  ⟨fun _ => beq_self_eq_true _, fun h => by simp_all, fun h h' => by simp_all⟩

theorem deepEqual_lawful_onePrefix :
    Lawful (· = { twoPrefixes with children := twoPrefixes.children.take 1 })
      (fun v w : String => v == w) := by
  refine (deepEqual_lawful_iff beq_equivalence).2 fun scm hscm => ?_
  subst hscm
  refine ⟨by simp [twoPrefixes, uriOf], fun i j a b ha hb _ _ _ => ?_⟩
  have hi := (List.getElem?_eq_some_iff.1 ha).1
  have hj := (List.getElem?_eq_some_iff.1 hb).1
  simp only [twoPrefixes, take_succ_cons, take_zero, length_cons, length_nil] at hi hj
  omega

/-- The element with the attribute `q:a` is not equal to itself. -/
theorem deepEqual_not_reflexive :
    InSlots twoPrefixes [⟨1, ⟨some "a", some ⟨"q", "u"⟩, .attribute⟩, "1"⟩] ∧
    areNodesDeepEqual (fun v w : String => v == w)
      (.element twoPrefixes [⟨1, ⟨some "a", some ⟨"q", "u"⟩, .attribute⟩, "1"⟩] .none)
      (.element twoPrefixes [⟨1, ⟨some "a", some ⟨"q", "u"⟩, .attribute⟩, "1"⟩] .none) = false :=
  ⟨⟨by simp [twoPrefixes], by simp⟩, by decide⟩

end Sedna.Xqops.DeepEqual
