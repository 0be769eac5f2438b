import Sedna.XPath.NodeStore

/-!
# Access to children

In a store that holds a document the functions of `nodes.cpp` find the first
and the last child of a node, and the comparisons of labels tell document
order and ancestors.
-/

namespace Sedna.XPath

open Library.TreeZipper Nid.Roots Structures.Schema List NodeStore Tree Option

variable {α : Type*} [DecidableEq α] {st : NodeStore α} {doc : Tree α}

variable {x y a : α} {t : Tree α} {cs : List (Crumb α)} {ls rs : List (Tree α)}

namespace Stored

variable (h : Stored st doc)
include h

theorem effective_of_docBefore (hxy : DocBefore doc x y) :
    st.nidCmpEffective x y < 0 ∧ st.nidCmpEffective y x > 0 ∧
      (st.nidCmpEffective x y = -2 ↔ Descendant doc x y) ∧
      (st.nidCmpEffective y x = 2 ↔ Descendant doc x y) := by
  have hne := docBefore_ne h.nodup hxy
  obtain ⟨hx, hy⟩ := docBefore_mem hxy
  rw [NodeStore.nidCmpEffective, NodeStore.nidCmpEffective, Nid.NumbScheme.nidCmpEffective,
    Nid.NumbScheme.nidCmpEffective, if_neg hne, if_neg hne.symm, h.labelBelow x hx y hy]
  rcases effective_of_lexCmp (h.labelOrder x y hxy) with ⟨hlt, hgt, hyes⟩ | ⟨hlt, hgt, hnot⟩
  · rw [hlt, hgt]
    exact ⟨by decide, by decide, iff_of_true rfl hyes, iff_of_true rfl hyes⟩
  · rw [hlt, hgt]
    exact ⟨by decide, by decide, iff_of_false (by decide) hnot, iff_of_false (by decide) hnot⟩

theorem effective_neg_iff (hx : x ∈ doc.preorder) (hy : y ∈ doc.preorder) :
    st.nidCmpEffective x y < 0 ↔ DocBefore doc x y := by
  constructor
  · intro hlt
    have hne : x ≠ y := by
      rintro rfl
      simp [Nid.NumbScheme.nidCmpEffective] at hlt
    rcases docBefore_total hx hy hne with hxy | hyx
    · exact hxy
    · have := (h.effective_of_docBefore hyx).2.1
      omega
  · intro hxy
    exact (h.effective_of_docBefore hxy).1

theorem not_descendant_self (x : α) : ¬ Descendant doc x x := fun hx =>
  docBefore_ne h.nodup (docBefore_of_descendant hx) rfl

theorem effective_eq_neg_two_iff (hx : x ∈ doc.preorder) (hy : y ∈ doc.preorder) :
    st.nidCmpEffective x y = -2 ↔ Descendant doc x y := by
  constructor
  · intro heq
    have hxy := (h.effective_neg_iff hx hy).1 (by omega)
    exact (h.effective_of_docBefore hxy).2.2.1.1 heq
  · intro hxy
    exact (h.effective_of_docBefore (docBefore_of_descendant hxy)).2.2.1.2 hxy

theorem effective_below_iff {b : α} (hx : x ∈ doc.preorder) (hb : b ∈ doc.preorder) :
    (st.nidCmpEffective x b = 2 ∨ st.nidCmpEffective x b = 0) ↔ x = b ∨ Descendant doc b x := by
  by_cases heq : x = b
  · simp [heq, Nid.NumbScheme.nidCmpEffective]
  · rcases docBefore_total hx hb heq with hxb | hbx
    · have hlt := (h.effective_of_docBefore hxb).1
      constructor
      · intro h'
        omega
      · rintro (h' | h')
        · exact absurd h' heq
        · exact absurd (docBefore_of_descendant h') (docBefore_asymm h.nodup hxb)
    · obtain ⟨-, hgt, -, htwo⟩ := h.effective_of_docBefore hbx
      rw [htwo, or_iff_left (by omega), or_iff_right heq]

theorem nidCmp_neg_iff (hx : x ∈ doc.preorder) (hy : y ∈ doc.preorder) :
    st.nidCmp x y < 0 ↔ DocBefore doc x y := by
  constructor
  · intro hlt
    have hne : x ≠ y := by
      rintro rfl
      simp [Nid.NumbScheme.nidCmp] at hlt
    rcases docBefore_total hx hy hne with hxy | hyx
    · exact hxy
    · rw [NodeStore.nidCmp, Nid.NumbScheme.nidCmp, if_neg hne, lexCmp_swap] at hlt
      have horder := h.labelOrder y x hyx
      rw [NodeStore.label, NodeStore.label] at horder
      rw [horder] at hlt
      exact absurd hlt (by decide)
  · intro hxy
    have horder := h.labelOrder x y hxy
    rw [NodeStore.label, NodeStore.label] at horder
    rw [NodeStore.nidCmp, Nid.NumbScheme.nidCmp, if_neg (docBefore_ne h.nodup hxy), horder]
    decide

end Stored

/-! ## The better of two children -/

section

variable {better : Int → Bool} {tmask : TypeMask} {entries : List (Option α × TItem)}

def candidates (tmask : TypeMask) (entries : List (Option α × TItem)) : List α :=
  entries.filterMap fun entry => if entry.2 ∈ tmask then entry.1 else none

omit [DecidableEq α] in
theorem mem_candidates :
    y ∈ candidates tmask entries ↔ ∃ type ∈ tmask, (some y, type) ∈ entries := by
  simp [candidates, and_comm]

def betterChild (st : NodeStore α) (better : Int → Bool) (best child : α) : α :=
  if better (st.nidCmpEffective child best) then child else best

theorem bestChild_eq_foldl (best : Option α) : st.bestChild better tmask entries best =
    (best.toList ++ candidates tmask entries).head?.map
      ((best.toList ++ candidates tmask entries).tail.foldl (betterChild st better)) := by
  induction entries generalizing best with
  | nil => cases best <;> rfl
  | cons entry entries ih =>
    obtain ⟨child, type⟩ := entry
    cases child with
    | none => simpa [bestChild, candidates] using ih best
    | some child =>
      by_cases htype : type ∈ tmask
      · cases best with
        | none => simpa [bestChild, candidates, htype] using ih (some child)
        | some b =>
          by_cases hbetter : better (st.nidCmpEffective child b)
          · simpa [bestChild, candidates, htype, betterChild, hbetter] using ih (some child)
          · simpa [bestChild, candidates, htype, betterChild, hbetter] using ih (some b)
      · simpa [bestChild, candidates, htype] using ih best

theorem foldl_betterChild_mem (best : α) (cs : List α) :
    cs.foldl (betterChild st better) best ∈ best :: cs := by
  induction cs generalizing best with
  | nil => exact mem_cons_self
  | cons child cs ih =>
    rcases mem_cons.1 (ih (betterChild st better best child)) with heq | hmem
    · rw [foldl_cons, heq, betterChild]
      split_ifs <;> simp
    · exact mem_cons_of_mem _ (mem_cons_of_mem _ hmem)

def NotAfter (doc : Tree α) (x y : α) : Prop := x = y ∨ Tree.DocBefore doc x y

theorem Stored.foldl_betterChild_first (h : Stored st doc) (best : α) (cs : List α)
    (hmem : ∀ y ∈ best :: cs, y ∈ doc.preorder) :
    ∀ y ∈ best :: cs, NotAfter doc (cs.foldl (betterChild st fun cmp => cmp < 0) best) y := by
  have htrans : ∀ {x y z : α}, NotAfter doc x y → NotAfter doc y z → NotAfter doc x z := by
    rintro x y z (rfl | hxy) (rfl | hyz)
    · exact .inl rfl
    · exact .inr hyz
    · exact .inr hxy
    · exact .inr (docBefore_trans h.nodup hxy hyz)
  induction cs generalizing best with
  | nil => simp [NotAfter]
  | cons child cs ih =>
    have hb := hmem best mem_cons_self
    have hc := hmem child (by simp)
    -- the better one of the two comes before neither
    have hbetter : betterChild st (fun cmp => cmp < 0) best child ∈ doc.preorder ∧
        NotAfter doc (betterChild st (fun cmp => cmp < 0) best child) best ∧
        NotAfter doc (betterChild st (fun cmp => cmp < 0) best child) child := by
      have hneg := h.effective_neg_iff hc hb
      by_cases hlt : st.nidCmpEffective child best < 0
      · rw [betterChild, if_pos (by simpa using hlt)]
        exact ⟨hc, .inr (hneg.1 hlt), .inl rfl⟩
      · rw [betterChild, if_neg (by simpa using hlt)]
        by_cases hne : best = child
        · exact ⟨hb, .inl rfl, .inl hne⟩
        · refine ⟨hb, .inl rfl, .inr ?_⟩
          exact (docBefore_total hb hc hne).resolve_right fun hcb => hlt (hneg.2 hcb)
    have hrest := ih _ (forall_mem_cons.2 ⟨hbetter.1, fun y hy => hmem y (by simp [hy])⟩)
    obtain ⟨hfst, hrest⟩ := forall_mem_cons.1 hrest
    exact forall_mem_cons.2 ⟨htrans hfst hbetter.2.1,
      forall_mem_cons.2 ⟨htrans hfst hbetter.2.2, hrest⟩⟩

end

/-! ## Links -/

omit [DecidableEq α] in
theorem child_rebuild {ts : List (Tree α)} (hl : Loc.rebuild ⟨.node a ts, cs⟩ = doc)
    (hts : ts = ls ++ t :: rs) : Loc.rebuild ⟨t, ⟨ls.reverse, a, rs⟩ :: cs⟩ = doc := by
  rw [rebuild_child, reverse_reverse, ← hts, hl]

theorem schemaAt_append (schema : Tree ScRef) (path : SchemaPath) (i : Nat) :
    schemaAt schema (path ++ [i]) = (schemaAt schema path).bind fun scn => scn.children[i]? := by
  induction path generalizing schema with
  | nil => simp [schemaAt]
  | cons j path ih =>
    simp only [cons_append, schemaAt]
    cases schema.children[j]? with
    | none => rfl
    | some child => exact ih child

omit [DecidableEq α] in
theorem child_mem_preorder {ts : List (Tree α)} (hl : Loc.rebuild ⟨.node a ts, cs⟩ = doc)
    (hy : y ∈ ts.map value) : y ∈ doc.preorder := by
  obtain ⟨t, ht, rfl⟩ := mem_map.1 hy
  obtain ⟨ls, rs, hts⟩ := append_of_mem ht
  exact mem_preorder (child_rebuild hl hts)

namespace Stored

variable (h : Stored st doc)
include h

theorem getRight_some {r : Tree α} (hl : Loc.rebuild ⟨t, ⟨ls, a, r :: rs⟩ :: cs⟩ = doc) :
    st.getRight t.value = some r.value :=
  h.right _ hl

theorem getRight_none (hl : Loc.rebuild ⟨t, ⟨ls, a, []⟩ :: cs⟩ = doc) :
    st.getRight t.value = none :=
  h.right _ hl

theorem getRight_root (hl : Loc.rebuild ⟨t, []⟩ = doc) : st.getRight t.value = none := h.right _ hl

theorem getLeft_some {l : Tree α} (hl : Loc.rebuild ⟨t, ⟨l :: ls, a, rs⟩ :: cs⟩ = doc) :
    st.getLeft t.value = some l.value :=
  h.left _ hl

theorem getLeft_none (hl : Loc.rebuild ⟨t, ⟨[], a, rs⟩ :: cs⟩ = doc) : st.getLeft t.value = none :=
  h.left _ hl

theorem getLeft_root (hl : Loc.rebuild ⟨t, []⟩ = doc) : st.getLeft t.value = none := h.left _ hl

theorem getActualParent_some {c : Crumb α} (hl : Loc.rebuild ⟨t, c :: cs⟩ = doc) :
    st.getActualParent t.value = some c.value := by
  have hpar : (st.descriptor t.value).parent = some c.value := h.parent _ hl
  have hmem : c.value ∈ doc.preorder := @mem_preorder α (c.plug t) doc cs hl
  rw [getActualParent, hpar]
  exact if_neg (h.noVirtual c.value hmem)

theorem getActualParent_root (hl : Loc.rebuild ⟨t, []⟩ = doc) :
    st.getActualParent t.value = none := by
  have hpar : (st.descriptor t.value).parent = none := h.parent _ hl
  rw [getActualParent, hpar]

/-! ## Children -/

theorem type_eq_of_sort_eq (hx : x ∈ doc.preorder) (hy : y ∈ doc.preorder)
    (hsort : st.schemaNode x = st.schemaNode y) : st.nodeType x = st.nodeType y := by
  obtain ⟨scn, hscn, htype⟩ := h.sortType x hx
  obtain ⟨scn', hscn', htype'⟩ := h.sortType y hy
  rw [getSchemaNode, hsort] at hscn
  rw [getSchemaNode, hscn, some.injEq] at hscn'
  rw [← htype, ← htype', hscn']

section

variable {a : α} {ts : List (Tree α)} {cs : List (Crumb α)}
  (hl : Loc.rebuild ⟨.node a ts, cs⟩ = doc)
include hl

theorem getChildAt_eq (i : Nat) : st.getChildAt a i =
    (ts.map value).find? fun y => st.schemaNode y = st.schemaNode a ++ [i] :=
  h.childList (.node a ts) (node_mem_subtrees hl) i

theorem childList_entry {i : Nat} (hi : (st.descriptor a).childList[i]? = some (some y)) :
    y ∈ ts.map value ∧ st.schemaNode y = st.schemaNode a ++ [i] := by
  have hfind : st.getChildAt a i = some y := by
    rw [getChildAt, getD_eq_getElem?_getD, hi]
    rfl
  rw [h.getChildAt_eq hl] at hfind
  exact ⟨mem_of_find?_eq_some hfind, by simpa using find?_some hfind⟩

theorem exists_childList_entry {ps qs : List α} (hts : ts.map value = ps ++ y :: qs)
    (hfst : ∀ z ∈ ps, st.schemaNode z ≠ st.schemaNode y) :
    ∃ i : Nat, (st.descriptor a).childList[i]? = some (some y) := by
  have hy : y ∈ ts.map value := by
    rw [hts]
    simp
  obtain ⟨t, ht, rfl⟩ := mem_map.1 hy
  obtain ⟨i, hi⟩ := h.childSort _ (node_mem_subtrees hl) t ht
  refine ⟨i, ?_⟩
  have hfind : st.getChildAt a i = some t.value := by
    rw [h.getChildAt_eq hl, hts, find?_append]
    have hnone : ps.find? (fun y => st.schemaNode y = st.schemaNode a ++ [i]) = none := by
      rw [find?_eq_none]
      intro z hz
      have hne := hfst z hz
      rw [hi] at hne
      simpa using hne
    rw [hnone, find?_cons_of_pos (by simpa using hi)]
    rfl
  rw [getChildAt, getD_eq_getElem?_getD] at hfind
  cases hget : (st.descriptor a).childList[i]? with
  | none => simp [hget] at hfind
  | some entry =>
    rw [hget] at hfind
    exact congrArg some hfind

theorem getFirstChild_eq : st.getFirstChild a = ts.head?.map value := by
  have honly : ∀ child ∈ (st.descriptor a).childList, ∀ y, child = some y →
      st.getLeft y = none → ts.head?.map value = some y := by
    intro child hch y hsome hleft
    obtain ⟨i, hi⟩ := mem_iff_getElem?.1 hch
    obtain ⟨hy, -⟩ := h.childList_entry hl (hsome ▸ hi)
    obtain ⟨t, ht, rfl⟩ := mem_map.1 hy
    obtain ⟨ls, rs, hts⟩ := append_of_mem ht
    have hloc := child_rebuild hl hts
    cases hls : ls.reverse with
    | nil =>
      rw [hts, reverse_eq_nil_iff.1 hls]
      rfl
    | cons l ls' =>
      rw [hls] at hloc
      rw [h.getLeft_some hloc] at hleft
      cases hleft
  cases hts : ts with
  | nil =>
    rw [getFirstChild, head?_nil, map_none, findSome?_eq_none_iff]
    intro child hch
    cases child with
    | none => rfl
    | some y =>
      obtain ⟨i, hi⟩ := mem_iff_getElem?.1 hch
      have hy := (h.childList_entry hl hi).1
      rw [hts] at hy
      exact absurd hy not_mem_nil
  | cons t rest =>
    have hspl : ts = [] ++ t :: rest := hts
    have hloc := child_rebuild hl hspl
    have hvals : ts.map value = [] ++ t.value :: rest.map value := by
      rw [hts, map_cons, nil_append]
    obtain ⟨i, hi⟩ := h.exists_childList_entry hl hvals (by simp)
    cases hfind : st.getFirstChild a with
    | none =>
      have hnone := findSome?_eq_none_iff.1 hfind (some t.value) (mem_iff_getElem?.2 ⟨i, hi⟩)
      simp [h.getLeft_none hloc] at hnone
    | some y =>
      obtain ⟨child, hch, hmatch⟩ := exists_of_findSome?_eq_some hfind
      rw [← hts]
      cases child with
      | none => cases hmatch
      | some z =>
        by_cases hleft : st.getLeft z = none
        · simp only [hleft, if_true] at hmatch
          rw [← hmatch]
          exact (honly _ hch z rfl hleft).symm
        · simp [hleft] at hmatch

/-! ### Children by type -/

theorem typedChildren_entry {type : TItem} (hy : (some y, type) ∈ st.typedChildren a) :
    y ∈ ts.map value ∧ st.nodeType y = type := by
  rw [typedChildren] at hy
  split at hy
  · exact absurd hy not_mem_nil
  next scn hscn =>
    obtain ⟨i, hi⟩ := mem_iff_getElem?.1 hy
    rw [getElem?_zip_eq_some] at hi
    obtain ⟨hmem, hsort⟩ := h.childList_entry hl hi.1
    refine ⟨hmem, ?_⟩
    obtain ⟨scn', hscn', htype⟩ := h.sortType y (child_mem_preorder hl hmem)
    rw [getSchemaNode] at hscn hscn'
    rw [hsort, schemaAt_append, hscn, bind_some] at hscn'
    have hi2 := hi.2
    rw [getElem?_map, hscn', map_some, some.injEq] at hi2
    rw [← htype, hi2]

theorem exists_typedChildren_entry {ps qs : List α} (hts : ts.map value = ps ++ y :: qs)
    (hfst : ∀ z ∈ ps, st.schemaNode z ≠ st.schemaNode y) :
    (some y, st.nodeType y) ∈ st.typedChildren a := by
  obtain ⟨i, hi⟩ := h.exists_childList_entry hl hts hfst
  obtain ⟨hmem, hsort⟩ := h.childList_entry hl hi
  obtain ⟨scn', hscn', htype⟩ := h.sortType y (child_mem_preorder hl hmem)
  rw [getSchemaNode, hsort, schemaAt_append] at hscn'
  rw [typedChildren, getSchemaNode]
  cases hscn : schemaAt st.schema (st.schemaNode a) with
  | none => simp [hscn] at hscn'
  | some scn =>
    rw [hscn, bind_some] at hscn'
    refine mem_iff_getElem?.2 ⟨i, ?_⟩
    rw [getElem?_zip_eq_some]
    refine ⟨hi, ?_⟩
    rw [getElem?_map, hscn', map_some, htype]

theorem getFirstChildByTypeMask_eq {tmask : TypeMask}
    (hsingle : tmask ∩ tiSingletonElement ≠ tmask) (hval : tmask ∪ {.document} ≠ tiAllValid) :
    st.getFirstChildByTypeMask a tmask = (ts.map value).find? fun y => st.nodeType y ∈ tmask := by
  rw [getFirstChildByTypeMask, if_neg hsingle, if_neg hval]
  have hcandidate : ∀ y ∈ candidates tmask (st.typedChildren a),
      y ∈ ts.map value ∧ st.nodeType y ∈ tmask := by
    intro y hy
    obtain ⟨type, htype, hmem⟩ := mem_candidates.1 hy
    obtain ⟨hch, hy⟩ := h.typedChildren_entry hl hmem
    exact ⟨hch, hy ▸ htype⟩
  cases hfind : (ts.map value).find? fun y => st.nodeType y ∈ tmask with
  | none =>
    have hnil : candidates tmask (st.typedChildren a) = [] := by
      rw [eq_nil_iff_forall_not_mem]
      intro y hy
      obtain ⟨hch, htype⟩ := hcandidate y hy
      have := find?_eq_none.1 hfind y hch
      simp [htype] at this
    rw [bestChild_eq_foldl, hnil]
    rfl
  | some f =>
    obtain ⟨hf, ps, qs, hts, hps⟩ := find?_eq_some_iff_append.1 hfind
    have hf : st.nodeType f ∈ tmask := by simpa using hf
    have hps : ∀ z ∈ ps, st.nodeType z ∉ tmask := by simpa using hps
    have hmem : ∀ z ∈ ps ++ f :: qs, z ∈ doc.preorder := by
      intro z hz
      exact child_mem_preorder hl (hts ▸ hz)
    have hent : f ∈ candidates tmask (st.typedChildren a) := by
      refine mem_candidates.2 ⟨_, hf, h.exists_typedChildren_entry hl hts ?_⟩
      intro z hz hsort
      refine hps z hz ?_
      rw [h.type_eq_of_sort_eq (hmem z (by simp [hz])) (hmem f (by simp)) hsort]
      exact hf
    obtain ⟨c, cs, hcs⟩ := exists_cons_of_ne_nil (ne_nil_of_mem hent)
    have hbest := @foldl_betterChild_mem α _ st (fun cmp => cmp < 0) c cs
    rw [← hcs] at hbest
    obtain ⟨hch, htype⟩ := hcandidate _ hbest
    have hfst := h.foldl_betterChild_first c cs
      (fun y hy => child_mem_preorder hl (hcandidate y (hcs ▸ hy)).1) f (hcs ▸ hent)
    rw [bestChild_eq_foldl, toList_none, nil_append, hcs, head?_cons, map_some, some.injEq]
    rcases hfst with heq | hbef
    · exact heq
    · rw [hts, mem_append, mem_cons] at hch
      rcases hch with hleft | heq | hright
      · exact absurd htype (hps _ hleft)
      · exact heq
      · have hafter := docBefore_of_children (node_mem_subtrees hl) hts hright
        exact absurd hafter (docBefore_asymm h.nodup hbef)

end

theorem lastSibling_eq {n : Nat} (hl : Loc.rebuild ⟨t, ⟨ls, a, rs⟩ :: cs⟩ = doc)
    (hn : rs.length < n) :
    st.lastSibling n t.value = .ok ((t :: rs).getLast (List.cons_ne_nil t rs)).value := by
  induction rs generalizing n t ls with
  | nil =>
    cases n with
    | zero => omega
    | succ n =>
      rw [lastSibling, h.getRight_none hl]
      rfl
  | cons r rs ih =>
    cases n with
    | zero => omega
    | succ n =>
      rw [lastSibling, h.getRight_some hl]
      rw [← rebuild_move] at hl
      rw [length_cons] at hn
      simpa using ih hl (by omega)

theorem getLastChild_eq {limit : Nat} {ts : List (Tree α)} (hl : Loc.rebuild ⟨.node a ts, cs⟩ = doc)
    (hlimit : ts.length ≤ limit) : st.getLastChild limit a = .ok (ts.getLast?.map value) := by
  rw [getLastChild, getLastFirstChildByTypeMask]
  rw [bestChild_eq_foldl, toList_none, nil_append]
  cases hcs : candidates tiAll (st.typedChildren a) with
  | nil =>
    cases hts : ts with
    | nil => rfl
    | cons t rest =>
      have hvals : ts.map value = [] ++ t.value :: rest.map value := by
        rw [hts, map_cons, nil_append]
      have hent := h.exists_typedChildren_entry hl hvals (by simp)
      have hall : st.nodeType t.value ∈ tiAll := by
        cases st.nodeType t.value <;> decide
      have hmem := mem_candidates.2 ⟨_, hall, hent⟩
      rw [hcs] at hmem
      cases hmem
  | cons c cs =>
    have hbest := @foldl_betterChild_mem α _ st (fun cmp => cmp > 0) c cs
    rw [← hcs, mem_candidates] at hbest
    obtain ⟨type, -, hmem⟩ := hbest
    obtain ⟨t, ht, heq⟩ := mem_map.1 (h.typedChildren_entry hl hmem).1
    obtain ⟨ls, rs, hts⟩ := append_of_mem ht
    have hlen : rs.length < limit := by
      rw [hts, length_append, length_cons] at hlimit
      omega
    rw [head?_cons, tail_cons, map_some, ← heq]
    dsimp only
    rw [h.lastSibling_eq (child_rebuild hl hts) hlen, hts,
      getLast?_append_of_ne_nil _ (cons_ne_nil t rs)]
    rfl

end Stored

end Sedna.XPath
