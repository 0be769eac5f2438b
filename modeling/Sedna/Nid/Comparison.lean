import Sedna.Nid.Roots
import Sedna.Nid.SizeHints

/-!
# Effective comparison

`nid_cmp_effective` against document order and ancestry.  It has no case for two
labels of one length, so it is right for different nodes only if their labels
differ; in the documents that the generators build this is also enough.
-/

namespace Sedna.Nid.Comparison

open Library.FirstDifference Library.StateInvariant NumbScheme Document Roots BulkLoad List

variable {x y : List Nat} {doc nx ny : DocNode}

/-- The comparison agrees with the labels, with document order and with ancestry. -/
structure Agrees (x y : List Nat) (nx ny : DocNode) : Prop where
  zero : nidCmpEffective x y nx.nid ny.nid = 0 ↔ nx.label = ny.label
  sign : (nidCmpEffective x y nx.nid ny.nid).sign = nidCmp x y nx.nid ny.nid
  bound : (nidCmpEffective x y nx.nid ny.nid).natAbs ≤ 2
  above : nidCmpEffective x y nx.nid ny.nid = -2 ↔ ProperAncestor x y
  below : nidCmpEffective x y nx.nid ny.nid = 2 ↔ ProperAncestor y x
  ancestor : nidAncestor nx.nid ny.nid = true ↔ nidCmpEffective x y nx.nid ny.nid = -2
  descendant : nidAncestor ny.nid nx.nid = true ↔ nidCmpEffective x y nx.nid ny.nid = 2

def AllAgree (doc : DocNode) : Prop :=
  ∀ x y nx ny, nodeAt doc x = some nx → nodeAt doc y = some ny → Agrees x y nx ny

def Distinct (doc : DocNode) : Prop :=
  ∀ x y nx ny, x ≠ y → nodeAt doc x = some nx → nodeAt doc y = some ny → nx.label ≠ ny.label

theorem not_extends_self (p : TPrefix) : ¬ Extends p p := by
  rintro ⟨c, s, heq, -⟩
  simp at heq

theorem not_extends_of_lexCmp {p q : TPrefix} (h : lexCmp p q = -1) : ¬ Extends q p := by
  rintro ⟨c, s, heq, -⟩
  rw [heq, (lexCmp_extend _ s c).2] at h
  omega

theorem agrees_self (x : List Nat) (n : DocNode) : Agrees x x n n := by
  have hnot : ¬ ProperAncestor x x := by
    rintro ⟨k, u, heq⟩
    simp at heq
  have hancestor : ¬ nidAncestor n.nid n.nid = true := fun h =>
    not_extends_self _ (nidAncestor_iff.1 h)
  constructor <;> simp [nidCmpEffective, nidCmp, hnot, hancestor]

theorem agrees_of_lexCmp (hne : x ≠ y) (hcmp : lexCmp nx.label ny.label = -1)
    (hxy : ProperAncestor x y ↔ Extends nx.label ny.label)
    (hyx : ProperAncestor y x ↔ Extends ny.label nx.label) :
    Agrees x y nx ny ∧ Agrees y x ny nx := by
  have hback := not_extends_of_lexCmp hcmp
  have hcmp' : lexCmp ny.label nx.label = 1 := by rw [lexCmp_swap, hcmp]; rfl
  have hlabel : nx.label ≠ ny.label := by
    intro heq
    rw [heq, lexCmp_self] at hcmp
    omega
  have hanc : nidAncestor nx.nid ny.nid = true ↔ Extends nx.label ny.label := nidAncestor_iff
  have hdesc : nidAncestor ny.nid nx.nid = true ↔ Extends ny.label nx.label := nidAncestor_iff
  have hlex : lexCmp (nidGetPrefix nx.nid) (nidGetPrefix ny.nid) = -1 := hcmp
  have hlex' : lexCmp (nidGetPrefix ny.nid) (nidGetPrefix nx.nid) = 1 := hcmp'
  have heffective := effective_of_lexCmp hcmp
  rw [← nidAncestor_iff] at heffective
  rcases heffective with ⟨hlt, hgt, hext⟩ | ⟨hlt, hgt, hext⟩
  all_goals
    constructor <;> constructor <;>
      simp [nidCmpEffective, nidCmp, hne, hne.symm, hlt, hgt, hlex, hlex', hxy, hyx, ← hanc, hdesc,
        hext, hback, hlabel, hlabel.symm]

theorem allAgree_of_wellLabelled (h : WellLabelled doc) : AllAgree doc := by
  intro x y nx ny hx hy
  by_cases heq : x = y
  · subst heq
    obtain rfl := Option.some.inj (hx.symm.trans hy)
    exact agrees_self x nx
  · have hxy := properAncestor_iff h heq hx hy
    have hyx := properAncestor_iff h (Ne.symm heq) hy hx
    rcases lexCmp_of_ne (label_ne h heq hx hy) with hcmp | hcmp
    · exact (agrees_of_lexCmp heq hcmp hxy hyx).1
    · exact (agrees_of_lexCmp (Ne.symm heq) hcmp hyx hxy).2

theorem distinct_of_allAgree (h : AllAgree doc) : Distinct doc := by
  intro x y nx ny hne hx hy hlabel
  -- labels of one length: the code reads on and answers with a difference
  have hzero := (h x y nx ny hx hy).zero.2 hlabel
  have hpre : nidGetPrefix nx.nid = nidGetPrefix ny.nid := hlabel
  rw [nidCmpEffective, if_neg hne, cmpEffective, hpre] at hzero
  simp [lexCmp_self, alphabetSize] at hzero

theorem Grown.wellLabelled {zero : Prop} (h : Grown zero doc) (hzero : ¬ zero) :
    WellLabelled doc := by
  induction h with
  | node hne hlet hch hsib _ ih =>
    exact .node hne hlet hch
      (hsib.imp fun hrel => hrel.resolve_left fun heq => hzero heq.1) ih

theorem wellLabelled_of_distinct {zero : Prop} (h : Grown zero doc) (hdist : Distinct doc) :
    WellLabelled doc := by
  induction h with
  | @node nid children hne hlet hch hsib hsub ih =>
    have hpl (i : Nat) (hi : i < children.length) (u : List Nat) :
        nodeAt (.mk nid children) (i :: u) = nodeAt children[i] u := by
      simp [nodeAt, DocNode.children, hi]
    refine .node hne hlet hch ?_ ?_
    · rw [pairwise_iff_getElem] at hsib ⊢
      intro i j hi hj hij
      refine (hsib i j hi hj hij).resolve_left fun heq => ?_
      exact hdist [i] [j] _ _ (by simpa using hij.ne) (hpl i hi []) (hpl j hj []) heq.2
    · intro c hc
      obtain ⟨i, hi, rfl⟩ := getElem_of_mem hc
      refine ih _ hc fun x y nx ny hxy hx hy => ?_
      exact hdist (i :: x) (i :: y) nx ny (by simpa using hxy) ((hpl i hi x).trans hx)
        ((hpl i hi y).trans hy)

theorem run_wellLabelled {edits : List Edit} {doc' : DocNode} (h : WellLabelled doc)
    (hrun : run edits doc = .ok doc') : WellLabelled doc' := by
  rcases run_spec edits h with herr | ⟨_, hok, -, hwell⟩
  · rw [herr] at hrun
    cases hrun
  · rw [hok] at hrun
    cases hrun
    exact hwell

/-- Without size hints the comparison of any two nodes is right.  In a loaded document it is
right for all nodes exactly if no two of them have the same label, and then also after any
edits; the labels are distinct unless the greatest count of a level gives the increment 0. -/
theorem nidCmpEffective_agrees_iff (count : Nat) (persistent : Bool) :
    (∀ edits doc, run edits (newDocument count persistent) = .ok doc →
      AllAgree doc ∧ Distinct doc) ∧
    ∀ (Q : Type) [DecidableEq Q] (indefinite : Int32) (strip : Bool) (calls : List (Call Q)),
      (∀ n ∈ nodeStatistics strip calls, n ≤ 16387064) →
      ∀ doc, doc = (finalState (loadDocument indefinite strip (newDocument count persistent).nid
          calls)).document →
        (AllAgree doc ↔ Distinct doc) ∧
        ((∀ n ∈ nodeStatistics strip calls, n ∉ zeroCounts) → Distinct doc) ∧
        (Distinct doc → ∀ edits doc', run edits doc = .ok doc' → AllAgree doc') := by
  have hnew := newDocument_wellLabelled count persistent
  constructor
  · intro edits doc hrun
    have hagree := allAgree_of_wellLabelled (run_wellLabelled hnew hrun)
    exact ⟨hagree, distinct_of_allAgree hagree⟩
  · rintro Q _ indefinite strip calls hcount doc rfl
    have hgrown := loadDocument_grown indefinite strip calls hnew hcount
    refine ⟨⟨distinct_of_allAgree, fun h => ?_⟩, fun hzero => ?_, fun h edits doc' hrun => ?_⟩
    · exact allAgree_of_wellLabelled (wellLabelled_of_distinct hgrown h)
    · have hwell := Grown.wellLabelled hgrown fun ⟨n, hn, hmem⟩ => hzero n hn hmem
      exact distinct_of_allAgree (allAgree_of_wellLabelled hwell)
    · exact allAgree_of_wellLabelled (run_wellLabelled (wellLabelled_of_distinct hgrown h) hrun)

/-- A node and its first child; two attributes of a loaded element, and a third one put between
them. -/
theorem nidCmpEffective_agrees_loaded :
    (∃ doc n child, run [.insert [] 0] (newDocument 0 true) = .ok doc ∧
      nodeAt doc [] = some n ∧ nodeAt doc [0] = some child ∧ Agrees [] [0] n child) ∧
    ∃ doc doc', doc = (finalState (loadDocument 0 true (newDocument 0 true).nid
        (elementStart 0 [1, 2] ++ [.close]))).document ∧
      run [.insert [0] 1] doc = .ok doc' ∧ AllAgree doc ∧ AllAgree doc' := by
  have hmain := nidCmpEffective_agrees_iff 0 true
  refine ⟨⟨_, _, _, rfl, rfl, rfl, (hmain.1 [.insert [] 0] _ rfl).1 _ _ _ _ rfl rfl⟩, ?_⟩
  obtain ⟨hiff, hdist, hedits⟩ := hmain.2 Nat 0 true (elementStart 0 [1, 2] ++ [.close])
    (by decide +kernel) _ rfl
  have hloaded := hdist (by decide +kernel)
  exact ⟨_, _, rfl, rfl, hiff.2 hloaded, hedits hloaded [.insert [0] 1] _ rfl⟩

/-- The 253 attributes of an element have one label, and still they compare as different. -/
theorem nidCmpEffective_of_equal_labels :
    (finalState (loadDocument 0 true (.internal [1])
      (elementStart 0 (List.range 253) ++ [.close]))).elements.map DataParser.hintedLabels =
        [[[1, 2]], List.replicate 253 [1, 2, 2]] ∧
    nidCmpEffective [0, 0] [0, 1] (.internal [1, 2, 2]) (.internal [1, 2, 2]) = -2 := by
  decide +kernel

end Sedna.Nid.Comparison
