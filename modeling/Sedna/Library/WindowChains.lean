import Mathlib.Data.List.Basic
import Mathlib.Data.List.Forall2
import Mathlib.Data.List.Perm.Basic
import Mathlib.Tactic.Common

/-!
# Chains of windows

A row of slots, the newest first, has a chain of nodes at every slot.  What is in node `j` of a
slot belongs to the slot itself and to the `j` slots right in front of it.  A slot leaves the row
by merging the two nodes of each chain whose windows differ in that slot only.
-/

namespace Sedna.Library.WindowChains

open List

variable {K E : Type*} {n : Nat}

/-- `e` is in a chain of slot `k` whose first node has index `j`, and `ow` are its owners. -/
def InChain (k : K) (newer : List K) (e : E) (ow : List K) : Nat → List (List E) → Prop
  | _, [] => False
  | j, node :: nodes => e ∈ node ∧ ow = k :: newer.take j ∨ InChain k newer e ow (j + 1) nodes

/-- `e` is in the chain of some slot; the slots in front of the row are `newer`, nearest first. -/
def Stored (e : E) (ow : List K) : List K → List (K × List (List E)) → Prop
  | _, [] => False
  | newer, (k, chain) :: slots => InChain k newer e ow 0 chain ∨ Stored e ow (k :: newer) slots

def entries (slots : List (K × List (List E))) : List E := slots.flatMap fun slot => slot.2.flatten

/-- What belongs to the slot that stands `d` slots in front of the row: of every chain the
nodes whose windows reach that far. -/
def reaching : Nat → List (K × List (List E)) → List E
  | _, [] => []
  | d, slot :: slots => (slot.2.drop d).flatten ++ reaching (d + 1) slots

/-- The chains grow by one node from slot to slot, the first has `n + 1` nodes. -/
def Triangular : Nat → List (K × List (List E)) → Prop
  | _, [] => True
  | n, slot :: slots => slot.2.length = n + 1 ∧ Triangular (n + 1) slots

/-! ## Operations -/

def mergeAt (i : Nat) (chain : List (List E)) : List (List E) :=
  match chain.drop i with
  | a :: b :: rest => chain.take i ++ (a ++ b) :: (rest ++ [[]])
  | _ => chain

def mergeChains : List (List E) → List (List E) → List (List E)
  | a :: as, b :: bs => (a ++ b) :: mergeChains as bs
  | as, _ => as

def pushAt (e : E) : Nat → List (List E) → List (List E)
  | _, [] => []
  | 0, node :: nodes => (node ++ [e]) :: nodes
  | _ + 1, [node] => [node ++ [e]]
  | i + 1, node :: next :: nodes => node :: pushAt e i (next :: nodes)

/-- The chains behind a slot that leaves; the first of them is `i` slots away from it. -/
def rotateAfter : Nat → List (K × List (List E)) → List (K × List (List E))
  | _, [] => []
  | i, slot :: slots => (slot.1, mergeAt i slot.2) :: rotateAfter (i + 1) slots

def mergeLast (detached : List (List E)) : List (K × List (List E)) → List (K × List (List E))
  | [] => []
  | [slot] => [(slot.1, mergeChains slot.2 detached)]
  | slot :: next :: slots => slot :: mergeLast detached (next :: slots)

def extend (slots : List (K × List (List E))) : List (K × List (List E)) :=
  slots.map fun slot => (slot.1, slot.2 ++ [[]])

/-- A slot with the chain `chain` leaves the row and comes back in front of it as `w`.
What only it owned, the first node of its chain, is gone. -/
def leave (before : List (K × List (List E))) (chain : List (List E)) (w : K)
    (after : List (K × List (List E))) : List (K × List (List E)) :=
  match before with
  | [] => (w, [] :: chain.tail) :: rotateAfter 0 after
  | slot :: slots =>
    (w, [[]]) :: (extend (mergeLast chain.tail (slot :: slots)) ++ rotateAfter 0 after)

/-! ## Where an entry is -/

section

variable {k v w : K} {e e' : E} {ow ow' newer newer' : List K} {i j : Nat}
  {chain chain' detached : List (List E)} {slots slots' before after : List (K × List (List E))}

theorem inChain_append :
    InChain k newer e ow j (chain ++ chain') ↔
      InChain k newer e ow j chain ∨ InChain k newer e ow (j + chain.length) chain' := by
  induction chain generalizing j with
  | nil => simp [InChain]
  | cons node nodes ih => simp [InChain, ih, or_assoc, Nat.add_assoc, Nat.add_comm 1]

@[simp] theorem not_inChain_empty : ¬ InChain k newer e ow j [[]] := by
  simp [InChain]

theorem inChain_extend : InChain k newer e ow j (chain ++ [[]]) ↔ InChain k newer e ow j chain := by
  simp [inChain_append]

theorem stored_append :
    Stored e ow newer (slots ++ slots') ↔
      Stored e ow newer slots ∨ Stored e ow ((slots.map Prod.fst).reverse ++ newer) slots' := by
  induction slots generalizing newer with
  | nil => simp [Stored]
  | cons slot slots ih => simp [Stored, ih, or_assoc]

theorem exists_inChain_iff : (∃ ow, InChain k newer e ow j chain) ↔ e ∈ chain.flatten := by
  induction chain generalizing j with
  | nil => simp [InChain]
  | cons node nodes ih =>
    simp only [InChain, exists_or, ih, flatten_cons, mem_append]
    simp

theorem exists_stored_iff : (∃ ow, Stored e ow newer slots) ↔ e ∈ entries slots := by
  induction slots generalizing newer with
  | nil => simp [Stored, entries]
  | cons slot slots ih => simp [Stored, exists_or, exists_inChain_iff, ih, entries]

theorem Stored.mem_entries (h : Stored e ow newer slots) : e ∈ entries slots :=
  exists_stored_iff.1 ⟨ow, h⟩

theorem InChain.widen (hnewer : newer <+: newer')
    (h : InChain k newer' e ow' j chain) : ∃ ow, InChain k newer e ow j chain ∧ ow ⊆ ow' := by
  induction chain generalizing j with
  | nil => exact h.elim
  | cons node nodes ih =>
    rcases h with ⟨he, rfl⟩ | h
    · obtain ⟨rest, rfl⟩ := hnewer
      refine ⟨k :: newer.take j, .inl ⟨he, rfl⟩, ?_⟩
      apply cons_subset_cons
      rw [take_append]
      exact subset_append_left _ _
    · obtain ⟨ow, how, hsub⟩ := ih h
      exact ⟨ow, .inr how, hsub⟩

theorem Stored.widen (hnewer : newer <+: newer') (h : Stored e ow' newer' slots) :
    ∃ ow, Stored e ow newer slots ∧ ow ⊆ ow' := by
  induction slots generalizing newer newer' with
  | nil => exact h.elim
  | cons slot slots ih =>
    rcases h with h | h
    · obtain ⟨ow, how, hsub⟩ := h.widen hnewer
      exact ⟨ow, .inl how, hsub⟩
    · obtain ⟨ow, how, hsub⟩ := ih ((prefix_cons_inj slot.1).2 hnewer) h
      exact ⟨ow, .inr how, hsub⟩

/-! ## Operations and owners -/

/-- The owners other than the slot that leaves stay owners. -/
def Covers (v : K) (ow ow' : List K) : Prop := ∀ k ∈ ow, k ≠ v → k ∈ ow'

theorem Covers.of_subset (h : ow ⊆ ow') : Covers v ow ow' :=
  fun _ hk _ => h hk

theorem InChain.pushAt (h : InChain k newer e' ow j (pushAt e i chain)) (hi : i < chain.length) :
    InChain k newer e' ow j chain ∨ e' = e ∧ ow = k :: newer.take (j + i) := by
  fun_induction WindowChains.pushAt e i chain generalizing j with
  | case1 => exact .inl h
  | case2 node nodes =>
    rcases h with ⟨he, how⟩ | h
    · rcases mem_append.1 he with he | he
      · exact .inl (.inl ⟨he, how⟩)
      · exact .inr ⟨mem_singleton.1 he, how⟩
    · exact .inl (.inr h)
  | case3 => simp at hi
  | case4 i node next nodes ih =>
    rcases h with h | h
    · exact .inl (.inl h)
    · rcases ih h (by simpa using hi) with h | ⟨he, how⟩
      · exact .inl (.inr h)
      · refine .inr ⟨he, ?_⟩
        rw [how, Nat.add_assoc, Nat.add_comm 1]

variable (front : List K)

theorem InChain.of_short (hlen : j + chain.length ≤ front.length + 1)
    (h : InChain k (front ++ newer') e ow j chain) : InChain k (front ++ newer) e ow j chain := by
  induction chain generalizing j with
  | nil => exact h
  | cons node nodes ih =>
    rw [length_cons] at hlen
    rcases h with ⟨he, how⟩ | h
    · refine .inl ⟨he, ?_⟩
      rw [how, take_append_of_le_length (by omega), take_append_of_le_length (by omega)]
    · exact .inr (ih (by omega) h)

theorem InChain.of_behind (hnewer : newer <+: newer')
    (h : InChain k (front ++ newer') e ow' (front.length + j) chain) :
    ∃ ow, InChain k (front ++ v :: newer) e ow (front.length + (j + 1)) chain ∧
      Covers v ow ow' := by
  induction chain generalizing j with
  | nil => exact h.elim
  | cons node nodes ih =>
    rcases h with ⟨he, rfl⟩ | h
    · refine ⟨_, .inl ⟨he, rfl⟩, ?_⟩
      intro x hx hv
      obtain ⟨rest, rfl⟩ := hnewer
      rw [take_length_add_append, take_succ_cons] at hx
      rw [take_length_add_append, take_append]
      simp only [mem_cons, mem_append] at hx ⊢
      tauto
    · obtain ⟨ow, how, hcov⟩ := ih (j := j + 1) h
      exact ⟨ow, .inr how, hcov⟩

theorem mergeAt_cases (i : Nat) (chain : List (List E)) :
    (∃ first a b rest, first.length = i ∧ chain = first ++ a :: b :: rest ∧
      mergeAt i chain = first ++ (a ++ b) :: (rest ++ [[]])) ∨
      chain.length ≤ i + 1 ∧ mergeAt i chain = chain := by
  unfold mergeAt
  split
  next a b rest hdrop =>
    refine .inl ⟨chain.take i, a, b, rest, ?_, ?_, rfl⟩
    · have := congrArg length hdrop
      simp only [length_drop, length_cons] at this
      rw [length_take]
      omega
    · rw [← hdrop, take_append_drop]
  next hshort =>
    refine .inr ⟨?_, rfl⟩
    have hdrop : (chain.drop i).length ≤ 1 := by
      match hd : chain.drop i with
      | [] => simp
      | [a] => simp
      | a :: b :: rest => exact (hshort a b rest hd).elim
    rw [length_drop] at hdrop
    omega

theorem InChain.mergeAt (hnewer : newer <+: newer')
    (h : InChain k (front ++ newer') e ow' 0 (mergeAt front.length chain)) :
    ∃ ow, InChain k (front ++ v :: newer) e ow 0 chain ∧ Covers v ow ow' := by
  rcases mergeAt_cases front.length chain with
    ⟨first, a, b, rest, hlen, rfl, hmerge⟩ | ⟨hlen, hmerge⟩
  all_goals rw [hmerge] at h
  · simp only [inChain_append, InChain, Nat.zero_add, hlen, mem_append] at h ⊢
    rcases h with h | ⟨ha | hb, rfl⟩ | h | ⟨⟨⟩, -⟩ | h
    · exact ⟨ow', .inl (h.of_short front (by omega)), fun _ hk _ => hk⟩
    · refine ⟨_, .inr (.inl ⟨ha, rfl⟩), Covers.of_subset ?_⟩
      simp
    · refine ⟨_, .inr (.inr (.inl ⟨hb, rfl⟩)), ?_⟩
      intro x hx hv
      rw [take_length_add_append] at hx
      simp only [take_succ_cons, take_zero, mem_cons, mem_append, not_mem_nil, or_false] at hx
      simp only [take_left', mem_cons]
      tauto
    · obtain ⟨ow, how, hcov⟩ := h.of_behind front hnewer
      exact ⟨ow, .inr (.inr (.inr how)), hcov⟩
    · exact h.elim
  · exact ⟨ow', h.of_short front (by omega), fun _ hk _ => hk⟩

theorem Stored.rotateAfter (hnewer : newer <+: newer')
    (h : Stored e ow' (front ++ newer') (rotateAfter front.length slots)) :
    ∃ ow, Stored e ow (front ++ v :: newer) slots ∧ Covers v ow ow' := by
  induction slots generalizing front with
  | nil => exact h.elim
  | cons slot slots ih =>
    rcases h with h | h
    · obtain ⟨ow, how, hcov⟩ := h.mergeAt front hnewer
      exact ⟨ow, .inl how, hcov⟩
    · obtain ⟨ow, how, hcov⟩ := ih (slot.1 :: front) h
      exact ⟨ow, .inr how, hcov⟩

theorem InChain.mergeChains (h : InChain k newer e ow' j (mergeChains chain detached)) :
    InChain k newer e ow' j chain ∨
      ∃ ow, InChain v (k :: newer) e ow (j + 1) detached ∧ Covers v ow ow' := by
  fun_induction WindowChains.mergeChains chain detached generalizing j with
  | case1 a as b bs ih =>
    rcases h with ⟨he, rfl⟩ | h
    · rcases mem_append.1 he with he | he
      · exact .inl (.inl ⟨he, rfl⟩)
      · refine .inr ⟨_, .inl ⟨he, rfl⟩, ?_⟩
        intro x hx hv
        rw [take_succ_cons] at hx
        simp only [mem_cons] at hx ⊢
        tauto
    · rcases ih h with h | ⟨ow, how, hcov⟩
      · exact .inl (.inr h)
      · exact .inr ⟨ow, .inr how, hcov⟩
  | case2 => exact .inl h

theorem Stored.mergeLast (h : Stored e ow' newer (mergeLast detached slots)) :
    Stored e ow' newer slots ∨
      ∃ ow, InChain v ((slots.map Prod.fst).reverse ++ newer) e ow 1 detached ∧
        Covers v ow ow' := by
  fun_induction WindowChains.mergeLast detached slots generalizing newer with
  | case1 => exact h.elim
  | case2 slot =>
    rcases h with h | h
    · rcases h.mergeChains with h | h
      · exact .inl (.inl h)
      · exact .inr (by simpa using h)
    · exact h.elim
  | case3 slot next slots ih =>
    rcases h with h | h
    · exact .inl (.inl h)
    · rcases ih h with h | ⟨ow, how, hcov⟩
      · exact .inl (.inr h)
      · exact .inr ⟨ow, by simpa using how, hcov⟩

theorem stored_extend : Stored e ow newer (extend slots) ↔ Stored e ow newer slots := by
  induction slots generalizing newer with
  | nil => rfl
  | cons slot slots ih =>
    simp only [extend, map_cons, Stored, inChain_extend] at ih ⊢
    rw [ih]

@[simp] theorem keys_mergeLast : (mergeLast detached slots).map Prod.fst = slots.map Prod.fst := by
  fun_induction mergeLast detached slots <;> simp_all

@[simp] theorem keys_extend : (extend slots).map Prod.fst = slots.map Prod.fst := by
  simp [extend]

theorem InChain.of_tail (h : InChain k newer e ow 1 chain.tail) : InChain k newer e ow 0 chain := by
  cases chain with
  | nil => exact h
  | cons node nodes => exact .inr h

theorem Stored.leave (h : Stored e ow' [] (leave before chain w after)) :
    ∃ ow, Stored e ow [] (before ++ (v, chain) :: after) ∧ Covers v ow ow' := by
  cases before with
  | nil =>
    rcases h with (⟨⟨⟩, -⟩ | h) | h
    · refine ⟨[v], .inl (InChain.of_tail ?_), by simp [Covers]⟩
      have howner : ∀ j, InChain w [] e ow' j chain.tail → InChain v [] e [v] j chain.tail := by
        induction chain.tail with
        | nil => exact fun _ h => h
        | cons node nodes ih => exact fun j h => h.imp (fun h => ⟨h.1, by simp⟩) (ih _)
      exact howner 1 h
    · obtain ⟨ow, how, hcov⟩ := Stored.rotateAfter [] nil_prefix h
      exact ⟨ow, .inr how, hcov⟩
  | cons slot slots =>
    rcases h with h | h
    · exact (not_inChain_empty h).elim
    · rcases stored_append.1 h with h | h
      · obtain ⟨ow1, how1, hsub⟩ := (stored_extend.1 h).widen nil_prefix
        rcases how1.mergeLast with h | ⟨ow, how, hcov⟩
        · exact ⟨ow1, stored_append.2 (.inl h), Covers.of_subset hsub⟩
        · refine ⟨ow, stored_append.2 (.inr (.inl how.of_tail)), ?_⟩
          exact fun x hx hv => hsub (hcov x hx hv)
      · rw [keys_extend, keys_mergeLast] at h
        obtain ⟨ow, how, hcov⟩ :=
          Stored.rotateAfter [] (prefix_append _ [w]) h
        refine ⟨ow, stored_append.2 (.inr (.inr ?_)), hcov⟩
        simpa using how

theorem Stored.push (h : Stored e' ow newer (before ++ (k, pushAt e i chain) :: after))
    (hi : i < chain.length) :
    Stored e' ow newer (before ++ (k, chain) :: after) ∨
      e' = e ∧ ow = k :: ((before.map Prod.fst).reverse ++ newer).take i := by
  rcases stored_append.1 h with h | h | h
  · exact .inl (stored_append.2 (.inl h))
  · rcases h.pushAt hi with h | ⟨he, how⟩
    · exact .inl (stored_append.2 (.inr (.inl h)))
    · rw [Nat.zero_add] at how
      exact .inr ⟨he, how⟩
  · exact .inl (stored_append.2 (.inr (.inr h)))

theorem Covers.of_forall₂ (h : Forall₂ (fun a b => a ≠ v → b = a) ow ow') : Covers v ow ow' := by
  induction h with
  | nil => exact fun _ hk _ => hk
  | cons hab _ ih =>
    intro x hx hv
    rcases mem_cons.1 hx with rfl | hx
    · rw [hab hv]
      exact mem_cons_self
    · exact mem_cons_of_mem _ (ih x hx hv)

theorem InChain.rekey {k' : K} (hk : k ≠ v → k' = k)
    (hnewer : Forall₂ (fun a b => a ≠ v → b = a) newer newer')
    (h : InChain k' newer' e ow' j chain) :
    ∃ ow, InChain k newer e ow j chain ∧ Covers v ow ow' := by
  induction chain generalizing j with
  | nil => exact h.elim
  | cons node nodes ih =>
    rcases h with ⟨he, rfl⟩ | h
    · refine ⟨k :: newer.take j, .inl ⟨he, rfl⟩, Covers.of_forall₂ ?_⟩
      exact .cons hk (forall₂_take j hnewer)
    · obtain ⟨ow, how, hcov⟩ := ih h
      exact ⟨ow, .inr how, hcov⟩

theorem Stored.rekey
    (hsl : Forall₂ (fun a b => b.2 = a.2 ∧ (a.1 ≠ v → b.1 = a.1)) slots slots')
    (hnewer : Forall₂ (fun a b => a ≠ v → b = a) newer newer')
    (h : Stored e ow' newer' slots') : ∃ ow, Stored e ow newer slots ∧ Covers v ow ow' := by
  induction hsl generalizing newer newer' with
  | nil => exact h.elim
  | cons hslot _ ih =>
    rcases h with h | h
    · rw [hslot.1] at h
      obtain ⟨ow, how, hcov⟩ := h.rekey hslot.2 hnewer
      exact ⟨ow, .inl how, hcov⟩
    · obtain ⟨ow, how, hcov⟩ := ih (.cons hslot.2 hnewer) h
      exact ⟨ow, .inr how, hcov⟩

/-! ## Operations and entries -/

theorem triangular_append :
    Triangular n (slots ++ slots') ↔ Triangular n slots ∧ Triangular (n + slots.length) slots' := by
  induction slots generalizing n with
  | nil => simp [Triangular]
  | cons slot slots ih => simp [Triangular, ih, and_assoc, Nat.add_assoc, Nat.add_comm 1]

theorem mergeAt_flatten : (mergeAt i chain).flatten = chain.flatten := by
  rcases mergeAt_cases i chain with ⟨first, a, b, rest, -, rfl, hmerge⟩ | ⟨-, hmerge⟩
  · rw [hmerge]
    simp
  · rw [hmerge]

theorem length_mergeAt : (mergeAt i chain).length = chain.length := by
  rcases mergeAt_cases i chain with ⟨first, a, b, rest, -, rfl, hmerge⟩ | ⟨-, hmerge⟩
  · rw [hmerge]
    simp
  · rw [hmerge]

theorem entries_rotateAfter : entries (rotateAfter i slots) = entries slots := by
  induction slots generalizing i with
  | nil => rfl
  | cons slot slots ih =>
    simp only [entries] at ih
    simp [entries, rotateAfter, mergeAt_flatten, ih]

theorem Triangular.rotateAfter (h : Triangular n slots) : Triangular n (rotateAfter i slots) := by
  induction slots generalizing i n with
  | nil => exact h
  | cons slot slots ih => exact ⟨length_mergeAt.trans h.1, ih h.2⟩

theorem length_mergeChains : (mergeChains chain detached).length = chain.length := by
  fun_induction mergeChains chain detached <;> simp_all

theorem mergeChains_flatten (h : detached.length ≤ chain.length) :
    ((mergeChains chain detached).flatten).Perm (chain.flatten ++ detached.flatten) := by
  fun_induction mergeChains chain detached with
  | case1 a as b bs ih =>
    have htail := ih (by simpa using h)
    simp only [flatten_cons, append_assoc]
    refine Perm.append_left a ((Perm.append_left b htail).trans ?_)
    rw [← append_assoc, ← append_assoc]
    exact Perm.append_right _ perm_append_comm
  | case2 as bs hnil =>
    cases bs with
    | nil => simp
    | cons b bs =>
      cases as with
      | nil => simp at h
      | cons a as => exact (hnil a as b bs rfl rfl).elim

@[simp] theorem entries_append : entries (slots ++ slots') = entries slots ++ entries slots' := by
  simp [entries]

theorem entries_extend : entries (extend slots) = entries slots := by
  simp [entries, extend, flatMap_map]

theorem entries_mergeLast (hne : slots ≠ []) (hsl : Triangular n slots)
    (hlen : detached.length = n + slots.length) :
    (entries (mergeLast detached slots)).Perm (entries slots ++ detached.flatten) := by
  fun_induction mergeLast detached slots generalizing n with
  | case1 => exact (hne rfl).elim
  | case2 slot =>
    have hchn : detached.length ≤ slot.2.length := by
      have hown := hsl.1
      rw [length_singleton] at hlen
      omega
    simpa [entries] using mergeChains_flatten hchn
  | case3 slot next slots ih =>
    have hrest := ih (by simp) hsl.2 (by rw [hlen]; simp only [length_cons]; omega)
    simp only [entries, flatMap_cons, append_assoc] at hrest ⊢
    exact Perm.append_left _ hrest

theorem entries_leave (h : Triangular 0 (before ++ (v, chain) :: after)) :
    (chain.headD [] ++ entries (leave before chain w after)).Perm
      (entries (before ++ (v, chain) :: after)) := by
  have hchn : chain.flatten = chain.headD [] ++ chain.tail.flatten := by
    cases chain <;> rfl
  have hold : entries (before ++ (v, chain) :: after) =
      entries before ++ (chain.headD [] ++ chain.tail.flatten) ++ entries after := by
    simp [entries, hchn]
  rw [hold]
  obtain ⟨hbef, hlen, -⟩ := triangular_append.1 h
  cases before with
  | nil =>
    have hafter : entries (rotateAfter 0 after) = entries after := entries_rotateAfter
    simp only [entries] at hafter
    simp [leave, entries, hafter]
  | cons slot slots =>
    have hmerge := entries_mergeLast (by simp) hbef
      (show chain.tail.length = 0 + (slot :: slots).length by rw [length_tail, hlen]; simp)
    have hnew : entries (leave (slot :: slots) chain w after) =
        entries (mergeLast chain.tail (slot :: slots)) ++ entries after := by
      rw [leave, ← singleton_append, entries_append, entries_append, entries_extend,
        entries_rotateAfter]
      simp [entries]
    rw [hnew, ← append_assoc]
    refine Perm.append_right _ ((Perm.append_left _ hmerge).trans ?_)
    rw [← append_assoc, ← append_assoc]
    exact Perm.append_right _ perm_append_comm

theorem Triangular.mergeLast (h : Triangular n slots) :
    Triangular n (mergeLast detached slots) := by
  fun_induction WindowChains.mergeLast detached slots generalizing n with
  | case1 => exact h
  | case2 slot => exact ⟨length_mergeChains.trans h.1, trivial⟩
  | case3 slot next slots ih => exact ⟨h.1, ih h.2⟩

theorem Triangular.extend (h : Triangular n slots) : Triangular (n + 1) (extend slots) := by
  induction slots generalizing n with
  | nil => trivial
  | cons slot slots ih =>
    refine ⟨?_, ih h.2⟩
    simp [h.1]

theorem length_mergeLast : (mergeLast detached slots).length = slots.length := by
  have hkeys := congrArg length (@keys_mergeLast K E detached slots)
  rwa [length_map, length_map] at hkeys

theorem Triangular.leave (h : Triangular 0 (before ++ (v, chain) :: after)) :
    Triangular 0 (leave before chain w after) := by
  obtain ⟨hbef, hlen, hafter⟩ := triangular_append.1 h
  cases before with
  | nil =>
    refine ⟨?_, hafter.rotateAfter⟩
    rw [length_cons, length_tail, hlen]
    rfl
  | cons slot slots =>
    refine ⟨rfl, triangular_append.2 ⟨hbef.mergeLast.extend, ?_⟩⟩
    rw [WindowChains.extend, length_map, length_mergeLast]
    rw [Nat.add_right_comm]
    exact hafter.rotateAfter

theorem length_pushAt : (pushAt e i chain).length = chain.length := by
  fun_induction pushAt e i chain <;> simp_all

theorem pushAt_flatten (h : chain ≠ []) :
    ((pushAt e i chain).flatten).Perm (e :: chain.flatten) := by
  fun_induction pushAt e i chain with
  | case1 => exact (h rfl).elim
  | case2 node nodes =>
    simp only [flatten_cons, append_assoc, singleton_append]
    exact perm_middle
  | case3 _ => simp
  | case4 i node next nodes ih =>
    refine (Perm.append_left node (ih (by simp))).trans ?_
    exact perm_middle

theorem entries_push (h : chain ≠ []) :
    (entries (before ++ (k, pushAt e i chain) :: after)).Perm
      (e :: entries (before ++ (k, chain) :: after)) := by
  simp only [entries, flatMap_append, flatMap_cons]
  refine (Perm.append_left _ ((pushAt_flatten h).append_right _)).trans ?_
  exact perm_middle

theorem Triangular.push (h : Triangular n (before ++ (k, chain) :: after)) :
    Triangular n (before ++ (k, pushAt e i chain) :: after) := by
  obtain ⟨hbef, hlen, hafter⟩ := triangular_append.1 h
  exact triangular_append.2 ⟨hbef, length_pushAt.trans hlen, hafter⟩

theorem triangular_of_forall₂ (hsl : Forall₂ (fun a b => b.2 = a.2) slots slots')
    (h : Triangular n slots) : Triangular n slots' := by
  induction hsl generalizing n with
  | nil => exact h
  | cons hslot _ ih => exact ⟨by rw [hslot]; exact h.1, ih h.2⟩

theorem entries_of_forall₂ (hsl : Forall₂ (fun a b => b.2 = a.2) slots slots') :
    entries slots' = entries slots := by
  unfold entries
  induction hsl with
  | nil => rfl
  | cons hslot _ ih => rw [flatMap_cons, flatMap_cons, hslot, ih]

/-! ## What belongs to a slot -/

variable {d p : Nat}

theorem reaching_append :
    reaching d (slots ++ slots') = reaching d slots ++ reaching (d + slots.length) slots' := by
  induction slots generalizing d with
  | nil => rfl
  | cons slot slots ih =>
    simp only [cons_append, reaching, ih, append_assoc, length_cons]
    rw [Nat.add_assoc, Nat.add_comm 1]

theorem flatten_drop_extend : ((chain ++ [[]]).drop d).flatten = (chain.drop d).flatten := by
  rw [drop_append]
  cases d - chain.length <;> simp

theorem flatten_drop_mergeAt (hd : d ≤ i) :
    ((mergeAt i chain).drop d).flatten = (chain.drop d).flatten := by
  rcases mergeAt_cases i chain with ⟨first, a, b, rest, hlen, rfl, hmerge⟩ | ⟨-, hmerge⟩
  · rw [hmerge, drop_append_of_le_length (by omega), drop_append_of_le_length (by omega)]
    simp
  · rw [hmerge]

theorem flatten_drop_mergeAt_behind :
    ((mergeAt i chain).drop (i + (d + 1))).flatten = (chain.drop (i + (d + 2))).flatten := by
  rcases mergeAt_cases i chain with ⟨first, a, b, rest, rfl, rfl, hmerge⟩ | ⟨hlen, hmerge⟩
  · rw [hmerge, drop_length_add_append, drop_length_add_append]
    exact flatten_drop_extend
  · rw [hmerge, drop_eq_nil_of_le (by omega), drop_eq_nil_of_le (by omega)]

theorem reaching_rotateAfter (hd : d ≤ i) :
    reaching d (rotateAfter i slots) = reaching d slots := by
  induction slots generalizing d i with
  | nil => rfl
  | cons slot slots ih =>
    rw [rotateAfter, reaching, reaching, flatten_drop_mergeAt hd, ih (by omega)]

theorem reaching_rotateAfter_behind :
    reaching (i + (d + 1)) (rotateAfter i slots) = reaching (i + (d + 2)) slots := by
  induction slots generalizing i with
  | nil => rfl
  | cons slot slots ih =>
    have hrest := ih (i := i + 1)
    rw [Nat.add_right_comm, Nat.add_right_comm i 1] at hrest
    rw [rotateAfter, reaching, reaching, flatten_drop_mergeAt_behind, hrest]

theorem reaching_extend : reaching d (extend slots) = reaching d slots := by
  induction slots generalizing d with
  | nil => rfl
  | cons slot slots ih =>
    simp only [extend, map_cons, reaching, flatten_drop_extend] at ih ⊢
    rw [ih]

theorem drop_mergeChains :
    (mergeChains chain detached).drop d = mergeChains (chain.drop d) (detached.drop d) := by
  induction d generalizing chain detached with
  | zero => rfl
  | succ d ih => cases chain <;> cases detached <;> simp [mergeChains, ih]

theorem reaching_mergeLast (hne : slots ≠ []) (hsl : Triangular n slots)
    (hlen : detached.length = n + slots.length) :
    (reaching d (mergeLast detached slots)).Perm
      (reaching d slots ++ (detached.drop (d + slots.length - 1)).flatten) := by
  fun_induction mergeLast detached slots generalizing n d with
  | case1 => exact (hne rfl).elim
  | case2 slot =>
    have hown := hsl.1
    rw [length_singleton] at hlen
    have hmerge := mergeChains_flatten
      (show (detached.drop d).length ≤ (slot.2.drop d).length by
        rw [length_drop, length_drop]
        omega)
    simpa [reaching, drop_mergeChains] using hmerge
  | case3 slot next slots ih =>
    have hrest := ih (d := d + 1) (by simp) hsl.2 (by rw [hlen]; simp only [length_cons]; omega)
    rw [Nat.add_right_comm, Nat.add_assoc d] at hrest
    rw [reaching, reaching, append_assoc]
    exact Perm.append_left _ hrest

theorem drop_mergeLast (hp : p < slots.length) :
    (mergeLast detached slots).drop p = mergeLast detached (slots.drop p) := by
  fun_induction mergeLast detached slots generalizing p with
  | case1 => simp at hp
  | case2 slot =>
    obtain rfl : p = 0 := by simpa using hp
    rfl
  | case3 slot next slots ih =>
    cases p with
    | zero => rfl
    | succ p => exact ih (by simpa using hp)

theorem drop_rotateAfter : (rotateAfter i slots).drop p = rotateAfter (i + p) (slots.drop p) := by
  induction p generalizing i slots with
  | zero => rfl
  | succ p ih =>
    cases slots with
    | nil => rfl
    | cons slot slots =>
      rw [rotateAfter, drop_succ_cons, ih, drop_succ_cons, Nat.add_assoc, Nat.add_comm 1]

theorem reaching_leave_before (h : Triangular 0 (before ++ (v, chain) :: after))
    (hp : p < before.length) :
    (reaching 0 ((leave before chain w after).drop (p + 1))).Perm
      (reaching 0 ((before ++ (v, chain) :: after).drop p)) := by
  obtain ⟨hbef, hlen, -⟩ := triangular_append.1 h
  obtain ⟨d, hd⟩ : ∃ d, (before.drop p).length = d + 1 :=
    ⟨before.length - p - 1, by rw [length_drop]; omega⟩
  have hnew : (leave before chain w after).drop (p + 1) =
      extend (mergeLast chain.tail (before.drop p)) ++ rotateAfter 0 after := by
    cases before with
    | nil => simp at hp
    | cons slot slots =>
      rw [leave, drop_succ_cons, drop_append_of_le_length, ← drop_mergeLast hp, extend,
        extend, map_drop]
      rw [extend, length_map, length_mergeLast]
      exact Nat.le_of_lt hp
  have htri : Triangular p (before.drop p) := by
    rw [← take_append_drop p before, triangular_append, length_take,
      Nat.min_eq_left (Nat.le_of_lt hp), Nat.zero_add] at hbef
    exact hbef.2
  have hmerge := reaching_mergeLast (d := 0) (ne_nil_of_length_eq_add_one hd) htri
    (show chain.tail.length = p + (before.drop p).length by
      rw [length_tail, hlen, length_drop]; omega)
  have hlast : chain.tail.drop (0 + (before.drop p).length - 1) =
      chain.drop (0 + (before.drop p).length) := by
    rw [← drop_one, drop_drop]
    congr 1
    omega
  have hbehind := @reaching_rotateAfter_behind K E 0 after d
  rw [hnew, drop_append_of_le_length (Nat.le_of_lt hp), reaching_append,
    reaching_append, reaching_extend, reaching, ← hlast, ← append_assoc]
  have hwidth : (extend (mergeLast chain.tail (before.drop p))).length = d + 1 := by
    rw [extend, length_map, length_mergeLast, hd]
  rw [hwidth, hbehind, hd]
  rw [hd] at hmerge
  exact hmerge.append_right _

theorem reaching_leave_after :
    reaching 0 ((leave before chain w after).drop (before.length + 1 + p)) =
      reaching 0 ((before ++ (v, chain) :: after).drop (before.length + 1 + p)) := by
  have hnew : (leave before chain w after).drop (before.length + 1) = rotateAfter 0 after := by
    cases before with
    | nil => rfl
    | cons slot slots =>
      apply drop_left'
      rw [extend, length_map, length_mergeLast]
  have hold : (before ++ (v, chain) :: after).drop (before.length + 1) = after := by
    rw [drop_length_add_append]
    rfl
  rw [← drop_drop, ← drop_drop (i := p), hnew, hold, drop_rotateAfter]
  exact reaching_rotateAfter (Nat.zero_le _)

end

end Sedna.Library.WindowChains
