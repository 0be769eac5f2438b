import Sedna.Library.PullIterator
import Sedna.XPath.AxisStep

/-!
# From the procedures of an axis to the calls of `do_next`

The procedures of an axis visit a list of nodes for every context node.  When
they leave nothing behind, `do_next` returns the visited nodes that pass the
test, context node after context node.
-/

namespace Sedna.XPath.AxisStep

open Library.PullIterator Structures.Schema NodeStore List

variable {α : Type*} [DecidableEq α] (st : NodeStore α) (step : PPAxisStep) (limit : Nat)
  {nodes : List α} {hint : AxisHints α} {x : α} {rest : List (α × α)} {s : State α}

inductive Walk : α → AxisHints α → List α → AxisHints α → Prop
  | stop {x : α} {hint hint' : AxisHints α}
      (h : nextNode st step limit x hint = .ok (none, hint')) : Walk x hint [] hint'
  | move {x y : α} {ys : List α} {hint hint1 hint' : AxisHints α}
      (h : nextNode st step limit x hint = .ok (some y, hint1))
      (hbase : hint1.baseNode = hint.baseNode) (rest : Walk y hint1 ys hint') :
      Walk x hint (y :: ys) hint'

inductive Visits : α → AxisHints α → List α → AxisHints α → Prop
  | nothing {node : α} {hint hint' : AxisHints α}
      (h : evaluateAxis st step limit node { hint with baseNode := some node } =
        .ok (none, hint')) : Visits node hint [] hint'
  | start {node x : α} {xs : List α} {hint hint1 hint' : AxisHints α}
      (h : evaluateAxis st step limit node { hint with baseNode := some node } =
        .ok (some x, hint1)) (hbase : hint1.baseNode = some node)
      (rest : Walk st step limit x hint1 xs hint') : Visits node hint (x :: xs) hint'

/-- The axis visits `visited node` for every context node in `Context`, and between two context
nodes the hints are idle. -/
structure Covers (Idle : AxisHints α → Prop) (Context : α → Prop) (visited : α → List α) :
    Prop where
  visits : ∀ node hint, Context node → Idle hint →
    ∃ hint', Visits st step limit node hint (visited node) hint' ∧ Idle hint'

/-! ## What is still to be visited -/

def upcoming (visited : α → List α) (nodes : List α) : List (α × α) :=
  nodes.flatMap fun node => (visited node).map fun x => (node, x)

/-- The nodes still to be visited in a state of the operation, each with its context node. -/
inductive Remaining (Idle : AxisHints α → Prop) (Context : α → Prop) (visited : α → List α) :
    State α → List (α × α) → Prop
  | between {hint : AxisHints α} {nodes : List α} (hidle : Idle hint)
      (hnodes : ∀ node ∈ nodes, Context node) :
      Remaining Idle Context visited ⟨hint, none, nodes.map some⟩ (upcoming visited nodes)
  | inside {hint hint' : AxisHints α} {base x : α} {xs nodes : List α}
      (hbase : hint.baseNode = some base) (hwalk : Walk st step limit x hint xs hint')
      (hidle : Idle hint') (hnodes : ∀ node ∈ nodes, Context node) :
      Remaining Idle Context visited ⟨hint, some x, nodes.map some⟩
        (xs.map (fun y => (base, y)) ++ upcoming visited nodes)

/-- What a round of the loop finds when these nodes are still to be visited. -/
inductive Fetched (Idle : AxisHints α → Prop) (Context : α → Prop) (visited : α → List α) :
    Except StepError (Option α × State α) → List (α × α) → Prop
  | nothing {hint : AxisHints α} (hidle : Idle hint) :
      Fetched Idle Context visited (.ok (none, ⟨hint, none, []⟩)) []
  | node {base x : α} {rest : List (α × α)} {s : State α} (hbase : s.hint.baseNode = some base)
      (hrest : Remaining st step limit Idle Context visited { s with currentNode := some x } rest) :
      Fetched Idle Context visited (.ok (some x, s)) ((base, x) :: rest)

variable {st step limit} {Idle : AxisHints α → Prop} {Context : α → Prop} {visited : α → List α}

section

variable (h : Covers st step limit Idle Context visited)
include h

theorem nextContext_fetched (hnodes : ∀ node ∈ nodes, Context node) (hidle : Idle hint) :
    Fetched st step limit Idle Context visited (nextContext st step limit (nodes.map some) hint)
      (upcoming visited nodes) := by
  induction nodes generalizing hint with
  | nil => exact .nothing hidle
  | cons node nodes ih =>
    rw [forall_mem_cons] at hnodes
    obtain ⟨hint', hvis, hidle'⟩ := h.visits node hint hnodes.1 hidle
    rw [upcoming, flatMap_cons, map_cons, nextContext]
    generalize visited node = xs at hvis ⊢
    cases hvis with
    | nothing heval =>
      rw [heval]
      exact ih hnodes.2 hidle'
    | start heval hbase hwalk =>
      rw [heval]
      exact .node hbase (.inside hbase hwalk hidle' hnodes.2)

theorem fetch_fetched (hs : Remaining st step limit Idle Context visited s rest) :
    Fetched st step limit Idle Context visited (fetch st step limit s) rest := by
  cases hs with
  | between hidle hnodes => exact nextContext_fetched h hnodes hidle
  | inside hbase hwalk hidle hnodes =>
    cases hwalk with
    | stop hnext =>
      simp only [fetch, hnext]
      exact nextContext_fetched h hnodes hidle
    | move hnext hbase' hwalk =>
      simp only [fetch, hnext]
      have hbase'' := hbase'.trans hbase
      exact .node hbase'' (.inside hbase'' hwalk hidle hnodes)

/-! ## One call -/

def passing (st : NodeStore α) (step : PPAxisStep) (rest : List (α × α)) : List α :=
  (rest.filter fun entry => testNode st step (some entry.1) entry.2).map Prod.snd

theorem doNextLoop_spec (hs : Remaining st step limit Idle Context visited s rest) {n : Nat}
    (hn : rest.length < n) :
    (passing st step rest = [] ∧
      ∃ hint', doNextLoop st step limit n s = .ok (none, ⟨hint', none, []⟩) ∧ Idle hint') ∨
      ∃ x s' rest', doNextLoop st step limit n s = .ok (some x, s') ∧
        passing st step rest = x :: passing st step rest' ∧
        Remaining st step limit Idle Context visited s' rest' ∧ rest'.length < rest.length := by
  induction rest generalizing n s with
  | nil =>
    cases n with
    | zero => omega
    | succ n =>
      have hfetched := fetch_fetched h hs
      rw [doNextLoop]
      generalize fetch st step limit s = r at hfetched ⊢
      cases hfetched with
      | nothing hidle => exact .inl ⟨rfl, _, rfl, hidle⟩
  | cons entry rest ih =>
    cases n with
    | zero => omega
    | succ n =>
      have hfetched := fetch_fetched h hs
      rw [length_cons] at hn
      rw [doNextLoop]
      generalize fetch st step limit s = r at hfetched ⊢
      cases hfetched with
      | @node base x _ s' hbase hrest =>
        dsimp only
        rw [hbase]
        by_cases htest : testNode st step (some base) x
        · rw [if_pos htest]
          exact .inr ⟨_, _, rest, rfl, by simp [passing, htest], hrest, by simp⟩
        · have hpassing : passing st step ((base, x) :: rest) = passing st step rest := by
            simp [passing, htest]
          rw [if_neg htest, hpassing]
          refine (ih hrest (by omega)).imp_right ?_
          rintro ⟨y, s'', rest', hloop, hcons, hrest', hlen⟩
          exact ⟨y, s'', rest', hloop, hcons, hrest', by rw [length_cons]; omega⟩

/-! ## All calls -/

omit h in
theorem passing_upcoming (nodes : List α) :
    passing st step (upcoming visited nodes) =
      nodes.flatMap fun node => (visited node).filter (testNode st step (some node)) := by
  rw [passing, upcoming, filter_flatMap, map_flatMap]
  apply flatMap_congr
  intro node _
  rw [filter_map]
  simp [Function.comp_def]

/-- The operation returns the visited nodes that pass the test, in the order of the context
nodes, and ends without anything left behind. -/
theorem produces_of_covers (hidle : Idle hint) (hnodes : ∀ node ∈ nodes, Context node)
    (hlimit : (upcoming visited nodes).length < limit) :
    ∃ s', Produces (doNext st step limit) ⟨hint, none, nodes.map some⟩
      ((nodes.flatMap fun node => (visited node).filter (testNode st step (some node))).map
        Except.ok) s' ∧ Idle s'.hint := by
  rw [← passing_upcoming]
  apply produces_of_step
    (fun s out => ∃ rest, Remaining st step limit Idle Context visited s rest ∧
      rest.length < limit ∧ out = (passing st step rest).map Except.ok)
    (fun s => Idle s.hint)
  · intro s hs
    obtain ⟨rest, hrest, hlen, hnil⟩ := hs
    rcases doNextLoop_spec h hrest hlen with
      ⟨-, hint', hloop, hidle'⟩ | ⟨x, s', rest', -, hcons, -⟩
    · refine ⟨⟨hint', none, []⟩, ?_, hidle'⟩
      rw [doNext, hloop]
    · rw [hcons] at hnil
      cases hnil
  · intro s b bs hs
    obtain ⟨rest, hrest, hlen, hout⟩ := hs
    rcases doNextLoop_spec h hrest hlen with
      ⟨hnil, -⟩ | ⟨x, s', rest', hloop, hcons, hrest', hless⟩
    · rw [hnil] at hout
      cases hout
    · rw [hcons, map_cons] at hout
      obtain ⟨rfl, rfl⟩ := hout
      refine ⟨s', ?_, rest', hrest', by omega, rfl⟩
      rw [doNext, hloop]
  · exact ⟨upcoming visited nodes, .between hidle hnodes, hlimit, rfl⟩

end

end Sedna.XPath.AxisStep
