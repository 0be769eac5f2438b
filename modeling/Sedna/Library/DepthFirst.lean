import Mathlib.Logic.Relation
import Mathlib.Data.List.Nodup
import Mathlib.Data.List.Perm.Subperm
import Mathlib.Tactic.Common

/-!
# Depth-first search for a cycle through its starting point

The search keeps the list of nodes entered so far.  Meeting the first of them again ends it with
`cycle`; meeting any other ends only the current visit.  Nodes that are not active are never
entered.
-/

namespace Sedna.Library.DepthFirst

open Relation List TransGen

variable {α ε : Type*}

/-! ## Graphs that lack some edges

`E` has the edges of `R`, except those whose target can be passed over: whatever
the target leads to, the source leads to as well. -/

theorem transGen_of_shortcuts {R E : α → α → Prop}
    (h : ∀ a b, R a b → E a b ∨ ∀ c, E b c → E a c) {a b c : α} (hab : ReflTransGen R a b)
    (hbc : TransGen E b c) : TransGen E a c := by
  induction hab using ReflTransGen.head_induction_on with
  | refl => exact hbc
  | head hstep _ ih =>
    rcases h _ _ hstep with hedge | hshort
    · exact .head hedge ih
    · obtain ⟨d, hd, hrest⟩ := head'_iff.1 ih
      exact head' (hshort d hd) hrest

theorem walk_avoiding {R : α → α → Prop} {a t : α} (h : TransGen R a t) (ha : a ≠ t) :
    ∃ b, b ≠ t ∧ ReflTransGen (fun x y => x ≠ t ∧ y ≠ t ∧ R x y) a b ∧ R b t := by
  induction h using head_induction_on with
  | single hstep => exact ⟨_, ha, .refl, hstep⟩
  | @head x y hstep _ ih =>
    by_cases hy : y = t
    · subst hy
      exact ⟨x, ha, .refl, hstep⟩
    · obtain ⟨b, hb, hwalk, hlast⟩ := ih hy
      exact ⟨b, hb, .head ⟨ha, hy, hstep⟩ hwalk, hlast⟩

theorem cycle_avoiding {R : α → α → Prop} {t : α} (hirr : ¬ R t t) (h : TransGen R t t) :
    ∃ a b, R t a ∧ a ≠ t ∧ b ≠ t ∧ ReflTransGen (fun x y => x ≠ t ∧ y ≠ t ∧ R x y) a b ∧ R b t := by
  obtain ⟨a, hta, hrest⟩ := head'_iff.1 h
  have ha : a ≠ t := by
    rintro rfl
    exact hirr hta
  rcases reflTransGen_iff_eq_or_transGen.1 hrest with heq | hrest
  · exact absurd heq.symm ha
  · obtain ⟨b, hb, hwalk, hlast⟩ := walk_avoiding hrest ha
    exact ⟨a, b, hta, ha, hb, hwalk, hlast⟩

/-! ## The search -/

inductive Exit (ε : Type*) where
  | cycle
  | outOfFuel
  | fault (error : ε)

def visitAll (visit : α → List α → Except (Exit ε) (List α)) :
    List α → List α → Except (Exit ε) (List α)
  | [], visited => .ok visited
  | b :: targets, visited =>
    match visit b visited with
    | .error e => .error e
    | .ok visited => visitAll visit targets visited

def visit [DecidableEq α] (active : α → Bool) (next : α → Except ε (List α)) :
    Nat → α → List α → Except (Exit ε) (List α)
  | 0, _, _ => .error .outOfFuel
  | fuel + 1, me, visited =>
    if active me = false then .ok visited
    else if me ∈ visited then
      if visited.head? = some me then .error .cycle else .ok visited
    else
      match next me with
      | .error e => .error (.fault e)
      | .ok targets => visitAll (visit active next fuel) targets (visited ++ [me])

variable (active : α → Bool) (next : α → Except ε (List α))

/-- The search looks at `b` from the active node `a`. -/
def Edge (a b : α) : Prop := active a = true ∧ ∃ targets, next a = .ok targets ∧ b ∈ targets

/-! ## A search that ends without a cycle -/

/-- Every node entered since `visited` has its successors among the nodes
entered, and none of them is the first node. -/
structure Explored (visited visited' : List α) : Prop where
  extends_visited : ∃ new, visited' = visited ++ new
  closed : ∀ a ∈ visited', a ∉ visited → ∃ targets, next a = .ok targets ∧
    ∀ b ∈ targets, active b = true → b ∈ visited' ∧ visited'.head? ≠ some b

variable {active next}

theorem Explored.refl (visited : List α) : Explored active next visited visited :=
  ⟨⟨[], by simp⟩, fun _ ha hna => absurd ha hna⟩

variable {visited visited' nodes : List α} {root : α} {fuel : Nat}

theorem Explored.mem (h : Explored active next visited visited') {a : α} (ha : a ∈ visited) :
    a ∈ visited' := by
  obtain ⟨new, rfl⟩ := h.extends_visited
  exact mem_append_left _ ha

theorem Explored.head (h : Explored active next visited visited') (hne : visited ≠ []) :
    visited'.head? = visited.head? := by
  obtain ⟨new, rfl⟩ := h.extends_visited
  exact head?_append_of_ne_nil visited hne

theorem Explored.trans {u v w : List α} (huv : Explored active next u v)
    (hvw : Explored active next v w) (hne : u ≠ []) : Explored active next u w := by
  have hv : v ≠ [] := by
    obtain ⟨new, rfl⟩ := huv.extends_visited
    simp [hne]
  refine ⟨?_, ?_⟩
  · obtain ⟨new, rfl⟩ := huv.extends_visited
    obtain ⟨new', rfl⟩ := hvw.extends_visited
    exact ⟨new ++ new', by simp⟩
  · intro a ha hau
    by_cases hav : a ∈ v
    · obtain ⟨targets, hnext, htargets⟩ := huv.closed a hav hau
      refine ⟨targets, hnext, fun b hb hact => ?_⟩
      obtain ⟨hbv, hhd⟩ := htargets b hb hact
      exact ⟨hvw.mem hbv, by rw [hvw.head hv]; exact hhd⟩
    · exact hvw.closed a ha hav

theorem visitAll_explored {f : α → List α → Except (Exit ε) (List α)}
    (hf : ∀ b v v', v ≠ [] → f b v = .ok v' → Explored active next v v' ∧
      (active b = true → b ∈ v' ∧ v.head? ≠ some b))
    (targets : List α) (hne : visited ≠ []) (h : visitAll f targets visited = .ok visited') :
    Explored active next visited visited' ∧
      ∀ b ∈ targets, active b = true → b ∈ visited' ∧ visited.head? ≠ some b := by
  induction targets generalizing visited with
  | nil =>
    cases h
    exact ⟨Explored.refl _, by simp⟩
  | cons c targets ih =>
    rw [visitAll] at h
    split at h
    · cases h
    next v hv =>
      obtain ⟨hfst, hc⟩ := hf c visited v hne hv
      have hvne : v ≠ [] := by
        obtain ⟨new, rfl⟩ := hfst.extends_visited
        simp [hne]
      obtain ⟨hrest, htargets⟩ := ih hvne h
      refine ⟨hfst.trans hrest hne, ?_⟩
      intro b hb hact
      rcases mem_cons.1 hb with rfl | hb
      · exact ⟨hrest.mem (hc hact).1, (hc hact).2⟩
      · obtain ⟨hmem, hhd⟩ := htargets b hb hact
        exact ⟨hmem, by rw [← hfst.head hne]; exact hhd⟩

theorem visitAll_cycle {f : α → List α → Except (Exit ε) (List α)}
    (hhd : ∀ b v v', v.head? = some root → f b v = .ok v' → v'.head? = some root)
    (hf : ∀ b v, v.head? = some root → f b v = .error .cycle →
      ReflTransGen (Edge active next) b root)
    (targets : List α) (hvisited : visited.head? = some root)
    (h : visitAll f targets visited = .error .cycle) :
    ∃ b ∈ targets, ReflTransGen (Edge active next) b root := by
  induction targets generalizing visited with
  | nil => cases h
  | cons c targets ih =>
    rw [visitAll] at h
    split at h
    next e he =>
      cases h
      exact ⟨c, by simp, hf c visited hvisited he⟩
    next v hv =>
      obtain ⟨b, hb, hpath⟩ := ih (hhd c visited v hvisited hv) h
      exact ⟨b, by simp [hb], hpath⟩

variable [DecidableEq α]

theorem visit_explored (fuel : Nat) (me : α) (hne : visited ≠ [])
    (h : visit active next fuel me visited = .ok visited') :
    Explored active next visited visited' ∧
      (active me = true → me ∈ visited' ∧ visited.head? ≠ some me) := by
  induction fuel generalizing me visited visited' with
  | zero => cases h
  | succ fuel ih =>
    rw [visit] at h
    split at h
    next hact =>
      cases h
      exact ⟨Explored.refl _, fun htrue => by rw [hact] at htrue; cases htrue⟩
    split at h
    next hmem =>
      split at h
      · cases h
      next hhd =>
        cases h
        exact ⟨Explored.refl _, fun _ => ⟨hmem, hhd⟩⟩
    next hmem =>
    split at h
    · cases h
    next targets hnext =>
      obtain ⟨hexp, htargets⟩ :=
        visitAll_explored (fun b v v' hv hok => ih b hv hok) targets (by simp) h
      refine ⟨⟨?_, ?_⟩, fun _ => ⟨hexp.mem (by simp), ?_⟩⟩
      · obtain ⟨new, rfl⟩ := hexp.extends_visited
        exact ⟨me :: new, by simp⟩
      · intro a ha hav
        by_cases hame : a = me
        · subst hame
          refine ⟨targets, hnext, fun b hb hact => ?_⟩
          obtain ⟨hbmem, hbhead⟩ := htargets b hb hact
          refine ⟨hbmem, ?_⟩
          rw [hexp.head (by simp)]
          exact hbhead
        · exact hexp.closed a ha (by simp [hav, hame])
      · intro hcontra
        exact hmem (mem_of_head? hcontra)

theorem not_cycle_of_ok (h : visit active next fuel root [] = .ok visited) :
    ¬ TransGen (Edge active next) root root := by
  intro hcycle
  have hroot : active root = true := by
    obtain ⟨b, hedge, -⟩ := head'_iff.1 hcycle
    exact hedge.1
  cases fuel with
  | zero => cases h
  | succ fuel =>
    rw [visit, if_neg (by simp [hroot]), if_neg (by simp)] at h
    split at h
    · cases h
    next targets hnext =>
    obtain ⟨hexp, htargets⟩ :=
      visitAll_explored (fun b v v' hv hok => visit_explored fuel b hv hok) targets (by simp) h
    have hhd : visited.head? = some root := hexp.head (by simp)
    have hstep : ∀ a ∈ visited, ∀ b, Edge active next a b → active b = true →
        b ∈ visited ∧ b ≠ root := by
      rintro a ha b ⟨-, targets', hnext', hb⟩ hact
      by_cases hroot : a = root
      · subst hroot
        obtain rfl : targets = targets' := Except.ok.inj (hnext.symm.trans hnext')
        obtain ⟨hmem, hne⟩ := htargets b hb hact
        exact ⟨hmem, fun hba => hne (by rw [hba]; rfl)⟩
      · obtain ⟨targets'', hnext'', hclosed⟩ := hexp.closed a ha (by simp [hroot])
        obtain rfl : targets' = targets'' := Except.ok.inj (hnext'.symm.trans hnext'')
        obtain ⟨hmem, hne⟩ := hclosed b hb hact
        exact ⟨hmem, fun hba => hne (by rw [hba, hhd])⟩
    have hreach : ∀ b, TransGen (Edge active next) root b → active b = true →
        b ∈ visited ∧ b ≠ root := by
      intro b hb
      induction hb with
      | single hedge => exact hstep root (mem_of_head? hhd) _ hedge
      | tail _ hedge ih => exact hstep _ (ih hedge.1).1 _ hedge
    exact (hreach root hcycle hroot).2 rfl

/-! ## A search that ends with a cycle -/

theorem visit_head {b : α} (hvisited : visited.head? = some root)
    (h : visit active next fuel b visited = .ok visited') : visited'.head? = some root := by
  have hne : visited ≠ [] := by
    rintro rfl
    cases hvisited
  rw [(visit_explored fuel b hne h).1.head hne]
  exact hvisited

theorem visit_cycle (fuel : Nat) (me : α) (hvisited : visited.head? = some root)
    (h : visit active next fuel me visited = .error .cycle) :
    ReflTransGen (Edge active next) me root := by
  induction fuel generalizing me visited with
  | zero => cases h
  | succ fuel ih =>
    rw [visit] at h
    split at h
    · cases h
    next hact =>
    split at h
    · split at h
      next hme =>
        obtain rfl : root = me := Option.some.inj (hvisited.symm.trans hme)
        exact ReflTransGen.refl
      · cases h
    split at h
    · cases h
    next targets hnext =>
      have hne : visited ≠ [] := by
        rintro rfl
        cases hvisited
      have hpushed : (visited ++ [me]).head? = some root := by
        rw [head?_append_of_ne_nil visited hne]
        exact hvisited
      obtain ⟨b, hb, hpath⟩ := visitAll_cycle (fun b v v' hv hok => visit_head hv hok)
        (fun b v hv hcycle => ih b hv hcycle) targets hpushed h
      exact ReflTransGen.head ⟨by simpa using hact, targets, hnext, hb⟩ hpath

theorem cycle_of_error (h : visit active next fuel root [] = .error .cycle) :
    TransGen (Edge active next) root root := by
  cases fuel with
  | zero => cases h
  | succ fuel =>
    rw [visit] at h
    split at h
    · cases h
    next hact =>
    rw [if_neg (by simp)] at h
    split at h
    · cases h
    next targets hnext =>
      have hpushed : ([] ++ [root]).head? = some root := rfl
      obtain ⟨b, hb, hpath⟩ := visitAll_cycle (fun b v v' hv hok => visit_head hv hok)
        (fun b v hv hcycle => visit_cycle fuel b hv hcycle) targets hpushed h
      exact head' ⟨by simpa using hact, targets, hnext, hb⟩ hpath

/-! ## A search always ends -/

/-- The nodes entered are distinct and come from a list of all active nodes. -/
structure Within (nodes visited : List α) : Prop where
  nodup : visited.Nodup
  mem : ∀ a ∈ visited, a ∈ nodes

omit [DecidableEq α] in
theorem Within.length_le (h : Within nodes visited) : visited.length ≤ nodes.length :=
  (h.nodup.subperm h.mem).length_le

def Ends (nodes visited : List α) : Except (Exit ε) (List α) → Prop
  | .ok visited' => Within nodes visited' ∧ visited.length ≤ visited'.length
  | .error .cycle => True
  | .error _ => False

omit [DecidableEq α] in
theorem Ends.mono {u v : List α} {result : Except (Exit ε) (List α)} (h : Ends nodes v result)
    (hle : u.length ≤ v.length) : Ends nodes u result := by
  match result, h with
  | .ok _, ⟨hwithin, hlen⟩ => exact ⟨hwithin, Nat.le_trans hle hlen⟩
  | .error .cycle, _ => trivial

omit [DecidableEq α] in
theorem visitAll_ends {f : α → List α → Except (Exit ε) (List α)} {bound : Nat}
    (hf : ∀ b v, Within nodes v → bound ≤ v.length → Ends nodes v (f b v)) (targets : List α)
    (hvisited : Within nodes visited) (hbound : bound ≤ visited.length) :
    Ends nodes visited (visitAll f targets visited) := by
  induction targets generalizing visited with
  | nil => exact ⟨hvisited, Nat.le_refl _⟩
  | cons c targets ih =>
    have hc := hf c visited hvisited hbound
    rw [visitAll]
    cases hres : f c visited with
    | error e =>
      rw [hres] at hc
      exact hc
    | ok v =>
      rw [hres] at hc
      obtain ⟨hv, hle⟩ := hc
      exact (ih hv (Nat.le_trans hbound hle)).mono hle

theorem visit_ends (hact : ∀ a, active a = true → a ∈ nodes)
    (hnext : ∀ a, active a = true → ∃ targets, next a = .ok targets) (fuel : Nat) (me : α)
    (hvisited : Within nodes visited) (hfuel : nodes.length < fuel + visited.length) :
    Ends nodes visited (visit active next fuel me visited) := by
  induction fuel generalizing me visited with
  | zero =>
    have hle := hvisited.length_le
    omega
  | succ fuel ih =>
    rw [visit]
    split
    · exact ⟨hvisited, Nat.le_refl _⟩
    next hme =>
    have hme : active me = true := by simpa using hme
    split
    · split
      · trivial
      · exact ⟨hvisited, Nat.le_refl _⟩
    next hmem =>
    obtain ⟨targets, htargets⟩ := hnext me hme
    rw [htargets]
    have hpush : Within nodes (visited ++ [me]) := by
      refine ⟨nodup_append.2 ⟨hvisited.nodup, by simp, ?_⟩, ?_⟩
      · rintro a ha b hb rfl
        rw [mem_singleton.1 hb] at ha
        exact hmem ha
      · exact forall_mem_append.2 ⟨hvisited.mem, by simpa using hact me hme⟩
    have hall := visitAll_ends
      (fun b v hv (hlen : visited.length + 1 ≤ v.length) => ih b hv (by omega)) targets hpush
      (by simp)
    exact hall.mono (by simp)

theorem visit_decides (hact : ∀ a, active a = true → a ∈ nodes)
    (hnext : ∀ a, active a = true → ∃ targets, next a = .ok targets) (hfuel : nodes.length < fuel)
    (root : α) :
    (TransGen (Edge active next) root root ∧ visit active next fuel root [] = .error .cycle) ∨
    (¬ TransGen (Edge active next) root root ∧
      ∃ visited, visit active next fuel root [] = .ok visited) := by
  have hends := visit_ends hact hnext fuel root ⟨nodup_nil, by simp⟩ (by simpa using hfuel)
  cases hres : visit active next fuel root [] with
  | ok visited => exact .inr ⟨not_cycle_of_ok hres, visited, rfl⟩
  | error e =>
    rw [hres] at hends
    cases e with
    | cycle => exact .inl ⟨cycle_of_error hres, rfl⟩
    | outOfFuel => exact hends.elim
    | fault e => exact hends.elim

end Sedna.Library.DepthFirst
