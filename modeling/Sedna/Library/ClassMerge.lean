import Mathlib.Data.List.Perm.Basic
import Mathlib.Data.List.Nodup

/-!
# Merging the chains of several classes

The items of a list fall into classes.  A list that is read through one chain
for each class is known by the first items of the chains, and taking the first
item of the list off moves only the chain of its class.
-/

namespace Sedna.Library.ClassMerge

open List

variable {α κ : Type*} [DecidableEq κ] (key : α → κ)

def heads (ks : List κ) (q : List α) : List α := ks.filterMap fun k => q.find? fun y => key y = k

variable {key} {ks : List κ}

theorem mem_of_mem_heads {q : List α} {y : α} (hy : y ∈ heads key ks q) : y ∈ q ∧ key y ∈ ks := by
  obtain ⟨k, hk, hfind⟩ := mem_filterMap.1 hy
  have hkey : key y = k := by simpa using find?_some hfind
  exact ⟨mem_of_find?_eq_some hfind, hkey ▸ hk⟩

theorem heads_eq_nil {q : List α} (h : ∀ y ∈ q, key y ∉ ks) : heads key ks q = [] := by
  rw [eq_nil_iff_forall_not_mem]
  intro y hy
  obtain ⟨hq, hk⟩ := mem_of_mem_heads hy
  exact h y hq hk

theorem heads_step (hks : ks.Nodup) {q1 q2 : List α} {v : α} (hq1 : ∀ y ∈ q1, key y ∉ ks)
    (hv : key v ∈ ks) :
    ∃ others, (heads key ks (q1 ++ v :: q2)).Perm (v :: others) ∧
      (heads key ks q2).Perm ((q2.find? fun y => key y = key v).toList ++ others) := by
  obtain ⟨as, bs, rfl⟩ := append_of_mem hv
  obtain ⟨-, hnd, hdisjoint⟩ := nodup_append.1 hks
  -- the other classes pass over `v` and what comes before it
  have hskip : ∀ k ∈ as ++ key v :: bs, (q1 ++ v :: q2).find? (fun y => key y = k) =
      (v :: q2).find? fun y => key y = k := by
    intro k hk
    rw [find?_append, find?_eq_none.2, Option.none_or]
    intro y hy hkey
    exact hq1 y hy ((by simpa using hkey : key y = k) ▸ hk)
  have hoth : ∀ k ∈ as ++ bs, (q1 ++ v :: q2).find? (fun y => key y = k) =
      q2.find? fun y => key y = k := by
    intro k hk
    have hmem : k ∈ as ++ key v :: bs := ((sublist_cons_self _ _).append_left as).subset hk
    have hne : key v ≠ k := by
      intro h
      rcases mem_append.1 hk with hk | hk
      · exact hdisjoint k hk (key v) mem_cons_self h.symm
      · exact (nodup_cons.1 hnd).1 (h ▸ hk)
    rw [hskip k hmem, find?_cons_of_neg (by simpa using hne)]
  have hself : (q1 ++ v :: q2).find? (fun y => key y = key v) = some v := by
    rw [hskip (key v) (by simp), find?_cons_of_pos (by simp)]
  have hleft : (as.filterMap fun k => (q1 ++ v :: q2).find? fun y => key y = k) =
      as.filterMap fun k => q2.find? fun y => key y = k :=
    filterMap_congr fun k hk => hoth k (mem_append_left bs hk)
  have hright : (bs.filterMap fun k => (q1 ++ v :: q2).find? fun y => key y = k) =
      bs.filterMap fun k => q2.find? fun y => key y = k :=
    filterMap_congr fun k hk => hoth k (mem_append_right as hk)
  refine ⟨heads key (as ++ bs) q2, ?_, ?_⟩
  · rw [heads, filterMap_append, filterMap_cons, hself, hleft, hright, heads, filterMap_append]
    exact perm_middle
  · rw [heads, filterMap_append, filterMap_cons, heads, filterMap_append]
    cases q2.find? fun y => key y = key v with
    | none => exact List.Perm.refl _
    | some y => exact perm_middle

end Sedna.Library.ClassMerge
