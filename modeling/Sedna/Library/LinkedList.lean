import Mathlib.Data.List.Basic
import Mathlib.Tactic.Common

/-!
# Doubly linked lists in a heap

A heap maps keys to cells; each cell has a previous and a next key.  `Linked`
says that a list of keys is threaded in both directions.  `Threaded` is weaker:
a key that is not the first may also point back to a stale key.
-/

namespace Sedna.Library.LinkedList

open List Option

variable {κ γ : Type*} (prevOf nextOf : γ → Option κ) {before : List κ} {last : κ}

/-- The keys are linked in this order, the first of them back to `prev`. -/
def Linked (heap : κ → Option γ) : Option κ → List κ → Prop
  | _, [] => True
  | prev, k :: keys =>
    (∃ cell, heap k = some cell ∧ prevOf cell = prev ∧ nextOf cell = keys.head?) ∧
      Linked heap (some k) keys

/-- The same with back pointers that may be stale. -/
def Threaded (stale : κ → Prop) (heap : κ → Option γ) : Option κ → List κ → Prop
  | _, [] => True
  | prev, k :: keys =>
    (∃ cell, heap k = some cell ∧ nextOf cell = keys.head? ∧
      (prevOf cell = prev ∨ prev ≠ none ∧ ∃ q, prevOf cell = some q ∧ stale q)) ∧
      Threaded stale heap (some k) keys

variable {prevOf nextOf} {heap heap' : κ → Option γ} {prev : Option κ} {S S' : κ → Prop}

variable {keys after : List κ} {k : κ}

theorem threaded_false_iff :
    Threaded prevOf nextOf (fun _ => False) heap prev keys ↔
      Linked prevOf nextOf heap prev keys := by
  induction keys generalizing prev with
  | nil => exact Iff.rfl
  | cons k keys ih =>
    simp only [Threaded, Linked, ih, and_false, exists_false, or_false]
    refine and_congr_left fun _ => exists_congr fun cell => and_congr_right fun _ => ?_
    exact and_comm

theorem Threaded.mono (h : Threaded prevOf nextOf S heap prev keys) (hS : ∀ q, S q → S' q) :
    Threaded prevOf nextOf S' heap prev keys := by
  induction keys generalizing prev with
  | nil => trivial
  | cons k keys ih =>
    obtain ⟨⟨cell, hcell, hnext, hprev⟩, hrest⟩ := h
    refine ⟨⟨cell, hcell, hnext, hprev.imp id ?_⟩, ih hrest⟩
    rintro ⟨hne, q, hq, hstale⟩
    exact ⟨hne, q, hq, hS q hstale⟩

theorem Threaded.congr (h : Threaded prevOf nextOf S heap prev keys)
    (hsame : ∀ k ∈ keys, heap' k = heap k) : Threaded prevOf nextOf S heap' prev keys := by
  induction keys generalizing prev with
  | nil => trivial
  | cons k keys ih =>
    obtain ⟨⟨cell, hcell, hlinks⟩, hrest⟩ := h
    refine ⟨⟨cell, ?_, hlinks⟩, ih hrest fun j hj => hsame j (by simp [hj])⟩
    rw [hsame k (by simp), hcell]

theorem getLast?_cons_or (k : κ) (keys : List κ) (prev : Option κ) :
    (k :: keys).getLast?.or prev = keys.getLast?.or (some k) := by
  cases keys with
  | nil => rfl
  | cons j keys =>
    rfl

theorem Threaded.cell (h : Threaded prevOf nextOf S heap prev (before ++ k :: after)) :
    ∃ cell, heap k = some cell ∧ nextOf cell = after.head? ∧
      (prevOf cell = before.getLast?.or prev ∨
        before.getLast?.or prev ≠ none ∧ ∃ q, prevOf cell = some q ∧ S q) := by
  induction before generalizing prev with
  | nil =>
    obtain ⟨⟨cell, hcell, hnext, hprev⟩, -⟩ := h
    exact ⟨cell, hcell, hnext, by simpa using hprev⟩
  | cons j before ih =>
    rw [getLast?_cons_or]
    exact ih h.2

section

variable (hsame : ∀ j ∈ keys, heap' j = heap j)
  (hlast : ∃ cell cell', heap last = some cell ∧ heap' last = some cell' ∧
    prevOf cell' = prevOf cell ∧ nextOf cell' = some k)
  (hk : ∃ cell, heap' k = some cell ∧ prevOf cell = some last ∧ nextOf cell = none)
include hsame hlast hk

theorem Threaded.append (h : Threaded prevOf nextOf S heap prev (keys ++ [last])) :
    Threaded prevOf nextOf S heap' prev (keys ++ [last] ++ [k]) := by
  induction keys generalizing prev with
  | nil =>
    obtain ⟨⟨cell, hcell, -, hprev⟩, -⟩ := h
    obtain ⟨cell1, cell', hcell1, hcell', hprev', hnext'⟩ := hlast
    obtain rfl : cell = cell1 := some.inj (hcell.symm.trans hcell1)
    obtain ⟨new, hnew, hnewPrev, hnewNext⟩ := hk
    rw [← hprev'] at hprev
    exact ⟨⟨cell', hcell', hnext', hprev⟩, ⟨new, hnew, hnewNext, .inl hnewPrev⟩, trivial⟩
  | cons j keys ih =>
    obtain ⟨⟨cell, hcell, hnext, hprev⟩, hrest⟩ := h
    refine ⟨⟨cell, by rw [hsame j (by simp), hcell], ?_, hprev⟩,
      ih (fun i hi => hsame i (by simp [hi])) hrest⟩
    rw [hnext]
    cases keys <;> rfl

theorem Linked.append (h : Linked prevOf nextOf heap prev (keys ++ [last])) :
    Linked prevOf nextOf heap' prev (keys ++ [last] ++ [k]) :=
  threaded_false_iff.1 ((threaded_false_iff.2 h).append hsame hlast hk)

end

theorem Threaded.dropAfter (h : Threaded prevOf nextOf S heap prev (keys ++ last :: k :: after))
    (hS : ∀ q, S q → S' q) (hk : after ≠ [] → S' k) (hsame : ∀ j ∈ keys ++ after, heap' j = heap j)
    (hlast : ∃ cell cell', heap last = some cell ∧ heap' last = some cell' ∧
      prevOf cell' = prevOf cell ∧ nextOf cell' = after.head?) :
    Threaded prevOf nextOf S' heap' prev (keys ++ last :: after) := by
  induction keys generalizing prev with
  | nil =>
    obtain ⟨⟨cell, hcell, -, hprev⟩, -, hrest⟩ := h.mono hS
    obtain ⟨cell1, cell', hcell1, hcell', hprev', hnext'⟩ := hlast
    obtain rfl : cell = cell1 := some.inj (hcell.symm.trans hcell1)
    rw [← hprev'] at hprev
    refine ⟨⟨cell', hcell', hnext', hprev⟩, ?_⟩
    cases after with
    | nil => trivial
    | cons n after =>
      obtain ⟨⟨ncell, hncell, hnnext, hnprev⟩, hrest⟩ := hrest
      refine ⟨⟨ncell, by rw [hsame n (by simp), hncell], hnnext, .inr ⟨by simp, ?_⟩⟩,
        hrest.congr fun j hj => hsame j (by simp [hj])⟩
      rcases hnprev with hnprev | ⟨-, hstale⟩
      · exact ⟨k, hnprev, hk (by simp)⟩
      · exact hstale
  | cons j keys ih =>
    obtain ⟨⟨cell, hcell, hnext, hprev⟩, hrest⟩ := h
    refine ⟨⟨cell, by rw [hsame j (by simp), hcell], ?_, hprev.imp id ?_⟩,
      ih hrest fun i hi => hsame i (mem_cons_of_mem j hi)⟩
    · rw [hnext]
      cases keys <;> rfl
    · rintro ⟨hne, q, hq, hstale⟩
      exact ⟨hne, q, hq, hS q hstale⟩

theorem Threaded.dropFirst {next : κ} (h : Threaded prevOf nextOf S heap prev (k :: next :: keys))
    (hsame : ∀ j ∈ keys, heap' j = heap j)
    (hnext : ∃ cell cell', heap next = some cell ∧ heap' next = some cell' ∧
      prevOf cell' = none ∧ nextOf cell' = nextOf cell) :
    Threaded prevOf nextOf S heap' none (next :: keys) := by
  obtain ⟨-, ⟨cell, hcell, hcellNext, -⟩, hrest⟩ := h
  obtain ⟨cell1, cell', hcell1, hcell', hprev', hnext'⟩ := hnext
  obtain rfl : cell = cell1 := some.inj (hcell.symm.trans hcell1)
  exact ⟨⟨cell', hcell', hnext'.trans hcellNext, .inl hprev'⟩, hrest.congr hsame⟩

theorem Linked.congr (h : Linked prevOf nextOf heap prev keys)
    (hsame : ∀ k ∈ keys, ∃ cell cell', heap k = some cell ∧ heap' k = some cell' ∧
      prevOf cell' = prevOf cell ∧ nextOf cell' = nextOf cell) :
    Linked prevOf nextOf heap' prev keys := by
  induction keys generalizing prev with
  | nil => trivial
  | cons k keys ih =>
    obtain ⟨⟨cell, hcell, hprev, hnext⟩, hrest⟩ := h
    obtain ⟨cell1, cell', hcell1, hcell', hprev', hnext'⟩ := hsame k (by simp)
    obtain rfl : cell = cell1 := some.inj (hcell.symm.trans hcell1)
    exact ⟨⟨cell', hcell', hprev'.trans hprev, hnext'.trans hnext⟩,
      ih hrest fun j hj => hsame j (by simp [hj])⟩

theorem Linked.cell (h : Linked prevOf nextOf heap prev (before ++ k :: after)) :
    ∃ cell, heap k = some cell ∧ prevOf cell = before.getLast?.or prev ∧
      nextOf cell = after.head? := by
  induction before generalizing prev with
  | nil => simpa using h.1
  | cons j before ih =>
    rw [getLast?_cons_or]
    exact ih h.2

theorem Linked.remove [DecidableEq κ] (h : Linked prevOf nextOf heap prev (before ++ k :: after))
    (hnd : (before ++ k :: after).Nodup)
    (htold : ∀ j ∈ before ++ after, ∃ cell cell', heap j = some cell ∧ heap' j = some cell' ∧
      prevOf cell' = (if after.head? = some j then before.getLast?.or prev else prevOf cell) ∧
      nextOf cell' = (if before.getLast? = some j then after.head? else nextOf cell)) :
    Linked prevOf nextOf heap' prev (before ++ after) := by
  induction before generalizing prev with
  | nil =>
    cases after with
    | nil => trivial
    | cons n after =>
      obtain ⟨-, ⟨cell, hcell, -, hnext⟩, hrest⟩ := h
      obtain ⟨cell1, cell', hcell1, hcell', hprev', hnext'⟩ := htold n (by simp)
      obtain rfl : cell = cell1 := some.inj (hcell.symm.trans hcell1)
      refine ⟨⟨cell', hcell', by simpa using hprev', by simpa [hnext] using hnext'⟩, ?_⟩
      refine hrest.congr fun j hj => ?_
      obtain ⟨c, c', hc, hc', hp, hn⟩ := htold j (by simp [hj])
      have hne : n ≠ j := fun heq => by simp [heq, hj] at hnd
      exact ⟨c, c', hc, hc', by simpa [hne] using hp, by simpa using hn⟩
  | cons j before ih =>
    obtain ⟨⟨cell, hcell, hprev, hnext⟩, hrest⟩ := h
    rw [cons_append, nodup_cons] at hnd
    obtain ⟨cell1, cell', hcell1, hcell', hprev', hnext'⟩ := htold j (by simp)
    obtain rfl : cell = cell1 := some.inj (hcell.symm.trans hcell1)
    have hafter : ¬ after.head? = some j := fun heq =>
      hnd.1 (by simp [mem_of_mem_head? heq])
    refine ⟨⟨cell', hcell', by simpa [hafter, hprev] using hprev', ?_⟩,
      ih hrest hnd.2 fun i hi => ?_⟩
    · rw [hnext']
      cases before with
      | nil => simp
      | cons i before =>
        have hlast : ¬ (j :: i :: before).getLast? = some j := fun heq =>
          hnd.1 (by
            exact mem_append_left _ (mem_of_mem_getLast? heq))
        rw [if_neg hlast, hnext]
        rfl
    · obtain ⟨c, c', hc, hc', hp, hn⟩ := htold i (by
        exact mem_cons_of_mem j hi)
      rw [getLast?_cons_or] at hp
      refine ⟨c, c', hc, hc', hp, ?_⟩
      rw [hn]
      cases before with
      | nil =>
        have hne : j ≠ i := fun heq => hnd.1 (by
          rw [heq]
          exact mem_append_right _ (mem_cons_of_mem _ hi))
        simp [hne]
      | cons i before => rw [getLast?_cons_cons]

end Sedna.Library.LinkedList
