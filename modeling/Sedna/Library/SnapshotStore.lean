import Mathlib.Logic.Function.Basic
import Mathlib.Tactic.Common

/-!
# A store with snapshots

What transactions and readers of a versioned store see: an updater works on
copies of its own until it commits, a reader sees the committed store as it was
when its snapshot was taken.
-/

namespace Sedna.Library.SnapshotStore

open Function

variable {Client Time Key Val : Type*}

/-- `working c k = some r` says that `c` has written `r` at `k`, where `r = none` erases. -/
structure State (Client Time Key Val : Type*) where
  committed : Key → Option Val
  view : Time → Key → Option Val
  working : Client → Key → Option (Option Val)

namespace State

def read (s : State Client Time Key Val) (c : Client) (k : Key) : Option Val :=
  (s.working c k).getD (s.committed k)

def Touched (s : State Client Time Key Val) (c : Client) (k : Key) : Prop := s.working c k ≠ none

variable {s : State Client Time Key Val} {c c' : Client} {t t' : Time} {k k' : Key} {v : Option Val}

theorem read_of_untouched (h : ¬ s.Touched c k) : s.read c k = s.committed k := by
  unfold Touched at h
  push Not at h
  simp [read, h]

section

variable [DecidableEq Client]

def forget (s : State Client Time Key Val) (c : Client) : State Client Time Key Val :=
  { s with working := Function.update s.working c fun _ => none }

def commit (s : State Client Time Key Val) (c : Client) : State Client Time Key Val :=
  { s.forget c with committed := s.read c }

@[simp] theorem committed_commit : (s.commit c).committed = s.read c := rfl

theorem working_forget : (s.forget c).working c' k = if c' = c then none else s.working c' k := by
  unfold forget
  by_cases hc : c' = c
  · subst hc
    simp
  · simp [hc]

theorem forget_of_untouched (h : ∀ k, ¬ s.Touched c k) : s.forget c = s := by
  have hnone : (fun _ => none) = s.working c := by
    funext k
    exact (not_not.1 (h k)).symm
  unfold forget
  rw [hnone, update_eq_self]

theorem commit_of_untouched (h : ∀ k, ¬ s.Touched c k) : s.commit c = s := by
  have hread : s.read c = s.committed := by
    funext k
    exact read_of_untouched (h k)
  unfold commit
  rw [forget_of_untouched h, hread]

variable [DecidableEq Key]

def write (s : State Client Time Key Val) (c : Client) (k : Key) (v : Option Val) :
    State Client Time Key Val :=
  { s with working := Function.update s.working c (Function.update (s.working c) k (some v)) }

theorem working_write :
    (s.write c k v).working c' k' = if c' = c ∧ k' = k then some v else s.working c' k' := by
  unfold write
  by_cases hc : c' = c
  · subst hc
    by_cases hk : k' = k
    · subst hk
      simp
    · simp [hk]
  · simp [hc]

end

section

variable [DecidableEq Time]

def takeSnapshot (s : State Client Time Key Val) (t : Time) : State Client Time Key Val :=
  { s with view := Function.update s.view t s.committed }

@[simp] theorem view_takeSnapshot_self : (s.takeSnapshot t).view t = s.committed := by
  simp [takeSnapshot]

theorem view_takeSnapshot_of_ne (h : t' ≠ t) : (s.takeSnapshot t).view t' = s.view t' := by
  simp [takeSnapshot, h]

end

end State

end Sedna.Library.SnapshotStore
