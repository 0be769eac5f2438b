import Mathlib.Tactic.Common

/-!
# Invariants of computations that change a state and may stop

A computation keeps an invariant if the state that it leaves satisfies it, whether it returns or
stops with an error.
-/

namespace Sedna.Library.StateInvariant

variable {ε σ α β : Type}

def finalState : EStateM.Result ε σ α → σ
  | .ok _ s => s
  | .error _ s => s

def Keeps (I : σ → Prop) (m : EStateM ε σ α) : Prop := ∀ s, I s → I (finalState (m s))

variable {I : σ → Prop}

theorem keeps_pure (a : α) : Keeps I (pure a : EStateM ε σ α) := by
  intro s hs
  exact hs

theorem keeps_throw (e : ε) : Keeps I (throw e : EStateM ε σ α) := by
  intro s hs
  exact hs

theorem keeps_get : Keeps I (get : EStateM ε σ σ) :=
  fun _ hs => hs

theorem keeps_modify {f : σ → σ} (h : ∀ s, I s → I (f s)) :
    Keeps I (modify f : EStateM ε σ PUnit) :=
  h

theorem Keeps.bind {m : EStateM ε σ α} {f : α → EStateM ε σ β} (hm : Keeps I m)
    (hf : ∀ a, Keeps I (f a)) : Keeps I (m >>= f) := by
  intro s hs
  have hmid := hm s hs
  show I (finalState (EStateM.bind m f s))
  unfold EStateM.bind
  cases hrun : m s with
  | ok a t =>
    rw [hrun] at hmid
    exact hf a t hmid
  | error e t =>
    rw [hrun] at hmid
    exact hmid

theorem Keeps.ite {c : Prop} [Decidable c] {m n : EStateM ε σ α} (hm : Keeps I m)
    (hn : Keeps I n) : Keeps I (if c then m else n) := by
  split
  · exact hm
  · exact hn

theorem keeps_forM {f : β → EStateM ε σ PUnit} (h : ∀ b, Keeps I (f b)) (bs : List β) :
    Keeps I (bs.forM f) := by
  induction bs with
  | nil => exact keeps_pure _
  | cons b bs ih => exact (h b).bind fun _ => ih

end Sedna.Library.StateInvariant
