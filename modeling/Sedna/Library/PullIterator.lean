import Mathlib.Tactic.Common

/-!
# Iterators that are asked for one item at a time

An iterator is a state and a function `next` that returns an item, or `none` at the end of the
sequence, together with the next state.
-/

namespace Sedna.Library.PullIterator

variable {σ β : Type*}

/-- From `s` the iterator returns the items of the list, then the end of the sequence, which
leaves it in `s'`. -/
inductive Produces (next : σ → Option β × σ) : σ → List β → σ → Prop
  | eos {s s' : σ} (h : next s = (none, s')) : Produces next s [] s'
  | item {s s1 s' : σ} {b : β} {bs : List β} (h : next s = (some b, s1))
      (rest : Produces next s1 bs s') : Produces next s (b :: bs) s'

variable {next : σ → Option β × σ}

theorem produces_of_step (R : σ → List β → Prop) (Q : σ → Prop)
    (hend : ∀ s, R s [] → ∃ s', next s = (none, s') ∧ Q s')
    (hstep : ∀ s b bs, R s (b :: bs) → ∃ s', next s = (some b, s') ∧ R s' bs)
    {s : σ} {bs : List β} (h : R s bs) : ∃ s', Produces next s bs s' ∧ Q s' := by
  induction bs generalizing s with
  | nil =>
    obtain ⟨s', hnext, hQ⟩ := hend s h
    exact ⟨s', .eos hnext, hQ⟩
  | cons b bs ih =>
    obtain ⟨s1, hnext, hR⟩ := hstep s b bs h
    obtain ⟨s', hrest, hQ⟩ := ih hR
    exact ⟨s', .item hnext hrest, hQ⟩

theorem Produces.congr {s t s' : σ} {bs : List β} (hfst : next s = next t)
    (h : Produces next t bs s') : Produces next s bs s' := by
  cases h with
  | eos hnext => exact .eos (hfst.trans hnext)
  | item hnext rest => exact .item (hfst.trans hnext) rest

end Sedna.Library.PullIterator
