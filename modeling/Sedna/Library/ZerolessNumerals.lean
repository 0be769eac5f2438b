import Mathlib.Data.Nat.Basic

/-!
# Numerals without a zero

Numbers written with the digits `1 .. base`, least significant digit first.
Every number has one such numeral, so counting never repeats a numeral.
-/

namespace Sedna.Library.ZerolessNumerals

open List

def value (base : Nat) : List Nat → Nat
  | [] => 0
  | digit :: digits => digit + base * value base digits

def increment (base : Nat) : List Nat → List Nat
  | [] => [1]
  | digit :: digits => if digit < base then (digit + 1) :: digits else 1 :: increment base digits

def numeral (base : Nat) : Nat → List Nat
  | 0 => []
  | n + 1 => increment base (numeral base n)

def IsNumeral (base : Nat) (digits : List Nat) : Prop := ∀ digit ∈ digits, 1 ≤ digit ∧ digit ≤ base

variable {base : Nat} {digits : List Nat}

theorem increment_ne_nil : increment base digits ≠ [] := by
  cases digits with
  | nil => simp [increment]
  | cons digit digits =>
    unfold increment
    split <;> simp

theorem increment_replicate (n : Nat) :
    increment base (List.replicate n base) = List.replicate (n + 1) 1 := by
  induction n with
  | zero => rfl
  | succ n ih =>
    rw [replicate_succ, increment, if_neg (lt_irrefl base), ih]
    rfl

theorem IsNumeral.increment (hbase : 1 ≤ base) (h : IsNumeral base digits) :
    IsNumeral base (increment base digits) := by
  induction digits with
  | nil =>
    intro digit hdigit
    rw [mem_singleton.1 hdigit]
    exact ⟨le_refl 1, hbase⟩
  | cons digit digits ih =>
    have hdigits := forall_mem_cons.1 h
    unfold ZerolessNumerals.increment
    split
    next hlt => exact forall_mem_cons.2 ⟨by omega, hdigits.2⟩
    · exact forall_mem_cons.2 ⟨⟨le_refl 1, hbase⟩, ih hdigits.2⟩

theorem value_increment (h : IsNumeral base digits) :
    value base (increment base digits) = value base digits + 1 := by
  induction digits with
  | nil => simp [increment, value]
  | cons digit digits ih =>
    have hdigits := forall_mem_cons.1 h
    unfold increment
    split
    · simp only [value]
      omega
    next hge =>
      simp only [value, ih hdigits.2, Nat.mul_add]
      omega

theorem isNumeral_numeral (hbase : 1 ≤ base) (n : Nat) : IsNumeral base (numeral base n) := by
  induction n with
  | zero => exact fun _ hdigit => absurd hdigit not_mem_nil
  | succ n ih => exact ih.increment hbase

theorem value_numeral (hbase : 1 ≤ base) (n : Nat) : value base (numeral base n) = n := by
  induction n with
  | zero => rfl
  | succ n ih => rw [numeral, value_increment (isNumeral_numeral hbase n), ih]

end Sedna.Library.ZerolessNumerals
