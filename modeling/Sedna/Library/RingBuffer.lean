import Mathlib.Data.List.GetD
import Mathlib.Data.List.Range
import Mathlib.Tactic.Common

/-!
# Ring buffers

A buffer is a memory of `size` places; what it holds starts at some place and goes
on at place zero behind the last one.
-/

namespace Sedna.Library.RingBuffer

open List

variable {α : Type*}

def read (buf : Nat → α) (off len : Nat) : List α := (List.range len).map fun i => buf (off + i)

def write (buf : Nat → α) (off : Nat) (data : List α) : Nat → α :=
  fun i => if off ≤ i then data.getD (i - off) (buf i) else buf i

def contents (buf : Nat → α) (size start len : Nat) : List α :=
  (List.range len).map fun i => buf ((start + i) % size)

variable (buf : Nat → α) {size start len : Nat}

@[simp] theorem length_read (off : Nat) : (read buf off len).length = len := by
  simp [read]

@[simp] theorem length_contents : (contents buf size start len).length = len := by
  simp [contents]

@[simp] theorem contents_zero : contents buf size start 0 = [] := rfl

theorem contents_add (a b : Nat) :
    contents buf size start (a + b) =
      contents buf size start a ++ contents buf size ((start + a) % size) b := by
  unfold contents
  rw [range_add, map_append, map_map]
  congr 1
  apply map_congr_left
  intro i _
  show buf ((start + (a + i)) % size) = buf (((start + a) % size + i) % size)
  rw [Nat.mod_add_mod, Nat.add_assoc]

theorem contents_eq_read (h : start + len ≤ size) :
    contents buf size start len = read buf start len := by
  apply map_congr_left
  intro i hi
  have hi := mem_range.1 hi
  rw [Nat.mod_eq_of_lt (by omega)]

theorem contents_eq_read_append (hsta : start < size) (hlen : len ≤ size)
    (hwrap : size ≤ start + len) :
    contents buf size start len =
      read buf start (size - start) ++ read buf 0 (len - (size - start)) := by
  have hspl : len = (size - start) + (len - (size - start)) := by omega
  have hend : (start + (size - start)) % size = 0 := by
    rw [show start + (size - start) = size by omega, Nat.mod_self]
  conv_lhs => rw [hspl]
  rw [contents_add, hend, contents_eq_read buf (by omega), contents_eq_read buf (by omega)]

theorem read_write (off : Nat) (data : List α) :
    read (write buf off data) off data.length = data := by
  apply ext_getElem
  · simp
  · intro i _ hi
    simp [read, write, hi]

theorem contents_write {off : Nat} (data : List α) (hsta : start < size)
    (hoff : (start + len) % size = off) (hroom : len + data.length ≤ size)
    (hfit : off + data.length ≤ size) :
    contents (write buf off data) size start (len + data.length) =
      contents buf size start len ++ data := by
  have hmod : ∀ a, a < 2 * size → a % size = if a < size then a else a - size := by
    intro a ha
    split
    · exact Nat.mod_eq_of_lt (by assumption)
    · rw [Nat.mod_eq_sub_mod (by omega), Nat.mod_eq_of_lt (by omega)]
  rw [contents_add, hoff, contents_eq_read _ hfit, read_write]
  congr 1
  apply map_congr_left
  intro i hi
  have hi := mem_range.1 hi
  -- a place in use is not one of the new ones
  have hout : (start + i) % size < off ∨ off + data.length ≤ (start + i) % size := by
    by_cases hempty : data.length = 0
    · omega
    · have hpl := hmod (start + i) (by omega)
      have hend := hmod (start + len) (by omega)
      split at hpl <;> split at hend <;> omega
  unfold write
  split
  · rw [getD_eq_getElem?_getD, getElem?_eq_none (by omega), Option.getD_none]
  · rfl

end Sedna.Library.RingBuffer
