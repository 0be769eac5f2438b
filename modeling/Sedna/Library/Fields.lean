import Mathlib

/-!
# Fields of a record

A record is a sequence of fields without names or separators.  The writer puts one behind
the other; the reader takes each off the front of what is left and has to know its kind.
Numbers are stored with the least significant byte first.
-/

namespace Sedna.Library.Bytes

def le : Nat → Nat → List UInt8
  | 0, _ => []
  | width + 1, n => UInt8.ofNat (n % 256) :: le width (n / 256)

def ofLe : List UInt8 → Nat
  | [] => 0
  | b :: bytes => b.toNat + 256 * ofLe bytes

@[simp] theorem length_le (width n : Nat) : (le width n).length = width := by
  induction width generalizing n with
  | zero => rfl
  | succ width ih => simp [le, ih]

theorem ofLe_le (width n : Nat) : ofLe (le width n) = n % 256 ^ width := by
  induction width generalizing n with
  | zero => simp [le, ofLe, Nat.mod_one]
  | succ width ih =>
    have hbyte : (UInt8.ofNat (n % 256)).toNat = n % 256 := by simp
    rw [le, ofLe, ih, hbyte, pow_succ', Nat.mod_mul]

theorem ofLe_le_of_lt {width n : Nat} (h : n < 256 ^ width) : ofLe (le width n) = n := by
  rw [ofLe_le, Nat.mod_eq_of_lt h]

end Sedna.Library.Bytes

namespace Sedna.Library.Fields

open Bytes List

/-- A kind of field, with the law that a reader gets what a writer has put. -/
structure Field (α : Type*) where
  put : α → List UInt8
  get : List UInt8 → Option (α × List UInt8)
  get_put : ∀ (a : α) (rest : List UInt8), get (put a ++ rest) = some (a, rest)

attribute [simp] Field.get_put

@[simp] theorem Field.get_put_last {α : Type*} (f : Field α) (a : α) :
    f.get (f.put a) = some (a, []) := by
  have h := f.get_put a []
  rwa [append_nil] at h

/-! A reader in the `Option` monad goes on with the value and the rest. -/

theorem Field.bind_get_put {α β : Type _} (f : Field α) (a : α) (rest : List UInt8)
    (k : α × List UInt8 → Option β) : (f.get (f.put a ++ rest) >>= k) = k (a, rest) := by
  rw [f.get_put]
  rfl

theorem Field.bind_get_put_last {α β : Type _} (f : Field α) (a : α)
    (k : α × List UInt8 → Option β) : (f.get (f.put a) >>= k) = k (a, []) := by
  rw [f.get_put_last]
  rfl

/-! ## Blocks of known length -/

def takeExact (n : Nat) (bytes : List UInt8) : Option (List UInt8 × List UInt8) :=
  if n ≤ bytes.length then some (bytes.take n, bytes.drop n) else none

theorem takeExact_append {n : Nat} {bytes : List UInt8} (h : bytes.length = n)
    (rest : List UInt8) : takeExact n (bytes ++ rest) = some (bytes, rest) := by
  unfold takeExact
  rw [if_pos (by rw [length_append]; omega), ← h, take_left, drop_left]

@[ext]
structure Block where
  bytes : List UInt8
  length_lt : bytes.length < 2 ^ 32
  deriving DecidableEq

def Block.size (b : Block) : UInt32 := UInt32.ofNat b.bytes.length

theorem Block.toNat_size (b : Block) : b.size.toNat = b.bytes.length :=
  UInt32.toNat_ofNat_of_lt' b.length_lt

def takeBlock (size : UInt32) (bytes : List UInt8) : Option (Block × List UInt8) :=
  if size.toNat ≤ bytes.length then
    some (⟨bytes.take size.toNat,
      Nat.lt_of_le_of_lt (List.length_take_le _ _) size.toNat_lt⟩, bytes.drop size.toNat)
  else none

@[simp] theorem takeBlock_append (b : Block) (rest : List UInt8) :
    takeBlock b.size (b.bytes ++ rest) = some (b, rest) := by
  unfold takeBlock
  rw [if_pos (by rw [b.toNat_size, length_append]; omega)]
  congr 2
  · apply Block.ext
    simp [b.toNat_size]
  · rw [b.toNat_size, drop_left]

theorem bind_takeBlock {β : Type _} (b : Block) (rest : List UInt8)
    (k : Block × List UInt8 → Option β) :
    (takeBlock b.size (b.bytes ++ rest) >>= k) = k (b, rest) := by
  rw [takeBlock_append]
  rfl

/-! ## Numbers -/

def number {α : Type*} (width : Nat) (toNat : α → Nat) (ofNat : Nat → Option α)
    (lt : ∀ a, toNat a < 256 ^ width) (ofNat_toNat : ∀ a, ofNat (toNat a) = some a) :
    Field α where
  put a := le width (toNat a)
  get bytes :=
    match takeExact width bytes with
    | none => none
    | some (value, rest) => (ofNat (ofLe value)).map fun a => (a, rest)
  get_put a rest := by
    rw [takeExact_append (length_le width (toNat a)) rest]
    simp only [ofLe_le_of_lt (lt a), ofNat_toNat, Option.map_some]

def uint16 : Field UInt16 :=
  number 2 UInt16.toNat (fun n => some (UInt16.ofNat n)) (fun a => a.toNat_lt)
    (fun a => congrArg some a.ofNat_toNat)

def uint32 : Field UInt32 :=
  number 4 UInt32.toNat (fun n => some (UInt32.ofNat n)) (fun a => a.toNat_lt)
    (fun a => congrArg some a.ofNat_toNat)

/-! ## Composition -/

def pair {α β : Type*} (f : Field α) (g : Field β) : Field (α × β) where
  put x := f.put x.1 ++ g.put x.2
  get bytes :=
    match f.get bytes with
    | none => none
    | some (a, rest) => (g.get rest).map fun x => ((a, x.1), x.2)
  get_put x rest := by
    rw [List.append_assoc, f.get_put]
    simp only [g.get_put, Option.map_some]

def mapped {α β : Type*} (f : Field α) (into : α → β) (back : β → α)
    (into_back : ∀ b, into (back b) = b) : Field β where
  put b := f.put (back b)
  get bytes := (f.get bytes).map (Prod.map into id)
  get_put b rest := by rw [f.get_put, Option.map_some, Prod.map_apply, into_back, id]

/-! ## Strings -/

structure CString where
  bytes : List UInt8
  noNul : (0 : UInt8) ∉ bytes
  deriving DecidableEq

namespace CString

def empty : CString := ⟨[], by simp⟩

def cons (b : UInt8) (s : CString) (h : b ≠ 0) : CString :=
  ⟨b :: s.bytes, by
    rw [List.mem_cons, not_or]
    exact ⟨h.symm, s.noNul⟩⟩

theorem eq_empty_iff {s : CString} : s = empty ↔ s.bytes = [] := by
  cases s
  simp [empty]

end CString

def takeString : List UInt8 → Option (CString × List UInt8)
  | [] => none
  | b :: bytes =>
    if h : b = 0 then some (.empty, bytes)
    else (takeString bytes).map (Prod.map (CString.cons b · h) id)

theorem takeString_append (bytes : List UInt8) (h : (0 : UInt8) ∉ bytes) (rest : List UInt8) :
    takeString (bytes ++ 0 :: rest) = some (⟨bytes, h⟩, rest) := by
  induction bytes with
  | nil => rfl
  | cons b bytes ih =>
    have hne : b ≠ 0 := fun hb => h (hb ▸ mem_cons_self)
    have hnot : (0 : UInt8) ∉ bytes := fun hmem => h (mem_cons_of_mem _ hmem)
    rw [cons_append, takeString, dif_neg hne, ih hnot]
    rfl

def cstring : Field CString where
  put s := s.bytes ++ [0]
  get := takeString
  get_put s rest := by
    rw [List.append_assoc]
    exact takeString_append s.bytes s.noNul rest

theorem length_put_cstring (s : CString) : (cstring.put s).length = s.bytes.length + 1 :=
  length_append

end Sedna.Library.Fields
