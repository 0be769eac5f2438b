import Mathlib

/-!
# The table of namespaces

`xmlns.cpp` keeps one object for a prefix and a URI in a hash table.  Strings
are given by their bytes before the NUL.  `xmlns_touch_len` looks for a URI
that only begins with the given bytes, and the copy that it makes of them has
no NUL behind it.
-/

namespace Sedna.Structures.Xmlns

open List

abbrev CString := List UInt8

/-- `xmlns_hash_object` at its address, with the index of its chain.  The URI is what is read up to
the next NUL. -/
structure HashObject where
  addr : Nat
  chain : Nat
  nsPrefix : CString
  uri : CString

def HashObject.names (o : HashObject) : CString × CString := (o.nsPrefix, o.uri)

abbrev Table := List HashObject

def strhash (a : CString) : Nat :=
  a.foldl (fun hash c => ((hash <<< 5) + hash + c.toNat) % 2 ^ 64) 5381 % 2 ^ 32

def originalHash (nsPrefix uri : CString) : Nat :=
  (strhash nsPrefix + 33 * strhash uri) % 2 ^ 32 % 32

/-- `cat_strncpy`, read up to the next NUL.  `len - 1` wraps around for 0.  The bytes `behind` the
copy are read as well if it does not include the NUL. -/
def catStrncpy (src : CString) (len : Nat) (behind : CString) : CString :=
  let n := min src.length ((len + (2 ^ 64 - 1)) % 2 ^ 64) + 1
  if n ≤ src.length then src.take n ++ behind else src

def Table.touch (t : Table) (chain : Nat) (nsPrefix : CString) (sameUri : CString → Bool)
    (copy : CString) : Option HashObject × Table :=
  match t.find? fun i => i.chain = chain && i.nsPrefix = nsPrefix && sameUri i.uri with
  | some i => (some i, t)
  | none =>
    let i := ⟨t.length, chain, nsPrefix, copy⟩
    (some i, i :: t)

inductive Call where
  | xmlnsTouch (nsPrefix uri : Option CString)
  | xmlnsTouchLen (nsPrefix : Option CString) (uri : CString) (uriLen : Nat) (behind : CString)

def Call.exec (t : Table) : Call → Option HashObject × Table
  | .xmlnsTouch nsPrefix uri =>
    if nsPrefix = none ∧ uri = none then (none, t) else
      t.touch (originalHash (nsPrefix.getD []) (uri.getD [])) (nsPrefix.getD []) (· = uri.getD [])
        (uri.getD [])
  | .xmlnsTouchLen nsPrefix uri uriLen behind =>
    t.touch (originalHash (nsPrefix.getD []) (uri.take uriLen)) (nsPrefix.getD [])
      (·.take uriLen = uri.take uriLen) (catStrncpy uri uriLen behind)

def run : Table → List Call → List (Call × Option HashObject)
  | _, [] => []
  | t, c :: cs => (c, (c.exec t).1) :: run (c.exec t).2 cs

def Call.names : Call → Option (CString × CString)
  | .xmlnsTouch nsPrefix uri =>
    if nsPrefix = none ∧ uri = none then none else some (nsPrefix.getD [], uri.getD [])
  | .xmlnsTouchLen nsPrefix uri uriLen _ => some (nsPrefix.getD [], uri.take uriLen)

/-- Every call gets the names that it asks for, and two calls get the same object just when they
ask for the same names. -/
def Exact (calls : List Call) : Prop :=
  ∀ r ∈ run [] calls, r.2.map HashObject.names = r.1.names ∧ ∀ r' ∈ run [] calls,
    (r.2.map HashObject.addr = r'.2.map HashObject.addr ↔ r.1.names = r'.1.names)

/-- No longer URI stands in the chain, and a copy, if one is made, has at least one byte and a NUL
behind it. -/
def Call.Safe (t : Table) : Call → Prop
  | .xmlnsTouch _ _ => True
  | .xmlnsTouchLen nsPrefix uri uriLen behind =>
    (∀ o ∈ t, o.chain = originalHash (nsPrefix.getD []) (uri.take uriLen) →
      o.nsPrefix = nsPrefix.getD [] → uri.take uriLen <+: o.uri → o.uri = uri.take uriLen) ∧
    ((nsPrefix.getD [], uri.take uriLen) ∉ t.map HashObject.names →
      0 < uriLen ∧ uriLen < 2 ^ 64 ∧ (uriLen ≤ uri.length → behind = []))

/-- Every call is safe on the table that it finds. -/
def SafeRun : Table → List Call → Prop
  | _, [] => True
  | t, c :: cs => c.Safe t ∧ SafeRun (c.exec t).2 cs

theorem catStrncpy_eq_take {src behind : CString} {len : Nat} (hpos : 0 < len) (hlen : len < 2 ^ 64)
    (hbehind : len ≤ src.length → behind = []) : catStrncpy src len behind = src.take len := by
  have hwrap : (len + (2 ^ 64 - 1)) % 2 ^ 64 = len - 1 := by omega
  rw [catStrncpy, hwrap]
  by_cases hle : len ≤ src.length
  · have hn : min src.length (len - 1) + 1 = len := by omega
    rw [hn, if_pos hle, hbehind hle, append_nil]
  · have hn : min src.length (len - 1) + 1 = src.length + 1 := by omega
    rw [hn, if_neg (Nat.not_succ_le_self _), take_of_length_le (by omega)]

structure Table.Inv (t : Table) : Prop where
  chain : ∀ o ∈ t, o.chain = originalHash o.nsPrefix o.uri
  addr_lt : ∀ o ∈ t, o.addr < t.length
  unique : ∀ o ∈ t, ∀ o' ∈ t, o.addr = o'.addr ↔ o.names = o'.names

variable {t t' : Table} {c : Call}

/-- What a call with these names leaves: an object that has them, in a table that has lost
nothing. -/
def Interns (t : Table) (names : Option (CString × CString)) (res : Option HashObject × Table) :
    Prop :=
  res.1.map HashObject.names = names ∧ (∀ o ∈ res.1, o ∈ res.2) ∧ t ⊆ res.2 ∧ res.2.Inv

theorem Table.Inv.touch (h : t.Inv) {nsPrefix uri copy : CString} {sameUri : CString → Bool}
    (hself : sameUri uri = true)
    (hsame : ∀ o ∈ t, o.chain = originalHash nsPrefix uri → o.nsPrefix = nsPrefix →
      sameUri o.uri = true → o.uri = uri)
    (hcopy : (nsPrefix, uri) ∉ t.map HashObject.names → copy = uri) :
    Interns t (some (nsPrefix, uri))
      (t.touch (originalHash nsPrefix uri) nsPrefix sameUri copy) := by
  rw [Table.touch]
  split
  · rename_i o hfind
    have hmem := mem_of_find?_eq_some hfind
    have ho := find?_some hfind
    simp only [Bool.and_eq_true, decide_eq_true_eq] at ho
    refine ⟨congrArg some (Prod.ext ho.1.2 (hsame o hmem ho.1.1 ho.1.2 ho.2)), ?_, Subset.refl _, h⟩
    simpa using hmem
  · rename_i hfind
    have hnew : ∀ o ∈ t, o.names ≠ (nsPrefix, uri) := by
      rintro o ho hnames
      obtain ⟨rfl, rfl⟩ := Prod.mk.inj hnames
      simpa [h.chain o ho, hself] using find?_eq_none.1 hfind o ho
    obtain rfl := hcopy (by simpa using hnew)
    refine ⟨rfl, by simp, subset_cons_self _ _, ?_⟩
    constructor <;> rw [forall_mem_cons]
    · exact ⟨rfl, h.chain⟩
    · exact ⟨Nat.lt_succ_self _, fun o ho => Nat.lt_succ_of_lt (h.addr_lt o ho)⟩
    · simp only [forall_mem_cons]
      exact ⟨⟨trivial, fun o ho => iff_of_false (h.addr_lt o ho).ne' (hnew o ho).symm⟩,
        fun o ho => ⟨iff_of_false (h.addr_lt o ho).ne (hnew o ho), h.unique o ho⟩⟩

theorem Table.Inv.exec (h : t.Inv) (hsafe : c.Safe t) : Interns t c.names (c.exec t) := by
  cases c with
  | xmlnsTouch nsPrefix uri =>
    by_cases hnull : nsPrefix = none ∧ uri = none
    · rw [Call.names, Call.exec, if_pos hnull, if_pos hnull]
      exact ⟨rfl, by simp, Subset.refl _, h⟩
    · rw [Call.names, Call.exec, if_neg hnull, if_neg hnull]
      exact h.touch (by simp) (by simp) fun _ => rfl
  | xmlnsTouchLen nsPrefix uri uriLen behind =>
    obtain ⟨hlonger, hcopy⟩ := hsafe
    refine h.touch (by simp) ?_ fun hnew => ?_
    · intro o ho hchn hpre hsame
      exact hlonger o ho hchn hpre (of_decide_eq_true hsame ▸ take_prefix uriLen o.uri)
    · obtain ⟨hpos, hlen, hbehind⟩ := hcopy hnew
      exact catStrncpy_eq_take hpos hlen hbehind

theorem Table.Inv.run (h : t.Inv) {cs : List Call} (hsafe : SafeRun t cs) :
    ∃ t' : Table, t'.Inv ∧ t ⊆ t' ∧
      ∀ r ∈ Xmlns.run t cs, r.2.map HashObject.names = r.1.names ∧ ∀ o ∈ r.2, o ∈ t' := by
  induction cs generalizing t with
  | nil => exact ⟨t, h, Subset.refl _, by simp [Xmlns.run]⟩
  | cons c cs ih =>
    obtain ⟨hnames, hmem, hkeeps, hinv⟩ := h.exec hsafe.1
    obtain ⟨t', hinv', hkeeps', hruns⟩ := ih hinv hsafe.2
    refine ⟨t', hinv', Subset.trans hkeeps hkeeps', ?_⟩
    rw [Xmlns.run, forall_mem_cons]
    exact ⟨⟨hnames, fun o ho => hkeeps' (hmem o ho)⟩, hruns⟩

end Sedna.Structures.Xmlns
