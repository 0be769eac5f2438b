import Mathlib
import Sedna.Library.PullIterator
import Sedna.Library.Lists

/-!
# The index scan operator

`Multimap` is the contents of a B-tree: the keys in increasing order, each with its objects in
increasing order.  A cursor is the part of the contents that it has not passed yet, and
`BTreeIterator` reads one pair ahead of its user.  `PPIndexScan` returns the nodes whose keys
satisfy a condition, one node a call.  The first call of an evaluation reads the bounds and places
the cursor; the end of the sequence makes the next call a first one again.  The conditions cut a
segment out of the contents because the keys are sorted.
-/

namespace Sedna.Index

variable {K O : Type*}

/-- A value of the indexed type as a bound of a search.  `nan` is the value of the floating
point types that is neither less than, equal to nor greater than any key. -/
inductive Bound (K : Type*)
  | value (k : K)
  | nan
  deriving DecidableEq

section

variable [LinearOrder K]

/-- The comparison of a stored key with the key that is searched for: everything that is neither
equal nor greater counts as less. -/
def btCmpKey (k : K) : Bound K → Int
  | .value b => if k = b then 0 else if b < k then 1 else -1
  | .nan => -1

def opEq (k : K) : Bound K → Bool
  | .value b => decide (k = b)
  | .nan => false

def opLt (k : K) : Bound K → Bool
  | .value b => decide (k < b)
  | .nan => false

def opLe (k : K) : Bound K → Bool
  | .value b => decide (k ≤ b)
  | .nan => false

def opGt (k : K) : Bound K → Bool
  | .value b => decide (b < k)
  | .nan => false

def opGe (k : K) : Bound K → Bool
  | .value b => decide (b ≤ k)
  | .nan => false

end

structure Multimap (K O : Type*) [LinearOrder K] [LinearOrder O] where
  entries : List (K × List O)
  keys_sorted : entries.Pairwise fun e e' => e.1 < e'.1
  objects_sorted : ∀ e ∈ entries, e.2.Pairwise (· < ·)
  objects_ne_nil : ∀ e ∈ entries, e.2 ≠ []

/-- The key of the cursor with the objects not read yet, then the keys behind it. -/
structure BtCursor (K O : Type*) where
  rest : List (K × List O)
  deriving DecidableEq

namespace BtCursor

variable (c : BtCursor K O)

def isNull : Bool := c.rest.isEmpty

def getKey : Option K := c.rest.head?.map Prod.fst

def btNextObj : Option O × BtCursor K O :=
  match c.rest with
  | (k, o :: os) :: rest => (some o, ⟨(k, os) :: rest⟩)
  | _ => (none, c)

def btNextKey : Bool × BtCursor K O :=
  match c.rest with
  | _ :: e :: rest => (true, ⟨e :: rest⟩)
  | _ => (false, ⟨[]⟩)

end BtCursor

def btFindGe [LinearOrder K] [LinearOrder O] (m : Multimap K O) (key : Bound K) : BtCursor K O :=
  ⟨m.entries.dropWhile fun e => btCmpKey e.1 key < 0⟩

def btLm [LinearOrder K] [LinearOrder O] (m : Multimap K O) : BtCursor K O := ⟨m.entries⟩

/-- `tmpKey` and `tmpValue` are the pair in front of the user, the end of the sequence where
they are `none`. -/
structure BTreeIterator (K O : Type*) where
  cursor : BtCursor K O
  tmpKey : Option K
  tmpValue : Option O
  deriving DecidableEq

namespace BTreeIterator

def ofCursor (cursor : BtCursor K O) : BTreeIterator K O :=
  if cursor.isNull then ⟨cursor, none, none⟩
  else
    let next := cursor.btNextObj
    ⟨next.2, cursor.getKey, next.1⟩

def nextKey (i : BTreeIterator K O) : BTreeIterator K O :=
  let moved := i.cursor.btNextKey
  if moved.1 then
    let next := moved.2.btNextObj
    ⟨next.2, moved.2.getKey, next.1⟩
  else ⟨moved.2, none, none⟩

def nextValue (i : BTreeIterator K O) : BTreeIterator K O :=
  let next := i.cursor.btNextObj
  ⟨next.2, i.tmpKey, next.1⟩

def nextPair (i : BTreeIterator K O) : BTreeIterator K O :=
  let next := i.cursor.btNextObj
  if next.1.isSome then ⟨next.2, i.tmpKey, next.1⟩
  else
    let moved := next.2.btNextKey
    if moved.1 then
      let next := moved.2.btNextObj
      ⟨next.2, moved.2.getKey, next.1⟩
    else ⟨moved.2, none, next.1⟩

def getKey (i : BTreeIterator K O) : Option K := i.tmpKey

def getValue (i : BTreeIterator K O) : Option O := i.tmpValue

end BTreeIterator

namespace Multimap

variable [LinearOrder K] [LinearOrder O]

def find (m : Multimap K O) (key : Bound K) : BTreeIterator K O := .ofCursor (btFindGe m key)

def begin (m : Multimap K O) : BTreeIterator K O := .ofCursor (btLm m)

end Multimap

/-! ## The operator -/

inductive IndexScanCondition
  | eq | lt | le | gt | ge | gtLt | gtLe | geLt | geLe
  deriving DecidableEq

structure Input (K O : Type*) [LinearOrder K] [LinearOrder O] where
  index : Multimap K O
  child : Bound K
  child2 : Bound K

def satisfies [LinearOrder K] (isc : IndexScanCondition) (k : K) (child child2 : Bound K) : Bool :=
  match isc with
  | .eq => opEq k child
  | .lt => opLt k child
  | .le => opLe k child
  | .gt => opGt k child
  | .ge => opGe k child
  | .gtLt => opGt k child && opLt k child2
  | .gtLe => opGt k child && opLe k child2
  | .geLt => opGe k child && opLt k child2
  | .geLe => opGe k child && opLe k child2

inductive NextFun
  | nextEq | nextLtLe | nextBetween
  deriving DecidableEq

structure PPIndexScan (K O : Type*) where
  isc : IndexScanCondition
  leftBound : Option (Bound K)
  rightBound : Option (Bound K)
  leftBoundExclusive : Bool
  rightBoundExclusive : Bool
  cursor : Option (BTreeIterator K O)
  nextFun : NextFun
  firstTime : Bool
  deriving DecidableEq

namespace PPIndexScan

def doOpen (isc : IndexScanCondition) : PPIndexScan K O where
  isc := isc
  leftBound := none
  rightBound := none
  leftBoundExclusive := isc == .gt || isc == .gtLt || isc == .gtLe
  rightBoundExclusive := isc == .lt || isc == .gtLt || isc == .geLt
  cursor := none
  nextFun :=
    match isc with
    | .eq | .gt | .ge => .nextEq
    | .lt | .le => .nextLtLe
    | .gtLt | .gtLe | .geLt | .geLe => .nextBetween
  firstTime := true

section

variable [LinearOrder K] [LinearOrder O]

/-- The comparison of a key that may be the end of the sequence: the end satisfies nothing. -/
def keyIs (op : K → Bound K → Bool) (key : Option K) (bound : Bound K) : Bool :=
  match key with
  | some k => op k bound
  | none => false

def advanceEq (s : PPIndexScan K O) (cursor : BTreeIterator K O) : Option O × PPIndexScan K O :=
  match cursor.getValue with
  | none => (none, { s with firstTime := true, cursor := none })
  | some o =>
    (some o, { s with
      cursor := some (if s.isc = .eq then cursor.nextValue else cursor.nextPair) })

def nextEq (input : Input K O) (s : PPIndexScan K O) : Option O × PPIndexScan K O :=
  if s.firstTime then
    let cursor := input.index.find input.child
    let currentKey := cursor.getKey
    let keyEqual := keyIs opEq currentKey input.child
    let cursor :=
      if s.isc ≠ .eq ∧ s.leftBoundExclusive ∧ keyEqual then cursor.nextKey else cursor
    let s := { s with leftBound := some input.child, cursor := some cursor }
    -- the key is the one from in front of the move
    if currentKey.isNone ∨ (s.isc = .eq ∧ ¬keyEqual) then (none, s)
    else advanceEq { s with firstTime := false } cursor
  else
    match s.cursor with
    | some cursor => advanceEq s cursor
    | none => (none, s)

/-- The part that `next_lt_le` and `next_between` share: a pair is returned as long as its key is
within the right bound. -/
def advanceBounded (s : PPIndexScan K O) (rightBound : Bound K) (cursor : BTreeIterator K O) :
    Option O × PPIndexScan K O :=
  let currentKey := cursor.getKey
  if currentKey.isNone
      ∨ ¬(if s.rightBoundExclusive then keyIs opLt currentKey rightBound
        else keyIs opLe currentKey rightBound) then
    (none, { s with firstTime := true, cursor := none })
  else (cursor.getValue, { s with cursor := some cursor.nextPair })

def resumeBounded (s : PPIndexScan K O) : Option O × PPIndexScan K O :=
  match s.rightBound, s.cursor with
  | some rightBound, some cursor => advanceBounded s rightBound cursor
  | _, _ => (none, s)

def nextLtLe (input : Input K O) (s : PPIndexScan K O) : Option O × PPIndexScan K O :=
  if s.firstTime then
    let cursor := input.index.begin
    advanceBounded { s with
      rightBound := some input.child, cursor := some cursor, firstTime := false }
      input.child cursor
  else resumeBounded s

def nextBetween (input : Input K O) (s : PPIndexScan K O) : Option O × PPIndexScan K O :=
  if s.firstTime then
    let cursor := input.index.find input.child
    let currentKey := cursor.getKey
    let cursor :=
      if s.leftBoundExclusive ∧ keyIs opEq currentKey input.child then cursor.nextKey else cursor
    let s := { s with
      leftBound := some input.child, rightBound := some input.child2, cursor := some cursor }
    if currentKey.isNone then (none, s)
    else advanceBounded { s with firstTime := false } input.child2 cursor
  else resumeBounded s

def doNext (input : Input K O) (s : PPIndexScan K O) : Option O × PPIndexScan K O :=
  match s.nextFun with
  | .nextEq => nextEq input s
  | .nextLtLe => nextLtLe input s
  | .nextBetween => nextBetween input s

end

end PPIndexScan

open Library.PullIterator List BTreeIterator

/-! ## Iterators and the pairs that remain -/

def pairsOf (es : List (K × List O)) : List (K × O) := es.flatMap fun e => e.2.map (Prod.mk e.1)

@[simp]
theorem pairsOf_nil : pairsOf ([] : List (K × List O)) = [] := rfl

@[simp]
theorem pairsOf_cons_nil (k : K) (es : List (K × List O)) : pairsOf ((k, []) :: es) = pairsOf es :=
  rfl

@[simp]
theorem pairsOf_cons_cons (k : K) (o : O) (os : List O) (es : List (K × List O)) :
    pairsOf ((k, o :: os) :: es) = (k, o) :: pairsOf ((k, os) :: es) := rfl

variable {es : List (K × List O)} {b : Bound K} {isc : IndexScanCondition} {s : PPIndexScan K O}
  {i : BTreeIterator K O}

theorem mem_pairsOf {p : K × O} : p ∈ pairsOf es ↔ ∃ e ∈ es, e.1 = p.1 ∧ p.2 ∈ e.2 := by
  simp [pairsOf, Prod.ext_iff, and_comm]

theorem pairsOf_filter (q : K → Bool) (es : List (K × List O)) :
    pairsOf (es.filter fun e => q e.1) = (pairsOf es).filter fun p => q p.1 := by
  induction es with
  | nil => rfl
  | cons e es ih =>
    have hobjects : (e.2.map (Prod.mk e.1)).filter (fun p => q p.1)
        = if q e.1 then e.2.map (Prod.mk e.1) else [] := by
      cases hq : q e.1
      · simp [filter_map, hq]
      · exact filter_eq_self.2 (by simp [hq])
    have hcons (es : List (K × List O)) :
        pairsOf (e :: es) = e.2.map (Prod.mk e.1) ++ pairsOf es := rfl
    rw [hcons, filter_append, hobjects, ← ih]
    cases hq : q e.1 <;> simp [hq, hcons]

theorem pairsOf_pairwise {r : K → K → Prop} (hrefl : ∀ k, r k k)
    (h : es.Pairwise fun e e' => r e.1 e'.1) : (pairsOf es).Pairwise fun p q => r p.1 q.1 := by
  rw [pairsOf, pairwise_flatMap]
  constructor
  · intro e _
    rw [pairwise_map]
    exact pairwise_of_forall fun _ _ => hrefl e.1
  · apply h.imp
    intro e e' hr p hp p' hp'
    obtain ⟨o, -, rfl⟩ := mem_map.1 hp
    obtain ⟨o', -, rfl⟩ := mem_map.1 hp'
    exact hr

def Filled (es : List (K × List O)) : Prop := ∀ e ∈ es, e.2 ≠ []

namespace BTreeIterator

def before (es : List (K × List O)) : BTreeIterator K O := ofCursor ⟨es⟩

theorem getKey_before (es : List (K × List O)) : (before es).getKey = es.head?.map Prod.fst := by
  cases es <;> rfl

theorem nextKey_before {e : K × List O} (h : e.2 ≠ []) :
    (before (e :: es)).nextKey = before es := by
  obtain ⟨k, os⟩ := e
  cases os with
  | nil => exact absurd rfl h
  | cons o os => cases es <;> rfl

theorem before_spec (hfill : Filled es) :
    (pairsOf es = [] ∧ (before es).getKey = none ∧ (before es).getValue = none)
      ∨ ∃ k o es', Filled es' ∧ pairsOf es = (k, o) :: pairsOf es' ∧ (before es).getKey = some k
        ∧ (before es).getValue = some o ∧ (before es).nextPair = before es' := by
  match es with
  | [] => exact .inl ⟨rfl, rfl, rfl⟩
  | (k, []) :: es => exact absurd rfl (hfill (k, []) mem_cons_self)
  | (k, [o]) :: es =>
    refine .inr ⟨k, o, es, (forall_mem_cons.1 hfill).2, rfl, rfl, rfl, ?_⟩
    cases es <;> rfl
  | (k, o :: o' :: os) :: es =>
    refine .inr ⟨k, o, (k, o' :: os) :: es, ?_, rfl, rfl, rfl, rfl⟩
    exact forall_mem_cons.2
      ⟨cons_ne_nil _ _, (forall_mem_cons.1 hfill).2⟩

end BTreeIterator

/-! ## Segments of sorted lists -/

section

variable {α : Type*} {p : α → Bool} {l : List α}

theorem dropWhile_eq_filter (h : l.Pairwise fun a b => p b → p a) :
    l.dropWhile p = l.filter fun a => !p a := by
  induction l with
  | nil => rfl
  | cons a l ih =>
    rw [pairwise_cons] at h
    by_cases ha : p a
    · rw [dropWhile_cons_of_pos ha, filter_cons_of_neg (by simp [ha]), ih h.2]
    · rw [dropWhile_cons_of_neg ha]
      symm
      rw [filter_eq_self]
      intro b hb
      rcases mem_cons.1 hb with rfl | hb
      · simp [ha]
      · have hb' : ¬p b := fun hpb => ha (h.1 b hb hpb)
        simp [hb']

end

/-! ## Bounds -/

section

variable [LinearOrder K]

open PPIndexScan

structure FromBound (b : Bound K) (es : List (K × List O)) : Prop where
  sorted : es.Pairwise fun e e' => e.1 < e'.1
  ge : ∀ e ∈ es, opGe e.1 b = true
  filled : Filled es

theorem FromBound.gt_of_tail {e : K × List O} (h : FromBound b (e :: es)) :
    ∀ e' ∈ es, opGt e'.1 b = true := by
  intro e' he'
  have hlt := (pairwise_cons.1 h.sorted).1 e' he'
  have hge := h.ge e mem_cons_self
  cases b with
  | nan => simp [opGe] at hge
  | value k =>
    simp only [opGe, opGt, decide_eq_true_eq] at hge ⊢
    exact lt_of_le_of_lt hge hlt

theorem FromBound.filter_gt (h : FromBound b es) :
    (es.filter fun e => opGt e.1 b)
      = if keyIs opEq (es.head?.map Prod.fst) b then es.tail else es := by
  cases es with
  | nil => rfl
  | cons e es =>
    have htail : (es.filter fun e => opGt e.1 b) = es := filter_eq_self.2 h.gt_of_tail
    have hge := h.ge e mem_cons_self
    cases b with
    | nan => simp [opGe] at hge
    | value k =>
      simp only [opGe, decide_eq_true_eq] at hge
      by_cases hk : e.1 = k
      · rw [filter_cons_of_neg (by simp [opGt, hk]), htail]
        simp [keyIs, opEq, hk]
      · have hgt : k < e.1 := lt_of_le_of_ne hge (Ne.symm hk)
        simp only [head?_cons, Option.map_some, keyIs, opEq, hk, decide_false,
          Bool.false_eq_true, if_false]
        rw [filter_cons_of_pos (by simp [opGt, hgt]), htail]

theorem FromBound.filter_eq (h : FromBound b es) :
    (es.filter fun e => opEq e.1 b)
      = if keyIs opEq (es.head?.map Prod.fst) b then es.take 1 else [] := by
  cases es with
  | nil => rfl
  | cons e es =>
    have htail : (es.filter fun e => opEq e.1 b) = [] := by
      rw [filter_eq_nil_iff]
      intro e' he'
      have hgt := h.gt_of_tail e' he'
      cases b with
      | nan => simp [opEq]
      | value k =>
        simp only [opGt, decide_eq_true_eq] at hgt
        simp [opEq, hgt.ne']
    cases hkey : opEq e.1 b <;> simp [keyIs, hkey, htail]

end

variable [LinearOrder K] [LinearOrder O] (m : Multimap K O)

theorem entries_from (b : Bound K) :
    (btFindGe m b).rest = m.entries.filter fun e => opGe e.1 b := by
  have hsort : m.entries.Pairwise fun e e' =>
      decide (btCmpKey e'.1 b < 0) → decide (btCmpKey e.1 b < 0) := by
    apply m.keys_sorted.imp
    intro e e' hlt h
    cases b with
    | nan => simp [btCmpKey]
    | value k =>
      simp only [btCmpKey] at h ⊢
      grind
  unfold btFindGe
  rw [dropWhile_eq_filter hsort]
  apply filter_congr
  intro e _
  cases b with
  | nan => simp [btCmpKey, opGe]
  | value k =>
    simp only [btCmpKey, opGe]
    grind

def selected (isc : IndexScanCondition) (input : Input K O) : List (K × O) :=
  pairsOf (input.index.entries.filter fun e => satisfies isc e.1 input.child input.child2)

theorem filled_filter (p : K × List O → Bool) : Filled (m.entries.filter p) :=
  fun e he => m.objects_ne_nil e (mem_filter.1 he).1

theorem find_eq_before (b : Bound K) :
    m.find b = .before (m.entries.filter fun e => opGe e.1 b) := by
  rw [← entries_from]
  rfl

theorem fromBound_find (b : Bound K) : FromBound b (m.entries.filter fun e => opGe e.1 b) where
  sorted := m.keys_sorted.filter _
  ge := fun _ he => (mem_filter.1 he).2
  filled := filled_filter m _

namespace PPIndexScan

/-! ## The routines behind the first call -/

structure Configured (isc : IndexScanCondition) (s : PPIndexScan K O) : Prop where
  isc_eq : s.isc = isc
  left : s.leftBoundExclusive = (doOpen isc : PPIndexScan K O).leftBoundExclusive
  right : s.rightBoundExclusive = (doOpen isc : PPIndexScan K O).rightBoundExclusive
  nextFun : s.nextFun = (doOpen isc : PPIndexScan K O).nextFun

structure Ready (isc : IndexScanCondition) (s : PPIndexScan K O) : Prop
    extends Configured isc s where
  firstTime : s.firstTime = true

omit [LinearOrder K] [LinearOrder O] in
theorem Configured.update (h : Configured isc s) {left right : Option (Bound K)}
    {cursor : Option (BTreeIterator K O)} {firstTime : Bool} :
    Configured isc { s with leftBound := left, rightBound := right, cursor, firstTime } :=
  ⟨h.isc_eq, h.left, h.right, h.nextFun⟩

/-- In the middle of a scan for one key: the objects of the key that remain. -/
def ShowsKey (i : BTreeIterator K O) : List O → Prop
  | [] => i.getValue = none
  | o :: os => ∃ k rest, i = .before ((k, o :: os) :: rest)

variable (input : Input K O)

def Yields (isc : IndexScanCondition) (s : PPIndexScan K O) (os : List O) : Prop :=
  ∃ s', Produces (doNext input) s os s' ∧ Ready isc s'

theorem produces_key {os : List O} (hconf : Configured .eq s)
    (hrun : s.firstTime = false) (hcur : s.cursor = some i) (hshows : ShowsKey i os) :
    Yields input .eq s os := by
  apply produces_of_step (fun s os => Configured .eq s ∧ s.firstTime = false
    ∧ ∃ i, s.cursor = some i ∧ ShowsKey i os) _ _ _ ⟨hconf, hrun, i, hcur, hshows⟩
  · rintro s ⟨hconf, hrun, i, hcur, hshows⟩
    refine ⟨{ s with firstTime := true, cursor := none }, ?_, hconf.update, rfl⟩
    have hval : i.getValue = none := hshows
    simp [doNext, hconf.nextFun, doOpen, nextEq, hrun, hcur, advanceEq, hval]
  · rintro s o os ⟨hconf, hrun, i, hcur, k, rest, rfl⟩
    refine ⟨{ s with cursor := some (before ((k, o :: os) :: rest)).nextValue }, ?_,
      hconf.update, hrun, _, rfl, ?_⟩
    · simp [doNext, hconf.nextFun, doOpen, nextEq, hrun, hcur, advanceEq, hconf.isc_eq]
      rfl
    · cases os with
      | nil => rfl
      | cons o' os => exact ⟨k, rest, rfl⟩

theorem produces_all (hisc : isc = .gt ∨ isc = .ge) (hconf : Configured isc s)
    (hrun : s.firstTime = false) (hfill : Filled es)
    (hcur : s.cursor = some (.before es)) :
    Yields input isc s ((pairsOf es).map Prod.snd) := by
  have hnextFun : (doOpen isc : PPIndexScan K O).nextFun = .nextEq := by
    rcases hisc with rfl | rfl <;> rfl
  have hne : isc ≠ .eq := by rcases hisc with rfl | rfl <;> decide
  apply produces_of_step (fun s os => Configured isc s ∧ s.firstTime = false
    ∧ ∃ es, Filled es ∧ s.cursor = some (.before es) ∧ os = (pairsOf es).map Prod.snd) _ _ _
    ⟨hconf, hrun, es, hfill, hcur, rfl⟩
  · rintro s ⟨hconf, hrun, es, hfill, hcur, hpairs⟩
    refine ⟨{ s with firstTime := true, cursor := none }, ?_, hconf.update, rfl⟩
    rcases before_spec hfill with ⟨-, -, hval⟩ | ⟨k, o, es', -, heq, -⟩
    · simp [doNext, hconf.nextFun, hnextFun, nextEq, hrun, hcur, advanceEq, hval]
    · simp [heq] at hpairs
  · rintro s o os ⟨hconf, hrun, es, hfill, hcur, hpairs⟩
    rcases before_spec hfill with ⟨heq, -⟩ | ⟨k, o', es', hf', heq, -, hval, hn⟩
    · simp [heq] at hpairs
    · simp only [heq, map_cons, cons.injEq] at hpairs
      obtain ⟨rfl, rfl⟩ := hpairs
      refine ⟨{ s with cursor := some (.before es') }, ?_,
        hconf.update, hrun, es', hf', rfl, rfl⟩
      simp [doNext, hconf.nextFun, hnextFun, nextEq, hrun, hcur, advanceEq, hval,
        hconf.isc_eq, hne, hn]

def within (exclusive : Bool) (b : Bound K) (k : K) : Bool :=
  if exclusive then opLt k b else opLe k b

omit [LinearOrder O] in
theorem resumeBounded_eq (hbound : s.rightBound = some b) (hcur : s.cursor = some i) :
    resumeBounded s = advanceBounded s b i := by
  simp [resumeBounded, hbound, hcur]

omit [LinearOrder O] in
theorem advanceBounded_eos (h : ∀ k, i.getKey = some k → within s.rightBoundExclusive b k = false) :
    advanceBounded s b i = (none, { s with firstTime := true, cursor := none }) := by
  cases hkey : i.getKey with
  | none => simp [advanceBounded, hkey]
  | some k =>
    have hout := h k hkey
    unfold within at hout
    cases hright : s.rightBoundExclusive <;> simp_all [advanceBounded, keyIs]

omit [LinearOrder O] in
theorem advanceBounded_item {k : K} (hkey : i.getKey = some k)
    (hin : within s.rightBoundExclusive b k = true) :
    advanceBounded s b i = (i.getValue, { s with cursor := some i.nextPair }) := by
  unfold within at hin
  cases hright : s.rightBoundExclusive <;> simp_all [advanceBounded, keyIs]

theorem produces_bounded
    (hisc : (doOpen isc : PPIndexScan K O).nextFun ≠ .nextEq) (hconf : Configured isc s)
    (hrun : s.firstTime = false) (hbound : s.rightBound = some b) (hfill : Filled es)
    (hcur : s.cursor = some (.before es)) :
    Yields input isc s
      (((pairsOf es).takeWhile fun p => within s.rightBoundExclusive b p.1).map Prod.snd) := by
  have hnext {s : PPIndexScan K O} (hconf : Configured isc s) (hrun : s.firstTime = false) :
      doNext input s = resumeBounded s := by
    unfold doNext
    rw [hconf.nextFun]
    cases hfun : (doOpen isc : PPIndexScan K O).nextFun with
    | nextEq => exact absurd hfun hisc
    | nextLtLe => simp [nextLtLe, hrun]
    | nextBetween => simp [nextBetween, hrun]
  obtain ⟨exclusive, hexcl⟩ : ∃ x, s.rightBoundExclusive = x := ⟨_, rfl⟩
  rw [hexcl]
  apply produces_of_step (fun s os => Configured isc s ∧ s.firstTime = false
    ∧ s.rightBound = some b ∧ s.rightBoundExclusive = exclusive
    ∧ ∃ es, Filled es ∧ s.cursor = some (.before es)
      ∧ os = ((pairsOf es).takeWhile fun p => within exclusive b p.1).map Prod.snd) _ _ _
    ⟨hconf, hrun, hbound, hexcl, es, hfill, hcur, rfl⟩
  · rintro s ⟨hconf, hrun, hbound, hexcl, es, hfill, hcur, hpairs⟩
    refine ⟨{ s with firstTime := true, cursor := none }, ?_, hconf.update, rfl⟩
    rw [hnext hconf hrun, resumeBounded_eq hbound hcur]
    apply advanceBounded_eos
    intro k hkey
    rcases before_spec hfill with ⟨-, hnone, -⟩ | ⟨k', o, es', -, heq, hkey', -⟩
    · rw [hnone] at hkey
      cases hkey
    · rw [hkey', Option.some.injEq] at hkey
      subst hkey
      rw [hexcl]
      cases hin : within exclusive b k' with
      | false => rfl
      | true => simp [heq, hin] at hpairs
  · rintro s o os ⟨hconf, hrun, hbound, hexcl, es, hfill, hcur, hpairs⟩
    rcases before_spec hfill with ⟨heq, -⟩ |
        ⟨k, o', es', hf', heq, hkey, hval, hn⟩
    · simp [heq] at hpairs
    · cases hin : within exclusive b k with
      | false => simp [heq, hin] at hpairs
      | true =>
        simp only [heq, takeWhile_cons, hin, if_true, map_cons, cons.injEq]
          at hpairs
        obtain ⟨rfl, rfl⟩ := hpairs
        refine ⟨{ s with cursor := some (.before es') }, ?_,
          hconf.update, hrun, hbound, hexcl,
          es', hf', rfl, rfl⟩
        rw [hnext hconf hrun, resumeBounded_eq hbound hcur,
          advanceBounded_item hkey (hexcl ▸ hin), hval, hn]

/-! ## The first call -/

theorem filter_filter_of_imp {α : Type*} {p q : α → Bool} (l : List α)
    (h : ∀ a, p a = true → q a = true) : (l.filter q).filter p = l.filter p := by
  rw [filter_filter]
  apply filter_congr
  intro a _
  cases hp : p a
  · rfl
  · simp [h a hp]

omit [LinearOrder O] in
theorem opEq_imp_opGe (b : Bound K) (e : K × List O) (h : opEq e.1 b = true) :
    opGe e.1 b = true := by
  cases b <;> simp_all [opEq, opGe]

omit [LinearOrder O] in
theorem opGt_imp_opGe (b : Bound K) (e : K × List O) (h : opGt e.1 b = true) :
    opGe e.1 b = true := by
  cases b with
  | nan => simp [opGt] at h
  | value k =>
    simp only [opGt, opGe, decide_eq_true_eq] at h ⊢
    exact h.le

theorem evaluation_eq (h : Ready .eq s) :
    Yields input .eq s ((selected .eq input).map Prod.snd) := by
  have hfind := find_eq_before input.index input.child
  have hfrom := fromBound_find input.index input.child
  have hsel : selected .eq input = pairsOf
      ((input.index.entries.filter fun e => opGe e.1 input.child).filter
        fun e => opEq e.1 input.child) := by
    rw [filter_filter_of_imp _ (opEq_imp_opGe input.child)]
    rfl
  obtain ⟨es, hes⟩ : ∃ es, (input.index.entries.filter fun e => opGe e.1 input.child) = es :=
    ⟨_, rfl⟩
  rw [hes] at hfind hfrom hsel
  rw [hsel, hfrom.filter_eq]
  have hfun : s.nextFun = .nextEq := h.nextFun
  have hfst := h.firstTime
  have hisc := h.isc_eq
  cases hkey : keyIs opEq (es.head?.map Prod.fst) input.child with
  | false =>
    refine ⟨{ s with leftBound := some input.child, cursor := some (.before es) }, .eos ?_,
      ⟨h.toConfigured.update, h.firstTime⟩⟩
    simp [doNext, hfun, nextEq, hfst, hisc, hfind, getKey_before, hkey]
  | true =>
    match es with
    | [] => simp [keyIs] at hkey
    | (k, []) :: rest => exact absurd rfl (hfrom.filled (k, []) mem_cons_self)
    | (k, o :: os) :: rest =>
      have hobjects : (pairsOf (((k, o :: os) :: rest).take 1)).map Prod.snd = o :: os := by
        simp [pairsOf]
      rw [if_pos rfl, hobjects]
      obtain ⟨s', hprod, hready⟩ := produces_key input
        (s := { s with leftBound := some input.child, firstTime := false,
                       cursor := some (.before ((k, o :: os) :: rest)) })
        h.toConfigured.update rfl rfl
        (show ShowsKey _ (o :: os) from ⟨k, rest, rfl⟩)
      refine ⟨s', hprod.congr ?_, hready⟩
      simp [doNext, hfun, nextEq, hfst, hisc, hfind, getKey_before] at hkey ⊢
      simp [hkey]

def beyond (exclusive : Bool) (b : Bound K) (k : K) : Bool :=
  if exclusive then opGt k b else opGe k b

theorem skip_eq_before (m : Multimap K O) (b : Bound K) (exclusive : Bool) :
    (if exclusive = true ∧ keyIs opEq (m.find b).getKey b = true then (m.find b).nextKey
      else m.find b) = .before (m.entries.filter fun e => beyond exclusive b e.1) := by
  have hfrom := fromBound_find m b
  have hgt := filter_filter_of_imp m.entries (opGt_imp_opGe b)
  rw [find_eq_before, getKey_before]
  cases exclusive with
  | false => simp [beyond]
  | true =>
    simp only [true_and, beyond, if_true]
    rw [← hgt, hfrom.filter_gt]
    split_ifs with hkey
    · cases hes : m.entries.filter fun e => opGe e.1 b with
      | nil => simp [keyIs, hes] at hkey
      | cons e es =>
        rw [hes] at hfrom
        exact nextKey_before (hfrom.filled e mem_cons_self)
    · rfl

theorem filter_beyond_eq_nil {m : Multimap K O} (exclusive : Bool) (h : (m.find b).getKey = none) :
    (m.entries.filter fun e => beyond exclusive b e.1) = [] := by
  rw [find_eq_before, getKey_before, Option.map_eq_none_iff,
    head?_eq_none_iff, filter_eq_nil_iff] at h
  rw [filter_eq_nil_iff]
  intro e he hbeyond
  apply h e he
  unfold beyond at hbeyond
  split_ifs at hbeyond
  · exact opGt_imp_opGe b e hbeyond
  · exact hbeyond

theorem evaluation_from (hisc : isc = .gt ∨ isc = .ge) (h : Ready isc s) :
    Yields input isc s ((selected isc input).map Prod.snd) := by
  have hsel : selected isc input = pairsOf (input.index.entries.filter fun e =>
      beyond s.leftBoundExclusive input.child e.1) := by
    rw [h.left]
    rcases hisc with rfl | rfl <;> rfl
  have hskip := skip_eq_before input.index input.child s.leftBoundExclusive
  have hfun : s.nextFun = .nextEq := by
    rw [h.nextFun]
    rcases hisc with rfl | rfl <;> rfl
  have hne : s.isc ≠ .eq := by
    rw [h.isc_eq]
    rcases hisc with rfl | rfl <;> decide
  have hfst := h.firstTime
  cases hkey : (input.index.find input.child).getKey with
  | none =>
    rw [hsel, filter_beyond_eq_nil _ hkey]
    refine ⟨{ s with leftBound := some input.child, cursor := some (input.index.find input.child) },
      .eos ?_, ⟨h.toConfigured.update, hfst⟩⟩
    simp [doNext, hfun, nextEq, hfst, hkey, keyIs]
  | some k =>
    obtain ⟨s', hprod, hready⟩ := produces_all input hisc
      (s := { s with leftBound := some input.child, firstTime := false,
                     cursor := some (.before (input.index.entries.filter fun e =>
                      beyond s.leftBoundExclusive input.child e.1)) })
      h.toConfigured.update rfl (filled_filter _ _) rfl
    rw [hsel]
    refine ⟨s', hprod.congr ?_, hready⟩
    rw [hkey] at hskip
    simp [doNext, hfun, nextEq, hfst, hne, hskip, hkey]

omit [LinearOrder O] in
theorem takeWhile_within (hsort : es.Pairwise fun e e' => e.1 < e'.1) (exclusive : Bool)
    (b : Bound K) :
    ((pairsOf es).takeWhile fun p => within exclusive b p.1)
      = pairsOf (es.filter fun e => within exclusive b e.1) := by
  rw [pairsOf_filter]
  apply Library.Lists.takeWhile_eq_filter
  have hle := pairsOf_pairwise le_refl (hsort.imp fun h => h.le)
  apply hle.imp
  intro p q hpq hq
  unfold within at hq ⊢
  cases b with
  | nan => cases exclusive <;> simp [opLt, opLe] at hq
  | value k =>
    cases exclusive with
    | true =>
      simp only [opLt, if_true, decide_eq_true_eq] at hq ⊢
      exact lt_of_le_of_lt hpq hq
    | false =>
      simp only [opLe, Bool.false_eq_true, if_false, decide_eq_true_eq] at hq ⊢
      exact le_trans hpq hq

theorem evaluation_to (hisc : isc = .lt ∨ isc = .le) (h : Ready isc s) :
    Yields input isc s ((selected isc input).map Prod.snd) := by
  have hsel : selected isc input = (pairsOf input.index.entries).takeWhile fun p =>
      within s.rightBoundExclusive input.child p.1 := by
    rw [takeWhile_within input.index.keys_sorted, h.right]
    rcases hisc with rfl | rfl <;> rfl
  have hfun : (doOpen isc : PPIndexScan K O).nextFun = .nextLtLe := by
    rcases hisc with rfl | rfl <;> rfl
  have hne : (doOpen isc : PPIndexScan K O).nextFun ≠ .nextEq := by simp [hfun]
  obtain ⟨s', hprod, hready⟩ := produces_bounded input
    (s := { s with rightBound := some input.child, firstTime := false,
                   cursor := some (.before input.index.entries) })
    hne h.toConfigured.update rfl rfl input.index.objects_ne_nil rfl
  rw [hsel]
  refine ⟨s', hprod.congr ?_, hready⟩
  simp only [doNext, h.nextFun, hfun, nextLtLe, h.firstTime, if_true]
  rfl

theorem evaluation_between
    (hfun : (doOpen isc : PPIndexScan K O).nextFun = .nextBetween) (h : Ready isc s) :
    Yields input isc s ((selected isc input).map Prod.snd) := by
  obtain ⟨es, hes⟩ : ∃ es, (input.index.entries.filter fun e =>
      beyond s.leftBoundExclusive input.child e.1) = es := ⟨_, rfl⟩
  have hsort : es.Pairwise fun e e' => e.1 < e'.1 := hes ▸ input.index.keys_sorted.filter _
  have hsel : selected isc input = (pairsOf es).takeWhile fun p =>
      within s.rightBoundExclusive input.child2 p.1 := by
    rw [takeWhile_within hsort, ← hes, filter_filter, h.left, h.right]
    unfold selected
    congr 1
    apply filter_congr
    intro e _
    rw [Bool.and_comm]
    cases isc <;> first | rfl | simp [doOpen] at hfun
  have hskip := skip_eq_before input.index input.child s.leftBoundExclusive
  rw [hes] at hskip
  have hnext := h.nextFun.trans hfun
  have hfst := h.firstTime
  cases hkey : (input.index.find input.child).getKey with
  | none =>
    have hnil : es = [] := hes ▸ filter_beyond_eq_nil _ hkey
    rw [hsel, hnil]
    refine ⟨{ s with leftBound := some input.child, rightBound := some input.child2,
                     cursor := some (input.index.find input.child) },
      .eos ?_, ⟨h.toConfigured.update, hfst⟩⟩
    simp [doNext, hnext, nextBetween, hfst, hkey, keyIs]
  | some k =>
    have hne : (doOpen isc : PPIndexScan K O).nextFun ≠ .nextEq := by simp [hfun]
    obtain ⟨s', hprod, hready⟩ := produces_bounded input
      (s := { s with leftBound := some input.child, rightBound := some input.child2,
                     firstTime := false, cursor := some (.before es) })
      hne h.toConfigured.update rfl rfl
      (hes ▸ filled_filter _ _) rfl
    rw [hsel]
    refine ⟨s', hprod.congr ?_, hready⟩
    rw [hkey] at hskip
    simp only [doNext, hnext, nextBetween, hfst, if_true, hskip, hkey, Option.isNone_some,
      Bool.false_eq_true, if_false]
    rfl

theorem evaluation (isc : IndexScanCondition) (input : Input K O) (h : Ready isc s) :
    Yields input isc s ((selected isc input).map Prod.snd) := by
  cases isc with
  | eq => exact evaluation_eq input h
  | lt => exact evaluation_to input (.inl rfl) h
  | le => exact evaluation_to input (.inr rfl) h
  | gt => exact evaluation_from input (.inl rfl) h
  | ge => exact evaluation_from input (.inr rfl) h
  | gtLt | gtLe | geLt | geLe => exact evaluation_between input rfl h

/-! ## Evaluations one after the other -/

/-- The operator is evaluated to the end of its sequence again and again, each time with the
index and the bounds that it finds then. -/
inductive Evaluates : PPIndexScan K O → List (Input K O) → List (List O) → Prop
  | nil (s : PPIndexScan K O) : Evaluates s [] []
  | cons {s s' : PPIndexScan K O} {input : Input K O} {out : List O} {inputs : List (Input K O)}
      {outs : List (List O)} (first : Produces (doNext input) s out s')
      (rest : Evaluates s' inputs outs) : Evaluates s (input :: inputs) (out :: outs)

end PPIndexScan

def Multimap.content (m : Multimap K O) : Set (K × O) :=
  {p | ∃ e ∈ m.entries, e.1 = p.1 ∧ p.2 ∈ e.2}

/-- The pairs whose keys satisfy the condition, each of them once and in the order of the
keys. -/
structure Exact (isc : IndexScanCondition) (input : Input K O) (out : List (K × O)) : Prop where
  sorted : out.Pairwise fun p q => p.1 < q.1 ∨ p.1 = q.1 ∧ p.2 < q.2
  mem_iff : ∀ p, p ∈ out ↔
    p ∈ input.index.content ∧ satisfies isc p.1 input.child input.child2 = true

theorem exact_selected (isc : IndexScanCondition) (input : Input K O) :
    Exact isc input (selected isc input) where
  sorted := by
    rw [selected, pairsOf, pairwise_flatMap]
    constructor
    · intro e he
      rw [pairwise_map]
      apply (input.index.objects_sorted e (mem_filter.1 he).1).imp
      exact fun h => .inr ⟨rfl, h⟩
    · apply (input.index.keys_sorted.filter _).imp
      intro e e' hlt p hp p' hp'
      obtain ⟨o, -, rfl⟩ := mem_map.1 hp
      obtain ⟨o', -, rfl⟩ := mem_map.1 hp'
      exact .inl hlt
  mem_iff := by
    intro p
    rw [selected, pairsOf_filter (fun k => satisfies isc k input.child input.child2),
      mem_filter, mem_pairsOf]
    rfl

namespace PPIndexScan

/-- From the moment it is opened, every evaluation returns exactly the nodes whose keys satisfy
the condition. -/
theorem indexScan_exact (isc : IndexScanCondition) (inputs : List (Input K O)) :
    ∃ outs : List (List (K × O)), List.Forall₂ (Exact isc) inputs outs
      ∧ Evaluates (doOpen isc) inputs (outs.map (List.map Prod.snd)) := by
  have hrun : ∀ {s : PPIndexScan K O}, Ready isc s →
      Evaluates s inputs ((inputs.map (selected isc)).map (map Prod.snd)) := by
    induction inputs with
    | nil => exact fun _ => .nil _
    | cons input inputs ih =>
      intro s h
      obtain ⟨s', hfst, hready⟩ := evaluation isc input h
      exact .cons hfst (ih hready)
  refine ⟨inputs.map (selected isc), ?_, hrun ⟨⟨rfl, rfl, rfl, rfl⟩, rfl⟩⟩
  rw [forall₂_map_right_iff]
  exact forall₂_same.2 fun input _ => exact_selected isc input

def sampleIndex : Multimap Nat Nat where
  entries := [(1, [10]), (3, [30, 31]), (8, [80])]
  keys_sorted := by decide
  objects_sorted := by decide
  objects_ne_nil := by decide

/-- The second evaluation has a bound that is no number. -/
theorem indexScan_exact_sample :
    ∃ out, Exact .geLt ⟨sampleIndex, .value 3, .value 8⟩ out ∧ (3, 31) ∈ out ∧ (8, 80) ∉ out ∧
      Evaluates (doOpen .geLt)
        [⟨sampleIndex, .value 3, .value 8⟩, ⟨sampleIndex, .value 3, .nan⟩]
        [out.map Prod.snd, []] := by
  obtain ⟨outs, hexact, hrun⟩ := indexScan_exact .geLt
    [⟨sampleIndex, .value 3, .value 8⟩, ⟨sampleIndex, .value 3, .nan⟩]
  obtain _ | ⟨hout, _ | ⟨hnan, _ | _⟩⟩ := hexact
  obtain rfl := eq_nil_iff_forall_not_mem.2 fun p hp => absurd ((hnan.mem_iff p).1 hp).2
    (by simp [satisfies, opLt])
  refine ⟨_, hout, (hout.mem_iff _).2 ⟨⟨(3, [30, 31]), ?_⟩, rfl⟩, fun h => ?_, hrun⟩
  · simp [sampleIndex]
  · exact absurd ((hout.mem_iff _).1 h).2 (by decide)

/-- The scans below a key and from that key on return the whole index between them. -/
theorem indexScan_splits (index : Multimap K O) (k : K) :
    ∃ before behind s s', before ++ behind = (pairsOf index.entries).map Prod.snd ∧
      Produces (doNext ⟨index, .value k, .nan⟩) (doOpen .lt) before s ∧
      Produces (doNext ⟨index, .value k, .nan⟩) (doOpen .ge) behind s' := by
  obtain ⟨s, hs, -⟩ := evaluation .lt ⟨index, .value k, .nan⟩ ⟨⟨rfl, rfl, rfl, rfl⟩, rfl⟩
  obtain ⟨s', hs', -⟩ := evaluation .ge ⟨index, .value k, .nan⟩ ⟨⟨rfl, rfl, rfl, rfl⟩, rfl⟩
  refine ⟨_, _, s, s', ?_, hs, hs'⟩
  have hlt : index.entries.Pairwise fun e e' => opLt e'.1 (.value k) → opLt e.1 (.value k) :=
    index.keys_sorted.imp fun hlt h => decide_eq_true (hlt.trans (of_decide_eq_true h))
  have hge (e : K × List O) : opGe e.1 (.value k) = !opLt e.1 (.value k) := by
    simp [opLt, opGe, ← decide_not]
  simp only [selected, satisfies, hge, ← Library.Lists.takeWhile_eq_filter hlt,
    ← dropWhile_eq_filter hlt]
  rw [← map_append, pairsOf, pairsOf, ← flatMap_append, takeWhile_append_dropWhile, pairsOf]

theorem indexScan_splits_sample :
    ∃ before behind s s', before ++ behind = [10, 30, 31, 80] ∧
      Produces (doNext ⟨sampleIndex, .value 3, .nan⟩) (doOpen .lt) before s ∧
      Produces (doNext ⟨sampleIndex, .value 3, .nan⟩) (doOpen .ge) behind s' :=
  indexScan_splits sampleIndex 3

end PPIndexScan

end Sedna.Index
