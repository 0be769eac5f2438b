import Sedna.Library.LinkedList
import Sedna.Log.Records

/-!
# The list of transactions of the log analysis

`logican.cpp` keeps one cell for each transaction it meets in a doubly linked list of allocated
cells; `Holds` says which list of cells the memory stands for.
-/

namespace Sedna.Log

open Library.LinkedList List

inductive TrnAnalysis
  | trnNotFinished
  | trnRollbackFinished
  | trnCommitFinished
  deriving DecidableEq

structure RedoCell where
  trid : Nat
  firstLsn : Nat
  endLsn : Option Nat
  finishStatus : TrnAnalysis
  deriving DecidableEq

structure TrnCellAnalysisRedo extends RedoCell where
  next : Option Nat
  prev : Option Nat
  deriving DecidableEq

structure RedoMemory where
  cells : Nat → Option TrnCellAnalysisRedo
  top : Nat
  rcvList : Option Nat

namespace RedoMemory

def initial : RedoMemory := { cells := fun _ => none, top := 0, rcvList := none }

def modify (m : RedoMemory) (p : Nat) (f : TrnCellAnalysisRedo → TrnCellAnalysisRedo) :
    RedoMemory :=
  { m with cells := fun q => if q = p then (m.cells p).map f else m.cells q }

def lastCell (m : RedoMemory) : Nat → Nat → Nat
  | 0, it => it
  | fuel + 1, it =>
    match (m.cells it).bind TrnCellAnalysisRedo.next with
    | some next => lastCell m fuel next
    | none => it

def backToTrid (m : RedoMemory) (trid : Nat) : Nat → Option Nat → Option Nat
  | _, none => none
  | 0, some _ => none
  | fuel + 1, some it =>
    match m.cells it with
    | some cell => if cell.trid = trid then some it else backToTrid m trid fuel cell.prev
    | none => none

/-- `find_last_redo_trn_cell`.  There are at most `top` cells, so the walks end. -/
def findLastRedoTrnCell (m : RedoMemory) (redoList : Option Nat) (trid : Nat) : Option Nat :=
  match redoList with
  | none => none
  | some it => m.backToTrid trid m.top (some (m.lastCell m.top it))

def putRedoTrnCell (m : RedoMemory) (rcvRedoList : Option Nat) (trid firstLsn : Nat) :
    RedoMemory × Nat :=
  let newCell : TrnCellAnalysisRedo :=
    { trid, firstLsn, endLsn := none, finishStatus := .trnNotFinished, next := none, prev := none }
  let m' := { m with cells := fun q => if q = m.top then some newCell else m.cells q,
                     top := m.top + 1 }
  match rcvRedoList with
  | none => (m', m.top)
  | some it =>
    let last := m.lastCell m.top it
    ((m'.modify m.top fun c => { c with prev := some last }).modify last
      fun c => { c with next := some m.top }, m.top)

def findTrnCell (m : RedoMemory) (trid lsn : Nat) : Nat → Option Nat → Option Nat
  | _, none => none
  | 0, some _ => none
  | fuel + 1, some it =>
    match m.cells it with
    | some cell =>
      if cell.trid = trid ∧ cell.firstLsn ≤ lsn ∧ ∀ e ∈ cell.endLsn, lsn ≤ e then some it
      else findTrnCell m trid lsn fuel cell.next
    | none => none

def removeCell (m : RedoMemory) (pit : Nat) (cell : TrnCellAnalysisRedo) : RedoMemory :=
  let m1 := match cell.prev with
    | some p => m.modify p fun c => { c with next := cell.next }
    | none => m
  let m2 := match cell.next with
    | some n => m1.modify n fun c => { c with prev := cell.prev }
    | none => m1
  { m2 with
    rcvList := if m2.rcvList = some pit then cell.next else m2.rcvList
    cells := fun q => if q = pit then none else m2.cells q }

/-- The loop of `llGetRedoList` that takes the cells out that did not commit. -/
def removeUnneeded : Nat → Option Nat → RedoMemory → RedoMemory
  | _, none, m => m
  | 0, some _, m => m
  | fuel + 1, some pit, m =>
    match m.cells pit with
    | some cell =>
      removeUnneeded fuel cell.next
        (if cell.finishStatus ≠ .trnCommitFinished then m.removeCell pit cell else m)
    | none => m

end RedoMemory

open RedoMemory

/-- A commit or a rollback record ends the last cell of its transaction, unless it
has ended. -/
def llRcvAnalyzeFinishRec (status : TrnAnalysis) (lsn : Nat) (r : Record) (m : RedoMemory) :
    RedoMemory :=
  match m.findLastRedoTrnCell m.rcvList r.trid with
  | some p =>
    match m.cells p with
    | some cell =>
      if cell.finishStatus = .trnNotFinished then
        m.modify p fun c => { c with finishStatus := status, endLsn := some lsn }
      else m
    | none => m
  | none => m

def llRcvAnalyzeCommitRec : Nat → Record → RedoMemory → RedoMemory :=
  llRcvAnalyzeFinishRec .trnCommitFinished

def llRcvAnalyzeRollbackRec : Nat → Record → RedoMemory → RedoMemory :=
  llRcvAnalyzeFinishRec .trnRollbackFinished

/-- A logical record opens a cell unless the last one of its transaction is open. -/
def llRcvAnalyzeLogicalRec (lsn : Nat) (r : Record) (m : RedoMemory) : RedoMemory :=
  let last := (m.findLastRedoTrnCell m.rcvList r.trid).bind m.cells
  if last = none ∨ ∃ cell ∈ last, cell.finishStatus ≠ .trnNotFinished then
    let put := m.putRedoTrnCell m.rcvList r.trid lsn
    { put.1 with rcvList := if put.1.rcvList = none then some put.2 else put.1.rcvList }
  else m

namespace RedoMemory

/-! ## The list that the memory stands for -/

structure HoldsAt (m : RedoMemory) (keys : List Nat) (list : List RedoCell) : Prop where
  root : m.rcvList = keys.head?
  linked : Linked TrnCellAnalysisRedo.prev TrnCellAnalysisRedo.next m.cells none keys
  nodup : keys.Nodup
  old : ∀ k ∈ keys, k < m.top
  data : keys.map (fun k => (m.cells k).map TrnCellAnalysisRedo.toRedoCell) = list.map some

abbrev cellAt (m : RedoMemory) (k : Nat) : Option RedoCell :=
  (m.cells k).map TrnCellAnalysisRedo.toRedoCell

def Holds (m : RedoMemory) (list : List RedoCell) : Prop := ∃ keys, HoldsAt m keys list

variable {m : RedoMemory} {keys before rest after : List Nat} {list front back : List RedoCell}
  {k fuel trid : Nat} {cell : TrnCellAnalysisRedo}

theorem holds_initial : Holds initial [] :=
  ⟨[], rfl, trivial, nodup_nil, fun _ hk => absurd hk not_mem_nil, rfl⟩

theorem HoldsAt.length_le (h : HoldsAt m keys list) : keys.length ≤ m.top := by
  have hsub : keys ⊆ range m.top := fun k hk => mem_range.2 (h.old k hk)
  have hle := (List.Nodup.subperm h.nodup hsub).length_le
  rwa [length_range] at hle

theorem HoldsAt.get (h : HoldsAt m keys list) (hk : k ∈ keys) : ∃ cell, m.cells k = some cell := by
  obtain ⟨before, after, rfl⟩ := append_of_mem hk
  obtain ⟨cell, hcell, -, -⟩ := h.linked.cell
  exact ⟨cell, hcell⟩

theorem HoldsAt.next (h : HoldsAt m (before ++ k :: rest) (front ++ back))
    (hback : (k :: rest).map m.cellAt = back.map some) :
    ∃ cell tail, back = cell.toRedoCell :: tail ∧ m.cells k = some cell ∧
      cell.prev = before.getLast? ∧ cell.next = rest.head? ∧ rest.map m.cellAt = tail.map some ∧
      HoldsAt m (before ++ [k] ++ rest) (front ++ [cell.toRedoCell] ++ tail) := by
  obtain ⟨cell, hcell, hprev, hnext⟩ := h.linked.cell
  obtain ⟨c, tail, rfl, hc, htail⟩ := map_eq_cons_iff.1 hback.symm
  obtain rfl : cell.toRedoCell = c := by simpa [hcell] using hc
  exact ⟨cell, tail, rfl, hcell, by simpa using hprev, hnext, htail.symm, by simpa using h⟩

theorem HoldsAt.cut (h : HoldsAt m (before ++ k :: after) list) :
    ∃ front cell back, list = front ++ cell.toRedoCell :: back ∧ m.cells k = some cell ∧
      cell.prev = before.getLast? ∧ cell.next = after.head? ∧
      before.map m.cellAt = front.map some ∧
      after.map m.cellAt = back.map some := by
  obtain ⟨cell, hcell, hprev, hnext⟩ := h.linked.cell
  have hdata := h.data
  rw [map_append, map_cons] at hdata
  obtain ⟨front, rest, rfl, hfront, hrest⟩ := append_eq_map_iff.1 hdata
  obtain ⟨c, back, rfl, hc, hback⟩ := map_eq_cons_iff.1 hrest
  rw [hcell, Option.map_some, Option.some.injEq] at hc
  exact ⟨front, cell, back, by rw [hc], hcell, by simpa using hprev, hnext, hfront.symm, hback.symm⟩

theorem lastCell_eq (h : Linked TrnCellAnalysisRedo.prev TrnCellAnalysisRedo.next m.cells none
      (before ++ k :: after)) (hfuel : after.length ≤ fuel) :
    m.lastCell fuel k = (k :: after).getLast (by simp) := by
  induction after generalizing before k fuel with
  | nil =>
    obtain ⟨cell, hcell, -, hnext⟩ := h.cell
    have hnone : (m.cells k).bind TrnCellAnalysisRedo.next = none := by rw [hcell]; exact hnext
    cases fuel with
    | zero => rfl
    | succ fuel => simp [lastCell, hnone]
  | cons n after ih =>
    obtain ⟨cell, hcell, -, hnext⟩ := h.cell
    have hsome : (m.cells k).bind TrnCellAnalysisRedo.next = some n := by rw [hcell]; exact hnext
    obtain ⟨fuel, rfl⟩ := Nat.exists_eq_succ_of_ne_zero (by
      rw [length_cons] at hfuel
      omega : fuel ≠ 0)
    rw [length_cons] at hfuel
    have hrest := @ih (before ++ [k]) n fuel (by simpa using h) (by omega)
    simp [lastCell, hsome, hrest]

def tridAt (m : RedoMemory) (k : Nat) : Option Nat := (m.cells k).map fun c => c.trid

theorem backToTrid_cases (h : Linked TrnCellAnalysisRedo.prev TrnCellAnalysisRedo.next m.cells none
      (before ++ k :: after)) (hfuel : before.length < fuel) :
    (m.backToTrid trid fuel (some k) = none ∧ ∀ j ∈ before ++ [k], m.tridAt j ≠ some trid) ∨
    ∃ pre j mid, before ++ [k] = pre ++ j :: mid ∧ m.backToTrid trid fuel (some k) = some j ∧
      m.tridAt j = some trid ∧ ∀ i ∈ mid, m.tridAt i ≠ some trid := by
  induction before using reverseRecOn generalizing k after fuel with
  | nil =>
    obtain _ | fuel := fuel
    · omega
    obtain ⟨cell, hcell, hprev, -⟩ := h.cell
    by_cases heq : cell.trid = trid
    · exact .inr ⟨[], k, [], rfl, by simp [backToTrid, hcell, heq],
        by simp [tridAt, hcell, heq], by simp⟩
    · exact .inl ⟨by simp [backToTrid, hcell, heq, hprev], by simp [tridAt, hcell, heq]⟩
  | append_singleton before i ih =>
    rw [length_append, length_singleton] at hfuel
    obtain _ | fuel := fuel
    · omega
    obtain ⟨cell, hcell, hprev, -⟩ := h.cell
    by_cases heq : cell.trid = trid
    · exact .inr ⟨before ++ [i], k, [], rfl, by simp [backToTrid, hcell, heq],
        by simp [tridAt, hcell, heq], by simp⟩
    · have hne : m.tridAt k ≠ some trid := by simp [tridAt, hcell, heq]
      have hback : m.backToTrid trid (fuel + 1) (some k) = m.backToTrid trid fuel (some i) := by
        simp [backToTrid, hcell, heq, hprev]
      rw [hback]
      rcases @ih (k :: after) i fuel (by simpa using h) (by omega) with
        ⟨hnone, hall⟩ | ⟨pre, j, mid, hcut, hsome, hj, hmid⟩
      · exact .inl ⟨hnone, forall_mem_append.2 ⟨hall, forall_mem_singleton.2 hne⟩⟩
      · exact .inr ⟨pre, j, mid ++ [k], by simp [hcut], hsome, hj,
          forall_mem_append.2 ⟨hmid, forall_mem_singleton.2 hne⟩⟩

theorem tridAt_ne (hdata : keys.map m.cellAt = front.map some)
    (hne : ∀ k ∈ keys, m.tridAt k ≠ some trid) : ∀ c ∈ front, c.trid ≠ trid := by
  intro c hc heq
  have hmem : some c ∈ keys.map m.cellAt := by
    rw [hdata]
    exact mem_map_of_mem hc
  obtain ⟨k, hk, hcell⟩ := mem_map.1 hmem
  refine hne k hk ?_
  obtain ⟨cell, hget, rfl⟩ := Option.map_eq_some_iff.1 hcell
  simp [tridAt, hget, heq]

theorem HoldsAt.lastCell_eq (h : HoldsAt m keys list) (hroot : m.rcvList = some k) :
    ∃ front, keys = front ++ [m.lastCell m.top k] ∧ front.length < m.top := by
  have hlen := h.length_le
  rw [h.root] at hroot
  obtain ⟨rest, rfl⟩ := head?_eq_some_iff.1 hroot
  rw [length_cons] at hlen
  refine ⟨(k :: rest).dropLast, ?_, by rw [length_dropLast, length_cons]; omega⟩
  rw [@RedoMemory.lastCell_eq m [] rest k m.top h.linked (by omega), dropLast_append_getLast]

theorem HoldsAt.findLast (h : HoldsAt m keys list) (trid : Nat) :
    (m.findLastRedoTrnCell m.rcvList trid = none ∧ ∀ c ∈ list, c.trid ≠ trid) ∨
    ∃ before k after, keys = before ++ k :: after ∧
      m.findLastRedoTrnCell m.rcvList trid = some k ∧ m.tridAt k = some trid ∧
      ∀ i ∈ after, m.tridAt i ≠ some trid := by
  cases hroot : m.rcvList with
  | none =>
    obtain rfl : keys = [] := head?_eq_none_iff.1 (h.root.symm.trans hroot)
    have hlist : list = [] := by simpa using h.data.symm
    exact .inl ⟨rfl, by simp [hlist]⟩
  | some k =>
    obtain ⟨front, hkeys, hfront⟩ := h.lastCell_eq hroot
    have hlinked := h.linked
    rw [hkeys] at hlinked ⊢
    rcases backToTrid_cases hlinked hfront with ⟨hnone, hall⟩ | hsome
    · exact .inl ⟨hnone, tridAt_ne h.data (by rwa [hkeys])⟩
    · exact .inr hsome

theorem HoldsAt.modify {f : TrnCellAnalysisRedo → TrnCellAnalysisRedo}
    (h : HoldsAt m (before ++ k :: after) (front ++ cell.toRedoCell :: back))
    (hcell : m.cells k = some cell) (hfront : before.map m.cellAt = front.map some)
    (hback : after.map m.cellAt = back.map some) (hprev : (f cell).prev = cell.prev)
    (hnext : (f cell).next = cell.next) :
    HoldsAt (m.modify k f) (before ++ k :: after) (front ++ (f cell).toRedoCell :: back) := by
  have hnd := h.nodup
  rw [nodup_append, nodup_cons] at hnd
  have hoth : ∀ j, j ≠ k → (m.modify k f).cells j = m.cells j := fun j hj => if_neg hj
  have hself : (m.modify k f).cells k = some (f cell) := by simp [RedoMemory.modify, hcell]
  have hsame : ∀ keys : List Nat, (∀ j ∈ keys, j ≠ k) →
      keys.map (m.modify k f).cellAt = keys.map m.cellAt := by
    intro keys hne
    exact map_congr_left fun j hj => by rw [cellAt, hoth j (hne j hj)]
  refine ⟨h.root, h.linked.congr fun j hj => ?_, h.nodup, h.old, ?_⟩
  · by_cases hjk : j = k
    · rw [hjk]
      exact ⟨cell, f cell, hcell, hself, hprev, hnext⟩
    · obtain ⟨c, hc⟩ := h.get hj
      exact ⟨c, c, hc, by rw [hoth j hjk, hc], rfl, rfl⟩
  · rw [map_append, map_cons, map_append, map_cons, hself, Option.map_some,
      hsame before fun j hj heq => hnd.2.2 j hj k (by simp) heq,
      hsame after fun j hj heq => hnd.2.1.1 (heq ▸ hj), hfront, hback]

structure LastOf (trid : Nat) (list front : List RedoCell) (c : RedoCell) (back : List RedoCell) :
    Prop where
  cut : list = front ++ c :: back
  trid_eq : c.trid = trid
  last : ∀ d ∈ back, d.trid ≠ trid

def NoneOpen (trid : Nat) (list : List RedoCell) : Prop :=
  (∀ c ∈ list, c.trid ≠ trid) ∨
    ∃ front c back, LastOf trid list front c back ∧ c.finishStatus ≠ .trnNotFinished

theorem HoldsAt.lastOf (h : HoldsAt m keys list) (trid : Nat) :
    (m.findLastRedoTrnCell m.rcvList trid = none ∧ ∀ c ∈ list, c.trid ≠ trid) ∨
    ∃ p cell front back, m.findLastRedoTrnCell m.rcvList trid = some p ∧ m.cells p = some cell ∧
      LastOf trid list front cell.toRedoCell back ∧
      ∀ f : TrnCellAnalysisRedo → TrnCellAnalysisRedo,
        (f cell).prev = cell.prev → (f cell).next = cell.next →
        Holds (m.modify p f) (front ++ (f cell).toRedoCell :: back) := by
  rcases h.findLast trid with hnone | ⟨before, k, after, rfl, hfind, htrid, hafter⟩
  · exact .inl hnone
  · obtain ⟨front, cell, back, rfl, hcell, -, -, hfront, hback⟩ := h.cut
    have heq : cell.trid = trid := by simpa [tridAt, hcell] using htrid
    refine .inr ⟨k, cell, front, back, hfind, hcell, ⟨rfl, heq, tridAt_ne hback hafter⟩, ?_⟩
    intro f hprev hnext
    exact ⟨_, h.modify hcell hfront hback hprev hnext⟩

theorem HoldsAt.put (h : HoldsAt m keys list) (trid lsn : Nat) {m' : RedoMemory} {new : Nat}
    (hput : m.putRedoTrnCell m.rcvList trid lsn = (m', new)) :
    Holds { m' with rcvList := if m'.rcvList = none then some new else m'.rcvList }
      (list ++ [⟨trid, lsn, none, .trnNotFinished⟩]) := by
  cases hroot : m.rcvList with
  | none =>
    obtain rfl : keys = [] := head?_eq_none_iff.1 (h.root.symm.trans hroot)
    obtain rfl : list = [] := by simpa using h.data.symm
    rw [hroot] at hput
    obtain ⟨rfl, rfl⟩ := Prod.mk.inj hput
    refine ⟨[m.top], by simp [hroot], ⟨⟨_, if_pos rfl, rfl, rfl⟩, trivial⟩, nodup_singleton _,
      by simp, by simp⟩
  | some k =>
    obtain ⟨front, hkeys, -⟩ := h.lastCell_eq hroot
    have hhd := h.root
    rw [hroot, putRedoTrnCell] at hput
    generalize m.lastCell m.top k = last at hput hkeys
    obtain ⟨rfl, rfl⟩ := Prod.mk.inj hput
    rw [hkeys] at h hhd
    obtain ⟨cell, hcell, -, -⟩ := h.linked.cell
    have hold : ∀ j ∈ front ++ [last], j ≠ m.top := fun j hj => ne_of_lt (h.old j hj)
    have hlastTop : last ≠ m.top := hold last (by simp)
    have hnd := nodup_append.1 h.nodup
    have hne : ∀ j ∈ front, j ≠ last := fun j hj => hnd.2.2 j hj last (by simp)
    refine ⟨front ++ [last] ++ [m.top], ?_, h.linked.append ?_ ?_ ?_, ?_, ?_, ?_⟩
    · show (if m.rcvList = none then some m.top else m.rcvList) = _
      rw [head?_append, ← hhd, hroot]
      rfl
    · intro j hj
      simp [RedoMemory.modify, hne j hj, hold j (by simp [hj])]
    · exact ⟨cell, { cell with next := some m.top }, hcell, by
        simp [RedoMemory.modify, hcell, hlastTop], rfl, rfl⟩
    · exact ⟨⟨⟨trid, lsn, none, .trnNotFinished⟩, none, some last⟩,
        by simp [RedoMemory.modify, Ne.symm hlastTop], rfl, rfl⟩
    · rw [nodup_append]
      refine ⟨h.nodup, nodup_singleton _, fun a ha b hb => ?_⟩
      rw [mem_singleton.1 hb]
      exact hold a ha
    · exact forall_mem_append.2 ⟨fun j hj => Nat.lt_succ_of_lt (h.old j hj),
        forall_mem_singleton.2 (Nat.lt_succ_self _)⟩
    · rw [map_append, map_append (f := some), ← h.data]
      congr 1
      · refine map_congr_left fun j hj => ?_
        by_cases hjl : j = last
        · simp [RedoMemory.modify, hjl, hcell, hlastTop]
        · simp [RedoMemory.modify, hjl, hold j hj]
      · simp [RedoMemory.modify, Ne.symm hlastTop]

theorem modify_cells {p j : Nat} {c : TrnCellAnalysisRedo}
    {f : TrnCellAnalysisRedo → TrnCellAnalysisRedo} (hc : m.cells j = some c) :
    (m.modify p f).cells j = some (if j = p then f c else c) := by
  by_cases hj : j = p
  · subst hj
    simp [RedoMemory.modify, hc]
  · simp [RedoMemory.modify, hj, hc]

theorem removeCell_cells {pit j : Nat} {c : TrnCellAnalysisRedo} (hj : j ≠ pit)
    (hc : m.cells j = some c) :
    (m.removeCell pit cell).cells j = some { c with
      next := if cell.prev = some j then cell.next else c.next
      prev := if cell.next = some j then cell.prev else c.prev } := by
  rcases hprev : cell.prev with - | p <;> rcases hnext : cell.next with - | n <;>
    simp only [removeCell, hprev, hnext, if_neg hj]
  · simp [hc]
  · rw [modify_cells hc]
    split_ifs <;> simp_all
  · rw [modify_cells hc]
    split_ifs <;> simp_all
  · rw [modify_cells (modify_cells hc)]
    split_ifs <;> simp_all

theorem removeCell_top (pit : Nat) (cell : TrnCellAnalysisRedo) :
    (m.removeCell pit cell).top = m.top := by
  rcases hprev : cell.prev with - | p <;> rcases hnext : cell.next with - | n <;>
    simp [removeCell, hprev, hnext, RedoMemory.modify]

theorem removeCell_rcvList (pit : Nat) (cell : TrnCellAnalysisRedo) :
    (m.removeCell pit cell).rcvList = if m.rcvList = some pit then cell.next else m.rcvList := by
  rcases hprev : cell.prev with - | p <;> rcases hnext : cell.next with - | n <;>
    simp [removeCell, hprev, hnext, RedoMemory.modify]

theorem HoldsAt.remove (h : HoldsAt m (before ++ k :: after) (front ++ cell.toRedoCell :: back))
    (hprev : cell.prev = before.getLast?) (hnext : cell.next = after.head?)
    (hfront : before.map m.cellAt = front.map some) (hback : after.map m.cellAt = back.map some) :
    HoldsAt (m.removeCell k cell) (before ++ after) (front ++ back) ∧
    (∀ j ∈ before ++ after, (m.removeCell k cell).cellAt j = m.cellAt j) := by
  have hnd := h.nodup
  have hk : ∀ j ∈ before ++ after, j ≠ k := by
    intro j hj heq
    rw [nodup_middle, nodup_cons] at hnd
    exact hnd.1 (heq ▸ hj)
  have hsub := ((sublist_cons_self k after).append_left before).subset
  have hget : ∀ j ∈ before ++ after, ∃ c, m.cells j = some c := fun j hj => h.get (hsub hj)
  have hsame : ∀ j ∈ before ++ after, (m.removeCell k cell).cellAt j = m.cellAt j := by
    intro j hj
    obtain ⟨c, hc⟩ := hget j hj
    rw [cellAt, removeCell_cells (hk j hj) hc, cellAt, hc]
    rfl
  refine ⟨⟨?_, h.linked.remove hnd fun j hj => ?_, ?_, ?_, ?_⟩, hsame⟩
  · rw [removeCell_rcvList, h.root, hnext]
    cases before with
    | nil => simp
    | cons b before =>
      have hne : b ≠ k := hk b (by simp)
      simp [hne]
  · obtain ⟨c, hc⟩ := hget j hj
    refine ⟨c, _, hc, removeCell_cells (hk j hj) hc, ?_, ?_⟩
    · simp [hprev, hnext]
    · simp [hprev, hnext]
  · rw [nodup_middle, nodup_cons] at hnd
    exact hnd.2
  · intro j hj
    rw [removeCell_top]
    exact h.old j (hsub hj)
  · rw [map_congr_left hsame, map_append, map_append, hfront, hback]

theorem removeUnneeded_holds (h : HoldsAt m (before ++ rest) (front ++ back))
    (hfront : before.map m.cellAt = front.map some) (hback : rest.map m.cellAt = back.map some)
    (hfuel : rest.length ≤ fuel) :
    Holds (removeUnneeded fuel rest.head? m)
      (front ++ back.filter fun c => c.finishStatus = .trnCommitFinished) := by
  induction rest generalizing m before front back fuel with
  | nil =>
    obtain rfl : back = [] := by simpa using hback.symm
    exact ⟨before, by simpa [removeUnneeded] using h⟩
  | cons k rest ih =>
    rw [length_cons] at hfuel
    obtain _ | fuel := fuel
    · omega
    obtain ⟨cell, tail, rfl, hcell, hprev, hnext, htail, hwalk⟩ := h.next hback
    rw [head?_cons, removeUnneeded, hcell]
    by_cases hcom : cell.finishStatus = .trnCommitFinished
    · have hrest := ih hwalk (by simp [hfront, hcell]) htail (by omega : rest.length ≤ fuel)
      simpa [hcom, hnext] using hrest
    · obtain ⟨hremoved, hsame⟩ := h.remove hprev hnext hfront htail
      have hrest := ih hremoved
        (by rw [← hfront]; exact map_congr_left fun j hj => hsame j (by simp [hj]))
        (by rw [← htail]; exact map_congr_left fun j hj => hsame j (by simp [hj]))
        (by omega : rest.length ≤ fuel)
      simpa [hcom, hnext] using hrest

theorem findTrnCell_isSome {lsn : Nat} (h : HoldsAt m (before ++ rest) (front ++ back))
    (hback : rest.map m.cellAt = back.map some) (hfuel : rest.length ≤ fuel) :
    (m.findTrnCell trid lsn fuel rest.head?).isSome ↔
      ∃ c ∈ back, c.trid = trid ∧ c.firstLsn ≤ lsn ∧ ∀ e ∈ c.endLsn, lsn ≤ e := by
  induction rest generalizing before front back fuel with
  | nil =>
    obtain rfl : back = [] := by simpa using hback.symm
    simp [findTrnCell]
  | cons k rest ih =>
    rw [length_cons] at hfuel
    obtain _ | fuel := fuel
    · omega
    obtain ⟨cell, tail, rfl, hcell, -, hnext, htail, hwalk⟩ := h.next hback
    have hrest := ih hwalk htail (by omega : rest.length ≤ fuel)
    simp only [head?_cons, findTrnCell, hcell, exists_mem_cons_iff]
    by_cases hin : cell.trid = trid ∧ cell.firstLsn ≤ lsn ∧ ∀ e ∈ cell.endLsn, lsn ≤ e
    · rw [if_pos hin]
      exact iff_of_true rfl (.inl hin)
    · rw [if_neg hin, hnext, hrest]
      exact (or_iff_right hin).symm

end RedoMemory

theorem llRcvAnalyzeFinishRec_holds {m : RedoMemory} {list : List RedoCell} (h : Holds m list)
    (status : TrnAnalysis) (lsn : Nat) (r : Record) :
    (NoneOpen r.trid list ∧ Holds (llRcvAnalyzeFinishRec status lsn r m) list) ∨
    ∃ front c back, LastOf r.trid list front c back ∧ c.finishStatus = .trnNotFinished ∧
      Holds (llRcvAnalyzeFinishRec status lsn r m)
        (front ++ { c with finishStatus := status, endLsn := some lsn } :: back) := by
  obtain ⟨keys, hkeys⟩ := h
  rcases hkeys.lastOf r.trid with
    ⟨hnone, hall⟩ | ⟨p, cell, front, back, hfind, hcell, hlast, hmodify⟩
  · exact .inl ⟨.inl hall, keys, by simpa [llRcvAnalyzeFinishRec, hnone] using hkeys⟩
  · by_cases hopen : cell.finishStatus = .trnNotFinished
    · refine .inr ⟨front, cell.toRedoCell, back, hlast, hopen, ?_⟩
      simpa [llRcvAnalyzeFinishRec, hfind, hcell, hopen] using
        hmodify (fun c => { c with finishStatus := status, endLsn := some lsn }) rfl rfl
    · exact .inl ⟨.inr ⟨front, cell.toRedoCell, back, hlast, hopen⟩, keys, by
        simpa [llRcvAnalyzeFinishRec, hfind, hcell, hopen] using hkeys⟩

theorem llRcvAnalyzeLogicalRec_holds {m : RedoMemory} {list : List RedoCell} (h : Holds m list)
    (lsn : Nat) (r : Record) :
    (NoneOpen r.trid list ∧ Holds (llRcvAnalyzeLogicalRec lsn r m)
        (list ++ [⟨r.trid, lsn, none, .trnNotFinished⟩])) ∨
    ∃ front c back, LastOf r.trid list front c back ∧ c.finishStatus = .trnNotFinished ∧
      Holds (llRcvAnalyzeLogicalRec lsn r m) list := by
  obtain ⟨keys, hkeys⟩ := h
  have hput := hkeys.put r.trid lsn rfl
  rcases hkeys.lastOf r.trid with ⟨hnone, hall⟩ | ⟨p, cell, front, back, hfind, hcell, hlast, -⟩
  · refine .inl ⟨.inl hall, ?_⟩
    rw [llRcvAnalyzeLogicalRec, if_pos (by simp [hnone])]
    exact hput
  · by_cases hopen : cell.finishStatus = .trnNotFinished
    · refine .inr ⟨front, cell.toRedoCell, back, hlast, hopen, keys, ?_⟩
      simpa [llRcvAnalyzeLogicalRec, hfind, hcell, hopen] using hkeys
    · refine .inl ⟨.inr ⟨front, cell.toRedoCell, back, hlast, hopen⟩, ?_⟩
      rw [llRcvAnalyzeLogicalRec, if_pos (by simp [hfind, hcell, hopen])]
      exact hput

end Sedna.Log
