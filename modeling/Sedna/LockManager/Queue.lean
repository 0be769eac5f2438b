import Sedna.LockManager.Table
import Mathlib.Data.List.Pairwise

/-!
# One resource queue

What `lock` and `unlock` do to the queue of one resource, and the invariant
they keep.  Transactions and their lists play no part here.
-/

namespace Sedna.LockManager.Queue

open Modes Table List

/-! ## Finding and replacing a request -/

variable {trId : TransactionId} {queue a b : List LockRequest} {own x own' : LockRequest}
  {head : LockHead}

theorem findRequest_eq_some (h : findRequest trId queue = some own) :
    ∃ a b, queue = a ++ own :: b ∧ own.trId = trId ∧ ∀ x ∈ a, x.trId ≠ trId := by
  obtain ⟨hown, a, b, rfl, ha⟩ := find?_eq_some_iff_append.1 h
  refine ⟨a, b, rfl, by simpa using hown, ?_⟩
  intro x hx
  simpa using ha x hx

theorem findRequest_eq_none : findRequest trId queue = none ↔ ∀ x ∈ queue, x.trId ≠ trId := by
  simp [findRequest]

theorem updateRequest_split (f : LockRequest → LockRequest) (hown : own.trId = trId)
    (ha : ∀ x ∈ a, x.trId ≠ trId) : updateRequest trId f (a ++ own :: b) = a ++ f own :: b := by
  induction a with
  | nil => simp [updateRequest, hown]
  | cons x a ih =>
    have hx : x.trId ≠ trId := ha x (by simp)
    simp only [cons_append, updateRequest, if_neg hx]
    rw [ih fun y hy => ha y (by simp [hy])]

theorem filter_others (hdist : (a ++ own :: b).Pairwise fun x y => x.trId ≠ y.trId)
    (hown : own.trId = trId) : (a ++ own :: b).filter (fun x => x.trId ≠ trId) = a ++ b := by
  obtain ⟨-, hcons, hcross⟩ := pairwise_append.1 hdist
  have ha : a.filter (fun x => x.trId ≠ trId) = a := by
    refine filter_eq_self.2 fun x hx => ?_
    simpa [hown] using hcross x hx own (by simp)
  have hb : b.filter (fun x => x.trId ≠ trId) = b := by
    refine filter_eq_self.2 fun x hx => ?_
    simpa [hown] using ((pairwise_cons.1 hcons).1 x hx).symm
  rw [filter_append, filter_cons_of_neg (by simpa using hown), ha, hb]

/-! ## The invariant -/

/-- The wanted mode conflicts with a mode held by a transaction other than `x`'s. -/
def Blocked (queue : List LockRequest) (x : LockRequest) (wanted : LockMode) : Prop :=
  ∃ y ∈ queue, y.trId ≠ x.trId ∧ y.held = true ∧ lockCompat wanted y.mode = false

def KnownStatus (x : LockRequest) : Prop :=
  x.status = .lockGranted ∨ x.status = .lockConverting ∨ x.status = .lockWaiting

structure QueueInv (head : LockHead) : Prop where
  nonempty : head.queue ≠ []
  distinct : head.queue.Pairwise fun x y => x.trId ≠ y.trId
  status : ∀ x ∈ head.queue, KnownStatus x
  ordered : head.queue.Pairwise fun x y => x.status = .lockWaiting → y.status = .lockWaiting
  target : ∀ x ∈ head.queue, x.status = .lockConverting → Covers x.convertMode x.mode
  flag : head.waiting = true ↔ ∃ x ∈ head.queue, x.status ≠ .lockGranted
  covered : head.waiting = false → ∀ m, lockCompat m head.grantedMode = true ↔
    ∀ x ∈ head.queue, lockCompat m x.mode = true
  converting : ∀ x, head.queue.find? (fun y => y.status = .lockConverting) = some x →
    Blocked head.queue x x.convertMode
  waiting : ∀ x, head.queue.find? (fun y => y.status = .lockWaiting) = some x →
    (∀ y ∈ head.queue, y.status ≠ .lockConverting) → Blocked head.queue x x.mode

theorem held_iff : x.held = true ↔ x.status = .lockGranted ∨ x.status = .lockConverting := by
  simp [LockRequest.held]

theorem QueueInv.all_granted (h : QueueInv head) (hwait : head.waiting = false) :
    ∀ x ∈ head.queue, x.status = .lockGranted := by
  intro x hx
  by_contra hne
  rw [h.flag.2 ⟨x, hx, hne⟩] at hwait
  cases hwait

theorem QueueInv.eq_of_trId (h : QueueInv head) {y : LockRequest} (hx : x ∈ head.queue)
    (hy : y ∈ head.queue) (htr : x.trId = y.trId) : x = y := by
  have hsymm : Std.Symm fun x y : LockRequest => x.trId ≠ y.trId := ⟨fun _ _ hne => hne.symm⟩
  by_contra hne
  exact h.distinct.forall hx hy hne htr

theorem ordered_granted (ha : ∀ x ∈ a, x.status = .lockGranted)
    (hb : b.Pairwise fun x y => x.status = .lockWaiting → y.status = .lockWaiting) :
    (a ++ b).Pairwise fun x y => x.status = .lockWaiting → y.status = .lockWaiting := by
  have hfalse : ∀ x ∈ a, ∀ y : LockRequest, x.status = .lockWaiting → y.status = .lockWaiting := by
    intro x hx y hw
    rw [ha x hx] at hw
    cases hw
  refine pairwise_append.2 ⟨?_, hb, fun x hx y _ => hfalse x hx y⟩
  exact pairwise_of_forall_mem_list fun x hx y _ => hfalse x hx y

theorem waiting_of_head {rest : List LockRequest}
    (h : (x :: rest).Pairwise fun x y => x.status = .lockWaiting → y.status = .lockWaiting)
    (hx : x.status = .lockWaiting) : ∀ y ∈ x :: rest, y.status = .lockWaiting :=
  forall_mem_cons.2 ⟨hx, fun y hy => (pairwise_cons.1 h).1 y hy hx⟩

theorem Blocked.mono {queue' : List LockRequest} {wanted : LockMode} (h : Blocked queue x wanted)
    (hmono : ∀ y ∈ queue, y.held = true → ∃ y' ∈ queue', y'.trId = y.trId ∧ y'.held = true ∧
      Covers y'.mode y.mode) : Blocked queue' x wanted := by
  obtain ⟨y, hy, hne, hheld, hconf⟩ := h
  obtain ⟨y', hy', htr, hheld', hcov⟩ := hmono y hy hheld
  exact ⟨y', hy', by rw [htr]; exact hne, hheld', hcov.conflict hconf⟩

/-! ## `lock` on one queue -/

theorem QueueInv.single (hx : x.status = .lockGranted) : QueueInv ⟨[x], x.mode, false⟩ := by
  refine ⟨by simp, by simp, by simp [KnownStatus, hx], by simp, by simp [hx], by simp [hx], by simp,
    ?_, ?_⟩
  · simp [hx]
  · simp [hx]

theorem QueueInv.append_granted (h : QueueInv head) (hfr : ∀ y ∈ head.queue, y.trId ≠ x.trId)
    (hx : x.status = .lockGranted) (hwait : head.waiting = false) :
    QueueInv { head with
      queue := head.queue ++ [x], grantedMode := lockMax x.mode head.grantedMode } := by
  have hall : ∀ y ∈ head.queue ++ [x], y.status = .lockGranted :=
    forall_mem_append.2 ⟨h.all_granted hwait, by simpa using hx⟩
  refine ⟨by simp, ?_, fun y hy => .inl (hall y hy), ?_, ?_, ?_, ?_, ?_, ?_⟩
  · exact pairwise_append.2 ⟨h.distinct, by simp, by simpa using hfr⟩
  · exact ordered_granted (h.all_granted hwait) (by simp)
  · intro y hy hc
    rw [hall y hy] at hc
    cases hc
  · constructor
    · intro hw
      rw [hwait] at hw
      cases hw
    · rintro ⟨y, hy, hne⟩
      exact absurd (hall y hy) hne
  · intro _ m
    rw [lockCompat_lockMax, Bool.and_eq_true, h.covered hwait]
    simp only [forall_mem_append, forall_mem_singleton]
    exact and_comm
  all_goals
    intro y hy
    have hc := find?_some hy
    simp [hall y (mem_of_find?_eq_some hy)] at hc

theorem QueueInv.append_waiting (h : QueueInv head) (hfr : ∀ y ∈ head.queue, y.trId ≠ x.trId)
    (hx : x.status = .lockWaiting)
    (hrefused : head.waiting = true ∨ lockCompat x.mode head.grantedMode = false) :
    QueueInv { head with queue := head.queue ++ [x], waiting := true } := by
  have hkeep : ∀ y ∈ head.queue, y.held = true → ∃ y' ∈ head.queue ++ [x], y'.trId = y.trId ∧
      y'.held = true ∧ Covers y'.mode y.mode :=
    fun y hy hheld => ⟨y, by simp [hy], rfl, hheld, fun _ hm => hm⟩
  refine ⟨by simp, ?_, ?_, ?_, ?_, ?_, by simp, ?_, ?_⟩
  · exact pairwise_append.2 ⟨h.distinct, by simp, by simpa using hfr⟩
  · exact forall_mem_append.2 ⟨h.status, forall_mem_singleton.2 (.inr (.inr hx))⟩
  · exact pairwise_append.2 ⟨h.ordered, by simp, by simp [hx]⟩
  · exact forall_mem_append.2 ⟨h.target, by simp [hx]⟩
  · simp only [true_iff]
    exact ⟨x, by simp, by simp [hx]⟩
  · intro y hy
    have hfind : head.queue.find? (fun y => y.status = .lockConverting) = some y := by
      simpa [hx] using hy
    exact (h.converting y hfind).mono hkeep
  · intro y hy hnone
    have hnone' : ∀ y ∈ head.queue, y.status ≠ .lockConverting :=
      fun z hz => hnone z (by simp [hz])
    rw [find?_append] at hy
    cases hfind : head.queue.find? (fun y => y.status = .lockWaiting) with
    | some z =>
      rw [hfind] at hy
      obtain rfl : z = y := by simpa using hy
      exact (h.waiting z hfind hnone').mono hkeep
    | none =>
      -- nobody waits yet, so the request itself met a conflicting holder
      have hgrant : ∀ z ∈ head.queue, z.status = .lockGranted := by
        intro z hz
        have hzw : z.status ≠ .lockWaiting := by simpa using find?_eq_none.1 hfind z hz
        rcases h.status z hz with hg | hc | hw
        · exact hg
        · exact absurd hc (hnone' z hz)
        · exact absurd hw hzw
      have hwait : head.waiting = false := by
        rw [← Bool.not_eq_true, h.flag]
        rintro ⟨z, hz, hne⟩
        exact hne (hgrant z hz)
      rw [hfind] at hy
      obtain rfl : x = y := by simpa [hx] using hy
      have hconf : lockCompat x.mode head.grantedMode = false := by
        rcases hrefused with hw | hc
        · rw [hwait] at hw
          cases hw
        · exact hc
      have hsome : ¬ ∀ z ∈ head.queue, lockCompat x.mode z.mode = true := by
        rw [← h.covered hwait, hconf]
        decide
      simp only [not_forall, Bool.not_eq_true] at hsome
      obtain ⟨z, hz, hzc⟩ := hsome
      exact ⟨z, by simp [hz], hfr z hz, held_iff.2 (.inl (hgrant z hz)), hzc⟩

theorem distinct_replace (h : (a ++ own :: b).Pairwise fun x y => x.trId ≠ y.trId)
    (htr : own'.trId = own.trId) : (a ++ own' :: b).Pairwise fun x y => x.trId ≠ y.trId := by
  simp only [pairwise_append, pairwise_cons, forall_mem_cons] at h ⊢
  rw [htr]
  exact h

theorem ordered_replace
    (h : (a ++ own :: b).Pairwise fun x y => x.status = .lockWaiting → y.status = .lockWaiting)
    (hown : own.status ≠ .lockWaiting) (hown' : own'.status ≠ .lockWaiting) :
    (a ++ own' :: b).Pairwise fun x y => x.status = .lockWaiting → y.status = .lockWaiting := by
  simp only [pairwise_append, pairwise_cons, forall_mem_cons] at h ⊢
  obtain ⟨ha, ⟨-, hb⟩, hab⟩ := h
  refine ⟨ha, ⟨fun y _ hw => absurd hw hown', hb⟩, ?_⟩
  intro x hx
  exact ⟨fun hw => absurd ((hab x hx).1 hw) hown, (hab x hx).2⟩

theorem holders_replace (htr : own'.trId = own.trId) (hheld : own'.held = true)
    (hcov : Covers own'.mode own.mode) :
    ∀ y ∈ a ++ own :: b, y.held = true → ∃ y' ∈ a ++ own' :: b, y'.trId = y.trId ∧
      y'.held = true ∧ Covers y'.mode y.mode := by
  intro y hy hy'
  rcases mem_append.1 hy with hy | hy
  · exact ⟨y, by simp [hy], rfl, hy', fun _ hm => hm⟩
  · rcases mem_cons.1 hy with rfl | hy
    · exact ⟨own', by simp, htr, hheld, hcov⟩
    · exact ⟨y, by simp [hy], rfl, hy', fun _ hm => hm⟩

theorem QueueInv.convert_pending (h : QueueInv head) (hqueue : head.queue = a ++ own :: b)
    (hown : own.status = .lockGranted) (htr : own'.trId = own.trId) (hmode : own'.mode = own.mode)
    (hown' : own'.status = .lockConverting) (hcov : Covers own'.convertMode own.mode)
    (hblk : Blocked head.queue own own'.convertMode) :
    QueueInv { head with queue := a ++ own' :: b, waiting := true } := by
  have hsame : Covers own'.mode own.mode := by
    rw [hmode]
    exact fun _ hm => hm
  have hholders := holders_replace (a := a) (b := b) htr (held_iff.2 (.inr hown')) hsame
  have hdist := h.distinct
  have hord := h.ordered
  have hst := h.status
  have htgt := h.target
  have hconv := h.converting
  rw [hqueue] at hdist hord hst htgt hconv hblk
  refine ⟨by simp, distinct_replace hdist htr, ?_, ?_, ?_, ?_, by simp, ?_, ?_⟩
  · simp only [forall_mem_append, forall_mem_cons] at hst ⊢
    exact ⟨hst.1, .inr (.inl hown'), hst.2.2⟩
  · exact ordered_replace hord (by simp [hown]) (by simp [hown'])
  · simp only [forall_mem_append, forall_mem_cons] at htgt ⊢
    rw [hmode]
    exact ⟨htgt.1, fun _ => hcov, htgt.2.2⟩
  · simp only [true_iff]
    exact ⟨own', by simp, by simp [hown']⟩
  · intro y hy
    rw [find?_append] at hy
    cases hfind : a.find? (fun y => y.status = .lockConverting) with
    | some z =>
      rw [hfind] at hy
      obtain rfl : z = y := by simpa using hy
      exact (hconv z (by rw [find?_append, hfind]; rfl)).mono hholders
    | none =>
      rw [hfind] at hy
      obtain rfl : own' = y := by simpa [hown'] using hy
      obtain ⟨z, hz, hne, hheld, hconf⟩ := hblk.mono hholders
      exact ⟨z, hz, by rw [htr]; exact hne, hheld, hconf⟩
  · intro y _ hnone
    exact absurd hown' (hnone own' (by simp))

theorem QueueInv.convert_granted (h : QueueInv head) (hqueue : head.queue = a ++ own :: b)
    (hown : own.status = .lockGranted) (htr : own'.trId = own.trId)
    (hown' : own'.status = .lockGranted) (hcovers : Covers own'.mode own.mode) :
    QueueInv { head with
      queue := a ++ own' :: b, grantedMode := lockMax head.grantedMode own'.mode } := by
  have hholders := holders_replace (a := a) (b := b) htr (held_iff.2 (.inl hown')) hcovers
  have hdist := h.distinct
  have hord := h.ordered
  have hst := h.status
  have htgt := h.target
  have hflag := h.flag
  have hcovered := h.covered
  have hconv := h.converting
  have hwait := h.waiting
  rw [hqueue] at hdist hord hst htgt hflag hcovered hconv hwait
  refine ⟨by simp, distinct_replace hdist htr, ?_, ?_, ?_, ?_, ?_, ?_, ?_⟩
  · simp only [forall_mem_append, forall_mem_cons] at hst ⊢
    exact ⟨hst.1, .inl hown', hst.2.2⟩
  · exact ordered_replace hord (by simp [hown]) (by simp [hown'])
  · simp only [forall_mem_append, forall_mem_cons] at htgt ⊢
    exact ⟨htgt.1, by simp [hown'], htgt.2.2⟩
  · rw [hflag]
    simp [or_and_right, exists_or, hown, hown']
  · intro hw m
    have hcov := hcovered hw m
    simp only [forall_mem_append, forall_mem_cons] at hcov ⊢
    rw [lockCompat_lockMax, Bool.and_eq_true, hcov]
    constructor
    · rintro ⟨⟨ha, -, hb⟩, hm⟩
      exact ⟨ha, hm, hb⟩
    · rintro ⟨ha, hm, hb⟩
      exact ⟨⟨ha, hcovers m hm, hb⟩, hm⟩
  · intro y hy
    exact (hconv y (by simpa [hown, hown'] using hy)).mono hholders
  · intro y hy hnone
    refine (hwait y (by simpa [hown, hown'] using hy) ?_).mono hholders
    simp only [forall_mem_append, forall_mem_cons] at hnone ⊢
    exact ⟨hnone.1, by simp [hown], hnone.2.2⟩

/-! ## The scan of `unlock` -/

def Grantable (passed : List LockRequest) (x : LockRequest) (rest : List LockRequest) : Prop :=
  x.status = .lockGranted ∨
  (x.status = .lockConverting ∧ ∀ y ∈ passed ++ x :: rest, y.status = .lockGranted →
    y.trId ≠ x.trId → lockCompat x.convertMode y.mode = true) ∨
  (x.status = .lockWaiting ∧ ∀ y ∈ passed, lockCompat x.mode y.mode = true)

def Stops (passed : List LockRequest) (x : LockRequest) (rest : List LockRequest) : Prop :=
  (x.status = .lockConverting ∧ ∃ y ∈ passed ++ x :: rest, y.status = .lockGranted ∧
    y.trId ≠ x.trId ∧ lockCompat x.convertMode y.mode = false) ∨
  (x.status = .lockWaiting ∧ ∃ y ∈ passed, lockCompat x.mode y.mode = false)

/-- After `passed` the scan grants the first list and leaves the second as it is. -/
inductive Scanned : List LockRequest → List LockRequest → List LockRequest → Prop where
  | done (passed : List LockRequest) : Scanned passed [] []
  | stop {passed rest : List LockRequest} {x : LockRequest} (h : Stops passed x rest) :
      Scanned passed [] (x :: rest)
  | next {passed granted tail : List LockRequest} {x : LockRequest}
      (h : Grantable passed x (granted ++ tail))
      (hrest : Scanned (passed ++ [grant x]) granted tail) : Scanned passed (x :: granted) tail

def Stands (g : LockMode) (queue : List LockRequest) : Prop :=
  ∀ m, lockCompat m g = true ↔ ∀ y ∈ queue, lockCompat m y.mode = true

theorem Stands.append {g : LockMode} {passed : List LockRequest} (h : Stands g passed)
    (x : LockRequest) : Stands (lockMax x.mode g) (passed ++ [x]) := by
  intro m
  rw [lockCompat_lockMax, Bool.and_eq_true, h m]
  simp only [forall_mem_append, forall_mem_singleton]
  exact and_comm

/-- The requests from the one on at which the scan stops that it still counts in
`granted_mode`.  A conversion that has to wait is not among them. -/
def counted : List LockRequest → List LockRequest
  | [] => []
  | x :: rest =>
    if x.status = .lockConverting then rest.takeWhile fun y => y.status ≠ .lockWaiting else []

theorem scan_convertWaiting (passed : List LockRequest) (grantedMode : LockMode) (waiting : Bool)
    (woken rest : List LockRequest) (hrest : ∀ x ∈ rest, KnownStatus x) :
    ∃ g, scan passed grantedMode waiting true woken rest =
        .ok ⟨⟨passed ++ rest, g, waiting⟩, woken⟩ ∧
      ∀ queue, Stands grantedMode queue →
        Stands g (queue ++ rest.takeWhile fun y => y.status ≠ .lockWaiting) := by
  induction rest generalizing passed grantedMode with
  | nil => exact ⟨grantedMode, by simp [scan], fun queue h => by simpa using h⟩
  | cons x rest ih =>
    have htail : ∀ y ∈ rest, KnownStatus y := fun y hy => hrest y (by simp [hy])
    obtain ⟨g, hg, hstands⟩ := ih (passed ++ [x]) (lockMax x.mode grantedMode) htail
    have hcount : x.status ≠ .lockWaiting → ∀ queue, Stands grantedMode queue →
        Stands g (queue ++ (x :: rest).takeWhile fun y => y.status ≠ .lockWaiting) := by
      intro hx queue hqueue
      simpa [hx] using hstands _ (hqueue.append x)
    rcases hrest x (by simp) with hx | hx | hx
    · exact ⟨g, by simp [scan, hx, hg], hcount (by simp [hx])⟩
    · exact ⟨g, by simp [scan, hx, hg], hcount (by simp [hx])⟩
    · exact ⟨grantedMode, by simp [scan, hx], fun queue h => by simpa [hx] using h⟩

theorem grant_trId (x : LockRequest) : (grant x).trId = x.trId := by
  unfold grant
  split <;> rfl

theorem grant_id (x : LockRequest) : (grant x).id = x.id := by
  unfold grant
  split <;> rfl

theorem grant_status (h : KnownStatus x) : (grant x).status = .lockGranted := by
  rcases h with hx | hx | hx <;> simp [grant, hx]

theorem grant_of_granted (h : x.status = .lockGranted) : grant x = x := by
  simp [grant, h]

theorem grant_mode_of_converting (h : x.status = .lockConverting) :
    (grant x).mode = x.convertMode := by
  simp [grant, h]

theorem grant_mode_of_waiting (h : x.status = .lockWaiting) : (grant x).mode = x.mode := by
  simp [grant, h]

theorem convertCompatible_iff :
    convertCompatible queue x = true ↔ ∀ y ∈ queue, y.status = .lockGranted →
      y.trId ≠ x.trId → lockCompat x.convertMode y.mode = true := by
  rw [convertCompatible, all_eq_true]
  refine forall_congr' fun y => forall_congr' fun _ => ?_
  cases hst : decide (y.status = .lockGranted) <;>
    cases htr : decide (y.trId = x.trId) <;> simp_all

theorem scan_spec (passed : List LockRequest) (g : LockMode) (woken rest : List LockRequest)
    (hg : Stands g passed) (hrest : ∀ x ∈ rest, KnownStatus x) :
    ∃ granted tail g', rest = granted ++ tail ∧ Scanned passed granted tail ∧
      scan passed g false false woken rest =
        .ok ⟨⟨passed ++ granted.map grant ++ tail, g', !tail.isEmpty⟩,
          woken ++ granted.filter fun x => x.status ≠ .lockGranted⟩ ∧
      Stands g' (passed ++ granted.map grant ++ counted tail) := by
  induction rest generalizing passed g woken with
  | nil =>
    refine ⟨[], [], g, rfl, .done passed, by simp [scan], ?_⟩
    simpa [counted] using hg
  | cons x rest ih =>
    have htail : ∀ y ∈ rest, KnownStatus y := fun y hy => hrest y (by simp [hy])
    -- a request that is granted joins `passed`
    have hgo : ∀ m w, (grant x).mode = m →
        w = woken ++ [x].filter (fun x => x.status ≠ .lockGranted) →
        (∀ granted tail, rest = granted ++ tail → Grantable passed x (granted ++ tail)) →
        scan passed g false false woken (x :: rest) =
          scan (passed ++ [grant x]) (lockMax m g) false false w rest →
        ∃ granted tail g', x :: rest = granted ++ tail ∧ Scanned passed granted tail ∧
          scan passed g false false woken (x :: rest) =
            .ok ⟨⟨passed ++ granted.map grant ++ tail, g', !tail.isEmpty⟩,
              woken ++ granted.filter fun x => x.status ≠ .lockGranted⟩ ∧
          Stands g' (passed ++ granted.map grant ++ counted tail) := by
      rintro m w rfl rfl hgrant hstep
      obtain ⟨granted, tail, g', hspl, hscanned, hscan, hstands⟩ :=
        ih (passed ++ [grant x]) (lockMax (grant x).mode g) _ (hg.append (grant x)) htail
      refine ⟨x :: granted, tail, g', by rw [hspl]; rfl,
        .next (hgrant granted tail hspl) hscanned, ?_, ?_⟩
      · rw [hstep, hscan, append_assoc woken, ← filter_append]
        simp
      · simpa using hstands
    rcases hrest x (by simp) with hx | hx | hx
    · refine hgo x.mode woken (by rw [grant_of_granted hx]) (by simp [hx]) (fun _ _ _ => .inl hx) ?_
      rw [grant_of_granted hx]
      simp [scan, hx]
    · by_cases hcompat : convertCompatible (passed ++ x :: rest) x = true
      · refine hgo x.convertMode (woken ++ [x]) (grant_mode_of_converting hx) (by simp [hx]) ?_ ?_
        · rintro granted tail rfl
          exact .inr (.inl ⟨hx, convertCompatible_iff.1 hcompat⟩)
        · simp [scan, hx, hcompat]
      · obtain ⟨g', hscan, hstands⟩ := scan_convertWaiting (passed ++ [x]) g true woken rest htail
        refine ⟨[], x :: rest, g', rfl, .stop (.inl ⟨hx, ?_⟩), ?_, ?_⟩
        · rw [convertCompatible_iff] at hcompat
          push Not at hcompat
          obtain ⟨y, hy, hgranted, htr, hconf⟩ := hcompat
          exact ⟨y, hy, hgranted, htr, by simpa using hconf⟩
        · simp [scan, hx, hcompat, hscan]
        · simpa [counted, hx] using hstands passed hg
    · by_cases hcompat : lockCompat x.mode g = true
      · refine hgo x.mode (woken ++ [x]) (grant_mode_of_waiting hx) (by simp [hx]) ?_ ?_
        · intro _ _ _
          exact .inr (.inr ⟨hx, (hg x.mode).1 hcompat⟩)
        · simp [scan, hx, hcompat]
      · refine ⟨[], x :: rest, g, rfl, .stop (.inr ⟨hx, ?_⟩), ?_, ?_⟩
        · rw [hg x.mode] at hcompat
          push Not at hcompat
          obtain ⟨y, hy, hconf⟩ := hcompat
          exact ⟨y, hy, by simpa using hconf⟩
        · simp [scan, hx, hcompat]
        · simpa [counted, hx] using hg

theorem Scanned.stops {passed granted tail : List LockRequest} {rest : List LockRequest}
    (h : Scanned passed granted tail) (htail : tail = x :: rest) :
    Stops (passed ++ granted.map grant) x rest := by
  induction h with
  | done => cases htail
  | stop h =>
    cases htail
    simpa using h
  | next _ _ ih => simpa using ih htail

theorem map_grant_granted (h : ∀ x ∈ queue, KnownStatus x) :
    ∀ y ∈ queue.map grant, y.status = .lockGranted := by
  intro y hy
  obtain ⟨x, hx, rfl⟩ := mem_map.1 hy
  exact grant_status (h x hx)

theorem find?_grant_append {tail : List LockRequest} {status : LockStatus}
    (h : ∀ x ∈ queue, KnownStatus x) (hst : status ≠ .lockGranted) :
    (queue.map grant ++ tail).find? (fun y => y.status = status) =
      tail.find? (fun y => y.status = status) := by
  rw [find?_append, find?_eq_none.2, Option.none_or]
  intro y hy
  rw [map_grant_granted h y hy]
  simpa using hst.symm

/-- The part of the invariant that a queue keeps when requests leave it. -/
structure QueueShape (queue : List LockRequest) : Prop where
  distinct : queue.Pairwise fun x y => x.trId ≠ y.trId
  status : ∀ x ∈ queue, KnownStatus x
  ordered : queue.Pairwise fun x y => x.status = .lockWaiting → y.status = .lockWaiting
  target : ∀ x ∈ queue, x.status = .lockConverting → Covers x.convertMode x.mode

theorem QueueInv.shape (h : QueueInv head) : QueueShape head.queue :=
  ⟨h.distinct, h.status, h.ordered, h.target⟩

theorem QueueShape.sublist {queue' : List LockRequest} (h : QueueShape queue)
    (hsub : queue'.Sublist queue) : QueueShape queue' :=
  ⟨h.distinct.sublist hsub, fun x hx => h.status x (hsub.subset hx), h.ordered.sublist hsub,
    fun x hx => h.target x (hsub.subset hx)⟩

theorem QueueShape.scanned {granted tail : List LockRequest} {g : LockMode}
    (h : QueueShape (granted ++ tail)) (hne : granted ++ tail ≠ [])
    (hscanned : Scanned [] granted tail) (hstands : tail = [] → Stands g (granted.map grant)) :
    QueueInv ⟨granted.map grant ++ tail, g, !tail.isEmpty⟩ := by
  have hknown : ∀ x ∈ granted, KnownStatus x := fun x hx => h.status x (by simp [hx])
  have hgrant := map_grant_granted hknown
  have hdist : (granted.map grant ++ tail).Pairwise fun x y => x.trId ≠ y.trId := by
    have hsame : (granted.map grant ++ tail).map LockRequest.trId =
        (granted ++ tail).map LockRequest.trId := by
      simp [grant_trId]
    have hmap := pairwise_map.2 h.distinct
    rw [← hsame] at hmap
    exact pairwise_map.1 hmap
  have htailOrdered := (pairwise_append.1 h.ordered).2.1
  -- the first request left waiting is one the scan stopped at
  have hstops : ∀ x rest, tail = x :: rest → Stops (granted.map grant) x rest := by
    intro x rest htail
    simpa using hscanned.stops htail
  refine ⟨?_, hdist, ?_, ?_, ?_, ?_, ?_, ?_, ?_⟩
  · simpa using hne
  · exact forall_mem_append.2
      ⟨fun x hx => .inl (hgrant x hx), fun x hx => h.status x (by simp [hx])⟩
  · exact ordered_granted hgrant htailOrdered
  · exact forall_mem_append.2
      ⟨fun x hx => by simp [hgrant x hx], fun x hx => h.target x (by simp [hx])⟩
  · cases htail : tail with
    | nil => simpa using hgrant
    | cons x rest =>
      simp only [isEmpty_cons, Bool.not_false, true_iff]
      refine ⟨x, by simp, ?_⟩
      rcases hstops x rest htail with ⟨hx, -⟩ | ⟨hx, -⟩ <;> simp [hx]
  · intro hflag
    have htail : tail = [] := by simpa using hflag
    subst htail
    simpa [Stands] using hstands rfl
  · intro y hy
    rw [find?_grant_append hknown (by simp)] at hy
    cases htail : tail with
    | nil =>
      rw [htail] at hy
      cases hy
    | cons x rest =>
      rw [htail] at hy htailOrdered
      rcases hstops x rest htail with ⟨hx, z, hz, hzg, hne, hconf⟩ | ⟨hx, -⟩
      · obtain rfl : x = y := by simpa [hx] using hy
        exact ⟨z, hz, hne, held_iff.2 (.inl hzg), hconf⟩
      · have hyc := find?_some hy
        simp [waiting_of_head htailOrdered hx y (mem_of_find?_eq_some hy)] at hyc
  · intro y hy hnone
    rw [find?_grant_append hknown (by simp)] at hy
    cases htail : tail with
    | nil =>
      rw [htail] at hy
      cases hy
    | cons x rest =>
      rw [htail] at hy hnone hdist
      rcases hstops x rest htail with ⟨hx, -⟩ | ⟨hx, z, hz, hconf⟩
      · exact absurd hx (hnone x (by simp))
      · obtain rfl : x = y := by simpa [hx] using hy
        refine ⟨z, by simp [hz], ?_, held_iff.2 (.inl (hgrant z hz)), hconf⟩
        exact (pairwise_append.1 hdist).2.2 z hz x (by simp)

end Sedna.LockManager.Queue
