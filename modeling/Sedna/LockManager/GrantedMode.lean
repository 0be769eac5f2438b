import Sedna.Library.Lists
import Sedna.LockManager.Exclusion

/-!
# The granted mode

`granted_mode` is to be the maximum of the modes held in the queue.  The scan
of `unlock` leaves out what the first conversion that has to wait still holds,
so the mode comes out too weak unless the other holders make up for it.
-/

namespace Sedna.LockManager.GrantedMode

open Library.Lists Modes Table Queue Steps Wakeup Exclusion List LockRequest AllHeads

def heldMode (queue : List LockRequest) : LockMode :=
  ((queue.filter LockRequest.held).map LockRequest.mode).foldr lockMax .nullLock

def ExactHead (head : LockHead) : Prop := head.grantedMode = heldMode head.queue

def Exact (s : LockTable) : Prop := ∀ rId head, s.heads rId = some head → ExactHead head

/-- Going through the conversions in queue order: whatever is compatible with
all the other holders is compatible with what the first one holds that cannot
be granted. -/
def StopCounted : List LockMode → List LockRequest → Prop
  | _, [] => True
  | granted, x :: rest =>
    if ∀ m ∈ granted, lockCompat x.convertMode m = true then
      StopCounted (x.convertMode :: granted) rest
    else ∀ m, (∀ m' ∈ granted ++ rest.map LockRequest.mode, lockCompat m m' = true) →
      lockCompat m x.mode = true

def UnlockCounted (s : LockTable) (trId : TransactionId) (rId : ResourceId) : Prop :=
  LeavesBehind (fun others => StopCounted (grantedModes others) (converters others)) s trId rId

def unlocksCounted (s : LockTable) : Call → Prop
  | .lock _ _ _ _ => True
  | .unlock trId rId => UnlockCounted s trId rId
  | .releaseTrLocks trId => ∀ rId, UnlockCounted s trId rId

/-! ## Modes and the requests they stand for -/

variable {x : LockRequest} {queue rest passed : List LockRequest} {s s' : LockTable}
  {rId : ResourceId} {head : LockHead} {g g' : LockMode}

theorem eq_of_lockCompat (h : ∀ m, lockCompat m g = lockCompat m g') : g = g' := by
  have hIS := h .lmIS
  have hIX := h .lmIX
  have hS := h .lmS
  have hX := h .lmX
  cases g <;> cases g' <;> simp_all [lockCompat]

theorem stands_foldr (queue : List LockRequest) :
    Stands ((queue.map mode).foldr lockMax .nullLock) queue := by
  induction queue with
  | nil => exact stands_nullLock
  | cons x queue ih =>
    intro m
    rw [map_cons, foldr_cons, lockCompat_lockMax, Bool.and_eq_true, ih m, forall_mem_cons]

theorem exactHead_iff : ExactHead head ↔ ∀ m, lockCompat m head.grantedMode = true ↔
    ∀ y ∈ head.queue, y.held = true → lockCompat m y.mode = true := by
  have hheld : ∀ m, lockCompat m (heldMode head.queue) = true ↔
      ∀ y ∈ head.queue, y.held = true → lockCompat m y.mode = true := by
    intro m
    rw [heldMode, stands_foldr _ m]
    simp
  constructor
  · intro h m
    rw [h]
    exact hheld m
  · intro h
    apply eq_of_lockCompat
    intro m
    rw [Bool.eq_iff_iff, h m, hheld m]

/-! ## The scan -/

theorem takeWhile_eq_filter_held (hst : ∀ y ∈ queue, KnownStatus y)
    (hord : queue.Pairwise fun x y => x.status = .lockWaiting → y.status = .lockWaiting) :
    (queue.takeWhile fun y => y.status ≠ .lockWaiting) = queue.filter held := by
  have hheld : ∀ y ∈ queue, held y = decide (y.status ≠ .lockWaiting) := by
    intro y hy
    rcases hst y hy with hs | hs | hs <;> simp [hs, held]
  rw [filter_congr hheld]
  exact takeWhile_eq_filter (hord.imp fun h => by simpa using mt h)

theorem counted_held (hst : ∀ y ∈ queue, KnownStatus y) :
    ∀ y ∈ counted queue, y ∈ queue ∧ y.held = true := by
  intro y hy
  cases queue with
  | nil => cases hy
  | cons x rest =>
    rw [counted] at hy
    split at hy
    · have hmem : y ∈ x :: rest := mem_cons_of_mem x ((takeWhile_sublist _).subset hy)
      have hwait := all_eq_true.1 all_takeWhile y hy
      refine ⟨hmem, held_iff.2 ?_⟩
      rcases hst y hmem with hs | hs | hs
      · exact .inl hs
      · exact .inr hs
      · simp [hs] at hwait
    · cases hy

/-- Compatibility with a list of requests is enough for compatibility with the
holders of a queue. -/
def Suffices (counted queue : List LockRequest) : Prop :=
  ∀ m, (∀ y ∈ counted, lockCompat m y.mode = true) →
    ∀ y ∈ queue, y.held = true → lockCompat m y.mode = true

theorem stopCounted_congr {g g' : List LockMode} (h : ∀ m, m ∈ g ↔ m ∈ g')
    (queue : List LockRequest) : StopCounted g queue ↔ StopCounted g' queue := by
  induction queue generalizing g g' with
  | nil => exact Iff.rfl
  | cons x queue ih =>
    have hcons : ∀ m, m ∈ x.convertMode :: g ↔ m ∈ x.convertMode :: g' := by simp [h]
    simp only [StopCounted, mem_append, h, ih hcons]

theorem stop_suffices_iff (hx : x.status = .lockConverting)
    (hshape : QueueShape (passed ++ x :: rest)) (hpassed : ∀ y ∈ passed, y.status = .lockGranted) :
    Suffices (passed ++ counted (x :: rest)) (passed ++ x :: rest) ↔
      ∀ m, (∀ m' ∈ grantedModes (passed ++ x :: rest) ++ (converters rest).map mode,
        lockCompat m m' = true) → lockCompat m x.mode = true := by
  have hrest := pairwise_cons.1 (pairwise_append.1 hshape.ordered).2.1
  have hcnt : counted (x :: rest) = rest.filter held := by
    rw [counted, if_pos hx, takeWhile_eq_filter_held (fun y hy => hshape.status y (by simp [hy]))
      hrest.2]
  refine forall_congr' fun m => ?_
  -- the modes the condition speaks of are those of the requests counted
  have hmodes : (∀ y ∈ passed ++ counted (x :: rest), lockCompat m y.mode = true) ↔
      ∀ m' ∈ grantedModes (passed ++ x :: rest) ++ (converters rest).map mode,
        lockCompat m m' = true := by
    have hfst : (∀ y ∈ passed, lockCompat m y.mode = true) ↔
        ∀ y ∈ passed, y.status = .lockGranted → lockCompat m y.mode = true :=
      forall₂_congr fun y hy => by simp [hpassed y hy]
    rw [hcnt, forall_mem_append, hfst, forall_mem_append, grantedModes, forall_mem_map,
      forall_mem_map]
    simp [converters, hx, held_iff, or_imp, forall_and, and_assoc]
  rw [← hmodes, hcnt]
  refine forall_congr' fun h => ?_
  constructor
  · intro hall
    exact hall x (by simp) (held_iff.2 (.inr hx))
  · intro hmode y hy hheld
    rcases mem_append.1 hy with hy | hy
    · exact h y (by simp [hy])
    · rcases mem_cons.1 hy with rfl | hy
      · exact hmode
      · exact h y (by simp [hy, hheld])

theorem Scanned.suffices_iff {granted tail : List LockRequest} (h : Scanned passed granted tail)
    (hshape : QueueShape (passed ++ granted ++ tail))
    (hpassed : ∀ y ∈ passed, y.status = .lockGranted) :
    Suffices (passed ++ granted.map grant ++ counted tail) (passed ++ granted.map grant ++ tail) ↔
      StopCounted (grantedModes (passed ++ granted ++ tail)) (converters (granted ++ tail)) := by
  induction h with
  | done passed =>
    refine iff_of_true (fun m hm y hy _ => hm y ?_) trivial
    simpa [counted] using hy
  | @stop passed rest x hstop =>
    simp only [append_nil, nil_append, map_nil] at hshape ⊢
    rcases hstop with ⟨hx, y, hy, hst, -, hconf⟩ | ⟨hx, -⟩
    · have hblk : ¬ ∀ m ∈ grantedModes (passed ++ x :: rest),
          lockCompat x.convertMode m = true := by
        intro hmodes
        rw [hmodes y.mode (mem_grantedModes.2 ⟨y, hy, hst, rfl⟩)] at hconf
        cases hconf
      rw [converters_cons_converting hx, StopCounted, if_neg hblk]
      exact stop_suffices_iff hx hshape hpassed
    · have hord := (pairwise_append.1 hshape.ordered).2.1
      rw [converters_of_waiting hord hx]
      refine iff_of_true (fun m hm y hy hheld => ?_) trivial
      rcases mem_append.1 hy with hy | hy
      · exact hm y (by simp [hy])
      · rw [held, waiting_of_head hord hx y hy] at hheld
        cases hheld
  | @next passed granted tail x hgrant _ ih =>
    simp only [append_assoc, cons_append, map_cons] at hshape ⊢
    obtain ⟨hshape', hpassed'⟩ := QueueShape.grant_next hshape hpassed
    have hrest := ih (by simpa using hshape') hpassed'
    simp only [append_assoc, cons_append, nil_append] at hrest
    rw [hrest]
    rcases hshape.status x (by simp) with hx | hx | hx
    · rw [converters_cons_granted hx, grant_of_granted hx]
    · have hgranted := grant_status (.inr (.inl hx))
      have hmem := @mem_grantedModes_grant x (granted ++ tail) passed (by simp [hx]) hgranted
      rw [converters_cons_converting hx, StopCounted, if_pos (Grantable.modes hgrant hshape hx),
        ← grant_mode_of_converting hx]
      exact stopCounted_congr (by simpa using hmem) _
    · have hnone := converters_of_waiting (pairwise_append.1 hshape.ordered).2.1 hx
      have hconv : converters (granted ++ tail) = [] := by simpa [converters, hx] using hnone
      rw [hnone, hconv]
      exact Iff.rfl

theorem Rescanned.exact_iff {head' : LockHead} {own : LockRequest}
    {woken granted tail : List LockRequest} (h : Rescanned head own head' woken granted tail) :
    ExactHead head' ↔
      StopCounted (grantedModes (granted ++ tail)) (converters (granted ++ tail)) := by
  have hiff := Scanned.suffices_iff h.scanned h.shape (by simp)
  simp only [nil_append] at hiff
  rw [exactHead_iff, ← hiff, h.queue]
  have hholders : ∀ y ∈ granted.map grant ++ counted tail,
      y ∈ granted.map grant ++ tail ∧ y.held = true := by
    intro y hy
    rcases mem_append.1 hy with hy | hy
    · have hst := map_grant_granted (fun z hz => h.shape.status z (by simp [hz])) y hy
      exact ⟨by simp [hy], held_iff.2 (.inl hst)⟩
    · obtain ⟨hmem, hheld⟩ := counted_held (fun z hz => h.shape.status z (by simp [hz])) y hy
      exact ⟨by simp [hmem], hheld⟩
  refine forall_congr' fun m => ?_
  rw [h.stands m]
  constructor
  · intro hiff
    exact hiff.1
  · intro hsuffices
    exact ⟨hsuffices, fun hall y hy => hall y (hholders y hy).1 (hholders y hy).2⟩

/-! ## The table -/

theorem locked_exact {trId : TransactionId} {sId : SessionId} {mode : LockMode}
    {reply : LockReply} (hs : Exact s) (hwait : ¬ IsWaiting s trId)
    (h : Locked s trId sId rId mode s' reply) : Exact s' := by
  cases h with
  | free hhd hnew =>
    obtain ⟨rfl, hheads, -⟩ := newRequest_spec hnew
    refine setHead hs hheads (exactHead_iff.2 fun m => ?_)
    simp [held, freshRequest]
  | @granted s1 x head hhd hfr hnew hwaiting hcompat =>
    obtain ⟨rfl, hheads, -⟩ := newRequest_spec hnew
    refine setHead hs hheads (exactHead_iff.2 fun m => ?_)
    rw [lockCompat_lockMax, Bool.and_eq_true, exactHead_iff.1 (hs rId head hhd) m, and_comm]
    simp only [forall_mem_append, forall_mem_singleton]
    simp [held, freshRequest]
  | @waits s1 x head hhd hfr hnew hrefused =>
    obtain ⟨rfl, hheads, -⟩ := newRequest_spec hnew
    refine (setHead hs hheads (exactHead_iff.2 fun m => ?_)).setWait
    rw [exactHead_iff.1 (hs rId head hhd) m]
    simp only [forall_mem_append, forall_mem_singleton]
    simp [held]
  | @converting head a b own hhd hqueue hown ha hblk =>
    have hgrant := granted_of_not_isWaiting hwait hhd (by rw [hqueue]; simp) hown
    refine (setHead hs rfl (exactHead_iff.2 fun m => ?_)).setWait
    rw [exactHead_iff.1 (hs rId head hhd) m, hqueue]
    simp only [forall_mem_append, forall_mem_cons]
    simp [held, toConverting, hgrant]
  | @converted head a b own hhd hqueue hown ha hfree =>
    have hgrant := granted_of_not_isWaiting hwait hhd (by rw [hqueue]; simp) hown
    refine setHead hs rfl (exactHead_iff.2 fun m => ?_)
    rw [lockCompat_lockMax, lockCompat_lockMax, Bool.and_eq_true,
      exactHead_iff.1 (hs rId head hhd) m, hqueue]
    simp only [forall_mem_append, forall_mem_cons]
    simp [held, toConverted, hgrant, lockCompat_lockMax]
    tauto

theorem unlocked_exact_iff {trId : TransactionId} (hinv : TableInv s) (hs : Exact s)
    (h : Unlocked s trId rId s') : Exact s' ↔ UnlockCounted s trId rId :=
  unlocked_allHeads_iff trivial (fun _ hscan => Rescanned.exact_iff hscan) hinv hs h

theorem reachable_exact (h : Reachable unlocksCounted s) : TableInv s ∧ Exact s :=
  reachable_allHeads
    (fun _ _ _ _ _ _ _ _ hs hwait hl => locked_exact hs hwait hl)
    (fun _ _ _ _ hinv hs hcnt hu => (unlocked_exact_iff hinv hs hu).2 hcnt)
    (fun _ _ _ hcnt => hcnt) (fun _ _ hcnt => hcnt) h

/-- The granted mode is the maximum of the modes held in every state reached by
unlocks that leave no conversion uncounted, and any other unlock makes it wrong. -/
theorem granted_mode_exact {s : LockTable} (h : Reachable unlocksCounted s) :
    (∀ rId head, s.heads rId = some head → head.grantedMode = heldMode head.queue) ∧
    ∀ trId rId s', unlock s trId rId = .ok s' → (Exact s' ↔ UnlockCounted s trId rId) := by
  obtain ⟨hinv, hs⟩ := reachable_exact h
  exact ⟨hs, fun trId rId s' hunl => unlocked_exact_iff hinv hs (unlock_inv hunl)⟩

theorem granted_mode_exact_two :
    ∃ s s', Reachable unlocksCounted s ∧ Exact s ∧ unlock s 3 document = .ok s' ∧
      UnlockCounted s 3 document ∧ Exact s' := by
  obtain ⟨s, s', hs, hhd, hunl, -⟩ := two_conversions
  have hreach : Reachable unlocksCounted s := checkedRun_reachable (by simp [unlocksCounted]) hs
  obtain ⟨hexact, hiff⟩ := granted_mode_exact hreach
  have hcnt : UnlockCounted s 3 document := by
    simp [UnlockCounted, LeavesBehind, hhd, grantedModes, converters, StopCounted, lockCompat]
  exact ⟨s, s', hreach, hexact, hunl, hcnt, (hiff 3 document s' hunl).2 hcnt⟩

/-- The first of three holders waits for the exclusive mode; the third leaves,
and the mode the first still holds is not counted. -/
theorem granted_mode_too_weak :
    ∃ s, Reachable anyCall s ∧ ∃ head, s.heads document = some head ∧
      head.grantedMode = .lmIS ∧ heldMode head.queue = .lmIX := by
  obtain ⟨s, hs, hhd⟩ : ∃ s, checkedRun [document] LockTable.init
      [.lock 1 1 document .lmIX, .lock 2 2 document .lmIS, .lock 3 3 document .lmIX,
        .lock 1 1 document .lmX, .unlock 3 document] = some s ∧
      s.heads document = some
        ⟨[⟨0, 1, 1, .lockConverting, .lmIX, .lmX⟩, ⟨1, 2, 2, .lockGranted, .lmIS, .nullLock⟩],
          .lmIS, true⟩ := ⟨_, rfl, rfl⟩
  exact ⟨s, checkedRun_reachable (fun _ _ _ => trivial) hs, _, hhd, rfl, rfl⟩

end Sedna.LockManager.GrantedMode
