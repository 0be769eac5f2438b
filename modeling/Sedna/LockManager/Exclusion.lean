import Sedna.LockManager.Wakeup

/-!
# Mutual exclusion

`unlock` compares the target of a conversion with the granted requests only,
while a converting request still holds its old mode.  Held modes stay
compatible exactly as long as no unlock meets a conversion for which that
makes a difference.
-/

namespace Sedna.LockManager.Exclusion

open Modes Table Queue Steps Wakeup List AllHeads

def ExclusiveQueue (queue : List LockRequest) : Prop :=
  ∀ x ∈ queue, ∀ y ∈ queue, x.trId ≠ y.trId → x.held = true → y.held = true →
    lockCompat x.mode y.mode = true

/-- Modes held on a resource by different transactions are compatible. -/
def Exclusive (s : LockTable) : Prop :=
  ∀ rId head, s.heads rId = some head → ExclusiveQueue head.queue

/-- Going through the conversions in queue order: one that is compatible with
the granted modes is also compatible with what the conversions after it hold. -/
def ConvertersSafe : List LockMode → List LockRequest → Prop
  | _, [] => True
  | granted, x :: rest =>
    (∀ m ∈ granted, lockCompat x.convertMode m = true) →
      (∀ y ∈ rest, lockCompat x.convertMode y.mode = true) ∧
      ConvertersSafe (x.convertMode :: granted) rest

def grantedModes (queue : List LockRequest) : List LockMode :=
  (queue.filter fun x => x.status = .lockGranted).map LockRequest.mode

def converters (queue : List LockRequest) : List LockRequest :=
  queue.filter fun x => x.status = .lockConverting

/-- The conversions that a transaction leaves behind on a resource are safe. -/
def UnlockSafe (s : LockTable) (trId : TransactionId) (rId : ResourceId) : Prop :=
  ∀ head, s.heads rId = some head → (∃ x ∈ head.queue, x.trId = trId) →
    let others := head.queue.filter fun x => x.trId ≠ trId
    ConvertersSafe (grantedModes others) (converters others)

def unlocksSafe (s : LockTable) : Call → Prop
  | .lock _ _ _ _ => True
  | .unlock trId rId => UnlockSafe s trId rId
  | .releaseTrLocks trId => ∀ rId, UnlockSafe s trId rId

/-! ## Queues -/

variable {x : LockRequest} {queue rest passed : List LockRequest} {s s' : LockTable}
  {rId : ResourceId} {granted tail : List LockRequest}

theorem exclusiveQueue_replace {a b : List LockRequest} {x' : LockRequest}
    (h : ExclusiveQueue (a ++ x :: b)) (htr : x'.trId = x.trId)
    (hx : ∀ y ∈ a ++ b, y.trId ≠ x.trId → y.held = true → lockCompat x'.mode y.mode = true) :
    ExclusiveQueue (a ++ x' :: b) := by
  have hspl : ∀ y ∈ a ++ x' :: b, y = x' ∨ y ∈ a ++ b := by
    intro y hy
    simp only [mem_append, mem_cons] at hy ⊢
    tauto
  have hold : ∀ y ∈ a ++ b, y ∈ a ++ x :: b := by
    intro y hy
    simp only [mem_append, mem_cons] at hy ⊢
    tauto
  intro y hy z hz hne hyheld hzheld
  rcases hspl y hy with rfl | hy'
  · rcases hspl z hz with rfl | hz'
    · exact absurd rfl hne
    · exact hx z hz' (by rw [← htr]; exact hne.symm) hzheld
  · rcases hspl z hz with rfl | hz'
    · rw [lockCompat_comm]
      exact hx y hy' (by rw [← htr]; exact hne) hyheld
    · exact h y (hold y hy') z (hold z hz') hne hyheld hzheld

theorem exclusiveQueue_append (h : ExclusiveQueue queue)
    (hx : x.held = true → ∀ y ∈ queue, y.held = true → lockCompat x.mode y.mode = true) :
    ExclusiveQueue (queue ++ [x]) := by
  intro y hy z hz hne hyheld hzheld
  rcases mem_append.1 hy with hy | hy
  · rcases mem_append.1 hz with hz | hz
    · exact h y hy z hz hne hyheld hzheld
    · rw [mem_singleton.1 hz] at hzheld ⊢
      rw [lockCompat_comm]
      exact hx hzheld y hy hyheld
  · rw [mem_singleton.1 hy] at hyheld hne ⊢
    rcases mem_append.1 hz with hz | hz
    · exact hx hyheld z hz hzheld
    · exact absurd (by rw [mem_singleton.1 hz]) hne

theorem ExclusiveQueue.sublist {queue' : List LockRequest} (h : ExclusiveQueue queue)
    (hsub : queue'.Sublist queue) : ExclusiveQueue queue' :=
  fun x hx y hy => h x (hsub.subset hx) y (hsub.subset hy)

theorem convertersSafe_congr {g g' : List LockMode} (h : ∀ m, m ∈ g ↔ m ∈ g')
    (queue : List LockRequest) : ConvertersSafe g queue ↔ ConvertersSafe g' queue := by
  induction queue generalizing g g' with
  | nil => exact Iff.rfl
  | cons x queue ih =>
    have hcons : ∀ m, m ∈ x.convertMode :: g ↔ m ∈ x.convertMode :: g' := by simp [h]
    simp only [ConvertersSafe, h, ih hcons]

theorem mem_grantedModes {m : LockMode} :
    m ∈ grantedModes queue ↔ ∃ x ∈ queue, x.status = .lockGranted ∧ x.mode = m := by
  simp [grantedModes, and_assoc]

theorem converters_of_waiting
    (h : (x :: rest).Pairwise fun x y => x.status = .lockWaiting → y.status = .lockWaiting)
    (hx : x.status = .lockWaiting) : converters (x :: rest) = [] := by
  refine filter_eq_nil_iff.2 ?_
  intro y hy
  simp [waiting_of_head h hx y hy]

theorem QueueShape.grant_next (h : QueueShape (passed ++ x :: rest))
    (hpassed : ∀ y ∈ passed, y.status = .lockGranted) :
    QueueShape (passed ++ [grant x] ++ rest) ∧
      ∀ y ∈ passed ++ [grant x], y.status = .lockGranted := by
  have hgrant : (grant x).status = .lockGranted := grant_status (h.status x (by simp))
  have hall : ∀ y ∈ passed ++ [grant x], y.status = .lockGranted :=
    forall_mem_append.2 ⟨hpassed, by simpa using hgrant⟩
  refine ⟨⟨?_, ?_, ?_, ?_⟩, hall⟩
  · rw [append_assoc]
    exact distinct_replace h.distinct (grant_trId x)
  · exact forall_mem_append.2
      ⟨fun y hy => .inl (hall y hy), fun y hy => h.status y (by simp [hy])⟩
  · exact ordered_granted hall (pairwise_cons.1 (pairwise_append.1 h.ordered).2.1).2
  · exact forall_mem_append.2
      ⟨fun y hy => by simp [hall y hy], fun y hy => h.target y (by simp [hy])⟩

theorem mem_grantedModes_grant (hx : x.status ≠ .lockGranted)
    (hgrant : (grant x).status = .lockGranted) (m : LockMode) :
    m ∈ grantedModes (passed ++ [grant x] ++ rest) ↔
      m ∈ (grant x).mode :: grantedModes (passed ++ x :: rest) := by
  simp only [mem_grantedModes, mem_cons, mem_append, not_mem_nil, or_false]
  simp only [or_and_right, exists_or, exists_eq_left, hgrant, hx, false_and, true_and, false_or]
  rw [@eq_comm _ m, or_assoc, or_left_comm]

theorem converters_cons_converting (hx : x.status = .lockConverting) (rest : List LockRequest) :
    converters (x :: rest) = x :: converters rest := by
  simp [converters, hx]

theorem converters_cons_granted (hx : x.status = .lockGranted) (rest : List LockRequest) :
    converters (x :: rest) = converters rest := by
  simp [converters, hx]

theorem mem_converters : x ∈ converters queue ↔ x ∈ queue ∧ x.status = .lockConverting := by
  simp [converters]

theorem Grantable.modes (h : Grantable passed x rest) (hshape : QueueShape (passed ++ x :: rest))
    (hx : x.status = .lockConverting) :
    ∀ m ∈ grantedModes (passed ++ x :: rest), lockCompat x.convertMode m = true := by
  intro m hm
  obtain ⟨y, hy, hst, rfl⟩ := mem_grantedModes.1 hm
  have hne : y.trId ≠ x.trId := by
    rcases mem_append.1 hy with hy | hy
    · exact (pairwise_append.1 hshape.distinct).2.2 y hy x (by simp)
    · rcases mem_cons.1 hy with rfl | hy
      · rw [hx] at hst
        cases hst
      · have hpair := (pairwise_append.1 hshape.distinct).2.1
        exact ((pairwise_cons.1 hpair).1 y hy).symm
  rcases h with hg | ⟨-, hcompat⟩ | ⟨hw, -⟩
  · rw [hg] at hx
    cases hx
  · exact hcompat y hy hst hne
  · rw [hw] at hx
    cases hx

theorem Scanned.exclusiveQueue (h : Scanned passed granted tail)
    (hshape : QueueShape (passed ++ granted ++ tail))
    (hpassed : ∀ y ∈ passed, y.status = .lockGranted)
    (hexcl : ExclusiveQueue (passed ++ granted ++ tail))
    (hsafe : ConvertersSafe (grantedModes (passed ++ granted ++ tail))
      (converters (granted ++ tail))) : ExclusiveQueue (passed ++ granted.map grant ++ tail) := by
  induction h with
  | done => simpa using hexcl
  | stop => simpa using hexcl
  | @next passed granted tail x hgrant _ ih =>
    simp only [append_assoc, cons_append] at hshape hexcl hsafe
    obtain ⟨hshape', hpassed'⟩ := QueueShape.grant_next hshape hpassed
    have hgoal : passed ++ (x :: granted).map grant ++ tail =
        passed ++ [grant x] ++ granted.map grant ++ tail := by simp
    rw [hgoal]
    -- the queue with `x` granted, and what is left to scan
    have hstep : ExclusiveQueue (passed ++ grant x :: (granted ++ tail)) →
        ConvertersSafe (grantedModes (passed ++ [grant x] ++ (granted ++ tail)))
          (converters (granted ++ tail)) →
        ExclusiveQueue (passed ++ [grant x] ++ granted.map grant ++ tail) := by
      intro hexcl' hsafe'
      refine ih (by simpa using hshape') hpassed' (by simpa using hexcl') ?_
      simpa using hsafe'
    rcases hshape.status x (by simp) with hx | hx | hx
    · rw [grant_of_granted hx] at hstep ⊢
      rw [converters_cons_granted hx] at hsafe
      exact hstep hexcl (by simpa using hsafe)
    · have hmodes := Grantable.modes hgrant hshape hx
      rw [converters_cons_converting hx] at hsafe
      obtain ⟨hlater, hrest⟩ := hsafe hmodes
      refine hstep ?_ ?_
      · refine exclusiveQueue_replace hexcl (grant_trId x) ?_
        intro y hy _ hheld
        rw [grant_mode_of_converting hx]
        rcases held_iff.1 hheld with hst | hst
        · refine hmodes y.mode (mem_grantedModes.2 ⟨y, ?_, hst, rfl⟩)
          simp only [mem_append, mem_cons] at hy ⊢
          tauto
        · refine hlater y (mem_converters.2 ⟨?_, hst⟩)
          rcases mem_append.1 hy with hy | hy
          · rw [hpassed y hy] at hst
            cases hst
          · exact hy
      · rw [convertersSafe_congr (mem_grantedModes_grant (by simp [hx])
          (grant_status (.inr (.inl hx)))), grant_mode_of_converting hx]
        exact hrest
    · have hord := (pairwise_append.1 hshape.ordered).2.1
      have hnone := converters_of_waiting hord hx
      have hconv : converters (granted ++ tail) = [] := by simpa [converters, hx] using hnone
      refine hstep ?_ (by rw [hconv]; trivial)
      refine exclusiveQueue_replace hexcl (grant_trId x) ?_
      intro y hy _ hheld
      rw [grant_mode_of_waiting hx]
      rcases mem_append.1 hy with hy | hy
      · rcases hgrant with hg | ⟨hc, -⟩ | ⟨-, hcompat⟩
        · rw [hg] at hx
          cases hx
        · rw [hc] at hx
          cases hx
        · exact hcompat y hy
      · rw [LockRequest.held, (pairwise_cons.1 hord).1 y hy hx] at hheld
        cases hheld

theorem Scanned.convertersSafe (h : Scanned passed granted tail)
    (hshape : QueueShape (passed ++ granted ++ tail))
    (hpassed : ∀ y ∈ passed, y.status = .lockGranted)
    (hexcl : ExclusiveQueue (passed ++ granted.map grant ++ tail)) :
    ConvertersSafe (grantedModes (passed ++ granted ++ tail)) (converters (granted ++ tail)) := by
  induction h with
  | done => trivial
  | @stop passed rest x hstop =>
    simp only [append_nil, nil_append] at hshape ⊢
    rcases hstop with ⟨hx, y, hy, hst, -, hconf⟩ | ⟨hx, -⟩
    · rw [converters_cons_converting hx]
      intro hmodes
      rw [hmodes y.mode (mem_grantedModes.2 ⟨y, hy, hst, rfl⟩)] at hconf
      cases hconf
    · rw [converters_of_waiting (pairwise_append.1 hshape.ordered).2.1 hx]
      trivial
  | @next passed granted tail x hgrant _ ih =>
    simp only [append_assoc, cons_append, map_cons] at hshape hexcl ⊢
    obtain ⟨hshape', hpassed'⟩ := QueueShape.grant_next hshape hpassed
    have hrest := ih (by simpa using hshape') hpassed' (by simpa using hexcl)
    rw [append_assoc] at hrest
    rcases hshape.status x (by simp) with hx | hx | hx
    · rw [converters_cons_granted hx]
      simpa [grant_of_granted hx] using hrest
    · have hgx : (grant x).status = .lockGranted := grant_status (.inr (.inl hx))
      rw [converters_cons_converting hx]
      intro _
      refine ⟨?_, ?_⟩
      · intro y hy
        obtain ⟨hy, hst⟩ := mem_converters.1 hy
        have hpair := (pairwise_append.1 hshape.distinct).2.1
        have hne : x.trId ≠ y.trId := (pairwise_cons.1 hpair).1 y hy
        have hgrantedMode := grant_mode_of_converting hx
        rcases mem_append.1 hy with hyg | hyt
        · -- `y` is granted too, against the target of `x`
          have hcompat := hexcl (grant x) (by simp) (grant y)
            (by simp only [mem_append, mem_cons, mem_map]
                exact .inr (.inr (.inl ⟨y, hyg, rfl⟩)))
            (by rw [grant_trId, grant_trId]; exact hne) (held_iff.2 (.inl hgx))
            (held_iff.2 (.inl (grant_status (.inr (.inl hst)))))
          rw [hgrantedMode, grant_mode_of_converting hst] at hcompat
          exact hshape.target y (by simp [hyg]) hst _ hcompat
        · have hcompat := hexcl (grant x) (by simp) y (by simp [hyt])
            (by rw [grant_trId]; exact hne) (held_iff.2 (.inl hgx))
            (held_iff.2 (.inr hst))
          rw [hgrantedMode] at hcompat
          exact hcompat
      · rw [← grant_mode_of_converting hx,
          ← convertersSafe_congr (mem_grantedModes_grant (by simp [hx]) hgx)]
        exact hrest
    · rw [converters_of_waiting (pairwise_append.1 hshape.ordered).2.1 hx]
      trivial

/-! ## The table -/

theorem locked_exclusive {trId : TransactionId} {sId : SessionId} {mode : LockMode}
    {reply : LockReply} (hinv : TableInv s) (hs : Exclusive s) (hwait : ¬ IsWaiting s trId)
    (h : Locked s trId sId rId mode s' reply) : Exclusive s' := by
  cases h with
  | free hhd hnew =>
    refine setHead hs (newRequest_spec hnew).2.1 fun x hx y hy hne => ?_
    rw [mem_singleton.1 hx, mem_singleton.1 hy] at hne
    exact absurd rfl hne
  | @granted s1 x head hhd hfr hnew hwaiting hcompat =>
    refine setHead hs (newRequest_spec hnew).2.1 ?_
    refine exclusiveQueue_append (hs rId head hhd) fun _ y hy _ => ?_
    rw [(newRequest_spec hnew).1]
    exact ((hinv rId head hhd).covered hwaiting mode).1 hcompat y hy
  | @waits s1 x head hhd hfr hnew hrefused =>
    refine (setHead hs (newRequest_spec hnew).2.1 ?_).setWait
    exact exclusiveQueue_append (hs rId head hhd) fun hheld => by cases hheld
  | @converting head a b own hhd hqueue hown ha hblk =>
    refine (setHead hs rfl ?_).setWait
    have hexcl := hs rId head hhd
    rw [hqueue] at hexcl
    refine exclusiveQueue_replace hexcl rfl fun y hy hne hheld => ?_
    have hownGranted := granted_of_not_isWaiting hwait hhd (by rw [hqueue]; simp) hown
    refine hexcl own (by simp) y ?_ hne.symm (held_iff.2 (.inl hownGranted)) hheld
    simp only [mem_append, mem_cons] at hy ⊢
    tauto
  | @converted head a b own hhd hqueue hown ha hfree =>
    refine setHead hs rfl ?_
    have hexcl := hs rId head hhd
    rw [hqueue] at hexcl
    refine exclusiveQueue_replace hexcl rfl fun y hy hne hheld => ?_
    by_contra hconf
    refine hfree ⟨y, ?_, hne, hheld, Bool.eq_false_iff.2 hconf⟩
    rw [hqueue]
    simp only [mem_append, mem_cons] at hy ⊢
    tauto

theorem Rescanned.exclusive_iff {head head' : LockHead} {own : LockRequest}
    {woken : List LockRequest} (hs : ExclusiveQueue head.queue)
    (h : Rescanned head own head' woken granted tail) :
    ExclusiveQueue head'.queue ↔
      ConvertersSafe (grantedModes (granted ++ tail)) (converters (granted ++ tail)) := by
  have hexcl : ExclusiveQueue (granted ++ tail) := by
    rw [← h.others]
    exact hs.sublist filter_sublist
  rw [h.queue]
  constructor
  · exact Scanned.convertersSafe h.scanned h.shape (by simp)
  · exact Scanned.exclusiveQueue h.scanned h.shape (by simp) hexcl

theorem unlocked_exclusive_iff {trId : TransactionId} (hinv : TableInv s) (hs : Exclusive s)
    (h : Unlocked s trId rId s') : Exclusive s' ↔ UnlockSafe s trId rId :=
  unlocked_allHeads_iff
    (P := fun queue => ConvertersSafe (grantedModes queue) (converters queue)) trivial
    Rescanned.exclusive_iff hinv hs h

theorem reachable_exclusive (h : Reachable unlocksSafe s) : TableInv s ∧ Exclusive s :=
  reachable_allHeads
    (P := fun queue => ConvertersSafe (grantedModes queue) (converters queue))
    (fun _ _ _ _ _ _ _ hinv hs hwait hl => locked_exclusive hinv hs hwait hl)
    (fun _ _ _ _ hinv hs hsafe hu => (unlocked_exclusive_iff hinv hs hu).2 hsafe)
    (fun _ _ _ hsafe => hsafe) (fun _ _ hsafe => hsafe) h

/-- Held modes are compatible in every state reached by calls that leave only
safe conversions behind, and any other unlock makes them incompatible. -/
theorem lock_exclusion {s : LockTable} (h : Reachable unlocksSafe s) :
    (∀ rId head, s.heads rId = some head → ∀ x ∈ head.queue, ∀ y ∈ head.queue,
      x.trId ≠ y.trId → x.held = true → y.held = true → lockCompat x.mode y.mode = true) ∧
    ∀ trId rId s', unlock s trId rId = .ok s' → (Exclusive s' ↔ UnlockSafe s trId rId) := by
  obtain ⟨hinv, hs⟩ := reachable_exclusive h
  exact ⟨hs, fun trId rId s' hunl => unlocked_exclusive_iff hinv hs (unlock_inv hunl)⟩

def document : ResourceId := ⟨"doc", .lmDocument⟩

/-- Two of three holders wait for a stronger mode, and get it when the third leaves. -/
theorem two_conversions : ∃ s s', checkedRun [document] LockTable.init
    [.lock 1 1 document .lmIS, .lock 2 2 document .lmIS, .lock 3 3 document .lmS,
      .lock 1 1 document .lmIX, .lock 2 2 document .lmIX] = some s ∧
    s.heads document = some
      ⟨[⟨0, 1, 1, .lockConverting, .lmIS, .lmIX⟩, ⟨1, 2, 2, .lockConverting, .lmIS, .lmIX⟩,
        ⟨2, 3, 3, .lockGranted, .lmS, .nullLock⟩], .lmS, true⟩ ∧
    unlock s 3 document = .ok s' ∧
    s'.heads document = some
      ⟨[⟨0, 1, 1, .lockGranted, .lmIX, .nullLock⟩, ⟨1, 2, 2, .lockGranted, .lmIX, .nullLock⟩],
        .lmIX, false⟩ :=
  ⟨_, _, rfl, rfl, rfl, rfl⟩

theorem lock_exclusion_two :
    ∃ s s', Reachable unlocksSafe s ∧ Exclusive s ∧ unlock s 3 document = .ok s' ∧
      UnlockSafe s 3 document ∧ Exclusive s' := by
  obtain ⟨s, s', hs, hhd, hunl, -⟩ := two_conversions
  have hreach : Reachable unlocksSafe s := checkedRun_reachable (by simp [unlocksSafe]) hs
  obtain ⟨hexcl, hiff⟩ := lock_exclusion hreach
  have hsafe : UnlockSafe s 3 document := by
    simp [UnlockSafe, hhd, grantedModes, converters, ConvertersSafe, lockCompat]
  exact ⟨s, s', hreach, hexcl, hunl, hsafe, (hiff 3 document s' hunl).2 hsafe⟩

/-- Two of three holders ask for stronger modes and wait; the third leaves.
The first gets the exclusive mode while the second still holds its own. -/
theorem exclusion_fails :
    ∃ s, Reachable anyCall s ∧ ∃ head x y, s.heads document = some head ∧ x ∈ head.queue ∧
      y ∈ head.queue ∧ x.trId = 1 ∧ y.trId = 2 ∧ x.held = true ∧ y.held = true ∧
      x.mode = .lmX ∧ y.mode = .lmIS ∧ lockCompat x.mode y.mode = false := by
  obtain ⟨s, hs, hhd⟩ : ∃ s, checkedRun [document] LockTable.init
      [.lock 1 1 document .lmIS, .lock 2 2 document .lmIS, .lock 3 3 document .lmS,
        .lock 1 1 document .lmX, .lock 2 2 document .lmIX, .unlock 3 document] = some s ∧
      s.heads document = some
        ⟨[⟨0, 1, 1, .lockGranted, .lmX, .nullLock⟩, ⟨1, 2, 2, .lockConverting, .lmIS, .lmIX⟩],
          .lmX, true⟩ := ⟨_, rfl, rfl⟩
  refine ⟨s, checkedRun_reachable (fun _ _ _ => trivial) hs, _, _, _, hhd,
    mem_cons_self, mem_cons_of_mem _ mem_cons_self, ?_⟩
  decide

end Sedna.LockManager.Exclusion
