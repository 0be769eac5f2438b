import Sedna.LockManager.Steps

/-!
# No lost wake-up

Every queue of the table keeps the queue invariant along every run, so whoever
waits is blocked by a mode that another transaction holds.
-/

namespace Sedna.LockManager.Wakeup

open Modes Table Queue Steps LockTable

def TableInv (s : LockTable) : Prop := ∀ rId head, s.heads rId = some head → QueueInv head

variable {s : LockTable} {rId : ResourceId} {woken : List LockRequest} {head : LockHead}
  {own : LockRequest}

def AllHeads (Q : LockHead → Prop) (s : LockTable) : Prop :=
  ∀ rId head, s.heads rId = some head → Q head

theorem AllHeads.of_setHead {Q : LockHead → Prop} {s' : LockTable} {head : Option LockHead}
    (h : AllHeads Q s) (hheads : ∀ r, s'.heads r = if r = rId then head else s.heads r)
    (hhd : ∀ head', head = some head' → Q head') : AllHeads Q s' := by
  intro r head' hr
  rw [hheads] at hr
  split at hr
  · exact hhd head' hr
  · exact h r head' hr

theorem AllHeads.setHead {Q : LockHead → Prop} {s1 : LockTable} {head : LockHead}
    (h : AllHeads Q s) (hheads : s1.heads = s.heads) (hhd : Q head) :
    AllHeads Q (s1.setHead rId (some head)) := by
  refine h.of_setHead (fun r => by rw [setHead_heads, hheads]) ?_
  rintro head' ⟨⟩
  exact hhd

theorem AllHeads.setWait {Q : LockHead → Prop} {t : TransactionId} {wait : Option RequestId}
    (h : AllHeads Q s) : AllHeads Q (s.setWait t wait) := h

theorem stands_nullLock : Stands .nullLock [] := by
  intro m
  cases m <;> simp [lockCompat]

theorem scan_inv {queue : List LockRequest} (hqueue : ∀ x ∈ queue, KnownStatus x)
    (h : scan [] .nullLock false false [] queue = .ok ⟨head, woken⟩) :
    ∃ granted tail, queue = granted ++ tail ∧ Scanned [] granted tail ∧
      head.queue = granted.map grant ++ tail ∧
      (woken = granted.filter fun x => x.status ≠ .lockGranted) ∧
      Stands head.grantedMode (granted.map grant ++ counted tail) ∧
      (QueueShape queue → queue ≠ [] → QueueInv head) := by
  obtain ⟨granted, tail, g, hspl, hscanned, hscan, hstands⟩ :=
    scan_spec [] .nullLock [] queue stands_nullLock hqueue
  rw [h] at hscan
  cases hscan
  refine ⟨granted, tail, hspl, hscanned, rfl, rfl, hstands, ?_⟩
  intro hshape hne
  rw [hspl] at hshape hne
  refine hshape.scanned hne hscanned fun hnil => ?_
  simpa [hnil, counted] using hstands

theorem granted_of_not_isWaiting {trId : TransactionId} (hwait : ¬ IsWaiting s trId)
    (hhd : s.heads rId = some head) (hown : own ∈ head.queue) (htr : own.trId = trId) :
    own.status = .lockGranted := by
  by_contra hne
  exact hwait ⟨rId, head, hhd, own, hown, htr, hne⟩

theorem locked_tableInv {s' : LockTable} {trId : TransactionId} {sId : SessionId} {mode : LockMode}
    {reply : LockReply} (hs : TableInv s) (hwait : ¬ IsWaiting s trId)
    (h : Locked s trId sId rId mode s' reply) : TableInv s' := by
  cases h with
  | free hhd hnew =>
    obtain ⟨rfl, hheads, -⟩ := newRequest_spec hnew
    exact AllHeads.setHead hs hheads (QueueInv.single rfl)
  | granted hhd hfr hnew hwaiting hcompat =>
    obtain ⟨rfl, hheads, -⟩ := newRequest_spec hnew
    exact AllHeads.setHead hs hheads ((hs rId _ hhd).append_granted hfr rfl hwaiting)
  | waits hhd hfr hnew hrefused =>
    obtain ⟨rfl, hheads, -⟩ := newRequest_spec hnew
    refine (AllHeads.setHead hs hheads ?_).setWait
    exact (hs rId _ hhd).append_waiting hfr rfl hrefused
  | converting hhd hqueue hown _ hblk =>
    refine (AllHeads.setHead hs rfl ?_).setWait
    refine (hs rId _ hhd).convert_pending hqueue ?_ rfl rfl rfl (covers_lockMax_left _ _)
      hblk
    exact granted_of_not_isWaiting hwait hhd (by rw [hqueue]; simp) hown
  | converted hhd hqueue hown _ _ =>
    refine AllHeads.setHead hs rfl ?_
    refine (hs rId _ hhd).convert_granted hqueue ?_ rfl rfl (covers_lockMax_left _ _)
    exact granted_of_not_isWaiting hwait hhd (by rw [hqueue]; simp) hown

/-- The queue that `unlock` rebuilds: the requests up to some place are granted
where they were not, the others stand as before. -/
structure Rescanned (head : LockHead) (own : LockRequest) (head' : LockHead)
    (woken granted tail : List LockRequest) : Prop where
  others : head.queue.filter (fun x => x.trId ≠ own.trId) = granted ++ tail
  scanned : Scanned [] granted tail
  queue : head'.queue = granted.map grant ++ tail
  woken : woken = granted.filter fun x => x.status ≠ .lockGranted
  shape : QueueShape (granted ++ tail)
  stands : Stands head'.grantedMode (granted.map grant ++ counted tail)
  inv : QueueInv head'

theorem rescan_spec {head' : LockHead} {a b : List LockRequest} (hs : QueueInv head)
    (hqueue : head.queue = a ++ own :: b) (hne : a ++ b ≠ [])
    (hscan : scan [] .nullLock false false [] (a ++ b) = .ok ⟨head', woken⟩) :
    ∃ granted tail, Rescanned head own head' woken granted tail := by
  have hoth : head.queue.filter (fun x => x.trId ≠ own.trId) = a ++ b := by
    have hdist := hs.distinct
    rw [hqueue] at hdist ⊢
    exact filter_others hdist rfl
  have hshape : QueueShape (a ++ b) := by
    rw [← hoth]
    exact hs.shape.sublist List.filter_sublist
  obtain ⟨granted, tail, hspl, hscanned, hqueue', hwoken, hstands, hinv⟩ :=
    scan_inv hshape.status hscan
  exact ⟨granted, tail, hoth.trans hspl, hscanned, hqueue', hwoken, hspl ▸ hshape, hstands,
    hinv hshape hne⟩

theorem Rescanned.mem_iff {head' : LockHead} {y : LockRequest} {granted tail : List LockRequest}
    (h : Rescanned head own head' woken granted tail) :
    y ∈ granted ∨ y ∈ tail ↔ y ∈ head.queue ∧ y.trId ≠ own.trId := by
  rw [← List.mem_append, ← h.others]
  simp

theorem Rescanned.pending_iff {head' : LockHead} {y : LockRequest} {granted tail : List LockRequest}
    (h : Rescanned head own head' woken granted tail) (hy : y.status ≠ .lockGranted) :
    y ∈ head'.queue ↔ y ∈ tail := by
  rw [h.queue, List.mem_append, or_iff_right]
  intro hmem
  obtain ⟨z, hz, rfl⟩ := List.mem_map.1 hmem
  exact hy (grant_status (h.shape.status z (by simp [hz])))

theorem rescan_heads {s1 : LockTable} (hdel : deleteRequest s own = .ok s1)
    (woken : List LockRequest) (rId : ResourceId) (head : LockHead) (r : ResourceId) :
    ((woken.foldl wake s1).setHead rId (some head)).heads r =
      if r = rId then some head else s.heads r := by
  rw [setHead_heads, (foldl_wake_fields woken s1).1, (deleteRequest_fields hdel).1]

/-! ## What a transaction leaves behind -/

section

variable {Q : LockHead → Prop} {P : List LockRequest → Prop} {s' : LockTable} {trId : TransactionId}

def LeavesBehind (P : List LockRequest → Prop) (s : LockTable) (trId : TransactionId)
    (rId : ResourceId) : Prop :=
  ∀ head, s.heads rId = some head → (∃ x ∈ head.queue, x.trId = trId) →
    P (head.queue.filter fun x => x.trId ≠ trId)

/-- If a property of queues depends, after a scan, on what the scan is given,
then after an unlock it depends on what the transaction leaves behind. -/
theorem unlocked_allHeads_iff (hnil : P []) (hscan : ∀ {head own head' woken granted tail}, Q head →
      Rescanned head own head' woken granted tail → (Q head' ↔ P (granted ++ tail)))
    (hinv : TableInv s) (hs : AllHeads Q s) (h : Unlocked s trId rId s') :
    AllHeads Q s' ↔ LeavesBehind P s trId rId := by
  cases h with
  | absent habsent =>
    refine iff_of_true hs fun head hhd hx => ?_
    obtain ⟨x, hx, htr⟩ := hx
    exact absurd htr (habsent head hhd x hx)
  | @last s1 head own hhd hqueue hown hdel =>
    refine iff_of_true ?_ ?_
    · refine hs.of_setHead (fun r => by rw [setHead_heads, (deleteRequest_fields hdel).1]) ?_
      rintro head' ⟨⟩
    · intro head' hhd' _
      obtain rfl : head = head' := Option.some.inj (hhd.symm.trans hhd')
      rw [hqueue]
      simpa [hown] using hnil
  | @rescan s1 head head' a b woken own hhd hqueue hown ha hne hdel hscanned =>
    obtain ⟨granted, tail, hrescan⟩ := rescan_spec (hinv rId head hhd) hqueue hne hscanned
    have hoth := hrescan.others
    rw [hown] at hoth
    have hiff := hscan (hs rId head hhd) hrescan
    constructor
    · intro hs' head'' hhd'' _
      obtain rfl : head = head'' := Option.some.inj (hhd.symm.trans hhd'')
      rw [hoth]
      exact hiff.1 (hs' rId head' (by rw [setHead_heads, if_pos rfl]))
    · intro hleaves
      refine hs.of_setHead (rescan_heads hdel woken rId head') ?_
      rintro head'' ⟨⟩
      have hres := hleaves head hhd ⟨own, by rw [hqueue]; simp, hown⟩
      rw [hoth] at hres
      exact hiff.2 hres

theorem unlocked_allHeads (hscan : ∀ {head own head' woken granted tail}, Q head →
      Rescanned head own head' woken granted tail → Q head')
    (hinv : TableInv s) (hs : AllHeads Q s) (h : Unlocked s trId rId s') : AllHeads Q s' :=
  (unlocked_allHeads_iff (P := fun _ => True) trivial
    (fun hhd hrescan => iff_true_intro (hscan hhd hrescan)) hinv hs h).2 fun _ _ _ => trivial

theorem unlocked_tableInv (hs : TableInv s) (h : Unlocked s trId rId s') : TableInv s' :=
  unlocked_allHeads (fun _ hscan => hscan.inv) hs hs h

theorem reachable_tableInv (h : Reachable anyCall s) : TableInv s :=
  reachable_induction_any (fun rId head hhd => by cases hhd)
    (fun _ _ _ _ _ _ _ hs hwait hl => locked_tableInv hs hwait hl)
    (fun _ _ _ _ hs hu => unlocked_tableInv hs hu) h

theorem unlocked_leavesBehind (hinv : TableInv s) (h : Unlocked s trId rId s')
    (hleaves : ∀ r, LeavesBehind P s trId r) : ∀ r, LeavesBehind P s' trId r := by
  intro r
  cases h with
  | absent => exact hleaves r
  | last _ _ _ hdel =>
    intro head hhd
    rw [setHead_heads, (deleteRequest_fields hdel).1] at hhd
    split at hhd
    · cases hhd
    · exact hleaves r head hhd
  | @rescan s1 head head' a b woken own hhd hqueue hown ha hne hdel hscan =>
    intro head'' hhd''
    rw [rescan_heads hdel] at hhd''
    split at hhd''
    · cases hhd''
      rintro ⟨x, hx, htr⟩
      -- the transaction has left this queue
      obtain ⟨granted, tail, hrescan⟩ := rescan_spec (hinv rId head hhd) hqueue hne hscan
      rw [hrescan.queue] at hx
      obtain ⟨y, hy, hytr⟩ : ∃ y, (y ∈ granted ∨ y ∈ tail) ∧ y.trId = trId := by
        rcases List.mem_append.1 hx with hx | hx
        · obtain ⟨y, hy, rfl⟩ := List.mem_map.1 hx
          exact ⟨y, .inl hy, by rw [← grant_trId]; exact htr⟩
        · exact ⟨x, .inr hx, htr⟩
      exact absurd (hytr.trans hown.symm) (hrescan.mem_iff.1 hy).2
    · exact hleaves r head'' hhd''

/-- A property of all heads that `lock` keeps holds in every state reached by
unlocks that leave the right requests behind. -/
theorem reachable_allHeads {condition : LockTable → Call → Prop}
    (hlocked : ∀ s s' trId sId rId mode reply, TableInv s → AllHeads Q s → ¬ IsWaiting s trId →
      Locked s trId sId rId mode s' reply → AllHeads Q s')
    (hunlocked : ∀ s s' trId rId, TableInv s → AllHeads Q s → LeavesBehind P s trId rId →
      Unlocked s trId rId s' → AllHeads Q s')
    (hunl : ∀ s trId rId, condition s (.unlock trId rId) → LeavesBehind P s trId rId)
    (hrel : ∀ s trId, condition s (.releaseTrLocks trId) → ∀ rId, LeavesBehind P s trId rId)
    (h : Reachable condition s) : TableInv s ∧ AllHeads Q s := by
  refine @reachable_induction s condition (fun s => TableInv s ∧ AllHeads Q s) ?_ ?_ ?_ ?_ h
  · constructor
    all_goals
      intro rId head hhd
      cases hhd
  · rintro s s' trId sId rId mode reply ⟨hinv, hs⟩ hwait - hl
    exact ⟨locked_tableInv hinv hwait hl, hlocked s s' trId sId rId mode reply hinv hs hwait hl⟩
  · rintro s s' trId rId ⟨hinv, hs⟩ hcond hu
    exact ⟨unlocked_tableInv hinv hu, hunlocked s s' trId rId hinv hs (hunl s trId rId hcond) hu⟩
  · rintro s s' trId ⟨hinv, hs⟩ hcond hr
    have hkept := releaseTrLocks_induction
      (P := fun s => TableInv s ∧ AllHeads Q s ∧ ∀ r, LeavesBehind P s trId r)
      (fun s s' rId hp hu => ⟨unlocked_tableInv hp.1 hu,
        hunlocked s s' trId rId hp.1 hp.2.1 (hp.2.2 rId) hu,
        unlocked_leavesBehind hp.1 hu hp.2.2⟩) hr ⟨hinv, hs, hrel s trId hcond⟩
    exact ⟨hkept.1, hkept.2.1⟩

end

/-- Whoever waits, waits for a mode that is held. -/
theorem no_lost_wakeup {s : LockTable} (h : Reachable anyCall s) {rId : ResourceId}
    {head : LockHead} (hhd : s.heads rId = some head) :
    (head.queue.Pairwise fun x y => y.held = true → x.status ≠ .lockWaiting) ∧
    (head.waiting = true ↔ ∃ x ∈ head.queue, x.status = .lockWaiting ∨ x.status = .lockConverting) ∧
    (∀ x, head.queue.find? (fun y => y.status = .lockConverting) = some x →
      ∃ y ∈ head.queue, y.trId ≠ x.trId ∧ y.held = true ∧ lockCompat x.convertMode y.mode = false) ∧
    ((∀ y ∈ head.queue, y.status ≠ .lockConverting) →
      ∀ x, head.queue.find? (fun y => y.status = .lockWaiting) = some x →
        ∃ y ∈ head.queue, y.trId ≠ x.trId ∧ y.held = true ∧ lockCompat x.mode y.mode = false) := by
  have hinv := reachable_tableInv h rId head hhd
  refine ⟨?_, ?_, hinv.converting, fun hnone x hx => hinv.waiting x hx hnone⟩
  · refine hinv.ordered.imp ?_
    intro x y hxy hheld hwait
    rw [LockRequest.held, hxy hwait] at hheld
    cases hheld
  · rw [hinv.flag]
    refine exists_congr fun x => and_congr_right fun hx => ?_
    rcases hinv.status x hx with hst | hst | hst <;> simp [hst]

def queueOfThree : Option LockTable :=
  checkedRun [⟨"doc", .lmDocument⟩] LockTable.init
    [.lock 1 1 ⟨"doc", .lmDocument⟩ .lmX, .lock 2 2 ⟨"doc", .lmDocument⟩ .lmS,
      .lock 3 3 ⟨"doc", .lmDocument⟩ .lmIS]

theorem no_lost_wakeup_three :
    ∃ s head, queueOfThree = some s ∧ s.heads ⟨"doc", .lmDocument⟩ = some head ∧
      head.waiting = true ∧
      ∃ x ∈ head.queue, x.status = .lockWaiting ∨ x.status = .lockConverting := by
  obtain ⟨s, hs, head, hhd, hwait⟩ : ∃ s, queueOfThree = some s ∧
      ∃ head, s.heads ⟨"doc", .lmDocument⟩ = some head ∧
      head.waiting = true := ⟨_, rfl, _, rfl, rfl⟩
  exact ⟨s, head, hs, hhd, hwait,
    (no_lost_wakeup (checkedRun_reachable (fun _ _ _ => trivial) hs) hhd).2.1.1 hwait⟩

end Sedna.LockManager.Wakeup
