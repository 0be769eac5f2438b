import Sedna.LockManager.TranList

/-!
# Who waits, and the `wait` pointers

A transaction waits with one request at a time, and while that request is in a
queue the `wait` field of the transaction points to it.  Only `unlock` of the
very resource a transaction waits for leaves the field pointing to a deleted
request.
-/

namespace Sedna.LockManager.Waits

open Modes Table Steps Wakeup TranList LockTable

def Pending (s : LockTable) (rId : ResourceId) (x : LockRequest) : Prop :=
  ∃ head, s.heads rId = some head ∧ x ∈ head.queue ∧ x.status ≠ .lockGranted

def waitOf (s : LockTable) (trId : TransactionId) : Option RequestId :=
  (s.trans trId).bind TransCB.wait

variable {s s' : LockTable} {trId : TransactionId} {rId : ResourceId} {x : LockRequest}
  {S : RequestId → Prop} {sId : SessionId} {mode : LockMode} {reply : LockReply}

theorem isWaiting_iff : IsWaiting s trId ↔ ∃ rId x, Pending s rId x ∧ x.trId = trId := by
  simp only [IsWaiting, Pending]
  tauto

theorem Pending.has (h : Pending s rId x) : Has s rId x.trId x.id := by
  obtain ⟨head, hhd, hx, -⟩ := h
  exact ⟨head, x, hhd, hx, rfl, rfl⟩

theorem trans_of_has (hs : Lists S s) {id : RequestId} (h : Has s rId trId id) :
    ∃ tran, s.trans trId = some tran := by
  obtain ⟨ids, hlist⟩ := hs.list trId
  have hmem : id ∈ ids := (hlist.mem_iff id).2 ⟨rId, h⟩
  have hanc := hlist.anchor
  rw [if_neg (List.ne_nil_of_mem hmem)] at hanc
  obtain ⟨tran, htran, -⟩ := Option.map_eq_some_iff.1 hanc
  exact ⟨tran, htran⟩

theorem pending_of_head {head : LockHead} (hhd : s.heads rId = some head) :
    Pending s rId x ↔ x ∈ head.queue ∧ x.status ≠ .lockGranted := by
  simp [Pending, hhd]

@[simp] theorem waitOf_setHead (s : LockTable) (rId : ResourceId) (head : Option LockHead)
    (t : TransactionId) : waitOf (s.setHead rId head) t = waitOf s t := rfl

theorem waitOf_setWait (s : LockTable) (trId : TransactionId) (wait : Option RequestId)
    (t : TransactionId) :
    waitOf (s.setWait trId wait) t =
      if t = trId then (s.trans t).bind fun _ => wait else waitOf s t := by
  unfold waitOf setWait
  dsimp only
  split
  · rw [Option.bind_map]
    rfl
  · rfl

theorem waitOf_foldl_wake (woken : List LockRequest) (s : LockTable) (t : TransactionId) :
    waitOf (woken.foldl wake s) t = if ∃ x ∈ woken, x.trId = t then none else waitOf s t := by
  induction woken generalizing s with
  | nil => simp
  | cons x woken ih =>
    have hwake : waitOf (wake s x) t = if t = x.trId then none else waitOf s t := by
      unfold waitOf
      rw [wake_trans]
      have hset := waitOf_setWait s x.trId none t
      unfold waitOf at hset
      rw [hset]
      split
      · cases s.trans t <;> rfl
      · rfl
    rw [List.foldl_cons, ih, hwake]
    by_cases hx : t = x.trId
    · simp [hx]
    · simp [hx, Ne.symm hx]

/-! ## `lock` -/

structure GrantsAtOnce (s s' : LockTable) : Prop where
  pending : ∀ r y, Pending s' r y ↔ Pending s r y
  wait : ∀ t, waitOf s' t = waitOf s t

/-- A call of `lock` that is refused leaves the request at its place in the queue. -/
structure Enqueues (s s' : LockTable) (trId : TransactionId) (rId : ResourceId)
    (x : LockRequest) : Prop where
  own : x.trId = trId
  pending : ∀ r y, Pending s' r y ↔ Pending s r y ∨ r = rId ∧ y = x
  wait_self : waitOf s' trId = some x.id
  wait_ne : ∀ t, t ≠ trId → waitOf s' t = waitOf s t

theorem waitOf_newRequest {s1 : LockTable} (hs : Lists S s)
    (h : newRequest s trId sId rId mode = .ok (s1, x)) :
    (∃ tran, s1.trans trId = some tran) ∧ ∀ t, waitOf s1 t = waitOf s t := by
  obtain ⟨ids, hlist⟩ := hs.list trId
  have heff := newRequest_effect hs.registered hlist h
  have hsome : ∃ tran, s1.trans trId = some tran := by
    cases htran : s1.trans trId with
    | some tran => exact ⟨tran, rfl⟩
    | none =>
      have hanc := heff.anchor
      rw [htran] at hanc
      cases hanc
  refine ⟨hsome, fun t => ?_⟩
  unfold waitOf
  by_cases ht : t = trId
  · subst ht
    cases htran : s.trans t with
    | some tran => rw [heff.wait tran htran]
    | none =>
      -- the entry made by the constructor waits for nothing
      unfold newRequest at h
      rw [htran] at h
      cases h
      simp
  · rw [heff.trans_ne t ht]

theorem pending_unchanged {head' : LockHead}
    (hheads : ∀ r, s'.heads r = if r = rId then some head' else s.heads r)
    (hqueue : ∀ y, y.status ≠ .lockGranted →
      (y ∈ head'.queue ↔ ∃ head, s.heads rId = some head ∧ y ∈ head.queue))
    (r : ResourceId) (y : LockRequest) : Pending s' r y ↔ Pending s r y := by
  unfold Pending
  rw [hheads]
  split
  next hr =>
    subst hr
    simp only [← and_assoc, exists_and_right]
    exact and_congr_left fun hst => by simpa using hqueue y hst
  · rfl

theorem pending_added {head head' : LockHead} (hhd : s.heads rId = some head)
    (hheads : ∀ r, s'.heads r = if r = rId then some head' else s.heads r)
    (hx : x.status ≠ .lockGranted)
    (hqueue : ∀ y, y.status ≠ .lockGranted → (y ∈ head'.queue ↔ y ∈ head.queue ∨ y = x))
    (r : ResourceId) (y : LockRequest) : Pending s' r y ↔ Pending s r y ∨ r = rId ∧ y = x := by
  rw [Pending, hheads]
  split
  next hr =>
    subst hr
    rw [pending_of_head hhd]
    constructor
    · rintro ⟨_, ⟨⟩, hy, hst⟩
      exact ((hqueue y hst).1 hy).imp (fun hmem => ⟨hmem, hst⟩) fun heq => ⟨rfl, heq⟩
    · rintro (⟨hy, hst⟩ | ⟨-, rfl⟩)
      · exact ⟨head', rfl, (hqueue y hst).2 (.inl hy), hst⟩
      · exact ⟨head', rfl, (hqueue y hx).2 (.inr rfl), hx⟩
  next hr => simp [Pending, hr]

theorem mem_replace_granted {a b : List LockRequest} {own own' y : LockRequest}
    (hown : own.status = .lockGranted) (hy : y.status ≠ .lockGranted) :
    y ∈ a ++ own' :: b ↔ y ∈ a ++ own :: b ∨ y = own' := by
  have hne : y ≠ own := by
    intro heq
    rw [heq] at hy
    exact hy hown
  simp only [List.mem_append, List.mem_cons, hne, false_or]
  tauto

theorem locked_waits (hs : Lists S s) (hwait : ¬ IsWaiting s trId)
    (h : Locked s trId sId rId mode s' reply) :
    (reply = .lockOk ∧ GrantsAtOnce s s') ∨
      (reply = .lockNotLocked ∧ ∃ x, Enqueues s s' trId rId x) := by
  have hfr : ∀ y : LockRequest, y.status ≠ .lockGranted → y ≠ freshRequest s trId sId mode := by
    intro y hst heq
    rw [heq] at hst
    exact hst rfl
  cases h with
  | free hhd hnew | granted hhd _ hnew _ _ =>
    obtain ⟨rfl, hheads, -⟩ := newRequest_spec hnew
    refine .inl ⟨rfl, ?_, (waitOf_newRequest hs hnew).2⟩
    apply pending_unchanged fun r => by rw [setHead_heads, hheads]
    intro y hst
    simp [hhd, hfr y hst]
  | waits hhd _ hnew _ =>
    obtain ⟨rfl, hheads, -⟩ := newRequest_spec hnew
    obtain ⟨⟨tran, htran⟩, hsame⟩ := waitOf_newRequest hs hnew
    refine .inr ⟨rfl, { freshRequest s trId sId mode with status := .lockWaiting }, rfl, ?_, ?_, ?_⟩
    · apply pending_added hhd (fun r => by rw [setWait_heads, setHead_heads, hheads])
      · exact LockStatus.noConfusion
      · intro y _
        simp
    · rw [waitOf_setWait, if_pos rfl, setHead_trans, htran]
      rfl
    · intro t ht
      rw [waitOf_setWait, if_neg ht, waitOf_setHead, hsame]
  | @converting head a b own hhd hqueue hown _ _ =>
    have hmem : own ∈ head.queue := by rw [hqueue]; simp
    have hgrant := granted_of_not_isWaiting hwait hhd hmem hown
    refine .inr ⟨rfl, toConverting own mode, hown, ?_, ?_, ?_⟩
    · apply pending_added hhd (fun r => by rw [setWait_heads, setHead_heads])
      · exact LockStatus.noConfusion
      · intro y hst
        rw [hqueue]
        exact mem_replace_granted hgrant hst
    · obtain ⟨tran, htran⟩ := trans_of_has hs ⟨head, own, hhd, hmem, hown, rfl⟩
      rw [waitOf_setWait, if_pos rfl, setHead_trans, htran]
      rfl
    · intro t ht
      rw [waitOf_setWait, if_neg ht, waitOf_setHead]
  | @converted head a b own hhd hqueue hown _ _ =>
    have hmem : own ∈ head.queue := by rw [hqueue]; simp
    have hgrant := granted_of_not_isWaiting hwait hhd hmem hown
    refine .inl ⟨rfl, ?_, fun _ => rfl⟩
    apply pending_unchanged fun r => by rw [setHead_heads]
    intro y hst
    have hne : y ≠ toConverted own mode := by
      intro heq
      rw [heq] at hst
      exact hst rfl
    rw [mem_replace_granted hgrant hst, ← hqueue]
    simp [hhd, hne]

/-! ## `unlock` -/

/-- What `unlock` does to whoever waits: the request of the transaction is
deleted, some requests are granted, and the owners of those wait for nothing. -/
structure Dequeues (s s' : LockTable) (trId : TransactionId) (rId : ResourceId) : Prop where
  pending : ∀ r y, Pending s' r y → Pending s r y
  kept : ∀ r y, Pending s r y → ¬ (r = rId ∧ y.trId = trId) →
    Pending s' r y ∨ waitOf s' y.trId = none
  wait : ∀ t, waitOf s' t = waitOf s t ∨ s'.trans t = none ∨
    waitOf s' t = none ∧ ∃ y, Pending s rId y ∧ ¬ Pending s' rId y ∧ y.trId = t

theorem waitOf_deleteRequest {s1 : LockTable} (h : deleteRequest s x = .ok s1) (t : TransactionId) :
    waitOf s1 t = waitOf s t ∨ s1.trans t = none := by
  unfold deleteRequest at h
  split at h
  · cases h
  next tran htran =>
  split at h
  · cases h
  split at h
  · cases h
    by_cases ht : t = x.trId
    · exact .inr (by simp [ht])
    · exact .inl (by simp [waitOf, ht])
  · split at h
    · cases h
    · cases h
      by_cases ht : t = x.trId
      · exact .inl (by simp [waitOf, ht, htran])
      · exact .inl (by simp [waitOf, ht])
  · split at h
    · cases h
    · cases h
      exact .inl rfl

theorem unlocked_waits (hinv : TableInv s) (h : Unlocked s trId rId s') :
    Dequeues s s' trId rId := by
  cases h with
  | absent => exact ⟨fun _ _ hy => hy, fun _ _ hy _ => .inl hy, fun _ => .inl rfl⟩
  | @last s1 head own hhd hqueue hown hdel =>
    have hpend : ∀ r y, Pending (s1.setHead rId none) r y ↔ r ≠ rId ∧ Pending s r y := by
      intro r y
      unfold Pending
      rw [setHead_heads, (deleteRequest_fields hdel).1]
      split
      next hr => simp [hr]
      next hr => simp [hr]
    refine ⟨fun r y hy => ((hpend r y).1 hy).2, ?_, fun t => ?_⟩
    · intro r y hy hoth
      refine .inl ((hpend r y).2 ⟨?_, hy⟩)
      rintro rfl
      rw [pending_of_head hhd, hqueue, List.mem_singleton] at hy
      exact hoth ⟨rfl, by rw [hy.1]; exact hown⟩
    · exact (waitOf_deleteRequest hdel t).imp id .inl
  | @rescan s1 head head' a b woken own hhd hqueue hown ha hne hdel hscan =>
    obtain ⟨granted, tail, hrescan⟩ := rescan_spec (hinv rId head hhd) hqueue hne hscan
    have hheads := rescan_heads hdel woken rId head'
    have hwoken : ∀ y, y ∈ woken ↔ y ∈ granted ∧ y.status ≠ .lockGranted := by
      intro y
      rw [hrescan.woken]
      simp
    have hpend : ∀ y, Pending ((woken.foldl wake s1).setHead rId (some head')) rId y ↔
        y ∈ tail ∧ y.status ≠ .lockGranted := by
      intro y
      rw [pending_of_head (by rw [hheads, if_pos rfl])]
      exact and_congr_left hrescan.pending_iff
    have hoth : ∀ r y, r ≠ rId →
        (Pending ((woken.foldl wake s1).setHead rId (some head')) r y ↔ Pending s r y) := by
      intro r y hr
      unfold Pending
      rw [hheads, if_neg hr]
    refine ⟨fun r y hy => ?_, fun r y hy hnot => ?_, fun t => ?_⟩
    · by_cases hr : r = rId
      · subst hr
        obtain ⟨htail, hst⟩ := (hpend y).1 hy
        exact (pending_of_head hhd).2 ⟨(hrescan.mem_iff.1 (.inr htail)).1, hst⟩
      · exact (hoth r y hr).1 hy
    · by_cases hr : r = rId
      · subst hr
        obtain ⟨hmem, hst⟩ := (pending_of_head hhd).1 hy
        have htr : y.trId ≠ own.trId := fun heq => hnot ⟨rfl, heq.trans hown⟩
        rcases hrescan.mem_iff.2 ⟨hmem, htr⟩ with hgrant | htail
        · right
          rw [waitOf_setHead, waitOf_foldl_wake, if_pos ⟨y, (hwoken y).2 ⟨hgrant, hst⟩, rfl⟩]
        · exact .inl ((hpend y).2 ⟨htail, hst⟩)
      · exact .inl ((hoth r y hr).2 hy)
    · rw [waitOf_setHead, waitOf_foldl_wake]
      split
      next hsome =>
        obtain ⟨y, hy, htr⟩ := hsome
        obtain ⟨hgrant, hst⟩ := (hwoken y).1 hy
        refine .inr (.inr ⟨rfl, y, ?_, ?_, htr⟩)
        · exact (pending_of_head hhd).2
            ⟨(hrescan.mem_iff.1 (.inl hgrant)).1, hst⟩
        · rw [hpend]
          rintro ⟨htail, -⟩
          exact (List.pairwise_append.1 hrescan.shape.distinct).2.2 y hgrant y htail rfl
      · refine (waitOf_deleteRequest hdel t).imp id fun hnone => .inl ?_
        have hlocks := sameLocks_foldl_wake woken s1 t
        rw [hnone] at hlocks
        exact Option.map_eq_none_iff.1 hlocks

/-! ## The `wait` fields in every state -/

/-- Whoever waits has its `wait` field set to the request; a field that points
to a request in a queue points to one that waits, of the same transaction. -/
structure WaitInv (s : LockTable) : Prop where
  bound : ∀ t id, waitOf s t = some id → id < s.nextId
  points : ∀ t id r u, waitOf s t = some id → Has s r u id →
    ∃ x, Pending s r x ∧ x.trId = t ∧ x.id = id
  set : ∀ r x, Pending s r x → waitOf s x.trId = some x.id

theorem WaitInv.unique (h : WaitInv s) (hinv : TableInv s) (hs : Lists S s) {r r' : ResourceId}
    {y : LockRequest} (hx : Pending s r x) (hy : Pending s r' y) (htr : x.trId = y.trId) :
    r = r' ∧ x = y := by
  have hid : x.id = y.id := by
    have hwait := h.set r x hx
    rw [htr, h.set r' y hy] at hwait
    exact (Option.some.inj hwait).symm
  have hyHas := hy.has
  rw [← hid] at hyHas
  obtain ⟨rfl, -⟩ := hs.registered.has_id hx.has hyHas
  obtain ⟨head, hhd, hmem, -⟩ := hx
  exact ⟨rfl, (hinv r head hhd).eq_of_trId hmem ((pending_of_head hhd).1 hy).1 htr⟩

structure RunInv (s : LockTable) : Prop where
  table : TableInv s
  lists : ∃ S, Lists S s
  waits : WaitInv s

theorem locked_old_requests (h : Locked s trId sId rId mode s' reply) :
    s.nextId ≤ s'.nextId ∧ ∀ r u id, id < s.nextId → Has s' r u id → Has s r u id := by
  rcases locked_requests h with hk | ha
  · exact ⟨le_of_eq hk.nextId.symm, fun r u id _ hhas => (hk.has r u id).1 hhas⟩
  · obtain ⟨s1, x, hnew, -, hnext, -⟩ := ha.effect
    refine ⟨?_, fun r u id hlt hhas => ?_⟩
    · rw [hnext, (newRequest_spec hnew).2.2]
      exact Nat.le_succ s.nextId
    · rcases (ha.has r u id).1 hhas with hold | ⟨-, -, rfl⟩
      · exact hold
      · exact absurd hlt (lt_irrefl _)

theorem locked_waitInv (hs : Lists S s) (h : WaitInv s) (hwait : ¬ IsWaiting s trId)
    (hl : Locked s trId sId rId mode s' reply) : WaitInv s' := by
  obtain ⟨hnext, hold⟩ := locked_old_requests hl
  have hreg := (locked_lists hs hl).registered
  rcases locked_waits hs hwait hl with ⟨-, hgrants⟩ | ⟨-, x, henq⟩
  · constructor
    · intro t id ht
      rw [hgrants.wait] at ht
      exact lt_of_lt_of_le (h.bound t id ht) hnext
    · intro t id r u ht hhas
      rw [hgrants.wait] at ht
      obtain ⟨y, hy, hrest⟩ := h.points t id r u ht (hold r u id (h.bound t id ht) hhas)
      exact ⟨y, (hgrants.pending r y).2 hy, hrest⟩
    · intro r y hy
      rw [hgrants.wait]
      exact h.set r y ((hgrants.pending r y).1 hy)
  · have hx : Pending s' rId x := (henq.pending rId x).2 (.inr ⟨rfl, rfl⟩)
    constructor
    · intro t id ht
      by_cases htr : t = trId
      · rw [htr, henq.wait_self] at ht
        cases ht
        exact hreg.lt_of_has hx.has
      · rw [henq.wait_ne t htr] at ht
        exact lt_of_lt_of_le (h.bound t id ht) hnext
    · intro t id r u ht hhas
      by_cases htr : t = trId
      · rw [htr, henq.wait_self] at ht
        cases ht
        obtain ⟨rfl, -⟩ := hreg.has_id hx.has hhas
        exact ⟨x, hx, henq.own.trans htr.symm, rfl⟩
      · rw [henq.wait_ne t htr] at ht
        obtain ⟨y, hy, hrest⟩ := h.points t id r u ht (hold r u id (h.bound t id ht) hhas)
        exact ⟨y, (henq.pending r y).2 (.inl hy), hrest⟩
    · intro r y hy
      rcases (henq.pending r y).1 hy with hy | ⟨-, rfl⟩
      · have htr : y.trId ≠ trId := fun heq => hwait (isWaiting_iff.2 ⟨r, y, hy, heq⟩)
        rw [henq.wait_ne _ htr]
        exact h.set r y hy
      · rw [henq.own]
        exact henq.wait_self

theorem Dequeues.wait_some {t : TransactionId} {id : RequestId} (h : Dequeues s s' trId rId)
    (ht : waitOf s' t = some id) : waitOf s t = some id := by
  rcases h.wait t with hsame | hnone | ⟨hnone, -⟩
  · rw [← hsame]
    exact ht
  · rw [waitOf, hnone] at ht
    cases ht
  · rw [hnone] at ht
    cases ht

theorem unlocked_waitInv {S' : RequestId → Prop} (hinv : TableInv s) (hs : Lists S s)
    (hs' : Lists S' s') (h : WaitInv s) (hu : Unlocked s trId rId s') : WaitInv s' := by
  have hdeq := unlocked_waits hinv hu
  rcases unlocked_requests hinv hs.registered hu with ⟨rfl, -⟩ | ⟨own, hown, hd⟩
  · exact h
  obtain ⟨s1, hdel, -, hnext, -⟩ := hd.effect
  constructor
  · intro t id ht
    rw [hnext, (deleteRequest_fields hdel).2]
    exact h.bound t id (hdeq.wait_some ht)
  · intro t id r u ht hhas
    obtain ⟨hold, hne⟩ := (hd.has r u id).1 hhas
    obtain ⟨y, hy, rfl, rfl⟩ := h.points t id r u (hdeq.wait_some ht) hold
    have hoth : ¬ (r = rId ∧ y.trId = trId) := by
      rintro ⟨rfl, htr⟩
      obtain ⟨head, x, hhd, hx, hxtr, hxid⟩ := hd.present
      have heq : y = x := (hinv r head hhd).eq_of_trId ((pending_of_head hhd).1 hy).1 hx
        (htr.trans (hxtr.trans hown).symm)
      exact hne (by rw [heq]; exact hxid)
    rcases hdeq.kept r y hy hoth with hkept | hnone
    · exact ⟨y, hkept, rfl, rfl⟩
    · rw [hnone] at ht
      cases ht
  · intro r y hy
    have hold := hdeq.pending r y hy
    rcases hdeq.wait y.trId with hsame | hnone | ⟨-, z, hz, hgone, htr⟩
    · rw [hsame]
      exact h.set r y hold
    · obtain ⟨tran, htran⟩ := trans_of_has hs' hy.has
      rw [hnone] at htran
      cases htran
    · -- the request woken would be the one that still waits
      obtain ⟨rfl, rfl⟩ := h.unique hinv hs hz hold htr
      exact absurd hy hgone

theorem runInv_init : RunInv init := by
  refine ⟨?_, ⟨_, lists_init (fun _ => False) fun _ hq => hq⟩, ?_, ?_, ?_⟩
  · intro rId head hhd
    cases hhd
  · intro t id ht
    cases ht
  · intro t id r u ht
    cases ht
  · rintro r x ⟨head, hhd, -⟩
    cases hhd

theorem RunInv.locked (h : RunInv s) (hwait : ¬ IsWaiting s trId)
    (hl : Locked s trId sId rId mode s' reply) : RunInv s' := by
  obtain ⟨hinv, ⟨S, hs⟩, hw⟩ := h
  exact ⟨locked_tableInv hinv hwait hl, ⟨S, locked_lists hs hl⟩, locked_waitInv hs hw hwait hl⟩

theorem RunInv.unlocked (h : RunInv s) (hu : Unlocked s trId rId s') : RunInv s' := by
  obtain ⟨hinv, ⟨S, hs⟩, hw⟩ := h
  obtain ⟨S', hs'⟩ := unlocked_lists_forwards hinv hs hu
  exact ⟨unlocked_tableInv hinv hu, ⟨S', hs'⟩, unlocked_waitInv hinv hs hs' hw hu⟩

theorem reachable_runInv (h : Reachable anyCall s) : RunInv s :=
  reachable_induction_any runInv_init (fun _ _ _ _ _ _ _ hs hwait hl => hs.locked hwait hl)
    (fun _ _ _ _ hs hu => hs.unlocked hu) h

end Sedna.LockManager.Waits
