import Sedna.LockManager.Queue

/-!
# What one call does to the table

Inversion lemmas for `lock`, `unlock` and `release_tr_locks`, from which the
invariants of the table are derived, and a way to check a run by evaluation.
-/

namespace Sedna.LockManager.Steps

open Modes Table Queue LockTable List

variable {sId : SessionId} {mode : LockMode} {r : ResourceId}

theorem bind_eq_ok {ε α β : Type} {x : Except ε α} {f : α → Except ε β} {b : β} :
    (x >>= f) = .ok b ↔ ∃ a, x = .ok a ∧ f a = .ok b := by
  cases x <;> simp [bind, Except.bind]

/-! ## Field lemmas -/

section

variable (s : LockTable)
include s

theorem wake_fields (x : LockRequest) :
    (wake s x).heads = s.heads ∧ (wake s x).links = s.links ∧ (wake s x).nextId = s.nextId := by
  unfold wake
  split
  · exact ⟨rfl, rfl, rfl⟩
  · split <;> exact ⟨rfl, rfl, rfl⟩

theorem wake_trans (x : LockRequest) : (wake s x).trans = (s.setWait x.trId none).trans := by
  unfold wake
  split
  next hnone =>
    funext t
    simp only [setWait]
    split
    next ht =>
      subst ht
      rw [hnone]
      rfl
    · rfl
  · split <;> rfl

end

theorem foldl_wake_fields (woken : List LockRequest) (s : LockTable) :
    (woken.foldl wake s).heads = s.heads ∧ (woken.foldl wake s).links = s.links ∧
      (woken.foldl wake s).nextId = s.nextId := by
  induction woken generalizing s with
  | nil => exact ⟨rfl, rfl, rfl⟩
  | cons x woken ih =>
    obtain ⟨hheads, hlinks, hnext⟩ := ih (wake s x)
    obtain ⟨hheads', hlinks', hnext'⟩ := wake_fields s x
    exact ⟨hheads.trans hheads', hlinks.trans hlinks', hnext.trans hnext'⟩

/-! ## Constructor and destructor -/

def freshRequest (s : LockTable) (trId : TransactionId) (sId : SessionId) (mode : LockMode) :
    LockRequest :=
  { id := s.nextId, trId, sId, status := .lockGranted, mode, convertMode := .nullLock }

variable {s s' : LockTable} {trId : TransactionId} {rId : ResourceId}
  {condition : LockTable → Call → Prop} {resources : List ResourceId}

theorem newRequest_spec {x : LockRequest} (h : newRequest s trId sId rId mode = .ok (s', x)) :
    x = freshRequest s trId sId mode ∧ s'.heads = s.heads ∧ s'.nextId = s.nextId + 1 := by
  unfold newRequest at h
  split at h
  · cases h
    exact ⟨rfl, rfl, rfl⟩
  · obtain ⟨last, -, h⟩ := bind_eq_ok.1 h
    repeat' split at h
    all_goals cases h
    exact ⟨rfl, rfl, rfl⟩

theorem deleteRequest_fields {x : LockRequest} (h : deleteRequest s x = .ok s') :
    s'.heads = s.heads ∧ s'.nextId = s.nextId := by
  unfold deleteRequest at h
  split at h
  · cases h
  split at h
  · cases h
  split at h
  · cases h
    exact ⟨rfl, rfl⟩
  all_goals
    split at h
    · cases h
    · cases h
      exact ⟨rfl, rfl⟩

/-! ## `lock` -/

def toConverting (x : LockRequest) (mode : LockMode) : LockRequest :=
  { x with convertMode := lockMax x.mode mode, status := .lockConverting }

def toConverted (x : LockRequest) (mode : LockMode) : LockRequest :=
  { x with mode := lockMax x.mode mode, status := .lockGranted, convertMode := .nullLock }

inductive Locked (s : LockTable) (trId : TransactionId) (sId : SessionId) (rId : ResourceId)
    (mode : LockMode) : LockTable → LockReply → Prop where
  | free {s1 : LockTable} {x : LockRequest} (hhd : s.heads rId = none)
      (hnew : newRequest s trId sId rId mode = .ok (s1, x)) :
      Locked s trId sId rId mode (s1.setHead rId (some ⟨[x], mode, false⟩)) .lockOk
  | granted {s1 : LockTable} {x : LockRequest} {head : LockHead} (hhd : s.heads rId = some head)
      (hfr : ∀ y ∈ head.queue, y.trId ≠ trId)
      (hnew : newRequest s trId sId rId mode = .ok (s1, x))
      (hwait : head.waiting = false) (hcompat : lockCompat mode head.grantedMode = true) :
      Locked s trId sId rId mode (s1.setHead rId (some { head with
        queue := head.queue ++ [x], grantedMode := lockMax mode head.grantedMode })) .lockOk
  | waits {s1 : LockTable} {x : LockRequest} {head : LockHead} (hhd : s.heads rId = some head)
      (hfr : ∀ y ∈ head.queue, y.trId ≠ trId)
      (hnew : newRequest s trId sId rId mode = .ok (s1, x))
      (hrefused : head.waiting = true ∨ lockCompat mode head.grantedMode = false) :
      Locked s trId sId rId mode ((s1.setHead rId (some { head with
        queue := head.queue ++ [{ x with status := .lockWaiting }],
        waiting := true })).setWait trId (some x.id)) .lockNotLocked
  | converting {head : LockHead} {a b : List LockRequest} {own : LockRequest}
      (hhd : s.heads rId = some head) (hqueue : head.queue = a ++ own :: b)
      (hown : own.trId = trId) (ha : ∀ x ∈ a, x.trId ≠ trId)
      (hblk : Blocked head.queue own (lockMax own.mode mode)) :
      Locked s trId sId rId mode ((s.setHead rId (some { head with
        queue := a ++ toConverting own mode :: b,
        waiting := true })).setWait trId (some own.id)) .lockNotLocked
  | converted {head : LockHead} {a b : List LockRequest} {own : LockRequest}
      (hhd : s.heads rId = some head) (hqueue : head.queue = a ++ own :: b)
      (hown : own.trId = trId) (ha : ∀ x ∈ a, x.trId ≠ trId)
      (hfree : ¬ Blocked head.queue own (lockMax own.mode mode)) :
      Locked s trId sId rId mode (s.setHead rId (some { head with
        queue := a ++ toConverted own mode :: b,
        grantedMode := lockMax head.grantedMode (lockMax own.mode mode) })) .lockOk

theorem any_conflict_iff {queue : List LockRequest} {own : LockRequest} {wanted : LockMode} :
    (queue.any fun request => request.held && request.trId != own.trId &&
      !lockCompat request.mode wanted) = true ↔ Blocked queue own wanted := by
  simp only [any_eq_true, Bool.and_eq_true, bne_iff_ne, ne_eq, Bool.not_eq_true', Blocked,
    lockCompat_comm wanted, and_assoc, and_left_comm]

theorem lock_inv {reply : LockReply} (h : lock s trId sId rId mode = .ok (s', reply)) :
    Locked s trId sId rId mode s' reply := by
  unfold lock at h
  split at h
  next hhd =>
    obtain ⟨p, hnew, h⟩ := bind_eq_ok.1 h
    cases h
    exact .free hhd hnew
  next head hhd =>
  split at h
  next hnone =>
    have hfr := findRequest_eq_none.1 hnone
    obtain ⟨⟨s1, x⟩, hnew, h⟩ := bind_eq_ok.1 h
    dsimp only at h
    split at h
    next hok =>
      rw [Bool.and_eq_true, Bool.not_eq_true'] at hok
      cases h
      exact .granted hhd hfr hnew hok.1 hok.2
    next hok =>
      cases h
      refine .waits hhd hfr hnew ?_
      rw [Bool.and_eq_true, Bool.not_eq_true', not_and, Bool.not_eq_true] at hok
      cases hw : head.waiting with
      | true => exact .inl rfl
      | false => exact .inr (hok hw)
  next own hfind =>
    obtain ⟨a, b, hqueue, hown, ha⟩ := findRequest_eq_some hfind
    subst hown
    have hupdate : ∀ f, updateRequest own.trId f head.queue = a ++ f own :: b := by
      intro f
      rw [hqueue, updateRequest_split f rfl ha]
    simp only [hupdate] at h
    split at h
    next hblk =>
      cases h
      exact .converting hhd hqueue rfl ha (any_conflict_iff.1 hblk)
    next hfree =>
      cases h
      exact .converted hhd hqueue rfl ha fun hblk => hfree (any_conflict_iff.2 hblk)

theorem perform_lock_inv (h : perform s (.lock trId sId rId mode) = .ok s') :
    ∃ reply, Locked s trId sId rId mode s' reply := by
  cases hres : lock s trId sId rId mode with
  | error e =>
    rw [perform, hres] at h
    cases h
  | ok p =>
    rw [perform, hres] at h
    cases h
    exact ⟨_, lock_inv hres⟩

/-! ## `unlock` -/

inductive Unlocked (s : LockTable) (trId : TransactionId) (rId : ResourceId) :
    LockTable → Prop where
  | absent (h : ∀ head, s.heads rId = some head → ∀ x ∈ head.queue, x.trId ≠ trId) :
      Unlocked s trId rId s
  | last {s1 : LockTable} {head : LockHead} {own : LockRequest} (hhd : s.heads rId = some head)
      (hqueue : head.queue = [own]) (hown : own.trId = trId)
      (hdel : deleteRequest s own = .ok s1) : Unlocked s trId rId (s1.setHead rId none)
  | rescan {s1 : LockTable} {head head' : LockHead} {a b woken : List LockRequest}
      {own : LockRequest}
      (hhd : s.heads rId = some head) (hqueue : head.queue = a ++ own :: b)
      (hown : own.trId = trId) (ha : ∀ x ∈ a, x.trId ≠ trId) (hne : a ++ b ≠ [])
      (hdel : deleteRequest s own = .ok s1)
      (hscan : scan [] .nullLock false false [] (a ++ b) = .ok ⟨head', woken⟩) :
      Unlocked s trId rId ((woken.foldl wake s1).setHead rId (some head'))

theorem unlock_inv (h : unlock s trId rId = .ok s') : Unlocked s trId rId s' := by
  unfold unlock at h
  split at h
  next hhd =>
    cases h
    refine .absent fun head hsome => ?_
    rw [hhd] at hsome
    cases hsome
  next head hhd =>
  split at h
  next hnone =>
    cases h
    refine .absent fun head' hsome => ?_
    obtain rfl : head = head' := Option.some.inj (hhd.symm.trans hsome)
    exact findRequest_eq_none.1 hnone
  next own hfind =>
    obtain ⟨a, b, hqueue, hown, ha⟩ := findRequest_eq_some hfind
    have herase : head.queue.eraseP (fun r => r.trId = trId) = a ++ b := by
      rw [hqueue, eraseP_append_right _ (by simpa using ha),
        eraseP_cons_of_pos (by simpa using hown)]
    rw [herase] at h
    obtain ⟨s1, hdel, h⟩ := bind_eq_ok.1 h
    split at h
    next hempty =>
      cases h
      obtain ⟨rfl, rfl⟩ := append_eq_nil_iff.1 (isEmpty_iff.1 hempty)
      exact .last hhd hqueue hown hdel
    next hempty =>
      have hne : a ++ b ≠ [] := fun hnil => hempty (isEmpty_iff.2 hnil)
      obtain ⟨result, hscan, h⟩ := bind_eq_ok.1 h
      cases h
      exact .rescan hhd hqueue hown ha hne hdel hscan

/-! ## `release_tr_locks` -/

def UnlockStep (trId : TransactionId) (s s' : LockTable) : Prop := ∃ rId, unlock s trId rId = .ok s'

theorem releaseLoop_steps (trId : TransactionId) (fuel : Nat) (start : Option RequestId)
    (h : releaseLoop trId fuel start s = .ok s') :
    Relation.ReflTransGen (UnlockStep trId) s s' := by
  induction fuel generalizing start s with
  | zero =>
    cases start with
    | none =>
      cases h
      exact .refl
    | some _ => cases h
  | succ fuel ih =>
    cases start with
    | none =>
      cases h
      exact .refl
    | some request =>
      rw [releaseLoop] at h
      split at h
      · cases h
      next cell _ =>
        obtain ⟨s1, hunl, h⟩ := bind_eq_ok.1 h
        exact .head ⟨cell.rId, hunl⟩ (ih cell.tranNext h)

theorem releaseTrLocks_steps (h : releaseTrLocks s trId = .ok s') :
    Relation.ReflTransGen (UnlockStep trId) s s' ∧ s'.trans trId = none := by
  unfold releaseTrLocks at h
  split at h
  next hnone =>
    cases h
    exact ⟨.refl, hnone⟩
  · obtain ⟨s1, hloop, h⟩ := bind_eq_ok.1 h
    split at h
    next hnone =>
      cases h
      exact ⟨releaseLoop_steps trId _ _ hloop, hnone⟩
    · cases h

theorem releaseTrLocks_induction {P : LockTable → Prop}
    (hunl : ∀ s s' rId, P s → Unlocked s trId rId s' → P s') (h : releaseTrLocks s trId = .ok s')
    (hs : P s) : P s' := by
  have hsteps := (releaseTrLocks_steps h).1
  clear h
  induction hsteps with
  | refl => exact hs
  | tail _ hstep ih =>
    obtain ⟨rId, hstep⟩ := hstep
    exact hunl _ _ rId ih (unlock_inv hstep)

/-! ## Runs -/

theorem reachable_induction {Inv : LockTable → Prop} (hinit : Inv init)
    (hlock : ∀ s s' trId sId rId mode reply, Inv s → ¬ IsWaiting s trId →
      condition s (.lock trId sId rId mode) → Locked s trId sId rId mode s' reply → Inv s')
    (hunl : ∀ s s' trId rId, Inv s → condition s (.unlock trId rId) →
      Unlocked s trId rId s' → Inv s')
    (hrel : ∀ s s' trId, Inv s → condition s (.releaseTrLocks trId) →
      releaseTrLocks s trId = .ok s' → Inv s') (h : Reachable condition s) : Inv s := by
  induction h with
  | refl => exact hinit
  | tail _ hstep ih =>
    obtain ⟨call, hallowed, hcond, hperform⟩ := hstep
    cases call with
    | lock trId sId rId mode =>
      obtain ⟨reply, hlocked⟩ := perform_lock_inv hperform
      exact hlock _ _ _ _ _ _ _ ih hallowed hcond hlocked
    | unlock trId rId => exact hunl _ _ _ _ ih hcond (unlock_inv hperform)
    | releaseTrLocks trId => exact hrel _ _ _ ih hcond hperform

theorem reachable_induction_any {Inv : LockTable → Prop} (hinit : Inv init)
    (hlock : ∀ s s' trId sId rId mode reply, Inv s → ¬ IsWaiting s trId →
      Locked s trId sId rId mode s' reply → Inv s')
    (hunl : ∀ s s' trId rId, Inv s → Unlocked s trId rId s' → Inv s') (h : Reachable anyCall s) :
    Inv s := by
  refine reachable_induction hinit
    (fun s s' trId sId rId mode reply hs hw _ hl => hlock s s' trId sId rId mode reply hs hw hl)
    (fun s s' trId rId hs _ hu => hunl s s' trId rId hs hu) ?_ h
  intro s s' trId hs _ hrel
  exact releaseTrLocks_induction (fun s s' rId => hunl s s' trId rId) hrel hs

/-! ## Checking a run by evaluation -/

def notWaitingOn (resources : List ResourceId) (s : LockTable) (trId : TransactionId) : Bool :=
  resources.all fun rId =>
    match s.heads rId with
    | none => true
    | some head => head.queue.all fun x => x.trId != trId || x.status == .lockGranted

def allowedOn (resources : List ResourceId) (s : LockTable) : Call → Bool
  | .lock trId _ rId _ => resources.contains rId && notWaitingOn resources s trId
  | _ => true

def checkedRun (resources : List ResourceId) : LockTable → List Call → Option LockTable
  | s, [] => some s
  | s, call :: calls =>
    if allowedOn resources s call then
      match perform s call with
      | .ok s => checkedRun resources s calls
      | .error _ => none
    else none

theorem unlocked_heads_none (h : Unlocked s trId rId s') (hr : s.heads r = none) :
    s'.heads r = none := by
  cases h with
  | absent => exact hr
  | last hhd _ _ hdel => rw [setHead_heads, (deleteRequest_fields hdel).1, hr, ite_self]
  | @rescan s1 _ _ _ _ woken _ hhd _ _ _ _ hdel _ =>
    have hne : r ≠ rId := by
      rintro rfl
      rw [hr] at hhd
      cases hhd
    rw [setHead_heads, if_neg hne, (foldl_wake_fields woken s1).1,
      (deleteRequest_fields hdel).1, hr]

theorem locked_heads_ne {reply : LockReply} (h : Locked s trId sId rId mode s' reply) (hr : r ≠ rId)
    : s'.heads r = s.heads r := by
  cases h with
  | free _ hnew | granted _ _ hnew => rw [setHead_heads, if_neg hr, (newRequest_spec hnew).2.1]
  | waits _ _ hnew => rw [setWait_heads, setHead_heads, if_neg hr, (newRequest_spec hnew).2.1]
  | converting => rw [setWait_heads, setHead_heads, if_neg hr]
  | converted => rw [setHead_heads, if_neg hr]

theorem perform_heads_none {call : Call} (h : perform s call = .ok s') (hr : s.heads r = none)
    (hcall : ∀ trId sId rId mode, call = .lock trId sId rId mode → r ≠ rId) :
    s'.heads r = none := by
  cases call with
  | lock trId sId rId mode =>
    obtain ⟨reply, hlocked⟩ := perform_lock_inv h
    rw [locked_heads_ne hlocked (hcall _ _ _ _ rfl), hr]
  | unlock trId rId => exact unlocked_heads_none (unlock_inv h) hr
  | releaseTrLocks trId =>
    exact releaseTrLocks_induction (fun s s' rId hs hu => unlocked_heads_none hu hs) h hr

theorem not_isWaiting_of_check (hs : ∀ r, r ∉ resources → s.heads r = none)
    (h : notWaitingOn resources s trId = true) : ¬ IsWaiting s trId := by
  rintro ⟨r, head, hhd, x, hx, htr, hst⟩
  have hmem : r ∈ resources := by
    by_contra hnot
    rw [hs r hnot] at hhd
    cases hhd
  have hr := all_eq_true.1 h r hmem
  rw [hhd] at hr
  have hxr := all_eq_true.1 hr x hx
  simp [htr, hst] at hxr

theorem step_of_check {call : Call} (hs : ∀ r, r ∉ resources → s.heads r = none)
    (hallowed : allowedOn resources s call = true) (hcond : condition s call)
    (hperform : perform s call = .ok s') :
    Step condition s s' ∧ ∀ r, r ∉ resources → s'.heads r = none := by
  constructor
  · refine ⟨call, ?_, hcond, hperform⟩
    cases call with
    | lock trId sId rId mode => exact not_isWaiting_of_check hs (Bool.and_eq_true_iff.1 hallowed).2
    | unlock => trivial
    | releaseTrLocks => trivial
  · intro r hr
    refine perform_heads_none hperform (hs r hr) ?_
    rintro trId sId rId mode rfl rfl
    have hmem := (Bool.and_eq_true_iff.1 hallowed).1
    exact hr (by simpa using hmem)

theorem checkedRun_steps (calls : List Call) (hcond : ∀ call ∈ calls, ∀ s, condition s call)
    (hs : ∀ r, r ∉ resources → s.heads r = none) (h : checkedRun resources s calls = some s') :
    Relation.ReflTransGen (Step condition) s s' := by
  induction calls generalizing s with
  | nil =>
    cases h
    exact .refl
  | cons call calls ih =>
    rw [checkedRun] at h
    split at h
    next hallowed =>
      split at h
      next s1 hperform =>
        obtain ⟨hstep, hs1⟩ := step_of_check hs hallowed (hcond call (by simp) s) hperform
        exact .head hstep (ih (fun c hc => hcond c (by simp [hc])) hs1 h)
      · cases h
    · cases h

theorem checkedRun_reachable {calls : List Call} (hcond : ∀ call ∈ calls, ∀ s, condition s call)
    (h : checkedRun resources init calls = some s) : Reachable condition s :=
  checkedRun_steps calls hcond (fun _ _ => rfl) h

end Sedna.LockManager.Steps
