import Sedna.LockManager.Release
import Sedna.LockManager.Waits

/-!
# The search for a deadlock

The graph that `visit` walks, against the relation of waiting that the queues
define.  Every edge of the graph is a wait, so a victim lies on a cycle of
waits.
-/

namespace Sedna.LockManager.Deadlock

open Relation (TransGen ReflTransGen)
open Library Modes Table Queue Steps TranList Release Waits List

/-! ## Waiting -/

def wanted (x : LockRequest) : LockMode :=
  if x.status = .lockConverting then x.convertMode else x.mode

def Ahead (queue : List LockRequest) (y x : LockRequest) : Prop :=
  ∃ a b, queue = a ++ x :: b ∧ y ∈ a

/-- `x` is not granted before `y` gives up the mode it holds, or, in the order
of the queue, before `y` is granted. -/
def BlockedBy (queue : List LockRequest) (x y : LockRequest) : Prop :=
  y ∈ queue ∧ y.trId ≠ x.trId ∧
    (y.held = true ∧ lockCompat y.mode (wanted x) = false ∨
      y.status ≠ .lockGranted ∧ Ahead queue y x)

/-- Some request of `u` waits for a request of `v` on the same resource. -/
def WaitsFor (s : LockTable) (u v : TransactionId) : Prop :=
  ∃ rId head x y, s.heads rId = some head ∧ x ∈ head.queue ∧ x.status ≠ .lockGranted ∧
    BlockedBy head.queue x y ∧ x.trId = u ∧ y.trId = v

/-! ## The edges of `visit` -/

/-- What `visit` compares of a request ahead. -/
def Opposes (x y : LockRequest) : Prop :=
  lockCompat y.mode (wanted x) = false ∨
    y.status = .lockConverting ∧ lockCompat y.convertMode (wanted x) = false

instance (x y : LockRequest) : Decidable (Opposes x y) := inferInstanceAs (Decidable (_ ∨ _))

/-- The requests whose transactions `visit` goes on to from `x`. -/
def Visits (queue : List LockRequest) (x y : LockRequest) : Prop :=
  Ahead queue y x ∧ Opposes x y ∨
    Ahead queue x y ∧ y.held = true ∧ lockCompat y.mode (wanted x) = false

variable {v : TransactionId} {queue : List LockRequest} {x y : LockRequest} {head : LockHead}
  {s : LockTable} {me : TransactionId} {wait : LockRequest} {a b : List LockRequest}

theorem mem_blockersAhead (a b : List LockRequest) (hwait : wait.trId = me)
    (hst : wait.status = .lockWaiting) (ha : ∀ y ∈ a, y.trId ≠ me) :
    v ∈ blockersAhead me wait (a ++ wait :: b) ↔ ∃ y ∈ a, Opposes wait y ∧ y.trId = v := by
  have hwanted : wanted wait = wait.mode := by simp [wanted, hst]
  induction a with
  | nil => simp [blockersAhead, hwait]
  | cons z a ih =>
    have hz : z.trId ≠ me := ha z (by simp)
    have hrest := ih (forall_mem_of_forall_mem_cons ha)
    have htest : (!lockCompat z.mode wait.mode ||
        (z.status == .lockConverting && !lockCompat z.convertMode wait.mode)) = true ↔
        Opposes wait z := by
      simp [Opposes, hwanted]
    rw [cons_append, blockersAhead, if_neg hz]
    by_cases hopp : Opposes wait z
    · rw [if_pos (htest.2 hopp)]
      simp [hrest, hopp, @eq_comm _ v]
    · rw [if_neg (mt htest.1 hopp)]
      simp [hrest, hopp]

theorem mem_blockersHeld_behind (b : List LockRequest) (hst : wait.status = .lockConverting)
    (hb : ∀ y ∈ b, y.trId ≠ me) (hknown : ∀ y ∈ b, KnownStatus y)
    (hord : b.Pairwise fun x y => x.status = .lockWaiting → y.status = .lockWaiting) :
    v ∈ blockersHeld me wait false b ↔
      ∃ y ∈ b, (y.held = true ∧ lockCompat y.mode (wanted wait) = false) ∧ y.trId = v := by
  have hwanted : wanted wait = wait.convertMode := by simp [wanted, hst]
  induction b with
  | nil => simp [blockersHeld]
  | cons z b ih =>
    have hz : z.trId ≠ me := hb z (by simp)
    rw [blockersHeld]
    by_cases hzw : z.status = .lockWaiting
    · -- everyone from here on waits
      rw [if_pos hzw]
      constructor
      · intro hmem
        cases hmem
      · rintro ⟨y, hy, ⟨hheld, -⟩, -⟩
        rw [LockRequest.held, waiting_of_head hord hzw y hy] at hheld
        cases hheld
    · have hheld : z.held = true := by
        rcases hknown z (by simp) with hs | hs | hs
        · exact held_iff.2 (.inl hs)
        · exact held_iff.2 (.inr hs)
        · exact absurd hs hzw
      have hrest := ih (forall_mem_of_forall_mem_cons hb)
        (forall_mem_of_forall_mem_cons hknown) (pairwise_cons.1 hord).2
      rw [if_neg hzw, if_neg hz]
      cases hcompat : lockCompat z.mode wait.convertMode with
      | true => simp [hrest, hwanted, hcompat]
      | false => simp [hrest, hwanted, hcompat, hheld, @eq_comm _ v]

theorem mem_blockersHeld (a b : List LockRequest) (hwait : wait.trId = me)
    (hst : wait.status = .lockConverting) (ha : ∀ y ∈ a, y.trId ≠ me ∧ y.status ≠ .lockWaiting)
    (hb : ∀ y ∈ b, y.trId ≠ me) (hknown : ∀ y ∈ b, KnownStatus y)
    (hord : b.Pairwise fun x y => x.status = .lockWaiting → y.status = .lockWaiting) :
    v ∈ blockersHeld me wait true (a ++ wait :: b) ↔
      (∃ y ∈ a, Opposes wait y ∧ y.trId = v) ∨
        ∃ y ∈ b, (y.held = true ∧ lockCompat y.mode (wanted wait) = false) ∧ y.trId = v := by
  have hwanted : wanted wait = wait.convertMode := by simp [wanted, hst]
  induction a with
  | nil =>
    rw [nil_append, blockersHeld, if_neg (by rw [hst]; exact LockStatus.noConfusion),
      if_pos hwait, mem_blockersHeld_behind b hst hb hknown hord]
    simp
  | cons z a ih =>
    obtain ⟨hz, hzw⟩ := ha z (by simp)
    have hrest := ih (forall_mem_of_forall_mem_cons ha)
    have htest : ((true && (!lockCompat z.mode wait.convertMode ||
        (z.status == .lockConverting && !lockCompat z.convertMode wait.convertMode))) ||
        (!true && !lockCompat z.mode wait.convertMode)) = true ↔ Opposes wait z := by
      simp [Opposes, hwanted]
    rw [cons_append, blockersHeld, if_neg hzw, if_neg hz]
    by_cases hopp : Opposes wait z
    · rw [if_pos (htest.2 hopp)]
      simp [hrest, hopp, @eq_comm _ v, or_assoc]
    · rw [if_neg (mt htest.1 hopp)]
      simp [hrest, hopp]

section

variable (h : queue.Pairwise fun x y => x.trId ≠ y.trId)
include h

theorem split_unique {a' b' : List LockRequest} (hq : queue = a ++ x :: b)
    (hq' : queue = a' ++ x :: b') : a = a' ∧ b = b' := by
  rw [hq, pairwise_append, pairwise_cons] at h
  obtain ⟨-, ⟨hbehind, -⟩, hahead⟩ := h
  have ha : x ∉ a := fun hx => hahead x hx x (by simp) rfl
  have hb : x ∉ b := fun hx => hbehind x hx rfl
  obtain ⟨rfl, -, rfl⟩ := (append_cons_inj_of_notMem ha hb).1 (hq.symm.trans hq')
  exact ⟨rfl, rfl⟩

theorem ahead_iff (hq : queue = a ++ x :: b) : Ahead queue y x ↔ y ∈ a := by
  constructor
  · rintro ⟨a', b', hq', hy⟩
    rw [(split_unique h hq hq').1]
    exact hy
  · intro hy
    exact ⟨a, b, hq, hy⟩

theorem behind_iff (hq : queue = a ++ x :: b) : Ahead queue x y ↔ y ∈ b := by
  constructor
  · rintro ⟨c, d, hcd, hx⟩
    obtain ⟨c1, c2, rfl⟩ := append_of_mem hx
    have hq' : queue = c1 ++ x :: (c2 ++ y :: d) := by simp [hcd]
    rw [(split_unique h hq hq').2]
    simp
  · intro hy
    obtain ⟨b1, b2, rfl⟩ := append_of_mem hy
    exact ⟨a ++ x :: b1, b2, by simp [hq], by simp⟩

end

theorem Ahead.trans {z : LockRequest} (hdist : queue.Pairwise fun x y => x.trId ≠ y.trId)
    (hzy : Ahead queue z y) (hyx : Ahead queue y x) : Ahead queue z x := by
  obtain ⟨a, b, rfl, hy⟩ := hyx
  obtain ⟨a1, a2, rfl⟩ := append_of_mem hy
  have hz : z ∈ a1 := by
    apply (ahead_iff hdist _).1 hzy
    · exact a2 ++ x :: b
    · simp
  exact ⟨_, b, rfl, by simp [hz]⟩

theorem ahead_or_ahead (hx : x ∈ queue) (hy : y ∈ queue) (hne : y ≠ x) :
    Ahead queue y x ∨ Ahead queue x y := by
  obtain ⟨a, b, rfl⟩ := append_of_mem hx
  rcases mem_append.1 hy with hy | hy
  · exact .inl ⟨a, b, rfl, hy⟩
  · right
    have hyb : y ∈ b := (mem_cons.1 hy).resolve_left hne
    obtain ⟨b1, b2, rfl⟩ := append_of_mem hyb
    exact ⟨a ++ x :: b1, b2, by simp, by simp⟩

def queueBlockers (queue : List LockRequest) (x : LockRequest) : List TransactionId :=
  if x.status = .lockWaiting then blockersAhead x.trId x queue
  else blockersHeld x.trId x true queue

theorem mem_queueBlockers (h : QueueInv head) (hx : x ∈ head.queue)
    (hpend : x.status ≠ .lockGranted) :
    v ∈ queueBlockers head.queue x ↔ ∃ y, Visits head.queue x y ∧ y.trId = v := by
  obtain ⟨a, b, hqueue⟩ := append_of_mem hx
  have hdist := h.distinct
  have hord := h.ordered
  rw [hqueue, pairwise_append, pairwise_cons] at hdist hord
  obtain ⟨-, ⟨hbehind, -⟩, hahead⟩ := hdist
  obtain ⟨-, ⟨hwait, horderedB⟩, horderedA⟩ := hord
  have ha : ∀ y ∈ a, y.trId ≠ x.trId := fun y hy => hahead y hy x (by simp)
  have hb : ∀ y ∈ b, y.trId ≠ x.trId := fun y hy => (hbehind y hy).symm
  have hvis : (∃ y, Visits head.queue x y ∧ y.trId = v) ↔
      (∃ y ∈ a, Opposes x y ∧ y.trId = v) ∨
        ∃ y ∈ b, (y.held = true ∧ lockCompat y.mode (wanted x) = false) ∧ y.trId = v := by
    simp [Visits, ahead_iff h.distinct hqueue, behind_iff h.distinct hqueue, or_and_right,
      exists_or, and_assoc]
  rw [hvis, queueBlockers]
  rcases h.status x hx with hs | hs | hs
  · exact absurd hs hpend
  · have hknown : ∀ y ∈ b, KnownStatus y := by
      intro y hy
      apply h.status y
      rw [hqueue]
      simp [hy]
    have haheld : ∀ y ∈ a, y.trId ≠ x.trId ∧ y.status ≠ .lockWaiting := by
      intro y hy
      refine ⟨ha y hy, fun hw => ?_⟩
      rw [horderedA y hy x (by simp) hw] at hs
      cases hs
    rw [if_neg (by rw [hs]; exact LockStatus.noConfusion), hqueue]
    exact mem_blockersHeld a b rfl hs haheld hb hknown horderedB
  · -- nobody behind a waiting request holds a mode
    have hnone : ¬ ∃ y ∈ b, (y.held = true ∧ lockCompat y.mode (wanted x) = false) ∧
        y.trId = v := by
      rintro ⟨y, hy, ⟨hheld, -⟩, -⟩
      rw [LockRequest.held, hwait y hy hs] at hheld
      cases hheld
    rw [if_pos hs, hqueue, mem_blockersAhead a b rfl hs ha, or_iff_left hnone]

/-! ## The search over the table -/

theorem followWait_of_mem (h : RunInv s) {rId : ResourceId} (hhd : s.heads rId = some head)
    (hx : x ∈ head.queue) : followWait s x.id = some (x, head.queue) := by
  obtain ⟨S, hs⟩ := h.lists
  have hhas : Has s rId x.trId x.id := ⟨head, x, hhd, hx, rfl, rfl⟩
  obtain ⟨cell, hcell, rfl⟩ := (hs.registered.links_iff x.id rId).2 ⟨x.trId, hhas⟩
  have hfind : head.queue.find? (fun y => y.id = x.id) = some x := by
    cases hf : head.queue.find? (fun y => y.id = x.id) with
    | none =>
      have hnone := find?_eq_none.1 hf x hx
      simp at hnone
    | some y =>
      have hy := mem_of_find?_eq_some hf
      have hid : y.id = x.id := by simpa using find?_some hf
      have htr := hs.registered.owner _ _ _ _ ⟨head, y, hhd, hy, rfl, hid⟩ hhas
      rw [(h.table _ head hhd).eq_of_trId hy hx htr]
  simp [followWait, hcell, hhd, hfind]

theorem blockers_of_pending (h : RunInv s) {rId : ResourceId} (hhd : s.heads rId = some head)
    (hx : x ∈ head.queue) (hpend : x.status ≠ .lockGranted) :
    hasWait s x.trId = true ∧ blockers s x.trId = .ok (queueBlockers head.queue x) := by
  have hwait := h.waits.set rId x ⟨head, hhd, hx, hpend⟩
  refine ⟨?_, ?_⟩
  · show (waitOf s x.trId).isSome = true
    rw [hwait]
    rfl
  · unfold blockers
    rw [show (s.trans x.trId).bind TransCB.wait = some x.id from hwait]
    simp only [followWait_of_mem h hhd hx, queueBlockers]
    split <;> rfl

theorem edge_iff (h : RunInv s) {u : TransactionId} :
    DepthFirst.Edge (hasWait s) (blockers s) u v ↔
      ∃ rId head x y, s.heads rId = some head ∧ x ∈ head.queue ∧ x.status ≠ .lockGranted ∧
        Visits head.queue x y ∧ x.trId = u ∧ y.trId = v := by
  constructor
  · rintro ⟨hwait, targets, htargets, hv⟩
    obtain ⟨id, hid⟩ := Option.isSome_iff_exists.1 hwait
    have hfollow : ∃ p, followWait s id = some p := by
      cases hf : followWait s id with
      | some p => exact ⟨p, rfl⟩
      | none =>
        unfold blockers at htargets
        rw [hid] at htargets
        simp only [hf] at htargets
        cases htargets
    obtain ⟨⟨w, queue⟩, hfollow⟩ := hfollow
    obtain ⟨cell, _, head, hhd, y, hy, _⟩ : ∃ cell, s.links id = some cell ∧
        ∃ head, s.heads cell.rId = some head ∧
          ∃ y, head.queue.find? (fun y => y.id = id) = some y ∧ (y, head.queue) = (w, queue) := by
      simpa [followWait, Option.bind_eq_some_iff] using hfollow
    have hyid : y.id = id := by simpa using find?_some hy
    have hhas : Has s cell.rId y.trId id := ⟨head, y, hhd, mem_of_find?_eq_some hy, rfl, hyid⟩
    obtain ⟨x, ⟨head', hhd', hx, hpend⟩, rfl, -⟩ := h.waits.points u id _ _ hid hhas
    rw [(blockers_of_pending h hhd' hx hpend).2] at htargets
    cases htargets
    obtain ⟨z, hvis, rfl⟩ := (mem_queueBlockers (h.table _ _ hhd') hx hpend).1 hv
    exact ⟨cell.rId, head', x, z, hhd', hx, hpend, hvis, rfl, rfl⟩
  · rintro ⟨rId, head, x, y, hhd, hx, hpend, hvis, rfl, rfl⟩
    obtain ⟨hwait, hblockers⟩ := blockers_of_pending h hhd hx hpend
    refine ⟨hwait, _, hblockers, ?_⟩
    exact (mem_queueBlockers (h.table rId head hhd) hx hpend).2 ⟨y, hvis, rfl⟩

/-! ## Soundness -/

theorem Ahead.mem (h : Ahead queue y x) : y ∈ queue ∧ x ∈ queue := by
  obtain ⟨a, b, rfl, hy⟩ := h
  simp [hy]

theorem Ahead.trId_ne (hdist : queue.Pairwise fun x y => x.trId ≠ y.trId)
    (h : Ahead queue y x) : y.trId ≠ x.trId := by
  obtain ⟨a, b, rfl, hy⟩ := h
  exact (pairwise_append.1 hdist).2.2 y hy x (by simp)

theorem Visits.blockedBy (hinv : QueueInv head) (h : Visits head.queue x y) :
    BlockedBy head.queue x y := by
  rcases h with ⟨hahead, hopp⟩ | ⟨hbehind, hheld⟩
  · refine ⟨hahead.mem.1, hahead.trId_ne hinv.distinct, ?_⟩
    rcases hinv.status y hahead.mem.1 with hs | hs | hs
    · left
      refine ⟨held_iff.2 (.inl hs), ?_⟩
      rcases hopp with hmode | ⟨hconv, -⟩
      · exact hmode
      · rw [hs] at hconv
        cases hconv
    all_goals exact .inr ⟨by rw [hs]; exact LockStatus.noConfusion, hahead⟩
  · exact ⟨hbehind.mem.2, (hbehind.trId_ne hinv.distinct).symm, .inl hheld⟩

theorem edge_waitsFor (h : RunInv s) {u : TransactionId}
    (he : DepthFirst.Edge (hasWait s) (blockers s) u v) : WaitsFor s u v := by
  obtain ⟨rId, head, x, y, hhd, hx, hpend, hvis, hu, hv⟩ := (edge_iff h).1 he
  exact ⟨rId, head, x, y, hhd, hx, hpend, hvis.blockedBy (h.table rId head hhd), hu, hv⟩

theorem deadlock_eq_true {trId : TransactionId} :
    deadlock s trId = .ok true ↔
      (∃ tran, s.trans trId = some tran) ∧ visit s trId = .error .cycle := by
  unfold deadlock
  constructor
  · intro h
    split at h
    · cases h
    next tran htran =>
    split at h
    · cases h
    next hcycle => exact ⟨⟨tran, htran⟩, hcycle⟩
    · cases h
    · cases h
  · rintro ⟨⟨tran, htran⟩, hcycle⟩
    simp only [htran, hcycle]

/-- A victim waits, over other transactions, for itself. -/
theorem deadlock_sound {s : LockTable} (h : Reachable anyCall s) {trId : TransactionId}
    (hd : deadlock s trId = .ok true) : TransGen (WaitsFor s) trId trId := by
  have hcycle := (deadlock_eq_true.1 hd).2
  apply TransGen.mono _ trId trId (DepthFirst.cycle_of_error hcycle)
  intro u v hedge
  exact edge_waitsFor (reachable_runInv h) hedge

/-- Two transactions lock two documents, each the other's as its second. -/
theorem deadlock_sound_two :
    ∃ s, Reachable anyCall s ∧ deadlock s 2 = .ok true ∧ TransGen (WaitsFor s) 2 2 := by
  obtain ⟨s, hs, hdeadlock⟩ : ∃ s, checkedRun [resource "a", resource "b"] LockTable.init
      [.lock 1 1 (resource "a") .lmX, .lock 2 2 (resource "b") .lmX,
        .lock 1 1 (resource "b") .lmX, .lock 2 2 (resource "a") .lmX] = some s ∧
      deadlock s 2 = .ok true := ⟨_, rfl, rfl⟩
  have hreach : Reachable anyCall s := checkedRun_reachable (fun _ _ _ => trivial) hs
  exact ⟨s, hreach, hdeadlock, deadlock_sound hreach hdeadlock⟩

end Sedna.LockManager.Deadlock
