import Sedna.Wu.Rollback

/-!
# Queries and snapshots

Read-only transactions start on the current snapshot and leave it.  A new snapshot sees what is
committed when it is taken.  A checkpoint changes only the types of snapshots.
-/

namespace Sedna.Wu.Invariant

open Library Snapshots Versions Transactions Headers SnapshotChanges List SnapshotStore.State

variable {Data : Type} {wu : State Data} {spec : Spec Data} {ts : Nat} {c c' : ClientId}
  {client new : Client} {functions : List VeFunction}

/-! ## The number of readers -/

theorem mem_readers : c ∈ readers wu ts ↔ isReader (wu.clients c) ts = true := by
  unfold readers
  simp

theorem readers_insert {new : Option Client} (hold : isReader (wu.clients c) ts = false)
    (hnew : isReader new ts = true) :
    (readers (wu.setClient c new) ts).card = (readers wu ts).card + 1 := by
  have heq : readers (wu.setClient c new) ts = insert c (readers wu ts) := by
    ext c'
    rw [Finset.mem_insert, mem_readers, mem_readers]
    by_cases hc : c' = c
    · subst hc
      simp [hnew]
    · simp [hc]
  rw [heq]
  simp [mem_readers, hold]

theorem readers_erase {new : Option Client} (hold : isReader (wu.clients c) ts = true)
    (hnew : isReader new ts = false) :
    (readers (wu.setClient c new) ts).card = (readers wu ts).card - 1 := by
  have heq : readers (wu.setClient c new) ts = (readers wu ts).erase c := by
    ext c'
    rw [Finset.mem_erase, mem_readers, mem_readers]
    by_cases hc : c' = c
    · subst hc
      simp [hnew]
    · simp [hc]
  rw [heq]
  simp [mem_readers, hold]

theorem running_setClient_other {new : Option Client}
    (hold : ∀ client, wu.clients c = some client → client.statusAndType ≠ .updater)
    (hnew : ∀ client, new = some client → client.statusAndType ≠ .updater) :
    Running (wu.setClient c new) c' ts functions ↔ Running wu c' ts functions := by
  rw [running_setClient_closed fun client heq hst => absurd hst (hnew client heq)]
  refine and_iff_right_of_imp ?_
  rintro ⟨client, hcl, hst, -⟩ rfl
  exact hold client hcl hst

/-! ## A query starts -/

def withQuery (wu : State Data) (c : ClientId) (current : Snapshot) (rest : List Snapshot) :
    State Data :=
  ({ wu with
      list := wu.list.setLive ({ current with occupancy := current.occupancy + 1 } :: rest) } :
    State Data).setClient c (some (newClient .readOnly current.timestamp))

section

variable {current : Snapshot} {rest : List Snapshot} (hlive : wu.list.live = current :: rest)
  (hc : wu.clients c = none)

include hlive in
theorem live_withQuery (hfut : FuturesFirst wu.list) :
    (withQuery wu c current rest).list.live =
      { current with occupancy := current.occupancy + 1 } :: rest := by
  have hpast : ∀ s ∈ current :: rest, s.isFuture = false :=
    fun s hs => isFuture_live hfut (by rw [hlive]; exact hs)
  exact live_setLive (forall_mem_cons.2 (forall_mem_cons.1 hpast))

include hlive in
theorem flagged_withQuery :
    Forall₂ Flagged wu.list.snapshots (withQuery wu c current rest).list.snapshots := by
  apply forall₂_setLive Flagged.refl
  rw [hlive]
  exact .cons ⟨rfl, rfl, rfl, id⟩ (forall₂_same.2 fun s _ => Flagged.refl s)

include hlive hc in
theorem ClientInv.startQuery (h : ClientInv wu) (htime : TimeInv wu)
    (hdam : current.isDamaged = false) : ClientInv (withQuery wu c current rest) := by
  have hlive' := live_withQuery (c := c) hlive htime.futures
  apply h.replace rfl
  · intro ts
    show ts ∈ wu.list.activeTs ↔ _
    simp [hc, newClient]
  · rintro ts ⟨_, ⟨⟩, ⟨⟩, -⟩
  · intro s hs
    rw [hlive'] at hs
    rcases mem_cons.1 hs with rfl | hs
    · have hold := h.occupancy current (by rw [hlive]; simp)
      show current.occupancy + 1 = _
      rw [hold]
      exact (readers_insert (by simp [hc, isReader]) (by simp [isReader, newClient])).symm
    · have hold := h.occupancy s (by rw [hlive]; exact mem_cons_of_mem _ hs)
      have hdec := htime.ages.decreasing
      rw [hlive] at hdec
      have hlt := (pairwise_cons.1 hdec).1 s hs
      rw [hold]
      refine congrArg Finset.card (readers_congr rfl ?_).symm
      simp only [isReader, newClient, hc]
      simp [Nat.ne_of_gt hlt]
  · intro s hs
    rw [hlive] at hs
    rw [hlive']
    rcases mem_cons.1 hs with rfl | hs
    · exact ⟨_, mem_cons_self, rfl, rfl⟩
    · exact ⟨s, mem_cons_of_mem _ hs, rfl, rfl⟩
  · rintro _ ⟨⟩ -
    rw [hlive']
    exact ⟨rfl, _, mem_cons_self, rfl, hdam⟩

include hlive hc in
theorem Inv.startQuery (h : Inv wu spec) (hdam : current.isDamaged = false) :
    Inv (withQuery wu c current rest) spec := by
  have hrun : ∀ c' ts functions, Running (withQuery wu c current rest) c' ts functions ↔
      Running wu c' ts functions := by
    intro c' ts functions
    apply running_setClient_other
    · intro client hcl
      cases hc.symm.trans hcl
    · rintro client ⟨⟩
      simp [newClient]
  have hstore : StoreInv { wu with list := (withQuery wu c current rest).list } spec :=
    h.store.flagged rfl (flagged_withQuery hlive)
  exact ⟨hstore.congr_running rfl rfl rfl hrun,
    h.client.startQuery hlive hc h.store.time hdam,
    h.work.congr_running rfl hrun⟩

end

theorem Inv.register (h : Inv wu spec) (c : ClientId) (isUsingSnapshot : Bool) :
    Sound (onRegisterTransaction wu c isUsingSnapshot) spec := by
  cases hc : wu.clients c with
  | some client =>
    have heq : onRegisterTransaction wu c isUsingSnapshot = wu.fail .clientIdAlreadyInUse := by
      simp [onRegisterTransaction, hc]
    rw [heq]
    exact h.fail _
  | none =>
    cases isUsingSnapshot with
    | false =>
      cases hval : isValidTimestamp wu.timestamp with
      | true =>
        rw [onRegisterTransaction_updater h.store.time h.client hc hval]
        exact (h.registerUpdater hc hval).succeed
      | false =>
        have heq : onRegisterTransaction wu c false = wu.fail .maxTimestampValueExceeded := by
          simp [onRegisterTransaction, hc, getTimestamp, hval]
        rw [heq]
        exact h.fail _
    | true =>
      unfold onRegisterTransaction
      simp only [hc, if_true]
      split
      next => exact h.fail _
      next current rest hlive =>
        split
        next => exact h.fail _
        next hdam => exact (h.startQuery hlive hc (by simpa using hdam)).succeed

/-! ## A query ends -/

def release (ts : Nat) (s : Snapshot) : Snapshot :=
  if s.timestamp = ts then { s with occupancy := s.occupancy - 1 } else s

theorem releaseSnapshot_eq {snapshots : List Snapshot}
    (hdist : snapshots.Pairwise fun s s' => s.timestamp = ts → s'.timestamp ≠ ts) :
    releaseSnapshot ts snapshots = snapshots.map (release ts) := by
  induction snapshots with
  | nil => rfl
  | cons s rest ih =>
    obtain ⟨hs, hrest⟩ := pairwise_cons.1 hdist
    rw [releaseSnapshot, map_cons]
    by_cases hts : s.timestamp = ts
    · have hsame : rest.map (release ts) = rest := by
        conv_rhs => rw [← map_id rest]
        exact map_congr_left fun s' hs' => if_neg (hs s' hs' hts)
      rw [if_pos hts, hsame, release, if_pos hts]
    · rw [if_neg hts, ih hrest, release, if_neg hts]

theorem flagged_release (s : Snapshot) : Flagged s (release ts s) := by
  unfold release
  split
  · exact ⟨rfl, rfl, rfl, id⟩
  · exact Flagged.refl s

theorem TimeInv.distinct_timestamps (h : TimeInv wu) (hval : isValidTimestamp ts = true) :
    wu.list.snapshots.Pairwise fun s s' => s.timestamp = ts → s'.timestamp ≠ ts := by
  rw [split_live wu.list]
  have hfut : ∀ s ∈ wu.list.snapshots.takeWhile Snapshot.isFuture, s.timestamp ≠ ts := by
    intro s hs hts
    have htype : s.type = .future := by simpa [Snapshot.isFuture] using isFuture_takeWhile hs
    have hinvalid := h.futures.timestamp s ((takeWhile_sublist _).subset hs) htype
    rw [hinvalid] at hts
    rw [← hts] at hval
    exact absurd hval (by decide)
  refine pairwise_append.2 ⟨?_, ?_, ?_⟩
  · exact pairwise_of_forall_mem_list fun s hs _ _ hts => absurd hts (hfut s hs)
  · refine h.ages.decreasing.imp ?_
    intro s s' hlt hts hts'
    omega
  · intro s hs s' _ hts
    exact absurd hts (hfut s hs)

def withoutQuery (wu : State Data) (c : ClientId) (ts : Nat) (new : Option Client) : State Data :=
  ({ wu with
      list := { wu.list with snapshots := releaseSnapshot ts wu.list.snapshots } } :
    State Data).setClient c new

section

variable {new : Option Client} (hcl : wu.clients c = some client)
  (hst : client.statusAndType = .readOnly) (hnew : Idle new)

theorem live_withoutQuery (h : TimeInv wu) (hval : isValidTimestamp ts = true) :
    (withoutQuery wu c ts new).list.snapshots = wu.list.snapshots.map (release ts) ∧
      (withoutQuery wu c ts new).list.live = wu.list.live.map (release ts) := by
  have hsnaps : (withoutQuery wu c ts new).list.snapshots =
      wu.list.snapshots.map (release ts) := releaseSnapshot_eq (h.distinct_timestamps hval)
  refine ⟨hsnaps, ?_⟩
  unfold SnapshotsList.live
  rw [hsnaps, dropWhile_map]
  congr 2
  funext s
  exact (flagged_release s).isFuture

include hcl hst in
theorem Inv.valid_of_query (h : Inv wu spec) : isValidTimestamp client.timestamp = true := by
  obtain ⟨s, hs, hts, -⟩ := h.client.bound c client hcl hst
  rw [← hts]
  exact h.store.time.ages.valid s hs

include hcl hst hnew in
theorem ClientInv.endQuery (h : ClientInv wu) (htime : TimeInv wu)
    (hval : isValidTimestamp client.timestamp = true) :
    ClientInv (withoutQuery wu c client.timestamp new) := by
  have hlive : (withoutQuery wu c client.timestamp new).list.live =
      wu.list.live.map (release client.timestamp) := (live_withoutQuery htime hval).2
  apply h.replace rfl
  · intro ts
    show ts ∈ wu.list.activeTs ↔ _
    simp [not_isUpdater_of_idle hnew, hcl, hst]
  · exact fun _ hupd => absurd hupd (not_isUpdater_of_idle hnew)
  · intro s' hs'
    rw [hlive] at hs'
    obtain ⟨s, hs, rfl⟩ := mem_map.1 hs'
    have hold := h.occupancy s hs
    by_cases hts : s.timestamp = client.timestamp
    · rw [release, if_pos hts]
      show s.occupancy - 1 = _
      rw [hold, hts]
      apply Eq.symm
      apply readers_erase
      · exact isReader_eq_true_iff.2 ⟨client, hcl, hst, rfl⟩
      · exact isReader_of_idle hnew
    · rw [release, if_neg hts, hold]
      refine congrArg Finset.card (readers_congr rfl ?_).symm
      rw [isReader_of_idle hnew]
      simp [isReader, hcl, Ne.symm hts]
  · intro s hs
    refine ⟨release client.timestamp s, ?_, (flagged_release s).timestamp, ?_⟩
    · rw [hlive]
      exact mem_map_of_mem hs
    · unfold release
      split <;> rfl
  · intro client' hcl' hst'
    rw [hnew client' hcl'] at hst'
    cases hst'

include hcl hst hnew in
theorem Inv.endQuery (h : Inv wu spec) : Inv (withoutQuery wu c client.timestamp new) spec := by
  have hval := h.valid_of_query hcl hst
  have hrun : ∀ c' ts functions,
      Running (withoutQuery wu c client.timestamp new) c' ts functions ↔
        Running wu c' ts functions := by
    intro c' ts functions
    apply running_setClient_other
    · intro client' hcl'
      obtain rfl : client = client' := Option.some.inj (hcl.symm.trans hcl')
      simp [hst]
    · intro client' hcl'
      simp [hnew client' hcl']
  have hflagged : Forall₂ Flagged wu.list.snapshots
      (withoutQuery wu c client.timestamp new).list.snapshots := by
    rw [(live_withoutQuery h.store.time hval).1, forall₂_map_right_iff]
    exact forall₂_same.2 fun s _ => flagged_release s
  have hstore : StoreInv { wu with list := (withoutQuery wu c client.timestamp new).list } spec :=
    h.store.flagged rfl hflagged
  exact ⟨hstore.congr_running rfl rfl rfl hrun,
    h.client.endQuery hcl hst hnew h.store.time hval, h.work.congr_running rfl hrun⟩

end

section

variable (h : Inv wu spec)
include h

theorem onTransactionEnd_query (hcl : wu.clients c = some client)
    (hst : client.statusAndType = .readOnly) :
    ∃ ended, onTransactionEnd wu c client = ended ∧ ended.error = none ∧ Sound ended spec ∧
      Idle (ended.wu.clients c) ∧
      Kept { wu.list with snapshots := releaseSnapshot client.timestamp wu.list.snapshots }
        ended.wu.list ∧
      ∀ call ∈ ended.frees, ∀ snTs, call.request.discarding = some snTs →
        ∀ s ∈ ended.wu.list.live, s.timestamp ≠ snTs := by
  have hidle := idle_completed client
  have hinv := h.endQuery hcl hst hidle
  obtain ⟨herror, hfreed, hkept, hleaves⟩ := purifySnapshots_spec hinv.store true
  refine ⟨_, rfl, ?_⟩
  unfold onTransactionEnd
  simp only [hst]
  split
  next error hpur =>
    have hpur : (purifySnapshots
        (withoutQuery wu c client.timestamp (some
          { client with statusAndType := .completed, timestamp := invalidTimestamp })).list
        true).error = some error := hpur
    rw [herror] at hpur
    cases hpur
  next hpur =>
    refine ⟨hpur, ⟨hinv.purify true, hfreed.calls⟩, ?_, hkept, ?_⟩
    · simpa using hidle
    · intro call hcall snTs hdis
      exact (hleaves call.request (request_mem_of_freeBlocks hcall) snTs hdis).2

/-! ## Commit and unregistration -/

theorem Inv.untouched_of_not_running (hc : ∀ ts functions, ¬ Running wu c ts functions) (x : Nat) :
    ¬ spec.Touched c x := by
  intro htch
  obtain ⟨ts, functions, hrun, -⟩ := h.work.touched c x htch
  exact hc ts functions hrun

theorem Inv.commit (c : ClientId) : Sound (onCommitTransaction wu c) (spec.commit c) := by
  have hoth : (∀ client, wu.clients c = some client → client.statusAndType ≠ .updater) →
      spec.commit c = spec := by
    intro hnot
    apply commit_of_untouched
    apply h.untouched_of_not_running
    rintro ts functions ⟨client, hcl, hupd, -⟩
    exact hnot client hcl hupd
  cases hcl : wu.clients c with
  | none =>
    rw [hoth (by simp [hcl])]
    unfold onCommitTransaction
    simp only [hcl]
    exact h.fail _
  | some client =>
    cases hst : client.statusAndType with
    | updater => exact h.commit_updater hcl hst
    | readOnly =>
      rw [hoth (by simp [hcl, hst])]
      obtain ⟨ended, heq, herror, hsound, hidle, -, -⟩ := onTransactionEnd_query h hcl hst
      apply hsound.commit hcl heq herror hidle
      intro _
      rw [h.client.query c client hcl hst]
      exact ⟨by simp, by simp, .nil, by simp⟩
    | completed =>
      rw [hoth (by simp [hcl, hst])]
      have heq : onCommitTransaction wu c = wu.fail .functionInvalidInThisState := by
        simp [onCommitTransaction, hcl, onTransactionEnd, hst, State.fail]
      rw [heq]
      exact h.fail _

theorem Inv.unregister (hended : ∀ client, wu.clients c = some client →
      client.statusAndType = .updater → client.isCompleted = true) :
    Sound (onUnregisterTransaction wu c) spec := by
  have hnone : Idle none := by rintro _ ⟨⟩
  cases hcl : wu.clients c with
  | none =>
    unfold onUnregisterTransaction
    simp only [hcl]
    exact h.fail _
  | some client =>
    cases hst : client.statusAndType with
    | completed =>
      have hold : Idle (wu.clients c) := by
        rw [hcl]
        rintro _ ⟨⟩
        exact hst
      have heq : onUnregisterTransaction wu c = (wu.setClient c none).succeed := by
        simp [onUnregisterTransaction, hcl, hst]
      rw [heq]
      exact (h.setIdle hold hnone).succeed
    | readOnly =>
      obtain ⟨ended, heq, -, hsound, hidle, -, -⟩ := onTransactionEnd_query h hcl hst
      have heq' : onUnregisterTransaction wu c =
          { ended with wu := ended.wu.setClient c none, error := none } := by
        simp [onUnregisterTransaction, hcl, hst, heq]
      rw [heq']
      exact ⟨hsound.inv.setIdle hidle hnone, hsound.calls⟩
    | updater =>
      have hcomp := hended client hcl hst
      have huntouched : spec.commit c = spec := by
        apply commit_of_untouched
        apply h.untouched_of_not_running
        rintro ts functions ⟨client', hcl', -, hcomp', -⟩
        rw [hcl, Option.some.injEq] at hcl'
        subst hcl'
        rw [hcomp] at hcomp'
        cases hcomp'
      have heq : onUnregisterTransaction wu c =
          (withoutUpdater wu c client.timestamp none).succeed := by
        simp [onUnregisterTransaction, hcl, hst, onTransactionEnd, State.succeed,
          withoutUpdater, State.setClient]
      rw [heq]
      have hinv := h.endUpdater hcl hst hnone
      rw [huntouched] at hinv
      exact hinv.succeed

theorem Inv.rollback
    (hended : ∀ client, wu.clients c = some client → client.statusAndType ≠ .completed)
    (hok : (onRollbackTransaction wu c).error = none) :
    Sound (onRollbackTransaction wu c) (spec.forget c) := by
  cases hcl : wu.clients c with
  | none => simp [onRollbackTransaction, hcl, State.fail] at hok
  | some client =>
    cases hcomp : client.isCompleted with
    | true => simp [onRollbackTransaction, hcl, hcomp, State.fail] at hok
    | false =>
      cases hst : client.statusAndType with
      | completed => exact absurd hst (hended client hcl)
      | updater => exact (h.rollback_updater ⟨hcl, hst, hcomp⟩).2
      | readOnly =>
        -- A query has nothing to undo.
        have hquery := h.client.query c client hcl hst
        have heq : onRollbackTransaction wu c = (wu.setClient c
            (some { client with isCompleted := true, isRolledBack := true })).succeed := by
          simp [onRollbackTransaction, hcl, hcomp, onTransactionRollback, hquery,
            undoFunctions, State.succeed]
        have hnot : ∀ client', wu.clients c = some client' → client'.statusAndType ≠ .updater := by
          simp [hcl, hst]
        have hrun : ∀ c' ts functions, Running (wu.setClient c
            (some { client with isCompleted := true, isRolledBack := true })) c' ts functions ↔
              Running wu c' ts functions := by
          intro c' ts functions
          apply running_setClient_other hnot
          rintro client' ⟨⟩
          simp [hst]
        have huntouched : spec.forget c = spec := by
          apply forget_of_untouched
          apply h.untouched_of_not_running
          rintro ts functions ⟨client', hcl', hupd, -⟩
          exact hnot client' hcl' hupd
        rw [heq, huntouched]
        apply Inv.succeed
        refine ⟨h.store.congr_running rfl rfl rfl hrun, ?_, h.work.congr_running rfl hrun⟩
        exact ClientInv.setRole hcl rfl rfl h.client fun _ => hquery

end

/-! ## New snapshots and checkpoints -/

open Library.WindowChains

variable {l : SnapshotsList} {a : Nat} {key : Option Nat} {v : Viewer} {content : Content Data}
  {type : SnapshotType} {f : VeFunction}

def withSnapshot (wu : State Data) (l : SnapshotsList) : State Data :=
  { wu with list := l, timestamp := wu.timestamp + 1 }

section

variable (hl : Created wu.list wu.timestamp type l)

def newViewer (wu : State Data) : Viewer := ⟨wu.timestamp, wu.list.activeTs⟩

include hl in
theorem sees_withSnapshot (htime : TimeInv wu)
    (hsees : Sees l (spec.takeSnapshot wu.timestamp) key v content) :
    key = some wu.timestamp ∧ v = newViewer wu ∧ content = spec.committed ∨
      Sees wu.list spec key v content := by
  obtain ⟨new, hlive, hview, -⟩ := hl.live
  cases hsees with
  | lastCommitted =>
    have hhd : l.fakeHeadSnapshot = wu.list.fakeHeadSnapshot := by
      unfold SnapshotsList.fakeHeadSnapshot
      rw [hl.activeTs]
    rw [hhd]
    exact .inr .lastCommitted
  | @snapshot s hs hdam =>
    rw [hlive] at hs
    rcases mem_cons.1 hs with rfl | hs
    · have hts : s.timestamp = wu.timestamp := congrArg Viewer.timestamp hview
      rw [hts, SnapshotStore.State.view_takeSnapshot_self]
      exact .inl ⟨rfl, hview, rfl⟩
    · have hlt := htime.live s hs
      rw [SnapshotStore.State.view_takeSnapshot_of_ne (Nat.ne_of_lt hlt)]
      exact .inr (.snapshot hs hdam)

theorem visible_newViewer (hval : isValidTimestamp ts = true) (hlt : ts < wu.timestamp) :
    visible (newViewer wu) ts = visible wu.list.fakeHeadSnapshot ts := by
  rw [Bool.eq_iff_iff, visible_iff, visible_fakeHeadSnapshot_iff hval]
  exact and_iff_right (le_of_lt hlt)

theorem BlockInv.visible_newViewer (h : BlockInv wu spec) {x : Nat} {b : Block Data}
    (hb : wu.blocks x = some b) {slot : VersionSlot} (hslot : slot ∈ b.header) :
    visible (newViewer wu) slot.creatorTs = visible wu.list.fakeHeadSnapshot slot.creatorTs :=
  Invariant.visible_newViewer ((h.headers x b hb).valid slot hslot).2
    ((h.headers x b hb).lt slot hslot)

include hl in
theorem TimeInv.newSnapshot (h : TimeInv wu)
    (hfew : (wu.list.live.filter fun s => !s.isDamaged).length < snapshotsCount - 1) :
    TimeInv (withSnapshot wu l) := by
  obtain ⟨new, hlive, hview, -, hdam⟩ := hl.live
  have hts : new.timestamp = wu.timestamp := congrArg Viewer.timestamp hview
  have hactiveNew : new.activeTs = wu.list.activeTs := congrArg Viewer.activeTs hview
  have hmax := (isValidTimestamp_iff.1 hl.valid).2
  have hlist : (withSnapshot wu l).list.live = new :: wu.list.live := hlive
  refine ⟨⟨?_, ?_, ?_, ?_⟩, hl.futures, ?_, hl.length.trans h.length, ?_, ?_, ?_, ?_, ?_, ?_⟩
  · -- The new snapshot stands between the head and the others.
    have hviewers : (withSnapshot wu l).list.viewers =
        wu.list.fakeHeadSnapshot :: newViewer wu :: wu.list.live.map Snapshot.viewer := by
      have hhd : (withSnapshot wu l).list.fakeHeadSnapshot = wu.list.fakeHeadSnapshot :=
        congrArg (Viewer.mk lastCommitedVersionTimestamp) hl.activeTs
      rw [SnapshotsList.viewers, hlist, map_cons, hview, hhd]
      rfl
    rw [hviewers]
    obtain ⟨hhd, hrest⟩ := pairwise_cons.1 h.ages.newer
    refine pairwise_cons.2 ⟨?_, pairwise_cons.2 ⟨?_, hrest⟩⟩
    · refine forall_mem_cons.2 ⟨fun ts' hts' => ?_, hhd⟩
      obtain ⟨hle, hnot⟩ := visible_iff.1 hts'
      have hlast : timestampMax ≤ lastCommitedVersionTimestamp := by decide
      exact visible_fakeHeadSnapshot.2 ⟨(hle.trans hmax).trans hlast, hnot⟩
    · intro w hw ts' hts'
      obtain ⟨s, hs, rfl⟩ := mem_map.1 hw
      obtain ⟨hle, -, hnot⟩ := visible_snapshot h.ages hs hts'
      exact visible_iff.2 ⟨hle.trans (Nat.le_of_lt (h.live s hs)), hnot⟩
  · rw [hlist]
    refine pairwise_cons.2 ⟨fun s hs => ?_, h.ages.decreasing⟩
    rw [hts]
    exact h.live s hs
  · rw [hlist, forall_mem_cons, hts]
    exact ⟨hl.valid, h.ages.valid⟩
  · have hle : l.live.length ≤ l.snapshots.length := (dropWhile_sublist _).length_le
    rw [hl.length, h.length] at hle
    exact hle
  · unfold FewUndamaged
    rw [hlist, filter_cons_of_pos (by simp [hdam]), length_cons]
    omega
  · exact triangular_of_forall₂ (hl.slots.imp fun _ _ hslot => hslot.1) h.triangular
  · show l.activeTs.Pairwise _
    rw [hl.activeTs]
    exact h.sorted
  · rw [hlist, forall_mem_cons, hactiveNew]
    exact ⟨h.sorted, h.sortedSnapshots⟩
  · intro ts' hts'
    have hts' : ts' ∈ wu.list.activeTs := hl.activeTs ▸ hts'
    exact ⟨(h.activeTs ts' hts').1, (h.activeTs ts' hts').2.trans (Nat.lt_succ_self _)⟩
  · rw [hlist, forall_mem_cons, hts]
    exact ⟨Nat.lt_succ_self _, fun s hs => (h.live s hs).trans (Nat.lt_succ_self _)⟩
  · have hmin := h.timestamp.1
    show timestampMin ≤ wu.timestamp + 1 ∧ wu.timestamp + 1 ≤ timestampMax + 1
    omega

include hl in
theorem FunctionOk.newSnapshot (hok : FunctionOk wu spec ts f) (h : StoreInv wu spec) :
    FunctionOk (withSnapshot wu l) (spec.takeSnapshot wu.timestamp) ts f := by
  have hcases : ∀ {key v content}, Sees (withSnapshot wu l).list
      (spec.takeSnapshot wu.timestamp) key v content →
        key = some wu.timestamp ∧ v = newViewer wu ∧ content = spec.committed ∨
          Sees wu.list spec key v content :=
    sees_withSnapshot hl h.time
  cases hok with
  | allocate htype hself hblk hnew =>
    refine .allocate htype hself hblk ?_
    intro key v content hsees
    rcases hcases hsees with ⟨-, -, rfl⟩ | hsees
    · exact hnew _ _ _ .lastCommitted
    · exact hnew key v content hsees
  | create isPers htype oldTs older restOld hrep =>
    refine .create isPers htype oldTs older restOld ⟨hrep.new, hrep.old, hrep.ne,
      hrep.anchor.trans (Nat.le_succ _), ?_, ?_⟩
    · intro snTs v content hsees hvis
      rcases hcases hsees with ⟨hkey, -, -⟩ | hsees
      · cases hkey
        exact hrep.anchor
      · exact hrep.reach snTs v content hsees hvis
    · intro snTs v content hsees hvis
      rcases hcases hsees with ⟨-, rfl, -⟩ | hsees
      · -- The old version has been committed, so the new snapshot sees it.
        obtain ⟨data, hnew⟩ := hrep.new
        have hhdr := h.block.headers _ _ hnew
        have hslot : (⟨f.xptr, oldTs⟩ : VersionSlot) ∈
            (⟨f.lxptr, ts⟩ :: ⟨f.xptr, oldTs⟩ :: older : List VersionSlot) := by simp
        rw [Invariant.visible_newViewer (hhdr.valid _ hslot).2 (hhdr.lt _ hslot)] at hvis
        rw [hhdr.visible_of_tail mem_cons_self] at hvis
        cases hvis
      · exact hrep.agree snTs v content hsees hvis
  | free htype hself hmas hanc hreach =>
    refine .free htype hself hmas (fun hx => (hanc hx).trans (Nat.le_succ _)) ?_
    intro snTs v content hsees hx
    rcases hcases hsees with ⟨hkey, -, rfl⟩ | hsees
    · cases hkey
      exact hanc hx
    · exact hreach snTs v content hsees hx

include hl in
theorem BlockInv.newSnapshot (h : StoreInv wu spec) :
    BlockInv (withSnapshot wu l) (spec.takeSnapshot wu.timestamp) := by
  have hact : (withSnapshot wu l).list.activeTs = wu.list.activeTs := hl.activeTs
  constructor
  · intro a b hb
    have hhdr := h.block.headers a b hb
    rw [hact]
    refine ⟨hhdr.ne_nil, hhdr.nodup, hhdr.valid, ?_, hhdr.tail, hhdr.length⟩
    intro slot hslot
    exact (hhdr.lt slot hslot).trans (Nat.lt_succ_self _)
  · intro key v content hsees x ver hver
    rcases sees_withSnapshot hl h.time hsees with ⟨-, rfl, rfl⟩ | hsees
    · apply (h.block.seen _ _ _ .lastCommitted x ver hver).congr_viewer
      exact fun b hb slot hslot => h.block.visible_newViewer hb hslot
    · exact h.block.seen key v content hsees x ver hver
  · rw [hact]
    exact h.block.owned
  · rw [hact]
    exact h.block.active
  · exact h.block.order
  · intro c ts functions hrun f hf
    exact (h.block.function c ts functions hrun f hf).newSnapshot hl h
  · exact h.block.apart

include hl in
theorem GcInv.newSnapshot (h : StoreInv wu spec) :
    GcInv (withSnapshot wu l) (spec.takeSnapshot wu.timestamp) := by
  constructor
  · have hent : entries (slots l) = entries (slots wu.list) :=
      entries_of_forall₂ (hl.slots.imp fun _ _ hslot => hslot.1)
    show ((entries (slots l)).map VersionEntry.xptr).Nodup
    rw [hent]
    exact h.gc.nodup
  · intro entry owners' hstored
    obtain ⟨owners, hold, hcov⟩ := hstored.rekey hl.slots .nil
    have hgarb := h.gc.garbage entry owners hold
    refine ⟨hgarb.allocated, hgarb.free, fun key v content hsees hneeds => ?_⟩
    rcases sees_withSnapshot hl h.time hsees with ⟨-, rfl, rfl⟩ | hsees
    · -- What the new snapshot needs is needed by the head, so it is not garbage.
      have hhd : Needs wu.blocks wu.list.fakeHeadSnapshot spec.committed entry.xptr :=
        (needs_congr_viewer fun x b hb slot hslot => h.block.visible_newViewer hb hslot).1 hneeds
      obtain ⟨snTs, hkey, -⟩ := hgarb.owned _ _ _ .lastCommitted hhd
      cases hkey
    · obtain ⟨snTs, rfl, howner⟩ := hgarb.owned key v content hsees hneeds
      refine ⟨snTs, rfl, hcov snTs howner ?_⟩
      obtain ⟨s, hs, rfl⟩ := hsees.timestamp_mem
      intro hinvalid
      have hval := h.time.ages.valid s hs
      rw [hinvalid] at hval
      exact absurd hval (by decide)

include hl in
theorem ClientInv.newSnapshot (h : ClientInv wu) (htime : TimeInv wu) :
    ClientInv (withSnapshot wu l) := by
  obtain ⟨new, hlive, hview, hocc, -⟩ := hl.live
  have hts : new.timestamp = wu.timestamp := congrArg Viewer.timestamp hview
  have hact : (withSnapshot wu l).list.activeTs = wu.list.activeTs := hl.activeTs
  have hlist : (withSnapshot wu l).list.live = new :: wu.list.live := hlive
  constructor
  · rw [hact]
    exact h.updater
  · exact h.injective
  · rw [hact]
    exact h.active
  · intro s hs
    rw [hlist] at hs
    rcases mem_cons.1 hs with rfl | hs
    · -- Nobody reads a snapshot that has just been taken.
      rw [hocc]
      apply Eq.symm
      rw [Finset.card_eq_zero, Finset.eq_empty_iff_forall_notMem]
      intro c hc
      obtain ⟨client, hcl, hst, htimestamp⟩ :=
        isReader_eq_true_iff.1 (mem_readers.1 hc)
      obtain ⟨s', hs', hts', -⟩ := h.bound c client hcl hst
      have hlt := htime.live s' hs'
      omega
    · exact h.occupancy s hs
  · intro c client hcl hst
    obtain ⟨s, hs, hrest⟩ := h.bound c client hcl hst
    refine ⟨s, ?_, hrest⟩
    rw [hlist]
    exact mem_cons_of_mem _ hs
  · exact h.query

include hl in
theorem Inv.newSnapshot (h : Inv wu spec)
    (hfew : (wu.list.live.filter fun s => !s.isDamaged).length < snapshotsCount - 1) :
    Inv (withSnapshot wu l) (spec.takeSnapshot wu.timestamp) :=
  ⟨⟨h.store.time.newSnapshot hl hfew, BlockInv.newSnapshot hl h.store,
    GcInv.newSnapshot hl h.store⟩,
    h.client.newSnapshot hl h.store.time,
    ⟨h.work.written, h.work.touched, h.work.function, h.work.deleted⟩⟩

end

/-! ## The calls -/

theorem createSnapshot_of_ensured (hval : isValidTimestamp ts = true)
    (hens : ensureCanAdvanceSnapshots l = true) (type : SnapshotType) :
    ∃ l', createSnapshot l ts type = .ok l' := by
  have hfut : l.snapshots.takeWhile Snapshot.isFuture ≠ [] := by
    unfold ensureCanAdvanceSnapshots at hens
    rw [Bool.and_eq_true] at hens
    cases hsnaps : l.snapshots with
    | nil => simp [hsnaps] at hens
    | cons leading rest =>
      simp only [hsnaps] at hens
      rw [takeWhile_cons_of_pos hens.2]
      simp
  unfold createSnapshot
  rw [if_neg (by simp [hval])]
  split
  next hnil => exact absurd (reverse_eq_nil_iff.1 hnil) hfut
  next => exact ⟨_, rfl⟩

section

variable (h : Inv wu spec)
include h

theorem tryAdvanceSnapshots_cases :
    ∃ purified, applyFreeing wu (purifySnapshots wu.list false) = purified ∧
      Sound purified spec ∧ purified.wu.timestamp = wu.timestamp ∧
      Kept wu.list purified.wu.list ∧ Leaves wu.list (purifySnapshots wu.list false) ∧
      ((∃ error, tryAdvanceSnapshots wu = { purified with error := some error }) ∨
        ∃ l, Created purified.wu.list wu.timestamp .regular l ∧
          (purified.wu.list.live.filter fun s => !s.isDamaged).length < snapshotsCount - 1 ∧
          tryAdvanceSnapshots wu = ⟨withSnapshot purified.wu l, purified.frees, none⟩) := by
  obtain ⟨herror, hfreed, hkept, hleaves⟩ := purifySnapshots_spec h.store false
  have hinv := h.purify false
  refine ⟨_, rfl, ⟨hinv, hfreed.calls⟩, rfl, hkept, hleaves, ?_⟩
  have hnone : (applyFreeing wu (purifySnapshots wu.list false)).error = none := herror
  unfold tryAdvanceSnapshots
  simp only [hnone]
  generalize hpur : applyFreeing wu (purifySnapshots wu.list false) = purified at hinv
  have htimestamp : purified.wu.timestamp = wu.timestamp := by
    rw [← hpur]
    rfl
  split
  next => exact .inl ⟨_, rfl⟩
  next hens =>
    have hens : ensureCanAdvanceSnapshots purified.wu.list = true := by simpa using hens
    unfold getTimestamp
    by_cases hval : isValidTimestamp purified.wu.timestamp = true
    · obtain ⟨l, hl⟩ := createSnapshot_of_ensured hval hens .regular
      rw [if_neg (by simp [hval])]
      simp only [hl]
      refine .inr ⟨l, ?_, ?_, rfl⟩
      · rw [← htimestamp]
        exact createSnapshot_spec hinv.store.time.futures (by simp) hl
      · unfold ensureCanAdvanceSnapshots at hens
        rw [Bool.and_eq_true, decide_eq_true_eq] at hens
        exact hens.1
    · rw [if_pos hval]
      exact .inl ⟨_, rfl⟩

theorem Inv.advance :
    Inv (tryAdvanceSnapshots wu).wu
        (if (tryAdvanceSnapshots wu).error = none then spec.takeSnapshot wu.timestamp else spec) ∧
      ∀ call ∈ (tryAdvanceSnapshots wu).frees, SafeCall spec call := by
  obtain ⟨purified, -, hsound, htimestamp, -, -, hcases⟩ := tryAdvanceSnapshots_cases h
  rcases hcases with ⟨error, heq⟩ | ⟨l, hl, hfew, heq⟩
  · rw [heq]
    exact ⟨hsound.inv, hsound.calls⟩
  · rw [heq]
    rw [← htimestamp] at hl ⊢
    exact ⟨hsound.inv.newSnapshot hl hfew, hsound.calls⟩

theorem Inv.steady (hact : l.activeTs = wu.list.activeTs)
    (hl : List.Forall₂ Steady wu.list.snapshots l.snapshots) : Inv { wu with list := l } spec :=
  ⟨h.store.flagged hact (hl.imp fun _ _ hs => hs.toFlagged),
    h.client.retain (Retains.of_steady hact hl),
    ⟨h.work.written, h.work.touched, h.work.function, h.work.deleted⟩⟩

theorem Inv.beginCheckpoint : Sound (beginCheckpoint wu) spec := by
  have hpersistent := h.steady
    (l := { wu.list with snapshots := retype .persistent .prevPersistent wu.list.snapshots }) rfl
    (steady_retype (by simp) (by simp) _)
  have hinv := hpersistent.steady
    (l := { wu.list with
      snapshots := retype .regular .persistent
        (retype .persistent .prevPersistent wu.list.snapshots) }) rfl
    (steady_retype (by simp) (by simp) _)
  unfold Transactions.beginCheckpoint onBeginCheckpoint
  split
  next => exact h.fail _
  next list hlist =>
    apply Inv.succeed
    repeat' split at hlist
    all_goals cases hlist
    exact hinv

theorem Inv.completeCheckpoint : Sound (completeCheckpoint wu) spec := by
  unfold Transactions.completeCheckpoint onCompleteCheckpoint
  split
  next => exact ⟨h, by simp [applyFreeing, freeBlocks]⟩
  next =>
    have hinv := h.steady (l := { wu.list with
      snapshots := retype .prevPersistent .regular wu.list.snapshots }) rfl
      (steady_retype (by simp) (by simp) _)
    exact ⟨hinv.purify true, (purifySnapshots_spec hinv.store true).freed.calls⟩

end

end Sedna.Wu.Invariant
