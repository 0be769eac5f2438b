import Sedna.Wu.Runs

/-!
# The list of snapshots as a state machine

Advances, checkpoints and the ends of queries move snapshots between types and
take them off the list.
-/

namespace Sedna.Wu.SnapshotList

open Library.Lists Snapshots Versions Transactions Headers SnapshotChanges Invariant Runs List
  Snapshot SnapshotsList

variable {Data : Type} {wu : State Data} {spec : Spec Data} {l l' l'' : SnapshotsList}
variable {type old new : SnapshotType} {snapshots : List Snapshot}

/-! ## What a call does to the list -/

def VictimsLeave (outcome : Outcome Data) : Prop :=
  ∀ call ∈ outcome.frees, ∀ snTs, call.request.discarding = some snTs →
    ∀ s ∈ outcome.wu.list.live, s.timestamp ≠ snTs

theorem VictimsLeave.of_nil {outcome : Outcome Data} (h : outcome.frees = []) :
    VictimsLeave outcome := by
  intro call hcall
  rw [h] at hcall
  cases hcall

theorem VictimsLeave.of_leaves {r : Freeing} (h : Leaves l r) :
    VictimsLeave (applyFreeing wu r) := by
  intro call hcall snTs hdis
  exact (h call.request (request_mem_of_freeBlocks hcall) snTs hdis).2

/-- A call that changes no types, frees blocks only for snapshots that leave and gives no
timestamp back. -/
structure ListStep (wu : State Data) (outcome : Outcome Data) : Prop where
  typed : Typed wu.list outcome.wu.list
  victims : VictimsLeave outcome
  timestamp : wu.timestamp ≤ outcome.wu.timestamp

theorem ListStep.quiet {outcome : Outcome Data}
    (hlist : outcome.wu.list.snapshots = wu.list.snapshots) (hfrees : outcome.frees = [])
    (hts : wu.timestamp ≤ outcome.wu.timestamp) : ListStep wu outcome :=
  ⟨Typed.of_live (by rw [live, hlist, live]), VictimsLeave.of_nil hfrees, hts⟩

theorem discarding_submitRequests (ts : Nat) (l : SnapshotsList) (reqs : List RequestForGc) :
    ∀ request ∈ (submitRequests ts l reqs).frees, request.discarding = none := by
  have hone : ∀ l entrySns req, ∀ request ∈ (submitRequest l entrySns req).frees,
      request.discarding = none := by
    intro l entrySns req
    unfold submitRequest
    repeat' split
    all_goals simp
  induction reqs generalizing l with
  | nil => simp [submitRequests]
  | cons req reqs ih =>
    rw [submitRequests]
    split
    · exact hone _ _ _
    · exact forall_mem_append.2 ⟨hone _ _ _, ih _⟩

theorem onTransactionCommit_kept (wu : State Data) (client : Client) (ts : Nat) :
    Kept wu.list (onTransactionCommit wu client ts).wu.list ∧
      ∀ call ∈ (onTransactionCommit wu client ts).frees, call.request.discarding = none := by
  unfold onTransactionCommit submitRequestForGc
  split
  · exact ⟨Kept.refl _, fun _ hcall => absurd hcall not_mem_nil⟩
  · exact ⟨submitRequests_kept _ _ _, fun call hcall =>
      discarding_submitRequests _ _ _ _ (request_mem_of_freeBlocks hcall)⟩

theorem discarding_undoFunctions (list : SnapshotsList) (functions : List VeFunction)
    (blocks : Blocks Data) :
    ∀ call ∈ (undoFunctions list blocks functions).2.1, call.request.discarding = none := by
  induction functions generalizing blocks with
  | nil => simp [undoFunctions]
  | cons function functions ih =>
    rw [undoFunctions]
    split
    · simp
    next blocks' frees hundo =>
      have hfrees : ∀ call ∈ frees, call.request.discarding = none := by
        unfold undoFunction at hundo
        repeat' split at hundo
        all_goals cases hundo
        all_goals simp [freeBlocks]
      exact forall_mem_append.2 ⟨hfrees, ih _⟩

theorem onTransactionEnd_timestamp (wu : State Data) (c : ClientId) (client : Client) :
    (onTransactionEnd wu c client).wu.timestamp = wu.timestamp := by
  unfold onTransactionEnd
  cases client.statusAndType with
  | updater => rfl
  | completed => rfl
  | readOnly =>
    dsimp only
    split <;> rfl

theorem listStep_rollback (wu : State Data) (c : ClientId) :
    ListStep wu (onRollbackTransaction wu c) := by
  have hundone (client : Client) : ∀ call ∈ (onTransactionRollback wu client).frees,
      ∀ snTs, call.request.discarding = some snTs → False := by
    intro call hcall snTs hdis
    rw [discarding_undoFunctions _ _ _ call hcall] at hdis
    cases hdis
  unfold onRollbackTransaction
  split
  · exact .quiet rfl rfl le_rfl
  · dsimp only
    split
    · exact .quiet rfl rfl le_rfl
    · split <;>
        exact ⟨Typed.of_live rfl,
          fun call hcall snTs hdis => (hundone _ call hcall snTs hdis).elim, le_rfl⟩

section

variable (h : Inv wu spec)
include h

theorem listStep_register (c : ClientId) (isUsingSnapshot : Bool) :
    ListStep wu (onRegisterTransaction wu c isUsingSnapshot) := by
  cases hc : wu.clients c with
  | some client =>
    simp only [onRegisterTransaction, hc]
    exact .quiet rfl rfl le_rfl
  | none =>
    cases isUsingSnapshot with
    | false =>
      cases hval : isValidTimestamp wu.timestamp with
      | true =>
        rw [onRegisterTransaction_updater h.store.time h.client hc hval]
        exact .quiet rfl rfl (Nat.le_succ _)
      | false =>
        simp only [onRegisterTransaction, hc, getTimestamp, hval]
        exact .quiet rfl rfl le_rfl
    | true =>
      unfold onRegisterTransaction
      simp only [hc, if_true]
      split
      next => exact .quiet rfl rfl le_rfl
      next current rest hlive =>
        split
        next => exact .quiet rfl rfl le_rfl
        next =>
          refine ⟨Typed.of_forall₂ ?_, .of_nil rfl, le_rfl⟩
          show List.Forall₂ _ wu.list.live (withQuery wu c current rest).list.live
          rw [live_withQuery hlive h.store.time.futures, hlive]
          exact .cons ⟨rfl, rfl⟩ (forall₂_same.2 fun _ _ => ⟨rfl, rfl⟩)

theorem listStep_onTransactionEnd {c : ClientId} {client : Client}
    (hcl : wu.clients c = some client) : ListStep wu (onTransactionEnd wu c client) := by
  cases hst : client.statusAndType with
  | updater =>
    rw [onTransactionEnd_updater hst]
    exact .quiet rfl rfl le_rfl
  | readOnly =>
    obtain ⟨ended, heq, -, -, -, hkept, hleave⟩ := onTransactionEnd_query h hcl hst
    have hts := onTransactionEnd_timestamp wu c client
    rw [heq] at hts ⊢
    refine ⟨Typed.trans (Typed.of_forall₂ ?_) hkept.toTyped, hleave, hts.ge⟩
    show List.Forall₂ _ wu.list.live (withoutQuery wu c client.timestamp none).list.live
    rw [(live_withoutQuery h.store.time (h.valid_of_query hcl hst)).2,
      forall₂_map_right_iff]
    refine forall₂_same.2 fun s _ => ?_
    unfold release
    split <;> exact ⟨rfl, rfl⟩
  | completed =>
    simp only [onTransactionEnd, hst]
    exact .quiet rfl rfl le_rfl

theorem listStep_commit (c : ClientId) : ListStep wu (onCommitTransaction wu c) := by
  unfold onCommitTransaction
  cases hcl : wu.clients c with
  | none => exact .quiet rfl rfl le_rfl
  | some client =>
    have hended := listStep_onTransactionEnd h hcl
    dsimp only
    generalize onTransactionEnd wu c client = ended at hended
    obtain ⟨hkept, hnone⟩ :=
      onTransactionCommit_kept ended.wu client ended.wu.list.currentSnapshotTs
    have htimestamp : (onTransactionCommit ended.wu client
      ended.wu.list.currentSnapshotTs).wu.timestamp = ended.wu.timestamp := rfl
    generalize onTransactionCommit ended.wu client _ = committed at hkept hnone htimestamp
    have hcom := hended.typed.trans hkept.toTyped
    have hvictims : VictimsLeave ⟨committed.wu, ended.frees ++ committed.frees, none⟩ := by
      intro call hcall snTs hdis s' hs' hts
      rcases mem_append.1 hcall with hcall | hcall
      · obtain ⟨s, hs, heq, -⟩ := hkept.back s' hs'
        exact hended.victims call hcall snTs hdis s hs (heq.symm.trans hts)
      · rw [hnone call hcall] at hdis
        cases hdis
    repeat' split
    all_goals first
      | exact ⟨hended.typed, hended.victims, hended.timestamp⟩
      | exact ⟨hcom, hvictims, hended.timestamp.trans_eq htimestamp.symm⟩

theorem listStep_unregister (c : ClientId) : ListStep wu (onUnregisterTransaction wu c) := by
  unfold onUnregisterTransaction
  cases hcl : wu.clients c with
  | none => exact .quiet rfl rfl le_rfl
  | some client =>
    dsimp only
    split
    · exact .quiet rfl rfl le_rfl
    · have hended := listStep_onTransactionEnd h hcl
      exact ⟨hended.typed, hended.victims, hended.timestamp⟩

theorem listStep_advance : ListStep wu (tryAdvanceSnapshots wu) := by
  obtain ⟨purified, hpur, -, htimestamp, hkept, hleaves, hcases⟩ := tryAdvanceSnapshots_cases h
  subst hpur
  rcases hcases with ⟨error, heq⟩ | ⟨list, hlist, -, heq⟩
  · rw [heq]
    exact ⟨hkept.toTyped, VictimsLeave.of_leaves hleaves, htimestamp.ge⟩
  · rw [heq]
    obtain ⟨new, hlive, hview, -⟩ := hlist.live
    have hreg := hlist.type new (by rw [hlive]; rfl)
    constructor
    · refine hkept.toTyped.trans ⟨fun s' hs' hspec => ?_, fun s' hs' _ => ?_⟩
      · rcases mem_cons.1 (hlive ▸ hs' : s' ∈ _) with rfl | hs'
        · exact absurd hreg hspec
        · exact ⟨s', hs', rfl, rfl⟩
      · exact ⟨s', hlive ▸ mem_cons_of_mem _ hs', rfl, rfl⟩
    · intro call hcall snTs hdis s' hs' hts
      obtain ⟨⟨s, hs, hold⟩, hgone⟩ :=
        hleaves call.request (request_mem_of_freeBlocks hcall) snTs hdis
      rcases mem_cons.1 (hlive ▸ hs' : s' ∈ _) with rfl | hs'
      · -- The new snapshot has a timestamp of its own.
        have hlt := h.store.time.live s hs
        have hnew : s'.timestamp = wu.timestamp := congrArg Viewer.timestamp hview
        omega
      · exact hgone s' hs' hts
    · exact Nat.le_succ _

theorem list_createVersion (c : ClientId) (x n : Nat) :
    (createBlockVersion wu c x n).wu.list = wu.list := by
  rcases h.createBlockVersion_cases c x n with ⟨error, heq⟩ |
    ⟨client, own, rest, older, data, anchorTs, isPers, out, -, -, -, -, -, -, -, heq⟩
  · rw [heq]
    rfl
  · rw [heq]
    rfl

theorem exec_listStep (event : Event Data) (hbegin : event ≠ .beginCheckpoint)
    (hcomplete : event ≠ .completeCheckpoint) : ListStep wu (exec wu event) := by
  cases event with
  | register c isUsingSnapshot => exact listStep_register h c isUsingSnapshot
  | allocate c x data =>
    rcases allocateDataBlock_cases wu c x data with ⟨error, heq⟩ | ⟨client, -, heq⟩
    all_goals
      rw [exec, heq]
      exact .quiet rfl rfl le_rfl
  | createVersion c x n =>
    rcases h.createBlockVersion_cases c x n with ⟨error, heq⟩ |
      ⟨client, own, rest, older, data, anchorTs, isPers, out, -, -, -, -, -, -, -, heq⟩
    all_goals
      rw [exec, heq]
      exact .quiet rfl rfl le_rfl
  | write c x data =>
    show ListStep wu (writeBlock wu c x data)
    unfold writeBlock
    repeat' split
    all_goals exact .quiet rfl rfl le_rfl
  | delete c x isInBuffers =>
    show ListStep wu (deleteBlock wu c x isInBuffers)
    unfold deleteBlock
    repeat' split
    all_goals exact .quiet rfl rfl le_rfl
  | commit c => exact listStep_commit h c
  | rollback c => exact listStep_rollback wu c
  | unregister c => exact listStep_unregister h c
  | advance => exact listStep_advance h
  | beginCheckpoint => exact absurd rfl hbegin
  | completeCheckpoint => exact absurd rfl hcomplete

theorem exec_victimsLeave (event : Event Data) : VictimsLeave (exec wu event) := by
  by_cases hbegin : event = .beginCheckpoint
  · subst hbegin
    show VictimsLeave (beginCheckpoint wu)
    unfold beginCheckpoint
    split <;> exact VictimsLeave.of_nil rfl
  by_cases hcomplete : event = .completeCheckpoint
  · subst hcomplete
    show VictimsLeave (completeCheckpoint wu)
    unfold completeCheckpoint onCompleteCheckpoint
    split
    · exact VictimsLeave.of_nil rfl
    · have hinv : Inv { wu with
          list := { wu.list with
            snapshots := retype .prevPersistent .regular wu.list.snapshots } } spec :=
        h.steady rfl (steady_retype (by simp) (by simp) _)
      exact VictimsLeave.of_leaves (purifySnapshots_spec hinv.store true).leaves
  · exact (exec_listStep h event hbegin hcomplete).victims

theorem exec_timestamp (event : Event Data) : wu.timestamp ≤ (exec wu event).wu.timestamp := by
  by_cases hbegin : event = .beginCheckpoint
  · subst hbegin
    show wu.timestamp ≤ (beginCheckpoint wu).wu.timestamp
    unfold beginCheckpoint
    split <;> exact le_rfl
  by_cases hcomplete : event = .completeCheckpoint
  · subst hcomplete
    exact le_rfl
  · exact (exec_listStep h event hbegin hcomplete).timestamp

end

/-! ## Snapshots of one type -/

theorem countP_le_one_iff
    (hdec : snapshots.Pairwise fun s s' => s'.timestamp < s.timestamp) :
    snapshots.countP (isType type) ≤ 1 ↔ ∀ s ∈ snapshots, ∀ s' ∈ snapshots,
      s.type = type → s'.type = type → s.timestamp = s'.timestamp := by
  have hmem : ∀ s, s ∈ snapshots.filter (isType type) ↔ s ∈ snapshots ∧ s.type = type := by
    simp [isType]
  have hfilt := hdec.filter (isType type)
  rw [countP_eq_length_filter]
  constructor
  · intro hlen s hs s' hs' htype htype'
    have hs := (hmem s).2 ⟨hs, htype⟩
    have hs' := (hmem s').2 ⟨hs', htype'⟩
    match hcases : snapshots.filter (isType type) with
    | [] =>
      rw [hcases] at hs
      cases hs
    | [only] =>
      rw [hcases, mem_singleton] at hs hs'
      rw [hs, hs']
    | _ :: _ :: _ =>
      rw [hcases] at hlen
      simp at hlen
  · intro hsame
    match hcases : snapshots.filter (isType type) with
    | [] => simp
    | [only] => simp
    | first :: second :: rest =>
      rw [hcases] at hfilt
      have hlt := (pairwise_cons.1 hfilt).1 second (by simp)
      have hfst := (hmem first).1 (by rw [hcases]; simp)
      have hsnd := (hmem second).1 (by rw [hcases]; simp)
      have heq := hsame first hfst.1 second hsnd.1 hfst.2 hsnd.2
      omega

theorem countP_le_one_of_typed (h : Typed l l') (hages : Ages l) (hages' : Ages l')
    (htype : type ≠ .regular) (hcount : l.live.countP (isType type) ≤ 1) :
    l'.live.countP (isType type) ≤ 1 := by
  rw [countP_le_one_iff hages.decreasing] at hcount
  rw [countP_le_one_iff hages'.decreasing]
  intro s hs s' hs' heq heq'
  obtain ⟨first, hfst, hts, hsame⟩ := h.types s hs (by rwa [heq])
  obtain ⟨second, hsnd, hts', hsame'⟩ := h.types s' hs' (by rwa [heq'])
  rw [hts, hts']
  exact hcount first hfst second hsnd (hsame.symm.trans heq) (hsame'.symm.trans heq')

/-! ## Checkpoints -/

theorem live_retype (hold : old ≠ .future) (hnew : new ≠ .future) :
    SnapshotsList.live { l with snapshots := retype old new l.snapshots } =
      retype old new l.live := by
  unfold live
  generalize l.snapshots = snapshots
  induction snapshots with
  | nil => rfl
  | cons s rest ih =>
    by_cases hfut : s.type = .future
    · have hne : s.type ≠ old := by
        rw [hfut]
        exact hold.symm
      rw [retype, if_neg hne, dropWhile_cons_of_pos (by simp [isFuture, hfut]),
        dropWhile_cons_of_pos (by simp [isFuture, hfut])]
      exact ih
    · rw [dropWhile_cons_of_neg (by simp [isFuture, hfut]), retype]
      split
      · rw [dropWhile_cons_of_neg (by simp [isFuture, hnew])]
      · rw [dropWhile_cons_of_neg (by simp [isFuture, hfut])]

theorem countP_retype_old (hne : old ≠ new) :
    (retype old new snapshots).countP (isType old) = snapshots.countP (isType old) - 1 := by
  induction snapshots with
  | nil => rfl
  | cons s rest ih =>
    unfold retype
    split
    next htype => simp [isType, htype, hne.symm]
    next htype => simpa [isType, htype] using ih

theorem countP_retype_new (snapshots : List Snapshot) (hne : old ≠ new) :
    (retype old new snapshots).countP (isType new) ≤ snapshots.countP (isType new) + 1 := by
  induction snapshots with
  | nil => simp [retype]
  | cons s rest ih =>
    unfold retype
    split
    next htype => simp [isType, htype, hne]
    next htype =>
      rw [countP_cons, countP_cons]
      omega

theorem countP_retype_other (hold : type ≠ old) (hnew : type ≠ new) :
    (retype old new snapshots).countP (isType type) = snapshots.countP (isType type) := by
  induction snapshots with
  | nil => rfl
  | cons s rest ih =>
    unfold retype
    split
    next htype => simp [isType, htype, hold.symm, hnew.symm]
    next htype => rw [countP_cons, countP_cons, ih]

theorem mem_retype (old new : SnapshotType) {s : Snapshot} (hs : s ∈ snapshots) :
    ∃ s' ∈ retype old new snapshots, s'.timestamp = s.timestamp ∧
      (s'.type = s.type ∨ s.type = old) := by
  induction snapshots with
  | nil => cases hs
  | cons first rest ih =>
    unfold retype
    split
    next htype =>
      rcases mem_cons.1 hs with rfl | hs
      · exact ⟨_, mem_cons_self, rfl, .inr htype⟩
      · exact ⟨s, mem_cons_of_mem _ hs, rfl, .inl rfl⟩
    next =>
      rcases mem_cons.1 hs with rfl | hs
      · exact ⟨_, mem_cons_self, rfl, .inl rfl⟩
      · obtain ⟨s', hs', heq⟩ := ih hs
        exact ⟨s', mem_cons_of_mem _ hs', heq⟩

structure TypeInv (l : SnapshotsList) : Prop where
  persistent : l.live.countP (isType .persistent) ≤ 1
  prevPersistent : l.live.countP (isType .prevPersistent) ≤ 1

theorem TypeInv.of_typed (hinv : TypeInv l) (h : Typed l l') (hages : Ages l) (hages' : Ages l') :
    TypeInv l' :=
  ⟨countP_le_one_of_typed h hages hages' (by simp) hinv.persistent,
    countP_le_one_of_typed h hages hages' (by simp) hinv.prevPersistent⟩

theorem onBeginCheckpoint_cases {l' : SnapshotsList} (h : onBeginCheckpoint l = .ok l') :
    l.live.countP (isType .prevPersistent) = 0 ∧
      l'.live = retype .regular .persistent (retype .persistent .prevPersistent l.live) := by
  unfold onBeginCheckpoint at h
  split at h
  next => cases h
  next hprev =>
    have hzero : l.snapshots.countP (isType .prevPersistent) = 0 := by
      simpa using hprev
    have hle : l.live.countP (isType .prevPersistent) ≤ l.snapshots.countP _ :=
      (dropWhile_sublist _).countP_le
    refine ⟨by omega, ?_⟩
    repeat' split at h
    all_goals cases h
    have hfst : live { l with snapshots := retype .persistent .prevPersistent l.snapshots } = _ :=
      live_retype (by simp) (by simp)
    have hsnd := live_retype
      (l := { l with snapshots := retype .persistent .prevPersistent l.snapshots })
      (show SnapshotType.regular ≠ .future by simp) (show SnapshotType.persistent ≠ .future by simp)
    rw [hfst] at hsnd
    exact hsnd

theorem TypeInv.beginCheckpoint (h : TypeInv l) (hok : onBeginCheckpoint l = .ok l') :
    TypeInv l' := by
  obtain ⟨hprev, hlive⟩ := onBeginCheckpoint_cases hok
  have hpersistent := h.persistent
  constructor
  · have hnone : (retype .persistent .prevPersistent l.live).countP (isType .persistent) = 0 := by
      rw [countP_retype_old (by simp)]
      omega
    have hnew := countP_retype_new (retype .persistent .prevPersistent l.live)
      (show SnapshotType.regular ≠ .persistent by simp)
    rw [hlive]
    omega
  · have hnew := countP_retype_new l.live
      (show SnapshotType.persistent ≠ .prevPersistent by simp)
    rw [hlive, countP_retype_other (by simp) (by simp)]
    omega

def withoutPrevPersistent (l : SnapshotsList) : SnapshotsList :=
  { l with snapshots := retype .prevPersistent .regular l.snapshots }

theorem live_withoutPrevPersistent (l : SnapshotsList) :
    (withoutPrevPersistent l).live = retype .prevPersistent .regular l.live :=
  live_retype (by simp) (by simp)

theorem TypeInv.withoutPrevPersistent (h : TypeInv l) : TypeInv (withoutPrevPersistent l) := by
  have hprev := h.prevPersistent
  constructor
  · rw [live_withoutPrevPersistent, countP_retype_other (by simp) (by simp)]
    exact h.persistent
  · rw [live_withoutPrevPersistent, countP_retype_old (by simp)]
    omega

theorem completeCheckpoint_cases (h : Inv wu spec) :
    (completeCheckpoint wu).wu.list = wu.list ∨
      Ages (withoutPrevPersistent wu.list) ∧
        Typed (withoutPrevPersistent wu.list) (completeCheckpoint wu).wu.list := by
  unfold completeCheckpoint onCompleteCheckpoint
  split
  next => exact .inl rfl
  next =>
    have hinv : Inv { wu with list := withoutPrevPersistent wu.list } spec :=
      h.steady rfl (steady_retype (by simp) (by simp) _)
    exact .inr ⟨hinv.store.time.ages, (purifySnapshots_spec hinv.store true).kept.toTyped⟩

/-! ## Runs -/

variable {sys : System Data} {db : Database Data} {event : Event Data}

theorem TypeInv.step (h : Inv sys.wu sys.spec) (h' : Inv (step sys event).wu (step sys event).spec)
    (hinv : TypeInv sys.wu.list) : TypeInv (step sys event).wu.list := by
  have hages := h.store.time.ages
  have hages' := h'.store.time.ages
  by_cases hbegin : event = .beginCheckpoint
  · subst hbegin
    show TypeInv (Transactions.beginCheckpoint sys.wu).wu.list
    unfold Transactions.beginCheckpoint
    split
    next => exact hinv
    next list hok => exact hinv.beginCheckpoint hok
  · by_cases hcomplete : event = .completeCheckpoint
    · subst hcomplete
      rcases completeCheckpoint_cases h with hsame | ⟨hretyped, htyped⟩
      · show TypeInv (completeCheckpoint sys.wu).wu.list
        rw [hsame]
        exact hinv
      · exact hinv.withoutPrevPersistent.of_typed htyped hretyped hages'
    · exact hinv.of_typed (exec_listStep h event hbegin hcomplete).typed hages hages'

theorem Reachable.typeInv (h : Reachable db sys) : TypeInv sys.wu.list := by
  induction h with
  | refl =>
    obtain ⟨s, hlive, -⟩ := startup_list db
    have hlen : (startup db).list.live.length = 1 := by
      rw [hlive]
      rfl
    exact ⟨countP_le_length.trans_eq hlen, countP_le_length.trans_eq hlen⟩
  | step hrun event hallowed ih =>
    have hinv := Reachable.inv hrun
    exact ih.step hinv (step_sound hinv event hallowed).inv

structure ListOk (wu : State Data) : Prop where
  order : ∃ futures snapshots, wu.list.snapshots = futures ++ snapshots ∧
    (∀ s ∈ futures, s.type = .future) ∧ (∀ s ∈ snapshots, s.type ≠ .future) ∧
    snapshots.Pairwise fun s s' => s'.timestamp < s.timestamp
  persistent : wu.list.snapshots.countP (isType .persistent) ≤ 1
  prevPersistent : wu.list.snapshots.countP (isType .prevPersistent) ≤ 1
  occupancy : ∀ s ∈ wu.list.snapshots, s.type ≠ .future →
    s.occupancy = (readers wu s.timestamp).card
  sorted : ∀ s ∈ wu.list.snapshots, s.type ≠ .future → s.activeTs.Pairwise (· < ·)
  sortedActive : wu.list.activeTs.Pairwise (· < ·)

theorem mem_live_of_type {s : Snapshot} (hs : s ∈ l.snapshots) (htype : s.type ≠ .future) :
    s ∈ l.live := by
  rw [split_live l] at hs
  rcases mem_append.1 hs with hs | hs
  · exact absurd (by simpa [isFuture] using isFuture_takeWhile hs) htype
  · exact hs

theorem countP_live (htype : type ≠ .future) :
    l.snapshots.countP (isType type) = l.live.countP (isType type) := by
  have hfut : (l.snapshots.takeWhile isFuture).countP (isType type) = 0 := by
    rw [countP_eq_zero]
    intro s hs
    have hfuture : s.type = .future := by simpa [isFuture] using isFuture_takeWhile hs
    simp [isType, hfuture, htype.symm]
  conv_lhs => rw [split_live l, countP_append, hfut, zero_add]

theorem Reachable.listOk (h : Reachable db sys) : ListOk sys.wu := by
  have hinv := Reachable.inv h
  have htypes := Reachable.typeInv h
  constructor
  · refine ⟨_, _, split_live sys.wu.list, ?_, hinv.store.time.futures.live,
      hinv.store.time.ages.decreasing⟩
    intro s hs
    simpa [isFuture] using isFuture_takeWhile hs
  · rw [countP_live (by simp)]
    exact htypes.persistent
  · rw [countP_live (by simp)]
    exact htypes.prevPersistent
  · exact fun s hs htype => hinv.client.occupancy s (mem_live_of_type hs htype)
  · exact fun s hs htype => hinv.store.time.sortedSnapshots s (mem_live_of_type hs htype)
  · exact hinv.store.time.sorted

/-- Nobody reads a snapshot that has left the list, and it was of no special type.  The end of a
checkpoint makes the previous persistent snapshot a regular one before it may leave. -/
theorem step_gone (h : Inv sys.wu sys.spec) (hallowed : Allowed sys event) {s : Snapshot}
    (hs : s ∈ sys.wu.list.live)
    (hgone : ∀ s' ∈ (step sys event).wu.list.live, s'.timestamp ≠ s.timestamp) :
    readers (step sys event).wu s.timestamp = ∅ ∧
      (s.type = .regular ∨ s.type = .prevPersistent ∧ event = .completeCheckpoint) := by
  have hinv' := (step_sound h event hallowed).inv
  constructor
  · rw [Finset.eq_empty_iff_forall_notMem]
    intro c hc
    obtain ⟨client, hcl, hst, hts⟩ := isReader_eq_true_iff.1 (mem_readers.1 hc)
    obtain ⟨s', hs', hts', -⟩ := hinv'.client.bound c client hcl hst
    exact hgone s' hs' (hts'.trans hts)
  · by_contra hspec
    push Not at hspec
    obtain ⟨s', hs', hts⟩ : ∃ s' ∈ (step sys event).wu.list.live, s'.timestamp = s.timestamp := by
      by_cases hbegin : event = .beginCheckpoint
      · subst hbegin
        show ∃ s' ∈ (beginCheckpoint sys.wu).wu.list.live, _
        unfold beginCheckpoint
        split
        next => exact ⟨s, hs, rfl⟩
        next list hok =>
          obtain ⟨s1, hs1, hts1, -⟩ := mem_retype .persistent .prevPersistent hs
          obtain ⟨s2, hs2, hts2, -⟩ := mem_retype .regular .persistent hs1
          rw [← (onBeginCheckpoint_cases hok).2] at hs2
          exact ⟨s2, hs2, hts2.trans hts1⟩
      · by_cases hcomplete : event = .completeCheckpoint
        · subst hcomplete
          show ∃ s' ∈ (completeCheckpoint sys.wu).wu.list.live, _
          rcases completeCheckpoint_cases h with hsame | ⟨-, htyped⟩
          · rw [hsame]
            exact ⟨s, hs, rfl⟩
          · obtain ⟨s1, hs1, hts1, htype⟩ :=
              mem_retype .prevPersistent .regular hs
            rw [← live_withoutPrevPersistent] at hs1
            have hnot : s.type ≠ .prevPersistent := fun hprev => hspec.2 hprev rfl
            have htype := htype.resolve_right hnot
            obtain ⟨s2, hs2, hts2, -⟩ := htyped.special s1 hs1 (by rw [htype]; exact hspec.1)
            exact ⟨s2, hs2, hts2.trans hts1⟩
        · obtain ⟨s', hs', hts, -⟩ :=
            (exec_listStep h event hbegin hcomplete).typed.special s hs hspec.1
          exact ⟨s', hs', hts⟩
    exact hgone s' hs' hts

theorem discardSnapshot_victim (l : SnapshotsList) (ts : Nat)
    (hok : (discardSnapshot l ts).error = none) :
    ∃ victim ∈ l.snapshots, victim.timestamp = ts ∧ victim.type = .regular ∧
      victim.occupancy = 0 := by
  unfold discardSnapshot at hok
  split at hok
  next => cases hok
  next before victim after hcut =>
    obtain ⟨hspl, hts⟩ := getSnapshotByTimestamp_eq_some hcut
    split at hok
    next => cases hok
    next hreg =>
      split at hok
      next => cases hok
      next hocc =>
        refine ⟨victim, ?_, hts, by simpa using hreg, by omega⟩
        rw [hspl]
        simp

theorem snapshot_list_discipline (hreach : Reachable db sys) :
    ListOk sys.wu ∧
      (∀ event, Allowed sys event → ∀ s ∈ sys.wu.list.live,
        (∀ s' ∈ (step sys event).wu.list.live, s'.timestamp ≠ s.timestamp) →
          readers (step sys event).wu s.timestamp = ∅ ∧
            (s.type = .regular ∨ s.type = .prevPersistent ∧ event = .completeCheckpoint)) ∧
      ∀ l ts, (discardSnapshot l ts).error = none → ∃ victim ∈ l.snapshots,
        victim.timestamp = ts ∧ victim.type = .regular ∧ victim.occupancy = 0 :=
  ⟨Reachable.listOk hreach,
    fun _ hallowed _ hs hgone => step_gone (Reachable.inv hreach) hallowed hs hgone,
    discardSnapshot_victim⟩

theorem snapshot_list_discipline_oneBlock :
    Reachable oneBlock (oneBlockAfter 6) ∧ ListOk (oneBlockAfter 6).wu :=
  ⟨reachable_oneBlock run_oneBlock_commit,
    (snapshot_list_discipline (reachable_oneBlock run_oneBlock_commit)).1⟩

end Sedna.Wu.SnapshotList
