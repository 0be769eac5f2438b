import Sedna.Wu.Readers

/-!
# Runs of the versions mechanism

The mechanism starts on the persistent snapshot of a database and takes the
calls of transactions in any order.  Next to its state runs the abstract store.
-/

namespace Sedna.Wu.Runs

open Library.WindowChains Snapshots Versions Transactions Headers SnapshotChanges List Option
  Invariant

variable {Data : Type} {x : Nat} {event : Event Data} {c : ClientId}

/-! ## Startup -/

/-- A database as it is found at startup: every block is a logical block, and its own version is in
the persistent snapshot. -/
structure Database (Data : Type) where
  persTs : Nat
  valid : isValidTimestamp persTs = true
  blocks : Blocks Data
  xptr : ∀ x b, blocks x = some b → b.header.head?.map VersionSlot.xptr = some x
  nodup : ∀ x b, blocks x = some b → (b.header.map VersionSlot.creatorTs).Nodup
  slots : ∀ x b, blocks x = some b → ∀ slot ∈ b.header,
    slot.xptr ≠ 0 ∧ isValidTimestamp slot.creatorTs = true ∧ slot.creatorTs ≤ persTs
  length : ∀ x b, blocks x = some b → b.header.length ≤ versionsCount

def startupList (persTs : Nat) : Except WuError SnapshotsList :=
  createSnapshot initSnapshotsList persTs .persistent

def startup (db : Database Data) : State Data :=
  { list :=
      match startupList db.persTs with
      | .ok list => list
      | .error _ => initSnapshotsList
    blocks := db.blocks
    timestamp := db.persTs + 1
    clients := fun _ => none }

def ownVersion (b : Block Data) : Option (Version Data) :=
  b.header.head?.map fun slot => ⟨slot.creatorTs, b.data⟩

def Database.content (db : Database Data) (x : Nat) : Option (Version Data) :=
  (db.blocks x).bind ownVersion

def Database.spec (db : Database Data) : Spec Data :=
  { committed := db.content
    view := fun _ => db.content
    working := fun _ _ => none }

/-! ## Events -/

structure System (Data : Type) where
  wu : State Data
  spec : Spec Data

/-- What a valid history keeps to.  The allocator hands out blocks that are free.  Updaters replace
and delete blocks that exist for them, and no two of them touch the same block.  A transaction is
rolled back before it has ended, and an updater is unregistered after. -/
def Allowed (sys : System Data) : Event Data → Prop
  | .allocate _ xptr _ => sys.wu.blocks xptr = none ∧ xptr ≠ 0
  | .createVersion c lxptr newBlock =>
    sys.wu.blocks newBlock = none ∧ newBlock ≠ 0 ∧ sys.spec.read c lxptr ≠ none ∧
      ∀ c', c' ≠ c → ¬ sys.spec.Touched c' lxptr
  | .write c lxptr _ => sys.spec.read c lxptr ≠ none
  | .delete c lxptr _ => sys.spec.read c lxptr ≠ none ∧ ∀ c', c' ≠ c → ¬ sys.spec.Touched c' lxptr
  | .rollback c => ∀ client, sys.wu.clients c = some client → client.statusAndType ≠ .completed
  | .unregister c =>
    ∀ client, sys.wu.clients c = some client → client.statusAndType = .updater →
      client.isCompleted = true
  | _ => True

def timestampOf (wu : State Data) (c : ClientId) : Nat :=
  ((wu.clients c).map Client.timestamp).getD invalidTimestamp

def effect (sys : System Data) : Event Data → Spec Data
  | .allocate c xptr data => sys.spec.write c xptr (some ⟨timestampOf sys.wu c, data⟩)
  | .createVersion c lxptr _ =>
    sys.spec.write c lxptr
      ((sys.spec.read c lxptr).map fun ver => { ver with creatorTs := timestampOf sys.wu c })
  | .write c lxptr data => sys.spec.write c lxptr (some ⟨timestampOf sys.wu c, data⟩)
  | .delete c lxptr _ => sys.spec.write c lxptr none
  | .rollback c => sys.spec.forget c
  | .advance => sys.spec.takeSnapshot sys.wu.timestamp
  | _ => sys.spec

/-- A transaction commits as soon as it is not active any more, even if the garbage it leaves is
not taken. -/
def step (sys : System Data) (event : Event Data) : System Data :=
  { wu := (exec sys.wu event).wu
    spec :=
      match event with
      | .commit c => sys.spec.commit c
      | event => if (exec sys.wu event).error = none then effect sys event else sys.spec }

/-- The store as it is when blocks are freed: what commits is committed before. -/
def freeingSpec (spec : Spec Data) : Event Data → Spec Data
  | .commit c => spec.commit c
  | _ => spec

inductive Run (sys : System Data) : System Data → Prop
  | refl : Run sys sys
  | step {sys' : System Data} (h : Run sys sys') (event : Event Data)
      (hallowed : Allowed sys' event) : Run sys (Runs.step sys' event)

def Database.system (db : Database Data) : System Data := ⟨startup db, db.spec⟩

def Reachable (db : Database Data) (sys : System Data) : Prop := Run db.system sys

/-! ## The invariant of runs -/

theorem startupList_created {persTs : Nat} (hval : isValidTimestamp persTs = true) :
    ∃ l, startupList persTs = .ok l ∧ Created initSnapshotsList persTs .persistent l := by
  have hfut : FuturesFirst initSnapshotsList := ⟨by decide, by decide⟩
  obtain ⟨l, hl⟩ := createSnapshot_of_ensured hval
    (by decide : ensureCanAdvanceSnapshots initSnapshotsList = true) .persistent
  exact ⟨l, hl, createSnapshot_spec hfut (by simp) hl⟩

section

variable (db : Database Data)
include db

theorem startup_list :
    ∃ s, (startup db).list.live = [s] ∧ (startup db).list.activeTs = [] ∧
      s.viewer = ⟨db.persTs, []⟩ ∧ s.occupancy = 0 ∧ s.isDamaged = false ∧
      FuturesFirst (startup db).list ∧ (startup db).list.snapshots.length = snapshotsCount ∧
      Triangular 0 (slots (startup db).list) ∧ entries (slots (startup db).list) = [] := by
  obtain ⟨l, hok, hl⟩ := startupList_created db.valid
  have hlist : (startup db).list = l := by simp [startup, hok]
  obtain ⟨s, hlive, hview, hocc, hdam⟩ := hl.live
  have hempty : initSnapshotsList.live = [] := by decide
  have hchains := hl.slots.imp fun _ _ hslot => hslot.1
  have htri : Triangular 0 (slots initSnapshotsList) := by
    simp [initSnapshotsList, slots, futureSnapshot, snapshotsCount, range_succ, Triangular]
  rw [hlist]
  refine ⟨s, by rw [hlive, hempty], hl.activeTs, hview, hocc, hdam, hl.futures,
    hl.length,
    triangular_of_forall₂ hchains htri, ?_⟩
  rw [entries_of_forall₂ hchains]
  decide

theorem Database.headerOk {b : Block Data} (hb : db.blocks x = some b) :
    HeaderOk (startup db).list.activeTs (startup db).timestamp b.header := by
  obtain ⟨s, -, hact, -⟩ := startup_list db
  rw [hact]
  constructor
  · intro hnil
    have hxptr := db.xptr x b hb
    rw [hnil] at hxptr
    cases hxptr
  · exact db.nodup x b hb
  · intro slot hslot
    exact ⟨(db.slots x b hb slot hslot).1, (db.slots x b hb slot hslot).2.1⟩
  · intro slot hslot
    exact Nat.lt_succ_of_le (db.slots x b hb slot hslot).2.2
  · exact fun _ _ => not_mem_nil
  · exact db.length x b hb

theorem Database.resolves {v : Viewer} (hts : db.persTs ≤ v.timestamp) (hact : v.activeTs = [])
    {ver : Version Data} (hver : db.content x = some ver) : Resolves db.blocks v x ver := by
  obtain ⟨b, hb, hown⟩ := bind_eq_some_iff.1 hver
  obtain ⟨slot, hhd, rfl⟩ := map_eq_some_iff.1 hown
  have hxptr := db.xptr x b hb
  rw [hhd, map_some, some.injEq] at hxptr
  have hslot : slot = ⟨x, slot.creatorTs⟩ := by rw [← hxptr]
  have hvis : visible v slot.creatorTs = true := by
    have hle := (db.slots x b hb slot (mem_of_mem_head? hhd)).2.2
    rw [visible_iff, hact]
    exact ⟨hle.trans hts, not_mem_nil⟩
  have hres : resolve v b.header = some slot := by
    cases hhdr : b.header with
    | nil =>
      rw [hhdr] at hhd
      cases hhd
    | cons own rest =>
      rw [hhdr] at hhd
      cases hhd
      exact resolve_cons_of_visible hvis
  rw [hslot] at hhd hres
  exact ⟨⟨b, _, hb, hhd⟩, x, b, ⟨b, hb, hres⟩, hb, hhd, rfl⟩

theorem startup_inv : Inv (startup db) db.spec := by
  obtain ⟨s, hlive, hact, hview, hocc, hdam, hfut, hlen, htri,
    hent⟩ :=
    startup_list db
  have hts : s.timestamp = db.persTs := congrArg Viewer.timestamp hview
  have hsActive : s.activeTs = [] := congrArg Viewer.activeTs hview
  obtain ⟨hmin, hmax⟩ := isValidTimestamp_iff.1 db.valid
  have hlast : timestampMax ≤ lastCommitedVersionTimestamp := by decide
  have hrun {c ts functions} : ¬ Running (startup db) c ts functions := by
    rintro ⟨client, hcl, -⟩
    cases hcl
  have hall {P : Snapshot → Prop} (hs : P s) : ∀ s' ∈ (startup db).list.live, P s' := by
    rw [hlive]
    exact forall_mem_singleton.2 hs
  refine ⟨⟨?_, ?_, ?_⟩, ?_, ?_⟩
  · refine ⟨⟨?_, ?_, ?_, ?_⟩, hfut, ?_, hlen, htri, ?_, ?_, ?_, ?_, ?_⟩
    · have hviewers : (startup db).list.viewers =
          [⟨lastCommitedVersionTimestamp, []⟩, ⟨db.persTs, []⟩] := by
        rw [SnapshotsList.viewers, SnapshotsList.fakeHeadSnapshot, hlive, hact]
        simp [hview]
      rw [hviewers]
      refine pairwise_cons.2 ⟨?_, pairwise_singleton _ _⟩
      intro w hw ts hts
      rw [mem_singleton.1 hw, visible_iff] at hts
      exact visible_iff.2 ⟨(hts.1.trans hmax).trans hlast, hts.2⟩
    · rw [hlive]
      exact pairwise_singleton _ _
    · exact hall (by rw [hts]; exact db.valid)
    · rw [hlive]
      simp [snapshotsCount]
    · rw [FewUndamaged, hlive]
      exact (length_filter_le _ _).trans (by simp [snapshotsCount])
    · rw [hact]
      exact List.Pairwise.nil
    · exact hall (by rw [hsActive]; exact List.Pairwise.nil)
    · rw [hact]
      exact fun _ hmem => absurd hmem not_mem_nil
    · exact hall (by rw [hts]; exact Nat.lt_succ_self _)
    · show timestampMin ≤ db.persTs + 1 ∧ db.persTs + 1 ≤ timestampMax + 1
      omega
  · constructor
    · exact fun x b hb => db.headerOk hb
    · intro key v content hsees x ver hver
      cases hsees with
      | lastCommitted => exact db.resolves (hmax.trans hlast) hact hver
      | snapshot hs _ =>
        rw [hlive, mem_singleton] at hs
        subst hs
        exact db.resolves (le_of_eq hts.symm) hsActive hver
    · rw [hact]
      exact fun _ _ _ _ _ hmem => absurd hmem not_mem_nil
    · exact fun _ _ _ hr => absurd hr hrun
    · exact fun _ _ _ hr => absurd hr hrun
    · exact fun _ _ _ hr => absurd hr hrun
    · exact fun _ _ _ _ _ _ _ hr => absurd hr hrun
  · refine ⟨by rw [hent]; exact nodup_nil, ?_⟩
    intro entry owners hstored
    have hmem := hstored.mem_entries
    rw [hent] at hmem
    cases hmem
  · constructor
    · intro c client hcl
      cases hcl
    · intro c d client client' hcl
      cases hcl
    · rw [hact]
      exact fun _ hmem => absurd hmem not_mem_nil
    · refine hall ?_
      rw [hocc]
      apply Eq.symm
      rw [Finset.card_eq_zero, Finset.eq_empty_iff_forall_notMem]
      intro c hc
      cases mem_readers.1 hc
    all_goals
      intro c client hcl
      cases hcl
  · constructor
    · intro x ver content hver
      cases hver
    · exact fun _ _ htch => absurd rfl htch
    all_goals exact fun _ _ _ hr => absurd hr hrun

end

section

variable {sys sys' : System Data} {db : Database Data}

structure StepSound (sys : System Data) (event : Event Data) : Prop where
  inv : Inv (step sys event).wu (step sys event).spec
  calls : ∀ call ∈ (exec sys.wu event).frees, SafeCall (freeingSpec sys.spec event) call

theorem StepSound.of_fail (h : Inv sys.wu sys.spec) (hcom : ∀ c, event ≠ .commit c)
    {error : WuError} (heq : exec sys.wu event = sys.wu.fail error) : StepSound sys event := by
  have hspec : (step sys event).spec = sys.spec := by
    unfold step
    cases event with
    | commit c => exact absurd rfl (hcom c)
    | _ => simp [heq, State.fail]
  constructor
  · rw [hspec]
    show Inv (exec sys.wu event).wu sys.spec
    rw [heq]
    exact h
  · rw [heq]
    simp [State.fail]

theorem StepSound.of_ok (hcommit : ∀ c, event ≠ .commit c) (hok : (exec sys.wu event).error = none)
    (h : Sound (exec sys.wu event) (effect sys event))
    (hcom : (effect sys event).committed = sys.spec.committed)
    (hview : (effect sys event).view = sys.spec.view) : StepSound sys event := by
  have hspec : (step sys event).spec = effect sys event := by
    unfold step
    cases event with
    | commit c => exact absurd rfl (hcommit c)
    | _ => simp [hok]
  have hfreeing : freeingSpec sys.spec event = sys.spec := by
    cases event with
    | commit c => exact absurd rfl (hcommit c)
    | _ => rfl
  constructor
  · rw [hspec]
    exact h.inv
  · intro call hcall
    rw [hfreeing]
    exact (h.calls call hcall).congr_spec hcom.symm hview.symm

theorem timestampOf_eq {wu : State Data} {client : Client} (hcl : wu.clients c = some client) :
    timestampOf wu c = client.timestamp := by
  simp [timestampOf, hcl]

section

variable (h : Inv sys.wu sys.spec)
include h

theorem step_allocate {data : Data} (hallowed : Allowed sys (.allocate c x data)) :
    StepSound sys (.allocate c x data) := by
  rcases allocateDataBlock_cases sys.wu c x data with ⟨error, heq⟩ | ⟨client, hopen, heq⟩
  · exact .of_fail h (by simp) heq
  · have hok : (allocateDataBlock sys.wu c x data).error = none := by
      rw [heq]
      rfl
    refine .of_ok (by simp) hok ?_ rfl rfl
    rw [effect, timestampOf_eq hopen.registered]
    exact h.allocate hallowed.1 hallowed.2 hopen.registered hok

theorem step_createVersion {n : Nat} (hallowed : Allowed sys (.createVersion c x n)) :
    StepSound sys (.createVersion c x n) := by
  obtain ⟨hfr, hn, hread, hoth⟩ := hallowed
  rcases h.createBlockVersion_cases c x n with
    ⟨error, heq⟩ | ⟨client, _, _, _, _, _, _, _, hopen, -, -, -, -, -, -, heq⟩
  · exact .of_fail h (by simp) heq
  · have hok : (createBlockVersion sys.wu c x n).error = none := by
      rw [heq]
      rfl
    obtain ⟨ver, hver⟩ := ne_none_iff_exists'.1 hread
    refine .of_ok (by simp) hok ?_ rfl rfl
    rw [effect, timestampOf_eq hopen.registered, hver]
    exact h.createVersion hver hoth hfr hn hopen.registered hok

theorem step_write {data : Data} (hallowed : Allowed sys (.write c x data)) :
    StepSound sys (.write c x data) := by
  rcases writeBlock_cases sys.wu c x data with ⟨error, heq⟩ | ⟨client, _, hcl, -, -, -, heq⟩
  · exact .of_fail h (by simp) heq
  · have hok : (writeBlock sys.wu c x data).error = none := by
      rw [heq]
      rfl
    refine .of_ok (by simp) hok ?_ rfl rfl
    rw [effect, timestampOf_eq hcl]
    exact h.write hallowed hcl hok

theorem step_delete {isInBuffers : Bool} (hallowed : Allowed sys (.delete c x isInBuffers)) :
    StepSound sys (.delete c x isInBuffers) := by
  rcases deleteBlock_cases sys.wu c x isInBuffers with ⟨error, heq⟩ | ⟨_, _, -, -, heq⟩
  · exact .of_fail h (by simp) heq
  · have hok : (deleteBlock sys.wu c x isInBuffers).error = none := by
      rw [heq]
      rfl
    exact .of_ok (by simp) hok (h.delete hallowed.1 hallowed.2 hok) rfl rfl

theorem step_rollback (hallowed : Allowed sys (.rollback c)) : StepSound sys (.rollback c) := by
  by_cases hok : (onRollbackTransaction sys.wu c).error = none
  · exact .of_ok (by simp) hok (h.rollback hallowed hok) rfl rfl
  · -- Only a client that cannot be rolled back makes the call fail.
    cases hcl : sys.wu.clients c with
    | none =>
      have heq : exec sys.wu (.rollback c) = sys.wu.fail .badClientId := by
        simp [exec, onRollbackTransaction, hcl]
      exact .of_fail h (by simp) heq
    | some client =>
      cases hcomp : client.isCompleted with
      | true =>
        have heq : exec sys.wu (.rollback c) = sys.wu.fail .functionInvalidInThisState := by
          simp [exec, onRollbackTransaction, hcl, hcomp]
        exact .of_fail h (by simp) heq
      | false =>
        cases hst : client.statusAndType with
        | completed => exact absurd hst (hallowed client hcl)
        | updater => exact absurd (h.rollback_updater ⟨hcl, hst, hcomp⟩).1 hok
        | readOnly =>
          have hquery := h.client.query c client hcl hst
          exact absurd (by simp [onRollbackTransaction, hcl, hcomp, onTransactionRollback,
            hquery, undoFunctions]) hok

end

theorem StepSound.of_same (h : Sound (exec sys.wu event) sys.spec)
    (heffect : effect sys event = sys.spec) (hfreeing : freeingSpec sys.spec event = sys.spec)
    (hcom : ∀ c, event ≠ .commit c) : StepSound sys event := by
  have hspec : (step sys event).spec = sys.spec := by
    unfold step
    cases event with
    | commit c => exact absurd rfl (hcom c)
    | _ => simp [heffect]
  refine ⟨?_, by rw [hfreeing]; exact h.calls⟩
  rw [hspec]
  exact h.inv

theorem step_sound (h : Inv sys.wu sys.spec) (event : Event Data) (hallowed : Allowed sys event) :
    StepSound sys event := by
  cases event with
  | register c isUsingSnapshot => exact .of_same (h.register c isUsingSnapshot) rfl rfl (by simp)
  | allocate c x data => exact step_allocate h hallowed
  | createVersion c x n => exact step_createVersion h hallowed
  | write c x data => exact step_write h hallowed
  | delete c x isInBuffers => exact step_delete h hallowed
  | commit c => exact ⟨(h.commit c).inv, (h.commit c).calls⟩
  | rollback c => exact step_rollback h hallowed
  | unregister c => exact .of_same (h.unregister hallowed) rfl rfl (by simp)
  | advance => exact ⟨h.advance.1, h.advance.2⟩
  | beginCheckpoint => exact .of_same h.beginCheckpoint rfl rfl (by simp)
  | completeCheckpoint => exact .of_same h.completeCheckpoint rfl rfl (by simp)

theorem Run.inv (hrun : Run sys sys') (h : Inv sys.wu sys.spec) : Inv sys'.wu sys'.spec := by
  induction hrun with
  | refl => exact h
  | step _ event hallowed ih => exact (step_sound ih event hallowed).inv

theorem Reachable.inv (h : Reachable db sys) : Inv sys.wu sys.spec := Run.inv h (startup_inv db)

theorem Run.trans {sys'' : System Data} (h : Run sys sys') (h' : Run sys' sys'') :
    Run sys sys'' := by
  induction h' with
  | refl => exact h
  | step _ event hallowed ih => exact .step ih event hallowed

end

/-! ## A small run -/

def oneBlock : Database Nat where
  persTs := timestampMin
  valid := by decide
  blocks := fun x => if x = 1 then some ⟨[⟨1, timestampMin⟩], 7⟩ else none
  xptr := by
    intro x b hb
    obtain ⟨rfl, ⟨⟩⟩ : x = 1 ∧ _ := Option.ite_none_right_eq_some.1 hb
    rfl
  nodup := by
    intro x b hb
    obtain ⟨rfl, ⟨⟩⟩ : x = 1 ∧ _ := Option.ite_none_right_eq_some.1 hb
    simp
  slots := by
    intro x b hb
    obtain ⟨rfl, ⟨⟩⟩ : x = 1 ∧ _ := Option.ite_none_right_eq_some.1 hb
    decide
  length := by
    intro x b hb
    obtain ⟨rfl, ⟨⟩⟩ : x = 1 ∧ _ := Option.ite_none_right_eq_some.1 hb
    decide

def query : ClientId := ⟨0, by decide⟩

def writer : ClientId := ⟨1, by decide⟩

/-- A query starts on a new snapshot, and the block is replaced while it reads. -/
def oneBlockEvents : List (Event Nat) :=
  [.advance, .register query true, .register writer false, .createVersion writer 1 2,
    .write writer 1 8, .commit writer]

def oneBlockAfter (n : Nat) : System Nat := (oneBlockEvents.take n).foldl step oneBlock.system

theorem run_oneBlock_register : Run (oneBlockAfter 1) (oneBlockAfter 3) :=
  (Run.refl.step (.register query true) trivial).step (.register writer false) trivial

theorem run_oneBlock_write : Run (oneBlockAfter 1) (oneBlockAfter 5) := by
  have hcreate : Allowed (oneBlockAfter 3) (.createVersion writer 1 2) := by
    refine ⟨rfl, by decide, ?_, fun _ _ htch => htch rfl⟩
    intro hread
    cases hread
  have hwrite : Allowed (oneBlockAfter 4) (.write writer 1 8) := by
    intro hread
    cases hread
  exact (run_oneBlock_register.step _ hcreate).step _ hwrite

theorem run_oneBlock_commit : Run (oneBlockAfter 1) (oneBlockAfter 6) :=
  run_oneBlock_write.step (.commit writer) trivial

theorem reachable_oneBlock {sys : System Nat} (h : Run (oneBlockAfter 1) sys) :
    Reachable oneBlock sys :=
  Run.trans (Run.refl.step .advance trivial) h

end Sedna.Wu.Runs
