import Sedna.Wu.Commit

/-!
# Updates of a transaction

An updater allocates, replaces, writes and deletes blocks.  Each call registers
a function that has to be finished at the end of the transaction.
-/

namespace Sedna.Wu.Invariant

open Library Snapshots Versions Headers List VersionSlot SnapshotStore.State Function Option

variable {Data : Type} {wu : State Data} {spec : Spec Data} {x a ts : Nat} {c c' : ClientId}
  {client new : Client} {f g : VeFunction} {functions : List VeFunction}
  {blocks : Blocks Data} {r : Option (Version Data)} {b : Block Data}

/-! ## A client keeps its role -/

theorem ClientInv.setRole (hcl : wu.clients c = some client)
    (hst : new.statusAndType = client.statusAndType)
    (htimestamp : new.timestamp = client.timestamp) (h : ClientInv wu)
    (hquery : new.statusAndType = .readOnly → new.functionList = []) :
    ClientInv (({ wu with blocks := blocks } : State Data).setClient c (some new)) := by
  apply h.replace_of_isReader rfl
  · intro ts
    rw [hcl, isUpdater_some, isUpdater_some, hst, htimestamp]
    constructor
    · exact fun hts => (em _).imp_right fun hnot => ⟨hts, hnot⟩
    · rintro (⟨hupd, rfl⟩ | ⟨hts, -⟩)
      · exact h.updater c client hcl hupd
      · exact hts
  · intro ts hupd _
    rwa [hcl, isUpdater_some, ← hst, ← htimestamp, ← isUpdater_some]
  · rfl
  · simp [isReader, hcl, hst, htimestamp]
  · rintro _ ⟨⟩
    exact hquery

/-! ## One more function -/

def withFunction (wu : State Data) (c : ClientId) (client : Client) (f : VeFunction)
    (blocks : Blocks Data) : State Data :=
  ({ wu with blocks := blocks } : State Data).setClient c (some (client.push f))

structure Extends (wu : State Data) (spec : Spec Data) (c : ClientId) (client : Client)
    (f : VeFunction) (blocks : Blocks Data) : Prop where
  headers : ∀ a b, blocks a = some b → HeaderOk wu.list.activeTs wu.timestamp b.header
  seen : ∀ key v content, Sees wu.list spec key v content →
    ∀ x ver, content x = some ver → Resolves blocks v x ver
  owned : ∀ a b slot, blocks a = some b → b.header.head? = some slot →
    slot.creatorTs ∈ wu.list.activeTs →
      a = f.lxptr ∧ slot.creatorTs = client.timestamp ∧ f.type ≠ .freeBlock ∨
        ∃ b', wu.blocks a = some b' ∧ b'.header.head? = some slot
  held : ∀ a, Held wu a → blocks a = wu.blocks a
  function : FunctionOk (withFunction wu c client f blocks) spec client.timestamp f
  order : ∀ g ∈ client.functionList, g.lxptr = f.lxptr → f.type = .freeBlock ∧ g.type ≠ .freeBlock
  apart : ∀ c' ts functions, c' ≠ c → Running wu c' ts functions → ∀ g ∈ functions,
    g.lxptr ≠ f.lxptr
  garbage : ∀ owners a, Garbage wu spec owners a → blocks a ≠ none ∧ a ≠ f.lxptr ∧ a ≠ f.xptr ∧
    ∀ key v content, Sees wu.list spec key v content → Needs blocks v content a →
      Needs wu.blocks v content a

section

variable (hopen : OpenUpdater wu c client)
include hopen

theorem running_withFunction :
    Running (withFunction wu c client f blocks) c' ts functions ↔
      c' = c ∧ ts = client.timestamp ∧ functions = client.functionList ++ [f] ∨
        c' ≠ c ∧ Running wu c' ts functions :=
  running_setClient_updater hopen.status hopen.notCompleted

theorem mem_withFunction (h : Running (withFunction wu c client f blocks) c' ts functions)
    (hg : g ∈ functions) :
    (∃ functions', Running wu c' ts functions' ∧ g ∈ functions') ∨
      c' = c ∧ ts = client.timestamp ∧ g = f := by
  rcases (running_withFunction hopen).1 h with ⟨rfl, rfl, rfl⟩ | ⟨-, h⟩
  · rcases mem_append.1 hg with hg | hg
    · exact .inl ⟨_, hopen.running, hg⟩
    · exact .inr ⟨rfl, rfl, mem_singleton.1 hg⟩
  · exact .inl ⟨functions, h, hg⟩

theorem Extends.running (h : Running wu c' ts functions) :
    ∃ functions', Running (withFunction wu c client f blocks) c' ts functions' ∧
      ∀ g ∈ functions, g ∈ functions' := by
  by_cases hc : c' = c
  · subst hc
    obtain ⟨rfl, rfl⟩ := (hopen.running).unique h
    refine ⟨_, (running_withFunction hopen).2 (.inl ⟨rfl, rfl, rfl⟩), ?_⟩
    exact fun g hg => mem_append_left _ hg
  · exact ⟨functions, (running_withFunction hopen).2 (.inr ⟨hc, h⟩), fun g hg => hg⟩

section

variable (h : Extends wu spec c client f blocks)
include h

theorem Extends.block (hinv : BlockInv wu spec) :
    BlockInv (withFunction wu c client f blocks) spec := by
  have hself := hopen.running
  constructor
  · exact h.headers
  · exact h.seen
  · intro a b slot hb hhd hact
    rcases h.owned a b slot hb hhd hact with ⟨rfl, hts, htype⟩ | ⟨b', hb', hhd'⟩
    · refine ⟨c, client.functionList ++ [f], ?_, f, by simp, rfl, htype⟩
      exact (running_withFunction hopen).2 (.inl ⟨rfl, hts, rfl⟩)
    · obtain ⟨c', functions, hrun, g, hg, hlxptr⟩ := hinv.owned a b' slot hb' hhd' hact
      obtain ⟨functions', hrun', hsub⟩ : ∃ functions',
          Running (withFunction wu c client f blocks) c' slot.creatorTs functions' ∧
            ∀ g ∈ functions, g ∈ functions' :=
        Extends.running hopen hrun
      exact ⟨c', functions', hrun', g, hsub g hg, hlxptr⟩
  · intro c' ts functions hrun
    rcases (running_withFunction hopen).1 hrun with
      ⟨-, rfl, -⟩ | ⟨-, hrun⟩
    · exact hinv.active c _ _ hself
    · exact hinv.active c' ts functions hrun
  · intro c' ts functions hrun
    rcases (running_withFunction hopen).1 hrun with
      ⟨-, -, rfl⟩ | ⟨-, hrun⟩
    · refine pairwise_append.2 ⟨hinv.order c _ _ hself, pairwise_singleton _ _, ?_⟩
      intro g hg f' hf'
      rw [mem_singleton.1 hf']
      exact h.order g hg
    · exact hinv.order c' ts functions hrun
  · intro c' ts functions hrun g hg
    rcases mem_withFunction hopen hrun hg with
      ⟨functions', hrun', hg'⟩ | ⟨-, rfl, rfl⟩
    · apply (hinv.function c' ts functions' hrun' g hg').frame
      · exact h.held _ ⟨c', ts, functions', hrun', g, hg', .inl rfl⟩
      · exact h.held _ ⟨c', ts, functions', hrun', g, hg', .inr rfl⟩
      · exact le_refl _
      · exact fun _ _ _ hs => hs
      · rfl
    · exact h.function
  · intro c1 c2 ts1 ts2 functions1 functions2 hc hrun1 hrun2 f1 hf1 f2 hf2
    rcases mem_withFunction hopen hrun1 hf1 with
      ⟨functions1', hrun1', hf1'⟩ | ⟨rfl, rfl, rfl⟩
    · rcases mem_withFunction hopen hrun2 hf2 with
        ⟨functions2', hrun2', hf2'⟩ | ⟨rfl, rfl, rfl⟩
      · exact hinv.apart c1 c2 ts1 ts2 functions1' functions2' hc hrun1' hrun2' f1 hf1' f2
          hf2'
      · exact h.apart c1 ts1 functions1' hc hrun1' f1 hf1'
    · rcases mem_withFunction hopen hrun2 hf2 with
        ⟨functions2', hrun2', hf2'⟩ | ⟨rfl, -, -⟩
      · exact (h.apart c2 ts2 functions2' hc.symm hrun2' f2 hf2').symm
      · exact absurd rfl hc

theorem Extends.gc (hinv : GcInv wu spec) : GcInv (withFunction wu c client f blocks) spec := by
  refine ⟨hinv.nodup, fun entry owners hstored => ?_⟩
  have hold := hinv.garbage entry owners hstored
  obtain ⟨hallocated, hlxptr, hxptr, hneeds⟩ := h.garbage _ _ hold
  refine ⟨hallocated, ?_, ?_⟩
  · rintro ⟨c', ts, functions, hrun, g, hg, ha⟩
    rcases mem_withFunction hopen hrun hg with
      ⟨functions', hrun', hg'⟩ | ⟨-, -, rfl⟩
    · exact hold.free ⟨c', ts, functions', hrun', g, hg', ha⟩
    · exact ha.elim hlxptr hxptr
  · intro key v content hsees hneed
    exact hold.owned key v content hsees (hneeds key v content hsees hneed)

theorem Extends.work (hinv : WorkInv wu spec) (hfree : f.type = .freeBlock → r = none)
    (hwr : ∀ ver, r = some ver → ver.creatorTs = client.timestamp ∧
      ∃ b, blocks f.lxptr = some b ∧ Holds b f.lxptr ver) :
    WorkInv (withFunction wu c client f blocks) (spec.write c f.lxptr r) := by
  have hrun : ∀ c' ts functions, Running wu c' ts functions → ∃ functions',
      Running (withFunction wu c client f blocks) c' ts functions' ∧
        ∀ g ∈ functions, g ∈ functions' :=
    fun _ _ _ hrun => Extends.running hopen hrun
  have hnew : Running (withFunction wu c client f blocks) c client.timestamp
      (client.functionList ++ [f]) :=
    (running_withFunction hopen).2 (.inl ⟨rfl, rfl, rfl⟩)
  constructor
  · intro c' y ver hver
    rw [working_write] at hver
    split at hver
    next heq =>
      obtain ⟨rfl, rfl⟩ := heq
      obtain ⟨hts, b, hb, hholds⟩ := hwr ver (some.inj hver)
      rw [hts]
      exact ⟨_, b, hnew, hb, hholds⟩
    next =>
      obtain ⟨functions, b, hold, hb, hholds⟩ := hinv.written c' y ver hver
      obtain ⟨functions', hold', -⟩ := hrun _ _ _ hold
      refine ⟨functions', b, hold', ?_, hholds⟩
      rw [← hb]
      exact h.held y (hinv.held (c := c') (by simp [Touched, hver]))
  · intro c' y htch
    unfold Touched at htch
    rw [working_write] at htch
    split at htch
    next heq =>
      obtain ⟨rfl, rfl⟩ := heq
      exact ⟨_, _, hnew, f, by simp, rfl⟩
    next =>
      obtain ⟨ts, functions, hold, g, hg, hlxptr⟩ := hinv.touched c' y htch
      obtain ⟨functions', hold', hsub⟩ := hrun _ _ _ hold
      exact ⟨ts, functions', hold', g, hsub g hg, hlxptr⟩
  · intro c' ts functions hold g hg
    unfold Touched
    rw [working_write]
    split
    next => simp
    next hne =>
      rcases mem_withFunction hopen hold hg with
        ⟨functions', hold', hg'⟩ | ⟨rfl, -, rfl⟩
      · exact hinv.function c' ts functions' hold' g hg'
      · exact absurd ⟨rfl, rfl⟩ hne
  · intro c' ts functions hold g hg htype
    rw [working_write]
    rcases mem_withFunction hopen hold hg with
      ⟨functions', hold', hg'⟩ | ⟨rfl, -, rfl⟩
    · have hne : ¬ (c' = c ∧ g.lxptr = f.lxptr) := by
        rintro ⟨rfl, heq⟩
        obtain ⟨-, rfl⟩ := (hopen.running).unique hold'
        exact (h.order g hg' heq).2 htype
      rw [if_neg hne]
      exact hinv.deleted c' ts functions' hold' g hg' htype
    · rw [if_pos ⟨rfl, rfl⟩, hfree htype]

theorem Extends.inv (hinv : Inv wu spec) (hfree : f.type = .freeBlock → r = none)
    (hwr : ∀ ver, r = some ver → ver.creatorTs = client.timestamp ∧
      ∃ b, blocks f.lxptr = some b ∧ Holds b f.lxptr ver) :
    Inv (withFunction wu c client f blocks) (spec.write c f.lxptr r) := by
  have hstore : StoreInv (withFunction wu c client f blocks) spec :=
    ⟨hinv.store.time.congr rfl rfl, h.block hopen hinv.store.block, h.gc hopen hinv.store.gc⟩
  refine ⟨hstore.congr_spec rfl rfl, ?_, h.work hopen hinv.work hfree hwr⟩
  refine ClientInv.setRole hopen.registered rfl rfl hinv.client fun hquery => ?_
  exact absurd (hopen.status.symm.trans hquery) (by simp)

end

end

/-! ## The calls of an updater -/

theorem Inv.fresh (h : Inv wu spec) (hfr : wu.blocks a = none) :
    ¬ Held wu a ∧ (∀ key v content, Sees wu.list spec key v content →
      ¬ Needs wu.blocks v content a) ∧ ∀ owners b, Garbage wu spec owners b → b ≠ a := by
  refine ⟨fun hheld => hheld.allocated h.store.block hfr, ?_, ?_⟩
  · intro key v content hsees hneeds
    exact h.store.block.allocated hsees hneeds hfr
  · rintro owners b hb rfl
    exact hb.allocated hfr

theorem Inv.isMaster_of_read (h : Inv wu spec) {ver : Version Data}
    (hread : spec.read c x = some ver) : IsMaster wu.blocks x := by
  by_cases htch : spec.Touched c x
  · obtain ⟨r, hr⟩ := ne_none_iff_exists'.1 htch
    rw [SnapshotStore.State.read, hr] at hread
    cases hread
    obtain ⟨functions, b, -, hb, hholds⟩ := h.work.written c x ver hr
    exact ⟨b, _, hb, hholds.1⟩
  · rw [read_of_untouched htch] at hread
    exact (h.store.block.seen _ _ _ .lastCommitted x ver hread).1

theorem Inv.ne_of_garbage (h : Inv wu spec) {owners : Nat → Prop} (ha : Garbage wu spec owners a)
    (hread : spec.read c x ≠ none) : a ≠ x := by
  rintro rfl
  by_cases htch : spec.Touched c a
  · exact ha.free (h.work.held htch)
  · rw [read_of_untouched htch] at hread
    obtain ⟨snTs, hkey, -⟩ := ha.owned _ _ _ .lastCommitted ⟨a, hread, .inl rfl⟩
    cases hkey

theorem Inv.extends_allocate (hopen : OpenUpdater wu c client) (h : Inv wu spec) (data : Data)
    (hfr : wu.blocks x = none) (hx : x ≠ 0) :
    Extends wu spec c client ⟨x, x, invalidTimestamp, .allocateBlock⟩
      (Function.update wu.blocks x (some ⟨[⟨x, client.timestamp⟩], data⟩)) := by
  have hact := h.client.updater c client hopen.registered hopen.status
  obtain ⟨hval, hlt⟩ := h.store.time.activeTs _ hact
  obtain ⟨hheld, hneeds, hgarb⟩ := h.fresh hfr
  have hcases : ∀ a b, update wu.blocks x (some ⟨[⟨x, client.timestamp⟩], data⟩) a =
      some b →
      a = x ∧ b = ⟨[⟨x, client.timestamp⟩], data⟩ ∨ wu.blocks a = some b := by
    intro a b hb
    by_cases ha : a = x
    · subst ha
      rw [update_self, some.injEq] at hb
      exact .inl ⟨rfl, hb.symm⟩
    · rw [update_of_ne ha] at hb
      exact .inr hb
  constructor
  · intro a b hb
    rcases hcases a b hb with ⟨rfl, rfl⟩ | hb
    · exact ⟨by simp, by simp, by simp [hx, hval], by simpa using hlt, by simp,
        by simp [versionsCount]⟩
    · exact h.store.block.headers a b hb
  · intro key v content hsees y ver hver
    exact (SameFor.update (hneeds key v content hsees)).resolves (by simp [hver])
      (h.store.block.seen key v content hsees y ver hver)
  · intro a b slot hb hhd _
    rcases hcases a b hb with ⟨rfl, rfl⟩ | hb
    · cases hhd
      exact .inl ⟨rfl, rfl, by simp⟩
    · exact .inr ⟨b, hb, hhd⟩
  · intro a ha
    apply update_of_ne
    rintro rfl
    exact hheld ha
  · refine .allocate rfl rfl ⟨data, update_self _ _ _⟩ ?_
    intro key v content hsees
    by_contra hcont
    exact hneeds key v content hsees ⟨x, hcont, .inl rfl⟩
  · rintro g hg rfl
    have hrun := hopen.running
    exact absurd ⟨c, _, _, hrun, g, hg, .inl rfl⟩ hheld
  · rintro c' ts functions - hrun g hg rfl
    exact hheld ⟨c', ts, functions, hrun, g, hg, .inl rfl⟩
  · intro owners a ha
    have hne := hgarb owners a ha
    refine ⟨?_, hne, hne, ?_⟩
    · rw [update_of_ne hne]
      exact ha.allocated
    · intro key v content hsees
      exact (SameFor.update (hneeds key v content hsees)).needs.1

theorem allocateDataBlock_cases (wu : State Data) (c : ClientId) (x : Nat) (data : Data) :
    (∃ error, allocateDataBlock wu c x data = wu.fail error) ∨
      ∃ client, OpenUpdater wu c client ∧
        allocateDataBlock wu c x data =
          (withFunction wu c client ⟨x, x, invalidTimestamp, .allocateBlock⟩
            (Function.update wu.blocks x (some ⟨[⟨x, client.timestamp⟩], data⟩))).succeed := by
  unfold allocateDataBlock
  cases hcl : wu.clients c with
  | none => exact .inl ⟨_, rfl⟩
  | some client =>
    dsimp only
    split
    next => exact .inl ⟨_, rfl⟩
    next hended =>
      split
      next => exact .inl ⟨_, rfl⟩
      next hquery =>
        exact .inr ⟨client, .of_guards hcl hended hquery, rfl⟩

theorem Inv.allocate (h : Inv wu spec) {data : Data} (hfr : wu.blocks x = none) (hx : x ≠ 0)
    (hcl : wu.clients c = some client) (hok : (allocateDataBlock wu c x data).error = none) :
    Sound (allocateDataBlock wu c x data) (spec.write c x (some ⟨client.timestamp, data⟩)) := by
  rcases allocateDataBlock_cases wu c x data with
    ⟨error, heq⟩ | ⟨client', hopen, heq⟩
  · rw [heq] at hok
    cases hok
  · obtain rfl := some.inj (hcl.symm.trans hopen.registered)
    rw [heq]
    have hextends := h.extends_allocate hopen data hfr hx
    apply Inv.succeed
    refine hextends.inv hopen h (by simp) ?_
    rintro ver ⟨⟩
    exact ⟨rfl, _, update_self _ _ _, rfl, rfl⟩

/-! ## Deleting -/

theorem Resolves.visibleIdx_ne_none {v : Viewer} {ver : Version Data} (h : Resolves blocks v x ver)
    (hb : blocks x = some b) : visibleIdx v (b.header.map creatorTs) ≠ none := by
  obtain ⟨-, _, _, ⟨master, hmas, hres⟩, -⟩ := h
  rw [hb, some.injEq] at hmas
  subst hmas
  exact visibleIdx_ne_none_of_resolve hres

theorem Inv.expandDfvHeader (h : Inv wu spec) (hb : wu.blocks a = some b) (isTotalAnchor : Bool) :
    expandDfvHeader wu.list (b.header.map creatorTs) isTotalAnchor =
      .ok (expanded wu.list (b.header.map creatorTs),
        if isTotalAnchor then
          totalAnchorOf wu.list (expanded wu.list (b.header.map creatorTs))
        else anchorOf wu.list (expanded wu.list (b.header.map creatorTs))) := by
  have hhdr := h.store.block.headers a b hb
  apply h.store.time.ages.expandDfvHeader
  · simpa using hhdr.ne_nil
  · intro ts hts
    obtain ⟨slot, hslot, rfl⟩ := mem_map.1 hts
    exact (hhdr.valid slot hslot).2

theorem Inv.onFreeBlock_anchor (h : Inv wu spec) {isInBuffers : Bool} {anchorTs : Nat}
    (hok : onFreeBlock wu x isInBuffers = .ok anchorTs) :
    (spec.committed x ≠ none → anchorTs ≤ wu.timestamp) ∧
      ∀ snTs v content, Sees wu.list spec (some snTs) v content → content x ≠ none →
        anchorTs ≤ snTs := by
  unfold onFreeBlock at hok
  split at hok
  next b hb =>
    rw [h.expandDfvHeader hb true] at hok
    cases hok
    constructor
    · intro hx
      obtain ⟨ver, -, hres⟩ := h.store.block.resolves .lastCommitted hx
      exact h.store.time.ages.totalAnchorOf_le_bound h.store.time.live (hres.visibleIdx_ne_none hb)
    · intro snTs v content hsees hx
      obtain ⟨ver, -, hres⟩ := h.store.block.resolves hsees hx
      cases hsees with
      | snapshot hs _ => exact h.store.time.ages.totalAnchorOf_le hs (hres.visibleIdx_ne_none hb)
  next =>
    cases hok
    refine ⟨fun _ => h.store.time.timestamp.1, fun snTs v content hsees _ => ?_⟩
    obtain ⟨s, hs, rfl⟩ := hsees.timestamp_mem
    exact (isValidTimestamp_iff.1 (h.store.time.ages.valid s hs)).1

theorem deleteBlock_cases (wu : State Data) (c : ClientId) (x : Nat) (isInBuffers : Bool) :
    (∃ error, deleteBlock wu c x isInBuffers = wu.fail error) ∨
      ∃ client anchorTs, OpenUpdater wu c client ∧ onFreeBlock wu x isInBuffers = .ok anchorTs ∧
        deleteBlock wu c x isInBuffers =
          (withFunction wu c client ⟨x, x, anchorTs, .freeBlock⟩ wu.blocks).succeed := by
  unfold deleteBlock
  cases hcl : wu.clients c with
  | none => exact .inl ⟨_, rfl⟩
  | some client =>
    dsimp only
    split
    next => exact .inl ⟨_, rfl⟩
    next hended =>
      split
      next => exact .inl ⟨_, rfl⟩
      next hquery =>
        split
        next => exact .inl ⟨_, rfl⟩
        next anchorTs hanc =>
          exact .inr ⟨client, anchorTs, .of_guards hcl hended hquery, hanc, rfl⟩

theorem Inv.delete (h : Inv wu spec) {isInBuffers : Bool} (hread : spec.read c x ≠ none)
    (hoth : ∀ c', c' ≠ c → ¬ spec.Touched c' x)
    (hok : (deleteBlock wu c x isInBuffers).error = none) :
    Sound (deleteBlock wu c x isInBuffers) (spec.write c x none) := by
  rcases deleteBlock_cases wu c x isInBuffers with
    ⟨error, heq⟩ | ⟨client, anchorTs, hopen, hanc, heq⟩
  · rw [heq] at hok
    cases hok
  · rw [heq]
    have hrun := hopen.running
    obtain ⟨ver, hver⟩ := ne_none_iff_exists'.1 hread
    obtain ⟨hbound, hreach⟩ := h.onFreeBlock_anchor hanc
    have hextends : Extends wu spec c client ⟨x, x, anchorTs, .freeBlock⟩ wu.blocks := by
      constructor
      · exact h.store.block.headers
      · exact h.store.block.seen
      · exact fun a b slot hb hhd _ => .inr ⟨b, hb, hhd⟩
      · exact fun _ _ => rfl
      · exact .free rfl rfl (h.isMaster_of_read hver) hbound hreach
      · rintro g hg rfl
        refine ⟨rfl, fun htype => hread ?_⟩
        rw [SnapshotStore.State.read, h.work.deleted c _ _ hrun g hg htype]
        rfl
      · rintro c' ts functions hc hrun' g hg rfl
        exact hoth c' hc (h.work.function c' ts functions hrun' g hg)
      · intro owners a ha
        have hne := h.ne_of_garbage ha hread
        exact ⟨ha.allocated, hne, hne, fun _ _ _ _ hneeds => hneeds⟩
    apply Inv.succeed
    exact hextends.inv hopen h (fun _ => rfl) (by simp)

/-! ## Reading and writing -/

theorem head_expanded {l : SnapshotsList} {ts : Nat} {tsIn : List Nat} :
    (expanded l (ts :: tsIn)).head?.map Prod.fst = some workingVersionTimestamp ↔
      visible l.fakeHeadSnapshot ts = false := by
  unfold expanded
  rw [headD_cons]
  split
  next hvis =>
    have hlc : visibleIdx l.fakeHeadSnapshot (ts :: tsIn) = some 0 := by
      simp [visibleIdx, findIdx?_cons, hvis]
    rw [matched_of_some hlc, hvis]
    simp [lastCommitedVersionTimestamp, workingVersionTimestamp]
  next hvis => simpa using hvis

structure FoundMaster (wu : State Data) (client : Client) (x : Nat) (found : FoundVersion Data)
    (own : VersionSlot) (rest : List VersionSlot) (data : Data) : Prop where
  block : wu.blocks x = some ⟨own :: rest, data⟩
  xptr : own.xptr = x
  content : found.block = ⟨own :: rest, data⟩
  out : found.out = expanded wu.list ((own :: rest).map VersionSlot.creatorTs)
  anchorTs : found.anchorTs =
    anchorOf wu.list (expanded wu.list ((own :: rest).map VersionSlot.creatorTs))
  working : visible wu.list.fakeHeadSnapshot own.creatorTs = false →
    own.creatorTs = client.timestamp
  isGranting : found.isGrantingExclAccess = true ↔
    visible wu.list.fakeHeadSnapshot own.creatorTs = false

theorem isVersionOf_cons {own : VersionSlot} {rest : List VersionSlot} {data : Data}
    (h : isVersionOf (⟨own :: rest, data⟩ : Block Data) x = true) : own.xptr = x := by
  simp only [isVersionOf, Bool.and_eq_true, decide_eq_true_eq, head?_cons, map_some,
    some.injEq] at h
  exact h.2

theorem Inv.putBlock_updater (h : Inv wu spec) (hcl : wu.clients c = some client)
    (hst : client.statusAndType = .updater) {found : FoundVersion Data}
    (hok : putBlockVersionToBuffer wu c x = .ok found) :
    ∃ own rest data, FoundMaster wu client x found own rest data := by
  unfold putBlockVersionToBuffer at hok
  simp only [hcl, hst] at hok
  split at hok
  next => cases hok
  next =>
    split at hok
    next => cases hok
    next b hb =>
      split at hok
      next => cases hok
      next hversion =>
        rw [h.expandDfvHeader hb false] at hok
        have hne := (h.store.block.headers x b hb).ne_nil
        obtain ⟨header, data⟩ := b
        cases header with
        | nil => exact absurd rfl hne
        | cons own rest =>
          simp only [map_cons, head?_cons, map_some, head_expanded, if_true]
            at hok
          split at hok
          next => cases hok
          next hally =>
            cases hok
            refine ⟨own, rest, data, hb, isVersionOf_cons (by simpa using hversion), rfl, rfl, rfl,
              ?_, ?_⟩
            · intro hvis
              by_contra hne
              exact hally ⟨by simpa using hvis, by simpa using hne⟩
            · simp

theorem putBlock_isGranting {found : FoundVersion Data}
    (hok : putBlockVersionToBuffer wu c x = .ok found)
    (hgranting : found.isGrantingExclAccess = true) :
    ∃ client, wu.clients c = some client ∧ client.statusAndType = .updater := by
  unfold putBlockVersionToBuffer at hok
  split at hok
  next => cases hok
  next client hcl =>
    refine ⟨client, hcl, ?_⟩
    by_contra hst
    repeat' split at hok
    all_goals cases hok
    cases hgranting

theorem writeBlock_cases (wu : State Data) (c : ClientId) (x : Nat) (data : Data) :
    (∃ error, writeBlock wu c x data = wu.fail error) ∨
      ∃ client found, wu.clients c = some client ∧ client.statusAndType = .updater ∧
        putBlockVersionToBuffer wu c x = .ok found ∧ found.isGrantingExclAccess = true ∧
        writeBlock wu c x data =
          (wu.setBlock x (some { found.block with data := data })).succeed := by
  unfold writeBlock
  cases hput : putBlockVersionToBuffer wu c x with
  | error error => exact .inl ⟨_, rfl⟩
  | ok found =>
    dsimp only
    split
    next hgranting =>
      obtain ⟨client, hcl, hst⟩ := putBlock_isGranting hput hgranting
      exact .inr ⟨client, found, hcl, hst, rfl, hgranting, rfl⟩
    next => exact .inl ⟨_, rfl⟩

section

variable {own : VersionSlot} {rest : List VersionSlot} {old data : Data}
  (hblk : wu.blocks x = some ⟨own :: rest, old⟩)
  (hinvis : visible wu.list.fakeHeadSnapshot own.creatorTs = false)

include hblk in
theorem header_write (data : Data) (a : Nat) :
    ((wu.setBlock x (some ⟨own :: rest, data⟩)).blocks a).map Block.header =
      (wu.blocks a).map Block.header := by
  rw [State.setBlock_blocks]
  by_cases ha : a = x
  · subst ha
    rw [Function.update_self, hblk]
    rfl
  · rw [Function.update_of_ne ha]

include hblk hinvis in
theorem Inv.sameFor_write (h : Inv wu spec) {key : Option Nat} {v : Viewer} {content : Content Data}
    (hsees : Sees wu.list spec key v content) :
    SameFor wu.blocks (wu.setBlock x (some ⟨own :: rest, data⟩)).blocks v content := by
  constructor
  · exact fun y _ => header_write hblk data y
  · intro y a ts hy hloc
    apply Function.update_of_ne
    rintro rfl
    obtain ⟨b, hb, hhd⟩ := h.store.block.located hsees hy hloc
    rw [hblk, Option.some.injEq] at hb
    subst hb
    cases hhd
    have hvis := hloc.visible
    rw [hsees.newer h.store.time.ages hinvis] at hvis
    cases hvis

include hblk hinvis in
theorem Inv.store_write (h : Inv wu spec) :
    StoreInv (wu.setBlock x (some ⟨own :: rest, data⟩)) spec := by
  have hhdr := header_write hblk data
  have hold : ∀ a b, (wu.setBlock x (some ⟨own :: rest, data⟩)).blocks a = some b →
      ∃ b', wu.blocks a = some b' ∧ b'.header = b.header := by
    intro a b hb
    have heq := hhdr a
    rw [hb] at heq
    exact Option.map_eq_some_iff.1 heq.symm
  refine ⟨h.store.time.congr rfl rfl, ?_, ⟨h.store.gc.nodup, ?_⟩⟩
  · constructor
    · intro a b hb
      obtain ⟨b', hb', heq⟩ := hold a b hb
      rw [← heq]
      exact h.store.block.headers a b' hb'
    · intro key v content hsees y ver hver
      exact (h.sameFor_write hblk hinvis hsees).resolves (by simp [hver])
        (h.store.block.seen key v content hsees y ver hver)
    · intro a b slot hb hhd
      obtain ⟨b', hb', heq⟩ := hold a b hb
      rw [← heq] at hhd
      exact h.store.block.owned a b' slot hb' hhd
    · exact h.store.block.active
    · exact h.store.block.order
    · intro c ts functions hrun f hf
      exact (h.store.block.function c ts functions hrun f hf).frame_header (hhdr _)
        (hhdr _)
        (Nat.le_refl _) (fun _ _ _ hs => hs) rfl
    · exact h.store.block.apart
  · intro entry owners hstored
    have hgarb := h.store.gc.garbage entry owners hstored
    refine ⟨?_, hgarb.free, ?_⟩
    · intro hnone
      have heq := hhdr entry.xptr
      rw [hnone] at heq
      exact hgarb.allocated (Option.map_eq_none_iff.1 heq.symm)
    · intro key v content hsees hneeds
      exact hgarb.owned key v content hsees
        ((h.sameFor_write hblk hinvis hsees).needs.1 hneeds)

end

theorem Inv.work_write (h : Inv wu spec) {functions : List VeFunction} {own : VersionSlot}
    {rest : List VersionSlot} {data : Data} (hrun : Running wu c ts functions)
    (hf : f ∈ functions) (hlxptr : f.lxptr = x) (hread : spec.read c x ≠ none)
    (hown : own = ⟨x, ts⟩) :
    WorkInv (wu.setBlock x (some ⟨own :: rest, data⟩)) (spec.write c x (some ⟨ts, data⟩)) := by
  have htch : spec.Touched c x := hlxptr ▸ h.work.function c ts functions hrun f hf
  constructor
  · intro c' y ver hver
    rw [working_write] at hver
    split at hver
    next heq =>
      obtain ⟨rfl, rfl⟩ := heq
      cases hver
      exact ⟨functions, _, hrun, update_self _ _ _, by rw [hown]; rfl, rfl⟩
    next hne =>
      obtain ⟨functions', b, hrun', hb, hholds⟩ := h.work.written c' y ver hver
      have hy : y ≠ x := by
        rintro rfl
        have hc : c ≠ c' := fun heq => hne ⟨heq.symm, rfl⟩
        apply h.untouched_of_running hc hrun hf
        rw [hlxptr]
        simp [SnapshotStore.State.Touched, hver]
      refine ⟨functions', b, hrun', ?_, hholds⟩
      rw [State.setBlock_blocks, update_of_ne hy]
      exact hb
  · intro c' y htch'
    unfold SnapshotStore.State.Touched at htch'
    rw [working_write] at htch'
    split at htch'
    next heq =>
      obtain ⟨rfl, rfl⟩ := heq
      exact h.work.touched c' y htch
    next => exact h.work.touched c' y htch'
  · intro c' ts' functions' hrun' g hg
    unfold SnapshotStore.State.Touched
    rw [working_write]
    split
    next => simp
    next => exact h.work.function c' ts' functions' hrun' g hg
  · intro c' ts' functions' hrun' g hg htype
    have hdel := h.work.deleted c' ts' functions' hrun' g hg htype
    rw [working_write]
    split
    next heq =>
      obtain ⟨rfl, heq⟩ := heq
      rw [SnapshotStore.State.read, ← heq, hdel] at hread
      exact absurd rfl hread
    next => exact hdel

theorem Inv.write (h : Inv wu spec) {data : Data} (hread : spec.read c x ≠ none)
    (hcl : wu.clients c = some client) (hok : (writeBlock wu c x data).error = none) :
    Sound (writeBlock wu c x data) (spec.write c x (some ⟨client.timestamp, data⟩)) := by
  rcases writeBlock_cases wu c x data with
    ⟨error, heq⟩ | ⟨client', found, hcl', hst, hput, hgranting, heq⟩
  · rw [heq] at hok
    cases hok
  · rw [hcl, some.injEq] at hcl'
    subst hcl'
    obtain ⟨own, rest, old, hfnd⟩ := h.putBlock_updater hcl hst hput
    have hinvis := hfnd.isGranting.1 hgranting
    have hts := hfnd.working hinvis
    have hown : own = ⟨x, client.timestamp⟩ := by rw [← hts, ← hfnd.xptr]
    obtain ⟨functions, hrun, f, hf, hlxptr, -⟩ :=
      h.owner_of_working hcl hst hfnd.block rfl hts
    rw [heq, hfnd.content]
    apply Inv.succeed
    refine ⟨(h.store_write hfnd.block hinvis).congr_spec rfl rfl, ?_,
      h.work_write hrun hf hlxptr hread hown⟩
    exact ⟨h.client.updater, h.client.injective, h.client.active, h.client.occupancy,
      h.client.bound,
      h.client.query⟩

end Sedna.Wu.Invariant
