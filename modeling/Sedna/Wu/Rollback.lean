import Sedna.Wu.NewVersion

/-!
# Rollback

The functions of a transaction are undone one after the other, the last one
first.  In between the transaction is one that has done only the functions that
are left.
-/

namespace Sedna.Wu.Invariant

open Library Snapshots Versions Transactions Headers List Function Option

variable {Data : Type} {wu : State Data} {spec : Spec Data} {x n a ts : Nat} {c c' : ClientId}
  {client : Client} {f g : VeFunction} {functions functions' : List VeFunction}
  {blocks : Blocks Data}

/-! ## One function less -/

def withFunctions (wu : State Data) (c : ClientId) (client : Client) (functions : List VeFunction)
    (blocks : Blocks Data) : State Data :=
  ({ wu with blocks := blocks } : State Data).setClient c
    (some { client with functionList := functions })

/-- Somebody else, or another function of the same client, deals with the address. -/
def HeldBesides (wu : State Data) (c : ClientId) (functions : List VeFunction) (a : Nat) : Prop :=
  (∃ f ∈ functions, a = f.lxptr ∨ a = f.xptr) ∨
    ∃ c' ts functions', c' ≠ c ∧ Running wu c' ts functions' ∧
      ∃ f ∈ functions', a = f.lxptr ∨ a = f.xptr

structure Retracts (wu : State Data) (spec : Spec Data) (c : ClientId)
    (functions : List VeFunction) (f : VeFunction) (blocks : Blocks Data) : Prop where
  headers : ∀ a b, blocks a = some b → HeaderOk wu.list.activeTs wu.timestamp b.header
  seen : ∀ key v content, Sees wu.list spec key v content →
    ∀ x ver, content x = some ver → Resolves blocks v x ver
  owned : ∀ a b slot, blocks a = some b → b.header.head? = some slot →
    slot.creatorTs ∈ wu.list.activeTs → (a ≠ f.lxptr ∨ f.type = .freeBlock) ∧
      ∃ b', wu.blocks a = some b' ∧ b'.header.head? = some slot
  held : ∀ a, HeldBesides wu c functions a → blocks a = wu.blocks a
  garbage : ∀ owners a, Garbage wu spec owners a → blocks a ≠ none ∧
    ∀ key v content, Sees wu.list spec key v content → Needs blocks v content a →
      Needs wu.blocks v content a

section

variable (hopen : OpenUpdater wu c client) (hfuns : client.functionList = functions ++ [f])

include hopen in
theorem running_withFunctions :
    Running (withFunctions wu c client functions blocks) c' ts functions' ↔
      c' = c ∧ ts = client.timestamp ∧ functions' = functions ∨
        c' ≠ c ∧ Running wu c' ts functions' :=
  running_setClient_updater hopen.status hopen.notCompleted

include hopen hfuns in
theorem mem_withFunctions
    (h : Running (withFunctions wu c client functions blocks) c' ts functions')
    (hg : g ∈ functions') :
    (∃ functions'', Running wu c' ts functions'' ∧ g ∈ functions'') ∧
      HeldBesides wu c functions g.lxptr ∧ HeldBesides wu c functions g.xptr := by
  rcases (running_withFunctions hopen).1 h with ⟨rfl, rfl, rfl⟩ | ⟨hc, h⟩
  · have hself := hopen.running
    rw [hfuns] at hself
    exact ⟨⟨_, hself, mem_append_left _ hg⟩, .inl ⟨g, hg, .inl rfl⟩, .inl ⟨g, hg, .inr rfl⟩⟩
  · exact ⟨⟨functions', h, hg⟩, .inr ⟨c', ts, functions', hc, h, g, hg, .inl rfl⟩,
      .inr ⟨c', ts, functions', hc, h, g, hg, .inr rfl⟩⟩

include hopen hfuns in
theorem Retracts.block (h : Retracts wu spec c functions f blocks) (hinv : BlockInv wu spec) :
    BlockInv (withFunctions wu c client functions blocks) spec := by
  have hself := hopen.running
  rw [hfuns] at hself
  constructor
  · exact h.headers
  · exact h.seen
  · intro a b slot hb hhd hact
    obtain ⟨hlast, b', hb', hhd'⟩ := h.owned a b slot hb hhd hact
    obtain ⟨c', functions', hrun, g, hg, rfl, htype⟩ := hinv.owned a b' slot hb' hhd' hact
    by_cases hc : c' = c
    · subst hc
      obtain ⟨hts, rfl⟩ := hself.unique hrun
      refine ⟨c', functions, (running_withFunctions hopen).2 (.inl ⟨rfl, hts, rfl⟩), g,
        ?_, rfl, htype⟩
      -- The function that is dropped is not the owner.
      rcases mem_append.1 hg with hg | hg
      · exact hg
      · rw [mem_singleton.1 hg] at hlast htype
        rcases hlast with hne | hfree
        · exact absurd rfl hne
        · exact absurd hfree htype
    · exact ⟨c', functions', (running_withFunctions hopen).2 (.inr ⟨hc, hrun⟩), g,
        hg,
        rfl, htype⟩
  · intro c' ts functions' hrun
    rcases (running_withFunctions hopen).1 hrun with ⟨rfl, rfl, -⟩ | ⟨-, hrun⟩
    · exact hinv.active c' _ _ hself
    · exact hinv.active c' ts functions' hrun
  · intro c' ts functions' hrun
    rcases (running_withFunctions hopen).1 hrun with ⟨-, -, rfl⟩ | ⟨-, hrun⟩
    · exact (pairwise_append.1 (hinv.order c _ _ hself)).1
    · exact hinv.order c' ts functions' hrun
  · intro c' ts functions' hrun g hg
    obtain ⟨⟨functions'', hrun', hg'⟩, hlxptr, hxptr⟩ :=
      mem_withFunctions hopen hfuns hrun hg
    exact (hinv.function c' ts functions'' hrun' g hg').frame (h.held _ hlxptr) (h.held _ hxptr)
      (Nat.le_refl _) (fun _ _ _ hs => hs) rfl
  · intro c1 c2 ts1 ts2 functions1 functions2 hc hrun1 hrun2 f1 hf1 f2 hf2
    obtain ⟨⟨functions1', hrun1', hf1'⟩, -⟩ :=
      mem_withFunctions hopen hfuns hrun1 hf1
    obtain ⟨⟨functions2', hrun2', hf2'⟩, -⟩ :=
      mem_withFunctions hopen hfuns hrun2 hf2
    exact hinv.apart c1 c2 ts1 ts2 functions1' functions2' hc hrun1' hrun2' f1 hf1' f2 hf2'

include hopen hfuns in
theorem Retracts.store (h : Retracts wu spec c functions f blocks) (hinv : StoreInv wu spec) :
    StoreInv (withFunctions wu c client functions blocks) spec := by
  refine ⟨hinv.time.congr rfl rfl, h.block hopen hfuns hinv.block,
    ⟨hinv.gc.nodup, fun entry owners hstored => ?_⟩⟩
  have hold := hinv.gc.garbage entry owners hstored
  obtain ⟨hallocated, hneeds⟩ := h.garbage _ _ hold
  refine ⟨hallocated, ?_, ?_⟩
  · rintro ⟨c', ts, functions', hrun, g, hg, ha⟩
    obtain ⟨⟨functions'', hrun', hg'⟩, -⟩ :=
      mem_withFunctions hopen hfuns hrun hg
    exact hold.free ⟨c', ts, functions'', hrun', g, hg', ha⟩
  · intro key v content hsees hneed
    exact hold.owned key v content hsees (hneeds key v content hsees hneed)

/-! ## Undoing a function -/

include hopen hfuns in
theorem BlockInv.not_heldBesides (h : BlockInv wu spec) (htype : f.type ≠ .freeBlock)
    (ha : a = f.lxptr ∨ a = f.xptr) : ¬ HeldBesides wu c functions a := by
  have hself := hopen.running
  rw [hfuns] at hself
  have hok := h.function c _ _ hself f (by simp)
  -- Another function on the address would be one on the same logical block.
  have hcommon : ∀ {ts' g}, FunctionOk wu spec ts' g → (a = g.lxptr ∨ a = g.xptr) →
      g.lxptr = f.lxptr := by
    intro ts' g hg heq
    rcases ha with rfl | rfl
    · rcases heq with heq | heq
      · exact heq.symm
      · exact hg.lxptr_eq hok (.inl heq.symm)
    · exact (hok.lxptr_eq hg heq).symm
  rintro (⟨g, hg, heq⟩ | ⟨c', ts', functions', hc, hrun, g, hg, heq⟩)
  · have hlxptr := hcommon (h.function c _ _ hself g (mem_append_left _ hg)) heq
    have horder := (pairwise_append.1 (h.order c _ _ hself)).2.2 g hg f (by simp) hlxptr
    exact htype horder.1
  · have hlxptr := hcommon (h.function c' ts' functions' hrun g hg) heq
    exact h.apart c' c ts' _ functions' _ hc hrun hself g hg f (by simp) hlxptr

theorem SafeCall.of_not_needs {l : SnapshotsList}
    (h : ∀ key v content, Sees l spec key v content → ¬ Needs blocks v content a) :
    SafeCall spec ⟨⟨a, none, l⟩, blocks⟩ :=
  ⟨fun key v content hsees _ => h key v content hsees, fun _ hdis => by cases hdis⟩

theorem BlockInv.not_needs_allocated (h : BlockInv wu spec) {data : Data}
    (hblk : wu.blocks x = some ⟨[⟨x, ts⟩], data⟩)
    (hnew : ∀ key v content, Sees wu.list spec key v content → content x = none)
    {key : Option Nat} {v : Viewer} {content : Content Data}
    (hsees : Sees wu.list spec key v content) : ¬ Needs wu.blocks v content x := by
  intro hneeds
  obtain ⟨y, b, ts', hy, hb, hhd, hloc⟩ := h.needs hsees hneeds
  rw [hblk, some.injEq] at hb
  subst hb
  cases hhd
  exact hy (hnew key v content hsees)

include hopen hfuns in
theorem StoreInv.retracts_allocate (h : StoreInv wu spec) (htype : f.type = .allocateBlock)
    (hneeds : ∀ key v content, Sees wu.list spec key v content →
      ¬ Needs wu.blocks v content f.lxptr) :
    Retracts wu spec c functions f (Function.update wu.blocks f.lxptr none) := by
  have hrun := hopen.running
  have hcases : ∀ a b, Function.update wu.blocks f.lxptr none a = some b →
      a ≠ f.lxptr ∧ wu.blocks a = some b :=
    fun a b hb => setBlock_none_eq_some hb
  constructor
  · intro a b hb
    exact h.block.headers a b (hcases a b hb).2
  · intro key v content hsees y ver hver
    exact (SameFor.update (hneeds key v content hsees)).resolves (by simp [hver])
      (h.block.seen key v content hsees y ver hver)
  · intro a b slot hb hhd _
    obtain ⟨hne, hb⟩ := hcases a b hb
    exact ⟨.inl hne, b, hb, hhd⟩
  · intro a ha
    apply Function.update_of_ne
    rintro rfl
    exact h.block.not_heldBesides hopen hfuns (by simp [htype]) (.inl rfl) ha
  · intro owners a ha
    have hne := ha.ne hrun (f := f) (by simp [hfuns])
    refine ⟨?_, fun key v content hsees => ?_⟩
    · rw [Function.update_of_ne hne.1.symm]
      exact ha.allocated
    · exact (SameFor.update (hneeds key v content hsees)).needs.1

theorem StoreInv.retracts_free (h : StoreInv wu spec) (htype : f.type = .freeBlock) :
    Retracts wu spec c functions f wu.blocks := by
  constructor
  · exact h.block.headers
  · exact h.block.seen
  · exact fun a b slot hb hhd _ => ⟨.inr htype, b, hb, hhd⟩
  · exact fun _ _ => rfl
  · exact fun owners a ha => ⟨ha.allocated, fun _ _ _ _ hneeds => hneeds⟩

end

/-! ## An old version is restored -/

section

variable {oldTs : Nat} {older restOld : List VersionSlot} {key : Option Nat} {v : Viewer}
  {content : Content Data} {old : Block Data}

def restoreVersion (blocks : Blocks Data) (x : Nat) (old : Block Data) : Blocks Data :=
  Function.update blocks x (some old)

structure Restorable (wu : State Data) (spec : Spec Data) (ts : Nat) (f : VeFunction)
    (oldTs : Nat) (older restOld : List VersionSlot) (old : Block Data) : Prop where
  replaced : Replaced wu spec ts f oldTs older restOld
  active : ts ∈ wu.list.activeTs
  block : wu.blocks f.xptr = some old
  header : old.header = ⟨f.lxptr, oldTs⟩ :: restOld

section

variable (h : Restorable wu spec ts f oldTs older restOld old)
include h

section

variable (hinv : StoreInv wu spec)
include hinv

theorem Restorable.visible_head : visible wu.list.fakeHeadSnapshot oldTs = true := by
  obtain ⟨data, hnew⟩ := h.replaced.new
  have hhdr := hinv.block.headers _ _ hnew
  exact hhdr.visible_of_tail mem_cons_self

section

variable (hsees : Sees wu.list spec key v content)
include hsees

theorem Restorable.resolve_eq :
    visible v oldTs = true ∧
        resolve v (⟨f.lxptr, ts⟩ :: ⟨f.xptr, oldTs⟩ :: older) = some ⟨f.xptr, oldTs⟩ ∧
        resolve v old.header = some ⟨f.lxptr, oldTs⟩ ∨
      visible v oldTs = false ∧
        resolve v old.header = resolve v (⟨f.lxptr, ts⟩ :: ⟨f.xptr, oldTs⟩ :: older) := by
  have hts : visible v ts = false := hsees.not_visible hinv.time.ages h.active
  rw [h.header, resolve_cons_of_not_visible hts]
  cases hvis : visible v oldTs with
  | true => exact .inl ⟨rfl, resolve_cons_of_visible hvis, resolve_cons_of_visible hvis⟩
  | false =>
    refine .inr ⟨rfl, ?_⟩
    have hagree : resolve v older = resolve v restOld := by
      cases hsees with
      | lastCommitted =>
        rw [h.visible_head hinv] at hvis
        cases hvis
      | snapshot hs hdam => exact h.replaced.agree _ _ _ (.snapshot hs hdam) hvis
    have hleft : resolve v (⟨f.lxptr, oldTs⟩ :: restOld) = resolve v restOld :=
      resolve_cons_of_not_visible hvis
    have hright : resolve v (⟨f.xptr, oldTs⟩ :: older) = resolve v older :=
      resolve_cons_of_not_visible hvis
    rw [hleft, hright, hagree]

theorem Restorable.ne_of_located (hx : content x ≠ none) (hne : x ≠ f.lxptr)
    (hneeds : a = x ∨ ∃ ts', Locates wu.blocks v x a ts') : a ≠ f.lxptr ∧ a ≠ f.xptr := by
  obtain ⟨b, ts', hb, hhd, -⟩ := hinv.block.named hsees hx hneeds
  obtain ⟨data, hnew⟩ := h.replaced.new
  constructor
  · rintro rfl
    rw [hnew, some.injEq] at hb
    subst hb
    cases hhd
    exact hne rfl
  · rintro rfl
    rw [h.block, some.injEq] at hb
    subst hb
    rw [h.header] at hhd
    cases hhd
    exact hne rfl

theorem Restorable.not_needs : ¬ Needs (restoreVersion wu.blocks f.lxptr old) v content f.xptr := by
  rintro ⟨x, hx, hloc⟩
  obtain ⟨data, hnew⟩ := h.replaced.new
  by_cases hne : x = f.lxptr
  · subst hne
    rcases hloc with heq | ⟨ts', master, hmas, hres⟩
    · exact h.replaced.ne heq
    · rw [restoreVersion, update_self, some.injEq] at hmas
      subst hmas
      rcases h.resolve_eq hinv hsees with ⟨-, -, hres'⟩ | ⟨hinvis, hres'⟩
      · rw [hres, some.injEq] at hres'
        exact h.replaced.ne (congrArg VersionSlot.xptr hres')
      · -- The place of the old version is found only by who sees it.
        rw [hres] at hres'
        have hold : Locates wu.blocks v f.lxptr f.xptr ts' := ⟨_, hnew, hres'.symm⟩
        obtain ⟨b, hb, hhd⟩ := hinv.block.located hsees hx hold
        rw [h.block, some.injEq] at hb
        subst hb
        rw [h.header] at hhd
        cases hhd
        have hvis := hold.visible
        rw [hinvis] at hvis
        cases hvis
  · have hloc' : f.xptr = x ∨ ∃ ts', Locates wu.blocks v x f.xptr ts' := by
      refine hloc.imp_right ?_
      rintro ⟨ts', master, hmas, hres⟩
      rw [restoreVersion, update_of_ne hne] at hmas
      exact ⟨ts', master, hmas, hres⟩
    exact (h.ne_of_located hinv hsees hx hne hloc').2 rfl

end

end

end

def undoVersion (blocks : Blocks Data) (x n : Nat) (old : Block Data) : Blocks Data :=
  Function.update (restoreVersion blocks x old) n none

theorem undoVersion_self (hne : n ≠ x) : undoVersion blocks x n old x = some old := by
  unfold undoVersion restoreVersion
  rw [update_of_ne hne.symm, update_self]

theorem undoVersion_of_ne (hx : a ≠ x) (hn : a ≠ n) : undoVersion blocks x n old a = blocks a := by
  unfold undoVersion restoreVersion
  rw [update_of_ne hn, update_of_ne hx]

theorem undoVersion_cases (hne : n ≠ x) {b : Block Data}
    (hb : undoVersion blocks x n old a = some b) :
    a = x ∧ b = old ∨ a ≠ x ∧ a ≠ n ∧ blocks a = some b := by
  by_cases hx : a = x
  · subst hx
    rw [undoVersion_self hne, some.injEq] at hb
    exact .inl ⟨rfl, hb.symm⟩
  · by_cases hn : a = n
    · subst hn
      rw [undoVersion, update_self] at hb
      cases hb
    · rw [undoVersion_of_ne hx hn] at hb
      exact .inr ⟨hx, hn, hb⟩

section

variable (h : Restorable wu spec ts f oldTs older restOld old)
include h

theorem Restorable.resolves (hinv : StoreInv wu spec) (hsees : Sees wu.list spec key v content)
    {ver : Version Data} (hver : content x = some ver) :
    Resolves (undoVersion wu.blocks f.lxptr f.xptr old) v x ver := by
  have hx : content x ≠ none := by
    rw [hver]
    simp
  obtain ⟨data, hnew⟩ := h.replaced.new
  have hself : undoVersion wu.blocks f.lxptr f.xptr old f.lxptr = some old :=
    undoVersion_self h.replaced.ne
  obtain ⟨hmas, a, b, hloc, hb, hholds⟩ := hinv.block.seen key v content hsees x ver hver
  by_cases hne : x = f.lxptr
  · subst hne
    refine ⟨⟨old, oldTs, hself, by rw [h.header]; rfl⟩, ?_⟩
    rcases h.resolve_eq hinv hsees with ⟨-, hres, hres'⟩ | ⟨hinvis, hres⟩
    · obtain ⟨rfl, hts⟩ := hloc.unique ⟨_, hnew, hres⟩
      rw [h.block, some.injEq] at hb
      subst hb
      exact ⟨f.lxptr, old, ⟨old, hself, by rw [hres', hts]⟩, hself, hholds⟩
    · have hvis := hloc.visible
      have hax : a ≠ f.lxptr := by
        rintro rfl
        rw [hnew, some.injEq] at hb
        subst hb
        cases hholds.1
        rw [hsees.not_visible hinv.time.ages h.active] at hvis
        cases hvis
      have han : a ≠ f.xptr := by
        rintro rfl
        rw [h.block, some.injEq] at hb
        subst hb
        have hhd := hholds.1
        rw [h.header] at hhd
        cases hhd
        rw [hinvis] at hvis
        cases hvis
      obtain ⟨master, hmas', hres'⟩ := hloc
      rw [hnew, some.injEq] at hmas'
      subst hmas'
      exact ⟨a, b, ⟨old, hself, hres.trans hres'⟩, by rw [undoVersion_of_ne hax han, hb], hholds⟩
  · obtain ⟨hxx, hxn⟩ := h.ne_of_located hinv hsees hx hne (.inl rfl)
    obtain ⟨hax, han⟩ := h.ne_of_located hinv hsees hx hne (.inr ⟨_, hloc⟩)
    obtain ⟨master, hmas', hres⟩ := hloc
    refine ⟨?_, a, b, ⟨master, ?_, hres⟩, ?_, hholds⟩
    · unfold IsMaster
      rw [undoVersion_of_ne hxx hxn]
      exact hmas
    · rw [undoVersion_of_ne hxx hxn, hmas']
    · rw [undoVersion_of_ne hax han, hb]

theorem Restorable.needs (hinv : StoreInv wu spec) (hsees : Sees wu.list spec key v content)
    (hneeds : Needs (undoVersion wu.blocks f.lxptr f.xptr old) v content a) :
    Needs wu.blocks v content a := by
  obtain ⟨x, hx, hloc⟩ := hneeds
  obtain ⟨data, hnew⟩ := h.replaced.new
  rcases hloc with rfl | ⟨ts', master, hmas, hres⟩
  · exact ⟨a, hx, .inl rfl⟩
  · by_cases hne : x = f.lxptr
    · subst hne
      rw [undoVersion_self h.replaced.ne, some.injEq] at hmas
      subst hmas
      rcases h.resolve_eq hinv hsees with ⟨-, -, hres'⟩ | ⟨-, hres'⟩
      · rw [hres, some.injEq] at hres'
        exact ⟨f.lxptr, hx, .inl (congrArg VersionSlot.xptr hres')⟩
      · exact ⟨f.lxptr, hx, .inr ⟨ts', _, hnew, hres'.symm.trans hres⟩⟩
    · obtain ⟨hxx, hxn⟩ := h.ne_of_located hinv hsees hx hne (.inl rfl)
      rw [undoVersion_of_ne hxx hxn] at hmas
      exact ⟨x, hx, .inr ⟨ts', master, hmas, hres⟩⟩

theorem Restorable.retracts (hinv : StoreInv wu spec) (hopen : OpenUpdater wu c client)
    (hfuns : client.functionList = functions ++ [f]) (htype : f.type ≠ .freeBlock) :
    Retracts wu spec c functions f (undoVersion wu.blocks f.lxptr f.xptr old) := by
  have hrun := hopen.running
  have hbesides : ∀ a, HeldBesides wu c functions a → a ≠ f.lxptr ∧ a ≠ f.xptr := by
    intro a ha
    have hnot := fun heq =>
      hinv.block.not_heldBesides hopen hfuns htype heq ha
    exact ⟨fun heq => hnot (.inl heq), fun heq => hnot (.inr heq)⟩
  constructor
  · intro a b hb
    rcases undoVersion_cases h.replaced.ne hb with ⟨rfl, rfl⟩ | ⟨-, -, hb⟩
    · exact hinv.block.headers f.xptr b h.block
    · exact hinv.block.headers a b hb
  · intro key v content hsees x ver hver
    exact h.resolves hinv hsees hver
  · intro a b slot hb hhd hact
    rcases undoVersion_cases h.replaced.ne hb with ⟨rfl, rfl⟩ | ⟨hax, -, hb⟩
    · -- The old version has been committed.
      rw [h.header] at hhd
      cases hhd
      exact absurd hact (visible_fakeHeadSnapshot.1 (h.visible_head hinv)).2
    · exact ⟨.inl hax, b, hb, hhd⟩
  · intro a ha
    exact undoVersion_of_ne (hbesides a ha).1 (hbesides a ha).2
  · intro owners a ha
    have hne := ha.ne hrun (f := f) (by simp [hfuns])
    refine ⟨?_, fun key v content hsees => h.needs hinv hsees⟩
    rw [undoVersion_of_ne hne.1.symm hne.2.symm]
    exact ha.allocated

end

end

/-! ## The loop -/

theorem StoreInv.undoFunction (h : StoreInv wu spec) (hopen : OpenUpdater wu c client)
    (hfuns : client.functionList = functions ++ [f]) :
    ∃ blocks frees, undoFunction wu.list wu.blocks f = some (blocks, frees) ∧
      Retracts wu spec c functions f blocks ∧ ∀ call ∈ frees, SafeCall spec call := by
  have hrun := hopen.running
  have hf : f ∈ client.functionList := by simp [hfuns]
  cases h.block.function c _ _ hrun f hf with
  | allocate htype _ hblk hnew =>
    obtain ⟨data, hblk⟩ := hblk
    have hneeds : ∀ key v content, Sees wu.list spec key v content →
        ¬ Needs wu.blocks v content f.lxptr :=
      fun _ _ _ hsees => h.block.not_needs_allocated hblk hnew hsees
    refine ⟨_, _, by rw [Transactions.undoFunction, htype], ?_, ?_⟩
    · exact h.retracts_allocate hopen hfuns htype hneeds
    · intro call hcall
      rw [mem_singleton.1 hcall]
      exact .of_not_needs hneeds
  | create isPers htype oldTs older restOld hrep =>
    obtain ⟨data, hold⟩ := hrep.old
    have hrestorable : Restorable wu spec client.timestamp f oldTs older restOld
        ⟨⟨f.lxptr, oldTs⟩ :: restOld, data⟩ :=
      ⟨hrep, h.block.active c _ _ hrun, hold, rfl⟩
    refine ⟨_, _, by rw [Transactions.undoFunction, htype, hold], ?_, ?_⟩
    · exact hrestorable.retracts h hopen hfuns (by simp [htype])
    · intro call hcall
      rw [mem_singleton.1 hcall]
      exact .of_not_needs fun _ _ _ hsees => hrestorable.not_needs h hsees
  | free htype =>
    exact ⟨_, _, by rw [Transactions.undoFunction, htype], h.retracts_free htype, by simp⟩

theorem StoreInv.undoFunctions (h : StoreInv wu spec) (hopen : OpenUpdater wu c client) :
    (undoFunctions wu.list wu.blocks client.functionList.reverse).2.2 = true ∧
      StoreInv (withFunctions wu c client []
        (undoFunctions wu.list wu.blocks client.functionList.reverse).1) spec ∧
      (∀ call ∈ (undoFunctions wu.list wu.blocks client.functionList.reverse).2.1,
        SafeCall spec call) ∧
      ∀ a, HeldBesides wu c [] a →
        (undoFunctions wu.list wu.blocks client.functionList.reverse).1 a = wu.blocks a := by
  induction hlist : client.functionList using reverseRecOn generalizing wu client with
  | nil =>
    refine ⟨rfl, ?_, by simp [undoFunctions], fun _ _ => rfl⟩
    have heq : withFunctions wu c client [] wu.blocks = wu := by
      unfold withFunctions State.setClient
      rw [← hlist, ← hopen.registered]
      simp
    rw [reverse_nil, undoFunctions, heq]
    exact h
  | append_singleton functions f ih =>
    obtain ⟨blocks, frees, hundo, hretracts, hcalls⟩ :=
      h.undoFunction hopen hlist
    have hstore := hretracts.store hopen hlist h
    -- The rest is the rollback of a transaction that has done one function less.
    have hnew : (withFunctions wu c client functions blocks).clients c =
        some { client with functionList := functions } := update_self _ _ _
    obtain ⟨hok, hrest, hrestCalls, hkept⟩ := ih hstore ⟨hnew, hopen.status, hopen.notCompleted⟩ rfl
    have hundone : undoFunctions wu.list wu.blocks (functions ++ [f]).reverse =
        ((undoFunctions wu.list blocks functions.reverse).1,
          frees ++ (undoFunctions wu.list blocks functions.reverse).2.1,
          (undoFunctions wu.list blocks functions.reverse).2.2) := by
      rw [reverse_append, reverse_singleton, singleton_append, undoFunctions, hundo]
    rw [hundone]
    refine ⟨hok, ?_, ?_, ?_⟩
    · have heq : ∀ blocks', withFunctions (withFunctions wu c client functions blocks) c
          { client with functionList := functions } [] blocks' =
            withFunctions wu c client [] blocks' := by
        intro blocks'
        unfold withFunctions State.setClient
        simp
      rw [heq] at hrest
      exact hrest
    · exact forall_mem_append.2 ⟨hcalls, hrestCalls⟩
    · intro a ha
      rcases ha with ⟨_, hmem, -⟩ | ⟨c', ts', functions', hc, hrun, hg⟩
      · cases hmem
      · have hbesides : HeldBesides (withFunctions wu c client functions blocks) c [] a :=
          .inr ⟨c', ts', functions', hc, (running_withFunctions hopen).2 (.inr ⟨hc, hrun⟩), hg⟩
        refine (hkept a hbesides).trans (hretracts.held a ?_)
        exact .inr ⟨c', ts', functions', hc, hrun, hg⟩

/-! ## The call -/

theorem StoreInv.setRolledBack (h : StoreInv (withFunctions wu c client [] blocks) spec)
    (hopen : OpenUpdater wu c client)
    (huniq : ∀ c' functions, Running wu c' client.timestamp functions → c' = c)
    {new : Client} (hnew : new.isCompleted = true) :
    StoreInv (({ wu with blocks := blocks } : State Data).setClient c (some new)) spec := by
  have hrun : ∀ c' ts functions,
      Running (({ wu with blocks := blocks } : State Data).setClient c (some new)) c' ts functions →
        Running (withFunctions wu c client [] blocks) c' ts functions := by
    intro c' ts functions hold
    have hclosed : ∀ client', some new = some client' → client'.statusAndType = .updater →
        client'.isCompleted = true := by
      rintro _ ⟨⟩ _
      exact hnew
    exact (running_withFunctions hopen).2 (.inr ((running_setClient_closed hclosed).1 hold))
  refine HeadChange.store ?_ (h.time.congr rfl rfl) h
  refine ⟨rfl, rfl, rfl, le_refl _, h.block.headers, ?_, fun _ _ hneeds => hneeds, ?_, ?_,
    fun c' ts functions hold => .inr (hrun c' ts functions hold), fun _ _ _ _ _ _ => rfl⟩
  · exact h.block.seen _ _ _ .lastCommitted
  · -- A version that is not committed belongs to another client.
    intro a b slot hb hhd hact
    obtain ⟨c'', functions'', howner, f, hf, -⟩ := h.block.owned a b slot hb hhd hact
    refine ⟨hact, fun c' functions hold => ?_⟩
    rcases (running_withFunctions hopen).1 hold with ⟨rfl, hts, -⟩ | ⟨hc, hold⟩
    · rw [hts] at howner
      rcases (running_withFunctions hopen).1 howner with ⟨-, -, rfl⟩ | ⟨hc, howner⟩
      · cases hf
      · exact absurd (huniq c'' functions'' howner) hc
    · exact Running.setClient hold hc
  · intro c' ts functions hold
    exact h.block.active c' ts functions (hrun c' ts functions hold)

theorem Inv.rollback_updater (h : Inv wu spec) (hopen : OpenUpdater wu c client) :
    (onRollbackTransaction wu c).error = none ∧
      Sound (onRollbackTransaction wu c) (spec.forget c) := by
  obtain ⟨hok, hstore, hcalls, hkept⟩ := h.store.undoFunctions hopen
  have hrolled : onRollbackTransaction wu c =
      ⟨({ wu with blocks := (undoFunctions wu.list wu.blocks client.functionList.reverse).1 } :
          State Data).setClient c (some { client with isCompleted := true, isRolledBack := true }),
        (undoFunctions wu.list wu.blocks client.functionList.reverse).2.1, none⟩ := by
    simp [onRollbackTransaction, hopen.registered, hopen.notCompleted, onTransactionRollback, hok]
  rw [hrolled]
  have huniq : ∀ c' functions, Running wu c' client.timestamp functions → c' = c :=
    fun c' functions hrun => h.client.running_eq hrun hopen.running
  refine ⟨rfl, ⟨?_, ?_, ?_⟩, fun call hcall => ?_⟩
  · exact (hstore.setRolledBack hopen huniq rfl).congr_spec rfl rfl
  · refine ClientInv.setRole hopen.registered rfl rfl h.client fun hquery => ?_
    exact absurd (hopen.status.symm.trans hquery) (by simp)
  · apply h.work.drop
    · exact fun _ _ => SnapshotStore.State.working_forget
    · intro c' ts functions
      refine running_setClient_closed ?_
      rintro _ ⟨⟩ _
      rfl
    · intro c' x hc htch
      obtain ⟨ts, functions, hrun, f, hf, hx⟩ := h.work.touched c' x htch
      exact hkept x (.inr ⟨c', ts, functions, hc, hrun, f, hf, .inl hx.symm⟩)
  · exact (hcalls call hcall).congr_spec rfl rfl

end Sedna.Wu.Invariant
