import Sedna.Library.SnapshotStore
import Sedna.Wu.SnapshotChanges
import Sedna.Wu.Transactions

/-!
# The invariant of the versions mechanism

The state is related to an abstract store with snapshots.  A viewer is either the head, for which
the last committed versions count, or a snapshot that is not damaged.  Every block a viewer knows
is found through the header of its logical block, and what waits to be freed is needed only by its
owners.  This survives fewer viewers, a block that nobody needs being freed and another set of
active transactions.
-/

namespace Sedna.Wu.Invariant

open Library Library.WindowChains Snapshots Versions Headers SnapshotChanges

variable {Data : Type}

structure Version (Data : Type) where
  creatorTs : Nat
  data : Data

/-- The abstract store: logical blocks, and snapshots named by their timestamps. -/
abbrev Spec (Data : Type) := SnapshotStore.State ClientId Nat Nat (Version Data)

abbrev Content (Data : Type) := Nat → Option (Version Data)

/-- The viewers and what they are to see; a snapshot is named by its timestamp. -/
inductive Sees (l : SnapshotsList) (spec : Spec Data) : Option Nat → Viewer → Content Data → Prop
  | lastCommitted : Sees l spec none l.fakeHeadSnapshot spec.committed
  | snapshot {s : Snapshot} (hs : s ∈ l.live) (hdam : s.isDamaged = false) :
      Sees l spec (some s.timestamp) s.viewer (spec.view s.timestamp)

/-! ## Blocks -/

def Holds (b : Block Data) (x : Nat) (ver : Version Data) : Prop :=
  b.header.head? = some ⟨x, ver.creatorTs⟩ ∧ b.data = ver.data

def IsMaster (blocks : Blocks Data) (x : Nat) : Prop :=
  ∃ b ts, blocks x = some b ∧ b.header.head? = some ⟨x, ts⟩

def Locates (blocks : Blocks Data) (v : Viewer) (x a ts : Nat) : Prop :=
  ∃ master, blocks x = some master ∧ resolve v master.header = some ⟨a, ts⟩

def Resolves (blocks : Blocks Data) (v : Viewer) (x : Nat) (ver : Version Data) : Prop :=
  IsMaster blocks x ∧ ∃ a b, Locates blocks v x a ver.creatorTs ∧ blocks a = some b ∧ Holds b x ver

/-- The viewer uses the block at `a`, as a logical block or as a version. -/
def Needs (blocks : Blocks Data) (v : Viewer) (content : Content Data) (a : Nat) : Prop :=
  ∃ x, content x ≠ none ∧ (a = x ∨ ∃ ts, Locates blocks v x a ts)

structure HeaderOk (activeTs : List Nat) (next : Nat) (header : List VersionSlot) : Prop where
  ne_nil : header ≠ []
  nodup : (header.map VersionSlot.creatorTs).Nodup
  valid : ∀ slot ∈ header, slot.xptr ≠ 0 ∧ isValidTimestamp slot.creatorTs = true
  lt : ∀ slot ∈ header, slot.creatorTs < next
  tail : ∀ slot ∈ header.tail, slot.creatorTs ∉ activeTs
  length : header.length ≤ versionsCount

/-! ## Updaters -/

def Running (wu : State Data) (c : ClientId) (ts : Nat) (functions : List VeFunction) : Prop :=
  ∃ client, wu.clients c = some client ∧ client.statusAndType = .updater ∧
    client.isCompleted = false ∧ client.timestamp = ts ∧ client.functionList = functions

structure Replaced (wu : State Data) (spec : Spec Data) (ts : Nat) (f : VeFunction)
    (oldTs : Nat) (older restOld : List VersionSlot) : Prop where
  new : ∃ data, wu.blocks f.lxptr = some ⟨⟨f.lxptr, ts⟩ :: ⟨f.xptr, oldTs⟩ :: older, data⟩
  old : ∃ data, wu.blocks f.xptr = some ⟨⟨f.lxptr, oldTs⟩ :: restOld, data⟩
  ne : f.xptr ≠ f.lxptr
  anchor : f.anchorTs ≤ wu.timestamp
  reach : ∀ snTs v content, Sees wu.list spec (some snTs) v content →
    visible v oldTs = true → f.anchorTs ≤ snTs
  agree : ∀ snTs v content, Sees wu.list spec (some snTs) v content →
    visible v oldTs = false → resolve v older = resolve v restOld

inductive FunctionOk (wu : State Data) (spec : Spec Data) (ts : Nat) (f : VeFunction) : Prop
  | allocate (htype : f.type = .allocateBlock) (hxptr : f.xptr = f.lxptr)
      (hblk : ∃ data, wu.blocks f.lxptr = some ⟨[⟨f.lxptr, ts⟩], data⟩)
      (hnew : ∀ key v content, Sees wu.list spec key v content → content f.lxptr = none)
  | create (isPers : Bool) (htype : f.type = .createVersion isPers) (oldTs : Nat)
      (older restOld : List VersionSlot)
      (hrep : Replaced wu spec ts f oldTs older restOld)
  | free (htype : f.type = .freeBlock) (hxptr : f.xptr = f.lxptr)
      (hmas : IsMaster wu.blocks f.lxptr)
      (hanc : spec.committed f.lxptr ≠ none → f.anchorTs ≤ wu.timestamp)
      (hreach : ∀ snTs v content, Sees wu.list spec (some snTs) v content →
        content f.lxptr ≠ none → f.anchorTs ≤ snTs)

def Held (wu : State Data) (a : Nat) : Prop :=
  ∃ c ts functions, Running wu c ts functions ∧ ∃ f ∈ functions, a = f.lxptr ∨ a = f.xptr

structure BlockInv (wu : State Data) (spec : Spec Data) : Prop where
  headers : ∀ a b, wu.blocks a = some b → HeaderOk wu.list.activeTs wu.timestamp b.header
  seen : ∀ key v content, Sees wu.list spec key v content →
    ∀ x ver, content x = some ver → Resolves wu.blocks v x ver
  owned : ∀ a b slot, wu.blocks a = some b → b.header.head? = some slot →
    slot.creatorTs ∈ wu.list.activeTs →
      ∃ c functions, Running wu c slot.creatorTs functions ∧
        ∃ f ∈ functions, f.lxptr = a ∧ f.type ≠ .freeBlock
  active : ∀ c ts functions, Running wu c ts functions → ts ∈ wu.list.activeTs
  order : ∀ c ts functions, Running wu c ts functions →
    functions.Pairwise fun f g => f.lxptr = g.lxptr → g.type = .freeBlock ∧ f.type ≠ .freeBlock
  function : ∀ c ts functions, Running wu c ts functions → ∀ f ∈ functions, FunctionOk wu spec ts f
  apart : ∀ c c' ts ts' functions functions', c ≠ c' → Running wu c ts functions →
    Running wu c' ts' functions' → ∀ f ∈ functions, ∀ g ∈ functions', f.lxptr ≠ g.lxptr

/-! ## Garbage -/

/-- Only the snapshots with a timestamp in `owners` need the address. -/
structure Garbage (wu : State Data) (spec : Spec Data) (owners : Nat → Prop) (a : Nat) : Prop where
  allocated : wu.blocks a ≠ none
  free : ¬ Held wu a
  owned : ∀ key v content, Sees wu.list spec key v content → Needs wu.blocks v content a →
    ∃ snTs, key = some snTs ∧ owners snTs

structure GcInv (wu : State Data) (spec : Spec Data) : Prop where
  nodup : ((entries (slots wu.list)).map VersionEntry.xptr).Nodup
  garbage : ∀ entry owners, Stored entry owners [] (slots wu.list) →
    Garbage wu spec (· ∈ owners) entry.xptr

/-! ## Time -/

structure TimeInv (wu : State Data) : Prop where
  ages : Ages wu.list
  futures : FuturesFirst wu.list
  few : FewUndamaged wu.list
  length : wu.list.snapshots.length = snapshotsCount
  triangular : Triangular 0 (slots wu.list)
  sorted : wu.list.activeTs.Pairwise (· < ·)
  sortedSnapshots : ∀ s ∈ wu.list.live, s.activeTs.Pairwise (· < ·)
  activeTs : ∀ ts ∈ wu.list.activeTs, isValidTimestamp ts = true ∧ ts < wu.timestamp
  live : ∀ s ∈ wu.list.live, s.timestamp < wu.timestamp
  timestamp : timestampMin ≤ wu.timestamp ∧ wu.timestamp ≤ timestampMax + 1

structure StoreInv (wu : State Data) (spec : Spec Data) : Prop where
  time : TimeInv wu
  block : BlockInv wu spec
  gc : GcInv wu spec

/-! ## Clients -/

def isReader (client : Option Client) (ts : Nat) : Bool :=
  match client with
  | some client => decide (client.statusAndType = .readOnly) && decide (client.timestamp = ts)
  | none => false

def readers (wu : State Data) (ts : Nat) : Finset ClientId :=
  Finset.univ.filter fun c => isReader (wu.clients c) ts = true

structure ClientInv (wu : State Data) : Prop where
  updater : ∀ c client, wu.clients c = some client → client.statusAndType = .updater →
    client.timestamp ∈ wu.list.activeTs
  injective : ∀ c c' client client', wu.clients c = some client → wu.clients c' = some client' →
    client.statusAndType = .updater → client'.statusAndType = .updater →
      client.timestamp = client'.timestamp → c = c'
  active : ∀ ts ∈ wu.list.activeTs, ∃ c client, wu.clients c = some client ∧
    client.statusAndType = .updater ∧ client.timestamp = ts
  occupancy : ∀ s ∈ wu.list.live, s.occupancy = (readers wu s.timestamp).card
  bound : ∀ c client, wu.clients c = some client → client.statusAndType = .readOnly →
    ∃ s ∈ wu.list.live, s.timestamp = client.timestamp ∧ s.isDamaged = false
  query : ∀ c client, wu.clients c = some client → client.statusAndType = .readOnly →
    client.functionList = []

/-! ## Working versions -/

structure WorkInv (wu : State Data) (spec : Spec Data) : Prop where
  written : ∀ c x ver, spec.working c x = some (some ver) →
    ∃ functions b, Running wu c ver.creatorTs functions ∧ wu.blocks x = some b ∧ Holds b x ver
  touched : ∀ c x, spec.Touched c x → ∃ ts functions, Running wu c ts functions ∧
    ∃ f ∈ functions, f.lxptr = x
  function : ∀ c ts functions, Running wu c ts functions → ∀ f ∈ functions, spec.Touched c f.lxptr
  deleted : ∀ c ts functions, Running wu c ts functions → ∀ f ∈ functions,
    f.type = .freeBlock → spec.working c f.lxptr = some none

structure Inv (wu : State Data) (spec : Spec Data) : Prop where
  store : StoreInv wu spec
  client : ClientInv wu
  work : WorkInv wu spec

open Function Option

variable {wu wu' : State Data} {spec spec' : Spec Data} {l l' : SnapshotsList}
  {blocks blocks' : Blocks Data} {key : Option Nat} {v : Viewer} {content : Content Data}
  {x a ts : Nat} {c : ClientId} {f : VeFunction} {functions : List VeFunction}

/-! ## Viewers -/

theorem Sees.of_shrinks (h : Shrinks l l') (hsees : Sees l' spec key v content) :
    Sees l spec key v content := by
  cases hsees with
  | lastCommitted =>
    have hhd : l'.fakeHeadSnapshot = l.fakeHeadSnapshot := by
      unfold SnapshotsList.fakeHeadSnapshot
      rw [h.activeTs]
    rw [hhd]
    exact .lastCommitted
  | @snapshot s hs hdam =>
    obtain ⟨s', hs', hdam', hview⟩ := h.mem hs hdam
    have hts : s'.timestamp = s.timestamp := (congrArg Viewer.timestamp hview :)
    rw [← hview, ← hts]
    exact .snapshot hs' hdam'

theorem Sees.newer (hages : Ages l) (hsees : Sees l spec key v content) {ts : Nat}
    (hts : visible l.fakeHeadSnapshot ts = false) : visible v ts = false := by
  cases hsees with
  | lastCommitted => exact hts
  | snapshot hs _ =>
    exact ((List.pairwise_cons.1 hages.newer).1 _ (List.mem_map_of_mem hs)).not_visible hts

theorem Sees.congr_spec (hcom : spec'.committed = spec.committed)
    (hview : spec'.view = spec.view) (hsees : Sees l spec key v content) :
    Sees l spec' key v content := by
  cases hsees with
  | lastCommitted =>
    rw [← hcom]
    exact .lastCommitted
  | snapshot hs hdam =>
    rw [← hview]
    exact .snapshot hs hdam

theorem Sees.not_visible (hages : Ages l) (hsees : Sees l spec key v content)
    (hts : ts ∈ l.activeTs) : visible v ts = false :=
  hsees.newer hages <| by
    simp [visible, isVersionYoungerThanSnapshot, SnapshotsList.fakeHeadSnapshot, hts]

/-! ## Lookup -/

theorem Locates.unique {a a' ts ts' : Nat} (h : Locates blocks v x a ts)
    (h' : Locates blocks v x a' ts') : a = a' ∧ ts = ts' := by
  obtain ⟨master, hmas, hres⟩ := h
  obtain ⟨master', hmas', hres'⟩ := h'
  rw [hmas, some.injEq] at hmas'
  subst hmas'
  rw [hres] at hres'
  cases hres'
  exact ⟨rfl, rfl⟩

theorem Locates.visible (h : Locates blocks v x a ts) : visible v ts = true := by
  obtain ⟨master, -, hres⟩ := h
  exact resolve_visible hres

section

variable (h : BlockInv wu spec)
include h

section

variable (hsees : Sees wu.list spec key v content)
include hsees

theorem BlockInv.resolves (hx : content x ≠ none) :
    ∃ ver, content x = some ver ∧ Resolves wu.blocks v x ver := by
  obtain ⟨ver, hver⟩ := ne_none_iff_exists'.1 hx
  exact ⟨ver, hver, h.seen _ _ _ hsees x ver hver⟩

theorem BlockInv.located (hx : content x ≠ none) (hloc : Locates wu.blocks v x a ts) :
    ∃ b, wu.blocks a = some b ∧ b.header.head? = some ⟨x, ts⟩ := by
  obtain ⟨ver, -, -, a', b, hloc', hb, hholds⟩ := h.resolves hsees hx
  obtain ⟨rfl, rfl⟩ := hloc.unique hloc'
  exact ⟨b, hb, hholds.1⟩

theorem BlockInv.named (hx : content x ≠ none) (ha : a = x ∨ ∃ ts, Locates wu.blocks v x a ts) :
    ∃ b ts, wu.blocks a = some b ∧ b.header.head? = some ⟨x, ts⟩ ∧
      (a = x ∨ Locates wu.blocks v x a ts) := by
  rcases ha with rfl | ⟨ts, hloc⟩
  · obtain ⟨ver, -, ⟨b, ts, hb, hhd⟩, -⟩ := h.resolves hsees hx
    exact ⟨b, ts, hb, hhd, .inl rfl⟩
  · obtain ⟨b, hb, hhd⟩ := h.located hsees hx hloc
    exact ⟨b, ts, hb, hhd, .inr hloc⟩

theorem BlockInv.needs (hneeds : Needs wu.blocks v content a) :
    ∃ x b ts, content x ≠ none ∧ wu.blocks a = some b ∧ b.header.head? = some ⟨x, ts⟩ ∧
      (a = x ∨ Locates wu.blocks v x a ts) := by
  obtain ⟨x, hx, ha⟩ := hneeds
  obtain ⟨b, ts, hnamed⟩ := h.named hsees hx ha
  exact ⟨x, b, ts, hx, hnamed⟩

theorem BlockInv.allocated (hneeds : Needs wu.blocks v content a) : wu.blocks a ≠ none := by
  obtain ⟨x, b, ts, -, hb, -⟩ := h.needs hsees hneeds
  rw [hb]
  simp

end

end

/-! ## Blocks that change where nobody looks -/

structure SameFor (blocks blocks' : Blocks Data) (v : Viewer) (content : Content Data) : Prop where
  header : ∀ x, content x ≠ none → (blocks' x).map Block.header = (blocks x).map Block.header
  version : ∀ x a ts, content x ≠ none → Locates blocks v x a ts → blocks' a = blocks a

theorem locates_iff_header {a ts : Nat} :
    Locates blocks v x a ts ↔
      ∃ header, (blocks x).map Block.header = some header ∧ resolve v header = some ⟨a, ts⟩ := by
  simp [Locates]

theorem isMaster_iff_header :
    IsMaster blocks x ↔
      ∃ header ts, (blocks x).map Block.header = some header ∧ header.head? = some ⟨x, ts⟩ := by
  simp [IsMaster]

section

variable (h : SameFor blocks blocks' v content)
include h

theorem SameFor.locates (hx : content x ≠ none) {a ts : Nat} :
    Locates blocks' v x a ts ↔ Locates blocks v x a ts := by
  rw [locates_iff_header, locates_iff_header, h.header x hx]

theorem SameFor.needs : Needs blocks' v content a ↔ Needs blocks v content a := by
  refine exists_congr fun x => and_congr_right fun hx => ?_
  rw [exists_congr fun ts => h.locates hx]

theorem SameFor.resolves {ver : Version Data} (hx : content x ≠ none)
    (hres : Resolves blocks v x ver) : Resolves blocks' v x ver := by
  obtain ⟨hmas, a, b, hloc, hb, hholds⟩ := hres
  refine ⟨?_, a, b, (h.locates hx).2 hloc, ?_, hholds⟩
  · rw [isMaster_iff_header, h.header x hx, ← isMaster_iff_header]
    exact hmas
  · rw [h.version x a _ hx hloc, hb]

end

theorem SameFor.update {r : Option (Block Data)} (h : ¬ Needs blocks v content a) :
    SameFor blocks (update blocks a r) v content := by
  constructor
  · intro x hx
    rw [update_of_ne]
    rintro rfl
    exact h ⟨x, hx, .inl rfl⟩
  · intro x b ts hx hloc
    apply update_of_ne
    rintro rfl
    exact h ⟨x, hx, .inr ⟨ts, hloc⟩⟩

/-! ## Functions of updaters under a change -/

theorem exists_data_iff {header : List VersionSlot} :
    (∃ data, blocks a = some ⟨header, data⟩) ↔ (blocks a).map Block.header = some header := by
  constructor
  · rintro ⟨data, hb⟩
    rw [hb]
    rfl
  · intro hhdr
    obtain ⟨b, hb, rfl⟩ := map_eq_some_iff.1 hhdr
    exact ⟨b.data, hb⟩

section

variable (h : FunctionOk wu spec ts f)
include h

/-- What is known of a function stays known if the headers of its blocks stay, no snapshot is added
and the last committed version of its block is the same. -/
theorem FunctionOk.frame_header
    (hlxptr : (wu'.blocks f.lxptr).map Block.header = (wu.blocks f.lxptr).map Block.header)
    (hxptr : (wu'.blocks f.xptr).map Block.header = (wu.blocks f.xptr).map Block.header)
    (hts : wu.timestamp ≤ wu'.timestamp)
    (hsees : ∀ snTs v content, Sees wu'.list spec' (some snTs) v content →
      Sees wu.list spec (some snTs) v content)
    (hcom : spec'.committed f.lxptr = spec.committed f.lxptr) :
    FunctionOk wu' spec' ts f := by
  cases h with
  | allocate htype hself hblk hnew =>
    refine .allocate htype hself ?_ ?_
    · rw [exists_data_iff, hlxptr, ← exists_data_iff]
      exact hblk
    · intro key v content hs
      cases hs with
      | lastCommitted =>
        rw [hcom]
        exact hnew _ _ _ .lastCommitted
      | snapshot hs hdam => exact hnew _ _ _ (hsees _ _ _ (.snapshot hs hdam))
  | create isPers htype oldTs older restOld hrep =>
    refine .create isPers htype oldTs older restOld ?_
    exact
      { new := by rw [exists_data_iff, hlxptr, ← exists_data_iff]; exact hrep.new
        old := by rw [exists_data_iff, hxptr, ← exists_data_iff]; exact hrep.old
        ne := hrep.ne
        anchor := hrep.anchor.trans hts
        reach := fun _ _ _ hs => hrep.reach _ _ _ (hsees _ _ _ hs)
        agree := fun _ _ _ hs => hrep.agree _ _ _ (hsees _ _ _ hs) }
  | free htype hself hmas hanc hreach =>
    refine .free htype hself ?_ ?_ fun _ _ _ hs => hreach _ _ _ (hsees _ _ _ hs)
    · rw [isMaster_iff_header, hlxptr, ← isMaster_iff_header]
      exact hmas
    · intro hne
      rw [hcom] at hne
      exact (hanc hne).trans hts

theorem FunctionOk.frame (hlxptr : wu'.blocks f.lxptr = wu.blocks f.lxptr)
    (hxptr : wu'.blocks f.xptr = wu.blocks f.xptr) (hts : wu.timestamp ≤ wu'.timestamp)
    (hsees : ∀ snTs v content, Sees wu'.list spec' (some snTs) v content →
      Sees wu.list spec (some snTs) v content)
    (hcom : spec'.committed f.lxptr = spec.committed f.lxptr) : FunctionOk wu' spec' ts f :=
  h.frame_header (congrArg _ hlxptr) (congrArg _ hxptr) hts hsees hcom

theorem FunctionOk.isMaster : IsMaster wu.blocks f.lxptr := by
  cases h with
  | allocate _ _ hblk _ =>
    obtain ⟨data, hblk⟩ := hblk
    exact ⟨_, _, hblk, rfl⟩
  | create _ _ _ _ _ hrep =>
    obtain ⟨data, hblk⟩ := hrep.new
    exact ⟨_, _, hblk, rfl⟩
  | free _ _ hmas _ _ => exact hmas

theorem FunctionOk.head_xptr :
    ∃ b oldTs, wu.blocks f.xptr = some b ∧ b.header.head? = some ⟨f.lxptr, oldTs⟩ := by
  cases h with
  | allocate _ hself hblk _ =>
    obtain ⟨data, hblk⟩ := hblk
    exact ⟨_, _, by rw [hself, hblk], rfl⟩
  | create _ _ _ _ _ hrep =>
    obtain ⟨data, hblk⟩ := hrep.old
    exact ⟨_, _, hblk, rfl⟩
  | free _ hself hmas _ _ =>
    rw [hself]
    exact hmas

theorem FunctionOk.lxptr_eq {ts' : Nat} {g : VeFunction} (h' : FunctionOk wu spec ts' g)
    (heq : f.xptr = g.lxptr ∨ f.xptr = g.xptr) : f.lxptr = g.lxptr := by
  obtain ⟨b, oldTs, hb, hhd⟩ := h.head_xptr
  obtain ⟨b', oldTs', hb', hhd'⟩ : ∃ b' oldTs', wu.blocks f.xptr = some b' ∧
      b'.header.head? = some ⟨g.lxptr, oldTs'⟩ := by
    rcases heq with heq | heq
    · rw [heq]
      exact h'.isMaster
    · rw [heq]
      exact h'.head_xptr
  rw [hb, some.injEq] at hb'
  subst hb'
  rw [hhd] at hhd'
  exact congrArg VersionSlot.xptr (some.inj hhd')

end

theorem Held.allocated (h : BlockInv wu spec) (hheld : Held wu a) : wu.blocks a ≠ none := by
  obtain ⟨c, ts, functions, hrun, f, hf, rfl | rfl⟩ := hheld
  · obtain ⟨b, ts', hb, -⟩ := (h.function c ts functions hrun f hf).isMaster
    rw [hb]
    simp
  · obtain ⟨b, ts', hb, -⟩ := (h.function c ts functions hrun f hf).head_xptr
    rw [hb]
    simp

theorem Garbage.ne {owners : Nat → Prop} (ha : Garbage wu spec owners a)
    (hrun : Running wu c ts functions) (hf : f ∈ functions) : f.lxptr ≠ a ∧ f.xptr ≠ a := by
  constructor
  · rintro rfl
    exact ha.free ⟨c, ts, functions, hrun, f, hf, .inl rfl⟩
  · rintro rfl
    exact ha.free ⟨c, ts, functions, hrun, f, hf, .inr rfl⟩

/-! ## A block that nobody needs is freed -/

abbrev Unneeded (wu : State Data) (spec : Spec Data) (a : Nat) : Prop :=
  Garbage wu spec (fun _ => False) a

theorem Unneeded.not_needs (ha : Unneeded wu spec a) (hsees : Sees wu.list spec key v content) :
    ¬ Needs wu.blocks v content a := by
  intro hneeds
  obtain ⟨snTs, -, hfalse⟩ := ha.owned _ _ _ hsees hneeds
  exact hfalse

theorem Unneeded.sameFor (ha : Unneeded wu spec a) (hsees : Sees wu.list spec key v content) :
    SameFor wu.blocks (wu.setBlock a none).blocks v content :=
  .update (ha.not_needs hsees)

theorem setBlock_none_eq_some {b : Block Data} {x : Nat}
    (h : (wu.setBlock a none).blocks x = some b) : x ≠ a ∧ wu.blocks x = some b := by
  by_cases hx : x = a
  · subst hx
    simp at h
  · rw [State.setBlock_blocks, update_of_ne hx] at h
    exact ⟨hx, h⟩

theorem BlockInv.free (h : BlockInv wu spec) (ha : Unneeded wu spec a) :
    BlockInv (wu.setBlock a none) spec := by
  constructor
  · intro x b hb
    exact h.headers x b (setBlock_none_eq_some hb).2
  · intro key v content hsees x ver hver
    have hx : content x ≠ none := by
      rw [hver]
      simp
    exact (ha.sameFor hsees).resolves hx (h.seen key v content hsees x ver hver)
  · intro x b slot hb
    exact h.owned x b slot (setBlock_none_eq_some hb).2
  · exact h.active
  · exact h.order
  · intro c ts functions hrun f hf
    have hne := ha.ne hrun hf
    exact (h.function c ts functions hrun f hf).frame (update_of_ne hne.1 _ _)
      (update_of_ne hne.2 _ _) le_rfl (fun _ _ _ hs => hs) rfl
  · exact h.apart

theorem Garbage.of_free {owners : Nat → Prop} {b : Nat} (hb : Garbage wu spec owners b)
    (ha : Unneeded wu spec a) (hne : b ≠ a) : Garbage (wu.setBlock a none) spec owners b := by
  constructor
  · rw [State.setBlock_blocks, update_of_ne hne]
    exact hb.allocated
  · exact hb.free
  · intro key v content hsees hneeds
    exact hb.owned key v content hsees ((ha.sameFor hsees).needs.1 hneeds)

theorem GcInv.free (h : GcInv wu spec) (ha : Unneeded wu spec a)
    (hent : a ∉ (entries (slots wu.list)).map VersionEntry.xptr) :
    GcInv (wu.setBlock a none) spec := by
  refine ⟨h.nodup, fun entry owners hstored => ?_⟩
  apply (h.garbage entry owners hstored).of_free ha
  rintro rfl
  exact hent (List.mem_map_of_mem hstored.mem_entries)

/-! ## The list of snapshots shrinks -/

theorem BlockInv.shrink (h : BlockInv wu spec) (hl : Shrinks wu.list l) :
    BlockInv { wu with list := l } spec := by
  constructor
  · intro x b hb
    rw [hl.activeTs]
    exact h.headers x b hb
  · intro key v content hsees
    exact h.seen key v content (hsees.of_shrinks hl)
  · intro x b slot hb hhd hact
    rw [hl.activeTs] at hact
    exact h.owned x b slot hb hhd hact
  · intro c ts functions hrun
    rw [hl.activeTs]
    exact h.active c ts functions hrun
  · exact h.order
  · intro c ts functions hrun f hf
    exact (h.function c ts functions hrun f hf).frame rfl rfl le_rfl
      (fun _ _ _ hs => hs.of_shrinks hl) rfl
  · exact h.apart

theorem Garbage.shrink {owners owners' : Nat → Prop} (h : Garbage wu spec owners a)
    (hl : Shrinks wu.list l)
    (howners : ∀ snTs v content, Sees l spec (some snTs) v content → owners snTs → owners' snTs) :
    Garbage { wu with list := l } spec owners' a := by
  refine ⟨h.allocated, h.free, fun key v content hsees hneeds => ?_⟩
  obtain ⟨snTs, rfl, howner⟩ := h.owned key v content (hsees.of_shrinks hl) hneeds
  exact ⟨snTs, rfl, howners snTs v content hsees howner⟩

theorem GcInv.shrink (h : GcInv wu spec) (hl : Shrinks wu.list l)
    (hnd : ((entries (slots l)).map VersionEntry.xptr).Nodup)
    (hstored : ∀ entry owners', Stored entry owners' [] (slots l) →
      ∃ owners, Stored entry owners [] (slots wu.list) ∧
        ∀ snTs v content, Sees l spec (some snTs) v content → snTs ∈ owners → snTs ∈ owners') :
    GcInv { wu with list := l } spec := by
  refine ⟨hnd, fun entry owners' hent => ?_⟩
  obtain ⟨owners, hold, hcov⟩ := hstored entry owners' hent
  exact (h.garbage entry owners hold).shrink hl hcov

theorem TimeInv.shrink (h : TimeInv wu) (hl : Shrinks wu.list l) (hfut : FuturesFirst l)
    (hlen : l.snapshots.length = wu.list.snapshots.length)
    (htri : Triangular 0 (slots l)) : TimeInv { wu with list := l } := by
  have hview : ∀ s ∈ l.live, ∃ s' ∈ wu.list.live, s'.timestamp = s.timestamp ∧
      s'.activeTs = s.activeTs := by
    intro s hs
    obtain ⟨s', hs', heq⟩ := hl.mem_viewer hs
    exact ⟨s', hs', (congrArg Viewer.timestamp heq :), (congrArg Viewer.activeTs heq :)⟩
  refine ⟨hl.ages h.ages, hfut, hl.few h.few, hlen.trans h.length, htri, ?_, ?_, ?_,
    ?_, h.timestamp⟩
  · rw [hl.activeTs]
    exact h.sorted
  · intro s hs
    obtain ⟨s', hs', -, heq⟩ := hview s hs
    rw [← heq]
    exact h.sortedSnapshots s' hs'
  · intro ts hts
    rw [hl.activeTs] at hts
    exact h.activeTs ts hts
  · intro s hs
    obtain ⟨s', hs', heq, -⟩ := hview s hs
    rw [← heq]
    exact h.live s' hs'

theorem TimeInv.congr (h : TimeInv wu) (hlist : wu'.list = wu.list)
    (hts : wu'.timestamp = wu.timestamp) : TimeInv wu' := by
  obtain ⟨hages, hfut, hfew, hlen, htri, hsort, hsortedSnapshots, hact, hlive,
    hbnd⟩ := h
  rw [← hlist] at hages hfut hfew hlen htri hsort hsortedSnapshots hact hlive
  rw [← hts] at hact hlive hbnd
  exact ⟨hages, hfut, hfew, hlen, htri, hsort, hsortedSnapshots, hact, hlive,
    hbnd⟩

theorem StoreInv.flagged (h : StoreInv wu spec) (hact : l.activeTs = wu.list.activeTs)
    (hl : List.Forall₂ Flagged wu.list.snapshots l.snapshots) :
    StoreInv { wu with list := l } spec := by
  have hshrinks := Shrinks.of_flagged hact hl
  have hsl := slots_of_flagged hl
  constructor
  · refine h.time.shrink hshrinks (futuresFirst_of_flagged h.time.futures hl) hl.length_eq.symm ?_
    rw [hsl]
    exact h.time.triangular
  · exact h.block.shrink hshrinks
  · refine h.gc.shrink hshrinks (by rw [hsl]; exact h.gc.nodup) ?_
    intro entry owners hstored
    rw [hsl] at hstored
    exact ⟨owners, hstored, fun _ _ _ _ howner => howner⟩

theorem StoreInv.congr_spec (h : StoreInv wu spec) (hcom : spec'.committed = spec.committed)
    (hview : spec'.view = spec.view) : StoreInv wu spec' := by
  have hsees : ∀ {key v content}, Sees wu.list spec' key v content →
      Sees wu.list spec key v content := fun hs => hs.congr_spec hcom.symm hview.symm
  refine ⟨h.time, ⟨h.block.headers, ?_, h.block.owned, h.block.active, h.block.order, ?_,
    h.block.apart⟩, ⟨h.gc.nodup, ?_⟩⟩
  · exact fun _ _ _ hs => h.block.seen _ _ _ (hsees hs)
  · intro c ts functions hrun f hf
    exact (h.block.function c ts functions hrun f hf).frame rfl rfl le_rfl
      (fun _ _ _ hs => hsees hs) (by rw [hcom])
  · intro entry owners hstored
    have hgarb := h.gc.garbage entry owners hstored
    exact ⟨hgarb.allocated, hgarb.free, fun _ _ _ hs => hgarb.owned _ _ _ (hsees hs)⟩

end Sedna.Wu.Invariant
