import Sedna.Wu.Invariant

/-!
# Active transactions

An updater is registered, or it ends: the last committed versions are the only
ones that depend on who is active.
-/

namespace Sedna.Wu.Invariant

open Library Snapshots Versions Transactions Headers SnapshotChanges List Function Option
  SnapshotStore.State

variable {Data : Type} {wu wu' : State Data} {spec spec' : Spec Data} {l l' : SnapshotsList}
  {blocks : Blocks Data} {key : Option Nat} {v v' : Viewer} {content : Content Data}
  {x a ts : Nat} {c c' : ClientId} {client : Client} {f : VeFunction}
  {functions : List VeFunction}

/-! ## Running updaters -/

structure OpenUpdater (wu : State Data) (c : ClientId) (client : Client) : Prop where
  registered : wu.clients c = some client
  status : client.statusAndType = .updater
  notCompleted : client.isCompleted = false

theorem OpenUpdater.of_guards (hcl : wu.clients c = some client)
    (hended : ¬ (client.statusAndType = .completed ∨ client.isCompleted = true))
    (hquery : client.statusAndType ≠ .readOnly) : OpenUpdater wu c client := by
  push Not at hended
  refine ⟨hcl, ?_, by simpa using hended.2⟩
  cases hst : client.statusAndType <;> simp_all

theorem OpenUpdater.running (h : OpenUpdater wu c client) :
    Running wu c client.timestamp client.functionList :=
  ⟨client, h.registered, h.status, h.notCompleted, rfl, rfl⟩

theorem Running.unique {ts' : Nat} {functions' : List VeFunction} (h : Running wu c ts functions)
    (h' : Running wu c ts' functions') : ts' = ts ∧ functions' = functions := by
  obtain ⟨client, hcl, -, -, rfl, rfl⟩ := h
  obtain ⟨client', hcl', -, -, rfl, rfl⟩ := h'
  rw [hcl, some.injEq] at hcl'
  subst hcl'
  exact ⟨rfl, rfl⟩

theorem Running.of_setClient {new : Option Client}
    (h : Running (wu.setClient c new) c' ts functions) :
    c' = c ∧ (∃ client, new = some client ∧ client.statusAndType = .updater ∧
        client.isCompleted = false ∧ client.timestamp = ts ∧ client.functionList = functions) ∨
      c' ≠ c ∧ Running wu c' ts functions := by
  obtain ⟨client, hcl, hrest⟩ := h
  rw [State.setClient_clients] at hcl
  by_cases hc : c' = c
  · subst hc
    rw [update_self] at hcl
    exact .inl ⟨rfl, client, hcl, hrest⟩
  · rw [update_of_ne hc] at hcl
    exact .inr ⟨hc, client, hcl, hrest⟩

theorem Running.setClient {new : Option Client} (h : Running wu c' ts functions) (hc : c' ≠ c) :
    Running (wu.setClient c new) c' ts functions := by
  obtain ⟨client, hcl, hrest⟩ := h
  refine ⟨client, ?_, hrest⟩
  rw [State.setClient_clients, update_of_ne hc]
  exact hcl

theorem running_setClient_updater {new : Client} (hst : new.statusAndType = .updater)
    (hcomp : new.isCompleted = false) :
    Running (wu.setClient c (some new)) c' ts functions ↔
      c' = c ∧ ts = new.timestamp ∧ functions = new.functionList ∨
        c' ≠ c ∧ Running wu c' ts functions := by
  constructor
  · intro h
    rcases h.of_setClient with ⟨rfl, client, hcl, -, -, rfl, rfl⟩ | h
    · cases hcl
      exact .inl ⟨rfl, rfl, rfl⟩
    · exact .inr h
  · rintro (⟨rfl, rfl, rfl⟩ | ⟨hc, h⟩)
    · exact ⟨_, update_self _ _ _, hst, hcomp, rfl, rfl⟩
    · exact h.setClient hc

theorem running_setClient_closed {new : Option Client} (hnew : ∀ client, new = some client →
      client.statusAndType = .updater → client.isCompleted = true) :
    Running (wu.setClient c new) c' ts functions ↔ c' ≠ c ∧ Running wu c' ts functions := by
  constructor
  · intro h
    rcases h.of_setClient with ⟨-, client, heq, hupd, hopen, -⟩ | h
    · rw [hnew client heq hupd] at hopen
      cases hopen
    · exact h
  · rintro ⟨hc, h⟩
    exact h.setClient hc

theorem ClientInv.running_eq (h : ClientInv wu) {functions' : List VeFunction}
    (hrun : Running wu c ts functions) (hrun' : Running wu c' ts functions') : c = c' := by
  obtain ⟨client, hcl, hst, -, hts, -⟩ := hrun
  obtain ⟨client', hcl', hst', -, hts', -⟩ := hrun'
  exact h.injective c c' client client' hcl hcl' hst hst' (hts.trans hts'.symm)

/-! ## Another viewer -/

theorem locates_congr_viewer (hvis : ∀ b, blocks x = some b → ∀ slot ∈ b.header,
      visible v' slot.creatorTs = visible v slot.creatorTs) :
    Locates blocks v' x a ts ↔ Locates blocks v x a ts := by
  refine exists_congr fun master => and_congr_right fun hmas => ?_
  rw [resolve, resolve, find?_congr (hvis master hmas)]

theorem Resolves.congr_viewer {ver : Version Data} (hvis : ∀ b, blocks x = some b →
      ∀ slot ∈ b.header, visible v' slot.creatorTs = visible v slot.creatorTs)
    (h : Resolves blocks v x ver) : Resolves blocks v' x ver := by
  obtain ⟨hmas, a, b, hloc, hb, hholds⟩ := h
  exact ⟨hmas, a, b, (locates_congr_viewer hvis).2 hloc, hb, hholds⟩

theorem needs_congr_viewer (hvis : ∀ x b, blocks x = some b → ∀ slot ∈ b.header,
      visible v' slot.creatorTs = visible v slot.creatorTs) :
    Needs blocks v' content a ↔ Needs blocks v content a := by
  refine exists_congr fun x => and_congr_right fun _ => ?_
  rw [exists_congr fun ts => locates_congr_viewer (hvis x)]

theorem visible_fakeHeadSnapshot :
    visible l.fakeHeadSnapshot ts = true ↔ ts ≤ lastCommitedVersionTimestamp ∧ ts ∉ l.activeTs :=
  visible_iff

theorem visible_fakeHeadSnapshot_iff (h : isValidTimestamp ts = true) :
    visible l.fakeHeadSnapshot ts = true ↔ ts ∉ l.activeTs := by
  have hmax := (isValidTimestamp_iff.1 h).2
  have hle : timestampMax ≤ lastCommitedVersionTimestamp := by decide
  exact visible_fakeHeadSnapshot.trans (and_iff_right (hmax.trans hle))

theorem HeaderOk.visible_of_tail {now : Nat} {header : List VersionSlot} {slot : VersionSlot}
    (h : HeaderOk l.activeTs now header) (hslot : slot ∈ header.tail) :
    visible l.fakeHeadSnapshot slot.creatorTs = true :=
  (visible_fakeHeadSnapshot_iff (h.valid slot (mem_of_mem_tail hslot)).2).2 (h.tail slot hslot)

theorem visible_fakeHeadSnapshot_congr (h : ts ∈ l'.activeTs ↔ ts ∈ l.activeTs) :
    visible l'.fakeHeadSnapshot ts = visible l.fakeHeadSnapshot ts := by
  rw [Bool.eq_iff_iff, visible_fakeHeadSnapshot, visible_fakeHeadSnapshot, h]

theorem Sees.of_snapshots {snTs : Nat} (hsnaps : l'.snapshots = l.snapshots)
    (hview : spec'.view = spec.view) (h : Sees l' spec' (some snTs) v content) :
    Sees l spec (some snTs) v content := by
  have hlive : l'.live = l.live := by
    unfold SnapshotsList.live
    rw [hsnaps]
  cases h with
  | snapshot hs hdam =>
    rw [hview]
    exact .snapshot (hlive ▸ hs) hdam

/-! ## The head changes -/

/-- The blocks and the snapshots stay, while other transactions are active and other versions are
the last committed ones. -/
structure HeadChange (wu : State Data) (spec : Spec Data) (wu' : State Data) (spec' : Spec Data) :
    Prop where
  blocks : wu'.blocks = wu.blocks
  snapshots : wu'.list.snapshots = wu.list.snapshots
  view : spec'.view = spec.view
  timestamp : wu.timestamp ≤ wu'.timestamp
  headers : ∀ a b, wu.blocks a = some b → HeaderOk wu'.list.activeTs wu'.timestamp b.header
  seen : ∀ x ver, spec'.committed x = some ver → Resolves wu.blocks wu'.list.fakeHeadSnapshot x ver
  needs : ∀ a, ¬ Held wu a → Needs wu.blocks wu'.list.fakeHeadSnapshot spec'.committed a →
    Needs wu.blocks wu.list.fakeHeadSnapshot spec.committed a
  owned : ∀ a b slot, wu.blocks a = some b → b.header.head? = some slot →
    slot.creatorTs ∈ wu'.list.activeTs → slot.creatorTs ∈ wu.list.activeTs ∧
      ∀ c functions, Running wu c slot.creatorTs functions → Running wu' c slot.creatorTs functions
  active : ∀ c ts functions, Running wu' c ts functions → ts ∈ wu'.list.activeTs
  running : ∀ c ts functions, Running wu' c ts functions →
    functions = [] ∨ Running wu c ts functions
  committed : ∀ c ts functions, Running wu' c ts functions → ∀ f ∈ functions,
    spec'.committed f.lxptr = spec.committed f.lxptr

section

variable (h : HeadChange wu spec wu' spec')
include h

theorem HeadChange.of_mem (hrun : Running wu' c ts functions) (hf : f ∈ functions) :
    Running wu c ts functions := by
  rcases h.running c ts functions hrun with rfl | hrun
  · exact absurd hf not_mem_nil
  · exact hrun

theorem HeadChange.held (hheld : Held wu' a) : Held wu a := by
  obtain ⟨c, ts, functions, hrun, f, hf, ha⟩ := hheld
  exact ⟨c, ts, functions, h.of_mem hrun hf, f, hf, ha⟩

theorem HeadChange.block (hinv : BlockInv wu spec) : BlockInv wu' spec' := by
  constructor
  · intro a b hb
    rw [h.blocks] at hb
    exact h.headers a b hb
  · intro key v content hsees x ver hver
    rw [h.blocks]
    cases hsees with
    | lastCommitted => exact h.seen x ver hver
    | snapshot hs hdam =>
      exact hinv.seen _ _ _
        (Sees.of_snapshots h.snapshots h.view (.snapshot hs hdam)) x ver hver
  · intro a b slot hb hhd hact
    rw [h.blocks] at hb
    obtain ⟨hold, hrun⟩ := h.owned a b slot hb hhd hact
    obtain ⟨c, functions, hrun', hf⟩ := hinv.owned a b slot hb hhd hold
    exact ⟨c, functions, hrun c functions hrun', hf⟩
  · exact h.active
  · intro c ts functions hrun
    rcases h.running c ts functions hrun with rfl | hrun
    · exact List.Pairwise.nil
    · exact hinv.order c ts functions hrun
  · intro c ts functions hrun f hf
    apply (hinv.function c ts functions (h.of_mem hrun hf) f hf).frame
    · rw [h.blocks]
    · rw [h.blocks]
    · exact h.timestamp
    · exact fun _ _ _ hs => hs.of_snapshots h.snapshots h.view
    · exact h.committed c ts functions hrun f hf
  · intro c c' ts ts' functions functions' hc hrun hrun' f hf g hg
    exact hinv.apart c c' ts ts' functions functions' hc (h.of_mem hrun hf)
      (h.of_mem hrun' hg) f hf g hg

theorem HeadChange.garbage {owners : Nat → Prop} (ha : Garbage wu spec owners a) :
    Garbage wu' spec' owners a := by
  constructor
  · rw [h.blocks]
    exact ha.allocated
  · intro hheld
    exact ha.free (h.held hheld)
  · intro key v content hsees hneeds
    rw [h.blocks] at hneeds
    cases hsees with
    | lastCommitted => exact ha.owned _ _ _ .lastCommitted (h.needs a ha.free hneeds)
    | snapshot hs hdam =>
      exact ha.owned _ _ _ (Sees.of_snapshots h.snapshots h.view (.snapshot hs hdam)) hneeds

theorem HeadChange.store (htime : TimeInv wu') (hinv : StoreInv wu spec) : StoreInv wu' spec' := by
  have hsl : slots wu'.list = slots wu.list := by
    unfold slots
    rw [h.snapshots]
  refine ⟨htime, h.block hinv.block, ⟨?_, fun entry owners hstored => ?_⟩⟩
  · rw [hsl]
    exact hinv.gc.nodup
  · rw [hsl] at hstored
    exact h.garbage (hinv.gc.garbage entry owners hstored)

end

theorem StoreInv.congr_running (h : StoreInv wu spec) (hlist : wu'.list = wu.list)
    (hblocks : wu'.blocks = wu.blocks) (hts : wu'.timestamp = wu.timestamp)
    (hrun : ∀ c ts functions, Running wu' c ts functions ↔ Running wu c ts functions) :
    StoreInv wu' spec := by
  refine HeadChange.store ?_ (h.time.congr hlist hts) h
  refine ⟨hblocks, by rw [hlist], rfl, le_of_eq hts.symm, ?_, ?_, ?_, ?_, ?_, ?_,
    fun _ _ _ _ _ _ => rfl⟩
  · rw [hlist, hts]
    exact h.block.headers
  · rw [hlist]
    exact h.block.seen _ _ _ .lastCommitted
  · rw [hlist]
    exact fun _ _ hneeds => hneeds
  · rw [hlist]
    exact fun a b slot _ _ hact => ⟨hact, fun c functions => (hrun c _ functions).2⟩
  · rw [hlist]
    exact fun c ts functions hnew => h.block.active c ts functions
      ((hrun c ts functions).1 hnew)
  · exact fun c ts functions hnew => .inr ((hrun c ts functions).1 hnew)

/-! ## Clients and working versions under a change -/

theorem isReader_eq_true_iff {client : Option Client} :
    isReader client ts = true ↔
      ∃ client', client = some client' ∧ client'.statusAndType = .readOnly ∧
        client'.timestamp = ts := by
  cases client <;> simp [isReader]

theorem readers_congr {new : Option Client}
    (hclients : wu'.clients = Function.update wu.clients c new)
    (h : isReader new ts = isReader (wu.clients c) ts) : readers wu' ts = readers wu ts := by
  apply Finset.filter_congr
  intro c' _
  rw [hclients]
  by_cases hc : c' = c
  · subst hc
    rw [update_self, h]
  · rw [update_of_ne hc]

def IsUpdater (client : Option Client) (ts : Nat) : Prop :=
  ∃ client', client = some client' ∧ client'.statusAndType = .updater ∧ client'.timestamp = ts

@[simp] theorem isUpdater_none : ¬ IsUpdater none ts := by simp [IsUpdater]

@[simp] theorem isUpdater_some :
    IsUpdater (some client) ts ↔ client.statusAndType = .updater ∧ client.timestamp = ts := by
  simp [IsUpdater]

section

variable {new : Option Client} (h : ClientInv wu)
  (hclients : wu'.clients = Function.update wu.clients c new)
  (hact : ∀ ts, ts ∈ wu'.list.activeTs ↔
    IsUpdater new ts ∨ ts ∈ wu.list.activeTs ∧ ¬ IsUpdater (wu.clients c) ts)
  (hfr : ∀ ts, IsUpdater new ts → ts ∈ wu.list.activeTs → IsUpdater (wu.clients c) ts)

include h hclients hact hfr

theorem ClientInv.replace
    (hocc : ∀ s ∈ wu'.list.live, s.occupancy = (readers wu' s.timestamp).card)
    (hlive : ∀ s ∈ wu.list.live, ∃ s' ∈ wu'.list.live,
      s'.timestamp = s.timestamp ∧ s'.isDamaged = s.isDamaged)
    (hquery : ∀ client, new = some client → client.statusAndType = .readOnly →
      client.functionList = [] ∧
        ∃ s ∈ wu'.list.live, s.timestamp = client.timestamp ∧ s.isDamaged = false) :
    ClientInv wu' := by
  have hcases : ∀ c' client, wu'.clients c' = some client →
      c' = c ∧ new = some client ∨ c' ≠ c ∧ wu.clients c' = some client := by
    intro c' client hcl
    rw [hclients] at hcl
    by_cases hc : c' = c
    · subst hc
      exact .inl ⟨rfl, by rwa [update_self] at hcl⟩
    · exact .inr ⟨hc, by rwa [update_of_ne hc] at hcl⟩
  -- the other updaters have other timestamps than the old client
  have hapart : ∀ c' client, c' ≠ c → wu.clients c' = some client →
      client.statusAndType = .updater → ¬ IsUpdater (wu.clients c) client.timestamp := by
    rintro c' client hc hcl hst ⟨old, hold, hst', hts⟩
    exact hc (h.injective c' c client old hcl hold hst hst' hts.symm)
  constructor
  · intro c' client hcl hst
    rw [hact]
    rcases hcases c' client hcl with ⟨-, hnew⟩ | ⟨hc, hcl⟩
    · exact .inl ⟨client, hnew, hst, rfl⟩
    · exact .inr ⟨h.updater c' client hcl hst, hapart c' client hc hcl hst⟩
  · intro c1 c2 client1 client2 hcl1 hcl2 hst1 hst2 hts
    rcases hcases c1 client1 hcl1 with ⟨rfl, hnew1⟩ | ⟨hc1, hcl1⟩ <;>
      rcases hcases c2 client2 hcl2 with ⟨rfl, hnew2⟩ | ⟨hc2, hcl2⟩
    · rfl
    · exact absurd (hfr _ ⟨client1, hnew1, hst1, hts⟩
        (h.updater c2 client2 hcl2 hst2)) (hapart c2 client2 hc2 hcl2 hst2)
    · exact absurd (hfr _ ⟨client2, hnew2, hst2, hts.symm⟩
        (h.updater c1 client1 hcl1 hst1)) (hapart c1 client1 hc1 hcl1 hst1)
    · exact h.injective c1 c2 client1 client2 hcl1 hcl2 hst1 hst2 hts
  · intro ts hts
    rcases (hact ts).1 hts with ⟨client, rfl, hrest⟩ | ⟨hts, hnot⟩
    · exact ⟨c, client, by rw [hclients, update_self], hrest⟩
    · obtain ⟨c', client, hcl, hrest⟩ := h.active ts hts
      have hc : c' ≠ c := by
        rintro rfl
        exact hnot ⟨client, hcl, hrest⟩
      exact ⟨c', client, by rw [hclients, update_of_ne hc, hcl], hrest⟩
  · exact hocc
  · intro c' client hcl hst
    rcases hcases c' client hcl with ⟨-, hnew⟩ | ⟨-, hcl⟩
    · exact (hquery client hnew hst).2
    · obtain ⟨s, hs, hts, hdam⟩ := h.bound c' client hcl hst
      obtain ⟨s', hs', hts', hdam'⟩ := hlive s hs
      exact ⟨s', hs', hts'.trans hts, hdam'.trans hdam⟩
  · intro c' client hcl hst
    rcases hcases c' client hcl with ⟨-, hnew⟩ | ⟨-, hcl⟩
    · exact (hquery client hnew hst).1
    · exact h.query c' client hcl hst

theorem ClientInv.replace_of_isReader (hlive : wu'.list.live = wu.list.live)
    (hreader : ∀ ts, isReader new ts = isReader (wu.clients c) ts)
    (hquery : ∀ client, new = some client → client.statusAndType = .readOnly →
      client.functionList = []) : ClientInv wu' := by
  apply h.replace hclients hact hfr
  · intro s hs
    rw [readers_congr hclients (hreader _)]
    exact h.occupancy s (hlive ▸ hs)
  · exact fun s hs => ⟨s, hlive ▸ hs, rfl, rfl⟩
  · intro client hnew hst
    have hold := hreader client.timestamp
    rw [isReader_eq_true_iff.2 ⟨client, hnew, hst, rfl⟩] at hold
    obtain ⟨old, hcl, hst', hts⟩ := isReader_eq_true_iff.1 hold.symm
    obtain ⟨s, hs, hbound⟩ := h.bound c old hcl hst'
    exact ⟨hquery client hnew hst, s, hlive ▸ hs, hts ▸ hbound⟩

end

section

variable (h : WorkInv wu spec)
include h

theorem WorkInv.frame
    (hblocks : ∀ c x ver, spec.working c x = some (some ver) → wu'.blocks x = wu.blocks x)
    (hforth : ∀ c ts functions, Running wu c ts functions → Running wu' c ts functions)
    (hback : ∀ c ts functions, Running wu' c ts functions →
      functions = [] ∨ Running wu c ts functions) : WorkInv wu' spec := by
  have hmem : ∀ c ts functions, Running wu' c ts functions → ∀ f ∈ functions,
      Running wu c ts functions := by
    intro c ts functions hrun f hf
    rcases hback c ts functions hrun with rfl | hrun
    · exact absurd hf not_mem_nil
    · exact hrun
  constructor
  · intro c x ver hver
    obtain ⟨functions, b, hrun, hb, hholds⟩ := h.written c x ver hver
    exact ⟨functions, b, hforth _ _ _ hrun, by rw [hblocks c x ver hver, hb], hholds⟩
  · intro c x htch
    obtain ⟨ts, functions, hrun, hf⟩ := h.touched c x htch
    exact ⟨ts, functions, hforth _ _ _ hrun, hf⟩
  · intro c ts functions hrun f hf
    exact h.function c ts functions (hmem c ts functions hrun f hf) f hf
  · intro c ts functions hrun f hf
    exact h.deleted c ts functions (hmem c ts functions hrun f hf) f hf

theorem WorkInv.congr_running (hblocks : wu'.blocks = wu.blocks)
    (hrun : ∀ c ts functions, Running wu' c ts functions ↔ Running wu c ts functions) :
    WorkInv wu' spec := by
  apply h.frame
  · exact fun _ _ _ _ => by rw [hblocks]
  · exact fun c ts functions => (hrun c ts functions).2
  · exact fun c ts functions hnew => .inr ((hrun c ts functions).1 hnew)

theorem WorkInv.drop
    (hworking : ∀ c' x, spec'.working c' x = if c' = c then none else spec.working c' x)
    (hrun : ∀ c' ts functions, Running wu' c' ts functions ↔
      c' ≠ c ∧ Running wu c' ts functions)
    (hblocks : ∀ c' x, c' ≠ c → spec.Touched c' x → wu'.blocks x = wu.blocks x) :
    WorkInv wu' spec' := by
  have hsome : ∀ c' x r, spec'.working c' x = some r → c' ≠ c ∧ spec.working c' x = some r := by
    intro c' x r hr
    rw [hworking] at hr
    split at hr
    next => cases hr
    next hc => exact ⟨hc, hr⟩
  have hsame : ∀ c' x, c' ≠ c → spec'.working c' x = spec.working c' x := by
    intro c' x hc
    rw [hworking, if_neg hc]
  constructor
  · intro c' x ver hver
    obtain ⟨hc, hver⟩ := hsome c' x _ hver
    obtain ⟨functions, b, hold, hb, hholds⟩ := h.written c' x ver hver
    have htch : spec.Touched c' x := by simp [Touched, hver]
    exact ⟨functions, b, (hrun _ _ _).2 ⟨hc, hold⟩, by rw [hblocks c' x hc htch, hb],
      hholds⟩
  · intro c' x htch
    obtain ⟨r, hr⟩ := ne_none_iff_exists'.1 htch
    obtain ⟨hc, hr⟩ := hsome c' x r hr
    obtain ⟨ts', functions, hold, hf⟩ := h.touched c' x (by simp [Touched, hr])
    exact ⟨ts', functions, (hrun _ _ _).2 ⟨hc, hold⟩, hf⟩
  · intro c' ts' functions hnew f hf
    obtain ⟨hc, hold⟩ := (hrun _ _ _).1 hnew
    unfold Touched
    rw [hsame c' _ hc]
    exact h.function c' ts' functions hold f hf
  · intro c' ts' functions hnew f hf htype
    obtain ⟨hc, hold⟩ := (hrun _ _ _).1 hnew
    rw [hsame c' _ hc]
    exact h.deleted c' ts' functions hold f hf htype

theorem WorkInv.held (htch : spec.Touched c x) : Held wu x := by
  obtain ⟨ts, functions, hrun, f, hf, hx⟩ := h.touched c x htch
  exact ⟨c, ts, functions, hrun, f, hf, .inl hx.symm⟩

end

/-! ## A client that is idle -/

def Idle (client : Option Client) : Prop :=
  ∀ client', client = some client' → client'.statusAndType = .completed

theorem idle_completed (client : Client) : Idle (some
    { client with statusAndType := .completed, timestamp := invalidTimestamp }) := by
  rintro _ ⟨⟩
  rfl

theorem not_running_of_idle (h : Idle (wu.clients c)) : ¬ Running wu c ts functions := by
  rintro ⟨client, hcl, hupd, -⟩
  rw [h client hcl] at hupd
  cases hupd

theorem isReader_of_idle {client : Option Client} (h : Idle client) :
    isReader client ts = false := by
  cases client with
  | none => rfl
  | some client => simp [isReader, h client rfl]

theorem not_isUpdater_of_idle {client : Option Client} (h : Idle client) :
    ¬ IsUpdater client ts := by
  rintro ⟨client, hcl, hupd, -⟩
  rw [h client hcl] at hupd
  cases hupd

section

variable {new : Option Client} (hold : Idle (wu.clients c)) (hnew : Idle new)

theorem running_setClient_idle (hnew : Idle new) :
    Running (wu.setClient c new) c' ts functions ↔ c' ≠ c ∧ Running wu c' ts functions := by
  refine running_setClient_closed fun client hcl hupd => ?_
  rw [hnew client hcl] at hupd
  cases hupd

include hold hnew in
theorem ClientInv.setIdle (h : ClientInv wu) : ClientInv (wu.setClient c new) := by
  apply h.replace_of_isReader rfl
  · simp [not_isUpdater_of_idle hold, not_isUpdater_of_idle hnew]
  · exact fun _ hupd => absurd hupd (not_isUpdater_of_idle hnew)
  · rfl
  · exact fun _ => by rw [isReader_of_idle hold, isReader_of_idle hnew]
  · intro client hcl hst
    rw [hnew client hcl] at hst
    cases hst

include hold hnew in
theorem Inv.setIdle (h : Inv wu spec) : Inv (wu.setClient c new) spec := by
  have hrun : ∀ c' ts functions, Running (wu.setClient c new) c' ts functions ↔
      Running wu c' ts functions := by
    intro c' ts functions
    rw [running_setClient_idle hnew]
    exact and_iff_right_of_imp fun hrun heq => not_running_of_idle (heq ▸ hold) hrun
  exact ⟨h.store.congr_running rfl rfl rfl hrun, h.client.setIdle hold hnew,
    h.work.congr_running rfl hrun⟩

end

/-! ## An updater is registered -/

def withUpdater (wu : State Data) (c : ClientId) : State Data :=
  ({ wu with
      timestamp := wu.timestamp + 1
      list := { wu.list with activeTs := wu.list.activeTs ++ [wu.timestamp] } } :
    State Data).setClient c (some (newClient .updater wu.timestamp))

theorem ClientInv.activeTs_length (h : ClientInv wu) (hnd : wu.list.activeTs.Nodup)
    (hc : wu.clients c = none) : wu.list.activeTs.length < maxClientsCount := by
  let timestampOf (c : ClientId) : Nat := ((wu.clients c).map Client.timestamp).getD 0
  have hsub : wu.list.activeTs.toFinset ⊆ (Finset.univ.erase c).image timestampOf := by
    intro ts hts
    obtain ⟨c', client, hcl, -, rfl⟩ := h.active ts (mem_toFinset.1 hts)
    refine Finset.mem_image.2 ⟨c', Finset.mem_erase.2 ⟨?_, Finset.mem_univ _⟩, ?_⟩
    · rintro rfl
      rw [hc] at hcl
      cases hcl
    · simp [timestampOf, hcl]
  have hcard := (Finset.card_le_card hsub).trans Finset.card_image_le
  rw [toFinset_card_of_nodup hnd, Finset.card_erase_of_mem (Finset.mem_univ c),
    Finset.card_univ, Fintype.card_fin] at hcard
  have hpos : 0 < maxClientsCount := by decide
  omega

theorem TimeInv.nodup_activeTs (h : TimeInv wu) : wu.list.activeTs.Nodup := h.sorted.imp ne_of_lt

theorem onRegisterTransaction_updater (htime : TimeInv wu) (h : ClientInv wu)
    (hc : wu.clients c = none) (hval : isValidTimestamp wu.timestamp = true) :
    onRegisterTransaction wu c false = (withUpdater wu c).succeed := by
  have hlen := h.activeTs_length htime.nodup_activeTs hc
  simp [onRegisterTransaction, hc, getTimestamp, hval, addActiveTimestamp, withUpdater,
    ne_of_lt hlen]

theorem ages_of_activeTs {activeTs : List Nat} (h : Ages l)
    (hnewer : ∀ s ∈ l.live, Newer ⟨lastCommitedVersionTimestamp, activeTs⟩ s.viewer) :
    Ages { l with activeTs := activeTs } := by
  refine ⟨?_, h.decreasing, h.valid, h.length⟩
  refine pairwise_cons.2 ⟨?_, (pairwise_cons.1 h.newer).2⟩
  intro w hw
  obtain ⟨s, hs, rfl⟩ := mem_map.1 hw
  exact hnewer s hs

theorem visible_snapshot (h : Ages l) {s : Snapshot} (hs : s ∈ l.live)
    (hts : visible s.viewer ts = true) :
    ts ≤ s.timestamp ∧ ts ≤ lastCommitedVersionTimestamp ∧ ts ∉ l.activeTs := by
  have hnewer := (pairwise_cons.1 h.newer).1 _ (mem_map_of_mem hs)
  exact ⟨(visible_iff.1 hts).1, visible_fakeHeadSnapshot.1 (hnewer ts hts)⟩

theorem TimeInv.registerUpdater (h : TimeInv wu) (hval : isValidTimestamp wu.timestamp = true) :
    TimeInv (withUpdater wu c) := by
  have hlt : ∀ ts ∈ wu.list.activeTs, ts < wu.timestamp := fun ts hts => (h.activeTs ts hts).2
  refine ⟨?_, ⟨h.futures.live, h.futures.timestamp⟩, h.few, h.length, h.triangular, ?_,
    h.sortedSnapshots, ?_, ?_, ?_⟩
  · apply ages_of_activeTs h.ages
    intro s hs ts hts
    obtain ⟨hle, hmax, hact⟩ := visible_snapshot h.ages hs hts
    have hnow := h.live s hs
    refine visible_iff.2 ⟨hmax, ?_⟩
    rw [mem_append, mem_singleton]
    rintro (hts | rfl)
    · exact hact hts
    · omega
  · refine pairwise_append.2 ⟨h.sorted, pairwise_singleton _ _, ?_⟩
    intro ts hts now hnow
    rw [mem_singleton.1 hnow]
    exact hlt ts hts
  · intro ts hts
    rcases mem_append.1 hts with hts | hts
    · exact ⟨(h.activeTs ts hts).1, (hlt ts hts).trans (Nat.lt_succ_self _)⟩
    · rw [mem_singleton.1 hts]
      exact ⟨hval, Nat.lt_succ_self _⟩
  · intro s hs
    exact (h.live s hs).trans (Nat.lt_succ_self _)
  · have hmax := (isValidTimestamp_iff.1 hval).2
    have hmin := h.timestamp.1
    show timestampMin ≤ wu.timestamp + 1 ∧ wu.timestamp + 1 ≤ timestampMax + 1
    omega

theorem running_withUpdater (hc : wu.clients c = none) :
    Running (withUpdater wu c) c' ts functions ↔
      c' = c ∧ ts = wu.timestamp ∧ functions = [] ∨ Running wu c' ts functions := by
  refine (running_setClient_updater rfl rfl).trans (or_congr_right (and_iff_right_of_imp ?_))
  rintro ⟨client, hcl, -⟩ rfl
  rw [hc] at hcl
  cases hcl

theorem StoreInv.registerUpdater (h : StoreInv wu spec) (hc : wu.clients c = none)
    (hval : isValidTimestamp wu.timestamp = true) : StoreInv (withUpdater wu c) spec := by
  -- No version has the new timestamp yet.
  have hold : ∀ a b, wu.blocks a = some b → ∀ slot ∈ b.header,
      (slot.creatorTs ∈ wu.list.activeTs ++ [wu.timestamp] ↔
      slot.creatorTs ∈ wu.list.activeTs) := by
    intro a b hb slot hslot
    have hlt := (h.block.headers a b hb).lt slot hslot
    rw [mem_append, mem_singleton]
    exact ⟨fun hmem => hmem.resolve_right (ne_of_lt hlt), .inl⟩
  have hvis : ∀ a b, wu.blocks a = some b → ∀ slot ∈ b.header,
      visible (withUpdater wu c).list.fakeHeadSnapshot slot.creatorTs =
        visible wu.list.fakeHeadSnapshot slot.creatorTs :=
    fun a b hb slot hslot => visible_fakeHeadSnapshot_congr (hold a b hb slot hslot)
  refine HeadChange.store ?_ (h.time.registerUpdater hval) h
  refine ⟨rfl, rfl, rfl, Nat.le_succ _, ?_, ?_, ?_, ?_, ?_, ?_, fun _ _ _ _ _ _ => rfl⟩
  · intro a b hb
    have hhdr := h.block.headers a b hb
    refine ⟨hhdr.ne_nil, hhdr.nodup, hhdr.valid, ?_, ?_, hhdr.length⟩
    · intro slot hslot
      exact (hhdr.lt slot hslot).trans (Nat.lt_succ_self _)
    · intro slot hslot hmem
      exact hhdr.tail slot hslot ((hold a b hb slot (mem_of_mem_tail hslot)).1 hmem)
  · intro x ver hver
    exact (h.block.seen _ _ _ .lastCommitted x ver hver).congr_viewer (hvis x)
  · intro a _ hneeds
    exact (needs_congr_viewer hvis).1 hneeds
  · intro a b slot hb hhd hmem
    refine ⟨(hold a b hb slot (mem_of_mem_head? hhd)).1 hmem, ?_⟩
    intro c' functions hrun
    exact (running_withUpdater hc).2 (.inr hrun)
  · intro c' ts functions hrun
    show ts ∈ wu.list.activeTs ++ [wu.timestamp]
    rcases (running_withUpdater hc).1 hrun with ⟨-, rfl, -⟩ | hrun
    · simp
    · exact mem_append_left _ (h.block.active c' ts functions hrun)
  · intro c' ts functions hrun
    rcases (running_withUpdater hc).1 hrun with ⟨-, -, rfl⟩ | hrun
    · exact .inl rfl
    · exact .inr hrun

theorem ClientInv.registerUpdater (h : ClientInv wu) (htime : TimeInv wu)
    (hc : wu.clients c = none) : ClientInv (withUpdater wu c) := by
  apply h.replace_of_isReader rfl
  · intro ts
    show ts ∈ wu.list.activeTs ++ [wu.timestamp] ↔ _
    simp [hc, newClient, eq_comm, or_comm]
  · rintro ts ⟨_, ⟨⟩, -, rfl⟩ hact
    exact absurd (htime.activeTs _ hact).2 (lt_irrefl _)
  · rfl
  · simp [hc, isReader, newClient]
  · rintro _ ⟨⟩ -
    rfl

theorem Inv.registerUpdater (h : Inv wu spec) (hc : wu.clients c = none)
    (hval : isValidTimestamp wu.timestamp = true) : Inv (withUpdater wu c) spec := by
  refine ⟨h.store.registerUpdater hc hval, h.client.registerUpdater h.store.time hc, ?_⟩
  apply h.work.frame
  · exact fun _ _ _ _ => rfl
  · intro c' ts functions hrun
    exact (running_withUpdater hc).2 (.inr hrun)
  · intro c' ts functions hrun
    exact ((running_withUpdater hc).1 hrun).imp_left fun h => h.2.2

/-! ## An updater ends -/

def withoutUpdater (wu : State Data) (c : ClientId) (ts : Nat) (new : Option Client) : State Data :=
  ({ wu with list := removeActiveTimestamp wu.list ts } : State Data).setClient c new

section

variable {new : Option Client} (hcl : wu.clients c = some client)
  (hst : client.statusAndType = .updater) (hnew : Idle new)

include hnew in
theorem running_withoutUpdater :
    Running (withoutUpdater wu c a new) c' ts functions ↔ c' ≠ c ∧ Running wu c' ts functions :=
  running_setClient_idle hnew

theorem TimeInv.endUpdater (h : TimeInv wu) : TimeInv (withoutUpdater wu c ts new) := by
  have hsub : ∀ ts', ts' ∈ wu.list.activeTs.erase ts → ts' ∈ wu.list.activeTs :=
    fun _ hts => mem_of_mem_erase hts
  refine ⟨?_, ⟨h.futures.live, h.futures.timestamp⟩, h.few, h.length, h.triangular, ?_,
    h.sortedSnapshots, ?_, h.live, h.timestamp⟩
  · apply ages_of_activeTs h.ages
    intro s hs ts' hts'
    obtain ⟨-, hmax, hact⟩ := visible_snapshot h.ages hs hts'
    exact visible_iff.2 ⟨hmax, fun hmem => hact (hsub ts' hmem)⟩
  · exact h.sorted.sublist erase_sublist
  · intro ts' hts'
    exact h.activeTs ts' (hsub ts' hts')

include hcl hst hnew in
theorem ClientInv.endUpdater (h : ClientInv wu) (htime : TimeInv wu) :
    ClientInv (withoutUpdater wu c client.timestamp new) := by
  apply h.replace_of_isReader rfl
  · intro ts
    show ts ∈ wu.list.activeTs.erase client.timestamp ↔ _
    simp [htime.nodup_activeTs.mem_erase_iff, not_isUpdater_of_idle hnew, hcl, hst,
      and_comm, eq_comm]
  · exact fun _ hupd => absurd hupd (not_isUpdater_of_idle hnew)
  · rfl
  · intro ts
    rw [isReader_of_idle hnew]
    simp [isReader, hcl, hst]
  · intro client' hcl' hst'
    rw [hnew client' hcl'] at hst'
    cases hst'

include hcl hst in
theorem Inv.owner_of_working (h : Inv wu spec) {b : Block Data} {slot : VersionSlot}
    (hb : wu.blocks a = some b) (hhd : b.header.head? = some slot)
    (hts : slot.creatorTs = client.timestamp) :
    ∃ functions, Running wu c client.timestamp functions ∧
      ∃ f ∈ functions, f.lxptr = a ∧ f.type ≠ .freeBlock := by
  have hact := h.client.updater c client hcl hst
  rw [← hts] at hact ⊢
  obtain ⟨c', functions, hrun, hf⟩ := h.store.block.owned a b slot hb hhd hact
  obtain ⟨client', hcl', hst', -, hts', -⟩ := id hrun
  obtain rfl := h.client.injective c' c client' client hcl' hcl hst' hst
    (hts'.trans hts)
  exact ⟨functions, hrun, hf⟩

include hcl hst in
theorem Inv.touched_of_timestamp (h : Inv wu spec) {b : Block Data} {slot : VersionSlot}
    (hb : wu.blocks a = some b) (hslot : slot ∈ b.header)
    (hts : slot.creatorTs = client.timestamp) : b.header.head? = some slot ∧ spec.Touched c a := by
  have hact := h.client.updater c client hcl hst
  rw [← hts] at hact
  have hhd : b.header.head? = some slot := by
    have htail := (h.store.block.headers a b hb).tail slot
    obtain ⟨own, older, hhdr⟩ := exists_cons_of_ne_nil (ne_nil_of_mem hslot)
    rw [hhdr] at hslot htail ⊢
    rcases mem_cons.1 hslot with rfl | hslot
    · rfl
    · exact absurd hact (htail hslot)
  obtain ⟨functions, hrun, f, hf, rfl, -⟩ := h.owner_of_working hcl hst hb hhd hts
  exact ⟨hhd, h.work.function c _ functions hrun f hf⟩

include hcl hst in
theorem Inv.visible_of_untouched (h : Inv wu spec) (hx : ¬ spec.Touched c x) {b : Block Data}
    (hb : wu.blocks x = some b) {slot : VersionSlot} (hslot : slot ∈ b.header) :
    visible (withoutUpdater wu c client.timestamp new).list.fakeHeadSnapshot slot.creatorTs =
      visible wu.list.fakeHeadSnapshot slot.creatorTs := by
  apply visible_fakeHeadSnapshot_congr
  apply mem_erase_of_ne
  intro hts
  exact hx (h.touched_of_timestamp hcl hst hb hslot hts).2

include hcl hst in
theorem Inv.locates_written (h : Inv wu spec) {ver : Version Data}
    (hver : spec.working c x = some (some ver)) :
    Resolves wu.blocks (withoutUpdater wu c client.timestamp new).list.fakeHeadSnapshot x ver ∧
      Locates wu.blocks (withoutUpdater wu c client.timestamp new).list.fakeHeadSnapshot x x
        ver.creatorTs := by
  obtain ⟨functions, b, ⟨client', hcl', -, -, hts, -⟩, hb, hholds⟩ :=
    h.work.written c x ver hver
  rw [hcl, Option.some.injEq] at hcl'
  subst hcl'
  have hval := (h.store.time.activeTs _ (h.client.updater c client hcl hst)).1
  have hloc : Locates wu.blocks
      (withoutUpdater wu c client.timestamp new).list.fakeHeadSnapshot x x
        ver.creatorTs := by
    refine ⟨b, hb, ?_⟩
    obtain ⟨older, hhdr⟩ := head?_eq_some_iff.1 hholds.1
    rw [hhdr]
    apply resolve_cons_of_visible
    rw [← hts, visible_fakeHeadSnapshot_iff hval]
    exact h.store.time.nodup_activeTs.not_mem_erase
  exact ⟨⟨⟨b, _, hb, hholds.1⟩, x, b, hloc, hb, hholds⟩, hloc⟩

include hcl hst in
theorem Inv.needs_commit (h : Inv wu spec)
    (hneeds : Needs wu.blocks (withoutUpdater wu c client.timestamp new).list.fakeHeadSnapshot
      (spec.commit c).committed a) :
    (∃ ver, spec.working c a = some (some ver)) ∨
      ∃ x, ¬ spec.Touched c x ∧ spec.committed x ≠ none ∧
        (a = x ∨ ∃ ts, Locates wu.blocks wu.list.fakeHeadSnapshot x a ts) := by
  obtain ⟨x, hx, ha⟩ := hneeds
  by_cases htch : spec.Touched c x
  · obtain ⟨r, hr⟩ := Option.ne_none_iff_exists'.1 htch
    obtain ⟨ver, rfl⟩ : ∃ ver, r = some ver := by
      rw [committed_commit, SnapshotStore.State.read, hr] at hx
      exact Option.ne_none_iff_exists'.1 hx
    have hself : a = x := by
      rcases ha with rfl | ⟨ts, hloc⟩
      · rfl
      · exact (hloc.unique (h.locates_written hcl hst hr).2).1
    subst hself
    exact .inl ⟨ver, hr⟩
  · rw [committed_commit, read_of_untouched htch] at hx
    refine .inr ⟨x, htch, hx, ha.imp_right ?_⟩
    rintro ⟨ts, hloc⟩
    refine ⟨ts, (locates_congr_viewer ?_).1 hloc⟩
    exact fun b hb slot hslot => h.visible_of_untouched hcl hst htch hb hslot

theorem Inv.untouched_of_running (h : Inv wu spec) (hc : c' ≠ c)
    (hrun : Running wu c' ts functions) (hf : f ∈ functions) : ¬ spec.Touched c f.lxptr := by
  intro htch
  obtain ⟨ts', functions', hrun', g, hg, heq⟩ := h.work.touched c _ htch
  exact h.store.block.apart c' c ts ts' functions functions' hc hrun hrun' f hf g hg
    heq.symm

include hcl hst hnew in
theorem Inv.headChange_withoutUpdater (h : Inv wu spec) :
    HeadChange wu spec (withoutUpdater wu c client.timestamp new) (spec.commit c) := by
  have hmem : ∀ ts, ts ∈ wu.list.activeTs.erase client.timestamp ↔
      ts ≠ client.timestamp ∧ ts ∈ wu.list.activeTs :=
    fun ts => h.store.time.nodup_activeTs.mem_erase_iff
  have hne : ∀ c' ts functions, c' ≠ c → Running wu c' ts functions → ts ≠ client.timestamp := by
    rintro c' ts functions hc ⟨client', hcl', hst', -, rfl, -⟩ hts
    exact hc (h.client.injective c' c client' client hcl' hcl hst' hst hts)
  constructor
  · rfl
  · rfl
  · rfl
  · exact Nat.le_refl _
  · intro a b hb
    have hhdr := h.store.block.headers a b hb
    refine ⟨hhdr.ne_nil, hhdr.nodup, hhdr.valid, hhdr.lt, ?_, hhdr.length⟩
    intro slot hslot hact
    exact hhdr.tail slot hslot ((hmem _).1 hact).2
  · intro x ver hver
    rw [committed_commit] at hver
    by_cases htch : spec.Touched c x
    · obtain ⟨r, hr⟩ := Option.ne_none_iff_exists'.1 htch
      rw [SnapshotStore.State.read, hr] at hver
      cases hver
      exact (h.locates_written hcl hst hr).1
    · rw [read_of_untouched htch] at hver
      apply (h.store.block.seen _ _ _ .lastCommitted x ver hver).congr_viewer
      exact fun b hb slot hslot => h.visible_of_untouched hcl hst htch hb hslot
  · intro a hfree hneeds
    rcases h.needs_commit hcl hst hneeds with ⟨ver, hver⟩ | ⟨x, -, hx, ha⟩
    · exact absurd (h.work.held (c := c) (by simp [Touched, hver])) hfree
    · exact ⟨x, hx, ha⟩
  · intro a b slot _ _ hact
    obtain ⟨hts, hact⟩ := (hmem _).1 hact
    refine ⟨hact, fun c' functions hrun => (running_withoutUpdater hnew).2 ⟨?_, hrun⟩⟩
    rintro rfl
    obtain ⟨client', hcl', -, -, hts', -⟩ := hrun
    rw [hcl, Option.some.injEq] at hcl'
    subst hcl'
    exact hts hts'.symm
  · intro c' ts functions hrun
    obtain ⟨hc, hrun⟩ := (running_withoutUpdater hnew).1 hrun
    exact (hmem ts).2
      ⟨hne c' ts functions hc hrun, h.store.block.active c' ts functions hrun⟩
  · intro c' ts functions hrun
    exact .inr ((running_withoutUpdater hnew).1 hrun).2
  · intro c' ts functions hrun f hf
    obtain ⟨hc, hrun⟩ := (running_withoutUpdater hnew).1 hrun
    exact read_of_untouched (h.untouched_of_running hc hrun hf)

include hnew in
theorem WorkInv.endUpdater (h : WorkInv wu spec) :
    WorkInv (withoutUpdater wu c ts new) (spec.commit c) := by
  apply h.drop
  · exact fun _ _ => working_forget
  · exact fun _ _ _ => running_withoutUpdater hnew
  · exact fun _ _ _ _ => rfl

include hcl hst hnew in
theorem Inv.endUpdater (h : Inv wu spec) :
    Inv (withoutUpdater wu c client.timestamp new) (spec.commit c) :=
  ⟨(h.headChange_withoutUpdater hcl hst hnew).store h.store.time.endUpdater h.store,
    h.client.endUpdater hcl hst hnew h.store.time, h.work.endUpdater hnew⟩

end

end Sedna.Wu.Invariant
