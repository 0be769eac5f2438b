import Sedna.Wu.SnapshotList

/-!
# Isolation of reads, and safety of garbage collection

What transactions read in every state that is reached, and what is freed.
-/

namespace Sedna.Wu.Isolation

open Library Snapshots Versions Transactions Headers Invariant Runs SnapshotList SnapshotStore.State
  Option List

variable {Data : Type} {wu : State Data} {spec : Spec Data} {c : ClientId} {client : Client}
  {x a : Nat} {ver : Version Data} {s : Snapshot}

/-! ## What a query reads -/

theorem isVersionOf_of_headerOk {activeTs : List Nat} {next : Nat} {b : Block Data} {ts : Nat}
    (h : HeaderOk activeTs next b.header) (hhd : b.header.head? = some ⟨x, ts⟩) :
    isVersionOf b x = true := by
  simp only [isVersionOf, validateHeader, Bool.and_eq_true, decide_eq_true_eq, List.all_eq_true,
    hhd,
    map_some, and_true]
  exact ⟨⟨h.ne_nil, h.length⟩, h.valid⟩

theorem find_expanded {l : SnapshotsList} (h : Ages l) (hs : s ∈ l.live) {tsIn : List Nat} {i : Nat}
    (hi : visibleIdx s.viewer tsIn = some i) :
    (expanded l tsIn).find? (fun entry => decide (entry.1 = s.timestamp)) =
      some (s.timestamp, i) := by
  have hmax := (isValidTimestamp_iff.1 (h.valid s hs)).2
  have hworking : workingVersionTimestamp ≠ s.timestamp := by
    have hlt : timestampMax < workingVersionTimestamp := by decide
    omega
  have hlast : lastCommitedVersionTimestamp ≠ s.timestamp := by
    have hlt : timestampMax < lastCommitedVersionTimestamp := by decide
    omega
  have hnewer : Newer l.fakeHeadSnapshot s.viewer :=
    (pairwise_cons.1 h.newer).1 _ (mem_map_of_mem hs)
  obtain ⟨j, hj⟩ := ne_none_iff_exists'.1
    (hnewer.visibleIdx_ne_none (by rw [hi]; simp))
  have hlive : (matchedLive l tsIn).find? (fun entry => decide (entry.1 = s.timestamp)) =
      some (s.timestamp, i) := by
    have hmem : (s.timestamp, i) ∈ matchedLive l tsIn := mem_matchedLive.2 ⟨s, hs, hi, rfl⟩
    cases hfind : (matchedLive l tsIn).find? (fun entry => decide (entry.1 = s.timestamp)) with
    | none => simpa using find?_eq_none.1 hfind _ hmem
    | some entry =>
      obtain ⟨s', hs', hidx, hts⟩ := mem_matchedLive.1 (mem_of_find?_eq_some hfind)
      have heq : entry.1 = s.timestamp := by simpa using find?_some hfind
      rw [h.eq_of_timestamp hs' hs (hts.symm.trans heq), hi, some.injEq] at hidx
      exact congrArg some (Prod.ext heq hidx.symm)
  unfold expanded
  rw [matched_of_some hj]
  split
  · rw [find?_cons_of_neg (by simpa using hlast), hlive]
  · rw [find?_cons_of_neg (by simpa using hworking),
      find?_cons_of_neg (by simpa using hlast), hlive]

/-- A client may read while its transaction runs and after it has been rolled back. -/
def MayRead (client : Client) : Prop := client.isCompleted = false ∨ client.isRolledBack = true

theorem MayRead.not_ended (h : MayRead client) (hst : client.statusAndType ≠ .completed) :
    ¬ (client.statusAndType = .completed ∨
      client.isCompleted = true ∧ ¬ client.isRolledBack = true) := by
  rintro (hcomp | ⟨hcomp, hrolledBack⟩)
  · exact hst hcomp
  · rcases h with hrun | hrolled
    · rw [hrun] at hcomp
      cases hcomp
    · exact hrolledBack hrolled

theorem getBlock_query (h : Inv wu spec) (hcl : wu.clients c = some client)
    (hst : client.statusAndType = .readOnly) (hread : MayRead client) (hs : s ∈ wu.list.live)
    (hts : s.timestamp = client.timestamp) (hdam : s.isDamaged = false)
    (hver : spec.view client.timestamp x = some ver) :
    ∃ b, getBlock wu c x = .ok b ∧ Holds b x ver := by
  have hsees : Sees wu.list spec (some s.timestamp) s.viewer (spec.view s.timestamp) :=
    .snapshot hs hdam
  rw [hts] at hsees
  obtain ⟨⟨master, ts, hmas, hhd⟩, a, b, hloc, hb, hholds⟩ :=
    h.store.block.seen _ _ _ hsees x ver hver
  obtain ⟨master', hmas', hres⟩ := hloc
  rw [hmas, some.injEq] at hmas'
  subst hmas'
  obtain ⟨i, hi⟩ := ne_none_iff_exists'.1 (visibleIdx_ne_none_of_resolve hres)
  obtain ⟨hlt, hslot⟩ := resolve_of_visibleIdx hi
  rw [hres, some.injEq] at hslot
  have hslotAt : master.header.getD i ⟨0, invalidTimestamp⟩ = ⟨a, ver.creatorTs⟩ := by
    rw [getD_eq_getElem _ _ hlt, ← hslot]
  have hfind := find_expanded h.store.time.ages hs hi
  rw [hts] at hfind
  have hmasterOk := isVersionOf_of_headerOk (h.store.block.headers x master hmas) hhd
  have hbOk := isVersionOf_of_headerOk (h.store.block.headers a b hb) hholds.1
  have hstate := hread.not_ended (by simp [hst])
  refine ⟨b, ?_, hholds⟩
  unfold getBlock putBlockVersionToBuffer
  simp only [hcl]
  rw [if_neg hstate]
  simp only [hmas, hmasterOk, not_true_eq_false, if_false, h.expandDfvHeader hmas false,
    hst,
    reduceCtorEq, hfind, hslotAt, hb, hbOk]
  rfl

/-! ## What an updater reads -/

theorem getBlock_updater (h : Inv wu spec) (hcl : wu.clients c = some client)
    (hst : client.statusAndType = .updater) (hread : MayRead client)
    (hoth : ∀ c', c' ≠ c → ¬ spec.Touched c' x) (hver : spec.read c x = some ver) :
    ∃ b, getBlock wu c x = .ok b ∧ Holds b x ver := by
  -- The block at the logical address holds the version, and an ally has not replaced it.
  obtain ⟨own, rest, data, hblk, hholds, hally⟩ : ∃ own rest data,
      wu.blocks x = some ⟨own :: rest, data⟩ ∧ Holds (⟨own :: rest, data⟩ : Block Data) x ver ∧
        (visible wu.list.fakeHeadSnapshot own.creatorTs = false →
          own.creatorTs = client.timestamp) := by
    by_cases htch : spec.Touched c x
    · obtain ⟨r, hr⟩ := ne_none_iff_exists'.1 htch
      rw [SnapshotStore.State.read, hr] at hver
      cases hver
      obtain ⟨functions, b, ⟨client', hcl', -, -, hts, -⟩, hb, hholds⟩ :=
        h.work.written c x ver hr
      rw [hcl, some.injEq] at hcl'
      subst hcl'
      obtain ⟨header, data⟩ := b
      cases header with
      | nil => cases hholds.1
      | cons own rest =>
        refine ⟨own, rest, data, hb, hholds, fun _ => ?_⟩
        rw [hts]
        exact congrArg VersionSlot.creatorTs (some.inj hholds.1)
    · rw [read_of_untouched htch] at hver
      obtain ⟨⟨⟨header, data⟩, ts, hmas, hhd⟩, a, b, ⟨master, hmas', hres⟩, hb, hholds⟩ :=
        h.store.block.seen _ _ _ .lastCommitted x ver hver
      rw [hmas, some.injEq] at hmas'
      subst hmas'
      cases header with
      | nil => cases hhd
      | cons own rest =>
        cases hhd
        have hval := (h.store.block.headers x _ hmas).valid ⟨x, ts⟩ mem_cons_self
        have hvis : visible wu.list.fakeHeadSnapshot ts = true := by
          refine (visible_fakeHeadSnapshot_iff hval.2).2 fun hact => ?_
          obtain ⟨c', functions, hrun, f, hf, rfl, -⟩ :=
            h.store.block.owned _ _ ⟨_, ts⟩ hmas rfl hact
          have htch' := h.work.function c' _ functions hrun f hf
          by_cases hc : c' = c
          · rw [hc] at htch'
            exact htch htch'
          · exact hoth c' hc htch'
        have hres' := hres
        rw [resolve_cons_of_visible hvis] at hres'
        cases hres'
        rw [hmas, some.injEq] at hb
        subst hb
        refine ⟨_, rest, data, hmas, hholds, fun hinvis => ?_⟩
        rw [hvis] at hinvis
        cases hinvis
  have hhdr := h.store.block.headers x _ hblk
  have hversion := isVersionOf_of_headerOk hhdr hholds.1
  have hstate := hread.not_ended (by simp [hst])
  refine ⟨_, ?_, hholds⟩
  unfold getBlock putBlockVersionToBuffer
  simp only [hcl]
  rw [if_neg hstate]
  simp only [hblk, hversion, not_true_eq_false, if_false, hst, if_true]
  rw [h.expandDfvHeader hblk false]
  simp only [map_cons, head?_cons, map_some, head_expanded, decide_eq_true_eq]
  rw [if_neg]
  · rfl
  · rintro ⟨hinvis, hne⟩
    exact hne (congrArg some (hally hinvis))

/-! ## What a snapshot is to see does not change -/

variable {sys sys' : System Data} {db : Database Data} {ts : Nat}

theorem view_step (event : Event Data) (hts : ts < sys.wu.timestamp) :
    (step sys event).spec.view ts = sys.spec.view ts := by
  have heffect : (effect sys event).view ts = sys.spec.view ts := by
    cases event with
    | advance => exact view_takeSnapshot_of_ne (ne_of_lt hts)
    | _ => rfl
  unfold step
  cases event with
  | commit c => rfl
  | _ =>
    dsimp only
    split
    · exact heffect
    · rfl

theorem view_run (h : Inv sys.wu sys.spec) (hrun : Run sys sys') (hts : ts < sys.wu.timestamp) :
    sys'.spec.view ts = sys.spec.view ts ∧ ts < sys'.wu.timestamp := by
  induction hrun with
  | refl => exact ⟨rfl, hts⟩
  | step hrun event _ ih =>
    exact ⟨(view_step event ih.2).trans ih.1, ih.2.trans_le (exec_timestamp (Run.inv hrun h) event)⟩

/-! ## Isolation -/

def QueriesSee (sys : System Data) (ts : Nat) (content : Content Data) : Prop :=
  ∀ c client x ver, sys.wu.clients c = some client → client.statusAndType = .readOnly →
    MayRead client → client.timestamp = ts → content x = some ver →
      (∃ b, getBlock sys.wu c x = .ok b ∧ Holds b x ver) ∧
        ∃ s ∈ sys.wu.list.live, s.timestamp = ts ∧ s.isDamaged = false ∧
          ver.creatorTs ≤ s.timestamp ∧ ver.creatorTs ∉ s.activeTs

/-- Every updater finds its own versions and otherwise the last committed ones. -/
def UpdatersSee (sys : System Data) : Prop :=
  ∀ c client x ver, sys.wu.clients c = some client → client.statusAndType = .updater →
    MayRead client → (∀ c', c' ≠ c → ¬ sys.spec.Touched c' x) → sys.spec.read c x = some ver →
      ∃ b, getBlock sys.wu c x = .ok b ∧ Holds b x ver

theorem queriesSee_view (h : Inv sys.wu sys.spec) {content : Content Data}
    (hview : sys.spec.view ts = content) : QueriesSee sys ts content := by
  intro c client x ver hcl hst hread hts hver
  subst hts
  rw [← hview] at hver
  obtain ⟨s, hs, hts, hdam⟩ := h.client.bound c client hcl hst
  refine ⟨getBlock_query h hcl hst hread hs hts hdam hver, s, hs, hts, hdam, ?_⟩
  have hsees : Sees sys.wu.list sys.spec (some s.timestamp) s.viewer
      (sys.spec.view s.timestamp) := .snapshot hs hdam
  rw [hts] at hsees
  obtain ⟨-, a, b, hloc, -⟩ := h.store.block.seen _ _ _ hsees x ver hver
  exact visible_iff.1 hloc.visible

theorem snapshot_isolation {taken now : System Data} (htaken : Reachable db taken)
    (hadvance : (exec taken.wu .advance).error = none) (hrun : Run (step taken .advance) now) :
    QueriesSee now taken.wu.timestamp taken.spec.committed ∧
      QueriesSee now db.persTs db.content ∧ UpdatersSee now := by
  have hnow : Reachable db now := Run.trans (.step htaken .advance trivial) hrun
  have hinv := hnow.inv
  have hspec : (step taken .advance).spec = taken.spec.takeSnapshot taken.wu.timestamp := by
    simp [step, effect, hadvance]
  refine ⟨queriesSee_view hinv ?_, queriesSee_view hinv ?_, ?_⟩
  · have hlt : taken.wu.timestamp < (step taken .advance).wu.timestamp := by
      obtain ⟨purified, -, -, hts, -, -, hcases⟩ := tryAdvanceSnapshots_cases htaken.inv
      rcases hcases with ⟨error, heq⟩ | ⟨l, -, -, heq⟩
      · rw [exec, heq] at hadvance
        cases hadvance
      · show taken.wu.timestamp < (tryAdvanceSnapshots taken.wu).wu.timestamp
        rw [heq, ← hts]
        exact Nat.lt_succ_self _
    rw [(view_run (step_sound htaken.inv .advance trivial).inv hrun hlt).1, hspec,
      view_takeSnapshot_self]
  · exact (view_run (startup_inv db) hnow (Nat.lt_succ_self db.persTs)).1
  · intro c client x ver hcl hst hread hoth hver
    exact getBlock_updater hinv hcl hst hread hoth hver

theorem snapshot_isolation_oneBlock :
    (exec oneBlock.system.wu .advance).error = none ∧
      QueriesSee (oneBlockAfter 6) oneBlock.system.wu.timestamp oneBlock.system.spec.committed ∧
      UpdatersSee (oneBlockAfter 6) := by
  have hadvance : (exec oneBlock.system.wu .advance).error = none := by decide
  have hsees := snapshot_isolation (.refl : Reachable oneBlock oneBlock.system)
    hadvance run_oneBlock_commit
  exact ⟨hadvance, hsees.1, hsees.2.2⟩

/-! ## Garbage collection -/

theorem garbage_collection_safe (hreach : Reachable db sys) {event : Event Data}
    (hallowed : Allowed sys event) :
    ∀ call ∈ (exec sys.wu event).frees, SafeCall (freeingSpec sys.spec event) call ∧
      ∀ snTs, call.request.discarding = some snTs →
        ∀ s ∈ (exec sys.wu event).wu.list.live, s.timestamp ≠ snTs := by
  intro call hcall
  exact ⟨(step_sound hreach.inv event hallowed).calls call hcall,
    exec_victimsLeave hreach.inv event call hcall⟩

/-- The copy that a rollback frees. -/
theorem garbage_collection_safe_oneBlock :
    ((exec (oneBlockAfter 5).wu (.rollback writer)).frees.map fun call => call.request.xptr) = [2] ∧
      ∀ call ∈ (exec (oneBlockAfter 5).wu (.rollback writer)).frees,
        SafeCall (oneBlockAfter 5).spec call := by
  refine ⟨by decide, fun call hcall => ?_⟩
  have hallowed : Allowed (oneBlockAfter 5) (.rollback writer) := by
    rintro client ⟨⟩
    decide
  exact (garbage_collection_safe (reachable_oneBlock run_oneBlock_write) hallowed call hcall).1

/-! ## The slots of a header -/

theorem undamaged_of_occupied (h : Inv wu spec) (hs : s ∈ wu.list.live)
    (hoccupied : 0 < s.occupancy) : s.isDamaged = false := by
  rw [h.client.occupancy s hs, Finset.card_pos] at hoccupied
  obtain ⟨c, hc⟩ := hoccupied
  obtain ⟨client, hcl, hst, hts⟩ := isReader_eq_true_iff.1 (mem_readers.1 hc)
  obtain ⟨s', hs', hts', hdam⟩ := h.client.bound c client hcl hst
  rw [h.store.time.ages.eq_of_timestamp hs hs' (hts.symm.trans hts'.symm)]
  exact hdam

theorem resolve_composed (h : Inv wu spec) {client : Client} {own : VersionSlot}
    {rest older : List VersionSlot} {out : List (Nat × Nat)} (hcl : wu.clients c = some client)
    (hst : client.statusAndType = .updater)
    (hcmp : Composed wu.list own rest x client.timestamp out older) (hs : s ∈ wu.list.live)
    (hdam : s.isDamaged = false) :
    resolve s.viewer (⟨x, client.timestamp⟩ :: own :: older) = resolve s.viewer (own :: rest) := by
  have hnew : visible s.viewer client.timestamp = false := by
    rw [Bool.eq_false_iff]
    intro hvis
    have hact := (visible_snapshot h.store.time.ages hs hvis).2.2
    exact hact (h.client.updater c client hcl hst)
  rw [resolve_cons_of_not_visible hnew]
  cases hown : visible s.viewer own.creatorTs with
  | true => rw [resolve_cons_of_visible hown, resolve_cons_of_visible hown]
  | false =>
    rw [resolve_cons_of_not_visible hown, resolve_cons_of_not_visible hown]
    exact hcmp.agree s hs hdam hown

def HeaderSuffices (wu : State Data) : Prop :=
  ∀ c client x found out, wu.clients c = some client → client.statusAndType = .updater →
    putBlockVersionToBuffer wu c x = .ok found → filterOutDamaged wu.list found.out = .ok out →
    out.head?.map Prod.fst ≠ some workingVersionTimestamp →
      (composeHeader found.block.header x client.timestamp out).2 = none ∧
      (composeHeader found.block.header x client.timestamp out).1.length ≤ versionsCount ∧
      ∀ s ∈ wu.list.live, s.isDamaged = false →
        resolve s.viewer (composeHeader found.block.header x client.timestamp out).1 =
          resolve s.viewer found.block.header

theorem headerSuffices (h : Inv wu spec) : HeaderSuffices wu := by
  intro c client x found out hcl hst hput hfilt hworking
  obtain ⟨own, rest, data, hfnd⟩ := h.putBlock_updater hcl hst hput
  rw [hfnd.out] at hfilt
  rw [hfnd.content]
  cases hvis : visible wu.list.fakeHeadSnapshot own.creatorTs with
  | false => exact absurd (filterOutDamaged_working hvis hfilt) hworking
  | true =>
    obtain ⟨out', older, hcmp, -⟩ := h.composed hfnd.block hvis client.timestamp
    rw [hcmp.filtered, Except.ok.injEq] at hfilt
    subst hfilt
    have hlen := hcmp.length
    rw [hcmp.composed]
    refine ⟨rfl, ?_, ?_⟩
    · show older.length + 1 + 1 ≤ versionsCount
      unfold versionsCount
      omega
    · exact fun s hs hdam => resolve_composed h hcl hst hcmp hs hdam

theorem version_header_suffices (hreach : Reachable db sys) :
    HeaderSuffices sys.wu ∧ sys.wu.list.live.length ≤ snapshotsCount ∧
      (∀ s ∈ sys.wu.list.live, 0 < s.occupancy → s.isDamaged = false) ∧
      ∀ c x n, (createBlockVersion sys.wu c x n).wu.list = sys.wu.list :=
  ⟨headerSuffices hreach.inv, hreach.inv.store.time.ages.length,
    fun _ => undamaged_of_occupied hreach.inv, list_createVersion hreach.inv⟩

/-- An updater, next to a query on the snapshot, makes a version of the block. -/
theorem version_header_suffices_oneBlock :
    ∃ client found out, (oneBlockAfter 3).wu.clients writer = some client ∧
      putBlockVersionToBuffer (oneBlockAfter 3).wu writer 1 = .ok found ∧
      filterOutDamaged (oneBlockAfter 3).wu.list found.out = .ok out ∧
      (composeHeader found.block.header 1 client.timestamp out).1.length ≤ versionsCount ∧
      ∃ s ∈ (oneBlockAfter 3).wu.list.live, s.occupancy = 1 ∧ s.isDamaged = false ∧
        resolve s.viewer (composeHeader found.block.header 1 client.timestamp out).1 =
          resolve s.viewer found.block.header := by
  obtain ⟨hhdr, -, hoccupied, -⟩ :=
    version_header_suffices (reachable_oneBlock run_oneBlock_register)
  obtain ⟨-, hlen, hresolve⟩ := hhdr writer _ 1 _ _ rfl rfl rfl rfl (by decide)
  refine ⟨_, _, _, rfl, rfl, rfl, hlen, _, List.mem_cons_self, rfl, ?_, ?_⟩
  · exact hoccupied _ List.mem_cons_self (by decide)
  · exact hresolve _ List.mem_cons_self rfl

end Sedna.Wu.Isolation
