import Sedna.Wu.Activity

/-!
# Freed blocks

A block is handed to the free-block routine when nobody needs it any more: when
the last snapshot that owns it is discarded.  A transaction that commits hands the versions it has
replaced and the blocks it has deleted to the garbage collector.
-/

namespace Sedna.Wu.Invariant

open Library Library.WindowChains Snapshots Versions Transactions Headers SnapshotChanges List
  Snapshot VersionEntry

variable {Data : Type} {wu : State Data} {spec : Spec Data} {blocks : Blocks Data}
  {requests : List FreeRequest} {l : SnapshotsList}

/-- The block is needed by no viewer at the time of the call, a snapshot that is just being
discarded aside.  Such a snapshot is in use by nobody, and it alone kept the block; so what is
kept for the persistent snapshot stays, even if that snapshot is damaged. -/
structure SafeCall (spec : Spec Data) (call : FreeCall Data) : Prop where
  unneeded : ∀ key v content, Sees call.request.snapshots spec key v content →
    (∀ snTs, key = some snTs → call.request.discarding ≠ some snTs) →
      ¬ Needs call.blocks v content call.request.xptr
  victim : ∀ snTs, call.request.discarding = some snTs →
    (∃ s ∈ call.request.snapshots.live, s.timestamp = snTs ∧ s.type = .regular ∧ s.occupancy = 0) ∧
    (∀ s ∈ call.request.snapshots.live, s.type ≠ .regular → s.timestamp ≠ snTs) ∧
    ∃ entry, call.request.xptr = entry.xptr ∧
      Stored entry [snTs] [] (slots call.request.snapshots)

theorem SafeCall.congr_spec {spec' : Spec Data} {call : FreeCall Data} (h : SafeCall spec call)
    (hcom : spec'.committed = spec.committed) (hview : spec'.view = spec.view) :
    SafeCall spec' call :=
  ⟨fun key v content hsees => h.unneeded key v content
    (hsees.congr_spec hcom.symm hview.symm), h.victim⟩

theorem freeBlocks_append (blocks : Blocks Data) (requests requests' : List FreeRequest) :
    freeBlocks blocks (requests ++ requests') =
      ((freeBlocks (freeBlocks blocks requests).1 requests').1,
        (freeBlocks blocks requests).2 ++
        (freeBlocks (freeBlocks blocks requests).1 requests').2) := by
  induction requests generalizing blocks with
  | nil => rfl
  | cons request requests ih => simp [freeBlocks, ih]

theorem freeBlocks_of_ne {a : Nat} (h : ∀ request ∈ requests, request.xptr ≠ a) :
    (freeBlocks blocks requests).1 a = blocks a := by
  induction requests generalizing blocks with
  | nil => rfl
  | cons request requests ih =>
    rw [forall_mem_cons] at h
    rw [freeBlocks, ih h.2, Function.update_of_ne h.1.symm]

theorem request_mem_of_freeBlocks {call : FreeCall Data} (h : call ∈ (freeBlocks blocks requests).2)
    : call.request ∈ requests := by
  induction requests generalizing blocks with
  | nil => cases h
  | cons request requests ih =>
    rcases mem_cons.1 h with rfl | h
    · exact mem_cons_self
    · exact mem_cons_of_mem _ (ih h)

structure Freed (wu : State Data) (spec : Spec Data) (r : Freeing) : Prop where
  store : StoreInv (applyFreeing wu r).wu spec
  calls : ∀ call ∈ (applyFreeing wu r).frees, SafeCall spec call
  kept : ∀ a, Held wu a → (applyFreeing wu r).wu.blocks a = wu.blocks a

theorem Freed.refl (h : StoreInv wu spec) (error : Option WuError) :
    Freed wu spec ⟨wu.list, [], error⟩ :=
  ⟨h, by simp [applyFreeing, freeBlocks], fun _ _ => rfl⟩

theorem Freed.append {r r' : Freeing} (h : Freed wu spec r)
    (h' : Freed (applyFreeing wu r).wu spec r') :
    Freed wu spec { r' with frees := r.frees ++ r'.frees } := by
  have happend := freeBlocks_append wu.blocks r.frees r'.frees
  constructor
  · have hstore := h'.store
    unfold applyFreeing at hstore ⊢
    rw [happend]
    exact hstore
  · intro call hcall
    unfold applyFreeing at hcall
    rw [happend] at hcall
    rcases mem_append.1 hcall with hcall | hcall
    · exact h.calls call hcall
    · exact h'.calls call hcall
  · intro a ha
    unfold applyFreeing
    rw [happend]
    exact (h'.kept a ha).trans (h.kept a ha)

theorem StoreInv.freeBlocks (h : StoreInv wu spec)
    (hunneeded : ∀ request ∈ requests, Unneeded wu spec request.xptr)
    (hnd : (requests.map FreeRequest.xptr).Nodup) (hent : ∀ request ∈ requests,
      request.xptr ∉ (entries (slots wu.list)).map VersionEntry.xptr) :
    StoreInv { wu with blocks := (freeBlocks wu.blocks requests).1 } spec ∧
      ∀ call ∈ (freeBlocks wu.blocks requests).2, call.request ∈ requests ∧
        ∀ key v content, Sees wu.list spec key v content →
          ¬ Needs call.blocks v content call.request.xptr := by
  induction requests generalizing wu with
  | nil => exact ⟨h, by simp [freeBlocks]⟩
  | cons request requests ih =>
    rw [forall_mem_cons] at hunneeded hent
    rw [map_cons, nodup_cons] at hnd
    have ha := hunneeded.1
    have hfreed : StoreInv (wu.setBlock request.xptr none) spec :=
      ⟨h.time.congr rfl rfl, h.block.free ha, h.gc.free ha hent.1⟩
    have hrest : ∀ r ∈ requests, Unneeded (wu.setBlock request.xptr none) spec r.xptr := by
      intro r hr
      apply (hunneeded.2 r hr).of_free ha
      intro heq
      exact hnd.1 (heq ▸ mem_map_of_mem hr)
    obtain ⟨hinv, hcalls⟩ := ih hfreed hrest hnd.2 hent.2
    refine ⟨hinv, ?_⟩
    intro call hcall
    rcases mem_cons.1 hcall with rfl | hcall
    · refine ⟨mem_cons_self, fun key v content hsees hneeds => ?_⟩
      exact ha.not_needs hsees hneeds
    · exact ⟨mem_cons_of_mem _ (hcalls call hcall).1, (hcalls call hcall).2⟩

/-! ## Discarding -/

section

variable {victim : Snapshot} {r : Freeing}

theorem sees_discarded (hr : Discarded wu.list victim r) {key : Option Nat} {v : Viewer}
    {content : Content Data} (hsees : Sees wu.list spec key v content)
    (hkey : key ≠ some victim.timestamp) : Sees r.list spec key v content := by
  cases hsees with
  | lastCommitted =>
    have hhd : wu.list.fakeHeadSnapshot = r.list.fakeHeadSnapshot := by
      unfold SnapshotsList.fakeHeadSnapshot
      rw [hr.activeTs]
    rw [hhd]
    exact .lastCommitted
  | @snapshot s hs hdam =>
    have hne : s ≠ victim := by
      rintro rfl
      exact hkey rfl
    obtain ⟨s', hs', hbare⟩ := hr.mem hs hne
    have hts : s'.timestamp = s.timestamp := (congrArg timestamp hbare :)
    have hview : s'.viewer = s.viewer := (congrArg viewer hbare :)
    rw [← hts, ← hview]
    exact .snapshot hs' ((congrArg isDamaged hbare :).trans hdam)

theorem not_sees_victim (hr : Discarded wu.list victim r) (hages : Ages wu.list) {snTs : Nat}
    {v : Viewer} {content : Content Data} (hsees : Sees r.list spec (some snTs) v content) :
    snTs ≠ victim.timestamp := by
  cases hsees with
  | snapshot hs _ => exact hr.timestamp_ne hages hs

theorem stored_of_frees (hr : Discarded l victim r) {request : FreeRequest}
    (hreq : request ∈ r.frees) :
    ∃ entry, request.xptr = entry.xptr ∧ Stored entry [victim.timestamp] [] (slots l) := by
  rw [hr.frees] at hreq
  obtain ⟨entry, hentry, rfl⟩ := mem_map.1 hreq
  obtain ⟨before, after, hsl, -⟩ := hr.slots
  refine ⟨entry, rfl, ?_⟩
  rw [hsl]
  apply stored_append.2
  refine .inr (.inl ?_)
  cases hchn : victim.gcChain with
  | nil =>
    rw [hchn] at hentry
    exact absurd hentry not_mem_nil
  | cons node nodes =>
    rw [hchn] at hentry
    exact .inl ⟨hentry, by simp⟩

variable (h : StoreInv wu spec) (hr : Discarded wu.list victim r)
include h hr

theorem nodup_frees :
    (r.frees.map FreeRequest.xptr ++ (entries (slots r.list)).map VersionEntry.xptr).Nodup := by
  obtain ⟨before, after, hsl, hsl'⟩ := hr.slots
  have htri := h.time.triangular
  rw [hsl] at htri
  have hperm := (entries_leave (w := invalidTimestamp) htri).map xptr
  have hnd := hperm.nodup_iff.2 (hsl ▸ h.gc.nodup)
  rw [map_append, ← hsl'] at hnd
  rw [hr.frees, map_map]
  exact hnd

theorem StoreInv.discard : StoreInv { wu with list := r.list } spec := by
  obtain ⟨before, after, hsl, hsl'⟩ := hr.slots
  have htri := h.time.triangular
  rw [hsl] at htri
  constructor
  · refine h.time.shrink hr.shrinks hr.futures hr.length ?_
    rw [hsl']
    exact htri.leave
  · exact h.block.shrink hr.shrinks
  · refine h.gc.shrink hr.shrinks (nodup_frees h hr).of_append_right ?_
    intro entry owners' hstored
    rw [hsl'] at hstored
    obtain ⟨owners, hold, hcov⟩ := hstored.leave
    refine ⟨owners, hsl ▸ hold, ?_⟩
    intro snTs v content hsees howner
    exact hcov snTs howner (not_sees_victim hr h.time.ages hsees)

theorem StoreInv.unneeded_of_victim {request : FreeRequest} (hreq : request ∈ r.frees) :
    Unneeded { wu with list := r.list } spec request.xptr := by
  obtain ⟨entry, hxptr, hstored⟩ := stored_of_frees hr hreq
  rw [hxptr]
  apply (h.gc.garbage entry _ hstored).shrink hr.shrinks
  intro snTs v content hsees howner
  exact not_sees_victim hr h.time.ages hsees (mem_singleton.1 howner)

theorem StoreInv.applyDiscard : Freed wu spec r := by
  obtain ⟨hnd, -, hent⟩ := nodup_append'.1 (nodup_frees h hr)
  have hunneeded : ∀ request ∈ r.frees, Unneeded { wu with list := r.list } spec request.xptr :=
    fun request hreq => h.unneeded_of_victim hr hreq
  obtain ⟨hinv, hcalls⟩ := (h.discard hr).freeBlocks hunneeded hnd fun request hreq =>
    hent (mem_map_of_mem hreq)
  refine ⟨hinv, ?_, ?_⟩
  · intro call hcall
    obtain ⟨hreq, hneeds⟩ := hcalls call hcall
    have hstored := stored_of_frees hr hreq
    rw [hr.frees] at hreq
    obtain ⟨entry, -, hentry⟩ := mem_map.1 hreq
    rw [← hentry] at hneeds hstored
    constructor
    · intro key v content hsees hkey
      rw [← hentry] at hsees hkey ⊢
      apply hneeds key v content
      apply sees_discarded hr hsees
      intro heq
      exact hkey _ heq rfl
    · intro snTs hdis
      rw [← hentry] at hdis ⊢
      cases hdis
      obtain ⟨before, after, hlive, -⟩ := hr.live
      have hvictim : victim ∈ wu.list.live := by
        rw [hlive]
        simp
      refine ⟨⟨victim, hvictim, rfl, hr.regular, hr.unoccupied⟩, ?_, hstored⟩
      intro s hs hspec hts
      rw [h.time.ages.eq_of_timestamp hs hvictim hts] at hspec
      exact hspec hr.regular
  · intro a ha
    apply freeBlocks_of_ne
    rintro request hreq rfl
    exact (hunneeded request hreq).free ha

end

/-! ## Purifying -/

def Leaves (l : SnapshotsList) (r : Freeing) : Prop :=
  ∀ request ∈ r.frees, ∀ snTs, request.discarding = some snTs →
    (∃ s ∈ l.live, s.timestamp = snTs) ∧ ∀ s ∈ r.list.live, s.timestamp ≠ snTs

theorem leaves_of_discarded {victim : Snapshot} {r : Freeing} (h : Discarded l victim r)
    (hages : Ages l) : Leaves l r := by
  intro request hreq snTs hdis
  rw [h.frees] at hreq
  obtain ⟨entry, -, rfl⟩ := mem_map.1 hreq
  cases hdis
  obtain ⟨before, after, hlive, -⟩ := h.live
  exact ⟨⟨victim, by rw [hlive]; simp, rfl⟩, fun s hs => h.timestamp_ne hages hs⟩

theorem Leaves.append {r r' : Freeing} (h : Leaves l r) (hkept : Kept l r.list)
    (h' : Leaves r.list r') (hkept' : Kept r.list r'.list) :
    Leaves l { r' with frees := r.frees ++ r'.frees } := by
  intro request hreq snTs hdis
  rcases mem_append.1 hreq with hreq | hreq
  · obtain ⟨hold, hgone⟩ := h request hreq snTs hdis
    refine ⟨hold, fun s' hs' hts => ?_⟩
    obtain ⟨s, hs, heq, -⟩ := hkept'.back s' hs'
    exact hgone s hs (heq.symm.trans hts)
  · obtain ⟨⟨s', hs', hts⟩, hgone⟩ := h' request hreq snTs hdis
    obtain ⟨s, hs, heq, -⟩ := hkept.back s' hs'
    exact ⟨⟨s, hs, heq.symm.trans hts⟩, hgone⟩

structure Purified (wu : State Data) (spec : Spec Data) (r : Freeing) : Prop where
  error : r.error = none
  freed : Freed wu spec r
  kept : Kept wu.list r.list
  leaves : Leaves wu.list r

inductive Purges : State Data → Freeing → Prop
  | done {wu : State Data} : Purges wu ⟨wu.list, [], none⟩
  | discard {wu : State Data} {victim : Snapshot} {r r' : Freeing}
      (hr : Discarded wu.list victim r) (hrest : Purges (applyFreeing wu r).wu r') :
      Purges wu { r' with frees := r.frees ++ r'.frees }

theorem purifyLoop_purges {todo : List Snapshot} (h : StoreInv wu spec)
    (htodo : ∀ current ∈ todo, ∃ s ∈ wu.list.live, bare s = bare current)
    (hdist : todo.Pairwise fun s s' => s.timestamp ≠ s'.timestamp) :
    Purges wu (purifyLoop todo wu.list) := by
  induction todo generalizing wu with
  | nil => exact .done
  | cons current todo ih =>
    rw [forall_mem_cons] at htodo
    obtain ⟨hcurrent, hrest⟩ := pairwise_cons.1 hdist
    by_cases hkeep : current.occupancy ≠ 0 ∨ current.type ≠ .regular
    · rw [purifyLoop, if_pos hkeep]
      exact ih h htodo.2 hrest
    · push Not at hkeep
      obtain ⟨victim, hvictim, hbare⟩ := htodo.1
      have hts : victim.timestamp = current.timestamp := (congrArg timestamp hbare :)
      have hr := discardSnapshot_spec h.time.ages h.time.futures hvictim
        ((congrArg type hbare :).trans hkeep.2)
        ((congrArg occupancy hbare :).trans hkeep.1)
      rw [hts] at hr
      have htodo' : ∀ s ∈ todo, ∃ s' ∈ (discardSnapshot wu.list current.timestamp).list.live,
          bare s' = bare s := by
        intro s hs
        obtain ⟨s', hs', hbare'⟩ := htodo.2 s hs
        have hne : s' ≠ victim := by
          rintro rfl
          exact hcurrent s hs (hts.symm.trans (congrArg timestamp hbare' :))
        obtain ⟨s'', hs'', hbare''⟩ := hr.mem hs' hne
        exact ⟨s'', hs'', hbare''.trans hbare'⟩
      have hloop : purifyLoop (current :: todo) wu.list =
          { purifyLoop todo (discardSnapshot wu.list current.timestamp).list with
            frees := (discardSnapshot wu.list current.timestamp).frees ++
              (purifyLoop todo (discardSnapshot wu.list current.timestamp).list).frees } := by
        rw [purifyLoop, if_neg (by push Not; exact hkeep)]
        simp [hr.error]
      rw [hloop]
      exact .discard hr (ih (h.applyDiscard hr).store htodo' hrest)

theorem Purges.purified {r : Freeing} (hr : Purges wu r) (h : StoreInv wu spec) :
    Purified wu spec r := by
  induction hr with
  | done => exact ⟨rfl, Freed.refl h none, Kept.refl _, by simp [Leaves]⟩
  | discard hr _ ih =>
    have hdiscarded := h.applyDiscard hr
    obtain ⟨herror, hfreed, hkept, hleaves⟩ := ih hdiscarded.store
    exact ⟨herror, hdiscarded.append hfreed, hr.kept.trans hkept,
      (leaves_of_discarded hr h.time.ages).append hr.kept hleaves hkept⟩

theorem purifySnapshots_eq (h : StoreInv wu spec) (isKeeping : Bool) :
    ∃ r, Purges wu r ∧ purifySnapshots wu.list isKeeping =
      { r with list := autoDamageSnapshots r.list isKeeping } := by
  generalize htodo : (if isKeeping then wu.list.live.tail else wu.list.live) = todo
  have hsub : todo.Sublist wu.list.live := by
    rw [← htodo]
    split
    · exact tail_sublist _
    · exact List.Sublist.refl _
  have hdist : todo.Pairwise fun s s' => s.timestamp ≠ s'.timestamp :=
    (h.time.ages.decreasing.imp fun hlt => (ne_of_lt hlt).symm).sublist hsub
  have hpurges := purifyLoop_purges h (fun s hs => ⟨s, hsub.subset hs, rfl⟩) hdist
  refine ⟨_, hpurges, ?_⟩
  unfold purifySnapshots
  simp only [htodo, (hpurges.purified h).error]

theorem purifySnapshots_spec (h : StoreInv wu spec) (isKeeping : Bool) :
    Purified wu spec (purifySnapshots wu.list isKeeping) := by
  obtain ⟨r, hpurges, hr⟩ := purifySnapshots_eq h isKeeping
  obtain ⟨herror, hfreed, hkept, hleaves⟩ := hpurges.purified h
  have hmarked := marked_autoDamageSnapshots r.list isKeeping
  have hact := activeTs_autoDamageSnapshots r.list isKeeping
  have hdam := Kept.of_marked hact hmarked
  rw [hr]
  refine ⟨herror, ⟨?_, hfreed.calls, hfreed.kept⟩, hkept.trans hdam, ?_⟩
  · exact hfreed.store.flagged hact (hmarked.imp fun _ _ hs => hs.toFlagged)
  · intro request hreq snTs hdis
    obtain ⟨hold, hgone⟩ := hleaves request hreq snTs hdis
    refine ⟨hold, fun s' hs' hts => ?_⟩
    obtain ⟨s, hs, heq, -⟩ := hdam.back s' hs'
    exact hgone s hs (heq.symm.trans hts)

/-! ## Clients -/

theorem ClientInv.retain (h : ClientInv wu) (hl : Retains wu.list l) :
    ClientInv { wu with list := l, blocks := blocks } := by
  constructor
  · intro c client hcl hst
    rw [hl.activeTs]
    exact h.updater c client hcl hst
  · exact h.injective
  · intro ts hts
    rw [hl.activeTs] at hts
    exact h.active ts hts
  · intro s' hs'
    obtain ⟨s, hs, hts, hocc⟩ := hl.back s' hs'
    rw [hocc, h.occupancy s hs, hts]
    rfl
  · intro c client hcl hst
    obtain ⟨s, hs, hts, hdam⟩ := h.bound c client hcl hst
    have hpos : 0 < s.occupancy := by
      rw [h.occupancy s hs, Finset.card_pos]
      refine ⟨c, Finset.mem_filter.2 ⟨Finset.mem_univ _, ?_⟩⟩
      exact isReader_eq_true_iff.2 ⟨client, hcl, hst, hts.symm⟩
    obtain ⟨s', hs', hts', -, hdam'⟩ := hl.forth s hs hpos
    exact ⟨s', hs', hts'.trans hts, hdam'.trans hdam⟩
  · exact h.query

theorem Inv.freed {r : Freeing} (h : Inv wu spec) (hr : Freed wu spec r)
    (hl : Retains wu.list r.list) : Inv (applyFreeing wu r).wu spec := by
  refine ⟨hr.store, h.client.retain hl, ?_⟩
  apply h.work.frame
  · intro c x ver hver
    exact hr.kept x (h.work.held (c := c) (by simp [SnapshotStore.State.Touched, hver]))
  · exact fun _ _ _ hrun => hrun
  · exact fun _ _ _ hrun => .inr hrun

theorem Inv.purify (h : Inv wu spec) (isKeeping : Bool) :
    Inv (applyFreeing wu (purifySnapshots wu.list isKeeping)).wu spec := by
  have hpur := purifySnapshots_spec h.store isKeeping
  exact h.freed hpur.freed hpur.kept.toRetains

open VersionSlot Option

variable {ts : Nat} {c : ClientId} {client : Client} {f g : VeFunction} {reqs : List RequestForGc}

/-! ## Requests -/

section

variable {req : RequestForGc} {r : Freeing}

theorem Sees.timestamp_mem {snTs : Nat} {v : Viewer} {content : Content Data}
    (h : Sees l spec (some snTs) v content) : ∃ s ∈ l.live, s.timestamp = snTs := by
  cases h with
  | snapshot hs _ => exact ⟨_, hs, rfl⟩

theorem StoreInv.push {entry : VersionEntry} {anchorTs : Nat} (h : StoreInv wu spec)
    (hl : Pushed wu.list entry anchorTs l) (hgarb : Garbage wu spec (anchorTs ≤ ·) entry.xptr)
    (hfr : entry.xptr ∉ (entries (slots wu.list)).map VersionEntry.xptr) :
    StoreInv { wu with list := l } spec ∧
      ((entries (slots l)).map VersionEntry.xptr).Perm
        (entry.xptr :: (entries (slots wu.list)).map VersionEntry.xptr) := by
  have hshrinks : Shrinks wu.list l := Shrinks.of_bare hl.activeTs (by rw [hl.live])
  obtain ⟨before, k, chain, after, level, hsl, hsl', hlevel, howners⟩ := hl.slots
  have hperm : ((entries (slots l)).map VersionEntry.xptr).Perm
      (entry.xptr :: (entries (slots wu.list)).map VersionEntry.xptr) := by
    rw [hsl, hsl']
    refine (entries_push ?_).map VersionEntry.xptr
    rintro rfl
    exact Nat.not_lt_zero _ hlevel
  refine ⟨⟨?_, h.block.shrink hshrinks, ?_⟩, hperm⟩
  · refine h.time.shrink hshrinks hl.futures hl.length ?_
    rw [hsl']
    exact Triangular.push (hsl ▸ h.time.triangular)
  · refine ⟨hperm.nodup_iff.2 (nodup_cons.2 ⟨hfr, h.gc.nodup⟩), ?_⟩
    intro entry' owners hstored
    rw [hsl'] at hstored
    rcases hstored.push hlevel with hold | ⟨rfl, rfl⟩
    · exact (h.gc.garbage entry' owners (hsl ▸ hold)).shrink hshrinks
        fun _ _ _ _ howner => howner
    · apply hgarb.shrink hshrinks
      intro snTs v content hsees hanc
      obtain ⟨s, hs, rfl⟩ := (hsees.of_shrinks hshrinks).timestamp_mem
      rw [append_nil]
      exact howners s hs hanc

/-- The requests of a transaction that has ended: nobody but the snapshots from the anchor on needs
the block. -/
structure Collectable (wu : State Data) (spec : Spec Data) (reqs : List RequestForGc) : Prop where
  type : ∀ req ∈ reqs, req.type ≠ .discardVersion
  garbage : ∀ req ∈ reqs, req.type ≠ .nop → Garbage wu spec (req.anchorTs ≤ ·) req.xptr
  distinct : reqs.Pairwise fun r r' => r.type ≠ .nop → r'.type ≠ .nop → r.xptr ≠ r'.xptr
  fresh : ∀ req ∈ reqs, req.type ≠ .nop → req.xptr ∉ (entries (slots wu.list)).map VersionEntry.xptr

theorem Collectable.tail (h : Collectable wu spec (req :: reqs)) : Collectable wu spec reqs :=
  ⟨(forall_mem_cons.1 h.type).2,
    (forall_mem_cons.1 h.garbage).2,
    (pairwise_cons.1 h.distinct).2, (forall_mem_cons.1 h.fresh).2⟩

theorem freed_of_submitted (hr : Submitted wu.list req r) (h : StoreInv wu spec)
    (hreqs : Collectable wu spec (req :: reqs)) :
    Freed wu spec r ∧ Collectable (applyFreeing wu r).wu spec reqs ∧
      r.list.live.map bare = wu.list.live.map bare := by
  have htail := hreqs.tail
  have hdist := (pairwise_cons.1 hreqs.distinct).1
  cases hr with
  | rejected herror hlist hfrees =>
    obtain ⟨list, frees, error⟩ := r
    cases hlist
    cases hfrees
    exact ⟨Freed.refl h error, htail, rfl⟩
  | nop htype hr =>
    subst hr
    exact ⟨Freed.refl h none, htail, rfl⟩
  | freed htype hr hold =>
    subst hr
    have hgarb := hreqs.garbage req mem_cons_self htype
    have hfr := hreqs.fresh req mem_cons_self htype
    have hunneeded : Unneeded wu spec req.xptr := by
      refine ⟨hgarb.allocated, hgarb.free, fun key v content hsees hneeds => ?_⟩
      obtain ⟨snTs, rfl, hanc⟩ := hgarb.owned key v content hsees hneeds
      obtain ⟨s, hs, rfl⟩ := hsees.timestamp_mem
      have hlt := hold (hreqs.type req mem_cons_self) s hs
      omega
    have hone : ∀ request ∈ [(⟨req.xptr, none, wu.list⟩ : FreeRequest)],
        Unneeded wu spec request.xptr ∧
          request.xptr ∉ (entries (slots wu.list)).map VersionEntry.xptr := by
      intro request hrequest
      rw [mem_singleton.1 hrequest]
      exact ⟨hunneeded, hfr⟩
    obtain ⟨hinv, hcalls⟩ := h.freeBlocks (fun request hrequest => (hone request hrequest).1)
      (by simp) (fun request hrequest => (hone request hrequest).2)
    refine ⟨⟨hinv, ?_, ?_⟩, ?_, rfl⟩
    · intro call hcall
      obtain ⟨hrequest, hneeds⟩ := hcalls call hcall
      have hrequest : call.request = ⟨req.xptr, none, wu.list⟩ := by simpa using hrequest
      constructor
      · intro key v content hsees _
        rw [hrequest] at hsees
        exact hneeds key v content hsees
      · intro snTs hdis
        rw [hrequest] at hdis
        cases hdis
    · intro b hb
      show (freeBlocks wu.blocks [⟨req.xptr, none, wu.list⟩]).1 b = wu.blocks b
      apply freeBlocks_of_ne
      rintro request hrequest rfl
      exact (hone request hrequest).1.free hb
    · refine ⟨htail.type, ?_, htail.distinct, htail.fresh⟩
      intro req' hreq' htype'
      exact (htail.garbage req' hreq' htype').of_free hunneeded
        (hdist req' hreq' htype htype').symm
  | pushed htype entry hxptr hlist hfrees herror =>
    obtain ⟨list, frees, error⟩ := r
    cases hfrees
    have hgarb := hreqs.garbage req mem_cons_self htype
    have hfr := hreqs.fresh req mem_cons_self htype
    rw [← hxptr] at hgarb hfr
    obtain ⟨hinv, hperm⟩ := h.push hlist hgarb hfr
    refine ⟨⟨hinv, by simp [applyFreeing, freeBlocks], fun _ _ => rfl⟩, ?_, hlist.live⟩
    refine ⟨htail.type, ?_, htail.distinct, ?_⟩
    · intro req' hreq' htype'
      exact (htail.garbage req' hreq' htype').shrink
        (Shrinks.of_bare hlist.activeTs (by rw [hlist.live])) fun _ _ _ _ h => h
    · intro req' hreq' htype' hmem
      rcases mem_cons.1 (hperm.mem_iff.1 hmem) with heq | hmem
      · exact hdist req' hreq' htype htype' (hxptr.symm.trans heq.symm)
      · exact htail.fresh req' hreq' htype' hmem

theorem bare_pushEntry (entry : VersionEntry) (level : Nat) :
    ∀ (n : Nat) (snapshots : List Snapshot),
      (pushEntry entry level n snapshots).map bare = snapshots.map bare
  | _, [] => by simp [pushEntry]
  | 0, s :: rest => rfl
  | n + 1, s :: rest => by rw [pushEntry, map_cons, map_cons, bare_pushEntry entry level n rest]

theorem submitRequest_kept (l : SnapshotsList) (entrySns : List Snapshot) (req : RequestForGc) :
    Kept l (submitRequest l entrySns req).list := by
  have hpush : ∀ entry level n, Kept l (l.setLive (pushEntry entry level n l.live)) := by
    intro entry level n
    have hbare : (l.setLive (pushEntry entry level n l.live)).live.map bare = l.live.map bare := by
      unfold SnapshotsList.live SnapshotsList.setLive
      rw [map_dropWhile_bare, map_dropWhile_bare, map_append, bare_pushEntry, ← map_append]
      conv_rhs => rw [split_live l]
      rfl
    exact Kept.of_bare rfl (fun s hs => mem_map.1 (hbare ▸ mem_map_of_mem hs))
      fun s hs _ => mem_map.1 (hbare ▸ mem_map_of_mem hs)
  unfold submitRequest
  repeat' split
  all_goals first
    | exact Kept.refl l
    | exact hpush _ _ _

theorem submitRequests_kept (currentSnapshotTs : Nat) (l : SnapshotsList)
    (reqs : List RequestForGc) : Kept l (submitRequests currentSnapshotTs l reqs).list := by
  induction reqs generalizing l with
  | nil => exact Kept.refl l
  | cons req reqs ih =>
    have hfst := submitRequest_kept l (entrySnapshots l currentSnapshotTs) req
    rw [submitRequests]
    split
    next => exact hfst
    next => exact hfst.trans (ih _)

theorem submitRequests_spec (h : StoreInv wu spec) (hreqs : Collectable wu spec reqs) :
    Freed wu spec (submitRequests wu.list.currentSnapshotTs wu.list reqs) := by
  induction reqs generalizing wu with
  | nil => exact Freed.refl h none
  | cons req reqs ih =>
    have hr := submitRequest_spec h.time.ages h.time.futures h.time.triangular req
    obtain ⟨hfreed, hreqs', hlive⟩ := freed_of_submitted hr h hreqs
    rw [submitRequests, entrySnapshots_current]
    generalize submitRequest wu.list wu.list.live req = r at hfreed hreqs' hlive
    split
    next error herror =>
      exact ⟨hfreed.store, hfreed.calls, hfreed.kept⟩
    next =>
      have hrest := ih hfreed.store hreqs'
      have hcurrent : (applyFreeing wu r).wu.list.currentSnapshotTs = wu.list.currentSnapshotTs :=
        currentSnapshotTs_of_bare hlive
      rw [hcurrent] at hrest
      exact hfreed.append hrest

end

/-! ## The functions of a transaction that commits -/

section

variable {new : Option Client} (hopen : OpenUpdater wu c client) (hnew : Idle new)

include hopen in
theorem Inv.not_needs_commit (h : Inv wu spec) (hf : f ∈ client.functionList)
    (htype : f.type ≠ .allocateBlock) :
    ¬ Needs wu.blocks (withoutUpdater wu c client.timestamp new).list.fakeHeadSnapshot
      (spec.commit c).committed f.xptr := by
  intro hneeds
  have hrun := hopen.running
  have hok := h.store.block.function _ _ _ hrun f hf
  obtain ⟨b, oldTs, hb, hhd⟩ := hok.head_xptr
  rcases h.needs_commit hopen.registered hopen.status hneeds with
    ⟨ver, hver⟩ | ⟨x, hx, hcom, ha⟩
  · -- The block would be a new version of its own, but it is an old one or it is deleted.
    obtain ⟨_, b', -, hb', hholds⟩ := h.work.written c _ ver hver
    rw [hb, Option.some.injEq] at hb'
    subst hb'
    have hself : f.lxptr = f.xptr :=
      congrArg VersionSlot.xptr (Option.some.inj (hhd.symm.trans hholds.1))
    cases hok with
    | allocate htype' => exact htype htype'
    | create _ _ _ _ _ hrep => exact hrep.ne hself.symm
    | free htype' =>
      have hdel := h.work.deleted c _ _ hrun f hf htype'
      rw [hself, hver] at hdel
      cases hdel
  · obtain ⟨b', ts', hb', hhd', -⟩ := h.store.block.named .lastCommitted hcom ha
    rw [hb, Option.some.injEq] at hb'
    subst hb'
    have hself : f.lxptr = x :=
      congrArg VersionSlot.xptr (Option.some.inj (hhd.symm.trans hhd'))
    apply hx
    rw [← hself]
    exact h.work.function c _ _ hrun f hf

theorem BlockInv.anchor_le (h : BlockInv wu spec) (hok : FunctionOk wu spec ts f)
    (htype : f.type ≠ .allocateBlock) {snTs : Nat} {v : Viewer} {content : Content Data}
    (hsees : Sees wu.list spec (some snTs) v content) (hneeds : Needs wu.blocks v content f.xptr) :
    f.anchorTs ≤ snTs := by
  obtain ⟨b, oldTs, hb, hhd⟩ := hok.head_xptr
  obtain ⟨x, b', ts', hx, hb', hhd', ha⟩ := h.needs hsees hneeds
  rw [hb, some.injEq] at hb'
  subst hb'
  obtain ⟨rfl, rfl⟩ : f.lxptr = x ∧ oldTs = ts' := by
    have heq := some.inj (hhd.symm.trans hhd')
    exact ⟨congrArg VersionSlot.xptr heq, congrArg creatorTs heq⟩
  cases hok with
  | allocate htype' => exact absurd htype' htype
  | create isPers _ oldTs' older restOld hrep =>
    rcases ha with ha | hloc
    · exact absurd ha hrep.ne
    · obtain ⟨data, hold⟩ := hrep.old
      rw [hb, some.injEq] at hold
      subst hold
      cases hhd
      exact hrep.reach snTs v content hsees hloc.visible
  | free _ _ _ _ hreach => exact hreach snTs v content hsees hx

include hopen hnew in
theorem Inv.garbage_of_function (h : Inv wu spec) (hf : f ∈ client.functionList)
    (htype : f.type ≠ .allocateBlock) :
    Garbage (withoutUpdater wu c client.timestamp new) (spec.commit c) (f.anchorTs ≤ ·) f.xptr := by
  have hrun := hopen.running
  have hok := h.store.block.function _ _ _ hrun f hf
  constructor
  · obtain ⟨b, oldTs, hb, -⟩ := hok.head_xptr
    show wu.blocks f.xptr ≠ none
    rw [hb]
    simp
  · rintro ⟨c', ts', functions', hrun', g, hg, heq⟩
    obtain ⟨hc, hrun'⟩ := (running_withoutUpdater hnew).1 hrun'
    have hok' := h.store.block.function c' ts' functions' hrun' g hg
    exact h.store.block.apart c c' _ ts' _ functions' hc.symm hrun hrun' f hf g hg
      (hok.lxptr_eq hok' heq)
  · intro key v content hsees hneeds
    cases hsees with
    | lastCommitted => exact absurd hneeds (h.not_needs_commit hopen hf htype)
    | @snapshot s hs hdam =>
      have hsees : Sees wu.list spec (some s.timestamp) s.viewer (spec.view s.timestamp) :=
        .snapshot hs hdam
      exact ⟨s.timestamp, rfl, h.store.block.anchor_le hok htype hsees hneeds⟩

theorem requestOf_type_ne_nop : (requestOf f).type ≠ .nop ↔ f.type ≠ .allocateBlock := by
  unfold requestOf
  cases f.type <;> simp

include hopen hnew in
theorem Inv.collectable (h : Inv wu spec) :
    Collectable (withoutUpdater wu c client.timestamp new) (spec.commit c)
      (client.functionList.map requestOf) := by
  have hrun := hopen.running
  have hok := h.store.block.function _ _ _ hrun
  constructor
  · intro req hreq
    obtain ⟨f, -, rfl⟩ := mem_map.1 hreq
    unfold requestOf
    cases f.type <;> simp
  · intro req hreq htype
    obtain ⟨f, hf, rfl⟩ := mem_map.1 hreq
    exact h.garbage_of_function hopen hnew hf (requestOf_type_ne_nop.1 htype)
  · rw [pairwise_map]
    refine (h.store.block.order _ _ _ hrun).imp_of_mem ?_
    intro f g hf hg horder htypeF htypeG heq
    have hlxptr := (hok f hf).lxptr_eq (hok g hg) (.inr heq)
    obtain ⟨hfree, hnotFree⟩ := horder hlxptr
    -- The first function is a new version, the second deletes the block.
    cases hok f hf with
    | allocate htype => exact requestOf_type_ne_nop.1 htypeF htype
    | free htype => exact hnotFree htype
    | create _ _ _ _ _ hrep =>
      cases hok g hg with
      | allocate htype => exact requestOf_type_ne_nop.1 htypeG htype
      | create _ htype =>
        rw [hfree] at htype
        cases htype
      | free _ hself => exact hrep.ne (heq.trans (hself.trans hlxptr.symm))
  · intro req hreq _ hmem
    obtain ⟨f, hf, rfl⟩ := mem_map.1 hreq
    obtain ⟨entry, hentry, heq⟩ := mem_map.1 hmem
    obtain ⟨owners, hstored⟩ := exists_stored_iff.2 hentry
    apply (h.store.gc.garbage entry owners hstored).free
    exact ⟨c, _, _, hrun, f, hf, .inr heq⟩

end

/-! ## Committing -/

structure Sound (outcome : Outcome Data) (spec : Spec Data) : Prop where
  inv : Inv outcome.wu spec
  calls : ∀ call ∈ outcome.frees, SafeCall spec call

theorem Inv.succeed (h : Inv wu spec) : Sound wu.succeed spec := ⟨h, by simp [State.succeed]⟩

theorem Inv.fail (h : Inv wu spec) (error : WuError) : Sound (wu.fail error) spec :=
  ⟨h, by simp [State.fail]⟩

theorem submitRequestForGc_of_valid {currentSnapshotTs : Nat}
    (hval : isValidTimestamp currentSnapshotTs = true) :
    submitRequestForGc l currentSnapshotTs reqs = submitRequests currentSnapshotTs l reqs := by
  simp [submitRequestForGc, hval]

theorem Sound.commit {ended : Outcome Data} (hended : Sound ended spec)
    (hcl : wu.clients c = some client) (heq : onTransactionEnd wu c client = ended)
    (herror : ended.error = none) (hidle : Idle (ended.wu.clients c))
    (hcollect : client.isCompleted = false →
      Collectable ended.wu spec (client.functionList.map requestOf)) :
    Sound (onCommitTransaction wu c) spec := by
  unfold onCommitTransaction
  simp only [hcl, heq, herror]
  split
  next => exact ⟨hended.inv, hended.calls⟩
  next hval =>
    split
    next => exact ⟨hended.inv, hended.calls⟩
    next hcomp =>
      have hval : isValidTimestamp ended.wu.list.currentSnapshotTs = true := by simpa using hval
      have hfreed := submitRequests_spec hended.inv.store (hcollect (by simpa using hcomp))
      have hkept := submitRequests_kept ended.wu.list.currentSnapshotTs ended.wu.list
        (client.functionList.map requestOf)
      rw [← submitRequestForGc_of_valid hval] at hfreed hkept
      have hinv := hended.inv.freed hfreed hkept.toRetains
      have hcalls : ∀ call ∈ ended.frees ++
          (onTransactionCommit ended.wu client ended.wu.list.currentSnapshotTs).frees,
          SafeCall spec call := by
        exact forall_mem_append.2 ⟨hended.calls, hfreed.calls⟩
      split
      next => exact ⟨hinv, hcalls⟩
      next =>
        have hidle' : Idle ((onTransactionCommit ended.wu client
            ended.wu.list.currentSnapshotTs).wu.clients c) := hidle
        refine ⟨Inv.setIdle hidle' ?_ hinv, hcalls⟩
        rintro _ ⟨⟩
        rfl

theorem onTransactionEnd_updater (hst : client.statusAndType = .updater) :
    onTransactionEnd wu c client =
      (withoutUpdater wu c client.timestamp
        (some { client with
          statusAndType := .completed, timestamp := invalidTimestamp })).succeed := by
  simp [onTransactionEnd, hst, withoutUpdater]

theorem Inv.commit_updater (h : Inv wu spec) (hcl : wu.clients c = some client)
    (hst : client.statusAndType = .updater) :
    Sound (onCommitTransaction wu c) (spec.commit c) := by
  have hidle := idle_completed client
  have hended := (h.endUpdater hcl hst hidle).succeed
  apply hended.commit hcl (onTransactionEnd_updater hst) rfl
  · simpa [State.succeed, withoutUpdater] using hidle
  · intro hcomp
    exact h.collectable ⟨hcl, hst, hcomp⟩ hidle

end Sedna.Wu.Invariant
