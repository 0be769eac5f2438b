import Sedna.Wu.Headers

/-!
# Changes of the list of snapshots

What the operations on the list do to the snapshots in use and to the windows
of the garbage chains.
-/

namespace Sedna.Wu.SnapshotChanges

open Library.Lists Library.WindowChains Snapshots Headers List Snapshot SnapshotsList

def bare (s : Snapshot) : Snapshot := { s with gcChain := [] }

def slots (l : SnapshotsList) : List (Nat × List (List VersionEntry)) :=
  l.snapshots.map fun s => (s.timestamp, s.gcChain)

def slot (s : Snapshot) : Nat × List (List VersionEntry) := (s.timestamp, s.gcChain)

theorem slots_eq (l : SnapshotsList) : slots l = l.snapshots.map slot := rfl

@[simp] theorem bare_timestamp (s : Snapshot) : (bare s).timestamp = s.timestamp := rfl

@[simp] theorem bare_viewer (s : Snapshot) : (bare s).viewer = s.viewer := rfl

@[simp] theorem bare_isFuture (s : Snapshot) : (bare s).isFuture = s.isFuture := rfl

variable {l l' : SnapshotsList} {live : List Snapshot} {s victim : Snapshot} {r : Freeing}

theorem live_of_split {futures : List Snapshot} (hspl : l.snapshots = futures ++ live)
    (hfut : ∀ s ∈ futures, s.isFuture = true) (hlive : ∀ s ∈ live, s.isFuture = false) :
    l.live = live := by
  unfold SnapshotsList.live
  rw [hspl, dropWhile_append_of_pos hfut]
  cases live with
  | nil => rfl
  | cons s live =>
    have hs := hlive s (by simp)
    rw [dropWhile_cons_of_neg (by simp [hs])]

theorem split_live (l : SnapshotsList) : l.snapshots = l.snapshots.takeWhile isFuture ++ l.live :=
  takeWhile_append_dropWhile.symm

theorem isFuture_takeWhile (hs : s ∈ l.snapshots.takeWhile isFuture) : s.isFuture = true :=
  mem_takeWhile_imp hs

theorem isFuture_live (h : FuturesFirst l) (hs : s ∈ l.live) : s.isFuture = false := by
  simpa [isFuture] using h.live s hs

/-! ## The snapshots in use are rewritten -/

section

variable {l : SnapshotsList} {live : List Snapshot}

theorem live_setLive (hlive : ∀ s ∈ live, s.isFuture = false) : (l.setLive live).live = live :=
  live_of_split rfl (fun _ hs => isFuture_takeWhile hs) hlive

theorem length_setLive (hlen : live.length = l.live.length) :
    (l.setLive live).snapshots.length = l.snapshots.length := by
  conv_rhs => rw [split_live l]
  simp [setLive, hlen]

theorem futuresFirst_setLive (h : FuturesFirst l) (hlive : ∀ s ∈ live, s.isFuture = false) :
    FuturesFirst (l.setLive live) := by
  constructor
  · intro s hs
    rw [live_setLive hlive] at hs
    have := hlive s hs
    simpa [isFuture] using this
  · intro s hs htype
    rcases mem_append.1 hs with hs | hs
    · exact h.timestamp s ((takeWhile_sublist _).subset hs) htype
    · have := hlive s hs
      simp [isFuture, htype] at this

theorem slots_eq_append :
    slots l = (l.snapshots.takeWhile isFuture).map slot ++ l.live.map slot := by
  rw [slots_eq, ← map_append, ← split_live]

end

/-! ## The snapshots that are left -/

structure Shrinks (l l' : SnapshotsList) : Prop where
  activeTs : l'.activeTs = l.activeTs
  viewers : (l'.live.map Snapshot.viewer).Sublist (l.live.map Snapshot.viewer)
  undamaged : ((l'.live.filter fun s => !s.isDamaged).map Snapshot.viewer).Sublist
    ((l.live.filter fun s => !s.isDamaged).map Snapshot.viewer)

theorem Shrinks.mem (h : Shrinks l l') (hs : s ∈ l'.live) (hdam : s.isDamaged = false) :
    ∃ s' ∈ l.live, s'.isDamaged = false ∧ s'.viewer = s.viewer := by
  have hmem : s.viewer ∈ (l'.live.filter fun s => !s.isDamaged).map viewer :=
    mem_map_of_mem (mem_filter.2 ⟨hs, by simp [hdam]⟩)
  obtain ⟨s', hs', heq⟩ := mem_map.1 (h.undamaged.subset hmem)
  obtain ⟨hs', hflag⟩ := mem_filter.1 hs'
  exact ⟨s', hs', by simpa using hflag, heq⟩

theorem Shrinks.mem_viewer (h : Shrinks l l') (hs : s ∈ l'.live) :
    ∃ s' ∈ l.live, s'.viewer = s.viewer :=
  mem_map.1 (h.viewers.subset (mem_map_of_mem hs))

theorem Shrinks.few (h : Shrinks l l') (hfew : FewUndamaged l) : FewUndamaged l' := by
  have hle := h.undamaged.length_le
  rw [length_map, length_map] at hle
  exact hle.trans hfew

theorem Shrinks.ages (h : Shrinks l l') (hages : Ages l) : Ages l' := by
  have hdec : (l.live.map viewer).Pairwise fun v w => w.timestamp < v.timestamp :=
    pairwise_map.2 hages.decreasing
  constructor
  · have hviewers : l'.viewers.Sublist l.viewers := by
      unfold SnapshotsList.viewers fakeHeadSnapshot
      rw [h.activeTs]
      exact h.viewers.cons_cons _
    exact hages.newer.sublist hviewers
  · exact pairwise_map.1 (hdec.sublist h.viewers)
  · intro s hs
    obtain ⟨s', hs', heq⟩ := h.mem_viewer hs
    have hval := hages.valid s' hs'
    rwa [show s'.timestamp = s.timestamp from congrArg Viewer.timestamp heq] at hval
  · have hle := h.viewers.length_le
    rw [length_map, length_map] at hle
    exact hle.trans hages.length

theorem Shrinks.of_bare (hact : l'.activeTs = l.activeTs)
    (hsub : (l'.live.map bare).Sublist (l.live.map bare)) : Shrinks l l' := by
  have hview : ∀ live : List Snapshot, live.map viewer = (live.map bare).map viewer := by
    intro live
    simp
  have hfilter : ∀ live : List Snapshot, (live.filter fun s => !s.isDamaged).map viewer =
      ((live.map bare).filter fun s => !s.isDamaged).map viewer := by
    intro live
    rw [filter_map, map_map]
    rfl
  refine ⟨hact, ?_, ?_⟩
  · rw [hview, hview l.live]
    exact hsub.map _
  · rw [hfilter, hfilter l.live]
    exact (hsub.filter _).map _

/-! ## Discarding one snapshot -/

theorem getSnapshotByTimestamp_append {ts : Nat} {futures snapshots : List Snapshot}
    (hfut : ∀ s ∈ futures, s.timestamp ≠ ts) :
    getSnapshotByTimestamp ts (futures ++ snapshots) =
      (getSnapshotByTimestamp ts snapshots).map fun cut => (futures ++ cut.1, cut.2) := by
  induction futures with
  | nil => simp
  | cons s futures ih =>
    rw [forall_mem_cons] at hfut
    rw [cons_append, getSnapshotByTimestamp, if_neg hfut.1, ih hfut.2, Option.map_map]
    rfl

theorem map_rotateGcChains (i : Nat) (snapshots : List Snapshot) :
    (rotateGcChains i snapshots).map slot = rotateAfter i (snapshots.map slot) := by
  induction snapshots generalizing i with
  | nil => rfl
  | cons s snapshots ih => simp [rotateGcChains, rotateAfter, rotateGcChain, ih, slot]

theorem map_mergeDetached (detached : List (List VersionEntry)) (snapshots : List Snapshot) :
    (mergeDetached detached snapshots).map slot = mergeLast detached (snapshots.map slot) := by
  fun_induction mergeDetached detached snapshots with
  | case1 => rfl
  | case2 s => rfl
  | case3 s next snapshots ih => simp [mergeLast, ih]

theorem bare_rotateGcChains (i : Nat) (snapshots : List Snapshot) :
    (rotateGcChains i snapshots).map bare = snapshots.map bare := by
  induction snapshots generalizing i with
  | nil => rfl
  | cons s snapshots ih =>
    rw [rotateGcChains, map_cons, map_cons, ih]
    rfl

theorem bare_mergeDetached (detached : List (List VersionEntry)) (snapshots : List Snapshot) :
    (mergeDetached detached snapshots).map bare = snapshots.map bare := by
  fun_induction mergeDetached detached snapshots with
  | case1 => rfl
  | case2 s => rfl
  | case3 s next snapshots ih =>
    rw [map_cons, ih]
    rfl

theorem map_rotateSnapshots (before after : List Snapshot) (victim : Snapshot) :
    (rotateSnapshots before (resetVictim victim) (rotateGcChains 0 after)).map slot =
      leave (before.map slot) victim.gcChain invalidTimestamp (after.map slot) := by
  cases before with
  | nil => simp [rotateSnapshots, leave, resetVictim, map_rotateGcChains, slot]
  | cons hd rest =>
    have hmerge := map_mergeDetached victim.gcChain.tail (hd :: rest)
    simp only [map_cons] at hmerge
    simp only [rotateSnapshots, leave, resetVictim, map_cons, map_append, map_map,
      map_rotateGcChains, extend, ← hmerge, tail_cons, take_succ_cons, take_zero]
    rfl

theorem bare_rotateSnapshots (before after : List Snapshot) (victim : Snapshot) :
    (rotateSnapshots before (resetVictim victim) (rotateGcChains 0 after)).map bare =
      bare (resetVictim victim) :: (before.map bare ++ after.map bare) := by
  cases before with
  | nil => simp [rotateSnapshots, bare_rotateGcChains]
  | cons hd rest =>
    have hmerge := bare_mergeDetached (resetVictim victim).gcChain.tail (hd :: rest)
    simp only [rotateSnapshots, map_cons, map_append, map_map, bare_rotateGcChains]
    simp only [map_cons] at hmerge
    rw [← cons_append, ← hmerge]
    rfl

structure Discarded (l : SnapshotsList) (victim : Snapshot) (r : Freeing) : Prop where
  regular : victim.type = .regular
  unoccupied : victim.occupancy = 0
  error : r.error = none
  frees : r.frees = (victim.gcChain.headD []).map fun entry =>
    ⟨entry.xptr, some victim.timestamp, l⟩
  activeTs : r.list.activeTs = l.activeTs
  live : ∃ before after, l.live = before ++ victim :: after ∧
    r.list.live.map bare = before.map bare ++ after.map bare
  futures : FuturesFirst r.list
  slots : ∃ before after, slots l = before ++ (victim.timestamp, victim.gcChain) :: after ∧
    SnapshotChanges.slots r.list = leave before victim.gcChain invalidTimestamp after
  length : r.list.snapshots.length = l.snapshots.length

theorem map_dropWhile_bare (snapshots : List Snapshot) :
    (snapshots.dropWhile isFuture).map bare = (snapshots.map bare).dropWhile isFuture := by
  rw [dropWhile_map]
  rfl

theorem discardSnapshot_of_cut {ts : Nat} {before after : List Snapshot}
    (hcut : getSnapshotByTimestamp ts l.snapshots = some (before, victim, after))
    (hreg : victim.type = .regular) (hocc : victim.occupancy = 0) :
    discardSnapshot l ts =
      { list :=
          { l with
            snapshots := rotateSnapshots before (resetVictim victim) (rotateGcChains 0 after) }
        frees := (victim.gcChain.headD []).map fun entry => ⟨entry.xptr, some ts, l⟩
        error := none } := by
  simp [discardSnapshot, hcut, hreg, hocc]

theorem discardSnapshot_spec (h : Ages l) (hfut : FuturesFirst l) (hvictim : victim ∈ l.live)
    (hreg : victim.type = .regular) (hocc : victim.occupancy = 0) :
    Discarded l victim (discardSnapshot l victim.timestamp) := by
  obtain ⟨before, after, hcut, hspl⟩ := getSnapshotByTimestamp_live h hfut hvictim
  -- The victim is among the snapshots in use, the slots not in use are all in front of it.
  have hfront : ∀ s ∈ l.snapshots.takeWhile isFuture, s.timestamp ≠ victim.timestamp := by
    intro s hs heq
    have hts := hfut.timestamp s ((takeWhile_sublist _).subset hs)
      (by simpa [isFuture] using isFuture_takeWhile hs)
    have hval := h.valid victim hvictim
    rw [← heq, hts] at hval
    exact absurd hval (by decide)
  have hcut' : getSnapshotByTimestamp victim.timestamp
      (l.snapshots.takeWhile isFuture ++ l.live) = _ :=
    getSnapshotByTimestamp_append hfront
  rw [← split_live, hcut] at hcut'
  obtain ⟨⟨newer, victim', older⟩, hlive, heq⟩ := Option.map_eq_some_iff.1 hcut'.symm
  simp only [Prod.mk.injEq] at heq
  obtain ⟨rfl, rfl, rfl⟩ := heq
  have hlive := (getSnapshotByTimestamp_eq_some hlive).1
  have hbare := bare_rotateSnapshots
    (l.snapshots.takeWhile isFuture ++ newer) older victim'
  have hr := discardSnapshot_of_cut hcut hreg hocc
  have hnotFuture : ∀ s ∈ newer.map bare ++ older.map bare, s.isFuture = false := by
    rw [← map_append, forall_mem_map]
    intro s hs
    rw [bare_isFuture]
    apply isFuture_live hfut
    rw [hlive]
    exact ((sublist_cons_self _ _).append_left _).subset hs
  rw [hr]
  generalize hsnaps : rotateSnapshots (l.snapshots.takeWhile isFuture ++ newer)
    (resetVictim victim') (rotateGcChains 0 older) = snapshots at hbare
  have hlive' : (snapshots.dropWhile isFuture).map bare = newer.map bare ++ older.map bare := by
    have hcut : snapshots.map bare = (bare (resetVictim victim') ::
        (l.snapshots.takeWhile isFuture).map bare) ++ (newer.map bare ++ older.map bare) := by
      rw [hbare]
      simp
    rw [map_dropWhile_bare]
    apply live_of_split (l := ⟨snapshots.map bare, []⟩) hcut ?_ hnotFuture
    rw [forall_mem_cons, forall_mem_map]
    exact ⟨rfl, fun s hs => (bare_isFuture s).trans (isFuture_takeWhile hs)⟩
  have hsl : slots l = (l.snapshots.takeWhile isFuture ++ newer).map slot ++
      (victim'.timestamp, victim'.gcChain) :: older.map slot := by
    rw [slots_eq, congrArg (map slot) hspl, map_append, map_cons]
    rfl
  refine ⟨hreg, hocc, rfl, rfl, rfl, ⟨newer, older, hlive, hlive'⟩, ⟨?_, ?_⟩,
    ⟨_, _, hsl, ?_⟩, ?_⟩
  · intro s hs
    have hmem : bare s ∈ newer.map bare ++ older.map bare := by
      rw [← hlive']
      exact mem_map_of_mem hs
    have hs := hnotFuture _ hmem
    rw [bare_isFuture] at hs
    simpa [isFuture] using hs
  · intro s hs htype
    have hmem : bare s ∈ snapshots.map bare := mem_map_of_mem hs
    rw [hbare] at hmem
    rcases mem_cons.1 hmem with heq | hmem
    · exact (congrArg timestamp heq :)
    · rw [← map_append] at hmem
      obtain ⟨s', hs', heq⟩ := mem_map.1 hmem
      replace hs' : s' ∈ l.snapshots := by
        rw [hspl]
        exact ((sublist_cons_self _ _).append_left _).subset hs'
      have htype' : s'.type = .future := (congrArg type heq).trans htype
      have hts : s'.timestamp = s.timestamp := (congrArg timestamp heq :)
      rw [← hts]
      exact hfut.timestamp s' hs' htype'
  · rw [slots_eq, ← hsnaps]
    exact map_rotateSnapshots _ _ _
  · have hlen := congrArg length hbare
    have hold := congrArg length hspl
    simp only [length_cons, length_append, length_map] at hlen hold ⊢
    omega

/-- What the snapshot at position `p` protects.  Node `j` of the chain at position `i` is owned
by the snapshots at the positions from `i - j` to `i`. -/
def protectedBy (l : SnapshotsList) (p : Nat) : List VersionEntry := reaching 0 ((slots l).drop p)

/-- Only what the victim owned alone is freed.  The snapshots in front of it move by one
position, and every snapshot that stays protects what it protected. -/
theorem discardSnapshot_ownership {ts : Nat} {before after : List Snapshot}
    (hcut : getSnapshotByTimestamp ts l.snapshots = some (before, victim, after))
    (hreg : victim.type = .regular) (hocc : victim.occupancy = 0)
    (htri : Triangular 0 (slots l)) :
    (discardSnapshot l ts).error = none ∧
      (discardSnapshot l ts).frees.map FreeRequest.xptr =
        (victim.gcChain.headD []).map VersionEntry.xptr ∧
      (victim.gcChain.headD [] ++ entries (slots (discardSnapshot l ts).list)).Perm
        (entries (slots l)) ∧
      (discardSnapshot l ts).list.snapshots.map bare =
        bare (resetVictim victim) :: (before.map bare ++ after.map bare) ∧
      (∀ p < before.length,
        (protectedBy (discardSnapshot l ts).list (p + 1)).Perm (protectedBy l p)) ∧
      (∀ p > before.length, (protectedBy (discardSnapshot l ts).list p).Perm (protectedBy l p)) ∧
      Triangular 0 (slots (discardSnapshot l ts).list) := by
  have hr := discardSnapshot_of_cut hcut hreg hocc
  have hold : slots l = before.map slot ++ slot victim :: after.map slot := by
    rw [slots_eq, (getSnapshotByTimestamp_eq_some hcut).1, map_append, map_cons]
  have hnew : slots (discardSnapshot l ts).list =
      leave (before.map slot) victim.gcChain invalidTimestamp (after.map slot) := by
    rw [hr]
    exact map_rotateSnapshots before after victim
  unfold protectedBy
  rw [hold] at htri
  rw [hnew, hold]
  refine ⟨by rw [hr], ?_, entries_leave htri, ?_, ?_, ?_, htri.leave⟩
  · rw [hr, map_map]
    rfl
  · rw [hr]
    exact bare_rotateSnapshots before after victim
  · intro p hp
    exact reaching_leave_before htri (by rwa [length_map])
  · intro p hp
    obtain ⟨q, rfl⟩ := Nat.exists_eq_add_of_lt hp
    have hafter := @reaching_leave_after Nat VersionEntry victim.timestamp invalidTimestamp
      victim.gcChain (before.map slot) (after.map slot) q
    rw [length_map, add_right_comm] at hafter
    rw [slot, hafter]

/-- The second of three snapshots goes; what it shared with the first is protected by the first. -/
theorem discardSnapshot_ownership_three :
    ∃ l : SnapshotsList, (discardSnapshot l 11).frees.map FreeRequest.xptr = [5] ∧
      protectedBy l 0 = [⟨1, 4⟩, ⟨2, 6⟩] ∧
      (protectedBy (discardSnapshot l 11).list 1).Perm (protectedBy l 0) := by
  have h := discardSnapshot_ownership
    (l := ⟨[⟨12, [], [[⟨1, 4⟩]], .regular, 1, false⟩,
      ⟨11, [], [[⟨1, 5⟩], [⟨2, 6⟩]], .regular, 0, false⟩,
      ⟨10, [], [[], [⟨3, 7⟩], []], .persistent, 0, false⟩], []⟩)
    (show getSnapshotByTimestamp 11 _ = some _ from rfl) rfl rfl (by simp [slots, Triangular])
  exact ⟨_, h.2.1, by decide, h.2.2.2.2.1 0 (by decide)⟩

theorem Discarded.shrinks (h : Discarded l victim r) : Shrinks l r.list := by
  obtain ⟨before, after, hlive, hbare⟩ := h.live
  apply Shrinks.of_bare h.activeTs
  rw [hbare, hlive, map_append, map_cons]
  exact (sublist_cons_self _ _).append_left _

theorem Discarded.mem (h : Discarded l victim r) (hs : s ∈ l.live) (hne : s ≠ victim) :
    ∃ s' ∈ r.list.live, bare s' = bare s := by
  obtain ⟨before, after, hlive, hbare⟩ := h.live
  have hmem : bare s ∈ r.list.live.map bare := by
    rw [hbare, ← map_append]
    apply mem_map_of_mem
    rw [hlive] at hs
    simpa [hne] using hs
  exact mem_map.1 hmem

theorem Discarded.timestamp_ne (h : Discarded l victim r) (hages : Ages l) (hs : s ∈ r.list.live) :
    s.timestamp ≠ victim.timestamp := by
  obtain ⟨before, after, hlive, hbare⟩ := h.live
  have hnd := hages.nodup
  rw [hlive, map_append, map_cons, nodup_middle, nodup_cons, ← map_append] at hnd
  have hmem : bare s ∈ (before ++ after).map bare := by
    rw [map_append, ← hbare]
    exact mem_map_of_mem hs
  obtain ⟨s', hs', heq⟩ := mem_map.1 hmem
  intro hts
  rw [← hts, ← bare_timestamp, ← heq, bare_timestamp] at hnd
  exact hnd.1 (mem_map_of_mem hs')

/-! ## Changes of flags and counters -/

/-- A snapshot after a change that leaves its visibility and its chain; it may get damaged. -/
structure Flagged (s s' : Snapshot) : Prop where
  viewer : s'.viewer = s.viewer
  gcChain : s'.gcChain = s.gcChain
  isFuture : s'.isFuture = s.isFuture
  undamaged : s'.isDamaged = false → s.isDamaged = false

structure Steady (s s' : Snapshot) : Prop extends Flagged s s' where
  occupancy : s'.occupancy = s.occupancy
  isDamaged : 0 < s.occupancy → s'.isDamaged = s.isDamaged

theorem Flagged.refl (s : Snapshot) : Flagged s s := ⟨rfl, rfl, rfl, id⟩

theorem Steady.refl (s : Snapshot) : Steady s s := ⟨Flagged.refl s, rfl, fun _ => rfl⟩

theorem Flagged.timestamp {s' : Snapshot} (h : Flagged s s') : s'.timestamp = s.timestamp :=
  congrArg Viewer.timestamp h.viewer

section

variable {l l' : SnapshotsList}

theorem forall₂_dropWhile {R : Snapshot → Snapshot → Prop}
    (hR : ∀ s s', R s s' → s'.isFuture = s.isFuture) {snapshots snapshots' : List Snapshot}
    (h : Forall₂ R snapshots snapshots') :
    Forall₂ R (snapshots.dropWhile isFuture) (snapshots'.dropWhile isFuture) := by
  induction h with
  | nil => exact .nil
  | cons hs hrest ih =>
    rw [dropWhile_cons, dropWhile_cons, hR _ _ hs]
    split
    · exact ih
    · exact .cons hs hrest

theorem flagged_live (h : Forall₂ Flagged l.snapshots l'.snapshots) :
    Forall₂ Flagged l.live l'.live :=
  forall₂_dropWhile (fun _ _ hs => hs.isFuture) h

theorem steady_live (h : Forall₂ Steady l.snapshots l'.snapshots) : Forall₂ Steady l.live l'.live :=
  forall₂_dropWhile (fun _ _ hs => hs.isFuture) h

theorem map_viewer_of_flagged {live' : List Snapshot} (h : Forall₂ Flagged live live') :
    live'.map viewer = live.map viewer :=
  (map_eq_of_forall₂ h fun _ _ hs => hs.viewer.symm).symm

theorem undamaged_of_flagged {live' : List Snapshot} (h : Forall₂ Flagged live live') :
    ((live'.filter fun s => !s.isDamaged).map viewer).Sublist
      ((live.filter fun s => !s.isDamaged).map viewer) := by
  induction h with
  | nil => exact Sublist.refl _
  | @cons s s' live live' hs _ ih =>
    cases hdam' : s'.isDamaged with
    | true =>
      rw [filter_cons_of_neg (by simp [hdam'])]
      refine ih.trans (Sublist.map _ ?_)
      cases hdam : s.isDamaged with
      | true => rw [filter_cons_of_neg (by simp [hdam])]
      | false =>
        rw [filter_cons_of_pos (by simp [hdam])]
        exact sublist_cons_self _ _
    | false =>
      rw [filter_cons_of_pos (by simp [hdam']),
        filter_cons_of_pos (by simp [hs.undamaged hdam']), map_cons,
        map_cons, hs.viewer]
      exact ih.cons_cons _

theorem Shrinks.of_flagged (hact : l'.activeTs = l.activeTs)
    (h : Forall₂ Flagged l.snapshots l'.snapshots) : Shrinks l l' := by
  refine ⟨hact, ?_, undamaged_of_flagged (flagged_live h)⟩
  rw [map_viewer_of_flagged (flagged_live h)]

theorem slots_of_flagged (h : Forall₂ Flagged l.snapshots l'.snapshots) : slots l' = slots l :=
  (map_eq_of_forall₂ h fun _ _ hs => by rw [hs.timestamp, hs.gcChain]).symm

theorem futuresFirst_of_flagged (hfut : FuturesFirst l)
    (h : Forall₂ Flagged l.snapshots l'.snapshots) : FuturesFirst l' := by
  have htype : ∀ s s', Flagged s s' → (s'.type = .future ↔ s.type = .future) := by
    intro s s' hs
    have := hs.isFuture
    simpa [isFuture] using this
  constructor
  · intro s' hs' hfuture
    obtain ⟨s, hs, hflag⟩ := exists_of_forall₂ (flagged_live h) hs'
    exact hfut.live s hs ((htype s s' hflag).1 hfuture)
  · intro s' hs' hfuture
    obtain ⟨s, hs, hflag⟩ := exists_of_forall₂ h hs'
    rw [hflag.timestamp]
    exact hfut.timestamp s hs ((htype s s' hflag).1 hfuture)

end

theorem forall₂_setLive {R : Snapshot → Snapshot → Prop} (hrefl : ∀ s, R s s)
    (h : Forall₂ R l.live live) : Forall₂ R l.snapshots (l.setLive live).snapshots := by
  conv => arg 2; rw [split_live l]
  exact rel_append (forall₂_same.2 fun s _ => hrefl s) h

structure Marked (s s' : Snapshot) : Prop extends Steady s s' where
  type : s'.type = s.type

theorem Marked.refl (s : Snapshot) : Marked s s := ⟨Steady.refl s, rfl⟩

theorem marked_autoDamageSnapshots (l : SnapshotsList) (isKeeping : Bool) :
    Forall₂ Marked l.snapshots (autoDamageSnapshots l isKeeping).snapshots := by
  have hdamage : ∀ s : Snapshot, Marked s
      (if s.occupancy = 0 then { s with isDamaged := true } else s) := by
    intro s
    split
    next hzero => exact ⟨⟨⟨rfl, rfl, rfl, by simp⟩, rfl, by simp [hzero]⟩, rfl⟩
    next => exact Marked.refl s
  unfold autoDamageSnapshots
  cases hlive : l.live with
  | nil => exact forall₂_same.2 fun s _ => Marked.refl s
  | cons current rest =>
    apply forall₂_setLive Marked.refl
    rw [hlive]
    refine .cons ?_ ?_
    · cases isKeeping
      · exact hdamage current
      · exact Marked.refl current
    · rw [forall₂_map_right_iff]
      exact forall₂_same.2 fun s _ => hdamage s

theorem activeTs_autoDamageSnapshots (l : SnapshotsList) (isKeeping : Bool) :
    (autoDamageSnapshots l isKeeping).activeTs = l.activeTs := by
  unfold autoDamageSnapshots
  cases l.live <;> rfl

theorem steady_retype {old new : SnapshotType} (hold : old ≠ .future) (hnew : new ≠ .future)
    (snapshots : List Snapshot) : Forall₂ Steady snapshots (retype old new snapshots) := by
  induction snapshots with
  | nil => exact .nil
  | cons s rest ih =>
    unfold retype
    split
    next htype =>
      refine .cons ⟨⟨rfl, rfl, ?_, id⟩, rfl, fun _ => rfl⟩ (forall₂_same.2 fun s _ => Steady.refl s)
      simp [isFuture, htype, hold, hnew]
    next => exact .cons (Steady.refl s) ih

/-! ## Snapshots in use are kept -/

/-- No snapshot is added, and a snapshot that is in use stays as it is. -/
structure Retains (l l' : SnapshotsList) : Prop where
  activeTs : l'.activeTs = l.activeTs
  back : ∀ s' ∈ l'.live, ∃ s ∈ l.live, s'.timestamp = s.timestamp ∧ s'.occupancy = s.occupancy
  forth : ∀ s ∈ l.live, 0 < s.occupancy → ∃ s' ∈ l'.live, s'.timestamp = s.timestamp ∧
    s'.occupancy = s.occupancy ∧ s'.isDamaged = s.isDamaged

theorem Retains.refl (l : SnapshotsList) : Retains l l :=
  ⟨rfl, fun s hs => ⟨s, hs, rfl, rfl⟩, fun s hs _ => ⟨s, hs, rfl, rfl, rfl⟩⟩

theorem Retains.trans {l'' : SnapshotsList} (h : Retains l l') (h' : Retains l' l'') :
    Retains l l'' := by
  refine ⟨h'.activeTs.trans h.activeTs, ?_, ?_⟩
  · intro s'' hs''
    obtain ⟨s', hs', hts', hocc'⟩ := h'.back s'' hs''
    obtain ⟨s, hs, hts, hocc⟩ := h.back s' hs'
    exact ⟨s, hs, hts'.trans hts, hocc'.trans hocc⟩
  · intro s hs hpos
    obtain ⟨s', hs', hts, hocc, hdam⟩ := h.forth s hs hpos
    obtain ⟨s'', hs'', hts', hocc', hdam'⟩ := h'.forth s' hs' (by omega)
    exact ⟨s'', hs'', hts'.trans hts, hocc'.trans hocc, hdam'.trans hdam⟩

theorem Retains.of_steady (hact : l'.activeTs = l.activeTs)
    (h : Forall₂ Steady l.snapshots l'.snapshots) : Retains l l' := by
  refine ⟨hact, ?_, ?_⟩
  · intro s' hs'
    obtain ⟨s, hs, hsteady⟩ := exists_of_forall₂ (steady_live h) hs'
    exact ⟨s, hs, hsteady.timestamp, hsteady.occupancy⟩
  · intro s hs hpos
    obtain ⟨s', hs', hsteady⟩ := exists_of_forall₂' (steady_live h) hs
    exact ⟨s', hs', hsteady.timestamp, hsteady.occupancy, hsteady.isDamaged hpos⟩

/-- A snapshot of a special type has been on the list with that type, and it stays. -/
structure Typed (l l' : SnapshotsList) : Prop where
  types : ∀ s' ∈ l'.live, s'.type ≠ .regular →
    ∃ s ∈ l.live, s'.timestamp = s.timestamp ∧ s'.type = s.type
  special : ∀ s ∈ l.live, s.type ≠ .regular →
    ∃ s' ∈ l'.live, s'.timestamp = s.timestamp ∧ s'.type = s.type

theorem Typed.of_forall₂
    (h : Forall₂ (fun s s' : Snapshot => s'.timestamp = s.timestamp ∧ s'.type = s.type)
      l.live l'.live) : Typed l l' :=
  ⟨fun _ hs' _ => exists_of_forall₂ h hs', fun _ hs _ => exists_of_forall₂' h hs⟩

theorem Typed.of_live (h : l'.live = l.live) : Typed l l' :=
  .of_forall₂ (h ▸ forall₂_same.2 fun _ _ => ⟨rfl, rfl⟩)

theorem Typed.trans {l'' : SnapshotsList} (h : Typed l l') (h' : Typed l' l'') : Typed l l'' := by
  constructor
  · intro s'' hs'' hspec
    obtain ⟨s', hs', hts', htype'⟩ := h'.types s'' hs'' hspec
    obtain ⟨s, hs, hts, htype⟩ := h.types s' hs' (by rwa [← htype'])
    exact ⟨s, hs, hts'.trans hts, htype'.trans htype⟩
  · intro s hs hspec
    obtain ⟨s', hs', hts, htype⟩ := h.special s hs hspec
    obtain ⟨s'', hs'', hts', htype'⟩ := h'.special s' hs' (by rwa [htype])
    exact ⟨s'', hs'', hts'.trans hts, htype'.trans htype⟩

structure Kept (l l' : SnapshotsList) : Prop extends Retains l l', Typed l l'

theorem Kept.refl (l : SnapshotsList) : Kept l l := ⟨Retains.refl l, Typed.of_live rfl⟩

theorem Kept.trans {l'' : SnapshotsList} (h : Kept l l') (h' : Kept l' l'') : Kept l l'' :=
  ⟨h.toRetains.trans h'.toRetains, h.toTyped.trans h'.toTyped⟩

theorem Kept.of_marked (hact : l'.activeTs = l.activeTs)
    (h : Forall₂ Marked l.snapshots l'.snapshots) : Kept l l' := by
  have hlive : Forall₂ Marked l.live l'.live := forall₂_dropWhile (fun _ _ hs => hs.isFuture) h
  exact ⟨Retains.of_steady hact (h.imp fun _ _ hs => hs.toSteady),
    Typed.of_forall₂ (hlive.imp fun _ _ hs => ⟨hs.timestamp, hs.type⟩)⟩

theorem Discarded.back (h : Discarded l victim r) {s' : Snapshot} (hs' : s' ∈ r.list.live) :
    ∃ s ∈ l.live, bare s = bare s' := by
  obtain ⟨before, after, hlive, hbare⟩ := h.live
  have hmem : bare s' ∈ before.map bare ++ after.map bare := by
    rw [← hbare]
    exact mem_map_of_mem hs'
  rw [← map_append] at hmem
  obtain ⟨s, hs, heq⟩ := mem_map.1 hmem
  refine ⟨s, ?_, heq⟩
  rw [hlive]
  exact ((sublist_cons_self _ _).append_left _).subset hs

theorem Kept.of_bare (hact : l'.activeTs = l.activeTs)
    (hback : ∀ s' ∈ l'.live, ∃ s ∈ l.live, bare s = bare s')
    (hforth : ∀ s ∈ l.live, 0 < s.occupancy ∨ s.type ≠ .regular →
      ∃ s' ∈ l'.live, bare s' = bare s) : Kept l l' := by
  refine ⟨⟨hact, ?_, ?_⟩, ?_, ?_⟩
  · intro s' hs'
    obtain ⟨s, hs, heq⟩ := hback s' hs'
    exact ⟨s, hs, (congrArg timestamp heq.symm :), (congrArg occupancy heq.symm :)⟩
  · intro s hs hpos
    obtain ⟨s', hs', heq⟩ := hforth s hs (.inl hpos)
    exact ⟨s', hs', (congrArg timestamp heq :), (congrArg occupancy heq :),
      (congrArg isDamaged heq :)⟩
  · intro s' hs' _
    obtain ⟨s, hs, heq⟩ := hback s' hs'
    exact ⟨s, hs, (congrArg timestamp heq.symm :), (congrArg type heq.symm :)⟩
  · intro s hs hspec
    obtain ⟨s', hs', heq⟩ := hforth s hs (.inr hspec)
    exact ⟨s', hs', (congrArg timestamp heq :), (congrArg type heq :)⟩

theorem Discarded.kept (h : Discarded l victim r) : Kept l r.list := by
  refine Kept.of_bare h.activeTs (fun s' hs' => h.back hs') fun s hs hneeded => h.mem hs ?_
  rintro rfl
  rw [h.unoccupied] at hneeded
  exact hneeded.elim (lt_irrefl 0) fun hspec => hspec h.regular

/-! ## A new snapshot -/

structure Created (l : SnapshotsList) (ts : Nat) (type : SnapshotType) (l' : SnapshotsList) :
    Prop where
  valid : isValidTimestamp ts = true
  activeTs : l'.activeTs = l.activeTs
  live : ∃ new, l'.live = new :: l.live ∧ new.viewer = ⟨ts, l.activeTs⟩ ∧ new.occupancy = 0 ∧
    new.isDamaged = false
  type : ∀ new, l'.live.head? = some new → new.type = type
  futures : FuturesFirst l'
  slots : List.Forall₂ (fun a b => b.2 = a.2 ∧ (a.1 ≠ invalidTimestamp → b.1 = a.1))
    (slots l) (slots l')
  length : l'.snapshots.length = l.snapshots.length

theorem createSnapshot_spec {ts : Nat} {type : SnapshotType} (hfut : FuturesFirst l)
    (htype : type ≠ .future) (h : createSnapshot l ts type = .ok l') : Created l ts type l' := by
  unfold createSnapshot at h
  split at h
  next => cases h
  next hval =>
  split at h
  next => cases h
  next lastFuture futures hrev =>
  cases h
  have htake : l.snapshots.takeWhile isFuture = futures.reverse ++ [lastFuture] := by
    have := congrArg reverse hrev
    simpa using this
  have hspl : l.snapshots = futures.reverse ++ lastFuture :: l.live := by
    conv_lhs => rw [split_live l, htake]
    simp
  have hfuture : ∀ s ∈ futures.reverse, s ∈ l.snapshots ∧ s.isFuture = true := by
    intro s hs
    have hmem : s ∈ l.snapshots.takeWhile isFuture := by
      rw [htake]
      exact mem_append_left _ hs
    exact ⟨(takeWhile_sublist _).subset hmem, isFuture_takeWhile hmem⟩
  have hlast : lastFuture.timestamp = invalidTimestamp := by
    have hmem : lastFuture ∈ l.snapshots.takeWhile isFuture := by
      rw [htake]
      simp
    exact hfut.timestamp _ ((takeWhile_sublist _).subset hmem)
      (by simpa [isFuture] using isFuture_takeWhile hmem)
  generalize hnew : ({ lastFuture with
    timestamp := ts
    activeTs := l.activeTs
    type := type
    occupancy := 0
    isDamaged := false } : Snapshot) = new
  have hnewFuture : new.isFuture = false := by
    rw [← hnew]
    simp [isFuture, htype]
  have hlive : live
      { l with snapshots := futures.reverse ++ new :: l.live } = new :: l.live := by
    apply live_of_split rfl (fun s hs => (hfuture s hs).2)
    exact forall_mem_cons.2 ⟨hnewFuture, fun s hs => isFuture_live hfut hs⟩
  refine ⟨by simpa using hval, rfl, ⟨new, hlive, ?_, ?_, ?_⟩, ?_, ⟨?_, ?_⟩, ?_, ?_⟩
  · rw [← hnew]
    rfl
  · rw [← hnew]
  · rw [← hnew]
  · intro first hfst
    rw [hlive] at hfst
    cases hfst
    rw [← hnew]
  · rw [hlive]
    exact forall_mem_cons.2 ⟨by simpa [isFuture] using hnewFuture, hfut.live⟩
  · simp only [forall_mem_append, forall_mem_cons]
    refine ⟨fun s hs => hfut.timestamp s (hfuture s hs).1, fun hs' => ?_,
      fun s hs hs' => absurd hs' (hfut.live s hs)⟩
    simp [isFuture, hs'] at hnewFuture
  · unfold slots
    conv => arg 2; rw [hspl]
    rw [map_append, map_append, map_cons, map_cons]
    have hsame : ∀ snapshots : List (Nat × List (List VersionEntry)),
        Forall₂ (fun a b => b.2 = a.2 ∧ (a.1 ≠ invalidTimestamp → b.1 = a.1))
          snapshots snapshots :=
      fun _ => forall₂_same.2 fun _ _ => ⟨rfl, fun _ => rfl⟩
    refine rel_append (hsame _) (.cons ⟨?_, fun hne => absurd hlast hne⟩ (hsame _))
    rw [← hnew]
  · conv_rhs => rw [hspl]
    simp

/-! ## Pushing an entry -/

theorem pushEntry_eq {entry : VersionEntry} {level : Nat} {target : Snapshot}
    {older : List Snapshot} :
    ∀ newer : List Snapshot,
      pushEntry entry level newer.length (newer ++ target :: older) =
        newer ++ { target with gcChain := pushAt entry level target.gcChain } :: older
  | [] => rfl
  | s :: newer => by
    rw [length_cons, cons_append, pushEntry, pushEntry_eq newer]
    rfl

structure Pushed (l : SnapshotsList) (entry : VersionEntry) (anchorTs : Nat)
    (l' : SnapshotsList) : Prop where
  activeTs : l'.activeTs = l.activeTs
  live : l'.live.map bare = l.live.map bare
  futures : FuturesFirst l'
  slots : ∃ before k chain after level,
    slots l = before ++ (k, chain) :: after ∧
    SnapshotChanges.slots l' = before ++ (k, pushAt entry level chain) :: after ∧
    level < chain.length ∧
    ∀ s ∈ l.live, anchorTs ≤ s.timestamp →
      s.timestamp ∈ k :: (before.map Prod.fst).reverse.take level
  length : l'.snapshots.length = l.snapshots.length

theorem pushEntry_spec (h : Ages l) (hfut : FuturesFirst l)
    (htri : Triangular 0 (slots l)) {first : Snapshot} {rest : List Snapshot}
    (hlive : l.live = first :: rest) {anchorTs : Nat} (entry : VersionEntry) {level : Nat}
    (hlevel : level = (rest.takeWhile fun s => decide (anchorTs ≤ s.timestamp)).length) :
    Pushed l entry anchorTs (l.setLive (pushEntry entry level level l.live)) := by
  -- The snapshots down to the target are those the entry belongs to.
  obtain ⟨newer, target, hshared, hlen⟩ : ∃ newer target,
      first :: rest.takeWhile (fun s => decide (anchorTs ≤ s.timestamp)) = newer ++ [target] ∧
        newer.length = level := by
    refine ⟨_, _, (dropLast_append_getLast (cons_ne_nil _ _)).symm, ?_⟩
    rw [length_dropLast, length_cons, hlevel]
    omega
  generalize holder : rest.dropWhile (fun s => decide (anchorTs ≤ s.timestamp)) = older
  have hspl : l.live = newer ++ target :: older := by
    have hrest : rest = rest.takeWhile (fun s => decide (anchorTs ≤ s.timestamp)) ++ older := by
      rw [← holder, takeWhile_append_dropWhile]
    rw [hlive]
    conv_lhs => rw [hrest, ← cons_append, hshared]
    simp
  have hpush : pushEntry entry level level l.live =
      newer ++ { target with gcChain := pushAt entry level target.gcChain } :: older := by
    rw [hspl, ← hlen]
    exact pushEntry_eq newer
  have hold : ∀ s ∈ older, s.timestamp < anchorTs := by
    cases older with
    | nil => simp
    | cons oldest older =>
      have hne : rest.dropWhile (fun s => decide (anchorTs ≤ s.timestamp)) ≠ [] := by
        rw [holder]
        simp
      have hhd := head_dropWhile_not (fun s : Snapshot => decide (anchorTs ≤ s.timestamp)) hne
      simp only [holder, head_cons, decide_eq_false_iff_not, not_le] at hhd
      have hdec := h.decreasing
      rw [hspl, pairwise_append, pairwise_cons, pairwise_cons] at hdec
      exact forall_mem_cons.2
        ⟨hhd, fun s hs => (hdec.2.1.2.1 s hs).trans hhd⟩
  have hnotFuture : ∀ s ∈ newer ++ { target with gcChain := pushAt entry level target.gcChain } ::
      older, s.isFuture = false := by
    have hall : ∀ s ∈ l.live, s.isFuture = false := fun s => isFuture_live hfut
    rw [hspl, forall_mem_append, forall_mem_cons] at hall
    exact forall_mem_append.2 ⟨hall.1, forall_mem_cons.2 hall.2⟩
  rw [hpush]
  refine ⟨rfl, ?_, futuresFirst_setLive hfut hnotFuture, ?_, ?_⟩
  · rw [live_setLive hnotFuture, hspl]
    simp [bare]
  · refine ⟨(l.snapshots.takeWhile isFuture ++ newer).map slot, target.timestamp, target.gcChain,
      older.map slot, level, ?_, ?_, ?_, ?_⟩
    · rw [slots_eq_append, hspl]
      simp [slot]
    · simp [slots_eq, setLive, slot]
    · rw [slots_eq_append, hspl, map_append, ← append_assoc, ← map_append,
        triangular_append] at htri
      have hchn := htri.2.1
      simp only [slot, length_map, length_append, hlen] at hchn
      omega
    · intro s hs hanc
      have hmem : s ∈ newer ++ [target] := by
        rw [hspl] at hs
        rcases mem_append.1 hs with hs | hs
        · exact mem_append_left _ hs
        · rcases mem_cons.1 hs with rfl | hs
          · simp
          · have := hold s hs
            omega
      have htake : (((l.snapshots.takeWhile isFuture ++ newer).map slot).map
          Prod.fst).reverse.take level = (newer.map timestamp).reverse := by
        rw [map_map, map_append, reverse_append]
        exact take_left' (by simp [hlen])
      rw [htake]
      rcases mem_append.1 hmem with hs | hs
      · exact mem_cons_of_mem _ (mem_reverse.2 (mem_map_of_mem hs))
      · rw [mem_singleton.1 hs]
        exact mem_cons_self
  · apply length_setLive
    rw [hspl]
    simp

inductive Submitted (l : SnapshotsList) (req : RequestForGc) (r : Freeing) : Prop
  | rejected (herror : r.error ≠ none) (hlist : r.list = l) (hfrees : r.frees = [])
  | nop (htype : req.type = .nop) (hr : r = ⟨l, [], none⟩)
  | freed (htype : req.type ≠ .nop) (hr : r = ⟨l, [⟨req.xptr, none, l⟩], none⟩)
      (hold : req.type ≠ .discardVersion → ∀ s ∈ l.live, s.timestamp < req.anchorTs)
  | pushed (htype : req.type ≠ .nop) (entry : VersionEntry) (hxptr : entry.xptr = req.xptr)
      (hlist : Pushed l entry req.anchorTs r.list) (hfrees : r.frees = []) (herror : r.error = none)

theorem submitRequest_spec (h : Ages l) (hfut : FuturesFirst l)
    (htri : Triangular 0 (slots l)) (req : RequestForGc) :
    Submitted l req (submitRequest l l.live req) := by
  by_cases hval : validateRequestForGc req = true
  · by_cases htype : req.type = .nop
    · exact .nop htype (by simp [submitRequest, hval, htype])
    · by_cases hdiscard : req.type = .discardVersion
      · exact .freed htype (by simp [submitRequest, hval, hdiscard])
          (fun hne => absurd hdiscard hne)
      · cases hlive : l.live with
        | nil =>
          refine .freed htype ?_ (by simp [hlive])
          cases hreq : req.type <;> simp_all [submitRequest]
        | cons first rest =>
          by_cases hfst : first.timestamp < req.anchorTs
          · refine .freed htype ?_ ?_
            · cases hreq : req.type <;> simp_all [submitRequest]
            · intro _ s hs
              have hdec := h.decreasing
              rw [hlive, pairwise_cons] at hdec
              rw [hlive] at hs
              rcases mem_cons.1 hs with rfl | hs
              · exact hfst
              · exact (hdec.1 s hs).trans hfst
          · generalize hlevel : (rest.takeWhile fun s =>
              decide (req.anchorTs ≤ s.timestamp)).length = level
            generalize hent : ({
              lxptr := if req.type = .addBogusVersion then 0 else req.lxptr
              xptr := req.xptr } : VersionEntry) = entry
            have hr : submitRequest l (first :: rest) req =
                ⟨l.setLive (pushEntry entry level level l.live), [], none⟩ := by
              cases hreq : req.type <;> simp_all [submitRequest]
            rw [hr]
            refine .pushed htype entry (by rw [← hent]) ?_ rfl rfl
            exact pushEntry_spec h hfut htri hlive entry hlevel.symm
  · have hr : submitRequest l l.live req = ⟨l, [], some .badParams⟩ := by
      simp [submitRequest, hval]
    rw [hr]
    exact .rejected (by simp) rfl rfl

theorem entrySnapshots_current : entrySnapshots l l.currentSnapshotTs = l.live := by
  unfold entrySnapshots currentSnapshotTs getCurrentSnapshot
  cases l.live with
  | nil => rfl
  | cons current rest => rw [head?_cons, dropWhile_cons_of_neg (by simp)]

theorem currentSnapshotTs_of_bare (h : l'.live.map bare = l.live.map bare) :
    l'.currentSnapshotTs = l.currentSnapshotTs := by
  unfold currentSnapshotTs getCurrentSnapshot
  cases hlive : l.live with
  | nil =>
    rw [hlive, map_nil, map_eq_nil_iff] at h
    rw [h]
  | cons current rest =>
    obtain ⟨current', rest', hlive', hbare, -⟩ := map_eq_cons_iff.1 (hlive ▸ h)
    rw [hlive']
    exact (congrArg timestamp hbare :)

end Sedna.Wu.SnapshotChanges
