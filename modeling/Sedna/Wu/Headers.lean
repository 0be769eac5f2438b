import Sedna.Library.Lists
import Sedna.Wu.Versions

/-!
# Version headers and who sees what

A viewer sees the first version of a header that is not younger than it.  What
`SnExpandDfvHeader` puts out is this version for every viewer, and the header
composed from it shows every viewer that is not damaged the same version again.
-/

namespace Sedna.Wu.Headers

open Library.Lists Snapshots Versions List Snapshot SnapshotsList VersionSlot

def visible (v : Viewer) (ts : Nat) : Bool := !isVersionYoungerThanSnapshot v ts

def resolve (v : Viewer) (header : List VersionSlot) : Option VersionSlot :=
  header.find? fun slot => visible v slot.creatorTs

/-- What the first viewer does not see, the second does not see either. -/
def Newer (v w : Viewer) : Prop := ∀ ts, visible w ts = true → visible v ts = true

variable {v w : Viewer} {ts i : Nat} {header : List VersionSlot} {slot : VersionSlot}
  {tsIn : List Nat} {entry : Nat × Nat} {l : SnapshotsList} {s : Snapshot} {out : List (Nat × Nat)}

theorem visible_iff : visible v ts = true ↔ ts ≤ v.timestamp ∧ ts ∉ v.activeTs := by
  simp [visible, isVersionYoungerThanSnapshot]

theorem resolve_visible (h : resolve v header = some slot) : visible v slot.creatorTs = true := by
  have hslot := find?_some h
  exact hslot

theorem resolve_cons_of_visible (h : visible v slot.creatorTs = true) :
    resolve v (slot :: header) = some slot := by
  simp [resolve, h]

theorem resolve_cons_of_not_visible (h : visible v slot.creatorTs = false) :
    resolve v (slot :: header) = resolve v header := by
  simp [resolve, h]

/-! ## Expanding a header -/

def visibleIdx (v : Viewer) (tsIn : List Nat) : Option Nat := tsIn.findIdx? (visible v)

def seenBy (tsIn : List Nat) (pos : Nat) (v : Viewer) : Option (Nat × Nat) :=
  (visibleIdx v tsIn).map fun i => (v.timestamp, pos + i)

theorem visibleIdx_eq_none_iff : visibleIdx v tsIn = none ↔ ∀ ts ∈ tsIn, visible v ts = false :=
  findIdx?_eq_none_iff

theorem visibleIdx_skip {skipped : List Nat} (hskip : ∀ ts ∈ skipped, visible w ts = false) :
    visibleIdx w (skipped ++ tsIn) = (visibleIdx w tsIn).map (skipped.length + ·) := by
  unfold visibleIdx
  rw [findIdx?_append, findIdx?_eq_none_iff.2 hskip, Option.none_or]
  simp only [Nat.add_comm]

theorem Newer.not_visible (h : Newer v w) (hv : visible v ts = false) : visible w ts = false := by
  by_contra hw
  rw [Bool.not_eq_false] at hw
  rw [h ts hw] at hv
  cases hv

theorem matchVersions_eq {viewers : List Viewer} (hages : viewers.Pairwise Newer) {pos : Nat}
    (hval : ∀ ts ∈ tsIn, isValidTimestamp ts = true) :
    matchVersions viewers pos tsIn = .ok (viewers.filterMap (seenBy tsIn pos)) := by
  induction viewers generalizing pos tsIn with
  | nil => rfl
  | cons v viewers ih =>
    obtain ⟨hv, hages⟩ := pairwise_cons.1 hages
    generalize hyoung : (fun ts => isValidTimestamp ts && isVersionYoungerThanSnapshot v ts) = young
    have hspl : tsIn.takeWhile young ++ tsIn.dropWhile young = tsIn := takeWhile_append_dropWhile
    have hdrop : tsIn.drop (tsIn.takeWhile young).length = tsIn.dropWhile young := by
      conv_lhs => arg 2; rw [← hspl]
      exact drop_left
    have hskip : ∀ ts ∈ tsIn.takeWhile young, visible v ts = false := by
      intro ts hts
      have hts := mem_takeWhile_imp hts
      simp only [← hyoung, Bool.and_eq_true] at hts
      simp [visible, hts.2]
    simp only [matchVersions, hyoung, hdrop]
    cases hrest : tsIn.dropWhile young with
    | nil =>
      rw [hrest, append_nil] at hspl
      rw [hspl] at hskip
      -- A version that the newest viewer does not see is seen by none.
      have hnone : ∀ w ∈ v :: viewers, seenBy tsIn pos w = none := by
        intro w hw
        unfold seenBy
        rw [visibleIdx_eq_none_iff.2, Option.map_none]
        intro ts hts
        rcases mem_cons.1 hw with rfl | hw
        · exact hskip ts hts
        · exact (hv w hw).not_visible (hskip ts hts)
      simp [filterMap_eq_nil_iff.2 hnone]
    | cons ts rest =>
      have hts : ts ∈ tsIn := by
        rw [← hspl, hrest]
        simp
      have hvis : visible v ts = true := by
        have hnot : young ts = false := by
          have := head_dropWhile_not young (by rw [hrest]; simp)
          simpa [hrest] using this
        simpa [← hyoung, hval ts hts, visible] using hnot
      have hne : ts ≠ invalidTimestamp := by
        rintro rfl
        exact absurd (hval _ hts) (by decide)
      have hidx : visibleIdx v tsIn = some (tsIn.takeWhile young).length := by
        conv_lhs => rw [← hspl, visibleIdx_skip hskip, hrest]
        simp [visibleIdx, findIdx?_cons, hvis]
      have hval' : ∀ t ∈ ts :: rest, isValidTimestamp t = true := fun t ht =>
        hval t (by rw [← hspl, hrest]; exact mem_append_right _ ht)
      have hsame : viewers.filterMap (seenBy (ts :: rest) (pos + (tsIn.takeWhile young).length)) =
          viewers.filterMap (seenBy tsIn pos) := by
        apply filterMap_congr
        intro w hw
        unfold seenBy
        conv_rhs => rw [← hspl, visibleIdx_skip fun t ht =>
          (hv w hw).not_visible (hskip t ht), hrest]
        rw [Option.map_map]
        congr 1
        funext i
        simp [add_assoc]
      simp only [ih hages hval', hsame]
      simp [hne, hval ts hts, seenBy, hidx]

theorem seenBy_eq_some_iff {pos : Nat} :
    seenBy tsIn pos v = some entry ↔
      ∃ i, visibleIdx v tsIn = some i ∧ entry = (v.timestamp, pos + i) := by
  unfold seenBy
  rw [Option.map_eq_some_iff]
  exact exists_congr fun i => and_congr_right fun _ => eq_comm

theorem Newer.visibleIdx_le (h : Newer v w) {j : Nat} (hv : visibleIdx v tsIn = some i)
    (hw : visibleIdx w tsIn = some j) : i ≤ j := by
  obtain ⟨hi, -, hbef⟩ := findIdx?_eq_some_iff_getElem.1 hv
  obtain ⟨hj, hvis, -⟩ := findIdx?_eq_some_iff_getElem.1 hw
  by_contra hlt
  exact absurd (h _ hvis) (hbef j (by omega))

theorem Newer.visibleIdx_ne_none (h : Newer v w) (hw : visibleIdx w tsIn ≠ none) :
    visibleIdx v tsIn ≠ none := by
  intro hv
  apply hw
  rw [visibleIdx_eq_none_iff] at hv ⊢
  exact fun ts hts => h.not_visible (hv ts hts)

theorem resolve_of_visibleIdx (h : visibleIdx v (header.map creatorTs) = some i) :
    ∃ hi : i < header.length, resolve v header = some header[i] := by
  obtain ⟨hi, hvis, hbef⟩ := findIdx?_eq_some_iff_getElem.1 h
  rw [length_map] at hi
  refine ⟨hi, find?_eq_some_iff_getElem.2 ⟨by simpa using hvis, i, hi, rfl, ?_⟩⟩
  intro j hj
  simpa using hbef j hj

theorem visibleIdx_ne_none_of_resolve (h : resolve v header = some slot) :
    visibleIdx v (header.map creatorTs) ≠ none := by
  intro hnone
  have hslot := visibleIdx_eq_none_iff.1 hnone slot.creatorTs
    (mem_map_of_mem (mem_of_find?_eq_some h))
  rw [resolve_visible h] at hslot
  cases hslot

/-! ## The list of viewers -/

structure Ages (l : SnapshotsList) : Prop where
  newer : l.viewers.Pairwise Newer
  decreasing : l.live.Pairwise fun s s' => s'.timestamp < s.timestamp
  valid : ∀ s ∈ l.live, isValidTimestamp s.timestamp = true
  length : l.live.length ≤ snapshotsCount

theorem Ages.nodup (h : Ages l) : (l.live.map timestamp).Nodup := by
  rw [List.Nodup, pairwise_map]
  exact h.decreasing.imp fun hlt => (ne_of_lt hlt).symm

theorem Ages.eq_of_timestamp (h : Ages l) {s' : Snapshot} (hs : s ∈ l.live) (hs' : s' ∈ l.live)
    (hts : s.timestamp = s'.timestamp) : s = s' :=
  inj_on_of_nodup_map h.nodup hs hs' hts

theorem isValidTimestamp_iff :
    isValidTimestamp ts = true ↔ timestampMin ≤ ts ∧ ts ≤ timestampMax := by
  simp [isValidTimestamp]

def matched (l : SnapshotsList) (tsIn : List Nat) : List (Nat × Nat) :=
  l.viewers.filterMap (seenBy tsIn 0)

def matchedLive (l : SnapshotsList) (tsIn : List Nat) : List (Nat × Nat) :=
  (l.live.map Snapshot.viewer).filterMap (seenBy tsIn 0)

def expanded (l : SnapshotsList) (tsIn : List Nat) : List (Nat × Nat) :=
  if visible l.fakeHeadSnapshot (tsIn.headD 0) then matched l tsIn
  else (workingVersionTimestamp, 0) :: matched l tsIn

section

variable {l : SnapshotsList} {tsIn : List Nat}

theorem mem_matchedLive :
    entry ∈ matchedLive l tsIn ↔
      ∃ s ∈ l.live, visibleIdx s.viewer tsIn = some entry.2 ∧ entry.1 = s.timestamp := by
  simp only [matchedLive, mem_filterMap, mem_map, exists_exists_and_eq_and,
    seenBy_eq_some_iff, zero_add]
  refine exists_congr fun s => and_congr_right fun _ => ?_
  simp [Prod.ext_iff, and_comm, Snapshot.viewer]

theorem Ages.matchedLive_decreasing (h : Ages l) :
    (matchedLive l tsIn).Pairwise fun a b => b.1 < a.1 := by
  unfold matchedLive
  rw [pairwise_filterMap, pairwise_map]
  refine h.decreasing.imp fun hlt a ha b hb => ?_
  obtain ⟨i, -, rfl⟩ := seenBy_eq_some_iff.1 ha
  obtain ⟨j, -, rfl⟩ := seenBy_eq_some_iff.1 hb
  exact hlt

theorem Ages.matched_ids (h : Ages l) : (matched l tsIn).Pairwise fun a b => a.2 ≤ b.2 := by
  unfold matched
  rw [pairwise_filterMap]
  refine h.newer.imp fun hnewer a ha b hb => ?_
  obtain ⟨i, hi, rfl⟩ := seenBy_eq_some_iff.1 ha
  obtain ⟨j, hj, rfl⟩ := seenBy_eq_some_iff.1 hb
  simpa using hnewer.visibleIdx_le hi hj

theorem matched_of_some (h : visibleIdx l.fakeHeadSnapshot tsIn = some i) :
    matched l tsIn = (lastCommitedVersionTimestamp, i) :: matchedLive l tsIn := by
  have hhd : seenBy tsIn 0 l.fakeHeadSnapshot = some (lastCommitedVersionTimestamp, i) :=
    seenBy_eq_some_iff.2 ⟨i, h, by rw [zero_add]; rfl⟩
  rw [matched, viewers, filterMap_cons, hhd]
  rfl

theorem Ages.length_expanded (h : Ages l) : (expanded l tsIn).length ≤ 5 := by
  have hviewers : (matched l tsIn).length ≤ l.live.length + 1 := by
    refine (length_filterMap_le _ _).trans ?_
    simp [viewers]
  have hlen : l.live.length ≤ 3 := h.length
  unfold expanded
  split
  · omega
  · rw [length_cons]
    omega

theorem Ages.expandDfvHeader (h : Ages l) (hne : tsIn ≠ [])
    (hval : ∀ ts ∈ tsIn, isValidTimestamp ts = true) (isTotalAnchor : Bool) :
    expandDfvHeader l tsIn isTotalAnchor =
      .ok (expanded l tsIn,
        if isTotalAnchor then totalAnchorOf l (expanded l tsIn)
        else anchorOf l (expanded l tsIn)) := by
  cases tsIn with
  | nil => exact absurd rfl hne
  | cons head tsIn =>
    have hhd : isValidTimestamp head = true := hval head (by simp)
    have hinvalid : head ≠ invalidTimestamp := by
      rintro rfl
      exact absurd hhd (by decide)
    have hout : (if isVersionYoungerThanSnapshot l.fakeHeadSnapshot head then
          (workingVersionTimestamp, 0) :: matched l (head :: tsIn)
        else matched l (head :: tsIn)) = expanded l (head :: tsIn) := by
      unfold expanded visible
      rw [headD_cons]
      cases isVersionYoungerThanSnapshot l.fakeHeadSnapshot head <;> rfl
    have hlen : ¬ expandBufferSize < (expanded l (head :: tsIn)).length := by
      have hfive : (expanded l (head :: tsIn)).length ≤ 5 := h.length_expanded
      unfold expandBufferSize
      omega
    have hmatched : matchVersions l.viewers 0 (head :: tsIn) = .ok (matched l (head :: tsIn)) :=
      matchVersions_eq h.newer hval
    unfold Snapshots.expandDfvHeader
    simp only [hmatched, hout]
    simp [hinvalid, hhd, hlen]

/-! ## Anchors -/

theorem getLast_le (hdec : out.Pairwise fun a b => b.1 < a.1) (hne : out ≠ [])
    (hent : entry ∈ out) : (out.getLast hne).1 ≤ entry.1 := by
  have hle := hdec.imp (S := fun a b : Nat × Nat => b.1 ≤ a.1) Nat.le_of_lt
  exact hle.rel_getLast_of_rel_getLast_getLast hent le_rfl

theorem anchorOf_cons {rest : List (Nat × Nat)} (hmax : ∀ entry ∈ rest, entry.1 ≤ timestampMax)
    (hdec : rest.Pairwise fun a b => b.1 < a.1) (hids : rest.Pairwise fun a b => a.2 ≤ b.2)
    (hi : ∀ entry ∈ rest, i ≤ entry.2) :
    (∀ entry ∈ rest, entry.2 = i →
        anchorOf l ((lastCommitedVersionTimestamp, i) :: rest) ≤ entry.1) ∧
      (anchorOf l ((lastCommitedVersionTimestamp, i) :: rest) = (l.currentSnapshotTs + 1) % 2 ^ 64 ∨
        ∃ entry ∈ rest, anchorOf l ((lastCommitedVersionTimestamp, i) :: rest) = entry.1) := by
  have hdrop : ((lastCommitedVersionTimestamp, i) :: rest).dropWhile
      (fun entry => decide (entry.1 ≠ lastCommitedVersionTimestamp)) =
        (lastCommitedVersionTimestamp, i) :: rest := by
    simp
  simp only [anchorOf, hdrop]
  have hmem : ∀ entry ∈ rest, entry.2 = i →
      entry ∈ rest.takeWhile fun entry => decide (entry.2 = i) := by
    intro entry hent heq
    rw [takeWhile_eq_filter (hids.imp_of_mem fun {a b} ha _ hab hb => ?_)]
    · simp [hent, heq]
    · have := hi a ha
      simp only [decide_eq_true_eq] at hb ⊢
      omega
  have hsub := takeWhile_sublist (fun entry : Nat × Nat => decide (entry.2 = i)) (l := rest)
  generalize rest.takeWhile (fun entry => decide (entry.2 = i)) = shared at hmem hsub
  cases shared with
  | nil =>
    refine ⟨fun entry hent heq => ?_, .inl (if_pos rfl)⟩
    exact absurd (hmem entry hent heq) not_mem_nil
  | cons first shared =>
    have hlast := getLast_mem (cons_ne_nil first shared)
    have hlc : ((first :: shared).getLast (by simp)).1 ≠ lastCommitedVersionTimestamp := by
      have := hmax _ (hsub.subset hlast)
      unfold lastCommitedVersionTimestamp
      omega
    rw [getLastD_eq_getLast?, getLast?_eq_some_getLast (by simp), Option.getD_some, if_neg hlc]
    refine ⟨fun entry hent heq => ?_, .inr ⟨_, hsub.subset hlast, rfl⟩⟩
    exact getLast_le (hdec.sublist hsub) _ (hmem entry hent heq)

theorem matchedLive_le_max (h : Ages l) (hent : entry ∈ matchedLive l tsIn) :
    entry.1 ≤ timestampMax := by
  obtain ⟨s, hs, -, hts⟩ := mem_matchedLive.1 hent
  rw [hts]
  exact (isValidTimestamp_iff.1 (h.valid s hs)).2

theorem anchorOf_expanded : anchorOf l (expanded l tsIn) = anchorOf l (matched l tsIn) := by
  have hne : workingVersionTimestamp ≠ lastCommitedVersionTimestamp := by decide
  unfold expanded
  split
  · rfl
  · simp [anchorOf, hne]

theorem succ_currentSnapshotTs_le {bound : Nat} (hbound : ∀ s ∈ l.live, s.timestamp < bound) :
    (l.currentSnapshotTs + 1) % 2 ^ 64 ≤ bound := by
  unfold currentSnapshotTs getCurrentSnapshot
  cases hlive : l.live with
  | nil => exact Nat.zero_le _
  | cons current rest =>
    have hcurrent := hbound current (by simp [hlive])
    exact (Nat.mod_le _ _).trans hcurrent

section

variable (h : Ages l)
include h

theorem Ages.anchorOf_spec (hi : visibleIdx l.fakeHeadSnapshot tsIn = some i) :
    (∀ entry ∈ matchedLive l tsIn, entry.2 = i → anchorOf l (expanded l tsIn) ≤ entry.1) ∧
      (anchorOf l (expanded l tsIn) = (l.currentSnapshotTs + 1) % 2 ^ 64 ∨
        ∃ entry ∈ matchedLive l tsIn, anchorOf l (expanded l tsIn) = entry.1) := by
  have hids : (matched l tsIn).Pairwise fun a b => a.2 ≤ b.2 := h.matched_ids
  rw [anchorOf_expanded]
  rw [matched_of_some hi] at hids ⊢
  obtain ⟨hfst, hrest⟩ := pairwise_cons.1 hids
  exact anchorOf_cons (fun _ => matchedLive_le_max h) h.matchedLive_decreasing hrest hfst

theorem Ages.anchorOf_le_bound {bound : Nat} (hbound : ∀ s ∈ l.live, s.timestamp < bound)
    (hseen : visibleIdx l.fakeHeadSnapshot tsIn ≠ none) : anchorOf l (expanded l tsIn) ≤ bound := by
  obtain ⟨i, hi⟩ := Option.ne_none_iff_exists'.1 hseen
  have hanc := h.anchorOf_spec hi
  rcases hanc.2 with heq | ⟨entry, hent, heq⟩
  · rw [heq]
    exact succ_currentSnapshotTs_le hbound
  · obtain ⟨s, hs, -, hts⟩ := mem_matchedLive.1 hent
    rw [heq, hts]
    exact (hbound s hs).le

theorem totalAnchorOf_expanded (hi : visibleIdx l.fakeHeadSnapshot tsIn = some i) :
    (matchedLive l tsIn = [] ∧ totalAnchorOf l (expanded l tsIn) = anchorOf l (expanded l tsIn)) ∨
      ∃ hne : matchedLive l tsIn ≠ [],
        totalAnchorOf l (expanded l tsIn) = ((matchedLive l tsIn).getLast hne).1 := by
  have hlast : (expanded l tsIn).getLast? =
      ((lastCommitedVersionTimestamp, i) :: matchedLive l tsIn).getLast? := by
    unfold expanded
    rw [matched_of_some hi]
    split
    · rfl
    · rw [getLast?_cons_cons]
  unfold totalAnchorOf
  rw [hlast]
  cases hmatched : matchedLive l tsIn with
  | nil => exact .inl ⟨rfl, by simp⟩
  | cons first rest =>
    refine .inr ⟨by simp, ?_⟩
    have hmem : (first :: rest).getLast (by simp) ∈ matchedLive l tsIn := by
      rw [hmatched]
      exact getLast_mem _
    have hmax := matchedLive_le_max h hmem
    apply if_pos
    unfold lastCommitedVersionTimestamp workingVersionTimestamp
    omega

theorem Ages.totalAnchorOf_le (hs : s ∈ l.live) (hseen : visibleIdx s.viewer tsIn ≠ none) :
    totalAnchorOf l (expanded l tsIn) ≤ s.timestamp := by
  have hhd := (pairwise_cons.1 h.newer).1 s.viewer (mem_map_of_mem hs)
  obtain ⟨i, hi⟩ := Option.ne_none_iff_exists'.1 (hhd.visibleIdx_ne_none hseen)
  obtain ⟨j, hj⟩ := Option.ne_none_iff_exists'.1 hseen
  have hmem : (s.timestamp, j) ∈ matchedLive l tsIn := mem_matchedLive.2 ⟨s, hs, hj, rfl⟩
  rcases totalAnchorOf_expanded h hi with ⟨hnil, -⟩ | ⟨hne, heq⟩
  · rw [hnil] at hmem
    exact absurd hmem not_mem_nil
  · rw [heq]
    exact getLast_le h.matchedLive_decreasing hne hmem

theorem Ages.totalAnchorOf_le_bound {bound : Nat} (hbound : ∀ s ∈ l.live, s.timestamp < bound)
    (hseen : visibleIdx l.fakeHeadSnapshot tsIn ≠ none) :
    totalAnchorOf l (expanded l tsIn) ≤ bound := by
  obtain ⟨i, hi⟩ := Option.ne_none_iff_exists'.1 hseen
  rcases totalAnchorOf_expanded h hi with ⟨-, heq⟩ | ⟨hne, heq⟩
  · rw [heq]
    exact h.anchorOf_le_bound hbound hseen
  · obtain ⟨s, hs, -, hts⟩ := mem_matchedLive.1 (getLast_mem hne)
    rw [heq, hts]
    exact (hbound s hs).le

end

end

/-! ## Composing a header -/

theorem getSnapshotByTimestamp_eq_some {snapshots before after : List Snapshot}
    (h : getSnapshotByTimestamp ts snapshots = some (before, s, after)) :
    snapshots = before ++ s :: after ∧ s.timestamp = ts := by
  induction snapshots generalizing before with
  | nil => cases h
  | cons first rest ih =>
    unfold getSnapshotByTimestamp at h
    split at h
    next hfst =>
      cases h
      exact ⟨rfl, hfst⟩
    next =>
      rw [Option.map_eq_some_iff] at h
      obtain ⟨⟨before', s', after'⟩, hcut, heq⟩ := h
      cases heq
      obtain ⟨hrest, hts⟩ := ih hcut
      exact ⟨by rw [hrest]; rfl, hts⟩

theorem getSnapshotByTimestamp_ne_none {snapshots : List Snapshot} (hs : s ∈ snapshots)
    (hts : s.timestamp = ts) : getSnapshotByTimestamp ts snapshots ≠ none := by
  induction snapshots with
  | nil => exact absurd hs not_mem_nil
  | cons first rest ih =>
    unfold getSnapshotByTimestamp
    split
    next => simp
    next hfst =>
      rw [ne_eq, Option.map_eq_none_iff]
      rcases mem_cons.1 hs with rfl | hs
      · exact absurd hts hfst
      · exact ih hs

structure FuturesFirst (l : SnapshotsList) : Prop where
  live : ∀ s ∈ l.live, s.type ≠ .future
  timestamp : ∀ s ∈ l.snapshots, s.type = .future → s.timestamp = invalidTimestamp

theorem mem_live_of_valid (h : FuturesFirst l) (hs : s ∈ l.snapshots)
    (hval : isValidTimestamp s.timestamp = true) : s ∈ l.live := by
  have hspl : l.snapshots.takeWhile isFuture ++ l.live = l.snapshots := takeWhile_append_dropWhile
  rw [← hspl] at hs
  rcases mem_append.1 hs with hs' | hs'
  · have hfut := mem_takeWhile_imp hs'
    have hts := h.timestamp s (by rw [← hspl]; exact hs) (by simpa [isFuture] using hfut)
    rw [hts] at hval
    exact absurd hval (by decide)
  · exact hs'

theorem getSnapshotByTimestamp_live (h : Ages l) (hfut : FuturesFirst l) (hs : s ∈ l.live) :
    ∃ before after, getSnapshotByTimestamp s.timestamp l.snapshots = some (before, s, after) ∧
      l.snapshots = before ++ s :: after := by
  obtain ⟨⟨before, s', after⟩, hcut⟩ := Option.ne_none_iff_exists'.1
    (getSnapshotByTimestamp_ne_none ((dropWhile_sublist _).subset hs) rfl)
  obtain ⟨hspl, hts⟩ := getSnapshotByTimestamp_eq_some hcut
  have hs' : s' ∈ l.live := by
    apply mem_live_of_valid hfut
    · rw [hspl]
      simp
    · rw [hts]
      exact h.valid s hs
  cases h.eq_of_timestamp hs' hs hts
  exact ⟨before, after, hcut, hspl⟩

def IsDamagedEntry (l : SnapshotsList) (entry : Nat × Nat) : Prop :=
  ∃ s ∈ l.live, entry.1 = s.timestamp ∧ s.isDamaged = true

def IsEntry (l : SnapshotsList) (entry : Nat × Nat) : Prop :=
  entry.1 = lastCommitedVersionTimestamp ∨ ∃ s ∈ l.live, entry.1 = s.timestamp

def refersToDamaged (l : SnapshotsList) (entry : Nat × Nat) : Bool :=
  entry.1 ≠ workingVersionTimestamp ∧ entry.1 ≠ lastCommitedVersionTimestamp ∧
    ∃ cut ∈ getSnapshotByTimestamp entry.1 l.snapshots, cut.2.1.isDamaged = true

def RefersToSnapshot (l : SnapshotsList) (entry : Nat × Nat) : Prop :=
  entry.1 = workingVersionTimestamp ∨ entry.1 = lastCommitedVersionTimestamp ∨
    getSnapshotByTimestamp entry.1 l.snapshots ≠ none

theorem filterOutDamaged_kept {rest : List (Nat × Nat)} (hent : RefersToSnapshot l entry)
    (hkept : refersToDamaged l entry = false) :
    filterOutDamaged l (entry :: rest) = (filterOutDamaged l rest).map (entry :: ·) := by
  by_cases hw : entry.1 = workingVersionTimestamp
  · cases rest <;> simp [filterOutDamaged, hw]
  by_cases hlc : entry.1 = lastCommitedVersionTimestamp
  · cases rest <;> simp [filterOutDamaged, hlc]
  cases hcut : getSnapshotByTimestamp entry.1 l.snapshots with
  | none => simp [RefersToSnapshot, hw, hlc, hcut] at hent
  | some cut =>
    have hdam : cut.2.1.isDamaged = false := by
      simpa [refersToDamaged, hw, hlc, hcut] using hkept
    cases rest <;> simp [filterOutDamaged, hcut, hdam]

theorem filterOutDamaged_removed (hdam : refersToDamaged l entry = true)
    (next : Nat × Nat) (rest : List (Nat × Nat)) :
    filterOutDamaged l [entry] = .ok [] ∧
      filterOutDamaged l (entry :: next :: rest) = (filterOutDamaged l rest).map (next :: ·) := by
  obtain ⟨hw, hlc, cut, hcut, hd⟩ := of_decide_eq_true hdam
  simp only [Option.mem_def] at hcut
  simp [filterOutDamaged, hw, hlc, hcut, hd]

theorem IsEntry.refersTo (h : Ages l) (hfut : FuturesFirst l) (hent : IsEntry l entry) :
    RefersToSnapshot l entry ∧ (refersToDamaged l entry = true ↔ IsDamagedEntry l entry) := by
  have hspec : ∀ s ∈ l.live, s.timestamp ≠ workingVersionTimestamp ∧
      s.timestamp ≠ lastCommitedVersionTimestamp := by
    intro s hs
    have hmax := (isValidTimestamp_iff.1 (h.valid s hs)).2
    unfold workingVersionTimestamp lastCommitedVersionTimestamp
    omega
  rcases hent with hlc | ⟨s, hs, hts⟩
  · have hnot : ¬ IsDamagedEntry l entry := by
      rintro ⟨s, hs, hts, -⟩
      exact (hspec s hs).2 (by rw [← hts, hlc])
    exact ⟨.inr (.inl hlc), by simp [refersToDamaged, hlc, hnot]⟩
  · obtain ⟨before, after, hcut, -⟩ := getSnapshotByTimestamp_live h hfut hs
    have hsame : IsDamagedEntry l entry ↔ s.isDamaged = true := by
      constructor
      · rintro ⟨s', hs', hts', hdam⟩
        rwa [h.eq_of_timestamp hs hs' (hts.symm.trans hts')]
      · exact fun hdam => ⟨s, hs, hts, hdam⟩
    rw [hsame]
    simp [RefersToSnapshot, refersToDamaged, hts, hspec s hs, hcut]

theorem filterOutDamaged_spec (h : Ages l) (hfut : FuturesFirst l) :
    ∀ {out : List (Nat × Nat)}, (∀ entry ∈ out, IsEntry l entry) →
      ∃ out', filterOutDamaged l out = .ok out' ∧ out'.Sublist out ∧
        (∀ entry ∈ out, ¬ IsDamagedEntry l entry → entry ∈ out') ∧
        ((∃ entry ∈ out, IsDamagedEntry l entry) → out'.length < out.length)
  | [], _ => ⟨[], rfl, List.Sublist.refl _, by simp, by simp⟩
  | entry :: rest, hout => by
    rw [forall_mem_cons] at hout
    obtain ⟨hrefers, hiff⟩ := hout.1.refersTo h hfut
    cases hdamaged : refersToDamaged l entry with
    | false =>
      obtain ⟨out', hok, hsub, hall, hlen⟩ := filterOutDamaged_spec h hfut hout.2
      refine ⟨entry :: out', by rw [filterOutDamaged_kept hrefers hdamaged, hok]; rfl,
        hsub.cons_cons entry, ?_, ?_⟩
      · intro e he hne
        rcases mem_cons.1 he with rfl | he
        · exact mem_cons_self
        · exact mem_cons_of_mem _ (hall e he hne)
      · rintro ⟨e, he, hdam⟩
        rcases mem_cons.1 he with rfl | he
        · simp [hiff.2 hdam] at hdamaged
        · simpa using hlen ⟨e, he, hdam⟩
    | true =>
      cases rest with
      | nil =>
        refine ⟨[], (filterOutDamaged_removed hdamaged entry []).1, nil_sublist _, ?_, by simp⟩
        intro e he hne
        rw [mem_singleton] at he
        exact absurd (he ▸ hiff.1 hdamaged) hne
      | cons next rest =>
        rw [forall_mem_cons] at hout
        obtain ⟨out', hok, hsub, hall, -⟩ := filterOutDamaged_spec h hfut hout.2.2
        refine ⟨next :: out', by rw [(filterOutDamaged_removed hdamaged next rest).2, hok]; rfl,
          (hsub.cons_cons next).cons entry, ?_, ?_⟩
        · intro e he hne
          rcases mem_cons.1 he with rfl | he
          · exact absurd (hiff.1 hdamaged) hne
          · rcases mem_cons.1 he with rfl | he
            · exact mem_cons_self
            · exact mem_cons_of_mem _ (hall e he hne)
        · intro _
          have hle := hsub.length_le
          simp only [length_cons]
          omega

theorem copyUnique_spec :
    ∀ {out : List (Nat × Nat)} {p room : Nat}, out.Pairwise (fun a b => a.2 ≤ b.2) →
      (∀ entry ∈ out, p ≤ entry.2 ∧ entry.2 < header.length) → out.length ≤ room →
      (copyUnique header out (some p) room).2 = [] ∧
        (copyUnique header out (some p) room).1.Sublist (header.drop (p + 1)) ∧
        (copyUnique header out (some p) room).1.length ≤ out.length ∧
        ∀ entry ∈ out, entry.2 = p ∨
          ∃ slot ∈ (copyUnique header out (some p) room).1, header[entry.2]? = some slot
  | [], p, room, _, _, _ => by
    cases room <;> simp [copyUnique]
  | entry :: out, p, 0, _, _, hroom => by simp at hroom
  | (ts, id) :: out, p, room + 1, hids, hbnd, hroom => by
    obtain ⟨hfst, hids⟩ := pairwise_cons.1 hids
    rw [forall_mem_cons] at hbnd
    obtain ⟨⟨hp, hlen⟩, hbnd⟩ := hbnd
    rw [length_cons] at hroom
    by_cases hid : id = p
    · subst hid
      obtain ⟨hrest, hsub, hle, hall⟩ :=
        copyUnique_spec hids hbnd (show out.length ≤ room + 1 by omega)
      simp only [copyUnique, ne_eq, not_true_eq_false, if_false]
      refine ⟨hrest, hsub, hle.trans (by simp), ?_⟩
      intro entry hent
      rcases mem_cons.1 hent with rfl | hent
      · exact .inl rfl
      · exact hall entry hent
    · have hne : some id ≠ some p := by simpa using hid
      obtain ⟨hrest, hsub, hle, hall⟩ := copyUnique_spec hids
        (fun e he => ⟨hfst e he, (hbnd e he).2⟩) (show out.length ≤ room by omega)
      have hslot : header.getD id ⟨0, invalidTimestamp⟩ = header[id] := by
        rw [getD_eq_getElem _ _ hlen]
      simp only [copyUnique, if_pos hne, hslot]
      refine ⟨hrest, ?_, by simpa using hle, ?_⟩
      · have hdrop : header.drop id = header[id] :: header.drop (id + 1) :=
          drop_eq_getElem_cons hlen
        refine (hsub.cons_cons header[id]).trans ?_
        rw [← hdrop]
        have hpid : p + 1 ≤ id := by simp only at hp; omega
        exact drop_sublist_drop_left header hpid
      · intro entry hent
        rcases mem_cons.1 hent with rfl | hent
        · exact .inr ⟨header[id], mem_cons_self, getElem?_eq_getElem hlen⟩
        · rcases hall entry hent with heq | ⟨slot, hslot, heq⟩
          · right
            refine ⟨header[id], mem_cons_self, ?_⟩
            rw [heq]
            exact getElem?_eq_getElem hlen
          · exact .inr ⟨slot, mem_cons_of_mem _ hslot, heq⟩

theorem find?_of_sublist {α : Type*} {p : α → Bool} {slots slots' : List α} {slot : α}
    (hsub : slots'.Sublist slots) (hnd : slots.Nodup) (hfind : slots.find? p = some slot)
    (hmem : slot ∈ slots') : slots'.find? p = some slot := by
  have hslot : slot ∈ slots'.filter p := mem_filter.2 ⟨hmem, find?_some hfind⟩
  rw [← head?_filter] at hfind ⊢
  obtain ⟨more, hmore⟩ := head?_eq_some_iff.1 hfind
  have hfilter := hsub.filter p
  have hnd := hnd.filter p
  rw [hmore] at hfilter hnd
  rcases sublist_cons_iff.1 hfilter with h | ⟨rest, hrest, -⟩
  · exact absurd (h.subset hslot) (nodup_cons.1 hnd).1
  · rw [hrest, head?_cons]

section

variable {l : SnapshotsList} {tsIn : List Nat}

def FewUndamaged (l : SnapshotsList) : Prop :=
  (l.live.filter fun s => !s.isDamaged).length ≤ snapshotsCount - 1

theorem isEntry_matchedLive (hent : entry ∈ matchedLive l tsIn) : IsEntry l entry := by
  obtain ⟨s, hs, -, hts⟩ := mem_matchedLive.1 hent
  exact .inr ⟨s, hs, hts⟩

theorem length_filtered_le (h : Ages l) (hfew : FewUndamaged l)
    (hsub : out.Sublist (matchedLive l tsIn))
    (hlen : (∃ entry ∈ matchedLive l tsIn, IsDamagedEntry l entry) →
      out.length < (matchedLive l tsIn).length) : out.length ≤ 2 := by
  by_cases hdam : ∃ entry ∈ matchedLive l tsIn, IsDamagedEntry l entry
  · have hmatched : (matchedLive l tsIn).length ≤ l.live.length := by
      refine (length_filterMap_le _ _).trans ?_
      rw [length_map]
    have hthree : l.live.length ≤ 3 := h.length
    have := hlen hdam
    omega
  · have hnd : ((matchedLive l tsIn).map Prod.fst).Nodup := by
      rw [List.Nodup, pairwise_map]
      exact h.matchedLive_decreasing.imp fun hlt => (ne_of_lt hlt).symm
    have hsubset : (matchedLive l tsIn).map Prod.fst ⊆
        (l.live.filter fun s => !s.isDamaged).map timestamp := by
      intro ts hts
      obtain ⟨entry, hent, rfl⟩ := mem_map.1 hts
      obtain ⟨s, hs, -, heq⟩ := mem_matchedLive.1 hent
      refine mem_map.2 ⟨s, mem_filter.2 ⟨hs, ?_⟩, heq.symm⟩
      cases hflag : s.isDamaged with
      | false => rfl
      | true => exact absurd ⟨entry, hent, s, hs, heq, hflag⟩ hdam
    have hle := (subperm_of_subset hnd hsubset).length_le
    rw [length_map, length_map] at hle
    have htwo : (l.live.filter fun s => !s.isDamaged).length ≤ 2 := hfew
    have := hsub.length_le
    omega

variable {own : VersionSlot} {rest : List VersionSlot}

theorem composeHeader_spec (h : Ages l) (hfut : FuturesFirst l) (hfew : FewUndamaged l)
    (hvis : visible l.fakeHeadSnapshot own.creatorTs = true)
    (hnd : ((own :: rest).map VersionSlot.creatorTs).Nodup) (lxptr creatorTs : Nat) :
    ∃ out older,
      filterOutDamaged l (expanded l ((own :: rest).map VersionSlot.creatorTs)) = .ok out ∧
      out.head?.map Prod.fst = some lastCommitedVersionTimestamp ∧
      composeHeader (own :: rest) lxptr creatorTs out = (⟨lxptr, creatorTs⟩ :: own :: older, none) ∧
      older.Sublist rest ∧ older.length ≤ 2 ∧
      ∀ s ∈ l.live, s.isDamaged = false → visible s.viewer own.creatorTs = false →
        resolve s.viewer older = resolve s.viewer rest := by
  generalize htsIn : (own :: rest).map VersionSlot.creatorTs = tsIn at hnd
  have hlc : visibleIdx l.fakeHeadSnapshot tsIn = some 0 := by
    rw [← htsIn]
    simp [visibleIdx, findIdx?_cons, hvis]
  have hexpanded : expanded l tsIn = (lastCommitedVersionTimestamp, 0) :: matchedLive l tsIn := by
    rw [expanded, matched_of_some hlc, ← htsIn, map_cons, headD_cons, if_pos hvis]
  obtain ⟨out, hok, hsub, hkept, hlen⟩ :=
    filterOutDamaged_spec h hfut fun entry (hent : entry ∈ matchedLive l tsIn) =>
      isEntry_matchedLive hent
  have htwo := length_filtered_le h hfew hsub hlen
  have hids : (matchedLive l tsIn).Pairwise fun a b => a.2 ≤ b.2 := by
    have hall : (matched l tsIn).Pairwise fun a b => a.2 ≤ b.2 := h.matched_ids
    rw [matched_of_some hlc] at hall
    exact (pairwise_cons.1 hall).2
  have hbnd : ∀ entry ∈ out, 0 ≤ entry.2 ∧ entry.2 < (own :: rest).length := by
    intro entry hent
    obtain ⟨s, -, hidx, -⟩ := mem_matchedLive.1 (hsub.subset hent)
    rw [← htsIn] at hidx
    exact ⟨Nat.zero_le _, (resolve_of_visibleIdx hidx).1⟩
  obtain ⟨hcopy, holder, hle, hall⟩ := copyUnique_spec (hids.sublist hsub) hbnd htwo
  refine ⟨(lastCommitedVersionTimestamp, 0) :: out, _, ?_, rfl, ?_, holder, hle.trans htwo, ?_⟩
  · rw [hexpanded, filterOutDamaged_kept (.inr (.inl rfl)) (by simp [refersToDamaged]), hok]
    rfl
  · simp [composeHeader, copyUnique, versionsCount, hcopy]
  · intro s hs hdam hown
    cases hres : resolve s.viewer rest with
    | none =>
      rw [resolve, find?_eq_none] at hres ⊢
      exact fun slot hslot => hres slot (holder.subset hslot)
    | some slot =>
      have hfull : resolve s.viewer (own :: rest) = some slot := by
        rw [resolve_cons_of_not_visible hown, hres]
      have hseen := visibleIdx_ne_none_of_resolve hfull
      rw [htsIn] at hseen
      obtain ⟨i, hi⟩ := Option.ne_none_iff_exists'.1 hseen
      obtain ⟨hilt, hslot⟩ := resolve_of_visibleIdx (htsIn ▸ hi)
      rw [hfull, Option.some.injEq] at hslot
      have hundamaged : ¬ IsDamagedEntry l (s.timestamp, i) := by
        rintro ⟨s', hs', hts, hflag⟩
        rw [← h.eq_of_timestamp hs hs' hts, hdam] at hflag
        cases hflag
      have hent := hkept (s.timestamp, i) (mem_matchedLive.2 ⟨s, hs, hi, rfl⟩) hundamaged
      refine find?_of_sublist holder ?_ hres ?_
      · rw [← htsIn] at hnd
        exact (nodup_cons.1 hnd.of_map).2
      · rcases hall _ hent with hzero | ⟨slot', hslot', heq⟩
        · subst hzero
          rw [hslot] at hfull
          have := resolve_visible hfull
          simp only [getElem_cons_zero] at this
          rw [hown] at this
          cases this
        · rw [getElem?_eq_getElem hilt, Option.some.injEq, ← hslot] at heq
          rw [heq]
          exact hslot'

end

/-! ## Filtering out the damaged -/

section

variable {l : SnapshotsList} {entry : Nat × Nat} {rest : List (Nat × Nat)}

theorem map_cons_eq_ok_iff {result : Except WuError (List (Nat × Nat))} :
    result.map (entry :: ·) = .ok (entry :: rest) ↔ result = .ok rest := by
  cases result <;> simp [Except.map]

/-- Exactly the entries of damaged snapshots are removed if no two of them are neighbours. -/
theorem filterOutDamaged_eq_filter_iff (l : SnapshotsList) : ∀ out : List (Nat × Nat),
    (∀ entry ∈ out, RefersToSnapshot l entry) →
    (filterOutDamaged l out = .ok (out.filter fun entry => !refersToDamaged l entry) ↔
      out.IsChain fun a b => refersToDamaged l a = true → refersToDamaged l b = false)
  | [], _ => by simp [filterOutDamaged]
  | [entry], hout => by
    cases hdam : refersToDamaged l entry with
    | false =>
      rw [filterOutDamaged_kept (hout entry (by simp)) hdam]
      simp [filterOutDamaged, hdam, Except.map]
    | true => simp [(filterOutDamaged_removed hdam entry []).1, hdam]
  | entry :: next :: rest, hout => by
    have hnext := filterOutDamaged_eq_filter_iff l (next :: rest) (forall_mem_cons.1 hout).2
    cases hdam : refersToDamaged l entry with
    | false =>
      rw [filterOutDamaged_kept (hout entry (by simp)) hdam,
        filter_cons_of_pos (by simp [hdam]), map_cons_eq_ok_iff, hnext]
      simp [hdam]
    | true =>
      rw [(filterOutDamaged_removed hdam next rest).2, filter_cons_of_neg (by simp [hdam])]
      cases hdam' : refersToDamaged l next with
      | false =>
        rw [filterOutDamaged_kept (hout next (by simp)) hdam'] at hnext
        rw [hnext]
        simp [hdam']
      | true =>
        -- `next` is not looked at
        refine iff_of_false (fun h => ?_) (by simp [hdam, hdam'])
        cases hrest : filterOutDamaged l rest with
        | error e => simp [hrest, Except.map] at h
        | ok out =>
          rw [hrest] at h
          have hmem : next ∈ (next :: rest).filter fun entry => !refersToDamaged l entry := by
            rw [← Except.ok.inj h]
            simp
          simp [hdam'] at hmem

def twoDamaged : SnapshotsList :=
  ⟨[⟨3, [], [], .regular, 0, false⟩, ⟨2, [], [], .regular, 0, true⟩,
    ⟨1, [], [], .regular, 0, true⟩], []⟩

theorem filterOutDamaged_eq_filter_one :
    (∀ entry ∈ [(2, 0), (3, 1)], RefersToSnapshot twoDamaged entry) ∧
      filterOutDamaged twoDamaged [(2, 0), (3, 1)] = .ok [(3, 1)] := by
  have hrefers : ∀ entry ∈ [(2, 0), (3, 1)], RefersToSnapshot twoDamaged entry := by
    simp [RefersToSnapshot, twoDamaged, getSnapshotByTimestamp]
  exact ⟨hrefers,
    (filterOutDamaged_eq_filter_iff twoDamaged [(2, 0), (3, 1)] hrefers).2 (by decide)⟩

/-- Of two neighbouring entries of damaged snapshots the second stays. -/
theorem filterOutDamaged_leaves_damaged :
    filterOutDamaged twoDamaged [(3, 0), (2, 1), (1, 2)] = .ok [(3, 0), (1, 2)] ∧
      ([(3, 0), (2, 1), (1, 2)].filter fun entry => !refersToDamaged twoDamaged entry) =
        [(3, 0)] := by
  decide

end

end Sedna.Wu.Headers
