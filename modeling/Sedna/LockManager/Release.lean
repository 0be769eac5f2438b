import Sedna.LockManager.TranList
import Mathlib.Data.List.Forall2

/-!
# Releasing all locks of a transaction

`release_tr_locks` walks the transaction's list and unlocks each resource; it
always deletes the first request of the list.
-/

namespace Sedna.LockManager.Release

open Library.LinkedList Table Queue Steps Wakeup TranList List Option LockTable

/-! ## Success -/

variable {S : RequestId → Prop} {s s' : LockTable} {x : LockRequest} {trId : TransactionId}
  {rId : ResourceId} {id : RequestId} {cell : TranLinks}

theorem deleteRequest_first {rest : List RequestId} (hlist : ListOf S s x.trId (x.id :: rest)) :
    ∃ s', deleteRequest s x = .ok s' := by
  obtain ⟨⟨cell, hcell, hnext, hprev⟩, hrest⟩ := hlist.threaded
  have hprev : cell.tranPrev = none := by
    rcases hprev with hprev | ⟨hne, -⟩
    · exact hprev
    · exact absurd rfl hne
  have hanc := hlist.anchor
  obtain ⟨tran, htran, -⟩ := map_eq_some_iff.1 hanc
  unfold deleteRequest
  rw [htran, hcell]
  dsimp only
  rw [hprev, hnext]
  cases rest with
  | nil => exact ⟨_, rfl⟩
  | cons next rest =>
    obtain ⟨⟨nextCell, hnextCell, -⟩, -⟩ := hrest
    rw [head?_cons]
    dsimp only
    rw [hnextCell]
    exact ⟨_, rfl⟩

theorem unlock_ok (hinv : TableInv s)
    (hdel : ∀ x, x.trId = trId → Has s rId trId x.id → ∃ s', deleteRequest s x = .ok s') :
    ∃ s', unlock s trId rId = .ok s' := by
  unfold unlock
  cases hhd : s.heads rId with
  | none => exact ⟨s, rfl⟩
  | some head =>
    dsimp only
    cases hfind : findRequest trId head.queue with
    | none => exact ⟨s, rfl⟩
    | some own =>
      obtain ⟨a, b, hqueue, hown, _⟩ := findRequest_eq_some hfind
      obtain ⟨s1, hs1⟩ := hdel own hown ⟨head, own, hhd, by simp [hqueue], hown, rfl⟩
      dsimp only
      rw [hs1]
      split
      · exact ⟨_, rfl⟩
      · have hst : ∀ y ∈ head.queue.eraseP (fun r => r.trId = trId), KnownStatus y :=
          fun y hy => (hinv rId head hhd).status y (mem_of_mem_eraseP hy)
        obtain ⟨_, _, _, -, -, hscan, -⟩ :=
          scan_spec [] .nullLock [] _ stands_nullLock hst
        rw [hscan]
        exact ⟨_, rfl⟩

/-! ## Other transactions -/

def queueOf (s : LockTable) (rId : ResourceId) : List LockRequest :=
  match s.heads rId with
  | none => []
  | some head => head.queue

def others (s : LockTable) (trId : TransactionId) (rId : ResourceId) : List LockRequest :=
  (queueOf s rId).filter fun x => x.trId ≠ trId

/-- Requests of other transactions are at most granted; their lists are not touched. -/
structure GrantsOnly (trId : TransactionId) (s s' : LockTable) : Prop where
  queues : ∀ rId, List.Forall₂ (fun x y => y = x ∨ y = grant x) (others s trId rId)
    (others s' trId rId)
  links : ∀ rId t id, t ≠ trId → Has s rId t id → s'.links id = s.links id
  locks : ∀ t, t ≠ trId → (s'.trans t).map TransCB.locks = (s.trans t).map TransCB.locks
  has : ∀ rId t id, t ≠ trId → (Has s' rId t id ↔ Has s rId t id)

theorem grant_grant (x : LockRequest) : grant (grant x) = grant x := by
  unfold grant
  cases hst : x.status <;> simp [hst]

theorem GrantsOnly.refl (trId : TransactionId) (s : LockTable) : GrantsOnly trId s s :=
  ⟨fun _ => forall₂_same.2 fun _ _ => .inl rfl, fun _ _ _ _ _ => rfl, fun _ _ => rfl,
    fun _ _ _ _ => Iff.rfl⟩

theorem granted_trans {y z : LockRequest} (hxy : y = x ∨ y = grant x) (hyz : z = y ∨ z = grant y) :
    z = x ∨ z = grant x := by
  rcases hxy with rfl | rfl
  · exact hyz
  · rw [grant_grant] at hyz
    exact .inr (hyz.elim id id)

theorem granted_lists_trans {as bs cs : List LockRequest}
    (hab : Forall₂ (fun x y => y = x ∨ y = grant x) as bs)
    (hbc : Forall₂ (fun x y => y = x ∨ y = grant x) bs cs) :
    Forall₂ (fun x y => y = x ∨ y = grant x) as cs := by
  induction hab generalizing cs with
  | nil => exact hbc
  | cons hxy _ ih =>
    cases hbc with
    | cons hyz hrest => exact .cons (granted_trans hxy hyz) (ih hrest)

theorem GrantsOnly.trans {s1 s2 s3 : LockTable} (h : GrantsOnly trId s1 s2)
    (h' : GrantsOnly trId s2 s3) : GrantsOnly trId s1 s3 := by
  refine ⟨fun r => granted_lists_trans (h.queues r) (h'.queues r), ?_, ?_, ?_⟩
  · intro r t id ht hhas
    rw [h'.links r t id ht ((h.has r t id ht).2 hhas), h.links r t id ht hhas]
  · intro t ht
    rw [h'.locks t ht, h.locks t ht]
  · intro r t id ht
    rw [h'.has r t id ht, h.has r t id ht]

theorem grants_first (granted tail : List LockRequest) :
    Forall₂ (fun x y => y = x ∨ y = grant x) (granted ++ tail) (granted.map grant ++ tail) := by
  induction granted with
  | nil => exact forall₂_same.2 fun _ _ => .inl rfl
  | cons x granted ih => exact .cons (.inr rfl) ih

theorem others_of_heads (h : s'.heads rId = s.heads rId) (trId : TransactionId) :
    others s' trId rId = others s trId rId := by
  rw [others, others, queueOf, queueOf, h]

theorem others_of_head {head : LockHead} (h : s.heads rId = some head) (trId : TransactionId) :
    others s trId rId = head.queue.filter fun x => x.trId ≠ trId := by
  rw [others, queueOf, h]

theorem unlocked_queues (hinv : TableInv s) (h : Unlocked s trId rId s') (r : ResourceId) :
    Forall₂ (fun x y => y = x ∨ y = grant x) (others s trId r) (others s' trId r) := by
  have hsame : ∀ s'' : LockTable, s''.heads r = s.heads r →
      Forall₂ (fun x y => y = x ∨ y = grant x) (others s trId r) (others s'' trId r) := by
    intro s'' hheads
    rw [others_of_heads hheads]
    exact forall₂_same.2 fun _ _ => .inl rfl
  cases h with
  | absent => exact hsame s rfl
  | @last s1 head own hhd hqueue hown hdel =>
    by_cases hr : r = rId
    · subst hr
      rw [others_of_head hhd, hqueue, others, queueOf, setHead_heads]
      simp [hown]
    · refine hsame _ ?_
      rw [setHead_heads, if_neg hr, (deleteRequest_fields hdel).1]
  | @rescan s1 head head' a b woken own hhd hqueue hown ha hne hdel hscan =>
    by_cases hr : r = rId
    · subst hr
      obtain ⟨granted, tail, hrescan⟩ := rescan_spec (hinv r head hhd) hqueue hne hscan
      have hleft : others s trId r = granted ++ tail := by
        rw [others_of_head hhd, ← hown]
        exact hrescan.others
      have hnone : ∀ y ∈ granted ++ tail, y.trId ≠ trId := by
        intro y hy
        rw [← hown]
        exact (hrescan.mem_iff.1 (mem_append.1 hy)).2
      have hright : others ((woken.foldl wake s1).setHead r (some head')) trId r =
          granted.map grant ++ tail := by
        rw [others_of_head (by rw [setHead_heads, if_pos rfl]), hrescan.queue]
        refine filter_eq_self.2 fun y hy => ?_
        rcases mem_append.1 hy with hy | hy
        · obtain ⟨z, hz, rfl⟩ := mem_map.1 hy
          simpa [grant_trId] using hnone z (by simp [hz])
        · simpa using hnone y (by simp [hy])
      rw [hleft, hright]
      exact grants_first granted tail
    · refine hsame _ ?_
      rw [rescan_heads hdel, if_neg hr]

theorem unlocked_grantsOnly (hinv : TableInv s) (hs : Lists S s) (h : Unlocked s trId rId s') :
    GrantsOnly trId s s' := by
  have hqueues := unlocked_queues hinv h
  rcases unlocked_requests hinv hs.registered h with ⟨rfl, -⟩ | ⟨x, rfl, hd⟩
  · exact GrantsOnly.refl trId s'
  · obtain ⟨s1, hdel, hlinks, -, hlocks⟩ := hd.effect
    obtain ⟨own, hown⟩ := hs.list x.trId
    obtain ⟨before, after, rfl⟩ := append_of_mem ((hown.mem_iff x.id).2 ⟨rId, hd.present⟩)
    have heff := deleteRequest_effect hown (fun id hid => (hs.dead id hid).1) hdel
    -- requests of other transactions are not in this list
    have hoth : ∀ r t id, t ≠ x.trId → Has s r t id → id ∉ before ++ x.id :: after := by
      intro r t id ht hhas hmem
      obtain ⟨r', hr'⟩ := (hown.mem_iff id).1 hmem
      exact ht (hs.registered.has_id hhas hr').2
    refine ⟨hqueues, ?_, ?_, ?_⟩
    · intro r t id ht hhas
      have hnot := hoth r t id ht hhas
      simp only [mem_append, mem_cons, not_or] at hnot
      rw [hlinks]
      exact heff.links_ne id (by simp [hnot.1, hnot.2.2]) hnot.2.1
    · intro t ht
      rw [hlocks t, heff.trans_ne t ht]
    · intro r t id ht
      rw [hd.has, and_iff_left_iff_imp]
      rintro hhas rfl
      exact hoth r t x.id ht hhas (by simp)

/-! ## `release_tr_locks` -/

theorem unlock_first {rest : List RequestId} (hinv : TableInv s) (hs : Lists S s)
    (hlist : ListOf S s trId (id :: rest)) (hhas : Has s rId trId id) :
    ∃ s', unlock s trId rId = .ok s' ∧ TableInv s' ∧ Lists S s' ∧ ListOf S s' trId rest ∧
      GrantsOnly trId s s' := by
  -- a transaction has one request in a queue
  have honly : ∀ id', Has s rId trId id' → id' = id := by
    rintro id' ⟨head, x, hhd, hx, htr, rfl⟩
    obtain ⟨y, hy, hytr, rfl⟩ := (has_of_head hhd trId id).1 hhas
    rw [(hinv rId head hhd).eq_of_trId hx hy (htr.trans hytr.symm)]
  have hdel : ∀ x, x.trId = trId → Has s rId trId x.id → ∃ s', deleteRequest s x = .ok s' := by
    rintro x rfl hx
    have hid := honly x.id hx
    subst hid
    exact deleteRequest_first hlist
  obtain ⟨s', hunl⟩ := unlock_ok hinv hdel
  have hunlocked := unlock_inv hunl
  refine ⟨s', hunl, unlocked_tableInv hinv hunlocked, ?_⟩
  rcases unlocked_requests hinv hs.registered hunlocked with ⟨-, hnone⟩ | ⟨x, rfl, hd⟩
  · exact absurd hhas (hnone id)
  · have hid := honly x.id hd.present
    subst hid
    have hfst : ∀ cell, s.links x.id = some cell → cell.tranPrev ≠ none →
        cell.tranNext ≠ none → S x.id := by
      intro cell hcell hprev
      obtain ⟨⟨cell', hcell', -, hprev'⟩, -⟩ := hlist.threaded
      obtain rfl : cell = cell' := some.inj (hcell.symm.trans hcell')
      rcases hprev' with hprev' | ⟨hne, -⟩
      · exact absurd hprev' hprev
      · exact absurd rfl hne
    refine ⟨hs.deletes hd (fun _ hq => hq) (fun _ hq => .inl hq) hfst, ?_,
      unlocked_grantsOnly hinv hs hunlocked⟩
    have hlist' : ListOf S s x.trId ([] ++ x.id :: rest) := hlist
    exact hlist'.deletes (fun q hq => (hs.dead q hq).1) hd (fun _ hq => hq) hfst

theorem releaseLoop_spec (ids : List RequestId) (fuel : Nat) (hinv : TableInv s) (hs : Lists S s)
    (hlist : ListOf S s trId ids) (hfuel : ids.length ≤ fuel) :
    ∃ s', releaseLoop trId fuel ids.head? s = .ok s' ∧ TableInv s' ∧ Lists S s' ∧
      ListOf S s' trId [] ∧ GrantsOnly trId s s' := by
  induction ids generalizing fuel s with
  | nil => exact ⟨s, by cases fuel <;> rfl, hinv, hs, hlist, GrantsOnly.refl trId s⟩
  | cons id rest ih =>
    cases fuel with
    | zero => cases hfuel
    | succ fuel =>
      obtain ⟨cell, hcell, hnext, -⟩ := hlist.threaded.1
      obtain ⟨rId, hhas⟩ := (hlist.mem_iff id).1 (by simp)
      have hrId : cell.rId = rId := by
        obtain ⟨cell', hcell', hrId⟩ := (hs.registered.links_iff id rId).2 ⟨trId, hhas⟩
        obtain rfl : cell = cell' := some.inj (hcell.symm.trans hcell')
        exact hrId
      obtain ⟨s1, hunl, hinv1, hs1, hlist1, hgrants⟩ := unlock_first hinv hs hlist hhas
      obtain ⟨s', hloop, hinv', hs', hlist', hgrants'⟩ :=
        ih fuel hinv1 hs1 hlist1 (by simpa using hfuel)
      refine ⟨s', ?_, hinv', hs', hlist', hgrants.trans hgrants'⟩
      rw [head?_cons, releaseLoop, hcell]
      dsimp only
      rw [hrId, hunl, hnext]
      exact hloop

theorem releaseTrLocks_spec (hinv : TableInv s) (hs : Lists S s) (trId : TransactionId) :
    ∃ s', releaseTrLocks s trId = .ok s' ∧ TableInv s' ∧ Lists S s' ∧
      (∀ rId id, ¬ Has s' rId trId id) ∧ GrantsOnly trId s s' := by
  obtain ⟨ids, hlist⟩ := hs.list trId
  have hempty : ∀ {s'}, ListOf S s' trId [] → ∀ rId id, ¬ Has s' rId trId id := by
    intro s' hnil rId id hhas
    have hmem := (hnil.mem_iff id).2 ⟨rId, hhas⟩
    cases hmem
  have hanc := hlist.anchor
  unfold releaseTrLocks
  cases htran : s.trans trId with
  | none =>
    have hnil : ids = [] := by
      by_contra hne
      rw [htran, if_neg hne] at hanc
      cases hanc
    subst hnil
    exact ⟨s, rfl, hinv, hs, hempty hlist, GrantsOnly.refl trId s⟩
  | some tran =>
    have hlocks : tran.locks = ids.head? := by
      rw [htran] at hanc
      split at hanc
      · cases hanc
      · exact some.inj hanc
    have hlen : ids.length ≤ s.nextId := by
      have hsub : ids ⊆ range s.nextId := by
        intro id hid
        obtain ⟨r, hr⟩ := (hlist.mem_iff id).1 hid
        exact mem_range.2 (hs.registered.lt_of_has hr)
      simpa using (hlist.nodup.subperm hsub).length_le
    obtain ⟨s', hloop, hinv', hs', hlist', hgrants⟩ :=
      releaseLoop_spec ids s.nextId hinv hs hlist hlen
    have hnone : s'.trans trId = none := by
      have hanc' := hlist'.anchor
      rw [if_pos rfl, map_eq_none_iff] at hanc'
      exact hanc'
    refine ⟨s', ?_, hinv', hs', hempty hlist', hgrants⟩
    dsimp only
    rw [hlocks, hloop]
    simp only [bind, Except.bind, hnone]
    rfl

/-! ## List integrity -/

theorem deleteRequest_links_next (h : deleteRequest s x = .ok s') (hcell : s.links x.id = some cell)
    (hprev : cell.tranPrev ≠ some id) (hid : id ≠ x.id) (hsome : cell.tranPrev ≠ none) :
    s'.links id = s.links id := by
  unfold deleteRequest at h
  split at h
  · cases h
  rw [hcell] at h
  dsimp only at h
  split at h
  next hp _ => exact absurd hp hsome
  next hp _ => exact absurd hp hsome
  next _ _ prev hp =>
    split at h
    · cases h
    · cases h
      have hne : id ≠ prev := by
        rintro rfl
        exact hprev hp
      simp [hid, hne]

/-- Every transaction's requests form a doubly linked list, each of them once. -/
def WellLinked (s : LockTable) : Prop :=
  ∀ trId, ∃ ids : List RequestId, ids.Nodup ∧
    Linked TranLinks.tranPrev TranLinks.tranNext s.links none ids ∧
    ((s.trans trId).map TransCB.locks = if ids = [] then none else some ids.head?) ∧
    ∀ id, id ∈ ids ↔ ∃ rId, Has s rId trId id

theorem Lists.wellLinked (h : Lists (fun _ => False) s) : WellLinked s := by
  intro trId
  obtain ⟨ids, hids⟩ := h.list trId
  exact ⟨ids, hids.nodup, threaded_false_iff.1 hids.threaded, hids.anchor, hids.mem_iff⟩

theorem WellLinked.prev_has (h : WellLinked s) {prev : RequestId} (hhas : Has s rId trId id)
    (hcell : s.links id = some cell) (hprev : cell.tranPrev = some prev) :
    ∃ r, Has s r trId prev := by
  obtain ⟨ids, -, hlinked, -, hmem⟩ := h trId
  obtain ⟨before, after, rfl⟩ := append_of_mem ((hmem id).2 ⟨rId, hhas⟩)
  obtain ⟨cell', hcell', -, hprev'⟩ := Threaded.cell (threaded_false_iff.2 hlinked)
  obtain rfl : cell = cell' := some.inj (hcell.symm.trans hcell')
  rw [hprev, or_none] at hprev'
  rcases hprev' with hlast | ⟨-, q, -, hfalse⟩
  · refine (hmem prev).1 (mem_append_left _ ?_)
    exact mem_of_getLast? hlast.symm
  · exact hfalse.elim

theorem reachable_wellLinked (h : Reachable unlocksAtEnds s) :
    TableInv s ∧ Lists (fun _ => False) s := by
  refine @reachable_induction s unlocksAtEnds
    (fun s => TableInv s ∧ Lists (fun _ => False) s) ?_ ?_ ?_ ?_ h
  · refine ⟨?_, lists_init _ fun _ hq => hq⟩
    intro rId head hhd
    cases hhd
  · rintro s s' trId sId rId mode reply ⟨hinv, hs⟩ hwait - hlocked
    exact ⟨locked_tableInv hinv hwait hlocked, locked_lists hs hlocked⟩
  · rintro s s' trId rId ⟨hinv, hs⟩ hends hunl
    exact ⟨unlocked_tableInv hinv hunl, unlocked_lists hinv hs hunl hends⟩
  · rintro s s' trId ⟨hinv, hs⟩ - hrel
    obtain ⟨s'', hok, hinv', hs', -⟩ := releaseTrLocks_spec hinv hs trId
    obtain rfl : s'' = s' := Except.ok.inj (hok.symm.trans hrel)
    exact ⟨hinv', hs'⟩

theorem not_wellLinked_of_middle (hs : Lists (fun _ => False) s) (hd : DeletesRequest s rId x s')
    (hcell : s.links x.id = some cell) (hprev : cell.tranPrev ≠ none) (hnext : cell.tranNext ≠ none)
    : ¬ WellLinked s' := by
  intro hwell
  obtain ⟨s1, hdel, hlinks, -, -⟩ := hd.effect
  obtain ⟨own, hown⟩ := hs.list x.trId
  obtain ⟨before, after, rfl⟩ := append_of_mem ((hown.mem_iff x.id).2 ⟨rId, hd.present⟩)
  obtain ⟨cell', hcell', hnextCell, hprevCell⟩ := Threaded.cell hown.threaded
  obtain rfl : cell = cell' := some.inj (hcell.symm.trans hcell')
  obtain ⟨next, rest, rfl⟩ : ∃ next rest, after = next :: rest := by
    refine exists_cons_of_ne_nil ?_
    rintro rfl
    exact hnext hnextCell
  have hnd := nodup_middle.1 hown.nodup
  have hxnext : next ≠ x.id := by
    rintro rfl
    exact (nodup_cons.1 hnd).1 (by simp)
  -- the request behind it still points back to it
  have hthreaded := hown.threaded
  rw [append_cons] at hthreaded
  obtain ⟨nextCell, hnextCell', -, hnextPrev⟩ := Threaded.cell hthreaded
  have hback : nextCell.tranPrev = some x.id := by
    rcases hnextPrev with hback | ⟨-, q, -, hfalse⟩
    · simpa using hback
    · exact hfalse.elim
  obtain ⟨r, hnextHas⟩ := (hown.mem_iff next).1 (by simp)
  have hnextHas' : Has s' r x.trId next := (hd.has r x.trId next).2 ⟨hnextHas, hxnext⟩
  have hsame : s'.links next = some nextCell := by
    rw [hlinks, ← hnextCell']
    refine deleteRequest_links_next hdel hcell ?_ hxnext hprev
    rintro heq
    -- the predecessor is not also the successor
    rw [heq] at hprevCell
    rcases hprevCell with hlast | ⟨-, q, -, hfalse⟩
    · rw [or_none] at hlast
      have hmem := mem_of_getLast? hlast.symm
      exact (nodup_append.1 hown.nodup).2.2 next hmem next (by simp) rfl
    · exact hfalse.elim
  obtain ⟨r', hr'⟩ := hwell.prev_has hnextHas' hsame hback
  exact ((hd.has r' x.trId x.id).1 hr').2 rfl

/-- As long as no unlock takes a request out of the middle of its list, every
list is well linked and `release_tr_locks` removes the transaction and nothing
else; an unlock from the middle breaks a list. -/
theorem tran_lists_intact {s : LockTable} (h : Reachable unlocksAtEnds s) :
    WellLinked s ∧
    (∀ trId, ∃ s', releaseTrLocks s trId = .ok s' ∧ (∀ rId id, ¬ Has s' rId trId id) ∧
      GrantsOnly trId s s') ∧
    ∀ trId rId s', unlock s trId rId = .ok s' →
      (WellLinked s' ↔ unlocksAtEnds s (.unlock trId rId)) := by
  obtain ⟨hinv, hs⟩ := reachable_wellLinked h
  refine ⟨Lists.wellLinked hs, ?_, ?_⟩
  · intro trId
    obtain ⟨s', hok, -, -, hnone, hgrants⟩ := releaseTrLocks_spec hinv hs trId
    exact ⟨s', hok, hnone, hgrants⟩
  · intro trId rId s' hunl
    have hunlocked := unlock_inv hunl
    constructor
    · intro hwell id cell hhas hcell
      rcases unlocked_requests hinv hs.registered hunlocked with ⟨-, hnone⟩ | ⟨x, rfl, hd⟩
      · exact absurd hhas (hnone id)
      · obtain ⟨head, y, hhd, hy, hytr, rfl⟩ := hhas
        obtain ⟨z, hz, hztr, hzid⟩ := (has_of_head hhd x.trId x.id).1 hd.present
        obtain rfl : y = z := (hinv rId head hhd).eq_of_trId hy hz (hytr.trans hztr.symm)
        by_contra hmid
        rw [not_or] at hmid
        rw [hzid] at hcell
        exact not_wellLinked_of_middle hs hd hcell hmid.1 hmid.2 hwell
    · intro hends
      exact Lists.wellLinked (unlocked_lists hinv hs hunlocked hends)

def resource (name : String) : ResourceId := ⟨name, .lmDocument⟩

/-- A transaction with two locks is released. -/
theorem tran_lists_intact_two :
    ∃ s s', Reachable unlocksAtEnds s ∧ releaseTrLocks s 1 = .ok s' ∧
      ∀ rId id, ¬ Has s' rId 1 id := by
  obtain ⟨s, hs⟩ : ∃ s, checkedRun [resource "a", resource "b"] init
      [.lock 1 1 (resource "a") .lmS, .lock 1 1 (resource "b") .lmX] = some s := ⟨_, rfl⟩
  have hreach : Reachable unlocksAtEnds s := checkedRun_reachable (by simp [unlocksAtEnds]) hs
  obtain ⟨s', hok, hnone, -⟩ := (tran_lists_intact hreach).2.1 1
  exact ⟨s, s', hreach, hok, hnone⟩

/-- A transaction locks three documents and unlocks the second: the third
request points back to the deleted one. -/
theorem tran_list_breaks :
    ∃ s cell, Reachable anyCall s ∧ s.links 2 = some cell ∧ cell.tranPrev = some 1 ∧
      s.links 1 = none ∧ ¬ WellLinked s := by
  obtain ⟨s, hs, hlinks, hdel, hhd⟩ : ∃ s,
      checkedRun [resource "a", resource "b", resource "c"] init
      [.lock 1 1 (resource "a") .lmS, .lock 1 1 (resource "b") .lmS,
        .lock 1 1 (resource "c") .lmS, .unlock 1 (resource "b")] = some s ∧
      s.links 2 = some ⟨resource "c", some 1, none⟩ ∧ s.links 1 = none ∧
      s.heads (resource "c") = some ⟨[⟨2, 1, 1, .lockGranted, .lmS, .nullLock⟩], .lmS, false⟩ :=
    ⟨_, rfl, rfl, rfl, rfl⟩
  have hreach : Reachable anyCall s := checkedRun_reachable (fun _ _ _ => trivial) hs
  obtain ⟨-, S, hlists⟩ := reachable_lists hreach
  refine ⟨s, _, hreach, hlinks, rfl, hdel, ?_⟩
  intro hwell
  have hhas : Has s (resource "c") 1 2 := ⟨_, _, hhd, mem_cons_self, rfl, rfl⟩
  obtain ⟨r, hr⟩ := hwell.prev_has hhas hlinks rfl
  obtain ⟨cell, hcell, -⟩ := (hlists.registered.links_iff 1 r).2 ⟨1, hr⟩
  rw [hdel] at hcell
  cases hcell

end Sedna.LockManager.Release
