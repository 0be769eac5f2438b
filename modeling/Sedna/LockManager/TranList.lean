import Sedna.Library.LinkedList
import Sedna.LockManager.Wakeup
import Mathlib.Data.Nat.Basic

/-!
# The lock list of a transaction

The requests of a transaction are kept in a doubly linked list besides the
resource queues.  The destructor of a request tells its predecessor about its
successor but not the other way round, so a back pointer can become stale.
-/

namespace Sedna.LockManager.TranList

open Library.LinkedList Modes Table Queue Steps Wakeup List Option Threaded LockTable

def Has (s : LockTable) (rId : ResourceId) (trId : TransactionId) (id : RequestId) : Prop :=
  ∃ head x, s.heads rId = some head ∧ x ∈ head.queue ∧ x.trId = trId ∧ x.id = id

structure Registered (s : LockTable) : Prop where
  links_iff : ∀ id rId, (∃ cell, s.links id = some cell ∧ cell.rId = rId) ↔
    ∃ trId, Has s rId trId id
  owner : ∀ rId trId trId' id, Has s rId trId id → Has s rId trId' id → trId = trId'
  bound : ∀ id cell, s.links id = some cell → id < s.nextId

abbrev ThreadedIn (s : LockTable) (stale : RequestId → Prop) (ids : List RequestId) : Prop :=
  Threaded TranLinks.tranPrev TranLinks.tranNext stale s.links none ids

/-- The list of a transaction holds exactly its requests; the transaction has
an entry only while it has a request. -/
structure ListOf (stale : RequestId → Prop) (s : LockTable) (trId : TransactionId)
    (ids : List RequestId) : Prop where
  nodup : ids.Nodup
  threaded : ThreadedIn s stale ids
  anchor : (s.trans trId).map TransCB.locks = if ids = [] then none else some ids.head?
  mem_iff : ∀ id, id ∈ ids ↔ ∃ rId, Has s rId trId id

/-- Every transaction has a list, and stale requests are deleted ones. -/
structure Lists (stale : RequestId → Prop) (s : LockTable) : Prop where
  registered : Registered s
  list : ∀ trId, ∃ ids, ListOf stale s trId ids
  dead : ∀ id, stale id → s.links id = none ∧ id < s.nextId

variable {s s' : LockTable} {S : RequestId → Prop} {trId : TransactionId} {sId : SessionId}
  {rId : ResourceId} {mode : LockMode} {x : LockRequest} {id : RequestId}
  {before after : List RequestId} {s1 : LockTable}

theorem Registered.has_id (h : Registered s) {r r' : ResourceId} {t t' : TransactionId}
    (hr : Has s r t id) (hr' : Has s r' t' id) : r = r' ∧ t = t' := by
  obtain ⟨cell, hcell, hrId⟩ := (h.links_iff id r).2 ⟨t, hr⟩
  obtain ⟨cell', hcell', hrId'⟩ := (h.links_iff id r').2 ⟨t', hr'⟩
  obtain rfl : cell = cell' := some.inj (hcell.symm.trans hcell')
  obtain rfl : r = r' := hrId.symm.trans hrId'
  exact ⟨rfl, h.owner r t t' id hr hr'⟩

theorem Registered.lt_of_has (h : Registered s) {r : ResourceId} {t : TransactionId}
    (hr : Has s r t id) : id < s.nextId := by
  obtain ⟨cell, hcell, -⟩ := (h.links_iff id r).2 ⟨t, hr⟩
  exact h.bound id cell hcell

/-! ## The constructor -/

theorem lastRequest_spec {links : RequestId → Option TranLinks} (ids : List RequestId) (fuel : Nat)
    (last : Option RequestId) {prev : Option RequestId}
    (h : Threaded TranLinks.tranPrev TranLinks.tranNext S links prev ids)
    (hfuel : ids.length ≤ fuel) :
    lastRequest links fuel ids.head? last = .ok (ids.getLast?.or last) := by
  induction ids generalizing fuel last prev with
  | nil => cases fuel <;> rfl
  | cons k ids ih =>
    obtain ⟨⟨cell, hcell, hnext, -⟩, hrest⟩ := h
    cases fuel with
    | zero => cases hfuel
    | succ fuel =>
      rw [head?_cons, lastRequest, hcell, getLast?_cons_or]
      dsimp only
      rw [hnext]
      exact ih fuel (some k) hrest (by simpa using hfuel)

/-- What the constructor leaves: the new request is the last of its list, and
no other list is touched. -/
structure NewEffect (stale : RequestId → Prop) (s s' : LockTable) (trId : TransactionId)
    (rId : ResourceId) (ids : List RequestId) : Prop where
  threaded : ThreadedIn s' stale (ids ++ [s.nextId])
  anchor : (s'.trans trId).map TransCB.locks = some (ids ++ [s.nextId]).head?
  trans_ne : ∀ t, t ≠ trId → s'.trans t = s.trans t
  wait : ∀ tran, s.trans trId = some tran → s'.trans trId = some tran
  links_ne : ∀ id, id ∉ ids → id ≠ s.nextId → s'.links id = s.links id
  resource : ∀ id, (s'.links id).map TranLinks.rId =
    if id = s.nextId then some rId else (s.links id).map TranLinks.rId

theorem newRequest_effect {ids : List RequestId} (hreg : Registered s) (hlist : ListOf S s trId ids)
    (h : newRequest s trId sId rId mode = .ok (s', x)) : NewEffect S s s' trId rId ids := by
  have hlt : ∀ id ∈ ids, id < s.nextId := by
    intro id hid
    obtain ⟨r, hr⟩ := (hlist.mem_iff id).1 hid
    exact hreg.lt_of_has hr
  have hanc := hlist.anchor
  unfold newRequest at h
  split at h
  next hnone =>
    have hnil : ids = [] := by
      by_contra hne
      rw [hnone, if_neg hne] at hanc
      cases hanc
    subst hnil
    cases h
    refine ⟨⟨⟨⟨rId, none, none⟩, by simp, rfl, .inl rfl⟩, trivial⟩,
      by simp, ?_, ?_, ?_, ?_⟩
    · intro t ht
      simp [ht]
    · intro tran htran
      rw [hnone] at htran
      cases htran
    · intro id _ hid
      simp [hid]
    · intro id
      by_cases hid : id = s.nextId
      · simp [hid]
      · simp [hid]
  next tran htran =>
    rw [htran, map_some] at hanc
    have hne : ids ≠ [] := by
      rintro rfl
      cases hanc
    rw [if_neg hne, some.injEq] at hanc
    obtain ⟨init, last, rfl⟩ : ∃ init last, ids = init ++ [last] :=
      ⟨ids.dropLast, ids.getLast hne, (dropLast_append_getLast hne).symm⟩
    have hlen : (init ++ [last]).length ≤ s.nextId := by
      have hsub : init ++ [last] ⊆ range s.nextId :=
        fun id hid => mem_range.2 (hlt id hid)
      simpa using (hlist.nodup.subperm hsub).length_le
    rw [hanc, lastRequest_spec _ _ none hlist.threaded hlen] at h
    obtain ⟨cell, hcell, -, -⟩ := cell hlist.threaded
    have hlast : last ≠ s.nextId := ne_of_lt (hlt last (by simp))
    have hinit : ∀ j ∈ init, j ≠ last := by
      rintro j hj rfl
      exact (nodup_append.1 hlist.nodup).2.2 j hj j (by simp) rfl
    simp only [getLast?_append, getLast?_singleton, some_or, bind, Except.bind, hcell] at h
    cases h
    refine ⟨?_, ?_, fun _ _ => rfl, fun tran' htran' => htran', ?_, ?_⟩
    · refine append ?_ ?_ ?_ hlist.threaded
      · intro j hj
        simp [hinit j hj, ne_of_lt (hlt j (by simp [hj]))]
      · exact ⟨cell, { cell with tranNext := some s.nextId }, hcell,
          by simp [hlast], rfl, rfl⟩
      · exact ⟨⟨rId, some last, none⟩, by simp, rfl, rfl⟩
    · simp only [setLinks_trans, htran, map_some, hanc]
      cases init <;> rfl
    · intro id hid hidn
      have hidl : id ≠ last := fun heq => hid (by simp [heq])
      simp [hidn, hidl]
    · intro id
      by_cases hid : id = s.nextId
      · simp [hid]
      · by_cases hidl : id = last
        · subst hidl
          simp [hid, hcell]
        · simp [hid, hidl]

/-! ## The destructor -/

/-- What the destructor leaves: the request is out of its list, but the request
behind it may keep a stale back pointer. -/
structure DeleteEffect (stale : RequestId → Prop) (s s' : LockTable) (trId : TransactionId)
    (id : RequestId) (before after : List RequestId) : Prop where
  threaded : ∀ stale' : RequestId → Prop, (∀ q, stale q → stale' q) →
    (before ≠ [] → after ≠ [] → stale' id) → ThreadedIn s' stale' (before ++ after)
  anchor : (s'.trans trId).map TransCB.locks =
    if before ++ after = [] then none else some (before ++ after).head?
  trans_ne : ∀ t, t ≠ trId → s'.trans t = s.trans t
  wait : ∀ tran', s'.trans trId = some tran' →
    ∃ tran, s.trans trId = some tran ∧ tran'.wait = tran.wait
  links_ne : ∀ j, j ∉ before ++ after → j ≠ id → s'.links j = s.links j
  resource : ∀ j, (s'.links j).map TranLinks.rId =
    if j = id then none else (s.links j).map TranLinks.rId

theorem links_relink {n j : RequestId} (c : TranLinks) (hn : j ≠ n) (hid : j ≠ id) :
    ((s.setLinks n (some c)).setLinks id none).links j = s.links j := by
  simp [hn, hid]

theorem rId_relink {n : RequestId} {c c' : TranLinks} (hcell : s.links n = some c)
    (hrId : c'.rId = c.rId) (j : RequestId) :
    (((s.setLinks n (some c')).setLinks id none).links j).map TranLinks.rId =
      if j = id then none else (s.links j).map TranLinks.rId := by
  by_cases hjx : j = id
  · simp [hjx]
  · by_cases hjn : j = n
    · subst hjn
      simp [hjx, hcell, hrId]
    · simp [hjx, hjn]

theorem DeleteEffect.only :
    DeleteEffect S s ((s.setTran trId none).setLinks id none) trId id [] [] := by
  refine ⟨fun _ _ _ => trivial, by simp, ?_, ?_, ?_, ?_⟩
  · intro t ht
    simp [ht]
  · intro tran' htran'
    simp at htran'
  · intro j _ hj
    simp [hj]
  · intro j
    by_cases hj : j = id <;> simp [hj]

theorem DeleteEffect.first {next : RequestId} {rest : List RequestId} {tran : TransCB}
    {nextCell : TranLinks} (hlist : ListOf S s trId (id :: next :: rest))
    (htran : s.trans trId = some tran) (hcell : s.links next = some nextCell) :
    DeleteEffect S s (((s.setTran trId (some { tran with locks := some next })).setLinks
      next (some { nextCell with tranPrev := none })).setLinks id none) trId id []
      (next :: rest) := by
  obtain ⟨hid, hnd⟩ := nodup_cons.1 hlist.nodup
  have hne : next ≠ id := fun heq => hid (by simp [heq])
  refine ⟨?_, ?_, ?_, ?_, ?_, ?_⟩
  · intro S' hS _
    refine (dropFirst (hlist.threaded) ?_ ?_).mono hS
    · intro j hj
      refine links_relink _ ?_ ?_
      · exact fun heq => (nodup_cons.1 hnd).1 (heq ▸ hj)
      · exact fun heq => hid (heq ▸ mem_cons_of_mem _ hj)
    · exact ⟨nextCell, { nextCell with tranPrev := none }, hcell, by simp [hne], rfl, rfl⟩
  · simp
  · intro t ht
    simp [ht]
  · intro tran' htran'
    refine ⟨tran, htran, ?_⟩
    simp only [setLinks_trans, setTran_trans, if_true, some.injEq] at htran'
    rw [← htran']
  · intro j hj hjx
    exact links_relink _ (fun heq => hj (by simp [heq])) hjx
  · exact rId_relink hcell rfl

theorem DeleteEffect.behind {prev : RequestId} {keys : List RequestId} {prevCell : TranLinks}
    (hlist : ListOf S s trId (keys ++ [prev] ++ id :: after))
    (hcell : s.links prev = some prevCell) :
    DeleteEffect S s ((s.setLinks prev (some { prevCell with tranNext := after.head? })).setLinks
      id none) trId id (keys ++ [prev]) after := by
  have hnd := hlist.nodup
  have hne : ∀ j ∈ keys ++ after, j ≠ prev ∧ j ≠ id := by grind [nodup_append]
  have hprev : prev ≠ id := by grind [nodup_append]
  refine ⟨?_, ?_, fun _ _ => rfl, fun tran' htran' => ⟨tran', htran', rfl⟩, ?_, ?_⟩
  · intro S' hS hstale
    have hthreaded := hlist.threaded
    simp only [ThreadedIn, append_assoc, cons_append, nil_append] at hthreaded ⊢
    refine dropAfter hthreaded hS (hstale (by simp)) ?_ ?_
    · exact fun j hj => links_relink _ (hne j hj).1 (hne j hj).2
    · exact ⟨prevCell, { prevCell with tranNext := after.head? }, hcell, by simp [hprev], rfl, rfl⟩
  · simp only [setLinks_trans, hlist.anchor]
    cases keys <;> simp
  · intro j hj hjx
    exact links_relink _ (fun heq => hj (by simp [heq])) hjx
  · exact rId_relink hcell rfl

theorem deleteRequest_effect (hlist : ListOf S s x.trId (before ++ x.id :: after))
    (hdead : ∀ id, S id → s.links id = none) (h : deleteRequest s x = .ok s') :
    DeleteEffect S s s' x.trId x.id before after := by
  obtain ⟨cell, hcell, hnext, hprev⟩ := cell hlist.threaded
  unfold deleteRequest at h
  split at h
  · cases h
  next tran htran =>
  rw [hcell] at h
  dsimp only at h
  rw [or_none] at hprev
  have hfst (hp : cell.tranPrev = none) : before = [] := by
    rw [hp] at hprev
    rcases hprev with hprev | ⟨-, q, hq, -⟩
    · exact getLast?_eq_none_iff.1 hprev.symm
    · cases hq
  split at h
  next hp hn =>
    cases h
    obtain rfl := hfst hp
    obtain rfl : after = [] := head?_eq_none_iff.1 (hnext.symm.trans hn)
    exact .only
  next next hp hn =>
    obtain rfl := hfst hp
    obtain ⟨rest, rfl⟩ : ∃ rest, after = next :: rest := by
      rw [hn] at hnext
      exact ⟨after.tail, (eq_cons_of_mem_head? hnext.symm)⟩
    split at h
    · cases h
    next nextCell hnextCell =>
    cases h
    exact .first hlist htran hnextCell
  next _ _ prev hp =>
    split at h
    · cases h
    next prevCell hprevCell =>
    cases h
    -- the back pointer leads to a live request, so it is not stale
    obtain ⟨keys, rfl⟩ : ∃ keys, before = keys ++ [prev] := by
      rw [hp] at hprev
      rcases hprev with hprev | ⟨-, q, hq, hstale⟩
      · exact getLast?_eq_some_iff.1 hprev.symm
      · cases hq
        rw [hdead _ hstale] at hprevCell
        cases hprevCell
    rw [hnext]
    exact .behind hlist hprevCell

/-! ## Which requests the queues hold -/

theorem has_setHead (hheads : s1.heads = s.heads) (rId : ResourceId) (head : LockHead)
    (r : ResourceId) (trId : TransactionId) (id : RequestId) :
    Has (s1.setHead rId (some head)) r trId id ↔
      if r = rId then ∃ x ∈ head.queue, x.trId = trId ∧ x.id = id else Has s r trId id := by
  unfold Has
  rw [setHead_heads, hheads]
  split
  · simp
  · exact Iff.rfl

theorem has_of_head {head : LockHead} (hhd : s.heads rId = some head) (trId : TransactionId)
    (id : RequestId) : Has s rId trId id ↔ ∃ x ∈ head.queue, x.trId = trId ∧ x.id = id := by
  simp [Has, hhd]

def SameLocks (s s' : LockTable) : Prop :=
  ∀ t, (s'.trans t).map TransCB.locks = (s.trans t).map TransCB.locks

theorem sameLocks_setWait (s : LockTable) (trId : TransactionId) (wait : Option RequestId) :
    SameLocks s (s.setWait trId wait) := by
  intro t
  simp only [setWait]
  split
  · cases s.trans t <;> rfl
  · rfl

theorem sameLocks_foldl_wake (woken : List LockRequest) (s : LockTable) :
    SameLocks s (woken.foldl wake s) := by
  induction woken generalizing s with
  | nil => exact fun _ => rfl
  | cons x woken ih =>
    intro t
    rw [foldl_cons, ih (wake s x) t, wake_trans]
    exact sameLocks_setWait s x.trId none t

structure KeepsRequests (s s' : LockTable) : Prop where
  has : ∀ r t id, Has s' r t id ↔ Has s r t id
  links : s'.links = s.links
  nextId : s'.nextId = s.nextId
  locks : SameLocks s s'

structure AddsRequest (s : LockTable) (trId : TransactionId) (sId : SessionId)
    (rId : ResourceId) (mode : LockMode) (s' : LockTable) : Prop where
  effect : ∃ s1 x, newRequest s trId sId rId mode = .ok (s1, x) ∧ s'.links = s1.links ∧
    s'.nextId = s1.nextId ∧ SameLocks s1 s'
  has : ∀ r t id, Has s' r t id ↔ Has s r t id ∨ r = rId ∧ t = trId ∧ id = s.nextId

theorem locked_requests {reply : LockReply} (h : Locked s trId sId rId mode s' reply) :
    KeepsRequests s s' ∨ AddsRequest s trId sId rId mode s' := by
  cases h with
  | @free s1 x hhd hnew =>
    obtain ⟨rfl, hheads, -⟩ := newRequest_spec hnew
    refine .inr ⟨⟨s1, _, hnew, rfl, rfl, fun _ => rfl⟩, ?_⟩
    intro r t id
    rw [has_setHead hheads]
    split
    next hr =>
      subst hr
      have hnone : ¬ Has s r t id := by
        rintro ⟨head, _, hsome, -⟩
        rw [hhd] at hsome
        cases hsome
      simp [freshRequest, hnone, eq_comm]
    next hr => simp [hr]
  | @granted s1 x head hhd _ hnew | @waits s1 x head hhd _ hnew =>
    obtain ⟨rfl, hheads, -⟩ := newRequest_spec hnew
    refine .inr ⟨⟨s1, _, hnew, rfl, rfl, ?_⟩, ?_⟩
    · first
        | exact fun _ => rfl
        | exact sameLocks_setWait _ _ _
    intro r t id
    show Has (s1.setHead rId _) r t id ↔ _
    rw [has_setHead hheads]
    split
    next hr =>
      subst hr
      rw [has_of_head hhd]
      simp [freshRequest, eq_comm]
    next hr => simp [hr]
  | @converting head a b own hhd hqueue | @converted head a b own hhd hqueue =>
    refine .inl ⟨?_, rfl, rfl, ?_⟩
    · intro r t id
      show Has (s.setHead rId _) r t id ↔ _
      rw [has_setHead rfl]
      split
      next hr =>
        subst hr
        rw [has_of_head hhd, hqueue]
        simp only [mem_append, mem_cons, or_and_right, exists_or, exists_eq_left]
        rfl
      · exact Iff.rfl
    · first
        | exact fun _ => rfl
        | exact sameLocks_setWait _ _ _

structure DeletesRequest (s : LockTable) (rId : ResourceId) (x : LockRequest)
    (s' : LockTable) : Prop where
  present : Has s rId x.trId x.id
  effect : ∃ s1, deleteRequest s x = .ok s1 ∧ s'.links = s1.links ∧ s'.nextId = s1.nextId ∧
    SameLocks s1 s'
  has : ∀ r t id, Has s' r t id ↔ Has s r t id ∧ id ≠ x.id

theorem map_grant_has {granted tail : List LockRequest} :
    (∃ x ∈ granted.map grant ++ tail, x.trId = trId ∧ x.id = id) ↔
      ∃ x ∈ granted ++ tail, x.trId = trId ∧ x.id = id := by
  simp [or_and_right, exists_or, grant_trId, grant_id]

theorem unlocked_requests (hinv : TableInv s) (hreg : Registered s) (h : Unlocked s trId rId s') :
    (s' = s ∧ ∀ id, ¬ Has s rId trId id) ∨ ∃ x, x.trId = trId ∧ DeletesRequest s rId x s' := by
  cases h with
  | absent habsent =>
    refine .inl ⟨rfl, ?_⟩
    rintro id ⟨head, x, hhd, hx, htr, -⟩
    exact habsent head hhd x hx htr
  | @last s1 head own hhd hqueue hown hdel =>
    have hpresent : Has s rId own.trId own.id := ⟨head, own, hhd, by simp [hqueue], rfl, rfl⟩
    refine .inr ⟨own, hown, hpresent, ⟨s1, hdel, rfl, rfl, fun _ => rfl⟩, ?_⟩
    intro r t id
    by_cases hr : r = rId
    · subst hr
      have hnot : ¬ Has (s1.setHead r none) r t id := by
        rintro ⟨head', _, hhd', -⟩
        simp at hhd'
      rw [has_of_head hhd, hqueue]
      simp [hnot, eq_comm]
    · have hsame : Has (s1.setHead rId none) r t id ↔ Has s r t id := by
        unfold Has
        rw [setHead_heads, if_neg hr, (deleteRequest_fields hdel).1]
      rw [hsame, iff_self_and]
      rintro hhas rfl
      exact hr (hreg.has_id hhas hpresent).1
  | @rescan s1 head head' a b woken own hhd hqueue hown ha hne hdel hscan =>
    have hpresent : Has s rId own.trId own.id := ⟨head, own, hhd, by simp [hqueue], rfl, rfl⟩
    obtain ⟨hheadsWoken, hlinksWoken, hnextWoken⟩ := foldl_wake_fields woken s1
    refine .inr ⟨own, hown, hpresent, ⟨s1, hdel, hlinksWoken, hnextWoken,
      sameLocks_foldl_wake woken s1⟩, ?_⟩
    have hheads := hheadsWoken.trans (deleteRequest_fields hdel).1
    obtain ⟨granted, tail, hrescan⟩ := rescan_spec (hinv rId head hhd) hqueue hne hscan
    intro r t id
    rw [has_setHead hheads]
    split
    next hr =>
      subst hr
      rw [hrescan.queue, map_grant_has, has_of_head hhd]
      simp only [mem_append, hrescan.mem_iff]
      constructor
      · rintro ⟨y, ⟨hy, hoth⟩, htr, hid⟩
        refine ⟨⟨y, hy, htr, hid⟩, ?_⟩
        -- a request of another transaction has another number
        rintro rfl
        exact hoth (hreg.owner r _ _ _ ⟨head, y, hhd, hy, rfl, hid⟩ hpresent)
      · rintro ⟨⟨y, hy, htr, hid⟩, hne⟩
        refine ⟨y, ⟨hy, ?_⟩, htr, hid⟩
        intro hoth
        have hmem : own ∈ head.queue := by rw [hqueue]; simp
        rw [(hinv r head hhd).eq_of_trId hy hmem hoth] at hid
        exact hne hid.symm
    next hr =>
      rw [iff_self_and]
      rintro hhas rfl
      exact hr (hreg.has_id hhas hpresent).1

/-! ## Calls keep the lists -/

theorem links_iff_map {links : Option TranLinks} :
    (∃ cell, links = some cell ∧ cell.rId = rId) ↔ links.map TranLinks.rId = some rId := by
  simp

theorem Lists.keeps (h : Lists S s) (hk : KeepsRequests s s') : Lists S s' := by
  refine ⟨⟨?_, ?_, ?_⟩, ?_, ?_⟩
  · intro id r
    rw [hk.links, h.registered.links_iff]
    exact exists_congr fun t => (hk.has r t id).symm
  · intro r t t' id ht ht'
    exact h.registered.owner r t t' id ((hk.has r t id).1 ht) ((hk.has r t' id).1 ht')
  · intro id cell hcell
    rw [hk.links] at hcell
    rw [hk.nextId]
    exact h.registered.bound id cell hcell
  · intro t
    obtain ⟨ids, hids⟩ := h.list t
    refine ⟨ids, hids.nodup, ?_, by rw [hk.locks t, hids.anchor], ?_⟩
    · rw [ThreadedIn, hk.links]
      exact hids.threaded
    · intro id
      rw [hids.mem_iff]
      exact exists_congr fun r => (hk.has r t id).symm
  · intro id hid
    rw [hk.links, hk.nextId]
    exact h.dead id hid

theorem Registered.adds {ids : List RequestId} (h : Registered s)
    (heff : NewEffect S s s1 trId rId ids) (hlinks : s'.links = s1.links)
    (hnext : s'.nextId = s.nextId + 1)
    (hhas : ∀ r t id, Has s' r t id ↔ Has s r t id ∨ r = rId ∧ t = trId ∧ id = s.nextId) :
    Registered s' := by
  have hfr : ∀ r t, ¬ Has s r t s.nextId := fun r t hr => absurd (h.lt_of_has hr) (lt_irrefl _)
  refine ⟨?_, ?_, ?_⟩
  · intro id r
    rw [links_iff_map, hlinks, heff.resource id]
    by_cases hid : id = s.nextId
    · rw [if_pos hid, some.injEq]
      constructor
      · rintro rfl
        exact ⟨trId, (hhas _ _ _).2 (.inr ⟨rfl, rfl, hid⟩)⟩
      · rintro ⟨t, ht⟩
        rcases (hhas r t id).1 ht with hold | ⟨hr, -, -⟩
        · rw [hid] at hold
          exact absurd hold (hfr r t)
        · exact hr.symm
    · rw [if_neg hid, ← links_iff_map, h.links_iff]
      refine exists_congr fun t => ?_
      rw [hhas]
      simp [hid]
  · intro r t t' id ht ht'
    rcases (hhas r t id).1 ht with hold | ⟨-, rfl, hid⟩
    · rcases (hhas r t' id).1 ht' with hold' | ⟨-, -, hid⟩
      · exact h.owner r t t' id hold hold'
      · rw [hid] at hold
        exact absurd hold (hfr r t)
    · rcases (hhas r t' id).1 ht' with hold' | ⟨-, rfl, -⟩
      · rw [hid] at hold'
        exact absurd hold' (hfr r t')
      · rfl
  · intro id cell hcell
    rw [hnext]
    by_cases hid : id = s.nextId
    · rw [hid]
      exact Nat.lt_succ_self _
    · have hres := heff.resource id
      rw [if_neg hid, ← hlinks, hcell] at hres
      cases hold : s.links id with
      | none =>
        rw [hold] at hres
        cases hres
      | some cell' => exact Nat.lt_succ_of_lt (h.bound id cell' hold)

theorem Lists.adds (h : Lists S s) (ha : AddsRequest s trId sId rId mode s') : Lists S s' := by
  obtain ⟨s1, x, hnew, hlinks, hnext, hlocks⟩ := ha.effect
  obtain ⟨own, hown⟩ := h.list trId
  have heff := newRequest_effect h.registered hown hnew
  have hnext' : s'.nextId = s.nextId + 1 := hnext.trans (newRequest_spec hnew).2.2
  have hfr : ∀ r t, ¬ Has s r t s.nextId :=
    fun r t hr => absurd (h.registered.lt_of_has hr) (lt_irrefl _)
  refine ⟨h.registered.adds heff hlinks hnext' ha.has, ?_, ?_⟩
  · intro t
    by_cases ht : t = trId
    · subst ht
      refine ⟨own ++ [s.nextId], ?_, ?_, ?_, ?_⟩
      · refine nodup_append.2 ⟨hown.nodup, by simp, ?_⟩
        rintro id hid _ hid' rfl
        obtain ⟨r, hr⟩ := (hown.mem_iff id).1 hid
        rw [mem_singleton.1 hid'] at hr
        exact hfr r t hr
      · rw [ThreadedIn, hlinks]
        exact heff.threaded
      · rw [hlocks t, heff.anchor, if_neg (by simp)]
      · intro id
        rw [mem_append, hown.mem_iff]
        simp only [ha.has, exists_or]
        simp
    · obtain ⟨ids, hids⟩ := h.list t
      refine ⟨ids, hids.nodup, ?_, by rw [hlocks t, heff.trans_ne t ht, hids.anchor], ?_⟩
      · refine congr hids.threaded fun id hid => ?_
        obtain ⟨r, hr⟩ := (hids.mem_iff id).1 hid
        rw [hlinks]
        refine heff.links_ne id ?_ ?_
        · intro hmem
          obtain ⟨r', hr'⟩ := (hown.mem_iff id).1 hmem
          exact ht (h.registered.has_id hr hr').2
        · rintro rfl
          exact hfr r t hr
      · intro id
        rw [hids.mem_iff]
        simp only [ha.has]
        simp [ht]
  · intro id hid
    obtain ⟨hnone, hlt⟩ := h.dead id hid
    have hres := heff.resource id
    rw [if_neg (ne_of_lt hlt), hnone, ← hlinks, map_none, map_eq_none_iff]
      at hres
    exact ⟨hres, by rw [hnext']; exact Nat.lt_succ_of_lt hlt⟩

theorem Registered.deletes (h : Registered s) (heff : DeleteEffect S s s1 x.trId x.id before after)
    (hlinks : s'.links = s1.links) (hnext : s'.nextId = s.nextId)
    (hhas : ∀ r t id, Has s' r t id ↔ Has s r t id ∧ id ≠ x.id) : Registered s' := by
  refine ⟨?_, ?_, ?_⟩
  · intro id r
    rw [links_iff_map, hlinks, heff.resource id]
    by_cases hid : id = x.id
    · simp [hhas, hid]
    · rw [if_neg hid, ← links_iff_map, h.links_iff]
      refine exists_congr fun t => ?_
      rw [hhas]
      simp [hid]
  · intro r t t' id ht ht'
    exact h.owner r t t' id ((hhas r t id).1 ht).1 ((hhas r t' id).1 ht').1
  · intro id cell hcell
    have hres := heff.resource id
    rw [← hlinks, hcell] at hres
    rw [hnext]
    cases hold : s.links id with
    | none =>
      rw [hold] at hres
      split at hres <;> cases hres
    | some cell' => exact h.bound id cell' hold

theorem ListOf.deletes {S' : RequestId → Prop} (hown : ListOf S s x.trId (before ++ x.id :: after))
    (hdead : ∀ id, S id → s.links id = none) (hd : DeletesRequest s rId x s') (hS : ∀ q, S q → S' q)
    (hmid : ∀ cell, s.links x.id = some cell → cell.tranPrev ≠ none →
      cell.tranNext ≠ none → S' x.id) : ListOf S' s' x.trId (before ++ after) := by
  obtain ⟨s1, hdel, hlinks, -, hlocks⟩ := hd.effect
  have heff := deleteRequest_effect hown hdead hdel
  have hends : before ≠ [] → after ≠ [] → S' x.id := by
    intro hb ha
    obtain ⟨cell, hcell, hnextCell, hprevCell⟩ := cell hown.threaded
    refine hmid cell hcell ?_ ?_
    · rcases hprevCell with hprev | ⟨-, q, hq, -⟩
      · rw [hprev]
        simpa using hb
      · simp [hq]
    · rw [hnextCell]
      simpa using ha
  refine ⟨?_, ?_, by rw [hlocks, heff.anchor], ?_⟩
  · exact hown.nodup.sublist (List.Sublist.append_left (sublist_cons_self _ _) _)
  · rw [ThreadedIn, hlinks]
    exact heff.threaded S' hS hends
  · intro id
    have hnot : x.id ∉ before ++ after := (nodup_cons.1 (nodup_middle.1 hown.nodup)).1
    simp only [hd.has, exists_and_right, ← hown.mem_iff]
    constructor
    · intro hid
      refine ⟨?_, fun heq => hnot (by rw [← heq]; exact hid)⟩
      simp only [mem_append, mem_cons] at hid ⊢
      tauto
    · rintro ⟨hid, hne⟩
      simp only [mem_append, mem_cons] at hid ⊢
      tauto

theorem Lists.deletes {S' : RequestId → Prop} (h : Lists S s) (hd : DeletesRequest s rId x s')
    (hS : ∀ q, S q → S' q) (hS' : ∀ q, S' q → S q ∨ q = x.id)
    (hmid : ∀ cell, s.links x.id = some cell → cell.tranPrev ≠ none →
      cell.tranNext ≠ none → S' x.id) : Lists S' s' := by
  obtain ⟨s1, hdel, hlinks, hnext, hlocks⟩ := hd.effect
  obtain ⟨own, hown⟩ := h.list x.trId
  have hmem : x.id ∈ own := (hown.mem_iff x.id).2 ⟨rId, hd.present⟩
  obtain ⟨before, after, rfl⟩ := append_of_mem hmem
  have hdead : ∀ id, S id → s.links id = none := fun id hid => (h.dead id hid).1
  have heff := deleteRequest_effect hown hdead hdel
  have hnext' : s'.nextId = s.nextId := hnext.trans (deleteRequest_fields hdel).2
  refine ⟨h.registered.deletes heff hlinks hnext' hd.has, ?_, ?_⟩
  · intro t
    by_cases ht : t = x.trId
    · subst ht
      exact ⟨before ++ after, hown.deletes hdead hd hS hmid⟩
    · obtain ⟨ids, hids⟩ := h.list t
      have hoth : ∀ id ∈ ids, id ∉ before ++ x.id :: after := by
        intro id hid hid'
        obtain ⟨r, hr⟩ := (hids.mem_iff id).1 hid
        obtain ⟨r', hr'⟩ := (hown.mem_iff id).1 hid'
        exact ht (h.registered.has_id hr hr').2
      refine ⟨ids, hids.nodup, ?_, by rw [hlocks t, heff.trans_ne t ht, hids.anchor], ?_⟩
      · refine (congr hids.threaded fun id hid => ?_).mono hS
        rw [hlinks]
        have hnot := hoth id hid
        simp only [mem_append, mem_cons, not_or] at hnot
        exact heff.links_ne id (by simp [hnot.1, hnot.2.2]) hnot.2.1
      · intro id
        simp only [hd.has, exists_and_right, ← hids.mem_iff, iff_self_and]
        rintro hid rfl
        exact hoth x.id hid (by simp)
  · intro id hid
    have hres := heff.resource id
    rw [hlinks, hnext']
    rcases hS' id hid with hold | rfl
    · obtain ⟨hnone, hlt⟩ := h.dead id hold
      rw [hnone, map_none, ite_self, map_eq_none_iff] at hres
      exact ⟨hres, hlt⟩
    · rw [if_pos rfl, map_eq_none_iff] at hres
      exact ⟨hres, h.registered.lt_of_has hd.present⟩

/-! ## Lists along runs -/

theorem lists_init (S : RequestId → Prop) (hS : ∀ q, ¬ S q) : Lists S init := by
  have hnone : ∀ r t id, ¬ Has init r t id := by
    rintro r t id ⟨head, x, hhd, -⟩
    cases hhd
  refine ⟨⟨?_, fun r t t' id h => absurd h (hnone r t id), fun id cell hcell => by cases hcell⟩,
    ?_, fun id hid => absurd hid (hS id)⟩
  · intro id r
    refine iff_of_false ?_ ?_
    · rintro ⟨cell, hcell, -⟩
      cases hcell
    · rintro ⟨t, ht⟩
      exact hnone r t id ht
  · intro t
    refine ⟨[], nodup_nil, trivial, rfl, ?_⟩
    intro id
    simp [hnone]

theorem locked_lists {reply : LockReply} (hs : Lists S s)
    (h : Locked s trId sId rId mode s' reply) : Lists S s' := by
  rcases locked_requests h with hkeeps | hadds
  · exact hs.keeps hkeeps
  · exact hs.adds hadds

theorem unlocked_lists_forwards (hinv : TableInv s) (hs : Lists S s) (h : Unlocked s trId rId s') :
    ∃ S', Lists S' s' := by
  rcases unlocked_requests hinv hs.registered h with ⟨rfl, -⟩ | ⟨x, -, hd⟩
  · exact ⟨S, hs⟩
  · exact ⟨fun q => S q ∨ q = x.id, hs.deletes hd (fun q hq => .inl hq) (fun q hq => hq)
      fun _ _ _ _ => .inr rfl⟩

theorem reachable_lists (h : Reachable anyCall s) : TableInv s ∧ ∃ S, Lists S s := by
  refine @reachable_induction_any s (fun s => TableInv s ∧ ∃ S, Lists S s) ?_ ?_ ?_ h
  · refine ⟨?_, _, lists_init (fun _ => False) fun _ hq => hq⟩
    intro rId head hhd
    cases hhd
  · rintro s s' trId sId rId mode reply ⟨hinv, S, hs⟩ hwait hlocked
    exact ⟨locked_tableInv hinv hwait hlocked, S, locked_lists hs hlocked⟩
  · rintro s s' trId rId ⟨hinv, S, hs⟩ hunl
    exact ⟨unlocked_tableInv hinv hunl, unlocked_lists_forwards hinv hs hunl⟩

/-- No unlock takes a request out of the middle of its transaction's list. -/
def unlocksAtEnds (s : LockTable) : Call → Prop
  | .unlock trId rId => ∀ id cell, Has s rId trId id → s.links id = some cell →
      cell.tranPrev = none ∨ cell.tranNext = none
  | _ => True

theorem unlocked_lists (hinv : TableInv s) (hs : Lists S s) (h : Unlocked s trId rId s')
    (hends : unlocksAtEnds s (.unlock trId rId)) : Lists S s' := by
  rcases unlocked_requests hinv hs.registered h with ⟨rfl, -⟩ | ⟨x, rfl, hd⟩
  · exact hs
  · refine hs.deletes hd (fun _ hq => hq) (fun _ hq => .inl hq) ?_
    intro cell hcell hprev hnext
    rcases hends x.id cell hd.present hcell with hnone | hnone
    · exact absurd hnone hprev
    · exact absurd hnone hnext

end Sedna.LockManager.TranList
