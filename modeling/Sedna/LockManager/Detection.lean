import Sedna.LockManager.Deadlock

/-!
# When the search finds every deadlock

A request that stands behind a compatible one waits for it too, and for such a wait the graph of
`visit` has no edge.  As long as whoever stands behind a request conflicts with it or with
everything it conflicts with, a cycle of waits is a cycle of the graph.
-/

namespace Sedna.LockManager.Detection

open Relation (TransGen ReflTransGen)
open Library Modes Table Queue Steps Wakeup TranList Release Waits Deadlock List LockTable
open DepthFirst

/-! ## One queue -/

/-- A request for `later` may stand behind one for `earlier`: they conflict, or
whatever keeps `earlier` waiting keeps `later` waiting. -/
def MayFollow (later earlier : LockMode) : Prop :=
  lockCompat earlier later = true → Covers later earlier

instance (later earlier : LockMode) : Decidable (MayFollow later earlier) :=
  inferInstanceAs (Decidable (_ → _))

def OrderlyQueue (queue : List LockRequest) : Prop :=
  queue.Pairwise fun y x => y.status ≠ .lockGranted → x.status ≠ .lockGranted →
    MayFollow (wanted x) (wanted y)

variable {queue : List LockRequest} {x y : LockRequest} {head : LockHead} {s s' : LockTable}
  {rId : ResourceId} {t trId : TransactionId} {sId : SessionId} {mode : LockMode}
  {reply : LockReply} {u v b : TransactionId}

theorem OrderlyQueue.mayFollow (h : OrderlyQueue queue) (hahead : Ahead queue y x)
    (hy : y.status ≠ .lockGranted) (hx : x.status ≠ .lockGranted) :
    MayFollow (wanted x) (wanted y) := by
  obtain ⟨a, b, rfl, hmem⟩ := hahead
  exact (pairwise_append.1 h).2.2 y hmem x (by simp) hy hx

theorem covers_wanted (hinv : QueueInv head) (hx : x ∈ head.queue) : Covers (wanted x) x.mode := by
  unfold wanted
  split
  next hs => exact hinv.target x hx hs
  · exact fun _ hm => hm

theorem opposes_iff (hinv : QueueInv head) (hy : y ∈ head.queue)
    (hpend : y.status ≠ .lockGranted) :
    Opposes x y ↔ lockCompat (wanted y) (wanted x) = false := by
  have hcov := covers_wanted hinv hy
  unfold Opposes
  rcases hinv.status y hy with hs | hs | hs
  · exact absurd hs hpend
  · have hwanted : wanted y = y.convertMode := by simp [wanted, hs]
    rw [hwanted] at hcov ⊢
    constructor
    · rintro (hmode | ⟨-, hmode⟩)
      · rw [lockCompat_comm] at hmode ⊢
        exact hcov.conflict hmode
      · exact hmode
    · exact fun hmode => .inr ⟨hs, hmode⟩
  · have hwanted : wanted y = y.mode := by simp [wanted, hs]
    simp [hwanted, hs]

theorem visits_of_blockedBy (hinv : QueueInv head) (hx : x ∈ head.queue)
    (h : BlockedBy head.queue x y) :
    Visits head.queue x y ∨ Ahead head.queue y x ∧ y.status ≠ .lockGranted ∧
      lockCompat (wanted y) (wanted x) = true := by
  obtain ⟨hy, hne, ⟨hheld, hconf⟩ | ⟨hpend, hahead⟩⟩ := h
  · left
    have hxy : y ≠ x := fun heq => hne (by rw [heq])
    rcases ahead_or_ahead hx hy hxy with hahead | hbehind
    · exact .inl ⟨hahead, .inl hconf⟩
    · exact .inr ⟨hbehind, hheld, hconf⟩
  · cases hcompat : lockCompat (wanted y) (wanted x) with
    | false => exact .inl (.inl ⟨hahead, (opposes_iff hinv hy hpend).2 hcompat⟩)
    | true => exact .inr ⟨hahead, hpend, rfl⟩

section

/-! A request `y` ahead of `x` that may be passed over. -/

variable {head : LockHead} {x y z : LockRequest} (hinv : QueueInv head)
  (hahead : Ahead head.queue y x) (hcompat : lockCompat (wanted y) (wanted x) = true)
  (hcov : Covers (wanted x) (wanted y))

include hinv hahead hcompat

theorem ne_of_conflict (hz : lockCompat z.mode (wanted y) = false) : z ≠ x := by
  rintro rfl
  have hmode := covers_wanted hinv hahead.mem.2 (wanted y) hcompat
  rw [lockCompat_comm, hz] at hmode
  cases hmode

include hcov

theorem visits_pass_over (h : Visits head.queue y z) : Visits head.queue x z := by
  rcases h with ⟨hzy, hopp⟩ | ⟨hyz, hheld, hconf⟩
  · refine .inl ⟨hzy.trans hinv.distinct hahead, ?_⟩
    exact hopp.imp hcov.conflict fun hc => ⟨hc.1, hcov.conflict hc.2⟩
  · have hne := ne_of_conflict hinv hahead hcompat hconf
    rcases ahead_or_ahead hahead.mem.2 hyz.mem.2 hne with hzx | hxz
    · exact .inl ⟨hzx, .inl (hcov.conflict hconf)⟩
    · exact .inr ⟨hxz, hheld, hcov.conflict hconf⟩

theorem blockedBy_pass_over (h : BlockedBy head.queue y z) : BlockedBy head.queue x z := by
  obtain ⟨hz, _, ⟨hheld, hconf⟩ | ⟨hpend, hzy⟩⟩ := h
  · have hzx := ne_of_conflict hinv hahead hcompat hconf
    refine ⟨hz, fun htr => hzx (hinv.eq_of_trId hz hahead.mem.2 htr), .inl ⟨hheld, ?_⟩⟩
    exact hcov.conflict hconf
  · have hzx := hzy.trans hinv.distinct hahead
    exact ⟨hz, hzx.trId_ne hinv.distinct, .inr ⟨hpend, hzx⟩⟩

end

/-! ## The table -/

def OrderlyTable (s : LockTable) : Prop :=
  ∀ rId head, s.heads rId = some head → OrderlyQueue head.queue

/-- The `wait` field of a transaction does not point to a deleted request. -/
def Live (s : LockTable) (t : TransactionId) : Prop :=
  ∀ id, waitOf s t = some id → ∃ rId x, Pending s rId x ∧ x.trId = t ∧ x.id = id

theorem edge_of_visits (h : RunInv s) (hhd : s.heads rId = some head) (hx : x ∈ head.queue)
    (hpend : x.status ≠ .lockGranted) (hv : Visits head.queue x y) :
    Edge (hasWait s) (blockers s) x.trId y.trId :=
  (edge_iff h).2 ⟨rId, head, x, y, hhd, hx, hpend, hv, rfl, rfl⟩

theorem edge_or_pass_over (h : RunInv s) (ho : OrderlyTable s) (hw : WaitsFor s u v) :
    Edge (hasWait s) (blockers s) u v ∨
      (∀ w, Edge (hasWait s) (blockers s) v w → Edge (hasWait s) (blockers s) u w) ∧
      ∀ w, WaitsFor s v w → WaitsFor s u w := by
  obtain ⟨rId, head, x, y, hhd, hx, hxp, hblk, rfl, rfl⟩ := hw
  have hinv := h.table rId head hhd
  rcases visits_of_blockedBy hinv hx hblk with hvis | ⟨hahead, hyp, hcompat⟩
  · exact .inl (edge_of_visits h hhd hx hxp hvis)
  · right
    have hcov := (ho rId head hhd).mayFollow hahead hyp hxp hcompat
    have hy : Pending s rId y := ⟨head, hhd, hahead.mem.1, hyp⟩
    -- `y` is the one request with which its transaction waits
    have huniq : ∀ r head' y', s.heads r = some head' → y' ∈ head'.queue →
        y'.status ≠ .lockGranted → y'.trId = y.trId → head' = head ∧ y' = y := by
      intro r head' y' hhd' hy' hyp' htr
      obtain ⟨S, hs⟩ := h.lists
      obtain ⟨rfl, rfl⟩ := h.waits.unique h.table hs ⟨head', hhd', hy', hyp'⟩ hy htr
      exact ⟨Option.some.inj (hhd'.symm.trans hhd), rfl⟩
    constructor
    · intro w hedge
      obtain ⟨r, head', y', z, hhd', hy', hyp', hvis, htr, rfl⟩ := (edge_iff h).1 hedge
      obtain ⟨rfl, rfl⟩ := huniq r head' y' hhd' hy' hyp' htr
      exact edge_of_visits h hhd hx hxp (visits_pass_over hinv hahead hcompat hcov hvis)
    · rintro w ⟨r, head', y', z, hhd', hy', hyp', hbl, htr, rfl⟩
      obtain ⟨rfl, rfl⟩ := huniq r head' y' hhd' hy' hyp' htr
      exact ⟨rId, head', x, z, hhd, hx, hxp,
        blockedBy_pass_over hinv hahead hcompat hcov hbl, rfl, rfl⟩

theorem not_waitsFor_self : ¬ WaitsFor s t t := by
  rintro ⟨_, _, x, y, -, -, -, ⟨-, hne, -⟩, hx, hy⟩
  exact hne (hy.trans hx.symm)

theorem deadlock_of_edge_cycle (h : RunInv s) (hlive : ∀ u, Live s u)
    (hcycle : TransGen (Edge (hasWait s) (blockers s)) t t) :
    deadlock s t = .ok true := by
  have hpend : ∀ u, hasWait s u = true → ∃ rId x, Pending s rId x ∧ x.trId = u := by
    intro u hu
    obtain ⟨id, hid⟩ := Option.isSome_iff_exists.1 hu
    obtain ⟨rId, x, hx, htr, -⟩ := hlive u id hid
    exact ⟨rId, x, hx, htr⟩
  have hnext : ∀ u, hasWait s u = true → ∃ targets, blockers s u = .ok targets := by
    intro u hu
    obtain ⟨rId, x, ⟨head, hhd, hx, hxp⟩, rfl⟩ := hpend u hu
    exact ⟨_, (blockers_of_pending h hhd hx hxp).2⟩
  -- the transactions that wait, by the numbers of their requests
  let nodes : List TransactionId :=
    (range s.nextId).filterMap fun id => (followWait s id).map fun p => p.1.trId
  have hnodes : ∀ u, hasWait s u = true → u ∈ nodes := by
    intro u hu
    obtain ⟨rId, x, hx, rfl⟩ := hpend u hu
    have hlt := h.waits.bound x.trId x.id (h.waits.set rId x hx)
    obtain ⟨head, hhd, hmem, -⟩ := hx
    rw [mem_filterMap]
    refine ⟨x.id, mem_range.2 hlt, ?_⟩
    rw [followWait_of_mem h hhd hmem]
    rfl
  have hfuel : nodes.length < s.nextId + 1 := by
    have hle := length_filterMap_le (fun id => (followWait s id).map fun p => p.1.trId)
      (range s.nextId)
    rw [length_range] at hle
    exact Nat.lt_succ_of_le hle
  have htran : ∃ tran, s.trans t = some tran := by
    obtain ⟨v, ⟨hwait, -⟩, -⟩ := TransGen.head'_iff.1 hcycle
    cases htran : s.trans t with
    | some tran => exact ⟨tran, rfl⟩
    | none =>
      rw [hasWait, htran] at hwait
      cases hwait
  rcases visit_decides hnodes hnext hfuel t with ⟨-, hvisit⟩ | ⟨hnot, -⟩
  · exact deadlock_eq_true.2 ⟨htran, hvisit⟩
  · exact absurd hcycle hnot

/-! ## Calls -/

/-- A request that is queued may follow the requests ahead of it and, if it is a
conversion, may be followed by those behind it; no conversion is queued while
there is a deadlock; nobody unlocks the resource it waits for. -/
def orderly (s : LockTable) : Call → Prop
  | .lock trId _ rId mode => ∀ head, s.heads rId = some head →
      ((∀ y ∈ head.queue, y.trId ≠ trId) →
        ∀ y ∈ head.queue, y.status ≠ .lockGranted → MayFollow mode (wanted y)) ∧
      ∀ a own b, head.queue = a ++ own :: b → own.trId = trId →
        Blocked head.queue own (lockMax own.mode mode) →
          (∀ y ∈ a, y.status ≠ .lockGranted → MayFollow (lockMax own.mode mode) (wanted y)) ∧
          (∀ y ∈ b, y.status ≠ .lockGranted → MayFollow (wanted y) (lockMax own.mode mode)) ∧
          ∀ u, ¬ TransGen (WaitsFor s) u u
  | .unlock trId rId => ∀ x, Pending s rId x → x.trId ≠ trId
  | .releaseTrLocks _ => True

theorem OrderlyQueue.append (h : OrderlyQueue queue)
    (hx : ∀ y ∈ queue, y.status ≠ .lockGranted → x.status ≠ .lockGranted →
      MayFollow (wanted x) (wanted y)) : OrderlyQueue (queue ++ [x]) := by
  refine pairwise_append.2 ⟨h, pairwise_singleton _ _, ?_⟩
  intro y hy z hz
  rw [mem_singleton.1 hz]
  exact hx y hy

theorem OrderlyQueue.replace {a b : List LockRequest} {own own' : LockRequest}
    (h : OrderlyQueue (a ++ own :: b))
    (ha : ∀ y ∈ a, y.status ≠ .lockGranted → own'.status ≠ .lockGranted →
      MayFollow (wanted own') (wanted y))
    (hb : ∀ y ∈ b, own'.status ≠ .lockGranted → y.status ≠ .lockGranted →
      MayFollow (wanted y) (wanted own')) : OrderlyQueue (a ++ own' :: b) := by
  obtain ⟨hfst, hsnd, hacross⟩ := pairwise_append.1 h
  refine pairwise_append.2 ⟨hfst, ?_, ?_⟩
  · exact pairwise_cons.2 ⟨hb, (pairwise_cons.1 hsnd).2⟩
  · intro y hy z hz
    rcases mem_cons.1 hz with rfl | hz
    · exact ha y hy
    · exact hacross y hy z (by simp [hz])

theorem locked_orderly (hs : OrderlyTable s) (hcond : orderly s (.lock trId sId rId mode))
    (h : Locked s trId sId rId mode s' reply) : OrderlyTable s' := by
  cases h with
  | free _ hnew =>
    obtain ⟨rfl, hheads, -⟩ := newRequest_spec hnew
    exact AllHeads.setHead hs hheads (pairwise_singleton _ _)
  | granted hhd _ hnew _ _ =>
    obtain ⟨rfl, hheads, -⟩ := newRequest_spec hnew
    refine AllHeads.setHead hs hheads ?_
    exact (hs rId _ hhd).append fun y _ _ hx => absurd rfl hx
  | waits hhd hfr hnew _ =>
    obtain ⟨rfl, hheads, -⟩ := newRequest_spec hnew
    refine (AllHeads.setHead hs hheads ?_).setWait
    exact (hs rId _ hhd).append fun y hy hyp _ => (hcond _ hhd).1 hfr y hy hyp
  | converting hhd hqueue hown _ hblk =>
    have hqueueOrderly := hs rId _ hhd
    rw [hqueue] at hqueueOrderly
    obtain ⟨hahead, hbehind, -⟩ := (hcond _ hhd).2 _ _ _ hqueue hown hblk
    refine (AllHeads.setHead hs rfl ?_).setWait
    exact hqueueOrderly.replace (fun y hy hyp _ => hahead y hy hyp)
      fun y hy _ hyp => hbehind y hy hyp
  | converted hhd hqueue _ _ _ =>
    have hqueueOrderly := hs rId _ hhd
    rw [hqueue] at hqueueOrderly
    refine AllHeads.setHead hs rfl ?_
    exact hqueueOrderly.replace (fun y _ _ hx => absurd rfl hx) fun y _ hx => absurd rfl hx

theorem unlocked_orderly (hinv : TableInv s) (hs : OrderlyTable s) (h : Unlocked s trId rId s') :
    OrderlyTable s' := by
  refine unlocked_allHeads (fun {head own head' woken granted tail} hold hscan => ?_) hinv hs h
  have hold : OrderlyQueue (granted ++ tail) := by
    rw [← hscan.others]
    exact hold.sublist filter_sublist
  have hgrant : ∀ y ∈ granted.map grant, y.status = .lockGranted :=
    map_grant_granted fun z hz => hscan.shape.status z (by simp [hz])
  rw [hscan.queue]
  refine pairwise_append.2 ⟨?_, (pairwise_append.1 hold).2.1, ?_⟩
  · exact pairwise_of_forall_mem_list fun y hy z _ hyp => absurd (hgrant y hy) hyp
  · exact fun y hy z _ hyp => absurd (hgrant y hy) hyp

theorem locked_live {S : RequestId → Prop} (hs : Lists S s) (hlive : Live s t)
    (hwait : ¬ IsWaiting s trId) (h : Locked s trId sId rId mode s' reply) : Live s' t := by
  intro id ht
  rcases locked_waits hs hwait h with ⟨-, hgrants⟩ | ⟨-, x, henq⟩
  · rw [hgrants.wait] at ht
    obtain ⟨r, y, hy, hrest⟩ := hlive id ht
    exact ⟨r, y, (hgrants.pending r y).2 hy, hrest⟩
  · by_cases htr : t = trId
    · rw [htr, henq.wait_self] at ht
      cases ht
      exact ⟨rId, x, (henq.pending rId x).2 (.inr ⟨rfl, rfl⟩), henq.own.trans htr.symm, rfl⟩
    · rw [henq.wait_ne t htr] at ht
      obtain ⟨r, y, hy, hrest⟩ := hlive id ht
      exact ⟨r, y, (henq.pending r y).2 (.inl hy), hrest⟩

theorem unlocked_live (hinv : TableInv s) (hlive : Live s t) (h : Unlocked s trId rId s')
    (hoth : ∀ x, Pending s rId x → x.trId = trId → x.trId ≠ t) : Live s' t := by
  intro id ht
  have hdeq := unlocked_waits hinv h
  obtain ⟨r, y, hy, rfl, rfl⟩ := hlive id (hdeq.wait_some ht)
  have hnot : ¬ (r = rId ∧ y.trId = trId) := by
    rintro ⟨rfl, htr⟩
    exact hoth y hy htr rfl
  rcases hdeq.kept r y hy hnot with hkept | hnone
  · exact ⟨r, y, hkept, rfl, rfl⟩
  · rw [hnone] at ht
    cases ht

structure OrderlyInv (s : LockTable) : Prop where
  run : RunInv s
  table : OrderlyTable s
  live : ∀ t, Live s t

theorem OrderlyInv.locked (h : OrderlyInv s) (hwait : ¬ IsWaiting s trId)
    (hcond : orderly s (.lock trId sId rId mode)) (hl : Locked s trId sId rId mode s' reply) :
    OrderlyInv s' := by
  obtain ⟨S, hs⟩ := h.run.lists
  exact ⟨h.run.locked hwait hl, locked_orderly h.table hcond hl,
    fun t => locked_live hs (h.live t) hwait hl⟩

theorem reachable_orderlyInv (h : Reachable orderly s) : OrderlyInv s := by
  apply reachable_induction _ _ _ _ h
  · refine ⟨runInv_init, ?_, ?_⟩
    · intro rId head hhd
      cases hhd
    · intro t id ht
      cases ht
  · intro s s' trId sId rId mode reply hs hwait hcond hl
    exact hs.locked hwait hcond hl
  · intro s s' trId rId hs hcond hu
    refine ⟨hs.run.unlocked hu, unlocked_orderly hs.run.table hs.table hu, fun t => ?_⟩
    exact unlocked_live hs.run.table (hs.live t) hu fun x hx htr => absurd htr (hcond x hx)
  · intro s s' trId hs _ hrel
    -- only the field of the transaction itself can dangle, and its entry is deleted
    obtain ⟨hrun, htable, hlive⟩ := releaseTrLocks_induction
      (P := fun s => RunInv s ∧ OrderlyTable s ∧ ∀ t, t ≠ trId → Live s t)
      (fun s s' rId hp hu => ⟨hp.1.unlocked hu, unlocked_orderly hp.1.table hp.2.1 hu,
        fun t ht => unlocked_live hp.1.table (hp.2.2 t ht) hu fun x _ htr => htr ▸ ht.symm⟩)
      hrel ⟨hs.run, hs.table, fun t _ => hs.live t⟩
    refine ⟨hrun, htable, fun t => ?_⟩
    by_cases ht : t = trId
    · intro id hid
      rw [ht, waitOf, (releaseTrLocks_steps hrel).2] at hid
      cases hid
    · exact hlive t ht

/-! ## The waits of the other transactions -/

theorem ahead_filter {p : LockRequest → Bool} (hx : p x = true) (hy : p y = true) :
    Ahead (queue.filter p) y x ↔ Ahead queue y x := by
  constructor
  · rintro ⟨a, b, hspl, hmem⟩
    obtain ⟨l1, l2, rfl, rfl, hrest⟩ := filter_eq_append_iff.1 hspl
    obtain ⟨m1, m2, rfl, -, -, -⟩ := filter_eq_cons_iff.1 hrest
    exact ⟨l1 ++ m1, m2, by simp, by simp [(mem_filter.1 hmem).1]⟩
  · rintro ⟨a, b, rfl, hmem⟩
    exact ⟨a.filter p, b.filter p, by simp [hx], mem_filter.2 ⟨hmem, hy⟩⟩

theorem waitsFor_others (hu : u ≠ t) (hv : v ≠ t) :
    WaitsFor s u v ↔ ∃ rId x y, x ∈ others s t rId ∧ x.status ≠ .lockGranted ∧
      BlockedBy (others s t rId) x y ∧ x.trId = u ∧ y.trId = v := by
  have hblk : ∀ queue x y, x.trId = u → y.trId = v →
      (BlockedBy (queue.filter fun z : LockRequest => z.trId ≠ t) x y ↔ BlockedBy queue x y) := by
    intro queue x y hx hy
    unfold BlockedBy
    rw [ahead_filter (by simp [hx, hu]) (by simp [hy, hv])]
    simp [hy, hv]
  constructor
  · rintro ⟨rId, head, x, y, hhd, hx, hxp, hb, hxu, hyv⟩
    have hoth := others_of_head hhd t
    refine ⟨rId, x, y, ?_, hxp, ?_, hxu, hyv⟩
    · rw [hoth]
      simp [hx, hxu, hu]
    · rw [hoth, hblk head.queue x y hxu hyv]
      exact hb
  · rintro ⟨rId, x, y, hx, hxp, hb, hxu, hyv⟩
    cases hhd : s.heads rId with
    | none =>
      rw [others, queueOf, hhd] at hx
      cases hx
    | some head =>
      rw [others_of_head hhd] at hx hb
      exact ⟨rId, head, x, y, hhd, (mem_filter.1 hx).1, hxp,
        (hblk head.queue x y hxu hyv).1 hb, hxu, hyv⟩

theorem locked_others (h : Locked s trId sId rId mode s' reply) (r : ResourceId) :
    others s' trId r = others s trId r := by
  by_cases hr : r = rId
  · subst hr
    cases h with
    | free hhd hnew | granted hhd _ hnew _ _ | waits hhd _ hnew _ =>
      obtain ⟨rfl, -, -⟩ := newRequest_spec hnew
      simp [others, queueOf, hhd, freshRequest]
    | converting hhd hqueue hown _ _ => simp [others, queueOf, hhd, hqueue, hown, toConverting]
    | converted hhd hqueue hown _ _ => simp [others, queueOf, hhd, hqueue, hown, toConverted]
  · exact others_of_heads (locked_heads_ne h hr) trId

/-! ## Completeness -/

theorem edge_to_last (h : RunInv s) {own : LockRequest} (hhd : s.heads rId = some head)
    (hqueue : head.queue = queue ++ [own]) (hown : own.status ≠ .lockGranted)
    (htrOwn : own.trId = t) (hw : WaitsFor s b t) :
    Edge (hasWait s) (blockers s) b t := by
  subst htrOwn
  obtain ⟨r, head', x, y, hhd', hx, hxp, hblk, rfl, htr⟩ := hw
  rcases visits_of_blockedBy (h.table r head' hhd') hx hblk with hvis | ⟨hahead, hyp, -⟩
  · rw [← htr]
    exact edge_of_visits h hhd' hx hxp hvis
  · have hy : Pending s r y := ⟨head', hhd', hahead.mem.1, hyp⟩
    have hownPending : Pending s rId own := ⟨head, hhd, by simp [hqueue], hown⟩
    obtain ⟨S, hs⟩ := h.lists
    obtain ⟨rfl, rfl⟩ := h.waits.unique h.table hs hy hownPending htr
    obtain rfl : head = head' := Option.some.inj (hhd.symm.trans hhd')
    exact absurd ((behind_iff (h.table r head hhd).distinct hqueue).1 hahead) not_mem_nil

theorem last_wait {a : TransactionId} (h' : OrderlyInv s')
    (hcond : orderly s (.lock trId sId rId mode))
    (hl : Locked s trId sId rId mode s' .lockNotLocked) (ha : a ≠ trId) (hb : b ≠ trId)
    (hfst : WaitsFor s' trId a)
    (hwalk : ReflTransGen (fun u v => u ≠ trId ∧ v ≠ trId ∧ WaitsFor s' u v) a b)
    (hlast : WaitsFor s' b trId) : Edge (hasWait s') (blockers s') b trId := by
  have hold : ∀ {u v}, u ≠ trId → v ≠ trId → WaitsFor s' u v → WaitsFor s u v := by
    intro u v hu hv hw
    rw [waitsFor_others hu hv] at hw ⊢
    simpa only [locked_others hl] using hw
  cases hl with
  | waits hhd _ hnew =>
    obtain ⟨rfl, -, -⟩ := newRequest_spec hnew
    exact edge_to_last h'.run (if_pos rfl) rfl LockStatus.noConfusion rfl hlast
  | converting hhd hqueue hown _ hblk =>
    obtain ⟨-, -, hacyclic⟩ := (hcond _ hhd).2 _ _ _ hqueue hown hblk
    rcases edge_or_pass_over h'.run h'.table hlast with hedge | ⟨-, hpass⟩
    · exact hedge
    · -- passing over the conversion closes a cycle that was there before it
      have hcycle : TransGen (WaitsFor s) b b := by
        apply TransGen.head' (hold hb ha (hpass a hfst))
        exact ReflTransGen.mono (fun u v hw => hold hw.1 hw.2.1 hw.2.2) a b hwalk
      exact absurd hcycle (hacyclic b)

/-- In an orderly run the search finds every deadlock that a request closes. -/
theorem deadlock_complete {s s' : LockTable} (h : Reachable orderly s) {trId : TransactionId}
    {sId : SessionId} {rId : ResourceId} {mode : LockMode} {reply : LockReply}
    (hwait : ¬ IsWaiting s trId) (hcond : orderly s (.lock trId sId rId mode))
    (hlock : lock s trId sId rId mode = .ok (s', reply))
    (hcycle : TransGen (WaitsFor s') trId trId) : deadlock s' trId = .ok true := by
  have hs := reachable_orderlyInv h
  have hl := lock_inv hlock
  have hs' := hs.locked hwait hcond hl
  obtain ⟨a, b, hfst, ha, hb, hwalk, hlast⟩ :=
    cycle_avoiding not_waitsFor_self hcycle
  -- whoever is granted its request waits for nobody
  have hrefused : reply = .lockNotLocked := by
    obtain ⟨S, hlists⟩ := hs.run.lists
    rcases locked_waits hlists hwait hl with ⟨-, hgrants⟩ | ⟨hreply, -⟩
    · obtain ⟨r, head, x, -, hhd, hx, hxp, -, htr, -⟩ := hfst
      exact absurd (isWaiting_iff.2
        ⟨r, x, (hgrants.pending r x).1 ⟨head, hhd, hx, hxp⟩, htr⟩) hwait
    · exact hreply
  subst hrefused
  have hedge := last_wait hs' hcond hl ha hb hfst hwalk hlast
  apply deadlock_of_edge_cycle hs'.run hs'.live
  have hwalk' := ReflTransGen.mono (fun u v hw => hw.2.2) a b hwalk
  apply transGen_of_shortcuts _ (.head hfst hwalk') (.single hedge)
  intro u v hw
  exact (edge_or_pass_over hs'.run hs'.table hw).imp id And.left

theorem orderly_of_granted (h : ∀ x ∈ queueOf s rId, x.status = .lockGranted ∧ x.trId ≠ trId) :
    orderly s (.lock trId sId rId mode) := by
  intro head hhd
  rw [queueOf, hhd] at h
  constructor
  · intro _ y hy hpend
    exact absurd (h y hy).1 hpend
  · intro a own b hqueue hown
    exact absurd hown (h own (by simp [hqueue])).2

/-- Two transactions lock two documents, each the other's as its second. -/
theorem deadlock_complete_two :
    ∃ s s', Reachable orderly s ∧ lock s 2 2 (resource "a") .lmX = .ok (s', .lockNotLocked) ∧
      TransGen (WaitsFor s') 2 2 ∧ deadlock s' 2 = .ok true := by
  obtain ⟨s1, s2, s3, s4, h1, hq1, ha1, h2, hq2, ha2, h3, hq3, ha3, hlock, ha, hb⟩ : ∃ s1 s2 s3 s4,
      perform init (.lock 1 1 (resource "a") .lmX) = .ok s1 ∧
      queueOf s1 (resource "b") = [] ∧
      allowedOn [resource "a", resource "b"] s1 (.lock 2 2 (resource "b") .lmX) = true ∧
      perform s1 (.lock 2 2 (resource "b") .lmX) = .ok s2 ∧
      queueOf s2 (resource "b") = [⟨1, 2, 2, .lockGranted, .lmX, .nullLock⟩] ∧
      allowedOn [resource "a", resource "b"] s2 (.lock 1 1 (resource "b") .lmX) = true ∧
      perform s2 (.lock 1 1 (resource "b") .lmX) = .ok s3 ∧
      queueOf s3 (resource "a") = [⟨0, 1, 1, .lockGranted, .lmX, .nullLock⟩] ∧
      notWaitingOn [resource "a", resource "b"] s3 2 = true ∧
      lock s3 2 2 (resource "a") .lmX = .ok (s4, .lockNotLocked) ∧
      s4.heads (resource "a") = some ⟨[⟨0, 1, 1, .lockGranted, .lmX, .nullLock⟩,
        ⟨3, 2, 2, .lockWaiting, .lmX, .nullLock⟩], .lmX, true⟩ ∧
      s4.heads (resource "b") = some ⟨[⟨1, 2, 2, .lockGranted, .lmX, .nullLock⟩,
        ⟨2, 1, 1, .lockWaiting, .lmX, .nullLock⟩], .lmX, true⟩ :=
    ⟨_, _, _, _, rfl, rfl, rfl, rfl, rfl, rfl, rfl, rfl, rfl, rfl, rfl, rfl⟩
  have hinit : ∀ r, r ∉ [resource "a", resource "b"] → init.heads r = none :=
    fun _ _ => rfl
  have hfree : orderly init (.lock 1 1 (resource "a") .lmX) :=
    orderly_of_granted (by simp [queueOf, init])
  obtain ⟨step1, only1⟩ := step_of_check hinit rfl hfree h1
  obtain ⟨step2, only2⟩ := step_of_check only1 ha1 (orderly_of_granted (by simp [hq1])) h2
  obtain ⟨step3, only3⟩ := step_of_check only2 ha2 (orderly_of_granted (by simp [hq2])) h3
  have hreach : Reachable orderly s3 := ((ReflTransGen.single step1).tail step2).tail step3
  have hcycle : TransGen (WaitsFor s4) 2 2 := by
    have h21 : WaitsFor s4 2 1 := by
      refine ⟨_, _, _, _, ha, mem_cons_of_mem _ mem_cons_self, LockStatus.noConfusion,
        ⟨mem_cons_self, by decide, .inl ⟨rfl, rfl⟩⟩, rfl, rfl⟩
    have h12 : WaitsFor s4 1 2 := by
      refine ⟨_, _, _, _, hb, mem_cons_of_mem _ mem_cons_self, LockStatus.noConfusion,
        ⟨mem_cons_self, by decide, .inl ⟨rfl, rfl⟩⟩, rfl, rfl⟩
    exact .head h21 (.single h12)
  exact ⟨s3, s4, hreach, hlock, hcycle,
    deadlock_complete hreach (not_isWaiting_of_check only3 ha3)
      (orderly_of_granted (by simp [hq3])) hlock hcycle⟩

/-- Transaction 1 asks for `lm_is` behind transaction 2, which waits for `lm_s`
until transaction 3 gives up `lm_ix`, and transaction 3 waits for transaction 1.
Nothing refuses `lm_is` but the order of the queue, and the search does not see it. -/
theorem deadlock_missed :
    ∃ s s', Reachable anyCall s ∧ ¬ IsWaiting s 1 ∧
      lock s 1 1 (resource "r") .lmIS = .ok (s', .lockNotLocked) ∧
      TransGen (WaitsFor s') 1 1 ∧ deadlock s' 1 = .ok false := by
  obtain ⟨s, s', hs, hnone, hlock, hq, hr, hdeadlock⟩ : ∃ s s',
      checkedRun [resource "q", resource "r"] init
      [.lock 3 3 (resource "r") .lmIX, .lock 1 1 (resource "q") .lmX,
        .lock 2 2 (resource "r") .lmS, .lock 3 3 (resource "q") .lmX] = some s ∧
      waitOf s 1 = none ∧ lock s 1 1 (resource "r") .lmIS = .ok (s', .lockNotLocked) ∧
      s'.heads (resource "q") = some ⟨[⟨1, 1, 1, .lockGranted, .lmX, .nullLock⟩,
        ⟨3, 3, 3, .lockWaiting, .lmX, .nullLock⟩], .lmX, true⟩ ∧
      s'.heads (resource "r") = some ⟨[⟨0, 3, 3, .lockGranted, .lmIX, .nullLock⟩,
        ⟨2, 2, 2, .lockWaiting, .lmS, .nullLock⟩, ⟨4, 1, 1, .lockWaiting, .lmIS, .nullLock⟩],
        .lmIX, true⟩ ∧
      deadlock s' 1 = .ok false := ⟨_, _, rfl, rfl, rfl, rfl, rfl, rfl⟩
  have hreach : Reachable anyCall s := checkedRun_reachable (fun _ _ _ => trivial) hs
  refine ⟨s, s', hreach, ?_, hlock, ?_, hdeadlock⟩
  · intro hwait
    obtain ⟨rId, x, hx, htr⟩ := isWaiting_iff.1 hwait
    have hset := (reachable_runInv hreach).waits.set rId x hx
    rw [htr, hnone] at hset
    cases hset
  · have h12 : WaitsFor s' 1 2 := by
      refine ⟨_, _, ⟨4, 1, 1, .lockWaiting, .lmIS, .nullLock⟩,
        ⟨2, 2, 2, .lockWaiting, .lmS, .nullLock⟩, hr, by decide, by decide,
        ⟨by decide, by decide, .inr ⟨by decide, ?_⟩⟩, rfl, rfl⟩
      exact ⟨[⟨0, 3, 3, .lockGranted, .lmIX, .nullLock⟩, ⟨2, 2, 2, .lockWaiting, .lmS, .nullLock⟩],
        [], rfl, by decide⟩
    have h23 : WaitsFor s' 2 3 :=
      ⟨_, _, ⟨2, 2, 2, .lockWaiting, .lmS, .nullLock⟩, ⟨0, 3, 3, .lockGranted, .lmIX, .nullLock⟩,
        hr, by decide, by decide, ⟨by decide, by decide, .inl ⟨rfl, rfl⟩⟩, rfl, rfl⟩
    have h31 : WaitsFor s' 3 1 :=
      ⟨_, _, ⟨3, 3, 3, .lockWaiting, .lmX, .nullLock⟩, ⟨1, 1, 1, .lockGranted, .lmX, .nullLock⟩,
        hq, by decide, by decide, ⟨by decide, by decide, .inl ⟨rfl, rfl⟩⟩, rfl, rfl⟩
    exact .head h12 (.head h23 (.single h31))

end Sedna.LockManager.Detection
