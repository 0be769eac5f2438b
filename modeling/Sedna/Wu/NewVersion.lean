import Sedna.Wu.Updating

/-!
# New versions

An updater replaces the last committed version of a block.  The old version
moves to a block that has just been allocated, and the new header names it.
-/

namespace Sedna.Wu.Invariant

open Library Snapshots Versions Headers List VersionSlot Function SnapshotStore.State Option

variable {Data : Type} {wu wu' : State Data} {spec : Spec Data} {x n a ts : Nat} {c : ClientId}
  {client : Client}

def replaceVersion (blocks : Blocks Data) (x n ts : Nat) (own : VersionSlot)
    (rest older : List VersionSlot) (data : Data) : Blocks Data :=
  Function.update (Function.update blocks n (some ⟨own :: rest, data⟩)) x
    (some ⟨⟨x, ts⟩ :: ⟨n, own.creatorTs⟩ :: older, data⟩)

section

variable {blocks : Blocks Data} {own : VersionSlot} {rest older : List VersionSlot} {data : Data}

theorem replaceVersion_self : replaceVersion blocks x n ts own rest older data x =
    some ⟨⟨x, ts⟩ :: ⟨n, own.creatorTs⟩ :: older, data⟩ :=
  update_self _ _ _

theorem replaceVersion_new (hne : n ≠ x) :
    replaceVersion blocks x n ts own rest older data n = some ⟨own :: rest, data⟩ := by
  unfold replaceVersion
  rw [update_of_ne hne, update_self]

theorem replaceVersion_of_ne (hx : a ≠ x) (hn : a ≠ n) :
    replaceVersion blocks x n ts own rest older data a = blocks a := by
  unfold replaceVersion
  rw [update_of_ne hx, update_of_ne hn]

structure Replaceable (wu : State Data) (spec : Spec Data) (x n ts : Nat) (own : VersionSlot)
    (rest older : List VersionSlot) (data : Data) : Prop where
  block : wu.blocks x = some ⟨own :: rest, data⟩
  xptr : own.xptr = x
  visible : visible wu.list.fakeHeadSnapshot own.creatorTs = true
  committed : spec.committed x ≠ none
  untouched : ∀ c, ¬ spec.Touched c x
  fresh : wu.blocks n = none
  ne_zero : n ≠ 0
  active : ts ∈ wu.list.activeTs
  sublist : older.Sublist rest
  length : older.length ≤ 2
  agree : ∀ s ∈ wu.list.live, s.isDamaged = false →
    Headers.visible s.viewer own.creatorTs = false → resolve s.viewer older = resolve s.viewer rest

variable {key : Option Nat} {v : Viewer} {content : Content Data}

section

variable (h : Replaceable wu spec x n ts own rest older data)
include h

theorem Replaceable.ne : n ≠ x := by
  rintro rfl
  have hblk := h.block
  rw [h.fresh] at hblk
  cases hblk

theorem Replaceable.own_eq : own = ⟨x, own.creatorTs⟩ := by
  rw [← h.xptr]

theorem Replaceable.ne_fresh (ha : wu.blocks a ≠ none) : a ≠ n := by
  rintro rfl
  exact ha h.fresh

section

variable (hinv : Inv wu spec)
include hinv

section

variable (hsees : Sees wu.list spec key v content)
include hsees

theorem Replaceable.locates_of_visible (hvis : Headers.visible v own.creatorTs = true)
    {ts' : Nat} :
    Locates (replaceVersion wu.blocks x n ts own rest older data) v x a ts' ↔
      a = n ∧ ts' = own.creatorTs := by
  have hts : Headers.visible v ts = false := hsees.not_visible hinv.store.time.ages h.active
  have hres : resolve v (⟨x, ts⟩ :: ⟨n, own.creatorTs⟩ :: older) = some ⟨n, own.creatorTs⟩ := by
    rw [resolve_cons_of_not_visible hts]
    exact resolve_cons_of_visible hvis
  unfold Locates
  rw [replaceVersion_self]
  simp only [some.injEq, exists_eq_left', hres, VersionSlot.mk.injEq]
  exact and_congr eq_comm eq_comm

theorem Replaceable.locates_of_not_visible (hvis : Headers.visible v own.creatorTs = false)
    {ts' : Nat} :
    Locates (replaceVersion wu.blocks x n ts own rest older data) v x a ts' ↔
      Locates wu.blocks v x a ts' := by
  have hts : Headers.visible v ts = false := hsees.not_visible hinv.store.time.ages h.active
  have hagree : resolve v older = resolve v rest := by
    cases hsees with
    | lastCommitted =>
      rw [h.visible] at hvis
      cases hvis
    | snapshot hs hdam => exact h.agree _ hs hdam hvis
  have hnew : resolve v (⟨x, ts⟩ :: ⟨n, own.creatorTs⟩ :: older) = resolve v (own :: rest) := by
    rw [resolve_cons_of_not_visible hts, resolve_cons_of_not_visible hvis, ← hagree]
    exact resolve_cons_of_not_visible hvis
  unfold Locates
  rw [replaceVersion_self, h.block]
  simp only [some.injEq, exists_eq_left', hnew]

theorem Replaceable.locates_of_ne {y ts' : Nat} (hy : content y ≠ none) (hne : y ≠ x) :
    replaceVersion wu.blocks x n ts own rest older data y = wu.blocks y ∧
      (Locates (replaceVersion wu.blocks x n ts own rest older data) v y a ts' ↔
        Locates wu.blocks v y a ts') := by
  have hallocated := hinv.store.block.allocated hsees ⟨y, hy, .inl rfl⟩
  have hsame : replaceVersion wu.blocks x n ts own rest older data y = wu.blocks y :=
    replaceVersion_of_ne hne (h.ne_fresh hallocated)
  refine ⟨hsame, ?_⟩
  unfold Locates
  rw [hsame]

theorem Replaceable.needs (ha : a ≠ n)
    (hneeds : Needs (replaceVersion wu.blocks x n ts own rest older data) v content a) :
    Needs wu.blocks v content a := by
  obtain ⟨y, hy, hloc⟩ := hneeds
  refine ⟨y, hy, hloc.imp_right ?_⟩
  rintro ⟨ts', hloc⟩
  refine ⟨ts', ?_⟩
  by_cases hne : y = x
  · subst hne
    cases hvis : Headers.visible v own.creatorTs with
    | true => exact absurd ((h.locates_of_visible hinv hsees hvis).1 hloc).1 ha
    | false => exact (h.locates_of_not_visible hinv hsees hvis).1 hloc
  · exact (h.locates_of_ne hinv hsees hy hne).2.1 hloc

theorem Replaceable.resolves {y : Nat} {ver : Version Data} (hver : content y = some ver) :
    Resolves (replaceVersion wu.blocks x n ts own rest older data) v y ver := by
  have hy : content y ≠ none := by
    rw [hver]
    simp
  obtain ⟨hmas, a, b, hloc, hb, hholds⟩ := hinv.store.block.seen key v content hsees y ver hver
  have han : a ≠ n := h.ne_fresh (by rw [hb]; simp)
  by_cases hne : y = x
  · subst hne
    refine ⟨⟨_, _, replaceVersion_self, rfl⟩, ?_⟩
    cases hvis : Headers.visible v own.creatorTs with
    | true =>
      -- The old version was at the logical address.
      have hold : Locates wu.blocks v y y own.creatorTs := by
        refine ⟨_, h.block, ?_⟩
        rw [resolve_cons_of_visible hvis]
        exact congrArg some h.own_eq
      obtain ⟨rfl, hts⟩ := hloc.unique hold
      rw [h.block, some.injEq] at hb
      subst hb
      refine ⟨n, _, ?_, replaceVersion_new h.ne, hholds⟩
      exact (h.locates_of_visible hinv hsees hvis).2 ⟨rfl, hts⟩
    | false =>
      have hax : a ≠ y := by
        rintro rfl
        rw [h.block, some.injEq] at hb
        subst hb
        have hhd := hholds.1
        rw [head?_cons, some.injEq] at hhd
        rw [hhd] at hvis
        have hseen := hloc.visible
        rw [hvis] at hseen
        cases hseen
      refine ⟨a, b, (h.locates_of_not_visible hinv hsees hvis).2 hloc, ?_, hholds⟩
      rw [replaceVersion_of_ne hax han, hb]
  · have hax : a ≠ x := by
      rintro rfl
      rw [h.block, some.injEq] at hb
      subst hb
      have hhd := hholds.1
      rw [head?_cons, some.injEq] at hhd
      apply hne
      rw [← h.xptr, hhd]
    obtain ⟨hsame, hiff⟩ := h.locates_of_ne hinv hsees hy hne
    refine ⟨?_, a, b, hiff.2 hloc, ?_, hholds⟩
    · unfold IsMaster
      rw [hsame]
      exact hmas
    · rw [replaceVersion_of_ne hax han, hb]

end

theorem Replaceable.headerOk :
    HeaderOk wu.list.activeTs wu.timestamp (⟨x, ts⟩ :: ⟨n, own.creatorTs⟩ :: older) := by
  have hhdr := hinv.store.block.headers x _ h.block
  have hown : own.creatorTs ∉ wu.list.activeTs := (visible_fakeHeadSnapshot.1 h.visible).2
  have holder : ∀ slot ∈ older, slot ∈ rest := fun slot hslot => h.sublist.subset hslot
  have hinactive : ∀ slot ∈ (⟨n, own.creatorTs⟩ : VersionSlot) :: older,
      slot.creatorTs ∉ wu.list.activeTs := by
    exact forall_mem_cons.2
      ⟨hown, fun slot hslot => hhdr.tail slot (holder slot hslot)⟩
  obtain ⟨hval, hlt⟩ := hinv.store.time.activeTs ts h.active
  constructor
  · simp
  · rw [map_cons, nodup_cons]
    constructor
    · intro hmem
      obtain ⟨slot, hslot, heq⟩ := mem_map.1 hmem
      exact hinactive slot hslot (heq ▸ h.active)
    · have hsub : (own.creatorTs :: older.map creatorTs).Sublist ((own :: rest).map creatorTs) :=
        (h.sublist.map creatorTs).cons_cons own.creatorTs
      exact hhdr.nodup.sublist hsub
  · intro slot hslot
    simp only [mem_cons] at hslot
    rcases hslot with rfl | rfl | hslot
    · refine ⟨?_, hval⟩
      rw [← h.xptr]
      exact (hhdr.valid own mem_cons_self).1
    · exact ⟨h.ne_zero, (hhdr.valid own mem_cons_self).2⟩
    · exact hhdr.valid slot (mem_cons_of_mem _ (holder slot hslot))
  · intro slot hslot
    simp only [mem_cons] at hslot
    rcases hslot with rfl | rfl | hslot
    · exact hlt
    · exact hhdr.lt own mem_cons_self
    · exact hhdr.lt slot (mem_cons_of_mem _ (holder slot hslot))
  · exact hinactive
  · have hlen := h.length
    simp only [length_cons, versionsCount]
    omega

end

omit h in
theorem visibleIdx_cons_of_visible {v : Viewer}
    (hvis : Headers.visible v own.creatorTs = true) :
    visibleIdx v ((own :: rest).map creatorTs) = some 0 := by
  simp [visibleIdx, List.findIdx?_cons, hvis]

theorem Replaceable.replaced (hinv : Inv wu spec) {anchorTs : Nat} {type : FunctionType}
    (hanc : anchorTs = anchorOf wu.list (expanded wu.list ((own :: rest).map creatorTs)))
    (hblocks : wu'.blocks = replaceVersion wu.blocks x n ts own rest older data)
    (hlist : wu'.list = wu.list) (hts : wu'.timestamp = wu.timestamp) :
    Replaced wu' spec ts ⟨x, n, anchorTs, type⟩ own.creatorTs older rest := by
  have hlc : visibleIdx wu.list.fakeHeadSnapshot ((own :: rest).map creatorTs) = some 0 :=
    visibleIdx_cons_of_visible h.visible
  constructor
  · exact ⟨data, by rw [hblocks, replaceVersion_self]⟩
  · refine ⟨data, ?_⟩
    rw [hblocks, replaceVersion_new h.ne]
    conv_lhs => rw [h.own_eq]
  · exact h.ne
  · rw [hanc, hts]
    exact hinv.store.time.ages.anchorOf_le_bound hinv.store.time.live (by rw [hlc]; simp)
  · intro snTs v content hsees hvis
    rw [hlist] at hsees
    cases hsees with
    | snapshot hs hdam =>
      rw [hanc]
      exact (hinv.store.time.ages.anchorOf_spec hlc).1 (_, 0)
        (mem_matchedLive.2 ⟨_, hs, visibleIdx_cons_of_visible hvis, rfl⟩) rfl
  · intro snTs v content hsees hvis
    rw [hlist] at hsees
    cases hsees with
    | snapshot hs hdam => exact h.agree _ hs hdam hvis

end

theorem Replaceable.extends (h : Replaceable wu spec x n client.timestamp own rest older data)
    (hinv : Inv wu spec) (hopen : OpenUpdater wu c client)
    {anchorTs : Nat} {isPers : Bool} (hanc : anchorTs =
      anchorOf wu.list (expanded wu.list ((own :: rest).map creatorTs))) :
    Extends wu spec c client ⟨x, n, anchorTs, .createVersion isPers⟩
      (replaceVersion wu.blocks x n client.timestamp own rest older data) := by
  obtain ⟨hheld, hneeds, hgarb⟩ := hinv.fresh h.fresh
  have hrun := hopen.running
  have hx : ¬ Held wu x := by
    rintro ⟨c', ts', functions, hrun', g, hg, heq⟩
    have hok := hinv.store.block.function c' ts' functions hrun' g hg
    have hlxptr : x = g.lxptr := by
      rcases heq with heq | heq
      · exact heq
      · obtain ⟨b, oldTs, hb, hhd⟩ := hok.head_xptr
        rw [← heq, h.block, some.injEq] at hb
        subst hb
        rw [head?_cons, some.injEq] at hhd
        rw [← h.xptr, hhd]
    apply h.untouched c'
    rw [hlxptr]
    exact hinv.work.function c' ts' functions hrun' g hg
  have hcases : ∀ a b, replaceVersion wu.blocks x n client.timestamp own rest older data a =
      some b →
      a = x ∧ b = ⟨⟨x, client.timestamp⟩ :: ⟨n, own.creatorTs⟩ :: older, data⟩ ∨
        a = n ∧ b = ⟨own :: rest, data⟩ ∨ wu.blocks a = some b := by
    intro a b hb
    by_cases hax : a = x
    · subst hax
      rw [replaceVersion_self, some.injEq] at hb
      exact .inl ⟨rfl, hb.symm⟩
    · by_cases han : a = n
      · subst han
        rw [replaceVersion_new h.ne, some.injEq] at hb
        exact .inr (.inl ⟨rfl, hb.symm⟩)
      · rw [replaceVersion_of_ne hax han] at hb
        exact .inr (.inr hb)
  constructor
  · intro a b hb
    rcases hcases a b hb with ⟨rfl, rfl⟩ | ⟨rfl, rfl⟩ | hb
    · exact h.headerOk hinv
    · exact hinv.store.block.headers x _ h.block
    · exact hinv.store.block.headers a b hb
  · intro key v content hsees y ver hver
    exact h.resolves hinv hsees hver
  · intro a b slot hb hhd hact
    rcases hcases a b hb with ⟨rfl, rfl⟩ | ⟨rfl, rfl⟩ | hb
    · cases hhd
      exact .inl ⟨rfl, rfl, by simp⟩
    · cases hhd
      exact absurd hact (visible_fakeHeadSnapshot.1 h.visible).2
    · exact .inr ⟨b, hb, hhd⟩
  · intro a ha
    apply replaceVersion_of_ne
    · rintro rfl
      exact hx ha
    · rintro rfl
      exact hheld ha
  · exact .create isPers rfl own.creatorTs older rest (h.replaced hinv hanc rfl rfl rfl)
  · rintro g hg rfl
    exact absurd ⟨c, _, _, hrun, g, hg, .inl rfl⟩ hx
  · rintro c' ts functions - hrun' g hg rfl
    exact hx ⟨c', ts, functions, hrun', g, hg, .inl rfl⟩
  · intro owners a ha
    have hread : spec.read c x ≠ none := by
      rw [read_of_untouched (h.untouched c)]
      exact h.committed
    have hax := hinv.ne_of_garbage ha hread
    have han := hgarb owners a ha
    refine ⟨?_, hax, han, ?_⟩
    · rw [replaceVersion_of_ne hax han]
      exact ha.allocated
    · intro key v content hsees
      exact h.needs hinv hsees han

end

/-! ## The call -/

theorem filterOutDamaged_working {l : SnapshotsList} {own : VersionSlot} {rest : List VersionSlot}
    {out : List (Nat × Nat)} (hvis : visible l.fakeHeadSnapshot own.creatorTs = false)
    (hok : filterOutDamaged l (expanded l ((own :: rest).map creatorTs)) = .ok out) :
    out.head?.map Prod.fst = some workingVersionTimestamp := by
  rw [expanded, map_cons, headD_cons, hvis] at hok
  simp only [Bool.false_eq_true, if_false, filterOutDamaged, ne_eq, not_true_eq_false,
    false_and] at hok
  cases hrest : filterOutDamaged l
    (matched l (own.creatorTs :: rest.map creatorTs)) with
  | error error =>
    rw [hrest] at hok
    cases hok
  | ok out' =>
    rw [hrest] at hok
    cases hok
    rfl

structure Composed (l : SnapshotsList) (own : VersionSlot) (rest : List VersionSlot) (x ts : Nat)
    (out : List (Nat × Nat)) (older : List VersionSlot) : Prop where
  filtered : filterOutDamaged l (expanded l ((own :: rest).map VersionSlot.creatorTs)) = .ok out
  composed : composeHeader (own :: rest) x ts out = (⟨x, ts⟩ :: own :: older, none)
  sublist : older.Sublist rest
  length : older.length ≤ 2
  agree : ∀ s ∈ l.live, s.isDamaged = false → visible s.viewer own.creatorTs = false →
    resolve s.viewer older = resolve s.viewer rest

theorem Inv.composed (h : Inv wu spec) {own : VersionSlot} {rest : List VersionSlot} {data : Data}
    (hblk : wu.blocks x = some ⟨own :: rest, data⟩)
    (hvis : visible wu.list.fakeHeadSnapshot own.creatorTs = true) (ts : Nat) :
    ∃ out older, Composed wu.list own rest x ts out older ∧
      out.head?.map Prod.fst = some lastCommitedVersionTimestamp := by
  obtain ⟨out, older, hfilt, hhd, hcmp, hsublist, hlen, hagree⟩ :=
    composeHeader_spec h.store.time.ages h.store.time.futures h.store.time.few hvis
      (h.store.block.headers x _ hblk).nodup x ts
  exact ⟨out, older, ⟨hfilt, hcmp, hsublist, hlen, hagree⟩, hhd⟩

theorem Inv.createBlockVersion_cases (h : Inv wu spec) (c : ClientId) (x n : Nat) :
    (∃ error, createBlockVersion wu c x n = wu.fail error) ∨
      ∃ client own rest older data anchorTs isPers out, OpenUpdater wu c client ∧
        wu.blocks x = some ⟨own :: rest, data⟩ ∧ own.xptr = x ∧
        visible wu.list.fakeHeadSnapshot own.creatorTs = true ∧
        Composed wu.list own rest x client.timestamp out older ∧
        anchorTs = anchorOf wu.list (expanded wu.list ((own :: rest).map creatorTs)) ∧
        isPers = isVersionPersistent (expanded wu.list ((own :: rest).map creatorTs))
          (persistentSnapshotTs wu.list) ∧
        createBlockVersion wu c x n =
          (withFunction wu c client ⟨x, n, anchorTs, .createVersion isPers⟩
            (replaceVersion wu.blocks x n client.timestamp own rest older data)).succeed := by
  unfold createBlockVersion
  cases hcl : wu.clients c with
  | none => exact .inl ⟨_, rfl⟩
  | some client =>
    dsimp only
    split
    next => exact .inl ⟨_, rfl⟩
    next hquery =>
      split
      next => exact .inl ⟨_, rfl⟩
      next hended =>
        have hopen := OpenUpdater.of_guards hcl hended hquery
        split
        next => exact .inl ⟨_, rfl⟩
        next found hput =>
          obtain ⟨own, rest, data, hfnd⟩ := h.putBlock_updater hcl hopen.status hput
          rw [hfnd.out, hfnd.content, hfnd.anchorTs]
          cases hvis : visible wu.list.fakeHeadSnapshot own.creatorTs with
          | false =>
            split
            next => exact .inl ⟨_, rfl⟩
            next out hfilt =>
              rw [if_pos (filterOutDamaged_working hvis hfilt)]
              exact .inl ⟨_, rfl⟩
          | true =>
            obtain ⟨out, older, hcmp, hhd⟩ :=
              h.composed hfnd.block hvis client.timestamp
            simp only [hcmp.filtered, hcmp.composed, hhd]
            exact .inr ⟨client, own, rest, older, data, _, _, out, hopen, hfnd.block,
              hfnd.xptr, hvis, hcmp, rfl, rfl, rfl⟩

theorem Inv.createVersion (h : Inv wu spec) {ver : Version Data} (hread : spec.read c x = some ver)
    (hoth : ∀ c', c' ≠ c → ¬ spec.Touched c' x) (hfr : wu.blocks n = none) (hn : n ≠ 0)
    (hcl : wu.clients c = some client) (hok : (createBlockVersion wu c x n).error = none) :
    Sound (createBlockVersion wu c x n)
      (spec.write c x (some { ver with creatorTs := client.timestamp })) := by
  rcases h.createBlockVersion_cases c x n with
    ⟨error, heq⟩ | ⟨client', own, rest, older, data, anchorTs, isPers, out, hopen,
      hblk, hxptr, hvis, hcmp, hanc, -, heq⟩
  · rw [heq] at hok
    cases hok
  · obtain rfl := some.inj (hcl.symm.trans hopen.registered)
    have hact := h.client.updater c client hcl hopen.status
    -- The updater has no version of its own, or that would be the head of the block.
    have huntouched : ¬ spec.Touched c x := by
      intro htch
      obtain ⟨r, hr⟩ := ne_none_iff_exists'.1 htch
      rw [SnapshotStore.State.read, hr] at hread
      cases hread
      obtain ⟨functions, b, hrun, hb, hholds⟩ := h.work.written c x ver hr
      rw [hblk, some.injEq] at hb
      subst hb
      have hts : own.creatorTs = ver.creatorTs := congrArg creatorTs (some.inj hholds.1)
      have hrun' := h.store.block.active c _ _ hrun
      rw [← hts] at hrun'
      exact (visible_fakeHeadSnapshot.1 hvis).2 hrun'
    rw [read_of_untouched huntouched] at hread
    have hreplaceable : Replaceable wu spec x n client.timestamp own rest older data := by
      refine ⟨hblk, hxptr, hvis, by simp [hread], ?_, hfr, hn, hact, hcmp.sublist,
        hcmp.length, hcmp.agree⟩
      intro c'
      by_cases hc : c' = c
      · rw [hc]
        exact huntouched
      · exact hoth c' hc
    rw [heq]
    apply Inv.succeed
    have hextends : Extends wu spec c client ⟨x, n, anchorTs, .createVersion isPers⟩
        (replaceVersion wu.blocks x n client.timestamp own rest older data) :=
      hreplaceable.extends h hopen hanc
    refine hextends.inv hopen h (by simp) ?_
    rintro ver' ⟨⟩
    refine ⟨rfl, _, replaceVersion_self, rfl, ?_⟩
    -- The new version starts with the data of the old one.
    obtain ⟨-, a, b, ⟨master, hmas, hres⟩, hb, hholds⟩ :=
      h.store.block.seen _ _ _ .lastCommitted x ver hread
    rw [hblk, some.injEq] at hmas
    subst hmas
    rw [resolve_cons_of_visible hvis, some.injEq] at hres
    have ha : a = x := by rw [← hxptr, hres]
    subst ha
    rw [hblk, some.injEq] at hb
    subst hb
    exact hholds.2

end Sedna.Wu.Invariant
