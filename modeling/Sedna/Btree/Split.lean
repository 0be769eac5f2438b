import Sedna.Btree.Search

/-!
# Splitting a full B-tree page

`bt_page_split_tmpl`, `bt_find_split_key_tmpl` and `bt_page_fit` of `insert.cpp`.  The
search adds up volumes in 16 bits.  `Divides` lists the volumes of entries with which
a split leaves room for the new entry; the test of the key size in `bt_insert_tmpl`
lets others through.
-/

namespace Sedna.Btree

/-- `BT_PAGE_PAYLOAD`, the bytes of a key, of its place in the table where keys have variable
size, and of an object; the header of a page is longer than what `sum_lt` adds. -/
structure Sizes (K : Type) where
  payload : Nat
  key : K → Nat
  slot : Nat
  object : Nat
  sum_lt : payload + slot + object + 8 < 2 ^ 16

section

variable {P K O : Type} (z : Sizes K)

def Body.entries : Body P K O → List (K × (List O ⊕ P))
  | .leaf entries => entries.map fun entry => (entry.1, .inl entry.2)
  | .nonLeaf _ entries => entries.map fun entry => (entry.1, .inr entry.2)

/-- A key with its load: a place in the chunk table and the chunk, or an `xptr`. -/
def Sizes.volume (entry : K × (List O ⊕ P)) : Nat :=
  match entry.2 with
  | .inl objs => z.key entry.1 + z.slot + 4 + objs.length * z.object
  | .inr _ => z.key entry.1 + z.slot + 8

/-- What `bt_internal_insert_tmpl` asks room for: a key with its load, or one more object. -/
def pretenderSize (key : K) (createNewKey : Bool) : Body P K O → Nat
  | .nonLeaf _ _ => z.key key + z.slot + 8
  | .leaf _ => if createNewKey = true then z.key key + z.slot + z.object + 4 else z.object

/-- `bt_page_fit`; the free space is what the entries leave of the payload. -/
def pageFit (body : Body P K O) (size : Nat) : Bool :=
  !decide (z.payload - (body.entries.map z.volume).sum ≤ size)

/-- The loop of `bt_find_split_key_tmpl` from key `i` on; `none` is its `SE1008`. -/
def findSplitKey (payload idx size : Nat) : Nat → Nat → List Nat → Option Nat
  | _, _, [] => none
  | i, volume, v :: rest =>
    let volume := if i = idx then (volume + size) % 2 ^ 16 else volume
    if i = idx ∧ payload / 2 < volume then some i
    else
      let volume := (volume + v) % 2 ^ 16
      if payload / 2 < volume then some (if payload ≤ volume then i else i + 1)
      else findSplitKey payload idx size (i + 1) volume rest

def splitIdx (payload : Nat) (volumes : List Nat) (isLast : Bool) (idx size : Nat) : Option Nat :=
  let keyNum := volumes.length
  if keyNum = 1 ∧ idx = keyNum then some 1
  else if isLast = true ∧ idx = keyNum then some (keyNum - 1)
  else findSplitKey payload idx size 0 0 volumes

def Body.takeLeft (k : Nat) : Body P K O → Body P K O
  | .leaf entries => .leaf (entries.take k)
  | .nonLeaf lmp entries => .nonLeaf lmp (entries.take k)

/-- `bt_page_markup` clears the leftmost pointer of the new page. -/
def Body.dropRight (k : Nat) : Body P K O → Body P K O
  | .leaf entries => .leaf (entries.drop k)
  | .nonLeaf _ entries => .nonLeaf none (entries.drop k)

structure Split (P K O : Type) where
  left : Page P K O
  right : Page P K O
  target : Page P K O
  idx : Nat

/-- The entries from `k` on move to the new page.  An object goes to the page of its key. -/
def cut (rpg : P) (page : Page P K O) (idx : Nat) (insertKey : Bool) (k : Nat) : Split P K O :=
  let left := { page with next := some rpg, body := page.body.takeLeft k }
  let right := ⟨page.next, false, false, false, page.body.dropRight k⟩
  if idx < k ∨ idx = k ∧ insertKey = true ∧ idx < page.body.entries.length
  then ⟨left, right, left, idx⟩ else ⟨left, right, right, idx - k⟩

def pageSplit (rpg : P) (page : Page P K O) (idx size : Nat) (insertKey : Bool) :
    Option (Split P K O) :=
  (splitIdx z.payload (page.body.entries.map z.volume) page.next.isNone idx size).map
    (cut rpg page idx insertKey)

structure Body.WellFormed [LT K] (body : Body P K O) : Prop where
  ordered : (body.entries.map Prod.fst).Pairwise (· < ·)
  fits : (body.entries.map z.volume).sum ≤ z.payload

variable {z}

@[simp] theorem entries_takeLeft (k : Nat) (body : Body P K O) :
    (body.takeLeft k).entries = body.entries.take k := by
  cases body <;> simp [Body.takeLeft, Body.entries]

@[simp] theorem entries_dropRight (k : Nat) (body : Body P K O) :
    (body.dropRight k).entries = body.entries.drop k := by
  cases body <;> simp [Body.dropRight, Body.entries]

theorem pageFit_iff {body : Body P K O} {size : Nat} :
    pageFit z body size ↔ (body.entries.map z.volume).sum + size < z.payload := by
  simp [pageFit]
  omega

theorem Body.WellFormed.sublist [LT K] {body body' : Body P K O} (h : body.WellFormed z)
    (hsub : body'.entries.Sublist body.entries) : body'.WellFormed z where
  ordered := h.ordered.sublist (hsub.map _)
  fits := ((hsub.map z.volume).sum_le_sum fun _ _ => Nat.zero_le _).trans h.fits

/-! ## Where the search ends -/

/-- The bytes counted when the search looks at entry `j`: the entries before it, and the
pretender from its index on. -/
def counted (vs : List Nat) (idx size j : Nat) : Nat :=
  (vs.take j).sum + if idx ≤ j then size else 0

section

variable {q idx size i j volume : Nat} {vs rest : List Nat}

theorem passes_half (q idx size : Nat) (vs : List Nat) (m : Nat) :
    (idx < m ∧ (vs.take idx).sum ≤ q / 2 ∧ q / 2 < (vs.take idx).sum + size) ∨
    (∃ j < m, counted vs idx size j ≤ q / 2 ∧
      q / 2 < (vs.take (j + 1)).sum + if idx ≤ j then size else 0) ∨
    (vs.take m).sum + (if idx < m then size else 0) ≤ q / 2 := by
  induction m with
  | zero => exact .inr (.inr (by simp))
  | succ m ih =>
    rcases ih with ⟨hlt, h⟩ | ⟨j, hj, h⟩ | hle
    · exact .inl ⟨by omega, h⟩
    · exact .inr (.inl ⟨j, by omega, h⟩)
    · by_cases hhere : idx = m ∧ q / 2 < (vs.take m).sum + size
      · obtain ⟨rfl, hpass⟩ := hhere
        exact .inl ⟨by omega, by omega, hpass⟩
      · have hcnt : counted vs idx size m ≤ q / 2 := by
          unfold counted
          split_ifs at * <;> omega
        by_cases hpass : q / 2 < (vs.take (m + 1)).sum + if idx ≤ m then size else 0
        · exact .inr (.inl ⟨m, by omega, hcnt, hpass⟩)
        · exact .inr (.inr (by split_ifs at * <;> omega))

theorem findSplitKey_none (hidx : idx < i ∨ i + rest.length ≤ idx) (hle : volume + rest.sum ≤ q / 2)
    (hq : q < 2 ^ 16) : findSplitKey q idx size i volume rest = none := by
  induction rest generalizing i volume with
  | nil => rfl
  | cons v rest ih =>
    simp only [List.length_cons, List.sum_cons] at hidx hle
    have hne : i ≠ idx := by omega
    rw [findSplitKey]
    simp only [hne, false_and, if_false]
    rw [Nat.mod_eq_of_lt (by omega), if_neg (by omega)]
    exact ih (by omega) (by omega)

variable (hq : q < 2 ^ 16) (hsize : q / 2 + size < 2 ^ 16)

include hsize in
theorem findSplitKey_pretender (hj : j < rest.length) (hidx : idx = i + j)
    (hle : volume + (rest.take j).sum ≤ q / 2) (hpass : q / 2 < volume + (rest.take j).sum + size) :
    findSplitKey q idx size i volume rest = some idx := by
  induction rest generalizing i j volume with
  | nil => cases hj
  | cons v rest ih =>
    rw [findSplitKey]
    cases j with
    | zero =>
      simp only [List.take_zero, List.sum_nil, Nat.add_zero] at hidx hle hpass
      simp only [if_pos hidx.symm]
      rw [Nat.mod_eq_of_lt (by omega), if_pos ⟨hidx.symm, hpass⟩, hidx]
    | succ j =>
      rw [List.take_succ_cons, List.sum_cons] at hle hpass
      have hne : i ≠ idx := by omega
      simp only [hne, false_and, if_false]
      rw [Nat.mod_eq_of_lt (by omega), if_neg (by omega)]
      exact ih (by simpa using hj) (by omega) (by omega) (by omega)

include hq hsize in
/-- Entry `j` passes the half.  A volume of 2¹⁶ and more is cut, and no later entry passes. -/
theorem findSplitKey_entry {sum a b : Nat} (hj : j < rest.length) (hfits : sum + rest.sum ≤ q)
    (hvolume : volume = sum + if idx < i then size else 0)
    (ha : a = if idx ≤ i + j then size else 0) (hle : sum + (rest.take j).sum + a ≤ q / 2)
    (hb : b = sum + (rest.take (j + 1)).sum + a) (hpass : q / 2 < b) :
    findSplitKey q idx size i volume rest =
      if b < 2 ^ 16 then some (if q ≤ b then i + j else i + j + 1) else none := by
  induction rest generalizing i j volume sum with
  | nil => cases hj
  | cons v rest ih =>
    rw [List.sum_cons] at hfits
    rw [List.take_succ_cons, List.sum_cons] at hb
    -- the volume when entry `i` is about to be added
    have hsta : (if i = idx then (volume + size) % 2 ^ 16 else volume) =
        sum + if idx ≤ i then size else 0 := by
      split_ifs at * <;> omega
    have hhere : sum + (if idx ≤ i then size else 0) ≤ q / 2 := by
      split_ifs at * <;> omega
    unfold findSplitKey
    simp only [hsta]
    rw [if_neg (by omega)]
    cases j with
    | zero =>
      simp only [List.take_zero, List.sum_nil, Nat.add_zero] at ha hb ⊢
      rw [← ha, (by omega : sum + a + v = b)]
      by_cases hwrap : b < 2 ^ 16
      · rw [Nat.mod_eq_of_lt hwrap, if_pos hpass, if_pos hwrap]
      · have hidx : idx ≤ i := by
          by_contra hidx
          rw [if_neg hidx] at ha
          omega
        rw [if_pos hidx] at ha
        rw [if_neg hwrap, if_neg (by omega)]
        exact findSplitKey_none (by omega) (by omega) hq
    | succ j =>
      rw [List.take_succ_cons, List.sum_cons] at hle
      have hmono : (if idx ≤ i then size else 0) ≤ a := by
        split_ifs at * <;> omega
      rw [Nat.mod_eq_of_lt (by omega), if_neg (by omega)]
      have hfits' : sum + v + rest.sum ≤ q := by omega
      rw [ih (j := j) (i := i + 1) (by simpa using hj) hfits'
        (by split_ifs <;> omega) (by rw [ha, (by omega : i + 1 + j = i + (j + 1))])
        (by omega) (by omega)]
      rw [(by omega : i + 1 + j = i + (j + 1))]

end

/-! ## When a split succeeds -/

/-- When a split of entries with the volumes `vs` leaves room for the new entry, by what
decides about the split key `k`. -/
inductive Divides (q : Nat) (vs : List Nat) (isLast insertKey : Bool) (idx size : Nat) : Prop where
  /-- the rule for the last page of a level -/
  | lastPage (hlast : isLast = true) (hidx : idx = vs.length) (htwo : 2 ≤ vs.length)
      (hroom : (vs.drop (vs.length - 1)).sum + size < q)
  /-- the pretender passes the half -/
  | pretender (hpos : 0 < idx) (hlt : idx < vs.length) (hle : (vs.take idx).sum ≤ q / 2)
      (hpass : q / 2 < (vs.take idx).sum + size)
      (hroom : (if insertKey = true then (vs.take idx).sum else (vs.drop idx).sum) + size < q)
  /-- the entry before `k` passes the half, without the pretender -/
  | entry (k : Nat) (hlt : k < vs.length) (hk : k ≤ idx) (hlast : isLast = true → idx ≠ vs.length)
      (hle : (vs.take (k - 1)).sum ≤ q / 2) (hpass : q / 2 < (vs.take k).sum)
      (hroom : (if idx = k ∧ insertKey = true then (vs.take k).sum else (vs.drop k).sum) + size < q)
  /-- the last entry passes the half and fills the page -/
  | filled (hlast : isLast = false) (hidx : idx = vs.length) (htwo : 2 ≤ vs.length)
      (hle : (vs.take (vs.length - 1)).sum ≤ q / 2) (hall : vs.sum = q)
      (hroom : (vs.drop (vs.length - 1)).sum + size < q)
  /-- the entry before `k` passes the half together with the pretender -/
  | together (k : Nat) (hk : idx < k) (hle : (vs.take (k - 1)).sum + size ≤ q / 2)
      (hpass : q / 2 < (vs.take k).sum + size) (hroom : (vs.take k).sum + size < q)
  /-- entry `k` would overload the page -/
  | overload (k : Nat) (hpos : 0 < k) (hlt : k < vs.length) (hk : idx ≤ k)
      (hle : (vs.take k).sum + size ≤ q / 2) (hover : q ≤ (vs.take (k + 1)).sum + size)
      (hwrap : (vs.take (k + 1)).sum + size < 2 ^ 16)
      (hroom : idx = k → insertKey = false → (vs.drop k).sum + size < q)

/-- The side that the new entry goes to has room for it. -/
def Room (q : Nat) (vs : List Nat) (insertKey : Bool) (idx size k : Nat) : Prop :=
  (if idx < k ∨ idx = k ∧ insertKey = true ∧ idx < vs.length then (vs.take k).sum
    else (vs.drop k).sum) + size < q

section

variable {q idx size : Nat} {vs : List Nat} {isLast insertKey : Bool} (hq : q < 2 ^ 16)
  (hsize : q / 2 + size < 2 ^ 16) (hfits : vs.sum ≤ q) (hfull : q ≤ vs.sum + size)
  (hpos : ∀ v ∈ vs, 0 < v)

include hpos in
theorem take_sum_lt {k : Nat} (hk : k < vs.length) : (vs.take k).sum < vs.sum := by
  have hsum := List.sum_take_add_sum_drop vs k
  rw [List.drop_eq_getElem_cons hk, List.sum_cons] at hsum
  have := hpos _ (vs.getElem_mem hk)
  omega

theorem goesLeft_iff {k : Nat} (hk : k ≤ idx) (hlt : k < vs.length) :
    (idx < k ∨ idx = k ∧ insertKey = true ∧ idx < vs.length) ↔ idx = k ∧ insertKey = true := by
  constructor
  · rintro (h | ⟨heq, hkey, -⟩)
    · omega
    · exact ⟨heq, hkey⟩
  · rintro ⟨heq, hkey⟩
    exact .inr ⟨heq, hkey, by omega⟩

include hq hsize hfits in
theorem splitIdx_entry {j : Nat} (hj : j < vs.length) (htwo : 2 ≤ vs.length)
    (hrule : isLast = true → idx ≠ vs.length) (hle : counted vs idx size j ≤ q / 2)
    (hpass : q / 2 < (vs.take (j + 1)).sum + if idx ≤ j then size else 0) :
    splitIdx q vs isLast idx size =
      if (vs.take (j + 1)).sum + (if idx ≤ j then size else 0) < 2 ^ 16 then
        some (if q ≤ (vs.take (j + 1)).sum + if idx ≤ j then size else 0 then j else j + 1)
      else none := by
  rw [splitIdx, if_neg (by omega), if_neg (by tauto)]
  have hvolume : 0 = 0 + if idx < 0 then size else 0 := by simp
  have := findSplitKey_entry hq hsize hj (by omega) hvolume rfl
    (by simpa [counted] using hle) rfl (by simpa using hpass)
  simpa using this

include hq hsize hfits hfull hpos in
theorem Divides.of_room (htwo : 2 ≤ vs.length) (hidx : idx ≤ vs.length) {k : Nat}
    (hk : splitIdx q vs isLast idx size = some k) (hk0 : 0 < k) (hkn : k < vs.length)
    (hroom : Room q vs insertKey idx size k) : Divides q vs isLast insertKey idx size := by
  have hall := hpos
  by_cases hlast : isLast = true ∧ idx = vs.length
  · rw [splitIdx, if_neg (by omega), if_pos hlast] at hk
    obtain rfl := Option.some.inj hk
    refine .lastPage hlast.1 hlast.2 htwo ?_
    rwa [Room, if_neg (by omega)] at hroom
  · have hrule : isLast = true → idx ≠ vs.length := fun h h' => hlast ⟨h, h'⟩
    rcases passes_half q idx size vs vs.length with ⟨hlt, hle, hpass⟩ | ⟨j, hj, hle, hpass⟩ | hle
    · rw [splitIdx, if_neg (by omega), if_neg hlast,
        findSplitKey_pretender hsize hlt (by omega) (by omega) (by omega)] at hk
      obtain rfl := Option.some.inj hk
      refine .pretender hk0 hlt hle hpass ?_
      simpa [Room, hlt] using hroom
    · rw [splitIdx_entry hq hsize hfits hj htwo hrule hle hpass] at hk
      have hwrap : (vs.take (j + 1)).sum + (if idx ≤ j then size else 0) < 2 ^ 16 := by
        by_contra h
        rw [if_neg h] at hk
        cases hk
      rw [if_pos hwrap, Option.some.injEq] at hk
      unfold counted at hle
      by_cases hij : idx ≤ j
      · rw [if_pos hij] at hk hle hpass hwrap
        split_ifs at hk with hover
        · subst hk
          refine .overload j hk0 hkn hij hle hover hwrap fun heq hkey => ?_
          rwa [Room, if_neg (by simp [heq, hkey])] at hroom
        · subst hk
          exact .together (j + 1) (by omega) hle hpass (by omega)
      · rw [if_neg hij, Nat.add_zero] at hk hle hpass
        split_ifs at hk with hover
        · -- only the last entry can fill the page
          subst hk
          have hend : j + 1 = vs.length := by
            by_contra h
            have := take_sum_lt hpos (by omega : j + 1 < vs.length)
            omega
          have hidx' : idx = vs.length := by omega
          have hj' : vs.length - 1 = j := by omega
          rw [hend, List.take_length] at hover
          refine .filled (by simpa [hidx'] using hrule) hidx' htwo (by rwa [hj']) (by omega) ?_
          rwa [Room, if_neg (by omega), ← hj'] at hroom
        · subst hk
          refine .entry (j + 1) hkn (by omega) hrule hle hpass ?_
          rwa [Room, if_congr (goesLeft_iff (by omega) hkn) rfl rfl] at hroom
    · by_cases hlt : idx < vs.length
      · rw [if_pos hlt, List.take_length] at hle
        have := take_sum_lt hpos (by omega : 0 < vs.length)
        omega
      · rw [splitIdx, if_neg (by omega), if_neg hlast, findSplitKey_none (by omega)
          (by rw [if_neg hlt, List.take_length] at hle; omega) hq] at hk
        cases hk

include hq hsize hfits hfull hpos in
theorem Divides.exists_room (h : Divides q vs isLast insertKey idx size) :
    ∃ k, splitIdx q vs isLast idx size = some k ∧ 0 < k ∧ k < vs.length ∧
      Room q vs insertKey idx size k := by
  cases h with
  | lastPage hlast hidx htwo hroom =>
    refine ⟨vs.length - 1, ?_, by omega, by omega, ?_⟩
    · rw [splitIdx, if_neg (by omega), if_pos ⟨hlast, hidx⟩]
    · rwa [Room, if_neg (by omega)]
  | pretender hpos hlt hle hpass hroom =>
    refine ⟨idx, ?_, hpos, hlt, ?_⟩
    · rw [splitIdx, if_neg (by omega), if_neg (by omega)]
      exact findSplitKey_pretender hsize hlt (by omega) (by omega) (by omega)
    · simpa [Room, hlt] using hroom
  | entry k hlt hk hrule hle hpass hroom =>
    obtain _ | j := k
    · simp at hpass
    have hcut := take_sum_lt hpos hlt
    have hij : ¬ idx ≤ j := by omega
    refine ⟨j + 1, ?_, by omega, hlt, ?_⟩
    · rw [splitIdx_entry hq hsize hfits (j := j) (by omega) (by omega) hrule
        (by simpa [counted, hij] using hle) (by simpa [hij] using hpass)]
      simp only [if_neg hij, Nat.add_zero]
      rw [if_pos (by omega), if_neg (by omega)]
    · rwa [Room, if_congr (goesLeft_iff hk hlt) rfl rfl]
  | filled hlast hidx htwo hle hall hroom =>
    obtain ⟨j, hj⟩ : ∃ j, vs.length = j + 1 := ⟨vs.length - 1, by omega⟩
    have hij : ¬ idx ≤ j := by omega
    have hfst := take_sum_lt hpos (by omega : 0 < vs.length)
    have hend : (vs.take (j + 1)).sum = q := by rw [← hj, List.take_length, hall]
    refine ⟨j, ?_, by omega, by omega, ?_⟩
    · rw [splitIdx_entry hq hsize hfits (j := j) (by omega) htwo (by simp [hlast])
        (by simpa [counted, hij, hj] using hle) (by rw [if_neg hij, hend]; omega)]
      simp only [if_neg hij, Nat.add_zero, hend]
      rw [if_pos hq, if_pos le_rfl]
    · rw [Room, if_neg (by omega), (by omega : j = vs.length - 1)]
      exact hroom
  | together k hk hle hpass hroom =>
    have hlt : k < vs.length := by
      by_contra h
      rw [List.take_of_length_le (by omega)] at hroom
      omega
    obtain _ | j := k
    · omega
    have hij : idx ≤ j := by omega
    refine ⟨j + 1, ?_, by omega, hlt, ?_⟩
    · rw [splitIdx_entry hq hsize hfits (j := j) (by omega) (by omega) (by omega)
        (by simpa [counted, hij] using hle) (by simpa [hij] using hpass)]
      simp only [if_pos hij]
      rw [if_pos (by omega), if_neg (by omega)]
    · rwa [Room, if_pos (by omega)]
  | overload k hk0 hlt hk hle hover hwrap hroom =>
    have hfst := take_sum_lt hpos (by omega : 0 < vs.length)
    refine ⟨k, ?_, hk0, hlt, ?_⟩
    · rw [splitIdx_entry hq hsize hfits hlt (by omega) ?_ (by simpa [counted, hk] using hle)
        (by rw [if_pos hk]; omega)]
      · simp only [if_pos hk]
        rw [if_pos hwrap, if_pos hover]
      · omega
    · rw [Room]
      split_ifs with hgoes
      · omega
      · exact hroom (by omega) (by simp only [Bool.eq_false_iff]; intro h; simp [h] at hgoes; omega)

end

variable {page : Page P K O}

theorem volume_pos (entry : K × (List O ⊕ P)) : 0 < z.volume entry := by
  unfold Sizes.volume
  split <;> omega

theorem pretenderSize_lt {key : K} (hkey : z.key key < z.payload / 2) (createNewKey : Bool)
    (body : Body P K O) : z.payload / 2 + pretenderSize z key createNewKey body < 2 ^ 16 := by
  have := z.sum_lt
  unfold pretenderSize
  split
  · omega
  · split_ifs <;> omega

section

variable [LT K]

variable (z) in
/-- The split succeeds, both pages are well formed, have entries and hold those of the page in
order, and the page that the new entry goes to has room for it. -/
def SplitFits (rpg : P) (page : Page P K O) (idx size : Nat) (insertKey : Bool) : Prop :=
  ∃ s, pageSplit z rpg page idx size insertKey = some s ∧
    s.left.body.entries ≠ [] ∧ s.right.body.entries ≠ [] ∧
    s.left.body.entries ++ s.right.body.entries = page.body.entries ∧
    s.left.body.WellFormed z ∧ s.right.body.WellFormed z ∧ pageFit z s.target.body size

theorem splitFits_iff_room (hwf : page.body.WellFormed z) (rpg : P) (idx size : Nat)
    (insertKey : Bool) :
    SplitFits z rpg page idx size insertKey ↔
      ∃ k, splitIdx z.payload (page.body.entries.map z.volume) page.next.isNone idx size = some k ∧
        0 < k ∧ k < page.body.entries.length ∧
        Room z.payload (page.body.entries.map z.volume) insertKey idx size k := by
  have hroom : ∀ k, Room z.payload (page.body.entries.map z.volume) insertKey idx size k ↔
      pageFit z (cut rpg page idx insertKey k).target.body size := by
    intro k
    rw [pageFit_iff, Room, List.length_map, cut]
    split_ifs <;> simp
  have hleft : ∀ k, (cut rpg page idx insertKey k).left.body = page.body.takeLeft k := by
    intro k
    unfold cut
    split_ifs <;> rfl
  have hright : ∀ k, (cut rpg page idx insertKey k).right.body = page.body.dropRight k := by
    intro k
    unfold cut
    split_ifs <;> rfl
  simp only [SplitFits, pageSplit, Option.map_eq_some_iff]
  constructor
  · rintro ⟨_, ⟨k, hk, rfl⟩, hl, hr, -, -, -, hfit⟩
    rw [hleft, entries_takeLeft] at hl
    rw [hright, entries_dropRight] at hr
    simp only [ne_eq, List.take_eq_nil_iff, List.drop_eq_nil_iff] at hl hr
    exact ⟨k, hk, by omega, by omega, (hroom k).2 hfit⟩
  · rintro ⟨k, hk, hpos, hlt, hfit⟩
    refine ⟨_, ⟨k, hk, rfl⟩, ?_, ?_, ?_, ?_, ?_, (hroom k).1 hfit⟩
    · rw [hleft, entries_takeLeft]
      exact List.ne_nil_of_length_pos (by simp; omega)
    · rw [hright, entries_dropRight]
      simpa using hlt
    · rw [hleft, hright, entries_takeLeft, entries_dropRight, List.take_append_drop]
    · rw [hleft]
      exact hwf.sublist (by simp [List.take_sublist])
    · rw [hright]
      exact hwf.sublist (by simp [List.drop_sublist])

theorem pageSplit_fits_iff (hwf : page.body.WellFormed z) (key : K)
    (hkey : z.key key < z.payload / 2) (createNewKey insertKey : Bool) (idx : Nat)
    (hidx : idx ≤ page.body.entries.length)
    (hfull : ¬ pageFit z page.body (pretenderSize z key createNewKey page.body)) (rpg : P) :
    SplitFits z rpg page idx (pretenderSize z key createNewKey page.body) insertKey ↔
      Divides z.payload (page.body.entries.map z.volume) page.next.isNone insertKey idx
        (pretenderSize z key createNewKey page.body) := by
  have hq : z.payload < 2 ^ 16 := by
    have := z.sum_lt
    omega
  have hsize := pretenderSize_lt hkey createNewKey page.body
  have hpos : ∀ v ∈ page.body.entries.map z.volume, 0 < v := by
    intro v hv
    obtain ⟨entry, -, rfl⟩ := List.mem_map.1 hv
    exact volume_pos entry
  rw [pageFit_iff, not_lt] at hfull
  rw [splitFits_iff_room hwf, ← List.length_map z.volume]
  rw [← List.length_map z.volume] at hidx
  constructor
  · rintro ⟨k, hk, hk0, hkn, hroom⟩
    exact .of_room hq hsize hwf.fits hfull hpos (by omega) hidx hk hk0 hkn hroom
  · exact Divides.exists_room hq hsize hwf.fits hfull hpos

end

end

def leafPage (keys : List Nat) : Page Unit Nat Unit :=
  ⟨none, false, false, false, .leaf (keys.map fun key => (key, [()]))⟩

/-- The sizes of the build for x86-64 with keys of variable size: a header of 152 bytes in a
page of 65536, and objects of eight bytes. -/
def pageSizes (key : Nat → Nat) : Sizes Nat :=
  ⟨65384, key, 4, 8, by simp⟩

theorem pageSplit_fits_first :
    let z := pageSizes fun key => [20000, 30000, 30000].getD key 0
    ¬ pageFit z (leafPage [1, 2]).body 20016 ∧ SplitFits z () (leafPage [1, 2]) 0 20016 true := by
  intro z
  have hfull : ¬ pageFit z (leafPage [1, 2]).body 20016 := by decide
  refine ⟨hfull, (pageSplit_fits_iff ⟨by decide, by decide⟩ 0 (by decide) true true 0 (by decide)
    hfull ()).2 ?_⟩
  exact .together 1 (by decide) (by decide) (by decide) (by decide)

/-- The new key comes second and is a few bytes below the limit: it passes the half after
an entry that fills the half, and the left page cannot take it. -/
theorem pageSplit_overflows :
    let z := pageSizes fun key => [32676, 32690, 10].getD key 0
    let body := (leafPage [0, 2]).body
    let size := pretenderSize z 1 true body
    body.WellFormed z ∧ z.key 1 < z.payload / 2 ∧ ¬ pageFit z body size ∧
      ∃ s, pageSplit z () (leafPage [0, 2]) 1 size true = some s ∧ ¬ pageFit z s.target.body size :=
  ⟨⟨by decide, by decide⟩, by decide, by decide, _,
    congrArg (Option.map _) (show splitIdx _ _ _ _ _ = some 1 by decide), by decide⟩

end Sedna.Btree
