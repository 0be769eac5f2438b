import Sedna.Btree.Descent

/-!
# Range positioning

A search ends in one unit, on a key, before a bigger key or right of all keys.
The cursors of `bt_find_ge` and `bt_find_gt` are compared with the first key of
the whole tree from the given key on.
-/

namespace Sedna.Btree

open List Option LeafUnit

variable {P K O : Type}

/-! ## Inside a unit -/

/-- The first page of a cluster that has its key, with the objects there. -/
def start (tail : P) (tailObjs : List O) : List (P × Option (List O)) → P × List O
  | [] => (tail, tailObjs)
  | (p, some objs) :: _ => (p, objs)
  | (_, none) :: front => start tail tailObjs front

namespace LeafUnit

def isCluster : LeafUnit P K O → Bool
  | .single .. => false
  | .cluster .. => true

/-- A cluster whose head page has no key. -/
def headless : LeafUnit P K O → Bool
  | .cluster (_, none) .. => true
  | _ => false

def size : LeafUnit P K O → Nat
  | .single .. => 1
  | .cluster _ middle .. => middle.length + 2

def page (u : LeafUnit P K O) (i : Nat) : P := if i = 0 then u.first else u.last

def firsts : LeafUnit P K O → List (Cursor P K)
  | .single p entries => entries.mapIdx fun i e => ⟨p, i, e.2.length, e.1⟩
  | .cluster head middle tail key tailObjs rest =>
    let found := start tail tailObjs (head :: middle)
    ⟨found.1, 0, found.2.length, key⟩ :: rest.mapIdx fun i e => ⟨tail, i + 1, e.2.length, e.1⟩

theorem page_single (p : P) (entries : List (K × List O)) (i : Nat) :
    (single p entries).page i = p := by
  simp [page, first, last]

section

variable {pages : P → Option (Page P K O)} {front : List (P × Option (List O))} {isHead : Bool}
  {tail : P} {ckey key : K} {tailObjs : List O} {rest : List (K × List O)} {next : Option P}
  {fuel : Nat} (hfront : FrontAt pages ckey tail isHead front)
  (htail : pages tail = some ⟨next, true, false, true, .leaf ((ckey, tailObjs) :: rest)⟩)
  (hfuel : front.length < fuel)
include hfront htail hfuel

variable [LinearOrder K]

end

section

variable {pages : P → Option (Page P K O)} {u : LeafUnit P K O} {next : Option P} {fuel i : Nat}
  (slots : P → Nat)

theorem At.entry (h : u.At pages next) (hi : i < u.keys.length)
    (hhd : u.headless = true → 0 < i) :
    ∃ page k, pages (u.page i) = some page ∧ page.keys[i]? = some k ∧
      u.firsts[i]? = some ⟨u.page i, i, page.chnkSize i, k⟩ ∧
      (page.isClus && !page.isClusHead && !page.isClusTail) = false := by
  cases u with
  | single p entries =>
    simp only [keys, length_map] at hi
    rw [page_single]
    refine ⟨_, entries[i].1, h, ?_, ?_, rfl⟩
    · simp [Page.keys, hi]
    · simp [firsts, Page.chnkSize, hi]
  | cluster head middle tail key tailObjs rest =>
    obtain ⟨⟨hp, -⟩, htail⟩ := h
    cases i with
    | zero =>
      obtain ⟨p, _ | objs⟩ := head
      · exact absurd (hhd rfl) (lt_irrefl 0)
      · exact ⟨_, key, hp, rfl, rfl, rfl⟩
    | succ i =>
      simp only [keys, length_cons, length_map] at hi
      have hi' : i < rest.length := by omega
      refine ⟨_, rest[i].1, htail, ?_, ?_, rfl⟩
      · simp [Page.keys, hi']
      · simp [firsts, Page.chnkSize, page, last, hi']

theorem At.lastPage (h : u.At pages next) :
    ∃ page, pages u.last = some page ∧ page.next = next ∧ page.keys = u.keys ∧
      page.isClus = u.isCluster := by
  cases u with
  | single p entries => exact ⟨_, h, rfl, rfl, rfl⟩
  | cluster => exact ⟨_, h.2, rfl, rfl, rfl⟩

variable [LinearOrder K]

/-- The search of a cluster without a key in its head fails for keys up to the key of the
cluster. -/
def Blocked (u : LeafUnit P K O) (key : K) : Prop := u.headless = true ∧ ∀ k ∈ u.keys, key ≤ k

end

end LeafUnit

/-! ## Cursors -/

section

variable {pages : P → Option (Page P K O)} {u : LeafUnit P K O} {post : List (LeafUnit P K O)}
  {slots : P → Nat} {fuel : Nat} (hu : u.At pages (post.head?.map LeafUnit.first))
  (hchn : ChainAt pages post) (hne : ∀ v ∈ post, v.keys ≠ [])
  (hfuel : ∀ v ∈ u :: post, v.size ≤ fuel)

end

variable [LinearOrder K]

section

variable {units pre post : List (LeafUnit P K O)} {u : LeafUnit P K O} {key : K} {hit : Hit}

end

section

variable {pages : P → Option (Page P K O)} {root : P} {units : List (LeafUnit P K O)}
  {slots : P → Nat}

section

variable {pre post : List (LeafUnit P K O)} {u : LeafUnit P K O} {key : K} {fuel i : Nat}
  (hspl : Splits units pre u post key) (hs : (u.keys ++ allKeys post).Pairwise (· < ·))
  (hu : u.At pages (post.head?.map LeafUnit.first)) (hchn : ChainAt pages post)
  (hne : ∀ v ∈ post, v.keys ≠ []) (hsize : ∀ v ∈ u :: post, v.size ≤ fuel)
  (hopen : ¬ u.Blocked key)

section

variable {q : K → Bool} (hbel : ∀ k, k < key → q k = false) (habove : ∀ k, key < k → q k = true)
include hspl hbel habove

end

end

end

end Sedna.Btree
