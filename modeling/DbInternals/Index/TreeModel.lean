import DbInternals.Index.PageKeys

/-!
# The tree as a store of nodes

What the pages of the tree stand for: a leaf is a list of slot entries with
its two siblings, an internal page a list of (key, child) pairs. The calls of
`BPlusTree` become functions on a store of such nodes (`Tree.insert`,
`Tree.remove`, `Tree.splitChild`, …); the refinement proves that the code
computes them.

The functions name no invariant: which pair list a search lands on is given by
the search itself (`childIdx`, `lowerIdx`, `lowerSlot`), and `lowerSlot_spec`
says what that is on a sorted leaf.
-/
namespace DbInternals.Index

open Storage SlottedPage

/-- A (key, child) pair of an internal page. -/
abbrev Pair := Bytes × Nat

inductive Node where
  | leaf (es : List Entry) (left right : Nat)
  | inner (ps : List Pair)
  deriving DecidableEq, Repr

/-! ## Searching a node -/

def liveAt (es : List Entry) (i : Nat) : Bool := (es[i]?.map Entry.isLive).getD false

/-- The key in slot `i`. -/
def entryKey (w : Nat) (es : List Entry) (i : Nat) : Int :=
  match es[i]? with
  | some (.live b) => keyOf w b
  | _ => 0

def pairKey (w : Nat) (ps : List Pair) (i : Nat) : Int := keyOf w ((ps[i]?.map Prod.fst).getD [])

/-- The slot `findRecord` stops at. -/
def lowerSlot (w : Nat) (es : List Entry) (x : Int) : Nat :=
  Search.lowerResult es.length
    (Search.lowerSparse (liveAt es) (fun i => decide (entryKey w es i < x)) es.length 0 es.length
      es.length)

/-- The pair `findRecord` descends through. -/
def childIdx (w : Nat) (ps : List Pair) (x : Int) : Nat :=
  Search.bisect (fun i => decide (pairKey w ps i ≤ x)) ps.length 0 ps.length - 1

/-- Where `insertIntoParent` puts a pair. -/
def lowerIdx (w : Nat) (ps : List Pair) (x : Int) : Nat :=
  Search.bisect (fun i => decide (pairKey w ps i < x)) ps.length 0 ps.length

/-! ## Room -/

/-- Bytes of a page behind its header. -/
def PAGE_ROOM : Nat := PAGE_SIZE - sizeofHeader

/-- A record of `len` bytes fits once the leaf is compacted. -/
def leafRoom (es : List Entry) (len : Nat) : Bool :=
  decide (cost (liveEntries es) + len + 4 ≤ PAGE_ROOM)

/-- One more pair fits. -/
def pairRoom (w : Nat) (ps : List Pair) : Bool := decide ((ps.length + 1) * (w + 12) ≤ PAGE_ROOM)

/-- The leaf with `r` at slot `i`, compacted if the gap is too small. -/
def leafInsert (es : List Entry) (i : Nat) (r : Bytes) : List Entry :=
  if cost es + r.length + 4 ≤ PAGE_ROOM then es.insertIdx i (.live r)
  else (liveEntries es).insertIdx (liveBefore es i) (.live r)

/-! ## The store -/

structure Tree where
  store : Nat → Option Node
  root : Nat
  /-- ids the free list hands out, first one first -/
  free : List Nat
  /-- the next new id -/
  next : Nat

namespace Tree

variable (w : Nat) (T : Tree)

def setNode (p : Nat) (n : Node) : Tree := { T with store := Function.update T.store p (some n) }

def alloc : Nat × Tree :=
  match T.free with
  | [] => (T.next, { T with next := T.next + 1 })
  | f :: fs => (f, { T with free := fs })

/-- The walk from page `p`: the leaf it ends at and the internal pages above
it, nearest first. -/
def walk (x : Int) : Nat → Nat → List Nat → Option (Nat × List Nat)
  | 0, _, _ => none
  | fuel + 1, p, stack =>
    match T.store p with
    | some (.leaf ..) => some (p, stack)
    | some (.inner ps) =>
      match ps[childIdx w ps x]? with
      | some (_, c) => walk x fuel c (p :: stack)
      | none => none
    | none => none

/-- Where a key is looked up. -/
def find (x : Int) : Option (Nat × List Nat) := T.walk w x (T.next + 1) T.root []

/-! ## Splits -/

/-- The first key of a page. -/
def minKey (p : Nat) : Bytes :=
  match T.store p with
  | some (.leaf (.live b :: _) _ _) => b.take w
  | some (.inner ((k, _) :: _)) => k
  | _ => []

def splitRoot (left : Nat) (sep : Bytes) (right : Nat) : Tree :=
  let (r, T') := T.alloc
  { T'.setNode r (.inner [(T.minKey w left, left), (sep, right)]) with root := r }

def addPair (p : Nat) (sep : Bytes) (right : Nat) : Tree :=
  match T.store p with
  | some (.inner ps) => T.setNode p (.inner (ps.insertIdx (lowerIdx w ps (keyOf w sep)) (sep, right)))
  | _ => T

/-- The upper half of an internal page moved to a new one: the new page and
its first key. -/
def splitNode (p : Nat) (ps : List Pair) : Nat × Bytes × Tree :=
  let (q, T) := T.alloc
  let m := ps.length / 2
  (q, (ps[m]?.map Prod.fst).getD [],
    (T.setNode p (.inner (ps.take m))).setNode q (.inner (ps.drop m)))

/-- Hand a new page to the level above `left`. -/
def wire : List Nat → Tree → Nat → Bytes → Nat → Tree
  | [], T, left, sep, right => T.splitRoot w left sep right
  | p :: rest, T, _, sep, right =>
    match T.store p with
    | some (.inner ps) =>
      if pairRoom w ps then T.addPair w p sep right
      else
        let (q, sepQ, T) := T.splitNode p ps
        (wire rest T p sepQ q).addPair w (if keyOf w sepQ < keyOf w sep then q else p) sep right
    | _ => T

/-- The slot `splitChild` splits a leaf at: the first live one from the middle on. -/
def pivotOf (es : List Entry) : Nat :=
  es.length / 2 + (es.drop (es.length / 2)).findIdx Entry.isLive

/-- The leaf `r` gets a new left neighbour. -/
def relinkLeft (r left : Nat) : Tree :=
  match T.store r with
  | some (.leaf es _ right) => T.setNode r (.leaf es left right)
  | _ => T

/-- The upper half of a leaf moved to a new right neighbour: the new page and
its first key. -/
def splitLeaf (p : Nat) (es : List Entry) (left right : Nat) : Nat × Bytes × Tree :=
  let (f, T) := T.alloc
  let lower := liveEntries (es.take (pivotOf es))
  let upper := liveEntries (es.drop (pivotOf es))
  let T := (T.setNode p (.leaf lower left f)).setNode f (.leaf upper p right)
  let T := if right ≠ INVALID_PAGE_ID then T.relinkLeft right f else T
  (f, T.minKey w f, T)

def splitChild (p : Nat) (es : List Entry) (left right : Nat) (stack : List Nat) : Tree :=
  let (f, sep, T) := T.splitLeaf w p es left right
  wire w stack T p sep f

/-! ## Calls -/

def insert (r : Bytes) : Tree :=
  match T.find w (keyOf w r) with
  | some (p, stack) =>
    match T.store p with
    | some (.leaf es left right) =>
      if leafRoom es r.length then
        T.setNode p (.leaf (leafInsert es (lowerSlot w es (keyOf w r)) r) left right)
      else T.splitChild w p es left right stack
    | _ => T
  | none => T

/-- The record with key `x`, as `get` looks it up. -/
def lookup (x : Int) : Option Bytes :=
  match T.find w x with
  | some (p, _) =>
    match T.store p with
    | some (.leaf es _ _) =>
      match es[lowerSlot w es x]? with
      | some (.live b) => if keyOf w b = x then some b else none
      | _ => none
    | _ => none
  | none => none

def remove (x : Int) : Tree :=
  match T.find w x with
  | some (p, _) =>
    match T.store p with
    | some (.leaf es left right) =>
      match es[lowerSlot w es x]? with
      | some (.live b) =>
        if keyOf w b = x then
          T.setNode p (.leaf (es.set (lowerSlot w es x) (.dead b.length)) left right)
        else T
      | _ => T
    | _ => T
  | none => T

/-- What a removal can do: nothing, or mark one live slot of a leaf dead. -/
theorem remove_cases (x : Int) : T.remove w x = T ∨
    ∃ p es left right i b, T.store p = some (.leaf es left right) ∧ es[i]? = some (.live b) ∧
      T.remove w x = T.setNode p (.leaf (es.set i (.dead b.length)) left right) := by
  unfold remove
  split
  · split
    · next hp =>
      split
      · next b hb =>
        split
        · exact .inr ⟨_, _, _, _, _, b, hp, hb, rfl⟩
        · exact .inl rfl
      · exact .inl rfl
    · exact .inl rfl
  · exact .inl rfl

end Tree

/-- A slot marked dead adds no live record. -/
theorem live_of_mem_set {es : List Entry} {i n : Nat} {b : Bytes}
    (h : .live b ∈ es.set i (.dead n)) : .live b ∈ es := by
  rcases List.mem_or_eq_of_mem_set h with h | h
  · exact h
  · cases h

/-! ## Ids -/

namespace Tree

variable {T : Tree} {p q : Nat} {n : Node}

/-- A page id in use and not on the free list. -/
def InUse (T : Tree) (p : Nat) : Prop := 1 ≤ p ∧ p < T.next ∧ p ∉ T.free

/-- Every page has an id in use; the ids the free list hands out are distinct
and not in use. -/
structure Ids (T : Tree) : Prop where
  next : 1 ≤ T.next
  used : ∀ p, T.store p ≠ none → T.InUse p
  nodup : T.free.Nodup
  range : ∀ p ∈ T.free, 1 ≤ p ∧ p < T.next

@[simp] theorem setNode_store (T : Tree) (p : Nat) (n : Node) :
    (T.setNode p n).store = Function.update T.store p (some n) := rfl
@[simp] theorem setNode_root (T : Tree) (p : Nat) (n : Node) : (T.setNode p n).root = T.root := rfl
@[simp] theorem setNode_next (T : Tree) (p : Nat) (n : Node) : (T.setNode p n).next = T.next := rfl
@[simp] theorem setNode_free (T : Tree) (p : Nat) (n : Node) : (T.setNode p n).free = T.free := rfl

theorem setNode_self (T : Tree) (p : Nat) (n : Node) : (T.setNode p n).store p = some n :=
  Function.update_self ..

theorem setNode_of_ne (T : Tree) (n : Node) (h : q ≠ p) : (T.setNode p n).store q = T.store q :=
  Function.update_of_ne h ..

theorem setNode_mono (T : Tree) (p : Nat) (n : Node) (h : T.store q ≠ none) :
    (T.setNode p n).store q ≠ none := by
  by_cases hq : q = p
  · subst hq; rw [setNode_self]; simp
  · rwa [setNode_of_ne T n hq]

@[simp] theorem alloc_store : T.alloc.2.store = T.store := by
  unfold alloc; split <;> rfl

@[simp] theorem alloc_root : T.alloc.2.root = T.root := by
  unfold alloc; split <;> rfl

theorem Ids.setNode (h : T.Ids) (hp : T.InUse p) (n : Node) : (T.setNode p n).Ids where
  next := h.next
  used q hq := by
    by_cases hqp : q = p
    · subst hqp; exact hp
    · exact h.used q (by rwa [setNode_of_ne T n hqp] at hq)
  nodup := h.nodup
  range := h.range

/-- A page just taken is new. -/
theorem Ids.alloc (h : T.Ids) : T.alloc.2.Ids ∧ T.alloc.2.InUse T.alloc.1 ∧
    T.store T.alloc.1 = none := by
  have hnone : ∀ p, ¬ T.InUse p → T.store p = none := fun p hp => by
    by_contra hc
    exact hp (h.used p hc)
  unfold Tree.alloc
  split
  · next hf =>
    refine ⟨⟨by simp, fun p hp => ?_, h.nodup, by simp [hf]⟩, ⟨h.next, by simp, by simp [hf]⟩,
      hnone _ fun hu => Nat.lt_irrefl _ hu.2.1⟩
    have hu := h.used p hp
    exact ⟨hu.1, Nat.lt_succ_of_lt hu.2.1, hu.2.2⟩
  · next f fs hf =>
    have hnd := List.nodup_cons.mp (hf ▸ h.nodup)
    have hr := h.range f (hf ▸ List.mem_cons_self)
    refine ⟨⟨h.next, fun p hp => ?_, hnd.2,
      fun p hp => h.range p (hf ▸ List.mem_cons_of_mem f hp)⟩, ⟨hr.1, hr.2, hnd.1⟩,
      hnone _ fun hu => hu.2.2 (hf ▸ List.mem_cons_self)⟩
    have hu := h.used p hp
    exact ⟨hu.1, hu.2.1, fun hm => hu.2.2 (hf ▸ List.mem_cons_of_mem f hm)⟩

theorem Ids.alloc_ne (h : T.Ids) (hq : T.store q ≠ none) : q ≠ T.alloc.1 := fun e =>
  hq (e ▸ h.alloc.2.2)

/-- A page in use is not taken again. -/
theorem InUse.alloc_ne (hp : T.InUse p) : p ≠ T.alloc.1 := by
  unfold Tree.alloc
  split
  · exact Nat.ne_of_lt hp.2.1
  · next f fs hf =>
    intro e
    exact hp.2.2 (by rw [e, hf]; exact List.mem_cons_self)

/-- A page in use stays in use. -/
theorem InUse.alloc (hp : T.InUse p) : T.alloc.2.InUse p := by
  unfold Tree.alloc
  split
  · exact ⟨hp.1, Nat.lt_succ_of_lt hp.2.1, hp.2.2⟩
  · next f fs hf => exact ⟨hp.1, hp.2.1, fun hm => hp.2.2 (hf ▸ List.mem_cons_of_mem f hm)⟩

end Tree

/-! ## Searches on sorted keys -/

section
variable {w : Nat} {es : List Entry} {ps : List Pair} {x : Int}

theorem liveAt_iff {i : Nat} : liveAt es i = true ↔ ∃ b, es[i]? = some (.live b) := by
  rw [liveAt]
  cases es[i]? with
  | none => simp
  | some e => cases e <;> simp

theorem liveAt_lt {i : Nat} (h : liveAt es i = true) : i < es.length := by
  obtain ⟨b, hb⟩ := liveAt_iff.mp h
  exact (List.getElem?_eq_some_iff.mp hb).1

theorem entryKey_live {i : Nat} {b : Bytes} (h : es[i]? = some (.live b)) :
    entryKey w es i = keyOf w b := by rw [entryKey, h]

theorem pairKey_getElem {i : Nat} (h : i < ps.length) : pairKey w ps i = keyOf w ps[i].1 := by
  rw [pairKey, List.getElem?_eq_getElem h]; rfl

theorem lowerSlot_le : lowerSlot w es x ≤ es.length := Search.lowerResult_le fun _ h => liveAt_lt h

/-- Live slots in key order. -/
def LeafSorted (w : Nat) (es : List Entry) : Prop :=
  ∀ (i j : Nat) (b c : Bytes), i < j → es[i]? = some (.live b) → es[j]? = some (.live c) →
    keyOf w b ≤ keyOf w c

/-- On a sorted leaf the slot separates smaller keys from the others, and is
the first of the others if there is one. -/
theorem lowerSlot_spec (hs : LeafSorted w es) :
    (∀ (i : Nat) (b : Bytes), es[i]? = some (.live b) → (i < lowerSlot w es x ↔ keyOf w b < x)) ∧
      ((∃ (i : Nat) (b : Bytes), es[i]? = some (.live b) ∧ x ≤ keyOf w b) →
        ∃ b : Bytes, es[lowerSlot w es x]? = some (.live b) ∧ x ≤ keyOf w b) := by
  obtain ⟨h1, h2, h3⟩ := Search.lowerResult_spec (liveAt es)
    (fun i => decide (entryKey w es i < x)) (n := es.length) (fun _ h => liveAt_lt h) fun i j hij hi hj ht => by
      obtain ⟨b, hb⟩ := liveAt_iff.mp hi
      obtain ⟨c, hc⟩ := liveAt_iff.mp hj
      have := hs i j b c hij hb hc
      simp only [entryKey_live hb, entryKey_live hc, decide_eq_true_eq] at ht ⊢
      omega
  have hiff : ∀ (i : Nat) (b : Bytes), es[i]? = some (.live b) →
      (i < lowerSlot w es x ↔ keyOf w b < x) := by
    intro i b hb
    have hl := liveAt_iff.mpr ⟨b, hb⟩
    by_cases hi : i < lowerSlot w es x
    · have := h1 i hi hl
      simp only [entryKey_live hb, decide_eq_true_eq] at this
      exact iff_of_true hi this
    · have := h2 i (Nat.not_lt.mp hi) hl
      simp only [entryKey_live hb, decide_eq_false_iff_not] at this
      exact iff_of_false hi this
  refine ⟨hiff, ?_⟩
  rintro ⟨i, b, hb, hx⟩
  obtain ⟨c, hc⟩ := liveAt_iff.mp (h3 ⟨i, liveAt_iff.mpr ⟨b, hb⟩, by
    simp only [entryKey_live hb, decide_eq_false_iff_not]; omega⟩)
  refine ⟨c, hc, ?_⟩
  have := (hiff _ c hc).not.mp (Nat.lt_irrefl _)
  omega

theorem lowerIdx_le : lowerIdx w ps x ≤ ps.length := (Search.bisect_le _ _ _ _ (Nat.zero_le _)).2

theorem childIdx_lt (h : ps ≠ []) : childIdx w ps x < ps.length := by
  have h1 := (Search.bisect_le (fun i => decide (pairKey w ps i ≤ x)) ps.length 0 ps.length
    (Nat.zero_le _)).2
  have h2 := List.length_pos_iff.mpr h
  rw [childIdx]; omega

end

end DbInternals.Index
