import DbInternals.Index.TreeModel

/-!
# The steps of a split

`Tree.wire` hands a new page upwards by three steps: a new root, a pair added
to a page with room, a full page halved.

Results:
* `wire_store`, `wire_mono`, `wire_ids`: pages off the stack stay as they are;
* `splitLeaf_of_leaf`, `splitLeaf_leaf`, `splitLeaf_inner`: the pages of a leaf
  split;
* `pairRoom_half`: half of a full page has room for a pair;
* `took_wire`: how many page ids a split takes.
-/
namespace DbInternals.Index

open Storage SlottedPage

namespace Tree

variable {w : Nat} {T : Tree} {p q : Nat} {ps : List Pair} {sep : Bytes} {left right : Nat}

/-! ## One step -/

theorem splitRoot_store : (T.splitRoot w left sep right).store =
    (T.alloc.2.setNode T.alloc.1 (.inner [(T.minKey w left, left), (sep, right)])).store := rfl

theorem splitRoot_root : (T.splitRoot w left sep right).root = T.alloc.1 := rfl

theorem splitRoot_store_of_ne (hq : T.InUse q) :
    (T.splitRoot w left sep right).store q = T.store q := by
  rw [splitRoot_store, setNode_of_ne _ _ hq.alloc_ne, alloc_store]

theorem splitRoot_ids (h : T.Ids) : (T.splitRoot w left sep right).Ids :=
  let h' := h.alloc.1.setNode h.alloc.2.1 (.inner [(T.minKey w left, left), (sep, right)])
  ⟨h'.next, h'.used, h'.nodup, h'.range⟩

theorem addPair_eq (hp : T.store p = some (.inner ps)) : T.addPair w p sep right =
    T.setNode p (.inner (ps.insertIdx (lowerIdx w ps (keyOf w sep)) (sep, right))) := by
  rw [addPair, hp]

theorem addPair_store_of_ne (hq : q ≠ p) : (T.addPair w p sep right).store q = T.store q := by
  unfold addPair
  split
  · exact setNode_of_ne T _ hq
  · rfl

theorem addPair_mono (hq : T.store q ≠ none) : (T.addPair w p sep right).store q ≠ none := by
  unfold addPair
  split
  · exact setNode_mono T p _ hq
  · exact hq

theorem addPair_ids (h : T.Ids) : (T.addPair w p sep right).Ids := by
  unfold addPair
  split
  · next hp => exact h.setNode (h.used p (by rw [hp]; simp)) _
  · exact h

theorem splitNode_snd : (T.splitNode p ps).2.1 = (ps[ps.length / 2]?.map Prod.fst).getD [] := rfl

theorem splitNode_tree : (T.splitNode p ps).2.2 =
    (T.alloc.2.setNode p (.inner (ps.take (ps.length / 2)))).setNode T.alloc.1
      (.inner (ps.drop (ps.length / 2))) := rfl

/-- The page, its upper half and the rest after `splitNode`. -/
theorem splitNode_store (ps : List Pair) (h : T.Ids) (hp : T.store p ≠ none) :
    (T.splitNode p ps).2.2.store p = some (.inner (ps.take (ps.length / 2))) ∧
      (T.splitNode p ps).2.2.store T.alloc.1 = some (.inner (ps.drop (ps.length / 2))) ∧
      ∀ q, q ≠ p → q ≠ T.alloc.1 → (T.splitNode p ps).2.2.store q = T.store q := by
  rw [splitNode_tree]
  refine ⟨?_, setNode_self .., fun q hqp hqf => ?_⟩
  · rw [setNode_of_ne _ _ (h.alloc_ne hp), setNode_self]
  · rw [setNode_of_ne _ _ hqf, setNode_of_ne _ _ hqp, alloc_store]

theorem splitNode_mono (h : T.Ids) (hp : T.store p ≠ none) (hq : T.store q ≠ none) :
    (T.splitNode p ps).2.2.store q ≠ none := by
  obtain ⟨h1, -, h3⟩ := splitNode_store ps h hp
  by_cases hqp : q = p
  · subst hqp; rw [h1]; simp
  · rw [h3 q hqp (h.alloc_ne hq)]; exact hq

theorem splitNode_ids (ps : List Pair) (h : T.Ids) (hp : T.store p ≠ none) : (T.splitNode p ps).2.2.Ids := by
  rw [splitNode_tree]
  exact (h.alloc.1.setNode (h.used p hp).alloc _).setNode h.alloc.2.1 _

theorem splitNode_root : (T.splitNode p ps).2.2.root = T.root := by
  rw [splitNode_tree, setNode_root, setNode_root, alloc_root]

/-! ## Handing a page upwards -/

theorem wire_cons {rest : List Nat} (hp : T.store p = some (.inner ps)) :
    wire w (p :: rest) T left sep right =
      if pairRoom w ps then T.addPair w p sep right
      else (wire w rest (T.splitNode p ps).2.2 p (T.splitNode p ps).2.1 T.alloc.1).addPair w
        (if keyOf w (T.splitNode p ps).2.1 < keyOf w sep then T.alloc.1 else p) sep right := by
  rw [wire, hp]; rfl

theorem wire_ids : ∀ (stack : List Nat) (T : Tree) (left : Nat) (sep : Bytes) (right : Nat), T.Ids →
    (wire w stack T left sep right).Ids
  | [], _, _, _, _, h => splitRoot_ids h
  | p :: rest, T, left, sep, right, h => by
    unfold wire
    split
    · next ps hp =>
      split
      · exact addPair_ids h
      · exact addPair_ids (wire_ids rest _ _ _ _ (splitNode_ids ps h (by rw [hp]; simp)))
    · exact h

/-- Only the pages of the stack change, and pages that were not in use. -/
theorem wire_store : ∀ (stack : List Nat) (T : Tree) (left : Nat) (sep : Bytes) (right : Nat),
    T.Ids → T.InUse q → q ∉ stack → (wire w stack T left sep right).store q = T.store q
  | [], _, _, _, _, _, hq, _ => splitRoot_store_of_ne hq
  | p :: rest, T, left, sep, right, h, hq, hs => by
    obtain ⟨hqp, hqr⟩ : q ≠ p ∧ q ∉ rest := by simpa using hs
    cases hp : T.store p with
    | none => simp [wire, hp]
    | some n =>
      cases n with
      | leaf es l r => simp [wire, hp]
      | inner ps =>
        have hpn : T.store p ≠ none := by simp [hp]
        rw [wire_cons hp]
        split
        · exact addPair_store_of_ne hqp
        · have hq' : (T.splitNode p ps).2.2.InUse q := hq.alloc
          have hne : q ≠ T.alloc.1 := hq.alloc_ne
          rw [addPair_store_of_ne (by split <;> assumption),
            wire_store rest _ _ _ _ (splitNode_ids ps h hpn) hq' hqr]
          exact (splitNode_store ps h hpn).2.2 q hqp hne

theorem InUse.wire : ∀ (stack : List Nat) (T : Tree) (left : Nat) (sep : Bytes) (right : Nat),
    T.InUse q → (wire w stack T left sep right).InUse q
  | [], _, _, _, _, hq => hq.alloc
  | p :: rest, T, left, sep, right, hq => by
    have hadd : ∀ {T : Tree} {p : Nat}, T.InUse q → (T.addPair w p sep right).InUse q := by
      intro T p hq
      unfold addPair
      split <;> exact hq
    unfold Tree.wire
    split
    · next ps hp =>
      have hq' : (T.splitNode p ps).2.2.InUse q := hq.alloc
      split
      · exact hadd hq
      · exact hadd (InUse.wire rest _ _ _ _ hq')
    · exact hq

theorem wire_mono : ∀ (stack : List Nat) (T : Tree) (left : Nat) (sep : Bytes) (right : Nat),
    T.Ids → T.store q ≠ none → (wire w stack T left sep right).store q ≠ none
  | [], _, _, _, _, h, hq => by rw [wire, splitRoot_store_of_ne (h.used _ hq)]; exact hq
  | p :: rest, T, left, sep, right, h, hq => by
    unfold wire
    split
    · next ps hp =>
      have hpn : T.store p ≠ none := by rw [hp]; simp
      split
      · exact addPair_mono hq
      · exact addPair_mono (wire_mono rest _ _ _ _ (splitNode_ids ps h hpn) (splitNode_mono h hpn hq))
    · exact hq

/-! ## A leaf split -/

/-- Only the left neighbour of `r` changes. -/
theorem relinkLeft_leaf {r f : Nat} {es : List Entry} {l l' : Nat}
    (hq : (T.relinkLeft r f).store q = some (.leaf es l l')) : ∃ l₀, T.store q = some (.leaf es l₀ l') ∧
      (q = r → l = f) ∧ (q ≠ r → l = l₀) := by
  unfold relinkLeft at hq
  split at hq
  · next es₀ l₀ r₀ hr =>
    by_cases hqr : q = r
    · subst hqr
      rw [setNode_self] at hq
      cases hq
      exact ⟨l₀, hr, fun _ => rfl, fun h => absurd rfl h⟩
    · rw [setNode_of_ne _ _ hqr] at hq
      exact ⟨l, hq, fun h => absurd h hqr, fun _ => rfl⟩
  · next hno =>
    exact ⟨l, hq, fun h => absurd (h ▸ hq) (hno es l l'), fun _ => rfl⟩

theorem relinkLeft_of_leaf {r f : Nat} {es : List Entry} {l l' : Nat}
    (hq : T.store q = some (.leaf es l l')) : (T.relinkLeft r f).store q =
      some (.leaf es (if q = r then f else l) l') := by
  unfold relinkLeft
  by_cases hqr : q = r
  · subst hqr
    rw [hq, if_pos rfl]
    exact setNode_self ..
  · rw [if_neg hqr]
    split
    · rw [setNode_of_ne _ _ hqr]; exact hq
    · exact hq

/-- Relinking changes leaves only. -/
theorem relinkLeft_iff {r f : Nat} {n : Option Node} (hn : ∀ es l r, n ≠ some (.leaf es l r)) :
    (T.relinkLeft r f).store q = n ↔ T.store q = n := by
  unfold relinkLeft
  split
  · next es₀ l₀ r₀ hr =>
    by_cases hqr : q = r
    · subst hqr
      rw [setNode_self, hr]
      exact iff_of_false (hn _ _ _).symm (hn _ _ _).symm
    · rw [setNode_of_ne _ _ hqr]
  · rfl

theorem relinkLeft_inner {r f : Nat} :
    (T.relinkLeft r f).store q = some (.inner ps) ↔ T.store q = some (.inner ps) :=
  relinkLeft_iff (by simp)

theorem relinkLeft_none {r f : Nat} : (T.relinkLeft r f).store q = none ↔ T.store q = none :=
  relinkLeft_iff (by simp)

theorem relinkLeft_ids {r f : Nat} (h : T.Ids) : (T.relinkLeft r f).Ids := by
  unfold relinkLeft
  split
  · next hr => exact h.setNode (h.used r (by rw [hr]; simp)) _
  · exact h

theorem relinkLeft_root {r f : Nat} : (T.relinkLeft r f).root = T.root := by
  unfold relinkLeft; split <;> rfl

section
variable {es : List Entry}

/-- The leaf `p` and its new right neighbour, before the old one is relinked. -/
def splitPages (T : Tree) (p : Nat) (es : List Entry) (left right : Nat) : Tree :=
  (T.alloc.2.setNode p (.leaf (liveEntries (es.take (pivotOf es))) left T.alloc.1)).setNode
    T.alloc.1 (.leaf (liveEntries (es.drop (pivotOf es))) p right)

theorem splitLeaf_tree : (T.splitLeaf w p es left right).2.2 =
    if right ≠ INVALID_PAGE_ID then (T.splitPages p es left right).relinkLeft right T.alloc.1
    else T.splitPages p es left right := rfl

theorem splitPages_store (es : List Entry) (left right : Nat) (h : T.Ids) (hp : T.store p ≠ none) :
    (T.splitPages p es left right).store p =
        some (.leaf (liveEntries (es.take (pivotOf es))) left T.alloc.1) ∧
      (T.splitPages p es left right).store T.alloc.1 =
        some (.leaf (liveEntries (es.drop (pivotOf es))) p right) ∧
      ∀ q, q ≠ p → q ≠ T.alloc.1 → (T.splitPages p es left right).store q = T.store q := by
  unfold splitPages
  refine ⟨?_, setNode_self .., fun q hqp hqf => ?_⟩
  · rw [setNode_of_ne _ _ (h.alloc_ne hp), setNode_self]
  · rw [setNode_of_ne _ _ hqf, setNode_of_ne _ _ hqp, alloc_store]

theorem splitLeaf_ids (es : List Entry) (left right : Nat) (h : T.Ids) (hp : T.store p ≠ none) :
    (T.splitLeaf w p es left right).2.2.Ids := by
  have h' : (T.splitPages p es left right).Ids :=
    (h.alloc.1.setNode (h.used p hp).alloc _).setNode h.alloc.2.1 _
  rw [splitLeaf_tree]
  split
  · exact relinkLeft_ids h'
  · exact h'

theorem splitLeaf_root : (T.splitLeaf w p es left right).2.2.root = T.root := by
  rw [splitLeaf_tree]
  split
  · rw [relinkLeft_root]; exact alloc_root
  · exact alloc_root

/-- Internal pages are those there were. -/
theorem splitLeaf_inner (h : T.Ids) (hp : T.store p = some (.leaf es left right)) :
    (T.splitLeaf w p es left right).2.2.store q = some (.inner ps) ↔ T.store q = some (.inner ps) := by
  have hpn : T.store p ≠ none := by rw [hp]; simp
  obtain ⟨h1, h2, h3⟩ := splitPages_store es left right h hpn
  have hs : (T.splitPages p es left right).store q = some (.inner ps) ↔ T.store q = some (.inner ps) := by
    by_cases hqp : q = p
    · subst hqp; rw [h1, hp]; simp
    · by_cases hqf : q = T.alloc.1
      · subst hqf; rw [h2, h.alloc.2.2]; simp
      · rw [h3 q hqp hqf]
  rw [splitLeaf_tree]
  split
  · rw [relinkLeft_inner, hs]
  · exact hs

/-- A leaf is the lower half, the upper half, or one there was; only left
neighbours differ besides. -/
theorem splitLeaf_leaf (h : T.Ids) (hp : T.store p ≠ none) {es' : List Entry} {l r : Nat}
    (hq : (T.splitLeaf w p es left right).2.2.store q = some (.leaf es' l r)) :
    q = p ∧ es' = liveEntries (es.take (pivotOf es)) ∧ r = T.alloc.1 ∨
      q = T.alloc.1 ∧ es' = liveEntries (es.drop (pivotOf es)) ∧ r = right ∨
      q ≠ p ∧ q ≠ T.alloc.1 ∧ ∃ l', T.store q = some (.leaf es' l' r) := by
  obtain ⟨h1, h2, h3⟩ := splitPages_store es left right h hp
  obtain ⟨l₀, hq₀⟩ : ∃ l₀, (T.splitPages p es left right).store q = some (.leaf es' l₀ r) := by
    rw [splitLeaf_tree] at hq
    split at hq
    · obtain ⟨l₀, h0, -⟩ := relinkLeft_leaf hq
      exact ⟨l₀, h0⟩
    · exact ⟨l, hq⟩
  by_cases hqp : q = p
  · subst hqp
    rw [h1] at hq₀
    cases hq₀
    exact .inl ⟨rfl, rfl, rfl⟩
  · by_cases hqf : q = T.alloc.1
    · subst hqf
      rw [h2] at hq₀
      cases hq₀
      exact .inr (.inl ⟨rfl, rfl, rfl⟩)
    · rw [h3 q hqp hqf] at hq₀
      exact .inr (.inr ⟨hqp, hqf, l₀, hq₀⟩)

/-- Both halves and every old leaf are leaves afterwards. -/
theorem splitLeaf_of_leaf (h : T.Ids) (hp : T.store p = some (.leaf es left right)) :
    (∃ l, (T.splitLeaf w p es left right).2.2.store p =
        some (.leaf (liveEntries (es.take (pivotOf es))) l T.alloc.1)) ∧
      (∃ l, (T.splitLeaf w p es left right).2.2.store T.alloc.1 =
        some (.leaf (liveEntries (es.drop (pivotOf es))) l right)) ∧
      ∀ q es' l r, q ≠ p → T.store q = some (.leaf es' l r) →
        ∃ l', (T.splitLeaf w p es left right).2.2.store q = some (.leaf es' l' r) := by
  have hpn : T.store p ≠ none := by rw [hp]; simp
  obtain ⟨h1, h2, h3⟩ := splitPages_store es left right h hpn
  have key : ∀ q es' l r, (T.splitPages p es left right).store q = some (.leaf es' l r) →
      ∃ l', (T.splitLeaf w p es left right).2.2.store q = some (.leaf es' l' r) := by
    intro q es' l r hq
    rw [splitLeaf_tree]
    split
    · exact ⟨_, relinkLeft_of_leaf hq⟩
    · exact ⟨l, hq⟩
  refine ⟨key _ _ _ _ h1, key _ _ _ _ h2, fun q es' l r hqp hq => key q es' l r ?_⟩
  rw [h3 q hqp (h.alloc_ne (by rw [hq]; simp))]
  exact hq

theorem splitLeaf_mono (h : T.Ids) (hp : T.store p ≠ none) (hq : T.store q ≠ none) :
    (T.splitLeaf w p es left right).2.2.store q ≠ none := by
  obtain ⟨h1, -, h3⟩ := splitPages_store es left right h hp
  have hs : (T.splitPages p es left right).store q ≠ none := by
    by_cases hqp : q = p
    · subst hqp; rw [h1]; simp
    · rw [h3 q hqp (h.alloc_ne hq)]; exact hq
  rw [splitLeaf_tree]
  split
  · rw [ne_eq, relinkLeft_none]; exact hs
  · exact hs

end

end Tree

/-! ## The way up -/

/-- Internal pages, each the parent of the one before, up to the root. -/
def Path (T : Tree) : Nat → List Nat → Prop
  | p, [] => T.root = p
  | p, q :: rest => (∃ ps k, T.store q = some (.inner ps) ∧ (k, p) ∈ ps) ∧ Path T q rest

theorem Path.congr {T T' : Tree} (hr : T'.root = T.root) : ∀ {p : Nat} {stack : List Nat},
    (∀ q ∈ stack, T'.store q = T.store q) → Path T p stack → Path T' p stack
  | _, [], _, h => hr.trans h
  | _, _ :: _, hs, ⟨⟨ps, k, h1, h2⟩, h⟩ =>
    ⟨⟨ps, k, (hs _ List.mem_cons_self).trans h1, h2⟩,
      Path.congr hr (fun q hq => hs q (List.mem_cons_of_mem _ hq)) h⟩

theorem Path.inner {T : Tree} : ∀ {p : Nat} {stack : List Nat}, Path T p stack →
    ∀ q ∈ stack, ∃ ps, T.store q = some (.inner ps)
  | _, [], _, _, hq => by simp at hq
  | _, _ :: _, ⟨⟨ps, _, h1, _⟩, h⟩, q, hq => by
    rcases List.mem_cons.mp hq with rfl | hq
    · exact ⟨ps, h1⟩
    · exact h.inner q hq

section
variable {w : Nat}

theorem pairRoom_iff {ps : List Pair} : pairRoom w ps = true ↔
    (ps.length + 1) * (w + 12) ≤ 4056 := decide_eq_true_iff

/-- A page without room holds at least four pairs. -/
theorem four_le_of_full {ps : List Pair} (hw : w ≤ 8) (hr : ¬ pairRoom w ps = true) :
    4 ≤ ps.length := by
  rw [pairRoom_iff] at hr
  have h20 : (ps.length + 1) * (w + 12) ≤ (ps.length + 1) * 20 := Nat.mul_le_mul_left _ (by omega)
  omega

/-- Half of a full page has room for a pair. -/
theorem pairRoom_half {ps : List Pair} (hw : w ≤ 8) (hf : ps.length * (w + 12) ≤ PAGE_ROOM)
    (hr : ¬ pairRoom w ps = true) : 4 ≤ ps.length ∧ pairRoom w (ps.take (ps.length / 2)) = true ∧
      pairRoom w (ps.drop (ps.length / 2)) = true := by
  simp only [pairRoom_iff] at hr ⊢
  have h20 : (ps.length + 1) * (w + 12) ≤ (ps.length + 1) * 20 := Nat.mul_le_mul_left _ (by omega)
  have hlen : 200 ≤ ps.length := by omega
  have hhalf : ∀ m, m ≤ ps.length / 2 + 1 → (m + 1) * (w + 12) ≤ 4056 := fun m hm =>
    (Nat.mul_le_mul_right _ (by omega)).trans hf
  refine ⟨by omega, hhalf _ ?_, hhalf _ ?_⟩
  · rw [List.length_take]; omega
  · rw [List.length_drop]; omega

end

/-! ## Ids taken -/

/-- The pages a split takes above the new one: one for each full page in a row, and a root where
no page has room. -/
def Tree.levels (w : Nat) (T : Tree) : List Nat → Nat
  | [] => 1
  | p :: rest =>
    match T.store p with
    | some (.inner ps) => if pairRoom w ps then 0 else levels w T rest + 1
    | _ => 0

/-- `k` ids were taken, off the free list first. -/
structure Took (k : Nat) (T T' : Tree) : Prop where
  free : T'.free = T.free.drop k
  next : T'.next = T.next + (k - T.free.length)

section
variable {w k k' : Nat} {T T' U : Tree} {p left right : Nat} {ps : List Pair} {sep : Bytes}

theorem Took.none (hf : T'.free = T.free) (hn : T'.next = T.next) : Took 0 T T' :=
  ⟨by rw [hf, List.drop_zero], by rw [hn]; omega⟩

theorem Took.trans (h : Took k T U) (h' : Took k' U T') : Took (k + k') T T' where
  free := by rw [h'.free, h.free, List.drop_drop]
  next := by
    rw [h'.next, h.next, h.free, List.length_drop]
    omega

theorem Took.next_le (h : Took k T T') : T.next ≤ T'.next := by
  rw [h.next]
  omega

theorem took_alloc (T : Tree) : Took 1 T T.alloc.2 := by
  unfold Tree.alloc
  split
  · next hf => exact ⟨by rw [hf]; rfl, by rw [hf]; rfl⟩
  · next f fs hf => exact ⟨by rw [hf]; rfl, by rw [hf, List.length_cons]; dsimp only; omega⟩

theorem took_splitRoot (T : Tree) (left : Nat) (sep : Bytes) (right : Nat) :
    Took 1 T (T.splitRoot w left sep right) := ⟨(took_alloc T).free, (took_alloc T).next⟩

theorem took_addPair (T : Tree) (p : Nat) (sep : Bytes) (right : Nat) :
    Took 0 T (T.addPair w p sep right) := by
  unfold Tree.addPair
  split
  · exact .none rfl rfl
  · exact .none rfl rfl

theorem took_splitNode (T : Tree) (p : Nat) (ps : List Pair) : Took 1 T (T.splitNode p ps).2.2 :=
  ⟨(took_alloc T).free, (took_alloc T).next⟩

theorem took_splitLeaf (T : Tree) (p : Nat) (es : List Entry) (left right : Nat) :
    Took 1 T (T.splitLeaf w p es left right).2.2 := by
  have h : Took 1 T (T.splitPages p es left right) := ⟨(took_alloc T).free, (took_alloc T).next⟩
  rw [Tree.splitLeaf_tree]
  split
  · refine h.trans (.none ?_ ?_) <;> (unfold Tree.relinkLeft; split <;> rfl)
  · exact h

theorem Tree.levels_congr : ∀ {stack : List Nat}, (∀ q ∈ stack, T'.store q = T.store q) →
    T'.levels w stack = T.levels w stack
  | [], _ => rfl
  | p :: rest, h => by
    have hrest := levels_congr fun q hq => h q (List.mem_cons_of_mem p hq)
    unfold levels
    rw [h p List.mem_cons_self, hrest]

theorem took_wire : ∀ (stack : List Nat) (T : Tree) (left : Nat) (sep : Bytes) (right : Nat), T.Ids →
    stack.Nodup → (∀ q ∈ stack, ∃ ps, T.store q = some (.inner ps)) →
    Took (T.levels w stack) T (Tree.wire w stack T left sep right)
  | [], T, left, sep, right, _, _, _ => took_splitRoot T left sep right
  | p :: rest, T, left, sep, right, hi, hnd, hin => by
    obtain ⟨hpr, hnd'⟩ := List.nodup_cons.mp hnd
    obtain ⟨ps, hp⟩ := hin p List.mem_cons_self
    have hpn : T.store p ≠ none := by simp [hp]
    have hlev : T.levels w (p :: rest) = if pairRoom w ps then 0 else T.levels w rest + 1 := by
      rw [Tree.levels, hp]
    rw [hlev, Tree.wire_cons hp]
    split
    · exact took_addPair T p sep right
    · -- the pages further up are not touched by the halving
      have hrest : ∀ q ∈ rest, (T.splitNode p ps).2.2.store q = T.store q := by
        intro q hq
        obtain ⟨qs, hqs⟩ := hin q (List.mem_cons_of_mem p hq)
        exact (Tree.splitNode_store ps hi hpn).2.2 q (fun e => hpr (e ▸ hq))
          (hi.alloc_ne (by simp [hqs]))
      have hwire := took_wire rest (T.splitNode p ps).2.2 p (T.splitNode p ps).2.1 T.alloc.1
        (Tree.splitNode_ids ps hi hpn) hnd' fun q hq => by
          rw [hrest q hq]
          exact hin q (List.mem_cons_of_mem p hq)
      rw [Tree.levels_congr hrest] at hwire
      have h := ((took_splitNode T p ps).trans hwire).trans (took_addPair (w := w) _
        (if keyOf w (T.splitNode p ps).2.1 < keyOf w sep then T.alloc.1 else p) sep right)
      rwa [Nat.add_zero, Nat.add_comm] at h

end

end DbInternals.Index
