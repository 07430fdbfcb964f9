import DbInternals.Index.TreeFind
import DbInternals.Index.TreeSteps

/-!
# The shape of a tree under the calls

Every step of a call keeps `Shape`: a descent from the root of the new tree
ends at a leaf again. A new page takes the rank of the page it was split from,
a new root one more than its left child.

Results:
* `wire_leaf`: handing a page upwards leaves the leaves alone;
* `wire_shape`, `splitLeaf_shape`, `splitChild_shape`;
* `insert_shape`, `remove_shape`.
-/
namespace DbInternals.Index

open Storage SlottedPage

section
variable {w : Nat} {rank rank' : Nat → Nat} {T T' : Tree} {p q left right : Nat} {ps : List Pair}
  {sep : Bytes} {es es' : List Entry}

/-! ## Leaves -/

theorem Tree.setNode_leaf {l r : Nat} (hp : ∀ es l r, T.store p ≠ some (.leaf es l r)) :
    (T.setNode p (.inner ps)).store q = some (.leaf es l r) ↔ T.store q = some (.leaf es l r) := by
  by_cases hqp : q = p
  · subst hqp
    rw [setNode_self]
    exact iff_of_false (by simp) (hp es l r)
  · rw [setNode_of_ne T _ hqp]

theorem Tree.addPair_leaf {l r : Nat} :
    (T.addPair w p sep right).store q = some (.leaf es l r) ↔ T.store q = some (.leaf es l r) := by
  unfold addPair
  split
  · next ps hp => exact setNode_leaf (by simp [hp])
  · rfl

theorem Tree.splitRoot_leaf {l r : Nat} (h : T.Ids) :
    (T.splitRoot w left sep right).store q = some (.leaf es l r) ↔
      T.store q = some (.leaf es l r) := by
  rw [splitRoot_store]
  refine (setNode_leaf ?_).trans (by rw [alloc_store])
  intro es l r
  rw [alloc_store, h.alloc.2.2]
  simp

theorem Tree.splitNode_leaf {l r : Nat} (h : T.Ids) (hp : T.store p = some (.inner ps)) :
    (T.splitNode p ps).2.2.store q = some (.leaf es l r) ↔ T.store q = some (.leaf es l r) := by
  have hpf := h.alloc_ne (show T.store p ≠ none by simp [hp])
  rw [splitNode_tree]
  refine (setNode_leaf ?_).trans ((setNode_leaf ?_).trans (by rw [alloc_store]))
  · intro es l r
    rw [setNode_of_ne _ _ (Ne.symm hpf), alloc_store, h.alloc.2.2]
    simp
  · intro es l r
    rw [alloc_store, hp]
    simp

theorem wire_leaf {l r : Nat} : ∀ (stack : List Nat) (T : Tree) (left : Nat) (sep : Bytes)
    (right : Nat), T.Ids → ((Tree.wire w stack T left sep right).store q = some (.leaf es l r) ↔
      T.store q = some (.leaf es l r))
  | [], _, _, _, _, h => Tree.splitRoot_leaf h
  | p :: rest, T, left, sep, right, h => by
    cases hp : T.store p with
    | none => simp [Tree.wire, hp]
    | some n =>
      cases n with
      | leaf es l r => simp [Tree.wire, hp]
      | inner ps =>
        rw [Tree.wire_cons hp]
        split
        · exact Tree.addPair_leaf
        · have hI := Tree.splitNode_ids ps h (show T.store p ≠ none by simp [hp])
          exact Tree.addPair_leaf.trans
            ((wire_leaf rest _ _ _ _ hI).trans (Tree.splitNode_leaf h hp))

/-! ## Shape, step by step -/

theorem Shape.congr (h : Shape w rank T) (hs : T'.store = T.store) (hr : T'.root = T.root) :
    Shape w rank T' where
  root := by rw [hs, hr]; exact h.root
  pairs := by rw [hs]; exact h.pairs
  child := by rw [hs]; exact h.child
  long := by rw [hs]; exact h.long
  sibling := by unfold Tree.IsLeaf; rw [hs]; exact h.sibling

/-- Only the ranks of pages matter. -/
theorem Shape.rank_congr (h : Shape w rank T) (hr : ∀ q, T.store q ≠ none → rank' q = rank q) :
    Shape w rank' T where
  root := h.root
  pairs := h.pairs
  child q qs hq pr hpr := by
    obtain ⟨h1, h2⟩ := h.child q qs hq pr hpr
    rw [hr _ h1, hr q (by simp [hq])]
    exact ⟨h1, h2⟩
  long := h.long
  sibling := h.sibling

/-- An internal page is written: a new one, or in the place of another. -/
theorem Shape.setInner (h : Shape w rank T) (hp : ∀ es l r, T.store p ≠ some (.leaf es l r))
    (hne : ps ≠ []) (hc : ∀ pr ∈ ps, T.store pr.2 ≠ none ∧ rank pr.2 < rank p) :
    Shape w rank (T.setNode p (.inner ps)) where
  root := T.setNode_mono p _ h.root
  pairs q qs hq := by
    by_cases hqp : q = p
    · subst hqp
      rw [Tree.setNode_self] at hq
      cases hq
      exact hne
    · exact h.pairs q qs (by rwa [Tree.setNode_of_ne T _ hqp] at hq)
  child q qs hq pr hpr := by
    have hpr' : T.store pr.2 ≠ none ∧ rank pr.2 < rank q := by
      by_cases hqp : q = p
      · subst hqp
        rw [Tree.setNode_self] at hq
        cases hq
        exact hc pr hpr
      · exact h.child q qs (by rwa [Tree.setNode_of_ne T _ hqp] at hq) pr hpr
    exact ⟨T.setNode_mono p _ hpr'.1, hpr'.2⟩
  long q es l r hq := h.long q es l r ((Tree.setNode_leaf hp).mp hq)
  sibling q es l r hq := by
    have hleaf := h.sibling q es l r ((Tree.setNode_leaf hp).mp hq)
    apply hleaf.imp id
    rintro ⟨es', l', r', hr⟩
    exact ⟨es', l', r', (Tree.setNode_leaf hp).mpr hr⟩

/-- A leaf is written in the place of one with the same right neighbour. -/
theorem Shape.setLeaf (h : Shape w rank T) {l l' r : Nat} (hp : T.store p = some (.leaf es l r))
    (hl : LongEnough w es') : Shape w rank (T.setNode p (.leaf es' l' r)) := by
  have hinner : ∀ q qs, (T.setNode p (.leaf es' l' r)).store q = some (.inner qs) →
      T.store q = some (.inner qs) := by
    intro q qs hq
    by_cases hqp : q = p
    · subst hqp
      rw [Tree.setNode_self] at hq
      cases hq
    · rwa [Tree.setNode_of_ne T _ hqp] at hq
  have hleaf : ∀ q, T.IsLeaf q → (T.setNode p (.leaf es' l' r)).IsLeaf q := by
    rintro q ⟨es₁, l₁, r₁, hq⟩
    unfold Tree.IsLeaf
    by_cases hqp : q = p
    · subst hqp
      rw [Tree.setNode_self]
      exact ⟨_, _, _, rfl⟩
    · rw [Tree.setNode_of_ne T _ hqp]
      exact ⟨_, _, _, hq⟩
  refine ⟨T.setNode_mono p _ h.root, fun q qs hq => h.pairs q qs (hinner q qs hq), ?_, ?_, ?_⟩
  · intro q qs hq pr hpr
    obtain ⟨h1, h2⟩ := h.child q qs (hinner q qs hq) pr hpr
    exact ⟨T.setNode_mono p _ h1, h2⟩
  · intro q es₁ l₁ r₁ hq
    by_cases hqp : q = p
    · subst hqp
      rw [Tree.setNode_self] at hq
      cases hq
      exact hl
    · exact h.long q es₁ l₁ r₁ (by rwa [Tree.setNode_of_ne T _ hqp] at hq)
  · intro q es₁ l₁ r₁ hq
    by_cases hqp : q = p
    · subst hqp
      rw [Tree.setNode_self] at hq
      cases hq
      exact (h.sibling q es l r hp).imp id (hleaf r)
    · exact (h.sibling q es₁ l₁ r₁ (by rwa [Tree.setNode_of_ne T _ hqp] at hq)).imp id (hleaf r₁)

/-! ## Handing a page upwards -/

/-- Ranks rise along a path. -/
theorem Path.rank_lt (h : Shape w rank T) : ∀ {p : Nat} {stack : List Nat}, Path T p stack →
    ∀ q ∈ stack, rank p < rank q
  | _, [], _, q, hq => absurd hq List.not_mem_nil
  | p, p' :: rest, ⟨⟨ps, k, hp, hm⟩, hpath⟩, q, hq => by
    have hlt := (h.child p' ps hp (k, p) hm).2
    cases List.mem_cons.mp hq with
    | inl e => rw [e]; exact hlt
    | inr hq => exact hlt.trans (Path.rank_lt h hpath q hq)

theorem addPair_shape (h : Shape w rank T) (hr : T.store right ≠ none)
    (hlt : rank right < rank p) : Shape w rank (T.addPair w p sep right) := by
  unfold Tree.addPair
  split
  · next ps hp =>
    have hle : lowerIdx w ps (keyOf w sep) ≤ ps.length := lowerIdx_le
    refine h.setInner (by simp [hp]) ?_ fun pr hpr => ?_
    · intro hnil
      have := congrArg List.length hnil
      rw [List.length_insertIdx_of_le_length hle] at this
      simp at this
    · cases (List.mem_insertIdx hle).mp hpr with
      | inl he => rw [he]; exact ⟨hr, hlt⟩
      | inr hm => exact h.child p ps hp pr hm
  · exact h

/-- An internal page is halved, the upper half on a new page. -/
theorem Shape.halveInner (h : Shape w rank T) (hp : T.store p = some (.inner ps))
    (hq : T.store q = none) {m : Nat} (h0 : 0 < m) (hm : m < ps.length) :
    Shape w (Function.update rank q (rank p))
      ((T.setNode p (.inner (ps.take m))).setNode q (.inner (ps.drop m))) := by
  have hne : ∀ a, T.store a ≠ none → a ≠ q := fun a ha e => ha (e ▸ hq)
  have hpq := hne p (by simp [hp])
  have h₁ : Shape w (Function.update rank q (rank p)) T := by
    apply h.rank_congr
    intro a ha
    exact Function.update_of_ne (hne a ha) ..
  have hchild : ∀ pr ∈ ps, T.store pr.2 ≠ none ∧ Function.update rank q (rank p) pr.2 < rank p := by
    intro pr hpr
    obtain ⟨h2, h3⟩ := h.child p ps hp pr hpr
    rw [Function.update_of_ne (hne _ h2)]
    exact ⟨h2, h3⟩
  refine (h₁.setInner ?_ ?_ ?_).setInner ?_ ?_ ?_
  · intro es l r
    rw [hp]
    simp
  · intro hnil
    have := congrArg List.length hnil
    rw [List.length_take, List.length_nil] at this
    omega
  · intro pr hpr
    rw [Function.update_of_ne hpq]
    exact hchild pr (List.mem_of_mem_take hpr)
  · intro es l r
    rw [Tree.setNode_of_ne _ _ (Ne.symm hpq), hq]
    simp
  · intro hnil
    have := congrArg List.length hnil
    rw [List.length_drop, List.length_nil] at this
    omega
  · intro pr hpr
    obtain ⟨h2, h3⟩ := hchild pr (List.mem_of_mem_drop hpr)
    rw [Function.update_self]
    exact ⟨Tree.setNode_mono _ _ _ h2, h3⟩

theorem splitNode_shape (h : Shape w rank T) (hi : T.Ids) (hp : T.store p = some (.inner ps))
    (hlen : 2 ≤ ps.length) :
    Shape w (Function.update rank T.alloc.1 (rank p)) (T.splitNode p ps).2.2 := by
  have hp' : T.alloc.2.store p = some (.inner ps) := by rw [Tree.alloc_store, hp]
  have hnew : T.alloc.2.store T.alloc.1 = none := by rw [Tree.alloc_store, hi.alloc.2.2]
  rw [Tree.splitNode_tree]
  exact (h.congr Tree.alloc_store Tree.alloc_root).halveInner hp' hnew (by omega) (by omega)

theorem splitRoot_shape (h : Shape w rank T) (hi : T.Ids) (hl : T.store left ≠ none)
    (hr : T.store right ≠ none) (hle : rank right ≤ rank left) :
    Shape w (Function.update rank T.alloc.1 (rank left + 1)) (T.splitRoot w left sep right) := by
  have hne : ∀ q, T.store q ≠ none → q ≠ T.alloc.1 := fun q hq => hi.alloc_ne hq
  have h₁ : Shape w (Function.update rank T.alloc.1 (rank left + 1)) T.alloc.2 := by
    refine (h.rank_congr ?_).congr Tree.alloc_store Tree.alloc_root
    intro q hq
    exact Function.update_of_ne (hne q hq) ..
  have h₂ : Shape w (Function.update rank T.alloc.1 (rank left + 1)) (T.alloc.2.setNode T.alloc.1
      (.inner [(T.minKey w left, left), (sep, right)])) := h₁.setInner
    (by intro es l r; rw [Tree.alloc_store, hi.alloc.2.2]; simp) (by simp) (by
      intro pr hpr
      rw [Function.update_self, Tree.alloc_store]
      simp only [List.mem_cons, List.not_mem_nil, or_false] at hpr
      rcases hpr with rfl | rfl
      · rw [Function.update_of_ne (hne _ hl)]
        exact ⟨hl, Nat.lt_succ_self _⟩
      · rw [Function.update_of_ne (hne _ hr)]
        exact ⟨hr, Nat.lt_succ_of_le hle⟩)
  refine ⟨?_, h₂.pairs, h₂.child, h₂.long, h₂.sibling⟩
  rw [Tree.splitRoot_root, Tree.splitRoot_store, Tree.setNode_self]
  simp

/-- The tree after a new page is linked in keeps the ranks of its pages. -/
theorem wire_shape (hw : w ≤ 8) : ∀ (stack : List Nat) (T : Tree) (rank : Nat → Nat) (left : Nat)
    (sep : Bytes) (right : Nat), Shape w rank T → T.Ids → Path T left stack → stack.Nodup →
    T.store right ≠ none → rank right ≤ rank left →
    ∃ rank', Shape w rank' (Tree.wire w stack T left sep right) ∧
      ∀ q, T.store q ≠ none → rank' q = rank q
  | [], T, rank, left, sep, right, h, hi, hpath, _, hr, hle => by
    have hl : T.store left ≠ none := by
      rw [← show T.root = left from hpath]
      exact h.root
    exact ⟨_, splitRoot_shape h hi hl hr hle, fun q hq => Function.update_of_ne (hi.alloc_ne hq) ..⟩
  | p :: rest, T, rank, left, sep, right, h, hi, ⟨⟨ps, k, hp, hm⟩, hpath⟩, hnd, hr, hle => by
    have hpn : T.store p ≠ none := by simp [hp]
    obtain ⟨hpr, hnd'⟩ := List.nodup_cons.mp hnd
    have hlt : rank right < rank p := Nat.lt_of_le_of_lt hle (h.child p ps hp (k, left) hm).2
    rw [Tree.wire_cons hp]
    split
    · exact ⟨rank, addPair_shape h hr hlt, fun q _ => rfl⟩
    · next hroom =>
      have hlen := four_le_of_full hw hroom
      have hs := Tree.splitNode_store ps hi hpn
      have hne : ∀ q, T.store q ≠ none → q ≠ T.alloc.1 := fun q hq => hi.alloc_ne hq
      have hinner := hpath.inner
      have hpath' : Path (T.splitNode p ps).2.2 p rest := by
        refine hpath.congr Tree.splitNode_root fun q hq => hs.2.2 q ?_ ?_
        · exact fun e => hpr (e ▸ hq)
        · obtain ⟨qs, hqs⟩ := hinner q hq
          exact hne q (by simp [hqs])
      obtain ⟨rank', h', hrank⟩ := wire_shape hw rest _ _ p (T.splitNode p ps).2.1 T.alloc.1
        (splitNode_shape h hi hp (by omega)) (Tree.splitNode_ids ps hi hpn) hpath' hnd'
        (by simp [hs.2.1]) (by rw [Function.update_self, Function.update_of_ne (hne p hpn)])
      have hrank₀ : ∀ q, T.store q ≠ none → rank' q = rank q := by
        intro q hq
        rw [hrank q (Tree.splitNode_mono hi hpn hq), Function.update_of_ne (hne q hq)]
      have hfresh : rank' T.alloc.1 = rank p := by
        rw [hrank _ (by simp [hs.2.1]), Function.update_self]
      refine ⟨rank', addPair_shape h' ?_ ?_, hrank₀⟩
      · exact Tree.wire_mono _ _ _ _ _ (Tree.splitNode_ids ps hi hpn)
          (Tree.splitNode_mono hi hpn hr)
      · rw [hrank₀ right hr]
        split
        · rw [hfresh]; exact hlt
        · rw [hrank₀ p hpn]; exact hlt

/-! ## The calls -/

theorem liveEntries_sub {b : Bytes} (h : .live b ∈ liveEntries es) : .live b ∈ es :=
  List.mem_of_mem_filter h

theorem splitLeaf_shape (h : Shape w rank T) (hi : T.Ids)
    (hp : T.store p = some (.leaf es left right)) :
    Shape w (Function.update rank T.alloc.1 (rank p)) (T.splitLeaf w p es left right).2.2 := by
  have hpn : T.store p ≠ none := by simp [hp]
  have hne : ∀ q, T.store q ≠ none → q ≠ T.alloc.1 := fun q hq => hi.alloc_ne hq
  obtain ⟨⟨l₁, hp₁⟩, ⟨l₂, hf₁⟩, hother⟩ := Tree.splitLeaf_of_leaf (w := w) hi hp
  -- the leaves there were are leaves still
  have hleaf : ∀ q, T.IsLeaf q → (T.splitLeaf w p es left right).2.2.IsLeaf q := by
    rintro q ⟨es', l', r', hq⟩
    by_cases hqp : q = p
    · subst hqp
      exact ⟨_, _, _, hp₁⟩
    · obtain ⟨l, hl⟩ := hother q es' l' r' hqp hq
      exact ⟨_, _, _, hl⟩
  refine ⟨?_, fun q qs hq => h.pairs q qs ((Tree.splitLeaf_inner hi hp).mp hq), ?_, ?_, ?_⟩
  · rw [Tree.splitLeaf_root]
    exact Tree.splitLeaf_mono hi hpn h.root
  · intro q qs hq pr hpr
    have hq' := (Tree.splitLeaf_inner hi hp).mp hq
    obtain ⟨h1, h2⟩ := h.child q qs hq' pr hpr
    rw [Function.update_of_ne (hne _ h1), Function.update_of_ne (hne q (by simp [hq']))]
    exact ⟨Tree.splitLeaf_mono hi hpn h1, h2⟩
  · intro q es' l r hq b hb
    have hlong := h.long p es left right hp b
    rcases Tree.splitLeaf_leaf hi hpn hq with ⟨-, rfl, -⟩ | ⟨-, rfl, -⟩ | ⟨-, -, l', hq'⟩
    · exact hlong (List.mem_of_mem_take (liveEntries_sub hb))
    · exact hlong (List.mem_of_mem_drop (liveEntries_sub hb))
    · exact h.long q es' l' r hq' b hb
  · intro q es' l r hq
    rcases Tree.splitLeaf_leaf hi hpn hq with ⟨-, -, rfl⟩ | ⟨-, -, rfl⟩ | ⟨-, -, l', hq'⟩
    · exact .inr ⟨_, _, _, hf₁⟩
    · exact (h.sibling p es left r hp).imp id (hleaf r)
    · exact (h.sibling q es' l' r hq').imp id (hleaf r)

theorem Route.path {x : Int} {stack : List Nat} (hr : Route w T x p stack) : Path T p stack := by
  induction hr with
  | root => rfl
  | @step p stack ps pr _ hp hc ih =>
    exact ⟨⟨ps, pr.1, hp, List.mem_of_getElem? hc⟩, ih⟩

/-- The path up from a leaf is as before the split of the leaf. -/
theorem splitLeaf_path {stack : List Nat} (hi : T.Ids)
    (hp : T.store p = some (.leaf es left right)) (hpath : Path T q stack) :
    Path (T.splitLeaf w p es left right).2.2 q stack := by
  refine hpath.congr Tree.splitLeaf_root fun r hr => ?_
  obtain ⟨ps, hps⟩ := hpath.inner r hr
  rw [hps]
  exact (Tree.splitLeaf_inner hi hp).mpr hps

theorem splitChild_shape (hw : w ≤ 8) (h : Shape w rank T) (hi : T.Ids) {x : Int} {stack : List Nat}
    (hr : Route w T x p stack) (hp : T.store p = some (.leaf es left right)) :
    ∃ rank', Shape w rank' (T.splitChild w p es left right stack) ∧
      ∀ q, T.store q ≠ none → rank' q = rank q := by
  have hpn : T.store p ≠ none := by simp [hp]
  have hpf := hi.alloc_ne hpn
  obtain ⟨-, ⟨l, hf⟩, -⟩ := Tree.splitLeaf_of_leaf (w := w) hi hp
  obtain ⟨rank', h', hrank⟩ := wire_shape hw stack _ _ p (T.splitLeaf w p es left right).2.1
    T.alloc.1 (splitLeaf_shape h hi hp) (Tree.splitLeaf_ids es left right hi hpn)
    (splitLeaf_path hi hp hr.path) (hr.nodup h) (by simp [hf])
    (by rw [Function.update_self, Function.update_of_ne hpf])
  refine ⟨rank', h', fun q hq => ?_⟩
  rw [hrank q (Tree.splitLeaf_mono hi hpn hq), Function.update_of_ne (hi.alloc_ne hq)]

/-- The leaves after a split are those after the split of the leaf. -/
theorem splitChild_leaf {stack : List Nat} {l r : Nat} (hi : T.Ids) (hp : T.store p ≠ none) :
    (T.splitChild w p es left right stack).store q = some (.leaf es' l r) ↔
      (T.splitLeaf w p es left right).2.2.store q = some (.leaf es' l r) :=
  wire_leaf _ _ _ _ _ (Tree.splitLeaf_ids (w := w) es left right hi hp)

theorem mem_leafInsert {i : Nat} {r : Bytes} {e : Entry} (hi : i ≤ es.length)
    (he : e ∈ leafInsert es i r) : e = .live r ∨ e ∈ es := by
  unfold leafInsert at he
  split at he
  · exact (List.mem_insertIdx hi).mp he
  · cases (List.mem_insertIdx (liveBefore_le ..)).mp he with
    | inl h => exact .inl h
    | inr h => exact .inr (List.mem_of_mem_filter h)

/-- A leaf after a split holds a part of a leaf before it. -/
theorem splitChild_part {stack : List Nat} {l r : Nat} (hi : T.Ids)
    (hp : T.store p = some (.leaf es left right))
    (hq : (T.splitChild w p es left right stack).store q = some (.leaf es' l r)) :
    ∃ p₀ es₀ l₀ r₀, T.store p₀ = some (.leaf es₀ l₀ r₀) ∧ es'.Sublist es₀ := by
  have hpn : T.store p ≠ none := by simp [hp]
  rcases Tree.splitLeaf_leaf hi hpn ((splitChild_leaf hi hpn).mp hq) with ⟨-, rfl, -⟩ | ⟨-, rfl, -⟩ |
    ⟨-, -, l', hq'⟩
  · exact ⟨p, es, _, _, hp, List.filter_sublist.trans (List.take_sublist _ _)⟩
  · exact ⟨p, es, _, _, hp, List.filter_sublist.trans (List.drop_sublist _ _)⟩
  · exact ⟨q, es', _, _, hq', List.Sublist.refl _⟩

/-- The leaf the record is led to has room for it. -/
def RoomFor (w : Nat) (T : Tree) (r : Bytes) : Prop :=
  ∃ p stack es left right, T.find w (keyOf w r) = some (p, stack) ∧
    T.store p = some (.leaf es left right) ∧ leafRoom es r.length = true

/-- A leaf after an insert: a part of one before it, or one with the record put in. -/
theorem insert_leaf (h : Shape w rank T) (hi : T.Ids) {r : Bytes} {l₁ r₁ : Nat}
    (hq : (T.insert w r).store q = some (.leaf es' l₁ r₁)) :
    ∃ p₀ es₀ l₀ r₀, T.store p₀ = some (.leaf es₀ l₀ r₀) ∧
      (es'.Sublist es₀ ∨ RoomFor w T r ∧ es' = leafInsert es₀ (lowerSlot w es₀ (keyOf w r)) r) := by
  obtain ⟨p, stack, hf, hroute, es, left, right, hp⟩ := find_route h hi (keyOf w r)
  unfold Tree.insert at hq
  simp only [hf, hp] at hq
  split at hq
  · next hroom =>
    by_cases hqp : q = p
    · rw [hqp, Tree.setNode_self] at hq
      cases hq
      exact ⟨p, es, _, _, hp, .inr ⟨⟨p, stack, es, _, _, hf, hp, hroom⟩, rfl⟩⟩
    · rw [Tree.setNode_of_ne T _ hqp] at hq
      exact ⟨q, es', _, _, hq, .inl (List.Sublist.refl _)⟩
  · obtain ⟨p₀, es₀, l₀, r₀, hp₀, hsub⟩ := splitChild_part hi hp hq
    exact ⟨p₀, es₀, l₀, r₀, hp₀, .inl hsub⟩

/-- A leaf after a removal: one before it, maybe with a record dead. -/
theorem remove_leaf {x : Int} {l₁ r₁ : Nat} (hq : (T.remove w x).store q = some (.leaf es' l₁ r₁)) :
    ∃ p₀ es₀ l₀ r₀, T.store p₀ = some (.leaf es₀ l₀ r₀) ∧
      (es' = es₀ ∨ ∃ i b, es₀[i]? = some (.live b) ∧ es' = es₀.set i (.dead b.length)) := by
  obtain e | ⟨p, es, left, right, i, b, hp, hb, e⟩ := T.remove_cases w x
  · rw [e] at hq
    exact ⟨q, es', _, _, hq, .inl rfl⟩
  · rw [e, Tree.setNode_store, Function.update_apply] at hq
    split at hq
    · cases hq
      exact ⟨p, es, _, _, hp, .inr ⟨i, b, hb, rfl⟩⟩
    · exact ⟨q, es', _, _, hq, .inl rfl⟩

theorem insert_shape (hw : w ≤ 8) (h : Shape w rank T) (hi : T.Ids) {r : Bytes} (hr : w ≤ r.length) :
    ∃ rank', Shape w rank' (T.insert w r) ∧ ∀ q, T.store q ≠ none → rank' q = rank q := by
  obtain ⟨p, stack, hf, hroute, es, left, right, hp⟩ := find_route h hi (keyOf w r)
  unfold Tree.insert
  simp only [hf, hp]
  split
  · refine ⟨rank, h.setLeaf hp fun b hb => ?_, fun q _ => rfl⟩
    cases mem_leafInsert lowerSlot_le hb with
    | inl he => cases he; exact hr
    | inr hm => exact h.long p es left right hp b hm
  · exact splitChild_shape hw h hi hroute hp

theorem remove_shape (h : Shape w rank T) (x : Int) : Shape w rank (T.remove w x) := by
  obtain e | ⟨p, es, left, right, i, b, hp, -, e⟩ := T.remove_cases w x
  · rw [e]
    exact h
  · rw [e]
    exact h.setLeaf hp fun c hc => h.long p es left right hp c (live_of_mem_set hc)

theorem remove_next (T : Tree) (x : Int) : (T.remove w x).next = T.next := by
  obtain e | ⟨p, es, left, right, i, b, -, -, e⟩ := T.remove_cases w x
  · rw [e]
  · rw [e, Tree.setNode_next]

end

end DbInternals.Index
