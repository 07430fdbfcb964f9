import DbInternals.Index.TreeShape

/-!
# The chain of leaves

`Chain T ls`: the leaves of the tree, in the order of the list, are linked to
both sides, and there are no others. Splitting a leaf puts the new page right
behind it (`Chain.splitLeaf`); everything else leaves the chain as it is.

`Dense T`: every page taken so far is a page of the tree.

Results: `splitChild_chain`, `insert_chain`, `remove_chain`, `insert_dense`,
`remove_dense`.
-/
namespace DbInternals.Index

open Storage SlottedPage

/-- The page behind, if there is one. -/
def nextOf (ls : List Nat) : Nat := ls.head?.getD INVALID_PAGE_ID

/-- The pages are leaves, each linked to the one behind and the one in front;
`prev` is in front of the first. -/
def Linked (T : Tree) : Nat → List Nat → Prop
  | _, [] => True
  | prev, p :: ls => (∃ es, T.store p = some (.leaf es prev (nextOf ls))) ∧ Linked T p ls

structure Chain (T : Tree) (ls : List Nat) : Prop where
  nodup : ls.Nodup
  linked : Linked T INVALID_PAGE_ID ls
  cover : ∀ p, T.IsLeaf p ↔ p ∈ ls

section
variable {w : Nat} {rank : Nat → Nat} {T T' : Tree} {p q prev left right : Nat}
  {es es' : List Entry} {ls a b stack : List Nat}

theorem Linked.leaf : ∀ {prev : Nat} {ls : List Nat}, Linked T prev ls → ∀ p ∈ ls, T.IsLeaf p
  | _, [], _, _, hp => absurd hp List.not_mem_nil
  | _, q :: ls, ⟨⟨es, hq⟩, h⟩, p, hp => by
    cases List.mem_cons.mp hp with
    | inl e => subst e; exact ⟨es, _, _, hq⟩
    | inr hm => exact h.leaf p hm

/-- Only the links count. -/
theorem Linked.congr : ∀ {prev : Nat} {ls : List Nat}, Linked T prev ls →
    (∀ p ∈ ls, ∀ es l r, T.store p = some (.leaf es l r) →
      ∃ es', T'.store p = some (.leaf es' l r)) → Linked T' prev ls
  | _, [], _, _ => trivial
  | _, q :: _, ⟨⟨es, hq⟩, h⟩, hs =>
    ⟨hs q List.mem_cons_self es _ _ hq, h.congr fun p hp => hs p (List.mem_cons_of_mem q hp)⟩

/-- Where the pages are linked the neighbours of one are its neighbours in the list. -/
theorem Linked.at : ∀ {prev : Nat} (a : List Nat), Linked T prev (a ++ p :: b) →
    T.store p = some (.leaf es left right) → right = nextOf b
  | _, [], ⟨⟨es', h⟩, _⟩, hp => by
    rw [hp] at h
    cases h
    rfl
  | _, q :: a, ⟨_, h⟩, hp => Linked.at a h hp

theorem Chain.congr (h : Chain T ls) (hs : ∀ p es l r, T.store p = some (.leaf es l r) →
    ∃ es', T'.store p = some (.leaf es' l r)) (hc : ∀ p, T'.IsLeaf p → T.IsLeaf p) : Chain T' ls where
  nodup := h.nodup
  linked := h.linked.congr fun p _ => hs p
  cover p := by
    refine ⟨fun hp => (h.cover p).mp (hc p hp), fun hp => ?_⟩
    obtain ⟨es, l, r, he⟩ := (h.cover p).mpr hp
    obtain ⟨es', he'⟩ := hs p es l r he
    exact ⟨es', l, r, he'⟩

theorem Chain.setLeaf (h : Chain T ls) (hp : T.store p = some (.leaf es left right)) :
    Chain (T.setNode p (.leaf es' left right)) ls := by
  refine h.congr (fun q es₁ l r hq => ?_) fun q ⟨es₁, l, r, hq⟩ => ?_
  · by_cases hqp : q = p
    · subst hqp
      rw [hp] at hq
      cases hq
      exact ⟨es', Tree.setNode_self ..⟩
    · exact ⟨es₁, by rwa [Tree.setNode_of_ne T _ hqp]⟩
  · by_cases hqp : q = p
    · subst hqp
      exact ⟨_, _, _, hp⟩
    · rw [Tree.setNode_of_ne T _ hqp] at hq
      exact ⟨_, _, _, hq⟩

/-! ## A leaf split -/

/-- The leaves after a split, with their neighbours. -/
theorem splitLeaf_links (hi : T.Ids) (hinv : T.store INVALID_PAGE_ID = none)
    (hp : T.store p = some (.leaf es left right)) (hr : right ≠ p)
    (hrs : right = INVALID_PAGE_ID ∨ T.store right ≠ none) :
    (T.splitLeaf w p es left right).2.2.store p =
        some (.leaf (liveEntries (es.take (Tree.pivotOf es))) left T.alloc.1) ∧
      (T.splitLeaf w p es left right).2.2.store T.alloc.1 =
        some (.leaf (liveEntries (es.drop (Tree.pivotOf es))) p right) ∧
      ∀ q es' l r, q ≠ p → T.store q = some (.leaf es' l r) →
        (T.splitLeaf w p es left right).2.2.store q =
          some (.leaf es' (if q = right then T.alloc.1 else l) r) := by
  have hpn : T.store p ≠ none := by simp [hp]
  obtain ⟨h1, h2, h3⟩ := Tree.splitPages_store es left right hi hpn
  have hother : ∀ q es' l r, q ≠ p → T.store q = some (.leaf es' l r) →
      (T.splitPages p es left right).store q = some (.leaf es' l r) := by
    intro q es' l r hqp hq
    rw [h3 q hqp (hi.alloc_ne (by simp [hq])), hq]
  rw [Tree.splitLeaf_tree]
  split
  · next hne =>
    have hf : T.alloc.1 ≠ right := Ne.symm (hi.alloc_ne (hrs.resolve_left hne))
    refine ⟨?_, ?_, fun q es' l r hqp hq => Tree.relinkLeft_of_leaf (hother q es' l r hqp hq)⟩
    · rw [Tree.relinkLeft_of_leaf h1, if_neg (Ne.symm hr)]
    · rw [Tree.relinkLeft_of_leaf h2, if_neg hf]
  · next heq =>
    refine ⟨h1, h2, fun q es' l r hqp hq => ?_⟩
    have hq' : q ≠ right := by
      intro e
      rw [e, not_not.mp heq, hinv] at hq
      cases hq
    rw [if_neg hq']
    exact hother q es' l r hqp hq

/-- A page put behind `p` is linked in where `p`, the page itself and the one
behind have their new neighbours. -/
theorem Linked.insert {f : Nat} {es₁ es₂ : List Entry} (hp' : T'.store p = some (.leaf es₁ left f))
    (hf : T'.store f = some (.leaf es₂ p (nextOf b)))
    (hs : ∀ q es l r, q ≠ p → T.store q = some (.leaf es l r) →
      T'.store q = some (.leaf es (if q = nextOf b then f else l) r))
    (hp : T.store p = some (.leaf es left right)) :
    ∀ {prev : Nat} (a : List Nat), (a ++ p :: b).Nodup → nextOf b ∉ a → Linked T prev (a ++ p :: b) →
      Linked T' prev (a ++ p :: f :: b)
  | prev, [], hnd, _, ⟨⟨es', h⟩, hb⟩ => by
    obtain ⟨hpb, hndb⟩ := List.nodup_cons.mp hnd
    rw [hp] at h
    cases h
    refine ⟨⟨es₁, hp'⟩, ⟨es₂, hf⟩, ?_⟩
    cases b with
    | nil => trivial
    | cons q b =>
      obtain ⟨⟨esq, hq⟩, hb⟩ := hb
      obtain ⟨hpq, hpb⟩ : p ≠ q ∧ p ∉ b := by simpa using hpb
      have hqb := (List.nodup_cons.mp hndb).1
      have hq' := hs q esq p (nextOf b) (Ne.symm hpq) hq
      rw [if_pos (show q = nextOf (q :: b) from rfl)] at hq'
      refine ⟨⟨esq, hq'⟩, hb.congr fun r hr es l r' he => ?_⟩
      have := hs r es l r' (fun e => hpb (e ▸ hr)) he
      have hrq : r ≠ nextOf (q :: b) := by rintro rfl; exact hqb hr
      rw [if_neg hrq] at this
      exact ⟨es, this⟩
  | prev, q :: a, hnd, hn, ⟨⟨esq, hq⟩, h⟩ => by
    obtain ⟨hqa, hnda⟩ := List.nodup_cons.mp hnd
    obtain ⟨hnq, hna⟩ : nextOf b ≠ q ∧ nextOf b ∉ a := by simpa using hn
    have hqp : q ≠ p := by
      intro e
      exact hqa (by simp [e])
    have hq' := hs q esq prev _ hqp hq
    rw [if_neg (Ne.symm hnq)] at hq'
    refine ⟨⟨esq, ?_⟩, Linked.insert hp' hf hs hp a hnda hna h⟩
    have hnext : nextOf (a ++ p :: f :: b) = nextOf (a ++ p :: b) := by cases a <;> rfl
    exact hq'.trans (by rw [← List.append_eq, ← List.append_eq] at hnext; rw [hnext])

/-- The new page goes behind the one it was split from. -/
theorem Chain.splitLeaf (hi : T.Ids) (hinv : T.store INVALID_PAGE_ID = none)
    (h : Chain T (a ++ p :: b)) (hp : T.store p = some (.leaf es left right)) :
    Chain (T.splitLeaf w p es left right).2.2 (a ++ p :: T.alloc.1 :: b) := by
  obtain ⟨hnd, hl, hcover⟩ := h
  obtain rfl := Linked.at a hl hp
  have hnd' := List.nodup_append.mp hnd
  obtain ⟨hpb, hndb⟩ := List.nodup_cons.mp hnd'.2.1
  have hpn : T.store p ≠ none := by simp [hp]
  have hstore : ∀ q ∈ a ++ p :: b, T.store q ≠ none := by
    intro q hq
    obtain ⟨es', l, r, he⟩ := hl.leaf q hq
    simp [he]
  have hnext : nextOf b = INVALID_PAGE_ID ∨ nextOf b ∈ b := by
    cases b with
    | nil => exact .inl rfl
    | cons q b => exact .inr List.mem_cons_self
  have hne : nextOf b ≠ p := by
    intro e
    cases hnext with
    | inl hx => rw [← hx, e] at hinv; exact hpn hinv
    | inr hm => exact hpb (e ▸ hm)
  have hna : nextOf b ∉ a := by
    intro hm
    cases hnext with
    | inl hx => exact hstore _ (List.mem_append_left _ (hx ▸ hm)) hinv
    | inr hm' => exact hnd'.2.2 _ hm _ (List.mem_cons_of_mem p hm') rfl
  obtain ⟨s1, s2, s3⟩ := splitLeaf_links (w := w) hi hinv hp hne
    (hnext.imp id fun hm => hstore _ (by simp [hm]))
  have hfresh : T.alloc.1 ∉ a ++ p :: b := fun hm => hi.alloc_ne (hstore _ hm) rfl
  refine ⟨?_, Linked.insert s1 s2 s3 hp a hnd hna hl, fun q => ⟨fun hq => ?_, fun hq => ?_⟩⟩
  · rw [List.append_cons, List.nodup_middle, ← List.append_cons]
    exact List.nodup_cons.mpr ⟨hfresh, hnd⟩
  · obtain ⟨es', l, r, he⟩ := hq
    rcases Tree.splitLeaf_leaf hi hpn he with ⟨rfl, -, -⟩ | ⟨rfl, -, -⟩ | ⟨-, -, l', hq'⟩
    · simp
    · simp
    · have := (hcover q).mp ⟨_, _, _, hq'⟩
      simp only [List.mem_append, List.mem_cons] at this ⊢
      rcases this with h | h | h
      · exact .inl h
      · exact .inr (.inl h)
      · exact .inr (.inr (.inr h))
  · by_cases hqf : q = T.alloc.1
    · subst hqf
      exact ⟨_, _, _, s2⟩
    · have hm : q ∈ a ++ p :: b := by
        simp only [List.mem_append, List.mem_cons] at hq ⊢
        rcases hq with h | h | h | h
        · exact .inl h
        · exact .inr (.inl h)
        · exact absurd h hqf
        · exact .inr (.inr h)
      by_cases hqp : q = p
      · subst hqp
        exact ⟨_, _, _, s1⟩
      · obtain ⟨es', l, r, he⟩ := hl.leaf q hm
        exact ⟨_, _, _, s3 q es' l r hqp he⟩

/-! ## The calls -/

theorem splitChild_chain (hi : T.Ids) (hinv : T.store INVALID_PAGE_ID = none)
    (h : Chain T (a ++ p :: b)) (hp : T.store p = some (.leaf es left right)) :
    Chain (T.splitChild w p es left right stack) (a ++ p :: T.alloc.1 :: b) := by
  have hpn : T.store p ≠ none := by simp [hp]
  refine (h.splitLeaf (w := w) hi hinv hp).congr
    (fun q es l r hq => ⟨es, (splitChild_leaf hi hpn).mpr hq⟩) ?_
  rintro q ⟨es, l, r, hq⟩
  exact ⟨es, l, r, (splitChild_leaf hi hpn).mp hq⟩

/-- The first leaf stays the first. -/
theorem insert_chain (h : Shape w rank T) (hi : T.Ids) (hinv : T.store INVALID_PAGE_ID = none)
    (hc : Chain T (q :: ls)) (r : Bytes) : ∃ ls', Chain (T.insert w r) (q :: ls') := by
  obtain ⟨p, stack, hf, -, es, left, right, hp⟩ := find_route h hi (keyOf w r)
  unfold Tree.insert
  simp only [hf, hp]
  split
  · exact ⟨ls, hc.setLeaf hp⟩
  · obtain ⟨a, b, e⟩ := List.append_of_mem ((hc.cover p).mp ⟨_, _, _, hp⟩)
    have h' : Chain (T.splitChild w p es left right stack) (a ++ p :: T.alloc.1 :: b) :=
      splitChild_chain hi hinv (e ▸ hc) hp
    cases a with
    | nil =>
      cases e
      exact ⟨_, h'⟩
    | cons q' a =>
      cases e
      exact ⟨_, h'⟩

theorem remove_chain (hc : Chain T ls) (x : Int) : Chain (T.remove w x) ls := by
  obtain e | ⟨p, es, left, right, i, b, hp, -, e⟩ := T.remove_cases w x
  · rw [e]
    exact hc
  · rw [e]
    exact hc.setLeaf hp

/-! ## No page is lost -/

/-- Every id taken so far is a page of the tree, and none was given back. -/
structure Dense (T : Tree) : Prop where
  free : T.free = []
  all : ∀ p, 1 ≤ p → p < T.next → T.store p ≠ none

theorem Dense.alloc (h : Dense T) : T.alloc = (T.next, { T with next := T.next + 1 }) := by
  rw [Tree.alloc, h.free]

theorem Dense.setNode (h : Dense T) (p : Nat) (n : Node) : Dense (T.setNode p n) :=
  ⟨h.free, fun q h1 h2 => T.setNode_mono p n (h.all q h1 h2)⟩

/-- A page taken is written. -/
theorem Dense.fill (h : Dense T) (T' : Tree) (hfree : T'.free = T.alloc.2.free)
    (hnext : T'.next = T.alloc.2.next) (hm : ∀ q, T.store q ≠ none → T'.store q ≠ none)
    (hf : T'.store T.alloc.1 ≠ none) : Dense T' := by
  rw [h.alloc] at hfree hnext hf
  refine ⟨hfree.trans h.free, fun q h1 h2 => ?_⟩
  rw [hnext] at h2
  by_cases hq : q = T.next
  · rw [hq]; exact hf
  · exact hm q (h.all q h1 (Nat.lt_of_le_of_ne (Nat.le_of_lt_succ h2) hq))

theorem addPair_dense (h : Dense T) {sep : Bytes} : Dense (T.addPair w p sep right) := by
  unfold Tree.addPair
  split
  · exact h.setNode _ _
  · exact h

theorem wire_dense : ∀ (stack : List Nat) (T : Tree) (left : Nat) (sep : Bytes) (right : Nat),
    T.Ids → Dense T → Dense (Tree.wire w stack T left sep right)
  | [], T, left, sep, right, hi, h => by
    refine h.fill _ rfl rfl (fun q hq => ?_) ?_
    · rw [Tree.wire, Tree.splitRoot_store_of_ne (hi.used q hq)]
      exact hq
    · rw [Tree.wire, Tree.splitRoot_store, Tree.setNode_self]
      simp
  | p :: rest, T, left, sep, right, hi, h => by
    cases hp : T.store p with
    | none => simpa [Tree.wire, hp] using h
    | some n =>
      cases n with
      | leaf es l r => simpa [Tree.wire, hp] using h
      | inner ps =>
        have hpn : T.store p ≠ none := by simp [hp]
        rw [Tree.wire_cons hp]
        split
        · exact addPair_dense h
        · refine addPair_dense (wire_dense rest _ _ _ _ (Tree.splitNode_ids ps hi hpn) ?_)
          refine h.fill _ rfl rfl (fun q hq => Tree.splitNode_mono hi hpn hq) ?_
          simp [(Tree.splitNode_store ps hi hpn).2.1]

theorem splitLeaf_dense (hi : T.Ids) (h : Dense T) (hp : T.store p = some (.leaf es left right)) :
    Dense (T.splitLeaf w p es left right).2.2 := by
  have hpn : T.store p ≠ none := by simp [hp]
  obtain ⟨-, ⟨l, hf⟩, -⟩ := Tree.splitLeaf_of_leaf (w := w) hi hp
  have hfields : (T.splitLeaf w p es left right).2.2.free = T.alloc.2.free ∧
      (T.splitLeaf w p es left right).2.2.next = T.alloc.2.next := by
    rw [Tree.splitLeaf_tree]
    unfold Tree.relinkLeft
    split
    · split <;> exact ⟨rfl, rfl⟩
    · exact ⟨rfl, rfl⟩
  exact h.fill _ hfields.1 hfields.2 (fun q hq => Tree.splitLeaf_mono hi hpn hq) (by simp [hf])

theorem insert_dense (h : Shape w rank T) (hi : T.Ids) (hd : Dense T) (r : Bytes) :
    Dense (T.insert w r) := by
  obtain ⟨p, stack, hf, -, es, left, right, hp⟩ := find_route h hi (keyOf w r)
  unfold Tree.insert
  simp only [hf, hp]
  split
  · exact hd.setNode _ _
  · exact wire_dense _ _ _ _ _ (Tree.splitLeaf_ids (w := w) es left right hi (by simp [hp]))
      (splitLeaf_dense (w := w) hi hd hp)

theorem remove_dense (hd : Dense T) (x : Int) : Dense (T.remove w x) := by
  obtain e | ⟨p, es, left, right, i, b, -, -, e⟩ := T.remove_cases w x
  · rw [e]
    exact hd
  · rw [e]
    exact hd.setNode _ _

end

end DbInternals.Index
