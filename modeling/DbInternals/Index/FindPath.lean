import Mathlib.Order.ConditionallyCompleteLattice.Basic
import Mathlib.Data.Int.ConditionallyCompleteOrder
import DbInternals.Index.KeyedPages
import DbInternals.Index.Lookups

/-!
# The path of a search

What `findRecord` does on any pages that make up a search tree, however many and however
deep, whether or not calls of the tree wrote them. Its two searches, one per internal page
and one in the leaf, follow the routing of the separators.

Results:
* `Stores.treePages`: pages with nodes read as a search tree;
* `findRecord_path`: the search ends at the one leaf for the target, at the first live slot
  that does not hold a smaller key.
-/
namespace DbInternals.Index

open Storage SlottedPage Routing

/-! ## Search trees on disk -/

/-- The pages of `N` can be read and hold its nodes. -/
structure Stores (w : Nat) (s : TreeState) (N : Nat → Option Node) : Prop where
  io : s.diskManager.io = none
  node : ∀ p n, N p = some n → Mapped s.diskManager p ∧ NodeAt False w (s.page p) n

/-- The separators of an internal page, with the children. -/
def kids (w : Nat) (N : Nat → Option Node) (p : Nat) : Option (List (Int × Nat)) :=
  match N p with
  | some (.inner ps) => some (ps.map fun pr => (keyOf w pr.1, pr.2))
  | _ => none

/-- A leaf with its live keys in slot order, each of them among those led to it. -/
def SortedLeaf (w : Nat) (N : Nat → Option Node) (p : Nat) (S : Set Int) : Prop :=
  ∃ es left right, N p = some (.leaf es left right) ∧ LongEnough w es ∧ LeafSorted w es ∧
    ∀ b, .live b ∈ es → keyOf w b ∈ S

/-- The pages from the root on. -/
def SearchTree (w : Nat) (N : Nat → Option Node) (root : Nat) : Prop :=
  IsTree (kids w N) (SortedLeaf w N) root Set.univ

/-- The first live slot with a key from `x` on, or a slot behind every live one if there is none. -/
def FirstFrom (w : Nat) (es : List Entry) (x : Int) (slot : Nat) : Prop :=
  (∃ b, es[slot]? = some (.live b) ∧ x ≤ keyOf w b ∧
    ∀ i c, i < slot → es[i]? = some (.live c) → keyOf w c < x) ∨
  ∀ i c, es[i]? = some (.live c) → keyOf w c < x ∧ i < slot

section
variable {t : TreeConfig} {τ : Prop} {w : Nat} {s : TreeState} {N : Nat → Option Node} {p q : Nat} {x : Int}
  {data : Mem}
  {S J : Set Int} {ks : List (Int × Nat)} {ps : List Pair} {es : List Entry} {left right : Nat}
  {path : List (Nat × Nat)} {target : Key}

/-! ## Nodes -/

theorem kids_inner : kids w N p = some ks ↔
    ∃ ps, N p = some (.inner ps) ∧ ks = ps.map fun pr => (keyOf w pr.1, pr.2) := by
  unfold kids
  split
  · next ps hp =>
    constructor
    · intro h
      cases h
      exact ⟨ps, hp, rfl⟩
    · rintro ⟨ps', hp', rfl⟩
      rw [hp] at hp'
      cases hp'
      rfl
  · next hp =>
    constructor
    · intro h
      cases h
    · rintro ⟨ps, hp', -⟩
      exact absurd hp' (hp ps)

/-- The pairs of an internal page are what the tree reads there, whatever is read of a key. -/
theorem readsKids_of {κ : Type} {reads : Key → κ → Prop} {f : Bytes → κ}
    (h : NodeAt τ t.keyWidth data (.inner ps))
    (hk : ∀ (i : Nat) (hi : i < ps.length), reads (keyAt t data (2 * i)) (f ps[i].1)) :
    ReadsKids t reads data (ps.map fun pr => (f pr.1, pr.2)) where
  type := h.2.1
  count := by rw [length_of_entries h.2.2.1, length_pairEntries, List.length_map]; omega
  kid i k c hi := by
    have hi' : i < ps.length := by simpa using (List.getElem?_eq_some_iff.mp hi).1
    rw [List.getElem?_map, List.getElem?_eq_getElem hi'] at hi
    cases hi
    refine ⟨hk i hi', childPageId_spec h.1 ?_ (h.2.2.2 _ (List.getElem_mem hi')).2⟩
    rw [h.2.2.1, getElem?_pairEntries_child, List.getElem?_eq_getElem hi']
    rfl

theorem readsKids (ht : t.Numeric) (h : NodeAt τ t.keyWidth data (.inner ps)) :
    ReadsKids t Key.Decodes data (ps.map fun pr => (keyOf t.keyWidth pr.1, pr.2)) :=
  readsKids_of h fun _ hi => (keyAt_pair ht h hi).1

theorem Stores.treePages (ht : t.Numeric) (h : Stores t.keyWidth s N) :
    TreePages t Key.Decodes s (kids t.keyWidth N) (SortedLeaf t.keyWidth N) where
  io := h.io
  inner p ks hp := by
    obtain ⟨ps, hps, rfl⟩ := kids_inner.mp hp
    obtain ⟨hm, hna⟩ := h.node p _ hps
    exact ⟨hm, readsKids ht hna⟩
  leaf p S hl := by
    obtain ⟨es, left, right, hp, -⟩ := hl
    obtain ⟨hm, hna⟩ := h.node p _ hp
    exact ⟨hm, hna.2.2.1⟩

/-! ## The leaf -/

theorem firstFrom_lowerSlot (hs : LeafSorted w es) : FirstFrom w es x (lowerSlot w es x) := by
  obtain ⟨hiff, hlive⟩ := lowerSlot_spec (x := x) hs
  by_cases hex : ∃ (i : Nat) (b : Bytes), es[i]? = some (.live b) ∧ x ≤ keyOf w b
  · obtain ⟨b, hb, hle⟩ := hlive hex
    exact .inl ⟨b, hb, hle, fun i c hi hc => (hiff i c hc).mp hi⟩
  · refine .inr fun i c hc => ?_
    have hlt : keyOf w c < x := Int.not_le.mp fun hle => hex ⟨i, c, hc, hle⟩
    exact ⟨hlt, (hiff i c hc).mpr hlt⟩

/-- A leaf below a node of a search tree. -/
theorem sortedLeaf_below (htree : IsTree (kids w N) (SortedLeaf w N) p S)
    (h : Below (kids w N) p S path q J) (hq : N q = some (.leaf es left right)) :
    LongEnough w es ∧ LeafSorted w es ∧ ∀ b, .live b ∈ es → keyOf w b ∈ J := by
  cases htree.subtree h with
  | leaf hp hl =>
    obtain ⟨es', left', right', hp', hspec⟩ := hl
    rw [hq] at hp'
    cases hp'
    exact hspec
  | inner hp hne hlt hc =>
    obtain ⟨ps, hps, -⟩ := kids_inner.mp hp
    rw [hq] at hps
    cases hps

/-! ## `findRecord` -/

/-- The search ends at the leaf the target is led to. -/
theorem findRecord_below (ht : t.Numeric) (hs : Stores t.keyWidth s N)
    (htree : SearchTree t.keyWidth N s.rootPageId) (hx : target.Decodes x)
    (h : Below (kids t.keyWidth N) s.rootPageId Set.univ path q J) (hxJ : x ∈ J)
    (hq : N q = some (.leaf es left right)) :
    Ends (findRecord t target) s ⟨q, lowerSlot t.keyWidth es x, (path.map crumb).reverse⟩ s := by
  have hna := (hs.node q _ hq).2
  exact findRecord_routed (keyOrder_decodes.cuts hx) (hs.treePages ht) htree h hxJ hna.2.2.1
    (leafSlot_spec ht hna.1 hna.2.2.2.1 (sortedLeaf_below htree h hq).1 hx)

/-- On a search tree of any height, `findRecord` returns the one leaf whose interval has the target,
the first live slot there from the target on, and the path to the leaf. -/
theorem findRecord_path (ht : t.Numeric) (hs : Stores t.keyWidth s N)
    (htree : SearchTree t.keyWidth N s.rootPageId) (hx : target.Decodes x) :
    ∃ m path J es left right, Ends (findRecord t target) s m s ∧
      Below (kids t.keyWidth N) s.rootPageId Set.univ path m.leafPage J ∧
      N m.leafPage = some (.leaf es left right) ∧ J.OrdConnected ∧ x ∈ J ∧
      (∀ path' q J', Below (kids t.keyWidth N) s.rootPageId Set.univ path' q J' →
        kids t.keyWidth N q = none → x ∈ J' → path' = path ∧ q = m.leafPage) ∧
      FirstFrom t.keyWidth es x m.leafSlot ∧
      m.btStack.reverse = path.map crumb ∧ LeadsTo s s.rootPageId m.btStack.reverse m.leafPage := by
  obtain ⟨path, q, J, hb, hq, ⟨es, left, right, hl, -, hsorted, -⟩, hxJ⟩ :=
    htree.exists_leaf (Set.mem_univ x)
  refine ⟨_, path, J, es, left, right, findRecord_below ht hs htree hx hb hxJ hl, hb, hl,
    hb.ordConnected Set.ordConnected_univ, hxJ, fun path' q' J' hb' hq' hx' => ?_,
    firstFrom_lowerSlot hsorted, List.reverse_reverse _, ?_⟩
  · obtain ⟨e, hq'', -⟩ := htree.leaf_unique hb hq hxJ hb' hq' hx'
    exact ⟨e, hq''⟩
  · rw [List.reverse_reverse]
    exact leadsTo_routed (keyOrder_decodes.cuts hx) (hs.treePages ht) hb htree

end

/-! ## A tree made by inserts -/

/-- The pages of a tree on disk. -/
theorem Holds.stores {t : TreeConfig} {τ : Prop} {s : TreeState} {T : Tree} (h : Holds t τ s T) :
    Stores t.keyWidth s T.store where
  io := h.io
  node p n hp := by
    obtain ⟨hm, hna⟩ := h.node p n hp
    refine ⟨hm, ?_⟩
    cases n with
    | leaf es left right => exact ⟨hna.1, False.elim, hna.2.2⟩
    | inner ps => exact hna

/-- The third of three big records split the first leaf, which keeps the first one. -/
def threeTree : Tree := treeOf 8 (bigInserts [20, 30, 25])

theorem threeTree_root : threeTree.root = 3 ∧
    threeTree.store 3 = some (.inner [((bigRecord 20).take 8, 1), ((bigRecord 30).take 8, 2)]) := by
  decide +kernel

theorem threeTree_leaves :
    threeTree.store 1 = some (.leaf [.live (bigRecord 20)] INVALID_PAGE_ID 2) ∧
    threeTree.store 2 = some (.leaf [.live (bigRecord 30)] 1 INVALID_PAGE_ID) := by
  decide +kernel

/-- A leaf with one record. -/
theorem sortedLeaf_one {w p left right : Nat} {N : Nat → Option Node} {S : Set Int} {b : Bytes}
    (hp : N p = some (.leaf [.live b] left right)) (hw : w ≤ b.length) (hb : keyOf w b ∈ S) :
    SortedLeaf w N p S := by
  refine ⟨_, left, right, hp, fun c hc => ?_, fun i j c d hij hc hd => ?_, fun c hc => ?_⟩
  · cases List.mem_singleton.mp hc
    exact hw
  · have hj := (List.getElem?_eq_some_iff.mp hd).1
    rw [List.length_singleton] at hj
    omega
  · cases List.mem_singleton.mp hc
    exact hb

theorem kids_three : kids 8 threeTree.store 3 = some [(20, 1), (30, 2)] := by
  have h20 : keyOf 8 ((bigRecord 20).take 8) = 20 := by decide +kernel
  have h30 : keyOf 8 ((bigRecord 30).take 8) = 30 := by decide +kernel
  rw [kids, threeTree_root.2]
  simp [h20, h30]

theorem searchTree_three : SearchTree 8 threeTree.store 3 := by
  have hlen : ∀ k, 8 ≤ (bigRecord k).length := fun k => by rw [length_bigRecord]; decide
  have h20 : keyOf 8 (bigRecord 20) = 20 := by decide +kernel
  have h30 : keyOf 8 (bigRecord 30) = 30 := by decide +kernel
  refine .inner kids_three (by simp) (by simp) fun i k c hi => ?_
  match i with
  | 0 =>
    cases hi
    refine .leaf (by rw [kids, threeTree_leaves.1]) (sortedLeaf_one threeTree_leaves.1 (hlen 20) ?_)
    rw [h20]
    exact ⟨Set.mem_univ _, by simp, by simp⟩
  | 1 =>
    cases hi
    refine .leaf (by rw [kids, threeTree_leaves.2]) (sortedLeaf_one threeTree_leaves.2 (hlen 30) ?_)
    rw [h30]
    exact ⟨Set.mem_univ _, by simp, by simp⟩
  | i + 2 => simp at hi

/-- A key between the records is led to the left leaf, behind its record. -/
theorem findRecord_path_three : ∃ s m, (treeRuns {} (OfSize 2000)).Exec (bigInserts [20, 30, 25]) s ∧
    Ends (findRecord {} (recordKey {} (bigRecord 25))) s m s ∧ m.leafPage = 1 ∧ 0 < m.leafSlot ∧
    m.btStack = [⟨3, 1⟩] := by
  obtain ⟨s, hs⟩ := exec_inserts [20, 30, 25] (by decide)
  have hg := (exec_sized numeric_default (by decide) (fun _ _ h => h) hs).1
  have hroot : s.rootPageId = 3 := hg.holds.root.trans threeTree_root.1
  have h25 : keyOf 8 (bigRecord 25) = 25 := by decide +kernel
  have hx : (recordKey {} (bigRecord 25)).Decodes 25 := by
    rw [← h25]
    exact (extractKey_spec numeric_default (View.sees_ofBytes _) (by rw [length_bigRecord]; decide)).1
  have hst : Stores 8 s threeTree.store := hg.holds.stores
  obtain ⟨m, path, J, es, left, right, e, -, hl, -, -, hu, hslot, hbt, -⟩ :=
    findRecord_path (N := threeTree.store) numeric_default hst (hroot ▸ searchTree_three) hx
  have hleaf : kids 8 threeTree.store 1 = none := by rw [kids, threeTree_leaves.1]
  have hpath : Below (kids 8 threeTree.store) s.rootPageId Set.univ [(3, 0)] 1
      (part Set.univ [(20, 1), (30, 2)] 0) := by
    rw [hroot]
    exact .step kids_three rfl (.here _ _)
  obtain ⟨rfl, hpage⟩ := hu _ _ _ hpath hleaf ⟨Set.mem_univ _, by simp, by simp⟩
  rw [← hpage, threeTree_leaves.1] at hl
  cases hl
  refine ⟨s, m, hs, e, hpage.symm, ?_, List.reverse_injective hbt⟩
  rcases hslot with ⟨b, hb, hle, -⟩ | hall
  · cases List.mem_singleton.mp (List.mem_of_getElem? hb)
    exact absurd hle (by decide +kernel)
  · exact (hall 0 (bigRecord 20) rfl).2

end DbInternals.Index
