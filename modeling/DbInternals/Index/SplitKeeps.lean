import DbInternals.Index.FindPath
import DbInternals.Index.MinKeys

/-!
# What a split keeps on disk

`splitChild` with the breadcrumbs of a search, on a file that holds a tree in strict
min-key order.

Results:
* `splitChild_keeps`: the file then holds such a tree with the same records, as long as
  page ids last;
* `splitChild_wraps`: past them the new root is written over its left child;
* `split_over_child`: a file where that happens.
-/
namespace DbInternals.Index

open Storage SlottedPage

section
variable {t : TreeConfig} {τ : Prop} {s s' : TreeState} {T : Tree} {rank : Nat → Nat} {w p : Nat}
  {x : Int} {ps : List Pair} {pr : Pair} {es : List Entry} {left right : Nat} {b : Bytes}

/-! ## The split on disk -/

/-- The ids of the pages a split takes, the free ones first, come before the last one. -/
def IdsLast (w : Nat) (T : Tree) (bt : BTStack) : Prop :=
  T.next + (1 + T.levels w (bt.map Breadcrumb.pageId) - T.free.length) ≤ MAX_PAGES

/-- The split ends, every pair went into its page, and the file holds a tree in strict min-key
order with the records of `T`. -/
def SplitKeeps (t : TreeConfig) (bt : BTStack) (key : Key) (s : TreeState) (T : Tree) : Prop :=
  ∃ q s' T', Ends (splitChild t bt key) s q s' ∧
    (∃ new, s'.wired = new ++ s.wired ∧ ∀ r ∈ new, r.1.isSome ∧ r.2.isSome) ∧
    s'.rootPageId = T'.root ∧ Stores t.keyWidth s' T'.store ∧ MinKeyTree t.keyWidth T' ∧
    T'.records = T.records

/-- The route of its key leads to a record. -/
theorem MinKeyTree.route (h : MinKeyTree w T) (hi : T.Ids) (hp : T.store p = some (.leaf es left right))
    (hb : .live b ∈ es) : ∃ stack, Route w T (keyOf w b) p stack ∧
      T.find w (keyOf w b) = some (p, stack) := by
  obtain ⟨rank, hs⟩ := h.shape
  obtain ⟨stack, hr⟩ := ((h.routed hi).recs p es left right hp b hb).route
  exact ⟨stack, hr, hr.find hs hi ⟨es, left, right, hp⟩⟩

/-- Splitting a leaf with records in both halves of its slots keeps the tree, while page ids last. -/
theorem splitChild_keeps (ht : t.Numeric) (h : Holds t τ s T) (hT : MinKeyTree t.keyWidth T)
    (hp : T.store p = some (.leaf es left right)) (hh : Halves es) (hb : .live b ∈ es) {key : Key}
    (hx : key.Decodes (keyOf t.keyWidth b)) :
    ∃ m, Ends (findRecord t key) s m s ∧ m.leafPage = p ∧
      (IdsLast t.keyWidth T m.btStack → SplitKeeps t m.btStack key s T) := by
  obtain ⟨rank, hs⟩ := hT.shape
  obtain ⟨stack, hr, hf⟩ := hT.route h.ids hp hb
  obtain ⟨bt, rfl, e⟩ := findRecord_ends ht h hx hf hp (hs.long p es left right hp)
  refine ⟨_, e, rfl, fun hids => ?_⟩
  obtain ⟨hnd, hin, -⟩ := hr.stack_spec h hs
  have htook := took_splitChild (w := t.keyWidth) h.ids hp hnd hin
  obtain ⟨q, s', e', -, h', w'⟩ := (splitChild_tracks ht h hs hx hf hr hp hh).ends
    (by rw [htook.next]; exact hids)
  exact ⟨q, s', _, e', w'.wired, h'.root, h'.stores,
    splitChild_minKeyTree ht.width_le.2 h.ids hT hp hh hr, splitChild_records h.ids hp⟩

/-! ## Past the last page id -/

/-- A child is found in the page. -/
theorem Stores.child (h : Stores w s T.store) (hs : Shape w rank T) (hp : T.store p ≠ none)
    (hn : NodeAt τ w (s.page p) (.inner (pr :: ps))) : T.store pr.2 ≠ none ∧ rank pr.2 < rank p := by
  obtain ⟨n, hn'⟩ := Option.ne_none_iff_exists'.mp hp
  have hna := (h.node p n hn').2
  cases n with
  | leaf es left right =>
    have htype := hn.2.1
    rw [hna.2.2.1] at htype
    cases htype
  | inner qs =>
    cases qs with
    | nil => exact absurd rfl (hs.pairs p [] hn')
    | cons qr qs =>
      -- the first child is read off the page
      have hread : ∀ {τ : Prop} {pr : Pair} {ps : List Pair},
          NodeAt τ w (s.page p) (.inner (pr :: ps)) → childPageId (s.page p) 1 = .ok pr.2 := by
        intro τ pr ps hn
        refine childPageId_spec hn.1 ?_ (hn.2.2.2 pr List.mem_cons_self).2
        rw [hn.2.2.1]
        exact getElem?_pairEntries_child (pr :: ps) 0
      have he := (hread hn).symm.trans (hread hna)
      rw [Except.ok.inj he]
      exact hs.child p _ hn' qr List.mem_cons_self

/-- Page 1 holds `data`, and `n` is the next id, the free list being empty. -/
structure PageOne (s : TreeState) (n : Nat) (data : Mem) : Prop where
  io : s.diskManager.io = none
  head : s.diskManager.globalMetadata.freelistHead = INVALID_PAGE_ID
  next : nextId s = n
  mapped : Mapped s.diskManager 1
  page : s.page 1 = data

namespace PageOne

variable {n : Nat} {data : Mem}

theorem read (h : PageOne s n data) : Ends (disk (readPage 1)) s data s := by
  rw [← h.page]
  exact ends_disk (readPage_ends h.io h.mapped)

theorem alloc (h : PageOne s n data) (hn : n + 1 < 2 ^ 32) :
    ∃ s', Ends (disk allocatePage) s n s' ∧ PageOne s' (n + 1) data := by
  have hnext : s.diskManager.globalMetadata.nextPageId = n := h.next
  have e := ends_disk (allocatePage_ends h.io h.head)
  rw [hnext] at e
  have hbump : s.diskManager.bump.globalMetadata.nextPageId = n + 1 := by
    change (s.diskManager.globalMetadata.nextPageId + 1) % 2 ^ 32 = _
    rw [hnext, Nat.mod_eq_of_lt hn]
  have hlt : 1 < s.diskManager.bump.globalMetadata.nextPageId := by
    have := h.mapped.1
    omega
  have hmap : Mapped s.diskManager.bump 1 := ⟨hlt, h.mapped.2⟩
  exact ⟨_, e, h.io, h.head, hbump, hmap.store, (pageAt_store_of_ne (by decide)).trans h.page⟩

/-- Page `q` is written: page 1 if their offsets are equal. -/
theorem write (h : PageOne s n data) {q : Nat} (hq : q < n) (data' : Mem) :
    ∃ s', Ends (disk (writePage q data')) s ⟨⟩ s' ∧ s'.rootPageId = s.rootPageId ∧
      PageOne s' n (if pageOffset 1 = pageOffset q then pageOf data' else data) ∧
      s'.page q = pageOf data' := by
  have hlt : q < s.diskManager.globalMetadata.nextPageId := by
    rw [show s.diskManager.globalMetadata.nextPageId = n from h.next]
    exact hq
  refine ⟨_, ends_disk (writePage_ends h.io hlt), rfl, ⟨h.io, h.head, h.next, h.mapped.store, ?_⟩,
    pageAt_store rfl⟩
  split
  · next ho => exact pageAt_store ho
  · next ho => exact (pageAt_store_of_ne ho).trans h.page

theorem setRoot (h : PageOne s n data) (r : Nat) : PageOne { s with rootPageId := r } n data :=
  ⟨h.io, h.head, h.next, h.mapped, h.page⟩

/-- A leaf on page 1 that is split where only ids past the last one are left: its upper half goes
to the metadata page. -/
theorem splitLeaf (ht : t.Numeric) (h : PageOne s MAX_PAGES data)
    (hn : NodeAt τ t.keyWidth data (.leaf es left INVALID_PAGE_ID)) (hlong : LongEnough t.keyWidth es)
    (hh : Halves es) : ∃ k s' data' sep, Ends (Index.splitLeaf t 1) s (k, MAX_PAGES) s' ∧
      PageOne s' (MAX_PAGES + 1) data' ∧ Key.Is t k sep ∧
      NodeAt τ t.keyWidth data' (.leaf (liveEntries (es.take (Tree.pivotOf es))) left MAX_PAGES) := by
  obtain ⟨s₁, e₁, h₁⟩ := h.alloc (by decide)
  have hent := hn.2.2.2.1
  have hcount : getSlotCount data = es.length := length_of_entries hent
  have hslots := hn.1.slots_lt
  rw [show maxSlotId data = es.length from hcount] at hslots
  have hwalk := walkPivot_spec hn.1 (2 ^ 16) (es.length / 2) (by rw [hent]; omega)
    (by rw [hent]; exact hh.upper)
  rw [hent] at hwalk
  change walkPivot data (2 ^ 16) (es.length / 2) = .ok (Tree.pivotOf es) at hwalk
  obtain ⟨d₁, d₂, e, n₁, n₂⟩ := splitPages_spec (p := 1) hn (show MAX_PAGES < 2 ^ 32 by decide)
    (by decide) (pivotOf_le es)
  obtain ⟨s₂, e₂, -, h₂, -⟩ := h₁.write (q := 1) (by decide) (compactify d₁)
  obtain ⟨s₃, e₃, -, h₃, -⟩ := h₂.write (q := MAX_PAGES) (Nat.lt_succ_self _) d₂
  rw [if_pos rfl, if_neg (by decide)] at h₃
  -- the new page starts with a live record
  obtain ⟨b, rest, hb⟩ := pivotOf_live hh.upper
  have hlow : (liveEntries (es.drop (Tree.pivotOf es))) = .live b :: liveEntries rest := by
    rw [hb]
    rfl
  rw [hlow] at n₂
  have hkey := keyAt_leaf ht n₂ (hlong b (List.mem_of_mem_drop (by rw [hb]; exact List.mem_cons_self)))
  refine ⟨_, s₃, _, _, ?_, h₃, hkey, n₁.pageOf⟩
  unfold Index.splitLeaf
  refine e₁.bind (h₁.read.bind ?_)
  dsimp only
  rw [hcount, hn.2.2.2.2.2]
  refine (ends_buf hwalk).bind ((ends_buf e).bind (e₂.bind (e₃.bind ?_)))
  rw [if_neg (by simp)]
  exact .pure _ _

/-- The new root of a leaf on page 1, where its id is the one that stands for page 1 again. -/
theorem splitRoot (ht : t.Numeric) (h : PageOne s (MAX_PAGES + 1) data) {rest : List Entry}
    (hn : NodeAt τ t.keyWidth data (.leaf (.live b :: rest) left right)) (hb : t.keyWidth ≤ b.length)
    {k : Key} {sep : Bytes} (hk : k.Is t sep) :
    ∃ s' k₁, Ends (Index.splitRoot t 1 k MAX_PAGES) s (MAX_PAGES + 1) s' ∧
      s'.rootPageId = MAX_PAGES + 1 ∧ s'.page (MAX_PAGES + 1) = s'.page 1 ∧
      NodeAt τ t.keyWidth (s'.page 1) (.inner [(k₁, 1), (sep, MAX_PAGES)]) := by
  obtain ⟨s₁, e₁, h₁⟩ := h.alloc (by decide)
  obtain ⟨d₁, d₂, d₃, d₄, r₁, r₂, r₃, r₄, i₁, i₂, i₃, i₄, hroot⟩ := rootPage_spec (τ := τ) ht
    (keyAt_leaf ht hn hb) hk (MAX_PAGES + 1) (show 1 < 2 ^ 32 by decide)
    (show MAX_PAGES < 2 ^ 32 by decide)
  obtain ⟨s₂, e₂, hr, h₂, hpage⟩ := (h₁.setRoot (MAX_PAGES + 1)).write (Nat.lt_succ_self _) d₄
  rw [if_pos (by decide)] at h₂
  refine ⟨s₂, _, ?_, hr, hpage.trans h₂.page.symm, by rw [h₂.page]; exact hroot.pageOf⟩
  unfold Index.splitRoot
  refine h.read.bind (e₁.bind ?_)
  exact (ends_buf i₁).bind ((ends_buf i₂).bind ((ends_buf i₃).bind ((ends_buf i₄).bind
    ((Ends.modify _ s₁).bind (e₂.bind (.pure _ _))))))

end PageOne

/-- With every id below `2 ^ 20` taken, a root leaf on page 1 is split onto the metadata page, and
the new root is written over it. -/
theorem splitChild_wraps (ht : t.Numeric) (h : PageOne s MAX_PAGES (s.page 1))
    (hn : NodeAt τ t.keyWidth (s.page 1) (.leaf es left INVALID_PAGE_ID))
    (hlong : LongEnough t.keyWidth es) (hh : Halves es) {key : Key} {m : FindRecordMetadata}
    (hm : Ends (findRecord t key) s m s) (hleaf : m.leafPage = 1) :
    ∃ s' k₁ k₂, Ends (splitChild t [] key) s MAX_PAGES s' ∧ s'.rootPageId = MAX_PAGES + 1 ∧
      s'.page (MAX_PAGES + 1) = s'.page 1 ∧
      NodeAt τ t.keyWidth (s'.page 1) (.inner [(k₁, 1), (k₂, MAX_PAGES)]) := by
  obtain ⟨k, s₁, data', sep, e₁, h₁, hk, hn₁⟩ := h.splitLeaf ht hn hlong hh
  -- the lower half starts with a live record
  obtain ⟨b, hb⟩ := hh.lower
  have hb' : Entry.live b ∈ es.take (Tree.pivotOf es) :=
    (List.take_prefix_take_left (by rw [Tree.pivotOf]; omega)).subset hb
  obtain ⟨b', rest, hlow, hm'⟩ := liveEntries_cons hb'
  rw [hlow] at hn₁
  obtain ⟨s₂, k₁, e₂, hroot, hsame, hn₂⟩ := h₁.splitRoot ht hn₁
    (hlong b' (List.mem_of_mem_take hm')) hk
  have hwire : Ends (wireUp t [] 1 k MAX_PAGES) s₁ () s₂ := e₂.bind (.pure _ _)
  refine ⟨s₂, k₁, sep, ?_, hroot, hsame, hn₂⟩
  unfold splitChild
  apply hm.bind
  rw [hleaf]
  exact e₁.bind (hwire.bind (.pure _ _))

/-- Then the pages are no tree: page 1 is its own child. -/
theorem splitChild_wraps_loses (ht : t.Numeric) (h : PageOne s MAX_PAGES (s.page 1))
    (hn : NodeAt τ t.keyWidth (s.page 1) (.leaf es left INVALID_PAGE_ID))
    (hlong : LongEnough t.keyWidth es) (hh : Halves es) {key : Key} {m : FindRecordMetadata}
    (hm : Ends (findRecord t key) s m s) (hleaf : m.leafPage = 1) :
    ¬ SplitKeeps t [] key s T := by
  rintro ⟨q, s', T', e, -, hroot, hst, hT, -⟩
  obtain ⟨s'', k₁, k₂, e', hroot', hsame, hn'⟩ := splitChild_wraps ht h hn hlong hh hm hleaf
  obtain ⟨-, rfl⟩ := Ends.unique e e'
  obtain ⟨rank, hs⟩ := hT.shape
  rw [hroot'] at hroot
  have hr : T'.store (MAX_PAGES + 1) ≠ none := by
    rw [hroot]
    exact hs.root
  have hchild := hst.child hs hr (by rw [hsame]; exact hn')
  exact Nat.lt_irrefl _ (hst.child hs hchild.1 hn').2

/-! ## A lone leaf -/

/-- A root leaf with its keys in order is a tree in strict min-key order. -/
theorem MinKeyTree.leaf (hp : T.store T.root = some (.leaf es left INVALID_PAGE_ID))
    (hall : ∀ q, T.store q ≠ none → q = T.root) (hlong : LongEnough w es) (hlt : LeafLt w es) :
    MinKeyTree w T := by
  have hinner : ∀ q ps, T.store q ≠ some (.inner ps) := by
    intro q ps hq
    rw [hall q (by simp [hq]), hp] at hq
    cases hq
  have hleaf : ∀ {q es' l r}, T.store q = some (.leaf es' l r) → q = T.root ∧ es' = es ∧
      r = INVALID_PAGE_ID := by
    intro q es' l r hq
    have e := hall q (by simp [hq])
    rw [e, hp] at hq
    cases hq
    exact ⟨e, rfl, rfl⟩
  have hchild : ∀ p j q, ¬ ChildAt T p j q := by
    rintro p j q ⟨ps, pr, hp, -⟩
    exact hinner p ps hp
  refine ⟨⟨fun _ => 0, by simp [hp], fun q ps hq => absurd hq (hinner q ps),
    fun q ps hq => absurd hq (hinner q ps), fun q es' l r hq => ?_, fun q es' l r hq => ?_⟩,
    ⟨fun p j => hchild p j _, fun q hq hroot => absurd (hall q hq) hroot,
      fun p p' j j' q hc => absurd hc (hchild p j q)⟩,
    ⟨fun q ps hq => absurd hq (hinner q ps), fun q ps j pr r x hq => absurd hq (hinner q ps),
      fun q ps j pr pr' r x hq => absurd hq (hinner q ps)⟩, fun q es' l r hq => ?_,
    fun q q' es₁ es₂ l l' r r' hne hq hq' => absurd ((hleaf hq).1.trans (hleaf hq').1.symm) hne⟩
  · rw [(hleaf hq).2.1]
    exact hlong
  · exact .inl (hleaf hq).2.2
  · rw [(hleaf hq).2.1]
    exact hlt

/-- Every search ends at a root leaf. -/
theorem findRecord_root (ht : t.Numeric) (h : Holds t τ s T) {key : Key} (hx : key.Decodes x)
    (hp : T.store T.root = some (.leaf es left right)) (hlong : LongEnough t.keyWidth es) :
    Ends (findRecord t key) s ⟨T.root, lowerSlot t.keyWidth es x, []⟩ s := by
  have hf : T.find t.keyWidth x = some (T.root, []) := by rw [Tree.find, Tree.walk, hp]
  obtain ⟨bt, hbt, e⟩ := findRecord_ends ht h hx hf hp hlong
  rwa [List.map_eq_nil_iff.mp hbt] at e

/-- The next id moved up, where the free list is empty. -/
def TreeState.setNext (s : TreeState) (n : Nat) : TreeState :=
  { s with diskManager := { s.diskManager with
      globalMetadata := { s.diskManager.globalMetadata with nextPageId := n } } }

theorem Holds.setNext (h : Holds t τ s T) (hfree : T.free = []) {n : Nat} (hn : T.next ≤ n)
    (hmax : n ≤ MAX_PAGES) : Holds t τ (s.setNext n) { T with next := n } where
  io := h.io
  root := h.root
  next := rfl
  next_le := hmax
  freeList := by
    have hhead : s.diskManager.globalMetadata.freelistHead = INVALID_PAGE_ID :=
      (hfree ▸ h.freeList).head_nil
    change FreeList _ s.diskManager.globalMetadata.freelistHead T.free
    rw [hhead, hfree]
    exact .nil
  ids := ⟨Nat.le_trans h.ids.next hn, fun p hp => ⟨(h.ids.used p hp).1,
    Nat.lt_of_lt_of_le (h.ids.used p hp).2.1 hn, (h.ids.used p hp).2.2⟩, h.ids.nodup,
    fun p hp => ⟨(h.ids.range p hp).1, Nat.lt_of_lt_of_le (h.ids.range p hp).2 hn⟩⟩
  node q n' hq := by
    obtain ⟨hm, hna⟩ := h.node q n' hq
    have hlt : s.diskManager.globalMetadata.nextPageId ≤ n := by
      rw [show s.diskManager.globalMetadata.nextPageId = T.next from h.next]
      exact hn
    exact ⟨⟨Nat.lt_of_lt_of_le hm.1 hlt, hm.2⟩, hna⟩

/-- A tree with one page. -/
theorem only_root (hi : T.Ids) (hroot : T.root = 1) (hnext : T.next = 2) (q : Nat)
    (hq : T.store q ≠ none) : q = T.root := by
  have hu := hi.used q hq
  have h1 := hu.1
  have h2 := hu.2.1
  omega

/-- Records of one length, made from keys in order. -/
theorem leaf_of_keys (f : UInt8 → Bytes) (ks : List UInt8) (hlen : ∀ k, w ≤ (f k).length)
    (hlt : ks.Pairwise fun k k' => keyOf w (f k) < keyOf w (f k')) :
    LongEnough w (ks.map fun k => .live (f k)) ∧ LeafLt w (ks.map fun k => .live (f k)) := by
  refine ⟨fun b hb => ?_, List.pairwise_map.mpr (hlt.imp fun h b c hb hc => ?_)⟩
  · obtain ⟨k, -, hk⟩ := List.mem_map.mp hb
    cases hk
    exact hlen k
  · cases hb
    cases hc
    exact h

end

/-- A leaf with two records. -/
def twoTree : Tree := treeOf 8 (bigInserts [20, 30])

theorem twoTree_store : twoTree.store 1 = some (.leaf [.live (bigRecord 20), .live (bigRecord 30)]
    INVALID_PAGE_ID INVALID_PAGE_ID) := by
  decide +kernel

theorem twoTree_ids : twoTree.root = 1 ∧ twoTree.next = 2 ∧ twoTree.free = [] := by
  decide +kernel

theorem twoTree_halves : Halves [.live (bigRecord 20), .live (bigRecord 30)] :=
  ⟨⟨_, List.mem_singleton.mpr rfl⟩, ⟨_, List.mem_singleton.mpr rfl⟩⟩

theorem twoTree_leaf : LongEnough 8 [.live (bigRecord 20), .live (bigRecord 30)] ∧
    LeafLt 8 [.live (bigRecord 20), .live (bigRecord 30)] :=
  leaf_of_keys bigRecord [20, 30] (fun k => by rw [length_bigRecord]; decide) (by decide +kernel)

/-- As the only page of a tree, whatever the next id. -/
theorem twoTree_minKeyTree (hi : twoTree.Ids) (n : Nat) : MinKeyTree 8 { twoTree with next := n } := by
  obtain ⟨hroot, hnext, -⟩ := twoTree_ids
  have hat : twoTree.store twoTree.root = twoTree.store 1 := congrArg twoTree.store hroot
  rw [twoTree_store] at hat
  exact .leaf hat (fun q hq => only_root hi hroot hnext q hq) twoTree_leaf.1 twoTree_leaf.2

theorem holds_two : ∃ s, Holds {} True s twoTree := by
  obtain ⟨s, hs⟩ := exec_inserts [20, 30] (by decide)
  exact ⟨s, (exec_sized numeric_default (by decide) (fun _ _ h => h) hs).1.holds⟩

theorem decodes_bigRecord (k : UInt8) :
    (recordKey {} (bigRecord k)).Decodes (keyOf 8 (bigRecord k)) :=
  (extractKey_spec numeric_default (View.sees_ofBytes _) (by rw [length_bigRecord]; decide)).1

/-! ## A leaf with a parent -/

/-- A record of 1000 bytes with the key `k` in its first byte. -/
def midRecord (k : UInt8) : Bytes := k :: List.replicate 999 0

theorem length_midRecord (k : UInt8) : (midRecord k).length = 1000 := by
  rw [midRecord, List.length_cons, List.length_replicate]

attribute [irreducible] midRecord

def midInserts (ks : List UInt8) : List Call := ks.map fun k => .insert (midRecord k)

/-- A full leaf. -/
def fourTree : Tree := treeOf 8 (midInserts [20, 30, 40, 50])

/-- The next insert splits it. -/
def fiveTree : Tree := treeOf 8 (midInserts [20, 30, 40, 50, 25])

theorem fourTree_store : fourTree.root = 1 ∧ fourTree.next = 2 ∧ fourTree.store 1 =
    some (.leaf [.live (midRecord 20), .live (midRecord 30), .live (midRecord 40), .live (midRecord 50)]
      INVALID_PAGE_ID INVALID_PAGE_ID) := by
  decide +kernel

theorem fiveTree_store : fiveTree.root = 3 ∧ fiveTree.store 2 =
    some (.leaf [.live (midRecord 40), .live (midRecord 50)] 1 INVALID_PAGE_ID) := by
  decide +kernel

theorem exec_mid (ks : List UInt8) (hlen : ks.length ≤ 16) :
    ∃ s, (treeRuns {} (OfSize 1000)).Exec (midInserts ks) s := by
  obtain ⟨s, hs, -⟩ := exists_exec numeric_default (show 2 * (1000 + 4) ≤ PAGE_ROOM by decide)
    (midInserts ks) (fun c hc => by
      obtain ⟨k, -, rfl⟩ := List.mem_map.mp hc
      refine ⟨⟨by rw [length_midRecord]; decide, by rw [length_midRecord]; decide⟩, fun r hr => ?_⟩
      cases hr
      exact length_midRecord k) (by rw [midInserts, List.length_map]; exact hlen)
  exact ⟨s, hs⟩

theorem holds_mid (ks : List UInt8) (hlen : ks.length ≤ 16) :
    ∃ s, Holds {} True s (treeOf 8 (midInserts ks)) := by
  obtain ⟨s, hs⟩ := exec_mid ks hlen
  exact ⟨s, (exec_sized numeric_default (by decide) (fun _ _ h => h) hs).1.holds⟩

theorem fourTree_leaf : LongEnough 8 [.live (midRecord 20), .live (midRecord 30),
      .live (midRecord 40), .live (midRecord 50)] ∧
    LeafLt 8 [.live (midRecord 20), .live (midRecord 30), .live (midRecord 40),
      .live (midRecord 50)] :=
  leaf_of_keys midRecord [20, 30, 40, 50] (fun k => by rw [length_midRecord]; decide)
    (by decide +kernel)

theorem fiveTree_eq : fiveTree = fourTree.splitChild 8 1 [.live (midRecord 20), .live (midRecord 30),
    .live (midRecord 40), .live (midRecord 50)] INVALID_PAGE_ID INVALID_PAGE_ID [] := by
  have hfind : fourTree.find 8 (keyOf 8 (midRecord 25)) = some (1, []) := by decide +kernel
  have hfull : leafRoom [.live (midRecord 20), .live (midRecord 30), .live (midRecord 40),
      .live (midRecord 50)] (midRecord 25).length = false := by decide +kernel
  show fourTree.insert 8 (midRecord 25) = _
  simp only [Tree.insert, hfind, fourTree_store.2.2, hfull]
  rfl

theorem fiveTree_minKeyTree (hi : fourTree.Ids) : MinKeyTree 8 fiveTree := by
  obtain ⟨hroot, hnext, hstore⟩ := fourTree_store
  have hat := congrArg fourTree.store hroot
  rw [hstore] at hat
  have hfour : MinKeyTree 8 fourTree :=
    .leaf hat (only_root hi hroot hnext) fourTree_leaf.1 fourTree_leaf.2
  have hroute : Route 8 fourTree 25 1 [] := by
    rw [← hroot]
    exact .root
  rw [fiveTree_eq]
  exact splitChild_minKeyTree (by decide) hi hfour hstore
    ⟨⟨_, List.mem_cons_self⟩, ⟨_, List.mem_cons_self⟩⟩ hroute

/-- The right of two leaves is split, with the breadcrumb of the search above it. -/
theorem splitChild_keeps_parent : ∃ s m, Holds {} True s fiveTree ∧
    Ends (findRecord {} (recordKey {} (midRecord 40))) s m s ∧ m.leafPage = 2 ∧
    m.btStack.map Breadcrumb.pageId = [3] ∧
    SplitKeeps {} m.btStack (recordKey {} (midRecord 40)) s fiveTree := by
  obtain ⟨s, hs⟩ := holds_mid [20, 30, 40, 50, 25] (by decide)
  obtain ⟨s₄, hs₄⟩ := holds_mid [20, 30, 40, 50] (by decide)
  obtain ⟨hroot, hstore⟩ := fiveTree_store
  have hx : (recordKey {} (midRecord 40)).Decodes (keyOf 8 (midRecord 40)) :=
    (extractKey_spec numeric_default (View.sees_ofBytes _) (by rw [length_midRecord]; decide)).1
  obtain ⟨m, e, hleaf, hkeep⟩ := splitChild_keeps numeric_default hs (fiveTree_minKeyTree hs₄.ids)
    hstore ⟨⟨_, List.mem_cons_self⟩, ⟨_, List.mem_cons_self⟩⟩ List.mem_cons_self hx
  have hfind : fiveTree.find 8 (keyOf 8 (midRecord 40)) = some (2, [3]) := by decide +kernel
  have hlong : LongEnough 8 [.live (midRecord 40), .live (midRecord 50)] := fun b hb =>
    fourTree_leaf.1 b (by simp only [List.mem_cons] at hb ⊢; tauto)
  obtain ⟨bt, hbt, e'⟩ := findRecord_ends numeric_default hs hx hfind hstore hlong
  obtain ⟨rfl, -⟩ := Ends.unique e' e
  refine ⟨s, _, hs, e, hleaf, hbt, hkeep ?_⟩
  rw [IdsLast, hbt]
  decide +kernel

/-- The leaf in a file whose ids below `2 ^ 20` are all taken. -/
def lateTree : Tree := { twoTree with next := MAX_PAGES }

/-- There the split writes the new root over the leaf. -/
theorem split_over_child : ∃ s m es left right, Holds {} True s lateTree ∧ MinKeyTree 8 lateTree ∧
    lateTree.store m.leafPage = some (.leaf es left right) ∧ Halves es ∧ .live (bigRecord 20) ∈ es ∧
    Ends (findRecord {} (recordKey {} (bigRecord 20))) s m s ∧
    ¬ SplitKeeps {} m.btStack (recordKey {} (bigRecord 20)) s lateTree := by
  obtain ⟨s₀, hs₀⟩ := holds_two
  obtain ⟨hroot, hnext, hfree⟩ := twoTree_ids
  have hs : Holds {} True (s₀.setNext MAX_PAGES) lateTree :=
    hs₀.setNext hfree (by rw [hnext]; decide) (Nat.le_refl _)
  generalize s₀.setNext MAX_PAGES = s at hs
  have hstore : lateTree.store 1 = some (.leaf _ _ _) := twoTree_store
  have hat : lateTree.store lateTree.root = lateTree.store 1 :=
    congrArg twoTree.store hroot
  rw [hstore] at hat
  have e := findRecord_root numeric_default hs (decodes_bigRecord 20) hat twoTree_leaf.1
  have hpage : PageOne s MAX_PAGES (s.page 1) :=
    ⟨hs.io, (hfree ▸ hs.freeList).head_nil, hs.next, (hs.node 1 _ hstore).1, rfl⟩
  exact ⟨s, _, _, _, _, hs, twoTree_minKeyTree hs₀.ids _, hat, twoTree_halves, List.mem_cons_self, e,
    splitChild_wraps_loses numeric_default hpage (hs.nodeAt hstore) twoTree_leaf.1 twoTree_halves e
      hroot⟩

end DbInternals.Index
