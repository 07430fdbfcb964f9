import DbInternals.Index.FindPath
import DbInternals.Index.MinKeys
import DbInternals.Index.ShortKeys

/-!
# Separators as they are read back

`splitRoot` and `insertIntoParent` store the bytes of a key; the searches take them for
a record, whose key column may lie behind them.

Results: `splitRoot_ends`, `AwaitsParent.reads`, `separators_iff`.
-/
namespace DbInternals.Index

open Storage SlottedPage Routing Mem

/-- A number column at any offset. -/
structure NumberColumn (t : TreeConfig) : Prop where
  type : t.keyTypeId = .numeric
  width : t.keyWidth = 1 ∨ t.keyWidth = 2 ∨ t.keyWidth = 4 ∨ t.keyWidth = 8

/-- The same bytes, which decode to the same value. -/
structure SameKey (k k' : Key) : Prop where
  size : k.size = k'.size
  bytes : k.data.mem.slice 0 k.size = k'.data.mem.slice 0 k'.size
  value : ∃ x, k.toValue = .ok x ∧ k'.toValue = .ok x

/-! ## Keys and the slots they are stored in -/

section
variable {t : TreeConfig} {k k' : Key} {b : Bytes} {data : Mem} {i len : Nat} {r : Option View}

theorem NumberColumn.fixedWidth (h : NumberColumn t) : FixedWidth t := .inl ⟨h.type, h.width⟩

theorem NumberColumn.numeric (h : NumberColumn t) (h0 : t.keyOffset = 0) : t.Numeric :=
  ⟨h.type, h0, h.width⟩

theorem Key.Is.same (h : k.Is t b) (h' : k'.Is t b) : SameKey k k' where
  size := by rw [h.carries.size, h'.carries.size]
  bytes := by rw [h.carries.size, h'.carries.size, h.carries.bytes, h'.carries.bytes]
  value := ⟨_, Key.decodes_iff.mp h.decodes, Key.decodes_iff.mp h'.decodes⟩

theorem Key.Is.size (h : k.Is t b) : k.size = t.keyWidth := by
  rw [h.carries.size, h.width]

theorem FixedWidth.size_le (ht : FixedWidth t) : (extractKey t r len).size ≤ t.keyWidth := by
  by_cases h : r = none ∨ len = 0
  · rw [extractKey_empty h]
    exact Nat.zero_le _
  · rw [not_or] at h
    obtain ⟨v, rfl⟩ := Option.ne_none_iff_exists'.mp h.1
    rw [ht.size h.2]
    exact Nat.min_le_left ..

/-- The key of a live slot begins at the key column and ends with the record. -/
theorem keyAt_size (ht : FixedWidth t) (h : Valid data) (hb : (entries data)[i]? = some (.live b)) :
    (keyAt t data i).size = min t.keyWidth (b.length - min t.keyOffset b.length) := by
  have hpos := h.record_pos (List.mem_of_getElem? hb)
  obtain ⟨v, e, -⟩ := record_live h hb
  unfold keyAt
  rw [e]
  exact ht.size (by omega)

theorem keyAt_width : (keyAt t data i).width = t.keyWidth := extractKey_width

theorem keyAt_size_le (ht : FixedWidth t) : (keyAt t data i).size ≤ t.keyWidth := ht.size_le

/-- The key of a slot that is not live is empty. -/
theorem keyAt_size_dead (h : Valid data) (hb : ∀ b, (entries data)[i]? ≠ some (.live b)) :
    (keyAt t data i).size = 0 := by
  rw [keyAt_dead h hb]
  rfl

/-- What `insertRecord` stores of a key: nothing if it is empty. -/
def Key.stored (k : Key) : List Bytes := if k.size = 0 then [] else [k.data.mem.slice 0 k.size]

theorem cost_stored (k : Key) : cost (k.stored.map .live) ≤ k.size + 4 := by
  unfold Key.stored
  split
  · simp
  · simp

theorem Filled.insertKey {bs : List Bytes} (h : Filled data bs) (k : Key)
    (hroom : cost (bs.map .live) + k.size + 4 ≤ PAGE_ROOM) :
    ∃ d r, SlottedPage.insertRecord data k.data.mem k.size = .ok (r, d) ∧ Filled d (bs ++ k.stored) ∧
      SameMeta data d := by
  unfold Key.stored
  by_cases h0 : k.size = 0
  · rw [if_pos h0, h0, List.append_nil]
    exact ⟨data, none, insertRecord_nil data _, h, .refl _⟩
  · rw [if_neg h0]
    obtain ⟨d, r, e, hd, hm⟩ := h.insertRecord k.data.mem k.size (Nat.pos_of_ne_zero h0) hroom
    exact ⟨d, some r, e, hd, hm⟩

end

/-! ## The new root -/

section
variable {t : TreeConfig} {τ : Prop} {s : TreeState} {T : Tree} {left right : Nat} {n : Node}
  {sepKey : Key} {k₁ k₂ : Key}

/-- A page is taken, were it the one that stands for the metadata page: the pages of the tree stay. -/
theorem Holds.takePage (h : Holds t τ s T) : ∃ s', Ends (disk allocatePage) s T.alloc.1 s' ∧
    s'.diskManager.io = none ∧ T.alloc.1 < nextId s' ∧ ∀ q, T.store q ≠ none →
      pageOffset q ≠ pageOffset T.alloc.1 ∧ Mapped s'.diskManager q ∧ s'.page q = s.page q := by
  by_cases hmax : T.alloc.2.next ≤ MAX_PAGES
  · obtain ⟨s', e, h', hw⟩ := h.alloc hmax
    have hfresh := h.ids.alloc.2.1
    refine ⟨s', e, h'.io, by rw [h'.next]; exact hfresh.2.1, ?_⟩
    intro q hq
    obtain ⟨m, hm⟩ := Option.ne_none_iff_exists'.mp hq
    have hm' : T.alloc.2.store q = some m := by rw [Tree.alloc_store, hm]
    exact ⟨(h.inUse hq).alloc.apart hmax hfresh (h.inUse hq).alloc_ne, (h'.node q m hm').1,
      hw.pages q hq List.not_mem_nil⟩
  · -- no id is left: the first one past the last
    have hle := h.next_le
    obtain ⟨hfree, hnext⟩ : T.free = [] ∧ T.next = MAX_PAGES := by
      unfold Tree.alloc at hmax
      split at hmax
      · next hf => exact ⟨hf, by simp only at hmax; omega⟩
      · simp only at hmax; omega
    have halloc : T.alloc.1 = MAX_PAGES := by
      unfold Tree.alloc
      rw [hfree]
      exact hnext
    have hid : s.diskManager.globalMetadata.nextPageId = MAX_PAGES := h.next.trans hnext
    have hhead : s.diskManager.globalMetadata.freelistHead = INVALID_PAGE_ID :=
      (hfree ▸ h.freeList).head_nil
    have e := ends_disk (allocatePage_ends h.io hhead)
    have hbump : s.diskManager.bump.globalMetadata.nextPageId = MAX_PAGES + 1 := by
      change (s.diskManager.globalMetadata.nextPageId + 1) % 2 ^ 32 = _
      rw [hid]
      rfl
    rw [hid, ← halloc] at e
    refine ⟨_, e, h.io, ?_, ?_⟩
    · rw [halloc]
      change _ < s.diskManager.bump.globalMetadata.nextPageId
      rw [hbump]
      exact Nat.lt_succ_self _
    · intro q hq
      obtain ⟨m, hm⟩ := Option.ne_none_iff_exists'.mp hq
      have hoff := (h.inUse hq).offset_ne_zero hle
      have hmapped := (h.node q m hm).1
      have hlt : q < s.diskManager.bump.globalMetadata.nextPageId := by
        have := hmapped.1
        omega
      have hmap : Mapped s.diskManager.bump q := ⟨hlt, hmapped.2⟩
      have hmeta : pageOffset MAX_PAGES = 0 := by decide
      rw [halloc, hmeta]
      exact ⟨hoff, hmap.store, pageAt_store_of_ne (q := 0) hoff⟩

/-- The root is a new page with the records; the pages of the tree are as they were. -/
structure NewRoot (s s' : TreeState) (T : Tree) (r : Nat) (bs : List Bytes) : Prop where
  io : s'.diskManager.io = none
  root : s'.rootPageId = r
  mapped : Mapped s'.diskManager r
  type : getPageType (s'.page r) = .internalPage
  filled : Filled (s'.page r) bs
  old : ∀ q, T.store q ≠ none → q ≠ r ∧ Mapped s'.diskManager q ∧ s'.page q = s.page q

theorem Filled.pageOf {data : Mem} {bs : List Bytes} (h : Filled data bs) :
    Filled (Storage.pageOf data) bs := by
  obtain ⟨he, hv, ht⟩ := pageOf_congr h.valid
  exact ⟨hv, ht h.tight, he.trans h.entries⟩

/-- The four insertions of `splitRoot`, with any keys. -/
theorem rootRecords_spec (h₁ : k₁.size ≤ 8) (h₂ : k₂.size ≤ 8) (r left right : Nat) :
    ∃ d₁ d₂ d₃ d₄ r₁ r₂ r₃ r₄,
      insertRecord (init Mem.zero r .internalPage) k₁.data.mem k₁.size = .ok (r₁, d₁) ∧
      insertRecord d₁ (pageIdMem left) 4 = .ok (r₂, d₂) ∧
      insertRecord d₂ k₂.data.mem k₂.size = .ok (r₃, d₃) ∧
      insertRecord d₃ (pageIdMem right) 4 = .ok (r₄, d₄) ∧
      Filled d₄ (k₁.stored ++ [idBytes left] ++ k₂.stored ++ [idBytes right]) ∧
      getPageType d₄ = .internalPage := by
  have hroom : PAGE_ROOM = 4056 := rfl
  have c₁ := cost_stored k₁
  have c₂ := cost_stored k₂
  obtain ⟨d₁, r₁, i₁, f₁, m₁⟩ := (filled_init Mem.zero r .internalPage).insertKey k₁
    (by simp only [List.map_nil, cost_nil]; omega)
  rw [List.nil_append] at f₁
  obtain ⟨d₂, r₂, i₂, f₂, m₂⟩ := f₁.insertRecord (pageIdMem left) 4 (by omega) (by omega)
  obtain ⟨d₃, r₃, i₃, f₃, m₃⟩ := f₂.insertKey k₂ (by simp; omega)
  obtain ⟨d₄, r₄, i₄, f₄, m₄⟩ := f₃.insertRecord (pageIdMem right) 4 (by omega) (by simp; omega)
  refine ⟨d₁, d₂, d₃, d₄, r₁, some r₂, r₃, some r₄, i₁, i₂, i₃, i₄, f₄, ?_⟩
  rw [((m₁.trans m₂).trans (m₃.trans m₄)).pageType, init_pageType]

/-- `splitRoot` ends, whatever the key column. -/
theorem splitRoot_ends (ht : FixedWidth t) (hw : t.keyWidth ≤ 8) (h : Holds t τ s T)
    (hl : T.store left = some n) (hk : sepKey.size ≤ 8) (right : Nat) :
    ∃ s', Ends (splitRoot t left sepKey right) s T.alloc.1 s' ∧
      NewRoot s s' T T.alloc.1 ((keyAt t (s.page left) 0).stored ++ [idBytes left] ++ sepKey.stored ++
        [idBytes right]) := by
  obtain ⟨s₁, e₁, hio, hlt, hpages⟩ := h.takePage
  have hmin : (keyAt t (s.page left) 0).size ≤ 8 := (keyAt_size_le ht).trans hw
  obtain ⟨d₁, d₂, d₃, d₄, r₁, r₂, r₃, r₄, i₁, i₂, i₃, i₄, hfill, htype⟩ :=
    rootRecords_spec hmin hk T.alloc.1 left right
  have e₂ : Ends (disk (writePage T.alloc.1 d₄)) { s₁ with rootPageId := T.alloc.1 } ⟨⟩ _ :=
    ends_disk (writePage_ends hio hlt)
  have hself : pageAt (s₁.diskManager.store d₄ (pageOffset T.alloc.1)) T.alloc.1 = pageOf d₄ :=
    pageAt_store rfl
  unfold splitRoot
  refine ⟨_, (h.read hl).bind (e₁.bind ((ends_buf i₁).bind ((ends_buf i₂).bind ((ends_buf i₃).bind
    ((ends_buf i₄).bind ((Ends.modify _ s₁).bind (e₂.bind (.pure _ _)))))))), hio, rfl,
    mapped_store hlt, ?_, ?_, ?_⟩
  · unfold TreeState.page
    rw [hself, getPageType, pageOf_readLE (by simp only [PAGE_SIZE]; omega)]
    exact htype
  · unfold TreeState.page
    rw [hself]
    exact hfill.pageOf
  · intro q hq
    obtain ⟨hoff, hmap, hsame⟩ := hpages q hq
    refine ⟨?_, hmap.store, (pageAt_store_of_ne hoff).trans hsame⟩
    rintro rfl
    exact hoff rfl

end

/-- Two sorted leaves of the file, and a separator: keys of the left one are below it, keys of
the right one are not. -/
structure SplitsOver (t : TreeConfig) (s : TreeState) (T : Tree) (left right : Nat) (sepKey : Key)
    (sep : Bytes) : Prop where
  leaf : T.IsLeaf left
  leaf' : T.IsLeaf right
  sorted : OrderedLeaf t (s.page left)
  sorted' : OrderedLeaf t (s.page right)
  key : sepKey.Is t sep
  below : ∀ b ∈ recordSeq (s.page left), keyValue t b < .integer (keyOf t.keyWidth sep)
  above : ∀ b ∈ recordSeq (s.page right), .integer (keyOf t.keyWidth sep) ≤ keyValue t b

/-- `splitRoot` ends, the keys of the new root are read as they were stored, and a search for a
key of either leaf ends there. -/
structure RootReads (t : TreeConfig) (s : TreeState) (left right : Nat) (sepKey : Key) (r : Nat)
    (s' : TreeState) : Prop where
  ends : Ends (splitRoot t left sepKey right) s r s'
  first : SameKey (keyAt t (s'.page r) 0) (keyAt t (s.page left) 0)
  second : SameKey (keyAt t (s'.page r) 2) sepKey
  finds : ∀ p, p = left ∨ p = right → ∀ b ∈ recordSeq (s.page p), ∀ key,
    key.Reads t.keyTypeId (keyValue t b) → ∃ m, Ends (findRecord t key) s' m s' ∧ m.leafPage = p

/-- Slot 0 of the page is live. -/
def FirstLive (data : Mem) : Prop := ∃ b, (entries data)[0]? = some (.live b)

section
variable {t : TreeConfig} {τ : Prop} {s s' : TreeState} {T : Tree} {left right r i : Nat}
  {sepKey : Key} {sep b : Bytes} {bs : List Bytes}

theorem NewRoot.entry (h : NewRoot s s' T r bs) (hi : bs[i]? = some b) :
    (entries (s'.page r))[i]? = some (.live b) := by
  rw [h.filled.entries, List.getElem?_map, hi]
  rfl

theorem NewRoot.size (ht : FixedWidth t) (h : NewRoot s s' T r bs) (hi : bs[i]? = some b) :
    (keyAt t (s'.page r) i).size = min t.keyWidth (b.length - min t.keyOffset b.length) :=
  keyAt_size ht h.filled.valid (h.entry hi)

theorem Key.stored_of_pos {k : Key} (h : k.size ≠ 0) : k.stored = [k.data.mem.slice 0 k.size] :=
  if_neg h

theorem SplitsOver.run (ht : NumberColumn t) (h : Holds t τ s T)
    (hs : SplitsOver t s T left right sepKey sep) :
    ∃ s', Ends (splitRoot t left sepKey right) s T.alloc.1 s' ∧
      NewRoot s s' T T.alloc.1 ((keyAt t (s.page left) 0).stored ++ [idBytes left] ++ sepKey.stored ++
        [idBytes right]) := by
  obtain ⟨es, l, l', hl⟩ := hs.leaf
  have hw := ht.width
  exact splitRoot_ends ht.fixedWidth (by omega) h hl (by rw [hs.key.size]; omega) right

/-- With an empty first key the slots are out of step, and with another offset the first key
is cut short. -/
theorem RootReads.offset (ht : NumberColumn t) (h : Holds t τ s T)
    (hs : SplitsOver t s T left right sepKey sep) (hr : RootReads t s left right sepKey r s') :
    t.keyOffset = 0 ∧ FirstLive (s.page left) := by
  have hfixed := ht.fixedWidth
  have hpos := hfixed.pos
  obtain ⟨s'', e, hroot⟩ := hs.run ht h
  obtain ⟨rfl, rfl⟩ := Ends.unique hr.ends e
  have hsep : sepKey.size ≠ 0 := by
    rw [hs.key.size]
    omega
  have hfirst := hr.first.size
  have hsecond := hr.second.size
  rw [hs.key.size] at hsecond
  rw [Key.stored_of_pos hsep] at hroot
  by_cases hlive : FirstLive (s.page left)
  · refine ⟨?_, hlive⟩
    obtain ⟨b, hb⟩ := hlive
    have hlen := hs.sorted.valid.record_pos (List.mem_of_getElem? hb)
    have hlong := hs.sorted.long hfixed hb
    unfold Key.Long at hlong
    rw [keyAt_width] at hlong
    have hfull := le_antisymm (keyAt_size_le hfixed) hlong
    rw [Key.stored_of_pos (by omega)] at hroot
    have hcut := hroot.size hfixed (i := 0) rfl
    rw [length_slice, hfull] at hcut
    omega
  · have hmin := keyAt_size_dead (t := t) hs.sorted.valid fun b hb => hlive ⟨b, hb⟩
    have hnone : (keyAt t (s.page left) 0).stored = [] := if_pos hmin
    rw [hnone] at hroot
    have h₀ := hroot.size hfixed (i := 0) rfl
    have h₂ := hroot.size hfixed (i := 2) rfl
    rw [length_idBytes] at h₀ h₂
    omega

end

/-! ## Searches below the new root -/

/-- A root page with two pairs, over two sorted leaves. -/
structure OverLeaves (t : TreeConfig) (s : TreeState) (left right : Nat) (k₁ k₂ : Rank) : Prop where
  io : s.diskManager.io = none
  mapped : Mapped s.diskManager s.rootPageId
  kids : ReadsKids t (Key.Reads t.keyTypeId) (s.page s.rootPageId) [(k₁, left), (k₂, right)]
  lt : k₁ < k₂
  leaf : ∀ p, p = left ∨ p = right →
    p ≠ s.rootPageId ∧ Mapped s.diskManager p ∧ OrderedLeaf t (s.page p)

/-- The pairs of the root are the only ones. -/
def rootKids (r left right : Nat) (k₁ k₂ : Rank) (p : Nat) : Option (List (Rank × Nat)) :=
  if p = r then some [(k₁, left), (k₂, right)] else none

namespace OverLeaves

variable {t : TreeConfig} {s : TreeState} {left right p : Nat} {k₁ k₂ x : Rank} {key : Key}

theorem child_leaf {i : Nat} {k : Rank} (hi : [(k₁, left), (k₂, right)][i]? = some (k, p)) :
    p = left ∨ p = right := by
  have hm := List.mem_of_getElem? hi
  simp only [List.mem_cons, Prod.mk.injEq, List.not_mem_nil, or_false] at hm
  rcases hm with ⟨-, rfl⟩ | ⟨-, rfl⟩
  · exact .inl rfl
  · exact .inr rfl

theorem treePages (h : OverLeaves t s left right k₁ k₂) : TreePages t (Key.Reads t.keyTypeId) s
    (rootKids s.rootPageId left right k₁ k₂) (fun p _ => p = left ∨ p = right) where
  io := h.io
  inner p ks hp := by
    unfold rootKids at hp
    split at hp
    · next e =>
      cases hp
      rw [e]
      exact ⟨h.mapped, h.kids⟩
    · cases hp
  leaf p S hp := ⟨(h.leaf p hp).2.1, (h.leaf p hp).2.2.type⟩

theorem isTree (h : OverLeaves t s left right k₁ k₂) :
    IsTree (rootKids s.rootPageId left right k₁ k₂) (fun p _ => p = left ∨ p = right)
      s.rootPageId Set.univ := by
  refine .inner (if_pos rfl) (by simp) (by simpa using h.lt) ?_
  intro i k c hi
  have hc := child_leaf hi
  exact .leaf (if_neg (h.leaf c hc).1) hc

/-- The search ends at the leaf whose pair takes the key. -/
theorem finds (h : OverLeaves t s left right k₁ k₂) (hx : key.Reads t.keyTypeId x) {i : Nat} {k : Rank}
    (hi : [(k₁, left), (k₂, right)][i]? = some (k, p))
    (hpart : x ∈ part Set.univ [(k₁, left), (k₂, right)] i) :
    ∃ m, Ends (findRecord t key) s m s ∧ m.leafPage = p := by
  have hp := child_leaf hi
  have hleaf := (h.leaf p hp).2.2
  have hcut := (keyOrder_reads t.keyTypeId).cuts hx
  obtain ⟨slot, hslot, -⟩ := leafSlot_cut hcut hleaf.readsSlots hleaf.slotsSorted
  have hbelow : Below (rootKids s.rootPageId left right k₁ k₂) s.rootPageId Set.univ
      [(s.rootPageId, i)] p (part Set.univ [(k₁, left), (k₂, right)] i) :=
    .step (if_pos rfl) hi (.here p _)
  exact ⟨_, findRecord_routed hcut h.treePages h.isTree hbelow hpart hleaf.type hslot, rfl⟩

theorem finds_left (h : OverLeaves t s left right k₁ k₂) (hx : key.Reads t.keyTypeId x)
    (hlt : x < k₂) : ∃ m, Ends (findRecord t key) s m s ∧ m.leafPage = left := by
  refine h.finds hx (i := 0) rfl ⟨trivial, fun h0 => absurd rfl h0, ?_⟩
  intro pr hpr
  cases hpr
  exact hlt

theorem finds_right (h : OverLeaves t s left right k₁ k₂) (hx : key.Reads t.keyTypeId x)
    (hle : k₂ ≤ x) : ∃ m, Ends (findRecord t key) s m s ∧ m.leafPage = right := by
  refine h.finds hx (i := 1) rfl ⟨trivial, ?_, ?_⟩
  · intro _ pr hpr
    cases hpr
    exact hle
  · intro pr hpr
    cases hpr

end OverLeaves

/-! ## A key column at the start of a record -/

section
variable {t : TreeConfig} {τ : Prop} {s s' : TreeState} {T : Tree} {left right r : Nat}
  {sepKey : Key} {sep b k₁ k₂ : Bytes} {data : Mem} {ps : List Pair} {i : Nat}

theorem HoldsKey.width_le (ht : t.Numeric) (h : HoldsKey t b) (hb : b.length ≠ 0) :
    t.keyWidth ≤ b.length := by
  obtain ⟨x, -, a, ha, -⟩ := h
  unfold recordKey at ha
  rw [extractKey_toValue hb, ht.offset, Nat.zero_min, View.advance_zero] at ha
  exact FixedWidth.le_of_decodes (.inl ⟨ht.type, ht.width⟩) ha

theorem keyValue_numeric (ht : t.Numeric) (hb : t.keyWidth ≤ b.length) :
    keyValue t b = .integer (keyOf t.keyWidth b) :=
  keyValue_eq (ht.reads (extractKey_spec ht (View.sees_ofBytes b) hb).1)

/-- The separators of a page are read back. -/
theorem keyAt_is (ht : t.Numeric) (h : NodeAt τ t.keyWidth data (.inner ps)) (hi : i < ps.length) :
    (keyAt t data (2 * i)).Is t ps[i].1 := by
  obtain ⟨hdec, hcar⟩ := keyAt_pair ht h hi
  exact ⟨hdec, hcar, (h.2.2.2 _ (List.getElem_mem hi)).1⟩

theorem readsKids_value (ht : t.Numeric) (h : NodeAt τ t.keyWidth data (.inner ps)) :
    ReadsKids t (Key.Reads t.keyTypeId) data
      (ps.map fun pr => (.integer (keyOf t.keyWidth pr.1), pr.2)) := by
  apply readsKids_of (f := fun b => Rank.integer (keyOf t.keyWidth b)) h
  intro i hi
  exact ht.reads (keyAt_pair ht h hi).1

/-- With both keys stored the new root holds two pairs. -/
theorem NewRoot.nodeAt (h : NewRoot s s' T r [k₁, idBytes left, k₂, idBytes right])
    (h₁ : k₁.length = t.keyWidth) (h₂ : k₂.length = t.keyWidth) (hl : left < 2 ^ 32)
    (hr : right < 2 ^ 32) : NodeAt τ t.keyWidth (s'.page r) (.inner [(k₁, left), (k₂, right)]) := by
  refine ⟨h.filled.valid, h.type, h.filled.entries, ?_⟩
  intro pr hpr
  simp only [List.mem_cons, List.not_mem_nil, or_false] at hpr
  rcases hpr with rfl | rfl
  · exact ⟨h₁, hl⟩
  · exact ⟨h₂, hr⟩

theorem Key.Is.stored (hk : sepKey.Is t sep) (hpos : 0 < t.keyWidth) : sepKey.stored = [sep] := by
  have hsize := hk.size
  rw [Key.stored_of_pos (by omega), hk.carries.size, hk.carries.bytes]

theorem SplitsOver.rootReads (ht : NumberColumn t) (h0 : t.keyOffset = 0) (h : Holds t τ s T)
    (hs : SplitsOver t s T left right sepKey sep) (hlive : FirstLive (s.page left)) :
    ∃ r s', RootReads t s left right sepKey r s' := by
  have hnum := ht.numeric h0
  have hpos := hnum.width_le.1
  obtain ⟨s', e, hroot⟩ := hs.run ht h
  obtain ⟨b, hb⟩ := hlive
  have hlen := hs.sorted.valid.record_pos (List.mem_of_getElem? hb)
  have hlong := (hs.sorted.holdsKey hb).width_le hnum (by omega)
  obtain ⟨hdec, hcar⟩ := keyAt_spec hnum hs.sorted.valid hb hlong
  have hfirst : (keyAt t (s.page left) 0).Is t (b.take t.keyWidth) :=
    ⟨by rwa [keyOf_take hlong], hcar, by rw [List.length_take]; omega⟩
  rw [hfirst.stored hpos, hs.key.stored hpos] at hroot
  obtain ⟨es, l, l', hl⟩ := hs.leaf
  obtain ⟨es', m, m', hr⟩ := hs.leaf'
  have hln : T.store left ≠ none := by simp [hl]
  have hrn : T.store right ≠ none := by simp [hr]
  have hnode : NodeAt τ t.keyWidth (s'.page T.alloc.1)
      (.inner [(b.take t.keyWidth, left), (sep, right)]) :=
    hroot.nodeAt hfirst.width hs.key.width (h.lt32 (h.inUse hln)) (h.lt32 (h.inUse hrn))
  obtain ⟨hne, hmap, hsame⟩ := hroot.old left hln
  obtain ⟨hne', hmap', hsame'⟩ := hroot.old right hrn
  have hmem : b ∈ recordSeq (s.page left) := by
    rw [recordSeq_eq hs.sorted.valid.layout]
    exact mem_liveRecordsOf.mpr (List.mem_of_getElem? hb)
  have hover : OverLeaves t s' left right (.integer (keyOf t.keyWidth (b.take t.keyWidth)))
      (.integer (keyOf t.keyWidth sep)) := by
    refine ⟨hroot.io, ?_, ?_, ?_, ?_⟩
    · rw [hroot.root]
      exact hroot.mapped
    · rw [hroot.root]
      exact readsKids_value hnum hnode
    · rw [keyOf_take hlong, ← keyValue_numeric hnum hlong]
      exact hs.below b hmem
    · rw [hroot.root]
      intro p h'
      rcases h' with rfl | rfl
      · rw [hsame]
        exact ⟨hne, hmap, hs.sorted⟩
      · rw [hsame']
        exact ⟨hne', hmap', hs.sorted'⟩
  refine ⟨T.alloc.1, s', e, ?_, ?_, ?_⟩
  · exact (keyAt_is hnum hnode (i := 0) (by simp)).same hfirst
  · exact (keyAt_is hnum hnode (i := 1) (by simp)).same hs.key
  · intro p h' c hc key hkey
    rcases h' with rfl | rfl
    · exact hover.finds_left hkey (hs.below c hc)
    · exact hover.finds_right hkey (hs.above c hc)

end

/-! ## Pairs added to a parent -/

section
variable {w : Nat} {T : Tree} {p q left right : Nat} {ps qs : List Pair} {sep : Bytes} {rest : List Nat}

theorem Tree.addPair_mem (hq : T.store q = some (.inner qs)) :
    ∃ qs', (T.addPair w q sep right).store q = some (.inner qs') ∧ (sep, right) ∈ qs' := by
  rw [Tree.addPair_eq hq]
  exact ⟨_, Tree.setNode_self .., (List.mem_insertIdx lowerIdx_le).mpr (.inl rfl)⟩

/-- The pair is in the parent, or in one of its halves. -/
theorem wire_mem (hi : T.Ids) (hp : T.store p = some (.inner ps)) (hpr : p ∉ rest)
    (hin : ∀ q ∈ rest, T.store q ≠ none) :
    ∃ q qs, (Tree.wire w (p :: rest) T left sep right).store q = some (.inner qs) ∧
      (sep, right) ∈ qs := by
  have hpn : T.store p ≠ none := by simp [hp]
  rw [Tree.wire_cons hp]
  split
  · exact ⟨p, Tree.addPair_mem hp⟩
  · have hids := Tree.splitNode_ids ps hi hpn
    obtain ⟨hs1, hs2, -⟩ := Tree.splitNode_store ps hi hpn
    have hlower := (Tree.wire_store (w := w) rest _ p (T.splitNode p ps).2.1 T.alloc.1 hids
      (hids.used p (by simp [hs1])) hpr).trans hs1
    have hupper := (Tree.wire_store (w := w) rest _ p (T.splitNode p ps).2.1 T.alloc.1 hids
      (hids.used T.alloc.1 (by simp [hs2])) fun hq => hi.alloc_ne (hin _ hq) rfl).trans hs2
    split
    · exact ⟨_, Tree.addPair_mem hupper⟩
    · exact ⟨_, Tree.addPair_mem hlower⟩

/-- No page is twice on a path. -/
theorem Path.nodup {rank : Nat → Nat} (hs : Shape w rank T) :
    ∀ {p : Nat} {stack : List Nat}, Path T p stack → stack.Nodup
  | _, [], _ => List.nodup_nil
  | _, q :: _, ⟨_, hpath⟩ =>
    List.nodup_cons.mpr ⟨fun hq => Nat.lt_irrefl _ (hpath.rank_lt hs q hq), hpath.nodup hs⟩

theorem Path.length_le {rank : Nat → Nat} (hs : Shape w rank T) (hi : T.Ids) (h : Path T p rest) :
    rest.length ≤ T.next := by
  have hsub : rest ⊆ List.range T.next := by
    intro q hq
    obtain ⟨qs, hqs⟩ := h.inner q hq
    exact List.mem_range.mpr (hi.used q (by simp [hqs])).2.1
  have hlen := (h.nodup hs).length_le_of_subset hsub
  rwa [List.length_range] at hlen

end

/-- The tree with a page halved and the upper half linked in the pages of the stack. -/
def Tree.linked (w : Nat) (T : Tree) (bt : BTStack) (left right : Nat) (nl nr : Node) (sep : Bytes) :
    Tree :=
  Tree.wire w (bt.map Breadcrumb.pageId) (T.halve left right nl nr) left sep right

/-- A page of a tree in strict min-key order was halved and its upper half, a new page, is not in
the parent yet, nor in any page of the stack above it; the page ids the pages above may take last. -/
structure AwaitsParent (t : TreeConfig) (τ : Prop) (s : TreeState) (T : Tree) (bt : BTStack)
    (left right : Nat) (n nl nr : Node) (sep : Bytes) : Prop where
  holds : Holds t τ s (T.halve left right nl nr)
  shape : ∃ rank, Shape t.keyWidth rank T
  parents : OneParent T
  minKey : StrictMinKey t.keyWidth T
  split : Split T left right n
  halves : Halving t.keyWidth n nl sep nr
  next : ∀ es l r, nl = .leaf es l r ∨ nr = .leaf es l r →
    r = INVALID_PAGE_ID ∨ r = right ∨ T.IsLeaf r
  path : Path T left (bt.map Breadcrumb.pageId)
  parent : bt ≠ []
  ids : (T.linked t.keyWidth bt left right nl nr sep).next ≤ MAX_PAGES

/-- `insertIntoParent` ends, and the file holds a tree with the new pair whose separators are read
as they are stored, and in which the search for any record ends at its leaf. -/
def ParentReads (t : TreeConfig) (τ : Prop) (s : TreeState) (T : Tree) (bt : BTStack) (sepKey : Key)
    (sep : Bytes) (right : Nat) : Prop :=
  ∃ s' T', Ends (insertIntoParent t bt sepKey right) s ⟨⟩ s' ∧ Holds t τ s' T' ∧
    (∃ p ps, T'.store p = some (.inner ps) ∧ (sep, right) ∈ ps) ∧
    (∀ p ps i (hi : i < ps.length), T'.store p = some (.inner ps) →
      SameKey (keyAt t (s'.page p) (2 * i)) (t.key ps[i].1)) ∧
    ∀ p es l r b key, T.store p = some (.leaf es l r) → .live b ∈ es →
      key.Reads t.keyTypeId (keyValue t b) → ∃ m, Ends (findRecord t key) s' m s' ∧ m.leafPage = p

section
variable {t : TreeConfig} {τ : Prop} {s : TreeState} {T : Tree} {bt : BTStack} {left right p : Nat}
  {n nl nr : Node} {sep b : Bytes} {sepKey : Key} {ps : List Pair} {pr : Pair}

theorem key_is (ht : t.Numeric) (hb : b.length = t.keyWidth) : (t.key b).Is t b :=
  ⟨key_decodes ht (by omega), ⟨rfl, slice_ofBytes b⟩, hb⟩

theorem Tree.halve_right : (T.halve left right nl nr).store right = some nr := Tree.setNode_self ..

/-- The halves have the shape of a tree, the new page on the level of the old one. -/
theorem Split.shape {w : Nat} {rank : Nat → Nat} (hsplit : Split T left right n) (h : Shape w rank T)
    (hn : Halving w n nl sep nr) (hnext : ∀ es l r, nl = .leaf es l r ∨ nr = .leaf es l r →
      r = INVALID_PAGE_ID ∨ r = right ∨ T.IsLeaf r) :
    Shape w (Function.update rank right (rank left)) (T.halve left right nl nr) := by
  have hl := hsplit.node
  cases hn with
  | @inner ps m prm h0 hm =>
    have hmlt := (List.getElem?_eq_some_iff.mp hm).1
    exact h.halveInner hl hsplit.fresh h0 hmlt
  | @leaf es es₁ es₂ l r l₁ r₁ l₂ r₂ sep h₀ h₁ h₂ hsep =>
    have hleft : (T.halve left right (.leaf es₁ l₁ r₁) (.leaf es₂ l₂ r₂)).store left =
        some (.leaf es₁ l₁ r₁) := hsplit.halve_left
    have hright : (T.halve left right (.leaf es₁ l₁ r₁) (.leaf es₂ l₂ r₂)).store right =
        some (.leaf es₂ l₂ r₂) := Tree.halve_right
    have hold : ∀ q, q ≠ left → q ≠ right →
        (T.halve left right (.leaf es₁ l₁ r₁) (.leaf es₂ l₂ r₂)).store q = T.store q :=
      fun q => Tree.halve_other
    generalize hU : T.halve left right (.leaf es₁ l₁ r₁) (.leaf es₂ l₂ r₂) = U at hleft hright hold
    have hroot : U.root = T.root := by
      rw [← hU]
      rfl
    -- a page is one of the halves or as it was
    have hcases : ∀ q m, U.store q = some m → (q = left ∧ m = .leaf es₁ l₁ r₁) ∨
        (q = right ∧ m = .leaf es₂ l₂ r₂) ∨ (q ≠ left ∧ q ≠ right ∧ T.store q = some m) := by
      intro q m hq
      by_cases hql : q = left
      · rw [hql, hleft] at hq
        exact .inl ⟨hql, (Option.some.inj hq).symm⟩
      · by_cases hqr : q = right
        · rw [hqr, hright] at hq
          exact .inr (.inl ⟨hqr, (Option.some.inj hq).symm⟩)
        · rw [hold q hql hqr] at hq
          exact .inr (.inr ⟨hql, hqr, hq⟩)
    have hmono : ∀ q, T.store q ≠ none → U.store q ≠ none := by
      intro q hq
      by_cases hql : q = left
      · simp [hql, hleft]
      · rwa [hold q hql (hsplit.store_ne hq)]
    have hleaf : ∀ q, T.IsLeaf q → U.IsLeaf q := by
      intro q h'
      rcases h' with ⟨es', l', r', hq⟩
      by_cases hql : q = left
      · exact ⟨es₁, l₁, r₁, by rw [hql, hleft]⟩
      · exact ⟨es', l', r', by rw [hold q hql (hsplit.store_ne (by simp [hq])), hq]⟩
    have hinner : ∀ q qs, U.store q = some (.inner qs) → T.store q = some (.inner qs) := by
      intro q qs hq
      obtain ⟨-, e⟩ | ⟨-, e⟩ | ⟨-, -, hq'⟩ := hcases q _ hq
      · cases e
      · cases e
      · exact hq'
    refine ⟨by rw [hroot]; exact hmono _ h.root, fun q qs hq => h.pairs q qs (hinner q qs hq), ?_, ?_, ?_⟩
    · intro q qs hq pr hpr
      have hq' := hinner q qs hq
      obtain ⟨hc, hlt⟩ := h.child q qs hq' pr hpr
      rw [Function.update_of_ne (hsplit.store_ne hc),
        Function.update_of_ne (hsplit.store_ne (by simp [hq']))]
      exact ⟨hmono _ hc, hlt⟩
    · intro q es' l' r' hq b hb
      have hlong := h.long left es l r hl b
      obtain ⟨-, e⟩ | ⟨-, e⟩ | ⟨-, -, hq'⟩ := hcases q _ hq
      · cases e
        exact hlong (h₁ b hb).1
      · cases e
        exact hlong (h₂ b hb).1
      · exact h.long q es' l' r' hq' b hb
    · have hnew : ∀ r', r' = INVALID_PAGE_ID ∨ r' = right ∨ T.IsLeaf r' →
          r' = INVALID_PAGE_ID ∨ U.IsLeaf r' := by
        intro r' h'
        rcases h' with e | rfl | hr'
        · exact .inl e
        · exact .inr ⟨_, _, _, hright⟩
        · exact .inr (hleaf _ hr')
      intro q es' l' r' hq
      obtain ⟨-, e⟩ | ⟨-, e⟩ | ⟨-, -, hq'⟩ := hcases q _ hq
      · exact hnew r' (hnext es' l' r' (.inl e.symm))
      · exact hnew r' (hnext es' l' r' (.inr e.symm))
      · exact (h.sibling q es' l' r' hq').imp id (hleaf r')

/-- A separator kept for the halved page is below the new one. -/
theorem StrictMinKey.below_halving {w : Nat} (h : StrictMinKey w T) (hl : T.store left = some n)
    (hn : Halving w n nl sep nr) (hp : T.store p = some (.inner ps)) (hm : pr ∈ ps)
    (he : pr.2 = left) : keyOf w pr.1 < keyOf w sep := by
  obtain ⟨j, hj⟩ := List.getElem?_of_mem hm
  have hfrom : ∀ x, HasKey w T left x → keyOf w pr.1 ≤ x := by
    intro x hx
    rw [← he] at hx
    exact h.from_pair p ps j pr pr.2 x hp hj (.here _) hx
  cases hn with
  | leaf h₀ h₁ h₂ hsep =>
    obtain ⟨b, rest, rfl, -, -⟩ := h₀
    obtain ⟨hb, hlt⟩ := h₁ b List.mem_cons_self
    exact Int.lt_of_le_of_lt (hfrom _ (.record hl hb)) hlt
  | @inner qs m prm h0 hm' =>
    obtain ⟨hmlt, hget⟩ := List.getElem?_eq_some_iff.mp hm'
    have hlt := (h.sorted _ _ hl).lt h0 hmlt
    rw [pairKey_getElem hmlt, hget, pairKey_getElem (by omega)] at hlt
    exact Int.lt_of_le_of_lt (hfrom _ (.separator hl (List.getElem_mem (by omega)))) hlt

namespace AwaitsParent

variable (h : AwaitsParent t τ s T bt left right n nl nr sep)

include h

/-- The pages of the stack are not halves. -/
theorem stack_page {q : Nat} (hq : q ∈ bt.map Breadcrumb.pageId) :
    (T.halve left right nl nr).store q = T.store q ∧
      ∃ ps, (T.halve left right nl nr).store q = some (.inner ps) := by
  obtain ⟨rank, hs⟩ := h.shape
  obtain ⟨ps, hps⟩ := h.path.inner q hq
  have hlt := h.path.rank_lt hs q hq
  have hother : (T.halve left right nl nr).store q = T.store q := by
    refine Tree.halve_other ?_ (h.split.store_ne (by simp [hps]))
    rintro rfl
    exact Nat.lt_irrefl _ hlt
  exact ⟨hother, ps, hother.trans hps⟩

theorem stack_nodup : (bt.map Breadcrumb.pageId).Nodup := by
  obtain ⟨rank, hs⟩ := h.shape
  exact h.path.nodup hs

theorem stack_length : bt.length < 2 ^ 30 := by
  obtain ⟨rank, hs⟩ := h.shape
  have hle := h.path.length_le hs h.split.ids
  have hmax : T.next ≤ MAX_PAGES := h.holds.next_le
  have hpages : MAX_PAGES < 2 ^ 30 := by decide
  rw [List.length_map] at hle
  omega

theorem ends (ht : t.Numeric) (hk : sepKey.Is t sep) :
    ∃ s', Ends (insertIntoParent t bt sepKey right) s ⟨⟩ s' ∧
      Holds t τ s' (T.linked t.keyWidth bt left right nl nr sep) := by
  have hu : (T.halve left right nl nr).InUse right := h.holds.inUse (by simp [Tree.halve_right])
  obtain ⟨a, s', e, h', -⟩ := (wireUp_tracks ht bt s _ left sep right sepKey h.holds
    (fun hnil => absurd hnil h.parent) h.stack_nodup (fun q hq => (h.stack_page hq).2)
    h.stack_length hk hu).ends h.ids
  refine ⟨s', ?_, h'⟩
  unfold wireUp at e
  rwa [if_neg (by simp [h.parent])] at e

theorem routed (hw : t.keyWidth ≤ 8) :
    Routed True t.keyWidth (T.linked t.keyWidth bt left right nl nr sep) := by
  obtain ⟨rank, hs⟩ := h.shape
  have hT := h.minKey.routed h.parents hs h.split.ids
  apply wire_routed hw _ T rank left right n nl nr sep h.split hT hs h.halves h.path h.stack_nodup
  intro p ps pr hp hm he
  exact h.minKey.below_halving h.split.node h.halves hp hm he

theorem linked_shape (hw : t.keyWidth ≤ 8) :
    ∃ rank, Shape t.keyWidth rank (T.linked t.keyWidth bt left right nl nr sep) := by
  obtain ⟨rank, hs⟩ := h.shape
  have hroot : (T.halve left right nl nr).root = T.root := rfl
  have hpath := Path.congr hroot (fun q hq => (h.stack_page hq).1) h.path
  obtain ⟨rank', hs', -⟩ := wire_shape hw _ _ _ left sep right (h.split.shape hs h.halves h.next)
    h.holds.ids hpath h.stack_nodup (by simp [Tree.halve_right])
    (by rw [Function.update_self, Function.update_of_ne h.split.ne])
  exact ⟨rank', hs'⟩

/-- The pair is in an internal page. -/
theorem pair_mem : ∃ p ps, (T.linked t.keyWidth bt left right nl nr sep).store p =
    some (.inner ps) ∧ (sep, right) ∈ ps := by
  have hnd := h.stack_nodup
  have hpage := @h.stack_page
  unfold Tree.linked
  cases hbt : bt.map Breadcrumb.pageId with
  | nil => exact absurd (List.map_eq_nil_iff.mp hbt) h.parent
  | cons p rest =>
    rw [hbt] at hnd hpage
    obtain ⟨-, ps, hps⟩ := hpage List.mem_cons_self
    apply wire_mem h.holds.ids hps (List.nodup_cons.mp hnd).1
    intro q hq
    obtain ⟨-, qs, hqs⟩ := hpage (List.mem_cons_of_mem _ hq)
    simp [hqs]

/-- `insertIntoParent` where the key column is the first. -/
theorem reads (ht : t.Numeric) (hk : sepKey.Is t sep) :
    ParentReads t τ s (T.halve left right nl nr) bt sepKey sep right := by
  have hw := ht.width_le
  obtain ⟨s', e, h'⟩ := h.ends ht hk
  obtain ⟨rank, hs⟩ := h.linked_shape hw.2
  refine ⟨s', _, e, h', h.pair_mem, ?_, ?_⟩
  · intro p ps i hi hp
    have hnode := h'.nodeAt hp
    exact (keyAt_is ht hnode hi).same (key_is ht (hnode.2.2.2 _ (List.getElem_mem hi)).1)
  · intro p es l r b key hp hb hkey
    -- its leaf is as it was, and its key leads there
    have hp' : (T.linked t.keyWidth bt left right nl nr sep).store p = some (.leaf es l r) :=
      (wire_leaf _ _ left sep right h.holds.ids).mpr hp
    have hlong := hs.long p es l r hp'
    obtain ⟨stack, hroute⟩ := ((h.routed hw.2).recs p es l r hp' b hb).route
    have hfind := hroute.find hs h'.ids ⟨es, l, r, hp'⟩
    have hx : key.Decodes (keyOf t.keyWidth b) := by
      rw [ht.type, keyValue_numeric ht (hlong b hb)] at hkey
      exact hkey
    obtain ⟨bt', -, e'⟩ := findRecord_ends ht h' hx hfind hp' hlong
    exact ⟨_, e', rfl⟩

end AwaitsParent

/-- With another offset no separator is read whole. -/
theorem ParentReads.offset (ht : NumberColumn t) (h : ParentReads t τ s T bt sepKey sep right) :
    t.keyOffset = 0 := by
  obtain ⟨s', T', -, h', ⟨p, ps, hp, hm⟩, hsep, -⟩ := h
  have hpos := ht.fixedWidth.pos
  obtain ⟨i, hi, hget⟩ := List.getElem_of_mem hm
  have hnode := h'.nodeAt hp
  have hwidth := (hnode.2.2.2 _ (List.getElem_mem hi)).1
  have hlive : (entries (s'.page p))[2 * i]? = some (.live ps[i].1) := by
    rw [hnode.2.2.1, getElem?_pairEntries_key, List.getElem?_eq_getElem hi]
    rfl
  have hsize := (hsep p ps i hi hp).size
  rw [keyAt_size ht.fixedWidth hnode.1 hlive, hwidth] at hsize
  have hkey : (t.key ps[i].1).size = t.keyWidth := hwidth
  omega

end

/-! ## A leaf halved below a root with one pair -/

section
variable {τ : Prop} {T : Tree} {w p left right : Nat} {k b : Bytes} {es : List Entry} {data : Mem}

theorem exists_leaf (w : Nat) (bs : List Bytes) (hpos : ∀ b ∈ bs, b ≠ [])
    (hroom : cost (bs.map .live) ≤ PAGE_ROOM) :
    ∃ d, NodeAt True w d (.leaf (bs.map .live) INVALID_PAGE_ID INVALID_PAGE_ID) := by
  obtain ⟨d, hd, hm⟩ := exists_filled 1 .leafPage bs hpos hroom
  refine ⟨d, hd.valid, fun _ => hd.tight, ?_, hd.entries, ?_, ?_⟩
  · rw [hm.pageType, init_pageType]
  · rw [hm.left, init_left]
  · rw [hm.right, init_right]

theorem recordSeq_one (h : NodeAt τ w data (.leaf [.live b] left right)) : recordSeq data = [b] := by
  rw [recordSeq_eq h.1.layout, h.2.2.2.1]
  rfl

theorem orderedLeaf_one {t : TreeConfig} (h : NodeAt τ w data (.leaf [.live b] left right))
    (hb : HoldsKey t b) : OrderedLeaf t data := by
  refine ⟨h.1, h.2.2.1, ?_, ?_⟩
  · rw [recordSeq_one h]
    intro c hc
    rwa [List.mem_singleton.mp hc]
  · rw [recordSeq_one h]
    exact List.pairwise_singleton _ _

/-- A root page with one pair, over a leaf. -/
structure OnePair (T : Tree) (p : Nat) (k : Bytes) (es : List Entry) : Prop where
  root : T.store T.root = some (.inner [(k, p)])
  leaf : T.store p = some (.leaf es INVALID_PAGE_ID INVALID_PAGE_ID)
  only : ∀ q, T.store q ≠ none → q = T.root ∨ q = p

namespace OnePair

variable (h : OnePair T p k es)

include h

theorem ne : p ≠ T.root := by
  intro e
  have hl := h.leaf
  rw [e, h.root] at hl
  cases hl

theorem inner {q : Nat} {ps : List Pair} (hq : T.store q = some (.inner ps)) :
    q = T.root ∧ ps = [(k, p)] := by
  rcases h.only q (by simp [hq]) with rfl | rfl
  · rw [h.root] at hq
    cases hq
    exact ⟨rfl, rfl⟩
  · rw [h.leaf] at hq
    cases hq

theorem isLeaf {q l r : Nat} {es' : List Entry} (hq : T.store q = some (.leaf es' l r)) :
    es' = es ∧ r = INVALID_PAGE_ID := by
  rcases h.only q (by simp [hq]) with rfl | rfl
  · rw [h.root] at hq
    cases hq
  · rw [h.leaf] at hq
    cases hq
    exact ⟨rfl, rfl⟩

theorem childAt {q j c : Nat} (hc : ChildAt T q j c) : q = T.root ∧ j = 0 ∧ c = p := by
  obtain ⟨ps, pr, hq, hj, rfl⟩ := hc
  obtain ⟨rfl, rfl⟩ := h.inner hq
  cases j with
  | zero =>
    cases hj
    exact ⟨rfl, rfl, rfl⟩
  | succ j => cases hj

theorem shape (hlong : LongEnough w es) : Shape w (fun q => if q = T.root then 1 else 0) T := by
  refine ⟨by simp [h.root], ?_, ?_, ?_, ?_⟩
  · intro q ps hq
    rw [(h.inner hq).2]
    simp
  · intro q ps hq pr hpr
    obtain ⟨rfl, rfl⟩ := h.inner hq
    rw [List.mem_singleton.mp hpr, if_pos rfl, if_neg h.ne]
    exact ⟨by simp [h.leaf], Nat.one_pos⟩
  · intro q es' l r hq
    rw [(h.isLeaf hq).1]
    exact hlong
  · intro q es' l r hq
    exact .inl (h.isLeaf hq).2

theorem parents : OneParent T := by
  refine ⟨?_, ?_, ?_⟩
  · intro q j hc
    exact h.ne (h.childAt hc).2.2.symm
  · intro q hq hroot
    rcases h.only q hq with rfl | rfl
    · exact absurd rfl hroot
    · exact ⟨T.root, 0, _, _, h.root, rfl, rfl⟩
  · intro q q' j j' c hc hc'
    obtain ⟨rfl, rfl, -⟩ := h.childAt hc
    obtain ⟨rfl, rfl, -⟩ := h.childAt hc'
    exact ⟨rfl, rfl⟩

theorem minKey (hmin : ∀ b, .live b ∈ es → keyOf w k ≤ keyOf w b) : StrictMinKey w T := by
  refine ⟨?_, ?_, ?_⟩
  · intro q ps hq
    rw [(h.inner hq).2]
    exact List.pairwise_singleton _ _
  · intro q ps j pr c x hq hj hu hx
    obtain ⟨-, -, he⟩ := h.childAt ⟨ps, pr, hq, hj, rfl⟩
    obtain ⟨rfl, rfl⟩ := h.inner hq
    obtain rfl := List.mem_singleton.mp (List.mem_of_getElem? hj)
    -- only the leaf is below its pair
    cases hu with
    | here =>
      cases hx with
      | record hp hb =>
        rw [(h.isLeaf hp).1] at hb
        exact hmin _ hb
      | separator hp => exact absurd (h.inner hp).1 h.ne
    | step hp => exact absurd (h.inner hp).1 h.ne
  · intro q ps j pr pr' c x hq hj hj'
    obtain ⟨rfl, rfl⟩ := h.inner hq
    simp at hj'

end OnePair

end

/-- Page 3 is the root, page 1 a leaf with two records. -/
def pairTree : Tree :=
  ({ Tree.one.alloc.2.alloc.2.setNode 3 (.inner [([0], 1)]) with root := 3 } : Tree).setNode 1
    (.leaf [.live [0, 0], .live [1, 1]] INVALID_PAGE_ID INVALID_PAGE_ID)

def lowHalf : Node := .leaf [.live [0, 0]] INVALID_PAGE_ID INVALID_PAGE_ID

def highHalf : Node := .leaf [.live [1, 1]] INVALID_PAGE_ID INVALID_PAGE_ID

def firstColumn : TreeConfig := { keyWidth := 1 }

def secondColumn : TreeConfig := { keyWidth := 1, keyOffset := 1 }

theorem pairTree_onePair : OnePair pairTree 1 [0] [.live [0, 0], .live [1, 1]] := by
  refine ⟨rfl, rfl, fun q hq => ?_⟩
  by_contra hne
  rw [not_or] at hne
  apply hq
  have h3 : q ≠ 3 := hne.1
  simp [pairTree, Tree.setNode, Tree.alloc, Tree.one, hne.2, h3]

theorem inUse_of_lt {T : Tree} {p : Nat} (hT : T.free = [] ∧ T.next = 4) (hp : 1 ≤ p ∧ p < 4) :
    T.InUse p := by
  unfold Tree.InUse
  rw [hT.1, hT.2]
  exact ⟨hp.1, hp.2, List.not_mem_nil⟩

/-- The leaf is halved, page 2 is new. -/
theorem halvedFile (t : TreeConfig) (hw : t.keyWidth = 1) :
    ∃ s, Holds t True s (pairTree.halve 1 2 lowHalf highHalf) := by
  obtain ⟨s₀, h₀⟩ := start_exists
  obtain ⟨d₁, hd₁⟩ := exists_leaf t.keyWidth [[0, 0], [1, 1]] (by simp) (by decide)
  obtain ⟨d₂, hd₂⟩ := exists_leaf t.keyWidth [[0, 0]] (by simp) (by decide)
  obtain ⟨d₃, hd₃⟩ := exists_leaf t.keyWidth [[1, 1]] (by simp) (by decide)
  obtain ⟨d, hd, hm⟩ := exists_filled 3 .internalPage [[0], idBytes 1] (by decide) (by decide)
  have hroot : NodeAt True t.keyWidth d (.inner [([0], 1)]) := by
    refine ⟨hd.valid, ?_, hd.entries, ?_⟩
    · rw [hm.pageType, init_pageType]
    · rw [hw]
      decide
  -- two pages are taken, and every page is written
  obtain ⟨s₁, -, h₁, -⟩ := (h₀.good (t := t)).holds.alloc (by decide)
  obtain ⟨s₂, -, h₂, -⟩ := h₁.alloc (by decide)
  obtain ⟨s₃, -, h₃, -⟩ := h₂.write (p := 3) (inUse_of_lt (by decide) (by decide)) hroot
  obtain ⟨s₄, -, h₄, -⟩ := (h₃.setRoot 3).write (p := 1) (inUse_of_lt (by decide) (by decide)) hd₁
  obtain ⟨s₅, -, h₅, -⟩ := h₄.write (p := 1) (inUse_of_lt (by decide) (by decide)) hd₂
  obtain ⟨s₆, -, h₆, -⟩ := h₅.write (p := 2) (inUse_of_lt (by decide) (by decide)) hd₃
  exact ⟨s₆, h₆⟩

/-- Below a key of one byte the records are apart, in either column. -/
theorem halvedFile_splits {t : TreeConfig} {s : TreeState} (ht : t = firstColumn ∨ t = secondColumn)
    (h : Holds t True s (pairTree.halve 1 2 lowHalf highHalf)) :
    SplitsOver t s (pairTree.halve 1 2 lowHalf highHalf) 1 2 (t.key [1]) [1] := by
  have hl := h.nodeAt (p := 1) (n := lowHalf) rfl
  have hr := h.nodeAt (p := 2) (n := highHalf) rfl
  refine ⟨⟨_, _, _, rfl⟩, ⟨_, _, _, rfl⟩, orderedLeaf_one hl ?_, orderedLeaf_one hr ?_, ?_, ?_, ?_⟩
  · rcases ht with rfl | rfl
    · decide
    · decide
  · rcases ht with rfl | rfl
    · decide
    · decide
  · rcases ht with rfl | rfl
    · exact ⟨Key.decodes_iff.mpr rfl, ⟨rfl, slice_ofBytes [1]⟩, rfl⟩
    · exact ⟨Key.decodes_iff.mpr rfl, ⟨rfl, slice_ofBytes [1]⟩, rfl⟩
  · rw [recordSeq_one hl]
    intro b hb
    obtain rfl := List.mem_singleton.mp hb
    rcases ht with rfl | rfl
    · decide
    · decide
  · rw [recordSeq_one hr]
    intro b hb
    obtain rfl := List.mem_singleton.mp hb
    rcases ht with rfl | rfl
    · decide
    · decide

theorem pairTree_ids : pairTree.Ids := by
  refine ⟨by decide, ?_, List.nodup_nil, by simp [pairTree, Tree.alloc, Tree.one]⟩
  intro p hp
  rcases pairTree_onePair.only p hp with rfl | rfl
  · exact inUse_of_lt (by decide) (by decide)
  · exact inUse_of_lt (by decide) (by decide)

theorem pairTree_awaits {s : TreeState}
    (h : Holds firstColumn True s (pairTree.halve 1 2 lowHalf highHalf)) :
    AwaitsParent firstColumn True s pairTree [⟨3, 0⟩] 1 2
      (.leaf [.live [0, 0], .live [1, 1]] INVALID_PAGE_ID INVALID_PAGE_ID) lowHalf highHalf [1] := by
  have hone := pairTree_onePair
  have hrecords : ∀ b, Entry.live b ∈ [Entry.live [0, 0], .live [1, 1]] →
      1 ≤ b.length ∧ keyOf 1 [0] ≤ keyOf 1 b ∧ keyOf 1 [0, 0] ≤ keyOf 1 b := by
    intro b hb
    simp only [List.mem_cons, Entry.live.injEq, List.not_mem_nil, or_false] at hb
    rcases hb with rfl | rfl
    · decide
    · decide
  refine ⟨h, ⟨_, hone.shape fun b hb => (hrecords b hb).1⟩, hone.parents,
    hone.minKey fun b hb => (hrecords b hb).2.1,
    ⟨pairTree_ids, rfl, inUse_of_lt (by decide) (by decide), rfl⟩, ?_, ?_,
    ⟨⟨_, [0], rfl, by simp⟩, rfl⟩, by simp, by decide⟩
  · refine .leaf ⟨[0, 0], [], rfl, by decide, fun c hc => (hrecords c hc).2.2⟩ ?_ ?_
      ⟨[1, 1], by simp, by decide⟩
    · intro b hb
      cases List.mem_singleton.mp hb
      exact ⟨by simp, by decide⟩
    · intro b hb
      cases List.mem_singleton.mp hb
      exact ⟨by simp, by decide⟩
  · intro es l r h'
    rcases h' with e | e
    · cases e
      exact .inl rfl
    · cases e
      exact .inl rfl

/-! ## When separators are read as they were written -/

/-- With a number column as key: `splitRoot` over two leaves does what it should where the key
column is the first and slot 0 of the left leaf is live, `insertIntoParent` where the key column
is the first. -/
theorem separators_iff (t : TreeConfig) (τ : Prop) (ht : NumberColumn t) :
    (∀ s T left right sepKey sep, Holds t τ s T → SplitsOver t s T left right sepKey sep →
      ((∃ r s', RootReads t s left right sepKey r s') ↔
        t.keyOffset = 0 ∧ FirstLive (s.page left))) ∧
    ∀ s T bt left right n nl nr sepKey sep, sepKey.Is t sep →
      (t.keyOffset = 0 → AwaitsParent t τ s T bt left right n nl nr sep) →
      (ParentReads t τ s (T.halve left right nl nr) bt sepKey sep right ↔ t.keyOffset = 0) := by
  constructor
  · intro s T left right sepKey sep h hs
    constructor
    · intro h'
      rcases h' with ⟨r, s', hr⟩
      exact hr.offset ht h hs
    · intro h'
      rcases h' with ⟨h0, hlive⟩
      exact hs.rootReads ht h0 h hlive
  · intro s T bt left right n nl nr sepKey sep hk ha
    constructor
    · intro h
      exact h.offset ht
    · intro h0
      exact (ha h0).reads (ht.numeric h0) hk

/-- The new root over the halves, and the pair added to the parent. -/
theorem separators_iff_first : ∃ s, Holds firstColumn True s (pairTree.halve 1 2 lowHalf highHalf) ∧
    (∃ r s', RootReads firstColumn s 1 2 (firstColumn.key [1]) r s') ∧
    ParentReads firstColumn True s (pairTree.halve 1 2 lowHalf highHalf) [⟨3, 0⟩] (firstColumn.key [1])
      [1] 2 := by
  have ht : NumberColumn firstColumn := ⟨rfl, .inl rfl⟩
  obtain ⟨s, h⟩ := halvedFile firstColumn rfl
  have hsplits := halvedFile_splits (.inl rfl) h
  have hl := h.nodeAt (p := 1) (n := lowHalf) rfl
  have hlive : FirstLive (s.page 1) := ⟨[0, 0], by rw [hl.2.2.2.1]; rfl⟩
  have hiff := separators_iff firstColumn True ht
  exact ⟨s, h, (hiff.1 s _ 1 2 _ [1] h hsplits).mpr ⟨rfl, hlive⟩,
    (hiff.2 s pairTree [⟨3, 0⟩] 1 2 _ lowHalf highHalf _ [1] hsplits.key fun _ =>
      pairTree_awaits h).mpr rfl⟩

/-- With the key in the second byte the first key of the new root is not read. -/
theorem separators_second : ∃ s T, Holds secondColumn True s T ∧
    SplitsOver secondColumn s T 1 2 (secondColumn.key [1]) [1] ∧ FirstLive (s.page 1) ∧
    ¬ ∃ r s', RootReads secondColumn s 1 2 (secondColumn.key [1]) r s' := by
  obtain ⟨s, h⟩ := halvedFile secondColumn rfl
  have hsplits := halvedFile_splits (.inr rfl) h
  have hl := h.nodeAt (p := 1) (n := lowHalf) rfl
  refine ⟨s, _, h, hsplits, ⟨[0, 0], by rw [hl.2.2.2.1]; rfl⟩, ?_⟩
  intro h'
  rcases h' with ⟨r, s', hr⟩
  have h0 := (hr.offset ⟨rfl, .inl rfl⟩ h hsplits).1
  exact absurd h0 (by decide)

end DbInternals.Index
