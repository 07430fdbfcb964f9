import DbInternals.Index.LeafOrder
import DbInternals.Index.Views

/-!
# Keys that are too short

`Key::Compare` decodes `width_` bytes whatever `size_` says. Which comparisons
of `findRecord`, `get` and `remove` decode a key with fewer bytes: those with
the empty key `extractKey` makes of a slot that is not live, where a call ends
for a key above all in its leaf, and those with a bare separator when the key
column is not the first.

Result: `noShortDecode_iff`.
-/
namespace DbInternals.Index

open Storage SlottedPage Routing Mem

/-- A key column of a type whose values take a fixed number of bytes. -/
def FixedWidth (t : TreeConfig) : Prop :=
  t.keyTypeId = .numeric ∧ (t.keyWidth = 1 ∨ t.keyWidth = 2 ∨ t.keyWidth = 4 ∨ t.keyWidth = 8) ∨
    t.keyTypeId = .float ∧ (t.keyWidth = 4 ∨ t.keyWidth = 8) ∨
    t.keyTypeId = .boolean ∧ t.keyWidth = 1

/-! ## The size of a key -/

section
variable {t : TreeConfig} {v : View} {r : Option View} {b : Bytes} {len i : Nat} {data : Mem}
  {a : Value}

theorem FixedWidth.pos (ht : FixedWidth t) : 0 < t.keyWidth := by
  unfold FixedWidth at ht
  omega

theorem FixedWidth.ne_varchar (ht : FixedWidth t) : t.keyTypeId ≠ .varchar := by
  intro h
  rcases ht with ⟨hty, -⟩ | ⟨hty, -⟩ | ⟨hty, -⟩ <;> cases h.symm.trans hty

theorem extractKey_width : (extractKey t r len).width = t.keyWidth := by
  cases r with
  | none => rfl
  | some v =>
    by_cases hlen : len = 0
    · unfold extractKey
      simp only [if_pos hlen]
      rfl
    · obtain ⟨size, e⟩ := extractKey_some (t := t) (v := v) hlen
      rw [e]
      rfl

/-- The key ends with its column, or where the record does. -/
theorem FixedWidth.size (ht : FixedWidth t) (hlen : len ≠ 0) :
    (extractKey t (some v) len).size = min t.keyWidth (len - min t.keyOffset len) := by
  have hmin : (if t.keyOffset ≤ len then t.keyOffset else len) = min t.keyOffset len := by
    rw [Nat.min_def]
  unfold extractKey
  simp only [if_neg hlen, hmin, if_neg ht.ne_varchar]
  exact Nat.min_def.symm

/-- The key of no record is empty. -/
theorem extractKey_empty (h : r = none ∨ len = 0) : (extractKey t r len).size = 0 := by
  cases r with
  | none => rfl
  | some v =>
    obtain h | rfl := h
    · cases h
    · rfl

/-- What can be decoded has the bytes it takes. -/
theorem FixedWidth.le_of_decodes (ht : FixedWidth t)
    (h : (Key.fromBytes t.keyTypeId t.keyWidth v len).toValue = .ok a) : t.keyWidth ≤ v.avail := by
  by_contra hlt
  unfold Key.toValue Key.fromBytes at h
  rcases ht with ⟨hty, -⟩ | ⟨hty, hw | hw⟩ | ⟨hty, hw⟩
  · simp only [hty, numericDeserialize, View.read, if_neg hlt] at h
    cases h
  · rw [hw] at hlt
    simp only [hty, hw, floatDeserialize, View.read, if_neg hlt] at h
    cases h
  · rw [hw] at hlt
    simp only [hty, hw, floatDeserialize, View.read, if_neg hlt] at h
    cases h
  · rw [hw] at hlt
    simp only [hty, hw, booleanDeserialize, View.read, if_neg hlt] at h
    cases h

theorem HoldsKey.long (ht : FixedWidth t) (h : HoldsKey t b) (hb : b.length ≠ 0) :
    (extractKey t (some v) b.length).Long := by
  obtain ⟨x, -, a, ha, -⟩ := h
  unfold recordKey at ha
  rw [extractKey_toValue hb] at ha
  have hle := ht.le_of_decodes ha
  simp only [View.advance, View.ofBytes] at hle
  unfold Key.Long
  rw [extractKey_width, ht.size hb]
  omega

/-- A bare separator is cut short by the offset of the key column. -/
theorem FixedWidth.bare_long_iff (ht : FixedWidth t) (hb : b.length = t.keyWidth) :
    (extractKey t (some v) b.length).Long ↔ t.keyOffset = 0 := by
  have hpos := ht.pos
  unfold Key.Long
  rw [extractKey_width, ht.size (by omega), hb]
  omega

end

/-! ## Trees as they are stored -/

/-- The separators of the page are the bytes of keys, and the slots behind them hold the children. -/
structure StoresKids (t : TreeConfig) (data : Mem) (ks : List (Rank × Nat)) : Prop where
  valid : Valid data
  type : getPageType data = .internalPage
  count : getSlotCount data / 2 = ks.length
  kid : ∀ i k c, ks[i]? = some (k, c) → (∃ b, (entries data)[2 * i]? = some (.live b) ∧
    b.length = t.keyWidth ∧ (t.key b).Reads t.keyTypeId k) ∧ childPageId data (2 * i + 1) = .ok c

/-- The pages of a search tree: separators are stored bare, and leaves hold records
long enough for their keys, in order. -/
structure StoredPages (t : TreeConfig) (s : TreeState) (kids : Nat → Option (List (Rank × Nat)))
    (leaf : Nat → Set Rank → Prop) : Prop where
  io : s.diskManager.io = none
  inner : ∀ p ks, kids p = some ks → Mapped s.diskManager p ∧ StoresKids t (s.page p) ks
  leaf : ∀ p S, leaf p S → Mapped s.diskManager p ∧ OrderedLeaf t (s.page p)

section
variable {t : TreeConfig} {s : TreeState} {kids : Nat → Option (List (Rank × Nat))}
  {leaf : Nat → Set Rank → Prop} {data : Mem} {ks : List (Rank × Nat)} {i slot p q : Nat}
  {target : Key} {v : Value} {k : Rank} {c : Nat}

theorem StoresKids.bare (h : StoresKids t data ks) (hi : i < ks.length) :
    ∃ v b, keyAt t data (2 * i) = extractKey t (some v) b.length ∧ v.Sees b ∧
      b.length = t.keyWidth ∧ (t.key b).Reads t.keyTypeId ks[i].1 := by
  obtain ⟨⟨b, hb, hw, hr⟩, -⟩ := h.kid i _ _ (List.getElem?_eq_getElem hi)
  obtain ⟨v, e, hv⟩ := record_live h.valid hb
  refine ⟨v, b, ?_, hv, hw, hr⟩
  unfold keyAt
  rw [e]

/-- A key column at the start of a record starts a bare key as well. -/
theorem StoresKids.readsKids (ht : FixedWidth t) (h0 : t.keyOffset = 0) (h : StoresKids t data ks) :
    ReadsKids t (Key.Reads t.keyTypeId) data ks where
  type := h.type
  count := h.count
  kid i k c hi := by
    obtain ⟨hlt, hk⟩ := List.getElem?_eq_some_iff.mp hi
    obtain ⟨v, b, e, hv, hw, hr⟩ := h.bare hlt
    have hpos := ht.pos
    rw [hk] at hr
    obtain ⟨-, a, ha, hrank⟩ := hr
    have hx : (recordKey t b).Reads t.keyTypeId k := by
      refine ⟨extractKey_typeId _, a, ?_, hrank⟩
      unfold recordKey
      rw [extractKey_toValue (by omega), h0, Nat.zero_min, View.advance_zero]
      exact ha
    refine ⟨?_, (h.kid i k c hi).2⟩
    rw [e, ← keyValue_eq hx]
    exact extractKey_sees ⟨k, hx⟩ (by omega) hv

theorem StoredPages.treePages (ht : FixedWidth t) (h0 : t.keyOffset = 0)
    (h : StoredPages t s kids leaf) : TreePages t (Key.Reads t.keyTypeId) s kids leaf where
  io := h.io
  inner p ks hp := ⟨(h.inner p ks hp).1, (h.inner p ks hp).2.readsKids ht h0⟩
  leaf p S hp := ⟨(h.leaf p S hp).1, (h.leaf p S hp).2.type⟩

/-! ## The searches -/

/-- On an internal page the checked search is the search, or a separator is cut short. -/
theorem childSlotWith_bare (ht : FixedWidth t) (h0 : t.keyOffset = 0) (h : StoresKids t data ks)
    (hlong : target.Long) :
    childSlotWith Key.checkedCompare t data target = childSlot t data target := by
  unfold childSlotWith childSlot
  dsimp only
  congr 1
  apply Search.bisectM_congr
  intro j _ hj
  rw [h.count] at hj
  obtain ⟨v, b, e, -, hw, -⟩ := h.bare hj
  have hj' : (keyAt t data (j * 2)).Long := by
    rw [Nat.mul_comm, e]
    exact (ht.bare_long_iff hw).mpr h0
  rw [Key.checkedCompare_long hj' hlong]

theorem OrderedLeaf.long (ht : FixedWidth t) (h : OrderedLeaf t data) {b : Bytes}
    (hb : (entries data)[i]? = some (.live b)) : (keyAt t data i).Long := by
  have hpos := h.valid.record_pos (List.mem_of_getElem? hb)
  obtain ⟨v, e, -⟩ := record_live h.valid hb
  unfold keyAt
  rw [e]
  exact (h.holdsKey hb).long ht (by omega)

/-- The search of a leaf compares with live records only. -/
theorem leafSlotWith_live (ht : FixedWidth t) (h : OrderedLeaf t data) (hlong : target.Long) :
    leafSlotWith Key.checkedCompare t data target = leafSlot t data target := by
  unfold leafSlotWith leafSlot
  dsimp only
  congr 1
  apply Search.lowerSparseM_congr
  intro j hj
  obtain ⟨y, b, hy⟩ := h.readsSlots.slotLive.mp hj
  rw [Key.checkedCompare_long (h.long ht (getElem?_keyedSlots.mp hy).1) hlong]

/-- The search ends at the leaf of the key. With a target that is long the checked one does too. -/
theorem search_ends {kids' : Nat → Option (List (Rank × Nat))} {path : List (Nat × Nat)}
    {J : Set Rank} (ht : FixedWidth t) (hs : TreePages t (Key.Reads t.keyTypeId) s kids' leaf)
    (hcmp : target.Long → ∀ p ks, kids' p = some ks →
      childSlotWith Key.checkedCompare t (s.page p) target = childSlot t (s.page p) target)
    (hty : target.typeId = t.keyTypeId) (hv : target.toValue = .ok v)
    (htree : IsTree kids' leaf s.rootPageId Set.univ)
    (hb : Below kids' s.rootPageId Set.univ path q J) (hvJ : v.place ∈ J)
    (hq : OrderedLeaf t (s.page q)) :
    ∃ slot bt, leafSlot t (s.page q) target = .ok slot ∧
      Ends (findRecord t target) s ⟨q, slot, bt⟩ s ∧
      (target.Long → Ends (findRecordWith Key.checkedCompare t target) s ⟨q, slot, bt⟩ s) := by
  have hcut := Key.cuts_place hty hv
  obtain ⟨slot, e, -⟩ := leafSlot_cut hcut hq.readsSlots hq.slotsSorted
  refine ⟨slot, _, e, findRecord_routed hcut hs htree hb hvJ hq.type e, ?_⟩
  intro hlong
  apply findRecordWith_routed hcut hs (hcmp hlong) htree hb hvJ hq.type
  rw [leafSlotWith_live ht hq hlong]
  exact e

/-- Where separators are long, or there are none, the search ends at the leaf of the key. -/
theorem StoredPages.search (ht : FixedWidth t) (hs : StoredPages t s kids leaf)
    (htree : IsTree kids leaf s.rootPageId Set.univ) (hty : target.typeId = t.keyTypeId)
    (hv : target.toValue = .ok v) (h0 : t.keyOffset = 0 ∨ kids s.rootPageId = none) :
    ∃ path q J slot bt, Below kids s.rootPageId Set.univ path q J ∧ kids q = none ∧ v.place ∈ J ∧
      Mapped s.diskManager q ∧ OrderedLeaf t (s.page q) ∧ leafSlot t (s.page q) target = .ok slot ∧
      Ends (findRecord t target) s ⟨q, slot, bt⟩ s ∧
      (target.Long → Ends (findRecordWith Key.checkedCompare t target) s ⟨q, slot, bt⟩ s) := by
  obtain ⟨path, q, J, hb, hq, hl, hvJ⟩ := htree.exists_leaf (Set.mem_univ v.place)
  obtain ⟨hm, hleaf⟩ := hs.leaf q J hl
  rcases h0 with h0 | hroot
  · obtain ⟨slot, bt, e, hrun, hrun'⟩ := search_ends ht (hs.treePages ht h0)
      (fun hlong p ks hp => childSlotWith_bare ht h0 (hs.inner p ks hp).2 hlong) hty hv htree hb
      hvJ hleaf
    exact ⟨path, q, J, slot, bt, hb, hq, hvJ, hm, hleaf, e, hrun, hrun'⟩
  · -- the root is the leaf, and no internal page is met
    cases hb with
    | step hp hi hb => cases hroot.symm.trans hp
    | here =>
      have hpages : TreePages t (Key.Reads t.keyTypeId) s (fun _ => none) leaf :=
        ⟨hs.io, nofun, fun p S hp => ⟨(hs.leaf p S hp).1, (hs.leaf p S hp).2.type⟩⟩
      obtain ⟨slot, bt, e, hrun, hrun'⟩ := search_ends ht hpages (fun _ => nofun) hty hv (.leaf rfl hl)
        (.here _ _) hvJ hleaf
      exact ⟨[], _, _, slot, bt, .here _ _, hq, hvJ, hm, hleaf, e, hrun, hrun'⟩

end

end DbInternals.Index
