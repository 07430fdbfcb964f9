import DbInternals.Core.Intervals
import DbInternals.Storage.InsertRecord

/-!
# `compactify` loses nothing and leaves no gap

On a page that is laid out in order (`Layout`: dead slots may record any size)
`compactify` keeps the records, drops the dead slots and fills the heap up to
the end of the page. A page that is packed so comes out of it byte for byte as
it went in (`compactify_packed`), so compacting twice is compacting once.

Results: `compactify_lossless`.
-/
namespace DbInternals.SlottedPage

open Mem

/-- Every heap byte belongs to a record. -/
def NoGaps (data : Mem) : Prop :=
  ∀ a, freeSpacePtr data ≤ a → a < PAGE_SIZE →
    ∃ i o n, getRecord data i = (some o, n) ∧ o ≤ a ∧ a < o + n

/-- All slots live, and the heap holds nothing else. -/
structure Packs (data : Mem) : Prop where
  layout : Layout data
  live : ∀ i < maxSlotId data, off data i ≠ 0
  tight : Tight data

section
variable {data : Mem}

/-- The records of a packed page, by descending offset, fill the heap. -/
theorem Packs.stacked (h : Packs data) : ∃ is : List Nat,
    sortedLiveSlots data = is.map slotAddr ∧ is.Perm (List.range (maxSlotId data)) ∧
      Stacked (is.map (slotPair data)) PAGE_SIZE (freeSpacePtr data) := by
  obtain ⟨is, his, hperm, hdesc⟩ := sortedLiveSlots_eq h.layout
  have hidx : liveIdx data = List.range (maxSlotId data) := by
    unfold liveIdx
    apply List.filter_eq_self.mpr
    intro i hi
    have hi' := List.mem_range.mp hi
    rw [isLive_of_lt h.layout.slots_lt hi']
    simpa using h.live i hi'
  rw [hidx] at hperm
  have hmem : ∀ i ∈ is, freeSpacePtr data ≤ off data i ∧ off data i + siz data i ≤ PAGE_SIZE := by
    intro i hi
    have hi' := List.mem_range.mp (hperm.mem_iff.mp hi)
    have hlive := h.layout.live i hi' (h.live i hi')
    exact ⟨hlive.1, hlive.2.1⟩
  refine ⟨is, his, hperm, ?_⟩
  apply Downward.stacked
  · unfold Downward
    exact List.pairwise_map.mpr hdesc
  · intro p hp
    obtain ⟨i, hi, rfl⟩ := List.mem_map.mp hp
    exact (hmem i hi).1
  · intro p hp
    obtain ⟨i, hi, rfl⟩ := List.mem_map.mp hp
    exact (hmem i hi).2
  · -- what the slots record is what the heap holds
    have hsum : ((is.map (slotPair data)).map Prod.snd).sum = heapSize (entries data) := by
      rw [List.map_map, entries, heapSize_map_entryAt]
      exact (hperm.map (siz data)).sum_eq
    rw [hsum]
    exact h.tight

theorem Packs.noGaps (h : Packs data) : NoGaps data := by
  obtain ⟨is, -, hperm, hst⟩ := h.stacked
  intro a h1 h2
  obtain ⟨p, hp, h3, h4⟩ := hst.cover h1 h2
  obtain ⟨i, hi, rfl⟩ := List.mem_map.mp hp
  have hi' := List.mem_range.mp (hperm.mem_iff.mp hi)
  exact ⟨i, _, _, getRecord_live h.layout hi' (h.live i hi'), h3, h4⟩

/-! ## A packed page is left alone -/

/-- Records that are in their places already are not moved. -/
theorem packRecords_stacked : ∀ (is : List Nat) (cur lo : Nat), cur ≤ PAGE_SIZE →
    Stacked (is.map (slotPair data)) cur lo → packRecords (is.map slotAddr) cur data = (lo, data)
  | [], cur, lo, _, h => by
    have hcur : cur = lo := h
    rw [hcur]
    rfl
  | i :: is, cur, lo, hcur, h => by
    obtain ⟨h1, h2⟩ := h
    have hoff : off data i + siz data i = cur := h1
    have hsub : (cur + 2 ^ 16 - slotSize data (slotAddr i)) % 2 ^ 16 = off data i := by
      simp only [siz, PAGE_SIZE] at hoff hcur ⊢
      omega
    have hstay : packOne data (slotAddr i) (off data i) = data := by
      unfold packOne
      exact if_neg fun hne => hne rfl
    rw [List.map_cons, packRecords_cons, hsub, hstay]
    exact packRecords_stacked is (off data i) lo (by omega) h2

/-- With every slot live the filter moves nothing. -/
theorem dropDead_live (hn : 40 + 4 * maxSlotId data ≤ 4096)
    (hl : ∀ i < maxSlotId data, off data i ≠ 0) : ∀ (k i : Nat), i + k = maxSlotId data →
    dropDead k i i data = (i + k, data)
  | 0, _, _ => rfl
  | k + 1, i, hk => by
    have hi : i < maxSlotId data := by omega
    have hlive : slotOffset data (slotAddr i) ≠ 0 := hl i hi
    have ih := dropDead_live hn hl k (i + 1) (by omega)
    simp only [dropDead, getSlot_of_lt hn hi, hlive, ne_eq, not_true_eq_false, not_false_eq_true,
      if_true, if_false]
    rw [ih, Nat.add_right_comm i 1 k]
    rfl

theorem compactify_packed (h : Packs data) : compactify data = data := by
  obtain ⟨is, his, -, hst⟩ := h.stacked
  have hptr : setFreeSpacePtr data (freeSpacePtr data) = data := writeLE_self data 22 2
  have hcount : setMaxSlotId data (maxSlotId data) = data := writeLE_self data 20 2
  have hdrop := dropDead_live h.layout.slots_lt h.live (maxSlotId data) 0 (Nat.zero_add _)
  rw [Nat.zero_add] at hdrop
  unfold compactify
  rw [his, packRecords_stacked is PAGE_SIZE (freeSpacePtr data) (Nat.le_refl _) hst]
  simp only [hptr, hdrop, hcount]

/-! ## What `compactify` makes -/

theorem liveEntries_isLive {es : List Entry} {i : Nat} {e : Entry}
    (h : (liveEntries es)[i]? = some e) : e.isLive = true :=
  (List.mem_filter.mp (List.mem_of_getElem? h)).2

theorem compactify_packs (h : Layout data) : Packs (compactify data) := by
  obtain ⟨hent, hvalid, htight, -⟩ := compactify_layout h
  refine ⟨hvalid.layout, ?_, htight⟩
  intro i hi
  have hget : (entries (compactify data))[i]? = some (entryAt (compactify data) i) := by
    rw [getElem?_entries, if_pos hi]
  rw [hent] at hget
  have hlive := liveEntries_isLive hget
  rw [isLive_entryAt] at hlive
  simpa using hlive

theorem compactify_recordSeq (h : Layout data) : recordSeq (compactify data) = recordSeq data := by
  obtain ⟨hent, hvalid, -, -⟩ := compactify_layout h
  rw [recordSeq_eq hvalid.layout, recordSeq_eq h, hent, liveRecordsOf_liveEntries]

theorem heapSize_liveEntries (es : List Entry) :
    heapSize (liveEntries es) = ((liveRecordsOf es).map List.length).sum := by
  induction es with
  | nil => rfl
  | cons e es ih => cases e <;> simp [ih]

end

/-- Compaction is lossless and maximal: the live records with their bytes, in
slot order, and no other slot; the heap full up to the end of the page; a
second compaction changes no byte. -/
theorem compactify_lossless (data : Mem) (h : Layout data) :
    recordSeq (compactify data) = recordSeq data ∧
      entries (compactify data) = liveEntries (entries data) ∧
      freeSpacePtr (compactify data) + ((recordSeq data).map List.length).sum = PAGE_SIZE ∧
      Layout (compactify data) ∧ NoGaps (compactify data) ∧
      compactify (compactify data) = compactify data := by
  obtain ⟨hent, -, htight, -⟩ := compactify_layout h
  have hpacks := compactify_packs h
  refine ⟨compactify_recordSeq h, hent, ?_, hpacks.layout, hpacks.noGaps, compactify_packed hpacks⟩
  rw [recordSeq_eq h, ← heapSize_liveEntries, ← hent]
  exact htight

/-- Two records, the first one deleted: its byte is reclaimed. -/
theorem compactify_lossless_gap : ∃ data, getSlotCount data = 2 ∧
    recordSeq (compactify data) = [[2, 3]] ∧ freeSpacePtr (compactify data) + 2 = PAGE_SIZE ∧
      compactify (compactify data) = compactify data := by
  obtain ⟨d2, -, he2, hv2, -⟩ := exec_insertRecords [[1], [2, 3]] (by decide) (by decide)
  obtain ⟨d3, -, he3, hv3, -, -⟩ := deleteRecord_spec (i := 0) (b := [1]) hv2 (by rw [he2]; rfl)
  rw [he2] at he3
  have hseq : recordSeq d3 = [[2, 3]] := by rw [recordSeq_eq hv3.layout, he3]; rfl
  obtain ⟨h1, -, h3, -, -, h6⟩ := compactify_lossless d3 hv3.layout
  rw [hseq] at h1 h3
  refine ⟨d3, ?_, h1, h3, h6⟩
  unfold getSlotCount
  rw [← length_entries, he3]
  rfl

end DbInternals.SlottedPage
