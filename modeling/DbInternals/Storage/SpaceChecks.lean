import DbInternals.Storage.InsertRecord
import DbInternals.Storage.SlottedRefine

/-!
# The space checks of the two inserts

`insertRecordAt` against what the live records leave free: under inserts at a
position, deletes and compactions the heap stays tight, so an insert fails
exactly when the page is full (`insertRecordAt_full_iff`).

The checks themselves compare a 16-bit sum: from a length of 65532 on it wraps,
and a record longer than the page is let through (`spaceChecked_iff`).
-/
namespace DbInternals.SlottedPage

open Mem

/-! ## Churn does not shrink a page -/

/-- What the live slots take, slot entries included. -/
def liveCost (data : Mem) : Nat := ((recordSeq data).map fun b => b.length + sizeofSlot).sum

section
variable {data : Mem}

theorem liveCost_eq (h : Layout data) : liveCost data = cost (liveEntries (entries data)) := by
  rw [liveCost, recordSeq_eq h, ← map_liveRecordsOf, cost, List.map_map]
  rfl

/-- A tight page stands for the list read off it. -/
theorem Abs.ofTight (h : Valid data) (ht : Tight data) :
    Abs data ⟨recordsOf data, headerPageId data, getPageType data, getLeftSibling data,
      getRightSibling data, getFreeSpace data⟩ :=
  ⟨h, ht, rfl, rfl, rfl, rfl, rfl, rfl⟩

theorem pageLts_inductive (pageId : Nat) (type : SlottedPageType) :
    (pageLts pageId type).Inductive fun data => Valid data ∧ Tight data where
  init := by
    rintro _ ⟨raw, rfl⟩
    exact ⟨init_valid .., init_tight ..⟩
  step := by
    rintro data ⟨op, res⟩ d ⟨hv, ht⟩ ⟨hop, he⟩
    obtain ⟨res', d', l, e, -, habs⟩ := step_refines (Abs.ofTight hv ht) op hop
    rw [e] at he
    cases he
    exact ⟨habs.valid, habs.tight⟩

end

/-- An ordered insert into a reachable page returns, and it fails exactly when
the live records leave no room, however many tombstones and gaps there are. -/
theorem insertRecordAt_full_iff (pageId : Nat) (type : SlottedPageType) (data : Mem)
    (hr : (pageLts pageId type).Reachable data) (record : Mem) (logicalPos len : Nat)
    (hpos : logicalPos ≤ getSlotCount data) (h1 : 1 ≤ len) (h2 : len ≤ PAGE_SIZE) :
    ∃ res d, insertRecordAt data logicalPos record len = .ok (res, d) ∧
      (res = none ↔ PAGE_SIZE - sizeofHeader < liveCost data + (len + sizeofSlot)) := by
  obtain ⟨hv, ht⟩ := (pageLts_inductive pageId type).reachable hr
  have hfree := ht.totalFree hv
  rw [← liveCost_eq hv.layout] at hfree
  simp only [PAGE_SIZE, sizeofHeader, sizeofSlot] at hfree h2 ⊢
  by_cases hroom : len + 4 ≤ getTotalFreeSpace data
  · have hspec := insertRecordAt_spec record hv h1 hpos hroom
    split at hspec
    · obtain ⟨d, e, -⟩ := hspec
      refine ⟨_, d, e, ?_⟩
      simp only [reduceCtorEq, false_iff]
      omega
    · obtain ⟨d, e, -⟩ := hspec
      refine ⟨_, d, e, ?_⟩
      simp only [reduceCtorEq, false_iff]
      omega
  · refine ⟨none, data, insertRecordAt_none (by omega) (by omega), ?_⟩
    simp only [true_iff]
    omega

theorem Abs.liveCost {data : Mem} {l : SlotList} (h : Abs data l) :
    SlottedPage.liveCost data = usedSpace l.slots := by
  rw [liveCost_eq h.valid.layout, ← usedSpace_records, ← recordsOf, h.slots]

/-- A page with a tombstone, a record of 2000 bytes and 48 contiguous bytes. -/
theorem churned_page : ∃ (b : Bytes) (data : Mem), (pageLts 7 .leafPage).Reachable data ∧
    b.length = 2000 ∧
    Abs data ⟨[none, some b], 7, .leafPage, INVALID_PAGE_ID, INVALID_PAGE_ID, 48⟩ := by
  obtain ⟨data, hrun, habs⟩ := (slot_simulates (by decide) .leafPage).exec
    (churned_exec (a := List.replicate 2000 1) (b := List.replicate 2000 2)
      List.length_replicate List.length_replicate)
  exact ⟨_, data, ⟨_, hrun⟩, List.length_replicate, habs⟩

/-- Such a page is compacted for a record of 100 bytes, and refuses one of 3000. -/
theorem insertRecordAt_full_iff_churned : ∃ data, (pageLts 7 .leafPage).Reachable data ∧
    getRecord data 0 = (none, 0) ∧ canInsertContigious data 100 true = false ∧
    (∃ i d, insertRecordAt data 1 Mem.zero 100 = .ok (some i, d)) ∧
    ∃ d, insertRecordAt data 1 Mem.zero 3000 = .ok (none, d) := by
  obtain ⟨b, data, hr, hb, habs⟩ := churned_page
  have hcost : SlottedPage.liveCost data = 2004 := by
    rw [habs.liveCost]
    simp [usedSpace, hb, sizeofSlot]
  have hpos : 1 ≤ getSlotCount data := by
    rw [habs.refines.count]
    exact Nat.le_succ 1
  refine ⟨data, hr, habs.refines.absent 0 (by simp), ?_, ?_, ?_⟩
  · rw [Bool.eq_false_iff, Ne, habs.contiguous]
    exact Nat.not_le.mpr (show 48 < 100 + sizeofSlot by decide)
  · obtain ⟨res, d, e, hiff⟩ := insertRecordAt_full_iff 7 .leafPage data hr Mem.zero 1 100 hpos
      (by decide) (by decide)
    rw [hcost] at hiff
    obtain ⟨i, rfl⟩ := Option.ne_none_iff_exists'.mp (mt hiff.mp (by decide))
    exact ⟨i, d, e⟩
  · obtain ⟨res, d, e, hiff⟩ := insertRecordAt_full_iff 7 .leafPage data hr Mem.zero 1 3000 hpos
      (by decide) (by decide)
    rw [hcost] at hiff
    obtain rfl := hiff.mpr (by decide)
    exact ⟨d, e⟩

/-! ## The 16-bit sum -/

/-- What a record costs in slots: nothing where a tombstone is taken over. -/
def slotCost (data : Mem) : Nat :=
  if findFirstFreeSlotId data = maxSlotId data then sizeofSlot else 0

/-- Both inserts refuse what the free space cannot hold, and neither touches a
byte past the page. -/
structure SpaceChecked (data record : Mem) (logicalPos len : Nat) : Prop where
  insertRecord : getTotalFreeSpace data < len + slotCost data →
    SlottedPage.insertRecord data record len = .ok (none, data)
  insertRecordAt : getTotalFreeSpace data < len + sizeofSlot →
    SlottedPage.insertRecordAt data logicalPos record len = .ok (none, data)
  inside : ∀ res d, SlottedPage.insertRecord data record len = .ok (res, d) ∨
      SlottedPage.insertRecordAt data logicalPos record len = .ok (res, d) →
    ∀ a, PAGE_SIZE ≤ a → d a = data a

/-- The 16-bit sum of length and slot wraps to what is free, in an insert that
takes a new slot. -/
def SumWraps (data : Mem) (logicalPos len : Nat) : Prop :=
  2 ^ 16 ≤ len + sizeofSlot ∧ len + sizeofSlot - 2 ^ 16 ≤ getTotalFreeSpace data ∧
    (findFirstFreeSlotId data = maxSlotId data ∨ logicalPos ≤ maxSlotId data)

section
variable {data d record : Mem} {pos len slotId : Nat} {needsNewSlot : Bool}

theorem placeRecord_ne_none :
    placeRecord data slotId needsNewSlot record len ≠ .ok (none, d) := by
  intro h
  unfold placeRecord at h
  dsimp only at h
  split at h <;> simp at h

/-- Past the wrap `insertRecord` stores the record. -/
theorem insertRecord_wraps (hlen : len < 2 ^ 16) (hw : 2 ^ 16 ≤ len + 4)
    (hfree : len + 4 - 2 ^ 16 ≤ getTotalFreeSpace data)
    (hnew : findFirstFreeSlotId data = maxSlotId data) :
    insertRecord data record len ≠ .ok (none, d) := by
  intro h
  have hsum : (len + 4) % 2 ^ 16 = len + 4 - 2 ^ 16 := by omega
  unfold insertRecord at h
  rw [if_neg (show ¬ len = 0 by omega)] at h
  simp only [hnew, decide_true, if_true, sizeofSlot, hsum,
    if_neg (show ¬ len + 4 - 2 ^ 16 > getTotalFreeSpace data by omega)] at h
  exact placeRecord_ne_none h

/-- A page without tombstones has room for one more slot entry. -/
theorem Layout.slots_room (h : Layout data) (hlive : ∀ i < maxSlotId data, off data i ≠ 0) :
    40 + 4 * (maxSlotId data + 1) ≤ 4096 := by
  have h1 := h.slots_le
  simp only [slotAddr_eq] at h1
  by_cases h0 : maxSlotId data = 0
  · omega
  · have h2 := h.live 0 (by omega) (hlive 0 (by omega))
    simp only [PAGE_SIZE] at h2
    omega

/-- A record that reaches past the page leaves a slot that points past it. -/
theorem placeRecordAt_breaks (record : Mem) (h : Layout data) (hlive : ∀ i < maxSlotId data, off data i ≠ 0)
    (hpos : pos ≤ maxSlotId data) (hlen : len < 2 ^ 16) (hw : 2 ^ 16 ≤ len + 4) :
    ∃ d, placeRecordAt data pos record len = .ok (some pos, d) ∧ ¬ Valid d := by
  have hroom := h.slots_room hlive
  have h1 := h.slots_le
  have h2 := h.heap_le
  simp only [slotAddr_eq, PAGE_SIZE] at h1 h2
  unfold placeRecordAt
  generalize ho : (freeSpacePtr data + 2 ^ 16 - len) % 2 ^ 16 = newOffset
  simp only
  generalize hd : (setFreeSpacePtr data newOffset).copy newOffset record len = d₁
  have hmax : maxSlotId d₁ = maxSlotId data := by
    rw [← hd]
    unfold maxSlotId
    rw [readLE_copy_frame (by omega)]
    exact readLE_writeLE_frame (by omega)
  obtain ⟨hcount, -, -, -⟩ := openGap_spec d₁ pos (by omega) (by omega)
  rw [getSlot_of_lt (by omega) (show pos < maxSlotId (openGap d₁ pos) by omega)]
  obtain ⟨hslot, -, hframe⟩ := setSlot_spec (openGap d₁ pos) pos (show newOffset < 2 ^ 16 by omega) hlen
  refine ⟨_, rfl, ?_⟩
  intro hv
  have hcount' : maxSlotId (setSlot (openGap d₁ pos) (slotAddr pos) newOffset len) =
      maxSlotId (openGap d₁ pos) :=
    readLE_congr fun a _ _ => hframe a (by simp only [slotAddr_eq]; omega)
  have hoff := congrArg Prod.fst hslot
  have hsiz := congrArg Prod.snd hslot
  simp only [slotPair] at hoff hsiz
  have hin := (hv.live pos (by omega) (by rw [hoff]; omega)).2.1
  rw [hoff, hsiz] at hin
  simp only [PAGE_SIZE] at hin
  omega

/-- Past the wrap `insertRecordAt` stores the record and breaks the page. -/
theorem insertRecordAt_breaks (record : Mem) (h : Valid data) (hlen : len < 2 ^ 16) (hw : 2 ^ 16 ≤ len + 4)
    (hfree : len + 4 - 2 ^ 16 ≤ getTotalFreeSpace data) (hpos : pos ≤ maxSlotId data) :
    ∃ i d, insertRecordAt data pos record len = .ok (some i, d) ∧ ¬ Valid d := by
  have hsum : (len + 4) % 2 ^ 16 = len + 4 - 2 ^ 16 := by omega
  have hslots := h.slots_le
  have hheap := h.heap_le
  simp only [slotAddr_eq, PAGE_SIZE] at hslots hheap
  have hcan : ¬ canInsertContigious data len true = true := by
    rw [canInsertContigious_iff h, if_pos rfl, slotAddr_eq]
    omega
  obtain ⟨hent, hvalid, -, -⟩ := compactify_spec h
  have hlive : ∀ i < maxSlotId (compactify data), off (compactify data) i ≠ 0 := by
    intro i hi h0
    have hmem : entryAt (compactify data) i ∈ liveEntries (entries data) := by
      rw [← hent]
      exact List.mem_map_of_mem (List.mem_range.mpr hi)
    have hl := (List.mem_filter.mp hmem).2
    rw [isLive_entryAt, h0] at hl
    cases hl
  have hle : liveBefore (entries data) pos ≤ maxSlotId (compactify data) := by
    rw [← length_entries, hent]
    exact liveBefore_le _ _
  obtain ⟨d, e, hbroken⟩ := placeRecordAt_breaks record hvalid.layout hlive hle hlen hw
  refine ⟨liveBefore (entries data) pos, d, ?_, hbroken⟩
  unfold insertRecordAt
  rw [if_neg (show ¬ len = 0 by omega), if_neg (show ¬ pos > maxSlotId data by omega)]
  simp only [sizeofSlot, hsum, if_neg (show ¬ len + 4 - 2 ^ 16 > getTotalFreeSpace data by omega),
    if_neg hcan, countP_isLive h hpos]
  exact e

theorem Valid.totalFree_le (h : Valid data) : getTotalFreeSpace data ≤ 4056 := by
  have h1 := getTotalFreeSpace_eq h
  have h2 := h.cost_le
  have h3 := cost_live_dead (entries data)
  have h4 := h.slots_le
  simp only [slotAddr_eq, PAGE_SIZE] at h1 h2 h4
  omega

/-- `insertRecord` refuses by its sum. -/
theorem insertRecord_refuses (h : getTotalFreeSpace data < (len + slotCost data) % 2 ^ 16) :
    insertRecord data record len = .ok (none, data) := by
  unfold insertRecord
  split
  · rfl
  · apply if_pos
    unfold slotCost at h
    simpa using h

/-- `insertRecordAt` refuses by its sum, or for its position. -/
theorem insertRecordAt_refuses
    (h : maxSlotId data < pos ∨ getTotalFreeSpace data < (len + 4) % 2 ^ 16) :
    insertRecordAt data pos record len = .ok (none, data) := by
  unfold insertRecordAt
  split
  · rfl
  split
  · rfl
  apply if_pos
  simp only [sizeofSlot]
  omega

/-- `insertRecordAt` takes what has room. -/
theorem insertRecordAt_accepts (record : Mem) (h : Valid data) (hlen : 0 < len)
    (hfree : len + 4 ≤ getTotalFreeSpace data) (hpos : pos ≤ maxSlotId data) :
    ∃ i d, insertRecordAt data pos record len = .ok (some i, d) := by
  have hspec := insertRecordAt_spec record h hlen hpos hfree
  split at hspec
  · obtain ⟨d, e, -⟩ := hspec
    exact ⟨pos, d, e⟩
  · obtain ⟨d, e, -⟩ := hspec
    exact ⟨liveBefore (entries data) pos, d, e⟩

/-- A record that is stored below the wrap stays inside the page. -/
theorem insertRecord_inside (h : Valid data) (hlen : len + 4 < 2 ^ 16) {res : Option Nat}
    (he : insertRecord data record len = .ok (res, d)) : SameMeta data d := by
  by_cases h0 : len = 0
  · unfold insertRecord at he
    rw [if_pos h0] at he
    cases he
    exact SameMeta.refl data
  have hc := insertRecord_cases record h (Nat.pos_of_ne_zero h0) hlen
  rw [he] at hc
  cases hc with
  | none => exact SameMeta.refl data
  | append _ hi => exact hi.sameMeta
  | reuse _ _ _ _ hm => exact hm
  | overwrite _ _ _ _ _ _ hm => exact hm

theorem insertRecordAt_inside (h : Valid data) (hlen : len + 4 < 2 ^ 16) {res : Option Nat}
    (he : insertRecordAt data pos record len = .ok (res, d)) : SameMeta data d := by
  by_cases hc : 0 < len ∧ pos ≤ maxSlotId data ∧ len + 4 ≤ getTotalFreeSpace data
  · have hs := insertRecordAt_spec record h hc.1 hc.2.1 hc.2.2
    split at hs
    · obtain ⟨d', e, hi⟩ := hs
      rw [he] at e
      cases e
      exact hi.sameMeta
    · obtain ⟨d', e, hi⟩ := hs
      rw [he] at e
      cases e
      exact (compactify_sameMeta h).trans hi.sameMeta
  · rw [insertRecordAt_none hlen (by omega)] at he
    cases he
    exact SameMeta.refl data

theorem slotCost_le (data : Mem) : slotCost data ≤ 4 := by
  unfold slotCost sizeofSlot
  split <;> omega

theorem SpaceChecked.not_wraps (hlen : len < 2 ^ 16) (h : SpaceChecked data record pos len)
    (hv : Valid data) : ¬ SumWraps data pos len := by
  have hfull := hv.totalFree_le
  intro h'
  rcases h' with ⟨hw, hle, hnew | hpos⟩
  · simp only [sizeofSlot] at hw hle
    exact insertRecord_wraps hlen hw hle hnew (h.insertRecord (by omega))
  · simp only [sizeofSlot] at hw hle
    obtain ⟨i, d, e, -⟩ := insertRecordAt_breaks record hv hlen hw hle hpos
    rw [h.insertRecordAt (by simp only [sizeofSlot]; omega)] at e
    cases e

theorem spaceChecked_of_lt (h : Valid data) (hlen : len + 4 < 2 ^ 16) :
    SpaceChecked data record pos len where
  insertRecord hfull := by
    have hcost := slotCost_le data
    exact insertRecord_refuses (by rw [Nat.mod_eq_of_lt (by omega)]; exact hfull)
  insertRecordAt hfull := by
    simp only [sizeofSlot] at hfull
    exact insertRecordAt_refuses (.inr (by rw [Nat.mod_eq_of_lt (by omega)]; exact hfull))
  inside res d he a ha := by
    rcases he with he | he
    · exact insertRecord_inside h hlen he a (.inr (.inr ha))
    · exact insertRecordAt_inside h hlen he a (.inr (.inr ha))

/-- A sum that wraps to more than what is free is refused after all. -/
theorem spaceChecked_of_ge (h : Valid data) (hlen : len < 2 ^ 16) (hw : 2 ^ 16 ≤ len + 4)
    (hn : ¬ SumWraps data pos len) : SpaceChecked data record pos len := by
  have hfree := h.totalFree_le
  simp only [SumWraps, sizeofSlot, not_and, not_or, Nat.not_le] at hn
  have hfull : getTotalFreeSpace data < (len + slotCost data) % 2 ^ 16 := by
    unfold slotCost sizeofSlot
    split
    · next hnew =>
      by_contra hge
      have := (hn hw (by omega)).1
      exact this hnew
    · omega
  have hfullAt : maxSlotId data < pos ∨ getTotalFreeSpace data < (len + 4) % 2 ^ 16 := by
    by_cases hle : len + 4 - 2 ^ 16 ≤ getTotalFreeSpace data
    · exact .inl (hn hw hle).2
    · exact .inr (by omega)
  have e1 : insertRecord data record len = .ok (none, data) := insertRecord_refuses hfull
  have e2 : insertRecordAt data pos record len = .ok (none, data) := insertRecordAt_refuses hfullAt
  refine ⟨fun _ => e1, fun _ => e2, ?_⟩
  intro res d h' a _
  rcases h' with he | he
  · rw [e1] at he
    cases he
    rfl
  · rw [e2] at he
    cases he
    rfl

end

/-- On a well-laid-out page the two inserts refuse what does not fit, and stay
inside the page, exactly when the sum does not wrap to what is free. -/
theorem spaceChecked_iff (data record : Mem) (logicalPos len : Nat) (h : Valid data)
    (hlen : len < 2 ^ 16) :
    SpaceChecked data record logicalPos len ↔ ¬ SumWraps data logicalPos len := by
  constructor
  · exact fun hs => hs.not_wraps hlen h
  · intro hn
    by_cases hw : 2 ^ 16 ≤ len + 4
    · exact spaceChecked_of_ge h hlen hw hn
    · exact spaceChecked_of_lt h (by omega)

/-- A record of 65535 bytes, on a page with a tombstone and for a position past its slots. -/
theorem spaceChecked_iff_churned : ∃ data, getRecord data 0 = (none, 0) ∧
    getSlotCount data = 2 ∧ SpaceChecked data Mem.zero 3 65535 := by
  obtain ⟨b, data, -, -, habs⟩ := churned_page
  have hcount : maxSlotId data = 2 := habs.length.symm
  refine ⟨data, habs.refines.absent 0 (by simp), hcount, ?_⟩
  apply (spaceChecked_iff data Mem.zero 3 65535 habs.valid (by decide)).mpr
  rintro ⟨-, -, hnew | hpos⟩
  · -- slot 0 is taken over, so no slot is added to the sum
    obtain ⟨hlt, -⟩ | ⟨-, hnil⟩ := findFirstFreeSlotId_spec habs.valid
    · omega
    · have hdead : (entries data)[0]?.map Entry.record? = some none := by
        rw [← List.getElem?_map, ← recordsOf, habs.slots]
        rfl
      obtain ⟨e, he, hnone⟩ := Option.map_eq_some_iff.mp hdead
      cases e with
      | live b => cases hnone
      | dead n => exact deadEntries_of_getElem? he hnil
  · omega

/-- An empty page takes a record of 65532 bytes. -/
theorem spaceChecked_fails : ¬ SpaceChecked (init Mem.zero 1 .leafPage) Mem.zero 0 65532 := by
  intro h
  refine h.not_wraps (by decide) (init_valid ..) ⟨by decide, ?_, .inr (Nat.zero_le _)⟩
  simp [sizeofSlot]

end DbInternals.SlottedPage
