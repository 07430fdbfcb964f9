import DbInternals.Storage.SlottedLayout

/-!
# `compactify` on a well-laid-out page

`packRecords` walks the live slots by descending offset. The invariant of
its loop is that the records still to move all end at or below the packing
pointer, so a move never runs over one of them (`Packed`,
`packRecords_spec`). `dropDead` filters the slot array in place; its write
index never runs ahead of its read index (`dropDead_spec`).

`compactify_layout`: the entries are the live entries in slot order, the page
is tight, and nothing but the slot array, the heap and the two header
fields they own has changed. What dead slots record does not matter.
-/
namespace DbInternals.SlottedPage

open Mem

/-! ## Packing -/

/-- What packing the slots `is` of a page with `n` slots below `cur` leaves. -/
structure Packed (n : Nat) (is : List Nat) (cur : Nat) (data : Mem) (r : Nat × Mem) : Prop where
  ptr : r.1 + (is.map (siz data)).sum = cur
  low : 40 + 4 * n ≤ r.1
  siz : ∀ j < n, siz r.2 j = siz data j
  other : ∀ j < n, j ∉ is → off r.2 j = off data j
  range : ∀ i ∈ is, r.1 ≤ off r.2 i ∧ off r.2 i + SlottedPage.siz data i ≤ cur
  bytes : ∀ i ∈ is, r.2.slice (off r.2 i) (SlottedPage.siz data i) =
    data.slice (off data i) (SlottedPage.siz data i)
  desc : is.Pairwise fun i j => off r.2 j + SlottedPage.siz data j ≤ off r.2 i
  frame : ∀ a, a < 40 ∨ 40 + 4 * n ≤ a → a < r.1 ∨ cur ≤ a → r.2 a = data a

/-- One record moved up to end at `cur`. -/
def packOne (data : Mem) (slot cur' : Nat) : Mem :=
  if slotOffset data slot ≠ cur' then
    (data.copy cur' (data.shift (slotOffset data slot)) (slotSize data slot)).writeLE slot 2 cur'
  else data

section
variable {data : Mem} {n i cur' : Nat}

theorem packOne_off (hc : cur' < 2 ^ 16) : off (packOne data (slotAddr i) cur') i = cur' := by
  unfold packOne
  split
  · rw [off, slotOffset, readLE_writeLE, Nat.mod_eq_of_lt (by omega)]
  · next h => exact Classical.not_not.mp h

theorem packOne_siz (hn : 40 + 4 * n ≤ cur') {j : Nat} (hj : j < n) :
    siz (packOne data (slotAddr i) cur') j = siz data j := by
  unfold packOne
  split
  · rw [siz_eq, slotAddr_eq, readLE_writeLE_frame (by omega), readLE_copy_frame (by omega), siz_eq]
  · rfl

theorem packOne_other (hn : 40 + 4 * n ≤ cur') {j : Nat} (hj : j < n) (hij : j ≠ i) :
    off (packOne data (slotAddr i) cur') j = off data j := by
  unfold packOne
  split
  · rw [off_eq, slotAddr_eq, readLE_writeLE_frame (by omega), readLE_copy_frame (by omega), off_eq]
  · rfl

theorem packOne_bytes (hn : 40 + 4 * n ≤ cur') (hi : i < n) :
    (packOne data (slotAddr i) cur').slice cur' (siz data i) =
      data.slice (off data i) (siz data i) := by
  unfold packOne
  split
  · rw [slice_writeLE_frame (by simp only [slotAddr_eq]; omega)]
    change (data.copy cur' (data.shift (off data i)) (siz data i)).slice cur' (siz data i) = _
    rw [slice_copy, slice_shift]; rfl
  · next h => rw [← Classical.not_not.mp h]; rfl

theorem packOne_frame (hi : i < n) {a : Nat} (h : a < 40 ∨ 40 + 4 * n ≤ a)
    (h' : a < cur' ∨ cur' + siz data i ≤ a) : packOne data (slotAddr i) cur' a = data a := by
  unfold packOne
  split
  · rw [writeLE_out (by simp only [slotAddr_eq]; omega), copy_out]
    rcases h' with h' | h'
    · exact .inl h'
    · exact .inr h'
  · rfl

end

theorem packRecords_cons (slot cur : Nat) (slots : List Nat) (data : Mem) :
    packRecords (slot :: slots) cur data =
      packRecords slots ((cur + 2 ^ 16 - slotSize data slot) % 2 ^ 16)
        (packOne data slot ((cur + 2 ^ 16 - slotSize data slot) % 2 ^ 16)) := rfl

theorem packRecords_spec {n : Nat} : ∀ (is : List Nat) (cur : Nat) (data : Mem),
    (∀ i ∈ is, i < n) → is.Nodup → 40 + 4 * n ≤ cur → cur ≤ PAGE_SIZE →
    (is.Pairwise fun i j => off data j + siz data j ≤ off data i) →
    (∀ i ∈ is, 40 + 4 * n ≤ off data i ∧ off data i + siz data i ≤ cur) →
    Packed n is cur data (packRecords (is.map slotAddr) cur data)
  | [], cur, data, _, _, hn, _, _, _ =>
    ⟨by simp [packRecords], hn, fun _ _ => rfl, fun _ _ _ => rfl, by simp, by simp,
      .nil, fun _ _ _ => rfl⟩
  | i :: is, cur, data, hlt, hnd, hn, hcur, hdesc, hin => by
    simp only [PAGE_SIZE] at hcur
    have hi := hlt i List.mem_cons_self
    obtain ⟨hlow, hend⟩ := hin i List.mem_cons_self
    obtain ⟨hi', hnd'⟩ := List.nodup_cons.mp hnd
    obtain ⟨hdi, hdesc'⟩ := List.pairwise_cons.mp hdesc
    rw [List.map_cons, packRecords_cons]
    have hc : (cur + 2 ^ 16 - slotSize data (slotAddr i)) % 2 ^ 16 = cur - siz data i := by
      simp only [siz] at hend ⊢; omega
    rw [hc]
    -- the pointer after this record: still above every record not yet moved
    generalize hcv : cur - siz data i = cur'
    have hcn : 40 + 4 * n ≤ cur' := by omega
    have ho : ∀ j ∈ is, off (packOne data (slotAddr i) cur') j = off data j := fun j hj =>
      packOne_other hcn (hlt j (List.mem_cons_of_mem i hj)) fun e => hi' (e ▸ hj)
    have hs : ∀ j ∈ is, siz (packOne data (slotAddr i) cur') j = siz data j := fun j hj =>
      packOne_siz hcn (hlt j (List.mem_cons_of_mem i hj))
    have ih := packRecords_spec is cur' (packOne data (slotAddr i) cur')
      (fun j hj => hlt j (List.mem_cons_of_mem i hj)) hnd' hcn (by simp only [PAGE_SIZE]; omega)
      (hdesc'.imp_of_mem fun ha hb h => by rw [ho _ ha, ho _ hb, hs _ hb]; exact h)
      (fun j hj => by
        rw [ho j hj, hs j hj]
        have := hdi j hj
        exact ⟨(hin j (List.mem_cons_of_mem i hj)).1, by omega⟩)
    generalize packRecords (is.map slotAddr) cur' (packOne data (slotAddr i) cur') = r at ih ⊢
    have hmap : (is.map (siz (packOne data (slotAddr i) cur'))) = is.map (siz data) :=
      List.map_congr_left hs
    have hptr := ih.ptr
    rw [hmap] at hptr
    -- slot `i` is not among the rest: its offset stays the one just written
    have hoff : off r.2 i = cur' := by
      rw [ih.other i hi hi', packOne_off (by omega)]
    have hb : ∀ a, cur' ≤ a → r.2 a = packOne data (slotAddr i) cur' a := fun a ha =>
      ih.frame a (.inr (by omega)) (.inr ha)
    refine ⟨by simp; omega, ih.low, ?_, ?_, ?_, ?_, ?_, ?_⟩
    · intro j hj; rw [ih.siz j hj, packOne_siz hcn hj]
    · intro j hj hjm
      obtain ⟨h1, h2⟩ := not_or.mp fun e => hjm (List.mem_cons.mpr e)
      rw [ih.other j hj h2, packOne_other hcn hj h1]
    · intro j hj
      rcases List.mem_cons.mp hj with rfl | hj
      · rw [hoff]; exact ⟨by omega, by omega⟩
      · have := ih.range j hj
        rw [hs j hj] at this
        exact ⟨this.1, by omega⟩
    · intro j hj
      rcases List.mem_cons.mp hj with rfl | hj
      · rw [hoff, ← packOne_bytes hcn hi]
        exact slice_congr fun k _ => hb _ (by omega)
      · have h1 := ih.bytes j hj
        rw [hs j hj, ho j hj] at h1
        rw [h1]
        have h2 := hdi j hj
        have h3 := (hin j (List.mem_cons_of_mem i hj)).1
        exact slice_congr fun k hk => packOne_frame hi (.inr (by omega)) (.inl (by omega))
    · refine List.pairwise_cons.mpr ⟨fun j hj => ?_, ih.desc.imp_of_mem fun _ hb h => ?_⟩
      · rw [hoff]
        have := (ih.range j hj).2
        rwa [hs j hj] at this
      · rwa [hs _ hb] at h
    · intro a h1 h2
      rw [ih.frame a h1 (by omega), packOne_frame hi h1 (by omega)]

/-! ## The slots in packing order -/

/-- The indices of the live slots. -/
def liveIdx (data : Mem) : List Nat := (List.range (maxSlotId data)).filter (isLive data)

theorem mem_liveIdx {data : Mem} (hn : 40 + 4 * maxSlotId data ≤ 4096) {i : Nat} :
    i ∈ liveIdx data ↔ i < maxSlotId data ∧ off data i ≠ 0 := by
  simp only [liveIdx, List.mem_filter, List.mem_range]
  constructor
  · rintro ⟨h1, h2⟩; rw [isLive_of_lt hn h1] at h2; exact ⟨h1, by simpa using h2⟩
  · rintro ⟨h1, h2⟩; rw [isLive_of_lt hn h1]; exact ⟨h1, by simpa using h2⟩

theorem nodup_liveIdx (data : Mem) : (liveIdx data).Nodup := List.nodup_range.filter _

/-- `sortedLiveSlots` is the live slots by strictly descending records. -/
theorem sortedLiveSlots_eq {data : Mem} (h : Layout data) : ∃ is : List Nat,
    sortedLiveSlots data = is.map slotAddr ∧ is.Perm (liveIdx data) ∧
      is.Pairwise fun i j => off data j + siz data j ≤ off data i := by
  let r : Nat → Nat → Prop := fun i j => off data i ≥ off data j
  have e : (liveIdx data).filterMap (getSlot data) = (liveIdx data).map slotAddr := by
    rw [← List.filterMap_eq_map']
    refine List.filterMap_congr fun i hi => ?_
    exact getSlot_of_lt h.slots_lt ((mem_liveIdx h.slots_lt).mp hi).1
  have hp := List.perm_insertionSort r (liveIdx data)
  refine ⟨(liveIdx data).insertionSort r, ?_, hp, ?_⟩
  · change ((liveIdx data).filterMap (getSlot data)).insertionSort _ = _
    rw [e]
    exact (List.map_insertionSort r (fun a b => slotOffset data a ≥ slotOffset data b) slotAddr
      (liveIdx data) fun _ _ _ _ => Iff.rfl).symm
  · have : Std.Total r := ⟨fun a b => Nat.le_total _ _⟩
    have : IsTrans Nat r := ⟨fun a b c h1 h2 => Nat.le_trans h2 h1⟩
    have hs := List.pairwise_insertionSort r (liveIdx data)
    have hnd : ((liveIdx data).insertionSort r).Nodup := hp.nodup_iff.mpr (nodup_liveIdx data)
    refine (hs.and hnd).imp_of_mem fun {i j} hi hj hij => ?_
    obtain ⟨hi1, hi2⟩ := (mem_liveIdx h.slots_lt).mp (hp.mem_iff.mp hi)
    obtain ⟨hj1, hj2⟩ := (mem_liveIdx h.slots_lt).mp (hp.mem_iff.mp hj)
    have h1 : off data j ≤ off data i := hij.1
    have h2 := (h.live i hi1 hi2).2.2
    rcases h.disjoint i hi1 j hj1 hij.2 hi2 hj2 with h3 | h3
    · omega
    · exact h3

/-! ## Dropping the dead entries -/

/-- A slot as the pair `(offset, size)`. -/
def slotPair (data : Mem) (i : Nat) : Nat × Nat := (off data i, siz data i)

def livePair (p : Nat × Nat) : Bool := p.1 != 0

theorem livePair_iff {data : Mem} {i : Nat} : livePair (slotPair data i) = true ↔ off data i ≠ 0 := by
  simp [livePair, slotPair]

theorem slotPair_congr {m m' : Mem} {i : Nat}
    (h : ∀ a, slotAddr i ≤ a → a < slotAddr i + 4 → m a = m' a) : slotPair m i = slotPair m' i := by
  rw [slotPair, slotPair, off_congr h, siz_congr h]

/-- The in-place filter: the slots kept so far, then the live ones still to
read; only slots from `w` on are written. -/
theorem dropDead_spec : ∀ (k i w : Nat) (data : Mem), i + k = maxSlotId data →
    40 + 4 * maxSlotId data ≤ 4096 → w ≤ i →
    (List.range (dropDead k i w data).1).map (slotPair (dropDead k i w data).2) =
        (List.range w).map (slotPair data) ++
          ((List.range' i k).map (slotPair data)).filter livePair ∧
      (∀ a, a < 40 + 4 * w ∨ 40 + 4 * maxSlotId data ≤ a → (dropDead k i w data).2 a = data a)
  | 0, _, _, _, _, _, _ => by simp [dropDead]
  | k + 1, i, w, data, hk, hn, hw => by
    have hi : i < maxSlotId data := by omega
    rw [List.range'_succ, List.map_cons]
    simp only [dropDead, getSlot_of_lt hn hi]
    by_cases h0 : off data i = 0
    · have h0' : slotOffset data (slotAddr i) = 0 := h0
      simp only [h0', ne_eq, not_true_eq_false, if_false]
      obtain ⟨h1, h2⟩ := dropDead_spec k (i + 1) w data (by omega) hn (by omega)
      refine ⟨?_, h2⟩
      rw [h1, List.filter_cons_of_neg fun e => livePair_iff.mp e h0]
    · have h0' : ¬ slotOffset data (slotAddr i) = 0 := h0
      simp only [h0', ne_eq, not_false_eq_true, if_true, getSlot_of_lt hn (show w < _ by omega)]
      have hlive := livePair_iff.mpr h0
      by_cases hwi : w = i
      · subst hwi
        simp only [not_true_eq_false, if_false]
        obtain ⟨h1, h2⟩ := dropDead_spec k (w + 1) (w + 1) data (by omega) hn (by omega)
        refine ⟨?_, fun a ha => h2 a (by omega)⟩
        rw [h1, List.filter_cons_of_pos hlive, List.range_succ, List.map_append]
        simp
      · simp only [hwi, not_false_eq_true, if_true]
        -- slot `w` becomes slot `i`; the slots still to read are above it
        generalize hd : data.copy (slotAddr w) (data.shift (slotAddr i)) sizeofSlot = d
        have hout : ∀ a, a < slotAddr w ∨ slotAddr w + 4 ≤ a → d a = data a := fun a ha => by
          rw [← hd]; exact copy_out ha
        have hmax : maxSlotId d = maxSlotId data :=
          readLE_congr fun a _ h2 => hout a (by simp only [slotAddr_eq]; omega)
        have hpair : ∀ j, j ≠ w → slotPair d j = slotPair data j := fun j hj =>
          slotPair_congr fun a h1 h2 => hout a (by simp only [slotAddr_eq] at *; omega)
        have hpw : slotPair d w = slotPair data i := by
          have e1 : off d w = off data i := by
            rw [off, slotOffset, ← hd, readLE_copy_at (Nat.le_refl _) (by simp [sizeofSlot]),
              Nat.sub_self, readLE_shift]; rfl
          have e2 : siz d w = siz data i := by
            rw [siz, slotSize, ← hd, readLE_copy_at (by omega) (by simp [sizeofSlot]),
              readLE_shift, Nat.add_sub_cancel_left]; rfl
          rw [slotPair, slotPair, e1, e2]
        obtain ⟨h1, h2⟩ := dropDead_spec k (i + 1) (w + 1) d (by omega) (by omega) (by omega)
        refine ⟨?_, fun a ha => ?_⟩
        · have e1 : (List.range w).map (slotPair d) = (List.range w).map (slotPair data) :=
            List.map_congr_left fun j hj => hpair j (by have := List.mem_range.mp hj; omega)
          have e2 : (List.range' (i + 1) k).map (slotPair d) =
              (List.range' (i + 1) k).map (slotPair data) :=
            List.map_congr_left fun j hj => hpair j (by have := (List.mem_range'_1.mp hj).1; omega)
          rw [h1, List.filter_cons_of_pos hlive, List.range_succ, List.map_append, e1, e2]
          simp [hpw]
        · rw [h2 a (by omega), hout a (by simp only [slotAddr_eq]; omega)]

/-! ## The whole of `compactify` -/

/-- The entry a slot pair stands for. -/
def entryOf (data : Mem) (p : Nat × Nat) : Entry :=
  if p.1 = 0 then .dead p.2 else .live (data.slice p.1 p.2)

theorem entries_eq_pairs (data : Mem) :
    entries data = ((List.range (maxSlotId data)).map (slotPair data)).map (entryOf data) := by
  rw [List.map_map]; rfl

theorem liveEntries_entries {data : Mem} (hn : 40 + 4 * maxSlotId data ≤ 4096) :
    liveEntries (entries data) = (liveIdx data).map (entryAt data) := by
  rw [liveEntries, entries, List.filter_map, liveIdx]
  congr 1
  exact List.filter_congr fun i hi => (isLive_eq_entry hn (List.mem_range.mp hi)).symm

theorem heapSize_map_entryAt (data : Mem) (l : List Nat) :
    heapSize (l.map (entryAt data)) = (l.map (siz data)).sum := by
  rw [heapSize, List.map_map]
  congr 1
  exact List.map_congr_left fun i _ => size_entryAt data i

/-- Two records do not overlap. -/
def Apart (p q : Nat × Nat) : Prop := p.1 + p.2 ≤ q.1 ∨ q.1 + q.2 ≤ p.1

/-- The slots of the packed page before and after the filter. -/
theorem compactify_pairs {data : Mem} (h : Layout data) : ∃ cur d1 is,
    Packed (maxSlotId data) is PAGE_SIZE data (cur, d1) ∧ is.Perm (liveIdx data) ∧
    freeSpacePtr (compactify data) = cur ∧
    maxSlotId (compactify data) = (liveIdx data).length ∧
    (List.range (maxSlotId (compactify data))).map (slotPair (compactify data)) =
      (liveIdx data).map (slotPair d1) ∧
    ∀ a, a < 20 ∨ 24 ≤ a ∧ a < 40 ∨ 40 + 4 * maxSlotId data ≤ a → compactify data a = d1 a := by
  obtain ⟨is, his, hperm, hdesc⟩ := sortedLiveSlots_eq h
  have hmem : ∀ i ∈ is, i < maxSlotId data ∧ off data i ≠ 0 := fun i hi =>
    (mem_liveIdx h.slots_lt).mp (hperm.mem_iff.mp hi)
  have hn := h.slots_lt
  have hP := packRecords_spec (n := maxSlotId data) is PAGE_SIZE data (fun i hi => (hmem i hi).1)
    (hperm.nodup_iff.mpr (nodup_liveIdx data)) (by simp only [PAGE_SIZE]; omega) (Nat.le_refl _)
    hdesc fun i hi => by
      have := h.live i (hmem i hi).1 (hmem i hi).2
      have h2 := h.slots_le
      simp only [slotAddr_eq] at h2
      exact ⟨by omega, this.2.1⟩
  unfold compactify
  rw [his]
  generalize packRecords (is.map slotAddr) PAGE_SIZE data = r at hP ⊢
  obtain ⟨cur, d1⟩ := r
  have hcur : cur ≤ 4096 := by have := hP.ptr; simp only [PAGE_SIZE] at this; omega
  have hlow := hP.low
  dsimp only at hlow ⊢
  -- the heap pointer is stored between the two loops
  generalize hd2 : setFreeSpacePtr d1 cur = d2
  have h2 : ∀ a, a < 22 ∨ 24 ≤ a → d2 a = d1 a := fun a ha => by
    rw [← hd2]; exact writeLE_out (by omega)
  have hmax1 : maxSlotId d1 = maxSlotId data := by
    exact readLE_congr fun a _ _ => hP.frame a (.inl (by omega)) (.inl (by omega))
  have hmax2 : maxSlotId d2 = maxSlotId data := by
    rw [← hmax1]; exact readLE_congr fun a _ _ => h2 a (by omega)
  have hp2 : ∀ i, slotPair d2 i = slotPair d1 i := fun i =>
    slotPair_congr fun a h3 _ => h2 a (by simp only [slotAddr_eq] at h3; omega)
  obtain ⟨hd3, hf3⟩ := dropDead_spec (maxSlotId d2) 0 0 d2 (by omega) (by omega) (Nat.le_refl _)
  generalize dropDead (maxSlotId d2) 0 0 d2 = r at hd3 hf3 ⊢
  obtain ⟨w, d3⟩ := r
  dsimp only at hd3 hf3 ⊢
  rw [hmax2] at hd3 hf3
  simp only [List.range_zero, List.map_nil, List.nil_append] at hd3
  have hfil : ((List.range' 0 (maxSlotId data)).map (slotPair d2)).filter livePair =
      (liveIdx data).map (slotPair d1) := by
    rw [← List.range_eq_range', List.filter_map, liveIdx, List.map_congr_left fun i _ => hp2 i]
    congr 1
    refine List.filter_congr fun i hi => ?_
    have hi' := List.mem_range.mp hi
    rw [isLive_of_lt hn hi', Function.comp, hp2]
    -- packing moves the live slots and leaves the dead ones at offset 0
    by_cases hl : off data i = 0
    · have : i ∉ is := fun e => (hmem i e).2 hl
      rw [show livePair (slotPair d1 i) = (off d1 i != 0) from rfl, hP.other i hi' this]
    · have him : i ∈ is := hperm.mem_iff.mpr ((mem_liveIdx hn).mpr ⟨hi', hl⟩)
      have := (hP.range i him).1
      have : off d1 i ≠ 0 := by dsimp only at this; omega
      rw [livePair_iff.mpr this]; simpa using hl
  rw [hfil] at hd3
  have hw : w = (liveIdx data).length := by simpa using congrArg List.length hd3
  have hwn : w ≤ maxSlotId data := by
    rw [hw, liveIdx]; exact (List.length_filter_le _ _).trans (by simp)
  generalize hd4 : setMaxSlotId d3 w = d4
  have h4 : ∀ a, a < 20 ∨ 22 ≤ a → d4 a = d3 a := fun a ha => by
    rw [← hd4]; exact writeLE_out (by omega)
  have hmax4 : maxSlotId d4 = w := by
    rw [← hd4, maxSlotId, setMaxSlotId, readLE_writeLE, Nat.mod_eq_of_lt (by omega)]
  have hfsp : freeSpacePtr d4 = cur := by
    have e1 : freeSpacePtr d4 = freeSpacePtr d2 :=
      readLE_congr fun a _ _ => by rw [h4 a (by omega), hf3 a (by omega)]
    rw [e1, ← hd2, freeSpacePtr, setFreeSpacePtr, readLE_writeLE, Nat.mod_eq_of_lt (by omega)]
  refine ⟨cur, d1, is, hP, hperm, hfsp, hmax4.trans hw, ?_, ?_⟩
  · rw [hmax4, ← hd3]
    exact List.map_congr_left fun i _ =>
      slotPair_congr fun a h3 _ => h4 a (by simp only [slotAddr_eq] at h3; omega)
  · intro a ha
    rw [h4 a (by omega), hf3 a (by omega), h2 a (by omega)]

theorem Packed.apart {data d1 : Mem} {n cur : Nat} {is js : List Nat}
    (hP : Packed n is PAGE_SIZE data (cur, d1)) (hperm : is.Perm js) (hlt : ∀ i ∈ js, i < n) :
    js.Pairwise fun i j => Apart (slotPair d1 i) (slotPair d1 j) := by
  refine (hperm.pairwise_iff fun e => e.symm).mp (hP.desc.imp_of_mem fun {i j} hi hj e => .inr ?_)
  have hs : SlottedPage.siz d1 j = SlottedPage.siz data j :=
    hP.siz j (hlt j (hperm.mem_iff.mp hj))
  rw [← hs] at e
  exact e

theorem pairwise_range_apart {data : Mem} {n i j : Nat}
    (h : (List.range n).Pairwise fun i j => Apart (slotPair data i) (slotPair data j))
    (hi : i < n) (hj : j < n) (hij : i ≠ j) : Apart (slotPair data i) (slotPair data j) := by
  rw [List.pairwise_iff_getElem] at h
  rcases Nat.lt_or_gt_of_ne hij with hlt | hgt
  · have := h i j (by simpa using hi) (by simpa using hj) hlt
    simpa only [List.getElem_range] using this
  · have := h j i (by simpa using hj) (by simpa using hi) hgt
    simp only [List.getElem_range] at this
    exact this.symm

/-- `compactify` keeps exactly the live entries in slot order, packs the
heap, and touches nothing else. -/
theorem compactify_layout {data : Mem} (h : Layout data) :
    entries (compactify data) = liveEntries (entries data) ∧ Valid (compactify data) ∧
      Tight (compactify data) ∧
      ∀ a, a < 20 ∨ 24 ≤ a ∧ a < 40 ∨ PAGE_SIZE ≤ a → compactify data a = data a := by
  obtain ⟨cur, d1, is, hP, hperm, hfsp, hmax, hpairs, hframe⟩ := compactify_pairs h
  have hn := h.slots_lt
  have hlow := hP.low
  have hlen : (liveIdx data).length ≤ maxSlotId data := by
    rw [liveIdx]; exact (List.length_filter_le _ _).trans (by simp)
  have hmem : ∀ i ∈ liveIdx data, i < maxSlotId data ∧ i ∈ is := fun i hi =>
    ⟨((mem_liveIdx hn).mp hi).1, hperm.mem_iff.mpr hi⟩
  dsimp only at hlow
  have hent : entries (compactify data) = liveEntries (entries data) := by
    rw [entries_eq_pairs, hpairs, liveEntries_entries hn, List.map_map]
    refine List.map_congr_left fun i hi => ?_
    obtain ⟨hi1, hi2⟩ := hmem i hi
    obtain ⟨hr1, hr2⟩ := hP.range i hi2
    dsimp only at hr1 hr2
    have hs : siz d1 i = siz data i := hP.siz i hi1
    have hb : d1.slice (off d1 i) (siz data i) = data.slice (off data i) (siz data i) :=
      hP.bytes i hi2
    have h0 : off d1 i ≠ 0 := by omega
    have h0' := ((mem_liveIdx hn).mp hi).2
    simp only [Function.comp, entryOf, slotPair, h0, if_false, entryAt, h0', Entry.live.injEq]
    rw [hs, ← hb]
    exact slice_congr fun k _ => hframe _ (by omega)
  have hpair : ∀ k < maxSlotId (compactify data), ∃ i ∈ liveIdx data,
      slotPair (compactify data) k = slotPair d1 i := by
    intro k hk
    have : slotPair (compactify data) k ∈ (liveIdx data).map (slotPair d1) := by
      rw [← hpairs]; exact List.mem_map_of_mem (List.mem_range.mpr hk)
    obtain ⟨i, hi, he⟩ := List.mem_map.mp this
    exact ⟨i, hi, he.symm⟩
  have htight : Tight (compactify data) := by
    have h1 := hP.ptr
    dsimp only at h1
    rw [(hperm.map (siz data)).sum_eq, ← heapSize_map_entryAt, ← liveEntries_entries hn] at h1
    rw [Tight, hfsp, hent, h1]
  refine ⟨hent, ⟨?_, ?_, ?_, ?_, Nat.le_of_eq htight⟩, htight, ?_⟩
  · rw [hfsp, hmax, slotAddr_eq]; omega
  · have := hP.ptr; rw [hfsp]; dsimp only at this; omega
  · intro k hk _
    obtain ⟨i, hi, he⟩ := hpair k hk
    obtain ⟨hi1, hi2⟩ := hmem i hi
    obtain ⟨hr1, hr2⟩ := hP.range i hi2
    simp only [slotPair, Prod.mk.injEq] at he
    have hs : siz d1 i = siz data i := hP.siz i hi1
    have hpos := (h.live i hi1 ((mem_liveIdx hn).mp hi).2).2.2
    dsimp only at hr1 hr2
    rw [hfsp, he.1, he.2, hs]
    exact ⟨hr1, hr2, hpos⟩
  · intro i hi j hj hij _ _
    have hap := hP.apart hperm fun i hi => (hmem i hi).1
    rw [← List.pairwise_map (f := slotPair d1), ← hpairs, List.pairwise_map] at hap
    exact pairwise_range_apart hap hi hj hij
  · intro a ha
    rw [hframe a (by simp only [PAGE_SIZE] at ha; omega)]
    exact hP.frame a (by simp only [PAGE_SIZE] at ha; omega)
      (by simp only [PAGE_SIZE] at ha ⊢; omega)

theorem compactify_spec {data : Mem} (h : Valid data) :
    entries (compactify data) = liveEntries (entries data) ∧ Valid (compactify data) ∧
      Tight (compactify data) ∧
      ∀ a, a < 20 ∨ 24 ≤ a ∧ a < 40 ∨ PAGE_SIZE ≤ a → compactify data a = data a :=
  compactify_layout h.layout

end DbInternals.SlottedPage
