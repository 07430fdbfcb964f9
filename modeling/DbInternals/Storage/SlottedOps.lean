import DbInternals.Storage.Compaction
import Mathlib.Data.List.InsertIdx

/-!
# The page operations on entries

One specification per operation of `SlottedPage`: what it does to the list
of entries, that the layout stays valid, and that no byte outside the slot
count, the heap pointer, the slot array and the heap changes (`SameMeta`).

Results:
* `init_entries`, `init_valid`, `deleteRecord_spec`, `deleteRecord_false`;
* `placeRecordAt_spec`, `insertRecordAt_spec`, `insertRecordAt_none`;
* `placeRecord_append`, `placeRecord_set`, `insertRecord_append`;
* `getRecord_of_entry`: the span `getRecord` returns, read as bytes.
-/
namespace DbInternals.SlottedPage

open Mem

/-! ## What an operation leaves alone -/

/-- The bytes that are neither slot count, heap pointer, slots nor heap. -/
def SameMeta (data data' : Mem) : Prop :=
  ∀ a, a < 20 ∨ 24 ≤ a ∧ a < 40 ∨ PAGE_SIZE ≤ a → data' a = data a

theorem SameMeta.refl (data : Mem) : SameMeta data data := fun _ _ => rfl

theorem SameMeta.trans {a b c : Mem} (h : SameMeta a b) (h' : SameMeta b c) : SameMeta a c :=
  fun i hi => (h' i hi).trans (h i hi)

section
variable {data data' : Mem}

theorem SameMeta.readLE (h : SameMeta data data') {o k : Nat} (ho : 24 ≤ o) (hk : o + k ≤ 40) :
    data'.readLE o k = data.readLE o k :=
  readLE_congr fun a _ _ => h a (.inr (.inl (by omega)))

theorem SameMeta.pageType (h : SameMeta data data') : getPageType data' = getPageType data := by
  rw [getPageType, getPageType, h.readLE (by omega) (by omega)]

theorem SameMeta.left (h : SameMeta data data') : getLeftSibling data' = getLeftSibling data :=
  h.readLE (by omega) (by omega)

theorem SameMeta.right (h : SameMeta data data') : getRightSibling data' = getRightSibling data :=
  h.readLE (by omega) (by omega)

theorem SameMeta.pageId (h : SameMeta data data') : headerPageId data' = headerPageId data :=
  readLE_congr fun a _ _ => h a (.inl (by omega))

theorem compactify_sameMeta (h : Valid data) : SameMeta data (compactify data) :=
  (compactify_spec h).2.2.2

end

/-! ## `init` -/

section
variable (data : Mem) (assignedId : Nat) (type : SlottedPageType)

/-- Header fields of a page just initialised. -/
theorem init_header {o k : Nat} (hk : o + k ≤ 40) : (init data assignedId type).readLE o k =
    (Mem.zero |>.writeLE 0 4 assignedId |>.writeLE 20 2 0 |>.writeLE 22 2 PAGE_SIZE
      |>.writeLE 24 1 type.toByte |>.writeLE 28 4 INVALID_PAGE_ID
      |>.writeLE 32 4 INVALID_PAGE_ID).readLE o k := by
  rw [init, readLE_copy_frame (by simp only [sizeofHeader]; omega),
    readLE_copy_at (Nat.zero_le _) (by simp only [sizeofHeader]; omega), Nat.sub_zero]

theorem init_maxSlotId : maxSlotId (init data assignedId type) = 0 := by
  rw [maxSlotId, init_header _ _ _ (by omega)]
  iterate 4 rw [readLE_writeLE_frame (by omega)]
  rw [readLE_writeLE, Nat.zero_mod]

theorem init_freeSpacePtr : freeSpacePtr (init data assignedId type) = PAGE_SIZE := by
  rw [freeSpacePtr, init_header _ _ _ (by omega)]
  iterate 3 rw [readLE_writeLE_frame (by omega)]
  rw [readLE_writeLE]; rfl

theorem init_pageType : getPageType (init data assignedId type) = type := by
  rw [getPageType, init_header _ _ _ (by omega)]
  iterate 2 rw [readLE_writeLE_frame (by omega)]
  rw [readLE_writeLE]
  cases type <;> rfl

theorem init_left : getLeftSibling (init data assignedId type) = INVALID_PAGE_ID := by
  rw [getLeftSibling, init_header _ _ _ (by omega), readLE_writeLE_frame (by omega), readLE_writeLE]
  rfl

theorem init_right : getRightSibling (init data assignedId type) = INVALID_PAGE_ID := by
  rw [getRightSibling, init_header _ _ _ (by omega), readLE_writeLE]; rfl

theorem init_pageId (h : assignedId < 2 ^ 32) :
    headerPageId (init data assignedId type) = assignedId := by
  rw [headerPageId, init_header _ _ _ (by omega)]
  iterate 5 rw [readLE_writeLE_frame (by omega)]
  rw [readLE_writeLE, Nat.mod_eq_of_lt (by omega)]

theorem init_entries : entries (init data assignedId type) = [] := by
  rw [entries, init_maxSlotId]; rfl

theorem init_valid : Valid (init data assignedId type) where
  slots_le := by rw [init_maxSlotId, init_freeSpacePtr]; decide
  heap_le := Nat.le_of_eq (init_freeSpacePtr ..)
  live i hi := by rw [init_maxSlotId] at hi; omega
  disjoint i hi := by rw [init_maxSlotId] at hi; omega
  space := by rw [init_freeSpacePtr, init_entries]; simp

theorem init_tight : Tight (init data assignedId type) := by
  rw [Tight, init_freeSpacePtr, init_entries]; simp

end

/-! ## Sibling setters -/

section
variable {data : Mem}

/-- A write into the sibling fields changes no slot and no record. -/
theorem entries_writeLE {o k v : Nat} (h : Valid data) (ho : 24 ≤ o) (hk : o + k ≤ 40) :
    entries (data.writeLE o k v) = entries data ∧ Valid (data.writeLE o k v) ∧
      (Tight data → Tight (data.writeLE o k v)) :=
  entries_congr h fun _ _ ha => writeLE_out (by omega)

end

/-! ## Placing one record -/

section
variable {data d : Mem} {pos len : Nat} {src : Nat → Nat}

/-- `d` is `data` with a record written right below the heap and pointed at
by slot `pos`; every other slot `i` is slot `src i` of `data`. -/
structure Placed (data d : Mem) (pos len : Nat) (src : Nat → Nat) : Prop where
  len_pos : 0 < len
  fsp : freeSpacePtr d + len = freeSpacePtr data
  room : slotAddr (maxSlotId d) ≤ freeSpacePtr d
  pos_lt : pos < maxSlotId d
  new : off d pos = freeSpacePtr d ∧ siz d pos = len
  old : ∀ i < maxSlotId d, i ≠ pos → src i < maxSlotId data ∧ off d i = off data (src i) ∧
    siz d i = siz data (src i)
  inj : ∀ i < maxSlotId d, ∀ j < maxSlotId d, i ≠ pos → j ≠ pos → src i = src j → i = j
  heap : ∀ a, freeSpacePtr data ≤ a → d a = data a

theorem Placed.entryAt_old (h : Valid data) (hp : Placed data d pos len src) {i : Nat}
    (hi : i < maxSlotId d) (hne : i ≠ pos) : entryAt d i = entryAt data (src i) := by
  obtain ⟨h1, h2, h3⟩ := hp.old i hi hne
  unfold entryAt
  rw [h2, h3]
  split
  · rfl
  · next h0 =>
    have := (h.live _ h1 h0).1
    rw [slice_congr fun j _ => hp.heap _ (by omega)]

theorem Placed.valid (h : Valid data) (hp : Placed data d pos len src)
    (hs : freeSpacePtr d + heapSize (entries d) ≤ PAGE_SIZE) : Valid d := by
  have hfsp := hp.fsp
  have hlen := hp.len_pos
  have hheap := h.heap_le
  have hroom := hp.room
  simp only [slotAddr_eq] at hroom
  -- an old record lies above the new one
  have hold : ∀ i < maxSlotId d, i ≠ pos → off d i ≠ 0 → freeSpacePtr data ≤ off d i ∧
      off d i + siz d i ≤ PAGE_SIZE ∧ 0 < siz d i := by
    intro i hi hne h0
    obtain ⟨h1, h2, h3⟩ := hp.old i hi hne
    rw [h2] at h0 ⊢
    rw [h3]
    exact h.live _ h1 h0
  refine ⟨hp.room, by omega, ?_, ?_, hs⟩
  · intro i hi h0
    by_cases hne : i = pos
    · subst hne
      rw [hp.new.1, hp.new.2]
      exact ⟨Nat.le_refl _, by omega, hlen⟩
    · have := hold i hi hne h0
      exact ⟨by omega, this.2⟩
  · intro i hi j hj hij hi0 hj0
    by_cases hip : i = pos
    · subst hip
      have := hold j hj (fun e => hij e.symm) hj0
      rw [hp.new.1, hp.new.2]; omega
    · by_cases hjp : j = pos
      · subst hjp
        have := hold i hi hip hi0
        rw [hp.new.1, hp.new.2]; omega
      · obtain ⟨a1, a2, a3⟩ := hp.old i hi hip
        obtain ⟨b1, b2, b3⟩ := hp.old j hj hjp
        rw [a2] at hi0
        rw [b2] at hj0
        rw [a2, a3, b2, b3]
        exact h.disjoint _ a1 _ b1 (fun e => hij (hp.inj i hi j hj hip hjp e)) hi0 hj0

end

/-- The record written below the heap: what `placeRecord` and `placeRecordAt`
do before they touch the slot array. -/
def pushHeap (data record : Mem) (length : Nat) : Mem :=
  let newOffset := (freeSpacePtr data + 2 ^ 16 - length) % 2 ^ 16
  (setFreeSpacePtr data newOffset).copy newOffset record length

section
variable {data record : Mem} {len : Nat}

theorem newOffset_eq (h : Valid data) (hr : len ≤ freeSpacePtr data) :
    (freeSpacePtr data + 2 ^ 16 - len) % 2 ^ 16 = freeSpacePtr data - len := by
  have := h.heap_le
  simp only [PAGE_SIZE] at this; omega

/-- With room for one more slot the record lands in the gap. -/
theorem pushHeap_spec (record : Mem) (h : Valid data) (hr : slotAddr (maxSlotId data) + len ≤ freeSpacePtr data) :
    freeSpacePtr (pushHeap data record len) = freeSpacePtr data - len ∧
      (pushHeap data record len).slice (freeSpacePtr data - len) len = record.slice 0 len ∧
      ∀ a, a < 22 ∨ 24 ≤ a → a < freeSpacePtr data - len ∨ freeSpacePtr data ≤ a →
        pushHeap data record len a = data a := by
  simp only [slotAddr_eq] at hr
  have h2 := h.heap_le
  simp only [PAGE_SIZE] at h2
  simp only [pushHeap, newOffset_eq h (show len ≤ freeSpacePtr data by omega)]
  refine ⟨?_, slice_copy .., fun a h3 h4 => ?_⟩
  · rw [freeSpacePtr, readLE_copy_frame (by omega), setFreeSpacePtr, readLE_writeLE]; omega
  · rw [copy_out (by omega), setFreeSpacePtr, writeLE_out (by omega)]

/-- Slots from `pos` on move up by one. -/
theorem openGap_spec (data : Mem) (pos : Nat) (hn : 40 + 4 * (maxSlotId data + 1) ≤ 4096)
    (hpos : pos ≤ maxSlotId data) :
    maxSlotId (openGap data pos) = maxSlotId data + 1 ∧
      (∀ i < pos, slotPair (openGap data pos) i = slotPair data i) ∧
      (∀ i, pos < i → i ≤ maxSlotId data →
        slotPair (openGap data pos) i = slotPair data (i - 1)) ∧
      ∀ a, a < 20 ∨ 22 ≤ a ∧ a < 40 ∨ 40 + 4 * (maxSlotId data + 1) ≤ a →
        openGap data pos a = data a := by
  have hk : (maxSlotId data + 2 ^ 16 - pos) % 2 ^ 16 = maxSlotId data - pos := by omega
  simp only [openGap, hk, setMaxSlotId, sizeofHeader, sizeofSlot]
  generalize hd : data.copy (40 + 4 * pos + 4) (data.shift (40 + 4 * pos))
    ((maxSlotId data - pos) * 4) = d
  have hout : ∀ a, a < 40 + 4 * pos + 4 ∨ 40 + 4 * (maxSlotId data + 1) ≤ a → d a = data a :=
    fun a ha => by rw [← hd]; exact copy_out (by omega)
  have hmax : maxSlotId d = maxSlotId data :=
    readLE_congr fun a _ _ => hout a (.inl (by omega))
  have hw : ∀ i v, slotPair (d.writeLE 20 2 v) i = slotPair d i := fun i v =>
    slotPair_congr fun a h1 _ => writeLE_out (by simp only [slotAddr_eq] at h1; omega)
  rw [hmax, Nat.mod_eq_of_lt (show maxSlotId data + 1 < 2 ^ 16 by omega)]
  refine ⟨?_, fun i hi => ?_, fun i hi hle => ?_, fun a ha => ?_⟩
  · rw [maxSlotId, readLE_writeLE]; omega
  · rw [hw]
    exact slotPair_congr fun a h1 h2 => hout a (by simp only [slotAddr_eq] at h1 h2; omega)
  · rw [hw]
    have hi' : slotAddr i - (40 + 4 * pos + 4) + (40 + 4 * pos) = slotAddr (i - 1) := by
      simp only [slotAddr_eq]; omega
    have e : ∀ o, o + 2 ≤ 4 → d.readLE (slotAddr i + o) 2 = data.readLE (slotAddr (i - 1) + o) 2 := by
      intro o ho
      rw [← hd, readLE_copy_at (by simp only [slotAddr_eq]; omega)
        (by simp only [slotAddr_eq]; omega), readLE_shift]
      congr 1
      simp only [slotAddr_eq] at hi' ⊢; omega
    rw [slotPair, slotPair, off, slotOffset, siz, slotSize, ← Nat.add_zero (slotAddr i),
      e 0 (by omega), Nat.add_zero, e 2 (by omega)]
    rfl
  · rw [writeLE_out (by omega), hout a (by omega)]

theorem setSlot_spec (data : Mem) (i : Nat) {o n : Nat} (ho : o < 2 ^ 16) (hn : n < 2 ^ 16) :
    slotPair (setSlot data (slotAddr i) o n) i = (o, n) ∧
      (∀ j, j ≠ i → slotPair (setSlot data (slotAddr i) o n) j = slotPair data j) ∧
      ∀ a, a < slotAddr i ∨ slotAddr i + 4 ≤ a → setSlot data (slotAddr i) o n a = data a := by
  have hout : ∀ a, a < slotAddr i ∨ slotAddr i + 4 ≤ a →
      setSlot data (slotAddr i) o n a = data a := fun a ha => by
    rw [setSlot, writeLE_out (by omega), writeLE_out (by omega)]
  refine ⟨?_, fun j hj => slotPair_congr fun a h1 h2 => hout a ?_, hout⟩
  · rw [slotPair, off, slotOffset, setSlot, readLE_writeLE_frame (by omega), readLE_writeLE,
      Nat.mod_eq_of_lt (by omega), siz, slotSize, readLE_writeLE, Nat.mod_eq_of_lt (by omega)]
  · simp only [slotAddr_eq] at h1 h2 ⊢; omega

end

/-! ## `insertRecordAt` -/

section
variable {data record : Mem} {pos len : Nat}

/-- The page with `b` as a new slot at `pos`. -/
structure Inserted (data d : Mem) (pos : Nat) (b : Bytes) : Prop where
  entries : entries d = (SlottedPage.entries data).insertIdx pos (.live b)
  valid : Valid d
  tight : Tight data → Tight d
  sameMeta : SameMeta data d
  heap : freeSpacePtr d + b.length = freeSpacePtr data

theorem placeRecordAt_eq (h : Valid data) (hr : len ≤ freeSpacePtr data) :
    placeRecordAt data pos record len =
      match getSlot (openGap (pushHeap data record len) pos) pos with
      | none => .error (.assertFailed "new_slot != nullptr")
      | some newSlot => .ok (some pos, setSlot (openGap (pushHeap data record len) pos) newSlot
          (freeSpacePtr data - len) len) := by
  rw [← newOffset_eq h hr]; rfl

theorem placeRecordAt_spec (record : Mem) (h : Valid data) (hpos : pos ≤ maxSlotId data) (hlen : 0 < len)
    (hr : slotAddr (maxSlotId data + 1) + len ≤ freeSpacePtr data) :
    ∃ d, placeRecordAt data pos record len = .ok (some pos, d) ∧
      Inserted data d pos (record.slice 0 len) := by
  have hheap := h.heap_le
  simp only [PAGE_SIZE] at hheap
  simp only [slotAddr_eq] at hr
  obtain ⟨p1, p2, p3⟩ := pushHeap_spec record h
    (show slotAddr (maxSlotId data) + len ≤ _ by simp only [slotAddr_eq]; omega)
  rw [placeRecordAt_eq h (by omega)]
  generalize pushHeap data record len = d1 at p1 p2 p3 ⊢
  have hmax1 : maxSlotId d1 = maxSlotId data :=
    readLE_congr fun a _ _ => p3 a (by omega) (by omega)
  have hpair1 : ∀ i < maxSlotId data, slotPair d1 i = slotPair data i := fun i hi =>
    slotPair_congr fun a h1 h2 => by
      simp only [slotAddr_eq] at h1 h2
      exact p3 a (by omega) (by omega)
  obtain ⟨q1, q2, q3, q4⟩ := openGap_spec d1 pos (by omega) (by omega)
  generalize openGap d1 pos = d2 at q1 q2 q3 q4 ⊢
  rw [hmax1] at q1 q3 q4
  rw [getSlot_of_lt (by omega) (by omega)]
  dsimp only
  obtain ⟨r1, r2, r3⟩ := setSlot_spec d2 pos (o := freeSpacePtr data - len)
    (n := len) (by omega) (by omega)
  generalize setSlot d2 (slotAddr pos) (freeSpacePtr data - len) len = d at r1 r2 r3 ⊢
  simp only [slotAddr_eq] at r3
  refine ⟨d, rfl, ?_⟩
  -- the page read back: slot count, heap pointer, slots, heap bytes
  have hmax : maxSlotId d = maxSlotId data + 1 := by
    rw [← q1]; exact readLE_congr fun a _ _ => r3 a (by omega)
  have hfsp : freeSpacePtr d = freeSpacePtr data - len := by
    rw [← p1]; exact readLE_congr fun a _ _ => by rw [r3 a (by omega), q4 a (by omega)]
  have hslots : ∀ i < maxSlotId data + 1, i ≠ pos →
      slotPair d i = slotPair data (if i < pos then i else i - 1) := by
    intro i hi hne
    rw [r2 i hne]
    split
    · next hlt => rw [q2 i hlt, hpair1 i (by omega)]
    · rw [q3 i (by omega) (by omega), hpair1 _ (by omega)]
  have hbytes : ∀ a, freeSpacePtr data - len ≤ a → d a = d1 a := fun a ha => by
    rw [r3 a (by omega), q4 a (by omega)]
  have hP : Placed data d pos len fun i => if i < pos then i else i - 1 := by
    refine ⟨hlen, by omega, by rw [hmax, hfsp, slotAddr_eq]; omega, by omega, ?_, ?_, ?_, ?_⟩
    · rw [hfsp]; exact ⟨congrArg Prod.fst r1, congrArg Prod.snd r1⟩
    · intro i hi hne
      have := hslots i (by omega) hne
      refine ⟨by split <;> omega, congrArg Prod.fst this, congrArg Prod.snd this⟩
    · intro i _ j _ hi hj hij
      split at hij <;> split at hij <;> omega
    · intro a ha; rw [hbytes a (by omega), p3 a (by omega) (by omega)]
  have hent : entries d = (entries data).insertIdx pos (.live (record.slice 0 len)) := by
    apply List.ext_getElem?
    intro i
    rw [List.getElem?_insertIdx, getElem?_entries, getElem?_entries, getElem?_entries, hmax,
      length_entries]
    rcases Nat.lt_trichotomy i pos with hlt | rfl | hgt
    · rw [if_pos (show i < _ by omega), if_pos hlt, if_pos (show i < _ by omega),
        hP.entryAt_old h (by omega) (by omega), if_pos hlt]
    · have h0 : freeSpacePtr data - len ≠ 0 := by omega
      have h1 : off d i = freeSpacePtr data - len := congrArg Prod.fst r1
      have h2 : siz d i = len := congrArg Prod.snd r1
      rw [if_pos (show i < _ by omega), if_neg (Nat.lt_irrefl i), if_pos rfl, if_pos hpos,
        entryAt, h1, h2, if_neg h0, ← p2, slice_congr fun j _ => hbytes _ (by omega)]
    · have h3 : ¬ i < pos := by omega
      rw [if_neg h3, if_neg (show ¬ i = pos by omega)]
      by_cases hi : i < maxSlotId data + 1
      · rw [if_pos hi, if_pos (show i - 1 < _ by omega), hP.entryAt_old h (by omega) (by omega),
          if_neg h3]
      · rw [if_neg hi, if_neg (show ¬ i - 1 < _ by omega)]
  have hsize : heapSize (entries d) = len + heapSize (entries data) := by
    rw [hent, heapSize_perm (List.perm_insertIdx _ _ (by simpa using hpos))]; simp
  have hspace := h.space
  refine ⟨hent, hP.valid h (by rw [hfsp, hsize]; omega), fun ht => ?_, fun a ha => ?_, ?_⟩
  · rw [Tight] at ht ⊢; rw [hfsp, hsize]; omega
  · simp only [PAGE_SIZE] at ha
    rw [r3 a (by omega), q4 a (by omega), p3 a (by omega) (by omega)]
  · rw [hfsp, length_slice]; omega

/-- How many of the slots before `pos` are live. -/
def liveBefore (es : List Entry) (pos : Nat) : Nat := (es.take pos).countP Entry.isLive

theorem liveBefore_le (es : List Entry) (pos : Nat) : liveBefore es pos ≤ (liveEntries es).length := by
  rw [liveBefore, liveEntries, ← List.countP_eq_length_filter]
  exact (List.take_sublist pos es).countP_le

/-- Dropping the dead slots commutes with inserting a live one. -/
theorem liveEntries_insertIdx (b : Bytes) : ∀ (es : List Entry) (pos : Nat), pos ≤ es.length →
    liveEntries (es.insertIdx pos (.live b)) =
      (liveEntries es).insertIdx (liveBefore es pos) (.live b)
  | es, 0, _ => by simp [liveBefore]
  | [], pos + 1, h => by simp at h
  | e :: es, pos + 1, h => by
    have ih := liveEntries_insertIdx b es pos (by simpa using h)
    cases e <;> simp [liveBefore, List.countP_cons, ih]

theorem countP_isLive (h : Valid data) (hpos : pos ≤ maxSlotId data) :
    (List.range pos).countP (isLive data) = liveBefore (entries data) pos := by
  rw [liveBefore, entries, ← List.map_take, List.take_range, Nat.min_eq_left hpos,
    List.countP_map]
  apply List.countP_congr
  intro i hi
  rw [isLive_eq_entry h.slots_lt (by have := List.mem_range.mp hi; omega)]; rfl

/-- What compaction frees is at least what `getTotalFreeSpace` promised. -/
theorem compactify_room (h : Valid data) (hr : len ≤ getTotalFreeSpace data) :
    slotAddr (maxSlotId (compactify data)) + len ≤ freeSpacePtr (compactify data) := by
  obtain ⟨h1, h2, h3, -⟩ := compactify_spec h
  have h4 := getTotalFreeSpace_eq h
  have h5 := cost_live_dead (entries data)
  have h6 := h.cost_le
  have h7 := h2.slots_le
  have h8 := cost_eq (entries (compactify data))
  have h9 := h.slots_le
  rw [length_entries] at h8
  rw [← h1] at h5
  simp only [Tight, slotAddr_eq, PAGE_SIZE] at *; omega

theorem canInsertContigious_iff (h : Valid data) {needsNewSlot : Bool} :
    canInsertContigious data len needsNewSlot = true ↔
      slotAddr (maxSlotId data) + len + (if needsNewSlot then 4 else 0) ≤ freeSpacePtr data := by
  have := h.slots_le
  rw [canInsertContigious, getFreeSpace_eq h]
  cases needsNewSlot <;> simp [sizeofSlot] <;> omega

/-- `insertRecordAt` with room: at `pos`, or into the compacted page at the
number of live slots that were before `pos`. -/
theorem insertRecordAt_spec (record : Mem) (h : Valid data) (hlen : 0 < len) (hpos : pos ≤ maxSlotId data)
    (hr : len + 4 ≤ getTotalFreeSpace data) :
    if canInsertContigious data len true then
      ∃ d, insertRecordAt data pos record len = .ok (some pos, d) ∧
        Inserted data d pos (record.slice 0 len)
    else
      ∃ d, insertRecordAt data pos record len = .ok (some (liveBefore (entries data) pos), d) ∧
        Inserted (compactify data) d (liveBefore (entries data) pos) (record.slice 0 len) := by
  have htot : getTotalFreeSpace data < 2 ^ 16 := by
    unfold getTotalFreeSpace; dsimp only; split <;> omega
  have hsp : (len + sizeofSlot) % 2 ^ 16 = len + 4 := by simp only [sizeofSlot]; omega
  have e : insertRecordAt data pos record len =
      if canInsertContigious data len true then placeRecordAt data pos record len
      else placeRecordAt (compactify data) (liveBefore (entries data) pos) record len := by
    rw [insertRecordAt, if_neg (by omega), if_neg (by omega), hsp]
    dsimp only
    rw [if_neg (by omega), countP_isLive h hpos]
  rw [e]
  split
  · next hc =>
    rw [canInsertContigious_iff h, if_pos rfl] at hc
    exact placeRecordAt_spec record h hpos hlen (by simp only [slotAddr_eq] at hc ⊢; omega)
  · obtain ⟨h1, h2, -, -⟩ := compactify_spec h
    have hroom := compactify_room h hr
    refine placeRecordAt_spec record h2 ?_ hlen (by simp only [slotAddr_eq] at hroom ⊢; omega)
    rw [← length_entries, h1]; exact liveBefore_le _ _

/-- Without room, or with an argument out of range, nothing changes. -/
theorem insertRecordAt_none (hlt : len + 4 < 2 ^ 16)
    (hc : len = 0 ∨ maxSlotId data < pos ∨ getTotalFreeSpace data < len + 4) :
    insertRecordAt data pos record len = .ok (none, data) := by
  unfold insertRecordAt
  split
  · rfl
  split
  · rfl
  have hsp : (len + sizeofSlot) % 2 ^ 16 = len + 4 := by simp only [sizeofSlot]; omega
  dsimp only
  rw [hsp, if_pos (by omega)]

end

/-! ## `deleteRecord` and `getRecord` -/

section
variable {data : Mem} {i : Nat}

/-- The bytes of the span `getRecord` returns, `none` for an empty span. -/
def recordBytes (data : Mem) (slotId : Nat) : Option Bytes :=
  match getRecord data slotId with
  | (none, _) => none
  | (some o, n) => some (data.slice o n)

theorem getRecord_live (h : Layout data) (hi : i < maxSlotId data) (h0 : off data i ≠ 0) :
    getRecord data i = (some (off data i), siz data i) := by
  rw [getRecord, getSlot_of_lt h.slots_lt hi]
  exact if_neg h0

theorem getRecord_dead (h : Layout data) (hi : maxSlotId data ≤ i ∨ off data i = 0) :
    getRecord data i = (none, 0) := by
  by_cases hlt : i < maxSlotId data
  · rw [getRecord, getSlot_of_lt h.slots_lt hlt]
    exact if_pos (hi.resolve_left (by omega))
  · rw [getRecord, getSlot_of_ge (by omega)]

theorem Layout.recordBytes_eq (h : Layout data) (i : Nat) :
    recordBytes data i = ((entries data)[i]?).bind Entry.record? := by
  rw [getElem?_entries]
  by_cases hi : i < maxSlotId data
  · rw [if_pos hi, Option.bind_some, entryAt]
    by_cases h0 : off data i = 0
    · rw [recordBytes, getRecord_dead h (.inr h0), if_pos h0]; rfl
    · rw [recordBytes, getRecord_live h hi h0, if_neg h0]; rfl
  · rw [if_neg hi, recordBytes, getRecord_dead h (.inl (by omega))]; rfl

theorem recordBytes_eq (h : Valid data) (i : Nat) :
    recordBytes data i = ((entries data)[i]?).bind Entry.record? := h.layout.recordBytes_eq i

/-- The live records in slot order. -/
def recordSeq (data : Mem) : List Bytes :=
  (List.range (getSlotCount data)).filterMap (recordBytes data)

theorem recordSeq_eq (h : Layout data) : recordSeq data = liveRecordsOf (entries data) := by
  rw [recordSeq, liveRecordsOf, entries, List.filterMap_map]
  apply List.filterMap_congr
  intro i hi
  rw [h.recordBytes_eq, getElem?_entries, if_pos (show i < maxSlotId data from List.mem_range.mp hi)]
  rfl

/-- A live entry as `getRecord` returns it. -/
theorem getRecord_of_entry (h : Valid data) {b : Bytes} (hb : (entries data)[i]? = some (.live b)) :
    ∃ o, getRecord data i = (some o, b.length) ∧ data.slice o b.length = b ∧
      0 < b.length ∧ o + b.length ≤ PAGE_SIZE := by
  rw [getElem?_entries] at hb
  split at hb
  · next hi =>
    simp only [Option.some.injEq, entryAt] at hb
    split at hb
    · exact absurd hb (by simp)
    · next h0 =>
      obtain rfl := Entry.live.inj hb
      obtain ⟨-, h2, h3⟩ := h.live i hi h0
      refine ⟨off data i, ?_, ?_, ?_, ?_⟩ <;> rw [length_slice]
      · exact getRecord_live h.layout hi h0
      · exact h3
      · exact h2
  · exact absurd hb (by simp)

theorem getRecord_of_dead (h : Valid data) (hb : ∀ b, (entries data)[i]? ≠ some (.live b)) :
    getRecord data i = (none, 0) := by
  apply getRecord_dead h.layout
  by_contra hc
  obtain ⟨h1, h2⟩ := not_or.mp hc
  apply hb (data.slice (off data i) (siz data i))
  rw [getElem?_entries, if_pos (by omega), entryAt, if_neg h2]

/-- A live record is not empty. -/
theorem Valid.record_pos (h : Valid data) {b : Bytes} (hb : .live b ∈ entries data) :
    0 < b.length := by
  obtain ⟨i, hi⟩ := List.getElem?_of_mem hb
  obtain ⟨o, -, -, h3, -⟩ := getRecord_of_entry h hi
  exact h3

/-- Deleting a live slot leaves a dead one of the same size. -/
theorem deleteRecord_spec (h : Valid data) {b : Bytes} (hb : (entries data)[i]? = some (.live b)) :
    ∃ d, deleteRecord data i = (true, d) ∧ entries d = (entries data).set i (.dead b.length) ∧
      Valid d ∧ (Tight data → Tight d) ∧ SameMeta data d := by
  rw [getElem?_entries] at hb
  split at hb
  case isFalse => exact absurd hb (by simp)
  next hi =>
  have hn := h.slots_lt
  have hle := h.addr_le hi
  have hheap := h.heap_le
  simp only [Option.some.injEq, entryAt] at hb
  split at hb
  · exact absurd hb (by simp)
  next h0 =>
  have hlen : b.length = siz data i := by rw [← Entry.live.inj hb, length_slice]
  have e : deleteRecord data i = (true, data.writeLE (slotAddr i) 2 0) := by
    rw [deleteRecord, getSlot_of_lt hn hi]; exact if_neg h0
  refine ⟨_, e, ?_⟩
  clear e
  simp only [slotAddr_eq, PAGE_SIZE] at hle hheap
  generalize hd : data.writeLE (slotAddr i) 2 0 = d
  have hout : ∀ a, a < slotAddr i ∨ slotAddr i + 2 ≤ a → d a = data a := fun a ha => by
    rw [← hd]; exact writeLE_out ha
  have hmax : maxSlotId d = maxSlotId data :=
    readLE_congr fun a _ _ => hout a (by simp only [slotAddr_eq]; omega)
  have hfsp : freeSpacePtr d = freeSpacePtr data :=
    readLE_congr fun a _ _ => hout a (by simp only [slotAddr_eq]; omega)
  have hoi : off d i = 0 := by rw [← hd, off, slotOffset, readLE_writeLE, Nat.zero_mod]
  have hsz : ∀ j, siz d j = siz data j := fun j =>
    readLE_congr fun a _ _ => hout a (by simp only [slotAddr_eq] at *; omega)
  have hoj : ∀ j, j ≠ i → off d j = off data j := fun j hj =>
    readLE_congr fun a _ _ => hout a (by simp only [slotAddr_eq] at *; omega)
  have hent : entries d = (entries data).set i (.dead b.length) := by
    apply List.ext_getElem?
    intro j
    rw [List.getElem?_set, getElem?_entries, getElem?_entries, hmax, length_entries]
    by_cases hj : i = j
    · subst hj
      rw [if_pos hi, if_pos rfl, if_pos hi, entryAt, if_pos hoi, hsz, hlen]
    · rw [if_neg hj]
      split
      · next hjn =>
        rw [Option.some.injEq]
        refine entryAt_congr (hoj j (fun e => hj e.symm)) (hsz j) fun h1 k _ => hout _ ?_
        rw [hoj j fun e => hj e.symm] at h1 ⊢
        have := (h.live j hjn h1).1
        simp only [slotAddr_eq]; omega
      · rfl
  have hsize : heapSize (entries d) = heapSize (entries data) := by
    rw [heapSize, heapSize, entries, entries, hmax, List.map_map, List.map_map]
    congr 1
    exact List.map_congr_left fun j _ => by simp [hsz]
  refine ⟨hent, ⟨?_, ?_, ?_, ?_, ?_⟩, fun ht => ?_, fun a ha => hout a ?_⟩
  · rw [hmax, hfsp]; exact h.slots_le
  · rw [hfsp]; exact h.heap_le
  · intro j hj hj0
    have hji : j ≠ i := fun e => hj0 (e ▸ hoi)
    rw [hoj j hji] at hj0 ⊢
    rw [hfsp, hsz]
    exact h.live j (by omega) hj0
  · intro j hj k hk hjk hj0 hk0
    have hji : j ≠ i := fun e => hj0 (e ▸ hoi)
    have hki : k ≠ i := fun e => hk0 (e ▸ hoi)
    rw [hoj j hji] at hj0 ⊢
    rw [hoj k hki] at hk0 ⊢
    rw [hsz, hsz]
    exact h.disjoint j (by omega) k (by omega) hjk hj0 hk0
  · rw [hfsp, hsize]; exact h.space
  · rw [Tight, hfsp, hsize]; exact ht
  · simp only [slotAddr_eq, PAGE_SIZE] at *; omega

theorem deleteRecord_false (h : Valid data) (hb : ∀ b, (entries data)[i]? ≠ some (.live b)) :
    deleteRecord data i = (false, data) := by
  have hg := getRecord_of_dead h hb
  by_cases hi : i < maxSlotId data
  · rw [deleteRecord, getSlot_of_lt h.slots_lt hi]
    apply if_pos
    by_contra h0
    rw [getRecord_live h.layout hi h0] at hg
    exact absurd hg (by simp)
  · rw [deleteRecord, getSlot_of_ge (by omega)]

end

/-! ## `insertRecord` -/

section
variable {data record : Mem} {len slotId : Nat}

theorem placeRecord_eq (h : Valid data) (hr : len ≤ freeSpacePtr data) (needsNewSlot : Bool) :
    placeRecord data slotId needsNewSlot record len =
      let d := pushHeap data record len
      let d := if needsNewSlot then setMaxSlotId d ((maxSlotId d + 1) % 2 ^ 16) else d
      match getSlot d slotId with
      | none => .error (.assertFailed "slot_ptr != nullptr")
      | some slotPtr => .ok (some slotId, setSlot d slotPtr (freeSpacePtr data - len) len) := by
  rw [← newOffset_eq h hr]; rfl

/-- A record appended in a new last slot. -/
theorem placeRecord_append (record : Mem) (h : Valid data) (hlen : 0 < len)
    (hr : slotAddr (maxSlotId data + 1) + len ≤ freeSpacePtr data) :
    ∃ d, placeRecord data (maxSlotId data) true record len = .ok (some (maxSlotId data), d) ∧
      Inserted data d (maxSlotId data) (record.slice 0 len) := by
  have hheap := h.heap_le
  have hslots := h.slots_lt
  simp only [slotAddr_eq, PAGE_SIZE] at hr hheap
  obtain ⟨d, h1, h2⟩ := placeRecordAt_spec record h (Nat.le_refl _) hlen
    (by simp only [slotAddr_eq]; omega)
  -- opening a gap behind the last slot shifts nothing
  have hmax : maxSlotId (pushHeap data record len) = maxSlotId data :=
    readLE_congr fun a _ _ => (pushHeap_spec _ h (by simp only [slotAddr_eq]; omega)).2.2 a
      (by omega) (by omega)
  have hg : openGap (pushHeap data record len) (maxSlotId data) =
      setMaxSlotId (pushHeap data record len) ((maxSlotId data + 1) % 2 ^ 16) := by
    have hk : (maxSlotId data + 2 ^ 16 - maxSlotId data) % 2 ^ 16 = 0 := by omega
    simp only [openGap, hmax, hk, Nat.zero_mul, copy_zero]
  rw [placeRecordAt_eq h (by omega), hg] at h1
  refine ⟨d, ?_, h2⟩
  rw [placeRecord_eq h (by omega)]
  simp only [if_true, hmax]
  generalize getSlot _ (maxSlotId data) = slot at h1 ⊢
  cases slot with
  | none => simp at h1
  | some slot => exact h1

/-- A record written over the slot `slotId`, whatever that slot held. -/
theorem placeRecord_set (record : Mem) (h : Valid data) (hlen : 0 < len) (hi : slotId < maxSlotId data)
    (hr : slotAddr (maxSlotId data) + len ≤ freeSpacePtr data) :
    ∃ d, placeRecord data slotId false record len = .ok (some slotId, d) ∧
      entries d = (entries data).set slotId (.live (record.slice 0 len)) ∧ Valid d ∧
      SameMeta data d ∧ freeSpacePtr d + len = freeSpacePtr data := by
  have hheap := h.heap_le
  simp only [slotAddr_eq, PAGE_SIZE] at hr hheap
  obtain ⟨p1, p2, p3⟩ := pushHeap_spec record h
    (show slotAddr (maxSlotId data) + len ≤ _ by simp only [slotAddr_eq]; omega)
  rw [placeRecord_eq h (by omega)]
  simp only [Bool.false_eq_true, if_false]
  generalize pushHeap data record len = d1 at p1 p2 p3 ⊢
  have hmax1 : maxSlotId d1 = maxSlotId data :=
    readLE_congr fun a _ _ => p3 a (by omega) (by omega)
  have hpair1 : ∀ i < maxSlotId data, slotPair d1 i = slotPair data i := fun i hi =>
    slotPair_congr fun a h1 h2 => by
      simp only [slotAddr_eq] at h1 h2
      exact p3 a (by omega) (by omega)
  rw [getSlot_of_lt (by omega) (by omega)]
  dsimp only
  obtain ⟨r1, r2, r3⟩ := setSlot_spec d1 slotId (o := freeSpacePtr data - len)
    (n := len) (by omega) (by omega)
  generalize setSlot d1 (slotAddr slotId) (freeSpacePtr data - len) len = d at r1 r2 r3 ⊢
  simp only [slotAddr_eq] at r3
  refine ⟨d, rfl, ?_⟩
  have hmax : maxSlotId d = maxSlotId data := by
    rw [← hmax1]; exact readLE_congr fun a _ _ => r3 a (by omega)
  have hfsp : freeSpacePtr d = freeSpacePtr data - len := by
    rw [← p1]; exact readLE_congr fun a _ _ => r3 a (by omega)
  have hbytes : ∀ a, freeSpacePtr data - len ≤ a → d a = d1 a := fun a ha => r3 a (by omega)
  have hP : Placed data d slotId len id := by
    refine ⟨hlen, by omega, by rw [hmax, hfsp, slotAddr_eq]; omega, by omega, ?_, ?_, ?_, ?_⟩
    · rw [hfsp]; exact ⟨congrArg Prod.fst r1, congrArg Prod.snd r1⟩
    · intro i hi hne
      have : slotPair d i = slotPair data i := by rw [r2 i hne, hpair1 i (by omega)]
      exact ⟨by rw [hmax] at hi; exact hi, congrArg Prod.fst this, congrArg Prod.snd this⟩
    · exact fun i _ j _ _ _ hij => hij
    · intro a ha; rw [hbytes a (by omega), p3 a (by omega) (by omega)]
  have hent : entries d = (entries data).set slotId (.live (record.slice 0 len)) := by
    apply List.ext_getElem?
    intro i
    rw [List.getElem?_set, getElem?_entries, getElem?_entries, hmax, length_entries]
    by_cases hs : slotId = i
    · subst hs
      have h0 : freeSpacePtr data - len ≠ 0 := by omega
      have h1 : off d slotId = freeSpacePtr data - len := congrArg Prod.fst r1
      have h2 : siz d slotId = len := congrArg Prod.snd r1
      rw [if_pos hi, if_pos rfl, if_pos hi, entryAt, h1, h2, if_neg h0, ← p2,
        slice_congr fun j _ => hbytes _ (by omega)]
    · rw [if_neg hs]
      split
      · next hin => rw [hP.entryAt_old h (by omega) fun e => hs e.symm]; rfl
      · rfl
  have hsize : heapSize (entries d) + (entryAt data slotId).size =
      heapSize (entries data) + len := by
    have hg : (entries data)[slotId]? = some (entryAt data slotId) := by
      rw [getElem?_entries, if_pos hi]
    rw [hent, heapSize_set hg]; simp
  have hspace := h.space
  refine ⟨hent, hP.valid h (by rw [hfsp]; omega), fun a ha => ?_, by omega⟩
  simp only [PAGE_SIZE] at ha
  rw [r3 a (by omega), p3 a (by omega) (by omega)]

/-- Without a slot `slotId` the assertion fails. -/
theorem placeRecord_assert (h : Valid data) (hi : maxSlotId data ≤ slotId)
    (hr : slotAddr (maxSlotId data) + len ≤ freeSpacePtr data) :
    placeRecord data slotId false record len = .error (.assertFailed "slot_ptr != nullptr") := by
  simp only [slotAddr_eq] at hr
  rw [placeRecord_eq h (by omega)]
  simp only [Bool.false_eq_true, if_false]
  have : maxSlotId (pushHeap data record len) = maxSlotId data :=
    readLE_congr fun a _ _ => (pushHeap_spec _ h (by simp only [slotAddr_eq]; omega)).2.2 a
      (by omega) (by omega)
  rw [getSlot_of_ge (by omega)]

end

end DbInternals.SlottedPage
