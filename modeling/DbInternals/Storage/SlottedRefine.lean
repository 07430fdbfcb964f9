import DbInternals.Core.LTS
import DbInternals.Storage.SlottedOps

/-!
# A slotted page is a list of optional records

`SlotList` says what a page is for: a list of optional byte strings, an id, a
type and two sibling ids, with the gap of contiguous bytes that an insert may
take before it has to compact. `slotLts` is the list under the operations,
`pageLts` the bytes.

`page_refines`: every run of a page is a run of its list with the same
results, the page reads back as the list, its layout is in order, and no
operation faults. An insert compacts the page exactly when the gap is too small.
-/
namespace DbInternals.SlottedPage

open Mem

/-! ## The list -/

/-- What a page stands for. -/
structure SlotList where
  slots : List (Option Bytes)
  pageId : Nat
  pageType : SlottedPageType
  left : Nat
  right : Nat
  gap : Nat

/-- The records present, in order. -/
def present (slots : List (Option Bytes)) : List (Option Bytes) := slots.filter Option.isSome

/-- The entries present before `pos`. -/
def presentBefore (slots : List (Option Bytes)) (pos : Nat) : Nat :=
  (slots.take pos).countP Option.isSome

/-- Bytes the records present take, slot entries included. -/
def usedSpace (slots : List (Option Bytes)) : Nat :=
  (slots.map fun s => (s.map fun b => b.length + sizeofSlot).getD 0).sum

/-- Room for records and their slots. -/
def capacity : Nat := PAGE_SIZE - sizeofHeader

/-- A record fits: its slot and its bytes are left free. -/
def Fits (slots : List (Option Bytes)) (r : Bytes) : Prop :=
  r.length + sizeofSlot + usedSpace slots ≤ capacity

instance (slots : List (Option Bytes)) (r : Bytes) : Decidable (Fits slots r) :=
  inferInstanceAs (Decidable (_ ≤ _))

/-- What the records present leave free is in one piece. -/
def SlotList.compacted (l : SlotList) : SlotList :=
  { l with slots := present l.slots, gap := capacity - usedSpace l.slots }

/-- The record and its slot are taken from the gap. -/
def SlotList.insert (l : SlotList) (pos : Nat) (r : Bytes) : SlotList :=
  { l with slots := l.slots.insertIdx pos (some r), gap := l.gap - (r.length + sizeofSlot) }

/-! ## Calls and their results -/

inductive PageOp where
  | insertRecordAt (logicalPos : Nat) (record : Bytes)
  | deleteRecord (slotId : Nat)
  | compactify
  | setLeftSibling (leftSibling : Nat)
  | setRightSibling (rightSibling : Nat)
  deriving DecidableEq, Repr

inductive PageResult where
  | slot (slotId : Option Nat)
  | flag (b : Bool)
  | unit
  deriving DecidableEq, Repr

/-- Arguments in range: records of 1..4096 bytes, 32-bit page ids. -/
def PageOp.Ok : PageOp → Prop
  | insertRecordAt _ r => 1 ≤ r.length ∧ r.length ≤ PAGE_SIZE
  | setLeftSibling p | setRightSibling p => p < 2 ^ 32
  | deleteRecord _ | compactify => True

instance PageOp.decidableOk (op : PageOp) : Decidable op.Ok := by
  cases op <;> unfold PageOp.Ok <;> infer_instance

/-- One call on the bytes. -/
def PageOp.exec (data : Mem) : PageOp → Except Fault (PageResult × Mem)
  | insertRecordAt pos r =>
    (SlottedPage.insertRecordAt data pos (ofBytes r) r.length).map fun x => (.slot x.1, x.2)
  | deleteRecord i => .ok (.flag (SlottedPage.deleteRecord data i).1,
      (SlottedPage.deleteRecord data i).2)
  | compactify => .ok (.unit, SlottedPage.compactify data)
  | setLeftSibling p => .ok (.unit, SlottedPage.setLeftSibling data p)
  | setRightSibling p => .ok (.unit, SlottedPage.setRightSibling data p)

/-- One call on the list. -/
inductive SlotStep (l : SlotList) : PageOp → PageResult → SlotList → Prop
  /-- the gap is large enough: the record goes in at `pos` -/
  | insertAt {pos r} (hpos : pos ≤ l.slots.length) (hfit : Fits l.slots r)
    (hgap : r.length + sizeofSlot ≤ l.gap) :
    SlotStep l (.insertRecordAt pos r) (.slot (some pos)) (l.insert pos r)
  /-- it is not: absent entries are dropped, the record goes in at its new position -/
  | insertCompacted {pos r} (hpos : pos ≤ l.slots.length) (hfit : Fits l.slots r)
    (hgap : l.gap < r.length + sizeofSlot) :
    SlotStep l (.insertRecordAt pos r) (.slot (some (presentBefore l.slots pos)))
      (l.compacted.insert (presentBefore l.slots pos) r)
  | insertNone {pos r} (h : l.slots.length < pos ∨ ¬ Fits l.slots r) :
    SlotStep l (.insertRecordAt pos r) (.slot none) l
  | deletePresent {i b} (h : l.slots[i]? = some (some b)) :
    SlotStep l (.deleteRecord i) (.flag true) { l with slots := l.slots.set i none }
  | deleteAbsent {i} (h : ∀ b, l.slots[i]? ≠ some (some b)) :
    SlotStep l (.deleteRecord i) (.flag false) l
  | compactify : SlotStep l .compactify .unit l.compacted
  | setLeft {p} : SlotStep l (.setLeftSibling p) .unit { l with left := p }
  | setRight {p} : SlotStep l (.setRightSibling p) .unit { l with right := p }

section
variable (pageId : Nat) (type : SlottedPageType)

def slotLts : LTS SlotList (PageOp × PageResult) where
  init l := l = ⟨[], pageId, type, INVALID_PAGE_ID, INVALID_PAGE_ID, capacity⟩
  step l op l' := op.1.Ok ∧ SlotStep l op.1 op.2 l'

/-- The page from `init` on; the buffer may have held anything before. -/
def pageLts : LTS Mem (PageOp × PageResult) where
  init data := ∃ raw, data = init raw pageId type
  step data op data' := op.1.Ok ∧ op.1.exec data = .ok (op.2, data')

end

/-! ## The refinement -/

/-- The page reads back as the list, and finds room in one piece where the list does. -/
structure Refines (data : Mem) (l : SlotList) : Prop where
  count : getSlotCount data = l.slots.length
  record : ∀ i b, l.slots[i]? = some (some b) →
    ∃ o, getRecord data i = (some o, b.length) ∧ data.slice o b.length = b
  absent : ∀ i, (∀ b, l.slots[i]? ≠ some (some b)) → getRecord data i = (none, 0)
  pageId : headerPageId data = l.pageId
  pageType : getPageType data = l.pageType
  left : getLeftSibling data = l.left
  right : getRightSibling data = l.right
  contiguous : ∀ len, canInsertContigious data len true = true ↔ len + sizeofSlot ≤ l.gap

/-- Slot array below heap, live records disjoint and inside the heap. -/
structure InOrder (data : Mem) : Prop where
  bounds : sizeofHeader + 4 * getSlotCount data ≤ freeSpacePtr data ∧ freeSpacePtr data ≤ 4096
  inside : ∀ i o n, getRecord data i = (some o, n) → freeSpacePtr data ≤ o ∧ o + n ≤ 4096
  disjoint : ∀ i j o p n m, i ≠ j → getRecord data i = (some o, n) →
    getRecord data j = (some p, m) → o + n ≤ p ∨ p + m ≤ o

def recordsOf (data : Mem) : List (Option Bytes) := (entries data).map Entry.record?

/-- The simulation relation: entries, header fields and the contiguous bytes. -/
structure Abs (data : Mem) (l : SlotList) : Prop where
  valid : Valid data
  tight : Tight data
  slots : recordsOf data = l.slots
  pageId : headerPageId data = l.pageId
  pageType : getPageType data = l.pageType
  left : getLeftSibling data = l.left
  right : getRightSibling data = l.right
  gap : getFreeSpace data = l.gap

section
variable {data d : Mem} {l : SlotList}

theorem getElem?_recordsOf {i : Nat} {b : Bytes} :
    (recordsOf data)[i]? = some (some b) ↔ (entries data)[i]? = some (.live b) := by
  rw [recordsOf, List.getElem?_map]
  cases (entries data)[i]? with
  | none => simp
  | some e => cases e <;> simp

theorem present_records (es : List Entry) :
    present (es.map Entry.record?) = (liveEntries es).map Entry.record? := by
  rw [present, liveEntries, List.filter_map]
  congr 1
  exact List.filter_congr fun e _ => Entry.record?_isSome e

theorem presentBefore_records (es : List Entry) (pos : Nat) :
    presentBefore (es.map Entry.record?) pos = liveBefore es pos := by
  rw [presentBefore, liveBefore, ← List.map_take, List.countP_map]
  exact List.countP_congr fun e _ => by rw [Function.comp, Entry.record?_isSome]

theorem usedSpace_records (es : List Entry) :
    usedSpace (es.map Entry.record?) = cost (liveEntries es) := by
  induction es with
  | nil => rfl
  | cons e es ih =>
    simp only [usedSpace, List.map_map, List.map_cons, List.sum_cons] at ih ⊢
    rw [ih]
    cases e <;> simp [sizeofSlot]

theorem Valid.inOrder (h : Valid data) : InOrder data := by
  have hrec : ∀ i o n, getRecord data i = (some o, n) →
      i < maxSlotId data ∧ off data i = o ∧ siz data i = n ∧ o ≠ 0 := by
    intro i o n hi
    by_cases hc : maxSlotId data ≤ i ∨ off data i = 0
    · rw [getRecord_dead h.layout hc] at hi; simp at hi
    · obtain ⟨h1, h2⟩ := not_or.mp hc
      rw [getRecord_live h.layout (by omega) h2] at hi
      simp only [Prod.mk.injEq, Option.some.injEq] at hi
      exact ⟨by omega, hi.1, hi.2, hi.1 ▸ h2⟩
  refine ⟨⟨h.slots_le, h.heap_le⟩, ?_, ?_⟩
  · intro i o n hi
    obtain ⟨h1, rfl, rfl, h2⟩ := hrec i o n hi
    have := h.live i h1 h2
    exact ⟨this.1, this.2.1⟩
  · intro i j o p n m hij hi hj
    obtain ⟨h1, rfl, rfl, h2⟩ := hrec i o n hi
    obtain ⟨h3, rfl, rfl, h4⟩ := hrec j p m hj
    exact h.disjoint i h1 j h3 hij h2 h4

/-- The code's test of the gap is the list's. -/
theorem Abs.contiguous (h : Abs data l) (len : Nat) :
    canInsertContigious data len true = true ↔ len + sizeofSlot ≤ l.gap := by
  rw [canInsertContigious, if_pos rfl, decide_eq_true_eq, h.gap]

theorem Abs.refines (h : Abs data l) : Refines data l := by
  refine ⟨?_, ?_, ?_, h.pageId, h.pageType, h.left, h.right, h.contiguous⟩
  · rw [← h.slots, recordsOf, List.length_map, length_entries]; rfl
  · intro i b hb
    rw [← h.slots, getElem?_recordsOf] at hb
    obtain ⟨o, h1, h2, -, -⟩ := getRecord_of_entry h.valid hb
    exact ⟨o, h1, h2⟩
  · intro i hb
    refine getRecord_of_dead h.valid fun b e => hb b ?_
    rw [← h.slots, getElem?_recordsOf]; exact e

/-- The code's space check is the list's. -/
theorem Abs.fits (h : Abs data l) {r : Bytes} :
    Fits l.slots r ↔ r.length + 4 ≤ getTotalFreeSpace data := by
  have h1 := h.tight.totalFree h.valid
  rw [Fits, capacity, ← h.slots, recordsOf, usedSpace_records]
  simp only [sizeofSlot]; omega

theorem Abs.length (h : Abs data l) : l.slots.length = maxSlotId data := by
  rw [← h.slots, recordsOf, List.length_map, length_entries]

/-- A page with the header of `data`, and other slots and free bytes. -/
theorem Abs.update {d : Mem} (h : Abs data l) (hv : Valid d) (ht : Tight d) (hm : SameMeta data d)
    {slots : List (Option Bytes)} (hs : recordsOf d = slots) {gap : Nat} (hg : getFreeSpace d = gap) :
    Abs d { l with slots, gap } :=
  ⟨hv, ht, hs, hm.pageId.trans h.pageId, hm.pageType.trans h.pageType, hm.left.trans h.left,
    hm.right.trans h.right, hg⟩

theorem abs_compactify (h : Abs data l) : Abs (compactify data) l.compacted := by
  obtain ⟨h1, h2, h3, h4⟩ := compactify_spec h.valid
  refine h.update h2 h3 h4 ?_ ?_
  · rw [recordsOf, h1, ← h.slots, recordsOf, present_records]
  · have hfree := h3.freeSpace h2
    rw [h1] at hfree
    rw [capacity, ← h.slots, recordsOf, usedSpace_records]
    omega

/-- A record inserted in a page that stands for `slots`. -/
theorem Inserted.recordsOf {pos : Nat} {r : Bytes} (h : Inserted data d pos r) :
    recordsOf d = (SlottedPage.recordsOf data).insertIdx pos (some r) := by
  rw [SlottedPage.recordsOf, h.entries, List.map_insertIdx]; rfl

/-- The record and its slot come out of the contiguous bytes. -/
theorem Inserted.freeSpace {pos : Nat} {r : Bytes} (h : Inserted data d pos r) (hv : Valid data)
    (hpos : pos ≤ maxSlotId data) :
    getFreeSpace d = getFreeSpace data - (r.length + sizeofSlot) := by
  have hcount : maxSlotId d = maxSlotId data + 1 := by
    rw [← length_entries, h.entries, List.length_insertIdx_of_le_length (by rwa [length_entries]),
      length_entries]
  have hheap := h.heap
  rw [getFreeSpace_eq hv, getFreeSpace_eq h.valid, hcount]
  simp only [slotAddr_eq, sizeofSlot]
  omega

theorem Abs.inserted {pos : Nat} {r : Bytes} (h : Abs data l) (hi : Inserted data d pos r)
    (hpos : pos ≤ l.slots.length) : Abs d (l.insert pos r) := by
  refine h.update hi.valid (hi.tight h.tight) hi.sameMeta ?_ ?_
  · rw [hi.recordsOf, h.slots]
  · rw [hi.freeSpace h.valid (h.length ▸ hpos), h.gap]

theorem presentBefore_le (slots : List (Option Bytes)) (pos : Nat) :
    presentBefore slots pos ≤ (present slots).length := by
  rw [present, ← List.countP_eq_length_filter]
  exact (List.take_sublist pos slots).countP_le

theorem step_insertRecordAt (h : Abs data l) (pos : Nat) {r : Bytes} (h1 : 1 ≤ r.length)
    (h2 : r.length ≤ PAGE_SIZE) : ∃ res d l',
    insertRecordAt data pos (ofBytes r) r.length = .ok (res, d) ∧
      SlotStep l (.insertRecordAt pos r) (.slot res) l' ∧ Abs d l' := by
  simp only [PAGE_SIZE] at h2
  by_cases hc : pos ≤ maxSlotId data ∧ r.length + 4 ≤ getTotalFreeSpace data
  · have hpos : pos ≤ l.slots.length := by rw [h.length]; exact hc.1
    have hfit := h.fits.mpr hc.2
    have hs := insertRecordAt_spec (ofBytes r) h.valid h1 hc.1 hc.2
    rw [slice_ofBytes] at hs
    split at hs
    · next hgap =>
      obtain ⟨d, e, hi⟩ := hs
      exact ⟨_, d, _, e, .insertAt hpos hfit ((h.contiguous _).mp hgap), h.inserted hi hpos⟩
    · next hgap =>
      obtain ⟨d, e, hi⟩ := hs
      rw [h.contiguous, Nat.not_le] at hgap
      rw [← presentBefore_records, ← SlottedPage.recordsOf, h.slots] at e hi
      exact ⟨_, d, _, e, .insertCompacted hpos hfit hgap,
        (abs_compactify h).inserted hi (presentBefore_le l.slots pos)⟩
  · refine ⟨none, data, l, insertRecordAt_none (by omega) (by omega), .insertNone ?_, h⟩
    rw [h.length, h.fits]; omega

theorem insertRecordAt_unchanged (h : Valid data) {pos : Nat} {r : Bytes} (h1 : 1 ≤ r.length)
    (h2 : r.length ≤ PAGE_SIZE)
    (he : insertRecordAt data pos (ofBytes r) r.length = .ok (none, d)) : d = data := by
  simp only [PAGE_SIZE] at h2
  by_cases hc : pos ≤ maxSlotId data ∧ r.length + 4 ≤ getTotalFreeSpace data
  · have hs := insertRecordAt_spec (ofBytes r) h h1 hc.1 hc.2
    split at hs <;> (obtain ⟨d', e, -⟩ := hs; rw [he] at e; simp at e)
  · rw [insertRecordAt_none (by omega) (by omega)] at he
    simp only [Except.ok.injEq, Prod.mk.injEq, true_and] at he
    exact he.symm

theorem step_deleteRecord (h : Abs data l) (i : Nat) : ∃ l',
    SlotStep l (.deleteRecord i) (.flag (deleteRecord data i).1) l' ∧
      Abs (deleteRecord data i).2 l' := by
  by_cases hb : ∃ b, (entries data)[i]? = some (.live b)
  · obtain ⟨b, hb⟩ := hb
    obtain ⟨d, e, h1, h2, h3, h4⟩ := deleteRecord_spec h.valid hb
    rw [e]
    refine ⟨_, .deletePresent (b := b) ?_, h.update h2 (h3 h.tight) h4 ?_ ?_⟩
    · rw [← h.slots, getElem?_recordsOf]; exact hb
    · rw [recordsOf, h1, List.map_set, ← h.slots]; rfl
    · -- the dead slot keeps its bytes
      have hheap : heapSize ((entries data).set i (.dead b.length)) + (Entry.live b).size =
          heapSize (entries data) + b.length := heapSize_set hb
      have hfree := (h3 h.tight).freeSpace h2
      have hfree' := h.tight.freeSpace h.valid
      rw [cost_eq] at hfree hfree'
      rw [h1, List.length_set] at hfree
      rw [← h.gap]
      simp only [Entry.size_live] at hheap
      omega
  · have hb' : ∀ b, (entries data)[i]? ≠ some (.live b) := fun b e => hb ⟨b, e⟩
    rw [deleteRecord_false h.valid hb']
    refine ⟨l, .deleteAbsent fun b => ?_, h⟩
    rw [← h.slots, Ne, getElem?_recordsOf]; exact hb' b

/-- Either setter: a 4-byte store into the sibling fields. -/
theorem Abs.setSibling (h : Abs data l) {o p : Nat} (ho : o = 28 ∨ o = 32) :
    Valid (data.writeLE o 4 p) ∧ Tight (data.writeLE o 4 p) ∧
      recordsOf (data.writeLE o 4 p) = l.slots ∧
      getFreeSpace (data.writeLE o 4 p) = l.gap ∧
      headerPageId (data.writeLE o 4 p) = l.pageId ∧
      getPageType (data.writeLE o 4 p) = l.pageType := by
  obtain ⟨h1, h2, h3⟩ := entries_writeLE (o := o) (k := 4) (v := p) h.valid (by omega) (by omega)
  refine ⟨h2, h3 h.tight, ?_, ?_, ?_, ?_⟩
  · rw [recordsOf, h1]; exact h.slots
  · have hfree := (h3 h.tight).freeSpace h2
    have hfree' := h.tight.freeSpace h.valid
    rw [h1] at hfree
    rw [← h.gap]
    omega
  · rw [← h.pageId]; exact readLE_writeLE_frame (.inl (by omega))
  · rw [← h.pageType, getPageType, getPageType, readLE_writeLE_frame (.inl (by omega))]

theorem step_setLeft (h : Abs data l) {p : Nat} (hp : p < 2 ^ 32) :
    Abs (setLeftSibling data p) { l with left := p } := by
  obtain ⟨h1, h2, h3, hg, h4, h5⟩ := h.setSibling (o := 28) (p := p) (.inl rfl)
  refine ⟨h1, h2, h3, h4, h5, ?_, ?_, hg⟩
  · rw [getLeftSibling, setLeftSibling, readLE_writeLE]
    exact Nat.mod_eq_of_lt hp
  · rw [← h.right]; exact readLE_writeLE_frame (.inr (by omega))

theorem step_setRight (h : Abs data l) {p : Nat} (hp : p < 2 ^ 32) :
    Abs (setRightSibling data p) { l with right := p } := by
  obtain ⟨h1, h2, h3, hg, h4, h5⟩ := h.setSibling (o := 32) (p := p) (.inr rfl)
  refine ⟨h1, h2, h3, h4, h5, ?_, ?_, hg⟩
  · rw [← h.left]; exact readLE_writeLE_frame (.inl (by omega))
  · rw [getRightSibling, setRightSibling, readLE_writeLE]
    exact Nat.mod_eq_of_lt hp

/-- One call: it returns, and the list makes the same step. -/
theorem step_refines (h : Abs data l) (op : PageOp) (hop : op.Ok) : ∃ res d l',
    op.exec data = .ok (res, d) ∧ SlotStep l op res l' ∧ Abs d l' := by
  cases op with
  | insertRecordAt pos r =>
    obtain ⟨res, d, l', e, hs, ha⟩ := step_insertRecordAt h pos hop.1 hop.2
    exact ⟨.slot res, d, l', by rw [PageOp.exec, e]; rfl, hs, ha⟩
  | deleteRecord i =>
    obtain ⟨l', hs, ha⟩ := step_deleteRecord h i
    exact ⟨_, _, l', rfl, hs, ha⟩
  | compactify => exact ⟨_, _, _, rfl, .compactify, abs_compactify h⟩
  | setLeftSibling p => exact ⟨_, _, _, rfl, .setLeft, step_setLeft h hop⟩
  | setRightSibling p => exact ⟨_, _, _, rfl, .setRight, step_setRight h hop⟩

theorem abs_init (raw : Mem) {pageId : Nat} (hid : pageId < 2 ^ 32) (type : SlottedPageType) :
    Abs (init raw pageId type) ⟨[], pageId, type, INVALID_PAGE_ID, INVALID_PAGE_ID, capacity⟩ := by
  refine ⟨init_valid .., init_tight .., by rw [recordsOf, init_entries]; rfl, init_pageId _ _ _ hid,
    init_pageType .., init_left .., init_right .., ?_⟩
  rw [getFreeSpace_eq (init_valid ..), init_maxSlotId, init_freeSpacePtr]
  rfl

theorem page_simulates {pageId : Nat} (hid : pageId < 2 ^ 32) (type : SlottedPageType) :
    LTS.Simulates (pageLts pageId type) (slotLts pageId type) Abs where
  init := by
    rintro _ ⟨raw, rfl⟩
    exact ⟨_, rfl, abs_init raw hid type⟩
  step := by
    rintro data ⟨op, res⟩ d l h ⟨hop, he⟩
    obtain ⟨res', d', l', e, hs, ha⟩ := step_refines h op hop
    rw [e] at he
    simp only [Except.ok.injEq, Prod.mk.injEq] at he
    obtain ⟨rfl, rfl⟩ := he
    exact ⟨l', ⟨hop, hs⟩, ha⟩

/-- The list makes one step only. -/
theorem SlotStep.unique {op : PageOp} {res res' : PageResult} {l' l'' : SlotList}
    (h : SlotStep l op res l') (h' : SlotStep l op res' l'') : res = res' ∧ l' = l'' := by
  cases h with
  | insertAt hpos hfit hgap =>
    cases h' with
    | insertAt => exact ⟨rfl, rfl⟩
    | insertCompacted _ _ hgap' => omega
    | insertNone hno => exact absurd hno (not_or.mpr ⟨Nat.not_lt.mpr hpos, not_not.mpr hfit⟩)
  | insertCompacted hpos hfit hgap =>
    cases h' with
    | insertAt _ _ hgap' => omega
    | insertCompacted => exact ⟨rfl, rfl⟩
    | insertNone hno => exact absurd hno (not_or.mpr ⟨Nat.not_lt.mpr hpos, not_not.mpr hfit⟩)
  | insertNone hno =>
    cases h' with
    | insertAt hpos hfit => exact absurd hno (not_or.mpr ⟨Nat.not_lt.mpr hpos, not_not.mpr hfit⟩)
    | insertCompacted hpos hfit => exact absurd hno (not_or.mpr ⟨Nat.not_lt.mpr hpos, not_not.mpr hfit⟩)
    | insertNone => exact ⟨rfl, rfl⟩
  | deletePresent hb =>
    cases h' with
    | deletePresent => exact ⟨rfl, rfl⟩
    | deleteAbsent hno => exact absurd hb (hno _)
  | deleteAbsent hno =>
    cases h' with
    | deletePresent hb => exact absurd hb (hno _)
    | deleteAbsent => exact ⟨rfl, rfl⟩
  | compactify => cases h'; exact ⟨rfl, rfl⟩
  | setLeft => cases h'; exact ⟨rfl, rfl⟩
  | setRight => cases h'; exact ⟨rfl, rfl⟩

/-- Runs of the list are runs of the page. -/
theorem slot_simulates {pageId : Nat} (hid : pageId < 2 ^ 32) (type : SlottedPageType) :
    LTS.Simulates (slotLts pageId type) (pageLts pageId type) fun l data => Abs data l where
  init := by
    rintro _ rfl
    exact ⟨_, ⟨Mem.zero, rfl⟩, abs_init _ hid type⟩
  step := by
    rintro l ⟨op, res⟩ l' data h ⟨hop, hs⟩
    obtain ⟨res', d, l'', e, hs', ha⟩ := step_refines h op hop
    obtain ⟨rfl, rfl⟩ := hs.unique hs'
    exact ⟨d, ⟨hop, e⟩, ha⟩

end

/-- Every run of a page is a run of its list with the same results; in every
state reached the page reads back as the list, its layout is in order, any
further call returns, and an insert that finds no place leaves the bytes
alone. -/
theorem page_refines (pageId : Nat) (hid : pageId < 2 ^ 32) (type : SlottedPageType)
    (run : List (PageOp × PageResult)) (data : Mem) (h : (pageLts pageId type).Exec run data) :
    (∃ l, (slotLts pageId type).Exec run l ∧ Refines data l) ∧ InOrder data ∧
      (∀ op : PageOp, op.Ok → ∃ res d, op.exec data = .ok (res, d)) ∧
      ∀ pos r d, (PageOp.insertRecordAt pos r).Ok →
        (PageOp.insertRecordAt pos r).exec data = .ok (.slot none, d) → d = data := by
  obtain ⟨l, hl, ha⟩ := (page_simulates hid type).exec h
  refine ⟨⟨l, hl, ha.refines⟩, ha.valid.inOrder, fun op hop => ?_, fun pos r d hop he => ?_⟩
  · obtain ⟨res, d, -, e, -, -⟩ := step_refines ha op hop
    exact ⟨res, d, e⟩
  · obtain ⟨res, d', l', e, -, -⟩ := step_insertRecordAt ha pos hop.1 hop.2
    rw [PageOp.exec, e] at he
    simp only [Except.map, Except.ok.injEq, Prod.mk.injEq, PageResult.slot.injEq] at he
    obtain ⟨rfl, rfl⟩ := he
    exact insertRecordAt_unchanged ha.valid hop.1 hop.2 e

/-- Two records of 2000 bytes, the first deleted: 48 contiguous bytes are left. -/
theorem churned_exec {a b : Bytes} (ha : a.length = 2000) (hb : b.length = 2000) :
    (slotLts 7 .leafPage).Exec [(.insertRecordAt 0 a, .slot (some 0)),
      (.insertRecordAt 1 b, .slot (some 1)), (.deleteRecord 0, .flag true)]
      ⟨[none, some b], 7, .leafPage, INVALID_PAGE_ID, INVALID_PAGE_ID, 48⟩ := by
  have h0 : (slotLts 7 .leafPage).Exec []
      ⟨[], 7, .leafPage, INVALID_PAGE_ID, INVALID_PAGE_ID, 4056⟩ := .nil rfl
  have h1 : (slotLts 7 .leafPage).Exec [(.insertRecordAt 0 a, .slot (some 0))]
      ⟨[some a], 7, .leafPage, INVALID_PAGE_ID, INVALID_PAGE_ID, 2052⟩ := by
    have hs := SlotStep.insertAt (l := ⟨[], 7, .leafPage, INVALID_PAGE_ID, INVALID_PAGE_ID, 4056⟩)
      (r := a) (Nat.zero_le 0) (by simp [Fits, usedSpace, ha]; decide) (by simp [ha, sizeofSlot])
    simp only [SlotList.insert, ha, sizeofSlot] at hs
    exact h0.snoc ⟨by simp [PageOp.Ok, ha, PAGE_SIZE], hs⟩
  have h2 : (slotLts 7 .leafPage).Exec
      [(.insertRecordAt 0 a, .slot (some 0)), (.insertRecordAt 1 b, .slot (some 1))]
      ⟨[some a, some b], 7, .leafPage, INVALID_PAGE_ID, INVALID_PAGE_ID, 48⟩ := by
    have hs := SlotStep.insertAt
      (l := ⟨[some a], 7, .leafPage, INVALID_PAGE_ID, INVALID_PAGE_ID, 2052⟩)
      (r := b) (Nat.le_refl 1) (by simp [Fits, usedSpace, ha, hb]; decide) (by simp [hb, sizeofSlot])
    simp only [SlotList.insert, hb, sizeofSlot] at hs
    exact h1.snoc ⟨by simp [PageOp.Ok, hb, PAGE_SIZE], hs⟩
  exact h2.snoc ⟨trivial, .deletePresent rfl⟩

/-- A third record of 100 bytes, for position 1: the page is compacted, and it goes in
at position 0. -/
theorem compacted_exec {a b c : Bytes} (ha : a.length = 2000) (hb : b.length = 2000)
    (hc : c.length = 100) :
    (slotLts 7 .leafPage).Exec [(.insertRecordAt 0 a, .slot (some 0)),
      (.insertRecordAt 1 b, .slot (some 1)), (.deleteRecord 0, .flag true),
      (.insertRecordAt 1 c, .slot (some 0))]
      ⟨[some c, some b], 7, .leafPage, INVALID_PAGE_ID, INVALID_PAGE_ID, 1948⟩ := by
  have hs := SlotStep.insertCompacted
    (l := ⟨[none, some b], 7, .leafPage, INVALID_PAGE_ID, INVALID_PAGE_ID, 48⟩)
    (r := c) (Nat.le_succ 1) (by simp [Fits, usedSpace, hb, hc]; decide)
    (by simp [hc, sizeofSlot])
  simp only [SlotList.insert, SlotList.compacted, present, presentBefore, usedSpace] at hs
  simp [hb, hc] at hs
  exact (churned_exec ha hb).snoc ⟨by simp [PageOp.Ok, hc, PAGE_SIZE], hs⟩

/-- The page takes that run, and holds the two records in the end. -/
theorem page_refines_compacted : ∃ (a b c : Bytes) (data : Mem),
    (pageLts 7 .leafPage).Exec [(.insertRecordAt 0 a, .slot (some 0)),
        (.insertRecordAt 1 b, .slot (some 1)), (.deleteRecord 0, .flag true),
        (.insertRecordAt 1 c, .slot (some 0))] data ∧
      (∃ l, (slotLts 7 .leafPage).Exec [(.insertRecordAt 0 a, .slot (some 0)),
        (.insertRecordAt 1 b, .slot (some 1)), (.deleteRecord 0, .flag true),
        (.insertRecordAt 1 c, .slot (some 0))] l ∧ Refines data l) ∧ InOrder data := by
  have hrun := compacted_exec (a := List.replicate 2000 1) (b := List.replicate 2000 2)
    (c := List.replicate 100 3) List.length_replicate List.length_replicate List.length_replicate
  obtain ⟨data, hdata, -⟩ := (slot_simulates (by decide) .leafPage).exec hrun
  obtain ⟨hl, hin, -, -⟩ := page_refines 7 (by decide) .leafPage _ data hdata
  exact ⟨_, _, _, data, hdata, hl, hin⟩

end DbInternals.SlottedPage
