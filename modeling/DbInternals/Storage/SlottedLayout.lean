import DbInternals.Storage.SlottedPage
import Mathlib.Algebra.BigOperators.Group.List.Basic

/-!
# Page layout: what a well-laid-out page is

`entries data` reads a page as the list of its slots: a live slot with its
bytes, a dead one with the size it still records. `Valid` is the layout
invariant: the slot array ends at or before `free_space_ptr`, the live
records are non-empty, pairwise disjoint and inside the heap, and the sizes
the slots record (dead ones included) fit in the heap. `Tight` says the
heap holds nothing else.

The space functions of the code are read off the entries
(`getFreeSpace_eq`, `getTotalFreeSpace_eq`).
-/
namespace DbInternals.SlottedPage

open Mem

/-! ## Slots by index -/

/-- Address of slot `i`. -/
def slotAddr (i : Nat) : Nat := sizeofHeader + sizeofSlot * i

def off (data : Mem) (i : Nat) : Nat := slotOffset data (slotAddr i)
def siz (data : Mem) (i : Nat) : Nat := slotSize data (slotAddr i)

theorem slotAddr_eq (i : Nat) : slotAddr i = 40 + 4 * i := rfl

theorem off_eq (data : Mem) (i : Nat) : off data i = data.readLE (40 + 4 * i) 2 := rfl

theorem siz_eq (data : Mem) (i : Nat) : siz data i = data.readLE (40 + 4 * i + 2) 2 := rfl

/-- A slot entry. -/
inductive Entry where
  | live (bytes : Bytes)
  | dead (size : Nat)
  deriving DecidableEq, Repr

namespace Entry

def size : Entry → Nat
  | live b => b.length
  | dead n => n

def isLive : Entry → Bool
  | live _ => true
  | dead _ => false

/-- The record a slot holds, `none` for a dead one. -/
def record? : Entry → Option Bytes
  | live b => some b
  | dead _ => none

@[simp] theorem size_live (b : Bytes) : (live b).size = b.length := rfl
@[simp] theorem size_dead (n : Nat) : (dead n).size = n := rfl
@[simp] theorem isLive_live (b : Bytes) : (live b).isLive = true := rfl
@[simp] theorem isLive_dead (n : Nat) : (dead n).isLive = false := rfl
@[simp] theorem record?_live (b : Bytes) : (live b).record? = some b := rfl
@[simp] theorem record?_dead (n : Nat) : (dead n).record? = none := rfl

theorem record?_isSome (e : Entry) : e.record?.isSome = e.isLive := by cases e <;> rfl

end Entry

def entryAt (data : Mem) (i : Nat) : Entry :=
  if off data i = 0 then .dead (siz data i) else .live (data.slice (off data i) (siz data i))

/-- The page as the list of its slots. -/
def entries (data : Mem) : List Entry := (List.range (maxSlotId data)).map (entryAt data)

@[simp] theorem length_entries (data : Mem) : (entries data).length = maxSlotId data := by
  simp [entries]

theorem getElem?_entries (data : Mem) (i : Nat) :
    (entries data)[i]? = if i < maxSlotId data then some (entryAt data i) else none := by
  simp only [entries, List.getElem?_map]
  split
  · rw [List.getElem?_range (by assumption)]; rfl
  · rw [List.getElem?_eq_none (by simp; omega)]; rfl

@[simp] theorem size_entryAt (data : Mem) (i : Nat) : (entryAt data i).size = siz data i := by
  unfold entryAt; split <;> simp

theorem isLive_entryAt (data : Mem) (i : Nat) : (entryAt data i).isLive = (off data i != 0) := by
  unfold entryAt; split <;> simp [*]

/-- Bytes the slots record, live and dead. -/
def heapSize (es : List Entry) : Nat := (es.map Entry.size).sum

/-- What a list of slots costs: bytes and slot entries. -/
def cost (es : List Entry) : Nat := (es.map fun e => e.size + sizeofSlot).sum

def liveEntries (es : List Entry) : List Entry := es.filter Entry.isLive

def deadEntries (es : List Entry) : List Entry := es.filter fun e => !e.isLive

/-- The records in the live slots. -/
def liveRecordsOf (es : List Entry) : List Bytes := es.filterMap Entry.record?

@[simp] theorem liveRecordsOf_nil : liveRecordsOf [] = [] := rfl

@[simp] theorem liveRecordsOf_live (b : Bytes) (es : List Entry) :
    liveRecordsOf (.live b :: es) = b :: liveRecordsOf es := rfl

@[simp] theorem liveRecordsOf_dead (n : Nat) (es : List Entry) :
    liveRecordsOf (.dead n :: es) = liveRecordsOf es := rfl

@[simp] theorem liveRecordsOf_append (es fs : List Entry) :
    liveRecordsOf (es ++ fs) = liveRecordsOf es ++ liveRecordsOf fs := List.filterMap_append ..

@[simp] theorem heapSize_nil : heapSize [] = 0 := rfl

@[simp] theorem heapSize_cons (e : Entry) (es : List Entry) :
    heapSize (e :: es) = e.size + heapSize es := by simp [heapSize]

@[simp] theorem heapSize_append (es fs : List Entry) :
    heapSize (es ++ fs) = heapSize es + heapSize fs := by simp [heapSize]

@[simp] theorem cost_nil : cost [] = 0 := rfl

@[simp] theorem cost_cons (e : Entry) (es : List Entry) :
    cost (e :: es) = e.size + 4 + cost es := by simp [cost, sizeofSlot]

@[simp] theorem cost_append (es fs : List Entry) : cost (es ++ fs) = cost es + cost fs := by
  simp [cost]

@[simp] theorem liveEntries_nil : liveEntries [] = [] := rfl
@[simp] theorem deadEntries_nil : deadEntries [] = [] := rfl

@[simp] theorem liveEntries_live (b : Bytes) (es : List Entry) :
    liveEntries (.live b :: es) = .live b :: liveEntries es := rfl

@[simp] theorem liveEntries_dead (n : Nat) (es : List Entry) :
    liveEntries (.dead n :: es) = liveEntries es := rfl

@[simp] theorem deadEntries_live (b : Bytes) (es : List Entry) :
    deadEntries (.live b :: es) = deadEntries es := rfl

@[simp] theorem deadEntries_dead (n : Nat) (es : List Entry) :
    deadEntries (.dead n :: es) = .dead n :: deadEntries es := rfl

@[simp] theorem liveEntries_append (es fs : List Entry) :
    liveEntries (es ++ fs) = liveEntries es ++ liveEntries fs := List.filter_append ..

@[simp] theorem deadEntries_append (es fs : List Entry) :
    deadEntries (es ++ fs) = deadEntries es ++ deadEntries fs := List.filter_append ..

theorem mem_liveRecordsOf {es : List Entry} {b : Bytes} : b ∈ liveRecordsOf es ↔ .live b ∈ es := by
  induction es with
  | nil => simp
  | cons e es ih => cases e <;> simp [ih]

theorem map_liveRecordsOf (es : List Entry) : (liveRecordsOf es).map .live = liveEntries es := by
  induction es with
  | nil => rfl
  | cons e es ih => cases e <;> simp [ih]

@[simp] theorem liveRecordsOf_map (bs : List Bytes) : liveRecordsOf (bs.map .live) = bs := by
  induction bs with
  | nil => rfl
  | cons b bs ih => simp [ih]

@[simp] theorem liveRecordsOf_liveEntries (es : List Entry) :
    liveRecordsOf (liveEntries es) = liveRecordsOf es := by
  rw [← map_liveRecordsOf, liveRecordsOf_map]

theorem cost_eq (es : List Entry) : cost es = heapSize es + 4 * es.length := by
  induction es with
  | nil => rfl
  | cons e es ih => simp [ih]; omega

theorem cost_live_dead (es : List Entry) :
    cost (liveEntries es) + cost (deadEntries es) = cost es := by
  induction es with
  | nil => rfl
  | cons e es ih => cases e <;> simp <;> omega

theorem heapSize_set {es : List Entry} {i : Nat} {e e' : Entry} (h : es[i]? = some e) :
    heapSize (es.set i e') + e.size = heapSize es + e'.size := by
  induction es generalizing i with
  | nil => simp at h
  | cons a es ih =>
    cases i with
    | zero => simp at h; subst h; simp; omega
    | succ i => simp only [List.getElem?_cons_succ] at h; have := ih h; simp; omega

theorem heapSize_perm {es fs : List Entry} (h : es.Perm fs) : heapSize es = heapSize fs :=
  (h.map _).sum_eq

/-! ## The layout invariant -/

structure Valid (data : Mem) : Prop where
  slots_le : slotAddr (maxSlotId data) ≤ freeSpacePtr data
  heap_le : freeSpacePtr data ≤ PAGE_SIZE
  live : ∀ i < maxSlotId data, off data i ≠ 0 →
    freeSpacePtr data ≤ off data i ∧ off data i + siz data i ≤ PAGE_SIZE ∧ 0 < siz data i
  disjoint : ∀ i < maxSlotId data, ∀ j < maxSlotId data, i ≠ j → off data i ≠ 0 →
    off data j ≠ 0 → off data i + siz data i ≤ off data j ∨ off data j + siz data j ≤ off data i
  space : freeSpacePtr data + heapSize (entries data) ≤ PAGE_SIZE

/-- The layout alone: the sizes of dead slots may be anything. -/
structure Layout (data : Mem) : Prop where
  slots_le : slotAddr (maxSlotId data) ≤ freeSpacePtr data
  heap_le : freeSpacePtr data ≤ PAGE_SIZE
  live : ∀ i < maxSlotId data, off data i ≠ 0 →
    freeSpacePtr data ≤ off data i ∧ off data i + siz data i ≤ PAGE_SIZE ∧ 0 < siz data i
  disjoint : ∀ i < maxSlotId data, ∀ j < maxSlotId data, i ≠ j → off data i ≠ 0 →
    off data j ≠ 0 → off data i + siz data i ≤ off data j ∨ off data j + siz data j ≤ off data i

/-- No heap byte is unaccounted for: what holds until a dead slot is reused. -/
def Tight (data : Mem) : Prop := freeSpacePtr data + heapSize (entries data) = PAGE_SIZE

section
variable {data : Mem}

theorem Valid.layout (h : Valid data) : Layout data := ⟨h.slots_le, h.heap_le, h.live, h.disjoint⟩

theorem Layout.slots_lt (h : Layout data) : 40 + 4 * maxSlotId data ≤ 4096 := by
  have h1 := h.slots_le; have h2 := h.heap_le
  simp only [slotAddr_eq, PAGE_SIZE] at h1 h2; omega

theorem Valid.slots_lt (h : Valid data) : 40 + 4 * maxSlotId data ≤ 4096 := h.layout.slots_lt

theorem Valid.addr_le (h : Valid data) {i : Nat} (hi : i < maxSlotId data) :
    slotAddr i + 4 ≤ freeSpacePtr data := by
  have h1 := h.slots_le
  simp only [slotAddr_eq] at h1 ⊢; omega

theorem getSlot_of_lt (hn : 40 + 4 * maxSlotId data ≤ 4096) {i : Nat} (hi : i < maxSlotId data) :
    getSlot data i = some (slotAddr i) := by
  have h : ¬ i ≥ maxSlotId data := by omega
  simp only [getSlot, h, if_false, sizeofHeader, sizeofSlot, slotAddr_eq, Option.some.injEq]
  omega

theorem getSlot_of_ge {i : Nat} (hi : maxSlotId data ≤ i) : getSlot data i = none := if_pos hi

theorem isLive_of_lt (hn : 40 + 4 * maxSlotId data ≤ 4096) {i : Nat} (hi : i < maxSlotId data) :
    isLive data i = (off data i != 0) := by
  simp only [isLive, getSlot_of_lt hn hi, off]

theorem isLive_eq_entry (hn : 40 + 4 * maxSlotId data ≤ 4096) {i : Nat}
    (hi : i < maxSlotId data) : isLive data i = (entryAt data i).isLive := by
  rw [isLive_of_lt hn hi, isLive_entryAt]

/-! ## Space -/

theorem Valid.gap_eq (h : Valid data) :
    gap data = (freeSpacePtr data - slotAddr (maxSlotId data) : Nat) := by
  have := h.slots_le
  simp only [gap, slotAddr] at this ⊢; omega

theorem getFreeSpace_eq (h : Valid data) :
    getFreeSpace data = freeSpacePtr data - slotAddr (maxSlotId data) := by
  have h2 := h.heap_le
  simp only [getFreeSpace, h.gap_eq, PAGE_SIZE] at h2 ⊢; omega

theorem deadSpace_eq (h : Valid data) : deadSpace data = cost (deadEntries (entries data)) := by
  have key : ∀ l : List Nat, (∀ i ∈ l, i < maxSlotId data) →
      (l.map fun i => (getSlot data i).elim 0 fun slot =>
        if slotOffset data slot = 0 then slotSize data slot + sizeofSlot else 0).sum =
        cost (deadEntries (l.map (entryAt data))) := by
    intro l
    induction l with
    | nil => intro _; rfl
    | cons i l ih =>
      intro hl
      have hi := hl i List.mem_cons_self
      have ih' := ih fun j hj => hl j (List.mem_cons_of_mem i hj)
      simp only [List.map_cons, List.sum_cons, ih', getSlot_of_lt h.slots_lt hi]
      change (if off data i = 0 then siz data i + 4 else 0) + _ = _
      by_cases h0 : off data i = 0 <;> simp [entryAt, h0]
  rw [entries, ← key _ fun i hi => List.mem_range.mp hi, deadSpace]
  congr 2
  funext i
  cases getSlot data i <;> rfl

theorem Valid.cost_le (h : Valid data) :
    freeSpacePtr data + cost (entries data) ≤ PAGE_SIZE + 4 * maxSlotId data := by
  have := h.space
  rw [cost_eq, length_entries]; omega

theorem getTotalFreeSpace_eq (h : Valid data) : getTotalFreeSpace data =
    freeSpacePtr data - slotAddr (maxSlotId data) + cost (deadEntries (entries data)) := by
  have h1 := h.slots_le
  have h3 := h.cost_le
  have h4 := cost_live_dead (entries data)
  have h5 : ¬ gap data + (deadSpace data : Int) < 0 := by rw [h.gap_eq]; omega
  have h6 := h.slots_lt
  simp only [getTotalFreeSpace, h5, if_false]
  rw [deadSpace_eq h, h.gap_eq]
  simp only [slotAddr_eq, PAGE_SIZE] at h1 h3 ⊢; omega

/-- On a tight page the free bytes are what the live records leave. -/
theorem Tight.totalFree (h : Valid data) (ht : Tight data) :
    getTotalFreeSpace data + cost (liveEntries (entries data)) = PAGE_SIZE - sizeofHeader := by
  have h1 := h.slots_le
  have h4 := cost_live_dead (entries data)
  rw [getTotalFreeSpace_eq h]
  rw [cost_eq (entries data), length_entries] at h4
  simp only [Tight, slotAddr_eq, PAGE_SIZE, sizeofHeader] at h1 ht ⊢; omega

theorem Tight.freeSpace (h : Valid data) (ht : Tight data) :
    getFreeSpace data + cost (entries data) = PAGE_SIZE - sizeofHeader := by
  have h1 := h.slots_le
  rw [getFreeSpace_eq h, cost_eq (entries data), length_entries]
  simp only [Tight, slotAddr_eq, PAGE_SIZE, sizeofHeader] at h1 ht ⊢; omega

end

/-! ## What a page shows depends on its first 4096 bytes -/

theorem off_congr {m m' : Mem} {i : Nat}
    (h : ∀ a, slotAddr i ≤ a → a < slotAddr i + 4 → m a = m' a) : off m i = off m' i :=
  readLE_congr fun a h1 h2 => h a h1 (by omega)

theorem siz_congr {m m' : Mem} {i : Nat}
    (h : ∀ a, slotAddr i ≤ a → a < slotAddr i + 4 → m a = m' a) : siz m i = siz m' i :=
  readLE_congr fun a h1 h2 => h a (by omega) (by omega)

theorem entryAt_congr {m m' : Mem} {i : Nat} (ho : off m i = off m' i) (hs : siz m i = siz m' i)
    (hb : off m i ≠ 0 → ∀ j < siz m i, m (off m i + j) = m' (off m i + j)) :
    entryAt m i = entryAt m' i := by
  unfold entryAt
  rw [← ho, ← hs]
  split
  · rfl
  · next h0 => rw [slice_congr (hb h0)]

/-- Slots and records lie in the page and outside the bytes 24 to 40. -/
theorem entries_congr {m m' : Mem} (h : Valid m)
    (hm : ∀ a < PAGE_SIZE, a < 24 ∨ 40 ≤ a → m' a = m a) :
    entries m' = entries m ∧ Valid m' ∧ (Tight m → Tight m') := by
  have hn := h.slots_lt
  have hmax : maxSlotId m' = maxSlotId m :=
    readLE_congr fun a _ _ => hm a (by simp only [PAGE_SIZE]; omega) (by omega)
  have hfsp : freeSpacePtr m' = freeSpacePtr m :=
    readLE_congr fun a _ _ => hm a (by simp only [PAGE_SIZE]; omega) (by omega)
  have hoff : ∀ i < maxSlotId m, off m' i = off m i := fun i hi =>
    off_congr fun a h1 h2 => by
      simp only [slotAddr_eq] at h1 h2
      exact hm a (by simp only [PAGE_SIZE]; omega) (by omega)
  have hsiz : ∀ i < maxSlotId m, siz m' i = siz m i := fun i hi =>
    siz_congr fun a h1 h2 => by
      simp only [slotAddr_eq] at h1 h2
      exact hm a (by simp only [PAGE_SIZE]; omega) (by omega)
  have hent : entries m' = entries m := by
    rw [entries, entries, hmax]
    refine List.map_congr_left fun i hi => ?_
    have hi := List.mem_range.mp hi
    refine entryAt_congr (hoff i hi) (hsiz i hi) fun h0 j hj => ?_
    rw [hoff i hi] at h0 ⊢
    rw [hsiz i hi] at hj
    have h1 := h.live i hi h0
    have h2 := h.slots_le
    simp only [slotAddr_eq] at h2
    exact hm _ (by omega) (by omega)
  refine ⟨hent, ⟨?_, ?_, ?_, ?_, ?_⟩, fun ht => ?_⟩
  · rw [hmax, hfsp]; exact h.slots_le
  · rw [hfsp]; exact h.heap_le
  · intro i hi
    rw [hmax] at hi
    rw [hfsp, hoff i hi, hsiz i hi]
    exact h.live i hi
  · intro i hi j hj
    rw [hmax] at hi hj
    rw [hoff i hi, hoff j hj, hsiz i hi, hsiz j hj]
    exact h.disjoint i hi j hj
  · rw [hfsp, hent]; exact h.space
  · rw [Tight, hfsp, hent]; exact ht

end DbInternals.SlottedPage
