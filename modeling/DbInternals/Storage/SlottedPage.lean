import DbInternals.Core.Memory
import DbInternals.Common.Types
import Mathlib.Data.List.Sort
import Mathlib.Algebra.Group.Int.Defs
import Mathlib.Algebra.GroupWithZero.Nat

/-!
# `SlottedPage`: the code

The functions of `src/storage/slotted_page.{h,cpp}` on the bytes of a page
(`Mem`, the memory `data_` points to: a store past byte 4095 would be a store
past the buffer). A `Slot*` is the address of the slot in the page; `uint16_t`
results are reduced modulo `2 ^ 16` where the source computes them wider.

`SlottedPageHeader` is `alignas(8)` with an 8-byte `lsn`, so its fields sit
at 0 (`page_id`), 8 (`lsn`), 16 (`check_sum`), 20 (`max_slot_id`),
22 (`free_space_ptr`), 24 (`page_type`), 28 and 32 (siblings), and
`sizeof(SlottedPageHeader)` is 40. Padding bytes are written as zero.
-/
namespace DbInternals.SlottedPage

/-- `sizeof(SlottedPageHeader)`, src/storage/slotted_page.h:72-83 -/
def sizeofHeader : Nat := 40

/-- `sizeof(Slot)`, src/storage/slotted_page.h:101-104 -/
def sizeofSlot : Nat := 4

/-- mirrors src/storage/slotted_page.h:64-70 -/
inductive SlottedPageType where
  | internalPage | leafPage
  deriving DecidableEq, Repr

def SlottedPageType.toByte : SlottedPageType → Nat
  | .internalPage => 0
  | .leafPage => 1

/-! ## Header fields -/

def headerPageId (data : Mem) : Nat := data.readLE 0 4
def maxSlotId (data : Mem) : Nat := data.readLE 20 2
def freeSpacePtr (data : Mem) : Nat := data.readLE 22 2
def setMaxSlotId (data : Mem) (n : Nat) : Mem := data.writeLE 20 2 n
def setFreeSpacePtr (data : Mem) (p : Nat) : Mem := data.writeLE 22 2 p

/-- mirrors src/storage/slotted_page.cpp:375-378; any byte but
`INTERNAL_PAGE` is not `== LEAF_PAGE` unless it is 1. -/
def getPageType (data : Mem) : SlottedPageType :=
  if data.readLE 24 1 = 1 then .leafPage else .internalPage

/-- mirrors src/storage/slotted_page.cpp:366-369 -/
def getSlotCount (data : Mem) : Nat := maxSlotId data

/-- mirrors src/storage/slotted_page.cpp:380-396 -/
def getRightSibling (data : Mem) : Nat := data.readLE 32 4
def getLeftSibling (data : Mem) : Nat := data.readLE 28 4
def setLeftSibling (data : Mem) (leftSibling : Nat) : Mem := data.writeLE 28 4 leftSibling
def setRightSibling (data : Mem) (rightSibling : Nat) : Mem := data.writeLE 32 4 rightSibling

/-- mirrors src/storage/slotted_page.cpp:72-94: the header, then zeros up to
the end of the page. -/
def init (data : Mem) (assignedId : Nat) (type : SlottedPageType) : Mem :=
  let header := Mem.zero
    |>.writeLE 0 4 assignedId
    |>.writeLE 20 2 0
    |>.writeLE 22 2 PAGE_SIZE
    |>.writeLE 24 1 type.toByte
    |>.writeLE 28 4 INVALID_PAGE_ID
    |>.writeLE 32 4 INVALID_PAGE_ID
  (data.copy 0 header sizeofHeader).copy sizeofHeader Mem.zero (PAGE_SIZE - sizeofHeader)

/-! ## Slots -/

/-- mirrors src/storage/slotted_page.h:135-149 (`slot_offset` is `uint16_t`) -/
def getSlot (data : Mem) (slotId : Nat) : Option Nat :=
  if slotId ≥ maxSlotId data then none else some ((sizeofHeader + sizeofSlot * slotId) % 2 ^ 16)

def slotOffset (data : Mem) (slot : Nat) : Nat := data.readLE slot 2
def slotSize (data : Mem) (slot : Nat) : Nat := data.readLE (slot + 2) 2

/-- `slot->offset = offset; slot->size = size` -/
def setSlot (data : Mem) (slot offset size : Nat) : Mem :=
  (data.writeLE slot 2 offset).writeLE (slot + 2) 2 size

/-- `slot && slot->offset != 0` -/
def isLive (data : Mem) (slotId : Nat) : Bool :=
  match getSlot data slotId with
  | none => false
  | some slot => slotOffset data slot != 0

/-- mirrors src/storage/slotted_page.h:151-159 -/
def findFirstFreeSlotId (data : Mem) : Nat :=
  ((List.range (maxSlotId data)).find? fun i => !isLive data i).getD (maxSlotId data)

/-! ## Space -/

/-- `free_space_ptr - (sizeof(header) + sizeof(Slot) * max_slot_id)` as `int32_t` -/
def gap (data : Mem) : Int := freeSpacePtr data - (sizeofHeader + sizeofSlot * maxSlotId data : Nat)

/-- mirrors src/storage/slotted_page.cpp:326-330 -/
def getFreeSpace (data : Mem) : Nat := (gap data % 2 ^ 16).toNat

/-- What the dead slots hold: their heap bytes and their slot entries. -/
def deadSpace (data : Mem) : Nat :=
  ((List.range (maxSlotId data)).map fun i =>
    match getSlot data i with
    | some slot => if slotOffset data slot = 0 then slotSize data slot + sizeofSlot else 0
    | none => 0).sum

/-- mirrors src/storage/slotted_page.cpp:340-354 -/
def getTotalFreeSpace (data : Mem) : Nat :=
  let space := gap data + deadSpace data
  if space < 0 then 0 else (space % 2 ^ 16).toNat

/-- mirrors src/storage/slotted_page.cpp:356-360 (the comparison is on `int`) -/
def canInsertContigious (data : Mem) (length : Nat) (needsNewSlot : Bool) : Bool :=
  let slotGrowth := if needsNewSlot then sizeofSlot else 0
  decide (getFreeSpace data ≥ length + slotGrowth)

/-! ## Compaction -/

/-- The live slots by descending offset.
mirrors src/storage/slotted_page.cpp:280-292 -/
def sortedLiveSlots (data : Mem) : List Nat :=
  (((List.range (maxSlotId data)).filter (isLive data)).filterMap (getSlot data)).insertionSort
    fun a b => slotOffset data a ≥ slotOffset data b

/-- Pack the records of the given slots against `currentFreePtr`.
mirrors src/storage/slotted_page.cpp:295-302 -/
def packRecords : List Nat → Nat → Mem → Nat × Mem
  | [], currentFreePtr, data => (currentFreePtr, data)
  | slot :: slots, currentFreePtr, data =>
    let currentFreePtr := (currentFreePtr + 2 ^ 16 - slotSize data slot) % 2 ^ 16
    let data :=
      if slotOffset data slot ≠ currentFreePtr then
        (data.copy currentFreePtr (data.shift (slotOffset data slot)) (slotSize data slot)).writeLE
          slot 2 currentFreePtr
      else data
    packRecords slots currentFreePtr data

/-- The stable in-place filter of the slot array; `n` slots are left to read.
mirrors src/storage/slotted_page.cpp:307-317 -/
def dropDead : Nat → Nat → Nat → Mem → Nat × Mem
  | 0, _, writeIdx, data => (writeIdx, data)
  | n + 1, readIdx, writeIdx, data =>
    match getSlot data readIdx with
    | none => dropDead n (readIdx + 1) writeIdx data
    | some readSlot =>
      if slotOffset data readSlot ≠ 0 then
        let data :=
          if writeIdx ≠ readIdx then
            match getSlot data writeIdx with
            | some writeSlot => data.copy writeSlot (data.shift readSlot) sizeofSlot
            | none => data
          else data
        dropDead n (readIdx + 1) (writeIdx + 1) data
      else dropDead n (readIdx + 1) writeIdx data

/-- mirrors src/storage/slotted_page.cpp:277-318 -/
def compactify (data : Mem) : Mem :=
  let (currentFreePtr, data) := packRecords (sortedLiveSlots data) PAGE_SIZE data
  let data := setFreeSpacePtr data currentFreePtr
  let (writeIdx, data) := dropDead (maxSlotId data) 0 0 data
  setMaxSlotId data writeIdx

/-! ## Operations -/

/-- Write the record below the heap and point the slot `slotId` at it.
mirrors src/storage/slotted_page.cpp:125-138 -/
def placeRecord (data : Mem) (slotId : Nat) (needsNewSlot : Bool) (record : Mem) (length : Nat) :
    Except Fault (Option Nat × Mem) :=
  let newOffset := (freeSpacePtr data + 2 ^ 16 - length) % 2 ^ 16
  let data := (setFreeSpacePtr data newOffset).copy newOffset record length
  let data := if needsNewSlot then setMaxSlotId data ((maxSlotId data + 1) % 2 ^ 16) else data
  match getSlot data slotId with
  | none => .error (.assertFailed "slot_ptr != nullptr")
  | some slotPtr => .ok (some slotId, setSlot data slotPtr newOffset length)

/-- mirrors src/storage/slotted_page.cpp:111-139 -/
def insertRecord (data record : Mem) (length : Nat) : Except Fault (Option Nat × Mem) :=
  if length = 0 then .ok (none, data) else
  let firstFreeSlotId := findFirstFreeSlotId data
  let needsNewSlot := decide (firstFreeSlotId = maxSlotId data)
  let spaceNeeded := (length + if needsNewSlot then sizeofSlot else 0) % 2 ^ 16
  if spaceNeeded > getTotalFreeSpace data then .ok (none, data) else
  -- the slot id chosen above is not looked up again after the compaction
  let data := if canInsertContigious data length needsNewSlot then data else compactify data
  placeRecord data firstFreeSlotId needsNewSlot record length

/-- Open a gap at `logicalPos` in the slot array.
mirrors src/storage/slotted_page.cpp:193-197 -/
def openGap (data : Mem) (logicalPos : Nat) : Mem :=
  let numToShift := (maxSlotId data + 2 ^ 16 - logicalPos) % 2 ^ 16
  let shiftStart := sizeofHeader + sizeofSlot * logicalPos
  let data := data.copy (shiftStart + sizeofSlot) (data.shift shiftStart) (numToShift * sizeofSlot)
  setMaxSlotId data ((maxSlotId data + 1) % 2 ^ 16)

/-- mirrors src/storage/slotted_page.cpp:188-204 -/
def placeRecordAt (data : Mem) (logicalPos : Nat) (record : Mem) (length : Nat) :
    Except Fault (Option Nat × Mem) :=
  let newOffset := (freeSpacePtr data + 2 ^ 16 - length) % 2 ^ 16
  let data := (setFreeSpacePtr data newOffset).copy newOffset record length
  let data := openGap data logicalPos
  match getSlot data logicalPos with
  | none => .error (.assertFailed "new_slot != nullptr")
  | some newSlot => .ok (some logicalPos, setSlot data newSlot newOffset length)

/-- mirrors src/storage/slotted_page.cpp:170-205 -/
def insertRecordAt (data : Mem) (logicalPos : Nat) (record : Mem) (length : Nat) :
    Except Fault (Option Nat × Mem) :=
  if length = 0 then .ok (none, data) else
  if logicalPos > maxSlotId data then .ok (none, data) else
  let spaceNeeded := (length + sizeofSlot) % 2 ^ 16
  if spaceNeeded > getTotalFreeSpace data then .ok (none, data) else
  if canInsertContigious data length true then placeRecordAt data logicalPos record length else
  let liveBefore := (List.range logicalPos).countP (isLive data)
  placeRecordAt (compactify data) liveBefore record length

/-- mirrors src/storage/slotted_page.cpp:214-220 -/
def deleteRecord (data : Mem) (slotId : Nat) : Bool × Mem :=
  match getSlot data slotId with
  | none => (false, data)
  | some slot =>
    if slotOffset data slot = 0 then (false, data) else (true, data.writeLE slot 2 0)

/-- The span as its offset in the page (`none` is `nullptr`) and its length.
mirrors src/storage/slotted_page.cpp:232-236 -/
def getRecord (data : Mem) (slotId : Nat) : Option Nat × Nat :=
  match getSlot data slotId with
  | none => (none, 0)
  | some slot =>
    if slotOffset data slot = 0 then (none, 0) else (some (slotOffset data slot), slotSize data slot)

/-- mirrors src/storage/slotted_page.cpp:245-252 -/
def updateRecord (data : Mem) (slotId : Nat) (record : Mem) (length : Nat) : Bool × Mem :=
  match getSlot data slotId with
  | none => (false, data)
  | some slot =>
    if slotSize data slot ≠ length then (false, data)
    else (true, data.copy (slotOffset data slot) record length)

end DbInternals.SlottedPage
