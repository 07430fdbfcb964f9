import DbInternals.Core.Search
import DbInternals.Index.Key
import DbInternals.Storage.SlottedPage
import DbInternals.Storage.DiskManager

/-!
# `BPlusTree`: the code

The functions of `src/index/b_plus_tree.cpp`, in the order of the source. A
page buffer is a value (`Mem`), read from and written back to the
`DiskManager`; the state is what outlives a call, so that an exception in
the middle of a call leaves what was written before it.

Slot ids are naturals: every `slot_id_t` here stays at or below a slot
count, except the pivot of `splitChild`, which is reduced modulo `2 ^ 16`.
-/
namespace DbInternals.Index

open Storage SlottedPage

/-- The members of `BPlusTree` that never change; `keyOffset` is
`schema_->GetColumn(key_col_idx_).GetOffset()`. -/
structure TreeConfig where
  keyTypeId : TypeId := .numeric
  keyWidth : Nat := 8
  keyOffset : Nat := 0
  deriving DecidableEq, Repr

structure TreeState where
  diskManager : DiskManager
  rootPageId : Nat
  /-- what the two `insertRecordAt` of each `insertIntoParent` returned, last
  first; the source discards both and nothing reads this -/
  wired : List (Option Nat × Option Nat) := []

abbrev TreeM := EStateM Fault TreeState

/-- A `DiskManager` call of the tree. -/
def disk {α : Type} (x : DiskM α) : TreeM α := fun s =>
  match x s.diskManager with
  | .ok a d => .ok a { s with diskManager := d }
  | .error e d => .error e { s with diskManager := d }

/-- A computation on page buffers only. -/
def buf {α : Type} (x : Except Fault α) : TreeM α := fun s =>
  match x with
  | .ok a => .ok a s
  | .error e => .error e s

/-- mirrors src/index/b_plus_tree.h:58-61 -/
structure Breadcrumb where
  pageId : Nat
  childSlot : Nat
  deriving DecidableEq, Repr

/-- The back of the vector is the head of the list. -/
abbrev BTStack := List Breadcrumb

/-- mirrors src/index/b_plus_tree.h:63-67 -/
structure FindRecordMetadata where
  leafPage : Nat
  leafSlot : Nat
  btStack : BTStack
  deriving DecidableEq, Repr

/-- `getRecord` as pointer and length. -/
def record (data : Mem) (slot : Nat) : Option View × Nat :=
  match getRecord data slot with
  | (none, n) => (none, n)
  | (some o, n) => (some ⟨data.shift o, PAGE_SIZE - o⟩, n)

/-- The bytes a pointer from `getRecord` or a key points to; `memcpy` of no
bytes never looks at them. -/
def viewMem (v : Option View) : Mem := (v.map View.mem).getD Mem.zero

/-- A `page_id_t` in memory. -/
def pageIdMem (p : Nat) : Mem := Mem.zero.writeLE 0 4 p

section
variable (t : TreeConfig)

/-- mirrors src/index/b_plus_tree.cpp:41-65; the literal `""` is one byte long. -/
def extractKey (record : Option View) (len : Nat) : Key :=
  match record with
  | none => Key.fromBytes t.keyTypeId t.keyWidth ⟨Mem.zero, 1⟩ 0
  | some record =>
    if len = 0 then Key.fromBytes t.keyTypeId t.keyWidth ⟨Mem.zero, 1⟩ 0 else
    let offset := if t.keyOffset ≤ len then t.keyOffset else len
    let keyStart := record.advance offset
    let remaining := len - offset
    if t.keyTypeId = .varchar then
      if remaining < 2 then Key.fromBytes t.keyTypeId t.keyWidth keyStart remaining else
      let keyLen := (2 + keyStart.mem.readLE 0 2) % 2 ^ 16
      let clampedLen := if keyLen ≤ remaining then keyLen else remaining
      Key.fromBytes t.keyTypeId t.keyWidth keyStart clampedLen
    else
      let keyLen := if t.keyWidth ≤ remaining then t.keyWidth else remaining
      Key.fromBytes t.keyTypeId t.keyWidth keyStart keyLen

/-- The key in a slot of a page. -/
def keyAt (data : Mem) (slot : Nat) : Key :=
  let (bytes, len) := record data slot
  extractKey t bytes len

/-! ## Searching a page -/

/-- The slot of the child to descend to.
mirrors src/index/b_plus_tree.cpp:307-322 -/
def childSlot (data : Mem) (target : Key) : Except Fault Nat := do
  let numKeys := getSlotCount data / 2
  let lo ← Search.bisectM (fun mid => return (← (keyAt t data (mid * 2)).compare target) ≤ 0)
    numKeys 0 numKeys
  let floorIdx := if lo > 0 then lo - 1 else 0
  return floorIdx * 2 + 1

/-- `memcpy(&child_page_id, page_bytes, sizeof(page_id_t))` -/
def childPageId (data : Mem) (slot : Nat) : Except Fault Nat :=
  match record data slot with
  | (none, _) => .error .nullDeref
  | (some bytes, _) => return (← bytes.read 4).readLE 0 4

/-- The lower bound of `target` among the live slots, by a search that replaces
a dead probe by the next live slot and keeps the last match in `best`.
mirrors src/index/b_plus_tree.cpp:362-390 -/
def leafSlot (data : Mem) (target : Key) : Except Fault Nat := do
  let n := getSlotCount data
  let (best, lo) ← Search.lowerSparseM (fun probe => (record data probe).2 != 0)
    (fun probe => return (← (keyAt t data probe).compare target) < 0) n 0 n n
  return if best < n then best else lo

/-! ## Descent -/

/-- The loop of `findRecord`. Nothing is written on the way, so a walk over
more pages than there are page ids repeats one and never ends.
mirrors src/index/b_plus_tree.cpp:297-330 -/
def descend (target : Key) : Nat → Nat → Mem → BTStack → TreeM (Nat × Mem × BTStack)
  | 0, _, _, _ => throw .diverges
  | fuel + 1, pageId, data, btStack => do
    if getPageType data = .leafPage then return (pageId, data, btStack)
    let slot ← buf (childSlot t data target)
    let child ← buf (childPageId data slot)
    let data ← disk (readPage child)
    descend target fuel child data ({ pageId := pageId, childSlot := slot } :: btStack)

/-- mirrors src/index/b_plus_tree.cpp:290-396 -/
def findRecord (target : Key) : TreeM FindRecordMetadata := do
  let root := (← get).rootPageId
  let data ← disk (readPage root)
  let fuel := (← get).diskManager.globalMetadata.nextPageId + 1
  let (leafPage, leaf, btStack) ← descend t target fuel root data []
  let slot ← buf (leafSlot t leaf target)
  return { leafPage, leafSlot := slot, btStack }

/-! ## Splits -/

/-- Move the records of `n` slots from `slot` on to the end of `dst`; a dead
slot is skipped (`insertRecord` of no bytes does nothing, nor does deleting it).
mirrors src/index/b_plus_tree.cpp:544-549 and 638-642 -/
def moveRecords : Nat → Nat → Mem → Mem → Except Fault (Mem × Mem)
  | 0, _, src, dst => .ok (src, dst)
  | n + 1, slot, src, dst => do
    let (bytes, len) := record src slot
    let (_, dst) ← insertRecord dst (viewMem bytes) len
    moveRecords n (slot + 1) (deleteRecord src slot).2 dst

/-- The walk to a live pivot; `slot_id_t` wraps, so one that has seen every
id never ends.
mirrors src/index/b_plus_tree.cpp:526-531 -/
def walkPivot (data : Mem) : Nat → Nat → Except Fault Nat
  | 0, _ => .error .diverges
  | fuel + 1, pivot =>
    if (record data pivot).2 = 0 then walkPivot data fuel ((pivot + 1) % 2 ^ 16) else .ok pivot

/-- mirrors src/index/b_plus_tree.cpp:683-712 -/
def splitRoot (leftChildId : Nat) (separatorKey : Key) (rightChildId : Nat) :
    TreeM Nat := do
  let leftPage ← disk (readPage leftChildId)
  let leftMinKey := keyAt t leftPage 0
  let newRootId ← disk allocatePage
  let newRoot := init Mem.zero newRootId .internalPage
  let (_, newRoot) ← buf (insertRecord newRoot leftMinKey.data.mem leftMinKey.size)
  let (_, newRoot) ← buf (insertRecord newRoot (pageIdMem leftChildId) 4)
  let (_, newRoot) ← buf (insertRecord newRoot separatorKey.data.mem separatorKey.size)
  let (_, newRoot) ← buf (insertRecord newRoot (pageIdMem rightChildId) 4)
  modify fun s => { s with rootPageId := newRootId }
  disk (writePage newRootId newRoot)
  return newRootId

/-- `splitInternal` of the page `nodePageId`; `wire` is its last step, which
hands the separator and the new page to the level above.
mirrors src/index/b_plus_tree.cpp:619-670 -/
def splitInternalAt (nodePageId : Nat) (wire : Key → Nat → TreeM Unit) : TreeM Nat := do
  let freshPageId ← disk allocatePage
  let nodePage ← disk (readPage nodePageId)
  let slotCount := getSlotCount nodePage
  let pivot := slotCount / 2 / 2 * 2
  let newPage := init Mem.zero freshPageId .internalPage
  let (nodePage, newPage) ← buf (moveRecords (slotCount - pivot) pivot nodePage newPage)
  let nodePage := compactify nodePage
  let separatorKey := keyAt t newPage 0
  disk (writePage nodePageId nodePage)
  disk (writePage freshPageId newPage)
  wire separatorKey freshPageId
  return freshPageId

/-- Insert the pair into the page.
mirrors src/index/b_plus_tree.cpp:764-781 -/
def insertPair (parentPage : Mem) (separatorKey : Key) (newRightPageId : Nat) :
    Except Fault (Option Nat × Option Nat × Mem) := do
  let numKeys := getSlotCount parentPage / 2
  let lo ← Search.bisectM (fun mid => return (← (keyAt t parentPage (mid * 2)).compare separatorKey) < 0)
    numKeys 0 numKeys
  let (r1, parentPage) ← insertRecordAt parentPage (lo * 2) separatorKey.data.mem separatorKey.size
  let (r2, parentPage) ← insertRecordAt parentPage (lo * 2 + 1) (pageIdMem newRightPageId) 4
  return (r1, r2, parentPage)

/-- mirrors src/index/b_plus_tree.cpp:719-783 -/
def insertIntoParent : BTStack → Key → Nat → TreeM Unit
  | [], _, _ => throw .nullDeref
  | back :: rest, separatorKey, newRightPageId => do
    let parentPageId := back.pageId
    let parentPage ← disk (readPage parentPageId)
    let neededSpace := (separatorKey.size + 4 + sizeofSlot * 2) % 2 ^ 16
    let parentPage :=
      if getFreeSpace parentPage < neededSpace then compactify parentPage else parentPage
    let (parentPageId, parentPage) ←
      if getFreeSpace parentPage < neededSpace then do
        let newCandidateParent ← splitInternalAt t parentPageId fun sep fresh => do
          if rest.isEmpty then let _ ← splitRoot t parentPageId sep fresh
          else insertIntoParent rest sep fresh
        let newParentPage ← disk (readPage newCandidateParent)
        let firstKey := keyAt t newParentPage 0
        let c ← buf (firstKey.compare separatorKey)
        let parentPageId := if c < 0 then newCandidateParent else parentPageId
        let parentPage ← disk (readPage parentPageId)
        pure (parentPageId, parentPage)
      else pure (parentPageId, parentPage)
    let (r1, r2, parentPage) ← buf (insertPair t parentPage separatorKey newRightPageId)
    modify fun s => { s with wired := (r1, r2) :: s.wired }
    disk (writePage parentPageId parentPage)

/-- The step that hands a separator and a new page to the level above a node.
mirrors src/index/b_plus_tree.cpp:579-586 and 656-664 -/
def wireUp (btStack : BTStack) (leftId : Nat) (separatorKey : Key) (freshPageId : Nat) :
    TreeM Unit := do
  if btStack.isEmpty then let _ ← splitRoot t leftId separatorKey freshPageId
  else insertIntoParent t btStack separatorKey freshPageId

/-- mirrors src/index/b_plus_tree.cpp:619-670 -/
def splitInternal (btStack : BTStack) : TreeM Nat :=
  match btStack with
  | [] => throw .nullDeref
  | back :: parentStack =>
    splitInternalAt t back.pageId (wireUp t parentStack back.pageId)

/-- The move of the upper half of a leaf to a fresh right neighbour, up to
the relinking of the old one: the separator and the new page.
mirrors src/index/b_plus_tree.cpp:513-577 -/
def splitLeaf (leafPage : Nat) : TreeM (Key × Nat) := do
  let freshPageId ← disk allocatePage
  let childPage ← disk (readPage leafPage)
  let slotCount := getSlotCount childPage
  let pivot ← buf (walkPivot childPage (2 ^ 16) (slotCount / 2))
  let rightSiblingId := getRightSibling childPage
  let childPage := setRightSibling childPage freshPageId
  let newPage := init Mem.zero freshPageId .leafPage
  let newPage := setRightSibling (setLeftSibling newPage leafPage) rightSiblingId
  let (childPage, newPage) ← buf (moveRecords (slotCount - pivot) pivot childPage newPage)
  let childPage := compactify childPage
  let pivotKey := keyAt t newPage 0
  disk (writePage leafPage childPage)
  disk (writePage freshPageId newPage)
  if rightSiblingId ≠ INVALID_PAGE_ID then
    let rightSibling ← disk (readPage rightSiblingId)
    disk (writePage rightSiblingId (setLeftSibling rightSibling freshPageId))
  return (pivotKey, freshPageId)

/-- mirrors src/index/b_plus_tree.cpp:510-591 -/
def splitChild (btStack : BTStack) (child : Key) : TreeM Nat := do
  let childMetadata ← findRecord t child
  let (pivotKey, freshPageId) ← splitLeaf t childMetadata.leafPage
  wireUp t btStack childMetadata.leafPage pivotKey freshPageId
  return freshPageId

/-! ## The public calls -/

/-- mirrors src/index/b_plus_tree.cpp:398-428 -/
def insert (record : View) (len : Nat) : TreeM Bool := do
  let key := extractKey t (some record) len
  let findRecordMetadata ← findRecord t key
  let leaf ← disk (readPage findRecordMetadata.leafPage)
  let (firstAvailableSlot, leaf) ←
    buf (insertRecordAt leaf findRecordMetadata.leafSlot record.mem len)
  match firstAvailableSlot with
  | none => let _ ← splitChild t findRecordMetadata.btStack key
  | some _ => disk (writePage findRecordMetadata.leafPage leaf)
  return true

/-- mirrors src/index/b_plus_tree.cpp:431-456 -/
def remove (key : Key) : TreeM Bool := do
  let findRecordMetadata ← findRecord t key
  let leaf ← disk (readPage findRecordMetadata.leafPage)
  let foundKey := keyAt t leaf findRecordMetadata.leafSlot
  if (← buf (key.compare foundKey)) ≠ 0 then return false
  let (ret, leaf) := deleteRecord leaf findRecordMetadata.leafSlot
  if ret then disk (writePage findRecordMetadata.leafPage leaf)
  return ret

/-- The copy the caller owns (`none` is `nullptr`) and its length.
mirrors src/index/b_plus_tree.cpp:461-480 -/
def get (target : Key) : TreeM (Option Bytes × Nat) := do
  let findRecordMetadata ← findRecord t target
  let leaf ← disk (readPage findRecordMetadata.leafPage)
  let (bytes, len) := record leaf findRecordMetadata.leafSlot
  let foundKey := extractKey t bytes len
  if (← buf (target.compare foundKey)) ≠ 0 then return (none, 0)
  return (some ((viewMem bytes).slice 0 len), len)

end

end DbInternals.Index
