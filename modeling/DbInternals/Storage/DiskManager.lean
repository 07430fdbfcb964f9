import DbInternals.Core.Memory
import DbInternals.Common.Types

/-!
# `DiskManager`: the code

The functions of `src/storage/disk_manager.{h,cpp}` over the file as bytes
and a length. The file descriptor and `fsync` are left out.
A `pread` / `pwrite` either transfers what the file has or fails with -1;
`io` says after how many further system calls one fails (`none`: never), so
the partial write of one page is not a case of the model.

`page_id * PAGE_SIZE` multiplies a `uint32_t` by an `int` constant: the
offset is computed modulo `2 ^ 32` (`pageOffset`).
-/
namespace DbInternals.Storage

/-- mirrors src/common/config.h:6 -/
def MAGIC_NUMBER : Nat := 0xFEEDFACE

/-- mirrors src/storage/disk_manager.h:54-66; the padding is zero. -/
structure GlobalMetadata where
  magicNumber : Nat
  dbVersion : Nat
  rootPageId : Nat
  freelistHead : Nat
  nextPageId : Nat
  deriving DecidableEq, Repr

/-- The metadata as the bytes of page 0. -/
def GlobalMetadata.bytes (g : GlobalMetadata) : Mem :=
  Mem.zero
    |>.writeLE 0 4 g.magicNumber
    |>.writeLE 4 4 g.dbVersion
    |>.writeLE 8 4 g.rootPageId
    |>.writeLE 12 4 g.freelistHead
    |>.writeLE 16 4 g.nextPageId

structure DiskManager where
  globalMetadata : GlobalMetadata
  /-- the file -/
  bytes : Mem
  /-- its length -/
  size : Nat
  /-- system calls left before one fails -/
  io : Option Nat

abbrev DiskM := EStateM Fault DiskManager

/-- `page_id * PAGE_SIZE` -/
def pageOffset (pageId : Nat) : Nat := pageId * PAGE_SIZE % 2 ^ 32

/-! ## System calls -/

/-- Does the next call succeed? -/
def syscall : DiskM Bool := fun d =>
  match d.io with
  | none => .ok true d
  | some 0 => .ok false d
  | some (n + 1) => .ok true { d with io := some n }

/-- `pwrite(fd_, data, PAGE_SIZE, offset)`: are the bytes written? -/
def pwrite (data : Mem) (offset : Nat) : DiskM Bool := do
  if ← syscall then
    modify fun d => { d with
      bytes := d.bytes.copy offset data PAGE_SIZE, size := max d.size (offset + PAGE_SIZE) }
    return true
  else return false

/-- `pread(fd_, data, PAGE_SIZE, offset)`: how many bytes were read, and what. -/
def pread (offset : Nat) : DiskM (Option (Nat × Mem)) := do
  if ← syscall then
    let d ← get
    let n := min PAGE_SIZE (d.size - offset)
    return some (n, Mem.zero.copy 0 (d.bytes.shift offset) n)
  else return none

/-! ## Pages -/

/-- mirrors src/storage/disk_manager.cpp:107-120 -/
def writePage (pageId : Nat) (data : Mem) : DiskM Unit := do
  if pageId ≥ (← get).globalMetadata.nextPageId then
    throw (.runtimeError s!"Attempted to write to unallocated page: {pageId}")
  unless ← pwrite data (pageOffset pageId) do
    throw (.systemError s!"Critical: pwrite failed on page {pageId}")

/-- mirrors src/storage/disk_manager.cpp:127-142 -/
def readPage (pageId : Nat) : DiskM Mem := do
  if pageId ≥ (← get).globalMetadata.nextPageId then
    throw (.runtimeError "Page read out of allowed range")
  match ← pread (pageOffset pageId) with
  | none => throw (.systemError s!"Critical: pread failed on page {pageId}")
  | some (n, data) =>
    if n = PAGE_SIZE then return data
    else if n = 0 then throw (.runtimeError "Read past EOF")
    else throw (.runtimeError "Partial read: Page is likely truncated or corrupted")

/-- mirrors src/storage/disk_manager.cpp:243-255 -/
def handleWriteError (written : Bool) (pageId : Nat) : DiskM Unit :=
  unless written do throw (.systemError s!"Critical pwrite failure on Page {pageId}")

/-- mirrors src/storage/disk_manager.cpp:257-269 -/
def handleReadError (bytesRead : Option Nat) (pageId : Nat) : DiskM Unit :=
  match bytesRead with
  | none => throw (.systemError s!"Critical pread failure on Page {pageId}")
  | some n =>
    unless n = PAGE_SIZE do
      throw (.runtimeError s!"Incomplete read on Page {pageId}: Got {n} bytes.")

/-- mirrors src/storage/disk_manager.h:171-176 -/
def updateMetadata : DiskM Unit := do
  let w ← pwrite (← get).globalMetadata.bytes 0
  handleWriteError w 0

/-! ## The free list -/

/-- mirrors src/storage/freelist_page.h:18-27 -/
def nextFreelistPage (data : Mem) : Nat := data.readLE 0 4
def currentIdCount (data : Mem) : Nat := data.readLE 4 4
def freePageId (data : Mem) (i : Nat) : Nat := data.readLE (8 + 4 * i) 4
def MAX_FREE_IDS : Nat := (PAGE_SIZE - 8) / 4

/-- mirrors src/storage/disk_manager.cpp:161-186 -/
def allocatePage : DiskM Nat := do
  let head := (← get).globalMetadata.freelistHead
  if head = INVALID_PAGE_ID then
    let newId := (← get).globalMetadata.nextPageId
    modify fun d => { d with
      globalMetadata := { d.globalMetadata with nextPageId := (newId + 1) % 2 ^ 32 } }
    updateMetadata
    return newId
  else
    let r ← pread (pageOffset head)
    handleReadError (r.map Prod.fst) head
    let buffer := (r.map Prod.snd).getD Mem.zero
    let count := currentIdCount buffer
    if count = 0 then
      modify fun d => { d with
        globalMetadata := { d.globalMetadata with freelistHead := nextFreelistPage buffer } }
      updateMetadata
      return head
    else if count > MAX_FREE_IDS then throw .outOfBounds
    else
      let recycledId := freePageId buffer (count - 1)
      let w ← pwrite (buffer.writeLE 4 4 (count - 1)) (pageOffset head)
      handleWriteError w head
      updateMetadata
      return recycledId

/-- mirrors src/storage/disk_manager.cpp:200-232 -/
def deallocatePage (pageId : Nat) : DiskM Unit := do
  let headId := (← get).globalMetadata.freelistHead
  let newHead (next : Nat) : DiskM Unit := do
    let w ← pwrite ((Mem.zero.writeLE 0 4 next).writeLE 4 4 0) (pageOffset pageId)
    handleWriteError w pageId
    modify fun d => { d with globalMetadata := { d.globalMetadata with freelistHead := pageId } }
    updateMetadata
  if headId = INVALID_PAGE_ID then newHead INVALID_PAGE_ID
  else
    let r ← pread (pageOffset headId)
    handleReadError (r.map Prod.fst) headId
    let buffer := (r.map Prod.snd).getD Mem.zero
    let count := currentIdCount buffer
    if count = MAX_FREE_IDS then newHead headId
    else if count > MAX_FREE_IDS then throw .outOfBounds
    else
      let w ← pwrite ((buffer.writeLE (8 + 4 * count) 4 pageId).writeLE 4 4 (count + 1))
        (pageOffset headId)
      handleWriteError w headId

/-- mirrors src/storage/disk_manager.cpp:238-240 -/
def getPageCount : DiskM Nat := return (← get).globalMetadata.nextPageId

/-- A brand-new file. mirrors src/storage/disk_manager.cpp:59-65; the two
fields the constructor leaves unset are zero. -/
def DiskManager.create (io : Option Nat) : EStateM.Result Fault DiskManager Unit :=
  updateMetadata { globalMetadata := ⟨MAGIC_NUMBER, 0, 0, INVALID_PAGE_ID, 1⟩, bytes := Mem.zero,
                   size := 0, io := io }

/-- The metadata read from the bytes of page 0. -/
def GlobalMetadata.ofBytes (data : Mem) : GlobalMetadata where
  magicNumber := data.readLE 0 4
  dbVersion := data.readLE 4 4
  rootPageId := data.readLE 8 4
  freelistHead := data.readLE 12 4
  nextPageId := data.readLE 16 4

/-- The constructor on the file of the state, whose metadata is not yet set.
mirrors src/storage/disk_manager.cpp:47-97 -/
def openFile : DiskM Unit := do
  if (← get).size = 0 then
    modify fun d => { d with globalMetadata := ⟨MAGIC_NUMBER, 0, 0, INVALID_PAGE_ID, 1⟩ }
    updateMetadata
  else if (← get).size < PAGE_SIZE then
    throw (.runtimeError "File is too small to be a valid database!")
  else
    match ← pread 0 with
    | none => throw (.runtimeError "File is too small to contain a valid global header")
    | some (n, data) =>
      if n < PAGE_SIZE then
        throw (.runtimeError "File is too small to contain a valid global header")
      else
        modify fun d => { d with globalMetadata := .ofBytes data }
        if (← get).globalMetadata.magicNumber ≠ MAGIC_NUMBER then
          throw (.runtimeError
            "Magic number mismatch! This isn't a database file or it's corrupt.")

/-- The destructor. mirrors src/storage/disk_manager.cpp:94-97 -/
def closeFile : DiskM Unit := updateMetadata

end DbInternals.Storage
