import DbInternals.Common.Types
import DbInternals.Utils.Crc32c

/-!
# `LogManager`: the code

Records, `append` and the two halves of a batch, from
`src/logging/log_manager.{h,cpp}`. Each function below is the body of one
critical section, or of the code between two; `GroupCommit` runs them.

`append_buffer` is the list of the bytes below `append_buffer_fill_offset`.
-/
namespace DbInternals.Logging

/-- mirrors src/common/types.h:19 -/
def INVALID_LSN : Nat := 2 ^ 64 - 1

/-- mirrors src/logging/log_manager.h:116 -/
def APPEND_BUFFER_SIZE : Nat := (64 <<< 1) <<< 20

/-- mirrors src/logging/log_manager.h:33-43 -/
inductive LogType where
  | invalid | update | clr | txnBegin | txnCommit | txnAbort | txnEnd | checkptBegin | checkptEnd
  deriving DecidableEq, Repr

def LogType.toByte : LogType → Nat
  | invalid => 0
  | update => 1
  | clr => 2
  | txnBegin => 3
  | txnCommit => 4
  | txnAbort => 5
  | txnEnd => 6
  | checkptBegin => 7
  | checkptEnd => 8

/-- mirrors src/logging/log_manager.h:45-61 -/
inductive LogOp where
  | none | insertSlot | deleteSlot | updateSlot | initPage | setSibling | setChild | fullPage
  deriving DecidableEq, Repr

def LogOp.toByte : LogOp → Nat
  | none => 0
  | insertSlot => 1
  | deleteSlot => 2
  | updateSlot => 3
  | initPage => 4
  | setSibling => 5
  | setChild => 6
  | fullPage => 7

/-- mirrors src/logging/log_manager.h:63-80 -/
structure LogRecordHeader where
  size : Nat := 0
  crc : Nat := 0
  lsn : Nat := 0
  prevLsn : Nat := 0
  undoNextLsn : Nat := 0
  txId : Nat := 0
  pageId : Nat := 0
  tableId : Nat := 0
  indexId : Nat := 0
  slot : Nat := 0
  flags : Nat := 0
  beforeLen : Nat := 0
  afterLen : Nat := 0
  type : LogType := .invalid
  op : LogOp := .none
  reserved : Nat := 0
  deriving DecidableEq, Repr

def sizeofLogRecordHeader : Nat := 64

/-- The header as the bytes in memory. -/
def LogRecordHeader.bytes (lrh : LogRecordHeader) : Mem :=
  Mem.zero
    |>.writeLE 0 4 lrh.size
    |>.writeLE 4 4 lrh.crc
    |>.writeLE 8 8 lrh.lsn
    |>.writeLE 16 8 lrh.prevLsn
    |>.writeLE 24 8 lrh.undoNextLsn
    |>.writeLE 32 8 lrh.txId
    |>.writeLE 40 4 lrh.pageId
    |>.writeLE 44 2 lrh.tableId
    |>.writeLE 46 2 lrh.indexId
    |>.writeLE 48 2 lrh.slot
    |>.writeLE 50 2 lrh.flags
    |>.writeLE 52 4 lrh.beforeLen
    |>.writeLE 56 4 lrh.afterLen
    |>.writeLE 60 1 lrh.type.toByte
    |>.writeLE 61 1 lrh.op.toByte
    |>.writeLE 62 2 lrh.reserved

/-- The header of a BEGIN, COMMIT, ABORT or END record, with the `INVALID_*`
sentinels of src/common/types.h:13-19.
mirrors src/logging/log_manager.cpp:64-79 -/
def txnRecord (txId : Nat) (type : LogType) (prevLsn : Nat) : LogRecordHeader where
  type := type
  op := .none
  txId := txId
  prevLsn := prevLsn
  undoNextLsn := INVALID_LSN
  flags := 0
  pageId := INVALID_PAGE_ID
  tableId := 2 ^ 16 - 1
  indexId := 2 ^ 16 - 1
  slot := 2 ^ 16 - 1

structure LogManager where
  /-- the log file -/
  file : Bytes
  currentLSN : Nat := 0
  appendBuffer : Bytes := []
  fillBuffer : Mem := Mem.zero
  flushedLSN : Nat := 0
  flushing : Bool := false

/-- The fields `append` fills in before it takes the mutex.
mirrors src/logging/log_manager.cpp:21-25 -/
def LogRecordHeader.prepare (lrh : LogRecordHeader) (before after : Bytes) : LogRecordHeader :=
  { lrh with
    beforeLen := before.length % 2 ^ 32
    afterLen := after.length % 2 ^ 32
    size := (sizeofLogRecordHeader + before.length + after.length) % 2 ^ 32
    crc := 0
    reserved := 0 }

/-- The bytes `append` writes to the buffer: header and images, then the CRC
over all of it patched in. mirrors src/logging/log_manager.cpp:33-40 -/
def LogRecordHeader.record (lrh : LogRecordHeader) (before after : Bytes) : Bytes :=
  let image := Mem.zero.copy 0 lrh.bytes sizeofLogRecordHeader
    |>.copy sizeofLogRecordHeader (Mem.ofBytes before) before.length
    |>.copy (sizeofLogRecordHeader + before.length) (Mem.ofBytes after) after.length
  let crc := Crc32c.compute (image.slice 0 lrh.size)
  (image.writeLE 4 4 crc.toNat).slice 0 lrh.size

/-- The record `append` makes of its arguments when it assigns the LSN. -/
def recordOf (lrh : LogRecordHeader) (before after : Bytes) (lsn : Nat) : Bytes :=
  { lrh.prepare before after with lsn }.record before after

namespace LogManager

/-- The size check compares the 32-bit `size`, the copies run over the lengths
of the images: a record of `2 ^ 32` bytes or more would leave the buffer.
mirrors src/logging/log_manager.cpp:19-44 -/
def append (m : LogManager) (lrh : LogRecordHeader) (before after : Bytes) :
    Except Fault (Nat × LogManager) :=
  let size := (lrh.prepare before after).size
  if m.appendBuffer.length + size > APPEND_BUFFER_SIZE then .ok (INVALID_LSN, m) else
  let lsn := m.currentLSN
  if m.appendBuffer.length + sizeofLogRecordHeader + before.length + after.length >
      APPEND_BUFFER_SIZE then .error .outOfBounds else
  .ok (lsn, { m with
    currentLSN := (m.currentLSN + 1) % 2 ^ 64
    appendBuffer := m.appendBuffer ++ recordOf lrh before after lsn })

/-- The batch end and its number of bytes.
mirrors src/logging/log_manager.cpp:226-234 -/
def copyToFillBuffer (m : LogManager) : (Nat × Nat) × LogManager :=
  ((m.currentLSN, m.appendBuffer.length),
    { m with
      fillBuffer := m.fillBuffer.copy 0 (Mem.ofBytes m.appendBuffer) m.appendBuffer.length
      appendBuffer := [] })

/-- No call fails. mirrors src/logging/log_manager.cpp:236-268 -/
def appendDurable (m : LogManager) (fillBufferOffset : Nat) : LogManager :=
  { m with file := m.file ++ m.fillBuffer.slice 0 fillBufferOffset }

/-- mirrors src/logging/log_manager.cpp:282-283 -/
def publish (m : LogManager) (batchEndLSN : Nat) : LogManager :=
  { m with flushedLSN := batchEndLSN, flushing := false }

end LogManager

end DbInternals.Logging
