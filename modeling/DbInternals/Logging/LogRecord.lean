import DbInternals.Logging.LogManager

/-!
# The format of a log record

A reader takes the header at its offsets, then the two images at the lengths
the header gives, and recomputes the CRC with the field zeroed.

Results:
* `LogRecordHeader.ofBytes_bytes`: the header reads back;
* `decodeRecord_recordOf`: so do the arguments of `append`;
* `crc_recordOf`: the CRC a reader computes is the one stored.
-/
namespace DbInternals.Logging

open Mem

/-! ## Decoding -/

def LogType.ofByte : Nat → LogType
  | 1 => update
  | 2 => clr
  | 3 => txnBegin
  | 4 => txnCommit
  | 5 => txnAbort
  | 6 => txnEnd
  | 7 => checkptBegin
  | 8 => checkptEnd
  | _ => invalid

def LogOp.ofByte : Nat → LogOp
  | 1 => insertSlot
  | 2 => deleteSlot
  | 3 => updateSlot
  | 4 => initPage
  | 5 => setSibling
  | 6 => setChild
  | 7 => fullPage
  | _ => none

theorem LogType.ofByte_toByte (t : LogType) : LogType.ofByte (t.toByte % 256 ^ 1) = t := by
  cases t <;> rfl

theorem LogOp.ofByte_toByte (o : LogOp) : LogOp.ofByte (o.toByte % 256 ^ 1) = o := by
  cases o <;> rfl

/-- The header in the first 64 bytes. -/
def LogRecordHeader.ofBytes (m : Mem) : LogRecordHeader where
  size := m.readLE 0 4
  crc := m.readLE 4 4
  lsn := m.readLE 8 8
  prevLsn := m.readLE 16 8
  undoNextLsn := m.readLE 24 8
  txId := m.readLE 32 8
  pageId := m.readLE 40 4
  tableId := m.readLE 44 2
  indexId := m.readLE 46 2
  slot := m.readLE 48 2
  flags := m.readLE 50 2
  beforeLen := m.readLE 52 4
  afterLen := m.readLE 56 4
  type := .ofByte (m.readLE 60 1)
  op := .ofByte (m.readLE 61 1)
  reserved := m.readLE 62 2

/-- The header and the two images of a record. -/
def decodeRecord (r : Bytes) : LogRecordHeader × Bytes × Bytes :=
  let lrh := LogRecordHeader.ofBytes (Mem.ofBytes r)
  (lrh, (Mem.ofBytes r).slice sizeofLogRecordHeader lrh.beforeLen,
    (Mem.ofBytes r).slice (sizeofLogRecordHeader + lrh.beforeLen) lrh.afterLen)

/-- The record with its CRC field zeroed. -/
def zeroCrc (r : Bytes) : Bytes := ((Mem.ofBytes r).writeLE 4 4 0).slice 0 r.length

/-- The values the caller's fields can hold. -/
structure LogRecordHeader.Fits (lrh : LogRecordHeader) : Prop where
  prevLsn : lrh.prevLsn < 2 ^ 64
  undoNextLsn : lrh.undoNextLsn < 2 ^ 64
  txId : lrh.txId < 2 ^ 64
  pageId : lrh.pageId < 2 ^ 32
  tableId : lrh.tableId < 2 ^ 16
  indexId : lrh.indexId < 2 ^ 16
  slot : lrh.slot < 2 ^ 16
  flags : lrh.flags < 2 ^ 16

/-! ## The header -/

/-- Every field but the CRC reads back, cut to its width. -/
theorem LogRecordHeader.ofBytes_bytes (lrh : LogRecordHeader) {m : Mem}
    (h : ∀ o k, o + k ≤ 4 ∨ 8 ≤ o → o + k ≤ 64 → m.readLE o k = lrh.bytes.readLE o k) :
    LogRecordHeader.ofBytes m = {
      size := lrh.size % 2 ^ 32
      crc := m.readLE 4 4
      lsn := lrh.lsn % 2 ^ 64
      prevLsn := lrh.prevLsn % 2 ^ 64
      undoNextLsn := lrh.undoNextLsn % 2 ^ 64
      txId := lrh.txId % 2 ^ 64
      pageId := lrh.pageId % 2 ^ 32
      tableId := lrh.tableId % 2 ^ 16
      indexId := lrh.indexId % 2 ^ 16
      slot := lrh.slot % 2 ^ 16
      flags := lrh.flags % 2 ^ 16
      beforeLen := lrh.beforeLen % 2 ^ 32
      afterLen := lrh.afterLen % 2 ^ 32
      type := lrh.type
      op := lrh.op
      reserved := lrh.reserved % 2 ^ 16 } := by
  rw [LogRecordHeader.ofBytes, h 0 4 (by omega) (by omega), h 8 8 (by omega) (by omega),
    h 16 8 (by omega) (by omega), h 24 8 (by omega) (by omega), h 32 8 (by omega) (by omega),
    h 40 4 (by omega) (by omega), h 44 2 (by omega) (by omega), h 46 2 (by omega) (by omega),
    h 48 2 (by omega) (by omega), h 50 2 (by omega) (by omega), h 52 4 (by omega) (by omega),
    h 56 4 (by omega) (by omega), h 60 1 (by omega) (by omega), h 61 1 (by omega) (by omega),
    h 62 2 (by omega) (by omega)]
  simp (disch := omega) only [LogRecordHeader.bytes, readLE_writeLE_frame, readLE_writeLE,
    LogType.ofByte_toByte, LogOp.ofByte_toByte]
  rfl

/-! ## The record -/

theorem length_record (lrh : LogRecordHeader) (before after : Bytes) :
    (lrh.record before after).length = lrh.size := by
  simp only [LogRecordHeader.record, length_slice]

/-- The CRC and the images leave the rest of the header as it is. -/
theorem record_readLE {lrh : LogRecordHeader} {before after : Bytes} {o k : Nat}
    (hsize : lrh.size = sizeofLogRecordHeader + before.length + after.length)
    (h1 : o + k ≤ 4 ∨ 8 ≤ o) (h2 : o + k ≤ 64) :
    (ofBytes (lrh.record before after)).readLE o k = lrh.bytes.readLE o k := by
  simp only [LogRecordHeader.record, sizeofLogRecordHeader] at hsize ⊢
  rw [readLE_congr fun i _ hi => ofBytes_slice (show i < lrh.size by omega),
    readLE_writeLE_frame (by omega), readLE_copy_frame (by omega), readLE_copy_frame (by omega),
    readLE_copy_at (by omega) (by omega), Nat.sub_zero]

/-- A stretch of a byte string that was itself a stretch of memory. -/
theorem slice_ofBytes_slice {m : Mem} {n o k : Nat} (h : o + k ≤ n) :
    (ofBytes (m.slice 0 n)).slice o k = m.slice o k :=
  slice_congr fun i hi => ofBytes_slice (by omega)

/-- The images stand behind the header. -/
theorem record_images {lrh : LogRecordHeader} {before after : Bytes}
    (hsize : lrh.size = sizeofLogRecordHeader + before.length + after.length) :
    (ofBytes (lrh.record before after)).slice sizeofLogRecordHeader before.length = before ∧
      (ofBytes (lrh.record before after)).slice (sizeofLogRecordHeader + before.length)
        after.length = after := by
  simp only [LogRecordHeader.record, sizeofLogRecordHeader] at hsize ⊢
  constructor
  · rw [slice_ofBytes_slice (by omega), slice_writeLE_frame (by omega),
      slice_copy_frame (by omega), slice_copy, slice_ofBytes]
  · rw [slice_ofBytes_slice (by omega), slice_writeLE_frame (by omega), slice_copy, slice_ofBytes]

/-- The header bytes of the CRC field, before the CRC is patched in. -/
theorem bytes_crc {lrh : LogRecordHeader} (h : lrh.crc = 0) {i : Nat} (h1 : 4 ≤ i) (h2 : i < 8) :
    lrh.bytes i = 0 := by
  rw [LogRecordHeader.bytes]
  iterate 14 rw [writeLE_out (by omega)]
  rw [writeLE, copy_in (by omega) (by omega), h]
  simp [le]

/-- The CRC over the record with the field zeroed is the stored one. -/
theorem record_crc {lrh : LogRecordHeader} {before after : Bytes} (hcrc : lrh.crc = 0)
    (hsize : lrh.size = sizeofLogRecordHeader + before.length + after.length) :
    (Crc32c.compute (zeroCrc (lrh.record before after))).toNat =
      (ofBytes (lrh.record before after)).readLE 4 4 := by
  have hlen := length_record lrh before after
  simp only [sizeofLogRecordHeader] at hsize
  generalize himg : ((Mem.zero.copy 0 lrh.bytes sizeofLogRecordHeader).copy sizeofLogRecordHeader
    (Mem.ofBytes before) before.length).copy (sizeofLogRecordHeader + before.length)
    (Mem.ofBytes after) after.length = image
  have hrec : lrh.record before after =
      (image.writeLE 4 4 (Crc32c.compute (image.slice 0 lrh.size)).toNat).slice 0 lrh.size := by
    rw [← himg, LogRecordHeader.record]
  -- the field was zero when the CRC was computed
  have hzero : ∀ i, 4 ≤ i → i < 8 → image i = 0 := by
    intro i h1 h2
    simp only [← himg, sizeofLogRecordHeader]
    rw [copy_out (by omega), copy_out (by omega), copy_in (by omega) (by omega), Nat.sub_zero]
    exact bytes_crc hcrc h1 h2
  have hz : zeroCrc (lrh.record before after) = image.slice 0 lrh.size := by
    rw [zeroCrc, hlen]
    refine slice_congr fun i hi => ?_
    rw [Nat.zero_add]
    by_cases hf : 4 ≤ i ∧ i < 8
    · rw [hzero i hf.1 hf.2, writeLE, copy_in hf.1 (by omega)]
      simp [le]
    · rw [writeLE_out (by omega), hrec, ofBytes_slice hi, writeLE_out (by omega)]
  rw [hz, hrec, readLE_congr fun i _ hi => ofBytes_slice (show i < lrh.size by omega),
    readLE_writeLE]
  have := (Crc32c.compute (image.slice 0 lrh.size)).toNat_lt
  omega

/-! ## What `append` lays out -/

section
variable {lrh : LogRecordHeader} {before after : Bytes} {lsn : Nat}

theorem prepare_size (h : sizeofLogRecordHeader + before.length + after.length < 2 ^ 32) :
    ({ lrh.prepare before after with lsn } : LogRecordHeader).size =
      sizeofLogRecordHeader + before.length + after.length := Nat.mod_eq_of_lt h

theorem length_recordOf (h : sizeofLogRecordHeader + before.length + after.length < 2 ^ 32) :
    (recordOf lrh before after lsn).length =
      sizeofLogRecordHeader + before.length + after.length := by
  rw [recordOf, length_record, prepare_size h]

/-- The images of a record are those its `append` was given. -/
theorem decodeRecord_images (h : sizeofLogRecordHeader + before.length + after.length < 2 ^ 32) :
    (decodeRecord (recordOf lrh before after lsn)).1.beforeLen = before.length ∧
      (decodeRecord (recordOf lrh before after lsn)).1.afterLen = after.length ∧
      (decodeRecord (recordOf lrh before after lsn)).2 = (before, after) := by
  have hsize : ({ lrh.prepare before after with lsn } : LogRecordHeader).size = _ := prepare_size h
  have hb : before.length % 2 ^ 32 = before.length := Nat.mod_eq_of_lt (by omega)
  have ha : after.length % 2 ^ 32 = after.length := Nat.mod_eq_of_lt (by omega)
  have hhead := LogRecordHeader.ofBytes_bytes _ fun o k h1 h2 => record_readLE hsize h1 h2
  have hblen : (LogRecordHeader.ofBytes (ofBytes (recordOf lrh before after lsn))).beforeLen =
      before.length := by
    refine (congrArg LogRecordHeader.beforeLen hhead).trans ?_
    simp only [LogRecordHeader.prepare, hb]
  have halen : (LogRecordHeader.ofBytes (ofBytes (recordOf lrh before after lsn))).afterLen =
      after.length := by
    refine (congrArg LogRecordHeader.afterLen hhead).trans ?_
    simp only [LogRecordHeader.prepare, ha]
  have himg : (ofBytes (recordOf lrh before after lsn)).slice sizeofLogRecordHeader before.length =
        before ∧
      (ofBytes (recordOf lrh before after lsn)).slice (sizeofLogRecordHeader + before.length)
        after.length = after := record_images hsize
  refine ⟨hblen, halen, ?_⟩
  simp only [decodeRecord, hblen, halen, himg.1, himg.2]

/-- A record decodes to the arguments of its `append`, the LSN and the CRC. -/
theorem decodeRecord_recordOf (hf : lrh.Fits) (hl : lsn < 2 ^ 64)
    (h : sizeofLogRecordHeader + before.length + after.length < 2 ^ 32) :
    decodeRecord (recordOf lrh before after lsn) =
      ({ lrh.prepare before after with
          lsn := lsn, crc := (ofBytes (recordOf lrh before after lsn)).readLE 4 4 },
        before, after) := by
  have hhead : LogRecordHeader.ofBytes (ofBytes (recordOf lrh before after lsn)) =
      { lrh.prepare before after with
        lsn := lsn, crc := (ofBytes (recordOf lrh before after lsn)).readLE 4 4 } := by
    have hsize : ({ lrh.prepare before after with lsn } : LogRecordHeader).size = _ := prepare_size h
    refine (LogRecordHeader.ofBytes_bytes _ fun o k h1 h2 => record_readLE hsize h1 h2).trans ?_
    obtain ⟨f1, f2, f3, f4, f5, f6, f7, f8⟩ := hf
    simp only [LogRecordHeader.prepare, Nat.mod_mod, Nat.mod_eq_of_lt f1, Nat.mod_eq_of_lt f2,
      Nat.mod_eq_of_lt f3, Nat.mod_eq_of_lt f4, Nat.mod_eq_of_lt f5, Nat.mod_eq_of_lt f6,
      Nat.mod_eq_of_lt f7, Nat.mod_eq_of_lt f8, Nat.mod_eq_of_lt hl, Nat.zero_mod]
    rfl
  exact Prod.ext hhead (decodeRecord_images h).2.2

theorem crc_recordOf (h : sizeofLogRecordHeader + before.length + after.length < 2 ^ 32) :
    (Crc32c.compute (zeroCrc (recordOf lrh before after lsn))).toNat =
      (ofBytes (recordOf lrh before after lsn)).readLE 4 4 := record_crc rfl (prepare_size h)

end

/-- `append` refuses and changes nothing, or the record fits and is laid out. -/
theorem append_ok {m m' : LogManager} {lrh : LogRecordHeader} {before after : Bytes} {lsn : Nat}
    (h : m.append lrh before after = .ok (lsn, m')) : lsn = INVALID_LSN ∧ m' = m ∨
      lsn = m.currentLSN ∧ m.appendBuffer.length + sizeofLogRecordHeader + before.length +
          after.length ≤ APPEND_BUFFER_SIZE ∧ m' = { m with
          currentLSN := (m.currentLSN + 1) % 2 ^ 64
          appendBuffer := m.appendBuffer ++ recordOf lrh before after lsn } := by
  unfold LogManager.append at h
  dsimp only at h
  split at h
  · cases h; exact .inl ⟨rfl, rfl⟩
  split at h
  · cases h
  next hle =>
  cases h
  exact .inr ⟨rfl, by omega, rfl⟩

end DbInternals.Logging
