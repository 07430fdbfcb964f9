import DbInternals.Core.Arrays
import DbInternals.Logging.LogRecord

/-!
# Checkpoint records

`log_checkpoint_end` puts the active-transaction table in the before image
and the dirty-page table in the after image. Each image is a vector made with
room for all entries, and the entries are inserted at its end: the room stays
in front of them, all zero.

Results:
* `attEntries_attImage`, `dptEntries_dptImage`: what a reader finds, one
  entry of zeros more for each entry of the map;
* `checkpoint_iff`: the record round-trips exactly when both maps are empty.
-/
namespace DbInternals.Logging

open Mem

/-- `std::unordered_map`: its entries in the order it iterates over them. -/
structure UnorderedMap where
  entries : List (Nat × Nat)
  nodup : (entries.map Prod.fst).Nodup

namespace UnorderedMap

def size (m : UnorderedMap) : Nat := m.entries.length

def empty : UnorderedMap := ⟨[], by simp⟩

end UnorderedMap

/-- mirrors src/logging/log_manager.h:10-15 -/
structure AttEntry where
  txId : Nat
  lastLsn : Nat
  status : Nat
  deriving DecidableEq, Repr

/-- mirrors src/logging/log_manager.h:17-21 -/
structure DptEntry where
  pageId : Nat
  reserved : Nat
  recLsn : Nat
  deriving DecidableEq, Repr

def sizeofAttEntry : Nat := 24

def sizeofDptEntry : Nat := 16

/-- The entry as the bytes in memory. -/
def AttEntry.bytes (e : AttEntry) : Bytes :=
  (Mem.zero.writeLE 0 8 e.txId |>.writeLE 8 8 e.lastLsn |>.writeLE 16 1 e.status).slice 0
    sizeofAttEntry

def DptEntry.bytes (e : DptEntry) : Bytes :=
  (Mem.zero.writeLE 0 4 e.pageId |>.writeLE 4 4 e.reserved |>.writeLE 8 8 e.recLsn).slice 0
    sizeofDptEntry

/-- mirrors src/logging/log_manager.cpp:130 and 132-138 -/
def attImage (ATT : UnorderedMap) : Bytes :=
  ATT.entries.foldl (fun img e => img ++ (AttEntry.mk e.1 e.2 0).bytes)
    (List.replicate (sizeofAttEntry * ATT.size) 0)

/-- mirrors src/logging/log_manager.cpp:131 and 139-143 -/
def dptImage (DPT : UnorderedMap) : Bytes :=
  DPT.entries.foldl (fun img e => img ++ (DptEntry.mk e.1 0 e.2).bytes)
    (List.replicate (sizeofDptEntry * DPT.size) 0)

/-- mirrors src/logging/log_manager.cpp:122-147 -/
def LogManager.logCheckpointEnd (m : LogManager) (ATT DPT : UnorderedMap) :
    Except Fault (Nat × LogManager) :=
  m.append { type := .checkptEnd, txId := 0 } (attImage ATT) (dptImage DPT)

/-! ## What a reader finds -/

/-- The entry in the first 24 bytes. -/
def AttEntry.ofBytes (m : Mem) : AttEntry := ⟨m.readLE 0 8, m.readLE 8 8, m.readLE 16 1⟩

def DptEntry.ofBytes (m : Mem) : DptEntry := ⟨m.readLE 0 4, m.readLE 4 4, m.readLE 8 8⟩

/-- A before image as consecutive `AttEntry` structures. -/
def attEntries (img : Bytes) : List AttEntry := decodeArray sizeofAttEntry AttEntry.ofBytes img

/-- An after image as consecutive `DptEntry` structures. -/
def dptEntries (img : Bytes) : List DptEntry := decodeArray sizeofDptEntry DptEntry.ofBytes img

theorem local_att : Local sizeofAttEntry AttEntry.ofBytes := by
  intro m m' h
  simp only [sizeofAttEntry] at h
  simp only [AttEntry.ofBytes, AttEntry.mk.injEq]
  exact ⟨readLE_congr fun i _ hi => h i (by omega), readLE_congr fun i _ hi => h i (by omega),
    readLE_congr fun i _ hi => h i (by omega)⟩

theorem local_dpt : Local sizeofDptEntry DptEntry.ofBytes := by
  intro m m' h
  simp only [sizeofDptEntry] at h
  simp only [DptEntry.ofBytes, DptEntry.mk.injEq]
  exact ⟨readLE_congr fun i _ hi => h i (by omega), readLE_congr fun i _ hi => h i (by omega),
    readLE_congr fun i _ hi => h i (by omega)⟩

theorem AttEntry.ofBytes_bytes (e : AttEntry) : AttEntry.ofBytes (Mem.ofBytes e.bytes) =
    ⟨e.txId % 2 ^ 64, e.lastLsn % 2 ^ 64, e.status % 2 ^ 8⟩ := by
  have hl : ∀ m, AttEntry.ofBytes (Mem.ofBytes (m.slice 0 sizeofAttEntry)) = AttEntry.ofBytes m :=
    fun m => local_att _ _ fun i hi => ofBytes_slice hi
  rw [AttEntry.bytes, hl, AttEntry.ofBytes]
  simp (disch := omega) only [readLE_writeLE_frame, readLE_writeLE]
  rfl

theorem DptEntry.ofBytes_bytes (e : DptEntry) : DptEntry.ofBytes (Mem.ofBytes e.bytes) =
    ⟨e.pageId % 2 ^ 32, e.reserved % 2 ^ 32, e.recLsn % 2 ^ 64⟩ := by
  have hl : ∀ m, DptEntry.ofBytes (Mem.ofBytes (m.slice 0 sizeofDptEntry)) = DptEntry.ofBytes m :=
    fun m => local_dpt _ _ fun i hi => ofBytes_slice hi
  rw [DptEntry.bytes, hl, DptEntry.ofBytes]
  simp (disch := omega) only [readLE_writeLE_frame, readLE_writeLE]
  rfl

theorem replicate_flatMap {β : Type*} (enc : β → Bytes) (b : β) {size : Nat}
    (h : enc b = List.replicate size 0) (n : Nat) :
    (List.replicate n b).flatMap enc = List.replicate (size * n) 0 := by
  induction n with
  | zero => rfl
  | succ n ih =>
    rw [List.replicate_succ, List.flatMap_cons, ih, h, ← List.replicate_add]
    congr 1
    rw [Nat.mul_succ, Nat.add_comm]

def attBytes (e : Nat × Nat) : Bytes := (AttEntry.mk e.1 e.2 0).bytes

def dptBytes (e : Nat × Nat) : Bytes := (DptEntry.mk e.1 0 e.2).bytes

/-- The room in front of the entries is entries of zeros. -/
theorem attImage_eq (ATT : UnorderedMap) :
    attImage ATT = (List.replicate ATT.size (0, 0) ++ ATT.entries).flatMap attBytes := by
  have hz : attBytes (0, 0) = List.replicate sizeofAttEntry 0 := by decide
  rw [List.flatMap_append, replicate_flatMap attBytes (0, 0) hz]
  exact foldl_append attBytes _ _

theorem dptImage_eq (DPT : UnorderedMap) :
    dptImage DPT = (List.replicate DPT.size (0, 0) ++ DPT.entries).flatMap dptBytes := by
  have hz : dptBytes (0, 0) = List.replicate sizeofDptEntry 0 := by decide
  rw [List.flatMap_append, replicate_flatMap dptBytes (0, 0) hz]
  exact foldl_append dptBytes _ _

theorem length_attBytes (e : Nat × Nat) : (attBytes e).length = sizeofAttEntry := length_slice _ _ _

theorem length_dptBytes (e : Nat × Nat) : (dptBytes e).length = sizeofDptEntry := length_slice _ _ _

theorem length_attImage (ATT : UnorderedMap) :
    (attImage ATT).length = sizeofAttEntry * (2 * ATT.size) := by
  rw [attImage_eq, length_flatMap_const length_attBytes, List.length_append, List.length_replicate,
    UnorderedMap.size, Nat.two_mul]

theorem length_dptImage (DPT : UnorderedMap) :
    (dptImage DPT).length = sizeofDptEntry * (2 * DPT.size) := by
  rw [dptImage_eq, length_flatMap_const length_dptBytes, List.length_append, List.length_replicate,
    UnorderedMap.size, Nat.two_mul]

/-- A reader finds a transaction 0 with LSN 0 for each entry of the map, then
the entries. -/
theorem attEntries_attImage (ATT : UnorderedMap)
    (h : ∀ e ∈ ATT.entries, e.1 < 2 ^ 64 ∧ e.2 < 2 ^ 64) :
    attEntries (attImage ATT) =
      List.replicate ATT.size ⟨0, 0, 0⟩ ++ ATT.entries.map fun e => ⟨e.1, e.2, 0⟩ := by
  have hz : AttEntry.ofBytes (Mem.ofBytes (attBytes (0, 0))) = ⟨0, 0, 0⟩ :=
    AttEntry.ofBytes_bytes ⟨0, 0, 0⟩
  have hm : ∀ e ∈ ATT.entries, AttEntry.ofBytes (Mem.ofBytes (attBytes e)) = ⟨e.1, e.2, 0⟩ := by
    intro e he
    rw [attBytes, AttEntry.ofBytes_bytes]
    simp only [Nat.mod_eq_of_lt (h e he).1, Nat.mod_eq_of_lt (h e he).2, Nat.zero_mod]
  rw [attEntries, attImage_eq, decodeArray_flatMap (by decide) local_att length_attBytes,
    List.map_append, List.map_replicate, hz, List.map_congr_left hm]

theorem dptEntries_dptImage (DPT : UnorderedMap)
    (h : ∀ e ∈ DPT.entries, e.1 < 2 ^ 32 ∧ e.2 < 2 ^ 64) :
    dptEntries (dptImage DPT) =
      List.replicate DPT.size ⟨0, 0, 0⟩ ++ DPT.entries.map fun e => ⟨e.1, 0, e.2⟩ := by
  have hz : DptEntry.ofBytes (Mem.ofBytes (dptBytes (0, 0))) = ⟨0, 0, 0⟩ :=
    DptEntry.ofBytes_bytes ⟨0, 0, 0⟩
  have hm : ∀ e ∈ DPT.entries, DptEntry.ofBytes (Mem.ofBytes (dptBytes e)) = ⟨e.1, 0, e.2⟩ := by
    intro e he
    rw [dptBytes, DptEntry.ofBytes_bytes]
    simp only [Nat.mod_eq_of_lt (h e he).1, Nat.mod_eq_of_lt (h e he).2, Nat.zero_mod]
  rw [dptEntries, dptImage_eq, decodeArray_flatMap (by decide) local_dpt length_dptBytes,
    List.map_append, List.map_replicate, hz, List.map_congr_left hm]

/-! ## The record -/

/-- The record holds one entry per transaction and one per page, and no others. -/
structure RoundTrips (ATT DPT : UnorderedMap) (r : Bytes) : Prop where
  beforeLen : (decodeRecord r).1.beforeLen = sizeofAttEntry * ATT.size
  afterLen : (decodeRecord r).1.afterLen = sizeofDptEntry * DPT.size
  att : ((attEntries (decodeRecord r).2.1).map fun e => (e.txId, e.lastLsn)).Perm ATT.entries
  dpt : ((dptEntries (decodeRecord r).2.2).map fun e => (e.pageId, e.recLsn)).Perm DPT.entries

/-- The record a checkpoint appends round-trips exactly when there is nothing to record. -/
theorem checkpoint_iff (m m' : LogManager) (ATT DPT : UnorderedMap) (lsn : Nat) (r : Bytes)
    (h : m.logCheckpointEnd ATT DPT = .ok (lsn, m')) (hr : m'.appendBuffer = m.appendBuffer ++ r)
    (hne : r ≠ []) : RoundTrips ATT DPT r ↔ ATT.entries = [] ∧ DPT.entries = [] := by
  obtain ⟨hrec, hsz⟩ : r = recordOf { type := .checkptEnd, txId := 0 } (attImage ATT)
        (dptImage DPT) lsn ∧
      sizeofLogRecordHeader + (attImage ATT).length + (dptImage DPT).length < 2 ^ 32 := by
    cases append_ok h with
    | inl hfail =>
      rw [hfail.2] at hr
      exact absurd (List.self_eq_append_right.mp hr) hne
    | inr hok =>
      obtain ⟨-, hroom, rfl⟩ := hok
      have hb : APPEND_BUFFER_SIZE = 134217728 := rfl
      exact ⟨(List.append_cancel_left hr).symm, by omega⟩
  have hdecode : (decodeRecord r).1.beforeLen = (attImage ATT).length ∧
      (decodeRecord r).1.afterLen = (dptImage DPT).length ∧
      (decodeRecord r).2 = (attImage ATT, dptImage DPT) := by
    rw [hrec]; exact decodeRecord_images hsz
  obtain ⟨hblen, halen, himg⟩ := hdecode
  have hb := length_attImage ATT
  have ha := length_dptImage DPT
  constructor
  · intro ht
    have h1 := ht.beforeLen
    have h2 := ht.afterLen
    simp only [sizeofAttEntry, sizeofDptEntry, UnorderedMap.size] at *
    exact ⟨List.length_eq_zero_iff.mp (by omega), List.length_eq_zero_iff.mp (by omega)⟩
  · intro he
    obtain ⟨hA, hD⟩ := he
    have hA' : attImage ATT = [] := by
      rw [attImage_eq, UnorderedMap.size, hA]; rfl
    have hD' : dptImage DPT = [] := by
      rw [dptImage_eq, UnorderedMap.size, hD]; rfl
    refine ⟨?_, ?_, ?_, ?_⟩
    · rw [hblen, hA', UnorderedMap.size, hA]; rfl
    · rw [halen, hD', UnorderedMap.size, hD]; rfl
    · rw [himg, hA', hA]; simp [attEntries, decodeArray]
    · rw [himg, hD', hD]; simp [dptEntries, decodeArray]

/-- Transaction 1 with last LSN 5, no dirty page. -/
def oneTransaction : UnorderedMap := ⟨[(1, 5)], by simp⟩

/-- Recovery finds a transaction 0 beside transaction 1. -/
theorem checkpoint_phantom : ∃ m' r,
    LogManager.logCheckpointEnd { file := [] } oneTransaction .empty = .ok (0, m') ∧
      m'.appendBuffer = [] ++ r ∧ r ≠ [] ∧
      attEntries (decodeRecord r).2.1 = [⟨0, 0, 0⟩, ⟨1, 5, 0⟩] ∧
      ¬ RoundTrips oneTransaction .empty r := by
  have hsz : sizeofLogRecordHeader + (attImage oneTransaction).length +
      (dptImage .empty).length < 2 ^ 32 := by decide
  generalize hr : recordOf { type := .checkptEnd, txId := 0 } (attImage oneTransaction)
    (dptImage .empty) 0 = r
  have hdecode : (decodeRecord r).1.beforeLen = (attImage oneTransaction).length ∧
      (decodeRecord r).1.afterLen = (dptImage .empty).length ∧
      (decodeRecord r).2 = (attImage oneTransaction, dptImage .empty) := by
    rw [← hr]; exact decodeRecord_images hsz
  refine ⟨_, r, by subst hr; rfl, by subst hr; rfl, fun hnil => ?_, ?_, fun ht => ?_⟩
  · have hlen : (recordOf { type := .checkptEnd, txId := 0 } (attImage oneTransaction)
        (dptImage .empty) 0).length = _ := length_recordOf hsz
    rw [hr, hnil] at hlen
    exact absurd hlen (by decide)
  · rw [hdecode.2.2, attEntries_attImage _ (by decide)]
    rfl
  · have h := ht.beforeLen
    rw [hdecode.1] at h
    exact absurd h (by decide)

theorem checkpoint_iff_empty : ∃ m' r,
    LogManager.logCheckpointEnd { file := [] } .empty .empty = .ok (0, m') ∧
      m'.appendBuffer = [] ++ r ∧ RoundTrips .empty .empty r := by
  generalize hr : recordOf { type := .checkptEnd, txId := 0 } (attImage .empty) (dptImage .empty)
    0 = r
  have hne : r ≠ [] := by
    intro hnil
    have hlen : (recordOf { type := .checkptEnd, txId := 0 } (attImage .empty) (dptImage .empty)
        0).length = _ := length_recordOf (by decide)
    rw [hr, hnil] at hlen
    exact absurd hlen (by decide)
  have happ : LogManager.logCheckpointEnd { file := [] } .empty .empty =
      .ok (0, { file := [], currentLSN := 1, appendBuffer := r }) := by
    subst hr; rfl
  exact ⟨_, r, happ, rfl, (checkpoint_iff _ _ _ _ 0 r happ rfl hne).mpr ⟨rfl, rfl⟩⟩

end DbInternals.Logging
