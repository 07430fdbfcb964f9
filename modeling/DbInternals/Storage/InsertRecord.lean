import DbInternals.Core.LTS
import DbInternals.Storage.SlottedOps
import Mathlib.Data.Multiset.AddSub

/-!
# `insertRecord`: the slot chosen before compaction

`insertRecord` picks the first dead slot, then may compact the page, and
compaction drops dead slots and renumbers the rest. `insertRecord_cases`
lists what it does. As long as no dead slot is chosen before a compaction
(`Stale`), nothing is lost; otherwise the chosen id names a live slot, whose
record goes, or no slot, and the assertion fails
(`insertRecord_keeps_iff`).
-/
namespace DbInternals.SlottedPage

open Mem

/-! ## The page under inserts, deletes and compaction -/

inductive HeapOp where
  | insertRecord (record : Bytes)
  | insertRecordAt (logicalPos : Nat) (record : Bytes)
  | deleteRecord (slotId : Nat)
  | compactify
  deriving DecidableEq, Repr

/-- Records of 1..4096 bytes. -/
def HeapOp.Ok : HeapOp → Prop
  | insertRecord r | insertRecordAt _ r => 1 ≤ r.length ∧ r.length ≤ PAGE_SIZE
  | deleteRecord _ | compactify => True

instance HeapOp.decidableOk (op : HeapOp) : Decidable op.Ok := by
  cases op <;> unfold HeapOp.Ok <;> infer_instance

def HeapOp.exec (data : Mem) : HeapOp → Except Fault Mem
  | insertRecord r => (SlottedPage.insertRecord data (ofBytes r) r.length).map Prod.snd
  | insertRecordAt pos r => (SlottedPage.insertRecordAt data pos (ofBytes r) r.length).map Prod.snd
  | deleteRecord i => .ok (SlottedPage.deleteRecord data i).2
  | compactify => .ok (SlottedPage.compactify data)

/-- Any page from `init` on; a call that fails its assertion ends the run. -/
def heapLts : LTS Mem HeapOp where
  init data := ∃ raw pageId type, data = init raw pageId type
  step data op data' := op.Ok ∧ op.exec data = .ok data'

/-! ## Records as multisets -/

/-- The live records. -/
def liveRecords (data : Mem) : Multiset Bytes :=
  ((List.range (getSlotCount data)).filterMap (recordBytes data) : List Bytes)

/-- The live records outside slot `s`. -/
def otherRecords (data : Mem) (s : Nat) : Multiset Bytes :=
  (((List.range (getSlotCount data)).filter (· ≠ s)).filterMap (recordBytes data) : List Bytes)

/-- The call returns, and a returned slot holds the record next to what was
there before. -/
def KeepsRecords (data : Mem) (r : Bytes) : Prop :=
  (∃ res d, insertRecord data (ofBytes r) r.length = .ok (res, d)) ∧
    ∀ s d, insertRecord data (ofBytes r) r.length = .ok (some s, d) →
      recordBytes d s = some r ∧ otherRecords d s = liveRecords data

/-- A dead slot exists, the record does not fit in the gap, and it does fit
once the page is compacted. -/
def Stale (data : Mem) (r : Bytes) : Prop :=
  (∃ i < getSlotCount data, recordBytes data i = none) ∧ getFreeSpace data < r.length ∧
    r.length ≤ getTotalFreeSpace data

section
variable {data : Mem}

/-- The live records of a list of entries. -/
def recordSet (es : List Entry) : Multiset Bytes := (es.filterMap Entry.record? : List Bytes)

theorem liveRecords_eq (h : Valid data) : liveRecords data = recordSet (entries data) :=
  congrArg (fun l : List Bytes => (l : Multiset Bytes)) (recordSeq_eq h.layout)

/-- One record and the others are all of them. -/
theorem otherRecords_add {d : Mem} (h : Valid d) {s : Nat} {r : Bytes}
    (hs : (entries d)[s]? = some (.live r)) : r ::ₘ otherRecords d s = liveRecords d := by
  have hlt : s < maxSlotId d := by
    have := (List.getElem?_eq_some_iff.mp hs).1
    simpa using this
  have hrec : recordBytes d s = some r := by rw [recordBytes_eq h, hs]; rfl
  have hp : List.Perm (s :: (List.range (getSlotCount d)).filter (· ≠ s))
      (List.range (getSlotCount d)) := by
    have := List.perm_cons_erase (List.mem_range.mpr (show s < getSlotCount d from hlt))
    rw [List.nodup_range.erase_eq_filter] at this
    refine .trans (List.Perm.of_eq ?_) this.symm
    congr 1
    exact List.filter_congr fun i _ => by by_cases h : i = s <;> simp [h]
  rw [otherRecords, liveRecords, Multiset.cons_coe, Multiset.coe_eq_coe]
  have := hp.filterMap (recordBytes d)
  rwa [List.filterMap_cons_some hrec] at this

theorem filterMap_liveEntries (es : List Entry) :
    (liveEntries es).filterMap Entry.record? = es.filterMap Entry.record? := by
  induction es with
  | nil => rfl
  | cons e es ih => cases e <;> simp [ih, List.filterMap_cons]

theorem recordSet_insertIdx {es : List Entry} {pos : Nat} (h : pos ≤ es.length) (r : Bytes) :
    recordSet (es.insertIdx pos (.live r)) = r ::ₘ recordSet es := by
  rw [recordSet, recordSet, Multiset.cons_coe, Multiset.coe_eq_coe]
  exact (List.perm_insertIdx _ _ h).filterMap _

/-- Writing `r` over slot `i` trades that slot's record for `r`. -/
theorem recordSet_set {es : List Entry} {i : Nat} {e : Entry} (h : es[i]? = some e) (r : Bytes) :
    recordSet (es.set i (.live r)) + (e.record?.toList : List Bytes) = r ::ₘ recordSet es := by
  induction es generalizing i with
  | nil => simp at h
  | cons a es ih =>
    cases i with
    | zero =>
      simp only [List.getElem?_cons_zero, Option.some.injEq] at h
      subst h
      cases a with
      | dead n => simp [recordSet, List.filterMap_cons]
      | live b =>
        simp only [recordSet, List.set_cons_zero, List.filterMap_cons, Entry.record?_live,
          Option.toList_some, Multiset.cons_coe, Multiset.coe_add, Multiset.coe_eq_coe,
          List.cons_append, List.perm_cons]
        exact List.perm_append_singleton ..
    | succ i =>
      simp only [List.getElem?_cons_succ] at h
      have := ih h
      cases a with
      | dead n => exact this
      | live b =>
        simp only [recordSet, List.set_cons_succ, List.filterMap_cons, Entry.record?_live,
          ← Multiset.cons_coe] at this ⊢
        rw [Multiset.cons_add, this, Multiset.cons_swap]

/-! ## What `insertRecord` does -/

/-- The chosen slot is dead, or it is new and every slot is live. -/
theorem findFirstFreeSlotId_spec (h : Valid data) :
    (findFirstFreeSlotId data < maxSlotId data ∧
        ∃ n, (entries data)[findFirstFreeSlotId data]? = some (.dead n)) ∨
      findFirstFreeSlotId data = maxSlotId data ∧ deadEntries (entries data) = [] := by
  rw [findFirstFreeSlotId]
  cases hf : (List.range (maxSlotId data)).find? fun i => !isLive data i with
  | none =>
    refine .inr ⟨rfl, ?_⟩
    rw [deadEntries, List.filter_eq_nil_iff]
    intro e he
    obtain ⟨i, hi, rfl⟩ := List.mem_map.mp he
    have := List.find?_eq_none.mp hf i hi
    rw [isLive_eq_entry h.slots_lt (List.mem_range.mp hi)] at this
    simpa using this
  | some i =>
    have hi : i < maxSlotId data := List.mem_range.mp (List.mem_of_find?_eq_some hf)
    have hd := List.find?_some hf
    rw [isLive_eq_entry h.slots_lt hi] at hd
    refine .inl ⟨hi, siz data i, ?_⟩
    simp only [Option.getD_some]
    rw [getElem?_entries, if_pos hi]
    cases he : entryAt data i with
    | live b => rw [he] at hd; simp at hd
    | dead n => rw [← size_entryAt, he]; rfl

theorem deadEntries_of_getElem? {es : List Entry} {i n : Nat} (h : es[i]? = some (.dead n)) :
    deadEntries es ≠ [] := by
  intro e
  have := List.filter_eq_nil_iff.mp e _ (List.mem_of_getElem? h)
  simp at this

/-- The outcomes of `insertRecord` for a record `r`. -/
inductive Outcome (data : Mem) (r : Bytes) : Except Fault (Option Nat × Mem) → Prop
  /-- no room -/
  | none (h : getTotalFreeSpace data < r.length +
      if findFirstFreeSlotId data = maxSlotId data then 4 else 0) : Outcome data r
        (.ok (none, data))
  /-- a new last slot -/
  | append {d : Mem} (hn : findFirstFreeSlotId data = maxSlotId data)
      (hi : Inserted data d (maxSlotId data) r) : Outcome data r (.ok (some (maxSlotId data), d))
  /-- a dead slot reused, without compaction -/
  | reuse {d : Mem} {s n : Nat} (hs : (entries data)[s]? = some (.dead n))
      (hg : r.length ≤ getFreeSpace data) (he : entries d = (entries data).set s (.live r))
      (hv : Valid d) (hm : SameMeta data d) (hp : freeSpacePtr d + r.length = freeSpacePtr data) :
      Outcome data r (.ok (some s, d))
  /-- the page was compacted and the slot chosen before holds another record -/
  | overwrite {d : Mem} {s n : Nat} {b : Bytes} (hs : (entries data)[s]? = some (.dead n))
      (hg : getFreeSpace data < r.length) (ht : r.length ≤ getTotalFreeSpace data)
      (hb : (liveEntries (entries data))[s]? = some (.live b))
      (he : entries d = (liveEntries (entries data)).set s (.live r)) (hv : Valid d)
      (hm : SameMeta data d)
      (hp : freeSpacePtr d + r.length = freeSpacePtr (SlottedPage.compactify data)) :
      Outcome data r (.ok (some s, d))
  /-- the page was compacted and the slot chosen before is gone -/
  | assert {s n : Nat} (hs : (entries data)[s]? = some (.dead n))
      (hg : getFreeSpace data < r.length) (ht : r.length ≤ getTotalFreeSpace data)
      (hb : (liveEntries (entries data)).length ≤ s) :
      Outcome data r (.error (.assertFailed "slot_ptr != nullptr"))

theorem liveEntries_getElem? {es : List Entry} {s : Nat} (h : s < (liveEntries es).length) :
    ∃ b, (liveEntries es)[s]? = some (.live b) := by
  have hm : (liveEntries es)[s] ∈ liveEntries es := List.getElem_mem h
  have hl := (List.mem_filter.mp hm).2
  rw [List.getElem?_eq_getElem h]
  cases he : (liveEntries es)[s] with
  | live b => exact ⟨b, rfl⟩
  | dead n => rw [he] at hl; simp at hl

theorem insertRecord_cases (record : Mem) (h : Valid data) {len : Nat} (hlen : 0 < len)
    (hlt : len + 4 < 2 ^ 16) :
    Outcome data (record.slice 0 len) (insertRecord data record len) := by
  have hrl : (record.slice 0 len).length = len := length_slice ..
  have hfree := getTotalFreeSpace_eq h
  have hgap := getFreeSpace_eq h
  rw [insertRecord, if_neg (by omega)]
  rcases findFirstFreeSlotId_spec h with ⟨hf, n, hn⟩ | ⟨hf, hd⟩
  · -- a dead slot is reused
    have hne : findFirstFreeSlotId data ≠ maxSlotId data := by omega
    simp only [hne, decide_false, Bool.false_eq_true, if_false, Nat.add_zero,
      Nat.mod_eq_of_lt (show len < 2 ^ 16 by omega)]
    split
    · next ht => exact .none (by rw [if_neg hne]; omega)
    next ht =>
    by_cases hc : canInsertContigious data len false
    · rw [if_pos hc]
      rw [canInsertContigious_iff h] at hc
      simp only [Bool.false_eq_true, if_false, Nat.add_zero] at hc
      obtain ⟨d, e, he, hv, hm, hp⟩ := placeRecord_set record h hlen hf hc
      rw [e]
      exact .reuse hn (by omega) he hv hm (by omega)
    · rw [if_neg hc]
      rw [canInsertContigious_iff h] at hc
      simp only [Bool.false_eq_true, if_false, Nat.add_zero] at hc
      obtain ⟨h1, h2, -, h4⟩ := compactify_spec h
      have hroom := compactify_room h (show len ≤ getTotalFreeSpace data by omega)
      have hlive : (liveEntries (entries data)).length = maxSlotId (compactify data) := by
        rw [← h1, length_entries]
      have hslots := h.slots_le
      by_cases hs : findFirstFreeSlotId data < maxSlotId (compactify data)
      · obtain ⟨d, e, he, hv, hm, hp⟩ := placeRecord_set record h2 hlen hs hroom
        obtain ⟨b, hb⟩ := liveEntries_getElem? (hlive ▸ hs)
        rw [e]
        exact .overwrite hn (by omega) (by omega) hb (by rw [he, h1]) hv
          (SameMeta.trans h4 hm) (by omega)
      · rw [placeRecord_assert h2 (by omega) hroom]
        exact .assert hn (by omega) (by omega) (by omega)
  · -- every slot is live: the free bytes are the gap
    simp only [hf, decide_true, if_true, sizeofSlot, Nat.mod_eq_of_lt hlt]
    rw [hd, cost_nil, Nat.add_zero] at hfree
    have hslots := h.slots_le
    split
    · next ht => exact .none (by rw [if_pos hf]; omega)
    next ht =>
    have hc : canInsertContigious data len true = true := by
      rw [canInsertContigious_iff h, if_pos rfl]; omega
    obtain ⟨d, e, hi⟩ := placeRecord_append record h hlen
      (by simp only [slotAddr_eq] at hslots ⊢; simp only [slotAddr_eq] at hfree; omega)
    rw [if_pos hc, e]
    exact .append hf hi

/-- A record appended where every slot is live and there is room. -/
theorem insertRecord_append (record : Mem) (h : Valid data) {len : Nat} (hlen : 0 < len)
    (hd : deadEntries (entries data) = []) (hr : len + 4 ≤ getTotalFreeSpace data) :
    ∃ d, insertRecord data record len = .ok (some (maxSlotId data), d) ∧
      Inserted data d (maxSlotId data) (record.slice 0 len) := by
  have htot : getTotalFreeSpace data < 2 ^ 16 := by
    unfold getTotalFreeSpace; dsimp only; split <;> omega
  have hc := insertRecord_cases record h hlen (by omega)
  generalize insertRecord data record len = res at hc
  cases hc with
  | none hno => rw [length_slice] at hno; split at hno <;> omega
  | append hn hi => exact ⟨_, rfl, hi⟩
  | reuse hs => exact absurd hd (deadEntries_of_getElem? hs)
  | overwrite hs => exact absurd hd (deadEntries_of_getElem? hs)
  | assert hs => exact absurd hd (deadEntries_of_getElem? hs)

/-! ## Every reachable page -/

theorem heapLts_inductive : heapLts.Inductive Valid where
  init := by rintro _ ⟨raw, pageId, type, rfl⟩; exact init_valid ..
  step := by
    rintro data op d h ⟨hop, he⟩
    cases op with
    | insertRecord r =>
      have h2 := hop.2
      simp only [PAGE_SIZE] at h2
      have hc := insertRecord_cases (ofBytes r) h hop.1 (by omega)
      simp only [HeapOp.exec] at he
      generalize insertRecord data (ofBytes r) r.length = res at hc he
      cases hc with
      | none => cases he; exact h
      | append _ hi => cases he; exact hi.valid
      | reuse _ _ _ hv => cases he; exact hv
      | overwrite _ _ _ _ _ hv => cases he; exact hv
      | assert => cases he
    | insertRecordAt pos r =>
      have h2 := hop.2
      simp only [PAGE_SIZE] at h2
      simp only [HeapOp.exec] at he
      by_cases hc : pos ≤ maxSlotId data ∧ r.length + 4 ≤ getTotalFreeSpace data
      · have hs := insertRecordAt_spec (ofBytes r) h hop.1 hc.1 hc.2
        split at hs <;> (obtain ⟨d', e, hi⟩ := hs; rw [e] at he; cases he; exact hi.valid)
      · rw [insertRecordAt_none (by omega) (by omega)] at he
        cases he; exact h
    | deleteRecord i =>
      cases he
      by_cases hb : ∃ b, (entries data)[i]? = some (.live b)
      · obtain ⟨b, hb⟩ := hb
        obtain ⟨d, e, -, hv, -⟩ := deleteRecord_spec h hb
        rw [e]; exact hv
      · rw [deleteRecord_false h fun b e => hb ⟨b, e⟩]; exact h
    | compactify => cases he; exact (compactify_spec h).2.1

theorem exists_dead_iff (h : Valid data) :
    (∃ i < getSlotCount data, recordBytes data i = none) ↔
      ∃ (i n : Nat), (entries data)[i]? = some (.dead n) := by
  constructor
  · rintro ⟨i, hi, hr⟩
    rw [recordBytes_eq h, getElem?_entries, if_pos (show i < maxSlotId data from hi)] at hr
    cases he : entryAt data i with
    | live b => rw [he] at hr; simp at hr
    | dead n => exact ⟨i, n, by rw [getElem?_entries, if_pos (show i < maxSlotId data from hi), he]⟩
  · rintro ⟨i, n, hi⟩
    have hlt := (List.getElem?_eq_some_iff.mp hi).1
    exact ⟨i, by simpa [getSlotCount] using hlt, by rw [recordBytes_eq h, hi]; rfl⟩

/-- The record is in its slot and the page has gained exactly it. -/
theorem keeps_of_recordSet {d : Mem} (h : Valid data) (hv : Valid d) {s : Nat} {r : Bytes}
    (hs : (entries d)[s]? = some (.live r))
    (hr : recordSet (entries d) = r ::ₘ recordSet (entries data)) :
    recordBytes d s = some r ∧ otherRecords d s = liveRecords data := by
  refine ⟨by rw [recordBytes_eq hv, hs]; rfl, ?_⟩
  have := otherRecords_add hv hs
  rw [liveRecords_eq hv, hr, ← liveRecords_eq h] at this
  exact (Multiset.cons_inj_right r).mp this

theorem Valid.keeps_iff (h : Valid data) {r : Bytes} (h1 : 1 ≤ r.length)
    (h2 : r.length ≤ PAGE_SIZE) : KeepsRecords data r ↔ ¬ Stale data r := by
  simp only [PAGE_SIZE] at h2
  have hc := insertRecord_cases (ofBytes r) h h1 (by omega)
  rw [slice_ofBytes] at hc
  rw [KeepsRecords, Stale, exists_dead_iff h]
  generalize insertRecord data (ofBytes r) r.length = res at hc ⊢
  cases hc with
  | none hno =>
    refine iff_of_true ⟨⟨_, _, rfl⟩, fun s d e => by simp at e⟩ fun hst => ?_
    obtain ⟨⟨i, n, hd⟩, -, ht⟩ := hst
    rcases findFirstFreeSlotId_spec h with ⟨hlt, -⟩ | ⟨-, hnil⟩
    · rw [if_neg (by omega)] at hno; omega
    · exact deadEntries_of_getElem? hd hnil
  | append hn hi =>
    have hget : (entries data).length = maxSlotId data := length_entries data
    refine iff_of_true ⟨⟨_, _, rfl⟩, fun s d e => ?_⟩ fun hst => ?_
    · cases e
      refine keeps_of_recordSet h hi.valid ?_ ?_
      · rw [hi.entries, List.getElem?_insertIdx_self, if_pos (by omega)]
      · rw [hi.entries, recordSet_insertIdx (by omega)]
    · obtain ⟨⟨i, n, hd⟩, -⟩ := hst
      rcases findFirstFreeSlotId_spec h with ⟨hlt, -⟩ | ⟨-, hnil⟩
      · omega
      · exact deadEntries_of_getElem? hd hnil
  | reuse hs hg he hv =>
    refine iff_of_true ⟨⟨_, _, rfl⟩, fun s d e => ?_⟩ fun hst => ?_
    · cases e
      refine keeps_of_recordSet h hv ?_ ?_
      · rw [he, List.getElem?_set_self (List.getElem?_eq_some_iff.mp hs).1]
      · rw [he, ← recordSet_set hs r]; simp
    · have := hst.2.1; omega
  | @overwrite d s n b hs hg ht hb he hv hm hp =>
    refine iff_of_false (fun hk => ?_) fun hst => hst ⟨⟨_, _, hs⟩, hg, ht⟩
    -- the record that was in the slot after compaction is gone: one record too few
    obtain ⟨-, hother⟩ := hk.2 s d rfl
    have hget : (entries d)[s]? = some (.live r) := by
      rw [he, List.getElem?_set_self (List.getElem?_eq_some_iff.mp hb).1]
    have h3 := otherRecords_add hv hget
    have h4 := recordSet_set hb r
    rw [← he, recordSet, recordSet, filterMap_liveEntries, ← recordSet, ← recordSet,
      ← liveRecords_eq h, ← liveRecords_eq hv, ← h3, hother] at h4
    have := congrArg Multiset.card h4
    simp at this
  | assert hs hg ht hb =>
    refine iff_of_false (fun hk => ?_) fun hst => hst ⟨⟨_, _, hs⟩, hg, ht⟩
    obtain ⟨_, _, e⟩ := hk.1
    simp at e

end

/-- On a reachable page `insertRecord` loses no record and violates no
assertion exactly when it does not have to compact with a dead slot chosen. -/
theorem insertRecord_keeps_iff (data : Mem) (hr : heapLts.Reachable data) (r : Bytes)
    (h1 : 1 ≤ r.length) (h2 : r.length ≤ PAGE_SIZE) : KeepsRecords data r ↔ ¬ Stale data r :=
  (heapLts_inductive.reachable hr).keeps_iff h1 h2

/-- One insert on a tight page whose slots are all live. -/
theorem exec_insertRecord {data : Mem} {r : Bytes} (h : Valid data) (ht : Tight data)
    (hd : deadEntries (entries data) = []) (hlen : 0 < r.length)
    (hr : r.length + 4 ≤ getTotalFreeSpace data) :
    ∃ d, (HeapOp.insertRecord r).exec data = .ok d ∧ entries d = entries data ++ [.live r] ∧
      Valid d ∧ Tight d := by
  obtain ⟨d, e, hi⟩ := insertRecord_append (ofBytes r) h hlen hd hr
  rw [slice_ofBytes] at hi
  refine ⟨d, by rw [HeapOp.exec, e]; rfl, ?_, hi.valid, hi.tight ht⟩
  rw [hi.entries, ← length_entries, List.insertIdx_length_self]

/-- Records that fit in a fresh page, inserted one after the other. -/
theorem exec_insertRecords (bs : List Bytes) (hpos : ∀ b ∈ bs, 0 < b.length)
    (hfit : cost (bs.map .live) ≤ PAGE_SIZE - sizeofHeader) : ∃ data,
      heapLts.Exec (bs.map .insertRecord) data ∧ entries data = bs.map .live ∧ Valid data ∧
        Tight data := by
  induction bs using List.reverseRecOn with
  | nil =>
    exact ⟨init Mem.zero 1 .leafPage, .nil ⟨_, _, _, rfl⟩, init_entries .., init_valid ..,
      init_tight ..⟩
  | append_singleton bs b ih =>
    have hb := hpos b (by simp)
    have hcost : cost (bs.map .live) + (b.length + 4) ≤ 4056 := by
      simpa [PAGE_SIZE, sizeofHeader] using hfit
    obtain ⟨data, hex, hent, hv, ht⟩ := ih (fun c hc => hpos c (by simp [hc]))
      (by simp only [PAGE_SIZE, sizeofHeader]; omega)
    have hlive : liveEntries (bs.map Entry.live) = bs.map .live := by
      rw [← map_liveRecordsOf, liveRecordsOf_map]
    have hdead : deadEntries (entries data) = [] := by
      rw [hent]
      apply List.filter_eq_nil_iff.mpr
      simp
    have hfree := ht.totalFree hv
    rw [hent, hlive] at hfree
    simp only [PAGE_SIZE, sizeofHeader] at hfree
    obtain ⟨d, e, hent', hv', ht'⟩ := exec_insertRecord hv ht hdead hb (by omega)
    have hok : (HeapOp.insertRecord b).Ok := ⟨hb, by simp only [PAGE_SIZE]; omega⟩
    refine ⟨d, ?_, by rw [hent', hent]; simp, hv', ht'⟩
    rw [List.map_append]
    exact hex.snoc ⟨hok, e⟩

/-- Two records of 2000 bytes, the first deleted: a tombstone, and 48 contiguous bytes. -/
theorem deleted_first {a b : Bytes} (ha : a.length = 2000) (hb : b.length = 2000) : ∃ data,
      heapLts.Exec [.insertRecord a, .insertRecord b, .deleteRecord 0] data ∧ Valid data ∧
        (∃ i < getSlotCount data, recordBytes data i = none) ∧ getFreeSpace data = 48 ∧
        getTotalFreeSpace data = 2052 := by
  obtain ⟨d2, h2, he2, hv2, ht2⟩ := exec_insertRecords [a, b] (by simp [ha, hb])
    (by simp [ha, hb, PAGE_SIZE, sizeofHeader])
  obtain ⟨d3, e3, he3, hv3, ht3, -⟩ := deleteRecord_spec (i := 0) (b := a) hv2 (by rw [he2]; rfl)
  rw [he2, List.map_cons, List.set_cons_zero] at he3
  refine ⟨d3, h2.snoc ⟨trivial, by rw [HeapOp.exec, e3]⟩, hv3,
    (exists_dead_iff hv3).mpr ⟨0, a.length, by rw [he3]; rfl⟩, ?_⟩
  have hf3 := (ht3 ht2).totalFree hv3
  have hg3 := (ht3 ht2).freeSpace hv3
  simp only [he3, List.map_cons, List.map_nil, liveEntries_dead, liveEntries_live, liveEntries_nil,
    cost_cons, cost_nil, Entry.size_live, Entry.size_dead, PAGE_SIZE, sizeofHeader] at hf3 hg3
  exact ⟨by omega, by omega⟩

/-- Slot 0 is reused where it is for a record of 40 bytes, and nothing is lost. -/
theorem insertRecord_keeps_gap : ∃ data,
    heapLts.Exec [.insertRecord (List.replicate 2000 1), .insertRecord (List.replicate 2000 2),
      .deleteRecord 0] data ∧ (∃ i < getSlotCount data, recordBytes data i = none) ∧
      KeepsRecords data (List.replicate 40 3) := by
  obtain ⟨data, hrun, -, hdead, hgap, -⟩ :=
    deleted_first (a := List.replicate 2000 1) (b := List.replicate 2000 2)
      List.length_replicate List.length_replicate
  refine ⟨data, hrun, hdead, ?_⟩
  refine (insertRecord_keeps_iff data ⟨_, hrun⟩ _ (by simp) (by simp [PAGE_SIZE])).mpr ?_
  rintro ⟨-, hlt, -⟩
  rw [hgap, List.length_replicate] at hlt
  omega

/-- For a record of 100 bytes the page is compacted first, and slot 0 is then the second
record's. -/
theorem insertRecord_loses : ∃ data,
    heapLts.Exec [.insertRecord (List.replicate 2000 1), .insertRecord (List.replicate 2000 2),
      .deleteRecord 0] data ∧ ¬ KeepsRecords data (List.replicate 100 3) := by
  obtain ⟨data, hrun, hv, hdead, hgap, hfree⟩ :=
    deleted_first (a := List.replicate 2000 1) (b := List.replicate 2000 2)
      List.length_replicate List.length_replicate
  refine ⟨data, hrun, ?_⟩
  rw [hv.keeps_iff (by simp) (by simp [PAGE_SIZE]), not_not]
  refine ⟨hdead, ?_, ?_⟩
  · rw [hgap, List.length_replicate]
    decide
  · rw [hfree, List.length_replicate]
    decide

end DbInternals.SlottedPage
