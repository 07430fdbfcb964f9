import DbInternals.Storage.InsertRecord

/-!
# Free space after a slot was taken over

`getTotalFreeSpace` adds up the gap and what the tombstones record. A record
stored in a tombstoned slot overwrites the size of the bytes the slot owned, so
those are counted nowhere until the next compaction: the figure is what
compaction would free exactly on a tight page (`predicted_iff_tight`), and a
page stays tight exactly as long as no tombstone is taken over
(`Accounted.step`, `Accounted.takesOver`).

Results: `predicted_run_iff`.
-/
namespace DbInternals.SlottedPage

open Mem LTS

/-- The free space is what compaction would leave, and `insertRecord` refuses
only what would not fit then. -/
structure Predicted (data : Mem) : Prop where
  free : getTotalFreeSpace data = getFreeSpace (compactify data)
  refuses : ∀ (r : Bytes) (d : Mem), 1 ≤ r.length → r.length ≤ PAGE_SIZE →
    insertRecord data (ofBytes r) r.length = .ok (none, d) →
      getFreeSpace (compactify data) < r.length + sizeofSlot

/-- The call stores its record in a page that has a tombstone: over one, or,
after compacting, over the record that moved to the tombstone's slot. -/
def TakesOver (data : Mem) : HeapOp → Prop
  | .insertRecord r => (∃ i < getSlotCount data, recordBytes data i = none) ∧
      ∃ slotId d, insertRecord data (ofBytes r) r.length = .ok (some slotId, d)
  | .insertRecordAt .. | .deleteRecord .. | .compactify => False

/-! ## Tight pages -/

section
variable {data d : Mem} {r : Bytes}

/-- Compaction frees what the figure says and the bytes nobody records. -/
theorem freeSpace_compactify (h : Valid data) : getFreeSpace (compactify data) =
    getTotalFreeSpace data + (PAGE_SIZE - (freeSpacePtr data + heapSize (entries data))) := by
  obtain ⟨hent, hvalid, htight, -⟩ := compactify_spec h
  have hfree := htight.freeSpace hvalid
  have htotal := getTotalFreeSpace_eq h
  have hparts := cost_live_dead (entries data)
  have hcost := cost_eq (entries data)
  have hspace := h.space
  have hslots := h.slots_le
  rw [hent] at hfree
  rw [length_entries] at hcost
  simp only [slotAddr_eq, PAGE_SIZE, sizeofHeader] at *
  omega

theorem predicted_iff_tight (h : Valid data) : Predicted data ↔ Tight data := by
  have hfree := freeSpace_compactify h
  have hspace := h.space
  constructor
  · intro hp
    have he := hp.free
    unfold Tight
    omega
  · intro ht
    unfold Tight at ht
    have he : getTotalFreeSpace data = getFreeSpace (compactify data) := by omega
    refine ⟨he, ?_⟩
    intro r d h1 h2 hnone
    simp only [PAGE_SIZE] at h2
    have hc := insertRecord_cases (ofBytes r) h h1 (by omega)
    rw [hnone, slice_ofBytes] at hc
    cases hc with
    | none hfull =>
      simp only [sizeofSlot]
      split at hfull <;> omega

/-! ## What the steps keep -/

/-- Every heap byte is recorded by a slot, and no tombstone records nothing. -/
structure Accounted (data : Mem) : Prop where
  valid : Valid data
  tight : Tight data
  dead : ∀ n, .dead n ∈ entries data → 0 < n

theorem init_accounted (raw : Mem) (pageId : Nat) (type : SlottedPageType) :
    Accounted (init raw pageId type) :=
  ⟨init_valid .., init_tight .., by simp [init_entries]⟩

theorem Inserted.accounted {pos : Nat} (hi : Inserted data d pos r) (h : Accounted data) :
    Accounted d := by
  refine ⟨hi.valid, hi.tight h.tight, ?_⟩
  intro n hn
  rw [hi.entries] at hn
  rcases List.eq_or_mem_of_mem_insertIdx hn with he | hmem
  · cases he
  · exact h.dead n hmem

theorem compactify_accounted (h : Valid data) : Accounted (compactify data) := by
  obtain ⟨hent, hvalid, htight, -⟩ := compactify_spec h
  refine ⟨hvalid, htight, ?_⟩
  intro n hn
  rw [hent] at hn
  have hlive := (List.mem_filter.mp hn).2
  simp at hlive

theorem deleteRecord_accounted (h : Accounted data) (i : Nat) :
    Accounted (deleteRecord data i).2 := by
  by_cases hb : ∃ b, (entries data)[i]? = some (.live b)
  · obtain ⟨b, hb⟩ := hb
    obtain ⟨d, e, hent, hvalid, htight, -⟩ := deleteRecord_spec h.valid hb
    rw [e]
    refine ⟨hvalid, htight h.tight, ?_⟩
    intro n hn
    rw [hent] at hn
    rcases List.mem_or_eq_of_mem_set hn with hmem | he
    · exact h.dead n hmem
    · cases he
      exact h.valid.record_pos (List.mem_of_getElem? hb)
  · rw [deleteRecord_false h.valid fun b e => hb ⟨b, e⟩]
    exact h

theorem insertRecordAt_accounted (h : Accounted data) {pos : Nat} {res : Option Nat}
    (h1 : 1 ≤ r.length) (h2 : r.length ≤ PAGE_SIZE)
    (he : insertRecordAt data pos (ofBytes r) r.length = .ok (res, d)) : Accounted d := by
  simp only [PAGE_SIZE] at h2
  by_cases hc : pos ≤ maxSlotId data ∧ r.length + 4 ≤ getTotalFreeSpace data
  · have hs := insertRecordAt_spec (ofBytes r) h.valid h1 hc.1 hc.2
    split at hs
    · obtain ⟨d', e, hi⟩ := hs
      rw [he] at e
      cases e
      exact hi.accounted h
    · obtain ⟨d', e, hi⟩ := hs
      rw [he] at e
      cases e
      exact hi.accounted (compactify_accounted h.valid)
  · rw [insertRecordAt_none (by omega) (by omega)] at he
    cases he
    exact h

/-- `r` written over an entry that records at least a byte: that byte is no
longer accounted for. -/
theorem not_tight_set {es : List Entry} {s p : Nat} {e : Entry} (hs : es[s]? = some e)
    (hpos : 0 < e.size) (hsum : p + heapSize es = PAGE_SIZE)
    (hent : entries d = es.set s (.live r)) (hp : freeSpacePtr d + r.length = p) : ¬ Tight d := by
  intro ht
  have hset : heapSize (es.set s (.live r)) + e.size = heapSize es + (Entry.live r).size :=
    heapSize_set hs
  unfold Tight at ht
  rw [hent] at ht
  simp only [Entry.size_live] at hset
  omega

/-- A call that does not take over a tombstone keeps every byte accounted for. -/
theorem Accounted.step (h : Accounted data) {op : HeapOp} (hs : heapLts.step data op d)
    (hn : ¬ TakesOver data op) : Accounted d := by
  obtain ⟨hop, he⟩ := hs
  cases op with
  | insertRecord r =>
    have h2 := hop.2
    simp only [PAGE_SIZE] at h2
    have hc := insertRecord_cases (ofBytes r) h.valid hop.1 (by omega)
    rw [slice_ofBytes] at hc
    simp only [TakesOver, exists_dead_iff h.valid] at hn
    simp only [HeapOp.exec] at he
    generalize insertRecord data (ofBytes r) r.length = res at hc he hn
    cases hc with
    | none =>
      cases he
      exact h
    | append _ hi =>
      cases he
      exact hi.accounted h
    | reuse hs => exact absurd ⟨⟨_, _, hs⟩, _, _, rfl⟩ hn
    | overwrite hs => exact absurd ⟨⟨_, _, hs⟩, _, _, rfl⟩ hn
    | assert => cases he
  | insertRecordAt pos r =>
    simp only [HeapOp.exec] at he
    cases hres : insertRecordAt data pos (ofBytes r) r.length with
    | error e =>
      rw [hres] at he
      cases he
    | ok x =>
      rw [hres] at he
      cases he
      exact insertRecordAt_accounted h hop.1 hop.2 hres
  | deleteRecord i =>
    cases he
    exact deleteRecord_accounted h i
  | compactify =>
    cases he
    exact compactify_accounted h.valid

/-- A call that takes over a tombstone leaves bytes that no slot records. -/
theorem Accounted.takesOver (h : Accounted data) {op : HeapOp} (hs : heapLts.step data op d)
    (ht : TakesOver data op) : Valid d ∧ ¬ Tight d := by
  have hvalid : Valid d := heapLts_inductive.step data op d h.valid hs
  refine ⟨hvalid, ?_⟩
  obtain ⟨hop, he⟩ := hs
  cases op with
  | insertRecord r =>
    have h2 := hop.2
    simp only [PAGE_SIZE] at h2
    have hc := insertRecord_cases (ofBytes r) h.valid hop.1 (by omega)
    rw [slice_ofBytes] at hc
    obtain ⟨hdead, slotId, d', hstored⟩ := ht
    rw [exists_dead_iff h.valid] at hdead
    simp only [HeapOp.exec, hstored] at he
    cases he
    rw [hstored] at hc
    cases hc with
    | append hn hi =>
      obtain ⟨i, n, hi⟩ := hdead
      rcases findFirstFreeSlotId_spec h.valid with ⟨hlt, -⟩ | ⟨-, hnil⟩
      · omega
      · exact absurd hnil (deadEntries_of_getElem? hi)
    | reuse hs _ he _ _ hp =>
      exact not_tight_set hs (h.dead _ (List.mem_of_getElem? hs)) h.tight he hp
    | overwrite _ _ _ hb he _ _ hp =>
      -- the page it is written to is the compacted one
      obtain ⟨hent, hvalid', htight, -⟩ := compactify_spec h.valid
      rw [← hent] at hb he
      exact not_tight_set hb (hvalid'.record_pos (List.mem_of_getElem? hb)) htight he hp
  | insertRecordAt pos r => exact ht.elim
  | deleteRecord i => exact ht.elim
  | compactify => exact ht.elim

end

/-- Along a run the free space is predicted in every state exactly if no call
takes over a tombstone. -/
theorem predicted_run_iff (raw : Mem) (pageId : Nat) (type : SlottedPageType)
    (tr : List (Mem × HeapOp × Mem)) (h : heapLts.Path (init raw pageId type) tr) :
    Always Predicted (init raw pageId type) tr ↔ Meets (fun data op => ¬ TakesOver data op) tr := by
  constructor
  · intro hall
    refine h.meets (P := Predicted) (I := Accounted) ?_ ?_ (init_accounted ..) hall.2
    · intro data op d hi hs hp ht
      obtain ⟨hvalid, hnot⟩ := hi.takesOver hs ht
      exact hnot ((predicted_iff_tight hvalid).mp hp)
    · intro data op d hi hs hn
      exact hi.step hs hn
  · intro hm
    have hi := h.always (I := Accounted) (fun data op d hi hs hn => hi.step hs hn)
      (init_accounted ..) hm
    exact ⟨(predicted_iff_tight hi.1.valid).mpr hi.1.tight,
      fun x hx => (predicted_iff_tight (hi.2 x hx).valid).mpr (hi.2 x hx).tight⟩

/-- A record inserted, deleted, and its slot given to another one. -/
theorem takesOver_run : ∃ d1 d2 d3,
    heapLts.Path (init Mem.zero 1 .leafPage)
      [(init Mem.zero 1 .leafPage, .insertRecord [1], d1), (d1, .deleteRecord 0, d2),
        (d2, .insertRecord [2], d3)] ∧
      Accounted d2 ∧ TakesOver d2 (.insertRecord [2]) := by
  have h0 := init_accounted Mem.zero 1 .leafPage
  have hent0 := init_entries Mem.zero 1 .leafPage
  have hfree0 := h0.tight.totalFree h0.valid
  simp only [hent0, liveEntries_nil, cost_nil, PAGE_SIZE, sizeofHeader] at hfree0
  obtain ⟨d1, e1, hent1, hv1, ht1⟩ := exec_insertRecord (r := [1]) h0.valid h0.tight
    (by rw [hent0]; rfl) (by decide) (by rw [List.length_singleton]; omega)
  have hs1 : heapLts.step (init Mem.zero 1 .leafPage) (.insertRecord [1]) d1 := ⟨by decide, e1⟩
  have h1 := h0.step hs1 fun ht => ?_
  · rw [hent0, List.nil_append] at hent1
    obtain ⟨d2, e2, hent2, -, -, -⟩ := deleteRecord_spec (i := 0) (b := [1]) h1.valid
      (by rw [hent1]; rfl)
    rw [hent1, List.set_cons_zero] at hent2
    have hs2 : heapLts.step d1 (.deleteRecord 0) d2 := ⟨trivial, by rw [HeapOp.exec, e2]⟩
    have h2 := h1.step hs2 id
    have hdead : ∃ i < getSlotCount d2, recordBytes d2 i = none :=
      (exists_dead_iff h2.valid).mpr ⟨0, 1, by rw [hent2]; rfl⟩
    have hgap := h2.tight.freeSpace h2.valid
    simp only [hent2, cost_cons, cost_nil, Entry.size_dead, List.length_singleton, PAGE_SIZE,
      sizeofHeader] at hgap
    have hc := insertRecord_cases (ofBytes [2]) h2.valid Nat.one_pos (by decide)
    have hstored : ∃ slotId d, insertRecord d2 (ofBytes [2]) 1 = .ok (some slotId, d) := by
      generalize insertRecord d2 (ofBytes [2]) 1 = res at hc
      cases hc with
      | none hfull =>
        have hfree := getTotalFreeSpace_eq h2.valid
        have hgap' := getFreeSpace_eq h2.valid
        rw [length_slice] at hfull
        split at hfull <;> omega
      | append => exact ⟨_, _, rfl⟩
      | reuse => exact ⟨_, _, rfl⟩
      | overwrite => exact ⟨_, _, rfl⟩
      | assert _ hg =>
        rw [length_slice] at hg
        omega
    obtain ⟨slotId, d3, e3⟩ := hstored
    have hs3 : heapLts.step d2 (.insertRecord [2]) d3 :=
      ⟨by decide, by rw [HeapOp.exec, List.length_singleton, e3]; rfl⟩
    exact ⟨d1, d2, d3, .cons hs1 (.cons hs2 (.cons hs3 (.nil d3))), h2, hdead, slotId, d3, e3⟩
  · obtain ⟨⟨i, hi, -⟩, -⟩ := ht
    rw [getSlotCount, init_maxSlotId] at hi
    exact absurd hi (Nat.not_lt_zero i)

/-- The space of the first record is not in the figure. -/
theorem predicted_run_iff_reuse : ∃ tr, heapLts.Path (init Mem.zero 1 .leafPage) tr ∧
    ¬ Always Predicted (init Mem.zero 1 .leafPage) tr := by
  obtain ⟨d1, d2, d3, hpath, -, ht⟩ := takesOver_run
  refine ⟨_, hpath, fun hall => ?_⟩
  exact (predicted_run_iff _ _ _ _ hpath).mp hall (d2, .insertRecord [2], d3) (by simp) ht

/-- Not every run predicts its free space. -/
theorem not_predicted : ¬ ∀ tr, heapLts.Path (init Mem.zero 1 .leafPage) tr →
    Always Predicted (init Mem.zero 1 .leafPage) tr := by
  intro h
  obtain ⟨d1, d2, d3, hpath, h2, ht⟩ := takesOver_run
  have hp : Predicted d3 := (h _ hpath).2 (d2, .insertRecord [2], d3) (by simp)
  have hs : heapLts.step d2 (.insertRecord [2]) d3 := hpath.step (d2, .insertRecord [2], d3) (by simp)
  obtain ⟨hvalid, hnot⟩ := h2.takesOver hs ht
  exact hnot ((predicted_iff_tight hvalid).mp hp)

end DbInternals.SlottedPage
