import DbInternals.Storage.InsertRecord

/-!
# `updateRecord` and the tombstones

`updateRecord` overwrites a record with one of the same length in place. It
compares lengths only: a tombstone still records the length it had and its
offset is 0, so an update of that length is written over the page header
(`UpdatesTombstone`).

Results: `updateRecord_run`: along a run with no such update, a further one does
what it should exactly when it does not hit a tombstone of its length.
-/
namespace DbInternals.SlottedPage

open Mem LTS

/-! ## Pages with updates -/

inductive UpdateOp where
  | heap (op : HeapOp)
  | updateRecord (slotId : Nat) (record : Bytes)
  deriving DecidableEq, Repr

/-- Records of 1..4096 bytes. -/
def UpdateOp.Ok : UpdateOp → Prop
  | heap op => op.Ok
  | updateRecord _ r => 1 ≤ r.length ∧ r.length ≤ PAGE_SIZE

def UpdateOp.exec (data : Mem) : UpdateOp → Except Fault Mem
  | heap op => op.exec data
  | updateRecord i r => .ok (SlottedPage.updateRecord data i (ofBytes r) r.length).2

/-- Any page from `init` on. -/
def updateLts : LTS Mem UpdateOp where
  init data := ∃ raw pageId type, data = init raw pageId type
  step data op data' := op.Ok ∧ op.exec data = .ok data'

/-- The slot is a tombstone whose record was as long as the new one. -/
def UpdatesTombstone (data : Mem) (slotId : Nat) (r : Bytes) : Prop :=
  ∃ slot, getSlot data slotId = some slot ∧ slotOffset data slot = 0 ∧
    slotSize data slot = r.length

def UpdateOp.HitsTombstone (data : Mem) : UpdateOp → Prop
  | updateRecord i r => UpdatesTombstone data i r
  | heap _ => False

/-- The call changes the bytes of one live record of that length, or nothing. -/
structure UpdatesOne (data : Mem) (slotId : Nat) (r : Bytes) : Prop where
  updates : (updateRecord data slotId (ofBytes r) r.length).1 = true ↔
    ∃ o, getRecord data slotId = (some o, r.length)
  stored : ∀ o, getRecord data slotId = (some o, r.length) →
    recordBytes (updateRecord data slotId (ofBytes r) r.length).2 slotId = some r ∧
      ∀ a, a < o ∨ o + r.length ≤ a →
        (updateRecord data slotId (ofBytes r) r.length).2 a = data a
  others : ∀ j, j ≠ slotId →
    recordBytes (updateRecord data slotId (ofBytes r) r.length).2 j = recordBytes data j
  refuses : (updateRecord data slotId (ofBytes r) r.length).1 = false →
    (updateRecord data slotId (ofBytes r) r.length).2 = data

/-! ## What an update does -/

section
variable {data d : Mem} {i : Nat} {b r : Bytes}

theorem updateRecord_refuses (h : ∀ slot, getSlot data i = some slot → slotSize data slot ≠ r.length) :
    updateRecord data i (ofBytes r) r.length = (false, data) := by
  unfold updateRecord
  cases hs : getSlot data i with
  | none => rfl
  | some slot => exact if_pos (h slot hs)

/-- A live record of the same length is overwritten in place. -/
theorem updateRecord_spec (h : Valid data) (hi : i < maxSlotId data) (h0 : off data i ≠ 0)
    (hlen : siz data i = r.length) : ∃ d,
      updateRecord data i (ofBytes r) r.length = (true, d) ∧
        entries d = (entries data).set i (.live r) ∧ Valid d ∧
        ∀ a, a < off data i ∨ off data i + r.length ≤ a → d a = data a := by
  have hn := h.slots_lt
  have hslots := h.slots_le
  obtain ⟨hlow, hend, -⟩ := h.live i hi h0
  simp only [slotAddr_eq] at hslots
  have e : updateRecord data i (ofBytes r) r.length =
      (true, data.copy (off data i) (ofBytes r) r.length) := by
    unfold updateRecord
    rw [getSlot_of_lt hn hi]
    exact if_neg fun hne => hne hlen
  refine ⟨_, e, ?_⟩
  clear e
  generalize hd : data.copy (off data i) (ofBytes r) r.length = d
  have hout : ∀ a, a < off data i ∨ off data i + r.length ≤ a → d a = data a := by
    intro a ha
    rw [← hd]
    exact copy_out ha
  have hmax : maxSlotId d = maxSlotId data :=
    readLE_congr fun a _ _ => hout a (by omega)
  have hfsp : freeSpacePtr d = freeSpacePtr data :=
    readLE_congr fun a _ _ => hout a (by omega)
  have hslot : ∀ j < maxSlotId data, off d j = off data j ∧ siz d j = siz data j := by
    intro j hj
    have hsame : ∀ a, slotAddr j ≤ a → a < slotAddr j + 4 → d a = data a := fun a _ h2 =>
      hout a (by simp only [slotAddr_eq] at h2; omega)
    exact ⟨off_congr hsame, siz_congr hsame⟩
  have hnew : d.slice (off data i) (siz data i) = r := by
    rw [hlen, ← hd, slice_copy, slice_ofBytes]
  have hent : entries d = (entries data).set i (.live r) := by
    apply List.ext_getElem?
    intro j
    rw [List.getElem?_set, getElem?_entries, getElem?_entries, hmax, length_entries]
    by_cases hij : i = j
    · subst hij
      rw [if_pos hi, if_pos rfl, if_pos hi, entryAt, (hslot i hi).1, (hslot i hi).2, if_neg h0, hnew]
    · rw [if_neg hij]
      split
      · next hj =>
        rw [Option.some.injEq]
        refine entryAt_congr (hslot j hj).1 (hslot j hj).2 fun hj0 k hk => hout _ ?_
        -- the two records do not overlap
        rw [(hslot j hj).1] at hj0 ⊢
        rw [(hslot j hj).2] at hk
        have hap := h.disjoint i hi j hj hij h0 hj0
        omega
      · rfl
  refine ⟨hent, ⟨?_, ?_, ?_, ?_, ?_⟩, hout⟩
  · rw [hmax, hfsp]
    exact h.slots_le
  · rw [hfsp]
    exact h.heap_le
  · intro j hj
    rw [hmax] at hj
    rw [hfsp, (hslot j hj).1, (hslot j hj).2]
    exact h.live j hj
  · intro j hj k hk
    rw [hmax] at hj hk
    rw [(hslot j hj).1, (hslot j hj).2, (hslot k hk).1, (hslot k hk).2]
    exact h.disjoint j hj k hk
  · have hget : (entries data)[i]? = some (entryAt data i) := by rw [getElem?_entries, if_pos hi]
    have hset : heapSize ((entries data).set i (.live r)) + (entryAt data i).size =
        heapSize (entries data) + (Entry.live r).size := heapSize_set hget
    have hspace := h.space
    rw [size_entryAt, Entry.size_live] at hset
    rw [hfsp, hent]
    omega

theorem updatesTombstone_iff (h : Valid data) :
    UpdatesTombstone data i r ↔ i < maxSlotId data ∧ off data i = 0 ∧ siz data i = r.length := by
  unfold UpdatesTombstone
  by_cases hi : i < maxSlotId data
  · rw [getSlot_of_lt h.slots_lt hi]
    constructor
    · intro h'
      rcases h' with ⟨slot, hs, h0, hlen⟩
      cases hs
      exact ⟨hi, h0, hlen⟩
    · intro h'
      rcases h' with ⟨-, h0, hlen⟩
      exact ⟨_, rfl, h0, hlen⟩
  · rw [getSlot_of_ge (by omega)]
    simp [hi]

/-- An update that does not hit a tombstone changes a live record or nothing. -/
theorem updateRecord_cases (h : Valid data) (hn : ¬ UpdatesTombstone data i r) :
    (i < maxSlotId data ∧ off data i ≠ 0 ∧ siz data i = r.length) ∨
      updateRecord data i (ofBytes r) r.length = (false, data) ∧
        ∀ o, getRecord data i ≠ (some o, r.length) := by
  rw [updatesTombstone_iff h] at hn
  by_cases hi : i < maxSlotId data
  · by_cases hlen : siz data i = r.length
    · exact .inl ⟨hi, fun h0 => hn ⟨hi, h0, hlen⟩, hlen⟩
    · refine .inr ⟨updateRecord_refuses fun slot hs => ?_, fun o ho => ?_⟩
      · rw [getSlot_of_lt h.slots_lt hi] at hs
        cases hs
        exact hlen
      · by_cases h0 : off data i = 0
        · rw [getRecord_dead h.layout (.inr h0)] at ho
          cases ho
        · rw [getRecord_live h.layout hi h0] at ho
          exact hlen (congrArg Prod.snd ho)
  · have hout : maxSlotId data ≤ i := Nat.le_of_not_lt hi
    refine .inr ⟨updateRecord_refuses fun slot hs => ?_, fun o ho => ?_⟩
    · rw [getSlot_of_ge hout] at hs
      cases hs
    · rw [getRecord_dead h.layout (.inl hout)] at ho
      cases ho

theorem updatesOne_iff (h : Valid data) : UpdatesOne data i r ↔ ¬ UpdatesTombstone data i r := by
  constructor
  · intro hu ht
    obtain ⟨hi, h0, hlen⟩ := (updatesTombstone_iff h).mp ht
    have htrue : (updateRecord data i (ofBytes r) r.length).1 = true := by
      unfold updateRecord
      rw [getSlot_of_lt h.slots_lt hi]
      simp only
      rw [if_neg (show ¬ slotSize data (slotAddr i) ≠ r.length from fun hne => hne hlen)]
    obtain ⟨o, ho⟩ := hu.updates.mp htrue
    rw [getRecord_dead h.layout (.inr h0)] at ho
    cases ho
  · intro hn
    rcases updateRecord_cases h hn with ⟨hi, h0, hlen⟩ | ⟨e, hrec⟩
    · obtain ⟨d, e, hent, hv, hout⟩ := updateRecord_spec h hi h0 hlen
      have hlt : i < (entries data).length := by rw [length_entries]; exact hi
      have hrec := getRecord_live h.layout hi h0
      rw [hlen] at hrec
      constructor <;> rw [e]
      · exact iff_of_true rfl ⟨_, hrec⟩
      · intro o ho
        rw [hrec] at ho
        cases ho
        refine ⟨?_, hout⟩
        rw [recordBytes_eq hv, hent, List.getElem?_set_self hlt]
        rfl
      · intro j hj
        rw [recordBytes_eq hv, recordBytes_eq h, hent, List.getElem?_set_ne (fun hij => hj hij.symm)]
      · intro hf
        cases hf
    · constructor <;> rw [e]
      · exact iff_of_false (by simp) fun ⟨o, ho⟩ => hrec o ho
      · exact fun o ho => absurd ho (hrec o)
      · exact fun _ _ => rfl
      · exact fun _ => rfl

/-- A step that does not update a tombstone keeps the layout. -/
theorem Valid.updateStep (h : Valid data) {op : UpdateOp} (hs : updateLts.step data op d)
    (hn : ¬ op.HitsTombstone data) : Valid d := by
  obtain ⟨hop, he⟩ := hs
  cases op with
  | heap op => exact heapLts_inductive.step data op d h ⟨hop, he⟩
  | updateRecord i r =>
    cases he
    rcases updateRecord_cases h hn with ⟨hi, h0, hlen⟩ | ⟨e, -⟩
    · obtain ⟨d, e, -, hv, -⟩ := updateRecord_spec h hi h0 hlen
      rw [e]
      exact hv
    · rw [e]
      exact h

end

/-- In every state of a run with no update of a tombstone of its length, an
update touches one live record only, exactly if it is no such update itself. -/
theorem updateRecord_run (raw : Mem) (pageId : Nat) (type : SlottedPageType)
    (tr : List (Mem × UpdateOp × Mem)) (h : updateLts.Path (init raw pageId type) tr)
    (hm : Meets (fun data op => ¬ op.HitsTombstone data) tr) :
    Always (fun data => ∀ slotId r, UpdatesOne data slotId r ↔ ¬ UpdatesTombstone data slotId r)
      (init raw pageId type) tr := by
  have hv := h.always (I := Valid) (fun data op d hi hs hn => hi.updateStep hs hn)
    (init_valid ..) hm
  exact ⟨fun _ _ => updatesOne_iff hv.1, fun x hx _ _ => updatesOne_iff (hv.2 x hx)⟩

/-- A record inserted and deleted. -/
theorem deleted_run : ∃ d1 d2, updateLts.Path (init Mem.zero 1 .leafPage)
      [(init Mem.zero 1 .leafPage, .heap (.insertRecordAt 0 [7]), d1),
        (d1, .heap (.deleteRecord 0), d2)] ∧ Valid d2 ∧ UpdatesTombstone d2 0 [9] := by
  have hv0 := init_valid Mem.zero 1 .leafPage
  have hent0 := init_entries Mem.zero 1 .leafPage
  have hroom : slotAddr (maxSlotId (init Mem.zero 1 .leafPage) + 1) + 1 ≤
      freeSpacePtr (init Mem.zero 1 .leafPage) := by
    rw [init_maxSlotId, init_freeSpacePtr]
    decide
  have hcan : canInsertContigious (init Mem.zero 1 .leafPage) 1 true = true := by
    rw [canInsertContigious_iff hv0, if_pos rfl]
    simp only [slotAddr_eq] at hroom ⊢
    omega
  have hfree : 1 + 4 ≤ getTotalFreeSpace (init Mem.zero 1 .leafPage) := by
    rw [getTotalFreeSpace_eq hv0]
    simp only [slotAddr_eq] at hroom ⊢
    omega
  have hspec := insertRecordAt_spec (ofBytes [7]) hv0 Nat.one_pos (Nat.zero_le (maxSlotId _)) hfree
  rw [if_pos hcan] at hspec
  obtain ⟨d1, e1, hi⟩ := hspec
  have hv1 := hi.valid
  have hent1 : entries d1 = [.live [7]] := by
    rw [hi.entries, hent0]
    rfl
  obtain ⟨d2, e2, hent2, hv2, -, -⟩ := deleteRecord_spec (i := 0) (b := [7]) hv1
    (by rw [hent1]; rfl)
  rw [hent1, List.set_cons_zero] at hent2
  have hs1 : updateLts.step (init Mem.zero 1 .leafPage) (.heap (.insertRecordAt 0 [7])) d1 :=
    ⟨show (HeapOp.insertRecordAt 0 [7]).Ok by decide,
      by rw [UpdateOp.exec, HeapOp.exec, List.length_singleton, e1]; rfl⟩
  have hs2 : updateLts.step d1 (.heap (.deleteRecord 0)) d2 :=
    ⟨trivial, by rw [UpdateOp.exec, HeapOp.exec, e2]⟩
  have hget : (entries d2)[0]? = some (.dead 1) := by rw [hent2]; rfl
  rw [getElem?_entries] at hget
  split at hget
  · next hi =>
    refine ⟨d1, d2, .cons hs1 (.cons hs2 (.nil d2)), hv2, (updatesTombstone_iff hv2).mpr ⟨hi, ?_⟩⟩
    unfold entryAt at hget
    split at hget
    · next h0 => exact ⟨h0, by simpa using hget⟩
    · cases hget
  · cases hget

/-- The record is gone from slot 0: updates of another length are refused. -/
theorem updateRecord_run_deleted : ∃ tr, updateLts.Path (init Mem.zero 1 .leafPage) tr ∧
    ∃ x ∈ tr, ∀ r, UpdatesOne x.2.2 0 r ↔ ¬ UpdatesTombstone x.2.2 0 r := by
  obtain ⟨d1, d2, hpath, -, -⟩ := deleted_run
  refine ⟨_, hpath, (d1, .heap (.deleteRecord 0), d2), by simp, fun r => ?_⟩
  refine (updateRecord_run _ _ _ _ hpath ?_).2 (d1, .heap (.deleteRecord 0), d2) (by simp) 0 r
  intro x hx
  rcases List.mem_cons.mp hx with rfl | hx
  · exact id
  · obtain rfl := List.mem_singleton.mp hx
    exact id

/-- An update of the deleted record is not refused. -/
theorem updatesOne_fails : ¬ ∀ tr, updateLts.Path (init Mem.zero 1 .leafPage) tr →
    Always (fun data => ∀ slotId r, UpdatesOne data slotId r) (init Mem.zero 1 .leafPage) tr := by
  intro h
  obtain ⟨d1, d2, hpath, hv, ht⟩ := deleted_run
  have hone : UpdatesOne d2 0 [9] := (h _ hpath).2 (d1, .heap (.deleteRecord 0), d2) (by simp) 0 [9]
  exact (updatesOne_iff hv).mp hone ht

end DbInternals.SlottedPage
