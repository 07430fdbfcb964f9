import DbInternals.Index.KeyedPages
import DbInternals.Index.RecordKeys
import DbInternals.Storage.SpaceChecks
import Mathlib.Data.List.Pairwise
import Mathlib.Data.List.TakeWhile

/-!
# Inserts and removals in a sorted leaf

The slot `findRecord` computes is the lower bound of the key among the live
slots. `insertRecordAt` uses it after a compaction that renumbers the slots, and
still puts the record in front of the first one with a key from its own on;
`deleteRecord` at it removes the first record with the key. Tombstones and
duplicates do not matter.

A record of 65532 bytes or more, whose space check wraps, is accepted and
breaks the page. A NaN compares as if equal with every key, so a record with
this key goes in front of all others.

Results: `findRecord_leaf`, `leafOrder_iff`.
-/
namespace DbInternals.Index

open Storage SlottedPage

/-! ## The slot that `findRecord` computes -/

section
variable {α : Type} {s s' : TreeState} {t : TreeConfig} {target : Key} {m : FindRecordMetadata}
  {p q fuel : Nat} {data leaf : Mem} {bt bt' : BTStack}

theorem ends_disk_iff {x : DiskM α} {a : α} : Ends (disk x) s a s' ↔
    ∃ d, Ends x s.diskManager a d ∧ s' = { s with diskManager := d } := by
  unfold Ends disk
  cases x s.diskManager with
  | ok b d =>
    constructor
    · intro h
      cases h
      exact ⟨d, rfl, rfl⟩
    · intro h'
      rcases h' with ⟨d', h, rfl⟩
      cases h
      rfl
  | error e d =>
    constructor
    · intro h
      cases h
    · intro h'
      rcases h' with ⟨d', h, -⟩
      cases h

theorem ends_buf_iff {x : Except Fault α} {a : α} : Ends (buf x) s a s' ↔ x = .ok a ∧ s' = s := by
  unfold Ends buf
  cases x with
  | ok b =>
    constructor
    · intro h
      cases h
      exact ⟨rfl, rfl⟩
    · intro h'
      rcases h' with ⟨h, rfl⟩
      cases h
      rfl
  | error e =>
    constructor
    · intro h
      cases h
    · intro h'
      rcases h' with ⟨h, -⟩
      cases h

theorem read_ends (h : Ends (disk (readPage p)) s data s') :
    data = s.page p ∧ ∀ q, s'.page q = s.page q := by
  obtain ⟨d, hd, rfl⟩ := ends_disk_iff.mp h
  obtain ⟨rfl, m, rfl⟩ := readPage_reads hd
  exact ⟨rfl, fun _ => rfl⟩

theorem descend_leaf (h : Ends (descend t target fuel p data bt) s (q, leaf, bt') s')
    (hdata : data = s.page p) : leaf = s.page q ∧ getPageType leaf = .leafPage := by
  induction fuel generalizing p data bt s with
  | zero =>
    unfold descend at h
    cases h
  | succ fuel ih =>
    unfold descend at h
    obtain ⟨hleaf, h⟩ | ⟨-, h⟩ := Ends.ite h
    · cases h
      exact ⟨hdata, hleaf⟩
    · obtain ⟨slot, s₁, hslot, h₁⟩ := Ends.bind_iff.mp h
      obtain ⟨-, rfl⟩ := ends_buf_iff.mp hslot
      obtain ⟨child, s₂, hchild, h₂⟩ := Ends.bind_iff.mp h₁
      obtain ⟨-, rfl⟩ := ends_buf_iff.mp hchild
      obtain ⟨data', s₃, hread, h₃⟩ := Ends.bind_iff.mp h₂
      obtain ⟨rfl, hsame⟩ := read_ends hread
      obtain ⟨rfl, htype⟩ := ih h₃ (hsame child).symm
      rw [hsame q] at htype ⊢
      exact ⟨rfl, htype⟩

/-- The slot is the one the leaf search ends at, on the page as it is. -/
theorem findRecord_leaf (h : Ends (findRecord t target) s m s') :
    leafSlot t (s.page m.leafPage) target = .ok m.leafSlot ∧
      getPageType (s.page m.leafPage) = .leafPage := by
  unfold findRecord at h
  replace h := Ends.rest (Ends.get s) h
  obtain ⟨data, s₁, hread, h₁⟩ := Ends.bind_iff.mp h
  obtain ⟨rfl, hsame⟩ := read_ends hread
  replace h₁ := Ends.rest (Ends.get s₁) h₁
  obtain ⟨⟨leafPage, leaf, bt⟩, s₂, hdescend, h₂⟩ := Ends.bind_iff.mp h₁
  obtain ⟨rfl, htype⟩ := descend_leaf hdescend (hsame _).symm
  obtain ⟨slot, s₃, hslot, h₃⟩ := Ends.bind_iff.mp h₂
  obtain ⟨e, rfl⟩ := ends_buf_iff.mp hslot
  cases h₃
  rw [hsame] at e htype
  exact ⟨e, htype⟩

end

/-! ## Sorted leaves -/

/-- A well-laid-out leaf whose live records come in the order of their keys. -/
structure OrderedLeaf (t : TreeConfig) (data : Mem) : Prop where
  valid : Valid data
  type : getPageType data = .leafPage
  keys : ∀ b ∈ recordSeq data, HoldsKey t b
  sorted : (recordSeq data).Pairwise fun b c => keyValue t b ≤ keyValue t c

/-- The slots with the keys of their records. -/
def keyedSlots (t : TreeConfig) (es : List Entry) : List (Option (Rank × Bytes)) :=
  es.map fun e => e.record?.map fun b => (keyValue t b, b)

section
variable {t : TreeConfig} {data d : Mem} {es : List Entry} {i slot : Nat} {b r : Bytes} {x : Rank}
  {target : Key} {p : Bytes → Bool}

theorem getElem?_keyedSlots {y : Rank} :
    (keyedSlots t es)[i]? = some (some (y, b)) ↔ es[i]? = some (.live b) ∧ y = keyValue t b := by
  unfold keyedSlots
  rw [List.getElem?_map]
  cases es[i]? with
  | none => simp
  | some e =>
    cases e with
    | dead n => simp
    | live c =>
      simp only [Option.map_some, Entry.record?_live, Option.some.injEq, Prod.mk.injEq,
        Entry.live.injEq]
      constructor
      · intro h'
        rcases h' with ⟨rfl, rfl⟩
        exact ⟨rfl, rfl⟩
      · intro h'
        rcases h' with ⟨rfl, rfl⟩
        exact ⟨rfl, rfl⟩

theorem OrderedLeaf.holdsKey (h : OrderedLeaf t data) (hb : (entries data)[i]? = some (.live b)) :
    HoldsKey t b := by
  apply h.keys
  rw [recordSeq_eq h.valid.layout]
  exact mem_liveRecordsOf.mpr (List.mem_of_getElem? hb)

theorem OrderedLeaf.readsSlots (h : OrderedLeaf t data) :
    ReadsSlots t (Key.Reads t.keyTypeId) data (keyedSlots t (entries data)) where
  type := h.type
  count := by
    unfold keyedSlots
    rw [List.length_map, length_entries]
    rfl
  dead i hi := by
    rw [record_dead h.valid]
    intro b hb
    have hlive := (getElem?_keyedSlots (t := t) (y := keyValue t b)).mpr ⟨hb, rfl⟩
    rw [hi] at hlive
    cases hlive
  live i y b hi := by
    obtain ⟨hb, rfl⟩ := getElem?_keyedSlots.mp hi
    obtain ⟨v, e, hv⟩ := record_live h.valid hb
    have hpos := h.valid.record_pos (List.mem_of_getElem? hb)
    exact ⟨List.length_pos_iff.mp hpos, ⟨v, e, hv⟩, keyAt_reads h.valid hb (h.holdsKey hb)⟩

theorem OrderedLeaf.slotsSorted (h : OrderedLeaf t data) :
    SlotsSorted (keyedSlots t (entries data)) := by
  have hs := h.sorted
  rw [recordSeq_eq h.valid.layout, liveRecordsOf, List.pairwise_filterMap] at hs
  intro i j y z b c hij hi hj
  obtain ⟨hb, rfl⟩ := getElem?_keyedSlots.mp hi
  obtain ⟨hc, rfl⟩ := getElem?_keyedSlots.mp hj
  obtain ⟨hi', hb⟩ := List.getElem?_eq_some_iff.mp hb
  obtain ⟨hj', hc⟩ := List.getElem?_eq_some_iff.mp hc
  exact List.pairwise_iff_getElem.mp hs i j hi' hj' hij b (by rw [hb]; rfl) c (by rw [hc]; rfl)

/-! ## The records around a slot -/

theorem takeWhile_append_neg {α : Type} {p : α → Bool} {l₁ l₂ : List α} (h₁ : ∀ a ∈ l₁, p a = true)
    (h₂ : ∀ a ∈ l₂, p a = false) :
    (l₁ ++ l₂).takeWhile p = l₁ ∧ (l₁ ++ l₂).dropWhile p = l₂ := by
  rw [List.takeWhile_append_of_pos h₁, List.dropWhile_append_of_pos h₁]
  cases l₂ with
  | nil => simp
  | cons a l₂ => simp [h₂ a List.mem_cons_self]

theorem liveRecordsOf_insertIdx (r : Bytes) : ∀ (es : List Entry) (pos : Nat), pos ≤ es.length →
    liveRecordsOf (es.insertIdx pos (.live r)) =
      liveRecordsOf (es.take pos) ++ r :: liveRecordsOf (es.drop pos)
  | es, 0, _ => by simp
  | [], pos + 1, h => by simp at h
  | e :: es, pos + 1, h => by
    have ih := liveRecordsOf_insertIdx r es pos (by simpa using h)
    cases e <;> simp [ih]

theorem liveRecordsOf_take_drop (es : List Entry) (pos : Nat) :
    liveRecordsOf es = liveRecordsOf (es.take pos) ++ liveRecordsOf (es.drop pos) := by
  rw [← liveRecordsOf_append, List.take_append_drop]

/-- The records of the slots before and from a boundary of `p` on. -/
theorem records_split (hp : ∀ i b, es[i]? = some (.live b) → (p b = true ↔ i < slot)) :
    (∀ b ∈ liveRecordsOf (es.take slot), p b = true) ∧
      ∀ b ∈ liveRecordsOf (es.drop slot), p b = false := by
  constructor
  · intro b hb
    obtain ⟨i, hi⟩ := List.getElem?_of_mem (mem_liveRecordsOf.mp hb)
    rw [List.getElem?_take] at hi
    split at hi
    · next hlt => exact (hp i b hi).mpr hlt
    · cases hi
  · intro b hb
    obtain ⟨i, hi⟩ := List.getElem?_of_mem (mem_liveRecordsOf.mp hb)
    rw [List.getElem?_drop] at hi
    by_contra hne
    have hlt := (hp _ b hi).mp (by simpa using hne)
    omega

/-- Without or with a compaction, the record goes in where the search ended. -/
theorem insertRecordAt_records (h : Valid data) (hslot : slot ≤ maxSlotId data) (hlen : 0 < r.length)
    (hfree : r.length + 4 ≤ getTotalFreeSpace data) {pos : Option Nat}
    (he : insertRecordAt data slot (Mem.ofBytes r) r.length = .ok (pos, d)) :
    Valid d ∧ recordSeq d =
      liveRecordsOf ((entries data).take slot) ++ r :: liveRecordsOf ((entries data).drop slot) := by
  have hle : slot ≤ (entries data).length := by rw [length_entries]; exact hslot
  have hspec := insertRecordAt_spec (Mem.ofBytes r) h hlen hslot hfree
  rw [Mem.slice_ofBytes] at hspec
  split at hspec
  · obtain ⟨d', e, hi⟩ := hspec
    rw [he] at e
    cases e
    refine ⟨hi.valid, ?_⟩
    rw [recordSeq_eq hi.valid.layout, hi.entries, liveRecordsOf_insertIdx r _ _ hle]
  · obtain ⟨d', e, hi⟩ := hspec
    rw [he] at e
    cases e
    refine ⟨hi.valid, ?_⟩
    -- the slots before the position that are live are its position among the live slots
    rw [recordSeq_eq hi.valid.layout, hi.entries, (compactify_spec h).1,
      ← liveEntries_insertIdx r _ _ hle, liveRecordsOf_liveEntries, liveRecordsOf_insertIdx r _ _ hle]

/-! ## The searches of a sorted leaf -/

/-- A key that cannot be decoded is noticed, unless there is nothing to compare it with. -/
theorem OrderedLeaf.decodes (h : OrderedLeaf t data) (he : leafSlot t data target = .ok slot) :
    recordSeq data = [] ∨ ∃ v, target.toValue = .ok v := by
  cases hx : target.toValue with
  | ok v => exact .inr ⟨v, rfl⟩
  | error e =>
    left
    by_contra hne
    obtain ⟨b, hb⟩ := List.exists_mem_of_ne_nil _ hne
    rw [recordSeq_eq h.valid.layout] at hb
    obtain ⟨i, hi⟩ := List.getElem?_of_mem (mem_liveRecordsOf.mp hb)
    have hreads := h.readsSlots
    have hlt : i < getSlotCount data := by
      have hlen := (List.getElem?_eq_some_iff.mp hi).1
      rwa [length_entries] at hlen
    have hprobe : ∀ j, slotLive data j = true →
        (do return decide ((← (keyAt t data j).compare target) < 0)) = Except.error e := by
      intro j hj
      obtain ⟨y, c, hy⟩ := hreads.slotLive.mp hj
      unfold Key.compare
      obtain ⟨v, hv, -⟩ := (hreads.live j y c hy).2.2.value
      rw [hv, hx]
      rfl
    have hlive := hreads.slotLive.mpr ⟨_, _, getElem?_keyedSlots.mpr ⟨hi, rfl⟩⟩
    have hfails := Search.lowerSparseM_fails hprobe hlive (getSlotCount data) 0 (getSlotCount data)
      (getSlotCount data) (by omega) (Nat.zero_le i) hlt
    unfold leafSlot at he
    dsimp only at he
    rw [show (fun probe => (record data probe).2 != 0) = slotLive data from rfl, hfails] at he
    cases he

theorem OrderedLeaf.not_live (h : OrderedLeaf t data) (hnil : recordSeq data = []) (i : Nat)
    (b : Bytes) : (entries data)[i]? ≠ some (.live b) := by
  intro hb
  rw [recordSeq_eq h.valid.layout] at hnil
  have hmem := mem_liveRecordsOf.mpr (List.mem_of_getElem? hb)
  rw [hnil] at hmem
  cases hmem

/-- On a leaf without records the search ends at some slot. -/
theorem leafSlot_le_of_nil (h : OrderedLeaf t data) (hnil : recordSeq data = [])
    (he : leafSlot t data target = .ok slot) : slot ≤ maxSlotId data := by
  have hdead : ∀ i, slotLive data i = true → False := by
    intro i hi
    obtain ⟨y, b, hy⟩ := h.readsSlots.slotLive.mp hi
    exact h.not_live hnil i b (getElem?_keyedSlots.mp hy).1
  have hprobe : ∀ i, slotLive data i = true →
      (do return decide ((← (keyAt t data i).compare target) < 0)) = Except.ok true :=
    fun i hi => (hdead i hi).elim
  have hrun := Search.lowerSparseM_eq hprobe (getSlotCount data) 0 (getSlotCount data)
    (getSlotCount data)
  have hbound : ∀ i, slotLive data i = true → i < getSlotCount data := fun i hi => (hdead i hi).elim
  have hle : Search.lowerResult (getSlotCount data) (Search.lowerSparse (slotLive data)
      (fun _ => true) (getSlotCount data) 0 (getSlotCount data) (getSlotCount data)) ≤
      getSlotCount data := Search.lowerResult_le hbound
  unfold leafSlot at he
  dsimp only at he
  rw [show (fun probe => (record data probe).2 != 0) = slotLive data from rfl, hrun] at he
  cases he
  exact hle

/-- The slot of an insert is a position, and the live slots before it are those with a smaller key.
To a NaN none is. -/
theorem OrderedLeaf.insertSlot (h : OrderedLeaf t data)
    (he : leafSlot t data (recordKey t r) = .ok slot) : slot ≤ maxSlotId data ∧
      ∀ i b, (entries data)[i]? = some (.live b) →
        ((recordValue t r).Above (keyValue t b) ↔ i < slot) := by
  obtain hnil | ⟨v, hv⟩ := h.decodes he
  · refine ⟨leafSlot_le_of_nil h hnil he, ?_⟩
    intro i b hb
    exact absurd hb (h.not_live hnil i b)
  · obtain ⟨slot', e, hle, hsep, -⟩ :=
      leafSlot_cut (Key.cuts_value (k := recordKey t r) (extractKey_typeId _) hv) h.readsSlots
        h.slotsSorted
    obtain rfl : slot = slot' := by
      rw [e] at he
      cases he
      rfl
    rw [recordValue_eq hv]
    refine ⟨?_, ?_⟩
    · unfold keyedSlots at hle
      rwa [List.length_map, length_entries] at hle
    · intro i b hb
      exact hsep i _ b (getElem?_keyedSlots.mpr ⟨hb, rfl⟩)

/-! ## What the calls do to the records -/

/-- A record that is accepted goes in front of the first one with a key from its own on. -/
def InsertsInOrder (t : TreeConfig) (data : Mem) (slot : Nat) (r : Bytes) : Prop :=
  ∀ pos d, insertRecordAt data slot (Mem.ofBytes r) r.length = .ok (some pos, d) →
    Valid d ∧ recordSeq d = (recordSeq data).takeWhile (¬ recordValue t r ≤ recordValue t ·) ++
      r :: (recordSeq data).dropWhile (¬ recordValue t r ≤ recordValue t ·)

/-- The slot holds the key, and deleting it takes the first record with the key away. -/
def RemovesFirst (t : TreeConfig) (data : Mem) (slot : Nat) (key : Key) (x : Rank) : Prop :=
  key.compare (keyAt t data slot) = .ok 0 ∧
    ∃ d, deleteRecord data slot = (true, d) ∧ Valid d ∧
      recordSeq d = (recordSeq data).eraseP fun b => keyValue t b = x

/-- The length of the record and a slot come to 65536 or more, and wrap to what is free. -/
def LengthWraps (data : Mem) (len : Nat) : Prop :=
  2 ^ 16 ≤ len + sizeofSlot ∧ len + sizeofSlot - 2 ^ 16 ≤ getTotalFreeSpace data

/-- The key of the record is a NaN, and it has room beside others. -/
def NanBeside (t : TreeConfig) (data : Mem) (r : Bytes) : Prop :=
  (recordValue t r).rank = none ∧ recordSeq data ≠ [] ∧ r.length + sizeofSlot ≤ getTotalFreeSpace data

/-- What is accepted at a position has a length, and room. -/
theorem insertRecordAt_some {record : Mem} {len : Nat} {pos : Option Nat} (hlen : len < 2 ^ 16)
    (hw : ¬ LengthWraps data len) (he : insertRecordAt data slot record len = .ok (pos, d))
    (hpos : pos ≠ none) : 0 < len ∧ len + 4 ≤ getTotalFreeSpace data := by
  unfold LengthWraps sizeofSlot at hw
  by_cases h0 : len = 0
  · unfold insertRecordAt at he
    rw [if_pos h0] at he
    cases he
    exact absurd rfl hpos
  refine ⟨by omega, ?_⟩
  by_contra hfull
  rw [insertRecordAt_refuses (.inr (by omega))] at he
  cases he
  exact hpos rfl

theorem insertsInOrder (h : OrderedLeaf t data) (hlen : r.length < 2 ^ 16)
    (hw : ¬ LengthWraps data r.length) (hnan : ¬ NanBeside t data r)
    (he : leafSlot t data (recordKey t r) = .ok slot) : InsertsInOrder t data slot r := by
  intro pos d hd
  obtain ⟨hslot, hsplit⟩ := h.insertSlot he
  obtain ⟨hpos, hfree⟩ := insertRecordAt_some hlen hw hd (by simp)
  obtain ⟨hv, hseq⟩ := insertRecordAt_records h.valid hslot hpos hfree hd
  refine ⟨hv, ?_⟩
  have hsplit' : ∀ i b, (entries data)[i]? = some (.live b) →
      (decide (¬ recordValue t r ≤ recordValue t b) = true ↔ i < slot) := by
    intro i b hb
    have hmem : b ∈ recordSeq data := by
      rw [recordSeq_eq h.valid.layout]
      exact mem_liveRecordsOf.mpr (List.mem_of_getElem? hb)
    -- beside another record the key is no NaN, so what is not below it is from it on
    obtain ⟨x, hx⟩ := Option.ne_none_iff_exists'.mp fun hx =>
      hnan ⟨hx, List.ne_nil_of_mem hmem, hfree⟩
    rw [decide_eq_true_eq, ← hsplit i b hb, Value.le_iff_rank hx (h.keys b hmem).rank, not_le,
      Value.above_iff hx]
  obtain ⟨hbelow, habove⟩ := records_split hsplit'
  obtain ⟨htake, hdrop⟩ := takeWhile_append_neg hbelow habove
  rw [recordSeq_eq h.valid.layout, liveRecordsOf_take_drop (entries data) slot, htake, hdrop]
  exact hseq

/-- A live slot from which the test holds on is the first one it holds at. -/
theorem liveRecordsOf_set_dead (hi : es[slot]? = some (.live b)) (hp : p b = true)
    (hbelow : ∀ c ∈ liveRecordsOf (es.take slot), p c = false) (n : Nat) :
    liveRecordsOf (es.set slot (.dead n)) = (liveRecordsOf es).eraseP p := by
  obtain ⟨hlt, hb⟩ := List.getElem?_eq_some_iff.mp hi
  have hsplit : es.drop slot = .live b :: es.drop (slot + 1) := by
    rw [List.drop_eq_getElem_cons hlt, hb]
  rw [List.set_eq_take_append_cons_drop, if_pos hlt, liveRecordsOf_append, liveRecordsOf_dead,
    liveRecordsOf_take_drop es slot, hsplit, liveRecordsOf_live,
    List.eraseP_append_right _ (fun c hc => by simp [hbelow c hc]), List.eraseP_cons_of_pos hp]

theorem removesFirst {key : Key} (h : OrderedLeaf t data) (hx : key.Reads t.keyTypeId x)
    (he : leafSlot t data key = .ok slot) (hex : ∃ b ∈ recordSeq data, keyValue t b = x) :
    RemovesFirst t data slot key x := by
  obtain ⟨slot', e, -, hsep, hlands⟩ :=
    leafSlot_cut ((keyOrder_reads _).cuts hx) h.readsSlots h.slotsSorted
  obtain rfl : slot = slot' := by
    rw [e] at he
    cases he
    rfl
  obtain ⟨c, hc, hcx⟩ := hex
  rw [recordSeq_eq h.valid.layout] at hc
  obtain ⟨j, hj⟩ := List.getElem?_of_mem (mem_liveRecordsOf.mp hc)
  obtain ⟨y, b, hy⟩ := hlands
    ⟨j, _, c, getElem?_keyedSlots.mpr ⟨hj, rfl⟩, not_lt.mpr (le_of_eq hcx.symm)⟩
  obtain ⟨hb, rfl⟩ := getElem?_keyedSlots.mp hy
  have hbelow : ∀ i a, (entries data)[i]? = some (.live a) → (keyValue t a < x ↔ i < slot) :=
    fun i a ha => hsep i _ a (getElem?_keyedSlots.mpr ⟨ha, rfl⟩)
  -- the slot is not below the key, and not above the record found
  have hnlt : ¬ keyValue t b < x := fun hlt => absurd ((hbelow slot b hb).mp hlt) (lt_irrefl slot)
  have hle : keyValue t b ≤ x := by
    rw [← hcx]
    have hjs : slot ≤ j := by
      by_contra hlt
      exact absurd ((hbelow j c hj).mpr (by omega)) (by rw [hcx]; exact lt_irrefl x)
    obtain rfl | hlt := Nat.eq_or_lt_of_le hjs
    · rw [hj] at hb
      cases hb
      exact le_refl _
    · exact h.slotsSorted slot j _ _ b c hlt hy (getElem?_keyedSlots.mpr ⟨hj, rfl⟩)
  have hbx : keyValue t b = x := le_antisymm hle (not_lt.mp hnlt)
  refine ⟨?_, ?_⟩
  · have hreads := keyAt_reads h.valid hb (h.holdsKey hb)
    rw [hx.compare hreads, hbx]
    unfold Rank.order
    simp
  · obtain ⟨d, hd, hent, hv, -, -⟩ := deleteRecord_spec h.valid hb
    refine ⟨d, hd, hv, ?_⟩
    rw [recordSeq_eq hv.layout, recordSeq_eq h.valid.layout, hent]
    refine liveRecordsOf_set_dead hb (by simpa using hbx) ?_ _
    have hsplit : ∀ i b, (entries data)[i]? = some (.live b) →
        (decide (keyValue t b < x) = true ↔ i < slot) := by simpa using hbelow
    obtain ⟨htake, -⟩ := records_split hsplit
    intro a ha
    have hlt := htake a ha
    simp only [decide_eq_true_eq] at hlt
    simpa using ne_of_lt hlt

/-! ## The leaf that a search ends at -/

/-- An accepted insert of the record puts it in its place, and a removal of any key
that is present takes the first record with it. -/
structure KeepsLeafOrder (t : TreeConfig) (s : TreeState) (m : FindRecordMetadata) (r : Bytes) :
    Prop where
  insert : InsertsInOrder t (s.page m.leafPage) m.leafSlot r
  remove : ∀ key x m' s', Ends (findRecord t key) s m' s' → m'.leafPage = m.leafPage →
    key.Reads t.keyTypeId x → (∃ b ∈ recordSeq (s.page m.leafPage), keyValue t b = x) →
    RemovesFirst t (s.page m.leafPage) m'.leafSlot key x

/-- A record that is let through past the wrap breaks the leaf. -/
theorem KeepsLeafOrder.not_wraps {s s' : TreeState} {m : FindRecordMetadata}
    (hk : KeepsLeafOrder t s m r) (hrun : Ends (findRecord t (recordKey t r)) s m s')
    (h : OrderedLeaf t (s.page m.leafPage)) (hlen : r.length < 2 ^ 16) :
    ¬ LengthWraps (s.page m.leafPage) r.length := by
  intro h'
  rcases h' with ⟨hw, hfree⟩
  obtain ⟨hslot, -⟩ := h.insertSlot (findRecord_leaf hrun).1
  simp only [sizeofSlot] at hw hfree
  obtain ⟨i, d, hd, hbroken⟩ := insertRecordAt_breaks (Mem.ofBytes r) h.valid hlen hw hfree hslot
  exact hbroken (hk.insert i d hd).1

/-- A record whose key is a NaN goes in front of all others. -/
theorem KeepsLeafOrder.not_nan {s s' : TreeState} {m : FindRecordMetadata}
    (hk : KeepsLeafOrder t s m r) (hrun : Ends (findRecord t (recordKey t r)) s m s')
    (h : OrderedLeaf t (s.page m.leafPage)) (hlen : r.length < 2 ^ 16) :
    ¬ NanBeside t (s.page m.leafPage) r := by
  rintro ⟨hnan, hne, hfree⟩
  obtain ⟨hslot, hsplit⟩ := h.insertSlot (findRecord_leaf hrun).1
  have hpos : 0 < r.length := by
    by_contra h0
    obtain rfl : r = [] := List.length_eq_zero_iff.mp (by omega)
    exact recordValue_nil hnan
  obtain ⟨i, d, hd⟩ := insertRecordAt_accepts (Mem.ofBytes r) h.valid hpos hfree hslot
  obtain ⟨-, hseq⟩ := insertRecordAt_records h.valid hslot hpos hfree hd
  have hall : ∀ b ∈ recordSeq (s.page m.leafPage),
      decide (¬ recordValue t r ≤ recordValue t b) = true := by
    intro b hb
    apply decide_eq_true
    rintro ⟨x, y, hx, -, -⟩
    cases hnan.symm.trans hx
  have hlast := (hk.insert i d hd).2
  rw [List.takeWhile_eq_self_iff.mpr hall, List.dropWhile_eq_nil_iff.mpr hall] at hlast
  have hnone : liveRecordsOf ((entries (s.page m.leafPage)).take m.leafSlot) = [] := by
    apply List.eq_nil_iff_forall_not_mem.mpr
    intro b hb
    obtain ⟨j, hj⟩ := List.getElem?_of_mem (mem_liveRecordsOf.mp hb)
    rw [List.getElem?_take] at hj
    split at hj
    · next hlt =>
      obtain ⟨y, hy, -⟩ := (hsplit j b hj).mpr hlt
      cases hnan.symm.trans hy
    · cases hj
  -- so it is the first of the records, none of which is a NaN
  rw [hlast, hnone] at hseq
  obtain ⟨b, bs, hbs⟩ := List.exists_cons_of_ne_nil hne
  rw [hbs] at hseq
  obtain rfl : b = r := List.head_eq_of_cons_eq hseq
  have hrank := (h.keys b (hbs ▸ List.mem_cons_self)).rank
  cases hnan.symm.trans hrank

end

/-- In the sorted leaf that the search for the key of a record ends at, inserts
and removals keep the order exactly when the length of the record does not wrap,
and its key is not a NaN that goes in beside others. -/
theorem leafOrder_iff (t : TreeConfig) (s s' : TreeState) (m : FindRecordMetadata) (r : Bytes)
    (hrun : Ends (findRecord t (recordKey t r)) s m s') (h : OrderedLeaf t (s.page m.leafPage))
    (hlen : r.length < 2 ^ 16) :
    KeepsLeafOrder t s m r ↔ ¬ LengthWraps (s.page m.leafPage) r.length ∧
      ¬ NanBeside t (s.page m.leafPage) r := by
  obtain ⟨he, -⟩ := findRecord_leaf hrun
  constructor
  · intro hk
    exact ⟨hk.not_wraps hrun h hlen, hk.not_nan hrun h hlen⟩
  · rintro ⟨hw, hnan⟩
    refine ⟨insertsInOrder h hlen hw hnan he, ?_⟩
    intro key x m' s'' hrun' hm' hx hex
    obtain ⟨he', -⟩ := findRecord_leaf hrun'
    rw [hm'] at he'
    exact removesFirst h hx he' hex

/-- A tree of one leaf. -/
def lone (data : Mem) : TreeState := fileOf (fun _ => data) 2 1

theorem lone_mapped (data : Mem) : Mapped (lone data).diskManager 1 :=
  ⟨Nat.one_lt_two, Nat.le_refl _⟩

theorem OrderedLeaf.lone (h : OrderedLeaf t data) : OrderedLeaf t ((lone data).page 1) ∧
    recordSeq ((lone data).page 1) = recordSeq data := by
  have hpage : (Index.lone data).page 1 = pageOf data := fileOf_page (by decide)
  obtain ⟨hent, hv, -⟩ := pageOf_congr h.valid
  have hseq : recordSeq (pageOf data) = recordSeq data := by
    rw [recordSeq_eq hv.layout, hent, recordSeq_eq h.valid.layout]
  rw [hpage]
  refine ⟨⟨hv, ?_, ?_, ?_⟩, hseq⟩
  · rw [getPageType, pageOf_readLE (by decide)]
    exact h.type
  · rw [hseq]
    exact h.keys
  · rw [hseq]
    exact h.sorted

/-- Every search for a key that decodes ends in it. -/
theorem OrderedLeaf.lone_search {key : Key} {v : Value} (h : OrderedLeaf t data)
    (hty : key.typeId = t.keyTypeId) (hv : key.toValue = .ok v) : ∃ m,
    Ends (findRecord t key) (Index.lone data) m (Index.lone data) ∧ m.leafPage = 1 := by
  obtain ⟨hleaf, -⟩ := h.lone
  have hcut := Key.cuts_place hty hv
  have hpages : TreePages t (Key.Reads t.keyTypeId) (Index.lone data) (fun _ => none)
      (fun p _ => p = 1) := by
    refine ⟨rfl, nofun, ?_⟩
    rintro p S rfl
    exact ⟨lone_mapped data, hleaf.type⟩
  obtain ⟨slot, e, -⟩ := leafSlot_cut hcut hleaf.readsSlots hleaf.slotsSorted
  exact ⟨_, findRecord_routed hcut hpages (.leaf rfl rfl) (.here 1 _) trivial hleaf.type e, rfl⟩

/-- The float 1.0, a tombstone, and the float 2.5 twice. -/
def floatSlots : List (Option Bytes) :=
  [some [0, 0, 0x80, 0x3f], none, some [0, 0, 0x20, 0x40], some [0, 0, 0x20, 0x40]]

theorem floatSlots_exec : ∃ run, (slotLts 1 .leafPage).Exec run
    ⟨floatSlots, 1, .leafPage, INVALID_PAGE_ID, INVALID_PAGE_ID, 4024⟩ := by
  have h0 : (slotLts 1 .leafPage).Exec []
      ⟨[], 1, .leafPage, INVALID_PAGE_ID, INVALID_PAGE_ID, 4056⟩ := .nil rfl
  have h1 := h0.snoc (l := (.insertRecordAt 0 [0, 0, 0x80, 0x3f], .slot (some 0)))
    ⟨by decide, .insertAt (by decide) (by decide) (by decide)⟩
  have h2 := h1.snoc (l := (.insertRecordAt 1 [0, 0, 0x00, 0x40], .slot (some 1)))
    ⟨by decide, .insertAt (by decide) (by decide) (by decide)⟩
  have h3 := h2.snoc (l := (.insertRecordAt 2 [0, 0, 0x20, 0x40], .slot (some 2)))
    ⟨by decide, .insertAt (by decide) (by decide) (by decide)⟩
  have h4 := h3.snoc (l := (.insertRecordAt 2 [0, 0, 0x20, 0x40], .slot (some 2)))
    ⟨by decide, .insertAt (by decide) (by decide) (by decide)⟩
  have h5 := h4.snoc (l := (.deleteRecord 1, .flag true)) ⟨by decide, .deletePresent rfl⟩
  exact ⟨_, h5⟩

theorem floatLeaf_exists : ∃ data, OrderedLeaf floatConfig data ∧ recordsOf data = floatSlots ∧
    recordSeq data = [[0, 0, 0x80, 0x3f], [0, 0, 0x20, 0x40], [0, 0, 0x20, 0x40]] := by
  obtain ⟨run, hrun⟩ := floatSlots_exec
  obtain ⟨data, -, habs⟩ := (slot_simulates (by decide) .leafPage).exec hrun
  have hseq : recordSeq data = [[0, 0, 0x80, 0x3f], [0, 0, 0x20, 0x40], [0, 0, 0x20, 0x40]] := by
    rw [recordSeq_eq habs.valid.layout]
    have hmap : liveRecordsOf (entries data) = (recordsOf data).filterMap id := by
      rw [recordsOf, List.filterMap_map]
      rfl
    rw [hmap, habs.slots]
    rfl
  refine ⟨data, ⟨habs.valid, habs.pageType, ?_, ?_⟩, habs.slots, hseq⟩
  · rw [hseq]
    decide +kernel
  · rw [hseq]
    decide +kernel

/-- A third 2.5 goes in before the other two, and its removal takes it out again. -/
theorem leafOrder_iff_floats : ∃ data m, recordsOf data = floatSlots ∧
    Ends (findRecord floatConfig (recordKey floatConfig [0, 0, 0x20, 0x40])) (lone data) m
      (lone data) ∧ KeepsLeafOrder floatConfig (lone data) m [0, 0, 0x20, 0x40] := by
  obtain ⟨data, hleaf, hrec, -⟩ := floatLeaf_exists
  have hv : (recordKey floatConfig [0, 0, 0x20, 0x40]).toValue = .ok (.float 0x4004000000000000) := by
    decide +kernel
  obtain ⟨m, e, hm⟩ := hleaf.lone_search rfl hv
  refine ⟨data, m, hrec, e, ?_⟩
  have hlone : OrderedLeaf floatConfig ((lone data).page m.leafPage) := by
    rw [hm]
    exact hleaf.lone.1
  refine (leafOrder_iff floatConfig _ _ m _ e hlone (by decide)).mpr ⟨?_, ?_⟩
  · rintro ⟨hw, -⟩
    exact absurd hw (by decide)
  · rintro ⟨hnan, -⟩
    rw [recordValue_eq hv] at hnan
    exact absurd hnan (by decide +kernel)

/-- The one page of a new tree. -/
theorem Start.page {s : TreeState} (h : Start s) : s.rootPageId = 1 ∧ s.diskManager.io = none ∧
    Mapped s.diskManager 1 ∧ recordSeq (s.page 1) = [] ∧ OrderedLeaf {} (s.page 1) := by
  have hg := h.good (t := {})
  obtain ⟨hm, hv, -, htype, hent, -, -⟩ := hg.holds.node 1
    (.leaf [] INVALID_PAGE_ID INVALID_PAGE_ID) (by simp [Tree.one])
  have hnil : recordSeq (s.page 1) = [] := by
    rw [recordSeq_eq hv.layout, hent]
    rfl
  exact ⟨hg.holds.root, hg.holds.io, hm, hnil, hv, htype, by simp [hnil], by simp [hnil]⟩

/-- Any search ends there. -/
theorem Start.search {s : TreeState} (h : Start s) {r : Bytes} (hr : 8 ≤ r.length) : ∃ m,
    Ends (findRecord {} (recordKey {} r)) s m s ∧ m.leafPage = 1 := by
  have hg := h.good (t := {})
  obtain ⟨rank, hs⟩ := hg.shape
  have hx : (recordKey {} r).Decodes (keyOf 8 r) :=
    (extractKey_spec numeric_default (View.sees_ofBytes r) hr).1
  obtain ⟨p, bt, es, left, right, -, -, hp, e⟩ := findRecord_route numeric_default hg.holds hs hx
  obtain ⟨rfl, -⟩ := one_store hp
  exact ⟨_, e, rfl⟩

theorem Start.leaf {s : TreeState} (h : Start s) {m : FindRecordMetadata} (hm : m.leafPage = 1) :
    OrderedLeaf {} (s.page m.leafPage) := by
  rw [hm]
  exact h.page.2.2.2.2

/-- A record of 65532 bytes breaks the leaf of a new tree. -/
theorem leafOrder_breaks : ∃ s m, Start s ∧
    Ends (findRecord {} (recordKey {} (List.replicate 65532 0))) s m s ∧
    OrderedLeaf {} (s.page m.leafPage) ∧ ¬ KeepsLeafOrder {} s m (List.replicate 65532 0) := by
  have hlen : (List.replicate 65532 (0 : UInt8)).length = 65532 := List.length_replicate
  generalize List.replicate 65532 (0 : UInt8) = r at hlen ⊢
  obtain ⟨s, hs⟩ := start_exists
  obtain ⟨m, e, hm⟩ := hs.search (r := r) (by omega)
  refine ⟨s, m, hs, e, hs.leaf hm, ?_⟩
  intro hk
  refine hk.not_wraps e (hs.leaf hm) (by omega) ⟨?_, ?_⟩
  · rw [hlen]
    decide
  · rw [hlen]
    exact Nat.zero_le _

end DbInternals.Index
