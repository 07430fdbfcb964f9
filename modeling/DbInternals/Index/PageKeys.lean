import DbInternals.Index.BPlusTree
import DbInternals.Index.KeyOrder
import DbInternals.Storage.InsertRecord
import DbInternals.Storage.DiskPages

/-!
# Keys on a page

For a `NUMERIC` key column at offset 0 the key of a record is the number in
its first `w` bytes (`keyOf`). A key that `extractKey` takes from a live slot
decodes to it (`keyAt_spec`), and comparing two such keys compares the
numbers (`compare_decodes`). The walk of a split stops at the first live slot
from where it starts (`walkPivot_first`), and only at a live one (`walkPivot_ok`).
-/
namespace DbInternals.Index

open Storage SlottedPage Mem

/-- A `NUMERIC` key column at offset 0. -/
structure TreeConfig.Numeric (t : TreeConfig) : Prop where
  type : t.keyTypeId = .numeric
  offset : t.keyOffset = 0
  width : t.keyWidth = 1 ∨ t.keyWidth = 2 ∨ t.keyWidth = 4 ∨ t.keyWidth = 8

theorem TreeConfig.Numeric.width_le {t : TreeConfig} (h : t.Numeric) :
    1 ≤ t.keyWidth ∧ t.keyWidth ≤ 8 := by
  have := h.width; omega

/-- The signed little-endian number in the first `w` bytes. -/
def keyOf (w : Nat) (b : Bytes) : Int := Int.bmod ((ofBytes b).readLE 0 w) (2 ^ (8 * w))

theorem keyOf_congr {w n : Nat} {m : Mem} {b : Bytes} (h : m.slice 0 n = b) (hw : w ≤ n) :
    Int.bmod (m.readLE 0 w) (2 ^ (8 * w)) = keyOf w b := by
  have hn : b.length = n := by rw [← h, length_slice]
  have hs : m.slice 0 n = (ofBytes b).slice 0 n := by rw [h, ← hn, slice_ofBytes]
  rw [keyOf, readLE_eq_of_slice hs hw]

theorem keyOf_take {w : Nat} {b : Bytes} (h : w ≤ b.length) : keyOf w (b.take w) = keyOf w b := by
  refine (keyOf_congr (m := ofBytes b) (n := w) ?_ (Nat.le_refl w)).symm.trans ?_
  · have := slice_ofBytes b
    rw [slice] at this ⊢
    conv_rhs => rw [← this]
    rw [← List.map_take, List.take_range, Nat.min_eq_left h]
  · rfl

/-! ## Keys that decode -/

/-- The key decodes to the number. -/
def Key.Decodes (k : Key) (x : Int) : Prop := k.Reads .numeric (.integer x)

theorem Key.decodes_iff {k : Key} {x : Int} : k.Decodes x ↔ k.toValue = .ok (.integer x) := by
  constructor
  · rintro ⟨-, v, hv, hx⟩
    cases v with
    | integer y =>
      cases hx
      exact hv
    | float fp =>
      obtain ⟨z, -, hz⟩ := Option.map_eq_some_iff.mp hx
      cases hz
    | _ => cases hx
  · intro h
    have hty := Key.toValue_hasType h
    refine ⟨?_, _, h, rfl⟩
    cases hk : k.typeId with
    | numeric => rfl
    | _ => rw [hk] at hty; exact hty.elim

theorem TreeConfig.Numeric.reads {t : TreeConfig} {k : Key} {x : Int} (ht : t.Numeric)
    (h : k.Decodes x) : k.Reads t.keyTypeId (.integer x) := by
  rw [ht.type]
  exact h

/-- The `size` bytes of the key are `b`. -/
structure Key.Carries (k : Key) (b : Bytes) : Prop where
  size : k.size = b.length
  bytes : k.data.mem.slice 0 b.length = b

theorem compare_decodes {k k' : Key} {x y : Int} (h : k.Decodes x) (h' : k'.Decodes y) :
    k.compare k' = .ok (if x < y then -1 else if x > y then 1 else 0) := by
  rw [Key.Reads.compare h h', Rank.order]
  simp only [Rank.integer_lt, gt_iff_lt]

theorem keyOrder_decodes : KeyOrder Key.Decodes :=
  fun _ _ _ _ h h' => ⟨_, Key.Reads.compare h h', by rw [Rank.order_lt, Rank.integer_lt],
    by rw [Rank.order_le, Rank.integer_le]⟩

/-- The pointer sees the bytes. -/
structure View.Sees (v : View) (b : Bytes) : Prop where
  bytes : v.mem.slice 0 b.length = b
  avail : b.length ≤ v.avail

theorem View.sees_ofBytes (b : Bytes) : (View.ofBytes b).Sees b := ⟨slice_ofBytes b, Nat.le_refl _⟩

theorem slice_prefix {m : Mem} {b : Bytes} (h : m.slice 0 b.length = b) {n : Nat}
    (hn : n ≤ b.length) : m.slice 0 n = b.take n := by
  rw [← h, slice, slice, ← List.map_take, List.take_range, Nat.min_eq_left hn]

section
variable {t : TreeConfig} {v : View} {b : Bytes}

theorem numericDeserialize_ok {w : Nat} (hw : w = 1 ∨ w = 2 ∨ w = 4 ∨ w = 8) (ha : w ≤ v.avail) :
    numericDeserialize v w = .ok (.integer (Int.bmod (v.mem.readLE 0 w) (2 ^ (8 * w)))) := by
  rw [numericDeserialize, View.read, if_pos ha]
  exact if_pos hw

/-- What `extractKey` makes of a record that holds its key. -/
theorem extractKey_spec (ht : t.Numeric) (hv : v.Sees b) (hw : t.keyWidth ≤ b.length) :
    (extractKey t (some v) b.length).Decodes (keyOf t.keyWidth b) ∧
      (extractKey t (some v) b.length).Carries (b.take t.keyWidth) := by
  have hpos := ht.width_le.1
  have hb : ¬ b.length = 0 := by omega
  have e : extractKey t (some v) b.length =
      Key.fromBytes .numeric t.keyWidth (v.advance 0) t.keyWidth := by
    rw [extractKey]
    simp only [hb, if_false, ht.offset, Nat.zero_le, if_true, ht.type, reduceCtorEq, Nat.sub_zero,
      hw]
  have hs : (v.advance 0).mem = v.mem := by funext i; simp [View.advance]
  have hmin : (b.take t.keyWidth).length = t.keyWidth := by simp [hw]
  rw [e]
  refine ⟨Key.decodes_iff.mpr ?_, hmin.symm, ?_⟩
  · have ha : t.keyWidth ≤ (v.advance 0).avail := hw.trans hv.avail
    apply (numericDeserialize_ok (v := v.advance 0) ht.width ha).trans
    rw [hs, keyOf_congr hv.bytes hw]
  · rw [hmin]
    change (v.advance 0).mem.slice 0 _ = _
    rw [hs, slice_prefix hv.bytes hw]

end

/-! ## Slots as the tree reads them -/

section
variable {data : Mem} {i : Nat} {b : Bytes}

theorem record_live (h : Valid data) (hb : (entries data)[i]? = some (.live b)) :
    ∃ v, record data i = (some v, b.length) ∧ v.Sees b := by
  obtain ⟨o, e, h1, -, h3⟩ := getRecord_of_entry h hb
  refine ⟨_, by rw [record, e], ?_, by simp only; omega⟩
  rw [slice_shift, Nat.add_zero]; exact h1

theorem record_dead (h : Valid data) (hb : ∀ b, (entries data)[i]? ≠ some (.live b)) :
    record data i = (none, 0) := by
  rw [record, getRecord_of_dead h hb]

theorem live_of_record (h : Valid data) (hi : (record data i).2 ≠ 0) :
    ∃ b, (entries data)[i]? = some (.live b) := by
  by_contra hc
  rw [not_exists] at hc
  rw [record_dead h hc] at hi
  exact hi rfl

theorem getSlotCount_lt (data : Mem) : getSlotCount data < 2 ^ 16 := readLE_lt data 2 20

theorem record_past (hi : getSlotCount data ≤ i) : (record data i).2 = 0 := by
  unfold record getRecord
  rw [getSlot_of_ge hi]

/-- A slot is live as the loops test it: its length is not 0. -/
theorem record_len_ne (h : Valid data) :
    ((record data i).2 != 0) = ((entries data)[i]?.map Entry.isLive).getD false := by
  by_cases hb : ∃ b, (entries data)[i]? = some (.live b)
  · obtain ⟨b, hb⟩ := hb
    obtain ⟨v, e, -⟩ := record_live h hb
    have := h.record_pos (List.mem_of_getElem? hb)
    rw [e, hb]
    simp only [Option.map_some, Entry.isLive_live, Option.getD_some, bne_iff_ne, ne_eq]
    omega
  · rw [record_dead h fun b e => hb ⟨b, e⟩]
    cases he : (entries data)[i]? with
    | none => rfl
    | some e =>
      cases e with
      | live b => exact absurd ⟨b, he⟩ hb
      | dead n => rfl

variable {t : TreeConfig}

/-- The key of a live slot. -/
theorem keyAt_spec (ht : t.Numeric) (h : Valid data) (hb : (entries data)[i]? = some (.live b))
    (hw : t.keyWidth ≤ b.length) : (keyAt t data i).Decodes (keyOf t.keyWidth b) ∧
      (keyAt t data i).Carries (b.take t.keyWidth) := by
  obtain ⟨v, e, hv⟩ := record_live h hb
  rw [keyAt, e]
  exact extractKey_spec ht hv hw

theorem keyAt_dead (h : Valid data) (hb : ∀ b, (entries data)[i]? ≠ some (.live b)) :
    keyAt t data i = Key.fromBytes t.keyTypeId t.keyWidth ⟨Mem.zero, 1⟩ 0 := by
  rw [keyAt, record_dead h hb]; rfl

end

/-! ## The walk to a live slot -/

section
variable {data : Mem} {p q fuel : Nat}

theorem walkPivot_dead (h : (record data p).2 = 0) :
    walkPivot data (fuel + 1) p = walkPivot data fuel ((p + 1) % 2 ^ 16) := if_pos h

theorem walkPivot_live (h : (record data p).2 ≠ 0) : walkPivot data (fuel + 1) p = .ok p := if_neg h

/-- Empty records are passed, up to the wrap. -/
theorem walkPivot_skip : ∀ (k p : Nat), p + k ≤ 2 ^ 16 → p < 2 ^ 16 →
    (∀ i, p ≤ i → i < p + k → (record data i).2 = 0) →
    walkPivot data (k + fuel) p = walkPivot data fuel ((p + k) % 2 ^ 16)
  | 0, p, _, hp, _ => by rw [Nat.zero_add, Nat.add_zero, Nat.mod_eq_of_lt hp]
  | k + 1, p, hk, hp, hdead => by
    rw [show k + 1 + fuel = k + fuel + 1 by omega,
      walkPivot_dead (hdead p (Nat.le_refl p) (by omega))]
    by_cases hwrap : p + 1 = 2 ^ 16
    · -- the last slot id: nothing is left to pass
      obtain rfl : k = 0 := by omega
      rw [Nat.zero_add, Nat.zero_add]
    · rw [Nat.mod_eq_of_lt (show p + 1 < 2 ^ 16 by omega),
        walkPivot_skip k (p + 1) (by omega) (by omega) fun i h₁ h₂ => hdead i (by omega) (by omega),
        show p + 1 + k = p + (k + 1) by omega]

/-- The first live slot from a slot on. -/
theorem walkPivot_first (hq : q < 2 ^ 16) (hle : p ≤ q) (hlive : (record data q).2 ≠ 0)
    (hdead : ∀ i, p ≤ i → i < q → (record data i).2 = 0) (hf : q - p < fuel) :
    walkPivot data fuel p = .ok q := by
  obtain ⟨n, rfl⟩ : ∃ n, fuel = (q - p) + (n + 1) := ⟨fuel - (q - p) - 1, by omega⟩
  rw [walkPivot_skip (q - p) p (by omega) (by omega) fun i h₁ h₂ => hdead i h₁ (by omega)]
  rw [show p + (q - p) = q by omega, Nat.mod_eq_of_lt hq]
  exact walkPivot_live hlive

/-- The walk stops at a live slot. -/
theorem walkPivot_ok : ∀ {fuel p m : Nat}, walkPivot data fuel p = .ok m → (record data m).2 ≠ 0
  | 0, _, _, h => by cases h
  | fuel + 1, p, m, h => by
    by_cases hz : (record data p).2 = 0
    · rw [walkPivot_dead hz] at h
      exact walkPivot_ok h
    · rw [walkPivot_live hz] at h
      cases h
      exact hz

end

/-- The bytes of a child id. -/
def idBytes (p : Nat) : Bytes := (pageIdMem p).slice 0 4

@[simp] theorem length_idBytes (p : Nat) : (idBytes p).length = 4 := length_slice ..

theorem readLE_idBytes {m : Mem} {p : Nat} (h : m.slice 0 4 = idBytes p) (hp : p < 2 ^ 32) :
    m.readLE 0 4 = p := by
  have e : m.readLE 0 4 = (pageIdMem p).readLE 0 4 := readLE_eq_of_slice h (Nat.le_refl 4)
  rw [e, pageIdMem, readLE_writeLE]
  exact Nat.mod_eq_of_lt hp

/-- Reading back a child id. -/
theorem childPageId_spec {data : Mem} {i p : Nat} (h : Valid data)
    (hb : (entries data)[i]? = some (.live (idBytes p))) (hp : p < 2 ^ 32) :
    childPageId data i = .ok p := by
  obtain ⟨v, e, hv⟩ := record_live h hb
  have h1 := hv.bytes
  have h2 := hv.avail
  rw [length_idBytes] at h1 h2
  rw [childPageId, e]
  simp only [View.read, h2, if_true]
  change Except.ok _ = _
  rw [readLE_idBytes h1 hp]

end DbInternals.Index
