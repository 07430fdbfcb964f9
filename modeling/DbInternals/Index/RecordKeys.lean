import DbInternals.Index.InternalPages
import DbInternals.Index.KeyOrder

/-!
# The keys of records

What `extractKey` makes of a record, for any key column: `keyValue` is the rank of
what the key of the record decodes to. A key decodes to the same value wherever the
record lies, as long as decoding does not leave the record; a record `HoldsKey` if
it does not and the value is no NaN.

Results: `extractKey_sees`, `keyAt_reads`.
-/
namespace DbInternals.Index

open Storage SlottedPage Mem

/-! ## Views of the same bytes -/

/-- `v` shows at least what `u` shows. -/
structure View.Shows (u v : View) : Prop where
  avail : u.avail ≤ v.avail
  bytes : ∀ i < u.avail, v.mem i = u.mem i

section
variable {u v : View} {n w len : Nat} {a : Value} {x : Rank} {ty : TypeId} {b : Bytes} {t : TreeConfig}

theorem View.Shows.advance (h : u.Shows v) (o : Nat) : (u.advance o).Shows (v.advance o) := by
  refine ⟨Nat.sub_le_sub_right h.avail o, ?_⟩
  intro i hi
  have hlt : i < u.avail - o := hi
  exact h.bytes (o + i) (by omega)

theorem View.Shows.readLE (h : u.Shows v) (hn : n ≤ u.avail) : v.mem.readLE 0 n = u.mem.readLE 0 n :=
  readLE_congr fun i _ hi => h.bytes i (by omega)

theorem View.Shows.numeric (h : u.Shows v) (hx : numericDeserialize u w = .ok a) :
    numericDeserialize v w = .ok a := by
  unfold numericDeserialize View.read at hx ⊢
  by_cases ha : w ≤ u.avail
  · rw [if_pos ha] at hx
    rw [if_pos (ha.trans h.avail)]
    change (if _ then _ else _) = _ at hx
    change (if _ then _ else _) = _
    rw [h.readLE ha]
    exact hx
  · rw [if_neg ha] at hx
    cases hx

theorem View.Shows.float (h : u.Shows v) (hx : floatDeserialize u w = .ok a) :
    floatDeserialize v w = .ok a := by
  unfold floatDeserialize View.read at hx ⊢
  by_cases hw : w = 4
  · rw [if_pos hw] at hx ⊢
    by_cases ha : 4 ≤ u.avail
    · rw [if_pos ha] at hx
      rw [if_pos (ha.trans h.avail)]
      cases hx
      change Except.ok (Value.float (Ieee.widen (.ofNat (v.mem.readLE 0 4)))) = _
      rw [h.readLE ha]
    · rw [if_neg ha] at hx
      cases hx
  · rw [if_neg hw] at hx ⊢
    by_cases ha : 8 ≤ u.avail
    · rw [if_pos ha] at hx
      rw [if_pos (ha.trans h.avail)]
      cases hx
      change Except.ok (Value.float (.ofNat (v.mem.readLE 0 8))) = _
      rw [h.readLE ha]
    · rw [if_neg ha] at hx
      cases hx

theorem View.Shows.boolean (h : u.Shows v) (hx : booleanDeserialize u w = .ok a) :
    booleanDeserialize v w = .ok a := by
  unfold booleanDeserialize View.read at hx ⊢
  by_cases hw : w > 1
  · cases (if_pos hw).symm.trans hx
  · rw [if_neg hw] at hx ⊢
    by_cases ha : w ≤ u.avail
    · rw [if_pos ha] at hx
      rw [if_pos (ha.trans h.avail)]
      cases hx
      change Except.ok (Value.boolean (v.mem.readLE 0 w != 0)) = _
      rw [h.readLE ha]
    · rw [if_neg ha] at hx
      cases hx

/-- The bytes behind a length prefix of `n`. -/
theorem varcharDeserialize_eq (ha : 2 ≤ v.avail) (hn : v.mem.readLE 0 2 = n) :
    varcharDeserialize v = (if n ≤ (v.advance 2).avail then
      .ok (.varchar ((v.advance 2).mem.slice 0 n)) else .error .outOfBounds) := by
  unfold varcharDeserialize View.read
  rw [if_pos ha]
  subst hn
  by_cases hl : v.mem.readLE 0 2 ≤ (v.advance 2).avail
  · simp only [bind, Except.bind, if_pos hl]
    rfl
  · simp only [bind, Except.bind, if_neg hl]

theorem View.Shows.varchar (h : u.Shows v) (hx : varcharDeserialize u = .ok a) :
    varcharDeserialize v = .ok a := by
  by_cases ha : 2 ≤ u.avail
  · rw [varcharDeserialize_eq ha rfl] at hx
    rw [varcharDeserialize_eq (ha.trans h.avail) (h.readLE ha)]
    by_cases hl : u.mem.readLE 0 2 ≤ (u.advance 2).avail
    · rw [if_pos hl] at hx
      rw [if_pos (hl.trans (h.advance 2).avail)]
      cases hx
      apply congrArg (fun c => Except.ok (Value.varchar c))
      exact slice_congr fun i hi => (h.advance 2).bytes _ (by omega)
    · rw [if_neg hl] at hx
      cases hx
  · unfold varcharDeserialize View.read at hx
    rw [if_neg ha] at hx
    cases hx

theorem View.Shows.toValue (h : u.Shows v)
    (hx : (Key.fromBytes ty w u n).toValue = .ok a) : (Key.fromBytes ty w v n).toValue = .ok a := by
  unfold Key.toValue Key.fromBytes at hx ⊢
  cases ty with
  | numeric => exact h.numeric hx
  | boolean => exact h.boolean hx
  | varchar => exact h.varchar hx
  | float => exact h.float hx
  | invalid => cases hx

theorem View.Sees.shows (h : v.Sees b) : (View.ofBytes b).Shows v := by
  refine ⟨h.avail, ?_⟩
  intro i hi
  have hs : v.mem.slice 0 b.length = (Mem.ofBytes b).slice 0 b.length := by
    rw [h.bytes, slice_ofBytes]
  have heq := slice_inj hs hi
  rwa [Nat.zero_add] at heq

/-! ## `extractKey` -/

/-- The key starts at the key column, or where the record ends. -/
theorem extractKey_some (hlen : len ≠ 0) : ∃ size, extractKey t (some v) len =
    Key.fromBytes t.keyTypeId t.keyWidth (v.advance (min t.keyOffset len)) size := by
  have hmin : (if t.keyOffset ≤ len then t.keyOffset else len) = min t.keyOffset len := by
    rw [Nat.min_def]
  unfold extractKey
  simp only [if_neg hlen, hmin]
  by_cases hty : t.keyTypeId = .varchar
  · rw [if_pos hty]
    by_cases hrem : len - min t.keyOffset len < 2
    · exact ⟨_, if_pos hrem⟩
    · exact ⟨_, if_neg hrem⟩
  · exact ⟨_, if_neg hty⟩

theorem extractKey_typeId (r : Option View) : (extractKey t r len).typeId = t.keyTypeId := by
  cases r with
  | none => rfl
  | some v =>
    by_cases hlen : len = 0
    · unfold extractKey
      simp only [if_pos hlen]
      rfl
    · obtain ⟨size, e⟩ := extractKey_some (t := t) (v := v) hlen
      rw [e]
      rfl

theorem keyAt_typeId (data : Mem) (i : Nat) : (keyAt t data i).typeId = t.keyTypeId :=
  extractKey_typeId _

/-- What a key decodes to does not depend on its size. -/
theorem extractKey_toValue (hlen : len ≠ 0) : (extractKey t (some v) len).toValue =
    (Key.fromBytes t.keyTypeId t.keyWidth (v.advance (min t.keyOffset len)) 0).toValue := by
  obtain ⟨size, e⟩ := extractKey_some (t := t) (v := v) hlen
  rw [e]
  rfl

/-! ## The key of a record -/

/-- The record is long enough for its key to be decoded, and the key is no NaN. -/
def HoldsKey (t : TreeConfig) (b : Bytes) : Prop := ∃ x, (recordKey t b).Reads t.keyTypeId x

/-- What the key of the record decodes to. -/
def recordValue (t : TreeConfig) (b : Bytes) : Value :=
  match (recordKey t b).toValue with
  | .ok a => a
  | .error _ => .integer 0

/-- Its rank. -/
def keyValue (t : TreeConfig) (b : Bytes) : Rank := (recordValue t b).rank.getD (.integer 0)

theorem recordValue_eq (h : (recordKey t b).toValue = .ok a) : recordValue t b = a := by
  unfold recordValue
  rw [h]

theorem keyValue_eq (h : (recordKey t b).Reads t.keyTypeId x) : keyValue t b = x := by
  obtain ⟨-, a, ha, hx⟩ := h
  rw [keyValue, recordValue_eq ha, hx]
  rfl

/-- Nothing is decoded from an empty record, and so no NaN. -/
theorem recordValue_nil : (recordValue t []).rank ≠ none := by
  intro hnan
  obtain ⟨f, hf⟩ := Value.eq_float hnan
  unfold recordValue at hf
  cases hv : (recordKey t []).toValue with
  | error e =>
    rw [hv] at hf
    cases hf
  | ok a =>
    rw [hv] at hf
    obtain rfl : a = .float f := hf
    have hty := (Key.toValue_hasType hv).float
    have hkey : recordKey t [] = Key.fromBytes t.keyTypeId t.keyWidth ⟨Mem.zero, 1⟩ 0 := rfl
    rw [hkey] at hty hv
    rw [Key.toValue, hty] at hv
    -- a float takes four bytes at least
    change floatDeserialize ⟨Mem.zero, 1⟩ t.keyWidth = _ at hv
    unfold floatDeserialize at hv
    split at hv
    · cases hv
    · cases hv

theorem HoldsKey.reads (h : HoldsKey t b) : (recordKey t b).Reads t.keyTypeId (keyValue t b) := by
  obtain ⟨x, hx⟩ := h
  rwa [keyValue_eq hx]

theorem HoldsKey.rank (h : HoldsKey t b) : (recordValue t b).rank = some (keyValue t b) := by
  obtain ⟨x, -, a, ha, hx⟩ := h
  rw [keyValue, recordValue_eq ha, hx]
  rfl

theorem keyValue_of_rank (h : (recordValue t b).rank = some x) : keyValue t b = x := by
  rw [keyValue, h]
  rfl

/-- What a record holds as a bound sees it. -/
theorem place_le_keyValue (h : a ≤ recordValue t b) : a.place ≤ keyValue t b := by
  obtain ⟨x, y, hx, hy, hle⟩ := h
  rwa [keyValue_of_rank hy, Value.place, hx]

theorem keyValue_le_place (h : recordValue t b ≤ a) : keyValue t b ≤ a.place := by
  obtain ⟨x, y, hx, hy, hle⟩ := h
  rwa [keyValue_of_rank hx, Value.place, hy]

theorem holdsKey_iff : HoldsKey t b ↔
    ((recordKey t b).toValue.toOption.bind Value.rank).isSome = true := by
  rw [Option.isSome_iff_exists]
  apply exists_congr
  intro x
  rw [Key.reads_iff]
  exact and_iff_right (extractKey_typeId _)

instance (t : TreeConfig) (b : Bytes) : Decidable (HoldsKey t b) :=
  decidable_of_iff _ holdsKey_iff.symm

theorem extractKey_sees (hk : HoldsKey t b) (hb : b.length ≠ 0) (hv : v.Sees b) :
    (extractKey t (some v) b.length).Reads t.keyTypeId (keyValue t b) := by
  obtain ⟨-, a, ha, hx⟩ := hk.reads
  refine ⟨extractKey_typeId _, a, ?_, hx⟩
  unfold recordKey at ha
  rw [extractKey_toValue hb] at ha ⊢
  exact (hv.shows.advance _).toValue ha

/-- The key in a live slot. -/
theorem keyAt_reads {data : Mem} {i : Nat} (h : Valid data) (hb : (entries data)[i]? = some (.live b))
    (hk : HoldsKey t b) : (keyAt t data i).Reads t.keyTypeId (keyValue t b) := by
  have hpos := h.record_pos (List.mem_of_getElem? hb)
  obtain ⟨v, e, hv⟩ := record_live h hb
  unfold keyAt
  rw [e]
  exact extractKey_sees hk (by omega) hv

end

/-- Records that start with a float of four bytes. -/
def floatConfig : TreeConfig := { keyTypeId := .float, keyWidth := 4 }

end DbInternals.Index
