import DbInternals.Types.Schema

/-!
# Tuples

A tuple is written in two sections at once: the fixed one has the value of each column,
or for a string its length, and the tail behind it has the strings themselves. Where the
tail begins is the schema's fixed size.

Results:
* `serializeFields_eq`, `deserializeFields_holds`: the two cursors write and read the two
  sections of the encoding, column by column;
* `tuple_round_trip`: the sections meet, so a tuple is read back from what was written.
-/
namespace DbInternals.Types

open DbInternals.Index (View numericDeserialize floatDeserialize booleanDeserialize varcharDeserialize)
open Ieee (binary64 narrow widen)

/-- `TypeId::BOOLEAN` -/
def BOOLEAN : UInt8 := 1

/-- `TypeId::NUMERIC` -/
def NUMERIC : UInt8 := 2

/-- `TypeId::FLOAT` -/
def FLOAT : UInt8 := 3

/-! ## Values -/

/-- The alternative says the type, and but for numbers the width: 1 for a boolean, 0 for a string.
mirrors src/type/value.h:31-44 -/
inductive Value where
  | integer (x : Int) (width : UInt8)
  | float (fp : UInt64) (width : UInt8)
  | boolean (b : Bool)
  | varchar (data : Bytes)
  deriving DecidableEq

namespace Value

/-- What a type decoded, with the width it was given.
mirrors the constructors of src/type/value.h:48-79 -/
def ofDecoded (width : UInt8) : Index.Value → Value
  | .integer x => integer x width
  | .float fp => float fp width
  | .boolean b => boolean b
  | .varchar data => varchar data

/-- `type->SerializedSize(value)`, `type` being that of the value.
mirrors src/type/numeric_type.h:30-32, float_type.h:26-28, boolean_type.h:13-15,
varchar_type.h:34-36 -/
def serializedSize : Value → Nat
  | integer _ width => width.toNat
  | float _ width => width.toNat
  | boolean _ => 1
  | varchar data => (data.length % 2 ^ 16 + 2) % 2 ^ 16

/-- `type->Serialize(value, buf)`, `type` being that of the value: an integer's low bytes, of the
eight it has, a float narrowed to four bytes or as it is, or a string behind its length.
mirrors src/type/numeric_type.h:34-38, float_type.h:29-37, boolean_type.h:16-19,
varchar_type.h:38-42 -/
def serialize (v : Value) (m : Mem) (buf : Nat) : Except Fault Mem :=
  match v with
  | integer x width =>
    if width ≤ 8 then .ok (m.writeLE buf width.toNat (x % 2 ^ 64).toNat) else .error .outOfBounds
  | float fp width =>
    if width = 4 then .ok (m.writeLE buf 4 (narrow fp).toNat) else .ok (m.writeLE buf 8 fp.toNat)
  | boolean b => .ok (m.writeLE buf 1 b.toNat)
  | varchar data =>
    let len := data.length % 2 ^ 16
    .ok ((m.writeLE buf 2 len).copy (buf + 2) (Mem.ofBytes data) len)

end Value

/-- `Type::GetInstance(type_id)->Deserialize(buf, width)`.
mirrors src/type/type.cpp:12-31, numeric_type.h:40-47, float_type.h:38-50, boolean_type.h:20-24,
varchar_type.h:47-54 -/
def typeDeserialize (typeId : UInt8) (buf : View) (width : UInt8) : Except Fault Value :=
  if typeId = NUMERIC then return Value.ofDecoded width (← numericDeserialize buf width.toNat)
  else if typeId = FLOAT then
    return Value.ofDecoded (if width = 4 then 4 else 8) (← floatDeserialize buf width.toNat)
  else if typeId = BOOLEAN then return Value.ofDecoded 1 (← booleanDeserialize buf width.toNat)
  else if typeId = VARCHAR then return Value.ofDecoded 0 (← varcharDeserialize buf)
  else .error (.assertFailed "false && \"unknown TypeId\"")

/-! ## Tuples -/

/-- mirrors src/type/tuple.h:38-41 -/
structure Tuple where
  data : List Value
  schema : Schema

namespace Tuple

/-- The columns from `col_idx` on, with both cursors. Where the union of a value holds no string,
the string's length lies past what it holds. mirrors src/type/tuple.cpp:35-49 -/
def serializeFields : List Column → List Value → Mem → Nat → Nat → Except Fault (Mem × Nat × Nat)
  | [], _, m, fixedCursor, varCursor => .ok (m, fixedCursor, varCursor)
  | _ :: _, [], _, _, _ => .error .outOfBounds
  | col :: cols, value :: values, m, fixedCursor, varCursor =>
    if col.isVariableLength then
      match value with
      | .varchar data =>
        let len := data.length % 2 ^ 16
        let m := m.writeLE fixedCursor 2 len
        let m := m.copy varCursor (Mem.ofBytes data) len
        serializeFields cols values m (fixedCursor + 2) (varCursor + len)
      | _ => .error .outOfBounds
    else do
      let m ← value.serialize m fixedCursor
      serializeFields cols values m (fixedCursor + value.serializedSize) varCursor

/-- The bytes written at `buf`, and how many as a `uint16_t`.
mirrors src/type/tuple.cpp:31-52 -/
def serialize (t : Tuple) (m : Mem) (buf : Nat) : Except Fault (Mem × Nat) := do
  let fixedCursor := buf
  let varCursor := buf + t.schema.getFixedSize.toNat
  let (m, _, varCursor) ← serializeFields (t.schema.columns.take t.schema.getColumnCount) t.data m
    fixedCursor varCursor
  return (m, (varCursor - buf) % 2 ^ 16)

/-- The columns from `col_idx` on, with both cursors. mirrors src/type/tuple.cpp:71-87 -/
def deserializeFields : List Column → View → View → Except Fault (List Value)
  | [], _, _ => .ok []
  | col :: cols, fixedCursor, varCursor =>
    if col.isVariableLength then do
      let len := (← fixedCursor.read 2).readLE 0 2
      let data := (← varCursor.read len).slice 0 len
      let values ← deserializeFields cols (fixedCursor.advance 2) (varCursor.advance len)
      return .varchar data :: values
    else do
      let value ← typeDeserialize col.typeId fixedCursor col.length.toUInt8
      let values ← deserializeFields cols (fixedCursor.advance value.serializedSize) varCursor
      return value :: values

/-- mirrors src/type/tuple.cpp:64-90 -/
def deserialize (schema : Schema) (buf : View) : Except Fault Tuple := do
  let varCursor := buf.advance schema.getFixedSize.toNat
  let values ← deserializeFields (schema.columns.take schema.getColumnCount) buf varCursor
  return ⟨values, schema⟩

end Tuple

/-! ## One field -/

namespace Value

/-- What a value puts into the fixed section. -/
def fixedPart : Value → Bytes
  | integer x width => Mem.leBytes width.toNat (x % 2 ^ 64).toNat
  | float fp width => if width = 4 then Mem.leBytes 4 (narrow fp).toNat else Mem.leBytes 8 fp.toNat
  | boolean b => Mem.leBytes 1 b.toNat
  | varchar data => Mem.leBytes 2 data.length

/-- What a value puts into the tail. -/
def tailPart : Value → Bytes
  | varchar data => data
  | _ => []

/-- Of the column's type, as wide as the column, and representable in that width; a `VARCHAR`
column is as long as the length prefix. -/
def Fits (col : Column) : Value → Prop
  | integer x width => col.typeId = NUMERIC ∧ col.length ∈ [1, 2, 4, 8] ∧
      width.toNat = col.length.toNat ∧
      -(2 ^ (8 * width.toNat - 1) : Int) ≤ x ∧ x < 2 ^ (8 * width.toNat - 1)
  | float fp width => col.typeId = FLOAT ∧ col.length ∈ [4, 8] ∧ width.toNat = col.length.toNat ∧
      (width = 4 → ¬ binary64.IsNaN fp.toNat ∧ widen (narrow fp) = fp)
  | boolean _ => col.typeId = BOOLEAN ∧ col.length = 1
  | varchar _ => col.typeId = VARCHAR ∧ col.length = 2

instance (col : Column) : (v : Value) → Decidable (Fits col v)
  | integer _ _ => inferInstanceAs (Decidable (_ ∧ _ ∧ _ ∧ _ ∧ _))
  | float _ _ => inferInstanceAs (Decidable (_ ∧ _ ∧ _ ∧ (_ → _)))
  | boolean _ => inferInstanceAs (Decidable (_ ∧ _))
  | varchar _ => inferInstanceAs (Decidable (_ ∧ _))

variable {col : Column} {v : Value} {view : View}

/-- The width of a float is 4 or 8. -/
theorem Fits.float_width {fp : UInt64} {width : UInt8} (h : Fits col (float fp width)) :
    width = 4 ∨ width = 8 := by
  obtain ⟨-, hlen, hw, -⟩ := h
  simp only [List.mem_cons, List.not_mem_nil, or_false] at hlen
  refine hlen.imp (fun h4 => ?_) fun h8 => ?_
  · exact UInt8.toNat_inj.mp (hw.trans (by rw [h4]; rfl))
  · exact UInt8.toNat_inj.mp (hw.trans (by rw [h8]; rfl))

/-- A number that was read from four bytes fits such a column again. -/
theorem fits_widen {f : UInt32} (h : ¬ Ieee.binary32.IsNaN f.toNat) (ht : col.typeId = FLOAT)
    (hlen : col.length = 4) : Fits col (float (widen f) 4) :=
  ⟨ht, by simp [hlen], by rw [hlen]; rfl, fun _ =>
    ⟨Ieee.not_nan_widen h, by rw [Ieee.narrow_widen h]⟩⟩

theorem Fits.length_fixedPart (h : Fits col v) : v.fixedPart.length = col.length.toNat := by
  cases v with
  | integer x width => rw [fixedPart, Mem.length_leBytes]; exact h.2.2.1
  | float fp width =>
    rw [← h.2.2.1, fixedPart]
    rcases h.float_width with rfl | rfl
    · rw [if_pos rfl, Mem.length_leBytes]
      rfl
    · rw [if_neg (by decide), Mem.length_leBytes]
      rfl
  | boolean b => rw [h.2]; rfl
  | varchar data => rw [h.2]; rfl

/-- A number survives the truncation to a width that represents it. -/
theorem bmod_leBytes {w : Nat} {x : Int} (hw : w = 1 ∨ w = 2 ∨ w = 4 ∨ w = 8)
    (hl : -(2 ^ (8 * w - 1) : Int) ≤ x) (hu : x < 2 ^ (8 * w - 1)) :
    Int.bmod ((x % 2 ^ 64).toNat % 256 ^ w : Nat) (2 ^ (8 * w)) = x := by
  have hdvd : ((256 ^ w : Nat) : Int) ∣ 2 ^ 64 := by
    rcases hw with rfl | rfl | rfl | rfl <;> decide
  have hx : (((x % 2 ^ 64).toNat % 256 ^ w : Nat) : Int) = x % ((2 ^ (8 * w) : Nat) : Int) := by
    rw [Int.natCast_emod, Int.toNat_of_nonneg (Int.emod_nonneg _ (by decide)),
      Int.emod_emod_of_dvd _ hdvd, Nat.pow_mul]
  rw [hx, Int.emod_bmod]
  rcases hw with rfl | rfl | rfl | rfl
  all_goals
    apply Int.bmod_eq_of_le
    · omega
    · omega

theorem Fits.width_mem {x : Int} {width : UInt8} (h : Fits col (integer x width)) :
    width.toNat = 1 ∨ width.toNat = 2 ∨ width.toNat = 4 ∨ width.toNat = 8 := by
  obtain ⟨-, hlen, hw, -, -⟩ := h
  simp only [List.mem_cons, List.not_mem_nil, or_false] at hlen
  rw [hw]
  rcases hlen with h | h | h | h <;> simp [h]

/-- Strings are in the `VARCHAR` columns and nowhere else. -/
theorem Fits.isVariableLength (h : Fits col v) :
    col.isVariableLength = true ↔ ∃ data, v = varchar data := by
  unfold Column.isVariableLength
  cases v with
  | integer x width => simp [h.1, NUMERIC, VARCHAR]
  | float fp width => simp [h.1, FLOAT, VARCHAR]
  | boolean b => simp [h.1, BOOLEAN, VARCHAR]
  | varchar data => simp [h.1]

/-- A value that is no string is its part of the fixed section. -/
theorem Fits.serialize_eq (h : Fits col v) (hc : ¬ col.isVariableLength = true) (m : Mem) (buf : Nat) :
    v.serialize m buf = .ok (m.put buf v.fixedPart) ∧ v.serializedSize = v.fixedPart.length ∧
      v.tailPart = [] := by
  cases v with
  | integer x width =>
    have hw : width ≤ 8 := by
      have := h.width_mem
      rw [UInt8.le_iff_toNat_le, show (8 : UInt8).toNat = 8 from rfl]
      omega
    refine ⟨?_, ?_, rfl⟩
    · simp only [serialize, if_pos hw, Mem.writeLE_eq_put, fixedPart]
    · simp only [serializedSize, fixedPart, Mem.length_leBytes]
  | float fp width =>
    refine ⟨?_, ?_, rfl⟩
    · simp only [serialize, fixedPart]
      split
      · rw [Mem.writeLE_eq_put]
      · rw [Mem.writeLE_eq_put]
    · rw [h.length_fixedPart, ← h.2.2.1]
      rfl
  | boolean b => exact ⟨by simp only [serialize, Mem.writeLE_eq_put, fixedPart], rfl, rfl⟩
  | varchar data => exact absurd (h.isVariableLength.mpr ⟨data, rfl⟩) hc

/-- A number is read back from its bytes. -/
theorem Fits.numericDeserialize_eq {x : Int} {width : UInt8} (h : Fits col (integer x width))
    (hv : view.Holds (integer x width).fixedPart) :
    numericDeserialize view width.toNat = .ok (.integer x) := by
  have hmem := h.width_mem
  obtain ⟨-, -, -, hl, hu⟩ := h
  have hread := hv.read
  rw [fixedPart, Mem.length_leBytes] at hread
  simp only [numericDeserialize, hread, bind, Except.bind, if_pos hmem, pure, Except.pure]
  rw [View.Holds.readLE hv, bmod_leBytes hmem hl hu]

/-- A float is read back from its bytes. -/
theorem Fits.floatDeserialize_eq {fp : UInt64} {width : UInt8} (h : Fits col (float fp width))
    (hv : view.Holds (float fp width).fixedPart) :
    floatDeserialize view width.toNat = .ok (.float fp) := by
  unfold floatDeserialize
  rcases h.float_width with rfl | rfl
  · have hv : view.Holds (Mem.leBytes 4 (narrow fp).toNat) := hv
    have hread := hv.read
    rw [Mem.length_leBytes] at hread
    rw [if_pos (by decide), hread]
    change Except.ok (Index.Value.float (widen (.ofNat (view.mem.readLE 0 4)))) = _
    rw [View.Holds.readLE hv, Nat.mod_eq_of_lt (b := 256 ^ 4) (narrow fp).toNat_lt,
      UInt32.ofNat_toNat, (h.2.2.2 rfl).2]
  · have hv : view.Holds (Mem.leBytes 8 fp.toNat) := hv
    have hread := hv.read
    rw [Mem.length_leBytes] at hread
    rw [if_neg (by decide), hread]
    change Except.ok (Index.Value.float (.ofNat (view.mem.readLE 0 8))) = _
    rw [View.Holds.readLE hv, Nat.mod_eq_of_lt (b := 256 ^ 8) fp.toNat_lt, UInt64.ofNat_toNat]

/-- A value that is no string is read back from the fixed section. -/
theorem Fits.typeDeserialize_eq (h : Fits col v) (hc : ¬ col.isVariableLength = true)
    (hv : view.Holds v.fixedPart) :
    typeDeserialize col.typeId view col.length.toUInt8 = .ok v := by
  cases v with
  | integer x width =>
    have hnum := h.numericDeserialize_eq hv
    obtain ⟨ht, -, hw, -, -⟩ := h
    have hwidth : col.length.toUInt8 = width := by
      apply UInt8.toNat_inj.mp
      rw [UInt32.toNat_toUInt8, ← hw]
      exact Nat.mod_eq_of_lt width.toNat_lt
    rw [typeDeserialize, if_pos ht, hwidth, hnum]
    rfl
  | float fp width =>
    have hfloat := h.floatDeserialize_eq hv
    have hw := h.float_width
    obtain ⟨ht, -, hlen, -⟩ := h
    have hwidth : col.length.toUInt8 = width := by
      apply UInt8.toNat_inj.mp
      rw [UInt32.toNat_toUInt8, ← hlen]
      exact Nat.mod_eq_of_lt width.toNat_lt
    rw [typeDeserialize, if_neg (by rw [ht]; decide), if_pos ht, hwidth, hfloat]
    rcases hw with rfl | rfl <;> rfl
  | boolean b =>
    obtain ⟨ht, hlen⟩ := h
    have hread := hv.read
    rw [fixedPart, Mem.length_leBytes] at hread
    have hbool : booleanDeserialize view 1 = .ok (.boolean b) := by
      simp only [booleanDeserialize, hread, bind, Except.bind, pure, Except.pure]
      rw [if_neg (by decide), View.Holds.readLE hv]
      cases b <;> rfl
    have h1 : col.length.toUInt8.toNat = 1 := by rw [hlen]; rfl
    rw [typeDeserialize, if_neg (by rw [ht]; decide), if_neg (by rw [ht]; decide), if_pos ht, h1, hbool]
    rfl
  | varchar data => exact absurd (h.isVariableLength.mpr ⟨data, rfl⟩) hc

end Value

/-! ## All fields -/

/-- The fixed section of the values. -/
def fixedBytes (values : List Value) : Bytes := values.flatMap Value.fixedPart

/-- The tail of the values. -/
def tailBytes (values : List Value) : Bytes := values.flatMap Value.tailPart

@[simp] theorem fixedBytes_cons (v : Value) (vs : List Value) :
    fixedBytes (v :: vs) = v.fixedPart ++ fixedBytes vs := List.flatMap_cons

theorem fixedBytes_append (vs ws : List Value) :
    fixedBytes (vs ++ ws) = fixedBytes vs ++ fixedBytes ws := List.flatMap_append

@[simp] theorem tailBytes_cons (v : Value) (vs : List Value) :
    tailBytes (v :: vs) = v.tailPart ++ tailBytes vs := List.flatMap_cons

namespace Tuple

variable {cols : List Column} {vs : List Value}

/-- Each cursor writes its section, as long as the fixed one stays below the other. -/
theorem serializeFields_eq (h : List.Forall₂ Value.Fits cols vs)
    (hlen : (tailBytes vs).length < 2 ^ 16) (m : Mem) {fixedCursor varCursor : Nat}
    (hle : fixedCursor + (fixedBytes vs).length ≤ varCursor) :
    serializeFields cols vs m fixedCursor varCursor
      = .ok ((m.put fixedCursor (fixedBytes vs)).put varCursor (tailBytes vs),
          fixedCursor + (fixedBytes vs).length, varCursor + (tailBytes vs).length) := by
  induction h generalizing m fixedCursor varCursor with
  | nil => simp [serializeFields, fixedBytes, tailBytes]
  | @cons col v cols vs hfit _ ih =>
    rw [fixedBytes_cons, List.length_append] at hle
    rw [tailBytes_cons, List.length_append] at hlen
    rw [fixedBytes_cons, tailBytes_cons, List.length_append, List.length_append, ← Nat.add_assoc,
      ← Nat.add_assoc]
    unfold serializeFields
    by_cases hc : col.isVariableLength = true
    · obtain ⟨data, rfl⟩ := hfit.isVariableLength.mp hc
      simp only [Value.fixedPart, Value.tailPart, Mem.length_leBytes] at hle hlen ⊢
      have hmod : data.length % 2 ^ 16 = data.length := Nat.mod_eq_of_lt (by omega)
      have hput : ∀ m : Mem, m.copy varCursor (Mem.ofBytes data) data.length
          = m.put varCursor data := fun _ => rfl
      rw [if_pos hc, hmod, Mem.writeLE_eq_put, hput, ih (by omega) _ (by omega)]
      -- the string was written before the rest of the fixed section, which ends below it
      have hlow : (m.put fixedCursor (Mem.leBytes 2 data.length)).put (fixedCursor + 2) (fixedBytes vs)
          = m.put fixedCursor (Mem.leBytes 2 data.length ++ fixedBytes vs) :=
        Mem.put_put_at _ (by simp) _
      rw [Mem.put_comm (b := data) (c := fixedBytes vs) _ (.inr (by omega)), hlow, Mem.put_put]
    · obtain ⟨hs, hsize, htail⟩ := hfit.serialize_eq hc m fixedCursor
      rw [if_neg hc, hs]
      simp only [bind, Except.bind, hsize]
      rw [ih (by omega) _ (by omega), Mem.put_put, htail]
      rfl

/-- Each cursor reads its section, whatever follows it. -/
theorem deserializeFields_holds (h : List.Forall₂ Value.Fits cols vs)
    (hlen : (tailBytes vs).length < 2 ^ 16) {fixedCursor varCursor : View}
    (hfix : fixedCursor.Holds (fixedBytes vs)) (htail : varCursor.Holds (tailBytes vs)) :
    deserializeFields cols fixedCursor varCursor = .ok vs := by
  induction h generalizing fixedCursor varCursor with
  | nil => rfl
  | @cons col v cols vs hfit _ ih =>
    rw [fixedBytes_cons] at hfix
    rw [tailBytes_cons] at htail hlen
    rw [List.length_append] at hlen
    obtain ⟨hf, hfs⟩ := View.holds_append.mp hfix
    obtain ⟨ht, hts⟩ := View.holds_append.mp htail
    by_cases hc : col.isVariableLength = true
    · obtain ⟨data, rfl⟩ := hfit.isVariableLength.mp hc
      simp only [Value.fixedPart, Value.tailPart, Mem.length_leBytes] at hf hfs ht hts hlen
      have hread := hf.read
      rw [Mem.length_leBytes] at hread
      have hmod : data.length % 256 ^ 2 = data.length := Nat.mod_eq_of_lt (by omega)
      rw [deserializeFields, if_pos hc, hread]
      simp only [bind, Except.bind, hf.readLE, hmod, ht.read, ht.slice, ih (by omega) hfs hts]
      rfl
    · obtain ⟨-, hsize, hnil⟩ := hfit.serialize_eq hc Mem.zero 0
      rw [hnil, List.length_nil, View.advance_zero] at hts
      rw [deserializeFields, if_neg hc, hfit.typeDeserialize_eq hc hf]
      simp only [bind, Except.bind, hsize, ih (by omega) hfs hts]
      rfl

/-- The fixed section is as long as the columns together. -/
theorem length_fixedBytes (h : List.Forall₂ Value.Fits cols vs)
    (hlen : (fixedBytes vs).length < 2 ^ 32) :
    (fixedLength cols).toNat = (fixedBytes vs).length := by
  induction h with
  | nil => rfl
  | @cons col v cols vs hfit _ ih =>
    rw [fixedBytes_cons, List.length_append] at hlen ⊢
    have hcols : fixedLength (col :: cols) = col.length + fixedLength cols := List.sum_cons
    rw [hcols, UInt32.toNat_add, ih (by omega), ← hfit.length_fixedPart]
    exact Nat.mod_eq_of_lt hlen

/-- A column begins where the cursor of `Serialize` has come to. -/
theorem offset_eq {col : Column} {i : Nat} (hoff : RunningOffsets cols)
    (h : List.Forall₂ Value.Fits cols vs) (hlen : (fixedBytes vs).length < 2 ^ 32)
    (hi : cols[i]? = some col) : col.offset.toNat = (fixedBytes (vs.take i)).length := by
  obtain ⟨hlt, rfl⟩ := List.getElem?_eq_some_iff.mp hi
  have hsplit : fixedBytes vs = fixedBytes (vs.take i) ++ fixedBytes (vs.drop i) := by
    rw [← fixedBytes_append, List.take_append_drop]
  rw [hsplit, List.length_append] at hlen
  rw [hoff i hlt]
  exact length_fixedBytes (List.forall₂_take i h) (by omega)

/-- No column is empty. -/
theorem length_le_fixedBytes (h : List.Forall₂ Value.Fits cols vs) :
    cols.length ≤ (fixedBytes vs).length := by
  induction h with
  | nil => exact Nat.zero_le _
  | @cons col v cols vs hfit _ ih =>
    have hpos : 0 < v.fixedPart.length := by
      cases v with
      | integer x width =>
        have := hfit.width_mem
        rw [Value.fixedPart, Mem.length_leBytes]
        omega
      | float fp width =>
        rw [hfit.length_fixedPart, ← hfit.2.2.1]
        rcases hfit.float_width with rfl | rfl <;> decide
      | boolean b => exact Nat.one_pos
      | varchar data => exact Nat.two_pos
    rw [fixedBytes_cons, List.length_append, List.length_cons]
    omega

/-- A tuple as bytes. -/
def encoded (t : Tuple) : Bytes := fixedBytes t.data ++ tailBytes t.data

variable {t : Tuple}

/-- The tail begins where the fixed section ends. -/
theorem getFixedSize_eq (h : List.Forall₂ Value.Fits t.schema.columns t.data)
    (hlen : t.encoded.length ≤ 65535) :
    t.schema.getFixedSize.toNat = (fixedBytes t.data).length := by
  rw [encoded, List.length_append] at hlen
  rw [Schema.getFixedSize, t.schema.size_eq]
  exact length_fixedBytes h (by omega)

/-- Every column is written and read. -/
theorem take_getColumnCount (h : List.Forall₂ Value.Fits t.schema.columns t.data)
    (hlen : t.encoded.length ≤ 65535) :
    t.schema.columns.take t.schema.getColumnCount = t.schema.columns := by
  have := length_le_fixedBytes h
  rw [encoded, List.length_append] at hlen
  rw [Schema.getColumnCount, Nat.mod_eq_of_lt (by omega), List.take_length]

/-- The two cursors end where the tail began and where it ends. -/
theorem serializeFields_encoded (h : List.Forall₂ Value.Fits t.schema.columns t.data)
    (hlen : t.encoded.length ≤ 65535) (m : Mem) (buf : Nat) :
    serializeFields t.schema.columns t.data m buf (buf + t.schema.getFixedSize.toNat)
      = .ok (m.put buf t.encoded, buf + t.schema.getFixedSize.toNat, buf + t.encoded.length) := by
  have hsum : t.encoded.length = (fixedBytes t.data).length + (tailBytes t.data).length :=
    List.length_append
  rw [getFixedSize_eq h hlen, serializeFields_eq h (by omega) m (Nat.le_refl _), Mem.put_put, hsum,
    Nat.add_assoc]
  rfl

/-- `Serialize` writes the encoding, whatever was there. -/
theorem serialize_eq (h : List.Forall₂ Value.Fits t.schema.columns t.data)
    (hlen : t.encoded.length ≤ 65535) (m : Mem) (buf : Nat) :
    t.serialize m buf = .ok (m.put buf t.encoded, t.encoded.length) := by
  simp only [serialize, take_getColumnCount h hlen, serializeFields_encoded h hlen, bind, Except.bind,
    pure, Except.pure]
  rw [Nat.add_sub_cancel_left, Nat.mod_eq_of_lt (by omega)]

end Tuple

/-- `Serialize` writes as many bytes as it returns, which are the fixed size and the strings, with
the fixed cursor ending where the tail began; and from these bytes, whatever follows them,
`Deserialize` makes the same tuple. -/
theorem tuple_round_trip (t : Tuple) (hfits : List.Forall₂ Value.Fits t.schema.columns t.data)
    (htotal : t.encoded.length ≤ 65535) :
    t.encoded.length
        = t.schema.getFixedSize.toNat + (t.data.map fun v => v.tailPart.length).sum ∧
    (∀ m buf,
      Tuple.serializeFields t.schema.columns t.data m buf (buf + t.schema.getFixedSize.toNat)
        = .ok (m.put buf t.encoded, buf + t.schema.getFixedSize.toNat, buf + t.encoded.length) ∧
      t.serialize m buf = .ok (m.put buf t.encoded, t.encoded.length)) ∧
    ∀ rest, Tuple.deserialize t.schema (View.ofBytes (t.encoded ++ rest)) = .ok t := by
  have hsize := Tuple.getFixedSize_eq hfits htotal
  have htake := Tuple.take_getColumnCount hfits htotal
  have hlen : t.encoded.length = (fixedBytes t.data).length + (tailBytes t.data).length :=
    List.length_append
  refine ⟨?_, fun m buf => ⟨?_, ?_⟩, fun rest => ?_⟩
  · rw [hlen, hsize, tailBytes, List.length_flatMap]
  · exact Tuple.serializeFields_encoded hfits htotal m buf
  · exact Tuple.serialize_eq hfits htotal m buf
  · obtain ⟨hf, ht⟩ := View.holds_append.mp (View.holds_ofBytes t.encoded rest)
    rw [← hsize] at ht
    simp only [Tuple.deserialize, htake, bind, Except.bind, pure, Except.pure,
      Tuple.deserializeFields_holds hfits (by omega) hf ht]

/-- An `id`, a `name` and a flag. -/
def idNameFlag : Tuple where
  data := [.integer (-2) 4, .varchar [97, 98], .boolean true]
  schema := .ofColumns [⟨[105, 100], NUMERIC, 4, 0⟩, .varchar [110] VARCHAR 4, ⟨[102], BOOLEAN, 1, 6⟩]

theorem tuple_round_trip_idNameFlag :
    Tuple.deserialize idNameFlag.schema (View.ofBytes ([254, 255, 255, 255, 2, 0, 1, 97, 98] ++ [7]))
      = .ok idNameFlag := by
  have hfits : List.Forall₂ Value.Fits idNameFlag.schema.columns idNameFlag.data := by
    exact .cons (by decide) (.cons (by decide) (.cons (by decide) .nil))
  exact (tuple_round_trip idNameFlag hfits (by decide)).2.2 [7]

end DbInternals.Types
