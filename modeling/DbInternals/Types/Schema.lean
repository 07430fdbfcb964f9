import DbInternals.Types.Column
import Mathlib.Algebra.Order.BigOperators.Group.List
import Mathlib.Data.UInt

/-!
# Schemas

A schema is a list of columns with two things derived from it: which columns have a
fixed length, and the size of the fixed section. Its encoding is the number of columns
and then the columns, each as long as its name makes it.

Results:
* `serializeSchema_eq`, `deserialize_holds`: the encoding is written exactly, and read
  back whatever follows it;
* `schema_round_trip`: so schemas and columns written back to back are read back one
  after another.
-/
namespace DbInternals.Types

open DbInternals.Index (View)

/-- The columns without a variable part, as `uint32_t` indices. -/
def fixedIndices (columns : List Column) : List Nat :=
  (columns.zipIdx.filter fun x => !x.1.isVariableLength).map fun x => x.2 % 2 ^ 32

/-- The size of the fixed section, as a `uint32_t`. -/
def fixedLength (columns : List Column) : UInt32 := (columns.map Column.length).sum

/-- Each column begins where the columns before it end. -/
def RunningOffsets (columns : List Column) : Prop :=
  ∀ (i : Nat) (h : i < columns.length), columns[i].offset = fixedLength (columns.take i)

instance (columns : List Column) : Decidable (RunningOffsets columns) :=
  inferInstanceAs (Decidable (∀ (i : Nat) (_ : i < columns.length), _))

/-- mirrors src/type/schema.h:62-65; the derived members are what the columns say -/
structure Schema where
  columns : List Column
  fixedSizeColumns : List Nat
  fixedSize : UInt32
  fixed_eq : fixedSizeColumns = fixedIndices columns
  size_eq : fixedSize = fixedLength columns

namespace Schema

@[ext] theorem ext {s s' : Schema} (h : s.columns = s'.columns) : s = s' := by
  obtain ⟨cs, fs, n, rfl, rfl⟩ := s
  obtain ⟨cs', fs', n', rfl, rfl⟩ := s'
  cases h
  rfl

/-! ## Constructors -/

def empty : Schema := ⟨[], [], 0, rfl, rfl⟩

/-- One more column. -/
def push (s : Schema) (column : Column) : Schema where
  columns := s.columns ++ [column]
  fixedSizeColumns := if column.isVariableLength then s.fixedSizeColumns
    else s.fixedSizeColumns ++ [s.columns.length % 2 ^ 32]
  fixedSize := s.fixedSize + column.length
  fixed_eq := by
    rw [s.fixed_eq, fixedIndices, fixedIndices, List.zipIdx_append, List.filter_append,
      List.map_append]
    cases hv : column.isVariableLength <;> simp [hv]
  size_eq := by
    rw [s.size_eq, fixedLength, fixedLength, List.map_append, List.sum_append]
    simp

/-- mirrors src/type/schema.cpp:22-29 -/
def ofColumns (columns : List Column) : Schema := columns.foldl push empty

/-- The projection; an index past the columns reads outside the vector.
mirrors src/type/schema.cpp:31-41 -/
def project (other : Schema) (colIndices : List Nat) : Except Fault Schema :=
  colIndices.foldlM (fun s index => match other.columns[index]? with
    | some column => .ok (s.push column)
    | none => .error .outOfBounds) empty

/-- mirrors src/type/schema.cpp:62-64 -/
def getColumnCount (s : Schema) : Nat := s.columns.length % 2 ^ 32

/-- mirrors src/type/schema.cpp:66-68 -/
def getFixedSize (s : Schema) : UInt32 := s.fixedSize

/-- mirrors src/type/schema.cpp:70-72 -/
def hasVariableLengthColumns (s : Schema) : Bool := s.fixedSizeColumns.length != s.columns.length

/-! ## Serialization -/

/-- The columns from `cursor` on. -/
def serializeColumns : List Column → Mem → Nat → Mem × Nat
  | [], m, cursor => (m, cursor)
  | column :: columns, m, cursor =>
    let (m, written) := column.serialize m cursor
    serializeColumns columns m (cursor + written)

/-- mirrors src/type/schema.cpp:91-100 -/
def serializeSchema (s : Schema) (m : Mem) (buf : Nat) : Mem × Nat :=
  let m := writePod m buf 4 (s.columns.length % 2 ^ 32)
  let (m, cursor) := serializeColumns s.columns m (buf + 4)
  (m, (cursor - buf) % 2 ^ 32)

/-- `column_count` columns from the cursor on, and how many bytes they take. -/
def deserializeColumns : Nat → View → Except Fault (List Column × Nat)
  | 0, _ => return ([], 0)
  | columnCount + 1, cursor => do
    let (column, columnConsumed) ← Column.deserialize cursor
    let (columns, consumed) ← deserializeColumns columnCount (cursor.advance columnConsumed)
    return (column :: columns, columnConsumed + consumed)

/-- The schema and the bytes consumed; mirrors src/type/schema.cpp:102-117 -/
def deserialize (buf : View) : Except Fault (Schema × Nat) := do
  let columnCount ← readPod buf 4
  let (columns, consumed) ← deserializeColumns columnCount (buf.advance 4)
  return (ofColumns columns, 4 + consumed)

/-! ## What the constructors build -/

variable {s : Schema} {v : View}

theorem foldl_push (columns : List Column) (s : Schema) :
    (columns.foldl push s).columns = s.columns ++ columns := by
  induction columns generalizing s with
  | nil => rw [List.foldl_nil, List.append_nil]
  | cons c columns ih =>
    rw [List.foldl_cons, ih, push, List.append_assoc]
    rfl

@[simp] theorem ofColumns_columns (columns : List Column) : (ofColumns columns).columns = columns :=
  foldl_push columns empty

/-- A schema is the one built from its columns. -/
theorem ofColumns_eq (s : Schema) : ofColumns s.columns = s := ext (ofColumns_columns s.columns)

/-! ## The encoding -/

/-- A schema as bytes. -/
def encoded (s : Schema) : Bytes :=
  Mem.leBytes 4 s.columns.length ++ s.columns.flatMap Column.encoded

theorem serializeColumns_eq {columns : List Column} (hn : ∀ c ∈ columns, c.name.length ≤ 65524)
    (m : Mem) (cursor : Nat) : serializeColumns columns m cursor
      = (m.put cursor (columns.flatMap Column.encoded),
        cursor + (columns.flatMap Column.encoded).length) := by
  induction columns generalizing m cursor with
  | nil => simp [serializeColumns]
  | cons c columns ih =>
    rw [serializeColumns, Column.serialize_eq (hn c List.mem_cons_self)]
    simp only
    rw [ih (fun c' hc' => hn c' (List.mem_cons_of_mem _ hc')), Mem.put_put, List.flatMap_cons,
      List.length_append, Nat.add_assoc]

/-- A column takes at least a byte. -/
theorem length_le_encoded (columns : List Column) :
    columns.length ≤ (columns.flatMap Column.encoded).length := by
  induction columns with
  | nil => exact Nat.zero_le _
  | cons c columns ih =>
    rw [List.flatMap_cons, List.length_append, List.length_cons, Column.length_encoded]
    omega

theorem length_encoded (s : Schema) :
    s.encoded.length = 4 + (s.columns.flatMap Column.encoded).length := by
  rw [encoded, List.length_append, Mem.length_leBytes]

/-- `SerializeSchema` writes the encoding, whatever was there. -/
theorem serializeSchema_eq (hn : ∀ c ∈ s.columns, c.name.length ≤ 65524)
    (ht : s.encoded.length < 2 ^ 32) (m : Mem) (buf : Nat) :
    s.serializeSchema m buf = (m.put buf s.encoded, s.encoded.length) := by
  have hl := length_encoded s
  have hc := length_le_encoded s.columns
  have hmod : s.columns.length % 2 ^ 32 = s.columns.length := Nat.mod_eq_of_lt (by omega)
  rw [serializeSchema, serializeColumns_eq hn]
  simp only [writePod, hmod, Mem.writeLE_eq_put]
  refine Prod.ext ?_ ?_
  · simp only
    rw [Mem.put_put_at _ (by simp)]
    rfl
  · simp only
    rw [show buf + 4 + (s.columns.flatMap Column.encoded).length - buf = s.encoded.length by omega,
      Nat.mod_eq_of_lt ht]

theorem deserializeColumns_holds {columns : List Column} (hn : ∀ c ∈ columns, c.name.length < 2 ^ 16)
    (h : v.Holds (columns.flatMap Column.encoded)) : deserializeColumns columns.length v
      = .ok (columns, (columns.flatMap Column.encoded).length) := by
  induction columns generalizing v with
  | nil => rfl
  | cons c columns ih =>
    rw [List.flatMap_cons] at h
    obtain ⟨h₁, h₂⟩ := View.holds_append.mp h
    have hcols := ih (fun c' hc' => hn c' (List.mem_cons_of_mem _ hc')) h₂
    simp only [List.length_cons, deserializeColumns, bind, Except.bind, pure, Except.pure,
      Column.deserialize_holds (hn c List.mem_cons_self) h₁, hcols, List.flatMap_cons,
      List.length_append]

/-- `Deserialize` reads the schema back, whatever follows. -/
theorem deserialize_holds (hn : ∀ c ∈ s.columns, c.name.length < 2 ^ 16)
    (ht : s.encoded.length < 2 ^ 32) (h : v.Holds s.encoded) :
    deserialize v = .ok (s, s.encoded.length) := by
  obtain ⟨h₁, h₂⟩ := View.holds_append.mp h
  have hl := length_encoded s
  have hc := length_le_encoded s.columns
  have hmod : s.columns.length % 256 ^ 4 = s.columns.length := Nat.mod_eq_of_lt (by omega)
  rw [Mem.length_leBytes] at h₂
  simp only [deserialize, readPod_holds h₁, hmod, bind, Except.bind, pure, Except.pure,
    deserializeColumns_holds hn h₂, ofColumns_eq, hl]

end Schema

/-! ## One after another -/

/-- What is written back to back. -/
inductive Item
  | schema (s : Schema)
  | column (c : Column)

namespace Item

def serialize : Item → Mem → Nat → Mem × Nat
  | .schema s => s.serializeSchema
  | .column c => c.serialize

/-- Read back the kind of item that was written. -/
def deserialize : Item → View → Except Fault (Item × Nat)
  | .schema _, v => return ((← Schema.deserialize v).map Item.schema id)
  | .column _, v => return ((← Column.deserialize v).map Item.column id)

def encoded : Item → Bytes
  | .schema s => s.encoded
  | .column c => c.encoded

/-- Names of at most 65524 bytes, and a schema of fewer than 2^32 bytes. -/
def Encodable : Item → Prop
  | .schema s => (∀ c ∈ s.columns, c.name.length ≤ 65524) ∧ s.encoded.length < 2 ^ 32
  | .column c => c.name.length ≤ 65524

/-- The items from `cursor` on, each where the one before it ended. -/
def serializeAll : List Item → Mem → Nat → Mem × Nat
  | [], m, cursor => (m, cursor)
  | item :: items, m, cursor =>
    let (m, written) := item.serialize m cursor
    serializeAll items m (cursor + written)

/-- The items from `cursor` on, each where the one before it was consumed. -/
def deserializeAll : List Item → View → Except Fault (List Item × Nat)
  | [], _ => return ([], 0)
  | item :: items, cursor => do
    let (item, itemConsumed) ← item.deserialize cursor
    let (items, consumed) ← deserializeAll items (cursor.advance itemConsumed)
    return (item :: items, itemConsumed + consumed)

variable {item : Item} {items : List Item} {v : View}

theorem serialize_eq (he : item.Encodable) (m : Mem) (buf : Nat) :
    item.serialize m buf = (m.put buf item.encoded, item.encoded.length) := by
  cases item with
  | schema s => exact Schema.serializeSchema_eq he.1 he.2 m buf
  | column c => exact Column.serialize_eq he m buf

theorem deserialize_holds (he : item.Encodable) (h : v.Holds item.encoded) :
    item.deserialize v = .ok (item, item.encoded.length) := by
  cases item with
  | schema s =>
    have hs := Schema.deserialize_holds (fun c hc => Nat.lt_of_le_of_lt (he.1 c hc) (by decide)) he.2 h
    simp only [deserialize, hs, bind, Except.bind, pure, Except.pure]
    rfl
  | column c =>
    have hc := Column.deserialize_holds (Nat.lt_of_le_of_lt he (by decide)) h
    simp only [deserialize, hc, bind, Except.bind, pure, Except.pure]
    rfl

theorem serializeAll_eq (he : ∀ x ∈ items, x.Encodable) (m : Mem) (cursor : Nat) :
    serializeAll items m cursor
      = (m.put cursor (items.flatMap encoded), cursor + (items.flatMap encoded).length) := by
  induction items generalizing m cursor with
  | nil => simp [serializeAll]
  | cons x items ih =>
    rw [serializeAll, serialize_eq (he x List.mem_cons_self)]
    simp only
    rw [ih (fun y hy => he y (List.mem_cons_of_mem _ hy)), Mem.put_put, List.flatMap_cons,
      List.length_append, Nat.add_assoc]

theorem deserializeAll_holds (he : ∀ x ∈ items, x.Encodable) (h : v.Holds (items.flatMap encoded)) :
    deserializeAll items v = .ok (items, (items.flatMap encoded).length) := by
  induction items generalizing v with
  | nil => rfl
  | cons x items ih =>
    rw [List.flatMap_cons] at h
    obtain ⟨h₁, h₂⟩ := View.holds_append.mp h
    simp only [deserializeAll, deserialize_holds (he x List.mem_cons_self) h₁, bind, Except.bind,
      pure, Except.pure, ih (fun y hy => he y (List.mem_cons_of_mem _ hy)) h₂, List.flatMap_cons,
      List.length_append]

end Item

/-- `SerializeSchema` writes as many bytes as it returns, and from them `Deserialize` makes the same
schema and consumes as many, whatever follows; so schemas and columns written back to back are
read back one after another. -/
theorem schema_round_trip (s : Schema) (hn : ∀ c ∈ s.columns, c.name.length ≤ 65524)
    (ht : s.encoded.length < 2 ^ 32) :
    (∀ m buf, s.serializeSchema m buf = (m.put buf s.encoded, s.encoded.length)) ∧
    (∀ rest, ∃ s', Schema.deserialize (View.ofBytes (s.encoded ++ rest))
        = .ok (s', s.encoded.length) ∧
      s'.columns = s.columns ∧ s'.getFixedSize = s.getFixedSize ∧
      s'.hasVariableLengthColumns = s.hasVariableLengthColumns) ∧
    (∀ items : List Item, (∀ x ∈ items, x.Encodable) → ∀ m buf rest,
      Item.serializeAll (.schema s :: items) m buf
          = (m.put buf (s.encoded ++ items.flatMap Item.encoded),
            buf + (s.encoded ++ items.flatMap Item.encoded).length) ∧
        Item.deserializeAll (.schema s :: items)
            (View.ofBytes (s.encoded ++ items.flatMap Item.encoded ++ rest))
          = .ok (.schema s :: items, (s.encoded ++ items.flatMap Item.encoded).length)) := by
  refine ⟨Schema.serializeSchema_eq hn ht, fun rest => ?_, fun items hi m buf rest => ?_⟩
  · have hn' : ∀ c ∈ s.columns, c.name.length < 2 ^ 16 :=
      fun c hc => Nat.lt_of_le_of_lt (hn c hc) (by decide)
    exact ⟨s, Schema.deserialize_holds hn' ht (View.holds_ofBytes _ rest), rfl, rfl, rfl⟩
  · have he : ∀ x ∈ Item.schema s :: items, x.Encodable := by
      intro x hx
      cases List.mem_cons.mp hx with
      | inl h => rw [h]; exact ⟨hn, ht⟩
      | inr h => exact hi x h
    exact ⟨Item.serializeAll_eq he m buf, Item.deserializeAll_holds he (View.holds_ofBytes _ rest)⟩

/-- An `id` and a `name`. -/
def idName : Schema := .ofColumns [⟨[105, 100], 2, 4, 0⟩, .varchar [110, 97, 109, 101] VARCHAR 4]

theorem schema_round_trip_idName : ∃ s',
    Schema.deserialize (View.ofBytes (idName.encoded ++ [255])) = .ok (s', 32) ∧
      s'.columns = idName.columns := by
  obtain ⟨s', hs, hc, -⟩ := (schema_round_trip idName (by decide) (by decide)).2.1 [255]
  exact ⟨s', hs, hc⟩

end DbInternals.Types
