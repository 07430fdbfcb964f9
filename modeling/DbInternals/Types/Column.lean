import DbInternals.Index.Views

/-!
# Columns

A column is its name, type, stored length and offset, written one after the other with
the name's length in front. `Column.encoded` is that byte string.

Results: `serialize_eq`: `Serialize` writes the encoding and nothing else;
`deserialize_holds`: `Deserialize` reads it back and consumes it exactly.
-/
namespace DbInternals.Types

open DbInternals.Index (View)

/-! ## `ReadPod` and `WritePod` -/

/-- mirrors src/type/column.cpp:9-14 -/
def readPod (buf : View) (size : Nat) : Except Fault Nat := return (← buf.read size).readLE 0 size

/-- mirrors src/type/column.cpp:16-19 -/
def writePod (m : Mem) (buf size value : Nat) : Mem := m.writeLE buf size value

theorem readPod_holds {v : View} {size value : Nat} (h : v.Holds (Mem.leBytes size value)) :
    readPod v size = .ok (value % 256 ^ size) := by
  have hr := h.read
  rw [Mem.length_leBytes] at hr
  rw [readPod, hr, ← h.readLE]
  rfl

/-- `TypeId::VARCHAR` -/
def VARCHAR : UInt8 := 4

/-- mirrors src/type/column.h:46-49; any byte may stand for a type -/
structure Column where
  name : Bytes
  typeId : UInt8
  length : UInt32
  offset : UInt32
  deriving DecidableEq

namespace Column

/-- The constructor of `VARCHAR` columns, which stores the width of the length prefix.
mirrors src/type/column.cpp:26-27 -/
def varchar (name : Bytes) (typeId : UInt8) (offset : UInt32) : Column := ⟨name, typeId, 2, offset⟩

/-- mirrors src/type/column.cpp:37 -/
def isVariableLength (c : Column) : Bool := c.typeId == VARCHAR

/-- The bytes written at `buf`, and how many as a `uint16_t`.
mirrors src/type/column.cpp:46-61 -/
def serialize (c : Column) (m : Mem) (buf : Nat) : Mem × Nat :=
  let nameLen := c.name.length % 2 ^ 16
  let m := writePod m buf 2 nameLen
  let cursor := buf + 2
  let m := m.copy cursor (Mem.ofBytes c.name) nameLen
  let cursor := cursor + nameLen
  let m := writePod m cursor 1 c.typeId.toNat
  let cursor := cursor + 1
  let m := writePod m cursor 4 c.length.toNat
  let cursor := cursor + 4
  let m := writePod m cursor 4 c.offset.toNat
  let cursor := cursor + 4
  (m, (cursor - buf) % 2 ^ 16)

/-- The column and the bytes consumed; mirrors src/type/column.cpp:63-78 -/
def deserialize (buf : View) : Except Fault (Column × Nat) := do
  let nameLen ← readPod buf 2
  let cursor := buf.advance 2
  let name := (← cursor.read nameLen).slice 0 nameLen
  let cursor := cursor.advance nameLen
  let typeId ← readPod cursor 1
  let cursor := cursor.advance 1
  let length ← readPod cursor 4
  let cursor := cursor.advance 4
  let offset ← readPod cursor 4
  return (⟨name, UInt8.ofNat typeId, UInt32.ofNat length, UInt32.ofNat offset⟩,
    2 + nameLen + 1 + 4 + 4)

/-! ## The encoding -/

/-- A column as bytes. -/
def encoded (c : Column) : Bytes :=
  Mem.leBytes 2 c.name.length ++ (c.name ++ (Mem.leBytes 1 c.typeId.toNat ++
    (Mem.leBytes 4 c.length.toNat ++ Mem.leBytes 4 c.offset.toNat)))

@[simp] theorem length_encoded (c : Column) : c.encoded.length = c.name.length + 11 := by
  simp only [encoded, List.length_append, Mem.length_leBytes]
  omega

variable {c : Column} {v : View}

/-- `Serialize` writes the encoding, whatever was there. -/
theorem serialize_eq (hn : c.name.length ≤ 65524) (m : Mem) (buf : Nat) :
    c.serialize m buf = (m.put buf c.encoded, c.encoded.length) := by
  have hmod : c.name.length % 2 ^ 16 = c.name.length := Nat.mod_eq_of_lt (by omega)
  have hname : ∀ m : Mem, m.copy (buf + 2) (Mem.ofBytes c.name) c.name.length
      = m.put (buf + 2) c.name := fun _ => rfl
  simp only [serialize, hmod, writePod, hname, Mem.writeLE_eq_put, length_encoded]
  refine Prod.ext ?_ ?_
  · simp only
    rw [Mem.put_put_at _ (by simp), Mem.put_put_at _ (by simp),
      Mem.put_put_at _ (by simp), Mem.put_put_at _ (by simp)]
    simp [encoded]
  · simp only
    omega

/-- `Deserialize` reads the column back, whatever follows. -/
theorem deserialize_holds (hn : c.name.length < 2 ^ 16) (h : v.Holds c.encoded) :
    deserialize v = .ok (c, c.encoded.length) := by
  obtain ⟨h₁, h⟩ := View.holds_append.mp h
  obtain ⟨h₂, h⟩ := View.holds_append.mp h
  obtain ⟨h₃, h⟩ := View.holds_append.mp h
  obtain ⟨h₄, h₅⟩ := View.holds_append.mp h
  simp only [Mem.length_leBytes] at h₂ h₃ h₄ h₅
  have hname : c.name.length % 256 ^ 2 = c.name.length := Nat.mod_eq_of_lt hn
  have htype : c.typeId.toNat % 256 ^ 1 = c.typeId.toNat := Nat.mod_eq_of_lt c.typeId.toNat_lt
  have hlength : c.length.toNat % 256 ^ 4 = c.length.toNat := Nat.mod_eq_of_lt c.length.toNat_lt
  have hoffset : c.offset.toNat % 256 ^ 4 = c.offset.toNat := Nat.mod_eq_of_lt c.offset.toNat_lt
  simp only [deserialize, readPod_holds h₁, bind, Except.bind, pure, Except.pure, hname, h₂.read,
    h₂.slice, readPod_holds h₃, htype, readPod_holds h₄, hlength, readPod_holds h₅, hoffset,
    length_encoded]
  simp
  omega

end Column

end DbInternals.Types
