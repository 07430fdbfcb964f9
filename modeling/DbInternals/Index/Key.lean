import DbInternals.Core.Ieee
import DbInternals.Core.Memory
import DbInternals.Common.Types

/-!
# Keys

`src/index/key.h` with the parts of `src/type` its comparison runs: a key is
a view of bytes it does not own, decoded anew at each comparison. A pointer
is the memory from it on, with the number of bytes left in the object it
points into; a read past those is a fault.
-/
namespace DbInternals.Index

open Ieee (binary64 widen)

/-- mirrors src/type/value.h:16-22 -/
inductive TypeId where
  | invalid | boolean | numeric | float | varchar
  deriving DecidableEq, Repr

/-- A pointer to const bytes. -/
structure View where
  mem : Mem
  /-- bytes that may be read -/
  avail : Nat

namespace View

/-- The pointer to the first of the given bytes. -/
def ofBytes (b : Bytes) : View := ⟨Mem.ofBytes b, b.length⟩

def advance (v : View) (o : Nat) : View := ⟨v.mem.shift o, v.avail - o⟩

/-- `memcpy` of `n` bytes from the pointer. -/
def read (v : View) (n : Nat) : Except Fault Mem :=
  if n ≤ v.avail then .ok v.mem else .error .outOfBounds

end View

/-- The alternatives of `Value` the key types decode to, a `double` as its bits.
mirrors src/type/value.h:31-44 -/
inductive Value where
  | integer (x : Int)
  | float (fp : UInt64)
  | boolean (b : Bool)
  | varchar (data : Bytes)
  deriving DecidableEq, Repr

/-- mirrors src/type/numeric_type.h:40-47 and `make_int`, src/type/value.h:48-52:
`width` little-endian bytes, sign-extended -/
def numericDeserialize (buf : View) (width : Nat) : Except Fault Value := do
  let x ← buf.read width
  if width = 1 ∨ width = 2 ∨ width = 4 ∨ width = 8 then
    return .integer (Int.bmod (x.readLE 0 width) (2 ^ (8 * width)))
  else throw (.assertFailed "width == 1 || width == 2 || width == 4 || width == 8")

/-- Four bytes, widened, or eight for any other width. mirrors src/type/float_type.h:38-50 -/
def floatDeserialize (buf : View) (width : Nat) : Except Fault Value :=
  if width = 4 then do
    let f ← buf.read 4
    return .float (widen (.ofNat (f.readLE 0 4)))
  else do
    let d ← buf.read 8
    return .float (.ofNat (d.readLE 0 8))

/-- mirrors src/type/boolean_type.h:20-24 -/
def booleanDeserialize (buf : View) (width : Nat) : Except Fault Value := do
  if width > 1 then throw .outOfBounds
  let x ← buf.read width
  return .boolean (x.readLE 0 width != 0)

/-- mirrors src/type/varchar_type.h:47-54 -/
def varcharDeserialize (buf : View) : Except Fault Value := do
  let x ← buf.read 2
  let len := x.readLE 0 2
  let y ← (buf.advance 2).read len
  return .varchar (y.slice 0 len)

/-- Lexicographic on unsigned bytes, a proper prefix first.
mirrors src/type/varchar_type.h:11-24 -/
def varcharCompare : Bytes → Bytes → Int
  | [], [] => 0
  | [], _ :: _ => -1
  | _ :: _, [] => 1
  | a :: as, b :: bs => if a > b then 1 else if a < b then -1 else varcharCompare as bs

/-- Both sides are decoded by the same type, so the assertions on `type_id`
compare the alternatives.
mirrors src/type/numeric_type.h:6-11, float_type.h:5-10, boolean_type.h:4-7, varchar_type.h:11-24 -/
def Value.compare : Value → Value → Except Fault Int
  | .integer a, .integer b => .ok (if a < b then -1 else if a > b then 1 else 0)
  | .float a, .float b => .ok (if binary64.lt a.toNat b.toNat then -1
      else if binary64.lt b.toNat a.toNat then 1 else 0)
  | .boolean a, .boolean b => .ok (a.toNat - b.toNat)
  | .varchar a, .varchar b => .ok (varcharCompare a b)
  | _, _ => .error (.assertFailed "a.type_id == b.type_id")

/-- mirrors src/index/key.h:9-38 -/
structure Key where
  typeId : TypeId
  width : Nat
  data : View
  size : Nat

namespace Key

/-- mirrors src/index/key.h:14-16 -/
def fromBytes (typeId : TypeId) (width : Nat) (data : View) (size : Nat) : Key :=
  ⟨typeId, width, data, size⟩

/-- Reads `width` bytes whatever `size` says. mirrors src/index/key.h:19-22, src/type/type.cpp:12-31 -/
def toValue (k : Key) : Except Fault Value :=
  match k.typeId with
  | .numeric => numericDeserialize k.data k.width
  | .float => floatDeserialize k.data k.width
  | .boolean => booleanDeserialize k.data k.width
  | .varchar => varcharDeserialize k.data
  | .invalid => .error (.assertFailed "false && \"unknown TypeId\"")

/-- mirrors src/index/key.h:24-27 -/
def compare (k other : Key) : Except Fault Int := do
  let a ← k.toValue
  let b ← other.toValue
  a.compare b

end Key

end DbInternals.Index
