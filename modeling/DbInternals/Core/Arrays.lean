import DbInternals.Core.Memory

/-!
# Arrays of fixed-size entries

A byte string as an array of entries of `size` bytes each, with a decoder `f`
that looks at one entry only.

Results: `decodeArray_flatMap`: an array reads back entry by entry.
-/
namespace DbInternals

open Mem

section
variable {α β : Type*}

/-- The entries of the array, decoded. -/
def decodeArray (size : Nat) (f : Mem → α) (img : Bytes) : List α :=
  (List.range (img.length / size)).map fun i => f ((ofBytes img).shift (size * i))

/-- The decoder looks at the first `size` bytes only. -/
def Local (size : Nat) (f : Mem → α) : Prop :=
  ∀ m m' : Mem, (∀ i, i < size → m i = m' i) → f m = f m'

variable {size : Nat} {f : Mem → α} {enc : β → Bytes}

theorem length_flatMap_const (hlen : ∀ b, (enc b).length = size) (bs : List β) :
    (bs.flatMap enc).length = size * bs.length := by
  induction bs with
  | nil => rfl
  | cons b bs ih =>
    rw [List.flatMap_cons, List.length_append, hlen, ih, List.length_cons, Nat.mul_succ, Nat.add_comm]

/-- What is encoded entry by entry decodes entry by entry. -/
theorem decodeArray_flatMap (hs : 0 < size) (hf : Local size f) (hlen : ∀ b, (enc b).length = size)
    (bs : List β) : decodeArray size f (bs.flatMap enc) = bs.map fun b => f (ofBytes (enc b)) := by
  have hcount : (bs.flatMap enc).length / size = bs.length := by
    rw [length_flatMap_const hlen, Nat.mul_div_cancel_left _ hs]
  rw [decodeArray, hcount]
  clear hcount
  induction bs with
  | nil => rfl
  | cons b bs ih =>
    have hb := hlen b
    rw [List.length_cons, List.range_succ_eq_map, List.map_cons, List.map_map, List.map_cons,
      List.flatMap_cons, ← ih]
    congr 1
    · -- the first entry
      refine hf _ _ fun i hi => ?_
      rw [Nat.mul_zero, shift_apply, Nat.zero_add]
      exact ofBytes_append_left (by omega)
    · -- the others, one entry further
      refine List.map_congr_left fun j _ => congrArg f ?_
      funext i
      have e : size * (j + 1) = (enc b).length + size * j := by rw [hb, Nat.mul_succ]; omega
      simp only [shift_apply, ofBytes, Nat.succ_eq_add_one, e, List.getD_eq_getElem?_getD]
      rw [Nat.add_assoc, List.getElem?_append_right (Nat.le_add_right _ _), Nat.add_sub_cancel_left]

/-- A loop that appends one encoded entry per element. -/
theorem foldl_append (enc : β → Bytes) (img : Bytes) (bs : List β) :
    bs.foldl (fun img b => img ++ enc b) img = img ++ bs.flatMap enc := by
  induction bs generalizing img with
  | nil => simp
  | cons b bs ih => rw [List.foldl_cons, ih, List.flatMap_cons, List.append_assoc]

end

end DbInternals
