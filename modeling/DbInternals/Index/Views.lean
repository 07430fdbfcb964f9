import DbInternals.Core.Codec
import DbInternals.Index.Key

/-!
# Views that hold given bytes

`v.Holds b`: the object `v` points into has at least `b.length` bytes left, and they
are `b`. What a decoder reads of an encoding it reads through these lemmas, whatever
follows the encoding.
-/
namespace DbInternals.Index.View

variable {v : View} {b c : Bytes} {k x : Nat}

/-- The bytes at the pointer. -/
structure Holds (v : View) (b : Bytes) : Prop where
  avail : b.length ≤ v.avail
  mem : v.mem.Starts b

theorem holds_ofBytes (b c : Bytes) : (ofBytes (b ++ c)).Holds b where
  avail := by simp [ofBytes]
  mem := Mem.starts_ofBytes b c

/-- An encoding of two parts is held part by part. -/
theorem holds_append : v.Holds (b ++ c) ↔ v.Holds b ∧ (v.advance b.length).Holds c := by
  constructor
  · rintro ⟨ha, hm⟩
    rw [List.length_append] at ha
    obtain ⟨hb, hc⟩ := Mem.starts_append.mp hm
    exact ⟨⟨by omega, hb⟩, ⟨by simp only [advance]; omega, hc⟩⟩
  · rintro ⟨⟨ha, hb⟩, ⟨ha', hc⟩⟩
    simp only [advance] at ha'
    exact ⟨by rw [List.length_append]; omega, Mem.starts_append.mpr ⟨hb, hc⟩⟩

theorem Holds.read (h : v.Holds b) : v.read b.length = .ok v.mem := if_pos h.avail

theorem Holds.slice (h : v.Holds b) : v.mem.slice 0 b.length = b := h.mem

theorem Holds.readLE (h : v.Holds (Mem.leBytes k x)) : v.mem.readLE 0 k = x % 256 ^ k := h.mem.readLE

@[simp] theorem advance_zero (v : View) : v.advance 0 = v := by
  simp only [advance, Nat.sub_zero]
  congr 1
  funext i
  rw [Mem.shift_apply, Nat.zero_add]

end DbInternals.Index.View
