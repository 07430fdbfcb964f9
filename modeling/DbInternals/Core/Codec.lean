import DbInternals.Core.Memory

/-!
# Byte strings written to and read from memory

`put` writes a byte string. Writes that follow one another are one write of the
concatenation (`put_put`), disjoint writes commute (`put_comm`), and a stored number is
a write of its bytes (`writeLE_eq_put`). `Starts m b` says that the memory begins with
`b`; it splits along a concatenation (`starts_append`).
-/
namespace DbInternals.Mem

variable {m : Mem} {b c : Bytes} {o o' k v i : Nat}

/-- The bytes `b` written at `o`. -/
def put (m : Mem) (o : Nat) (b : Bytes) : Mem := m.copy o (ofBytes b) b.length

/-- The low `k` bytes of `v`. -/
def leBytes (k v : Nat) : Bytes := (le v).slice 0 k

@[simp] theorem length_leBytes (k v : Nat) : (leBytes k v).length = k := length_slice _ _ _

@[simp] theorem put_nil (m : Mem) (o : Nat) : m.put o [] = m := copy_zero m o _

theorem put_out (h : i < o ∨ o + b.length ≤ i) : m.put o b i = m i := copy_out h

theorem put_in (h : o ≤ i) (h' : i < o + b.length) : m.put o b i = ofBytes b (i - o) := copy_in h h'

theorem ofBytes_append_right (h : b.length ≤ i) : ofBytes (b ++ c) i = ofBytes c (i - b.length) := by
  simp [ofBytes, List.getD_eq_getElem?_getD, List.getElem?_append_right h]

/-- Two writes in a row. -/
theorem put_put (m : Mem) (o : Nat) (b c : Bytes) :
    (m.put o b).put (o + b.length) c = m.put o (b ++ c) := by
  funext i
  have hl : (b ++ c).length = b.length + c.length := List.length_append
  by_cases h₁ : o ≤ i ∧ i < o + b.length
  · rw [put_out (by omega), put_in h₁.1 h₁.2, put_in h₁.1 (by omega),
      ofBytes_append_left (by omega)]
  · by_cases h₂ : o + b.length ≤ i ∧ i < o + b.length + c.length
    · rw [put_in h₂.1 h₂.2, put_in (by omega) (by omega), ofBytes_append_right (by omega),
        Nat.sub_sub]
    · rw [put_out (by omega), put_out (by omega), put_out (by omega)]

theorem put_put_at {b : Bytes} (m : Mem) (h : o' = o + b.length) (c : Bytes) :
    (m.put o b).put o' c = m.put o (b ++ c) := by rw [h, put_put]

/-- Disjoint writes commute. -/
theorem put_comm (m : Mem) (h : o + b.length ≤ o' ∨ o' + c.length ≤ o) :
    (m.put o b).put o' c = (m.put o' c).put o b := by
  funext i
  by_cases h₁ : o ≤ i ∧ i < o + b.length
  · rw [put_out (by omega), put_in h₁.1 h₁.2, put_in h₁.1 h₁.2]
  · by_cases h₂ : o' ≤ i ∧ i < o' + c.length
    · rw [put_in h₂.1 h₂.2, put_out (by omega), put_in h₂.1 h₂.2]
    · rw [put_out (by omega), put_out (by omega), put_out (by omega), put_out (by omega)]

theorem writeLE_eq_put (m : Mem) (o k v : Nat) : m.writeLE o k v = m.put o (leBytes k v) := by
  funext i
  by_cases h : o ≤ i ∧ i < o + k
  · rw [put_in h.1 (by simpa using h.2), leBytes, ofBytes_slice (by omega), writeLE, copy_in h.1 h.2]
  · rw [put_out (by rw [length_leBytes]; omega), writeLE_out (by omega)]

/-! ## Reading -/

/-- The memory begins with the bytes. -/
def Starts (m : Mem) (b : Bytes) : Prop := m.slice 0 b.length = b

theorem starts_ofBytes (b c : Bytes) : (ofBytes (b ++ c)).Starts b := by
  have h : (ofBytes (b ++ c)).slice 0 b.length = (ofBytes b).slice 0 b.length := by
    apply slice_congr
    intro i hi
    rw [Nat.zero_add, ofBytes_append_left hi]
  rw [Starts, h, slice_ofBytes]

/-- What was written is what is read there. -/
theorem starts_put (m : Mem) (o : Nat) (b : Bytes) : ((m.put o b).shift o).Starts b := by
  have h : ((m.put o b).shift o).slice 0 b.length = (ofBytes b).slice 0 b.length := by
    apply slice_congr
    intro i hi
    rw [shift_apply, put_in (by omega) (by omega), Nat.zero_add, Nat.add_sub_cancel_left]
  rw [Starts, h, slice_ofBytes]

theorem slice_add (m : Mem) (o n k : Nat) : m.slice o (n + k) = m.slice o n ++ m.slice (o + n) k := by
  simp [slice, List.range_add, Nat.add_assoc]

/-- A concatenation is read part by part. -/
theorem starts_append : m.Starts (b ++ c) ↔ m.Starts b ∧ (m.shift b.length).Starts c := by
  rw [Starts, Starts, Starts, List.length_append, slice_add, slice_shift, Nat.add_zero, Nat.zero_add]
  constructor
  · exact fun h => List.append_inj h (length_slice _ _ _)
  · rintro ⟨h, h'⟩
    rw [h, h']

/-- A stored number is read back, as far as its bytes reach. -/
theorem Starts.readLE (h : m.Starts (leBytes k v)) : m.readLE 0 k = v % 256 ^ k := by
  rw [Starts, length_leBytes] at h
  have hread : m.readLE 0 k = (le v).readLE 0 k := readLE_eq_of_slice h (Nat.le_refl k)
  rw [hread, readLE_le, Nat.pow_zero, Nat.div_one]

end DbInternals.Mem
