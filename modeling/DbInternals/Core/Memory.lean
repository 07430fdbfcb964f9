import Mathlib.Algebra.Group.Nat.Defs
import Mathlib.Order.Basic
import Mathlib.Data.List.Basic
import Mathlib.Tactic.Common

/-!
# Byte memory

A buffer is the memory seen from a pointer: `m i` is the byte `i` past it.
`copy` is `memcpy` / `memmove` (the source is read before anything is
written, so an overlap is harmless), `readLE` / `writeLE` read and write a
little-endian number of `k` bytes, `slice` reads a byte string.

Results:
* `readLE_congr`, `slice_congr`: a read depends on the bytes it covers only;
* `readLE_copy_at`, `readLE_writeLE`, `slice_copy`: a read of what was written;
* `writeLE_self`: a write of what was read;
* `readLE_copy_frame`, `readLE_writeLE_frame`, `slice_copy_frame`: a write
  elsewhere does not matter.
-/
namespace DbInternals

/-- Memory from a pointer on. -/
abbrev Mem := Nat → UInt8

abbrev Bytes := List UInt8

namespace Mem

def zero : Mem := fun _ => 0

/-- `memcpy(m + dst, src, n)`, also `memmove`. -/
def copy (m : Mem) (dst : Nat) (src : Mem) (n : Nat) : Mem :=
  fun i => if dst ≤ i ∧ i < dst + n then src (i - dst) else m i

/-- The pointer `m + o`. -/
def shift (m : Mem) (o : Nat) : Mem := fun i => m (o + i)

/-- A byte string as memory. -/
def ofBytes (b : Bytes) : Mem := fun i => b.getD i 0

/-- The `n` bytes at `o`. -/
def slice (m : Mem) (o n : Nat) : Bytes := (List.range n).map fun i => m (o + i)

/-- The little-endian number in the `k` bytes at `o`. -/
def readLE (m : Mem) (o : Nat) : Nat → Nat
  | 0 => 0
  | k + 1 => (m o).toNat + 256 * readLE m (o + 1) k

/-- `v` as little-endian memory. -/
def le (v : Nat) : Mem := fun i => UInt8.ofNat (v / 256 ^ i)

/-- Store the low `k` bytes of `v` at `o`. -/
def writeLE (m : Mem) (o k v : Nat) : Mem := m.copy o (le v) k

/-! ## Bytes -/

theorem copy_in {m src : Mem} {dst n i : Nat} (h : dst ≤ i) (h' : i < dst + n) :
    m.copy dst src n i = src (i - dst) := if_pos ⟨h, h'⟩

theorem copy_out {m src : Mem} {dst n i : Nat} (h : i < dst ∨ dst + n ≤ i) :
    m.copy dst src n i = m i := if_neg (by omega)

theorem writeLE_out {m : Mem} {o k v i : Nat} (h : i < o ∨ o + k ≤ i) :
    m.writeLE o k v i = m i := copy_out h

@[simp] theorem shift_apply (m : Mem) (o i : Nat) : m.shift o i = m (o + i) := rfl

@[simp] theorem copy_zero (m : Mem) (dst : Nat) (src : Mem) : m.copy dst src 0 = m := by
  funext i; exact copy_out (by omega)

/-! ## Numbers -/

theorem readLE_congr {m m' : Mem} : ∀ {k o : Nat}, (∀ i, o ≤ i → i < o + k → m i = m' i) →
    m.readLE o k = m'.readLE o k
  | 0, _, _ => rfl
  | k + 1, o, h => by
    simp only [readLE]
    rw [h o (Nat.le_refl _) (by omega),
      readLE_congr (k := k) (o := o + 1) fun i h1 h2 => h i (by omega) (by omega)]

theorem readLE_lt (m : Mem) : ∀ (k o : Nat), m.readLE o k < 256 ^ k
  | 0, _ => by simp [readLE]
  | k + 1, o => by
    have h1 := (m o).toNat_lt
    have h2 := readLE_lt m k (o + 1)
    simp only [readLE, Nat.pow_succ]; omega

theorem readLE_shift (m : Mem) (p : Nat) : ∀ (k o : Nat),
    (m.shift p).readLE o k = m.readLE (p + o) k
  | 0, _ => rfl
  | k + 1, o => by
    simp only [readLE, shift_apply]
    rw [readLE_shift m p k (o + 1), Nat.add_assoc p o 1]

theorem readLE_le (v : Nat) : ∀ (k o : Nat), (le v).readLE o k = v / 256 ^ o % 256 ^ k
  | 0, _ => by simp [readLE, Nat.mod_one]
  | k + 1, o => by
    simp only [readLE, le]
    rw [readLE_le v k (o + 1), UInt8.toNat_ofNat', Nat.pow_succ 256 o, ← Nat.div_div_eq_div_mul,
      Nat.pow_succ 256 k, Nat.mul_comm (256 ^ k) 256, Nat.mod_mul]

/-- A number inside the copied range. -/
theorem readLE_copy_at {m src : Mem} {dst n o k : Nat} (h : dst ≤ o) (h' : o + k ≤ dst + n) :
    (m.copy dst src n).readLE o k = src.readLE (o - dst) k := by
  have e : ∀ i, o ≤ i → i < o + k → m.copy dst src n i = (fun j => src (j - dst)) i :=
    fun i h1 h2 => copy_in (by omega) (by omega)
  have s : (Mem.shift (fun j => src (j - dst)) dst) = src := by
    funext i; simp only [shift_apply]; congr 1; omega
  have r := readLE_shift (fun j => src (j - dst)) dst k (o - dst)
  rw [s, show dst + (o - dst) = o by omega] at r
  rw [readLE_congr e, r]

theorem readLE_copy_frame {m src : Mem} {dst n o k : Nat} (h : o + k ≤ dst ∨ dst + n ≤ o) :
    (m.copy dst src n).readLE o k = m.readLE o k :=
  readLE_congr fun i h1 h2 => copy_out (by omega)

theorem readLE_writeLE (m : Mem) (o k v : Nat) : (m.writeLE o k v).readLE o k = v % 256 ^ k := by
  rw [writeLE, readLE_copy_at (Nat.le_refl o) (Nat.le_refl _), Nat.sub_self, readLE_le]; simp

/-- The bytes of a number just read. -/
theorem le_readLE (m : Mem) : ∀ {k i : Nat} (o : Nat), i < k → le (m.readLE o k) i = m (o + i)
  | k + 1, 0, o, _ => by
    simp only [le, readLE, Nat.pow_zero, Nat.div_one, Nat.add_zero]
    apply UInt8.toNat_inj.mp
    rw [UInt8.toNat_ofNat']
    have h1 := (m o).toNat_lt
    omega
  | k + 1, i + 1, o, h => by
    have h1 := (m o).toNat_lt
    have ih := le_readLE m (o + 1) (Nat.lt_of_succ_lt_succ h)
    simp only [le, readLE] at ih ⊢
    rw [Nat.pow_succ', ← Nat.div_div_eq_div_mul, show ((m o).toNat + 256 * m.readLE (o + 1) k) / 256 =
      m.readLE (o + 1) k by omega, ih]
    congr 1
    omega

/-- Storing what is there already. -/
theorem writeLE_self (m : Mem) (o k : Nat) : m.writeLE o k (m.readLE o k) = m := by
  funext i
  by_cases h : o ≤ i ∧ i < o + k
  · rw [writeLE, copy_in h.1 h.2, le_readLE m o (by omega)]
    congr 1
    omega
  · exact writeLE_out (by omega)

theorem readLE_writeLE_frame {m : Mem} {o k v p j : Nat} (h : p + j ≤ o ∨ o + k ≤ p) :
    (m.writeLE o k v).readLE p j = m.readLE p j := readLE_copy_frame h

/-! ## Byte strings -/

@[simp] theorem length_slice (m : Mem) (o n : Nat) : (m.slice o n).length = n := by
  simp [slice]

theorem slice_congr {m m' : Mem} {o o' n : Nat} (h : ∀ i, i < n → m (o + i) = m' (o' + i)) :
    m.slice o n = m'.slice o' n := by
  simp only [slice]
  exact List.map_congr_left fun i hi => h i (List.mem_range.mp hi)

theorem getElem_slice {m : Mem} {o n i : Nat} (h : i < (m.slice o n).length) :
    (m.slice o n)[i] = m (o + i) := by simp [slice]

/-- Two memories hold the same `n` bytes only if they agree on each of them. -/
theorem slice_inj {m m' : Mem} {o o' n i : Nat} (h : m.slice o n = m'.slice o' n) (hi : i < n) :
    m (o + i) = m' (o' + i) := by
  have := congrArg (fun l : Bytes => l[i]?) h
  simpa [slice, hi] using this

theorem slice_copy_frame {m src : Mem} {dst n o k : Nat} (h : o + k ≤ dst ∨ dst + n ≤ o) :
    (m.copy dst src n).slice o k = m.slice o k :=
  slice_congr fun i hi => copy_out (by omega)

theorem slice_copy (m src : Mem) (dst n : Nat) :
    (m.copy dst src n).slice dst n = src.slice 0 n :=
  slice_congr fun i hi => by rw [copy_in (by omega) (by omega)]; congr 1; omega

theorem slice_writeLE_frame {m : Mem} {o k v p n : Nat} (h : p + n ≤ o ∨ o + k ≤ p) :
    (m.writeLE o k v).slice p n = m.slice p n := slice_copy_frame h

theorem slice_shift (m : Mem) (p o n : Nat) : (m.shift p).slice o n = m.slice (p + o) n :=
  slice_congr fun i _ => by simp [Nat.add_assoc]

theorem slice_ofBytes (b : Bytes) : (ofBytes b).slice 0 b.length = b := by
  apply List.ext_getElem (by simp)
  intro i h1 h2
  rw [getElem_slice h1]
  simp [ofBytes, List.getD_eq_getElem?_getD, h2]

theorem ofBytes_append_left {b c : Bytes} {i : Nat} (h : i < b.length) :
    ofBytes (b ++ c) i = ofBytes b i := by
  simp [ofBytes, List.getD_eq_getElem?_getD, List.getElem?_append_left h]

theorem ofBytes_slice {m : Mem} {n i : Nat} (h : i < n) : ofBytes (m.slice 0 n) i = m i := by
  simp [ofBytes, slice, List.getD_eq_getElem?_getD, h]

/-- A number is determined by the bytes it is read from. -/
theorem readLE_eq_of_slice {m m' : Mem} {o o' k n : Nat} (h : m.slice o n = m'.slice o' n)
    (hk : k ≤ n) : m.readLE o k = m'.readLE o' k := by
  have := readLE_shift m o k 0
  have h' := readLE_shift m' o' k 0
  rw [Nat.add_zero] at this h'
  rw [← this, ← h']
  exact readLE_congr fun i _ hi => by simpa using slice_inj h (show i < n by omega)

end Mem

end DbInternals
