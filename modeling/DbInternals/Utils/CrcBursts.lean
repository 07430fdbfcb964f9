import DbInternals.Utils.CrcPolys

/-!
# Burst errors

Two strings of one length whose differing bits lie close together differ by a shifted polynomial
of low degree, which the Castagnoli polynomial does not divide. The bits of a string are counted
byte by byte, the least significant bit of a byte first: the order in which the loop of
`src/utils/crc32c.h` takes them.

Results:
* `little_testBit`, `little_inj`: a string, its bits and its number;
* `compute_ne`: a burst of at most 32 bits changes the CRC.
-/
namespace DbInternals.Crc32c

open Polynomial BitPolys

/-- Bit `i` of a string. -/
def bitAt (p : Bytes) (i : Nat) : Bool := (Mem.ofBytes p (i / 8)).toNat.testBit (i % 8)

/-- The bits in which the strings differ lie within `k` bits in a row. -/
def Burst (k : Nat) (p q : Bytes) : Prop := ∃ a, ∀ i, bitAt p i ≠ bitAt q i → a ≤ i ∧ i < a + k

section
variable {p q : Bytes} {i : Nat}

theorem bitAt_cons (b : UInt8) (p : Bytes) (i : Nat) :
    bitAt (b :: p) i = if i < 8 then b.toNat.testBit i else bitAt p (i - 8) := by
  split
  · next h => rw [bitAt, Nat.div_eq_of_lt h, Nat.mod_eq_of_lt h]; rfl
  · next h =>
    have hdiv : i / 8 = (i - 8) / 8 + 1 := by omega
    have hmod : i % 8 = (i - 8) % 8 := by omega
    rw [bitAt, bitAt, hdiv, hmod]
    rfl

theorem little_testBit (p : Bytes) (i : Nat) : (little p).testBit i = bitAt p i := by
  induction p generalizing i with
  | nil => simp [little, bitAt, Mem.ofBytes]
  | cons b p ih =>
    rw [little, Nat.add_comm, bitAt_cons, ← ih]
    exact Nat.testBit_two_pow_mul_add _ b.toNat_lt i

theorem little_lt (p : Bytes) : little p < 2 ^ (8 * p.length) := by
  induction p with
  | nil => exact Nat.one_pos
  | cons b p ih =>
    have hb := b.toNat_lt
    rw [little, List.length_cons, Nat.mul_succ, Nat.pow_add]
    omega

theorem little_inj (hlen : p.length = q.length) : little p = little q ↔ p = q := by
  refine ⟨fun h => ?_, congrArg little⟩
  induction p generalizing q with
  | nil => exact (List.length_eq_zero_iff.mp hlen.symm).symm
  | cons b p ih =>
    cases q with
    | nil => cases hlen
    | cons c q =>
      have hb := b.toNat_lt
      have hc := c.toNat_lt
      simp only [little] at h
      rw [ih (Nat.succ.inj hlen) (by omega), UInt8.toNat_inj.mp (show b.toNat = c.toNat by omega)]

/-- Strings of one length with the same bits are the same. -/
theorem eq_of_bitAt (hlen : p.length = q.length) (h : ∀ i, bitAt p i = bitAt q i) : p = q := by
  rw [← little_inj hlen]
  refine Nat.eq_of_testBit_eq fun i => ?_
  rw [little_testBit, little_testBit, h]

/-- The CRC of a string determines what its polynomial leaves. -/
theorem compute_eq_iff (hlen : p.length = q.length) : compute p = compute q ↔
    castagnoli ∣ X ^ 32 * reflected (8 * p.length) (little p ^^^ little q) := by
  have hsub : X ^ 32 * reflected (8 * p.length) (little p ^^^ little q) =
      X ^ 32 * reflected (8 * p.length) (little p) - X ^ 32 * reflected (8 * p.length) (little q) := by
    rw [reflected_xor, mul_add, CharTwo.sub_eq_add]
  rw [hsub, ← mod_eq_iff, compute, compute, finalize, finalize, UInt32.xor_left_inj, ← residue_inj,
    residue_extend, residue_extend, ← hlen, add_right_inj, map_mul, map_mul, map_pow]

/-- A burst of at most 32 bits changes the CRC. -/
theorem compute_ne (hlen : p.length = q.length) (hne : p ≠ q) (hburst : Burst 32 p q) :
    compute p ≠ compute q := by
  intro h
  obtain ⟨a, hbits⟩ := hburst
  have hlt : little p ^^^ little q < 2 ^ (8 * p.length) :=
    Nat.xor_lt_two_pow (little_lt p) (hlen ▸ little_lt q)
  obtain ⟨e, B, hB, hdegree⟩ := reflected_burst hlt fun i hi => hbits i fun heq => by
    rw [Nat.testBit_xor, little_testBit, little_testBit, heq, Bool.xor_self] at hi
    cases hi
  have hdvd := (compute_eq_iff hlen).mp h
  rw [hB, ← mul_assoc, ← pow_add] at hdvd
  have hzero : B = 0 := by
    refine eq_zero_of_dvd_shift ?_ ?_ hdvd
    · rw [castagnoli_coeff_zero]
      exact one_ne_zero
    · rw [castagnoli_degree]
      exact hdegree
  rw [hzero, mul_zero, reflected_eq_zero hlt, Nat.xor_eq_zero_iff, little_inj hlen] at hB
  exact hne hB

end

end DbInternals.Crc32c
