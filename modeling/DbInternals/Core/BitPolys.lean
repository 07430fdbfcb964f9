import Mathlib.Algebra.Polynomial.FieldDivision
import Mathlib.Algebra.Field.ZMod
import Mathlib.Data.Nat.Bitwise

/-!
# Numbers as polynomials over GF(2)

`reflected w n` has the `w` low bits of `n` as coefficients, bit 0 the leading one: what a
register that shifts to the right holds. Exclusive or is the sum, and a register with feedback
multiplies by `X` modulo a polynomial.

Results:
* `reflected_add`, `reflected_xor`, `reflected_inj`: numbers and their polynomials;
* `reflected_shift`: a shift of the register multiplies by `X`;
* `reflected_burst`: a polynomial of a few bits in a row is a shifted one of low degree;
* `eq_zero_of_dvd_shift`: a divisor with a constant term does not divide such a polynomial.
-/
namespace DbInternals.BitPolys

open Polynomial

/-- The `w` low bits of `n`, bit 0 the leading coefficient. -/
noncomputable def reflected : Nat → Nat → (ZMod 2)[X]
  | 0, _ => 0
  | w + 1, n => (if n.testBit 0 then X ^ w else 0) + reflected w (n / 2)

/-- One shift of a register with the feedback `g`. -/
def shift (g n : Nat) : Nat := (n / 2) ^^^ (if n.testBit 0 then g else 0)

section
variable {w v a b g k n : Nat}

@[simp] theorem reflected_zero_right (w : Nat) : reflected w 0 = 0 := by
  induction w with
  | zero => rfl
  | succ w ih => rw [reflected, Nat.zero_div, ih, Nat.zero_testBit]; simp

/-- Low bits and high bits. -/
theorem reflected_add (w v n : Nat) :
    reflected (w + v) n = X ^ v * reflected w n + reflected v (n / 2 ^ w) := by
  induction w generalizing n with
  | zero => simp [reflected]
  | succ w ih =>
    rw [Nat.add_right_comm, reflected, reflected, ih, Nat.div_div_eq_div_mul, ← Nat.pow_succ', mul_add,
      add_assoc, Nat.add_comm w v, pow_add]
    split <;> simp

theorem reflected_xor (w a b : Nat) : reflected w (a ^^^ b) = reflected w a + reflected w b := by
  induction w generalizing a b with
  | zero => simp [reflected]
  | succ w ih =>
    have htwo : (X ^ w : (ZMod 2)[X]) + X ^ w = 0 := CharTwo.add_self_eq_zero _
    rw [reflected, reflected, reflected, Nat.xor_div_two, ih, Nat.testBit_xor]
    cases a.testBit 0 <;> cases b.testBit 0 <;> simp [add_assoc, add_left_comm]
    rw [← add_assoc, htwo, zero_add]

theorem reflected_degree_lt (w n : Nat) : (reflected w n).degree < w := by
  induction w generalizing n with
  | zero => simp [reflected]
  | succ w ih =>
    rw [reflected]
    refine lt_of_le_of_lt (degree_add_le _ _) (max_lt ?_ ((ih _).trans (by exact_mod_cast w.lt_succ_self)))
    split
    · rw [degree_X_pow]
      exact_mod_cast w.lt_succ_self
    · rw [degree_zero]
      exact WithBot.bot_lt_coe _

theorem reflected_eq_zero (hn : n < 2 ^ w) : reflected w n = 0 ↔ n = 0 := by
  constructor
  · intro h
    induction w generalizing n with
    | zero => simpa using hn
    | succ w ih =>
      rw [reflected] at h
      have hbit : n.testBit 0 = false := by
        by_contra hb
        rw [if_pos (Bool.not_eq_false _ ▸ hb)] at h
        have hc := congrArg (coeff · w) h
        simp only [coeff_add, coeff_X_pow_self, coeff_zero,
          coeff_eq_zero_of_degree_lt (reflected_degree_lt w (n / 2)), add_zero] at hc
        exact one_ne_zero hc
      rw [hbit, if_neg Bool.false_ne_true, zero_add] at h
      have hhalf := ih (show n / 2 < 2 ^ w by omega) h
      rw [Nat.testBit_zero] at hbit
      have := of_decide_eq_false hbit
      omega
  · rintro rfl
    exact reflected_zero_right w

/-- Numbers of `w` bits have different polynomials. -/
theorem reflected_inj (ha : a < 2 ^ w) (hb : b < 2 ^ w) : reflected w a = reflected w b ↔ a = b := by
  have hxor := reflected_eq_zero (Nat.xor_lt_two_pow ha hb)
  rw [reflected_xor, ← CharTwo.sub_eq_add, sub_eq_zero] at hxor
  rw [hxor, Nat.xor_eq_zero_iff]

/-- One shift multiplies by `X`: the bit that leaves the register stands for `X ^ w`, which the
feedback replaces. -/
theorem reflected_shift (hn : n < 2 ^ (w + 1)) (g : Nat) :
    X * reflected (w + 1) n = reflected (w + 1) (shift g n) +
      (X ^ (w + 1) + reflected (w + 1) g) * (if n.testBit 0 then 1 else 0) := by
  have hhalf : reflected (w + 1) (n / 2) = X * reflected w (n / 2) := by
    have hzero : n / 2 / 2 ^ w = 0 := by
      rw [Nat.div_div_eq_div_mul, ← Nat.pow_succ']
      exact Nat.div_eq_of_lt hn
    rw [reflected_add, hzero, pow_one, reflected_zero_right, add_zero]
  have hg : reflected (w + 1) g + reflected (w + 1) g = 0 := CharTwo.add_self_eq_zero _
  rw [shift, reflected_xor, hhalf, reflected]
  cases n.testBit 0 with
  | true =>
    simp only [if_true, mul_add, mul_one, ← pow_succ']
    rw [add_comm (X ^ (w + 1)) (reflected (w + 1) g), add_assoc, ← add_assoc (reflected (w + 1) g), hg,
      zero_add, add_comm]
  | false => simp

/-! ## Bursts -/

theorem reflected_mod (w n : Nat) : reflected w (n % 2 ^ w) = reflected w n := by
  induction w generalizing n with
  | zero => rfl
  | succ w ih =>
    have hbit : (n % 2 ^ (w + 1)).testBit 0 = n.testBit 0 := by
      rw [Nat.testBit_mod_two_pow, decide_eq_true (Nat.succ_pos w), Bool.true_and]
    have hhalf : n % 2 ^ (w + 1) / 2 = n / 2 % 2 ^ w := by
      rw [Nat.pow_succ', Nat.mod_mul_right_div_self]
    rw [reflected, reflected, hbit, hhalf, ih]

/-- Bits in a row are a shifted polynomial of low degree. -/
theorem reflected_burst (hn : n < 2 ^ w) (hbits : ∀ i, n.testBit i = true → a ≤ i ∧ i < a + k) :
    ∃ e B, reflected w n = X ^ e * B ∧ B.degree < (k : WithBot ℕ) := by
  have hlow : n % 2 ^ a = 0 := by
    refine Nat.eq_of_testBit_eq fun i => ?_
    rw [Nat.testBit_mod_two_pow, Nat.zero_testBit]
    by_contra hb
    simp only [Bool.not_eq_false, Bool.and_eq_true, decide_eq_true_eq] at hb
    exact absurd (hbits i hb.2).1 (Nat.not_le.mpr hb.1)
  have hhigh : n < 2 ^ (a + k) := by
    refine Nat.lt_pow_two_of_testBit n fun i hi => ?_
    by_contra hb
    exact absurd (hbits i (Bool.not_eq_false _ ▸ hb)).2 (Nat.not_lt.mpr hi)
  have hsplit : ∀ v, reflected (a + v) n = reflected v (n / 2 ^ a) := by
    intro v
    rw [reflected_add, ← reflected_mod a n, hlow, reflected_zero_right, mul_zero, zero_add]
  by_cases ha : a ≤ w
  case neg =>
    have hzero : n = 0 := by
      rw [← Nat.mod_eq_of_lt (hn.trans_le (Nat.pow_le_pow_right Nat.two_pos (Nat.le_of_not_le ha))), hlow]
    exact ⟨0, 0, by rw [hzero, reflected_zero_right, mul_zero], by rw [degree_zero]; exact WithBot.bot_lt_coe _⟩
  obtain ⟨v, rfl⟩ := Nat.exists_eq_add_of_le ha
  rw [hsplit]
  by_cases hk : v ≤ k
  · refine ⟨0, _, (one_mul _).symm.trans (by rw [pow_zero]), (reflected_degree_lt v _).trans_le ?_⟩
    exact_mod_cast hk
  · obtain ⟨r, rfl⟩ := Nat.exists_eq_add_of_le (Nat.le_of_not_le hk)
    have hzero : n / 2 ^ a / 2 ^ k = 0 := by
      rw [Nat.div_div_eq_div_mul, ← Nat.pow_add]
      exact Nat.div_eq_of_lt hhigh
    refine ⟨r, reflected k (n / 2 ^ a), ?_, reflected_degree_lt k _⟩
    rw [reflected_add, hzero, reflected_zero_right, add_zero]

end

/-- A polynomial with a constant term divides no shifted polynomial of lower degree but zero. -/
theorem eq_zero_of_dvd_shift {K : Type*} [Field K] {P B : K[X]} {e : Nat} (hP : P.coeff 0 ≠ 0)
    (hB : B.degree < P.degree) (h : P ∣ X ^ e * B) : B = 0 := by
  have hX : IsCoprime X P :=
    (irreducible_X (R := K)).coprime_iff_not_dvd.mpr (mt X_dvd_iff.mp hP)
  exact eq_zero_of_dvd_of_degree_lt (hX.symm.pow_right.dvd_of_dvd_mul_left h) hB

end DbInternals.BitPolys
