import Mathlib.Algebra.Order.Ring.Nat
import Mathlib.Tactic.Ring

/-!
# Binary floating point

The interchange formats of IEEE 754, as numbers with the bits of a value. A finite value is a
whole number of the format's least steps, so two values compare as integers; an infinity has the
step after the last one, which is what its bits say, and a NaN has none.

Results:
* `nearest_steps`: rounding gives back what the format can hold;
* `steps_convert`: a wider format holds the same numbers;
* `convert_convert`, `narrow_widen`: so a value that was widened is narrowed to the bits it had.
-/
namespace DbInternals.Ieee

/-- A binary interchange format, by the widths of its fields. -/
structure Format where
  fraction : Nat
  exponent : Nat

def binary32 : Format := ⟨23, 8⟩

def binary64 : Format := ⟨52, 11⟩

/-- `n / 2 ^ k` as an integer, ties to even. -/
def roundEven (n k : Nat) : Nat :=
  if 2 * (n % 2 ^ k) < 2 ^ k ∨ 2 * (n % 2 ^ k) = 2 ^ k ∧ n / 2 ^ k % 2 = 0 then n / 2 ^ k
  else n / 2 ^ k + 1

namespace Format

/-- The weight of the sign. -/
def signBit (f : Format) : Nat := 2 ^ (f.exponent + f.fraction)

/-- The bits below the sign. -/
def magnitude (f : Format) (b : Nat) : Nat := b % f.signBit

/-- An exponent of ones before a fraction of zeros. -/
def infinity (f : Format) : Nat := (2 ^ f.exponent - 1) * 2 ^ f.fraction

def IsNaN (f : Format) (b : Nat) : Prop := f.infinity < f.magnitude b

instance (f : Format) (b : Nat) : Decidable (f.IsNaN b) := inferInstanceAs (Decidable (_ < _))

/-- How many least steps a magnitude is: the fraction alone, or behind an implicit one and shifted
by the exponent. -/
def steps (f : Format) (c : Nat) : Nat :=
  if c / 2 ^ f.fraction = 0 then c
  else (2 ^ f.fraction + c % 2 ^ f.fraction) * 2 ^ (c / 2 ^ f.fraction - 1)

/-- The number of the value, in least steps. -/
def number (f : Format) (b : Nat) : Option Int :=
  if f.IsNaN b then none
  else if f.signBit ≤ b then some (-f.steps (f.magnitude b)) else some (f.steps (f.magnitude b))

/-- Whether a value is below another one, which no NaN is. -/
def lt (f : Format) (b c : Nat) : Bool :=
  match f.number b, f.number c with
  | some x, some y => x < y
  | _, _ => false

/-- The least step is 2 to the minus this. -/
def leastStep (f : Format) : Nat := 2 ^ (f.exponent - 1) - 2 + f.fraction

/-- The magnitude nearest to `n / 2 ^ k` least steps, ties to even. -/
def nearest (f : Format) (n k : Nat) : Nat :=
  let drop := Nat.log2 (n / 2 ^ k) - f.fraction
  min (drop * 2 ^ f.fraction + roundEven n (k + drop)) f.infinity

/-- The value in another format. A NaN keeps its sign and the upper bits of its payload, and is
made a quiet one. -/
def convert (f g : Format) (b : Nat) : Nat :=
  let c := f.magnitude b
  (if f.signBit ≤ b then g.signBit else 0) +
    if f.IsNaN b then
      g.infinity + 2 ^ (g.fraction - 1) +
        c % 2 ^ f.fraction * 2 ^ g.fraction / 2 ^ f.fraction % 2 ^ (g.fraction - 1)
    else if c = f.infinity then g.infinity
    else g.nearest (f.steps c * 2 ^ g.leastStep) f.leastStep

/-! ## Exact numbers -/

/-- A significand with a shift, in the one way in which the format has them. -/
def Normal (f : Format) (s d : Nat) : Prop :=
  s < 2 ^ (f.fraction + 1) ∧ (d = 0 ∨ 2 ^ f.fraction ≤ s)

section
variable {f g : Format} {b c s d e k n : Nat}

theorem infinity_lt (f : Format) : f.infinity < f.signBit := by
  have hpos := Nat.two_pow_pos f.exponent
  rw [infinity, signBit, Nat.pow_add]
  exact Nat.mul_lt_mul_of_pos_right (by omega) (Nat.two_pow_pos _)

theorem roundEven_exact (n k : Nat) : roundEven (n * 2 ^ k) k = n := by
  have hpos := Nat.two_pow_pos k
  rw [roundEven, Nat.mul_mod_left, if_pos (.inl (by omega)), Nat.mul_div_cancel _ hpos]

theorem Normal.steps (h : f.Normal s d) : f.steps (d * 2 ^ f.fraction + s) = s * 2 ^ d := by
  obtain ⟨hs, hd⟩ := h
  have hpos := Nat.two_pow_pos f.fraction
  rw [Nat.pow_succ] at hs
  rw [Format.steps]
  by_cases hlow : s < 2 ^ f.fraction
  · obtain rfl : d = 0 := by omega
    rw [Nat.zero_mul, Nat.zero_add, if_pos (Nat.div_eq_of_lt hlow), Nat.pow_zero, Nat.mul_one]
  · obtain ⟨m, rfl⟩ := Nat.exists_eq_add_of_le (Nat.not_lt.mp hlow)
    have hsum : d * 2 ^ f.fraction + (2 ^ f.fraction + m) = m + 2 ^ f.fraction * (d + 1) := by ring
    have hm : m < 2 ^ f.fraction := by omega
    rw [hsum, Nat.add_mul_div_left _ _ hpos, Nat.add_mul_mod_self_left, Nat.div_eq_of_lt hm,
      Nat.mod_eq_of_lt hm, if_neg (by omega), Nat.zero_add, Nat.add_sub_cancel]

/-- The shift is read off the highest bit. -/
theorem Normal.drop (h : f.Normal s d) : Nat.log2 (s * 2 ^ d) - f.fraction = d := by
  obtain ⟨hs, hd⟩ := h
  by_cases hlow : s < 2 ^ f.fraction
  · obtain rfl : d = 0 := by omega
    rw [Nat.pow_zero, Nat.mul_one]
    rcases Nat.eq_zero_or_pos s with rfl | hpos
    · simp
    · have := (Nat.log2_lt (by omega)).mpr hlow
      omega
  · have hle := Nat.not_lt.mp hlow
    have hpos := Nat.mul_pos (Nat.lt_of_lt_of_le (Nat.two_pow_pos _) hle) (Nat.two_pow_pos d)
    have hlog : Nat.log2 (s * 2 ^ d) = f.fraction + d := by
      refine (Nat.log2_eq_iff (by omega)).mpr ⟨?_, ?_⟩
      · rw [Nat.pow_add]
        exact Nat.mul_le_mul_right _ hle
      · rw [show f.fraction + d + 1 = f.fraction + 1 + d by omega, Nat.pow_add]
        exact Nat.mul_lt_mul_of_pos_right hs (Nat.two_pow_pos d)
    omega

theorem Normal.nearest (h : f.Normal s d) (k : Nat) :
    f.nearest (s * 2 ^ d * 2 ^ k) k = min (d * 2 ^ f.fraction + s) f.infinity := by
  unfold Format.nearest
  rw [Nat.mul_div_cancel _ (Nat.two_pow_pos k)]
  dsimp only
  rw [h.drop, Nat.mul_assoc, ← Nat.pow_add, Nat.add_comm d k, roundEven_exact]

/-- Every magnitude is a significand with its shift. -/
theorem exists_normal (f : Format) (c : Nat) : ∃ s d, f.Normal s d ∧ c = d * 2 ^ f.fraction + s := by
  have hmod := Nat.mod_lt c (Nat.two_pow_pos f.fraction)
  have hsplit := Nat.div_add_mod' c (2 ^ f.fraction)
  have hsucc : 2 ^ (f.fraction + 1) = 2 ^ f.fraction + 2 ^ f.fraction := by rw [Nat.pow_succ]; omega
  cases hq : c / 2 ^ f.fraction with
  | zero =>
    rw [hq] at hsplit
    exact ⟨c, 0, ⟨by omega, .inl rfl⟩, by omega⟩
  | succ d =>
    rw [hq, Nat.succ_mul] at hsplit
    exact ⟨2 ^ f.fraction + c % 2 ^ f.fraction, d, ⟨by omega, .inr (by omega)⟩, by omega⟩

/-- What the format can hold is not rounded. -/
theorem nearest_steps (hc : c ≤ f.infinity) (k : Nat) : f.nearest (f.steps c * 2 ^ k) k = c := by
  obtain ⟨s, d, hn, rfl⟩ := f.exists_normal c
  rw [hn.steps, hn.nearest, Nat.min_eq_left hc]

/-- A short significand can be shifted until it is normal. -/
theorem normalize (hs : s < 2 ^ (f.fraction + 1)) (e : Nat) :
    ∃ s' d, f.Normal s' d ∧ s * 2 ^ e = s' * 2 ^ d := by
  induction e generalizing s with
  | zero => exact ⟨s, 0, ⟨hs, .inl rfl⟩, rfl⟩
  | succ e ih =>
    by_cases hlow : s < 2 ^ f.fraction
    · obtain ⟨s', d, hn, h⟩ := ih (s := 2 * s) (by rw [Nat.pow_succ]; omega)
      exact ⟨s', d, hn, by rw [← h]; ring⟩
    · exact ⟨s, e + 1, ⟨hs, .inr (Nat.not_lt.mp hlow)⟩, rfl⟩

/-! ## Wider formats -/

/-- `g` has the numbers of `f`. -/
structure Widens (f g : Format) : Prop where
  fraction_le : f.fraction ≤ g.fraction
  step_le : f.leastStep ≤ g.leastStep
  range : 2 ^ f.exponent + (g.leastStep - f.leastStep) ≤ 2 ^ g.exponent
  exponent : 4 ≤ 2 ^ f.exponent

theorem widens_binary : Widens binary32 binary64 := ⟨by decide, by decide, by decide, by decide⟩

/-- The shift of a number below infinity leaves room for the exponent of ones. -/
theorem Normal.lt_infinity (h : f.Normal s d) (h4 : 4 ≤ 2 ^ f.exponent) :
    d * 2 ^ f.fraction + s < f.infinity ↔ d + 2 < 2 ^ f.exponent := by
  obtain ⟨hs, hd⟩ := h
  rw [Nat.pow_succ] at hs
  obtain ⟨m, hm⟩ : ∃ m, 2 ^ f.exponent = m + 3 := ⟨2 ^ f.exponent - 3, by omega⟩
  have hinf : f.infinity = (m + 2) * 2 ^ f.fraction := by rw [infinity, hm]; rfl
  rw [hinf, hm]
  constructor
  · intro hlt
    by_contra hc
    have hle : (m + 1) * 2 ^ f.fraction ≤ d * 2 ^ f.fraction := Nat.mul_le_mul_right _ (by omega)
    rw [Nat.succ_mul] at hle
    rw [Nat.add_mul] at hlt
    omega
  · intro hlt
    have hle : d * 2 ^ f.fraction ≤ m * 2 ^ f.fraction := Nat.mul_le_mul_right _ (by omega)
    rw [Nat.add_mul]
    omega

/-- A number of the narrower format is one of the wider one. -/
theorem Widens.nearest (h : Widens f g) (hc : c < f.infinity) :
    ∃ s d, g.Normal s d ∧ d * 2 ^ g.fraction + s < g.infinity ∧
      g.nearest (f.steps c * 2 ^ g.leastStep) f.leastStep = d * 2 ^ g.fraction + s ∧
      f.steps c * 2 ^ (g.leastStep - f.leastStep) = s * 2 ^ d := by
  obtain ⟨s, d, hn, rfl⟩ := f.exists_normal c
  have hlt := (hn.lt_infinity h.exponent).mp hc
  have hs : s < 2 ^ (g.fraction + 1) :=
    Nat.lt_of_lt_of_le hn.1 (Nat.pow_le_pow_right (by omega) (by have := h.fraction_le; omega))
  have hrange := h.range
  have h4 : 4 ≤ 2 ^ g.exponent := by have := h.exponent; omega
  obtain ⟨s', d', hn', hshift⟩ := normalize hs (d + (g.leastStep - f.leastStep))
  have hsteps : f.steps (d * 2 ^ f.fraction + s) * 2 ^ (g.leastStep - f.leastStep) = s' * 2 ^ d' := by
    rw [hn.steps, Nat.mul_assoc, ← Nat.pow_add, hshift]
  -- a shift in the wider format is not longer than the two that made it
  have hd' : d' ≤ d + (g.leastStep - f.leastStep) := by
    rcases hn'.2 with rfl | hle
    · omega
    · by_contra hgt
      have hbig : 2 ^ g.fraction * 2 ^ (d + (g.leastStep - f.leastStep) + 1) ≤ s' * 2 ^ d' :=
        Nat.mul_le_mul hle (Nat.pow_le_pow_right (by omega) (by omega))
      rw [← hshift, Nat.pow_succ, ← Nat.mul_assoc, Nat.mul_right_comm, ← Nat.pow_succ] at hbig
      exact absurd (Nat.le_of_mul_le_mul_right hbig (Nat.two_pow_pos _)) (by omega)
  have hlt' := (hn'.lt_infinity h4).mpr (by omega)
  refine ⟨s', d', hn', hlt', ?_, hsteps⟩
  have hexp : f.steps (d * 2 ^ f.fraction + s) * 2 ^ g.leastStep = s' * 2 ^ d' * 2 ^ f.leastStep := by
    rw [← hsteps, Nat.mul_assoc, ← Nat.pow_add, Nat.sub_add_cancel h.step_le]
  rw [hexp, hn'.nearest, Nat.min_eq_left (Nat.le_of_lt hlt')]

/-- The wider format holds the same number, in its own steps. -/
theorem Widens.steps_convert (h : Widens f g) (hc : c < f.infinity) :
    g.nearest (f.steps c * 2 ^ g.leastStep) f.leastStep < g.infinity ∧
      g.steps (g.nearest (f.steps c * 2 ^ g.leastStep) f.leastStep)
        = f.steps c * 2 ^ (g.leastStep - f.leastStep) := by
  obtain ⟨s, d, hn, hlt, e, hsteps⟩ := h.nearest hc
  rw [e, hn.steps]
  exact ⟨hlt, hsteps.symm⟩

/-- A magnitude under a sign. -/
theorem magnitude_sign {P : Prop} [Decidable P] (hc : c < f.signBit) :
    f.magnitude ((if P then f.signBit else 0) + c) = c ∧
      (f.signBit ≤ (if P then f.signBit else 0) + c ↔ P) := by
  unfold magnitude
  by_cases h : P
  · rw [if_pos h, Nat.add_mod_left, Nat.mod_eq_of_lt hc]
    exact ⟨rfl, iff_of_true (Nat.le_add_right ..) h⟩
  · rw [if_neg h, Nat.zero_add, Nat.mod_eq_of_lt hc]
    exact ⟨rfl, iff_of_false (Nat.not_le.mpr hc) h⟩

theorem sign_add_magnitude (hb : b < 2 * f.signBit) :
    (if f.signBit ≤ b then f.signBit else 0) + f.magnitude b = b := by
  unfold magnitude
  split
  · next h =>
    rw [Nat.mod_eq_sub_mod h, Nat.mod_eq_of_lt (by omega)]
    omega
  · next h => rw [Nat.mod_eq_of_lt (Nat.not_le.mp h), Nat.zero_add]

/-- A value that is no NaN keeps its sign. -/
theorem convert_of_not_nan (g : Format) (hn : ¬ f.IsNaN b) :
    f.convert g b = (if f.signBit ≤ b then g.signBit else 0) +
      if f.magnitude b = f.infinity then g.infinity
      else g.nearest (f.steps (f.magnitude b) * 2 ^ g.leastStep) f.leastStep := by
  unfold convert
  exact congrArg _ (if_neg hn)

/-- What was widened is narrowed to the bits it had. -/
theorem Widens.convert_convert (h : Widens f g) (hb : b < 2 * f.signBit) (hn : ¬ f.IsNaN b) :
    g.convert f (f.convert g b) = b := by
  have hle : f.magnitude b ≤ f.infinity := Nat.not_lt.mp hn
  -- the magnitude in the wider format, and back
  obtain ⟨c, hc, hwide, hback⟩ : ∃ c, c ≤ g.infinity ∧
      f.convert g b = (if f.signBit ≤ b then g.signBit else 0) + c ∧
      (if c = g.infinity then f.infinity else f.nearest (g.steps c * 2 ^ f.leastStep) g.leastStep)
        = f.magnitude b := by
    by_cases hinf : f.magnitude b = f.infinity
    · refine ⟨g.infinity, Nat.le_refl _, ?_, by rw [if_pos rfl, hinf]⟩
      rw [convert_of_not_nan g hn, if_pos hinf]
    · obtain ⟨hlt, hsteps⟩ := h.steps_convert (c := f.magnitude b) (by omega)
      refine ⟨_, Nat.le_of_lt hlt, by rw [convert_of_not_nan g hn, if_neg hinf], ?_⟩
      rw [if_neg (Nat.ne_of_lt hlt), hsteps, Nat.mul_assoc, ← Nat.pow_add,
        Nat.sub_add_cancel h.step_le, nearest_steps hle]
  obtain ⟨hmag, hsign⟩ := magnitude_sign (P := f.signBit ≤ b) (Nat.lt_of_le_of_lt hc g.infinity_lt)
  rw [← hwide] at hmag hsign
  have hn' : ¬ g.IsNaN (f.convert g b) := by
    rw [IsNaN, hmag]
    exact Nat.not_lt.mpr hc
  rw [convert_of_not_nan f hn', hmag, hback, if_congr hsign rfl rfl, sign_add_magnitude hb]

theorem convert_le (f g : Format) (hn : ¬ f.IsNaN b) :
    ∃ c ≤ g.infinity, f.convert g b = (if f.signBit ≤ b then g.signBit else 0) + c := by
  refine ⟨_, ?_, convert_of_not_nan g hn⟩
  split
  · exact Nat.le_refl _
  · exact Nat.min_le_right ..

theorem convert_lt (f : Format) (hn : ¬ f.IsNaN b) : f.convert g b < 2 * g.signBit := by
  have hinf := g.infinity_lt
  obtain ⟨c, hc, e⟩ := convert_le f g hn
  rw [e]
  split <;> omega

/-- No NaN comes out of what is none. -/
theorem not_nan_convert (f : Format) (hn : ¬ f.IsNaN b) : ¬ g.IsNaN (f.convert g b) := by
  obtain ⟨c, hc, e⟩ := convert_le f g hn
  rw [IsNaN, e, (magnitude_sign (Nat.lt_of_le_of_lt hc g.infinity_lt)).1]
  exact Nat.not_lt.mpr hc

end

end Format

/-! ## Floats and doubles -/

/-- The double a float is widened to. -/
def widen (x : UInt32) : UInt64 := .ofNat (binary32.convert binary64 x.toNat)

/-- The float a double is rounded to. -/
def narrow (x : UInt64) : UInt32 := .ofNat (binary64.convert binary32 x.toNat)

theorem toNat_widen {x : UInt32} (h : ¬ binary32.IsNaN x.toNat) :
    (widen x).toNat = binary32.convert binary64 x.toNat :=
  UInt64.toNat_ofNat_of_lt (binary32.convert_lt (g := binary64) h)

theorem not_nan_widen {x : UInt32} (h : ¬ binary32.IsNaN x.toNat) :
    ¬ binary64.IsNaN (widen x).toNat := by
  rw [toNat_widen h]
  exact Format.not_nan_convert _ h

theorem narrow_widen {x : UInt32} (h : ¬ binary32.IsNaN x.toNat) : narrow (widen x) = x := by
  apply UInt32.toNat_inj.mp
  rw [narrow, toNat_widen h, Format.widens_binary.convert_convert x.toNat_lt h]
  exact UInt32.toNat_ofNat_of_lt x.toNat_lt

end DbInternals.Ieee
