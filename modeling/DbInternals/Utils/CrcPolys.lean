import DbInternals.Core.BitPolys
import DbInternals.Core.Codec
import DbInternals.Utils.Crc32c
import Mathlib.RingTheory.AdjoinRoot

/-!
# CRC32C as a remainder

The state of `src/utils/crc32c.h` as a residue modulo the Castagnoli polynomial. A round of the
portable loop multiplies it by `X`, so `extend` makes of it what a division of the whole byte
string leaves; what the CRC32 instructions compute is such a remainder as well.

Results:
* `residue_extend`: the state behind a byte string;
* `extend_append`: one string after another;
* `extend_hardware`: both paths with instructions end in the state of the portable one.
-/
namespace DbInternals.Crc32c

open Polynomial BitPolys

/-- `0x11EDC6F41` -/
noncomputable def castagnoli : (ZMod 2)[X] :=
  X ^ 32 + X ^ 28 + X ^ 27 + X ^ 26 + X ^ 25 + X ^ 23 + X ^ 22 + X ^ 20 + X ^ 19 + X ^ 18 + X ^ 14 +
    X ^ 13 + X ^ 11 + X ^ 10 + X ^ 9 + X ^ 8 + X ^ 6 + 1

/-- The feedback of the portable loop is the rest of the polynomial. -/
theorem castagnoli_eq : castagnoli = X ^ 32 + reflected 32 0x82F63B78 := by
  simp [castagnoli, reflected, Nat.testBit, add_assoc]

theorem castagnoli_degree : castagnoli.degree = 32 := by
  rw [castagnoli_eq, degree_add_eq_left_of_degree_lt, degree_X_pow]
  · rfl
  · rw [degree_X_pow]
    exact reflected_degree_lt 32 _

theorem castagnoli_coeff_zero : castagnoli.coeff 0 = 1 := by
  simp [castagnoli, coeff_X_pow, coeff_one]

/-- A string as a little-endian number: the bytes in order, the low bit of each first. -/
def little : Bytes → Nat
  | [] => 0
  | p :: ps => p.toNat + 256 * little ps

/-- What a polynomial leaves modulo the Castagnoli polynomial. -/
noncomputable abbrev mod : (ZMod 2)[X] →+* AdjoinRoot castagnoli := AdjoinRoot.mk castagnoli

/-- The state as a residue. -/
noncomputable def residue (state : UInt32) : AdjoinRoot castagnoli := mod (reflected 32 state.toNat)

section
variable {state a b : UInt32} {p q : Bytes} {n k : Nat}

theorem mod_eq_iff {f g : (ZMod 2)[X]} : mod f = mod g ↔ castagnoli ∣ f - g := AdjoinRoot.mk_eq_mk

theorem mod_modByMonic (f : (ZMod 2)[X]) : mod (f %ₘ castagnoli) = mod f :=
  mod_eq_iff.mpr (dvd_modByMonic_sub _ _)

/-- Different states have different residues. -/
theorem residue_inj : residue a = residue b ↔ a = b := by
  refine ⟨fun h => ?_, congrArg residue⟩
  have hzero : reflected 32 a.toNat - reflected 32 b.toNat = 0 := by
    refine eq_zero_of_dvd_of_degree_lt (mod_eq_iff.mp h) ?_
    rw [castagnoli_degree]
    exact (degree_sub_le _ _).trans_lt (max_lt (reflected_degree_lt 32 _) (reflected_degree_lt 32 _))
  rw [sub_eq_zero, reflected_inj a.toNat_lt b.toNat_lt] at hzero
  exact UInt32.toNat_inj.mp hzero

theorem residue_xor (a b : UInt32) : residue (a ^^^ b) = residue a + residue b := by
  rw [residue, UInt32.toNat_xor, reflected_xor, map_add]
  rfl

/-! ## The portable loop -/

theorem round_toNat (state : UInt32) : (round state).toNat = shift 0x82F63B78 state.toNat := by
  have hbit : (state &&& 1).toNat = state.toNat % 2 := by
    rw [UInt32.toNat_and]
    exact Nat.and_one_is_mod _
  rw [round, shift, UInt32.toNat_xor, Nat.testBit_zero]
  congr 1
  rcases Nat.mod_two_eq_zero_or_one state.toNat with h | h
  · have hzero : state &&& 1 = 0 := UInt32.toNat_inj.mp (hbit.trans h)
    rw [hzero, h]
    rfl
  · have hone : state &&& 1 = 1 := UInt32.toNat_inj.mp (hbit.trans h)
    rw [hone, h]
    rfl

/-- A round multiplies the state by `X`. -/
theorem residue_round (state : UInt32) : residue (round state) = mod X * residue state := by
  have hshift := reflected_shift (w := 31) state.toNat_lt 0x82F63B78
  rw [residue, round_toNat, residue, ← map_mul, hshift, map_add, map_mul, ← castagnoli_eq,
    AdjoinRoot.mk_self, zero_mul, add_zero]

theorem residue_rounds (k : Nat) (state : UInt32) :
    residue (Nat.repeat round k state) = mod X ^ k * residue state := by
  induction k with
  | zero => simp [Nat.repeat]
  | succ k ih => rw [Nat.repeat, residue_round, ih, pow_succ', mul_assoc]

theorem residue_byte (p : UInt8) :
    residue p.toUInt32 = mod X ^ 24 * mod (reflected 8 p.toNat) := by
  have hhigh : p.toNat / 2 ^ 8 = 0 := Nat.div_eq_of_lt p.toNat_lt
  rw [residue, UInt8.toNat_toUInt32, reflected_add 8 24, hhigh, reflected_zero_right, add_zero,
    map_mul, map_pow]

/-- The state behind a string: that of the division of the string behind the state before it. -/
theorem residue_extend (state : UInt32) (p : Bytes) : residue (extend state p) =
    mod X ^ (8 * p.length) * residue state + mod X ^ 32 * mod (reflected (8 * p.length) (little p)) := by
  induction p generalizing state with
  | nil => simp [extend, reflected]
  | cons b p ih =>
    have hlow : reflected 8 (b.toNat + 256 * little p) = reflected 8 b.toNat := by
      rw [← reflected_mod 8 (b.toNat + _), ← reflected_mod 8 b.toNat]
      congr 1
      omega
    have hhigh : (b.toNat + 256 * little p) / 2 ^ 8 = little p := by
      have := b.toNat_lt
      omega
    rw [extend, ih, residue_rounds, residue_xor, residue_byte, List.length_cons, little,
      Nat.mul_succ, Nat.add_comm _ 8, reflected_add, hlow, hhigh, map_add, map_mul, map_pow]
    ring

theorem extend_append (state : UInt32) (p q : Bytes) :
    extend state (p ++ q) = extend (extend state p) q := by
  induction p generalizing state with
  | nil => rfl
  | cons b p ih => exact ih _

end

/-! ## The instructions -/

/-- The manual's CRC32 with operands of 8 and of 64 bits: operand and state are reflected, the
operand is shifted by 32 and the state by the width of the operand, and the remainder of their sum
modulo `0x11EDC6F41` is reflected back. The upper half of a 64-bit result is zero. -/
structure Crc32X86 (mm_crc32_u8 : UInt32 → UInt8 → UInt32)
    (mm_crc32_u64 : UInt64 → UInt64 → UInt64) : Prop where
  u8 : ∀ crc v, reflected 32 (mm_crc32_u8 crc v).toNat =
    (X ^ 32 * reflected 8 v.toNat + X ^ 8 * reflected 32 crc.toNat) %ₘ castagnoli
  u64 : ∀ crc v, reflected 32 (mm_crc32_u64 crc v).toNat =
    (X ^ 32 * reflected 64 v.toNat + X ^ 64 * reflected 32 crc.toNat) %ₘ castagnoli
  u64_upper : ∀ crc v, (mm_crc32_u64 crc v).toNat < 2 ^ 32

/-- The same of `CRC32CB` and `CRC32CX`. -/
structure Crc32Arm (crc32cb : UInt32 → UInt8 → UInt32) (crc32cd : UInt32 → UInt64 → UInt32) :
    Prop where
  cb : ∀ crc v, reflected 32 (crc32cb crc v).toNat =
    (X ^ 32 * reflected 8 v.toNat + X ^ 8 * reflected 32 crc.toNat) %ₘ castagnoli
  cd : ∀ crc v, reflected 32 (crc32cd crc v).toNat =
    (X ^ 32 * reflected 64 v.toNat + X ^ 64 * reflected 32 crc.toNat) %ₘ castagnoli

section
variable {p : Bytes} {k : Nat} {state s : UInt32}

theorem readLE_ofBytes (hk : k ≤ p.length) : (Mem.ofBytes p).readLE 0 k = little (p.take k) := by
  induction k generalizing p with
  | zero => rfl
  | succ k ih =>
    cases p with
    | nil => cases hk
    | cons b p =>
      have hshift : (Mem.ofBytes (b :: p)).shift 1 = Mem.ofBytes p := by
        funext i
        rw [Mem.shift_apply, Nat.add_comm]
        rfl
      rw [List.take_succ_cons, little, ← ih (Nat.le_of_succ_le_succ hk), ← hshift, Mem.readLE_shift]
      rfl

theorem load64_toNat (h : 8 ≤ p.length) : (load64 p).toNat = little (p.take 8) := by
  rw [load64, ← readLE_ofBytes h, UInt64.toNat_ofNat']
  exact Nat.mod_eq_of_lt (Mem.readLE_lt _ 8 0)

/-- A remainder with an operand of eight bytes is what the loop makes of them. -/
theorem extend_load64 (h : 8 ≤ p.length) (hs : reflected 32 s.toNat =
    (X ^ 32 * reflected 64 (load64 p).toNat + X ^ 64 * reflected 32 state.toNat) %ₘ castagnoli) :
    s = extend state (p.take 8) := by
  have hlen : (p.take 8).length = 8 := List.length_take_of_le h
  rw [← residue_inj, residue_extend, hlen, residue, hs, mod_modByMonic, load64_toNat h, map_add,
    map_mul, map_mul, map_pow, map_pow, residue, add_comm]

/-- A remainder with an operand of one byte is what the loop makes of it. -/
theorem extend_byte {v : UInt8} (hs : reflected 32 s.toNat =
    (X ^ 32 * reflected 8 v.toNat + X ^ 8 * reflected 32 state.toNat) %ₘ castagnoli) :
    s = extend state [v] := by
  have hv : little [v] = v.toNat := rfl
  rw [← residue_inj, residue_extend, residue, hs, mod_modByMonic, hv, map_add, map_mul, map_mul,
    map_pow, map_pow, residue, add_comm]
  rfl

theorem foldl_extend {step : UInt32 → UInt8 → UInt32} (h : ∀ state v, step state v = extend state [v])
    (state : UInt32) (p : Bytes) : p.foldl step state = extend state p := by
  induction p generalizing state with
  | nil => rfl
  | cons b p ih =>
    rw [List.foldl_cons, ih, h]
    rfl

/-- The blocks of eight, whatever form the loop keeps the state in. -/
theorem extendBlocks_eq {σ : Type} {step : σ → UInt64 → σ} (keep : UInt32 → σ)
    (h : ∀ state p, 8 ≤ p.length → step (keep state) (load64 p) = keep (extend state (p.take 8))) :
    ∀ (p : Bytes) (state : UInt32), ∃ blocks tail, p = blocks ++ tail ∧
      extendBlocks step (keep state) p = (keep (extend state blocks), tail) := by
  intro p
  induction hn : p.length using Nat.strongRecOn generalizing p with
  | ind n ih =>
    intro state
    rw [extendBlocks]
    by_cases hp : 8 ≤ p.length
    · rw [if_pos hp, h state p hp]
      obtain ⟨blocks, tail, he, hrun⟩ := ih (p.drop 8).length (by rw [List.length_drop]; omega)
        (p.drop 8) rfl (extend state (p.take 8))
      refine ⟨p.take 8 ++ blocks, tail, ?_, ?_⟩
      · rw [List.append_assoc, ← he, List.take_append_drop]
      · rw [hrun, extend_append]
    · rw [if_neg hp]
      exact ⟨[], p, rfl, rfl⟩

end

section
variable {mm_crc32_u8 crc32cb : UInt32 → UInt8 → UInt32} {mm_crc32_u64 : UInt64 → UInt64 → UInt64}
  {crc32cd : UInt32 → UInt64 → UInt32}

theorem extendX86_eq (h : Crc32X86 mm_crc32_u8 mm_crc32_u64) (state : UInt32) (p : Bytes) :
    extendX86 mm_crc32_u8 mm_crc32_u64 state p = extend state p := by
  have hstep : ∀ state p, 8 ≤ p.length →
      mm_crc32_u64 (UInt32.toUInt64 state) (load64 p) = (extend state (p.take 8)).toUInt64 := by
    intro state p hp
    have hlow : (mm_crc32_u64 state.toUInt64 (load64 p)).toUInt32.toNat =
        (mm_crc32_u64 state.toUInt64 (load64 p)).toNat := by
      rw [UInt64.toNat_toUInt32, Nat.mod_eq_of_lt (h.u64_upper _ _)]
    have hspec := h.u64 state.toUInt64 (load64 p)
    rw [UInt32.toNat_toUInt64, ← hlow] at hspec
    rw [← extend_load64 hp hspec]
    apply UInt64.toNat_inj.mp
    rw [UInt32.toNat_toUInt64, hlow]
  obtain ⟨blocks, tail, rfl, hrun⟩ := extendBlocks_eq UInt32.toUInt64 hstep p state
  rw [extendX86, hrun, extend_append]
  dsimp only
  rw [UInt32.toUInt32_toUInt64]
  exact foldl_extend (fun state v => extend_byte (h.u8 state v)) _ _

theorem extendArm_eq (h : Crc32Arm crc32cb crc32cd) (state : UInt32) (p : Bytes) :
    extendArm crc32cb crc32cd state p = extend state p := by
  have hstep : ∀ state p, 8 ≤ p.length → crc32cd (id state) (load64 p) = id (extend state (p.take 8)) :=
    fun state p hp => extend_load64 hp (h.cd state (load64 p))
  obtain ⟨blocks, tail, rfl, hrun⟩ := extendBlocks_eq id hstep p state
  rw [id_eq] at hrun
  rw [extendArm, hrun, extend_append]
  exact foldl_extend (fun state v => extend_byte (h.cb state v)) _ _

end

/-- Both paths over instructions end in the state of the portable one, and a string may be given in
parts. -/
theorem extend_hardware (mm_crc32_u8 : UInt32 → UInt8 → UInt32) (mm_crc32_u64 : UInt64 → UInt64 → UInt64)
    (crc32cb : UInt32 → UInt8 → UInt32) (crc32cd : UInt32 → UInt64 → UInt32)
    (hx86 : Crc32X86 mm_crc32_u8 mm_crc32_u64) (harm : Crc32Arm crc32cb crc32cd)
    (state : UInt32) (p : Bytes) :
    extendX86 mm_crc32_u8 mm_crc32_u64 state p = extend state p ∧
      extendArm crc32cb crc32cd state p = extend state p ∧
      ∀ q, extend state (p ++ q) = extend (extend state p) q ∧
        extendX86 mm_crc32_u8 mm_crc32_u64 state (p ++ q) =
          extendX86 mm_crc32_u8 mm_crc32_u64 (extendX86 mm_crc32_u8 mm_crc32_u64 state p) q ∧
        extendArm crc32cb crc32cd state (p ++ q) =
          extendArm crc32cb crc32cd (extendArm crc32cb crc32cd state p) q := by
  refine ⟨extendX86_eq hx86 state p, extendArm_eq harm state p, fun q => ⟨extend_append state p q, ?_, ?_⟩⟩
  · rw [extendX86_eq hx86, extendX86_eq hx86, extendX86_eq hx86, extend_append]
  · rw [extendArm_eq harm, extendArm_eq harm, extendArm_eq harm, extend_append]

/-! ## Instructions in software -/

def softU8 (crc : UInt32) (v : UInt8) : UInt32 := extend crc [v]

def softU64 (crc : UInt32) (v : UInt64) : UInt32 := extend crc (Mem.leBytes 8 v.toNat)

/-- A state with the residue of a polynomial is its remainder. -/
theorem reflected_eq_modByMonic {state : UInt32} {f : (ZMod 2)[X]} (h : residue state = mod f) :
    reflected 32 state.toNat = f %ₘ castagnoli := by
  have hmonic : castagnoli.Monic := by
    rw [castagnoli_eq]
    exact monic_X_pow_add (reflected_degree_lt 32 _)
  rw [← modByMonic_eq_of_dvd_sub hmonic (mod_eq_iff.mp h), eq_comm, modByMonic_eq_self_iff hmonic,
    castagnoli_degree]
  exact reflected_degree_lt 32 _

theorem softU8_spec (crc : UInt32) (v : UInt8) : reflected 32 (softU8 crc v).toNat =
    (X ^ 32 * reflected 8 v.toNat + X ^ 8 * reflected 32 crc.toNat) %ₘ castagnoli := by
  have hv : little [v] = v.toNat := rfl
  refine reflected_eq_modByMonic ?_
  rw [softU8, residue_extend, hv, map_add, map_mul, map_mul, map_pow, map_pow, residue, add_comm]
  rfl

theorem little_leBytes {v : Nat} (hv : v < 2 ^ 64) : little (Mem.leBytes 8 v) = v := by
  have hlen : (Mem.leBytes 8 v).length = 8 := Mem.length_leBytes 8 v
  have hread := readLE_ofBytes hlen.ge
  rw [List.take_of_length_le hlen.le] at hread
  rw [← hread, Mem.leBytes, Mem.readLE_congr fun i _ hi => Mem.ofBytes_slice (by omega), Mem.readLE_le]
  omega

theorem softU64_spec (crc : UInt32) (v : UInt64) : reflected 32 (softU64 crc v).toNat =
    (X ^ 32 * reflected 64 v.toNat + X ^ 64 * reflected 32 crc.toNat) %ₘ castagnoli := by
  refine reflected_eq_modByMonic ?_
  rw [softU64, residue_extend, Mem.length_leBytes, little_leBytes v.toNat_lt, map_add, map_mul, map_mul,
    map_pow, map_pow, residue, add_comm]

theorem soft_x86 : Crc32X86 softU8 fun crc v => (softU64 crc.toUInt32 v).toUInt64 where
  u8 := softU8_spec
  u64 crc v := by
    have hcrc : reflected 32 crc.toUInt32.toNat = reflected 32 crc.toNat := by
      rw [UInt64.toNat_toUInt32, reflected_mod]
    rw [UInt32.toNat_toUInt64, softU64_spec, hcrc]
  u64_upper crc v := by
    rw [UInt32.toNat_toUInt64]
    exact UInt32.toNat_lt _

theorem soft_arm : Crc32Arm softU8 softU64 := ⟨softU8_spec, softU64_spec⟩

/-- `"123456789"`: one block and a byte behind it. -/
theorem extend_hardware_digits :
    extendX86 softU8 (fun crc v => (softU64 crc.toUInt32 v).toUInt64) kInit
        [49, 50, 51, 52, 53, 54, 55, 56, 57] = extend kInit [49, 50, 51, 52, 53, 54, 55, 56, 57] ∧
      extendArm softU8 softU64 kInit [49, 50, 51, 52, 53, 54, 55, 56, 57] =
        extend kInit [49, 50, 51, 52, 53, 54, 55, 56, 57] := by
  obtain ⟨hx86, harm, -⟩ := extend_hardware softU8 (fun crc v => (softU64 crc.toUInt32 v).toUInt64)
    softU8 softU64 soft_x86 soft_arm kInit [49, 50, 51, 52, 53, 54, 55, 56, 57]
  exact ⟨hx86, harm⟩

end DbInternals.Crc32c
