import DbInternals.Core.Memory

/-!
# CRC32C

The three loops of `src/utils/crc32c.h`: the portable one, bitwise with the reflected Castagnoli
polynomial, and those over the CRC32 instructions of x86 and ARM, which are parameters.
-/
namespace DbInternals.Crc32c

def kInit : UInt32 := 0xFFFFFFFF

def kXorOut : UInt32 := 0xFFFFFFFF

/-- One round of the inner loop. mirrors src/utils/crc32c.h:54 -/
def round (state : UInt32) : UInt32 := (state >>> 1) ^^^ (0x82F63B78 &&& (0 - (state &&& 1)))

/-- mirrors src/utils/crc32c.h:51-56 -/
def extend (state : UInt32) : Bytes → UInt32
  | [] => state
  | p :: ps => extend (Nat.repeat round 8 (state ^^^ p.toUInt32)) ps

def finalize (state : UInt32) : UInt32 := state ^^^ kXorOut

def compute (p : Bytes) : UInt32 := finalize (extend kInit p)

/-- The test value of the source: `"123456789"`. -/
example : compute [49, 50, 51, 52, 53, 54, 55, 56, 57] = 0xE3069283 := by decide +kernel

/-! ## The loops over instructions -/

/-- `std::memcpy(&v, p, 8)` -/
def load64 (p : Bytes) : UInt64 := UInt64.ofNat ((Mem.ofBytes p).readLE 0 8)

/-- `while (n >= 8)`: the state, and the bytes left for the tail.
mirrors src/utils/crc32c.h:27-31 -/
def extendBlocks {σ : Type} (step : σ → UInt64 → σ) (s : σ) (p : Bytes) : σ × Bytes :=
  if 8 ≤ p.length then extendBlocks step (step s (load64 p)) (p.drop 8) else (s, p)
termination_by p.length
decreasing_by
  rw [List.length_drop]
  omega

/-- mirrors src/utils/crc32c.h:25-34 -/
def extendX86 (mm_crc32_u8 : UInt32 → UInt8 → UInt32) (mm_crc32_u64 : UInt64 → UInt64 → UInt64)
    (state : UInt32) (p : Bytes) : UInt32 :=
  let (s, p) := extendBlocks mm_crc32_u64 state.toUInt64 p
  p.foldl mm_crc32_u8 s.toUInt32

/-- mirrors src/utils/crc32c.h:36-43 -/
def extendArm (crc32cb : UInt32 → UInt8 → UInt32) (crc32cd : UInt32 → UInt64 → UInt32)
    (state : UInt32) (p : Bytes) : UInt32 :=
  let (state, p) := extendBlocks crc32cd state p
  p.foldl crc32cb state

end DbInternals.Crc32c
