import DbInternals.Logging.LogRecord
import DbInternals.Utils.CrcBursts

/-!
# Damaged log records

A reader recomputes the CRC with its field zeroed. Damage outside the field leaves the stored
CRC as it was and reaches the string the CRC is taken of, so that the two differ wherever the CRC
detects the damage.

Results:
* `damaged_crc`: a burst outside the field is detected;
* `crc_detects_bursts`: in any string, and in the records `append` lays out.
-/
namespace DbInternals.Logging

open Mem Crc32c

/-- The strings differ outside the CRC field only. -/
def SparesCrc (r r' : Bytes) : Prop := ∀ i, 4 ≤ i → i < 8 → ofBytes r i = ofBytes r' i

/-- The strings differ within the `k` bytes at `o` only. -/
def DiffersAt (o k : Nat) (r r' : Bytes) : Prop :=
  ∀ i, ofBytes r i ≠ ofBytes r' i → o ≤ i ∧ i < o + k

section
variable {r r' : Bytes} {o k : Nat}

theorem ofBytes_zeroCrc (r : Bytes) (i : Nat) :
    ofBytes (zeroCrc r) i = if 4 ≤ i ∧ i < 8 then 0 else ofBytes r i := by
  by_cases hi : i < r.length
  · rw [zeroCrc, ofBytes_slice hi]
    split
    · next h =>
      rw [writeLE, copy_in h.1 (by omega)]
      simp [le]
    · next h => exact writeLE_out (by omega)
  · have hout : ∀ p : Bytes, p.length = r.length → ofBytes p i = 0 := by
      intro p hp
      rw [ofBytes, List.getD_eq_getElem?_getD, List.getElem?_eq_none (by omega)]
      rfl
    rw [hout (zeroCrc r) (length_slice _ _ _), hout r rfl]
    split <;> rfl

theorem length_zeroCrc (r : Bytes) : (zeroCrc r).length = r.length := length_slice _ _ _

/-- Where the strings without the field differ, so do those with it. -/
theorem bitAt_zeroCrc_ne {i : Nat} (h : bitAt (zeroCrc r) i ≠ bitAt (zeroCrc r') i) :
    bitAt r i ≠ bitAt r' i := by
  simp only [bitAt, ofBytes_zeroCrc] at h ⊢
  split at h
  · exact absurd rfl h
  · exact h

/-- Strings that differ, but not in the field, differ without it. -/
theorem zeroCrc_ne (hlen : r.length = r'.length) (hne : r ≠ r') (hcrc : SparesCrc r r') :
    zeroCrc r ≠ zeroCrc r' := by
  intro heq
  refine hne (eq_of_bitAt hlen fun i => ?_)
  by_cases hi : 4 ≤ i / 8 ∧ i / 8 < 8
  · rw [bitAt, bitAt, hcrc _ hi.1 hi.2]
  · have hbyte := congrArg (fun p => ofBytes p (i / 8)) heq
    simp only [ofBytes_zeroCrc, if_neg hi] at hbyte
    rw [bitAt, bitAt, hbyte]

/-- A burst outside the field of a record with the right CRC is detected. -/
theorem damaged_crc (hlen : r.length = r'.length) (hne : r ≠ r') (hburst : Burst 32 r r')
    (hcrc : SparesCrc r r') (hright : (compute (zeroCrc r')).toNat = (ofBytes r').readLE 4 4) :
    (compute (zeroCrc r)).toNat ≠ (ofBytes r).readLE 4 4 := by
  have hzero : (zeroCrc r).length = (zeroCrc r').length := by
    rw [length_zeroCrc, length_zeroCrc, hlen]
  have hstored : (ofBytes r).readLE 4 4 = (ofBytes r').readLE 4 4 :=
    readLE_congr fun i h1 h2 => hcrc i h1 h2
  obtain ⟨a, hbits⟩ := hburst
  have hcompute : compute (zeroCrc r) ≠ compute (zeroCrc r') :=
    compute_ne hzero (zeroCrc_ne hlen hne hcrc) ⟨a, fun i hi => hbits i (bitAt_zeroCrc_ne hi)⟩
  rw [hstored, ← hright]
  exact fun h => hcompute (UInt32.toNat_inj.mp h)

/-- At most four bytes in a row are a burst. -/
theorem DiffersAt.burst (h : DiffersAt o 4 r r') : Burst 32 r r' := by
  refine ⟨8 * o, fun i hi => ?_⟩
  have hbyte : ofBytes r (i / 8) ≠ ofBytes r' (i / 8) := fun heq => hi (by rw [bitAt, bitAt, heq])
  obtain ⟨h1, h2⟩ := h _ hbyte
  omega

theorem DiffersAt.mono (h : DiffersAt o k r r') (hk : k ≤ 4) : DiffersAt o 4 r r' := fun i hi => by
  obtain ⟨h1, h2⟩ := h i hi
  exact ⟨h1, by omega⟩

end

/-- A burst of at most 32 bits changes the CRC of a string; in a record it makes the CRC a reader
recomputes differ from the stored one if it spares the field, be it bits or up to four bytes. -/
theorem crc_detects_bursts :
    (∀ p q : Bytes, p.length = q.length → p ≠ q → Burst 32 p q → compute p ≠ compute q) ∧
    ∀ lrh before after lsn, sizeofLogRecordHeader + before.length + after.length < 2 ^ 32 →
      ∀ r : Bytes, r.length = (recordOf lrh before after lsn).length →
        r ≠ recordOf lrh before after lsn → SparesCrc r (recordOf lrh before after lsn) →
        (Burst 32 r (recordOf lrh before after lsn) ∨
          ∃ o k, k ≤ 4 ∧ DiffersAt o k r (recordOf lrh before after lsn)) →
        (compute (zeroCrc r)).toNat ≠ (ofBytes r).readLE 4 4 := by
  refine ⟨fun p q => compute_ne, fun lrh before after lsn hsize r hlen hne hcrc hdamage => ?_⟩
  have hburst : Burst 32 r (recordOf lrh before after lsn) := by
    obtain h | ⟨o, k, hk, h⟩ := hdamage
    · exact h
    · exact (h.mono hk).burst
  exact damaged_crc hlen hne hburst hcrc (crc_recordOf hsize)

/-- A flipped bit in the type of a record without images. -/
theorem crc_detects_bursts_type : compute [1, 0] ≠ compute [0, 0] ∧
    (compute (zeroCrc ((recordOf {} [] [] 0).modify 60 (· ^^^ 1)))).toNat ≠
      (ofBytes ((recordOf {} [] [] 0).modify 60 (· ^^^ 1))).readLE 4 4 := by
  obtain ⟨hany, hrecord⟩ := crc_detects_bursts
  have hflip : ∀ i, i ≠ 60 →
      ofBytes ((recordOf {} [] [] 0).modify 60 (· ^^^ 1)) i = ofBytes (recordOf {} [] [] 0) i := by
    intro i hi
    rw [ofBytes, ofBytes, List.getD_eq_getElem?_getD, List.getD_eq_getElem?_getD,
      List.getElem?_modify_ne _ _ hi.symm]
  refine ⟨hany [1, 0] [0, 0] rfl (by decide) ⟨0, fun i hi => ?_⟩,
    hrecord {} [] [] 0 (by decide) _ (List.length_modify _ _ _) (fun heq => ?_)
      (fun i _ _ => hflip i (by omega)) (.inr ⟨60, 1, by decide, fun i hi => ?_⟩)⟩
  · by_contra hout
    refine hi ?_
    rw [bitAt, bitAt, ofBytes, ofBytes, List.getD_eq_getElem?_getD, List.getD_eq_getElem?_getD,
      List.getElem?_eq_none (by simp; omega), List.getElem?_eq_none (by simp; omega)]
  · have hlen : (recordOf {} [] [] 0).length = 64 := length_recordOf (by decide)
    have hsome : (recordOf {} [] [] 0)[60]? = some (recordOf {} [] [] 0)[60] :=
      List.getElem?_eq_getElem (by omega)
    have hbyte := congrArg (·[60]?) heq
    simp only [List.getElem?_modify_eq, hsome, Option.map_eq_map, Option.map_some, Option.some.injEq] at hbyte
    have hflipped := congrArg (·.toNat.testBit 0) hbyte
    simp only [UInt8.toNat_xor, Nat.testBit_xor] at hflipped
    exact absurd hflipped (by cases Nat.testBit _ 0 <;> decide)
  · by_contra hout
    exact hi (hflip i (by omega))

end DbInternals.Logging
