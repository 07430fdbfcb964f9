import DbInternals.Core.Loops
import DbInternals.Index.Iterator
import DbInternals.Index.RecordKeys

/-!
# The loop of `seekFirstAfter`

`seekFirstAfter` of `src/index/b_plus_tree.h` turn by turn, with the conversions to
`slot_id_t`. A probe that runs into `hi` moves `hi` to `mid`, whether or not slot `hi` is live:
the slots from `mid` to `hi` were dead either way, and a live slot at `hi` is one the loop has
already decided or the end of the page.

Results:
* `seekTurn_loops`: the loop is left, and with what the search computes;
* `seekFirstAfter_upper`: over keys in order it ends at the strict upper bound.
-/
namespace DbInternals.Index

open Storage SlottedPage

/-- `static_cast<slot_id_t>`. mirrors src/common/types.h:8 -/
def asSlotId (i : Nat) : Nat := i % 2 ^ 16

/-- The bracket, and the slot the scan over dead slots has reached. -/
structure Seek where
  lo : Nat
  hi : Nat
  probe : Option Nat

def Seek.mid (s : Seek) : Nat := asSlotId (s.lo + (s.hi - s.lo) / 2)

/-- One turn of the outer loop, or of the scan inside it.
mirrors src/index/b_plus_tree.h:250-264 -/
def seekTurn (t : TreeConfig) (data : Mem) (key : Key) (s : Seek) : Except Fault (Seek ⊕ Nat) :=
  match s.probe with
  | none => .ok (if s.lo < s.hi then .inl { s with probe := some s.mid } else .inr s.lo)
  | some probe =>
    if slotLive data probe = false ∧ probe < s.hi then
      .ok (.inl { s with probe := some (asSlotId (probe + 1)) })
    else if probe ≥ s.hi then .ok (.inl { s with hi := s.mid, probe := none })
    else do
      let c ← (keyAt t data probe).compare key
      if c ≤ 0 then return .inl { s with lo := asSlotId (probe + 1), probe := none }
      else return .inl { s with hi := probe, probe := none }

section
variable {t : TreeConfig} {data : Mem} {key : Key} {lo hi p k fuel : Nat}

theorem slotLive_lt (h : slotLive data p = true) : p < getSlotCount data := by
  by_contra hp
  rw [slotLive, record_past (Nat.not_lt.mp hp)] at h
  cases h

theorem asSlotId_of_lt (h : p < 2 ^ 16) : asSlotId p = p := Nat.mod_eq_of_lt h

/-- The scan over dead slots. -/
theorem seek_scan {r : Except Fault Nat} (hhi : hi < 2 ^ 16) : ∀ {k p : Nat}, p + k = hi →
    Loops (seekTurn t data key) ⟨lo, hi, some (Search.probe (slotLive data) k p)⟩ r →
    Loops (seekTurn t data key) ⟨lo, hi, some p⟩ r
  | 0, _, _, h => h
  | k + 1, p, hp, h => by
    rw [Search.probe] at h
    cases hl : slotLive data p with
    | true => rwa [if_pos hl] at h
    | false =>
      rw [if_neg (Bool.eq_false_iff.mp hl)] at h
      have hturn : seekTurn t data key ⟨lo, hi, some p⟩ = .ok (.inl ⟨lo, hi, some (p + 1)⟩) := by
        rw [seekTurn]
        exact (if_pos ⟨hl, by dsimp only; omega⟩).trans (by rw [asSlotId_of_lt (by omega)])
      exact .again hturn (seek_scan hhi (by omega) h)

/-- The turns of the loop are those of the search. -/
theorem seek_search (hhi : hi < 2 ^ 16) (hf : hi ≤ lo + fuel) (hle : lo ≤ hi) :
    Loops (seekTurn t data key) ⟨lo, hi, none⟩ (Search.upperSparseM (slotLive data)
      (fun probe => return (← (keyAt t data probe).compare key) ≤ 0) fuel lo hi) := by
  induction fuel generalizing lo hi with
  | zero => exact .returns (by rw [seekTurn]; exact congrArg _ (if_neg (by dsimp only; omega)))
  | succ fuel ih =>
    rw [Search.upperSparseM]
    by_cases hlt : lo < hi
    case neg =>
      rw [if_neg hlt]
      exact .returns (congrArg _ (if_neg hlt))
    rw [if_pos hlt]
    have hmid : Seek.mid ⟨lo, hi, none⟩ = lo + (hi - lo) / 2 := asSlotId_of_lt (by dsimp only; omega)
    refine .again (congrArg _ (if_pos hlt)) ?_
    rw [hmid]
    dsimp only
    apply seek_scan (k := hi - (lo + (hi - lo) / 2)) hhi (by omega)
    obtain ⟨h1, h2, -, h4⟩ := Search.probe_spec (slotLive data) (hi - (lo + (hi - lo) / 2))
      (lo + (hi - lo) / 2)
    generalize Search.probe (slotLive data) _ _ = p at h1 h2 h4
    by_cases hp : p ≥ hi
    · rw [if_pos hp]
      have hturn : seekTurn t data key ⟨lo, hi, some p⟩ =
          .ok (.inl ⟨lo, lo + (hi - lo) / 2, none⟩) := by
        rw [seekTurn, ← hmid]
        exact (if_neg fun h => by dsimp only at h; omega).trans (if_pos hp)
      exact .again hturn (ih (by omega) (by omega) (by omega))
    · have hl : slotLive data p = true := h4 (by omega)
      have hturn : seekTurn t data key ⟨lo, hi, some p⟩ = do
          let c ← (keyAt t data p).compare key
          if c ≤ 0 then return .inl ⟨asSlotId (p + 1), hi, none⟩ else return .inl ⟨lo, p, none⟩ := by
        rw [seekTurn]
        exact (if_neg fun h => by rw [hl] at h; cases h.1).trans (if_neg hp)
      rw [if_neg hp]
      cases hc : (keyAt t data p).compare key with
      | error e => exact .throws (by rw [hturn, hc]; rfl)
      | ok c =>
        rw [hc, asSlotId_of_lt (by omega)] at hturn
        by_cases hc0 : c ≤ 0
        · have hnext := @ih (p + 1) hi hhi (by omega) (by omega)
          refine .again (hturn.trans (if_pos hc0)) ?_
          simpa [hc0, bind, Except.bind, pure, Except.pure] using hnext
        · have hnext := @ih lo p (by omega) (by omega) (by omega)
          refine .again (hturn.trans (if_neg hc0)) ?_
          simpa [hc0, bind, Except.bind, pure, Except.pure] using hnext

/-- On every page and for every key the loop is left, with what the search computes. -/
theorem seekTurn_loops {r : Except Fault Nat} :
    Loops (seekTurn t data key) ⟨0, getSlotCount data, none⟩ r ↔ r = seekFirstAfter t data key := by
  have h : Loops (seekTurn t data key) ⟨0, getSlotCount data, none⟩ (seekFirstAfter t data key) :=
    seek_search (getSlotCount_lt data) (by omega) (Nat.zero_le _)
  exact ⟨fun hr => hr.unique h, fun hr => hr ▸ h⟩

end

section
variable {t : TreeConfig} {data : Mem} {key : Key} {x : Value} {ks : Nat → Value}

/-- The strict upper bound over keys in order, whatever slots are dead. Keys are in order as floats
are: a NaN beside another key is not, and what is compared with one comes before. -/
theorem seekFirstAfter_upper (hty : key.typeId = t.keyTypeId) (hkey : key.toValue = .ok x)
    (hlive : ∀ i, slotLive data i = true → (keyAt t data i).toValue = .ok (ks i))
    (hsorted : ∀ i j, i < j → slotLive data i = true → slotLive data j = true → ks i ≤ ks j) :
    ∃ lo, Loops (seekTurn t data key) ⟨0, getSlotCount data, none⟩ (.ok lo) ∧
      seekFirstAfter t data key = .ok lo ∧ lo ≤ getSlotCount data ∧
      (∀ i < lo, slotLive data i = true →
        ks i ≤ x ∨ (ks i).rank = none ∨ x.rank = none) ∧
      ∀ i, lo ≤ i → slotLive data i = true → x < ks i := by
  classical
  have hrun : seekFirstAfter t data key = .ok (Search.upperSparse (slotLive data)
      (fun i => decide (¬ x < ks i)) (getSlotCount data) 0 (getSlotCount data)) := by
    refine Search.upperSparseM_eq (fun i hi => ?_) _ _ _
    obtain ⟨c, hc, -, hle⟩ := Key.compare_value ((keyAt_typeId data i).trans hty.symm) (hlive i hi) hkey
    rw [hc]
    exact congrArg Except.ok (decide_eq_decide.mpr hle)
  have hmono : ∀ i j, i < j → slotLive data i = true → slotLive data j = true →
      decide (¬ x < ks j) = true → decide (¬ x < ks i) = true := by
    intro i j hij hi hj hle
    exact decide_eq_true fun hlt =>
      of_decide_eq_true hle (Value.lt_trans_le hlt (hsorted i j hij hi hj))
  obtain ⟨hle, hbelow, habove⟩ := Search.upperSparse_spec hmono
    (show getSlotCount data ≤ 0 + getSlotCount data by omega) (Nat.zero_le _) (Nat.le_refl _)
    (fun i hi => absurd hi (Nat.not_lt_zero i))
    (fun i hi hi' => absurd hi' (Nat.not_lt.mpr hi))
  generalize Search.upperSparse _ _ _ _ _ = lo at hrun hle hbelow habove
  refine ⟨lo, seekTurn_loops.mpr hrun.symm, hrun, hle, fun i hi hl => ?_, fun i hi hl => ?_⟩
  · exact Value.not_lt_iff.mp (of_decide_eq_true (hbelow i hi hl))
  · exact not_not.mp (of_decide_eq_false (habove i hi (slotLive_lt hl) hl))

end

/-- Slot 0 with the float 1.0 and slot 3 with 2.5, two dead slots between them. -/
def gapPage : Mem :=
  ((((Mem.zero.writeLE 20 2 4).writeLE sizeofHeader 4 (4000 + 4 * 2 ^ 16)).writeLE
    (sizeofHeader + 3 * sizeofSlot) 4 (4004 + 4 * 2 ^ 16)).writeLE 4000 4 0x3f800000).writeLE
    4004 4 0x40200000

/-- A key of four bytes. -/
def floatKey (bits : Nat) : Key := Key.fromBytes .float 4 ⟨Mem.zero.writeLE 0 4 bits, 4⟩ 4

/-- The doubles 1.0 and 2.5. -/
def gapKeys (i : Nat) : Value :=
  if i = 0 then .float 0x3ff0000000000000 else .float 0x4004000000000000

theorem gapPage_spec : getSlotCount gapPage = 4 ∧ slotLive gapPage 1 = false ∧
    slotLive gapPage 2 = false ∧ (keyAt floatConfig gapPage 0).toValue = .ok (gapKeys 0) ∧
    (keyAt floatConfig gapPage 3).toValue = .ok (gapKeys 3) ∧
    (floatKey 0x3f800000).toValue = .ok (gapKeys 0) := by
  decide +kernel

theorem gapPage_live {i : Nat} (h : slotLive gapPage i = true) : i = 0 ∨ i = 3 := by
  obtain ⟨hn, h1, h2, -⟩ := gapPage_spec
  have hi := slotLive_lt h
  rw [hn] at hi
  match i with
  | 0 => exact .inl rfl
  | 1 => rw [h1] at h; cases h
  | 2 => rw [h2] at h; cases h
  | 3 => exact .inr rfl

theorem gapPage_keys (i : Nat) (h : slotLive gapPage i = true) :
    (keyAt floatConfig gapPage i).toValue = .ok (gapKeys i) := by
  obtain ⟨-, -, -, h0, h3, -⟩ := gapPage_spec
  obtain rfl | rfl := gapPage_live h
  · exact h0
  · exact h3

theorem gapPage_sorted (i j : Nat) (hij : i < j) (hi : slotLive gapPage i = true)
    (hj : slotLive gapPage j = true) : gapKeys i ≤ gapKeys j := by
  obtain rfl | rfl := gapPage_live hi <;> obtain rfl | rfl := gapPage_live hj
  · omega
  · decide +kernel
  · omega
  · omega

/-- The slot behind key 1.0, where the scan from slot 1 runs into the live slot 3. -/
theorem seekFirstAfter_upper_gap : ∃ lo,
    Loops (seekTurn floatConfig gapPage (floatKey 0x3f800000)) ⟨0, getSlotCount gapPage, none⟩
      (.ok lo) ∧
      seekFirstAfter floatConfig gapPage (floatKey 0x3f800000) = .ok lo ∧
      lo ≤ getSlotCount gapPage ∧
      (∀ i < lo, slotLive gapPage i = true →
        gapKeys i ≤ gapKeys 0 ∨ (gapKeys i).rank = none ∨ (gapKeys 0).rank = none) ∧
      ∀ i, lo ≤ i → slotLive gapPage i = true → gapKeys 0 < gapKeys i := by
  obtain ⟨-, -, -, -, -, hk⟩ := gapPage_spec
  exact seekFirstAfter_upper rfl hk gapPage_keys gapPage_sorted

/-- A NaN has no place among the keys of that page. -/
theorem seekFirstAfter_nan :
    (∀ i, slotLive gapPage i = true → (keyAt floatConfig gapPage i).toValue = .ok (gapKeys i)) ∧
    (∀ i j, i < j → slotLive gapPage i = true → slotLive gapPage j = true →
      gapKeys i ≤ gapKeys j) ∧
    (floatKey 0x7fc00000).toValue = .ok (.float 0x7ff8000000000000) ∧
    ¬ ∃ lo, Loops (seekTurn floatConfig gapPage (floatKey 0x7fc00000))
        ⟨0, getSlotCount gapPage, none⟩ (.ok lo) ∧
      (∀ i < lo, slotLive gapPage i = true → gapKeys i ≤ .float 0x7ff8000000000000) ∧
      ∀ i, lo ≤ i → slotLive gapPage i = true → Value.float 0x7ff8000000000000 < gapKeys i := by
  refine ⟨gapPage_keys, gapPage_sorted, by decide +kernel, ?_⟩
  rintro ⟨lo, -, hbelow, habove⟩
  have hlive : slotLive gapPage 0 = true := by decide +kernel
  by_cases hlo : 0 < lo
  · exact absurd (hbelow 0 hlo hlive) (by decide +kernel)
  · exact absurd (habove 0 (by omega) hlive) (by decide +kernel)

end DbInternals.Index
