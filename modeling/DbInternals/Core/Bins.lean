import Mathlib.Algebra.BigOperators.Group.Finset.Basic
import Mathlib.Algebra.Order.BigOperators.Group.Finset
import Mathlib.Data.Finset.Card

/-!
# Bins that are halved when full

Things come into bins one at a time. One that comes to a full bin has the bin halved into two
instead, and is gone. A bin is far from full after that, so each new one is paid for by what came
in since: the potential of a bin is what it holds over the larger half.

Results:
* `Paid.put`, `Paid.halve`, `Paid.keep`: what can happen to the bins;
* `Paid.bins_le`: so there is at most one bin more for each `cap / 2 + 1` things;
* `HalfFull.card_le`: if nothing is taken out, bins are at least half full.
-/
namespace DbInternals.Bins

variable {π : Type} [DecidableEq π]

/-- What a bin holds over the larger half of what it has room for. -/
def excess (cap load : ℕ) : ℕ := load - (cap - cap / 2)

/-- The `n` things that came paid for the bins but one, and for what they hold over the half. -/
def Paid (cap : ℕ) (bins : Finset π) (load : π → ℕ) (n : ℕ) : Prop :=
  bins.card * (cap / 2 + 1) + ∑ p ∈ bins, excess cap (load p) ≤ n + (cap / 2 + 1)

/-- Where there are two bins, none holds less than the smaller half. -/
def HalfFull (cap : ℕ) (bins : Finset π) (load : π → ℕ) : Prop :=
  2 ≤ bins.card → ∀ p ∈ bins, cap / 2 ≤ load p

section
variable {cap n : ℕ} {bins : Finset π} {load load' : π → ℕ} {p q : π}

theorem excess_mono {a b : ℕ} (h : a ≤ b) : excess cap a ≤ excess cap b := Nat.sub_le_sub_right h _

theorem excess_half {a : ℕ} (h : a ≤ cap - cap / 2) : excess cap a = 0 := Nat.sub_eq_zero_of_le h

theorem excess_full : excess cap cap = cap / 2 := by
  have := Nat.div_le_self cap 2
  unfold excess
  omega

omit [DecidableEq π] in
theorem paid_one (p : π) (h : load p = 0) : Paid cap {p} load 0 := by
  rw [Paid, Finset.card_singleton, Finset.sum_singleton, h, excess_half (Nat.zero_le _)]
  omega

omit [DecidableEq π] in
/-- No bin holds more than before. -/
theorem Paid.keep (h : Paid cap bins load n) (hl : ∀ q ∈ bins, load' q ≤ load q) :
    Paid cap bins load' n := by
  have hsum : ∑ q ∈ bins, excess cap (load' q) ≤ ∑ q ∈ bins, excess cap (load q) :=
    Finset.sum_le_sum fun q hq => excess_mono (hl q hq)
  unfold Paid at *
  omega

/-- One thing more in one bin. -/
theorem Paid.put (h : Paid cap bins load n) (hp : p ∈ bins) (hl : load' p ≤ load p + 1)
    (hrest : ∀ q ∈ bins, q ≠ p → load' q = load q) : Paid cap bins load' (n + 1) := by
  have hsum : ∑ q ∈ bins.erase p, excess cap (load' q) = ∑ q ∈ bins.erase p, excess cap (load q) :=
    Finset.sum_congr rfl fun q hq => by
      rw [hrest q (Finset.mem_of_mem_erase hq) (Finset.ne_of_mem_erase hq)]
  have hone : excess cap (load' p) ≤ excess cap (load p) + 1 := by
    unfold excess
    omega
  unfold Paid at *
  rw [← Finset.add_sum_erase _ _ hp] at h ⊢
  omega

/-- A full bin is halved into itself and a new one: its potential pays for the new bin. -/
theorem Paid.halve (h : Paid cap bins load n) (hp : p ∈ bins) (hq : q ∉ bins)
    (hfull : load p = cap) (hlp : load' p ≤ cap - cap / 2) (hlq : load' q ≤ cap - cap / 2)
    (hrest : ∀ r ∈ bins, r ≠ p → load' r = load r) : Paid cap (insert q bins) load' (n + 1) := by
  have hsum : ∑ r ∈ bins.erase p, excess cap (load' r) = ∑ r ∈ bins.erase p, excess cap (load r) :=
    Finset.sum_congr rfl fun r hr => by
      rw [hrest r (Finset.mem_of_mem_erase hr) (Finset.ne_of_mem_erase hr)]
  unfold Paid at *
  rw [Finset.card_insert_of_notMem hq, Finset.sum_insert hq, excess_half hlq,
    ← Finset.add_sum_erase _ _ hp, excess_half hlp, hsum, Nat.succ_mul]
  rw [← Finset.add_sum_erase _ _ hp, hfull, excess_full] at h
  omega

omit [DecidableEq π] in
/-- Each bin but the first took `cap / 2 + 1` things. -/
theorem Paid.bins_le (h : Paid cap bins load n) : (bins.card - 1) * (cap / 2 + 1) ≤ n := by
  unfold Paid at h
  rw [Nat.sub_mul, one_mul]
  omega

/-! ## Nothing is taken out -/

omit [DecidableEq π] in
theorem halfFull_one (p : π) : HalfFull cap {p} load := fun h => by
  rw [Finset.card_singleton] at h
  omega

omit [DecidableEq π] in
theorem HalfFull.grow (h : HalfFull cap bins load) (hl : ∀ q ∈ bins, load q ≤ load' q) :
    HalfFull cap bins load' := fun h2 q hq => (h h2 q hq).trans (hl q hq)

theorem HalfFull.halve (h : HalfFull cap bins load) (hp : p ∈ bins) (hlp : cap / 2 ≤ load' p)
    (hlq : cap / 2 ≤ load' q) (hrest : ∀ r ∈ bins, r ≠ p → load' r = load r) :
    HalfFull cap (insert q bins) load' := by
  rintro - r hr
  by_cases hrq : r = q
  · exact hrq ▸ hlq
  by_cases hrp : r = p
  · exact hrp ▸ hlp
  have hrb := Finset.mem_of_mem_insert_of_ne hr hrq
  rw [hrest r hrb hrp]
  -- there were two bins already, `p` and `r`
  refine h ?_ r hrb
  exact Finset.one_lt_card.mpr ⟨r, hrb, p, hp, hrp⟩

omit [DecidableEq π] in
/-- The bins are few against what is in them. -/
theorem HalfFull.card_le (h : HalfFull cap bins load) (h2 : 2 ≤ bins.card) :
    bins.card * (cap / 2) ≤ ∑ p ∈ bins, load p :=
  Finset.card_nsmul_le_sum bins load (cap / 2) (h h2)

end

end DbInternals.Bins
