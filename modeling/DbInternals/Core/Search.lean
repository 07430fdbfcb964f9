import Mathlib.Tactic.Common
import Mathlib.Data.List.Count

/-!
# Binary searches

`bisect` is the textbook loop over a test that is true, then false.
`lowerSparse` and `upperSparse` search positions of which only some are live:
a dead probe is replaced by the next live position. They differ in what they
do when the scan runs into `hi`: `lowerSparse` still uses a live position
found exactly at `hi` and carries it in `best`, `upperSparse` gives up the
upper half. The loops with the suffix `M` run a test that may fail.

Results:
* `bisectM_eq`, `lowerSparseM_eq`, `upperSparseM_eq`: a test that does not
  fail may be taken for its value;
* `bisect_le`, `bisect_boundary`: the boundary of a monotone test;
* `lowerResult_le`, `lowerResult_spec`: the first live position that fails;
* `upperSparse_spec`: the same boundary, live or not;
* `bisectM_fails`, `lowerSparseM_fails`, `upperSparseM_fails`: a test that always fails is met;
* `bisectM_checks`, `lowerSparseM_checks`: a test with more checks.
-/
namespace DbInternals.Search

variable {ε : Type}

/-- `while (lo < hi)` with `mid` halfway. -/
def bisect (test : Nat → Bool) : Nat → Nat → Nat → Nat
  | 0, lo, _ => lo
  | fuel + 1, lo, hi =>
    if lo < hi then
      if test (lo + (hi - lo) / 2) then bisect test fuel (lo + (hi - lo) / 2 + 1) hi
      else bisect test fuel lo (lo + (hi - lo) / 2)
    else lo

/-- `bisect` with a test that may fail. -/
def bisectM (test : Nat → Except ε Bool) : Nat → Nat → Nat → Except ε Nat
  | 0, lo, _ => .ok lo
  | fuel + 1, lo, hi =>
    if lo < hi then do
      let mid := lo + (hi - lo) / 2
      if ← test mid then bisectM test fuel (mid + 1) hi else bisectM test fuel lo mid
    else .ok lo

/-- The first live position from `p` on, or `p + n`. -/
def probe (live : Nat → Bool) : Nat → Nat → Nat
  | 0, p => p
  | n + 1, p => if live p then p else probe live n (p + 1)

/-- Lower bound over sparse positions: the last `best` and `lo`. -/
def lowerSparse (live test : Nat → Bool) : Nat → Nat → Nat → Nat → Nat × Nat
  | 0, lo, _, best => (best, lo)
  | fuel + 1, lo, hi, best =>
    if lo < hi then
      let mid := lo + (hi - lo) / 2
      let p := probe live (hi - mid) mid
      if live p then
        if test p then lowerSparse live test fuel (p + 1) hi best
        else lowerSparse live test fuel lo mid p
      else lowerSparse live test fuel lo mid best
    else (best, lo)

def lowerSparseM (live : Nat → Bool) (test : Nat → Except ε Bool) :
    Nat → Nat → Nat → Nat → Except ε (Nat × Nat)
  | 0, lo, _, best => .ok (best, lo)
  | fuel + 1, lo, hi, best =>
    if lo < hi then do
      let mid := lo + (hi - lo) / 2
      let p := probe live (hi - mid) mid
      if live p then
        if ← test p then lowerSparseM live test fuel (p + 1) hi best
        else lowerSparseM live test fuel lo mid p
      else lowerSparseM live test fuel lo mid best
    else .ok (best, lo)

/-- Upper bound over sparse positions. -/
def upperSparse (live test : Nat → Bool) : Nat → Nat → Nat → Nat
  | 0, lo, _ => lo
  | fuel + 1, lo, hi =>
    if lo < hi then
      let mid := lo + (hi - lo) / 2
      let p := probe live (hi - mid) mid
      if p ≥ hi then upperSparse live test fuel lo mid
      else if test p then upperSparse live test fuel (p + 1) hi
      else upperSparse live test fuel lo p
    else lo

def upperSparseM (live : Nat → Bool) (test : Nat → Except ε Bool) :
    Nat → Nat → Nat → Except ε Nat
  | 0, lo, _ => .ok lo
  | fuel + 1, lo, hi =>
    if lo < hi then do
      let mid := lo + (hi - lo) / 2
      let p := probe live (hi - mid) mid
      if p ≥ hi then upperSparseM live test fuel lo mid
      else if ← test p then upperSparseM live test fuel (p + 1) hi
      else upperSparseM live test fuel lo p
    else .ok lo

/-! ## Tests that do not fail -/

section
variable {test : Nat → Except ε Bool} {holds live : Nat → Bool}

theorem bisectM_eq : ∀ (fuel lo hi : Nat), (∀ i, lo ≤ i → i < hi → test i = .ok (holds i)) →
    bisectM test fuel lo hi = .ok (bisect holds fuel lo hi)
  | 0, _, _, _ => rfl
  | fuel + 1, lo, hi, ht => by
    simp only [bisectM, bisect]
    split
    case isFalse => rfl
    rw [ht _ (by omega) (by omega)]
    cases hb : holds (lo + (hi - lo) / 2) with
    | true => exact bisectM_eq fuel _ hi fun i _ _ => ht i (by omega) (by omega)
    | false => exact bisectM_eq fuel lo _ fun i _ _ => ht i (by omega) (by omega)

theorem lowerSparseM_eq (ht : ∀ i, live i = true → test i = .ok (holds i)) :
    ∀ (fuel lo hi best : Nat), lowerSparseM live test fuel lo hi best =
      .ok (lowerSparse live holds fuel lo hi best)
  | 0, _, _, _ => rfl
  | fuel + 1, lo, hi, best => by
    simp only [lowerSparseM, lowerSparse]
    split
    case isFalse => rfl
    generalize probe live _ _ = p
    cases hl : live p with
    | false => exact lowerSparseM_eq ht fuel lo _ best
    | true =>
      simp only [if_true, ht p hl]
      cases hb : holds p with
      | true => exact lowerSparseM_eq ht fuel _ hi best
      | false => exact lowerSparseM_eq ht fuel lo _ p

end

/-! ## Tests with more checks -/

section
variable {test test' : Nat → Except ε Bool} {live : Nat → Bool} {e : ε}

theorem bisectM_congr : ∀ (fuel lo hi : Nat), (∀ i, lo ≤ i → i < hi → test' i = test i) →
    bisectM test' fuel lo hi = bisectM test fuel lo hi
  | 0, _, _, _ => rfl
  | fuel + 1, lo, hi, ht => by
    simp only [bisectM]
    split
    case isFalse => rfl
    rw [ht _ (by omega) (by omega)]
    congr 1
    funext b
    cases b with
    | true => exact bisectM_congr fuel _ hi fun i _ _ => ht i (by omega) (by omega)
    | false => exact bisectM_congr fuel lo _ fun i _ _ => ht i (by omega) (by omega)

theorem lowerSparseM_congr (ht : ∀ i, live i = true → test' i = test i) :
    ∀ (fuel lo hi best : Nat), lowerSparseM live test' fuel lo hi best =
      lowerSparseM live test fuel lo hi best
  | 0, _, _, _ => rfl
  | fuel + 1, lo, hi, best => by
    simp only [lowerSparseM]
    split
    case isFalse => rfl
    generalize probe live _ _ = p
    cases hl : live p with
    | false => exact lowerSparseM_congr ht fuel lo _ best
    | true =>
      simp only [if_true, ht p hl]
      congr 1
      funext b
      cases b with
      | true => exact lowerSparseM_congr ht fuel _ hi best
      | false => exact lowerSparseM_congr ht fuel lo _ p

/-- A search whose test has more checks ends as before, or in one of them. -/
theorem bisectM_checks (ht : ∀ i, test' i = test i ∨ test' i = .error e) : ∀ (fuel lo hi : Nat),
    bisectM test' fuel lo hi = bisectM test fuel lo hi ∨ bisectM test' fuel lo hi = .error e
  | 0, _, _ => .inl rfl
  | fuel + 1, lo, hi => by
    simp only [bisectM]
    split
    case isFalse => exact .inl rfl
    obtain h | h := ht (lo + (hi - lo) / 2)
    · rw [h]
      cases test (lo + (hi - lo) / 2) with
      | error e' => exact .inl rfl
      | ok b =>
        cases b with
        | true => exact bisectM_checks ht fuel _ hi
        | false => exact bisectM_checks ht fuel lo _
    · rw [h]
      exact .inr rfl

theorem lowerSparseM_checks (ht : ∀ i, test' i = test i ∨ test' i = .error e) :
    ∀ (fuel lo hi best : Nat),
      lowerSparseM live test' fuel lo hi best = lowerSparseM live test fuel lo hi best ∨
        lowerSparseM live test' fuel lo hi best = .error e
  | 0, _, _, _ => .inl rfl
  | fuel + 1, lo, hi, best => by
    simp only [lowerSparseM]
    split
    case isFalse => exact .inl rfl
    generalize probe live _ _ = p
    split
    case isFalse => exact lowerSparseM_checks ht fuel lo _ best
    obtain h | h := ht p
    · rw [h]
      cases test p with
      | error e' => exact .inl rfl
      | ok b =>
        cases b with
        | true => exact lowerSparseM_checks ht fuel _ hi best
        | false => exact lowerSparseM_checks ht fuel lo _ p
    · rw [h]
      exact .inr rfl

end

section
variable {test : Nat → Bool}

/-! ## The dense search -/

theorem bisect_le (test : Nat → Bool) : ∀ (fuel lo hi : Nat), lo ≤ hi →
    lo ≤ bisect test fuel lo hi ∧ bisect test fuel lo hi ≤ hi
  | 0, lo, hi, hle => ⟨Nat.le_refl _, hle⟩
  | fuel + 1, lo, hi, hle => by
    simp only [bisect]
    split
    case isFalse => exact ⟨Nat.le_refl _, hle⟩
    split
    · have := bisect_le test fuel (lo + (hi - lo) / 2 + 1) hi (by omega); omega
    · have := bisect_le test fuel lo (lo + (hi - lo) / 2) (by omega); omega

/-- The boundary of a test that, once false, stays false. -/
theorem bisect_boundary (test : Nat → Bool) : ∀ (fuel lo hi : Nat), hi ≤ lo + fuel → lo ≤ hi →
    (∀ i j, lo ≤ i → i < j → j < hi → test j = true → test i = true) →
    (∀ i, lo ≤ i → i < bisect test fuel lo hi → test i = true) ∧
      ∀ i, bisect test fuel lo hi ≤ i → i < hi → test i = false
  | 0, lo, hi, hf, hle, _ => by simp only [bisect]; exact ⟨by omega, by omega⟩
  | fuel + 1, lo, hi, hf, hle, hmono => by
    simp only [bisect]
    split
    case isFalse => exact ⟨by omega, by omega⟩
    generalize hm : lo + (hi - lo) / 2 = mid
    cases hb : test mid with
    | true =>
      simp only [if_true]
      obtain ⟨h1, h2⟩ := bisect_boundary test fuel (mid + 1) hi (by omega) (by omega)
        fun i j _ h _ => hmono i j (by omega) h (by omega)
      refine ⟨fun i hi1 hi2 => ?_, h2⟩
      rcases Nat.lt_trichotomy i mid with hlt | rfl | hgt
      · exact hmono i mid hi1 hlt (by omega) hb
      · exact hb
      · exact h1 i (by omega) hi2
    | false =>
      simp only [Bool.false_eq_true, if_false]
      obtain ⟨h1, h2⟩ := bisect_boundary test fuel lo mid (by omega) (by omega)
        fun i j h h' _ => hmono i j h h' (by omega)
      refine ⟨h1, fun i hi1 hi2 => ?_⟩
      by_cases hlt : i < mid
      · exact h2 i hi1 hlt
      · cases hi' : test i with
        | false => rfl
        | true =>
          rcases Nat.lt_or_eq_of_le (Nat.not_lt.mp hlt) with h | rfl
          · rw [hmono mid i (by omega) h (by omega) hi'] at hb; cases hb
          · rw [hi'] at hb; cases hb

/-! ## Sparse positions -/

theorem probe_spec (live : Nat → Bool) : ∀ (n p : Nat), p ≤ probe live n p ∧
    probe live n p ≤ p + n ∧ (∀ i, p ≤ i → i < probe live n p → live i = false) ∧
    (probe live n p < p + n → live (probe live n p) = true)
  | 0, p => ⟨Nat.le_refl _, Nat.le_refl _, fun i h1 h2 => by simp only [probe] at h2; omega,
      fun h => by simp only [probe] at h; omega⟩
  | n + 1, p => by
    simp only [probe]
    cases hp : live p with
    | true => exact ⟨Nat.le_refl _, by simp, fun i h1 h2 => by simp at h2; omega, fun _ => hp⟩
    | false =>
      obtain ⟨h1, h2, h3, h4⟩ := probe_spec live n (p + 1)
      simp only [Bool.false_eq_true, if_false]
      refine ⟨by omega, by omega, fun i hi1 hi2 => ?_, fun h => h4 (by omega)⟩
      rcases Nat.lt_or_eq_of_le hi1 with h | rfl
      · exact h3 i h hi2
      · exact hp

variable {live : Nat → Bool}

/-- Whatever the test says, the search stays among the positions. -/
theorem lowerSparse_le {n : Nat} (hlive : ∀ i, live i = true → i < n) :
    ∀ {fuel lo hi best : Nat}, lo ≤ n → (lowerSparse live test fuel lo hi best).2 ≤ n
  | 0, lo, hi, best, hlo => hlo
  | fuel + 1, lo, hi, best, hlo => by
    simp only [lowerSparse]
    split
    case isFalse => exact hlo
    generalize probe live _ _ = p
    split
    · next hl =>
      have := hlive p hl
      split
      · exact lowerSparse_le hlive (by omega)
      · exact lowerSparse_le hlive hlo
    · exact lowerSparse_le hlive hlo

/-- The state of the lower-bound loop: live positions below `lo` pass, live
positions from `hi` on fail, and `best` is the first of the latter. -/
structure LowerInv (live test : Nat → Bool) (n lo hi best : Nat) : Prop where
  lo_le : lo ≤ hi
  hi_le : hi ≤ n
  below : ∀ i < lo, live i = true → test i = true
  above : ∀ i, hi ≤ i → i < n → live i = true → test i = false ∧ best ≤ i
  best : best = n ∨ hi ≤ best ∧ best < n ∧ live best = true

theorem lowerSparse_inv {n : Nat} (hlive : ∀ i, live i = true → i < n)
    (hmono : ∀ i j, i < j → live i = true → live j = true → test j = true → test i = true) :
    ∀ {fuel lo hi best : Nat}, hi ≤ lo + fuel → LowerInv live test n lo hi best →
    ∃ best' hi', lowerSparse live test fuel lo hi best = (best', hi') ∧
      LowerInv live test n hi' hi' best'
  | 0, lo, hi, best, hf, h => by
    have := h.lo_le
    obtain rfl : lo = hi := by omega
    exact ⟨best, lo, rfl, h⟩
  | fuel + 1, lo, hi, best, hf, h => by
    have hle := h.lo_le
    simp only [lowerSparse]
    split
    case isFalse =>
      obtain rfl : lo = hi := by omega
      exact ⟨best, lo, rfl, h⟩
    next hlt =>
    generalize hm : lo + (hi - lo) / 2 = mid
    obtain ⟨h1, h2, h3, h4⟩ := probe_spec live (hi - mid) mid
    generalize probe live (hi - mid) mid = p at h1 h2 h3 h4
    have hin := h.hi_le
    cases hl : live p with
    | false =>
      -- the scan ran to `hi` and found nothing there either
      simp only [Bool.false_eq_true, if_false]
      have hp : p = hi := by
        by_contra hne
        rw [h4 (by omega)] at hl; cases hl
      refine lowerSparse_inv hlive hmono (by omega) ⟨by omega, by omega, h.below, ?_, ?_⟩
      · intro i hi1 hi2 hli
        by_cases hih : i < hi
        · rw [h3 i hi1 (by omega)] at hli; cases hli
        · exact h.above i (by omega) hi2 hli
      · rcases h.best with hb | ⟨hb1, hb2⟩
        · exact .inl hb
        · exact .inr ⟨by omega, hb2⟩
    | true =>
      have hpn := hlive p hl
      simp only [if_true]
      cases hb : test p with
      | true =>
        -- a position at `hi` or above would fail the test
        have hph : p < hi := by
          by_contra hc
          have := (h.above p (by omega) hpn hl).1
          rw [hb] at this; cases this
        refine lowerSparse_inv hlive hmono (by omega) ⟨by omega, hin, ?_, h.above, h.best⟩
        intro i hi1 hli
        rcases Nat.lt_or_eq_of_le (Nat.lt_succ_iff.mp hi1) with hip | rfl
        · exact hmono i p hip hli hl hb
        · exact hb
      | false =>
        refine lowerSparse_inv hlive hmono (by omega)
          ⟨by omega, by omega, h.below, ?_, .inr ⟨h1, hpn, hl⟩⟩
        intro i hi1 hi2 hli
        have hpi : p ≤ i := by
          by_contra hc
          rw [h3 i hi1 (by omega)] at hli; cases hli
        refine ⟨?_, hpi⟩
        cases hh : test i with
        | false => rfl
        | true =>
          rcases Nat.lt_or_eq_of_le hpi with hlt' | rfl
          · rw [hmono p i hlt' hl hli hh] at hb; cases hb
          · rw [hh] at hb; cases hb

/-- The position `lowerSparse` stands for: `best` if it found one. -/
def lowerResult (n : Nat) (r : Nat × Nat) : Nat := if r.1 < n then r.1 else r.2

theorem lowerResult_le {n : Nat} (hlive : ∀ i, live i = true → i < n) :
    lowerResult n (lowerSparse live test n 0 n n) ≤ n := by
  rw [lowerResult]
  split
  · omega
  · exact lowerSparse_le hlive (Nat.zero_le n)

/-- It separates the live positions that pass from those that fail, and is
the first of the latter if there is one. -/
theorem lowerResult_spec (live test : Nat → Bool) {n : Nat} (hlive : ∀ i, live i = true → i < n)
    (hmono : ∀ i j, i < j → live i = true → live j = true → test j = true → test i = true) :
    (∀ i < lowerResult n (lowerSparse live test n 0 n n), live i = true → test i = true) ∧
      (∀ i, lowerResult n (lowerSparse live test n 0 n n) ≤ i → live i = true → test i = false) ∧
      ((∃ i, live i = true ∧ test i = false) →
        live (lowerResult n (lowerSparse live test n 0 n n)) = true) := by
  obtain ⟨best, lo, e, h⟩ := lowerSparse_inv hlive hmono (show n ≤ 0 + n by omega)
    ⟨Nat.zero_le n, Nat.le_refl _, by omega, by omega, .inl rfl⟩
  have hall : ∀ i, live i = true → i < lo ∧ test i = true ∨ lo ≤ i ∧ test i = false ∧ best ≤ i := by
    intro i hli
    by_cases hil : i < lo
    · exact .inl ⟨hil, h.below i hil hli⟩
    · exact .inr ⟨by omega, h.above i (by omega) (hlive i hli) hli⟩
  have hlo := h.hi_le
  rw [e, lowerResult]
  refine ⟨?_, ?_, ?_⟩
  · intro i hi hli
    rcases hall i hli with h1 | h1
    · exact h1.2
    · have := hlive i hli; split at hi <;> omega
  · intro i hi hli
    rcases hall i hli with h1 | h1
    · rcases h.best with hb | hb <;> split at hi <;> omega
    · exact h1.2.1
  · rintro ⟨i, hli, hf⟩
    rcases hall i hli with h1 | h1
    · rw [h1.2] at hf; cases hf
    · have := hlive i hli
      rcases h.best with hb | hb
      · omega
      · rw [if_pos hb.2.1]; exact hb.2.2

end

section
variable {live holds : Nat → Bool}

/-- A probe short of the end is live, so only live positions are tested. -/
theorem upperSparseM_eq {test : Nat → Except ε Bool}
    (ht : ∀ i, live i = true → test i = .ok (holds i)) :
    ∀ (fuel lo hi : Nat), upperSparseM live test fuel lo hi =
      .ok (upperSparse live holds fuel lo hi)
  | 0, _, _ => rfl
  | fuel + 1, lo, hi => by
    simp only [upperSparseM, upperSparse]
    split
    case isFalse => rfl
    generalize hm : lo + (hi - lo) / 2 = mid
    obtain ⟨h1, h2, h3, h4⟩ := probe_spec live (hi - mid) mid
    generalize probe live _ _ = p at h1 h2 h3 h4
    split
    · exact upperSparseM_eq ht fuel lo mid
    rw [ht p (h4 (by omega))]
    cases hb : holds p with
    | true => exact upperSparseM_eq ht fuel _ hi
    | false => exact upperSparseM_eq ht fuel lo p

/-- A search that meets a live position tests one. -/
theorem upperSparseM_fails {test : Nat → Except ε Bool} {e : ε} {i : Nat}
    (ht : ∀ j, live j = true → test j = .error e) (hl : live i = true) :
    ∀ (fuel lo hi : Nat), hi ≤ lo + fuel → lo ≤ i → i < hi →
      upperSparseM live test fuel lo hi = .error e
  | 0, lo, hi, hf, hlo, hhi => by omega
  | fuel + 1, lo, hi, hf, hlo, hhi => by
    simp only [upperSparseM]
    rw [if_pos (by omega)]
    generalize hm : lo + (hi - lo) / 2 = mid
    obtain ⟨h1, h2, h3, h4⟩ := probe_spec live (hi - mid) mid
    generalize probe live _ _ = p at h1 h2 h3 h4
    split
    · next hp =>
      refine upperSparseM_fails ht hl fuel lo mid (by omega) hlo ?_
      by_contra hc
      have hdead := h3 i (by omega) (by omega)
      rw [hl] at hdead
      cases hdead
    · rw [ht p (h4 (by omega))]
      rfl

/-- The lower-bound search meets a live position as well. -/
theorem lowerSparseM_fails {test : Nat → Except ε Bool} {e : ε} {i : Nat}
    (ht : ∀ j, live j = true → test j = .error e) (hl : live i = true) :
    ∀ (fuel lo hi best : Nat), hi ≤ lo + fuel → lo ≤ i → i < hi →
      lowerSparseM live test fuel lo hi best = .error e
  | 0, lo, hi, best, hf, hlo, hhi => by omega
  | fuel + 1, lo, hi, best, hf, hlo, hhi => by
    simp only [lowerSparseM]
    rw [if_pos (by omega)]
    generalize hm : lo + (hi - lo) / 2 = mid
    obtain ⟨h1, h2, h3, h4⟩ := probe_spec live (hi - mid) mid
    generalize probe live (hi - mid) mid = p at h1 h2 h3 h4
    cases hp : live p with
    | true =>
      simp only [if_true, ht p hp]
      rfl
    | false =>
      have hend : p = hi := by
        by_contra hne
        have hlive := h4 (by omega)
        rw [hp] at hlive
        cases hlive
      refine lowerSparseM_fails ht hl fuel lo mid best (by omega) hlo ?_
      by_contra hc
      have hdead := h3 i (by omega) (by omega)
      rw [hl] at hdead
      cases hdead

/-- `upperSparse` ends at the boundary of the live positions. -/
theorem upperSparse_spec {n : Nat}
    (hmono : ∀ i j, i < j → live i = true → live j = true → holds j = true → holds i = true) :
    ∀ {fuel lo hi : Nat}, hi ≤ lo + fuel → lo ≤ hi → hi ≤ n →
    (∀ i < lo, live i = true → holds i = true) →
    (∀ i, hi ≤ i → i < n → live i = true → holds i = false) →
    upperSparse live holds fuel lo hi ≤ n ∧
      (∀ i < upperSparse live holds fuel lo hi, live i = true → holds i = true) ∧
      ∀ i, upperSparse live holds fuel lo hi ≤ i → i < n → live i = true → holds i = false
  | 0, lo, hi, hf, hle, hn, hb, ha => by
    obtain rfl : lo = hi := by omega
    exact ⟨hn, hb, ha⟩
  | fuel + 1, lo, hi, hf, hle, hn, hb, ha => by
    simp only [upperSparse]
    split
    case isFalse =>
      obtain rfl : lo = hi := by omega
      exact ⟨hn, hb, ha⟩
    next hlt =>
    generalize hm : lo + (hi - lo) / 2 = mid
    obtain ⟨h1, h2, h3, h4⟩ := probe_spec live (hi - mid) mid
    generalize probe live (hi - mid) mid = p at h1 h2 h3 h4
    split
    · refine upperSparse_spec hmono (by omega) (by omega) (by omega) hb fun i hi1 hi2 hli => ?_
      by_cases hih : i < hi
      · rw [h3 i hi1 (by omega)] at hli; cases hli
      · exact ha i (by omega) hi2 hli
    next hp =>
    have hl := h4 (by omega)
    cases hh : holds p with
    | true =>
      refine upperSparse_spec hmono (by omega) (by omega) hn (fun i hi1 hli => ?_) ha
      rcases Nat.lt_or_eq_of_le (Nat.lt_succ_iff.mp hi1) with hip | rfl
      · exact hmono i p hip hli hl hh
      · exact hh
    | false =>
      refine upperSparse_spec hmono (by omega) (by omega) (by omega) hb fun i hi1 hi2 hli => ?_
      cases hi' : holds i with
      | false => rfl
      | true =>
        rcases Nat.lt_or_eq_of_le hi1 with hlt' | rfl
        · rw [hmono p i hlt' hl hli hi'] at hh; cases hh
        · rw [hi'] at hh; cases hh

end

end DbInternals.Search
