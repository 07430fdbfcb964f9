import Mathlib.Data.List.Basic
import Mathlib.Algebra.BigOperators.Group.List.Basic
import Mathlib.Tactic.Common
import Mathlib.Algebra.GroupWithZero.Nat

/-!
# Intervals stacked against one another

An interval is its start and its length. `Downward` lists intervals from high
to low without overlap, `Stacked` without a gap either.

Results:
* `Downward.sum_le`: disjoint intervals are no longer than the range they are in;
* `Downward.stacked`: if they are as long as the range, there is no gap;
* `Stacked.cover`: then every point of the range is in one of them.
-/
namespace DbInternals

/-- Each interval ends at or before the start of the ones listed before it. -/
def Downward (ps : List (Nat × Nat)) : Prop := ps.Pairwise fun p q => q.1 + q.2 ≤ p.1

/-- The intervals fill `[lo, hi)` from the top, each one against the one before. -/
def Stacked : List (Nat × Nat) → Nat → Nat → Prop
  | [], hi, lo => hi = lo
  | p :: ps, hi, lo => p.1 + p.2 = hi ∧ Stacked ps p.1 lo

section
variable {ps : List (Nat × Nat)} {hi lo a : Nat}

theorem Downward.sum_le (hd : Downward ps) (hle : lo ≤ hi) (hlo : ∀ p ∈ ps, lo ≤ p.1)
    (hhi : ∀ p ∈ ps, p.1 + p.2 ≤ hi) : lo + (ps.map Prod.snd).sum ≤ hi := by
  induction ps generalizing hi with
  | nil => simpa using hle
  | cons p ps ih =>
    obtain ⟨hp, hd'⟩ := List.pairwise_cons.mp hd
    have h1 := hhi p List.mem_cons_self
    have h2 := ih hd' (hlo p List.mem_cons_self) (fun q hq => hlo q (List.mem_cons_of_mem p hq)) hp
    rw [List.map_cons, List.sum_cons]
    omega

theorem Downward.stacked (hd : Downward ps) (hlo : ∀ p ∈ ps, lo ≤ p.1)
    (hhi : ∀ p ∈ ps, p.1 + p.2 ≤ hi) (hs : lo + (ps.map Prod.snd).sum = hi) :
    Stacked ps hi lo := by
  induction ps generalizing hi with
  | nil => simpa [Stacked] using hs.symm
  | cons p ps ih =>
    obtain ⟨hp, hd'⟩ := List.pairwise_cons.mp hd
    have h1 := hhi p List.mem_cons_self
    have hlo' : ∀ q ∈ ps, lo ≤ q.1 := fun q hq => hlo q (List.mem_cons_of_mem p hq)
    have h2 := Downward.sum_le hd' (hlo p List.mem_cons_self) hlo' hp
    rw [List.map_cons, List.sum_cons] at hs
    exact ⟨by omega, ih hd' hlo' hp (by omega)⟩

theorem Stacked.le (h : Stacked ps hi lo) : lo ≤ hi := by
  induction ps generalizing hi with
  | nil => exact Nat.le_of_eq (Eq.symm h)
  | cons p ps ih =>
    have h1 := h.1
    have h2 := ih h.2
    omega

theorem Stacked.cover (h : Stacked ps hi lo) (h1 : lo ≤ a) (h2 : a < hi) :
    ∃ p ∈ ps, p.1 ≤ a ∧ a < p.1 + p.2 := by
  induction ps generalizing hi with
  | nil =>
    have h3 : hi = lo := h
    omega
  | cons p ps ih =>
    have h3 := h.1
    rcases Nat.lt_or_ge a p.1 with hlt | hge
    · obtain ⟨q, hq, hin⟩ := ih h.2 hlt
      exact ⟨q, List.mem_cons_of_mem p hq, hin⟩
    · exact ⟨p, List.mem_cons_self, hge, by omega⟩

end

end DbInternals
