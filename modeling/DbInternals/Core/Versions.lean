import Mathlib.Order.Monotone.Basic
import DbInternals.Core.LTS

/-!
# Values that are written back

`content i` is a value at time `i` and `durable i` the copy that outlives it. A copy that is only
ever left alone or brought up to date is the value of some time before; `version` is that time.

Results:
* `exists_version`: versions do not go back, nor before a time the copy was up to date;
* `Path.versions`: the versions along a path of a system.
-/
namespace DbInternals

section
variable {A : Type*}

open Classical in
/-- The last time the copy was up to date. -/
noncomputable def version (content durable : ℕ → A) : ℕ → ℕ
  | 0 => 0
  | i + 1 => if durable (i + 1) = content (i + 1) then i + 1 else version content durable i

variable {content durable : ℕ → A} {i j : ℕ}

theorem version_le : version content durable i ≤ i := by
  induction i with
  | zero => exact Nat.le_refl 0
  | succ i ih =>
    rw [version]
    split
    · exact Nat.le_refl _
    · exact Nat.le_succ_of_le ih

theorem version_mono : Monotone (version content durable) := by
  refine monotone_nat_of_le_succ fun i => ?_
  rw [version]
  split
  · exact Nat.le_succ_of_le version_le
  · exact Nat.le_refl _

theorem version_of_eq (h : durable i = content i) : version content durable i = i := by
  cases i with
  | zero => rfl
  | succ i => rw [version, if_pos h]

theorem durable_eq (h0 : durable 0 = content 0)
    (h : ∀ i, durable (i + 1) = durable i ∨ durable (i + 1) = content (i + 1)) :
    durable i = content (version content durable i) := by
  induction i with
  | zero => exact h0
  | succ i ih =>
    rw [version]
    split
    · assumption
    · next hne => exact ((h i).resolve_right hne).trans ih

theorem exists_version (content durable : ℕ → A) (h0 : durable 0 = content 0)
    (h : ∀ i, durable (i + 1) = durable i ∨ durable (i + 1) = content (i + 1)) :
    ∃ v : ℕ → ℕ, Monotone v ∧ (∀ i, v i ≤ i) ∧ (∀ i, durable i = content (v i)) ∧
      ∀ i j, durable i = content i → i ≤ j → i ≤ v j := by
  refine ⟨version content durable, version_mono, fun _ => version_le, fun _ => durable_eq h0 h,
    fun i j hi hij => ?_⟩
  calc i = version content durable i := (version_of_eq hi).symm
    _ ≤ version content durable j := version_mono hij

end

namespace LTS

variable {S L : Type*} {M : LTS S L}

/-- Along a path whose steps bring the copy up to date or leave it alone, it is the value of a
version: versions do not go back, and none comes before a step that meets `F`. -/
theorem Path.versions {A : Type*} {s : S} {tr : List (S × L × S)} (h : M.Path s tr)
    (content durable : S → A) (F : L → Prop) (hs : durable s = content s)
    (htr : ∀ x ∈ tr, (durable x.2.2 = durable x.1 ∨ durable x.2.2 = content x.2.2) ∧
      (F x.2.1 → durable x.2.2 = content x.2.2)) :
    ∃ v : ℕ → ℕ, Monotone v ∧ (∀ i, v i ≤ i) ∧
      (∀ i, durable (LTS.stateAt s tr i) = content (LTS.stateAt s tr (v i))) ∧
      ∀ i x, tr[i]? = some x → F x.2.1 → ∀ j, i < j → i < v j := by
  have hstep : ∀ i, durable (LTS.stateAt s tr (i + 1)) = durable (LTS.stateAt s tr i) ∨
      durable (LTS.stateAt s tr (i + 1)) = content (LTS.stateAt s tr (i + 1)) := by
    intro i
    obtain ⟨-, heq⟩ | ⟨l, hl⟩ := h.stateAt_step i
    · exact .inl (congrArg durable heq)
    · exact (htr _ (List.mem_of_getElem? hl)).1
  obtain ⟨v, hmono, hle, heq, hsince⟩ := exists_version (fun i => content (LTS.stateAt s tr i))
    (fun i => durable (LTS.stateAt s tr i)) (by simpa using hs) hstep
  refine ⟨v, hmono, hle, heq, fun i x hx hF j hij => hsince (i + 1) j ?_ hij⟩
  obtain ⟨hn, -⟩ | ⟨l, hl⟩ := h.stateAt_step i
  · cases hn.symm.trans hx
  · cases hl.symm.trans hx
    exact (htr _ (List.mem_of_getElem? hl)).2 hF

end LTS

end DbInternals
