import Mathlib.Data.Set.Card
import Mathlib.Tactic.Common

/-!
# Owned tokens

Places hold tokens. A token is created by `acquire`, moves between places by
`transfer`, and is given back by `release`, which records it in `ended`.

Results:
* `Exact.acquire`, `Exact.transfer`, `Exact.release`: as long as no token is
  overwritten, each is held in exactly one place or has ended exactly once;
* `encard_acquire`, `encard_transfer`, `encard_release`: how many places hold a
  token with a given property.
-/
namespace DbInternals

/-- Places `W`, the tokens they hold, and the tokens given back, in order. -/
structure Owners (W : Type*) where
  held : W → Option ℕ
  issued : ℕ
  ended : List ℕ

namespace Owners

/-- What can be done to the token of a place. -/
inductive Action (W : Type*)
  | acquire (w : W)
  | transfer (dst src : W)
  | release (w : W)

section
variable {W : Type*} {s : Owners W} {w u : W} {k : ℕ} {P : ℕ → Prop}

/-- Nothing held yet. -/
def empty : Owners W := ⟨fun _ => none, 0, []⟩

/-- Each token is held in one place or has ended once. -/
structure Exact (s : Owners W) : Prop where
  unique : ∀ w u k, s.held w = some k → s.held u = some k → w = u
  below : ∀ w k, s.held w = some k → k < s.issued
  nodup : s.ended.Nodup
  endedBelow : ∀ k ∈ s.ended, k < s.issued
  open_iff : ∀ k < s.issued, k ∉ s.ended ↔ ∃ w, s.held w = some k

theorem exact_empty : (empty : Owners W).Exact where
  unique := by simp [empty]
  below := by simp [empty]
  nodup := by simp [empty]
  endedBelow := by simp [empty]
  open_iff := by simp [empty]

/-- A held token has not ended. -/
theorem Exact.notMem (h : s.Exact) (hw : s.held w = some k) : k ∉ s.ended :=
  (h.open_iff k (h.below w k hw)).mpr ⟨w, hw⟩

/-- The places that hold a token with the property. -/
def holding (s : Owners W) (P : ℕ → Prop) : Set W := {w | ∃ k, s.held w = some k ∧ P k}

theorem notMem_holding (hw : s.held w = none) : w ∉ s.holding P := by
  rintro ⟨k, hk, -⟩
  simp [hw] at hk

theorem mem_holding (hw : s.held w = some k) : w ∈ s.holding P ↔ P k := by
  simp [holding, hw]

/-! ## Actions -/

variable [DecidableEq W]

def act (s : Owners W) : Action W → Owners W
  | .acquire w => { s with held := Function.update s.held w (some s.issued), issued := s.issued + 1 }
  | .transfer dst src => { s with
      held := Function.update (Function.update s.held dst (s.held src)) src none }
  | .release w => { s with
      held := Function.update s.held w none
      ended := s.ended ++ (s.held w).toList }

def run (s : Owners W) (as : List (Action W)) : Owners W := as.foldl act s

@[simp] theorem run_nil : s.run [] = s := rfl

@[simp] theorem run_cons (a : Action W) (as : List (Action W)) :
    s.run (a :: as) = (s.act a).run as := rfl

theorem run_append (as bs : List (Action W)) : s.run (as ++ bs) = (s.run as).run bs :=
  List.foldl_append

/-- There is nothing to release in an empty place. -/
theorem act_release_none (hw : s.held w = none) : s.act (.release w) = s := by
  have hu : Function.update s.held w none = s.held := by
    rw [Function.update_eq_self_iff, hw]
  rw [act, hu, hw, Option.toList_none, List.append_nil]

theorem Exact.acquire (h : s.Exact) (hw : s.held w = none) : (s.act (.acquire w)).Exact where
  unique := by
    intro v u k hv hu
    simp only [act, Function.update_apply] at hv hu
    have hb := h.below
    have hun := h.unique v u k
    split at hv <;> split at hu <;> grind
  below := by
    intro v k hv
    simp only [act, Function.update_apply] at hv ⊢
    have hb := h.below v k
    grind
  nodup := h.nodup
  endedBelow := fun k hk => Nat.lt_succ_of_lt (h.endedBelow k hk)
  open_iff := by
    intro k hk
    simp only [act] at hk ⊢
    cases Nat.lt_succ_iff_lt_or_eq.mp hk with
    | inl hk =>
      rw [h.open_iff k hk]
      constructor
      · rintro ⟨v, hv⟩
        refine ⟨v, ?_⟩
        rw [Function.update_of_ne (by rintro rfl; simp [hw] at hv)]
        exact hv
      · rintro ⟨v, hv⟩
        refine ⟨v, ?_⟩
        rw [Function.update_apply] at hv
        split at hv
        · cases hv
          exact absurd hk (lt_irrefl _)
        · exact hv
    | inr hk =>
      subst hk
      refine ⟨fun _ => ⟨w, Function.update_self ..⟩, fun _ hm => ?_⟩
      exact absurd (h.endedBelow _ hm) (lt_irrefl _)

theorem Exact.transfer (h : s.Exact) (hw : s.held w = none) (hne : w ≠ u) :
    (s.act (.transfer w u)).Exact where
  unique := by
    intro v v' k hv hv'
    simp only [act, Function.update_apply] at hv hv'
    have h₁ := h.unique v v' k
    have h₂ := h.unique u v' k
    have h₃ := h.unique v u k
    grind
  below := by
    intro v k hv
    simp only [act, Function.update_apply] at hv ⊢
    have h₁ := h.below v k
    have h₂ := h.below u k
    grind
  nodup := h.nodup
  endedBelow := h.endedBelow
  open_iff := by
    intro k hk
    simp only [act] at hk ⊢
    rw [h.open_iff k hk]
    constructor
    · rintro ⟨v, hv⟩
      by_cases hvu : v = u
      · subst hvu
        refine ⟨w, ?_⟩
        rw [Function.update_of_ne hne, Function.update_self, hv]
      · refine ⟨v, ?_⟩
        rw [Function.update_of_ne hvu, Function.update_of_ne (by rintro rfl; simp [hw] at hv), hv]
    · rintro ⟨v, hv⟩
      simp only [Function.update_apply] at hv
      split at hv
      · cases hv
      split at hv
      · exact ⟨u, hv⟩
      · exact ⟨v, hv⟩

theorem Exact.release (h : s.Exact) (w : W) : (s.act (.release w)).Exact where
  unique := by
    intro v u k hv hu
    simp only [act, Function.update_apply] at hv hu
    have := h.unique v u k
    grind
  below := by
    intro v k hv
    simp only [act, Function.update_apply] at hv ⊢
    have := h.below v k
    grind
  nodup := by
    simp only [act]
    cases hk : s.held w with
    | none => simpa using h.nodup
    | some k =>
      rw [Option.toList_some, List.nodup_append]
      refine ⟨h.nodup, List.nodup_singleton k, ?_⟩
      rintro j hj _ hk' rfl
      rw [List.mem_singleton.mp hk'] at hj
      exact h.notMem hk hj
  endedBelow := by
    intro k hk
    simp only [act, List.mem_append, Option.mem_toList] at hk ⊢
    cases hk with
    | inl hk => exact h.endedBelow k hk
    | inr hk => exact h.below w k hk
  open_iff := by
    intro k hk
    simp only [act, List.mem_append, Option.mem_toList, not_or] at hk ⊢
    rw [h.open_iff k hk]
    constructor
    · rintro ⟨⟨v, hv⟩, hne⟩
      refine ⟨v, ?_⟩
      rw [Function.update_of_ne (by rintro rfl; exact hne hv)]
      exact hv
    · rintro ⟨v, hv⟩
      rw [Function.update_apply] at hv
      split at hv
      · cases hv
      · rename_i hne
        exact ⟨⟨v, hv⟩, fun hk' => hne (h.unique v w k hv hk')⟩

theorem encard_acquire [Decidable (P s.issued)] (hw : s.held w = none) :
    ((s.act (.acquire w)).holding P).encard
      = (s.holding P).encard + if P s.issued then 1 else 0 := by
  split
  · rename_i hP
    rw [← Set.encard_insert_of_notMem (notMem_holding hw)]
    congr 1
    ext v
    simp only [holding, act, Function.update_apply, Set.mem_ofPred_eq, Set.mem_insert_iff]
    grind
  · rename_i hP
    rw [add_zero]
    congr 1
    ext v
    simp only [holding, act, Function.update_apply, Set.mem_ofPred_eq]
    grind

theorem encard_release (w : W) : (s.holding P).encard
    = ((s.act (.release w)).holding P).encard + ({w} ∩ s.holding P : Set W).encard := by
  rw [← Set.encard_union_eq]
  · congr 1
    ext v
    simp only [holding, act, Function.update_apply, Set.mem_ofPred_eq, Set.mem_union,
      Set.mem_inter_iff, Set.mem_singleton_iff]
    grind
  · rw [Set.disjoint_left]
    rintro v ⟨k, hk, -⟩ ⟨hv, -⟩
    rw [Set.mem_singleton_iff.mp hv] at hk
    simp [act] at hk

theorem encard_release_some (hw : s.held w = some k) [Decidable (P k)] : (s.holding P).encard
    = ((s.act (.release w)).holding P).encard + if P k then 1 else 0 := by
  rw [encard_release w]
  congr 1
  split
  · rw [Set.inter_eq_left.mpr (by simpa [mem_holding hw]), Set.encard_singleton]
  · rw [Set.encard_eq_zero, Set.singleton_inter_eq_empty, mem_holding hw]
    assumption

theorem encard_transfer (hw : s.held w = none) (hne : w ≠ u) :
    ((s.act (.transfer w u)).holding P).encard = (s.holding P).encard := by
  have hi : (s.act (.transfer w u)).holding P = Equiv.swap w u '' s.holding P := by
    ext v
    rw [Set.mem_image_equiv, Equiv.symm_swap]
    simp only [holding, act, Function.update_apply, Set.mem_ofPred_eq, Equiv.swap_apply_def]
    grind
  rw [hi, (Equiv.swap w u).injective.encard_image]

end

end Owners

end DbInternals
