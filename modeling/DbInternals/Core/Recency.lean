import Mathlib.Data.List.Nodup
import Mathlib.Logic.Function.Basic
import Mathlib.Order.Basic

/-!
# Lists by recency

A list that has its newest element in front, by the time of each element: an element that is touched
moves to the front, and the one nearest to the back is the oldest.

Results:
* `NewestFirst.enter`, `NewestFirst.erase`: elements that enter and leave;
* `NewestFirst.oldest`: what stands before an element from the back, or is newer.
-/
namespace DbInternals

/-- The newest element is in front. -/
def NewestFirst {α T : Type*} [LT T] (time : α → T) (l : List α) : Prop :=
  l.Pairwise fun a b => time b < time a

namespace NewestFirst

variable {α T : Type*} [LT T] {time time' : α → T} {l l₁ l₂ : List α} {a b : α}

theorem nil : NewestFirst time [] := List.Pairwise.nil

/-- Only the times of the elements matter. -/
theorem congr (h : NewestFirst time l) (ht : ∀ a ∈ l, time' a = time a) : NewestFirst time' l :=
  List.Pairwise.imp_of_mem (fun ha hb hlt => by rwa [ht _ ha, ht _ hb]) h

theorem erase [BEq α] (h : NewestFirst time l) (a : α) : NewestFirst time (l.erase a) :=
  List.Pairwise.sublist List.erase_sublist h

/-- An element enters with a time after all others. -/
theorem enter (h : NewestFirst time l) (ht : ∀ b ∈ l, time' b = time b)
    (hlt : ∀ b ∈ l, time b < time' a) : NewestFirst time' (a :: l) := by
  refine List.pairwise_cons.mpr ⟨fun b hb => ?_, h.congr ht⟩
  rw [ht b hb]
  exact hlt b hb

/-- From the back, an element stands behind the older ones. -/
theorem oldest (h : NewestFirst time l) (hl : l.reverse = l₁ ++ a :: l₂) (hb : b ∈ l) :
    b ∈ l₁ ∨ b = a ∨ time a < time b := by
  have hm : b ∈ l₁ ++ a :: l₂ := hl ▸ List.mem_reverse.mpr hb
  have hsorted : (l₁ ++ a :: l₂).Pairwise fun a b => time a < time b := by
    rw [← hl, List.pairwise_reverse]
    exact h
  obtain hm | hm := List.mem_append.mp hm
  · exact .inl hm
  obtain rfl | hm := List.mem_cons.mp hm
  · exact .inr (.inl rfl)
  · have hrest := (List.pairwise_append.mp hsorted).2.1
    exact .inr (.inr ((List.pairwise_cons.mp hrest).1 b hm))

end NewestFirst

end DbInternals
