import Mathlib.Data.List.GetD
import Mathlib.Data.Nat.Find
import Mathlib.Order.Interval.Set.OrdConnected
import Mathlib.Tactic.Common

/-!
# Routing by separators

A search tree over nodes `π` and keys `κ`: an inner node has pairs of a separator and a
child. Each pair takes its part of the keys of the node: from its separator on, up to the
next one; the first pair also has what is below every separator. `Below` are the paths
from a node, with the keys that are led along them.

Results:
* `exists_part`, `part_unique`: each key is in the part of exactly one pair;
* `IsTree.exists_leaf`, `IsTree.leaf_unique`: and so is led to exactly one leaf;
* `IsTree.nodup`: no path passes a node twice;
* `Below.ordConnected`: the keys led along a path are an interval.
-/
namespace DbInternals.Routing

variable {κ π : Type*} [LinearOrder κ]

/-- The keys of the node that pair `i` takes. -/
def part (S : Set κ) (ps : List (κ × π)) (i : ℕ) : Set κ :=
  {x | x ∈ S ∧ (i ≠ 0 → ∀ pr, ps[i]? = some pr → pr.1 ≤ x) ∧ ∀ pr, ps[i + 1]? = some pr → x < pr.1}

/-- The paths from a node: each inner node with the pair taken there, the node reached, and the
keys led to it. -/
inductive Below (kids : π → Option (List (κ × π))) : π → Set κ → List (π × ℕ) → π → Set κ → Prop
  | here (p : π) (S : Set κ) : Below kids p S [] p S
  | step {p q c : π} {k : κ} {S J : Set κ} {ps : List (κ × π)} {i : ℕ} {path : List (π × ℕ)}
    (hp : kids p = some ps) (hi : ps[i]? = some (k, c)) (h : Below kids c (part S ps i) path q J) :
    Below kids p S ((p, i) :: path) q J

/-- A finite tree whose inner nodes have at least one pair, in strict order, and whose leaves
are as `leaf` says of them and their keys. -/
inductive IsTree (kids : π → Option (List (κ × π))) (leaf : π → Set κ → Prop) : π → Set κ → Prop
  | leaf {p : π} {S : Set κ} (hp : kids p = none) (hl : leaf p S) : IsTree kids leaf p S
  | inner {p : π} {S : Set κ} {ps : List (κ × π)} (hp : kids p = some ps) (hne : ps ≠ [])
    (hlt : ps.Pairwise fun a b => a.1 < b.1)
    (hc : ∀ i k c, ps[i]? = some (k, c) → IsTree kids leaf c (part S ps i)) : IsTree kids leaf p S

variable {kids : π → Option (List (κ × π))} {leaf : π → Set κ → Prop} {p q q' : π} {S J J' : Set κ}
  {ps : List (κ × π)} {path path' : List (π × ℕ)} {x : κ} {i j : ℕ}

/-! ## Parts -/

theorem part_subset (S : Set κ) (ps : List (κ × π)) (i : ℕ) : part S ps i ⊆ S := fun _ hx => hx.1

/-- Some pair takes the key: the last one at or below it, or the first. -/
theorem exists_part (hne : ps ≠ []) (hx : x ∈ S) : ∃ i < ps.length, x ∈ part S ps i := by
  classical
  let P (i : ℕ) : Prop := ∃ pr, ps[i]? = some pr ∧ pr.1 ≤ x
  have hpos : 0 < ps.length := List.length_pos_iff.mpr hne
  have hle : Nat.findGreatest P (ps.length - 1) ≤ ps.length - 1 := Nat.findGreatest_le _
  refine ⟨Nat.findGreatest P (ps.length - 1), by omega, hx, fun h0 pr hpr => ?_, fun pr hpr => ?_⟩
  · obtain ⟨pr', hpr', hx'⟩ := Nat.findGreatest_of_ne_zero rfl h0
    rw [hpr] at hpr'
    cases hpr'
    exact hx'
  · by_contra hc
    have hlt := (List.getElem?_eq_some_iff.mp hpr).1
    have hP : P (Nat.findGreatest P (ps.length - 1) + 1) := ⟨pr, hpr, not_lt.mp hc⟩
    exact Nat.findGreatest_is_greatest (Nat.lt_succ_self _) (by omega) hP

/-- No key is in the parts of two pairs. -/
theorem part_lt (hlt : ps.Pairwise fun a b => a.1 < b.1) (hi : x ∈ part S ps i)
    (hj : x ∈ part S ps j) (hj' : j < ps.length) : ¬ i < j := by
  intro hij
  have h₁ : x < ps[i + 1].1 := hi.2.2 _ (List.getElem?_eq_getElem (by omega))
  have h₂ : ps[j].1 ≤ x := hj.2.1 (by omega) _ (List.getElem?_eq_getElem hj')
  have h₃ : ps[i + 1].1 ≤ ps[j].1 := by
    rcases Nat.lt_or_eq_of_le (show i + 1 ≤ j from hij) with h | h
    · exact le_of_lt (List.pairwise_iff_getElem.mp hlt _ _ (by omega) hj' h)
    · simp only [h, le_refl]
  exact absurd (lt_of_lt_of_le h₁ (le_trans h₃ h₂)) (lt_irrefl x)

theorem part_unique (hlt : ps.Pairwise fun a b => a.1 < b.1) (hi : x ∈ part S ps i)
    (hj : x ∈ part S ps j) (hi' : i < ps.length) (hj' : j < ps.length) : i = j :=
  Nat.le_antisymm (Nat.not_lt.mp (part_lt hlt hj hi hi')) (Nat.not_lt.mp (part_lt hlt hi hj hj'))

/-! ## Paths -/

theorem Below.subset (h : Below kids p S path q J) : J ⊆ S := by
  induction h with
  | here p S => exact fun _ hx => hx
  | step hp hi h ih => exact fun x hx => part_subset _ _ _ (ih hx)

theorem ordConnected_part (hS : S.OrdConnected) : (part S ps i).OrdConnected := by
  refine ⟨fun x hx y hy z hz => ⟨hS.out hx.1 hy.1 hz, fun h0 pr hpr => ?_, fun pr hpr => ?_⟩⟩
  · exact le_trans (hx.2.1 h0 pr hpr) hz.1
  · exact lt_of_le_of_lt hz.2 (hy.2.2 pr hpr)

/-- The keys led along a path are an interval. -/
theorem Below.ordConnected (h : Below kids p S path q J) (hS : S.OrdConnected) : J.OrdConnected := by
  induction h with
  | here p S => exact hS
  | step hp hi h ih => exact ih (ordConnected_part hS)

/-- What is below a node of a tree is a tree. -/
theorem IsTree.subtree (ht : IsTree kids leaf p S) (h : Below kids p S path q J) :
    IsTree kids leaf q J := by
  induction h with
  | here p S => exact ht
  | step hp hi h ih =>
    cases ht with
    | leaf hp' hl => rw [hp'] at hp; cases hp
    | inner hp' hne hlt hc =>
      rw [hp'] at hp
      cases hp
      exact ih (hc _ _ _ hi)

/-- Every key is led to a leaf. -/
theorem IsTree.exists_leaf (ht : IsTree kids leaf p S) (hx : x ∈ S) :
    ∃ path q J, Below kids p S path q J ∧ kids q = none ∧ leaf q J ∧ x ∈ J := by
  induction ht with
  | @leaf p S hp hl => exact ⟨[], p, S, .here p S, hp, hl, hx⟩
  | @inner p S ps hp hne hlt hc ih =>
    obtain ⟨i, hi, hxi⟩ := exists_part hne hx
    obtain ⟨path, q, J, hb, hq⟩ := ih i _ _ (List.getElem?_eq_getElem hi) hxi
    exact ⟨(p, i) :: path, q, J, .step hp (List.getElem?_eq_getElem hi) hb, hq⟩

/-- And to no other. -/
theorem IsTree.leaf_unique (ht : IsTree kids leaf p S) (h : Below kids p S path q J)
    (hq : kids q = none) (hx : x ∈ J) (h' : Below kids p S path' q' J') (hq' : kids q' = none)
    (hx' : x ∈ J') : path' = path ∧ q' = q ∧ J' = J := by
  induction h generalizing path' with
  | here p S =>
    cases h' with
    | here => exact ⟨rfl, rfl, rfl⟩
    | step hp hi h' => rw [hp] at hq; cases hq
  | @step p q c k S J ps i path hp hi h ih =>
    cases h' with
    | here => rw [hp] at hq'; cases hq'
    | @step _ _ c' k' _ _ ps' i' path' hp' hi' h' =>
      rw [hp] at hp'
      cases hp'
      cases ht with
      | leaf hp' hl => rw [hp'] at hp; cases hp
      | inner hp' hne hlt hc =>
        rw [hp'] at hp
        cases hp
        have he : i = i' := part_unique hlt (h.subset hx) (h'.subset hx')
          (List.getElem?_eq_some_iff.mp hi).1 (List.getElem?_eq_some_iff.mp hi').1
        subst he
        rw [hi] at hi'
        cases hi'
        obtain ⟨e, hq'', hJ⟩ := ih (hc _ _ _ hi) hq hx h'
        exact ⟨by rw [e], hq'', hJ⟩

/-! ## No node twice -/

/-- The node `c` is a child of `p`. -/
def Child (kids : π → Option (List (κ × π))) (c p : π) : Prop :=
  ∃ (ps : List (κ × π)) (i : ℕ) (k : κ), kids p = some ps ∧ ps[i]? = some (k, c)

/-- A tree is finite. -/
theorem IsTree.acc (ht : IsTree kids leaf p S) : Acc (Child kids) p := by
  induction ht with
  | leaf hp hl =>
    refine ⟨_, fun c hc => ?_⟩
    obtain ⟨ps, i, k, hps, -⟩ := hc
    rw [hp] at hps
    cases hps
  | inner hp hne hlt hc ih =>
    refine ⟨_, fun c hc' => ?_⟩
    obtain ⟨ps, i, k, hps, hi⟩ := hc'
    rw [hp] at hps
    cases hps
    exact ih i k c hi

theorem acc_irrefl {α : Type*} {r : α → α → Prop} {a : α} (h : Acc r a) : ¬ r a a := by
  induction h with
  | intro a _ ih => exact fun hr => ih a hr hr

/-- Every node of the path after the first is below it. -/
theorem Below.transGen (h : Below kids p S path q J) :
    ∀ r ∈ path.map Prod.fst ++ [q], r = p ∨ Relation.TransGen (Child kids) r p := by
  induction h with
  | here p S => exact fun r hr => .inl (List.mem_singleton.mp hr)
  | @step p q c k S J ps i path hp hi h ih =>
    intro r hr
    rcases List.mem_cons.mp hr with rfl | hr
    · exact .inl rfl
    · have hcp : Child kids c p := ⟨ps, i, k, hp, hi⟩
      rcases ih r hr with rfl | hrc
      · exact .inr (.single hcp)
      · exact .inr (.tail hrc hcp)

/-- No path passes a node twice. -/
theorem IsTree.nodup (ht : IsTree kids leaf p S) (h : Below kids p S path q J) :
    (path.map Prod.fst ++ [q]).Nodup := by
  induction h with
  | here p S => exact by simp
  | @step p q c k S J ps i path hp hi h ih =>
    have hc : Below kids p S [(p, i)] c (part S ps i) := .step hp hi (.here _ _)
    refine List.nodup_cons.mpr ⟨fun hmem => ?_, ih (ht.subtree hc)⟩
    have hcp : Child kids c p := ⟨ps, i, k, hp, hi⟩
    have hloop : Relation.TransGen (Child kids) p p := by
      rcases h.transGen p hmem with rfl | hpc
      · exact .single hcp
      · exact .tail hpc hcp
    exact acc_irrefl ht.acc.transGen hloop

end DbInternals.Routing
