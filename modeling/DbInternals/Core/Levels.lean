import Mathlib.Algebra.BigOperators.Group.Finset.Basic
import Mathlib.Algebra.Order.Group.Multiset
import Mathlib.Algebra.Order.BigOperators.Group.Finset
import Mathlib.Data.Finset.Card
import Mathlib.Data.Multiset.Count
import Mathlib.Tactic.Abel

/-!
# Trees by levels

A node has a list of children, and `Tally` says that the children of all nodes are, together, each
node once but the root. `Levelled` puts children one level below their node and the nodes without
children on level 0.

Results:
* `Tally.write`, `Tally.add`: a node is written or added, while some nodes wait for a parent;
* `Levelled.path_unique`, `Levelled.exists_path`: one path leads from the root to each node, as
  long as the levels it crosses;
* `Levelled.pow_le`: where nodes have `b` children, the nodes of a level multiply by `b`;
* `Levelled.inner_le`: and at most one node in `b` has children.
-/
namespace DbInternals.Levels

variable {π : Type} [DecidableEq π]

/-- Every node is the root, waits for a parent, or is a child once. -/
def Tally (nodes : Finset π) (kids : π → Multiset π) (root : π) (waiting : Multiset π) : Prop :=
  ∑ p ∈ nodes, kids p + {root} + waiting = nodes.val

section
variable {nodes : Finset π} {kids kids' : π → Multiset π} {root root' p c : π}
  {waiting waiting' : Multiset π}

omit [DecidableEq π] in
theorem Tally.congr (h : Tally nodes kids root waiting) (hk : ∀ q ∈ nodes, kids' q = kids q) :
    Tally nodes kids' root waiting := by
  rw [Tally, Finset.sum_congr rfl hk]
  exact h

/-- A node is written: the children it loses wait, those it gains wait no more. -/
theorem Tally.write (h : Tally nodes kids root waiting) (hp : p ∈ nodes)
    (hk : ∀ q ∈ nodes, q ≠ p → kids' q = kids q) (hw : kids p + waiting = kids' p + waiting') :
    Tally nodes kids' root waiting' := by
  have hrest : ∑ q ∈ nodes.erase p, kids' q = ∑ q ∈ nodes.erase p, kids q :=
    Finset.sum_congr rfl fun q hq => hk q (Finset.mem_of_mem_erase hq) (Finset.ne_of_mem_erase hq)
  rw [Tally, ← h, ← Finset.add_sum_erase nodes kids hp, ← Finset.add_sum_erase nodes kids' hp, hrest]
  calc kids' p + ∑ q ∈ nodes.erase p, kids q + {root} + waiting'
      = ∑ q ∈ nodes.erase p, kids q + {root} + (kids' p + waiting') := by abel
    _ = ∑ q ∈ nodes.erase p, kids q + {root} + (kids p + waiting) := by rw [hw]
    _ = kids p + ∑ q ∈ nodes.erase p, kids q + {root} + waiting := by abel

/-- A node is added, with children that wait. -/
theorem Tally.add (h : Tally nodes kids root waiting) (hp : p ∉ nodes)
    (hk : ∀ q ∈ nodes, kids' q = kids q)
    (hw : kids' p + {root'} + waiting' = {p} + {root} + waiting) :
    Tally (insert p nodes) kids' root' waiting' := by
  rw [Tally, Finset.sum_insert hp, Finset.sum_congr rfl hk, Finset.insert_val_of_notMem hp,
    ← Multiset.singleton_add, ← h]
  calc kids' p + ∑ q ∈ nodes, kids q + {root'} + waiting'
      = ∑ q ∈ nodes, kids q + (kids' p + {root'} + waiting') := by abel
    _ = ∑ q ∈ nodes, kids q + ({p} + {root} + waiting) := by rw [hw]
    _ = {p} + (∑ q ∈ nodes, kids q + {root} + waiting) := by abel

omit [DecidableEq π] in
/-- Each node but the root is a child. -/
theorem Tally.card (h : Tally nodes kids root 0) : ∑ p ∈ nodes, (kids p).card + 1 = nodes.card := by
  have hc := congrArg Multiset.card (show ∑ p ∈ nodes, kids p + {root} + 0 = nodes.val from h)
  rw [add_zero, Multiset.card_add, Multiset.card_singleton] at hc
  rw [Finset.card_def, ← hc]
  exact congrArg (· + 1) (map_sum Multiset.cardHom kids nodes).symm

omit [DecidableEq π] in
/-- Children are nodes, and so is what waits. -/
theorem Tally.child_mem (h : Tally nodes kids root waiting) (hp : p ∈ nodes) (hc : c ∈ kids p) :
    c ∈ nodes := by
  have hsum : c ∈ ∑ q ∈ nodes, kids q := Multiset.mem_sum.mpr ⟨p, hp, hc⟩
  rw [← Finset.mem_val, ← h]
  exact Multiset.mem_add.mpr (.inl (Multiset.mem_add.mpr (.inl hsum)))

omit [DecidableEq π] in
theorem Tally.waiting_mem (h : Tally nodes kids root waiting) (hc : c ∈ waiting) : c ∈ nodes := by
  rw [← Finset.mem_val, ← h]
  exact Multiset.mem_add.mpr (.inr hc)

omit [DecidableEq π] in
theorem Tally.root_mem (h : Tally nodes kids root waiting) : root ∈ nodes := by
  rw [← Finset.mem_val, ← h]
  exact Multiset.mem_add.mpr (.inl (Multiset.mem_add.mpr (.inr (Multiset.mem_singleton_self root))))

/-- How often a node is a child. -/
theorem Tally.count (h : Tally nodes kids root 0) (c : π) :
    ∑ p ∈ nodes, (kids p).count c + (if c = root then 1 else 0) = if c ∈ nodes then 1 else 0 := by
  have hc := congrArg (Multiset.count c) h
  rw [add_zero, Multiset.count_add, Multiset.count_singleton, Multiset.count_sum'] at hc
  rw [hc]
  by_cases hn : c ∈ nodes
  · rw [if_pos hn]
    exact Multiset.count_eq_one_of_mem nodes.nodup hn
  · rw [if_neg hn]
    exact Multiset.count_eq_zero_of_notMem hn

end

/-- The path from the root to a node, the nearest node first. -/
inductive Path (kids : π → Multiset π) (root : π) : List π → π → Prop
  | root : Path kids root [] root
  | step {p c : π} {stack : List π} (h : Path kids root stack p) (hc : c ∈ kids p) :
    Path kids root (p :: stack) c

structure Levelled (nodes : Finset π) (kids : π → Multiset π) (level : π → ℕ) (root : π) : Prop where
  tally : Tally nodes kids root 0
  down : ∀ p ∈ nodes, ∀ c ∈ kids p, level c + 1 = level p
  bottom : ∀ p ∈ nodes, kids p = 0 → level p = 0

namespace Levelled

variable {nodes : Finset π} {kids : π → Multiset π} {level : π → ℕ} {root p q c : π}
  {stack stack' : List π}

omit [DecidableEq π] in
theorem root_mem (h : Levelled nodes kids level root) : root ∈ nodes := h.tally.root_mem

omit [DecidableEq π] in
theorem child_mem (h : Levelled nodes kids level root) (hp : p ∈ nodes) (hc : c ∈ kids p) :
    c ∈ nodes := h.tally.child_mem hp hc

/-- The root is no child. -/
theorem root_top (h : Levelled nodes kids level root) (hp : p ∈ nodes) : root ∉ kids p := by
  intro hc
  have hcount := h.tally.count root
  have h1 := Multiset.one_le_count_iff_mem.mpr hc
  have h2 := Finset.single_le_sum (f := fun p => (kids p).count root) (fun _ _ => Nat.zero_le _) hp
  rw [if_pos rfl, if_pos h.root_mem] at hcount
  omega

/-- A node is a child of one node at most, and once. -/
theorem parent_unique (h : Levelled nodes kids level root) (hp : p ∈ nodes) (hq : q ∈ nodes)
    (hpc : c ∈ kids p) (hqc : c ∈ kids q) : p = q := by
  by_contra hne
  have hcount := h.tally.count c
  have h1 := Multiset.one_le_count_iff_mem.mpr hpc
  have h2 := Multiset.one_le_count_iff_mem.mpr hqc
  have h3 := Finset.add_sum_erase nodes (fun p => (kids p).count c) hp
  have h4 := Finset.single_le_sum (f := fun p => (kids p).count c) (fun _ _ => Nat.zero_le _)
    (Finset.mem_erase.mpr ⟨Ne.symm hne, hq⟩)
  rw [if_pos (h.child_mem hp hpc)] at hcount
  omega

theorem nodup (h : Levelled nodes kids level root) (hp : p ∈ nodes) : (kids p).Nodup := by
  rw [Multiset.nodup_iff_count_le_one]
  intro c
  have hcount := h.tally.count c
  have h1 := Finset.single_le_sum (f := fun p => (kids p).count c) (fun _ _ => Nat.zero_le _) hp
  have h2 : (if c ∈ nodes then 1 else 0) ≤ 1 := by split <;> omega
  omega

theorem exists_parent (h : Levelled nodes kids level root) (hc : c ∈ nodes) (hr : c ≠ root) :
    ∃ p ∈ nodes, c ∈ kids p := by
  by_contra hn
  have hcount := h.tally.count c
  rw [if_neg hr, if_pos hc, Finset.sum_eq_zero fun p hp => Multiset.count_eq_zero_of_notMem
    fun hm => hn ⟨p, hp, hm⟩] at hcount
  omega

/-! ## Paths -/

omit [DecidableEq π] in
theorem path_mem (h : Levelled nodes kids level root) (hp : Path kids root stack p) : p ∈ nodes := by
  induction hp with
  | root => exact h.root_mem
  | step _ hc ih => exact h.child_mem ih hc

omit [DecidableEq π] in
/-- A path is as long as the levels it crosses. -/
theorem path_length (h : Levelled nodes kids level root) (hp : Path kids root stack p) :
    stack.length + level p = level root := by
  induction hp with
  | root => exact Nat.zero_add _
  | step hp hc ih =>
    have := h.down _ (h.path_mem hp) _ hc
    rw [List.length_cons]
    omega

theorem path_unique (h : Levelled nodes kids level root) (hp : Path kids root stack p)
    (hp' : Path kids root stack' p) : stack = stack' := by
  induction hp generalizing stack' with
  | root =>
    cases hp' with
    | root => rfl
    | step hp hc => exact absurd hc (h.root_top (h.path_mem hp))
  | step hp hc ih =>
    cases hp' with
    | root => exact absurd hc (h.root_top (h.path_mem hp))
    | step hp' hc' =>
      obtain rfl := h.parent_unique (h.path_mem hp) (h.path_mem hp') hc hc'
      rw [ih hp']

/-- Going up from any node ends at the root: the levels of the nodes are bounded. -/
theorem exists_path (h : Levelled nodes kids level root) (hp : p ∈ nodes) :
    ∃ stack, Path kids root stack p := by
  obtain ⟨n, hn⟩ : ∃ n, ∀ q ∈ nodes, level q ≤ n := ⟨nodes.sup level, fun q hq => Finset.le_sup hq⟩
  obtain ⟨m, hm⟩ : ∃ m, n - level p = m := ⟨_, rfl⟩
  induction m generalizing p with
  | zero =>
    by_cases hr : p = root
    · exact ⟨[], hr ▸ .root⟩
    · obtain ⟨q, hq, hc⟩ := h.exists_parent hp hr
      have h1 := h.down q hq p hc
      have h2 := hn q hq
      omega
  | succ m ih =>
    by_cases hr : p = root
    · exact ⟨[], hr ▸ .root⟩
    · obtain ⟨q, hq, hc⟩ := h.exists_parent hp hr
      have h1 := h.down q hq p hc
      have h2 := hn q hq
      obtain ⟨stack, hs⟩ := ih hq (by omega)
      exact ⟨q :: stack, hs.step hc⟩

/-! ## How many nodes a level has -/

omit [DecidableEq π] in
/-- The nodes of a level are the children of the nodes on the one above. -/
theorem card_level (h : Levelled nodes kids level root) {l : ℕ} (hl : l < level root) :
    (nodes.filter fun p => level p = l).card =
      ∑ p ∈ nodes.filter fun p => level p = l + 1, (kids p).card := by
  have hkids : ∀ p ∈ nodes, (kids p).countP (fun c => level c = l) =
      if level p = l + 1 then (kids p).card else 0 := by
    intro p hp
    split
    · next hlp =>
      refine Multiset.countP_eq_card.mpr fun c hc => ?_
      have := h.down p hp c hc
      omega
    · next hlp =>
      refine Multiset.countP_eq_zero.mpr fun c hc hlc => hlp ?_
      rw [← hlc]
      exact (h.down p hp c hc).symm
  have hroot : ({root} : Multiset π).countP (fun c => level c = l) = 0 :=
    Multiset.countP_eq_zero.mpr fun q hq => by
      rw [Multiset.mem_singleton.mp hq]
      exact Nat.ne_of_gt hl
  have hval : nodes.val.countP (fun p => level p = l) =
      ∑ p ∈ nodes, (kids p).countP fun c => level c = l := by
    rw [← show ∑ p ∈ nodes, kids p + {root} + 0 = nodes.val from h.tally, add_zero,
      Multiset.countP_add, hroot, add_zero]
    exact map_sum (Multiset.countPAddMonoidHom fun p => level p = l) kids nodes
  rw [Finset.sum_filter, ← Finset.sum_congr rfl hkids, ← hval, Multiset.countP_eq_card_filter]
  rfl

omit [DecidableEq π] in
/-- With `a` children below the root and `b` below every other node that has any, the nodes
multiply by `b` on each level. -/
theorem pow_le (h : Levelled nodes kids level root) {a b : ℕ} (ha : kids root ≠ 0 → a ≤ (kids root).card)
    (hb : ∀ p ∈ nodes, p ≠ root → kids p ≠ 0 → b ≤ (kids p).card) (d : ℕ) (hd : d < level root) :
    a * b ^ d ≤ (nodes.filter fun p => level p = level root - (d + 1)).card := by
  induction d with
  | zero =>
    have hk : kids root ≠ 0 := fun hk => by
      have := h.bottom root h.root_mem hk
      omega
    rw [h.card_level (l := level root - (0 + 1)) (by omega),
      show level root - (0 + 1) + 1 = level root by omega, pow_zero, mul_one]
    exact (ha hk).trans (Finset.single_le_sum (f := fun p => (kids p).card)
      (fun _ _ => Nat.zero_le _) (Finset.mem_filter.mpr ⟨h.root_mem, rfl⟩))
  | succ d ih =>
    have hle := ih (by omega)
    rw [h.card_level (l := level root - (d + 1 + 1)) (by omega),
      show level root - (d + 1 + 1) + 1 = level root - (d + 1) by omega, pow_succ, ← mul_assoc]
    refine le_trans (Nat.mul_le_mul_right b hle) ?_
    refine Finset.card_nsmul_le_sum _ (fun p => (kids p).card) b fun p hp => ?_
    obtain ⟨hp, hlp⟩ := Finset.mem_filter.mp hp
    refine hb p hp (fun e => ?_) fun hk => ?_
    · rw [e] at hlp
      omega
    · have := h.bottom p hp hk
      omega

/-- With as many children, the nodes that have any are few against those that have none. -/
theorem inner_le (h : Levelled nodes kids level root) {a b : ℕ} (hk : kids root ≠ 0)
    (ha : a ≤ (kids root).card) (hb : ∀ p ∈ nodes, p ≠ root → kids p ≠ 0 → b ≤ (kids p).card) :
    ((nodes.filter fun p => kids p ≠ 0).card - 1) * b + a + 1 ≤ nodes.card := by
  have hmem : root ∈ nodes.filter fun p => kids p ≠ 0 := Finset.mem_filter.mpr ⟨h.root_mem, hk⟩
  have hrest : ((nodes.filter fun p => kids p ≠ 0).card - 1) * b ≤
      ∑ p ∈ (nodes.filter fun p => kids p ≠ 0).erase root, (kids p).card := by
    rw [← Finset.card_erase_of_mem hmem]
    refine Finset.card_nsmul_le_sum _ (fun p => (kids p).card) b fun p hp => ?_
    obtain ⟨hne, hp⟩ := Finset.mem_erase.mp hp
    exact hb p (Finset.mem_filter.mp hp).1 hne (Finset.mem_filter.mp hp).2
  have hsum := Finset.add_sum_erase _ (fun p => (kids p).card) hmem
  have hall : ∑ p ∈ nodes.filter fun p => kids p ≠ 0, (kids p).card ≤ ∑ p ∈ nodes, (kids p).card :=
    Finset.sum_le_sum_of_subset (Finset.filter_subset _ _)
  have hcard := h.tally.card
  omega

end Levelled

end DbInternals.Levels
