import Mathlib.Order.Interval.Finset.Nat
import DbInternals.Core.Levels
import DbInternals.Index.InternalPages
import DbInternals.Index.SplitCrash

/-!
# Balance

A page is split into two on its own level, the pair for the new one goes to the level above, and
only a new root adds a level. So every page but the root stays the child of one pair, and all leaves
stay on one level.

Results:
* `wire_balanced`, `insert_balanced`, `remove_balanced`: the calls keep the tree balanced;
* `pages_once`: along a run each page of the file is reached from the root, in one way;
* `tree_balanced`: every search ends on the one level of the leaves, at most three below the root.
-/
namespace DbInternals.Index

open Storage SlottedPage Levels

/-- The pages a page points to. -/
def Tree.children (T : Tree) (p : Nat) : Multiset Nat :=
  match T.store p with
  | some (.inner ps) => (ps.map Prod.snd : List Nat)
  | _ => 0

/-- The pairs in the smaller half of a full page. -/
def halfPairs (w : Nat) : Nat := PAGE_ROOM / (w + 12) / 2

/-- A leaf is on level 0, and the children of a page on the level below it. -/
def Node.Placed (w : Nat) (level : Nat → Nat) (root p : Nat) : Node → Prop
  | .leaf .. => level p = 0
  | .inner ps => 2 ≤ ps.length ∧ (p ≠ root → halfPairs w ≤ ps.length) ∧
      ∀ pr ∈ ps, level pr.2 + 1 = level p

/-- The pages of a tree by levels, when those in `waiting` have no parent yet. -/
structure Balanced (w : Nat) (nodes : Finset Nat) (level : Nat → Nat) (waiting : Multiset Nat)
    (T : Tree) : Prop where
  mem : ∀ p, p ∈ nodes ↔ T.store p ≠ none
  tally : Tally nodes T.children T.root waiting
  placed : ∀ p n, T.store p = some n → n.Placed w level T.root p

section
variable {w : Nat} {nodes : Finset Nat} {level level' : Nat → Nat} {waiting waiting' : Multiset Nat}
  {T T' : Tree} {p q root left right : Nat} {n n₀ : Node} {ps : List Pair} {sep : Bytes} {es : List Entry}

/-! ## Pages -/

theorem Tree.children_inner (hp : T.store p = some (.inner ps)) :
    T.children p = (ps.map Prod.snd : List Nat) := by rw [children, hp]

theorem Tree.children_leaf {l r : Nat} (hp : T.store p = some (.leaf es l r)) :
    T.children p = 0 := by rw [children, hp]

theorem Tree.children_congr (hq : T'.store q = T.store q) : T'.children q = T.children q := by
  rw [children, children, hq]

/-- Leaves do not matter. -/
theorem Tree.children_inner_congr (hq : ∀ qs, T'.store q = some (.inner qs) ↔
    T.store q = some (.inner qs)) : T'.children q = T.children q := by
  cases hn : T.store q with
  | none =>
    cases hn' : T'.store q with
    | none => rw [children, children, hn, hn']
    | some n' =>
      cases n' with
      | leaf es l r => rw [children_leaf hn', children, hn]
      | inner qs => rw [(hq qs).mp hn'] at hn; cases hn
  | some n =>
    cases n with
    | inner qs => rw [children_inner hn, children_inner ((hq qs).mpr hn)]
    | leaf es l r =>
      rw [children_leaf hn]
      cases hn' : T'.store q with
      | none => rw [children, hn']
      | some n' =>
        cases n' with
        | leaf es' l' r' => rw [children_leaf hn']
        | inner qs => rw [(hq qs).mp hn'] at hn; cases hn

theorem Tree.mem_children : q ∈ T.children p ↔ ∃ ps pr, T.store p = some (.inner ps) ∧ pr ∈ ps ∧
    pr.2 = q := by
  constructor
  · intro hq
    cases hn : T.store p with
    | none => rw [children, hn] at hq; cases hq
    | some n =>
      cases n with
      | leaf es l r => rw [children_leaf hn] at hq; cases hq
      | inner ps =>
        rw [children_inner hn, Multiset.mem_coe] at hq
        obtain ⟨pr, hpr, he⟩ := List.mem_map.mp hq
        exact ⟨ps, pr, rfl, hpr, he⟩
  · rintro ⟨ps, pr, hp, hpr, rfl⟩
    rw [children_inner hp, Multiset.mem_coe]
    exact List.mem_map.mpr ⟨pr, hpr, rfl⟩

theorem Node.Placed.congr (h : n.Placed w level root p) (hp : level' p = level p)
    (hc : ∀ ps pr, n = .inner ps → pr ∈ ps → level' pr.2 = level pr.2) :
    n.Placed w level' root p := by
  cases n with
  | leaf es l r => exact hp.trans h
  | inner ps =>
    refine ⟨h.1, h.2.1, fun pr hpr => ?_⟩
    rw [hp, hc ps pr rfl hpr]
    exact h.2.2 pr hpr

/-- A page without room for a pair has enough of them for two. -/
theorem halfPairs_le (hroom : ¬ pairRoom w ps = true) : halfPairs w ≤ ps.length / 2 := by
  rw [pairRoom, decide_eq_true_iff, Nat.not_le] at hroom
  refine Nat.div_le_div_right (Nat.le_of_lt_succ ?_)
  exact (Nat.div_lt_iff_lt_mul (by omega)).mpr hroom

namespace Balanced

/-- Only the levels of the pages there are matter. -/
theorem relevel (h : Balanced w nodes level waiting T) (hl : ∀ q ∈ nodes, level' q = level q) :
    Balanced w nodes level' waiting T := by
  refine ⟨h.mem, h.tally, fun p n hn => ?_⟩
  have hp : p ∈ nodes := (h.mem p).mpr (by simp [hn])
  refine (h.placed p n hn).congr (hl p hp) fun ps pr hps hpr => ?_
  subst hps
  exact hl _ (h.tally.child_mem hp (Tree.mem_children.mpr ⟨ps, pr, hn, hpr, rfl⟩))

theorem alloc (h : Balanced w nodes level waiting T) : Balanced w nodes level waiting T.alloc.2 := by
  refine ⟨fun p => by rw [Tree.alloc_store]; exact h.mem p, ?_,
    fun p n hn => ?_⟩
  · rw [Tree.alloc_root]
    exact h.tally.congr fun q _ => Tree.children_congr (by rw [Tree.alloc_store])
  · rw [Tree.alloc_root]
    exact h.placed p n (by rwa [Tree.alloc_store] at hn)

theorem new_notMem (h : Balanced w nodes level waiting T) (hi : T.Ids) : T.alloc.1 ∉ nodes := fun hm =>
  (h.mem _).mp hm hi.alloc.2.2

theorem ne_new (h : Balanced w nodes level waiting T) (hi : T.Ids) (hq : q ∈ nodes) :
    q ≠ T.alloc.1 := hi.alloc_ne ((h.mem q).mp hq)

theorem update_old (h : Balanced w nodes level waiting T) (hi : T.Ids) {m : Nat} :
    ∀ q ∈ nodes, Function.update level T.alloc.1 m q = level q := fun _ hq =>
  Function.update_of_ne (h.ne_new hi hq) ..

/-- A page is written. -/
theorem write (h : Balanced w nodes level waiting T) (hp : T.store p ≠ none) (hn : n.Placed w level T.root p)
    (hw : T.children p + waiting = (T.setNode p n).children p + waiting') :
    Balanced w nodes level waiting' (T.setNode p n) := by
  refine ⟨fun q => ?_, h.tally.write ((h.mem p).mpr hp)
    (fun q _ hqp => Tree.children_congr (Tree.setNode_of_ne T n hqp)) hw, fun q m hm => ?_⟩
  · by_cases hqp : q = p
    · rw [hqp, Tree.setNode_self]
      exact iff_of_true ((h.mem p).mpr hp) (by simp)
    · rw [Tree.setNode_of_ne T n hqp]
      exact h.mem q
  · by_cases hqp : q = p
    · subst hqp
      rw [Tree.setNode_self] at hm
      cases hm
      exact hn
    · exact h.placed q m (by rwa [Tree.setNode_of_ne T n hqp] at hm)

/-- A page is added. -/
theorem add (h : Balanced w nodes level waiting T) (hp : p ∉ nodes) (hn : n.Placed w level T.root p)
    (hw : (T.setNode p n).children p + waiting' = {p} + waiting) :
    Balanced w (Insert.insert p nodes) level waiting' (T.setNode p n) := by
  have hne : ∀ q ∈ nodes, q ≠ p := fun q hq e => hp (e ▸ hq)
  refine ⟨fun q => ?_, h.tally.add hp (fun q hq => Tree.children_congr
    (Tree.setNode_of_ne T n (hne q hq))) ?_, fun q m hm => ?_⟩
  · rw [Finset.mem_insert]
    by_cases hqp : q = p
    · rw [hqp, Tree.setNode_self]
      exact iff_of_true (.inl rfl) (by simp)
    · rw [Tree.setNode_of_ne T n hqp, ← h.mem q]
      exact or_iff_right hqp
  · calc (T.setNode p n).children p + {T.root} + waiting'
        = (T.setNode p n).children p + waiting' + {T.root} := add_right_comm ..
      _ = {p} + waiting + {T.root} := by rw [hw]
      _ = {p} + {T.root} + waiting := add_right_comm ..
  · by_cases hqp : q = p
    · subst hqp
      rw [Tree.setNode_self] at hm
      cases hm
      exact hn
    · exact h.placed q m (by rwa [Tree.setNode_of_ne T n hqp] at hm)

/-! ## The steps of a split -/

theorem addPair (h : Balanced w nodes level (waiting + {right}) T) (hp : T.store p = some (.inner ps))
    (hl : level right + 1 = level p) : Balanced w nodes level waiting (T.addPair w p sep right) := by
  have hle : lowerIdx w ps (keyOf w sep) ≤ ps.length := lowerIdx_le
  obtain ⟨h2, hhalf, hlevel⟩ := h.placed p _ hp
  rw [Tree.addPair_eq hp]
  refine h.write (by simp [hp]) ⟨?_, fun hpr => ?_, fun pr hpr => ?_⟩ ?_
  · rw [List.length_insertIdx_of_le_length hle]
    omega
  · rw [List.length_insertIdx_of_le_length hle]
    exact Nat.le_succ_of_le (hhalf hpr)
  · cases (List.mem_insertIdx hle).mp hpr with
    | inl he => rw [he]; exact hl
    | inr hm => exact hlevel pr hm
  · rw [Tree.children_inner hp, Tree.children_inner (Tree.setNode_self ..)]
    have hperm := (List.perm_insertIdx (sep, right) ps hle).map Prod.snd
    rw [Multiset.coe_eq_coe.mpr hperm, List.map_cons, ← Multiset.cons_coe,
      ← Multiset.singleton_add]
    calc (ps.map Prod.snd : List Nat) + (waiting + {right})
        = (ps.map Prod.snd : List Nat) + waiting + {right} := (add_assoc ..).symm
      _ = {right} + ((ps.map Prod.snd : List Nat) + waiting) := add_comm ..
      _ = {right} + (ps.map Prod.snd : List Nat) + waiting := (add_assoc ..).symm

/-- An internal page is halved, and the upper half waits. -/
theorem splitNode (h : Balanced w nodes level waiting T) (hi : T.Ids) (hp : T.store p = some (.inner ps))
    (hlen : 4 ≤ ps.length) (hhalf : halfPairs w ≤ ps.length / 2) :
    Balanced w (Insert.insert T.alloc.1 nodes) (Function.update level T.alloc.1 (level p))
      (waiting + {T.alloc.1}) (T.splitNode p ps).2.2 := by
  have hpn : T.store p ≠ none := by simp [hp]
  have hnew := h.new_notMem hi
  have hold := h.update_old hi (m := level p)
  have hpm : p ∈ nodes := (h.mem p).mpr hpn
  have h₁ := (h.relevel hold).alloc
  obtain ⟨-, -, hlevel⟩ := h₁.placed p _ (by rw [Tree.alloc_store]; exact hp)
  have hp₁ : T.alloc.2.store p = some (.inner ps) := by rw [Tree.alloc_store, hp]
  have h₂ : Balanced w nodes (Function.update level T.alloc.1 (level p))
      (waiting + ((ps.drop (ps.length / 2)).map Prod.snd : List Nat))
      (T.alloc.2.setNode p (.inner (ps.take (ps.length / 2)))) := by
    refine h₁.write (by simp [hp₁])
      ⟨?_, fun _ => ?_, fun pr hpr => hlevel pr (List.mem_of_mem_take hpr)⟩ ?_
    · rw [List.length_take]
      omega
    · rw [List.length_take]
      omega
    · rw [Tree.children_inner hp₁, Tree.children_inner (Tree.setNode_self ..)]
      have hcut : (ps.map Prod.snd : List Nat) = (ps.take (ps.length / 2)).map Prod.snd ++
          (ps.drop (ps.length / 2)).map Prod.snd := by
        rw [← List.map_append, List.take_append_drop]
      rw [hcut, ← Multiset.coe_add, add_assoc, add_comm waiting]
  rw [Tree.splitNode_tree]
  refine h₂.add hnew ⟨?_, fun _ => ?_, fun pr hpr => ?_⟩ ?_
  · rw [List.length_drop]
    omega
  · rw [List.length_drop]
    omega
  · rw [Function.update_self, hlevel pr (List.mem_of_mem_drop hpr), hold p hpm]
  · rw [Tree.children_inner (Tree.setNode_self ..)]
    calc ((ps.drop (ps.length / 2)).map Prod.snd : List Nat) + (waiting + {T.alloc.1})
        = ((ps.drop (ps.length / 2)).map Prod.snd : List Nat) + waiting + {T.alloc.1} :=
          (add_assoc ..).symm
      _ = {T.alloc.1} + (waiting + ((ps.drop (ps.length / 2)).map Prod.snd : List Nat)) := by
          rw [add_comm, add_comm waiting]

/-- The root and the page that waits get a new root. -/
theorem splitRoot (h : Balanced w nodes level (waiting + {right}) T) (hi : T.Ids)
    (hl : level right = level T.root)
    (hhalf : ∀ ps, T.store T.root = some (.inner ps) → halfPairs w ≤ ps.length) :
    Balanced w (Insert.insert T.alloc.1 nodes) (Function.update level T.alloc.1 (level T.root + 1)) waiting
      (T.splitRoot w T.root sep right) := by
  have hnew := h.new_notMem hi
  have hold := h.update_old hi (m := level T.root + 1)
  have hright : right ∈ nodes := h.tally.waiting_mem (by simp)
  have hroot : T.root ∈ nodes := h.tally.root_mem
  have hstore : (T.splitRoot w T.root sep right).store T.alloc.1 =
      some (.inner [(T.minKey w T.root, T.root), (sep, right)]) := by
    rw [Tree.splitRoot_store, Tree.setNode_self]
  have hother : ∀ q, q ≠ T.alloc.1 → (T.splitRoot w T.root sep right).store q = T.store q := by
    intro q hq
    rw [Tree.splitRoot_store, Tree.setNode_of_ne _ _ hq, Tree.alloc_store]
  refine ⟨fun q => ?_, ?_, fun q m hm => ?_⟩
  · rw [Finset.mem_insert]
    by_cases hq : q = T.alloc.1
    · rw [hq, hstore]
      exact iff_of_true (.inl rfl) (by simp)
    · rw [hother q hq, ← h.mem q]
      exact or_iff_right hq
  · refine h.tally.add hnew (fun q hq => Tree.children_congr (hother q (h.ne_new hi hq))) ?_
    rw [Tree.splitRoot_root, Tree.children_inner hstore]
    change ({T.root, right} : Multiset Nat) + {T.alloc.1} + waiting = _
    rw [Multiset.insert_eq_cons, ← Multiset.singleton_add]
    calc ({T.root} + {right} + {T.alloc.1} + waiting : Multiset Nat)
        = {T.alloc.1} + ({T.root} + {right}) + waiting := by
          rw [add_comm ({T.root} + {right} : Multiset Nat)]
      _ = {T.alloc.1} + {T.root} + (waiting + {right}) := by
          rw [add_comm waiting, ← add_assoc, ← add_assoc]
  · by_cases hq : q = T.alloc.1
    · subst hq
      rw [hstore] at hm
      cases hm
      refine ⟨Nat.le_refl 2, fun hr => absurd (Tree.splitRoot_root ..).symm hr, fun pr hpr => ?_⟩
      rw [Function.update_self]
      simp only [List.mem_cons, List.not_mem_nil, or_false] at hpr
      rcases hpr with rfl | rfl
      · rw [hold _ hroot]
      · rw [hold _ hright, hl]
    · have hq₀ : T.store q = some m := by rw [← hother q hq]; exact hm
      have hm₀ := (h.relevel hold).placed q m hq₀
      cases m with
      | leaf es l r => exact hm₀
      | inner ps =>
        refine ⟨hm₀.1, fun _ => ?_, hm₀.2.2⟩
        by_cases hqr : q = T.root
        · exact hhalf ps (by rw [← hqr]; exact hq₀)
        · exact hm₀.2.1 hqr

end Balanced

/-- Handing a page upwards ends with every page in its place. -/
theorem wire_balanced (hw : w ≤ 8) : ∀ (stack : List Nat) (T : Tree) (nodes : Finset Nat)
    (level : Nat → Nat) (waiting : Multiset Nat) (left : Nat) (sep : Bytes) (right : Nat),
    Balanced w nodes level (waiting + {right}) T → T.Ids → Path T left stack → stack.Nodup →
    level right = level left →
    (∀ ps, T.store left = some (.inner ps) → halfPairs w ≤ ps.length) →
    ∃ nodes' level', Balanced w nodes' level' waiting (Tree.wire w stack T left sep right) ∧
      ∀ q ∈ nodes, level' q = level q
  | [], T, nodes, level, waiting, left, sep, right, h, hi, hpath, _, hl, hhalf => by
    obtain rfl : T.root = left := hpath
    exact ⟨_, _, h.splitRoot hi hl hhalf, h.update_old hi⟩
  | p :: rest, T, nodes, level, waiting, left, sep, right, h, hi, ⟨⟨ps, k, hp, hm⟩, hpath⟩, hnd,
      hl, _ => by
    have hpn : T.store p ≠ none := by simp [hp]
    obtain ⟨hpr, hnd'⟩ := List.nodup_cons.mp hnd
    have hlp : level right + 1 = level p := by
      rw [hl]
      exact (h.placed p _ hp).2.2 (k, left) hm
    rw [Tree.wire_cons hp]
    split
    · exact ⟨nodes, level, h.addPair hp hlp, fun q _ => rfl⟩
    · next hroom =>
      have hlen := four_le_of_full hw hroom
      have hhalf := halfPairs_le hroom
      have hI := Tree.splitNode_ids ps hi hpn
      have hnew := h.new_notMem hi
      have hpm : p ∈ nodes := (h.mem p).mpr hpn
      have hrm : right ∈ nodes := h.tally.waiting_mem (by simp)
      have hold := h.update_old hi (m := level p)
      obtain ⟨hs1, hs2, hs3⟩ := Tree.splitNode_store ps hi hpn
      have hrest : T.alloc.1 ∉ rest := fun hq => by
        obtain ⟨qs, hqs⟩ := hpath.inner _ hq
        rw [hi.alloc.2.2] at hqs
        cases hqs
      have hpath' : Path (T.splitNode p ps).2.2 p rest :=
        hpath.congr Tree.splitNode_root fun q hq => hs3 q (fun e => hpr (e ▸ hq)) fun e =>
          hrest (e ▸ hq)
      obtain ⟨nodes', level', h', hl'⟩ := wire_balanced hw rest _ _ _ (waiting + {right}) p
        (T.splitNode p ps).2.1 T.alloc.1 (h.splitNode hi hp hlen hhalf) hI hpath' hnd'
        (by rw [Function.update_self, hold p hpm]) (by
          intro qs hqs
          rw [hs1] at hqs
          cases hqs
          rw [List.length_take]
          omega)
      have hkeep : ∀ q ∈ nodes, level' q = level q := fun q hq => by
        rw [hl' q (Finset.mem_insert_of_mem hq), hold q hq]
      have hfresh : level' T.alloc.1 = level p := by
        rw [hl' _ (Finset.mem_insert_self ..), Function.update_self]
      refine ⟨nodes', level', ?_, hkeep⟩
      split
      · have hstore := Tree.wire_store (w := w) rest _ p (T.splitNode p ps).2.1 T.alloc.1 hI
          (hI.used _ (by simp [hs2])) hrest
        exact h'.addPair (hstore.trans hs2) (by rw [hkeep right hrm, hfresh, hlp])
      · have hstore := Tree.wire_store (w := w) rest _ p (T.splitNode p ps).2.1 T.alloc.1 hI
          (hI.used _ (by simp [hs1])) hpr
        exact h'.addPair (hstore.trans hs1) (by rw [hkeep right hrm, hkeep p hpm, hlp])

/-! ## The calls -/

theorem splitLeaf_balanced (h : Balanced w nodes level waiting T) (hi : T.Ids)
    (hp : T.store p = some (.leaf es left right)) :
    Balanced w (Insert.insert T.alloc.1 nodes) (Function.update level T.alloc.1 0)
      (waiting + {T.alloc.1}) (T.splitLeaf w p es left right).2.2 := by
  have hpn : T.store p ≠ none := by simp [hp]
  have hold := h.update_old hi (m := 0)
  obtain ⟨⟨l₁, hp₁⟩, ⟨l₂, hf₁⟩, hother⟩ := Tree.splitLeaf_of_leaf (w := w) hi hp
  have hroot : (T.splitLeaf w p es left right).2.2.root = T.root := Tree.splitLeaf_root
  have hinner : ∀ q qs, (T.splitLeaf w p es left right).2.2.store q = some (.inner qs) ↔
      T.store q = some (.inner qs) := fun q qs => Tree.splitLeaf_inner hi hp
  refine ⟨fun q => ?_, ?_, fun q m hm => ?_⟩
  · rw [Finset.mem_insert, h.mem q]
    constructor
    · rintro (rfl | hq)
      · simp [hf₁]
      · exact Tree.splitLeaf_mono hi hpn hq
    · intro hq
      obtain ⟨m, hm⟩ := Option.ne_none_iff_exists'.mp hq
      cases m with
      | inner qs => exact .inr (by simp [(hinner q qs).mp hm])
      | leaf es' l r =>
        rcases Tree.splitLeaf_leaf hi hpn hm with ⟨rfl, -⟩ | ⟨rfl, -⟩ | ⟨-, -, l', hq'⟩
        · exact .inr hpn
        · exact .inl rfl
        · exact .inr (by simp [hq'])
  · rw [hroot]
    refine h.tally.add (h.new_notMem hi) (fun q _ => Tree.children_inner_congr (hinner q)) ?_
    rw [Tree.children_leaf hf₁, zero_add, add_comm waiting, ← add_assoc,
      add_comm ({T.root} : Multiset Nat)]
  · rw [hroot]
    cases m with
    | inner qs =>
      exact (h.relevel hold).placed q _ ((hinner q qs).mp hm)
    | leaf es' l r =>
      rcases Tree.splitLeaf_leaf hi hpn hm with ⟨rfl, -⟩ | ⟨rfl, -⟩ | ⟨-, -, l', hq'⟩
      · exact (h.relevel hold).placed q (.leaf es left right) hp
      · exact Function.update_self ..
      · exact (h.relevel hold).placed q (.leaf es' l' r) hq'

/-- A leaf is written in the place of another. -/
theorem Balanced.setLeaf (h : Balanced w nodes level waiting T) {es' : List Entry} {l r : Nat}
    (hp : T.store p = some (.leaf es left right)) :
    Balanced w nodes level waiting (T.setNode p (.leaf es' l r)) := by
  refine h.write (by simp [hp]) (h.placed p (.leaf es left right) hp) ?_
  rw [Tree.children_leaf hp, Tree.children_leaf (Tree.setNode_self ..)]

theorem insert_balanced {rank : Nat → Nat} (hw : w ≤ 8) (h : Balanced w nodes level 0 T)
    (hs : Shape w rank T) (hi : T.Ids) (r : Bytes) :
    ∃ nodes' level', Balanced w nodes' level' 0 (T.insert w r) := by
  obtain ⟨p, stack, hf, hroute, es, left, right, hp⟩ := find_route hs hi (keyOf w r)
  have hpn : T.store p ≠ none := by simp [hp]
  unfold Tree.insert
  simp only [hf, hp]
  split
  · exact ⟨nodes, level, h.setLeaf hp⟩
  · obtain ⟨⟨l₁, hp₁⟩, -, -⟩ := Tree.splitLeaf_of_leaf (w := w) hi hp
    have hlevel : Function.update level T.alloc.1 0 p = 0 :=
      (h.relevel (h.update_old hi)).placed p _ hp
    obtain ⟨nodes', level', h', -⟩ := wire_balanced hw stack _ _ _ 0 p
      (T.splitLeaf w p es left right).2.1 T.alloc.1 (splitLeaf_balanced h hi hp)
      (Tree.splitLeaf_ids es left right hi hpn) (splitLeaf_path hi hp hroute.path)
      (hroute.nodup hs) (by rw [Function.update_self, hlevel]) (by
        intro ps hps
        rw [hp₁] at hps
        cases hps)
    exact ⟨nodes', level', h'⟩

theorem remove_balanced (h : Balanced w nodes level 0 T) (x : Int) :
    Balanced w nodes level 0 (T.remove w x) := by
  obtain e | ⟨p, es, left, right, i, b, hp, -, e⟩ := T.remove_cases w x
  · rw [e]
    exact h
  · rw [e]
    exact h.setLeaf hp

theorem one_balanced : Balanced w {1} (fun _ => 0) 0 Tree.one := by
  have h1 : Tree.one.store 1 = some (.leaf [] INVALID_PAGE_ID INVALID_PAGE_ID) := by simp [Tree.one]
  refine ⟨fun p => ?_, ?_, fun p n hn => ?_⟩
  · rw [Finset.mem_singleton]
    constructor
    · rintro rfl
      simp [h1]
    · intro hp
      obtain ⟨n, hn⟩ := Option.ne_none_iff_exists'.mp hp
      exact (one_store hn).1
  · rw [Tally, Finset.sum_singleton, Tree.children_leaf h1, zero_add, add_zero]
    rfl
  · rw [(one_store hn).2]
    rfl

/-- The levels of a balanced tree, with no page waiting. -/
theorem Balanced.levelled (h : Balanced w nodes level 0 T) :
    Levelled nodes T.children level T.root := by
  refine ⟨h.tally, fun p _ c hc => ?_, fun p hp hk => ?_⟩
  · obtain ⟨ps, pr, hps, hpr, rfl⟩ := Tree.mem_children.mp hc
    exact (h.placed p _ hps).2.2 pr hpr
  · obtain ⟨n, hn⟩ := Option.ne_none_iff_exists'.mp ((h.mem p).mp hp)
    cases n with
    | leaf es l r => exact h.placed p _ hn
    | inner ps =>
      rw [Tree.children_inner hn] at hk
      have h2 := (h.placed p _ hn).1
      have hlen := congrArg Multiset.card hk
      rw [Multiset.coe_card, List.length_map, Multiset.card_zero] at hlen
      omega

/-- Leaves are the pages on level 0. -/
theorem Balanced.isLeaf_iff (h : Balanced w nodes level 0 T) (hp : p ∈ nodes) :
    T.IsLeaf p ↔ level p = 0 := by
  constructor
  · rintro ⟨es, l, r, hn⟩
    exact h.placed p _ hn
  · intro hl
    obtain ⟨n, hn⟩ := Option.ne_none_iff_exists'.mp ((h.mem p).mp hp)
    cases n with
    | leaf es l r => exact ⟨es, l, r, hn⟩
    | inner ps =>
      obtain ⟨h2, -, hchild⟩ := h.placed p _ hn
      have := hchild _ (List.getElem_mem (show 0 < ps.length by omega))
      omega

theorem exec_balanced {t : TreeConfig} {calls : List Call} {s : TreeState} (ht : t.Numeric)
    (h : (treeRuns t (SplitsHalves t)).Exec calls s) :
    ∃ nodes level, Balanced t.keyWidth nodes level 0 (treeOf t.keyWidth calls) := by
  induction h with
  | nil h0 => exact ⟨_, _, one_balanced⟩
  | @snoc calls s s' c h hstep ih =>
    obtain ⟨nodes, level, hb⟩ := ih
    have hg := exec_good ht (fun _ _ h => h) h
    obtain ⟨rank, hs⟩ := hg.shape
    rw [treeOf_snoc]
    cases c with
    | insert r => exact insert_balanced ht.width_le.2 hb hs hg.holds.ids r
    | remove k => exact ⟨nodes, level, remove_balanced hb _⟩

end

/-! ## The pages of the file -/

/-- The internal page `p` holds the id of `q` in slot `2 * i + 1`. -/
def PointsTo (s : TreeState) (p i q : Nat) : Prop :=
  1 ≤ p ∧ p < nextId s ∧ getPageType (s.page p) = .internalPage ∧
    childPageId (s.page p) (2 * i + 1) = .ok q

/-- The pages on a way down from the root, the last one first. -/
inductive Above (s : TreeState) : Nat → List Nat → Prop
  | root : Above s s.rootPageId []
  | step {p i q : Nat} {stack : List Nat} (h : Above s p stack) (hq : PointsTo s p i q) :
    Above s q (p :: stack)

def leafPages (s : TreeState) : Finset Nat :=
  (Finset.Ico 1 (nextId s)).filter fun p => getPageType (s.page p) = .leafPage

section
variable {t : TreeConfig} {s : TreeState} {T : Tree} {p q i : Nat} {level : Nat → Nat}
  {nodes : Finset Nat} {stack : List Nat} {calls : List Call}

theorem Good.pointsTo_iff (h : Good t s T) :
    PointsTo s p i q ↔ ∃ ps pr, T.store p = some (.inner ps) ∧ ps[i]? = some pr ∧ pr.2 = q := by
  constructor
  · rintro ⟨h1, hp, htype, hc⟩
    obtain ⟨n, hn⟩ := Option.ne_none_iff_exists'.mp (h.dense.all p h1 (by rw [← h.holds.next]; exact hp))
    have hna := h.holds.nodeAt hn
    cases n with
    | leaf es l r =>
      have := hna.2.2.1
      rw [htype] at this
      cases this
    | inner ps =>
      obtain ⟨pr, hpr, e⟩ := pair_of_child hna hc
      exact ⟨ps, pr, hn, hpr, e⟩
  · rintro ⟨ps, pr, hn, hpr, rfl⟩
    have hu := h.holds.inUse (show T.store p ≠ none by simp [hn])
    obtain ⟨hv, htype, he, hk⟩ := h.holds.nodeAt hn
    refine ⟨hu.1, by rw [h.holds.next]; exact hu.2.1, htype, childPageId_spec hv ?_
      (hk pr (List.mem_of_getElem? hpr)).2⟩
    rw [he, getElem?_pairEntries_child, hpr]
    rfl

theorem Good.child_iff (h : Good t s T) : q ∈ T.children p ↔ ∃ i, PointsTo s p i q := by
  rw [Tree.mem_children]
  constructor
  · rintro ⟨ps, pr, hn, hpr, rfl⟩
    obtain ⟨i, hi⟩ := List.mem_iff_getElem?.mp hpr
    exact ⟨i, h.pointsTo_iff.mpr ⟨ps, pr, hn, hi, rfl⟩⟩
  · rintro ⟨i, hq⟩
    obtain ⟨ps, pr, hn, hi, rfl⟩ := h.pointsTo_iff.mp hq
    exact ⟨ps, pr, hn, List.mem_of_getElem? hi, rfl⟩

/-- The ways down through the file are the paths of the tree. -/
theorem Good.above_iff (h : Good t s T) : Above s q stack ↔ Levels.Path T.children T.root stack q := by
  constructor
  · intro ha
    induction ha with
    | root => rw [h.holds.root]; exact .root
    | step ha hq ih => exact ih.step (h.child_iff.mpr ⟨_, hq⟩)
  · intro hp
    induction hp with
    | root => rw [← h.holds.root]; exact .root
    | step hp hc ih =>
      obtain ⟨i, hi⟩ := h.child_iff.mp hc
      exact ih.step hi

theorem Good.mem_nodes (h : Good t s T) (hb : Balanced t.keyWidth nodes level 0 T) :
    p ∈ nodes ↔ 1 ≤ p ∧ p < nextId s := by
  rw [hb.mem, h.holds.next]
  exact ⟨fun hp => ⟨(h.holds.inUse hp).1, (h.holds.inUse hp).2.1⟩, fun hp => h.dense.all p hp.1 hp.2⟩

theorem Route.above (h : Good t s T) {x : Int} (hr : Route t.keyWidth T x q stack) :
    Above s q stack := by
  induction hr with
  | root => rw [← h.holds.root]; exact .root
  | @step p stack ps pr _ hp hc ih => exact ih.step (h.pointsTo_iff.mpr ⟨ps, pr, hp, hc, rfl⟩)

/-- Each page of the file is reached from the root, in one way, through one slot. -/
theorem pages_once (ht : t.Numeric) (h : (treeRuns t (SplitsHalves t)).Exec calls s) :
    (∀ q, 1 ≤ q ∧ q < nextId s ↔ ∃ stack, Above s q stack) ∧
      (∀ q stack stack', Above s q stack → Above s q stack' → stack = stack') ∧
      ∀ p i j q, PointsTo s p i q → PointsTo s p j q → i = j := by
  have hg := exec_good ht (fun _ _ h => h) h
  obtain ⟨nodes, level, hb⟩ := exec_balanced ht h
  have hl := hb.levelled
  refine ⟨fun q => ?_, fun q stack stack' h1 h2 => ?_, fun p i j q h1 h2 => ?_⟩
  · rw [← hg.mem_nodes hb]
    constructor
    · intro hq
      obtain ⟨stack, hs⟩ := hl.exists_path hq
      exact ⟨stack, hg.above_iff.mpr hs⟩
    · rintro ⟨stack, hs⟩
      exact hl.path_mem (hg.above_iff.mp hs)
  · exact hl.path_unique (hg.above_iff.mp h1) (hg.above_iff.mp h2)
  · obtain ⟨ps, pr, hn, hi, rfl⟩ := hg.pointsTo_iff.mp h1
    obtain ⟨ps', pr', hn', hj, e⟩ := hg.pointsTo_iff.mp h2
    rw [hn] at hn'
    cases hn'
    have hnd := hl.nodup ((hb.mem p).mpr (by simp [hn]))
    rw [Tree.children_inner hn, Multiset.coe_nodup] at hnd
    refine (List.getElem?_inj ?_ hnd).mp ?_
    · rw [List.length_map]
      exact (List.getElem?_eq_some_iff.mp hi).1
    · rw [List.getElem?_map, List.getElem?_map, hi, hj]
      exact congrArg some e.symm

theorem Balanced.card_children (hb : Balanced t.keyWidth nodes level 0 T) (hk : T.children p ≠ 0) :
    2 ≤ (T.children p).card ∧ (p ≠ T.root → halfPairs t.keyWidth ≤ (T.children p).card) := by
  obtain ⟨c, hc⟩ := Multiset.exists_mem_of_ne_zero hk
  obtain ⟨ps, pr, hn, -, -⟩ := Tree.mem_children.mp hc
  obtain ⟨h2, hhalf, -⟩ := hb.placed p _ hn
  rw [Tree.children_inner hn, Multiset.coe_card, List.length_map]
  exact ⟨h2, hhalf⟩

/-- The leaves multiply with every level between them and the root. -/
theorem Balanced.le_leafPages (hg : Good t s T) (hb : Balanced t.keyWidth nodes level 0 T) {d : Nat}
    (hd : level T.root = d + 1) : 2 * halfPairs t.keyWidth ^ d ≤ (leafPages s).card := by
  have hpow := hb.levelled.pow_le (fun hk => (hb.card_children hk).1)
    (fun p _ hp hk => (hb.card_children hk).2 hp) d (by omega)
  rw [hd, Nat.sub_self] at hpow
  refine hpow.trans (Finset.card_le_card fun p hp => ?_)
  obtain ⟨hp, hlp⟩ := Finset.mem_filter.mp hp
  have hr := (hg.mem_nodes hb).mp hp
  exact Finset.mem_filter.mpr ⟨Finset.mem_Ico.mpr hr,
    (hg.isLeaf_iff hr.1 hr.2).mp ((hb.isLeaf_iff hp).mpr hlp)⟩

theorem card_leafPages_lt (h : nextId s ≤ MAX_PAGES) : (leafPages s).card < 2 ^ 20 := by
  have hle := Finset.card_filter_le (Finset.Ico 1 (nextId s)) fun p =>
    getPageType (s.page p) = .leafPage
  rw [Nat.card_Ico] at hle
  have hmax : MAX_PAGES = 2 ^ 20 := rfl
  rw [leafPages]
  omega

theorem le_halfPairs {w : Nat} (hw : w ≤ 8) : 101 ≤ halfPairs w :=
  show PAGE_ROOM / 20 / 2 ≤ _ from
    Nat.div_le_div_right (Nat.div_le_div_left (show w + 12 ≤ 20 by omega) (by omega))

/-- All leaves are equally far from the root, and three pages above them are enough for a file. -/
theorem tree_balanced (ht : t.Numeric) (h : (treeRuns t (SplitsHalves t)).Exec calls s) :
    ∃ height ≤ 3, (∀ q stack, Above s q stack →
        (getPageType (s.page q) = .leafPage ↔ stack.length = height)) ∧
      (∀ (key : Key) x, key.Decodes x → ∃ m, Ends (findRecord t key) s m s ∧
        Above s m.leafPage (m.btStack.map Breadcrumb.pageId) ∧ m.btStack.length = height) ∧
      ∀ d, height = d + 1 → 2 * halfPairs t.keyWidth ^ d ≤ (leafPages s).card := by
  have hg := exec_good ht (fun _ _ h => h) h
  obtain ⟨nodes, level, hb⟩ := exec_balanced ht h
  have hl := hb.levelled
  have hleaf : ∀ q stack, Above s q stack →
      (getPageType (s.page q) = .leafPage ↔ stack.length = level (treeOf t.keyWidth calls).root) := by
    intro q stack ha
    have hpath := hg.above_iff.mp ha
    have hq := hl.path_mem hpath
    have hr := (hg.mem_nodes hb).mp hq
    rw [← hg.isLeaf_iff hr.1 hr.2, hb.isLeaf_iff hq, ← hl.path_length hpath]
    omega
  refine ⟨level (treeOf t.keyWidth calls).root, ?_, hleaf, fun key x hx => ?_, fun d hd =>
    hb.le_leafPages hg hd⟩
  · by_contra hn
    obtain ⟨d, hd⟩ : ∃ d, level (treeOf t.keyWidth calls).root = d + 3 + 1 :=
      Nat.exists_eq_add_of_le' (Nat.lt_of_not_le hn)
    have hle := hb.le_leafPages hg hd
    have hlt := card_leafPages_lt (s := s) (by rw [hg.holds.next]; exact hg.holds.next_le)
    have h101 := le_halfPairs ht.width_le.2
    have hpow : 101 ^ 3 ≤ halfPairs t.keyWidth ^ (d + 3) :=
      (Nat.pow_le_pow_left h101 3).trans (Nat.pow_le_pow_right (by omega) (by omega))
    omega
  · obtain ⟨rank, hs⟩ := hg.shape
    obtain ⟨p, bt, es, left, right, hf, hr, hp, e⟩ := findRecord_route ht hg.holds hs hx
    have ha : Above s p (bt.map Breadcrumb.pageId) := hr.above hg
    refine ⟨_, e, ha, ?_⟩
    have := (hleaf p _ ha).mp (hg.holds.nodeAt hp).2.2.1
    rwa [List.length_map] at this

end

/-- The third record splits the first leaf. -/
theorem pages_once_three : ∃ s, (treeRuns {} (SplitsHalves {})).Exec (bigInserts [20, 30, 25]) s ∧
    (∀ q, 1 ≤ q ∧ q < nextId s ↔ ∃ stack, Above s q stack) ∧
      (∀ q stack stack', Above s q stack → Above s q stack' → stack = stack') ∧
      ∀ p i j q, PointsTo s p i q → PointsTo s p j q → i = j := by
  obtain ⟨s, hs⟩ := exec_inserts [20, 30, 25] (by decide)
  have h := treeRuns_mono (fun _ _ h => h.1)
    (exec_halves numeric_default (by decide) (fun _ _ h => h) hs)
  exact ⟨s, h, pages_once numeric_default h⟩

theorem tree_balanced_three : ∃ s, (treeRuns {} (SplitsHalves {})).Exec
    (bigInserts [20, 30, 25]) s ∧ ∃ height ≤ 3, (∀ q stack, Above s q stack →
        (getPageType (s.page q) = .leafPage ↔ stack.length = height)) ∧
      (∀ (key : Key) x, key.Decodes x → ∃ m, Ends (findRecord {} key) s m s ∧
        Above s m.leafPage (m.btStack.map Breadcrumb.pageId) ∧ m.btStack.length = height) ∧
      ∀ d, height = d + 1 → 2 * halfPairs 8 ^ d ≤ (leafPages s).card := by
  obtain ⟨s, hs⟩ := exec_inserts [20, 30, 25] (by decide)
  have h := treeRuns_mono (fun _ _ h => h.1)
    (exec_halves numeric_default (by decide) (fun _ _ h => h) hs)
  exact ⟨s, h, tree_balanced numeric_default h⟩

end DbInternals.Index
