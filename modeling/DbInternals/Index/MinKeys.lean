import Mathlib.Data.Finset.Lattice.Fold
import DbInternals.Index.UniqueKeys

/-!
# Splits of trees in strict min-key order

A tree is in strict min-key order if every key below a child is from the key of its pair
on, and below the key of the next pair: no search falls back to a first child. These are
the trees whose keys lead to their pages without a fallback (`MinKeyTree.routed`,
`StrictMinKey.of_routed`), and splitting a leaf keeps them, with all their records.

Results: `MinKeyTree.routed`, `StrictMinKey.of_routed`, `splitChild_records`,
`splitChild_minKeyTree`.
-/
namespace DbInternals.Index

open Storage SlottedPage

/-! ## Strict min-key order -/

/-- Page `q` is `p`, or below it. -/
inductive Under (T : Tree) : Nat → Nat → Prop
  | here (p : Nat) : Under T p p
  | step {p q : Nat} {ps : List Pair} {pr : Pair} (hp : T.store p = some (.inner ps)) (hm : pr ∈ ps)
    (h : Under T pr.2 q) : Under T p q

/-- A key of the page: of a record, or a separator. -/
inductive HasKey (w : Nat) (T : Tree) (p : Nat) : Int → Prop
  | record {es : List Entry} {left right : Nat} {b : Bytes}
    (hp : T.store p = some (.leaf es left right)) (hb : .live b ∈ es) : HasKey w T p (keyOf w b)
  | separator {ps : List Pair} {pr : Pair} (hp : T.store p = some (.inner ps)) (hm : pr ∈ ps) :
    HasKey w T p (keyOf w pr.1)

/-- Pairs in strict order; the keys below a child are from its pair on, up to the next one. -/
structure StrictMinKey (w : Nat) (T : Tree) : Prop where
  sorted : ∀ p ps, T.store p = some (.inner ps) → PairsLt w ps
  from_pair : ∀ p ps (j : Nat) (pr : Pair) q x, T.store p = some (.inner ps) → ps[j]? = some pr →
    Under T pr.2 q → HasKey w T q x → keyOf w pr.1 ≤ x
  to_next : ∀ p ps (j : Nat) (pr pr' : Pair) q x, T.store p = some (.inner ps) → ps[j]? = some pr →
    ps[j + 1]? = some pr' → Under T pr.2 q → HasKey w T q x → x < keyOf w pr'.1

/-- Pair `j` of page `p` leads to page `q`. -/
def ChildAt (T : Tree) (p j q : Nat) : Prop :=
  ∃ ps pr, T.store p = some (.inner ps) ∧ ps[j]? = some pr ∧ pr.2 = q

/-- Every page but the root is the child of one pair. -/
structure OneParent (T : Tree) : Prop where
  root : ∀ p j, ¬ ChildAt T p j T.root
  linked : ∀ q, T.store q ≠ none → q ≠ T.root → ∃ p j, ChildAt T p j q
  unique : ∀ p p' j j' q, ChildAt T p j q → ChildAt T p' j' q → p = p' ∧ j = j'

/-- A tree in strict min-key order, with sorted leaves and no key stored twice. -/
structure MinKeyTree (w : Nat) (T : Tree) : Prop where
  shape : ∃ rank, Shape w rank T
  parents : OneParent T
  minKey : StrictMinKey w T
  leaves : LeavesLt w T
  apart : LeavesApart w T

section
variable {t : TreeConfig} {τ σ : Prop} {s s' : TreeState} {T : Tree} {rank : Nat → Nat}
  {w p q j : Nat} {x : Int} {ps : List Pair} {pr : Pair} {es : List Entry} {left right : Nat}
  {stack : List Nat} {b : Bytes}

theorem Under.trans {r : Nat} (h : Under T p q) (h' : Under T q r) : Under T p r := by
  induction h with
  | here p => exact h'
  | step hp hm h ih => exact .step hp hm (ih h')

/-- Every page is below the root. -/
theorem OneParent.under_root (h : OneParent T) (hs : Shape w rank T) (hi : T.Ids) :
    ∀ q, T.store q ≠ none → Under T T.root q := by
  -- on the way up ranks grow, and they are bounded
  obtain ⟨n, hn⟩ : ∃ n, ∀ q, T.store q ≠ none → rank q ≤ n :=
    ⟨(Finset.range T.next).sup rank, fun q hq =>
      Finset.le_sup (Finset.mem_range.mpr (hi.used q hq).2.1)⟩
  intro q hq
  induction hk : n - rank q using Nat.strong_induction_on generalizing q with
  | _ k ih =>
    by_cases hroot : q = T.root
    · rw [hroot]
      exact .here _
    · obtain ⟨p, j, ps, pr, hp, hj, rfl⟩ := h.linked q hq hroot
      have hm := List.mem_of_getElem? hj
      have hlt := (hs.child p ps hp pr hm).2
      have hp' : T.store p ≠ none := by simp [hp]
      have hle := hn p hp'
      exact (ih (n - rank p) (by omega) p hp' rfl).trans (.step hp hm (.here _))

/-- A key is led to its page. -/
theorem StrictMinKey.goes (h : StrictMinKey w T) (hu : Under T p q) (hx : HasKey w T q x)
    (hp : Goes True w T x p) : Goes True w T x q := by
  induction hu with
  | here p => exact hp
  | @step p q ps pr hp' hm hu ih =>
    obtain ⟨j, hj⟩ := List.getElem?_of_mem hm
    obtain ⟨hjlt, hget⟩ := List.getElem?_eq_some_iff.mp hj
    have hsorted := h.sorted p ps hp'
    have hle : pairKey w ps j ≤ x := by
      rw [pairKey_getElem hjlt, hget]
      exact h.from_pair p ps j pr q x hp' hj hu hx
    have hlt : j + 1 < ps.length → x < pairKey w ps (j + 1) := by
      intro hj'
      rw [pairKey_getElem hj']
      exact h.to_next p ps j pr _ q x hp' hj (List.getElem?_eq_getElem hj') hu hx
    have hc : childIdx w ps x = j := (childIdx_iff hsorted hjlt).mpr ⟨.inr hle, hlt⟩
    exact ih hx (hp.step hp' (by rw [hc]; exact hj) fun _ =>
      Int.le_trans (hsorted.le (Nat.zero_le j) hjlt) hle)

/-- In strict min-key order every record and separator leads to its page. -/
theorem StrictMinKey.routed (h : StrictMinKey w T) (hpar : OneParent T) (hs : Shape w rank T)
    (hi : T.Ids) : Routed True w T := by
  have hgo : ∀ q x, T.store q ≠ none → HasKey w T q x → Goes True w T x q := fun q x hq hx =>
    h.goes (hpar.under_root hs hi q hq) hx .root
  have hat : ∀ {p ps pr}, T.store p = some (.inner ps) → pr ∈ ps → ∃ j, ps[j]? = some pr ∧
      ChildAt T p j pr.2 := by
    intro p ps pr hp hm
    obtain ⟨j, hj⟩ := List.getElem?_of_mem hm
    exact ⟨j, hj, ps, pr, hp, hj, rfl⟩
  refine ⟨h.sorted, fun p ps hp pr hm => hgo p _ (by simp [hp]) (.separator hp hm), ?_,
    fun p es l r hp b hb => hgo p _ (by simp [hp]) (.record hp hb), ?_, ?_, ?_, ?_⟩
  · intro p ps hp pr hm qs hq
    obtain ⟨j, hj⟩ := List.getElem?_of_mem hm
    have hpos := List.length_pos_iff.mpr (hs.pairs pr.2 qs hq)
    rw [pairKey_getElem hpos]
    exact h.from_pair p ps j pr pr.2 _ hp hj (.here _) (.separator hq (List.getElem_mem hpos))
  · intro p ps hp
    refine List.pairwise_map.mpr (List.pairwise_iff_getElem.mpr fun i k hi hk hik he => ?_)
    have hu := hpar.unique p p i k ps[k].2 ⟨ps, ps[i], hp, List.getElem?_eq_getElem hi, he⟩
      ⟨ps, ps[k], hp, List.getElem?_eq_getElem hk, rfl⟩
    exact absurd hu.2 (Nat.ne_of_lt hik)
  · intro p ps p' ps' pr pr' hp hp' hm hm' he
    obtain ⟨j, -, hc⟩ := hat hp hm
    obtain ⟨j', -, hc'⟩ := hat hp' hm'
    exact (hpar.unique p p' j j' _ hc (he ▸ hc')).1
  · intro p ps hp pr hm he
    obtain ⟨j, -, hc⟩ := hat hp hm
    exact hpar.root p j (he ▸ hc)
  · intro q hq hroot
    obtain ⟨p, j, ps, pr, hp, hj, he⟩ := hpar.linked q hq hroot
    exact ⟨p, ps, pr, hp, List.mem_of_getElem? hj, he⟩

theorem MinKeyTree.routed (h : MinKeyTree w T) (hi : T.Ids) : Routed True w T := by
  obtain ⟨rank, hs⟩ := h.shape
  exact h.minKey.routed h.parents hs hi

/-- A key led to a page was led to every page above it. -/
theorem Routed.goes_above (h : Routed σ w T) (hu : Under T p q) (hx : Goes σ w T x q) :
    Goes σ w T x p := by
  induction hu with
  | here p => exact hx
  | step hp hm hu ih =>
    obtain ⟨j, hj⟩ := List.getElem?_of_mem hm
    exact (h.last (ih hx) hp hj rfl).1

theorem Routed.goes_key (h : Routed σ w T) (hx : HasKey w T q x) : Goes σ w T x q := by
  cases hx with
  | record hp hb => exact h.recs q _ _ _ hp _ hb
  | separator hp hm => exact h.keys q _ hp _ hm

theorem StrictMinKey.of_routed (h : Routed True w T) : StrictMinKey w T := by
  have hlast : ∀ {p ps j pr q x}, T.store p = some (.inner ps) → ps[j]? = some pr →
      Under T pr.2 q → HasKey w T q x → childIdx w ps x = j ∧ pairKey w ps 0 ≤ x := by
    intro p ps j pr q x hp hj hu hx
    obtain ⟨-, hc, h0⟩ := h.last (h.goes_above hu (h.goes_key hx)) hp hj rfl
    exact ⟨hc, h0 trivial⟩
  refine ⟨h.sorted, fun p ps j pr q x hp hj hu hx => ?_,
    fun p ps j pr pr' q x hp hj hj' hu hx => ?_⟩
  · obtain ⟨hc, h0⟩ := hlast hp hj hu hx
    obtain ⟨hjlt, hget⟩ := List.getElem?_eq_some_iff.mp hj
    have hkey : pairKey w ps j = keyOf w pr.1 := by rw [pairKey_getElem hjlt, hget]
    rw [← hkey]
    rcases ((childIdx_iff (h.sorted p ps hp) hjlt).mp hc).1 with rfl | hle
    · exact h0
    · exact hle
  · obtain ⟨hc, -⟩ := hlast hp hj hu hx
    have hjlt := (List.getElem?_eq_some_iff.mp hj).1
    obtain ⟨hjlt', hget⟩ := List.getElem?_eq_some_iff.mp hj'
    have hlt := ((childIdx_iff (h.sorted p ps hp) hjlt).mp hc).2 hjlt'
    rwa [pairKey_getElem hjlt', hget] at hlt

theorem OneParent.of_routed (h : Routed σ w T) : OneParent T where
  root p j := by
    rintro ⟨ps, pr, hp, hj, he⟩
    exact h.top p ps hp pr (List.mem_of_getElem? hj) he
  linked q hq hroot := by
    obtain ⟨p, ps, pr, hp, hm, he⟩ := h.linked q hq hroot
    obtain ⟨j, hj⟩ := List.getElem?_of_mem hm
    exact ⟨p, j, ps, pr, hp, hj, he⟩
  unique p p' j j' q := by
    rintro ⟨ps, pr, hp, hj, he⟩ ⟨ps', pr', hp', hj', he'⟩
    obtain rfl := h.single p ps p' ps' pr pr' hp hp' (List.mem_of_getElem? hj)
      (List.mem_of_getElem? hj') (he.trans he'.symm)
    rw [hp] at hp'
    cases hp'
    exact ⟨rfl, h.index hp hj hj' (he.trans he'.symm)⟩

/-! ## The tree after a split -/

/-- The records of the leaves. -/
def Tree.records (T : Tree) : Set Bytes :=
  {b | ∃ p es left right, T.store p = some (.leaf es left right) ∧ .live b ∈ es}

theorem splitChild_records (hi : T.Ids) (hp : T.store p = some (.leaf es left right)) :
    (T.splitChild w p es left right stack).records = T.records := by
  have hpn : T.store p ≠ none := by simp [hp]
  obtain ⟨⟨l₁, h1⟩, ⟨l₂, h2⟩, h3⟩ := Tree.splitLeaf_of_leaf (w := w) hi hp
  have hleaf : ∀ {q es' l r}, (T.splitLeaf w p es left right).2.2.store q = some (.leaf es' l r) →
      ∀ b, .live b ∈ es' → b ∈ (T.splitChild w p es left right stack).records :=
    fun hq b hb => ⟨_, _, _, _, (splitChild_leaf hi hpn).mpr hq, hb⟩
  refine Set.Subset.antisymm ?_ ?_
  · rintro b ⟨q, es', l, r, hq, hb⟩
    obtain ⟨p₀, es₀, l₀, r₀, hp₀, hsub⟩ := splitChild_part hi hp hq
    exact ⟨p₀, es₀, l₀, r₀, hp₀, hsub.subset hb⟩
  · rintro b ⟨q, es', l, r, hq, hb⟩
    by_cases hqp : q = p
    · -- a record of the leaf goes to one of its halves
      subst hqp
      rw [hp] at hq
      cases hq
      rw [← List.take_append_drop (Tree.pivotOf es) es, List.mem_append] at hb
      cases hb with
      | inl hb => exact hleaf h1 b (List.mem_filter.mpr ⟨hb, rfl⟩)
      | inr hb => exact hleaf h2 b (List.mem_filter.mpr ⟨hb, rfl⟩)
    · obtain ⟨l', hq'⟩ := h3 q es' l r hqp hq
      exact hleaf hq' b hb

theorem splitChild_minKeyTree (hw : w ≤ 8) (hi : T.Ids) (h : MinKeyTree w T)
    (hp : T.store p = some (.leaf es left right)) (hh : Halves es) (hr : Route w T x p stack) :
    MinKeyTree w (T.splitChild w p es left right stack) := by
  obtain ⟨rank, hs⟩ := h.shape
  have hlt := h.leaves p es left right hp
  have hrouted := h.routed hi
  obtain ⟨rank', hs', -⟩ := splitChild_shape hw hs hi hr hp
  have hrouted' := splitChild_routed hw hi hs hrouted hp hh hlt hr.path (hr.nodup hs)
    fun q ps pr hq hpr he => hrouted.below_pivot hh hlt hp hq hpr he (.inl trivial)
  refine ⟨⟨rank', hs'⟩, .of_routed hrouted', .of_routed hrouted', fun q es' l r hq => ?_,
    splitChild_leavesApart hi h.apart hlt hp⟩
  obtain ⟨p₀, es₀, l₀, r₀, hp₀, hsub⟩ := splitChild_part hi hp hq
  exact (h.leaves p₀ es₀ l₀ r₀ hp₀).sublist hsub

end

end DbInternals.Index
