import DbInternals.Index.TreeStore

/-!
# Descending

`Shape w rank T`: what keeps a descent going. Internal pages are not empty,
their children are pages of a smaller rank, leaf records hold their key, and
the right neighbour of a leaf is a leaf. `Route` is the path a key takes.

Results:
* `find_route`: the search of a key ends at a leaf, along its route;
* `findRecord_ends`: the code of `findRecord` is that search.
-/
namespace DbInternals.Index

open Storage SlottedPage Mem

/-! ## Routes -/

def Tree.IsLeaf (T : Tree) (p : Nat) : Prop := ∃ es left right, T.store p = some (.leaf es left right)

structure Shape (w : Nat) (rank : Nat → Nat) (T : Tree) : Prop where
  root : T.store T.root ≠ none
  pairs : ∀ p ps, T.store p = some (.inner ps) → ps ≠ []
  child : ∀ p ps, T.store p = some (.inner ps) → ∀ pr ∈ ps, T.store pr.2 ≠ none ∧ rank pr.2 < rank p
  long : ∀ p es left right, T.store p = some (.leaf es left right) → LongEnough w es
  sibling : ∀ p es left right, T.store p = some (.leaf es left right) →
    right = INVALID_PAGE_ID ∨ T.IsLeaf right

/-- Looking for `x` leads to page `p` below the pages `stack`, nearest first. -/
inductive Route (w : Nat) (T : Tree) (x : Int) : Nat → List Nat → Prop
  | root : Route w T x T.root []
  | step {p : Nat} {stack : List Nat} {ps : List Pair} {pr : Pair} (h : Route w T x p stack)
    (hp : T.store p = some (.inner ps)) (hc : ps[childIdx w ps x]? = some pr) :
    Route w T x pr.2 (p :: stack)

section
variable {w : Nat} {rank : Nat → Nat} {T : Tree} {x : Int} {p leaf : Nat} {stack : List Nat}

theorem Shape.childIdx_get (h : Shape w rank T) {ps : List Pair}
    (hp : T.store p = some (.inner ps)) (x : Int) :
    ∃ pr, ps[childIdx w ps x]? = some pr ∧ pr ∈ ps := by
  have hlt := childIdx_lt (w := w) (x := x) (h.pairs p ps hp)
  exact ⟨_, List.getElem?_eq_getElem hlt, List.getElem_mem hlt⟩

/-- Ranks fall along a route. -/
theorem Route.ranked (h : Shape w rank T) (hr : Route w T x p stack) :
    T.store p ≠ none ∧ (∀ q ∈ stack, ∃ ps, T.store q = some (.inner ps)) ∧
      (p :: stack).Pairwise fun a b => rank a < rank b := by
  induction hr with
  | root => exact ⟨h.root, by simp, by simp⟩
  | @step p stack ps pr hr hp hc ih =>
    obtain ⟨h1, h2, h3⟩ := ih
    obtain ⟨hs, hlt⟩ := h.child p ps hp pr (List.mem_of_getElem? hc)
    refine ⟨hs, ?_, List.pairwise_cons.mpr ⟨?_, h3⟩⟩
    · intro q hq
      rcases List.mem_cons.mp hq with rfl | hq
      · exact ⟨ps, hp⟩
      · exact h2 q hq
    · intro q hq
      rcases List.mem_cons.mp hq with rfl | hq
      · exact hlt
      · exact hlt.trans ((List.pairwise_cons.mp h3).1 q hq)

theorem Route.nodup (hr : Route w T x p stack) (h : Shape w rank T) : stack.Nodup := by
  obtain ⟨-, -, h3⟩ := hr.ranked h
  refine (List.pairwise_cons.mp h3).2.imp fun hlt e => ?_
  rw [e] at hlt
  exact Nat.lt_irrefl _ hlt

/-- Pages below the next id: a route is no longer than that. -/
theorem Route.length_lt (h : Shape w rank T) (hn : T.Ids) (hr : Route w T x p stack) :
    stack.length < T.next := by
  obtain ⟨h1, h2, h3⟩ := hr.ranked h
  have hnd : (p :: stack).Nodup := h3.imp fun hlt e => by rw [e] at hlt; exact Nat.lt_irrefl _ hlt
  have hsub : p :: stack ⊆ List.range T.next := by
    intro q hq
    rw [List.mem_range]
    rcases List.mem_cons.mp hq with rfl | hq
    · exact (hn.used q h1).2.1
    · obtain ⟨ps, hps⟩ := h2 q hq
      exact (hn.used q (by rw [hps]; simp)).2.1
  have hlen := hnd.length_le_of_subset hsub
  rw [List.length_cons, List.length_range] at hlen
  exact hlen

theorem walk_route (h : Shape w rank T) (hn : T.Ids) :
    ∀ (fuel p : Nat) (stack : List Nat), Route w T x p stack → fuel + stack.length = T.next + 1 →
    ∃ leaf stack', T.walk w x fuel p stack = some (leaf, stack') ∧ Route w T x leaf stack' ∧
      T.IsLeaf leaf
  | 0, p, stack, hr, hf => by
    have := hr.length_lt h hn
    omega
  | fuel + 1, p, stack, hr, hf => by
    obtain ⟨n, hp⟩ := Option.ne_none_iff_exists'.mp (hr.ranked h).1
    unfold Tree.walk
    cases n with
    | leaf es left right => exact ⟨p, stack, by rw [hp], hr, es, left, right, hp⟩
    | inner ps =>
      obtain ⟨pr, hc, -⟩ := h.childIdx_get hp x
      rw [hp]
      simp only [hc]
      exact walk_route h hn fuel pr.2 (p :: stack) (hr.step hp hc) (by simp; omega)

/-- The search passes every page of the route. -/
theorem Route.walk (h : Shape w rank T) (hn : T.Ids) (hr : Route w T x p stack) :
    T.find w x = T.walk w x (T.next + 1 - stack.length) p stack := by
  induction hr with
  | root => rfl
  | @step p stack ps pr hr hp hc ih =>
    have hlen := hr.length_lt h hn
    rw [ih, List.length_cons, show T.next + 1 - stack.length = T.next + 1 - (stack.length + 1) + 1 by omega,
      Tree.walk, hp]
    simp only [hc]

/-- A route to a leaf is where the search ends. -/
theorem Route.find (h : Shape w rank T) (hn : T.Ids) (hr : Route w T x p stack) (hp : T.IsLeaf p) :
    T.find w x = some (p, stack) := by
  obtain ⟨es, left, right, hp⟩ := hp
  have hlen := hr.length_lt h hn
  rw [hr.walk h hn, show T.next + 1 - stack.length = T.next - stack.length + 1 by omega, Tree.walk, hp]

theorem find_route (h : Shape w rank T) (hn : T.Ids) (x : Int) :
    ∃ leaf stack, T.find w x = some (leaf, stack) ∧ Route w T x leaf stack ∧ T.IsLeaf leaf :=
  walk_route h hn _ _ _ .root (by simp)

end

/-! ## The code -/

section
variable {t : TreeConfig} {τ : Prop} {s : TreeState} {T : Tree} {target : Key} {x : Int}

theorem descend_ends (ht : t.Numeric) (h : Holds t τ s T) (hx : target.Decodes x) :
    ∀ (fuel p : Nat) (bt : BTStack) (leaf : Nat) (stack : List Nat),
    T.walk t.keyWidth x fuel p (bt.map Breadcrumb.pageId) = some (leaf, stack) →
    ∃ bt' : BTStack, bt'.map Breadcrumb.pageId = stack ∧
      Ends (descend t target fuel p (s.page p) bt) s (leaf, s.page leaf, bt') s
  | 0, _, _, _, _, hw => by simp [Tree.walk] at hw
  | fuel + 1, p, bt, leaf, stack, hw => by
    unfold Tree.walk at hw
    split at hw
    · next hp =>
      cases hw
      refine ⟨bt, rfl, ?_⟩
      have htype := (h.nodeAt hp).2.2.1
      change descend t target (fuel + 1) p (s.page p) bt s = _
      rw [descend, if_pos htype]
      rfl
    · next ps hp =>
      have hna := h.nodeAt hp
      split at hw
      · next k c hc =>
        have hlt := (List.getElem?_eq_some_iff.mp hc).1
        have hcs : T.store c ≠ none := by
          intro hnone
          cases fuel with
          | zero => simp [Tree.walk] at hw
          | succ fuel => simp [Tree.walk, hnone] at hw
        obtain ⟨n, hn⟩ := Option.ne_none_iff_exists'.mp hcs
        have hslot := childSlot_spec ht hna hx
        have hchild : childPageId (s.page p) (childIdx t.keyWidth ps x * 2 + 1) = .ok c := by
          refine childPageId_spec hna.1 ?_ (hna.2.2.2 (k, c) (List.mem_of_getElem? hc)).2
          rw [hna.2.2.1, Nat.mul_comm, getElem?_pairEntries_child, hc]; rfl
        obtain ⟨bt', e, he⟩ := descend_ends ht h hx fuel c
          ({ pageId := p, childSlot := childIdx t.keyWidth ps x * 2 + 1 } :: bt) leaf stack hw
        refine ⟨bt', e, ?_⟩
        have htype : ¬ getPageType (s.page p) = .leafPage := by rw [hna.2.1]; simp
        unfold descend
        rw [if_neg htype]
        exact (ends_buf hslot).bind ((ends_buf hchild).bind ((h.read hn).bind he))
      · cases hw
    · cases hw

/-- `findRecord` is the search of the tree. -/
theorem findRecord_ends (ht : t.Numeric) (h : Holds t τ s T) (hx : target.Decodes x)
    {leaf : Nat} {stack : List Nat} (hf : T.find t.keyWidth x = some (leaf, stack))
    {es : List Entry} {left right : Nat} (hl : T.store leaf = some (.leaf es left right))
    (hlong : LongEnough t.keyWidth es) :
    ∃ bt : BTStack, bt.map Breadcrumb.pageId = stack ∧
      Ends (findRecord t target) s ⟨leaf, lowerSlot t.keyWidth es x, bt⟩ s := by
  have hroot : T.store T.root ≠ none := by
    intro hnone
    simp [Tree.find, Tree.walk, hnone] at hf
  obtain ⟨n, hn⟩ := Option.ne_none_iff_exists'.mp hroot
  obtain ⟨bt, e, he⟩ := descend_ends ht h hx (T.next + 1) T.root [] leaf stack hf
  refine ⟨bt, e, ?_⟩
  have hna := h.nodeAt hl
  have hslot := leafSlot_spec ht hna.1 hna.2.2.2.1 hlong hx
  unfold findRecord
  refine (Ends.get s).bind ?_
  rw [h.root]
  refine (h.read hn).bind ((Ends.get s).bind ?_)
  rw [show s.diskManager.globalMetadata.nextPageId = T.next from h.next]
  exact he.bind ((ends_buf hslot).bind (.pure _ _))

end

end DbInternals.Index
