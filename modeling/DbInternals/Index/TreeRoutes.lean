import DbInternals.Index.TreeOrder

/-!
# Routes under a split

`Tree.wire` on a tree that is `Routed`. The levels above a full page take its
upper half before the page itself takes the pair that is waiting; as these
steps touch different pages the order does not matter (`wire_setNode`), and
each step becomes a page halved and linked in at once (`Routed.graft`).

Results: `Routed.addRoot`, `wire_setNode`, `wire_routed`; `wire_forwards`, what is led to a leaf
before and after.
-/
namespace DbInternals.Index

open Storage SlottedPage

section
variable {σ : Prop} {w : Nat} {rank : Nat → Nat} {T T' : Tree} {x : Int} {p q left right a : Nat}
  {ps : List Pair} {pr : Pair} {sep : Bytes} {n nl nr : Node}

/-! ## Steps on different pages -/

namespace Tree

theorem setNode_comm (h : p ≠ q) (m : Node) :
    (T.setNode p n).setNode q m = (T.setNode q m).setNode p n := by
  unfold setNode
  simp only [Function.update_comm h]

theorem alloc_setNode : (T.setNode a n).alloc = (T.alloc.1, T.alloc.2.setNode a n) := by
  unfold alloc
  simp only [setNode_free]
  split <;> rfl

theorem addPair_setNode (ha : a ≠ p) :
    (T.setNode a n).addPair w p sep right = (T.addPair w p sep right).setNode a n := by
  unfold addPair
  rw [setNode_of_ne T n (Ne.symm ha)]
  split
  · exact setNode_comm ha _
  · rfl

theorem splitNode_setNode (hi : T.InUse a) (ha : a ≠ p) :
    ((T.setNode a n).splitNode p ps).2.2 = (T.splitNode p ps).2.2.setNode a n := by
  rw [splitNode_tree, splitNode_tree, alloc_setNode]
  dsimp only
  rw [setNode_comm ha, setNode_comm hi.alloc_ne]

theorem splitRoot_setNode (hi : T.InUse a) (ha : a ≠ left) :
    (T.setNode a n).splitRoot w left sep right = (T.splitRoot w left sep right).setNode a n := by
  have hmin : (T.setNode a n).minKey w left = T.minKey w left := by
    unfold minKey
    rw [setNode_of_ne T n (Ne.symm ha)]
  unfold splitRoot
  rw [alloc_setNode, hmin]
  dsimp only
  rw [setNode_comm hi.alloc_ne]
  rfl

end Tree

/-- A page in use that is not on the stack may as well be written afterwards. -/
theorem wire_setNode : ∀ (stack : List Nat) (T : Tree) (left : Nat) (sep : Bytes) (right : Nat),
    T.InUse a → a ∉ stack → a ≠ left →
    Tree.wire w stack (T.setNode a n) left sep right =
      (Tree.wire w stack T left sep right).setNode a n
  | [], _, _, _, _, hi, _, hl => Tree.splitRoot_setNode hi hl
  | p :: rest, T, left, sep, right, hi, hs, _ => by
    obtain ⟨hap, har⟩ : a ≠ p ∧ a ∉ rest := by simpa using hs
    have hstore := Tree.setNode_of_ne T n (Ne.symm hap)
    cases hp : T.store p with
    | none => simp only [Tree.wire, hstore, hp]
    | some m =>
      cases m with
      | leaf es l r => simp only [Tree.wire, hstore, hp]
      | inner ps =>
        have hside : a ≠ if keyOf w (T.splitNode p ps).2.1 < keyOf w sep then T.alloc.1 else p := by
          split
          · exact hi.alloc_ne
          · exact hap
        rw [Tree.wire_cons hp, Tree.wire_cons (hstore.trans hp)]
        split
        · exact Tree.addPair_setNode hap
        · have hi' : (T.splitNode p ps).2.2.InUse a := hi.alloc
          rw [Tree.splitNode_setNode hi hap, Tree.alloc_setNode,
            wire_setNode rest _ p _ _ hi' har hap]
          exact Tree.addPair_setNode hside

/-! ## A new root -/

theorem Goes.root_key (h : Goes σ w T x p) (hr : T.store T.root = some (.inner ps)) :
    p = T.root ∨ (σ → pairKey w ps 0 ≤ x) := by
  induction h with
  | root => exact .inl rfl
  | step _ hp _ hσ ih =>
    right
    cases ih with
    | inl he =>
      subst he
      rw [hr] at hp
      cases hp
      exact hσ
    | inr hle => exact hle

/-- The root with one page above it. -/
def Tree.addRoot (T : Tree) (r : Nat) (k : Bytes) : Tree :=
  { T.setNode r (.inner [(k, T.root)]) with root := r }

/-- What is found in the tree is found below the new root. -/
theorem Goes.addRoot (hx : Goes σ w T x q) {r : Nat} {k : Bytes} (hr : T.store r = none)
    (hkx : σ → keyOf w k ≤ x) : Goes σ w (T.addRoot r k) x q := by
  have hne : ∀ q, T.store q ≠ none → q ≠ r := fun q hq e => hq (e ▸ hr)
  have hstore : ∀ q, q ≠ r → (T.addRoot r k).store q = T.store q := fun q hq =>
    Tree.setNode_of_ne T _ hq
  have hroot : (T.addRoot r k).store r = some (.inner [(k, T.root)]) := Tree.setNode_self ..
  induction hx with
  | root =>
    have hc : childIdx w [(k, T.root)] x = 0 := by
      have := childIdx_lt (w := w) (x := x) (show [(k, T.root)] ≠ [] by simp)
      simpa using this
    have h0 : [(k, T.root)][childIdx w [(k, T.root)] x]? = some (k, T.root) := by rw [hc]; rfl
    exact Goes.step .root hroot h0 hkx
  | @step p ps pr _ hp hc hσ ih =>
    exact ih.step (by rw [hstore p (hne p (by simp [hp]))]; exact hp) hc hσ

theorem Routed.addRoot (h : Routed σ w T) (hs : Shape w rank T) {r : Nat} {k : Bytes}
    (hr : T.store r = none) (hk : ∀ ps, T.store T.root = some (.inner ps) → keyOf w k ≤ pairKey w ps 0)
    (hleaf : ∀ es l r, T.store T.root = some (.leaf es l r) → ∀ b, .live b ∈ es →
      keyOf w k ≤ keyOf w b) : Routed σ w (T.addRoot r k) := by
  have hne : ∀ q, T.store q ≠ none → q ≠ r := fun q hq e => hq (e ▸ hr)
  have hstore : ∀ q, q ≠ r → (T.addRoot r k).store q = T.store q := fun q hq =>
    Tree.setNode_of_ne T _ hq
  have hroot : (T.addRoot r k).store r = some (.inner [(k, T.root)]) := Tree.setNode_self ..
  have hgo : ∀ {x q}, Goes σ w T x q → (σ → keyOf w k ≤ x) → Goes σ w (T.addRoot r k) x q :=
    fun hx hkx => hx.addRoot hr hkx
  have hinner : ∀ q qs, (T.addRoot r k).store q = some (.inner qs) →
      q = r ∧ qs = [(k, T.root)] ∨ q ≠ r ∧ T.store q = some (.inner qs) := by
    intro q qs hq
    by_cases hqr : q = r
    · subst hqr
      rw [hroot] at hq
      cases hq
      exact .inl ⟨rfl, rfl⟩
    · exact .inr ⟨hqr, by rwa [hstore q hqr] at hq⟩
  have hfloor : ∀ {x q}, Goes σ w T x q → (q = T.root → keyOf w k ≤ x) → σ → keyOf w k ≤ x := by
    intro x q hx hq hh
    obtain ⟨n, hn⟩ := Option.ne_none_iff_exists'.mp hs.root
    cases n with
    | leaf es l r' =>
      cases hx with
      | root => exact hq rfl
      | @step p ps pr hx hp hc hσ =>
        exfalso
        have hall : ∀ {x q}, Goes σ w T x q → q = T.root := by
          intro x q hx
          induction hx with
          | root => rfl
          | step _ hp _ _ ih => rw [ih, hn] at hp; cases hp
        rw [hall hx, hn] at hp
        cases hp
    | inner ps =>
      cases hx.root_key hn with
      | inl he => exact hq he
      | inr hle => exact Int.le_trans (hk ps hn) (hle hh)
  refine ⟨?_, ?_, ?_, ?_, ?_, ?_, ?_, ?_⟩
  · intro q qs hq
    rcases hinner q qs hq with ⟨-, rfl⟩ | ⟨-, hq⟩
    · exact List.pairwise_singleton _ _
    · exact h.sorted q qs hq
  · intro q qs hq pr hpr
    rcases hinner q qs hq with ⟨rfl, rfl⟩ | ⟨-, hq⟩
    · exact .root
    · have hx := h.keys q qs hq pr hpr
      refine hgo hx (hfloor hx fun e => ?_)
      subst e
      obtain ⟨i, hi, rfl⟩ := List.getElem_of_mem hpr
      rw [← pairKey_getElem hi]
      exact Int.le_trans (hk qs hq) ((h.sorted _ _ hq).le (Nat.zero_le i) hi)
  · intro q qs hq pr hpr rs hc
    rcases hinner q qs hq with ⟨rfl, rfl⟩ | ⟨-, hq⟩
    · obtain rfl := List.mem_singleton.mp hpr
      exact hk rs (by rwa [hstore _ (hne _ hs.root)] at hc)
    · have hcn := (hs.child q qs hq pr hpr).1
      exact h.first q qs hq pr hpr rs (by rwa [hstore _ (hne _ hcn)] at hc)
  · intro q es l r' hq b hb
    have hqr : q ≠ r := by
      rintro rfl
      rw [hroot] at hq
      cases hq
    rw [hstore q hqr] at hq
    have hx := h.recs q es l r' hq b hb
    refine hgo hx (hfloor hx fun e => ?_)
    subst e
    exact hleaf es l r' hq b hb
  · intro q qs hq
    rcases hinner q qs hq with ⟨-, rfl⟩ | ⟨-, hq⟩
    · simp
    · exact h.nodup q qs hq
  · intro q qs q' qs' pr pr' hq hq' hm hm' he
    rcases hinner q qs hq with ⟨h₁, hqs⟩ | ⟨-, h₁⟩
    · rcases hinner q' qs' hq' with ⟨h₂, -⟩ | ⟨-, h₂⟩
      · exact h₁.trans h₂.symm
      · subst hqs
        rw [List.mem_singleton.mp hm] at he
        exact absurd he.symm (h.top q' qs' h₂ pr' hm')
    · rcases hinner q' qs' hq' with ⟨-, hqs⟩ | ⟨-, h₂⟩
      · subst hqs
        rw [List.mem_singleton.mp hm'] at he
        exact absurd he (h.top q qs h₁ pr hm)
      · exact h.single q qs q' qs' pr pr' h₁ h₂ hm hm' he
  · intro q qs hq pr hpr
    rcases hinner q qs hq with ⟨rfl, rfl⟩ | ⟨-, hq⟩
    · rw [List.mem_singleton.mp hpr]
      exact hne _ hs.root
    · exact hne _ (hs.child q qs hq pr hpr).1
  · intro q hq hqr
    have hqr' : q ≠ r := hqr
    by_cases he : q = T.root
    · exact ⟨r, _, (k, T.root), hroot, by simp, he.symm⟩
    · rw [hstore q hqr'] at hq
      obtain ⟨q', qs, pr, hq', hm, hp⟩ := h.linked q hq he
      exact ⟨q', qs, pr, by rw [hstore q' (hne q' (by simp [hq']))]; exact hq', hm, hp⟩

/-! ## Handing a page upwards -/

/-- Internal pages stay, and so do the routes of the records. -/
theorem Routed.congr (h : Routed σ w T) (hr : T'.root = T.root)
    (hi : ∀ q qs, T'.store q = some (.inner qs) ↔ T.store q = some (.inner qs))
    (hl : ∀ q es l r, T'.store q = some (.leaf es l r) → ∀ b, .live b ∈ es →
      Goes σ w T (keyOf w b) q)
    (hn : ∀ q, T'.store q ≠ none → T.store q ≠ none) : Routed σ w T' := by
  have hgo : ∀ {x q}, Goes σ w T x q → Goes σ w T' x q := fun hx =>
    hx.congr hr fun q qs hq => (hi q qs).mpr hq
  refine ⟨fun p ps hp => h.sorted p ps ((hi p ps).mp hp), ?_, ?_, ?_,
    fun p ps hp => h.nodup p ps ((hi p ps).mp hp), ?_, ?_, ?_⟩
  · intro p ps hp pr hpr
    exact hgo (h.keys p ps ((hi p ps).mp hp) pr hpr)
  · intro p ps hp pr hpr qs hq
    exact h.first p ps ((hi p ps).mp hp) pr hpr qs ((hi _ qs).mp hq)
  · intro p es l r hp b hb
    exact hgo (hl p es l r hp b hb)
  · intro p ps p' ps' pr pr' hp hp'
    exact h.single p ps p' ps' pr pr' ((hi p ps).mp hp) ((hi p' ps').mp hp')
  · intro p ps hp pr hpr
    rw [hr]
    exact h.top p ps ((hi p ps).mp hp) pr hpr
  · intro p hp hroot
    rw [hr] at hroot
    obtain ⟨q, qs, pr, hq, hm, he⟩ := h.linked p (hn p hp) hroot
    exact ⟨q, qs, pr, (hi q qs).mpr hq, hm, he⟩

theorem Routed.alloc (h : Routed σ w T) : Routed σ w T.alloc.2 := by
  refine h.congr Tree.alloc_root (fun q qs => by rw [Tree.alloc_store]) (fun q es l r hq => ?_)
    fun q hq => by rwa [Tree.alloc_store] at hq
  rw [Tree.alloc_store] at hq
  exact h.recs q es l r hq

/-- A page halved: where the parts are. -/
structure Split (T : Tree) (left right : Nat) (n : Node) : Prop where
  ids : T.Ids
  node : T.store left = some n
  inUse : T.InUse right
  fresh : T.store right = none

/-- The tree with the page halved, the upper half not linked yet. -/
def Tree.halve (T : Tree) (left right : Nat) (nl nr : Node) : Tree :=
  (T.setNode left nl).setNode right nr

theorem Tree.halve_other (hl : q ≠ left) (hr : q ≠ right) :
    (T.halve left right nl nr).store q = T.store q := by
  rw [Tree.halve, Tree.setNode_of_ne _ _ hr, Tree.setNode_of_ne _ _ hl]

namespace Split

variable (s : Split T left right n)

include s

theorem ne : left ≠ right := by
  intro e
  have := s.node
  rw [e, s.fresh] at this
  cases this

theorem store_ne (hq : T.store q ≠ none) : q ≠ right := fun e => hq (e ▸ s.fresh)

theorem halve_left : (T.halve left right nl nr).store left = some nl := by
  rw [Tree.halve, Tree.setNode_of_ne _ _ s.ne, Tree.setNode_self]

theorem inUse_left : T.InUse left := s.ids.used left (by simp [s.node])

end Split

/-- The page linked in its parent. -/
theorem Split.grafted (s : Split T left right n) (h : Routed σ w T) (hs : Shape w rank T)
    (hn : Halving w n nl sep nr) (hp : T.store p = some (.inner ps)) (hpr : pr ∈ ps)
    (hl : pr.2 = left) (hlt : keyOf w pr.1 < keyOf w sep) : ∃ j,
    Graft w T ((T.halve left right nl nr).addPair w p sep right) p ps j pr n nl sep nr right := by
  obtain ⟨j, hj⟩ := List.getElem?_of_mem hpr
  subst hl
  have hpl : p ≠ pr.2 := by
    intro e
    have := (hs.child p ps hp pr hpr).2
    rw [← e] at this
    exact Nat.lt_irrefl _ this
  have hpr' : p ≠ right := s.store_ne (by simp [hp])
  have hstore : (T.halve pr.2 right nl nr).store p = some (.inner ps) :=
    (Tree.halve_other hpl hpr').trans hp
  have hjlt := (List.getElem?_eq_some_iff.mp hj).1
  have hkey : pairKey w ps j = keyOf w pr.1 := by rw [pairKey, hj]; rfl
  have hidx : lowerIdx w ps (keyOf w sep) = j + 1 := by
    refine lowerIdx_between (h.sorted p ps hp) hjlt (by rw [hkey]; exact hlt) fun hj' => ?_
    obtain ⟨-, hc, -⟩ := h.last (h.goes_sep s.node hn) hp hj rfl
    exact ((childIdx_iff (h.sorted p ps hp) hjlt).mp hc).2 hj'
  rw [Tree.addPair_eq hstore, hidx]
  refine ⟨j, ⟨hp, hj, hpl, hlt, s.node, hn, s.fresh, fun q qs hq pr hm =>
    (hs.child q qs hq pr hm).1, hs.root, rfl, Tree.setNode_self .., ?_, ?_, fun q h1 h2 h3 => ?_⟩⟩
  · rw [Tree.setNode_of_ne _ _ (Ne.symm hpl)]
    exact s.halve_left
  · rw [Tree.setNode_of_ne _ _ (Ne.symm hpr'), Tree.halve, Tree.setNode_self]
  · rw [Tree.setNode_of_ne _ _ h1]
    exact Tree.halve_other h2 h3

theorem Split.graft (s : Split T left right n) (h : Routed σ w T) (hs : Shape w rank T)
    (hn : Halving w n nl sep nr) (hp : T.store p = some (.inner ps)) (hpr : pr ∈ ps)
    (hl : pr.2 = left) (hlt : keyOf w pr.1 < keyOf w sep) :
    Routed σ w ((T.halve left right nl nr).addPair w p sep right) := by
  obtain ⟨j, g⟩ := s.grafted h hs hn hp hpr hl hlt
  exact h.graft g

/-- The page linked in a new root: as if the root had one page above it first. -/
theorem Split.newRoot_grafted (s : Split T T.root right n) (h : Routed σ w T) (hs : Shape w rank T)
    (hn : Halving w n nl sep nr) : ∃ k, Routed σ w (T.alloc.2.addRoot T.alloc.1 k) ∧
    Graft w (T.alloc.2.addRoot T.alloc.1 k) ((T.halve T.root right nl nr).splitRoot w T.root sep right)
      T.alloc.1 [(k, T.root)] 0 (k, T.root) n nl sep nr right := by
  have halloc : (T.halve T.root right nl nr).alloc =
      (T.alloc.1, T.alloc.2.halve T.root right nl nr) := by
    rw [Tree.halve, Tree.alloc_setNode, Tree.alloc_setNode]
    rfl
  have hnone : T.alloc.2.store T.alloc.1 = none := by rw [Tree.alloc_store, s.ids.alloc.2.2]
  have hroot₁ : T.alloc.2.root = T.root := Tree.alloc_root
  have hrf : T.root ≠ T.alloc.1 := s.inUse_left.alloc_ne
  have hqf : right ≠ T.alloc.1 := s.inUse.alloc_ne
  -- the first key of the lower half is the least of the page, and below the separator
  obtain ⟨k, hk⟩ : ∃ k, (T.halve T.root right nl nr).minKey w T.root = k := ⟨_, rfl⟩
  have hmin : (∀ ps, n = .inner ps → keyOf w k ≤ pairKey w ps 0) ∧ (∀ es l r, n = .leaf es l r →
      ∀ b, .live b ∈ es → keyOf w k ≤ keyOf w b) ∧ keyOf w k < keyOf w sep := by
    have hleft : (T.halve T.root right nl nr).store T.root = some nl := s.halve_left
    unfold Tree.minKey at hk
    rw [hleft] at hk
    cases hn with
    | leaf h₀ h₁ h₂ hsep =>
      obtain ⟨b, rest, rfl, hb, hle⟩ := h₀
      have hkb : keyOf w k = keyOf w b := by rw [← hk]; exact keyOf_take hb
      refine ⟨fun ps e => (by cases e), fun es l r e c hc => ?_, ?_⟩
      · cases e
        rw [hkb]
        exact hle c hc
      · rw [hkb]
        exact (h₁ b List.mem_cons_self).2
    | @inner qs m prm h0 hm =>
      obtain ⟨hmlt, hmget⟩ := List.getElem?_eq_some_iff.mp hm
      have hkey : keyOf w k = pairKey w qs 0 := by
        cases qs with
        | nil => simp at hmlt
        | cons pr qs =>
          cases m with
          | zero => omega
          | succ m => rw [← hk]; rfl
      refine ⟨fun ps e => ?_, fun es l r e => (by cases e), ?_⟩
      · cases e
        exact Int.le_of_eq hkey
      · have := (h.sorted _ _ s.node).lt h0 hmlt
        rw [hkey, ← hmget, ← pairKey_getElem hmlt]
        exact this
  have hs₁ : Shape w rank T.alloc.2 := hs.congr Tree.alloc_store Tree.alloc_root
  have hR := h.alloc.addRoot (r := T.alloc.1) (k := k) hs₁ hnone (fun ps hp => ?_)
    fun es l r hp => ?_
  · have hother : ∀ q, q ≠ T.alloc.1 → (T.alloc.2.addRoot T.alloc.1 k).store q = T.store q := by
      intro q hq
      exact (Tree.setNode_of_ne T.alloc.2 _ hq).trans (by rw [Tree.alloc_store])
    refine ⟨k, hR, ⟨?_, show [(k, T.root)][0]? = some (k, T.root) from rfl, Ne.symm hrf,
      hmin.2.2, ?_, hn, ?_, fun q qs hq pr hm => ?_, ?_, ?_, ?_, ?_, ?_, fun q h1 h2 h3 => ?_⟩⟩
    · rw [← hroot₁]
      exact Tree.setNode_self ..
    · rw [hother _ hrf, s.node]
    · rw [hother _ hqf, s.fresh]
    · by_cases hqr : q = T.alloc.1
      · subst hqr
        rw [show (T.alloc.2.addRoot T.alloc.1 k).store T.alloc.1 = _ from Tree.setNode_self ..] at hq
        cases hq
        rw [List.mem_singleton.mp hm, hroot₁, hother _ hrf, s.node]
        simp
      · rw [hother q hqr] at hq
        have hcn := (hs.child q qs hq pr hm).1
        rwa [hother _ (s.ids.alloc_ne hcn)]
    · rw [show (T.alloc.2.addRoot T.alloc.1 k).root = T.alloc.1 from rfl,
        show (T.alloc.2.addRoot T.alloc.1 k).store T.alloc.1 = _ from Tree.setNode_self ..]
      simp
    · rw [Tree.splitRoot_root, halloc]
      rfl
    · rw [Tree.splitRoot_store, halloc, Tree.setNode_self, hk]
      rfl
    · rw [Tree.splitRoot_store, halloc, Tree.setNode_of_ne _ _ hrf, Tree.halve,
        Tree.setNode_of_ne _ _ s.ne, Tree.setNode_self]
    · rw [Tree.splitRoot_store, halloc, Tree.setNode_of_ne _ _ hqf, Tree.halve, Tree.setNode_self]
    · rw [Tree.splitRoot_store, halloc, Tree.setNode_of_ne _ _ h1, Tree.halve_other h2 h3, hother q h1,
        Tree.alloc_store]
  · rw [Tree.alloc_store, hroot₁, s.node] at hp
    exact hmin.1 ps (Option.some.inj hp)
  · rw [Tree.alloc_store, hroot₁, s.node] at hp
    exact hmin.2.1 es l r (Option.some.inj hp)

theorem Split.newRoot (s : Split T T.root right n) (h : Routed σ w T) (hs : Shape w rank T)
    (hn : Halving w n nl sep nr) : Routed σ w ((T.halve T.root right nl nr).splitRoot w T.root sep
      right) := by
  obtain ⟨k, hR, g⟩ := s.newRoot_grafted h hs hn
  exact hR.graft g

/-- A full page is halved while `left` waits: as if the page were halved first. -/
theorem Split.splitNode (s : Split T left right n) (hp : T.store p = some (.inner ps)) (hpl : p ≠ left) :
    ((T.halve left right nl nr).splitNode p ps).2.2 =
      (T.splitNode p ps).2.2.halve left right nl nr := by
  have hpr : p ≠ right := s.store_ne (by simp [hp])
  have hu : (T.setNode left nl).InUse right := s.inUse
  rw [Tree.halve, Tree.splitNode_setNode hu (Ne.symm hpr),
    Tree.splitNode_setNode s.inUse_left (Ne.symm hpl)]
  rfl

/-- The page that takes the keys of `q` once `left` is split. -/
def halfOf (w left : Nat) (sep : Bytes) (right : Nat) (x : Int) (q : Nat) : Nat :=
  if q = left ∧ keyOf w sep ≤ x then right else q

theorem halfOf_other (h : q ≠ left) : halfOf w left sep right x q = q := if_neg fun e => h e.1

/-- What is led to a leaf is led there after the split, or to the new page. -/
def Forwards (σ : Prop) (w : Nat) (T T' : Tree) (left : Nat) (sep : Bytes) (right : Nat) : Prop :=
  ∀ x q, T.IsLeaf q → Goes σ w T x q → Goes σ w T' x (halfOf w left sep right x q)

theorem Graft.forwards {j : Nat} (g : Graft w T T' p ps j pr n nl sep nr right) (h : Routed σ w T)
    (hx : Goes σ w T x q) : Goes σ w T' x (halfOf w pr.2 sep right x q) := by
  obtain ⟨h1, h2, h3⟩ := g.goes h hx
  by_cases hq : q = pr.2
  · by_cases hle : keyOf w sep ≤ x
    · rw [halfOf, if_pos ⟨hq, hle⟩]
      exact h3 hq hle
    · rw [halfOf, if_neg fun e => hle e.2]
      exact h2 hq (Int.not_le.mp hle)
  · rw [halfOf_other hq]
    exact h1 hq

/-- Linking a new page keeps every route. -/
theorem wire_routes (hw : w ≤ 8) : ∀ (stack : List Nat) (T : Tree) (rank : Nat → Nat)
    (left right : Nat) (n nl nr : Node) (sep : Bytes), Split T left right n → Routed σ w T →
    Shape w rank T → Halving w n nl sep nr → Path T left stack → stack.Nodup →
    (∀ p ps pr, T.store p = some (.inner ps) → pr ∈ ps → pr.2 = left →
      keyOf w pr.1 < keyOf w sep) →
    Routed σ w (Tree.wire w stack (T.halve left right nl nr) left sep right) ∧
      (¬ σ → Forwards σ w T (Tree.wire w stack (T.halve left right nl nr) left sep right) left sep
        right)
  | [], T, rank, left, right, n, nl, nr, sep, s, h, hs, hn, hpath, _, _ => by
    obtain rfl : T.root = left := hpath
    obtain ⟨k, hR, g⟩ := s.newRoot_grafted h hs hn
    refine ⟨hR.graft g, fun hσ x q _ hx => g.forwards hR (Goes.addRoot (hx.congr Tree.alloc_root ?_) ?_
      fun hs => absurd hs hσ)⟩
    · intro q qs hq
      rw [Tree.alloc_store, hq]
    · rw [Tree.alloc_store, s.ids.alloc.2.2]
  | p :: rest, T, rank, left, right, n, nl, nr, sep, s, h, hs, hn, ⟨⟨ps, k, hp, hm⟩, hpath⟩, hnd,
      hlt => by
    have hpn : T.store p ≠ none := by simp [hp]
    obtain ⟨hpr, hnd'⟩ := List.nodup_cons.mp hnd
    have hrank := (hs.child p ps hp (k, left) hm).2
    have hpl : p ≠ left := by
      rintro rfl
      exact Nat.lt_irrefl _ hrank
    have hp₁ : (T.halve left right nl nr).store p = some (.inner ps) :=
      (Tree.halve_other hpl (s.store_ne hpn)).trans hp
    rw [Tree.wire_cons hp₁]
    split
    · obtain ⟨j, g⟩ := s.grafted h hs hn hp hm rfl (hlt p ps _ hp hm rfl)
      exact ⟨h.graft g, fun _ x q _ hx => g.forwards h hx⟩
    · next hroom =>
      have hlen := four_le_of_full hw hroom
      have hne : ∀ q, T.store q ≠ none → q ≠ T.alloc.1 := fun q hq => s.ids.alloc_ne hq
      have hleft : left ≠ T.alloc.1 := s.inUse_left.alloc_ne
      have hright : right ≠ T.alloc.1 := s.inUse.alloc_ne
      obtain ⟨hs1, hs2, hs3⟩ := Tree.splitNode_store ps s.ids hpn
      have hI' := Tree.splitNode_ids ps s.ids hpn
      have hrest : left ∉ rest ∧ right ∉ rest := by
        refine ⟨fun hq => ?_, fun hq => ?_⟩
        · exact Nat.lt_asymm hrank (hpath.rank_lt hs left hq)
        · obtain ⟨qs, hqs⟩ := hpath.inner right hq
          rw [s.fresh] at hqs
          cases hqs
      have halloc : (T.halve left right nl nr).alloc.1 = T.alloc.1 := by
        rw [Tree.halve, Tree.alloc_setNode, Tree.alloc_setNode]
      have hsepQ : ((T.halve left right nl nr).splitNode p ps).2.1 = (T.splitNode p ps).2.1 := rfl
      have hs' : Split (T.splitNode p ps).2.2 left right n :=
        ⟨hI', (hs3 left (Ne.symm hpl) hleft).trans s.node, s.inUse.alloc,
          (hs3 right (Ne.symm (s.store_ne hpn)) hright).trans s.fresh⟩
      have hwire : Tree.wire w rest ((T.splitNode p ps).2.2.halve left right nl nr) p
          (T.splitNode p ps).2.1 T.alloc.1 = (Tree.wire w rest (T.splitNode p ps).2.2 p
          (T.splitNode p ps).2.1 T.alloc.1).halve left right nl nr := by
        have hu : ((T.splitNode p ps).2.2.setNode left nl).InUse right := hs'.inUse
        rw [Tree.halve, wire_setNode _ _ _ _ _ hu hrest.2 (Ne.symm (s.store_ne hpn)),
          wire_setNode _ _ _ _ _ hs'.inUse_left hrest.1 (Ne.symm hpl)]
        rfl
      rw [s.splitNode hp hpl, halloc, hsepQ, hwire]
      -- the levels above take the upper half of the page
      obtain ⟨prm, hprm⟩ : ∃ prm, ps[ps.length / 2]? = some prm :=
        ⟨_, List.getElem?_eq_getElem (by omega)⟩
      obtain ⟨hmlt, hmget⟩ := List.getElem?_eq_some_iff.mp hprm
      have hsorted := h.sorted p ps hp
      have hkm : pairKey w ps (ps.length / 2) = keyOf w prm.1 := by
        rw [pairKey_getElem hmlt, hmget]
      have hsepm : (T.splitNode p ps).2.1 = prm.1 := by rw [Tree.splitNode_snd, hprm]; rfl
      have hpath' : Path (T.splitNode p ps).2.2 p rest := by
        refine hpath.congr Tree.splitNode_root fun q hq => hs3 q (fun e => hpr (e ▸ hq)) ?_
        obtain ⟨qs, hqs⟩ := hpath.inner q hq
        exact hne q (by simp [hqs])
      obtain ⟨hV, hforw⟩ : Routed σ w (Tree.wire w rest (T.splitNode p ps).2.2 p
          (T.splitNode p ps).2.1 T.alloc.1) ∧ (¬ σ → Forwards σ w T.alloc.2 (Tree.wire w rest
          (T.splitNode p ps).2.2 p (T.splitNode p ps).2.1 T.alloc.1) p (T.splitNode p ps).2.1
          T.alloc.1) := by
        have hs₁ : Split T.alloc.2 p T.alloc.1 (.inner ps) :=
          ⟨s.ids.alloc.1, by rw [Tree.alloc_store, hp], s.ids.alloc.2.1, by
            rw [Tree.alloc_store, s.ids.alloc.2.2]⟩
        rw [hsepm]
        refine wire_routes hw rest T.alloc.2 rank p T.alloc.1 _ _ _ _ hs₁ h.alloc
          (hs.congr Tree.alloc_store Tree.alloc_root) (.inner (by omega) hprm)
          (hpath.congr Tree.alloc_root fun q _ => by rw [Tree.alloc_store]) hnd' ?_
        intro q qs pr hq hpr' he
        rw [Tree.alloc_store] at hq
        have h1 := h.first q qs hq pr hpr' ps (by rw [he]; exact hp)
        have h2 := hsorted.lt (show 0 < ps.length / 2 by omega) hmlt
        rw [hkm] at h2
        exact Int.lt_of_le_of_lt h1 h2
      obtain ⟨rank', hsV, -⟩ := wire_shape hw rest _ _ p (T.splitNode p ps).2.1 T.alloc.1
        (splitNode_shape hs s.ids hp (by omega)) hI' hpath' hnd' (by simp [hs2])
        (by rw [Function.update_self, Function.update_of_ne (hne p hpn)])
      -- the pair goes to the half its left page is in
      have hsV' : Split (Tree.wire w rest (T.splitNode p ps).2.2 p (T.splitNode p ps).2.1 T.alloc.1)
          left right n :=
        ⟨Tree.wire_ids _ _ _ _ _ hI', (Tree.wire_store _ _ _ _ _ hI' hs'.inUse_left hrest.1).trans
          hs'.node, Tree.InUse.wire _ _ _ _ _ hs'.inUse,
          (Tree.wire_store _ _ _ _ _ hI' hs'.inUse hrest.2).trans hs'.fresh⟩
      have hVp := (Tree.wire_store (w := w) rest _ p (T.splitNode p ps).2.1 T.alloc.1 hI'
        (hI'.used p (by simp [hs1])) hpr).trans hs1
      have hVq := (Tree.wire_store (w := w) rest _ p (T.splitNode p ps).2.1 T.alloc.1 hI'
        (hI'.used T.alloc.1 (by simp [hs2])) (fun hq => by
          obtain ⟨qs, hqs⟩ := hpath.inner _ hq
          exact hne _ (by simp [hqs]) rfl)).trans hs2
      obtain ⟨j, hj⟩ := List.getElem?_of_mem hm
      have hjlt := (List.getElem?_eq_some_iff.mp hj).1
      have hkey : pairKey w ps j = keyOf w k := by rw [pairKey, hj]; rfl
      have hbelow := hlt p ps _ hp hm rfl
      have habove : j + 1 < ps.length → keyOf w sep < pairKey w ps (j + 1) := fun hj' =>
        ((childIdx_iff hsorted hjlt).mp (h.last (h.goes_sep s.node hn) hp hj rfl).2.1).2 hj'
      -- a leaf keeps its keys while the page above it is halved
      have hleaf : ¬ σ → ∀ x q, T.IsLeaf q → Goes σ w T x q → Goes σ w (Tree.wire w rest
          (T.splitNode p ps).2.2 p (T.splitNode p ps).2.1 T.alloc.1) x q := by
        rintro hσ x q ⟨es, l, r, hq⟩ hx
        have hqp : q ≠ p := by
          rintro rfl
          rw [hp] at hq
          cases hq
        have hgo := hforw hσ x q ⟨es, l, r, by rw [Tree.alloc_store, hq]⟩
          (hx.congr Tree.alloc_root fun q' qs hq' => by rw [Tree.alloc_store, hq'])
        rwa [halfOf_other hqp] at hgo
      split
      · next hside =>
        rw [hsepm] at hside
        have hjm : ps.length / 2 ≤ j := by
          by_contra hc
          have h1 := habove (by omega)
          have h2 := hsorted.le (show j + 1 ≤ ps.length / 2 by omega) hmlt
          rw [hkm] at h2
          omega
        have hmem : (k, left) ∈ ps.drop (ps.length / 2) := by
          refine List.mem_of_getElem? (i := j - ps.length / 2) ?_
          rw [List.getElem?_drop, Nat.add_sub_cancel' hjm]
          exact hj
        obtain ⟨j', g⟩ := hsV'.grafted hV hsV hn hVq hmem rfl hbelow
        exact ⟨hV.graft g, fun hσ x q hq hx => g.forwards hV (hleaf hσ x q hq hx)⟩
      · next hside =>
        rw [hsepm] at hside
        have hjm : j < ps.length / 2 := by
          by_contra hc
          have h1 := hsorted.le (show ps.length / 2 ≤ j by omega) hjlt
          rw [hkm, hkey] at h1
          simp only at hbelow
          omega
        have hmem : (k, left) ∈ ps.take (ps.length / 2) := by
          refine List.mem_of_getElem? (i := j) ?_
          rw [List.getElem?_take_of_lt hjm]
          exact hj
        obtain ⟨j', g⟩ := hsV'.grafted hV hsV hn hVp hmem rfl hbelow
        exact ⟨hV.graft g, fun hσ x q hq hx => g.forwards hV (hleaf hσ x q hq hx)⟩

theorem wire_routed (hw : w ≤ 8) (stack : List Nat) (T : Tree) (rank : Nat → Nat)
    (left right : Nat) (n nl nr : Node) (sep : Bytes) (s : Split T left right n) (h : Routed σ w T)
    (hs : Shape w rank T) (hn : Halving w n nl sep nr) (hpath : Path T left stack)
    (hnd : stack.Nodup)
    (hlt : ∀ p ps pr, T.store p = some (.inner ps) → pr ∈ ps → pr.2 = left →
      keyOf w pr.1 < keyOf w sep) :
    Routed σ w (Tree.wire w stack (T.halve left right nl nr) left sep right) :=
  (wire_routes hw stack T rank left right n nl nr sep s h hs hn hpath hnd hlt).1

theorem wire_forwards (hw : w ≤ 8) (stack : List Nat) (T : Tree) (rank : Nat → Nat)
    (left right : Nat) (n nl nr : Node) (sep : Bytes) (s : Split T left right n)
    (h : Routed False w T) (hs : Shape w rank T) (hn : Halving w n nl sep nr)
    (hpath : Path T left stack) (hnd : stack.Nodup)
    (hlt : ∀ p ps pr, T.store p = some (.inner ps) → pr ∈ ps → pr.2 = left →
      keyOf w pr.1 < keyOf w sep) :
    Forwards False w T (Tree.wire w stack (T.halve left right nl nr) left sep right) left sep right :=
  (wire_routes hw stack T rank left right n nl nr sep s h hs hn hpath hnd hlt).2 id

end

end DbInternals.Index
