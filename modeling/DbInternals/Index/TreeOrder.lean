import DbInternals.Index.TreeShape
import DbInternals.Index.PairSearch

/-!
# Keys and routes

`Goes σ w T x p`: looking for `x` leads over page `p`; under `σ` the search
never falls back to a first child whose separator is above `x`. In a tree that
is `Routed` every page is the child of one pair, pairs are strictly sorted, and
every key that is stored, in a leaf or as a separator, leads to the page it is
stored in. Halving a page and adding the pair to its parent keeps this
(`Routed.graft`).

Results: `Routed.last`, `Graft.goes`, `Routed.graft`.
-/
namespace DbInternals.Index

open Storage SlottedPage

/-! ## Routes of keys -/

/-- Looking for `x` leads over the page; under `σ` no first separator on the
way is above `x`. -/
inductive Goes (σ : Prop) (w : Nat) (T : Tree) (x : Int) : Nat → Prop
  | root : Goes σ w T x T.root
  | step {p : Nat} {ps : List Pair} {pr : Pair} (h : Goes σ w T x p)
    (hp : T.store p = some (.inner ps)) (hc : ps[childIdx w ps x]? = some pr)
    (hσ : σ → pairKey w ps 0 ≤ x) : Goes σ w T x pr.2

structure Routed (σ : Prop) (w : Nat) (T : Tree) : Prop where
  sorted : ∀ p ps, T.store p = some (.inner ps) → PairsLt w ps
  /-- separators lead to their page -/
  keys : ∀ p ps, T.store p = some (.inner ps) → ∀ pr ∈ ps, Goes σ w T (keyOf w pr.1) p
  /-- a separator is not above the first key of its child -/
  first : ∀ p ps, T.store p = some (.inner ps) → ∀ pr ∈ ps, ∀ qs,
    T.store pr.2 = some (.inner qs) → keyOf w pr.1 ≤ pairKey w qs 0
  /-- records lead to their leaf -/
  recs : ∀ p es l r, T.store p = some (.leaf es l r) → ∀ b, .live b ∈ es →
    Goes σ w T (keyOf w b) p
  /-- a page has one parent -/
  nodup : ∀ p ps, T.store p = some (.inner ps) → (ps.map Prod.snd).Nodup
  single : ∀ p ps p' ps' pr pr', T.store p = some (.inner ps) → T.store p' = some (.inner ps') →
    pr ∈ ps → pr' ∈ ps' → pr.2 = pr'.2 → p = p'
  top : ∀ p ps, T.store p = some (.inner ps) → ∀ pr ∈ ps, pr.2 ≠ T.root
  linked : ∀ p, T.store p ≠ none → p ≠ T.root → ∃ q ps pr, T.store q = some (.inner ps) ∧ pr ∈ ps ∧
    pr.2 = p

section
variable {σ : Prop} {w : Nat} {rank : Nat → Nat} {T T' : Tree} {x : Int} {p q left right j : Nat}
  {ps : List Pair} {pr : Pair} {sep : Bytes} {n nl nr : Node}

theorem Route.goes {stack : List Nat} (h : Route w T x p stack) : Goes False w T x p := by
  induction h with
  | root => exact .root
  | step _ hp hc ih => exact ih.step hp hc False.elim

theorem Goes.route (h : Goes σ w T x p) : ∃ stack, Route w T x p stack := by
  induction h with
  | root => exact ⟨[], .root⟩
  | step _ hp hc _ ih =>
    obtain ⟨stack, hr⟩ := ih
    exact ⟨_, hr.step hp hc⟩

/-- Routes see internal pages only. -/
theorem Goes.congr (h : Goes σ w T x p) (hr : T'.root = T.root)
    (hs : ∀ q qs, T.store q = some (.inner qs) → T'.store q = some (.inner qs)) :
    Goes σ w T' x p := by
  induction h with
  | root =>
    rw [← hr]
    exact .root
  | step _ hp hc hσ ih => exact ih.step (hs _ _ hp) hc hσ

/-- The children of a page are told apart by their index. -/
theorem Routed.index (h : Routed σ w T) (hp : T.store p = some (.inner ps)) {i k : Nat} {pr' : Pair}
    (hi : ps[i]? = some pr) (hk : ps[k]? = some pr') (he : pr.2 = pr'.2) : i = k := by
  obtain ⟨hi', rfl⟩ := List.getElem?_eq_some_iff.mp hi
  obtain ⟨hk', rfl⟩ := List.getElem?_eq_some_iff.mp hk
  have hnd := List.nodup_iff_injective_getElem.mp (h.nodup p ps hp)
  have := @hnd ⟨i, by simpa using hi'⟩ ⟨k, by simpa using hk'⟩ (by simpa using he)
  simpa using this

/-- The last step of a route to a child is from its parent. -/
theorem Routed.last (h : Routed σ w T) (hx : Goes σ w T x q) (hp : T.store p = some (.inner ps))
    (hj : ps[j]? = some pr) (hq : pr.2 = q) :
    Goes σ w T x p ∧ childIdx w ps x = j ∧ (σ → pairKey w ps 0 ≤ x) := by
  have hm := List.mem_of_getElem? hj
  cases hx with
  | root => exact absurd hq (h.top p ps hp pr hm)
  | @step p' ps' pr' hx hp' hc hσ =>
    obtain rfl := h.single p ps p' ps' pr pr' hp hp' hm (List.mem_of_getElem? hc) hq
    rw [hp] at hp'
    cases hp'
    exact ⟨hx, h.index hp hc hj hq.symm, hσ⟩

/-! ## Halving a page -/

/-- The two halves of a node, the upper one from the separator on. -/
inductive Halving (w : Nat) : Node → Node → Bytes → Node → Prop
  | leaf {es es₁ es₂ : List Entry} {l r l₁ r₁ l₂ r₂ : Nat} {sep : Bytes}
    (h₀ : ∃ b rest, es₁ = .live b :: rest ∧ w ≤ b.length ∧ ∀ c, .live c ∈ es →
      keyOf w b ≤ keyOf w c)
    (h₁ : ∀ b, .live b ∈ es₁ → .live b ∈ es ∧ keyOf w b < keyOf w sep)
    (h₂ : ∀ b, .live b ∈ es₂ → .live b ∈ es ∧ keyOf w sep ≤ keyOf w b)
    (hsep : ∃ b, .live b ∈ es ∧ keyOf w b = keyOf w sep) :
    Halving w (.leaf es l r) (.leaf es₁ l₁ r₁) sep (.leaf es₂ l₂ r₂)
  | inner {ps : List Pair} {m : Nat} {pr : Pair} (h0 : 0 < m) (hm : ps[m]? = some pr) :
    Halving w (.inner ps) (.inner (ps.take m)) pr.1 (.inner (ps.drop m))

/-- The separator of a halving leads to the page. -/
theorem Routed.goes_sep (h : Routed σ w T) (hl : T.store left = some n) (hn : Halving w n nl sep nr) :
    Goes σ w T (keyOf w sep) left := by
  cases hn with
  | leaf h₀ h₁ h₂ hsep =>
    obtain ⟨b, hb, hk⟩ := hsep
    rw [← hk]
    exact h.recs left _ _ _ hl b hb
  | inner h0 hm => exact h.keys left _ hl _ (List.mem_of_getElem? hm)

/-- `T'` is `T` with `left` halved and the new page `right` linked behind it. -/
structure Graft (w : Nat) (T T' : Tree) (p : Nat) (ps : List Pair) (j : Nat) (pr : Pair) (n nl : Node)
    (sep : Bytes) (nr : Node) (right : Nat) : Prop where
  parent : T.store p = some (.inner ps)
  child : ps[j]? = some pr
  apart : p ≠ pr.2
  below : keyOf w pr.1 < keyOf w sep
  node : T.store pr.2 = some n
  halves : Halving w n nl sep nr
  fresh : T.store right = none
  kids : ∀ q qs, T.store q = some (.inner qs) → ∀ pr ∈ qs, T.store pr.2 ≠ none
  top : T.store T.root ≠ none
  root' : T'.root = T.root
  parent' : T'.store p = some (.inner (ps.insertIdx (j + 1) (sep, right)))
  left' : T'.store pr.2 = some nl
  right' : T'.store right = some nr
  other : ∀ q, q ≠ p → q ≠ pr.2 → q ≠ right → T'.store q = T.store q

namespace Graft

variable (g : Graft w T T' p ps j pr n nl sep nr right)

include g

theorem index_lt : j < ps.length := (List.getElem?_eq_some_iff.mp g.child).1

theorem pairKey_child : pairKey w ps j = keyOf w pr.1 := by
  rw [pairKey, g.child]; rfl

theorem right_ne (hq : T.store q ≠ none) : q ≠ right := fun e => hq (e ▸ g.fresh)

/-- The separator fits between the pair of the page and the next one. -/
theorem above (h : Routed σ w T) (hj : j + 1 < ps.length) : keyOf w sep < pairKey w ps (j + 1) := by
  have hgo := h.goes_sep g.node g.halves
  obtain ⟨-, hc, -⟩ := h.last hgo g.parent g.child rfl
  exact ((childIdx_iff (h.sorted p ps g.parent) g.index_lt).mp hc).2 hj

theorem getElem?_insert (i : Nat) : (ps.insertIdx (j + 1) (sep, right))[i]? =
    if i ≤ j then ps[i]? else if i = j + 1 then some (sep, right) else ps[i - 1]? := by
  have hlt := g.index_lt
  rw [List.getElem?_insertIdx]
  by_cases h1 : i < j + 1
  · rw [if_pos h1, if_pos (by omega)]
  · by_cases h2 : i = j + 1
    · rw [if_neg h1, if_pos h2, if_pos (by omega), if_neg (by omega), if_pos h2]
    · rw [if_neg h1, if_neg h2, if_neg (by omega), if_neg h2]

/-- A pair of the tree afterwards was there, or is the new one. -/
theorem pair_old {q : Nat} {qs : List Pair} {pr' : Pair} (hq : T'.store q = some (.inner qs))
    (hm : pr' ∈ qs) : q = p ∧ pr' = (sep, right) ∨
      ∃ q₀ qs₀, T.store q₀ = some (.inner qs₀) ∧ pr' ∈ qs₀ ∧
        (q₀ ≠ pr.2 → q = q₀) ∧ (q₀ = pr.2 → q = pr.2 ∨ q = right) := by
  have hle : j + 1 ≤ ps.length := g.index_lt
  by_cases hqp : q = p
  · subst hqp
    rw [g.parent'] at hq
    cases hq
    cases (List.mem_insertIdx hle).mp hm with
    | inl he => exact .inl ⟨rfl, he⟩
    | inr hm => exact .inr ⟨q, ps, g.parent, hm, fun _ => rfl, fun e => absurd e g.apart⟩
  · right
    by_cases hql : q = pr.2
    · subst hql
      rw [g.left'] at hq
      cases hq
      have hn := g.node
      cases g.halves with
      | inner h0 hm' =>
        exact ⟨_, _, hn, List.mem_of_mem_take hm, fun h => absurd rfl h, fun _ => .inl rfl⟩
    · by_cases hqr : q = right
      · subst hqr
        rw [g.right'] at hq
        cases hq
        have hn := g.node
        cases g.halves with
        | inner h0 hm' =>
          exact ⟨_, _, hn, List.mem_of_mem_drop hm, fun h => absurd rfl h, fun _ => .inr rfl⟩
      · rw [g.other q hqp hql hqr] at hq
        exact ⟨q, qs, hq, hm, fun _ => rfl, fun e => absurd e hql⟩

/-- Pages but the new one keep their first key. -/
theorem first_key {q : Nat} {qs : List Pair} (hq : T'.store q = some (.inner qs)) (hne : q ≠ right) :
    ∃ qs₀, T.store q = some (.inner qs₀) ∧ pairKey w qs 0 = pairKey w qs₀ 0 := by
  by_cases hqp : q = p
  · subst hqp
    rw [g.parent'] at hq
    cases hq
    have hlt := g.index_lt
    exact ⟨ps, g.parent, by rw [pairKey_insertIdx (by omega), if_pos (by omega)]⟩
  · by_cases hql : q = pr.2
    · subst hql
      rw [g.left'] at hq
      cases hq
      have hn := g.node
      cases g.halves with
      | inner h0 hm => exact ⟨_, hn, pairKey_take h0⟩
    · rw [g.other q hqp hql hne] at hq
      exact ⟨qs, hq, rfl⟩

/-- Where the routes of the tree lead afterwards. -/
theorem goes (h : Routed σ w T) (hx : Goes σ w T x q) :
    (q ≠ pr.2 → Goes σ w T' x q) ∧ (q = pr.2 → x < keyOf w sep → Goes σ w T' x q) ∧
      (q = pr.2 → keyOf w sep ≤ x → Goes σ w T' x right) := by
  have hkey := g.pairKey_child
  have hbelow : pairKey w ps j < keyOf w sep := by rw [hkey]; exact g.below
  have habove : j + 1 < ps.length → keyOf w sep < pairKey w ps (j + 1) := g.above h
  have hmem := List.mem_of_getElem? g.child
  induction hx with
  | root =>
    have hne := (h.top p ps g.parent pr hmem).symm
    refine ⟨fun _ => ?_, fun e => absurd e hne, fun e => absurd e hne⟩
    rw [← g.root']
    exact .root
  | @step q qs pr' hx hq hc hσ ih =>
    obtain ⟨ih1, ih2, ih3⟩ := ih
    have hm' := List.mem_of_getElem? hc
    by_cases hqp : q = p
    · -- at the parent the search moves on by one behind the new pair
      subst hqp
      rw [g.parent] at hq
      cases hq
      have hx' := ih1 g.apart
      have hci := childIdx_insert right (h.sorted _ _ g.parent) g.index_lt hbelow habove
        (List.getElem?_eq_some_iff.mp hc).1 rfl
      have hσ' : σ → pairKey w (ps.insertIdx (j + 1) (sep, right)) 0 ≤ x := by
        have hlt := g.index_lt
        rw [pairKey_insertIdx (by omega), if_pos (by omega)]
        exact hσ
      have hgo : ∀ i pr₁, childIdx w (ps.insertIdx (j + 1) (sep, right)) x = i →
          (ps.insertIdx (j + 1) (sep, right))[i]? = some pr₁ → Goes σ w T' x pr₁.2 :=
        fun i pr₁ hi hpr₁ => hx'.step g.parent' (by rw [hi]; exact hpr₁) hσ'
      refine ⟨fun hne => ?_, fun he hlt => ?_, fun he hle => ?_⟩
      · have hij : childIdx w ps x ≠ j := by
          intro e
          rw [e, g.child] at hc
          cases hc
          exact hne rfl
        by_cases hlt : childIdx w ps x < j
        · rw [if_pos (.inl hlt)] at hci
          refine hgo _ pr' hci ?_
          rw [g.getElem?_insert, if_pos (by omega), hc]
        · rw [if_neg (by omega)] at hci
          refine hgo _ pr' hci ?_
          rw [g.getElem?_insert, if_neg (by omega), if_neg (by omega), Nat.add_sub_cancel, hc]
      · have hij := h.index g.parent hc g.child he
        rw [if_pos (.inr ⟨hij, hlt⟩)] at hci
        refine hgo _ pr' hci ?_
        rw [g.getElem?_insert, if_pos (by omega), hc]
      · have hij := h.index g.parent hc g.child he
        rw [if_neg (by omega)] at hci
        refine hgo _ (sep, right) hci ?_
        rw [g.getElem?_insert, if_neg (by omega), if_pos (by omega)]
    · -- elsewhere the child is not the halved page
      have hne : pr'.2 ≠ pr.2 := fun e => hqp (h.single q qs p ps pr' pr hq g.parent hm' hmem e)
      refine ⟨fun _ => ?_, fun e => absurd e hne, fun e => absurd e hne⟩
      by_cases hql : q = pr.2
      · have hn := g.node
        have hl' := g.left'
        have hr' := g.right'
        rw [← hql, hq] at hn
        cases hn
        have hs := h.sorted q qs hq
        cases g.halves with
        | @inner _ m prm h0 hm =>
          obtain ⟨hmlt, hmget⟩ := List.getElem?_eq_some_iff.mp hm
          have hkm : pairKey w qs m = keyOf w prm.1 := by
            rw [pairKey_getElem hmlt, hmget]
          by_cases hlt : x < keyOf w prm.1
          · obtain ⟨c1, c2⟩ := childIdx_take (x := x) hs hmlt h0 (by rw [hkm]; exact hlt)
            rw [← hql] at hl'
            refine (ih2 hql hlt).step hl' ?_ fun hh => ?_
            · rw [c1, List.getElem?_take_of_lt c2, hc]
            · rw [pairKey_take h0]
              exact hσ hh
          · obtain ⟨c1, c2⟩ := childIdx_drop (x := x) hs hmlt (by rw [hkm]; exact Int.not_lt.mp hlt)
            refine (ih3 hql (Int.not_lt.mp hlt)).step hr' ?_ fun hh => ?_
            · rw [c1, List.getElem?_drop, Nat.add_sub_cancel' c2, hc]
            · rw [pairKey_drop, Nat.add_zero, hkm]
              exact Int.not_lt.mp hlt
      · exact (ih1 hql).step (by rw [g.other q hqp hql (g.right_ne (by simp [hq]))]; exact hq) hc hσ

/-- A stored key leads to its page afterwards, to the right half if it went over. -/
theorem goes_to (h : Routed σ w T) (hx : Goes σ w T x p) : Goes σ w T' x p :=
  (g.goes h hx).1 g.apart

theorem sorted (h : Routed σ w T) {q : Nat} {qs : List Pair} (hq : T'.store q = some (.inner qs)) :
    PairsLt w qs := by
  by_cases hqp : q = p
  · subst hqp
    rw [g.parent'] at hq
    cases hq
    exact pairsLt_insertIdx right (h.sorted q ps g.parent) g.index_lt
      (by rw [g.pairKey_child]; exact g.below) (g.above h)
  · by_cases hql : q = pr.2
    · subst hql
      rw [g.left'] at hq
      cases hq
      have hn := g.node
      cases g.halves with
      | inner h0 hm => exact (h.sorted _ _ hn).take
    · by_cases hqr : q = right
      · subst hqr
        rw [g.right'] at hq
        cases hq
        have hn := g.node
        cases g.halves with
        | inner h0 hm => exact (h.sorted _ _ hn).drop
      · rw [g.other q hqp hql hqr] at hq
        exact h.sorted q qs hq

theorem keys (h : Routed σ w T) {q : Nat} {qs : List Pair} (hq : T'.store q = some (.inner qs))
    {pr' : Pair} (hm : pr' ∈ qs) : Goes σ w T' (keyOf w pr'.1) q := by
  by_cases hqp : q = p
  · subst hqp
    rw [g.parent'] at hq
    cases hq
    cases (List.mem_insertIdx (show j + 1 ≤ ps.length from g.index_lt)).mp hm with
    | inl he =>
      rw [he]
      exact g.goes_to h (h.last (h.goes_sep g.node g.halves) g.parent g.child rfl).1
    | inr hm => exact g.goes_to h (h.keys q ps g.parent pr' hm)
  · by_cases hql : q = pr.2
    · subst hql
      rw [g.left'] at hq
      cases hq
      have hn := g.node
      cases g.halves with
      | @inner qs m prm h0 hm' =>
        obtain ⟨hmlt, hmget⟩ := List.getElem?_eq_some_iff.mp hm'
        have hs := h.sorted _ _ hn
        refine (g.goes h (h.keys _ _ hn pr' (List.mem_of_mem_take hm))).2.1 rfl ?_
        obtain ⟨i, hi, rfl⟩ := List.mem_take_iff_getElem.mp hm
        rw [← hmget]
        exact List.pairwise_iff_getElem.mp hs i m _ hmlt (by omega)
    · by_cases hqr : q = right
      · subst hqr
        rw [g.right'] at hq
        cases hq
        have hn := g.node
        cases g.halves with
        | @inner qs m prm h0 hm' =>
          obtain ⟨hmlt, hmget⟩ := List.getElem?_eq_some_iff.mp hm'
          have hs := h.sorted _ _ hn
          refine (g.goes h (h.keys _ _ hn pr' (List.mem_of_mem_drop hm))).2.2 rfl ?_
          obtain ⟨i, hi, rfl⟩ := List.mem_drop_iff_getElem.mp hm
          have hi' : m + i < qs.length := by omega
          have := hs.le (show m ≤ m + i by omega) hi'
          rwa [pairKey_getElem hmlt, pairKey_getElem hi', hmget] at this
      · have hq₀ := g.other q hqp hql hqr
        rw [hq₀] at hq
        exact (g.goes h (h.keys q qs hq pr' hm)).1 hql

theorem first (h : Routed σ w T) {q : Nat} {qs rs : List Pair} (hq : T'.store q = some (.inner qs))
    {pr' : Pair} (hm : pr' ∈ qs) (hc : T'.store pr'.2 = some (.inner rs)) :
    keyOf w pr'.1 ≤ pairKey w rs 0 := by
  rcases g.pair_old hq hm with ⟨-, rfl⟩ | ⟨q₀, qs₀, hq₀, hm₀, -⟩
  · rw [g.right'] at hc
    cases hc
    cases g.halves with
    | inner h0 hm' =>
      obtain ⟨hmlt, hmget⟩ := List.getElem?_eq_some_iff.mp hm'
      rw [pairKey_drop, Nat.add_zero, pairKey_getElem hmlt, hmget]
  · obtain ⟨rs₀, hrs, he⟩ := g.first_key hc (g.right_ne (g.kids q₀ qs₀ hq₀ pr' hm₀))
    rw [he]
    exact h.first q₀ qs₀ hq₀ pr' hm₀ rs₀ hrs

theorem recs (h : Routed σ w T) {q l r : Nat} {es : List Entry}
    (hq : T'.store q = some (.leaf es l r)) {b : Bytes} (hb : .live b ∈ es) :
    Goes σ w T' (keyOf w b) q := by
  by_cases hqp : q = p
  · subst hqp
    rw [g.parent'] at hq
    cases hq
  · by_cases hql : q = pr.2
    · subst hql
      rw [g.left'] at hq
      cases hq
      have hn := g.node
      cases g.halves with
      | leaf h₀ h₁ h₂ hsep =>
        obtain ⟨hb', hlt⟩ := h₁ b hb
        exact (g.goes h (h.recs _ _ _ _ hn b hb')).2.1 rfl hlt
    · by_cases hqr : q = right
      · subst hqr
        rw [g.right'] at hq
        cases hq
        have hn := g.node
        cases g.halves with
        | leaf h₀ h₁ h₂ hsep =>
          obtain ⟨hb', hle⟩ := h₂ b hb
          exact (g.goes h (h.recs _ _ _ _ hn b hb')).2.2 rfl hle
      · rw [g.other q hqp hql hqr] at hq
        exact (g.goes h (h.recs q es l r hq b hb)).1 hql

theorem nodup (h : Routed σ w T) {q : Nat} {qs : List Pair} (hq : T'.store q = some (.inner qs)) :
    (qs.map Prod.snd).Nodup := by
  by_cases hqp : q = p
  · subst hqp
    rw [g.parent'] at hq
    cases hq
    have hperm := (List.perm_insertIdx (sep, right) ps (show j + 1 ≤ ps.length from g.index_lt)).map
      Prod.snd
    refine hperm.nodup_iff.mpr (List.nodup_cons.mpr ⟨fun hm => ?_, h.nodup q ps g.parent⟩)
    obtain ⟨pr', hm', he⟩ := List.mem_map.mp hm
    exact g.kids q ps g.parent pr' hm' (by rw [he]; exact g.fresh)
  · by_cases hql : q = pr.2
    · subst hql
      rw [g.left'] at hq
      cases hq
      have hn := g.node
      cases g.halves with
      | @inner qs m _ h0 hm =>
        exact (h.nodup _ _ hn).sublist ((List.take_sublist m qs).map Prod.snd)
    · by_cases hqr : q = right
      · subst hqr
        rw [g.right'] at hq
        cases hq
        have hn := g.node
        cases g.halves with
        | @inner qs m _ h0 hm =>
          exact (h.nodup _ _ hn).sublist ((List.drop_sublist m qs).map Prod.snd)
      · rw [g.other q hqp hql hqr] at hq
        exact h.nodup q qs hq

/-- The two halves share no child. -/
theorem halves_apart (h : Routed σ w T) {qs rs : List Pair} (hl : nl = .inner qs) (hr : nr = .inner rs)
    {pr₁ pr₂ : Pair} (h1 : pr₁ ∈ qs) (h2 : pr₂ ∈ rs) : pr₁.2 ≠ pr₂.2 := by
  intro he
  have hn := g.node
  have halves := g.halves
  subst hl hr
  cases halves with
  | @inner qs m _ h0 hm =>
    have hnd := h.nodup _ _ hn
    rw [← List.take_append_drop m qs, List.map_append] at hnd
    exact (List.nodup_append.mp hnd).2.2 _ (List.mem_map_of_mem h1) _ (List.mem_map_of_mem h2) he

theorem single (h : Routed σ w T) {q q' : Nat} {qs qs' : List Pair} {pr₁ pr₂ : Pair}
    (hq : T'.store q = some (.inner qs)) (hq' : T'.store q' = some (.inner qs')) (h1 : pr₁ ∈ qs)
    (h2 : pr₂ ∈ qs') (he : pr₁.2 = pr₂.2) : q = q' := by
  have hnew : ∀ q₀ qs₀ pr₀, T.store q₀ = some (.inner qs₀) → pr₀ ∈ qs₀ → pr₀.2 ≠ right :=
    fun q₀ qs₀ pr₀ h0 hm => g.right_ne (g.kids q₀ qs₀ h0 pr₀ hm)
  rcases g.pair_old hq h1 with ⟨rfl, rfl⟩ | ⟨q₁, qs₁, hq₁, hm₁, ho₁, hl₁⟩
  · rcases g.pair_old hq' h2 with ⟨rfl, -⟩ | ⟨q₂, qs₂, hq₂, hm₂, -⟩
    · rfl
    · exact absurd he.symm (hnew q₂ qs₂ pr₂ hq₂ hm₂)
  · rcases g.pair_old hq' h2 with ⟨-, rfl⟩ | ⟨q₂, qs₂, hq₂, hm₂, ho₂, hl₂⟩
    · exact absurd he (hnew q₁ qs₁ pr₁ hq₁ hm₁)
    · obtain rfl := h.single q₁ qs₁ q₂ qs₂ pr₁ pr₂ hq₁ hq₂ hm₁ hm₂ he
      by_cases hl : q₁ = pr.2
      · -- one half or the other, for both
        rcases hl₁ hl with rfl | rfl
        · rcases hl₂ hl with rfl | rfl
          · rfl
          · rw [g.left'] at hq
            rw [g.right'] at hq'
            exact absurd he (g.halves_apart h (Option.some.inj hq) (Option.some.inj hq') h1 h2)
        · rcases hl₂ hl with rfl | rfl
          · rw [g.right'] at hq
            rw [g.left'] at hq'
            exact absurd he.symm (g.halves_apart h (Option.some.inj hq') (Option.some.inj hq) h2 h1)
          · rfl
      · rw [ho₁ hl, ho₂ hl]

theorem linked (h : Routed σ w T) {q : Nat} (hq : T'.store q ≠ none) (hroot : q ≠ T'.root) :
    ∃ q' qs pr', T'.store q' = some (.inner qs) ∧ pr' ∈ qs ∧ pr'.2 = q := by
  have hle : j + 1 ≤ ps.length := g.index_lt
  by_cases hqr : q = right
  · exact ⟨p, _, (sep, right), g.parent', (List.mem_insertIdx hle).mpr (.inl rfl), hqr.symm⟩
  · have hq₀ : T.store q ≠ none := by
      by_cases hqp : q = p
      · subst hqp; simp [g.parent]
      · by_cases hql : q = pr.2
        · subst hql; simp [g.node]
        · rwa [g.other q hqp hql hqr] at hq
    obtain ⟨q₁, qs₁, pr₁, hq₁, hm₁, he⟩ := h.linked q hq₀ (by rwa [g.root'] at hroot)
    by_cases hqp : q₁ = p
    · subst hqp
      rw [g.parent] at hq₁
      cases hq₁
      exact ⟨q₁, _, pr₁, g.parent', (List.mem_insertIdx hle).mpr (.inr hm₁), he⟩
    · by_cases hql : q₁ = pr.2
      · subst hql
        have hn := g.node
        rw [hq₁] at hn
        cases hn
        have hl' := g.left'
        have hr' := g.right'
        cases g.halves with
        | @inner _ m _ h0 hm =>
          rw [← List.take_append_drop m qs₁] at hm₁
          cases List.mem_append.mp hm₁ with
          | inl hm₁ => exact ⟨_, _, pr₁, hl', hm₁, he⟩
          | inr hm₁ => exact ⟨_, _, pr₁, hr', hm₁, he⟩
      · have := g.other q₁ hqp hql (g.right_ne (by simp [hq₁]))
        exact ⟨q₁, qs₁, pr₁, this.trans hq₁, hm₁, he⟩

end Graft

/-- A page halved and linked in keeps every route. -/
theorem Routed.graft (h : Routed σ w T) (g : Graft w T T' p ps j pr n nl sep nr right) :
    Routed σ w T' where
  sorted _ _ hq := g.sorted h hq
  keys _ _ hq _ hm := g.keys h hq hm
  first _ _ hq _ hm _ hc := g.first h hq hm hc
  recs _ _ _ _ hq _ hb := g.recs h hq hb
  nodup _ _ hq := g.nodup h hq
  single _ _ _ _ _ _ hq hq' h1 h2 he := g.single h hq hq' h1 h2 he
  top q qs hq pr' hm := by
    rw [g.root']
    rcases g.pair_old hq hm with ⟨-, rfl⟩ | ⟨q₀, qs₀, hq₀, hm₀, -⟩
    · exact (g.right_ne g.top).symm
    · exact h.top q₀ qs₀ hq₀ pr' hm₀
  linked _ hq hroot := g.linked h hq hroot

end

end DbInternals.Index
