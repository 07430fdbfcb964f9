import DbInternals.Index.TreeRoutes
import DbInternals.Index.LeafChain
import DbInternals.Index.TreeSplit

/-!
# Keys under the calls

Leaves in strict key order (`LeafLt`) and the routes of a tree under
`splitChild`, `insert` and `remove`. A leaf split is a page halved
(`splitLeaf_halve`), so `wire_routed` covers the rest of the call.

Results: `LeafLt.insert`, `splitLeaf_halve`, `splitChild_routed`,
`insert_routed`, `remove_routed`, `insert_leavesLt`, `insert_keysIn`.
-/
namespace DbInternals.Index

open Storage SlottedPage

theorem pairwise_insertIdx {α : Type} {R : α → α → Prop} {x : α} : ∀ {l : List α} {i : Nat},
    i ≤ l.length → l.Pairwise R → (∀ y ∈ l.take i, R y x) → (∀ y ∈ l.drop i, R x y) →
    (l.insertIdx i x).Pairwise R
  | l, 0, _, h, _, h2 => List.pairwise_cons.mpr ⟨h2, h⟩
  | [], i + 1, hi, _, _, _ => absurd hi (by simp)
  | a :: l, i + 1, hi, h, h1, h2 => by
    have hi' : i ≤ l.length := by simpa using hi
    obtain ⟨ha, hl⟩ := List.pairwise_cons.mp h
    rw [List.insertIdx_succ_cons]
    refine List.pairwise_cons.mpr ⟨fun y hy => ?_, pairwise_insertIdx hi' hl
      (fun y hy => h1 y (List.mem_cons_of_mem a hy)) h2⟩
    cases (List.mem_insertIdx hi').mp hy with
    | inl e => rw [e]; exact h1 a List.mem_cons_self
    | inr hm => exact ha y hm

/-- Live slots in strict key order. -/
def LeafLt (w : Nat) (es : List Entry) : Prop :=
  es.Pairwise fun e e' => ∀ b c, e = .live b → e' = .live c → keyOf w b < keyOf w c

section
variable {w : Nat} {es es' : List Entry} {b c : Bytes} {x : Int} {i j : Nat}

namespace LeafLt

theorem sublist (h : LeafLt w es) (hs : es'.Sublist es) : LeafLt w es' := List.Pairwise.sublist hs h

theorem live (h : LeafLt w es) : LeafLt w (liveEntries es) := h.sublist List.filter_sublist

theorem lt (h : LeafLt w es) (hij : i < j) (hi : es[i]? = some (.live b))
    (hj : es[j]? = some (.live c)) : keyOf w b < keyOf w c := by
  obtain ⟨hi', hb⟩ := List.getElem?_eq_some_iff.mp hi
  obtain ⟨hj', hc⟩ := List.getElem?_eq_some_iff.mp hj
  exact List.pairwise_iff_getElem.mp h i j hi' hj' hij b c hb hc

theorem leafSorted (h : LeafLt w es) : LeafSorted w es := fun _ _ _ _ hij hi hj =>
  Int.le_of_lt (h.lt hij hi hj)

/-- The search for a stored key stops at its slot. -/
theorem lowerSlot (h : LeafLt w es) (hi : es[i]? = some (.live b)) :
    lowerSlot w es (keyOf w b) = i := by
  obtain ⟨h1, h2⟩ := lowerSlot_spec (x := keyOf w b) h.leafSorted
  obtain ⟨c, hc, hle⟩ := h2 ⟨i, b, hi, Int.le_refl _⟩
  have hge : ¬ i < Index.lowerSlot w es (keyOf w b) := fun hlt => Int.lt_irrefl _ ((h1 i b hi).mp hlt)
  by_contra hne
  have := h.lt (show Index.lowerSlot w es (keyOf w b) < i by omega) hc hi
  omega

/-- A key that is not stored keeps the order where the search stops. -/
theorem insertIdx (h : LeafLt w es) {r : Bytes} (hr : ∀ b, .live b ∈ es → keyOf w b ≠ keyOf w r) :
    LeafLt w (es.insertIdx (Index.lowerSlot w es (keyOf w r)) (.live r)) := by
  obtain ⟨h1, -⟩ := lowerSlot_spec (x := keyOf w r) h.leafSorted
  refine pairwise_insertIdx lowerSlot_le h (fun e he b c hb hc => ?_) fun e he b c hb hc => ?_
  · cases hc
    subst hb
    obtain ⟨k, hk, hget⟩ := List.mem_take_iff_getElem.mp he
    exact (h1 k b (List.getElem?_eq_some_iff.mpr ⟨_, hget⟩)).mp (by omega)
  · cases hb
    subst hc
    obtain ⟨k, hk, hget⟩ := List.mem_drop_iff_getElem.mp he
    have hk' := List.getElem?_eq_some_iff.mpr ⟨_, hget⟩
    have hge := (h1 _ c hk').not.mp (by omega)
    have hne := hr c (List.mem_of_getElem? hk')
    omega

theorem insert (h : LeafLt w es) {r : Bytes} (hr : ∀ b, .live b ∈ es → keyOf w b ≠ keyOf w r) :
    LeafLt w (leafInsert es (Index.lowerSlot w es (keyOf w r)) r) := by
  unfold leafInsert
  split
  · exact h.insertIdx hr
  · rw [← liveEntries_insertIdx r es _ lowerSlot_le]
    exact (h.insertIdx hr).live

theorem dead (h : LeafLt w es) (i n : Nat) : LeafLt w (es.set i (.dead n)) := by
  apply List.pairwise_iff_getElem.mpr
  intro k m hk hm hkm b c hb hc
  rw [List.length_set] at hk hm
  rw [List.getElem_set] at hb hc
  split at hb
  · cases hb
  · split at hc
    · cases hc
    · exact List.pairwise_iff_getElem.mp h k m hk hm hkm b c hb hc

end LeafLt

/-- The halves a leaf is split into. -/
theorem LeafLt.halving (h : LeafLt w es) (hh : Halves es) (hlong : LongEnough w es) {sep : Bytes}
    (hsep : ∀ b rest, liveEntries (es.drop (Tree.pivotOf es)) = .live b :: rest → sep = b.take w)
    (l r l₁ r₁ l₂ r₂ : Nat) :
    Halving w (.leaf es l r) (.leaf (liveEntries (es.take (Tree.pivotOf es))) l₁ r₁) sep
      (.leaf (liveEntries (es.drop (Tree.pivotOf es))) l₂ r₂) := by
  obtain ⟨b₂, rest₂, hd⟩ := pivotOf_live hh.upper
  have hup : liveEntries (es.drop (Tree.pivotOf es)) = .live b₂ :: liveEntries rest₂ := by rw [hd]; rfl
  have hb₂ : .live b₂ ∈ es := List.mem_of_mem_drop (by rw [hd]; exact List.mem_cons_self)
  have hkey : keyOf w sep = keyOf w b₂ := by rw [hsep b₂ _ hup]; exact keyOf_take (hlong b₂ hb₂)
  obtain ⟨b, hb⟩ := hh.lower
  obtain ⟨b₁, rest₁, hlow, hm⟩ := liveEntries_cons
    ((List.take_prefix_take_left (show es.length / 2 ≤ Tree.pivotOf es by rw [Tree.pivotOf]; omega)).subset hb)
  have hall : LeafLt w (liveEntries (es.take (Tree.pivotOf es)) ++
      liveEntries (es.drop (Tree.pivotOf es))) := by
    rw [← liveEntries_append, List.take_append_drop]
    exact h.live
  have hsplit := List.pairwise_append.mp hall
  refine .leaf ⟨b₁, rest₁, hlow, hlong b₁ (List.mem_of_mem_take hm), fun c hc => ?_⟩
    (fun c hc => ⟨List.mem_of_mem_take (liveEntries_sub hc), ?_⟩)
    (fun c hc => ⟨List.mem_of_mem_drop (liveEntries_sub hc), ?_⟩) ⟨b₂, hb₂, hkey.symm⟩
  · have hc' : .live c ∈ liveEntries (es.take (Tree.pivotOf es)) ++
        liveEntries (es.drop (Tree.pivotOf es)) := by
      rw [← liveEntries_append, List.take_append_drop]
      exact List.mem_filter.mpr ⟨hc, rfl⟩
    rw [hlow, List.cons_append] at hall hc'
    cases List.mem_cons.mp hc' with
    | inl he => cases he; exact Int.le_refl _
    | inr he => exact Int.le_of_lt ((List.pairwise_cons.mp hall).1 _ he _ _ rfl rfl)
  · rw [hkey]
    exact hsplit.2.2 _ hc (.live b₂) (by rw [hup]; exact List.mem_cons_self) _ _ rfl rfl
  · rw [hkey]
    have hs₂ := hsplit.2.1
    rw [hup] at hs₂ hc
    cases List.mem_cons.mp hc with
    | inl he => cases he; exact Int.le_refl _
    | inr he => exact Int.le_of_lt ((List.pairwise_cons.mp hs₂).1 _ he _ _ rfl rfl)

end

/-! ## A leaf split is a page halved -/

/-- The same pages with the same records: only left neighbours differ. -/
structure Relinked (T T' : Tree) : Prop where
  root : T'.root = T.root
  inner : ∀ q qs, T'.store q = some (.inner qs) ↔ T.store q = some (.inner qs)
  leaf : ∀ q es r, (∃ l, T'.store q = some (.leaf es l r)) ↔ ∃ l, T.store q = some (.leaf es l r)

section
variable {σ : Prop} {w : Nat} {rank : Nat → Nat} {T T' : Tree} {p q left right : Nat}
  {es : List Entry} {stack : List Nat} {x : Int}

namespace Relinked

variable (h : Relinked T T')

include h

theorem none_iff : T'.store q = none ↔ T.store q = none := by
  have hi := h.inner q
  have hl := h.leaf q
  constructor
  · intro hq
    cases hn : T.store q with
    | none => rfl
    | some n =>
      cases n with
      | inner qs =>
        rw [(hi qs).mpr hn] at hq
        cases hq
      | leaf es l r =>
        obtain ⟨l', hl'⟩ := (hl es r).mpr ⟨l, hn⟩
        rw [hl'] at hq
        cases hq
  · intro hq
    cases hn : T'.store q with
    | none => rfl
    | some n =>
      cases n with
      | inner qs =>
        rw [(hi qs).mp hn] at hq
        cases hq
      | leaf es l r =>
        obtain ⟨l', hl'⟩ := (hl es r).mp ⟨l, hn⟩
        rw [hl'] at hq
        cases hq

theorem shape (hs : Shape w rank T) : Shape w rank T' where
  root := by
    rw [h.root, ne_eq, h.none_iff]
    exact hs.root
  pairs p ps hp := hs.pairs p ps ((h.inner p ps).mp hp)
  child p ps hp pr hpr := by
    rw [ne_eq, h.none_iff]
    exact hs.child p ps ((h.inner p ps).mp hp) pr hpr
  long p es l r hp := by
    obtain ⟨l', hp'⟩ := (h.leaf p es r).mp ⟨l, hp⟩
    exact hs.long p es l' r hp'
  sibling p es l r hp := by
    obtain ⟨l', hp'⟩ := (h.leaf p es r).mp ⟨l, hp⟩
    apply (hs.sibling p es l' r hp').imp id
    rintro ⟨es₁, l₁, r₁, hr⟩
    obtain ⟨l₂, hr'⟩ := (h.leaf r es₁ r₁).mpr ⟨l₁, hr⟩
    exact ⟨es₁, l₂, r₁, hr'⟩

theorem routed (hr : Routed σ w T) : Routed σ w T' := by
  refine hr.congr h.root h.inner (fun q es l r hq => ?_) fun q hq => ?_
  · obtain ⟨l', hq'⟩ := (h.leaf q es r).mp ⟨l, hq⟩
    exact hr.recs q es l' r hq'
  · rwa [ne_eq, h.none_iff] at hq

theorem path (hp : Path T p stack) : Path T' p stack := by
  refine hp.congr h.root fun q hq => ?_
  obtain ⟨qs, hqs⟩ := hp.inner q hq
  rw [hqs]
  exact (h.inner q qs).mpr hqs

end Relinked

/-- The tree before the upper half was moved, its neighbours already relinked. -/
def Tree.unhalve (U : Tree) (p f : Nat) (n : Node) : Tree :=
  { U with store := Function.update (Function.update U.store p (some n)) f none }

namespace Tree

variable {U : Tree} {f : Nat} {n nl nr : Node}

theorem unhalve_left (h : p ≠ f) : (U.unhalve p f n).store p = some n := by
  change Function.update (Function.update U.store p (some n)) f none p = _
  rw [Function.update_of_ne h, Function.update_self]

theorem unhalve_right : (U.unhalve p f n).store f = none := Function.update_self ..

theorem unhalve_other (h : q ≠ p) (h' : q ≠ f) : (U.unhalve p f n).store q = U.store q := by
  change Function.update (Function.update U.store p (some n)) f none q = _
  rw [Function.update_of_ne h', Function.update_of_ne h]

theorem halve_unhalve (h : p ≠ f) (hl : U.store p = some nl) (hr : U.store f = some nr) :
    (U.unhalve p f n).halve p f nl nr = U := by
  have hstore : ((U.unhalve p f n).halve p f nl nr).store = U.store := by
    funext q
    by_cases hqf : q = f
    · rw [hqf, halve, setNode_self, hr]
    · by_cases hqp : q = p
      · rw [hqp, halve, setNode_of_ne _ _ h, setNode_self, hl]
      · rw [halve_other hqp hqf, unhalve_other hqp hqf]
  change { U with store := ((U.unhalve p f n).halve p f nl nr).store } = U
  rw [hstore]

end Tree

/-- A leaf split is a page halved. -/
theorem splitLeaf_halve (hi : T.Ids) (hp : T.store p = some (.leaf es left right)) :
    ∃ (T₀ : Tree) (l₁ l₂ : Nat), (T.splitLeaf w p es left right).2.2 = T₀.halve p T.alloc.1
        (.leaf (liveEntries (es.take (Tree.pivotOf es))) l₁ T.alloc.1)
        (.leaf (liveEntries (es.drop (Tree.pivotOf es))) l₂ right) ∧
      Split T₀ p T.alloc.1 (.leaf es left right) ∧ Relinked T T₀ := by
  have hpn : T.store p ≠ none := by simp [hp]
  have hpf := hi.alloc_ne hpn
  obtain ⟨⟨l₁, h1⟩, ⟨l₂, h2⟩, h3⟩ := Tree.splitLeaf_of_leaf (w := w) hi hp
  have hI := Tree.splitLeaf_ids (w := w) es left right hi hpn
  have hinner : ∀ q qs, (T.splitLeaf w p es left right).2.2.store q = some (.inner qs) ↔
      T.store q = some (.inner qs) := fun q qs => Tree.splitLeaf_inner hi hp
  have hback : ∀ q es' l r, (T.splitLeaf w p es left right).2.2.store q = some (.leaf es' l r) →
      q = p ∨ q = T.alloc.1 ∨ ∃ l', T.store q = some (.leaf es' l' r) := by
    intro q es' l r hq
    rcases Tree.splitLeaf_leaf hi hpn hq with ⟨h, -⟩ | ⟨h, -⟩ | ⟨-, -, h⟩
    · exact .inl h
    · exact .inr (.inl h)
    · exact .inr (.inr h)
  have hroot : (T.splitLeaf w p es left right).2.2.root = T.root := Tree.splitLeaf_root
  generalize (T.splitLeaf w p es left right).2.2 = U at h1 h2 h3 hI hinner hback hroot ⊢
  obtain ⟨T₀, hT₀⟩ : ∃ T₀, T₀ = U.unhalve p T.alloc.1 (.leaf es left right) := ⟨_, rfl⟩
  have hat : T₀.store p = some (.leaf es left right) := by rw [hT₀, Tree.unhalve_left hpf]
  have hnew : T₀.store T.alloc.1 = none := by rw [hT₀, Tree.unhalve_right]
  have hother : ∀ q, q ≠ p → q ≠ T.alloc.1 → T₀.store q = U.store q := by
    intro q hqp hqf
    rw [hT₀, Tree.unhalve_other hqp hqf]
  have hfresh : T.store T.alloc.1 = none := hi.alloc.2.2
  refine ⟨T₀, l₁, l₂, ?_, ⟨⟨?_, ?_, ?_, ?_⟩, hat, ?_, hnew⟩, ⟨?_, ?_, ?_⟩⟩
  · rw [hT₀, Tree.halve_unhalve hpf h1 h2]
  · rw [hT₀]; exact hI.next
  · intro q hq
    have hu : U.InUse q := by
      by_cases hqp : q = p
      · rw [hqp]; exact hI.used p (by simp [h1])
      · have hqf : q ≠ T.alloc.1 := fun e => hq (e ▸ hnew)
        exact hI.used q (by rwa [hother q hqp hqf] at hq)
    rw [hT₀]; exact hu
  · rw [hT₀]; exact hI.nodup
  · rw [hT₀]; exact hI.range
  · rw [hT₀]; exact hI.used T.alloc.1 (by simp [h2])
  · rw [hT₀]; exact hroot
  · intro q qs
    by_cases hqp : q = p
    · rw [hqp, hat, hp]
    · by_cases hqf : q = T.alloc.1
      · rw [hqf, hnew, hfresh]
      · rw [hother q hqp hqf]
        exact hinner q qs
  · intro q es' r
    by_cases hqp : q = p
    · rw [hqp, hat, hp]
    · by_cases hqf : q = T.alloc.1
      · rw [hqf, hnew, hfresh]
      · rw [hother q hqp hqf]
        refine ⟨fun ⟨l, hq⟩ => ?_, fun ⟨l, hq⟩ => h3 q es' l r hqp hq⟩
        rcases hback q es' l r hq with e | e | h
        · exact absurd e hqp
        · exact absurd e hqf
        · exact h

/-- The separator of a leaf split: the key at the pivot. -/
theorem splitLeaf_sep (hi : T.Ids) (hp : T.store p = some (.leaf es left right)) {b : Bytes}
    {rest : List Entry} (hb : liveEntries (es.drop (Tree.pivotOf es)) = .live b :: rest) :
    (T.splitLeaf w p es left right).2.1 = b.take w := by
  obtain ⟨-, ⟨l₂, hf⟩, -⟩ := Tree.splitLeaf_of_leaf (w := w) hi hp
  change (T.splitLeaf w p es left right).2.2.minKey w T.alloc.1 = _
  rw [hb] at hf
  unfold Tree.minKey
  rw [hf]

theorem pivotKey_eq (hh : Halves es) (hlong : LongEnough w es) (hi : T.Ids)
    (hp : T.store p = some (.leaf es left right)) :
    keyOf w (T.splitLeaf w p es left right).2.1 = entryKey w es (Tree.pivotOf es) := by
  obtain ⟨b, rest, hd⟩ := pivotOf_live hh.upper
  have hb : es[Tree.pivotOf es]? = some (.live b) := by
    rw [← Nat.add_zero (Tree.pivotOf es), ← List.getElem?_drop, hd]; rfl
  have hup : liveEntries (es.drop (Tree.pivotOf es)) = .live b :: liveEntries rest := by rw [hd]; rfl
  rw [splitLeaf_sep hi hp hup, entryKey_live hb, keyOf_take (hlong b (List.mem_of_getElem? hb))]

/-- The separator is above the pair of the leaf: always where no search falls
back to a first child, and otherwise where it is above the first separator. -/
theorem Routed.below_pivot (hr : Routed σ w T) (hh : Halves es) (hlt : LeafLt w es)
    (hp : T.store p = some (.leaf es left right)) {ps : List Pair} {pr : Pair}
    (hq : T.store q = some (.inner ps)) (hpr : pr ∈ ps) (he : pr.2 = p)
    (hfirst : σ ∨ pairKey w ps 0 < entryKey w es (Tree.pivotOf es)) :
    keyOf w pr.1 < entryKey w es (Tree.pivotOf es) := by
  obtain ⟨j, hj⟩ := List.getElem?_of_mem hpr
  have hjlt := (List.getElem?_eq_some_iff.mp hj).1
  have hkey : pairKey w ps j = keyOf w pr.1 := by rw [pairKey, hj]; rfl
  obtain ⟨b, hb⟩ := hh.lower
  obtain ⟨i, hi, hget⟩ := List.mem_take_iff_getElem.mp hb
  have hbi : es[i]? = some (.live b) := List.getElem?_eq_some_iff.mpr ⟨_, hget⟩
  obtain ⟨b₂, rest, hd⟩ := pivotOf_live hh.upper
  have hb₂ : es[Tree.pivotOf es]? = some (.live b₂) := by
    rw [← Nat.add_zero (Tree.pivotOf es), ← List.getElem?_drop, hd]; rfl
  have hbp : keyOf w b < keyOf w b₂ := by
    refine hlt.lt ?_ hbi hb₂
    rw [Tree.pivotOf]
    omega
  -- a record below the pivot led to the leaf through the pair
  obtain ⟨-, hc, h0⟩ := hr.last (hr.recs p es left right hp b (List.mem_of_getElem? hbi)) hq hj he
  have hidx := ((childIdx_iff (hr.sorted q ps hq) hjlt).mp hc).1
  rw [entryKey_live hb₂] at hfirst ⊢
  rw [← hkey]
  cases hidx with
  | inl hz =>
    subst hz
    cases hfirst with
    | inl hσ => exact Int.lt_of_le_of_lt (h0 hσ) hbp
    | inr hlt => exact hlt
  | inr hle => exact Int.lt_of_le_of_lt hle hbp

/-- Splitting a leaf keeps every route, when its separator is above the pair
of the leaf. -/
theorem splitChild_routed (hw : w ≤ 8) (hi : T.Ids) (hs : Shape w rank T) (hr : Routed σ w T)
    (hp : T.store p = some (.leaf es left right)) (hh : Halves es) (hlt : LeafLt w es)
    (hpath : Path T p stack) (hnd : stack.Nodup)
    (hbelow : ∀ q ps pr, T.store q = some (.inner ps) → pr ∈ ps → pr.2 = p →
      keyOf w pr.1 < entryKey w es (Tree.pivotOf es)) :
    Routed σ w (T.splitChild w p es left right stack) := by
  have hlong := hs.long p es left right hp
  obtain ⟨T₀, l₁, l₂, he, hsplit, hrel⟩ := splitLeaf_halve (w := w) hi hp
  change Routed σ w (Tree.wire w stack (T.splitLeaf w p es left right).2.2 p
    (T.splitLeaf w p es left right).2.1 T.alloc.1)
  rw [he]
  have hhalf := hlt.halving hh hlong (fun b rest hb => splitLeaf_sep (w := w) hi hp hb) left right l₁
    T.alloc.1 l₂ right
  refine wire_routed hw stack T₀ rank p T.alloc.1 _ _ _ _ hsplit (hrel.routed hr) (hrel.shape hs) hhalf
    (hrel.path hpath) hnd fun q ps pr hq hpr hep => ?_
  rw [pivotKey_eq hh hlong hi hp]
  exact hbelow q ps pr ((hrel.inner q ps).mp hq) hpr hep

/-! ## The calls -/

/-- Every leaf is in strict key order. -/
def LeavesLt (w : Nat) (T : Tree) : Prop :=
  ∀ p es l r, T.store p = some (.leaf es l r) → LeafLt w es

/-- Every record has its key in the list. -/
def KeysIn (w : Nat) (ks : List Int) (T : Tree) : Prop :=
  ∀ p es l r, T.store p = some (.leaf es l r) → ∀ b, .live b ∈ es → keyOf w b ∈ ks

/-- No record has the key. -/
def KeyFree (w : Nat) (x : Int) (T : Tree) : Prop :=
  ∀ p es l r, T.store p = some (.leaf es l r) → ∀ b, .live b ∈ es → keyOf w b ≠ x

theorem KeysIn.free {ks : List Int} (h : KeysIn w ks T) (hx : x ∉ ks) : KeyFree w x T :=
  fun p es l r hp b hb e => hx (e ▸ h p es l r hp b hb)

theorem insert_leavesLt (hs : Shape w rank T) (hi : T.Ids) (h : LeavesLt w T) {r : Bytes}
    (hr : RoomFor w T r → KeyFree w (keyOf w r) T) : LeavesLt w (T.insert w r) := by
  intro q es' l r' hq
  obtain ⟨p, es, l₀, r₀, hp, hes⟩ := insert_leaf hs hi hq
  cases hes with
  | inl hsub => exact (h p es l₀ r₀ hp).sublist hsub
  | inr heq =>
    rw [heq.2]
    exact (h p es l₀ r₀ hp).insert (hr heq.1 p es l₀ r₀ hp)

theorem insert_keysIn (hs : Shape w rank T) (hi : T.Ids) {ks : List Int} (hk : KeysIn w ks T)
    (r : Bytes) : KeysIn w (keyOf w r :: ks) (T.insert w r) := by
  intro q es' l r' hq b hb
  obtain ⟨p, es, l₀, r₀, hp, hes⟩ := insert_leaf hs hi hq
  cases hes with
  | inl hsub => exact List.mem_cons_of_mem _ (hk p es l₀ r₀ hp b (hsub.subset hb))
  | inr heq =>
    rw [heq.2] at hb
    cases mem_leafInsert lowerSlot_le hb with
    | inl he => cases he; exact List.mem_cons_self
    | inr hm => exact List.mem_cons_of_mem _ (hk p es l₀ r₀ hp b hm)

theorem remove_leavesLt (h : LeavesLt w T) (x : Int) : LeavesLt w (T.remove w x) := by
  intro q es' l r hq
  obtain ⟨p, es, l₀, r₀, hp, hes⟩ := remove_leaf hq
  rcases hes with rfl | ⟨i, b, -, rfl⟩
  · exact h p _ l₀ r₀ hp
  · exact (h p es l₀ r₀ hp).dead i _

theorem remove_keysIn {ks : List Int} (hk : KeysIn w ks T) (x : Int) : KeysIn w ks (T.remove w x) := by
  intro q es' l r hq b hb
  obtain ⟨p, es, l₀, r₀, hp, hes⟩ := remove_leaf hq
  rcases hes with rfl | ⟨i, c, -, rfl⟩
  · exact hk p _ l₀ r₀ hp b hb
  · exact hk p es l₀ r₀ hp b (live_of_mem_set hb)

theorem Routed.setLeaf (h : Routed σ w T) {es' : List Entry} {l l' r r' : Nat}
    (hp : T.store p = some (.leaf es l r))
    (hgo : ∀ b, .live b ∈ es' → Goes σ w T (keyOf w b) p) :
    Routed σ w (T.setNode p (.leaf es' l' r')) := by
  refine h.congr rfl (fun q qs => ?_) (fun q es₁ l₁ r₁ hq => ?_) fun q hq => ?_
  · by_cases hqp : q = p
    · rw [hqp, Tree.setNode_self, hp]
      exact iff_of_false (by simp) (by simp)
    · rw [Tree.setNode_of_ne T _ hqp]
  · by_cases hqp : q = p
    · rw [hqp, Tree.setNode_self] at hq
      cases hq
      rw [hqp]
      exact hgo
    · rw [Tree.setNode_of_ne T _ hqp] at hq
      exact h.recs q es₁ l₁ r₁ hq
  · by_cases hqp : q = p
    · simp [hqp, hp]
    · rwa [Tree.setNode_of_ne T _ hqp] at hq

/-- The parent of a page is the nearest page of a path to it. -/
theorem Routed.parent (hr : Routed σ w T) (hpath : Path T p stack) {ps : List Pair} {pr : Pair}
    (hq : T.store q = some (.inner ps)) (hpr : pr ∈ ps) (he : pr.2 = p) : stack.head? = some q := by
  cases stack with
  | nil => exact absurd (he.trans hpath.symm) (hr.top q ps hq pr hpr)
  | cons q' rest =>
    obtain ⟨⟨ps', k, hq', hm⟩, -⟩ := hpath
    rw [List.head?_cons, hr.single q ps q' ps' pr (k, p) hq hq' hpr hm he]

/-- The leaf of a record has room, or splits in two, its separator above the
first one of the parent. -/
def SplitsUp (w : Nat) (T : Tree) (r : Bytes) : Prop :=
  ∀ p stack es left right, T.find w (keyOf w r) = some (p, stack) →
    T.store p = some (.leaf es left right) → ¬ leafRoom es r.length = true →
    Halves es ∧ ∀ q ps, stack.head? = some q → T.store q = some (.inner ps) →
      pairKey w ps 0 < entryKey w es (Tree.pivotOf es)

theorem insert_routed (hw : w ≤ 8) (hi : T.Ids) (hs : Shape w rank T) (hlt : LeavesLt w T)
    (h : Routed False w T) {r : Bytes} (hup : SplitsUp w T r) : Routed False w (T.insert w r) := by
  obtain ⟨p, stack, hf, hroute, es, left, right, hp⟩ := find_route hs hi (keyOf w r)
  have hltp := hlt p es left right hp
  unfold Tree.insert
  simp only [hf, hp]
  split
  · apply h.setLeaf hp
    intro b hb
    cases mem_leafInsert lowerSlot_le hb with
    | inl he => cases he; exact hroute.goes
    | inr hm => exact h.recs p es left right hp b hm
  · next hroom =>
    obtain ⟨hh, hfirst⟩ := hup p stack es left right hf hp hroom
    refine splitChild_routed hw hi hs h hp hh hltp hroute.path (hroute.nodup hs)
      fun q ps pr hq hpr he => h.below_pivot hh hltp hp hq hpr he (.inr ?_)
    exact hfirst q ps (h.parent hroute.path hq hpr he) hq

theorem remove_routed (h : Routed False w T) (x : Int) : Routed False w (T.remove w x) := by
  obtain e | ⟨p, es, left, right, i, b, hp, -, e⟩ := T.remove_cases w x
  · rw [e]
    exact h
  · rw [e]
    exact h.setLeaf hp fun c hc => h.recs _ _ _ _ hp c (live_of_mem_set hc)

end

end DbInternals.Index
