import DbInternals.Index.Iterator

/-!
# An iterator on a chain of leaves

The leaves a scan walks over, by their page ids: `records` are the live records in the order
of the chain. A step of `Next` stays on the leaf of the buffer or crosses to the first leaf
behind it that has a live record (`firstLive`).

Results:
* `RightChain.nodup`, `KeyChain.length_le`: a chain that ends passes no leaf twice;
* `next_stays`, `next_takes`, `next_crosses`: the effect of `Next`, by what is live from its
  position on;
* `Yields`: what all further calls return; `yields_step`, `yields_fixed`, `yields_throws`.
-/
namespace DbInternals.Index

open Storage SlottedPage

/-- The pages are linked by their right siblings, up to the last leaf. -/
def RightChain (s : TreeState) : List Nat → Prop
  | [] => True
  | [p] => getRightSibling (s.page p) = INVALID_PAGE_ID
  | p :: q :: ps => getRightSibling (s.page p) = q ∧ q ≠ INVALID_PAGE_ID ∧ RightChain s (q :: ps)

section
variable {s : TreeState} {p : Nat} {ps qs : List Nat}

theorem RightChain.tail (h : RightChain s (p :: ps)) : RightChain s ps := by
  cases ps with
  | nil => trivial
  | cons q ps => exact h.2.2

theorem RightChain.suffix (h : RightChain s ps) (hs : qs <:+ ps) : RightChain s qs := by
  obtain ⟨pre, rfl⟩ := hs
  induction pre with
  | nil => exact h
  | cons p pre ih => exact ih h.tail

/-- The pages decide how a chain goes on. -/
theorem RightChain.unique (h : RightChain s (p :: ps)) (h' : RightChain s (p :: qs)) : ps = qs := by
  induction ps generalizing p qs with
  | nil =>
    cases qs with
    | nil => rfl
    | cons q qs => exact absurd (h'.1.symm.trans h) h'.2.1
  | cons a ps ih =>
    cases qs with
    | nil => exact absurd (h.1.symm.trans h') h.2.1
    | cons b qs =>
      obtain rfl : a = b := h.1.symm.trans h'.1
      rw [ih h.2.2 h'.2.2]

theorem RightChain.nodup (h : RightChain s ps) : ps.Nodup := by
  induction ps with
  | nil => exact List.nodup_nil
  | cons p ps ih =>
    refine List.nodup_cons.mpr ⟨fun hp => ?_, ih h.tail⟩
    obtain ⟨pre, post, rfl⟩ := List.append_of_mem hp
    have he := h.unique ((h.tail).suffix (List.suffix_append pre (p :: post)))
    have hlen := congrArg List.length he
    simp at hlen
    omega

end

/-- The slots of a leaf. -/
def slotsOf {κ : Type} (leaves : Nat → Option (List (Option (κ × Bytes)))) (p : Nat) :
    List (Option (κ × Bytes)) := (leaves p).getD []

/-- The live records of a leaf. -/
def live {κ : Type} (leaves : Nat → Option (List (Option (κ × Bytes)))) (p : Nat) :
    List (κ × Bytes) := liveFrom (slotsOf leaves p) 0

def records {κ : Type} (leaves : Nat → Option (List (Option (κ × Bytes)))) (ps : List Nat) :
    List (κ × Bytes) := ps.flatMap (live leaves)

/-- The chain from the first leaf with a live record on, or its last leaf if there is none. -/
def firstLive {κ : Type} (leaves : Nat → Option (List (Option (κ × Bytes)))) : List Nat → List Nat
  | [] => []
  | [p] => [p]
  | p :: q :: ps => if (live leaves p).isEmpty then firstLive leaves (q :: ps) else p :: q :: ps

/-- A chain of leaves with increasing keys, on disk. -/
structure KeyChain {κ : Type} [LT κ] (t : TreeConfig) (reads : Key → κ → Prop) (s : TreeState)
    (leaves : Nat → Option (List (Option (κ × Bytes)))) (ps : List Nat) : Prop where
  io : s.diskManager.io = none
  mapped : ∀ p ∈ ps, Mapped s.diskManager p
  slots : ∀ p ∈ ps, ReadsSlots t reads (s.page p) (slotsOf leaves p)
  linked : RightChain s ps
  sorted : (records leaves ps).Pairwise fun a b => a.1 < b.1

section
variable {κ : Type} {leaves : Nat → Option (List (Option (κ × Bytes)))} {p q : Nat} {ps qs : List Nat}

@[simp] theorem records_cons : records leaves (p :: ps) = live leaves p ++ records leaves ps := rfl

theorem records_suffix (h : qs <:+ ps) : (records leaves qs).Sublist (records leaves ps) := by
  obtain ⟨pre, rfl⟩ := h
  rw [records, records, List.flatMap_append]
  exact List.sublist_append_right _ _

theorem liveFrom_sublist (slots : List (Option (κ × Bytes))) {i j : Nat} (h : i ≤ j) :
    (liveFrom slots j).Sublist (liveFrom slots i) :=
  (List.drop_sublist_drop_left slots h).filterMap id

theorem firstLive_suffix : ∀ ps, firstLive leaves ps <:+ ps
  | [] => List.suffix_refl _
  | [p] => List.suffix_refl _
  | p :: q :: ps => by
    rw [firstLive]
    split
    · exact (firstLive_suffix (q :: ps)).trans (List.suffix_cons p _)
    · exact List.suffix_refl _

theorem exists_firstLive : ∀ p ps, ∃ q qs, firstLive leaves (p :: ps) = q :: qs
  | p, [] => ⟨p, [], rfl⟩
  | p, q :: ps => by
    rw [firstLive]
    split
    · exact exists_firstLive q ps
    · exact ⟨p, q :: ps, rfl⟩

theorem firstLive_live (h : live leaves p ≠ []) :
    firstLive leaves (p :: ps) = p :: ps := by
  cases ps with
  | nil => rfl
  | cons q ps => simp [firstLive, h]

theorem firstLive_dead (h : live leaves p = []) :
    firstLive leaves (p :: q :: ps) = firstLive leaves (q :: ps) := by
  simp [firstLive, h]

/-- A chain without live records ends in its last leaf. -/
theorem firstLive_nil : ∀ ps, firstLive leaves ps = q :: qs → live leaves q = [] → qs = []
  | [], h, _ => by cases h
  | [p], h, _ => by
    cases h
    rfl
  | p :: q' :: ps, h, hq => by
    by_cases hp : live leaves p = []
    · exact firstLive_nil (q' :: ps) ((firstLive_dead hp).symm.trans h) hq
    · rw [firstLive_live hp] at h
      cases h
      exact absurd hq hp

theorem records_firstLive : ∀ ps, records leaves (firstLive leaves ps) = records leaves ps
  | [] => rfl
  | [p] => rfl
  | p :: q :: ps => by
    rw [firstLive]
    split
    · next hp =>
      rw [records_firstLive (q :: ps), records_cons (p := p), List.isEmpty_iff.mp hp, List.nil_append]
    · rfl

end

section
variable {κ : Type} [LinearOrder κ] {t : TreeConfig} {reads : Key → κ → Prop} {s : TreeState}
  {leaves : Nat → Option (List (Option (κ × Bytes)))} {p q i pos : Nat} {ps qs : List Nat} {y : κ}
  {it it' : BPlusTreeIterator} {r : κ × Bytes}

/-! ## Chains -/

theorem KeyChain.suffix (h : KeyChain t reads s leaves ps) (hs : qs <:+ ps) :
    KeyChain t reads s leaves qs where
  io := h.io
  mapped p hp := h.mapped p (hs.subset hp)
  slots p hp := h.slots p (hs.subset hp)
  linked := h.linked.suffix hs
  sorted := h.sorted.sublist (records_suffix hs)

theorem KeyChain.length_le (h : KeyChain t reads s leaves ps) : ps.length ≤ nextId s := by
  have hsub : ps ⊆ List.range (nextId s) := fun p hp => List.mem_range.mpr (h.mapped p hp).1
  have hlen := h.linked.nodup.length_le_of_subset hsub
  rwa [List.length_range] at hlen

theorem KeyChain.live_sorted (h : KeyChain t reads s leaves (p :: ps)) :
    (live leaves p).Pairwise fun a b => a.1 < b.1 :=
  (List.pairwise_append.mp (records_cons ▸ h.sorted)).1

/-- Keys increase with the slots. -/
theorem slot_lt {slots : List (Option (κ × Bytes))} {j : Nat} {a b : κ × Bytes}
    (h : (liveFrom slots 0).Pairwise fun a b => a.1 < b.1) (hij : i < j)
    (ha : slots[i]? = some (some a)) (hb : slots[j]? = some (some b)) : a.1 < b.1 := by
  have hpair := h.sublist (liveFrom_sublist _ (Nat.zero_le i))
  rw [liveFrom_cons ha] at hpair
  exact (List.pairwise_cons.mp hpair).1 b (mem_liveFrom.mpr ⟨j, hij, hb⟩)

/-- Behind the key of a slot are the later slots. -/
theorem liveFrom_upper {slots : List (Option (κ × Bytes))}
    (h : (liveFrom slots 0).Pairwise fun a b => a.1 < b.1) (hi : slots[i]? = some (some r))
    (hpos : Separates slots (· ≤ r.1) pos) : liveFrom slots pos = liveFrom slots (i + 1) := by
  have hsep : Separates slots (· ≤ r.1) (i + 1) := by
    intro j x b hj
    rcases Nat.lt_trichotomy j i with hlt | rfl | hlt
    · exact iff_of_true (le_of_lt (slot_lt h hlt hj hi)) (by omega)
    · rw [hi] at hj
      cases hj
      exact iff_of_true (le_refl _) (by omega)
    · exact iff_of_false (not_le.mpr (slot_lt h hlt hi hj)) (by omega)
  rw [hpos.liveFrom, hsep.liveFrom]

theorem KeyChain.slotsSorted (h : KeyChain t reads s leaves (p :: ps)) : SlotsSorted (slotsOf leaves p) :=
  fun _ _ _ _ _ _ hij ha hb => le_of_lt (slot_lt h.live_sorted hij ha hb)

/-! ## One call of `Next` -/

/-- The buffer has the first page of the chain. -/
structure On (t : TreeConfig) (reads : Key → κ → Prop) (s : TreeState)
    (leaves : Nat → Option (List (Option (κ × Bytes)))) (y : κ) (it : BPlusTreeIterator) (p : Nat)
    (ps : List Nat) : Prop where
  data : it.data = s.page p
  bound : reads it.end_ y
  chain : KeyChain t reads s leaves (p :: ps)

theorem On.slots (h : On t reads s leaves y it p ps) : ReadsSlots t reads it.data (slotsOf leaves p) :=
  h.data ▸ h.chain.slots p List.mem_cons_self

/-- The walk that `Next` starts at a position. -/
theorem next_ends (hpos : position t it = .ok pos) {a : Option Bytes × BPlusTreeIterator}
    (h : Ends (walk t (nextId s + 2) pos it) s a s) : Ends (next t it) s a s :=
  (ends_buf hpos).bind ((Ends.get s).bind h)

/-- No record to return is left, or the next one of the leaf is past the range. -/
theorem next_stays (ho : KeyOrder reads) (h : On t reads s leaves y it p ps)
    (hpos : position t it = .ok pos)
    (hr : (∀ r ∈ liveFrom (slotsOf leaves p) pos, ¬ r.1 ≤ y) ∧
      (liveFrom (slotsOf leaves p) pos = [] → ps = [])) : Ends (next t it) s (none, it) s := by
  apply next_ends hpos
  cases hl : liveFrom (slotsOf leaves p) pos with
  | cons r rest =>
    obtain ⟨i, -, -, e⟩ := walk_here (ho.cuts h.bound) h.slots hl (nextId s + 1) s
    rwa [if_neg (hr.1 r (hl ▸ List.mem_cons_self))] at e
  | nil =>
    cases hr.2 hl
    have hright : getRightSibling it.data = INVALID_PAGE_ID := h.data ▸ h.chain.linked
    rw [walk_cross h.slots hl, if_pos hright]
    exact .pure _ _

/-- A record of the leaf is returned. -/
theorem next_takes (ho : KeyOrder reads) (h : On t reads s leaves y it p ps)
    (hpos : position t it = .ok pos) {rest : List (κ × Bytes)}
    (hr : liveFrom (slotsOf leaves p) pos = r :: rest) (hy : r.1 ≤ y) :
    ∃ i, (slotsOf leaves p)[i]? = some (some r) ∧ rest = liveFrom (slotsOf leaves p) (i + 1) ∧
      Ends (next t it) s (some r.2, { it with lastKey := some (keySpan t it.data i) }) s := by
  obtain ⟨i, hi, hrest, e⟩ := walk_here (ho.cuts h.bound) h.slots hr (nextId s + 1) s
  rw [if_pos hy] at e
  exact ⟨i, hi, hrest, next_ends hpos e⟩

/-- What a walk does on the first live leaf `q` it comes to. -/
def Lands (t : TreeConfig) (reads : Key → κ → Prop) (s : TreeState)
    (leaves : Nat → Option (List (Option (κ × Bytes)))) (y : κ) (it : BPlusTreeIterator) (q : Nat)
    (qs : List Nat) (a : Option Bytes) (it' : BPlusTreeIterator) : Prop :=
  On t reads s leaves y it' q qs ∧
    ((∀ r ∈ live leaves q, ¬ r.1 ≤ y) ∧ a = none ∧ it'.lastKey = it.lastKey ∨
      ∃ i r, (slotsOf leaves q)[i]? = some (some r) ∧ live leaves q = liveFrom (slotsOf leaves q) i ∧
        r.1 ≤ y ∧ a = some r.2 ∧ it'.lastKey = some (keySpan t (s.page q) i))

theorem On.cross (h : On t reads s leaves y it p (q :: qs)) :
    On t reads s leaves y { it with pageId := q, data := s.page q } q qs where
  data := rfl
  bound := h.bound
  chain := h.chain.suffix (List.suffix_cons p _)

/-- The page of the right sibling replaces the buffer. -/
theorem walk_right (h : On t reads s leaves y it p (q :: qs))
    (hl : liveFrom (slotsOf leaves p) pos = []) {fuel : Nat} {a : Option Bytes × BPlusTreeIterator}
    (he : Ends (walk t fuel 0 { it with pageId := q, data := s.page q }) s a s) :
    Ends (walk t (fuel + 1) pos it) s a s := by
  obtain ⟨hright, hne, -⟩ := h.chain.linked
  have hq : Mapped s.diskManager q := h.chain.mapped q (List.mem_cons_of_mem p List.mem_cons_self)
  rw [walk_cross h.slots hl, h.data, hright, if_neg hne]
  exact (ends_disk (readPage_ends h.chain.io hq)).bind he

/-- A live leaf is not passed. -/
theorem lands_live (ho : KeyOrder reads) (h : On t reads s leaves y it p ps) (hl : live leaves p ≠ [])
    (fuel : Nat) : ∃ a it', Ends (walk t (fuel + 1) 0 it) s (a, it') s ∧
      Lands t reads s leaves y it p ps a it' := by
  obtain ⟨r, rest, hl⟩ := List.exists_cons_of_ne_nil hl
  obtain ⟨i, hi, hrest, e⟩ := walk_here (ho.cuts h.bound) h.slots hl fuel s
  by_cases hy : r.1 ≤ y
  · rw [if_pos hy] at e
    refine ⟨_, _, e, ⟨h.data, h.bound, h.chain⟩, .inr ⟨i, r, hi, ?_, hy, rfl, by rw [← h.data]⟩⟩
    rw [hl, hrest, liveFrom_cons hi]
  · rw [if_neg hy] at e
    refine ⟨_, _, e, h, .inl ⟨fun r' hr' hy' => hy ?_, rfl, rfl⟩⟩
    have hsorted := h.chain.live_sorted
    rw [hl] at hr' hsorted
    rcases List.mem_cons.mp hr' with rfl | hr'
    · exact hy'
    · exact le_trans (le_of_lt ((List.pairwise_cons.mp hsorted).1 r' hr')) hy'

/-- A walk from the first slot of a leaf. -/
theorem walk_lands (ho : KeyOrder reads) (h : On t reads s leaves y it p ps) (fuel : Nat)
    (hf : ps.length < fuel) : ∃ q qs a it', firstLive leaves (p :: ps) = q :: qs ∧
      Ends (walk t fuel 0 it) s (a, it') s ∧ Lands t reads s leaves y it q qs a it' := by
  induction ps generalizing p it fuel with
  | nil =>
    obtain ⟨fuel, rfl⟩ : ∃ n, fuel = n + 1 := ⟨fuel - 1, by simp at hf; omega⟩
    by_cases hl : live leaves p = []
    · have hright : getRightSibling it.data = INVALID_PAGE_ID := h.data ▸ h.chain.linked
      refine ⟨p, [], none, it, rfl, ?_, h, .inl ⟨by simp [hl], rfl, rfl⟩⟩
      rw [walk_cross h.slots hl, if_pos hright]
      exact .pure _ _
    · obtain ⟨a, it', e, hland⟩ := lands_live ho h hl fuel
      exact ⟨p, [], a, it', rfl, e, hland⟩
  | cons q qs ih =>
    simp only [List.length_cons] at hf
    obtain ⟨fuel, rfl⟩ : ∃ n, fuel = n + 1 := ⟨fuel - 1, by omega⟩
    by_cases hl : live leaves p = []
    · obtain ⟨q', qs', a, it', hfirst, e, hland⟩ := ih h.cross fuel (by omega)
      exact ⟨q', qs', a, it', (firstLive_dead hl).trans hfirst, walk_right h hl e, hland⟩
    · obtain ⟨a, it', e, hland⟩ := lands_live ho h hl fuel
      exact ⟨p, q :: qs, a, it', firstLive_live hl, e, hland⟩

/-- Nothing is left on the leaf, and there is a next one. -/
theorem next_crosses (ho : KeyOrder reads) (h : On t reads s leaves y it p (q :: qs))
    (hpos : position t it = .ok pos) (hr : liveFrom (slotsOf leaves p) pos = []) :
    ∃ q' qs' a it', firstLive leaves (q :: qs) = q' :: qs' ∧ Ends (next t it) s (a, it') s ∧
      Lands t reads s leaves y it q' qs' a it' := by
  have hlen := h.chain.length_le
  simp only [List.length_cons] at hlen
  obtain ⟨q', qs', a, it', hfirst, e, hland⟩ := walk_lands ho h.cross (nextId s + 1) (by omega)
  exact ⟨q', qs', a, it', hfirst, next_ends hpos (walk_right h hr e), hland⟩

end

end DbInternals.Index
