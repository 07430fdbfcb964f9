import DbInternals.Index.TreeModel

/-!
# Searches on strictly sorted pairs

Which pair a search stops at, when the separators of a page are strictly
sorted, and how that changes when a pair is inserted or the list is halved.

Results: `childIdx_iff`, `lowerIdx_between`, `childIdx_insert`,
`childIdx_take`, `childIdx_drop`.
-/
namespace DbInternals.Index

open Storage SlottedPage

def PairsLt (w : Nat) (ps : List Pair) : Prop :=
  ps.Pairwise fun a b => keyOf w a.1 < keyOf w b.1

section
variable {w i j m : Nat} {ps : List Pair} {x y : Int} {sep : Bytes} {c right : Nat}

theorem PairsLt.lt (h : PairsLt w ps) (hij : i < j) (hj : j < ps.length) :
    pairKey w ps i < pairKey w ps j := by
  rw [pairKey_getElem hj, pairKey_getElem (by omega)]
  exact List.pairwise_iff_getElem.mp h i j _ hj hij

theorem PairsLt.le (h : PairsLt w ps) (hij : i ≤ j) (hj : j < ps.length) :
    pairKey w ps i ≤ pairKey w ps j := by
  cases Nat.lt_or_eq_of_le hij with
  | inl hlt => exact Int.le_of_lt (h.lt hlt hj)
  | inr he => rw [he]

/-- The pairs below the boundary of a search are those it accepts. -/
theorem bisect_pairs {f : Int → Bool} (h : PairsLt w ps)
    (hf : ∀ a b : Int, a ≤ b → f b = true → f a = true) :
    ∀ i, i < ps.length → (f (pairKey w ps i) = true ↔
      i < Search.bisect (fun i => f (pairKey w ps i)) ps.length 0 ps.length) := by
  intro i hi
  obtain ⟨h1, h2⟩ := Search.bisect_boundary (fun i => f (pairKey w ps i)) ps.length 0 ps.length
    (by omega) (Nat.zero_le _) fun i j _ hij hj => hf _ _ (h.le (Nat.le_of_lt hij) hj)
  constructor
  · intro ht
    by_contra hc
    rw [h2 i (Nat.not_lt.mp hc) hi] at ht
    cases ht
  · exact h1 i (Nat.zero_le _)

/-- The pair a search descends through, on strictly sorted keys. -/
theorem childIdx_iff (h : PairsLt w ps) (hi : i < ps.length) : childIdx w ps x = i ↔
    (i = 0 ∨ pairKey w ps i ≤ x) ∧ (i + 1 < ps.length → x < pairKey w ps (i + 1)) := by
  have hb := bisect_pairs (f := fun k => decide (k ≤ x)) h fun a b hab hb => by
    simp only [decide_eq_true_eq] at hb ⊢; omega
  simp only [decide_eq_true_eq] at hb
  have hle := (Search.bisect_le (fun i => decide (pairKey w ps i ≤ x)) ps.length 0 ps.length
    (Nat.zero_le _)).2
  rw [childIdx]
  generalize Search.bisect (fun i => decide (pairKey w ps i ≤ x)) ps.length 0 ps.length = k at hb hle ⊢
  have h1 := hb i hi
  constructor
  · intro hk
    refine ⟨?_, fun hi' => ?_⟩
    · by_cases h0 : i = 0
      · exact .inl h0
      · exact .inr (h1.mpr (by omega))
    · have := (hb (i + 1) hi').not.mpr (by omega)
      omega
  · rintro ⟨h0, hlt⟩
    by_cases hi' : i + 1 < ps.length
    · have h2 := (hb (i + 1) hi').not.mp (by have := hlt hi'; omega)
      rcases h0 with h0 | h0
      · omega
      · have := h1.mp h0
        omega
    · rcases h0 with h0 | h0
      · omega
      · have := h1.mp h0
        omega

/-- Where a separator between two neighbours goes. -/
theorem lowerIdx_between (h : PairsLt w ps) (hi : i < ps.length) (h1 : pairKey w ps i < x)
    (h2 : i + 1 < ps.length → x < pairKey w ps (i + 1)) : lowerIdx w ps x = i + 1 := by
  have hb := bisect_pairs (f := fun k => decide (k < x)) h fun a b hab hb => by
    simp only [decide_eq_true_eq] at hb ⊢; omega
  simp only [decide_eq_true_eq] at hb
  have hle : lowerIdx w ps x ≤ ps.length := lowerIdx_le
  rw [lowerIdx] at hle ⊢
  have h3 := (hb i hi).mp h1
  by_cases hi' : i + 1 < ps.length
  · have := (hb (i + 1) hi').not.mp (by have := h2 hi'; omega)
    omega
  · omega

/-! ## A pair inserted -/

theorem pairKey_insertIdx (hj : j ≤ ps.length) : pairKey w (ps.insertIdx j (sep, right)) i =
    if i < j then pairKey w ps i else if i = j then keyOf w sep else pairKey w ps (i - 1) := by
  simp only [pairKey, List.getElem?_insertIdx]
  split
  · rfl
  · split
    · next h => rw [if_pos (by omega)]; rfl
    · rfl

theorem pairsLt_insertIdx (right : Nat) (h : PairsLt w ps) (hi : i < ps.length) (h1 : pairKey w ps i < keyOf w sep)
    (h2 : i + 1 < ps.length → keyOf w sep < pairKey w ps (i + 1)) :
    PairsLt w (ps.insertIdx (i + 1) (sep, right)) := by
  have hlen : (ps.insertIdx (i + 1) (sep, right)).length = ps.length + 1 :=
    List.length_insertIdx_of_le_length (by omega) _
  refine List.pairwise_iff_getElem.mpr fun a b ha hb hab => ?_
  rw [hlen] at ha hb
  rw [← pairKey_getElem, ← pairKey_getElem, pairKey_insertIdx (by omega), pairKey_insertIdx (by omega)]
  split
  · next h3 =>
    split
    · exact h.lt hab (by omega)
    · split
      · exact Int.lt_of_le_of_lt (h.le (by omega) hi) h1
      · exact h.lt (by omega) (by omega)
  · split
    · next h3 h4 =>
      rw [if_neg (by omega), if_neg (by omega)]
      exact Int.lt_of_lt_of_le (h2 (by omega)) (h.le (by omega) (by omega))
    · rw [if_neg (by omega), if_neg (by omega)]
      exact h.lt (by omega) (by omega)

/-- The descent after a pair was inserted behind pair `j`. -/
theorem childIdx_insert (right : Nat) (h : PairsLt w ps) (hj : j < ps.length)
    (h1 : pairKey w ps j < keyOf w sep)
    (h2 : j + 1 < ps.length → keyOf w sep < pairKey w ps (j + 1)) (hi : i < ps.length)
    (hx : childIdx w ps x = i) : childIdx w (ps.insertIdx (j + 1) (sep, right)) x =
      if i < j ∨ i = j ∧ x < keyOf w sep then i else i + 1 := by
  have hlen : (ps.insertIdx (j + 1) (sep, right)).length = ps.length + 1 :=
    List.length_insertIdx_of_le_length (by omega) _
  have hs := pairsLt_insertIdx right h hj h1 h2
  obtain ⟨h3, h4⟩ := (childIdx_iff h hi).mp hx
  split
  · next hc =>
    refine (childIdx_iff hs (by omega)).mpr ⟨?_, fun hi' => ?_⟩
    · rw [pairKey_insertIdx (by omega), if_pos (by omega)]
      exact h3
    · rw [pairKey_insertIdx (by omega)]
      split
      · exact h4 (by omega)
      · rw [if_pos (by omega)]
        omega
  · next hc =>
    refine (childIdx_iff hs (by omega)).mpr ⟨.inr ?_, fun hi' => ?_⟩
    · rw [pairKey_insertIdx (by omega), if_neg (by omega)]
      split
      · omega
      · exact h3.resolve_left (by omega)
    · rw [pairKey_insertIdx (by omega), if_neg (by omega), if_neg (by omega)]
      exact h4 (by omega)

/-! ## A list halved -/

theorem pairKey_take (hi : i < m) : pairKey w (ps.take m) i = pairKey w ps i := by
  rw [pairKey, pairKey, List.getElem?_take_of_lt hi]

theorem pairKey_drop : pairKey w (ps.drop m) i = pairKey w ps (m + i) := by
  rw [pairKey, pairKey, List.getElem?_drop]

theorem childIdx_take (h : PairsLt w ps) (hm : m < ps.length) (h0 : 0 < m)
    (hx : x < pairKey w ps m) : childIdx w (ps.take m) x = childIdx w ps x ∧ childIdx w ps x < m := by
  have hne : ps ≠ [] := by rintro rfl; simp at hm
  have hi := childIdx_lt (w := w) (x := x) hne
  obtain ⟨h3, h4⟩ := (childIdx_iff h hi).mp rfl
  have hlt : childIdx w ps x < m := by
    by_contra hc
    have := h.le (Nat.not_lt.mp hc) hi
    omega
  refine ⟨(childIdx_iff (h.take) ?_).mpr ⟨?_, fun hi' => ?_⟩, hlt⟩
  · rw [List.length_take]; omega
  · rw [pairKey_take hlt]; exact h3
  · rw [List.length_take] at hi'
    rw [pairKey_take (by omega)]
    exact h4 (by omega)

theorem childIdx_drop (h : PairsLt w ps) (hm : m < ps.length) (hx : pairKey w ps m ≤ x) :
    childIdx w (ps.drop m) x = childIdx w ps x - m ∧ m ≤ childIdx w ps x := by
  have hne : ps ≠ [] := by rintro rfl; simp at hm
  have hi := childIdx_lt (w := w) (x := x) hne
  obtain ⟨h3, h4⟩ := (childIdx_iff h hi).mp rfl
  have hle : m ≤ childIdx w ps x := by
    by_contra hc
    have h5 := h4 (by omega)
    have h6 := h.le (show childIdx w ps x + 1 ≤ m by omega) hm
    omega
  refine ⟨(childIdx_iff (h.drop) ?_).mpr ⟨?_, fun hi' => ?_⟩, hle⟩
  · rw [List.length_drop]; omega
  · rw [pairKey_drop, Nat.add_sub_cancel' hle]
    rcases h3 with h3 | h3
    · exact .inl (by omega)
    · exact .inr h3
  · rw [List.length_drop] at hi'
    rw [pairKey_drop, show m + (childIdx w ps x - m + 1) = childIdx w ps x + 1 by omega]
    exact h4 (by omega)

end

end DbInternals.Index
