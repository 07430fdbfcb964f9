import DbInternals.Index.LeafOrder

/-!
# The walk to the pivot

`splitChild` starts at the middle slot and goes on while `getRecord` returns
nothing. The loop has no bound but the width of `slot_id_t`: past the last slot
every record is empty, so a walk that finds no live slot in the upper half goes
on to slot 65535, wraps to slot 0 and takes the first live slot of the lower
half, or never ends.

Results: `walkPivot_upper`, `walkPivot_never`, `pivotAt_iff`,
`insert_diverges`.
-/
namespace DbInternals.Index

open Storage SlottedPage Mem

/-- The walk ends at a live slot of the upper half, and passes only dead slots of the page. -/
structure PivotAt (data : Mem) (pivot : Nat) : Prop where
  walk : walkPivot data (2 ^ 16) (getSlotCount data / 2) = .ok pivot
  lower : getSlotCount data / 2 ≤ pivot
  upper : pivot < getSlotCount data
  live : (record data pivot).2 ≠ 0
  passed : ∀ i, getSlotCount data / 2 ≤ i → i < pivot → (record data i).2 = 0

section
variable {data : Mem} {q : Nat}

/-- A live slot in the upper half: the walk ends at the first one. -/
theorem walkPivot_upper (hlive : (record data q).2 ≠ 0) (hle : getSlotCount data / 2 ≤ q)
    (hdead : ∀ i, getSlotCount data / 2 ≤ i → i < q → (record data i).2 = 0) :
    walkPivot data (2 ^ 16) (getSlotCount data / 2) = .ok q := by
  have hn := getSlotCount_lt data
  have hq : q < getSlotCount data := by
    by_contra hge
    exact hlive (record_past (Nat.not_lt.mp hge))
  exact walkPivot_first (by omega) hle hlive hdead (by omega)

/-- None there: every slot id from the middle on is passed, and the walk is back at slot 0. -/
theorem walkPivot_wraps (hdead : ∀ i, getSlotCount data / 2 ≤ i → (record data i).2 = 0) :
    walkPivot data (2 ^ 16) (getSlotCount data / 2) =
      walkPivot data (getSlotCount data / 2) 0 := by
  have hn := getSlotCount_lt data
  have hskip : walkPivot data (2 ^ 16 - getSlotCount data / 2 + getSlotCount data / 2)
      (getSlotCount data / 2) = walkPivot data (getSlotCount data / 2)
        ((getSlotCount data / 2 + (2 ^ 16 - getSlotCount data / 2)) % 2 ^ 16) := by
    apply walkPivot_skip
    · omega
    · omega
    · exact fun i h₁ _ => hdead i h₁
  rw [show 2 ^ 16 - getSlotCount data / 2 + getSlotCount data / 2 = 2 ^ 16 by omega] at hskip
  rw [hskip]
  rw [show getSlotCount data / 2 + (2 ^ 16 - getSlotCount data / 2) = 2 ^ 16 by omega, Nat.mod_self]

/-- On a page without live slots the walk never ends. -/
theorem walkPivot_never (hdead : ∀ i, (record data i).2 = 0) :
    walkPivot data (2 ^ 16) (getSlotCount data / 2) = .error .diverges := by
  have hn := getSlotCount_lt data
  rw [walkPivot_wraps fun i _ => hdead i]
  have hskip : walkPivot data (getSlotCount data / 2 + 0) 0 =
      walkPivot data 0 ((0 + getSlotCount data / 2) % 2 ^ 16) := by
    apply walkPivot_skip
    · omega
    · omega
    · exact fun i _ _ => hdead i
  exact hskip

end

/-- On any page the walk ends inside the upper half, without a wrap, exactly when not
every slot there is dead. -/
theorem pivotAt_iff (data : Mem) : (∃ pivot, PivotAt data pivot) ↔
    ∃ i, getSlotCount data / 2 ≤ i ∧ i < getSlotCount data ∧ (record data i).2 ≠ 0 := by
  constructor
  · intro h'
    rcases h' with ⟨p, hp⟩
    exact ⟨p, hp.lower, hp.upper, hp.live⟩
  · intro hex
    classical
    obtain ⟨hle, hlt, hlive⟩ := Nat.find_spec hex
    have hfirst : ∀ i, getSlotCount data / 2 ≤ i → i < Nat.find hex → (record data i).2 = 0 := by
      intro i h₁ h₂
      by_contra h₃
      exact Nat.find_min hex h₂ ⟨h₁, by omega, h₃⟩
    exact ⟨Nat.find hex, walkPivot_upper hlive hle hfirst, hle, hlt, hlive, hfirst⟩

/-! ## The insert that never ends -/

/-- A record that is refused by a leaf without live slots: the split never ends. -/
theorem insert_diverges {t : TreeConfig} {s s₁ : TreeState} {m : FindRecordMetadata} {r : Bytes}
    {f : Nat} (hrun : Ends (findRecord t (recordKey t r)) s m s)
    (hread : Ends (disk (readPage m.leafPage)) s (s.page m.leafPage) s)
    (hfull : insertRecordAt (s.page m.leafPage) m.leafSlot (ofBytes r) r.length =
      .ok (none, s.page m.leafPage))
    (halloc : Ends (disk allocatePage) s f s₁)
    (hread₁ : Ends (disk (readPage m.leafPage)) s₁ (s.page m.leafPage) s₁)
    (hdead : ∀ i, (record (s.page m.leafPage) i).2 = 0) :
    Throws (insert t (View.ofBytes r) r.length) s .diverges s₁ := by
  have hsplit : Throws (splitLeaf t m.leafPage) s .diverges s₁ := by
    unfold splitLeaf Throws
    rw [bind_ok halloc, bind_ok hread₁]
    apply bind_error
    rw [walkPivot_never hdead]
    rfl
  have hchild : Throws (splitChild t m.btStack (recordKey t r)) s .diverges s₁ := by
    unfold splitChild Throws
    rw [bind_ok hrun]
    exact bind_error hsplit
  unfold insert Throws
  refine (bind_ok (show Ends (findRecord t (extractKey t (some (View.ofBytes r)) r.length)) s m s
    from hrun)).trans ((bind_ok hread).trans ((bind_ok (ends_buf hfull)).trans ?_))
  exact bind_error hchild

/-- A record of a page's length, inserted into a new tree. -/
theorem pivotAt_fails : ∃ s m r, Start s ∧ r.length = 4096 ∧
    Ends (findRecord {} (recordKey {} r)) s m s ∧
    insertRecordAt (s.page m.leafPage) m.leafSlot (ofBytes r) r.length =
      .ok (none, s.page m.leafPage) ∧
    (¬ ∃ pivot, PivotAt (s.page m.leafPage) pivot) ∧
    ∃ s', Throws (insert {} (View.ofBytes r) r.length) s .diverges s' := by
  have hlen : (List.replicate 4096 (0 : UInt8)).length = 4096 := List.length_replicate
  generalize List.replicate 4096 (0 : UInt8) = r at hlen
  obtain ⟨s, hs⟩ := start_exists
  have hg := hs.good (t := {})
  obtain ⟨m, e, hm⟩ := hs.search (r := r) (by omega)
  have hleaf := hs.leaf hm
  have hdead : ∀ i, (record (s.page m.leafPage) i).2 = 0 := by
    intro i
    rw [record_dead hleaf.valid (hleaf.not_live (by rw [hm]; exact hs.page.2.2.2.1) i)]
  have hfull : insertRecordAt (s.page m.leafPage) m.leafSlot (ofBytes r) r.length =
      .ok (none, s.page m.leafPage) := by
    have hfree := hleaf.valid.totalFree_le
    exact insertRecordAt_none (by omega) (.inr (.inr (by omega)))
  refine ⟨s, m, r, hs, hlen, e, hfull, ?_, ?_⟩
  · intro h'
    rcases h' with ⟨p, hp⟩
    exact hp.live (hdead p)
  · have hone : Tree.one.store 1 = some (.leaf [] INVALID_PAGE_ID INVALID_PAGE_ID) := by simp [Tree.one]
    obtain ⟨s₁, halloc, hholds, hwrote⟩ := hg.holds.alloc (by decide)
    have hsame : s₁.page m.leafPage = s.page m.leafPage := by
      rw [hm]
      exact hwrote.pages 1 (by simp [hone]) (by simp)
    refine ⟨s₁, insert_diverges e ?_ hfull halloc ?_ hdead⟩
    · rw [hm]
      exact hg.holds.read hone
    · rw [← hsame, hm]
      exact hholds.read (n := .leaf [] INVALID_PAGE_ID INVALID_PAGE_ID) (by simp [Tree.one, Tree.alloc])

end DbInternals.Index
