import DbInternals.Core.Routing
import DbInternals.Index.Comparisons
import DbInternals.Index.KeyOrder
import DbInternals.Index.TreeStore

/-!
# Searches by any order of keys

Pages as the tree reads them, whatever the type of the key column: `reads` says what a key
holds, and `Key.Cuts` what comparisons with the target say of it. The searches of a page and
the descent depend on nothing else.

Results:
* `childSlot_part`: the search of an internal page takes the pair that routes the target;
* `leafSlot_cut`: the search of a leaf ends at the lower bound of the live slots;
* `descendWith_routed`, `findRecord_routed`: the descent takes the path of the target.
-/
namespace DbInternals.Index

open Storage SlottedPage Routing

/-- The separators of the page decode as given, and the slots behind them hold the children. -/
structure ReadsKids {κ : Type} (t : TreeConfig) (reads : Key → κ → Prop) (data : Mem)
    (ks : List (κ × Nat)) : Prop where
  type : getPageType data = .internalPage
  count : getSlotCount data / 2 = ks.length
  kid : ∀ i k c, ks[i]? = some (k, c) →
    reads (keyAt t data (2 * i)) k ∧ childPageId data (2 * i + 1) = .ok c

/-- The slots of the page have the given keys and records; a dead one has neither. -/
structure ReadsSlots {κ : Type} (t : TreeConfig) (reads : Key → κ → Prop) (data : Mem)
    (slots : List (Option (κ × Bytes))) : Prop where
  type : getPageType data = .leafPage
  count : getSlotCount data = slots.length
  dead : ∀ i, slots[i]? = some none → (record data i).2 = 0
  live : ∀ i x b, slots[i]? = some (some (x, b)) → b ≠ [] ∧
    (∃ v, record data i = (some v, b.length) ∧ v.Sees b) ∧ reads (keyAt t data i) x

/-- The pages of a search tree: they can be read, and the internal ones read as `kids` says. -/
structure TreePages {κ : Type} (t : TreeConfig) (reads : Key → κ → Prop) (s : TreeState)
    (kids : Nat → Option (List (κ × Nat))) (leaf : Nat → Set κ → Prop) : Prop where
  io : s.diskManager.io = none
  inner : ∀ p ks, kids p = some ks → Mapped s.diskManager p ∧ ReadsKids t reads (s.page p) ks
  leaf : ∀ p S, leaf p S → Mapped s.diskManager p ∧ getPageType (s.page p) = .leafPage

/-- Each breadcrumb is the page reached so far, and its slot holds the id of the next one. -/
def LeadsTo (s : TreeState) : Nat → List Breadcrumb → Nat → Prop
  | p, [], leaf => p = leaf
  | p, c :: cs, leaf => c.pageId = p ∧
    ∃ next, childPageId (s.page p) c.childSlot = .ok next ∧ LeadsTo s next cs leaf

/-- The breadcrumb for a pair of an internal page. -/
def crumb (c : Nat × Nat) : Breadcrumb := ⟨c.1, c.2 * 2 + 1⟩

section
variable {κ : Type} {t : TreeConfig} {reads : Key → κ → Prop} {data : Mem}
  {slots : List (Option (κ × Bytes))} {i : Nat} {x : κ} {b : Bytes}

/-- The slot has the live ones that satisfy `P` before it, and no others. -/
def Separates (slots : List (Option (κ × Bytes))) (P : κ → Prop) (i : Nat) : Prop :=
  ∀ (j : Nat) (x : κ) (b : Bytes), slots[j]? = some (some (x, b)) → (P x ↔ j < i)

/-- Whether the key of a slot satisfies `P`. -/
def slotTest (slots : List (Option (κ × Bytes))) (P : κ → Prop) [DecidablePred P] (i : Nat) : Bool :=
  (slots[i]?).join.any fun r => P r.1

theorem slotTest_iff {P : κ → Prop} [DecidablePred P] (hi : slots[i]? = some (some (x, b))) :
    slotTest slots P i = true ↔ P x := by
  simp [slotTest, hi]

/-- A slot is live as the loops test it. -/
def slotLive (data : Mem) (i : Nat) : Bool := (record data i).2 != 0

theorem ReadsSlots.slotLive (h : ReadsSlots t reads data slots) :
    slotLive data i = true ↔ ∃ x b, slots[i]? = some (some (x, b)) := by
  obtain ⟨-, hn, hdead, hlive⟩ := h
  rw [Index.slotLive, bne_iff_ne]
  cases hs : slots[i]? with
  | none =>
    have hle : getSlotCount data ≤ i := by
      rw [hn]
      exact List.getElem?_eq_none_iff.mp hs
    have hnone : getRecord data i = (none, 0) := by
      rw [getRecord, getSlot, if_pos (show i ≥ maxSlotId data from hle)]
    simp [record, hnone]
  | some o =>
    cases o with
    | none => simp [hdead i hs]
    | some r =>
      obtain ⟨y, c⟩ := r
      obtain ⟨hne, ⟨v, hv, -⟩, -⟩ := hlive i _ _ hs
      rw [hv]
      simp [hne]

end

section
variable {κ : Type} [LinearOrder κ] {t : TreeConfig} {reads : Key → κ → Prop} {s : TreeState}
  {kids : Nat → Option (List (κ × Nat))} {leaf : Nat → Set κ → Prop} {data : Mem}
  {slots : List (Option (κ × Bytes))} {ks : List (κ × Nat)} {p q c i slot : Nat} {S J : Set κ}
  {k x : κ} {path : List (Nat × Nat)} {target : Key} {below upTo : κ → Prop}

/-! ## Internal pages -/

/-- Whether the separator is at or below the target. -/
def kidTest (ks : List (κ × Nat)) (x : κ) (i : Nat) : Bool := (ks[i]?).any fun pr => pr.1 ≤ x

theorem kidTest_iff (hi : i < ks.length) : kidTest ks x i = true ↔ ks[i].1 ≤ x := by
  simp [kidTest, hi]

/-- The search picks the pair that takes the target. -/
theorem childSlot_part (hcut : target.Cuts reads below (· ≤ x)) (h : ReadsKids t reads data ks)
    (hlt : ks.Pairwise fun a b => a.1 < b.1) (hi : i < ks.length)
    (hpart : x ∈ part S ks i) : childSlot t data target = .ok (i * 2 + 1) := by
  obtain ⟨-, hn, hk⟩ := h
  have hrun : Search.bisectM
      (fun mid => do return decide ((← (keyAt t data (mid * 2)).compare target) ≤ 0))
      ks.length 0 ks.length = .ok (Search.bisect (kidTest ks x) ks.length 0 ks.length) := by
    apply Search.bisectM_eq ks.length 0 ks.length
    intro j _ hj
    obtain ⟨hr, -⟩ := hk j ks[j].1 ks[j].2 (List.getElem?_eq_getElem hj)
    rw [Nat.mul_comm] at hr
    obtain ⟨d, hd, -, hle⟩ := hcut.compare _ _ hr
    rw [hd]
    exact congrArg Except.ok (Bool.eq_iff_iff.mpr (by rw [decide_eq_true_eq, hle, kidTest_iff hj]))
  obtain ⟨hbelow, habove⟩ := Search.bisect_boundary (kidTest ks x) ks.length 0 ks.length (by omega)
    (Nat.zero_le _) fun a b _ hab hb ht => by
      rw [kidTest_iff hb] at ht
      rw [kidTest_iff (by omega)]
      exact le_of_lt (lt_of_lt_of_le (List.pairwise_iff_getElem.mp hlt a b (by omega) hb hab) ht)
  have hbound := (Search.bisect_le (kidTest ks x) ks.length 0 ks.length (Nat.zero_le _)).2
  rw [childSlot, hn]
  dsimp only
  rw [hrun]
  generalize Search.bisect (kidTest ks x) ks.length 0 ks.length = lo at hbelow habove hbound
  -- the search stops right behind the pair, or at the first one
  have hlo : lo ≤ i + 1 := by
    by_contra hc
    have hj : i + 1 < ks.length := by omega
    have ht := (kidTest_iff hj).mp (hbelow (i + 1) (Nat.zero_le _) (by omega))
    exact absurd (hpart.2.2 _ (List.getElem?_eq_getElem hj)) (not_lt.mpr ht)
  have hlo' : i ≠ 0 → i < lo := by
    intro h0
    by_contra hc
    have hf := habove i (by omega) hi
    rw [(kidTest_iff hi).mpr (hpart.2.1 h0 _ (List.getElem?_eq_getElem hi))] at hf
    cases hf
  change Except.ok _ = Except.ok _
  congr 3
  split <;> omega

/-! ## Leaves -/

/-- The keys of the live slots, in order. -/
def SlotsSorted (slots : List (Option (κ × Bytes))) : Prop :=
  ∀ (i j : Nat) (x y : κ) (b c : Bytes), i < j → slots[i]? = some (some (x, b)) →
    slots[j]? = some (some (y, c)) → x ≤ y

/-- The lower bound of the target, at a live slot if one holds a key that is not below it. -/
theorem leafSlot_cut (hcut : target.Cuts reads below upTo) (h : ReadsSlots t reads data slots)
    (hs : SlotsSorted slots) :
    ∃ slot, leafSlot t data target = .ok slot ∧ slot ≤ slots.length ∧ Separates slots below slot ∧
      ((∃ (i : Nat) (y : κ) (b : Bytes), slots[i]? = some (some (y, b)) ∧ ¬ below y) →
        ∃ (y : κ) (b : Bytes), slots[slot]? = some (some (y, b))) := by
  classical
  have hrun : Search.lowerSparseM (slotLive data)
      (fun probe => do return decide ((← (keyAt t data probe).compare target) < 0))
      slots.length 0 slots.length slots.length = .ok (Search.lowerSparse (slotLive data)
        (slotTest slots below) slots.length 0 slots.length slots.length) := by
    refine Search.lowerSparseM_eq (fun i hi => ?_) _ _ _ _
    obtain ⟨y, b, hy⟩ := h.slotLive.mp hi
    obtain ⟨d, hd, hlt, -⟩ := hcut.compare _ _ (h.live i y b hy).2.2
    rw [hd]
    exact congrArg Except.ok (Bool.eq_iff_iff.mpr (by rw [decide_eq_true_eq, hlt, slotTest_iff hy]))
  have hlen : ∀ i, slotLive data i = true → i < slots.length := fun i hi => by
    obtain ⟨y, b, hy⟩ := h.slotLive.mp hi
    exact (List.getElem?_eq_some_iff.mp hy).1
  obtain ⟨hbelow, habove, hlands⟩ := Search.lowerResult_spec (slotLive data) (slotTest slots below)
    (n := slots.length) hlen
    fun i j hij hi hj ht => by
      obtain ⟨y, b, hy⟩ := h.slotLive.mp hi
      obtain ⟨z, c, hz⟩ := h.slotLive.mp hj
      rw [slotTest_iff hz] at ht
      rw [slotTest_iff hy]
      exact hcut.below_down _ _ (hs i j y z b c hij hy hz) ht
  have hslot : leafSlot t data target = .ok (Search.lowerResult slots.length
      (Search.lowerSparse (slotLive data) (slotTest slots below) slots.length 0 slots.length
        slots.length)) := by
    rw [leafSlot, h.count]
    dsimp only
    rw [show (fun probe => (record data probe).2 != 0) = slotLive data from rfl, hrun]
    rfl
  refine ⟨_, hslot, Search.lowerResult_le hlen, fun i y b hy => ?_, fun hex => ?_⟩
  · have hl := h.slotLive.mpr ⟨y, b, hy⟩
    constructor
    · intro hlt
      by_contra hc
      have hf := habove i (Nat.not_lt.mp hc) hl
      rw [(slotTest_iff hy).mpr hlt] at hf
      cases hf
    · intro hi
      exact (slotTest_iff hy).mp (hbelow i hi hl)
  · obtain ⟨i, y, b, hy, hle⟩ := hex
    refine h.slotLive.mp (hlands ⟨i, h.slotLive.mpr ⟨y, b, hy⟩, ?_⟩)
    by_contra ht
    exact hle ((slotTest_iff hy).mp (by simpa using ht))

/-- The lower bound of the target. -/
theorem leafSlot_bounds (hcut : target.Cuts reads below upTo) (h : ReadsSlots t reads data slots)
    (hs : SlotsSorted slots) :
    ∃ slot, leafSlot t data target = .ok slot ∧ Separates slots below slot := by
  obtain ⟨slot, e, -, hsep, -⟩ := leafSlot_cut hcut h hs
  exact ⟨slot, e, hsep⟩

/-! ## The descent -/

/-- Every page of a tree can be read. -/
theorem TreePages.read (hs : TreePages t reads s kids leaf) (h : IsTree kids leaf p S) :
    Ends (disk (readPage p)) s (s.page p) s := by
  cases h with
  | leaf hp hl => exact ends_disk (readPage_ends hs.io (hs.leaf p S hl).1)
  | inner hp hne hlt hc => exact ends_disk (readPage_ends hs.io (hs.inner p _ hp).1)

/-- What the code does at an internal page. -/
theorem step_at (hcut : target.Cuts reads below (· ≤ x)) (hs : TreePages t reads s kids leaf)
    (htree : IsTree kids leaf p S) (hp : kids p = some ks) (hi : ks[i]? = some (k, c)) :
    getPageType (s.page p) ≠ .leafPage ∧
      childPageId (s.page p) (i * 2 + 1) = .ok c ∧
      (x ∈ part S ks i → childSlot t (s.page p) target = .ok (i * 2 + 1)) ∧
      IsTree kids leaf c (part S ks i) := by
  have hr := (hs.inner p ks hp).2
  cases htree with
  | leaf hp' hl => rw [hp'] at hp; cases hp
  | inner hp' hne hlt hc =>
    rw [hp'] at hp
    cases hp
    have hchild := (hr.kid i k c hi).2
    rw [Nat.mul_comm] at hchild
    exact ⟨by rw [hr.type]; simp, hchild,
      childSlot_part hcut hr hlt (List.getElem?_eq_some_iff.mp hi).1, hc i k c hi⟩

/-- The descent takes the path the target is led along, with any comparison that decides the
searches of the internal pages as `Key::Compare` does. -/
theorem descendWith_routed {cmp : Key → Key → Except Fault Int}
    (hcut : target.Cuts reads below (· ≤ x)) (hs : TreePages t reads s kids leaf)
    (hcmp : ∀ p ks, kids p = some ks →
      childSlotWith cmp t (s.page p) target = childSlot t (s.page p) target)
    (h : Below kids p S path q J) (htree : IsTree kids leaf p S) (hxJ : x ∈ J)
    (hq : getPageType (s.page q) = .leafPage) (fuel : Nat) (hf : path.length < fuel) (bt : BTStack) :
    Ends (descendWith cmp t target fuel p (s.page p) bt) s
      (q, s.page q, (path.map crumb).reverse ++ bt) s := by
  induction h generalizing fuel bt with
  | here p S =>
    obtain ⟨fuel, rfl⟩ : ∃ n, fuel = n + 1 := ⟨fuel - 1, by simp at hf; omega⟩
    unfold descendWith
    rw [if_pos hq]
    exact .pure _ _
  | @step p q c k S J ks i path hp hi h ih =>
    obtain ⟨fuel, rfl⟩ : ∃ n, fuel = n + 1 := ⟨fuel - 1, by simp at hf; omega⟩
    obtain ⟨htype, hchild, hslot, hc⟩ := step_at hcut hs htree hp hi
    have hrest := ih hc hxJ hq fuel (by simpa using hf) (crumb (p, i) :: bt)
    have hsame := (hcmp p ks hp).trans (hslot (h.subset hxJ))
    unfold descendWith
    rw [if_neg htype]
    refine (ends_buf hsame).bind ((ends_buf hchild).bind ((hs.read hc).bind ?_))
    simpa [crumb] using hrest

/-- The breadcrumbs lead from page to page. -/
theorem leadsTo_routed (hcut : target.Cuts reads below (· ≤ x)) (hs : TreePages t reads s kids leaf)
    (h : Below kids p S path q J) (htree : IsTree kids leaf p S) :
    LeadsTo s p (path.map crumb) q := by
  induction h with
  | here p S => rfl
  | @step p q c k S J ks i path hp hi h ih =>
    obtain ⟨-, hchild, -, hc⟩ := step_at hcut hs htree hp hi
    exact ⟨rfl, c, hchild, ih hc⟩

/-- Pages can be read below the next id, so no path is longer than that. -/
theorem length_routed (hs : TreePages t reads s kids leaf) (h : Below kids p S path q J)
    (htree : IsTree kids leaf p S) : path.length < nextId s + 1 := by
  have hmapped : ∀ r ∈ path.map Prod.fst, r < nextId s := by
    intro r hr
    induction h with
    | here p S => cases hr
    | @step p q c k S J ks i path hp hi h ih =>
      rcases List.mem_cons.mp hr with rfl | hr
      · exact (hs.inner _ ks hp).1.1
      · exact ih (htree.subtree (.step hp hi (.here c _))) hr
  have hsub : path.map Prod.fst ⊆ List.range (nextId s) := fun r hr => List.mem_range.mpr (hmapped r hr)
  have hlen := (List.nodup_append.mp (htree.nodup h)).1.length_le_of_subset hsub
  rw [List.length_map, List.length_range] at hlen
  exact Nat.lt_succ_of_le hlen

/-- The search ends at the leaf the target is led to. -/
theorem findRecordWith_routed {cmp : Key → Key → Except Fault Int}
    (hcut : target.Cuts reads below (· ≤ x)) (hs : TreePages t reads s kids leaf)
    (hcmp : ∀ p ks, kids p = some ks →
      childSlotWith cmp t (s.page p) target = childSlot t (s.page p) target)
    (htree : IsTree kids leaf s.rootPageId Set.univ)
    (h : Below kids s.rootPageId Set.univ path q J) (hxJ : x ∈ J)
    (hq : getPageType (s.page q) = .leafPage)
    (hslot : leafSlotWith cmp t (s.page q) target = .ok slot) :
    Ends (findRecordWith cmp t target) s ⟨q, slot, (path.map crumb).reverse⟩ s := by
  have hdescend := descendWith_routed hcut hs hcmp h htree hxJ hq (nextId s + 1)
    (length_routed hs h htree) []
  rw [List.append_nil] at hdescend
  unfold findRecordWith
  refine (Ends.get s).bind ((hs.read htree).bind ((Ends.get s).bind ?_))
  exact hdescend.bind ((ends_buf hslot).bind (.pure _ _))

theorem findRecord_routed (hcut : target.Cuts reads below (· ≤ x))
    (hs : TreePages t reads s kids leaf) (htree : IsTree kids leaf s.rootPageId Set.univ)
    (h : Below kids s.rootPageId Set.univ path q J) (hxJ : x ∈ J)
    (hq : getPageType (s.page q) = .leafPage) (hslot : leafSlot t (s.page q) target = .ok slot) :
    Ends (findRecord t target) s ⟨q, slot, (path.map crumb).reverse⟩ s := by
  rw [← findRecordWith_compare]
  exact findRecordWith_routed hcut hs (fun _ _ _ => rfl) htree h hxJ hq hslot

end

end DbInternals.Index
