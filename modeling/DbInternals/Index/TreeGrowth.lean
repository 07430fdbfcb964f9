import DbInternals.Core.Bins
import DbInternals.Index.TreeBalance

/-!
# How the file grows

With records of one size a leaf is a bin: an insert puts a record in, or finds the leaf full and
halves it. A removal takes one out, and pages are never given back.

Results:
* `insert_bins`, `remove_load`: what the calls do to the leaves;
* `file_growth`: the leaves, internal pages and levels of a file against the inserts that made it;
* `leaves_half_full`: without removals each leaf is at least half full.
-/
namespace DbInternals.Index

open Storage SlottedPage Levels Bins

/-- How many records of a size fit in a leaf. -/
def leafRecords (size : Nat) : Nat := PAGE_ROOM / (size + 4)

/-- The records of a leaf. -/
def Tree.load (T : Tree) (p : Nat) : Nat :=
  match T.store p with
  | some (.leaf es _ _) => es.countP Entry.isLive
  | _ => 0

/-- What an insert does to the leaves. -/
inductive LeafStep (cap : Nat) (T T' : Tree) : Prop
  | filled (p : Nat) (hp : T.IsLeaf p) (hleaf : ∀ q, T'.IsLeaf q ↔ T.IsLeaf q)
    (hload : T'.load p = T.load p + 1) (hrest : ∀ q, q ≠ p → T'.load q = T.load q)
  | halved (p f : Nat) (hp : T.IsLeaf p) (hf : ¬ T.IsLeaf f)
    (hleaf : ∀ q, T'.IsLeaf q ↔ q = f ∨ T.IsLeaf q) (hfull : T.load p = cap)
    (hlower : T'.load p = cap / 2) (hupper : T'.load f = cap - cap / 2)
    (hrest : ∀ q, T.IsLeaf q → q ≠ p → T'.load q = T.load q)

section
variable {w size p q : Nat} {T T' : Tree} {es : List Entry} {rank : Nat → Nat}

theorem Tree.load_leaf {l r : Nat} (hp : T.store p = some (.leaf es l r)) :
    T.load p = es.countP Entry.isLive := by rw [load, hp]

theorem Tree.isLeaf_of_load (h : T.load p ≠ 0) : T.IsLeaf p := by
  unfold load at h
  split at h
  · next es l r hp => exact ⟨es, l, r, hp⟩
  · exact absurd rfl h

theorem two_le_leafRecords (h2 : 2 * (size + 4) ≤ PAGE_ROOM) : 2 ≤ leafRecords size :=
  (Nat.le_div_iff_mul_le (by omega)).mpr h2

/-! ## A leaf -/

theorem countP_liveEntries (es : List Entry) :
    (liveEntries es).countP Entry.isLive = es.countP Entry.isLive := by
  rw [liveEntries, List.countP_filter]
  simp

/-- A full leaf holds as many records as fit, and no deleted ones. -/
theorem full_leaf (h : ∀ e ∈ es, e.size = size) (hcost : cost es ≤ PAGE_ROOM)
    (hfull : ¬ leafRoom es size = true) :
    (∀ e ∈ es, e.isLive = true) ∧ es.length = leafRecords size := by
  have hlive : cost (liveEntries es) = (liveEntries es).length * (size + 4) :=
    cost_sized fun e he => h e (List.mem_of_mem_filter he)
  have hle : (liveEntries es).length ≤ es.length := List.length_filter_le Entry.isLive es
  rw [cost_sized h] at hcost
  simp only [leafRoom, decide_eq_true_eq, hlive, Nat.not_le] at hfull
  have hcap : es.length ≤ leafRecords size := (Nat.le_div_iff_mul_le (by omega)).mpr hcost
  have hcap' : leafRecords size < (liveEntries es).length + 1 := by
    refine (Nat.div_lt_iff_lt_mul (by omega)).mpr ?_
    rw [Nat.succ_mul]
    omega
  exact ⟨List.length_filter_eq_length_iff.mp (show (liveEntries es).length = _ by omega), by omega⟩

/-- Where all slots are live, the leaf is split in the middle. -/
theorem pivotOf_all (h : ∀ e ∈ es, e.isLive = true) (hne : es ≠ []) :
    Tree.pivotOf es = es.length / 2 := by
  have hlt : es.length / 2 < es.length := by
    have := List.length_pos_iff.mpr hne
    omega
  rw [Tree.pivotOf, List.drop_eq_getElem_cons hlt, List.findIdx_cons, h _ (List.getElem_mem hlt)]
  rfl

theorem countP_part {part : List Entry} (h : ∀ e ∈ es, e.isLive = true) (hs : part ⊆ es) :
    (liveEntries part).countP Entry.isLive = part.length := by
  rw [countP_liveEntries]
  exact List.countP_eq_length.mpr fun e he => h e (hs he)

theorem countP_leafInsert {i : Nat} (hi : i ≤ es.length) (b : Bytes) :
    (leafInsert es i b).countP Entry.isLive = es.countP Entry.isLive + 1 := by
  unfold leafInsert
  split
  · exact ((List.perm_insertIdx (.live b) es hi).countP_eq _).trans (List.countP_cons_of_pos (p := Entry.isLive) rfl)
  · rw [← countP_liveEntries es]
    exact ((List.perm_insertIdx (.live b) _ (liveBefore_le es i)).countP_eq _).trans
      (List.countP_cons_of_pos (p := Entry.isLive) rfl)

theorem countP_dead (i n : Nat) : (es.set i (.dead n)).countP Entry.isLive ≤ es.countP Entry.isLive := by
  by_cases hi : i < es.length
  · rw [List.countP_set hi]
    simp
  · rw [List.set_eq_of_length_le (Nat.not_lt.mp hi)]

/-! ## The calls -/

/-- A leaf is written in the place of another. -/
theorem setLeaf_isLeaf {es' : List Entry} {l r l' r' : Nat} (hp : T.store p = some (.leaf es l r)) :
    (T.setNode p (.leaf es' l' r')).IsLeaf q ↔ T.IsLeaf q := by
  by_cases hqp : q = p
  · subst hqp
    exact iff_of_true ⟨_, _, _, Tree.setNode_self ..⟩ ⟨_, _, _, hp⟩
  · rw [Tree.IsLeaf, Tree.IsLeaf, Tree.setNode_of_ne T _ hqp]

theorem load_congr (h : T.store q = T'.store q) : T.load q = T'.load q := by
  rw [Tree.load, Tree.load, h]

theorem splitChild_bins {left right : Nat} {stack : List Nat} (hi : T.Ids)
    (hp : T.store p = some (.leaf es left right)) (hall : ∀ e ∈ es, e.isLive = true)
    (h2 : 2 ≤ es.length) : LeafStep es.length T (T.splitChild w p es left right stack) := by
  have hpn : T.store p ≠ none := by simp [hp]
  have hpiv := pivotOf_all hall (List.length_pos_iff.mp (by omega))
  obtain ⟨⟨l₁, h₁⟩, ⟨l₂, h₂⟩, h₃⟩ := Tree.splitLeaf_of_leaf (w := w) hi hp
  have hwire : ∀ {q es' l r}, (T.splitLeaf w p es left right).2.2.store q = some (.leaf es' l r) →
      (T.splitChild w p es left right stack).store q = some (.leaf es' l r) :=
    fun h => (splitChild_leaf hi hpn).mpr h
  have h₁' := hwire h₁
  have h₂' := hwire h₂
  have hf : ¬ T.IsLeaf T.alloc.1 := by
    rintro ⟨es', l, r, hq⟩
    rw [hi.alloc.2.2] at hq
    cases hq
  refine .halved p T.alloc.1 ⟨es, left, right, hp⟩ hf (fun q => ?_) ?_ ?_ ?_ fun q hq hqp => ?_
  · constructor
    · rintro ⟨es', l, r, hq⟩
      rcases Tree.splitLeaf_leaf hi hpn ((splitChild_leaf hi hpn).mp hq) with ⟨rfl, -⟩ | ⟨rfl, -⟩ |
        ⟨-, -, l', hq'⟩
      · exact .inr ⟨es, left, right, hp⟩
      · exact .inl rfl
      · exact .inr ⟨es', l', r, hq'⟩
    · rintro (rfl | ⟨es', l, r, hq⟩)
      · exact ⟨_, _, _, h₂'⟩
      · by_cases hqp : q = p
        · subst hqp
          exact ⟨_, _, _, h₁'⟩
        · obtain ⟨l', hq'⟩ := h₃ q es' l r hqp hq
          exact ⟨_, _, _, (splitChild_leaf hi hpn).mpr hq'⟩
  · rw [Tree.load_leaf hp]
    exact List.countP_eq_length.mpr hall
  · rw [Tree.load_leaf h₁', countP_part hall (List.take_subset ..), hpiv, List.length_take]
    omega
  · rw [Tree.load_leaf h₂', countP_part hall (List.drop_subset ..), hpiv, List.length_drop]
  · obtain ⟨es', l, r, hq⟩ := hq
    obtain ⟨l', hq'⟩ := h₃ q es' l r hqp hq
    rw [Tree.load_leaf hq, Tree.load_leaf ((splitChild_leaf hi hpn).mpr hq')]

/-- An insert puts its record into a leaf, or halves the full leaf. -/
theorem insert_bins {r : Bytes} (hs : Shape w rank T) (hi : T.Ids) (hsz : Sized size T)
    (h2 : 2 * (size + 4) ≤ PAGE_ROOM)
    (hcost : ∀ p es l r, T.store p = some (.leaf es l r) → cost es ≤ PAGE_ROOM)
    (hr : r.length = size) : LeafStep (leafRecords size) T (T.insert w r) := by
  obtain ⟨p, stack, hf, -, es, left, right, hp⟩ := find_route hs hi (keyOf w r)
  unfold Tree.insert
  simp only [hf, hp]
  split
  · refine .filled p ⟨es, left, right, hp⟩ (fun q => setLeaf_isLeaf hp) ?_ fun q hqp => ?_
    · rw [Tree.load_leaf (Tree.setNode_self ..), Tree.load_leaf hp]
      exact countP_leafInsert lowerSlot_le r
    · exact load_congr (Tree.setNode_of_ne T _ hqp)
  · next hfull =>
    rw [hr] at hfull
    obtain ⟨hall, hlen⟩ := full_leaf (hsz p es left right hp) (hcost p es left right hp) hfull
    have := two_le_leafRecords h2
    exact hlen ▸ splitChild_bins hi hp hall (by omega)

/-- A removal takes at most one record out of a leaf. -/
theorem remove_load (T : Tree) (x : Int) : (∀ q, (T.remove w x).IsLeaf q ↔ T.IsLeaf q) ∧
    ∀ q, (T.remove w x).load q ≤ T.load q := by
  obtain e | ⟨p, es, left, right, i, b, hp, -, e⟩ := T.remove_cases w x
  · rw [e]
    exact ⟨fun _ => .rfl, fun _ => Nat.le_refl _⟩
  · rw [e]
    refine ⟨fun q => setLeaf_isLeaf hp, fun q => ?_⟩
    by_cases hqp : q = p
    · rw [hqp, Tree.load_leaf (Tree.setNode_self ..), Tree.load_leaf hp]
      exact countP_dead ..
    · exact Nat.le_of_eq (load_congr (Tree.setNode_of_ne T _ hqp))

theorem LeafStep.paid {cap n : Nat} {bins : Finset Nat} (h : LeafStep cap T T')
    (hmem : ∀ p, p ∈ bins ↔ T.IsLeaf p) (hpaid : Paid cap bins T.load n) :
    ∃ bins', (∀ p, p ∈ bins' ↔ T'.IsLeaf p) ∧ Paid cap bins' T'.load (n + 1) ∧
      (HalfFull cap bins T.load → HalfFull cap bins' T'.load) := by
  cases h with
  | filled p hp hleaf hload hrest =>
    refine ⟨bins, fun q => (hmem q).trans (hleaf q).symm,
      hpaid.put ((hmem p).mpr hp) (Nat.le_of_eq hload) fun q _ hqp => hrest q hqp,
      fun hhalf => hhalf.grow fun q _ => ?_⟩
    by_cases hqp : q = p
    · rw [hqp, hload]
      exact Nat.le_succ _
    · exact Nat.le_of_eq (hrest q hqp).symm
  | halved p f hp hf hleaf hfull hlower hupper hrest =>
    have hrest' : ∀ q ∈ bins, q ≠ p → T'.load q = T.load q := fun q hq => hrest q ((hmem q).mp hq)
    refine ⟨Insert.insert f bins, fun q => ?_, ?_, fun hhalf => ?_⟩
    · rw [Finset.mem_insert, hmem, hleaf]
    · exact hpaid.halve ((hmem p).mpr hp) (fun hm => hf ((hmem f).mp hm)) hfull (by omega) (by omega)
        hrest'
    · exact hhalf.halve (q := f) ((hmem p).mpr hp) (by omega) (by omega) hrest'

end

/-! ## Runs -/

/-- How many of the calls are inserts. -/
def insertions (calls : List Call) : Nat :=
  calls.countP fun c => match c with
    | .insert _ => true
    | .remove _ => false

def innerPages (s : TreeState) : Finset Nat :=
  (Finset.Ico 1 (nextId s)).filter fun p => getPageType (s.page p) ≠ .leafPage

section
variable {t : TreeConfig} {s : TreeState} {T : Tree} {p size : Nat} {calls : List Call}

theorem exec_bins (ht : t.Numeric) (h2 : 2 * (size + 4) ≤ PAGE_ROOM)
    (h : (treeRuns t (OfSize size)).Exec calls s) :
    ∃ bins, (∀ p, p ∈ bins ↔ (treeOf t.keyWidth calls).IsLeaf p) ∧
      Paid (leafRecords size) bins (treeOf t.keyWidth calls).load (insertions calls) ∧
      ((∀ k, .remove k ∉ calls) → HalfFull (leafRecords size) bins (treeOf t.keyWidth calls).load) := by
  induction h with
  | nil h0 =>
    have h1 : Tree.one.store 1 = some (.leaf [] INVALID_PAGE_ID INVALID_PAGE_ID) := by simp [Tree.one]
    refine ⟨{1}, fun p => ?_, paid_one 1 (Tree.load_leaf h1), fun _ => halfFull_one 1⟩
    rw [Finset.mem_singleton]
    constructor
    · intro e
      exact e ▸ ⟨_, _, _, h1⟩
    · rintro ⟨es, l, r, hp⟩
      exact (one_store hp).1
  | @snoc calls s s' c h hstep ih =>
    obtain ⟨bins, hmem, hpaid, hhalf⟩ := ih
    obtain ⟨hg, hsz, -⟩ := exec_sized ht h2 (fun _ _ h => h) h
    obtain ⟨rank, hs⟩ := hg.shape
    rw [treeOf_snoc, insertions, List.countP_append]
    cases c with
    | insert r =>
      obtain ⟨bins', hmem', hpaid', hhalf'⟩ := (insert_bins hs hg.holds.ids hsz h2
        (fun p es l r hp => by
          obtain ⟨hv, -, -, he, -⟩ := hg.holds.nodeAt hp
          exact he ▸ cost_room hv) (hstep.2.1 r rfl)).paid hmem hpaid
      refine ⟨bins', hmem', hpaid', fun hn => hhalf' (hhalf fun k hk => ?_)⟩
      exact hn k (List.mem_append_left _ hk)
    | remove k =>
      obtain ⟨hleaf, hload⟩ := remove_load (w := t.keyWidth) (treeOf t.keyWidth calls) (keyOf t.keyWidth k)
      refine ⟨bins, fun q => (hmem q).trans (hleaf q).symm, hpaid.keep fun q _ => hload q, fun hn => ?_⟩
      exact absurd (List.mem_append_right _ List.mem_cons_self) (hn k)

/-- The leaves of the tree are the leaf pages of the file. -/
theorem Good.mem_leafPages (h : Good t s T) : p ∈ leafPages s ↔ T.IsLeaf p := by
  rw [leafPages, Finset.mem_filter, Finset.mem_Ico]
  constructor
  · rintro ⟨hr, htype⟩
    exact (h.isLeaf_iff hr.1 hr.2).mpr htype
  · intro hp
    obtain ⟨es, l, r, hn⟩ := hp
    have hu := h.holds.inUse (show T.store p ≠ none by simp [hn])
    have hlt : p < nextId s := by rw [h.holds.next]; exact hu.2.1
    exact ⟨⟨hu.1, hlt⟩, (h.isLeaf_iff hu.1 hlt).mp ⟨es, l, r, hn⟩⟩

theorem Good.load_eq (h : Good t s T) (hp : T.IsLeaf p) :
    T.load p = Multiset.card (liveRecords (s.page p)) := by
  obtain ⟨es, l, r, hn⟩ := hp
  obtain ⟨hv, -, -, he, -⟩ := h.holds.nodeAt hn
  rw [Tree.load_leaf hn, liveRecords_eq hv, he, recordSet, Multiset.coe_card, ← liveRecordsOf,
    ← List.length_map (f := Entry.live), map_liveRecordsOf, liveEntries, List.countP_eq_length_filter]

/-- A page is a leaf or an internal page. -/
theorem card_pages (s : TreeState) : (leafPages s).card + (innerPages s).card = nextId s - 1 := by
  rw [leafPages, innerPages, Finset.card_filter_add_card_filter_not, Nat.card_Ico]

/-- The internal pages are few against the leaves. -/
theorem Balanced.innerPages_le {nodes : Finset Nat} {level : Nat → Nat} (ht : t.Numeric)
    (hg : Good t s T) (hb : Balanced t.keyWidth nodes level 0 T) (hne : (innerPages s).Nonempty) :
    ((innerPages s).card - 1) * (halfPairs t.keyWidth - 1) + 2 ≤ (leafPages s).card := by
  have hl := hb.levelled
  have hinner : innerPages s = nodes.filter fun p => T.children p ≠ 0 := by
    ext p
    rw [innerPages, Finset.mem_filter, Finset.mem_filter, Finset.mem_Ico, ← hg.mem_nodes hb]
    refine and_congr_right fun hp => ?_
    have hr := (hg.mem_nodes hb).mp hp
    rw [← not_iff_not, not_not, not_not, ← hg.isLeaf_iff hr.1 hr.2]
    constructor
    · rintro ⟨es, l, r, hn⟩
      exact Tree.children_leaf hn
    · exact fun hk => (hb.isLeaf_iff hp).mpr (hl.bottom p hp hk)
  obtain ⟨p, hp⟩ := hne
  rw [hinner, Finset.mem_filter] at hp
  -- above a page with children there is a root with children
  have hroot : T.children T.root ≠ 0 := by
    intro hk
    obtain ⟨stack, hpath⟩ := hl.exists_path hp.1
    have hlen := hl.path_length hpath
    rw [hl.bottom _ hl.root_mem hk] at hlen
    obtain ⟨c, hc⟩ := Multiset.exists_mem_of_ne_zero hp.2
    have := hl.down p hp.1 c hc
    omega
  have hle := hl.inner_le hroot (hb.card_children hroot).1 fun q _ hq hk => (hb.card_children hk).2 hq
  have hnodes : nodes.card = (leafPages s).card + (innerPages s).card := by
    rw [card_pages, ← Nat.card_Ico]
    congr 1
    ext q
    rw [hg.mem_nodes hb, Finset.mem_Ico]
  have hpos : 0 < (innerPages s).card := by
    rw [hinner]
    exact Finset.card_pos.mpr ⟨p, Finset.mem_filter.mpr hp⟩
  have h101 := le_halfPairs ht.width_le.2
  have hmul := Nat.le_mul_of_pos_right ((innerPages s).card - 1)
    (show 0 < halfPairs t.keyWidth by omega)
  rw [← hinner, hnodes] at hle
  rw [Nat.mul_sub, Nat.mul_one]
  omega

theorem exec_leaves (ht : t.Numeric) (h2 : 2 * (size + 4) ≤ PAGE_ROOM)
    (h : (treeRuns t (OfSize size)).Exec calls s) :
    Paid (leafRecords size) (leafPages s) (treeOf t.keyWidth calls).load (insertions calls) ∧
      ((∀ k, .remove k ∉ calls) →
        HalfFull (leafRecords size) (leafPages s) (treeOf t.keyWidth calls).load) := by
  obtain ⟨bins, hmem, hpaid, hhalf⟩ := exec_bins ht h2 h
  have hg := (exec_sized ht h2 (fun _ _ h => h) h).1
  have hbins : bins = leafPages s := by
    ext p
    rw [hmem, hg.mem_leafPages]
  exact hbins ▸ ⟨hpaid, hhalf⟩

/-- A leaf more costs half a leaf of inserts and the one that is dropped, whatever was removed since;
with the levels above that bounds the file and the height by the inserts. -/
theorem file_growth (ht : t.Numeric) (h2 : 2 * (size + 4) ≤ PAGE_ROOM)
    (h : (treeRuns t (OfSize size)).Exec calls s) :
    ((leafPages s).card - 1) * (leafRecords size / 2 + 1) ≤ insertions calls ∧
      ((innerPages s).Nonempty →
        ((innerPages s).card - 1) * (halfPairs t.keyWidth - 1) + 2 ≤ (leafPages s).card) ∧
      (leafPages s).card + (innerPages s).card = nextId s - 1 ∧
      ∀ d q stack, Above s q stack → stack.length = d + 1 →
        (2 * halfPairs t.keyWidth ^ d - 1) * (leafRecords size / 2 + 1) ≤ insertions calls := by
  have hle := (exec_leaves ht h2 h).1.bins_le
  have hruns := treeRuns_mono (fun _ _ h => h.1) (exec_halves ht h2 (fun _ _ h => h) h)
  have hg := exec_good ht (fun _ _ h => h) hruns
  obtain ⟨nodes, level, hb⟩ := exec_balanced ht hruns
  refine ⟨hle, hb.innerPages_le ht hg, card_pages s, fun d q stack ha hd => le_trans ?_ hle⟩
  have hpath := hg.above_iff.mp ha
  have hlen := hb.levelled.path_length hpath
  obtain ⟨e, he⟩ : ∃ e, level (treeOf t.keyWidth calls).root = d + e + 1 :=
    ⟨level q, by omega⟩
  have hleaves := hb.le_leafPages hg he
  have hpow : halfPairs t.keyWidth ^ d ≤ halfPairs t.keyWidth ^ (d + e) :=
    Nat.pow_le_pow_right (by have := le_halfPairs ht.width_le.2; omega) (Nat.le_add_right ..)
  exact Nat.mul_le_mul_right _ (by omega)

/-- While nothing is removed, each leaf of several is at least half full. -/
theorem leaves_half_full (ht : t.Numeric) (h2 : 2 * (size + 4) ≤ PAGE_ROOM)
    (h : (treeRuns t (OfSize size)).Exec calls s) (hn : ∀ k, .remove k ∉ calls)
    (hl : 2 ≤ (leafPages s).card) :
    (∀ p ∈ leafPages s, leafRecords size / 2 ≤ Multiset.card (liveRecords (s.page p))) ∧
      (leafPages s).card * (leafRecords size / 2) ≤
        ∑ p ∈ leafPages s, Multiset.card (liveRecords (s.page p)) := by
  have hhalf := (exec_leaves ht h2 h).2 hn
  have hg := (exec_sized ht h2 (fun _ _ h => h) h).1
  have hload : ∀ p ∈ leafPages s, (treeOf t.keyWidth calls).load p =
      Multiset.card (liveRecords (s.page p)) := fun p hp => hg.load_eq (hg.mem_leafPages.mp hp)
  refine ⟨fun p hp => hload p hp ▸ hhalf hl p hp, ?_⟩
  rw [← Finset.sum_congr rfl hload]
  exact hhalf.card_le hl

end

theorem file_growth_three : ∃ s, (treeRuns {} (OfSize 2000)).Exec (bigInserts [20, 30, 25]) s ∧
    ((leafPages s).card - 1) * (leafRecords 2000 / 2 + 1) ≤ 3 ∧
      ((innerPages s).Nonempty → ((innerPages s).card - 1) * (halfPairs 8 - 1) + 2 ≤ (leafPages s).card) ∧
      (leafPages s).card + (innerPages s).card = nextId s - 1 ∧
      ∀ d q stack, Above s q stack → stack.length = d + 1 →
        (2 * halfPairs 8 ^ d - 1) * (leafRecords 2000 / 2 + 1) ≤ 3 := by
  obtain ⟨s, hs⟩ := exec_inserts [20, 30, 25] (by decide)
  exact ⟨s, hs, file_growth numeric_default (by decide) hs⟩

/-- The third record split the leaf, and is gone. -/
theorem card_leafPages_three {s : TreeState}
    (h : (treeRuns {} (OfSize 2000)).Exec (bigInserts [20, 30, 25]) s) : 2 ≤ (leafPages s).card := by
  have hg := (exec_sized numeric_default (by decide) (fun _ _ h => h) h).1
  have hload : ∀ p ∈ [1, 2], (treeOf 8 (bigInserts [20, 30, 25])).load p = 1 := by decide +kernel
  have hleaf : ∀ p ∈ [1, 2], p ∈ leafPages s := fun p hp =>
    hg.mem_leafPages.mpr (Tree.isLeaf_of_load (by rw [hload p hp]; decide))
  exact Finset.one_lt_card.mpr ⟨1, hleaf 1 (by simp), 2, hleaf 2 (by simp), by decide⟩

theorem leaves_half_full_three : ∃ s, (treeRuns {} (OfSize 2000)).Exec (bigInserts [20, 30, 25]) s ∧
    (∀ p ∈ leafPages s, leafRecords 2000 / 2 ≤ Multiset.card (liveRecords (s.page p))) ∧
      (leafPages s).card * (leafRecords 2000 / 2) ≤
        ∑ p ∈ leafPages s, Multiset.card (liveRecords (s.page p)) := by
  obtain ⟨s, hs⟩ := exec_inserts [20, 30, 25] (by decide)
  exact ⟨s, hs, leaves_half_full numeric_default (by decide) hs (by simp [bigInserts])
    (card_leafPages_three hs)⟩

end DbInternals.Index
