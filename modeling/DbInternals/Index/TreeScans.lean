import DbInternals.Index.LeafRuns
import DbInternals.Index.MinKeys
import DbInternals.Index.RootSeparators
import DbInternals.Index.ScanExact
import DbInternals.Index.ScanRuns

/-!
# Scans of a tree

The keys that are led to a leaf lie between those led to its neighbours in the chain: a split
hands the upper part of them to the new page behind. So the chain of leaves is in key order in
every tree of a run, and a scan of it is exact.

Results:
* `splitChild_forwards`: where a split leads the keys of a leaf;
* `insert_inOrder`, `exec_inOrder`: the chain in key order, over a run;
* `Ordered.scan_yields`: what a scan of such a tree returns.
-/
namespace DbInternals.Index

open Storage SlottedPage

/-- The keys that are led to a page. -/
def ledTo (w : Nat) (T : Tree) (p : Nat) : Set Rank :=
  {v | ∃ x : Int, Goes False w T x p ∧ v = .integer x}

/-- The leaves, in the order of the keys that are led to them. -/
structure InOrder (w : Nat) (T : Tree) (ls : List Nat) : Prop where
  chain : Chain T ls
  apart : ls.Pairwise (KeysBelow (ledTo w T))

section
variable {w : Nat} {rank rank' : Nat → Nat} {T T' : Tree} {p q f left right : Nat} {es es' : List Entry}
  {a b stack : List Nat} {x y : Int} {sep : Bytes} {ls : List Nat} {r : Bytes}

/-- One leaf takes the key. -/
theorem Goes.leaf_unique (h : Goes False w T x p) (h' : Goes False w T x q) (hs : Shape w rank T)
    (hi : T.Ids) (hp : T.IsLeaf p) (hq : T.IsLeaf q) : p = q := by
  obtain ⟨stack, hr⟩ := h.route
  obtain ⟨stack', hr'⟩ := h'.route
  have he := (hr.find hs hi hp).symm.trans (hr'.find hs hi hq)
  cases he
  rfl

/-! ## A leaf split -/

/-- A split leads the keys of its leaf from the separator on to the new page. -/
theorem splitChild_forwards (hw : w ≤ 8) (hi : T.Ids) (hs : Shape w rank T) (hr : Routed False w T)
    (hp : T.store p = some (.leaf es left right)) (hh : Halves es) (hlt : LeafLt w es)
    (hpath : Path T p stack) (hnd : stack.Nodup)
    (hbelow : ∀ q ps pr, T.store q = some (.inner ps) → pr ∈ ps → pr.2 = p →
      keyOf w pr.1 < entryKey w es (Tree.pivotOf es)) :
    Forwards False w T (T.splitChild w p es left right stack) p (T.splitLeaf w p es left right).2.1
      T.alloc.1 := by
  have hlong := hs.long p es left right hp
  obtain ⟨T₀, l₁, l₂, he, hsplit, hrel⟩ := splitLeaf_halve (w := w) hi hp
  have hhalf := hlt.halving hh hlong (fun b rest hb => splitLeaf_sep (w := w) hi hp hb) left right l₁
    T.alloc.1 l₂ right
  have hforw := wire_forwards hw stack T₀ rank p T.alloc.1 _ _ _ _ hsplit (hrel.routed hr)
    (hrel.shape hs) hhalf (hrel.path hpath) hnd fun q ps pr hq hpr hep => by
      rw [pivotKey_eq hh hlong hi hp]
      exact hbelow q ps pr ((hrel.inner q ps).mp hq) hpr hep
  rw [← he] at hforw
  rintro x q ⟨es', l, r, hq⟩ hx
  obtain ⟨l', hq'⟩ := (hrel.leaf q es' r).mpr ⟨l, hq⟩
  exact hforw x q ⟨es', l', r, hq'⟩ (hx.congr hrel.root fun q qs hq => (hrel.inner q qs).mpr hq)

/-- The chain stays in order, the new page behind the one that was split. -/
theorem InOrder.split (h : InOrder w T (a ++ p :: b)) (hs : Shape w rank T) (hi : T.Ids)
    (hc : Chain T' (a ++ p :: f :: b)) (hs' : Shape w rank' T') (hi' : T'.Ids)
    (hf : Forwards False w T T' p sep f) : InOrder w T' (a ++ p :: f :: b) := by
  have hfresh : f ∉ a ++ p :: b := by
    have hnd := hc.nodup
    rw [List.append_cons, List.nodup_middle, ← List.append_cons] at hnd
    exact (List.nodup_cons.mp hnd).1
  -- what is led to a leaf now was led to the one it comes from
  have hback : ∀ x q, q ∈ a ++ p :: f :: b → Goes False w T' x q →
      ∃ q₀ ∈ a ++ p :: b, Goes False w T x q₀ ∧ q = halfOf w p sep f x q₀ := by
    intro x q hq hx
    obtain ⟨q₀, stack, -, hroute, hleaf⟩ := find_route hs hi x
    have hq₀ := (h.chain.cover q₀).mp hleaf
    refine ⟨q₀, hq₀, hroute.goes, ?_⟩
    have hmem : halfOf w p sep f x q₀ ∈ a ++ p :: f :: b := by
      unfold halfOf
      split
      · simp
      · simp only [List.mem_append, List.mem_cons] at hq₀ ⊢
        tauto
    exact hx.leaf_unique (hf x q₀ hleaf hroute.goes) hs' hi' ((hc.cover q).mpr hq)
      ((hc.cover _).mpr hmem)
  obtain ⟨hpf, hne⟩ := chain_ne h.chain.nodup hfresh
  have hsub : ∀ q ∈ a ++ p :: f :: b,
      ledTo w T' q ⊆ splitKeys (ledTo w T) p f (.integer (keyOf w sep)) q := by
    rintro q hq _ ⟨x, hx, rfl⟩
    obtain ⟨q₀, hq₀, hgo, rfl⟩ := hback x q hq hx
    unfold halfOf
    split
    · next hc =>
      obtain ⟨rfl, hle⟩ := hc
      rw [splitKeys_right]
      exact ⟨⟨x, hgo, rfl⟩, Rank.integer_le.mpr hle⟩
    · next hc =>
      by_cases hqp : q₀ = p
      · subst hqp
        rw [splitKeys_left hpf]
        exact ⟨⟨x, hgo, rfl⟩, Rank.integer_lt.mpr (Int.not_le.mp fun hle => hc ⟨rfl, hle⟩)⟩
      · have hqf : q₀ ≠ f := by
          rintro rfl
          exact hfresh hq₀
        rw [splitKeys_of_ne hqp hqf]
        exact ⟨x, hgo, rfl⟩
  have hpair := apart_split (x := .integer (keyOf w sep)) h.apart h.chain.nodup hfresh
  refine ⟨hc, hpair.imp_of_mem ?_⟩
  intro q q' hq hq' hlt u hu v hv
  exact hlt u (hsub q hq hu) v (hsub q' hq' hv)

/-! ## The calls -/

/-- Searches see internal pages only. -/
theorem InOrder.setLeaf (h : InOrder w T ls) (hp : T.store p = some (.leaf es left right)) :
    InOrder w (T.setNode p (.leaf es' left right)) ls := by
  refine ⟨h.chain.setLeaf hp, h.apart.imp fun {q q'} hlt => ?_⟩
  have hsub : ∀ q, ledTo w (T.setNode p (.leaf es' left right)) q ⊆ ledTo w T q := by
    rintro q _ ⟨x, hx, rfl⟩
    refine ⟨x, hx.congr rfl fun q qs hq => ?_, rfl⟩
    by_cases hqp : q = p
    · rw [hqp, Tree.setNode_self] at hq
      cases hq
    · rwa [Tree.setNode_of_ne T _ hqp] at hq
  exact fun u hu v hv => hlt u (hsub q hu) v (hsub q' hv)

theorem insert_inOrder (hw : w ≤ 8) (hs : Shape w rank T) (hi : T.Ids)
    (hinv : T.store INVALID_PAGE_ID = none) (hlt : LeavesLt w T) (hr : Routed False w T)
    (hlong : w ≤ r.length) (hi' : (T.insert w r).Ids) (hup : SplitsUp w T r) (h : InOrder w T ls) :
    ∃ ls', InOrder w (T.insert w r) ls' := by
  obtain ⟨rank', hs', -⟩ := insert_shape hw hs hi hlong
  obtain ⟨p, stack, hf, hroute, es, left, right, hp⟩ := find_route hs hi (keyOf w r)
  have hins : T.insert w r = if leafRoom es r.length = true then
      T.setNode p (.leaf (leafInsert es (lowerSlot w es (keyOf w r)) r) left right)
      else T.splitChild w p es left right stack := by
    unfold Tree.insert
    simp only [hf, hp]
  by_cases hroom : leafRoom es r.length = true
  · rw [hins, if_pos hroom]
    exact ⟨ls, h.setLeaf hp⟩
  · rw [hins, if_neg hroom] at hs' hi' ⊢
    obtain ⟨hh, hfirst⟩ := hup p stack es left right hf hp hroom
    have hltp := hlt p es left right hp
    obtain ⟨a, b, rfl⟩ := List.append_of_mem ((h.chain.cover p).mp ⟨_, _, _, hp⟩)
    have hforw := splitChild_forwards hw hi hs hr hp hh hltp hroute.path (hroute.nodup hs)
      fun q ps pr hq hpr he => hr.below_pivot hh hltp hp hq hpr he
        (.inr (hfirst q ps (hr.parent hroute.path hq hpr he) hq))
    exact ⟨_, h.split hs hi (splitChild_chain hi hinv h.chain hp) hs' hi' hforw⟩

theorem remove_inOrder (h : InOrder w T ls) (x : Int) : InOrder w (T.remove w x) ls := by
  obtain e | ⟨p, es, left, right, i, b, hp, -, e⟩ := T.remove_cases w x
  · rw [e]
    exact h
  · rw [e]
    exact h.setLeaf hp

theorem one_inOrder : InOrder w Tree.one [1] := ⟨one_chain, List.pairwise_singleton _ _⟩

end

section
variable {t : TreeConfig} {s : TreeState} {T : Tree} {p q : Nat} {x y : Int} {start end_ : Key}
  {ls : List Nat} {calls : List Call}

theorem exec_inOrder (ht : t.Numeric) {ok : TreeState → Call → Prop}
    (hok : ∀ s c, ok s c → KeepsOnce t s c ∧ SplitsAbove t s c) (h : (treeRuns t ok).Exec calls s) :
    ∃ ls, InOrder t.keyWidth (treeOf t.keyWidth calls) ls := by
  have hok' : ∀ s c, ok s c → KeepsOnce t s c := fun s c hc => (hok s c hc).1
  induction h with
  | nil h0 => exact ⟨_, one_inOrder⟩
  | @snoc calls s s' c h hstep ih =>
    have hg := exec_good ht (fun s c hc => (hok' s c hc).1) h
    have hg' := exec_good ht (fun s c hc => (hok' s c hc).1) (h.snoc hstep)
    obtain ⟨rank, hs⟩ := hg.shape
    obtain ⟨hfits, hokc, -, -⟩ := hstep
    obtain ⟨ls, hls⟩ := ih
    rw [treeOf_snoc] at hg' ⊢
    cases c with
    | insert r =>
      obtain ⟨⟨hh, -⟩, ha⟩ := hok s _ hokc
      exact insert_inOrder ht.width_le.2 hs hg.holds.ids hg.invalid (exec_once ht hok' h).1
        (exec_once_routed ht hok h) hfits.1 hg'.holds.ids (splitsUp ht hg hfits.1 hh ha) hls
    | remove k => exact ⟨ls, remove_inOrder hls _⟩

/-! ## A scan -/

/-- A file whose tree routes every key to its leaf, and whose leaves are in order. -/
structure Ordered (t : TreeConfig) (s : TreeState) (T : Tree) (ls : List Nat) : Prop where
  good : Good t s T
  lt : LeavesLt t.keyWidth T
  apart : LeavesApart t.keyWidth T
  routed : Routed False t.keyWidth T
  order : InOrder t.keyWidth T ls

/-- The slots of a leaf with the keys of their records. -/
def leafSlots (t : TreeConfig) (T : Tree) (p : Nat) : Option (List (Option (Rank × Bytes))) :=
  match T.store p with
  | some (.leaf es _ _) => some (keyedSlots t es)
  | _ => none

theorem exec_ordered (ht : t.Numeric) {ok : TreeState → Call → Prop}
    (hok : ∀ s c, ok s c → KeepsOnce t s c ∧ SplitsAbove t s c) (h : (treeRuns t ok).Exec calls s) :
    ∃ ls, Ordered t s (treeOf t.keyWidth calls) ls := by
  have hok' : ∀ s c, ok s c → KeepsOnce t s c := fun s c hc => (hok s c hc).1
  obtain ⟨ls, hls⟩ := exec_inOrder ht hok h
  obtain ⟨hlt, ha⟩ := exec_once ht hok' h
  exact ⟨ls, exec_good ht (fun s c hc => (hok' s c hc).1) h, hlt, ha, exec_once_routed ht hok h, hls⟩

theorem slotsOf_leaf {es : List Entry} {l r : Nat} (hp : T.store p = some (.leaf es l r)) :
    slotsOf (leafSlots t T) p = keyedSlots t es := by
  rw [slotsOf, leafSlots, hp, Option.getD_some]

/-- The chain on disk. -/
theorem Linked.rightChain {τ : Prop} (h : Holds t τ s T) (hinv : T.store INVALID_PAGE_ID = none) :
    ∀ {prev : Nat} {ls : List Nat}, Linked T prev ls → RightChain s ls
  | _, [], _ => trivial
  | _, [p], ⟨⟨es, hp⟩, _⟩ => (h.nodeAt hp).2.2.2.2.2
  | _, p :: q :: ls, ⟨⟨es, hp⟩, hl⟩ => by
    refine ⟨(h.nodeAt hp).2.2.2.2.2, ?_, hl.rightChain h hinv⟩
    rintro rfl
    obtain ⟨⟨es', hq⟩, -⟩ := hl
    rw [hinv] at hq
    cases hq

namespace Ordered

variable {es : List Entry} {left right : Nat} {b : Bytes}

theorem long (h : Ordered t s T ls) (hp : T.store p = some (.leaf es left right)) :
    LongEnough t.keyWidth es := by
  obtain ⟨rank, hs⟩ := h.good.shape
  exact hs.long p es left right hp

theorem mem_live (h : Ordered t s T ls) (ht : t.Numeric) (hp : T.store p = some (.leaf es left right))
    {r : Rank × Bytes} : r ∈ live (leafSlots t T) p ↔
      .live r.2 ∈ es ∧ r.1 = .integer (keyOf t.keyWidth r.2) := by
  obtain ⟨v, b⟩ := r
  rw [live, slotsOf_leaf hp, mem_liveFrom]
  constructor
  · rintro ⟨i, -, hi⟩
    obtain ⟨hb, rfl⟩ := getElem?_keyedSlots.mp hi
    have hm := List.mem_of_getElem? hb
    exact ⟨hm, keyValue_numeric ht (h.long hp b hm)⟩
  · rintro ⟨hb, hv⟩
    obtain ⟨i, hi⟩ := List.getElem?_of_mem hb
    refine ⟨i, Nat.zero_le i, getElem?_keyedSlots.mpr ⟨hi, ?_⟩⟩
    exact hv.trans (keyValue_numeric ht (h.long hp b hb)).symm

/-- The records of a leaf come in strict order, and each is led to the leaf. -/
theorem keyedRecords (h : Ordered t s T ls) (ht : t.Numeric)
    (hp : T.store p = some (.leaf es left right)) :
    KeyedRecords t (liveRecordsOf es) (ledTo t.keyWidth T p) where
  holdsKey b hb :=
    ⟨_, ht.reads (extractKey_spec ht (View.sees_ofBytes b) (h.long hp b (mem_liveRecordsOf.mp hb))).1⟩
  strict := by
    refine List.pairwise_filterMap.mpr ((h.lt p es left right hp).imp_of_mem ?_)
    intro e e' he he' hlt b hb c hc
    have hlive : ∀ {e : Entry} {b : Bytes}, e.record? = some b → e = .live b := by
      intro e b h
      cases e <;> cases h
      rfl
    obtain rfl := hlive hb
    obtain rfl := hlive hc
    rw [keyValue_numeric ht (h.long hp b he), keyValue_numeric ht (h.long hp c he'),
      Rank.integer_lt]
    exact hlt b c rfl rfl
  inside b hb := by
    have hm := mem_liveRecordsOf.mp hb
    exact ⟨_, h.routed.recs p es left right hp b hm, keyValue_numeric ht (h.long hp b hm)⟩

theorem orderedLeaf (h : Ordered t s T ls) (ht : t.Numeric)
    (hp : T.store p = some (.leaf es left right)) : OrderedLeaf t (s.page p) := by
  have hna := h.good.holds.nodeAt hp
  have hk := h.keyedRecords ht hp
  apply hna.orderedLeaf (K := ledTo t.keyWidth T p)
  rw [hna.recordSeq]
  exact hk

theorem keyChain (h : Ordered t s T ls) (ht : t.Numeric) :
    KeyChain t (Key.Reads t.keyTypeId) s (leafSlots t T) ls := by
  have hleaf : ∀ p ∈ ls, ∃ es left right, T.store p = some (.leaf es left right) := fun p hp =>
    (h.order.chain.cover p).mpr hp
  refine ⟨h.good.holds.io, fun p hp => ?_, fun p hp => ?_,
    h.order.chain.linked.rightChain h.good.holds h.good.invalid,
    List.pairwise_flatMap.mpr ⟨fun p hp => ?_, ?_⟩⟩
  · obtain ⟨es, left, right, hes⟩ := hleaf p hp
    exact (h.good.holds.node p _ hes).1
  · obtain ⟨es, left, right, hes⟩ := hleaf p hp
    have hslots := (h.orderedLeaf ht hes).readsSlots
    rwa [(h.good.holds.nodeAt hes).2.2.2.1, ← slotsOf_leaf hes] at hslots
  · obtain ⟨es, left, right, hes⟩ := hleaf p hp
    rw [live, slotsOf_leaf hes, liveFrom_keyedSlots, List.drop_zero, List.pairwise_map]
    exact (h.keyedRecords ht hes).strict
  · refine h.order.apart.imp_of_mem fun {p q} hp hq hlt a ha b hb => ?_
    obtain ⟨es, left, right, hes⟩ := hleaf p hp
    obtain ⟨es', left', right', hes'⟩ := hleaf q hq
    obtain ⟨hm, ea⟩ := (h.mem_live ht hes).mp ha
    obtain ⟨hm', eb⟩ := (h.mem_live ht hes').mp hb
    exact hlt a.1 ⟨_, h.routed.recs p es left right hes _ hm, ea⟩ b.1
      ⟨_, h.routed.recs q es' left' right' hes' _ hm', eb⟩

theorem mem_records (h : Ordered t s T ls) (ht : t.Numeric) {r : Rank × Bytes} :
    r ∈ records (leafSlots t T) ls ↔
      r.2 ∈ T.records ∧ r.1 = .integer (keyOf t.keyWidth r.2) := by
  rw [records, List.mem_flatMap]
  constructor
  · rintro ⟨p, hp, hr⟩
    obtain ⟨es, left, right, hes⟩ := (h.order.chain.cover p).mpr hp
    obtain ⟨hm, e⟩ := (h.mem_live ht hes).mp hr
    exact ⟨⟨p, es, left, right, hes, hm⟩, e⟩
  · rintro ⟨⟨p, es, left, right, hes, hm⟩, e⟩
    exact ⟨p, (h.order.chain.cover p).mp ⟨es, left, right, hes⟩, (h.mem_live ht hes).mpr ⟨hm, e⟩⟩

/-- A scan returns the records whose keys are in its range, in order, and then nothing. -/
theorem scan_yields (h : Ordered t s T ls) (ht : t.Numeric) (hx : start.Decodes x)
    (hy : end_.Reads t.keyTypeId (.integer y)) :
    ∃ it bs, Ends (scan t start end_) s it s ∧ Yields t s it bs ∧
      (bs.Pairwise fun b c => keyOf t.keyWidth b < keyOf t.keyWidth c) ∧
      ∀ b, b ∈ bs ↔ b ∈ T.records ∧ x ≤ keyOf t.keyWidth b ∧ keyOf t.keyWidth b ≤ y := by
  obtain ⟨rank, hs⟩ := h.good.shape
  obtain ⟨p, bt, es, left, right, hf, hroute, hp, e⟩ := findRecord_route ht h.good.holds hs hx
  obtain ⟨pre, rest, rfl⟩ := List.append_of_mem ((h.order.chain.cover p).mp ⟨_, _, _, hp⟩)
  have hled : Rank.integer x ∈ ledTo t.keyWidth T p := ⟨x, hroute.goes, rfl⟩
  obtain ⟨-, hrest, hpre⟩ := List.pairwise_append.mp h.order.apart
  have hside : ∀ {q : Nat} {r : Rank × Bytes}, q ∈ pre ++ p :: rest → r ∈ live (leafSlots t T) q →
      r.1 ∈ ledTo t.keyWidth T q := by
    intro q r hq hr
    obtain ⟨es', left', right', hes'⟩ := (h.order.chain.cover q).mpr hq
    obtain ⟨hm, er⟩ := (h.mem_live ht hes').mp hr
    exact ⟨_, h.routed.recs q es' left' right' hes' _ hm, er⟩
  have hsep : Separates (slotsOf (leafSlots t T) p) (· < Rank.integer x)
      (lowerSlot t.keyWidth es x) := by
    intro i v b hi
    rw [slotsOf_leaf hp] at hi
    obtain ⟨hb, rfl⟩ := getElem?_keyedSlots.mp hi
    rw [keyValue_numeric ht (h.long hp b (List.mem_of_getElem? hb))]
    exact Rank.integer_lt.trans ((lowerSlot_spec (h.lt p es left right hp).leafSorted).1 i b hb).symm
  have hchain := h.keyChain ht
  have hon : On t (Key.Reads t.keyTypeId) s (leafSlots t T) (.integer y)
      ⟨p, lowerSlot t.keyWidth es x, none, end_, s.page p⟩ p rest :=
    ⟨rfl, hy, hchain.suffix (List.suffix_append pre _)⟩
  obtain ⟨rs, hsorted, hmem, hiff⟩ := chain_yields hon rfl rfl hsep
    (fun r hr => by
      obtain ⟨q, hq, hr⟩ := List.mem_flatMap.mp hr
      exact hpre q hq p List.mem_cons_self _ (hside (List.mem_append_left _ hq) hr) _ hled)
    (fun r hr => by
      obtain ⟨q, hq, hr⟩ := List.mem_flatMap.mp hr
      exact (List.pairwise_cons.mp hrest).1 q hq _ hled _
        (hside (List.mem_append_right _ (List.mem_cons_of_mem p hq)) hr))
  have hkey : ∀ r ∈ rs, r.2 ∈ T.records ∧ r.1 = .integer (keyOf t.keyWidth r.2) := fun r hr =>
    (h.mem_records ht).mp ((hmem r).mp hr).1
  refine ⟨_, rs.map Prod.snd, e.bind ((h.good.holds.read hp).bind (.pure _ _)),
    hiff.mpr (keyChain_lastFine hchain (by rw [ht.type]; decide)), ?_, fun b => ?_⟩
  · refine List.pairwise_map.mpr (hsorted.imp_of_mem fun {r r'} hr hr' hlt => ?_)
    rw [(hkey r hr).2, (hkey r' hr').2, Rank.integer_lt] at hlt
    exact hlt
  · rw [List.mem_map]
    constructor
    · rintro ⟨r, hr, rfl⟩
      obtain ⟨-, hxr, hry⟩ := (hmem r).mp hr
      rw [(hkey r hr).2, Rank.integer_le] at hxr hry
      exact ⟨(hkey r hr).1, hxr, hry⟩
    · rintro ⟨hb, hxb, hby⟩
      refine ⟨(.integer (keyOf t.keyWidth b), b), (hmem _).mpr ⟨(h.mem_records ht).mpr ⟨hb, rfl⟩, ?_⟩,
        rfl⟩
      exact ⟨Rank.integer_le.mpr hxb, Rank.integer_le.mpr hby⟩

end Ordered

end

end DbInternals.Index
