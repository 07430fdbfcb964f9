import DbInternals.Index.PivotWalk
import DbInternals.Index.SplitCrash

/-!
# Leaves under mutation

A file whose leaves are a chain to the right, each with an interval of keys, and what happens
to it while leaves change: an insert at the lower bound of its key, the removal of a slot,
a leaf split. The intervals stay in order, and no record is lost (`Keeps`).

Results: `LeafFile.insert`, `LeafFile.delete`, `LeafFile.split`.
-/
namespace DbInternals.Index

open Storage SlottedPage

/-! ## Records in strict order -/

/-- Records with their keys in strict order, all of them in the interval. -/
structure KeyedRecords (t : TreeConfig) (bs : List Bytes) (K : Set Rank) : Prop where
  holdsKey : ∀ b ∈ bs, HoldsKey t b
  strict : bs.Pairwise fun b c => keyValue t b < keyValue t c
  inside : ∀ b ∈ bs, keyValue t b ∈ K

namespace KeyedRecords

variable {t : TreeConfig} {bs cs : List Bytes} {b r : Bytes} {K : Set Rank}

theorem sublist (h : KeyedRecords t cs K) (hs : bs.Sublist cs) : KeyedRecords t bs K where
  holdsKey b hb := h.holdsKey b (hs.subset hb)
  strict := h.strict.sublist hs
  inside b hb := h.inside b (hs.subset hb)

theorem insert (h : KeyedRecords t (bs ++ cs) K) (hr : HoldsKey t r) (hK : keyValue t r ∈ K)
    (hbs : ∀ b ∈ bs, keyValue t b < keyValue t r) (hcs : ∀ c ∈ cs, keyValue t r < keyValue t c) :
    KeyedRecords t (bs ++ r :: cs) K := by
  obtain ⟨hb, hc, hlt⟩ := List.pairwise_append.mp h.strict
  have hmem : ∀ {a}, a ∈ bs ++ r :: cs → a = r ∨ a ∈ bs ++ cs := by
    intro a ha
    simp only [List.mem_append, List.mem_cons] at ha ⊢
    tauto
  refine ⟨?_, ?_, ?_⟩
  · intro a ha
    rcases hmem ha with rfl | ha
    · exact hr
    · exact h.holdsKey a ha
  · refine List.pairwise_append.mpr ⟨hb, List.pairwise_cons.mpr ⟨hcs, hc⟩, ?_⟩
    intro a ha c hac
    rcases List.mem_cons.mp hac with rfl | hac
    · exact hbs a ha
    · exact hlt a ha c hac
  · intro a ha
    rcases hmem ha with rfl | ha
    · exact hK
    · exact h.inside a ha

/-- The records before one, with smaller keys, and those from it on. -/
theorem split (h : KeyedRecords t (bs ++ b :: cs) K) :
    KeyedRecords t bs (K ∩ Set.Iio (keyValue t b)) ∧
      KeyedRecords t (b :: cs) (K ∩ Set.Ici (keyValue t b)) := by
  obtain ⟨-, hc, hlt⟩ := List.pairwise_append.mp h.strict
  have hleft := h.sublist (List.sublist_append_left bs (b :: cs))
  have hright := h.sublist (List.sublist_append_right bs (b :: cs))
  refine ⟨⟨hleft.holdsKey, hleft.strict, ?_⟩, ⟨hright.holdsKey, hright.strict, ?_⟩⟩
  · intro a ha
    exact ⟨hleft.inside a ha, hlt a ha b List.mem_cons_self⟩
  · intro a ha
    refine ⟨hright.inside a ha, ?_⟩
    rcases List.mem_cons.mp ha with rfl | ha
    · exact le_refl (keyValue t a)
    · exact le_of_lt ((List.pairwise_cons.mp hc).1 a ha)

end KeyedRecords

/-! ## Leaves in a chain -/

/-- Each page is a leaf with the next one on its right. -/
def RightLinked (T : Tree) : List Nat → Prop
  | [] => True
  | p :: ps => (∃ es left, T.store p = some (.leaf es left (nextOf ps))) ∧ RightLinked T ps

/-- Every key of the one interval is below those of the other. -/
def KeysBelow (keys : Nat → Set Rank) (p q : Nat) : Prop := ∀ a ∈ keys p, ∀ b ∈ keys q, a < b

/-- A file with a chain of leaves: the keys of a leaf are of its interval, and the intervals are
in the order of the chain. The other pages do not matter. -/
structure LeafFile (t : TreeConfig) (s : TreeState) (T : Tree) (chain : List Nat)
    (keys : Nat → Set Rank) : Prop where
  holds : Holds t False s T
  nodup : chain.Nodup
  linked : RightLinked T chain
  records : ∀ p ∈ chain, ∀ es left right, T.store p = some (.leaf es left right) →
    KeyedRecords t (liveRecordsOf es) (keys p)
  apart : chain.Pairwise (KeysBelow keys)

/-- What a mutation leaves behind: whatever tail of the chain one looks at, there is one of the new
chain with the same first leaf, no other keys, and all of its records but those that are gone. -/
def Keeps (s s' : TreeState) (chain chain' : List Nat) (keys keys' : Nat → Set Rank)
    (gone : Set Bytes) : Prop :=
  ∀ rest, rest <:+ chain → ∃ rest', rest' <:+ chain' ∧ nextOf rest' = nextOf rest ∧
    (∀ q' ∈ rest', ∀ k ∈ keys' q', ∃ q ∈ rest, k ∈ keys q) ∧
    ∀ q ∈ rest, ∀ b ∈ recordSeq (s.page q), b ∉ gone → ∃ q' ∈ rest', b ∈ recordSeq (s'.page q')

section
variable {t : TreeConfig} {s s' : TreeState} {T T' : Tree} {chain pre post ps : List Nat}
  {keys keys' : Nat → Set Rank} {p q f i slot left right w : Nat} {es es' : List Entry} {b r : Bytes}
  {d data : Mem} {τ : Prop}

theorem NodeAt.recordSeq (h : NodeAt τ w data (.leaf es left right)) :
    SlottedPage.recordSeq data = liveRecordsOf es := by
  rw [recordSeq_eq h.1.layout, h.2.2.2.1]

theorem NodeAt.orderedLeaf (h : NodeAt τ w data (.leaf es left right)) {K : Set Rank}
    (hk : KeyedRecords t (SlottedPage.recordSeq data) K) : OrderedLeaf t data :=
  ⟨h.1, h.2.2.1, hk.holdsKey, hk.strict.imp le_of_lt⟩

theorem RightLinked.leaf (h : RightLinked T chain) (hp : p ∈ chain) :
    ∃ es left right, T.store p = some (.leaf es left right) := by
  induction chain with
  | nil => cases hp
  | cons q ps ih =>
    obtain ⟨⟨es, left, hq⟩, hps⟩ := h
    rcases List.mem_cons.mp hp with rfl | hp
    · exact ⟨es, left, _, hq⟩
    · exact ih hps hp

theorem RightLinked.at (h : RightLinked T (pre ++ p :: post)) :
    ∃ es left, T.store p = some (.leaf es left (nextOf post)) := by
  induction pre with
  | nil => exact h.1
  | cons q pre ih => exact ih h.2

/-- Only the right siblings count. -/
theorem RightLinked.congr (h : RightLinked T chain)
    (hs : ∀ p ∈ chain, ∀ es left right, T.store p = some (.leaf es left right) →
      ∃ es' left', T'.store p = some (.leaf es' left' right)) : RightLinked T' chain := by
  induction chain with
  | nil => trivial
  | cons q ps ih =>
    obtain ⟨⟨es, left, hq⟩, hps⟩ := h
    exact ⟨hs q List.mem_cons_self es left _ hq, ih hps fun p hp => hs p (List.mem_cons_of_mem q hp)⟩

namespace LeafFile

theorem leaf (h : LeafFile t s T chain keys) (hp : p ∈ chain) :
    ∃ es left right, T.store p = some (.leaf es left right) ∧
      NodeAt False t.keyWidth (s.page p) (.leaf es left right) := by
  obtain ⟨es, left, right, hes⟩ := h.linked.leaf hp
  exact ⟨es, left, right, hes, h.holds.nodeAt hes⟩

/-- A page the tree does not have is not in the chain. -/
theorem fresh (h : LeafFile t s T chain keys) (hf : T.store f = none) : f ∉ chain := by
  intro hc
  obtain ⟨es, left, right, hes, -⟩ := h.leaf hc
  rw [hf] at hes
  cases hes

theorem ne_invalid (h : LeafFile t s T chain keys) (hp : p ∈ chain) : p ≠ INVALID_PAGE_ID := by
  obtain ⟨es, left, right, hes, -⟩ := h.leaf hp
  have hpn : T.store p ≠ none := by simp [hes]
  have hu := (h.holds.inUse hpn).2.1
  have hle := h.holds.next_le
  rintro rfl
  simp only [INVALID_PAGE_ID, MAX_PAGES] at hu hle
  omega

theorem read (h : LeafFile t s T chain keys) (hp : p ∈ chain) :
    Ends (disk (readPage p)) s (s.page p) s := by
  obtain ⟨es, left, right, hes, -⟩ := h.leaf hp
  exact h.holds.read hes

/-- The page of a leaf: its records in order, and its right sibling. -/
theorem page (h : LeafFile t s T (pre ++ p :: post) keys) : OrderedLeaf t (s.page p) ∧
    KeyedRecords t (recordSeq (s.page p)) (keys p) ∧ getRightSibling (s.page p) = nextOf post := by
  obtain ⟨es, left, hes⟩ := h.linked.at
  have hn := h.holds.nodeAt hes
  have hk := h.records p (by simp) es left _ hes
  rw [← hn.recordSeq] at hk
  exact ⟨hn.orderedLeaf hk, hk, hn.2.2.2.2.2⟩

/-- A leaf is written again, with other records of its interval. -/
theorem rewrite (h : LeafFile t s T chain keys) (hp : p ∈ chain)
    (hes : T.store p = some (.leaf es left right))
    (hn : NodeAt False t.keyWidth d (.leaf es' left right))
    (hk : KeyedRecords t (liveRecordsOf es') (keys p)) :
    ∃ s', Ends (disk (writePage p d)) s ⟨⟩ s' ∧
      LeafFile t s' (T.setNode p (.leaf es' left right)) chain keys ∧
      recordSeq (s'.page p) = liveRecordsOf es' ∧ ∀ q ∈ chain, q ≠ p → s'.page q = s.page q := by
  have hpn : T.store p ≠ none := by simp [hes]
  obtain ⟨s', e, hs', hw, -⟩ := h.holds.write (h.holds.inUse hpn) hn
  have hself : (T.setNode p (.leaf es' left right)).store p = some (.leaf es' left right) :=
    Tree.setNode_self ..
  refine ⟨s', e, ⟨hs', h.nodup, h.linked.congr ?_, ?_, h.apart⟩, (hs'.nodeAt hself).recordSeq, ?_⟩
  · intro q hq es₁ left₁ right₁ hes₁
    by_cases hqp : q = p
    · subst hqp
      rw [hes] at hes₁
      cases hes₁
      exact ⟨es', left, hself⟩
    · exact ⟨es₁, left₁, by rw [Tree.setNode_of_ne _ _ hqp]; exact hes₁⟩
  · intro q hq es₁ left₁ right₁ hes₁
    by_cases hqp : q = p
    · subst hqp
      rw [hself] at hes₁
      cases hes₁
      exact hk
    · rw [Tree.setNode_of_ne _ _ hqp] at hes₁
      exact h.records q hq es₁ left₁ right₁ hes₁
  · intro q hq hqp
    obtain ⟨es₁, left₁, right₁, hes₁, -⟩ := h.leaf hq
    exact hw.pages q (by simp [hes₁]) (by simpa using hqp)

end LeafFile

/-- The chain stays, and so do all records but those that are gone. -/
theorem Keeps.of_chain {gone : Set Bytes}
    (h : ∀ q ∈ chain, ∀ b ∈ recordSeq (s.page q), b ∉ gone → b ∈ recordSeq (s'.page q)) :
    Keeps s s' chain chain keys keys gone := by
  intro rest hrest
  refine ⟨rest, hrest, rfl, ?_, ?_⟩
  · intro q hq k hk
    exact ⟨q, hq, hk⟩
  · intro q hq b hb hg
    exact ⟨q, hq, h q (hrest.subset hq) b hb hg⟩

end

/-! ## Inserts and removals in place -/

/-- The part of `insert` on the leaf: the record goes to the lower bound of its key, if there is
room. mirrors src/index/b_plus_tree.cpp:401-427 -/
def insertAt (t : TreeConfig) (p : Nat) (r : Bytes) : TreeM (Option Nat) := do
  let leaf ← disk (readPage p)
  let slot ← buf (leafSlot t leaf (recordKey t r))
  let (pos, leaf) ← buf (insertRecordAt leaf slot (Mem.ofBytes r) r.length)
  if pos.isSome then disk (writePage p leaf)
  return pos

/-- The part of `remove` on the leaf. mirrors src/index/b_plus_tree.cpp:446-455 -/
def deleteAt (p slot : Nat) : TreeM Bool := do
  let leaf ← disk (readPage p)
  let (ret, leaf) := deleteRecord leaf slot
  if ret then disk (writePage p leaf)
  return ret

section
variable {t : TreeConfig} {s s' : TreeState} {T : Tree} {chain : List Nat} {keys : Nat → Set Rank}
  {p slot len : Nat} {b r : Bytes} {d data record : Mem} {pos : Option Nat} {ret : Bool}

/-- A record that is accepted leaves the header alone. -/
theorem insertRecordAt_sameMeta (h : Valid data) (hslot : slot ≤ maxSlotId data) (hlen : 0 < len)
    (hfree : len + 4 ≤ getTotalFreeSpace data)
    (he : insertRecordAt data slot record len = .ok (pos, d)) : SameMeta data d := by
  have hspec := insertRecordAt_spec record h hlen hslot hfree
  split at hspec
  · obtain ⟨d', e, hi⟩ := hspec
    rw [he] at e
    cases e
    exact hi.sameMeta
  · obtain ⟨d', e, hi⟩ := hspec
    rw [he] at e
    cases e
    exact (compactify_sameMeta h).trans hi.sameMeta

/-- A new key among the strictly ordered ones. -/
theorem insertRecordAt_keyed {K : Set Rank} (h : OrderedLeaf t data)
    (hk : KeyedRecords t (recordSeq data) K) (hr : HoldsKey t r) (hK : keyValue t r ∈ K)
    (hnew : ∀ b ∈ recordSeq data, keyValue t b ≠ keyValue t r) (hlen : r.length < 2 ^ 16)
    (hw : ¬ LengthWraps data r.length) (hslot : leafSlot t data (recordKey t r) = .ok slot)
    (he : insertRecordAt data slot (Mem.ofBytes r) r.length = .ok (pos, d)) (hpos : pos ≠ none) :
    Valid d ∧ SameMeta data d ∧ KeyedRecords t (recordSeq d) K ∧
      ∀ b ∈ recordSeq data, b ∈ recordSeq d := by
  obtain ⟨h0, hfree⟩ := insertRecordAt_some hlen hw he hpos
  obtain ⟨hle, hsplit⟩ := h.insertSlot hslot
  obtain ⟨hv, hseq⟩ := insertRecordAt_records h.valid hle h0 hfree he
  have hmeta := insertRecordAt_sameMeta h.valid hle h0 hfree he
  have hold := recordSeq_eq h.valid.layout
  rw [liveRecordsOf_take_drop (entries data) slot] at hold
  rw [hold] at hk hnew
  have hsplit' : ∀ i b, (entries data)[i]? = some (.live b) →
      (decide (keyValue t b < keyValue t r) = true ↔ i < slot) := by
    intro i b hb
    rw [decide_eq_true_eq, ← hsplit i b hb, Value.above_iff hr.rank]
  obtain ⟨hbelow, habove⟩ := records_split hsplit'
  refine ⟨hv, hmeta, ?_, ?_⟩
  · rw [hseq]
    refine hk.insert hr hK ?_ ?_
    · intro b hb
      exact of_decide_eq_true (hbelow b hb)
    · intro c hc
      have hle' : keyValue t r ≤ keyValue t c := not_lt.mp (of_decide_eq_false (habove c hc))
      exact lt_of_le_of_ne hle' (Ne.symm (hnew c (List.mem_append_right _ hc)))
  · rw [hold, hseq]
    intro b hb
    simp only [List.mem_append, List.mem_cons] at hb ⊢
    tauto

/-- An insert loses no record. -/
theorem LeafFile.insert (h : LeafFile t s T chain keys) (hp : p ∈ chain) (hr : HoldsKey t r)
    (hK : keyValue t r ∈ keys p) (hnew : ∀ b ∈ recordSeq (s.page p), keyValue t b ≠ keyValue t r)
    (hlen : r.length < 2 ^ 16) (hw : ¬ LengthWraps (s.page p) r.length)
    (e : Ends (insertAt t p r) s pos s') :
    ∃ T', LeafFile t s' T' chain keys ∧ Keeps s s' chain chain keys keys ∅ := by
  obtain ⟨es, left, right, hes, hn⟩ := h.leaf hp
  have hk := h.records p hp es left right hes
  rw [← hn.recordSeq] at hk
  have hleaf := hn.orderedLeaf hk
  unfold insertAt at e
  replace e := Ends.rest (h.read hp) e
  obtain ⟨slot, s₁, hslot, e₁⟩ := Ends.bind_iff.mp e
  obtain ⟨hslot, rfl⟩ := ends_buf_iff.mp hslot
  obtain ⟨⟨pos', d⟩, s₂, hi, e₂⟩ := Ends.bind_iff.mp e₁
  obtain ⟨hi, rfl⟩ := ends_buf_iff.mp hi
  cases pos' with
  | none =>
    cases e₂
    exact ⟨T, h, .of_chain fun q _ b hb _ => hb⟩
  | some i =>
    obtain ⟨hv, hm, hk', hkeep⟩ :=
      insertRecordAt_keyed hleaf hk hr hK hnew hlen hw hslot hi (Option.some_ne_none i)
    have hn' : NodeAt False t.keyWidth d (.leaf (entries d) left right) :=
      ⟨hv, False.elim, hm.pageType.trans hn.2.2.1, rfl, hm.left.trans hn.2.2.2.2.1,
        hm.right.trans hn.2.2.2.2.2⟩
    rw [hn'.recordSeq] at hk' hkeep
    obtain ⟨s'', ew, hs'', hseq, hsame⟩ := h.rewrite hp hes hn' hk'
    have hrest := Ends.rest ew e₂
    cases hrest
    refine ⟨_, hs'', .of_chain fun q hq b hb _ => ?_⟩
    by_cases hqp : q = p
    · subst hqp
      rw [hseq]
      exact hkeep b hb
    · rwa [hsame q hq hqp]

/-- A slot marked dead takes its record away, and no other. -/
theorem liveRecordsOf_set (es : List Entry) (i n : Nat) :
    (liveRecordsOf (es.set i (.dead n))).Sublist (liveRecordsOf es) ∧
      ∀ b ∈ liveRecordsOf es, es[i]? ≠ some (.live b) → b ∈ liveRecordsOf (es.set i (.dead n)) := by
  constructor
  · induction es generalizing i with
    | nil => simp
    | cons e es ih =>
      cases i with
      | zero => cases e <;> simp
      | succ i => cases e <;> simp [ih i]
  · intro b hb hi
    obtain ⟨j, hj⟩ := List.getElem?_of_mem (mem_liveRecordsOf.mp hb)
    have hne : i ≠ j := by
      rintro rfl
      exact hi hj
    refine mem_liveRecordsOf.mpr (List.mem_of_getElem? (i := j) ?_)
    rw [List.getElem?_set_ne hne]
    exact hj

/-- A removal takes one record. -/
theorem LeafFile.delete (h : LeafFile t s T chain keys) (hp : p ∈ chain)
    (e : Ends (deleteAt p slot) s ret s') : ∃ T', LeafFile t s' T' chain keys ∧
      Keeps s s' chain chain keys keys {b | recordBytes (s.page p) slot = some b} := by
  obtain ⟨es, left, right, hes, hn⟩ := h.leaf hp
  have hk := h.records p hp es left right hes
  unfold deleteAt at e
  replace e := Ends.rest (h.read hp) e
  by_cases hb : ∃ b, es[slot]? = some (.live b)
  · obtain ⟨b, hb⟩ := hb
    obtain ⟨d, hd, hn'⟩ := deleteRecord_leaf hn hb
    obtain ⟨hsub, hkeep⟩ := liveRecordsOf_set es slot b.length
    obtain ⟨s'', ew, hs'', hseq, hsame⟩ := h.rewrite hp hes hn' (hk.sublist hsub)
    rw [hd] at e
    have hrest := Ends.rest ew e
    cases hrest
    refine ⟨_, hs'', .of_chain fun q hq c hc hgone => ?_⟩
    by_cases hqp : q = p
    · subst hqp
      rw [hn.recordSeq] at hc
      rw [hseq]
      refine hkeep c hc fun hslot => hgone ?_
      change recordBytes (s.page q) slot = some c
      rw [recordBytes_eq hn.1, hn.2.2.2.1, hslot]
      rfl
    · rwa [hsame q hq hqp]
  · -- nothing is in the slot
    rw [deleteRecord_false hn.1 fun b hc => hb ⟨b, by rwa [hn.2.2.2.1] at hc⟩] at e
    cases e
    exact ⟨T, h, .of_chain fun q _ c hc _ => hc⟩

end

/-! ## A leaf split -/

/-- The intervals once the records of `p` from the key `x` on are on `f`. -/
def splitKeys (keys : Nat → Set Rank) (p f : Nat) (x : Rank) : Nat → Set Rank :=
  Function.update (Function.update keys p (keys p ∩ Set.Iio x)) f (keys p ∩ Set.Ici x)

section
variable {t : TreeConfig} {s s' : TreeState} {T T' : Tree} {chain pre post : List Nat}
  {keys : Nat → Set Rank} {p q f m left right l l' : Nat} {es lower upper : List Entry} {b : Bytes}
  {x k : Rank} {data : Mem}

theorem splitKeys_left (hpf : p ≠ f) : splitKeys keys p f x p = keys p ∩ Set.Iio x := by
  rw [splitKeys, Function.update_of_ne hpf, Function.update_self]

theorem splitKeys_right : splitKeys keys p f x f = keys p ∩ Set.Ici x := Function.update_self ..

theorem splitKeys_of_ne (hp : q ≠ p) (hf : q ≠ f) : splitKeys keys p f x q = keys q := by
  rw [splitKeys, Function.update_of_ne hf, Function.update_of_ne hp]

/-- The pages of the chain around `p`, and the new one. -/
theorem chain_ne (hnd : (pre ++ p :: post).Nodup) (hf : f ∉ pre ++ p :: post) :
    p ≠ f ∧ ∀ q, q ∈ pre ∨ q ∈ post → q ≠ p ∧ q ≠ f := by
  have hpf : p ≠ f := by
    rintro rfl
    exact hf (by simp)
  refine ⟨hpf, fun q hq => ⟨?_, ?_⟩⟩
  · rintro rfl
    obtain ⟨-, hpost, hpre⟩ := List.nodup_append.mp hnd
    rcases hq with hq | hq
    · exact hpre q hq q List.mem_cons_self rfl
    · exact (List.nodup_cons.mp hpost).1 hq
  · rintro rfl
    exact hf (by rcases hq with hq | hq <;> simp [hq])

/-- The parts of an interval take its place. -/
theorem apart_split (h : (pre ++ p :: post).Pairwise (KeysBelow keys)) (hnd : (pre ++ p :: post).Nodup)
    (hf : f ∉ pre ++ p :: post) : (pre ++ p :: f :: post).Pairwise (KeysBelow (splitKeys keys p f x)) := by
  obtain ⟨hpf, hne⟩ := chain_ne hnd hf
  obtain ⟨hpre, hp, hcross⟩ := List.pairwise_append.mp h
  obtain ⟨hp, hpost⟩ := List.pairwise_cons.mp hp
  have hsame : ∀ q, q ∈ pre ∨ q ∈ post → splitKeys keys p f x q = keys q :=
    fun q hq => splitKeys_of_ne (hne q hq).1 (hne q hq).2
  have hleft : ∀ a ∈ splitKeys keys p f x p, a ∈ keys p ∧ a < x := by
    rw [splitKeys_left hpf]
    exact fun a ha => ha
  have hright : ∀ a ∈ splitKeys keys p f x f, a ∈ keys p ∧ x ≤ a := by
    rw [splitKeys_right]
    exact fun a ha => ha
  refine List.pairwise_append.mpr ⟨hpre.imp_of_mem ?_, List.pairwise_cons.mpr ⟨?_,
    List.pairwise_cons.mpr ⟨?_, hpost.imp_of_mem ?_⟩⟩, ?_⟩
  · intro q q' hq hq' hlt
    rw [KeysBelow, hsame q (.inl hq), hsame q' (.inl hq')]
    exact hlt
  · intro q hq a ha c hc
    rcases List.mem_cons.mp hq with rfl | hq
    · exact lt_of_lt_of_le (hleft a ha).2 (hright c hc).2
    · rw [hsame q (.inr hq)] at hc
      exact hp q hq a (hleft a ha).1 c hc
  · intro q hq a ha c hc
    rw [hsame q (.inr hq)] at hc
    exact hp q hq a (hright a ha).1 c hc
  · intro q q' hq hq' hlt
    rw [KeysBelow, hsame q (.inr hq), hsame q' (.inr hq')]
    exact hlt
  · intro q hq q' hq' a ha c hc
    rw [hsame q (.inl hq)] at ha
    rcases List.mem_cons.mp hq' with rfl | hq'
    · exact hcross q hq q' List.mem_cons_self a ha c (hleft c hc).1
    rcases List.mem_cons.mp hq' with rfl | hq'
    · exact hcross q hq p List.mem_cons_self a ha c (hright c hc).1
    · rw [hsame q' (.inr hq')] at hc
      exact hcross q hq q' (List.mem_cons_of_mem p hq') a ha c hc

theorem RightLinked.split (h : RightLinked T (pre ++ p :: post))
    (hp : T'.store p = some (.leaf lower l f)) (hf : T'.store f = some (.leaf upper l' (nextOf post)))
    (hs : ∀ q, q ∈ pre ∨ q ∈ post → ∀ es left right, T.store q = some (.leaf es left right) →
      ∃ left', T'.store q = some (.leaf es left' right)) : RightLinked T' (pre ++ p :: f :: post) := by
  induction pre with
  | nil =>
    refine ⟨⟨lower, l, hp⟩, ⟨upper, l', hf⟩, h.2.congr fun q hq es left right hes => ?_⟩
    exact ⟨es, hs q (.inr hq) es left right hes⟩
  | cons q pre ih =>
    obtain ⟨⟨es, left, hes⟩, hrest⟩ := h
    have hnext : nextOf (pre ++ p :: f :: post) = nextOf (pre ++ p :: post) := by cases pre <;> rfl
    refine ⟨⟨es, ?_⟩, ih hrest fun q' hq' => hs q' (hq'.imp_left (List.mem_cons_of_mem q))⟩
    change ∃ left', T'.store q = some (.leaf es left' (nextOf (pre ++ p :: f :: post)))
    rw [hnext]
    exact hs q (.inl List.mem_cons_self) es left _ hes

/-- A tail of the chain starts behind the leaf, or still does with its first page. -/
theorem Keeps.split (hnd : (pre ++ p :: post).Nodup) (hf : f ∉ pre ++ p :: post)
    (hp : ∀ b ∈ recordSeq (s.page p), b ∈ recordSeq (s'.page p) ∨ b ∈ recordSeq (s'.page f))
    (hs : ∀ q, q ∈ pre ∨ q ∈ post → recordSeq (s'.page q) = recordSeq (s.page q)) :
    Keeps s s' (pre ++ p :: post) (pre ++ p :: f :: post) keys (splitKeys keys p f x) ∅ := by
  obtain ⟨hpf, hne⟩ := chain_ne hnd hf
  intro rest hrest
  have hcases : rest <:+ post ∨ ∃ a, rest = a ++ p :: post := by
    rcases List.suffix_or_suffix_of_suffix hrest (List.suffix_append pre (p :: post)) with h | h
    · rcases List.suffix_cons_iff.mp h with rfl | h
      · exact .inr ⟨[], rfl⟩
      · exact .inl h
    · obtain ⟨a, rfl⟩ := h
      exact .inr ⟨a, rfl⟩
  rcases hcases with h | ⟨a, rfl⟩
  · have hmem : ∀ q ∈ rest, q ∈ pre ∨ q ∈ post := fun q hq => .inr (h.subset hq)
    refine ⟨rest, h.trans ⟨pre ++ [p, f], by simp⟩, rfl, ?_, ?_⟩
    · intro q hq k hk
      obtain ⟨hqp, hqf⟩ := hne q (hmem q hq)
      rw [splitKeys_of_ne hqp hqf] at hk
      exact ⟨q, hq, hk⟩
    · intro q hq b hb _
      rw [← hs q (hmem q hq)] at hb
      exact ⟨q, hq, hb⟩
  · obtain ⟨c, hc⟩ := hrest
    rw [← List.append_assoc] at hc
    obtain rfl := List.append_cancel_right hc
    have hmem : ∀ q, q ∈ a ∨ q ∈ post → q ∈ c ++ a ∨ q ∈ post :=
      fun q hq => hq.imp_left (List.mem_append_right c)
    refine ⟨a ++ p :: f :: post, ⟨c, by simp⟩, by cases a <;> rfl, ?_, ?_⟩
    · intro q hq k hk
      simp only [List.mem_append, List.mem_cons] at hq
      by_cases hqf : q = f
      · subst hqf
        rw [splitKeys_right] at hk
        exact ⟨p, by simp, hk.1⟩
      by_cases hqp : q = p
      · subst hqp
        rw [splitKeys_left hpf] at hk
        exact ⟨q, by simp, hk.1⟩
      · rw [splitKeys_of_ne hqp hqf] at hk
        refine ⟨q, ?_, hk⟩
        simp only [List.mem_append, List.mem_cons]
        tauto
    · intro q hq b hb _
      by_cases hqp : q = p
      · subst hqp
        rcases hp b hb with hb | hb
        · exact ⟨q, by simp, hb⟩
        · exact ⟨f, by simp, hb⟩
      · simp only [List.mem_append, List.mem_cons, hqp, false_or] at hq
        rw [← hs q (hmem q hq)] at hb
        refine ⟨q, ?_, hb⟩
        simp only [List.mem_append, List.mem_cons]
        tauto

/-- What a split makes of the leaf `p`: the records before slot `m` stay, the others are on `f`,
and the other leaves have the same records and right siblings. -/
structure SplitAt (T T' : Tree) (chain : List Nat) (p f right m : Nat) (es : List Entry) : Prop where
  lower : ∃ left, T'.store p = some (.leaf (liveEntries (es.take m)) left f)
  upper : ∃ left, T'.store f = some (.leaf (liveEntries (es.drop m)) left right)
  others : ∀ q ∈ chain, q ≠ p → ∀ es left right, T.store q = some (.leaf es left right) →
    ∃ left', T'.store q = some (.leaf es left' right)

/-- Another left sibling for a leaf makes no difference. -/
theorem SplitAt.relink (h : SplitAt T T' chain p f right m es) (hp : q ≠ p) (hf : q ≠ f)
    {es₁ : List Entry} {l₁ r₁ : Nat} (hq : T'.store q = some (.leaf es₁ l₁ r₁)) :
    SplitAt T (T'.setNode q (.leaf es₁ l r₁)) chain p f right m es := by
  obtain ⟨⟨l₂, hlower⟩, ⟨l₃, hupper⟩, hothers⟩ := h
  refine ⟨⟨l₂, ?_⟩, ⟨l₃, ?_⟩, ?_⟩
  · rw [Tree.setNode_of_ne _ _ (Ne.symm hp)]
    exact hlower
  · rw [Tree.setNode_of_ne _ _ (Ne.symm hf)]
    exact hupper
  · intro a ha hap es₂ left₂ right₂ hes₂
    obtain ⟨left', hes'⟩ := hothers a ha hap es₂ left₂ right₂ hes₂
    by_cases haq : a = q
    · subst haq
      rw [hq] at hes'
      cases hes'
      exact ⟨l, Tree.setNode_self ..⟩
    · rw [Tree.setNode_of_ne _ _ haq]
      exact ⟨left', hes'⟩

/-- The intervals of the two leaves part at the key of slot `m`. -/
theorem LeafFile.of_split (h : LeafFile t s T (pre ++ p :: post) keys) (hs' : Holds t False s' T')
    (hes : T.store p = some (.leaf es left (nextOf post))) (hf : T.store f = none)
    (hm : es[m]? = some (.live b)) (hT : SplitAt T T' (pre ++ p :: post) p f (nextOf post) m es) :
    LeafFile t s' T' (pre ++ p :: f :: post) (splitKeys keys p f (keyValue t b)) ∧
      Keeps s s' (pre ++ p :: post) (pre ++ p :: f :: post) keys
        (splitKeys keys p f (keyValue t b)) ∅ := by
  have hfresh : f ∉ pre ++ p :: post := h.fresh hf
  obtain ⟨hpf, hne⟩ := chain_ne h.nodup hfresh
  obtain ⟨⟨l, hlower⟩, ⟨l', hupper⟩, hothers⟩ := hT
  have hmem : ∀ q, q ∈ pre ∨ q ∈ post → q ∈ pre ++ p :: post := by
    intro q hq
    simp only [List.mem_append, List.mem_cons]
    tauto
  have hsame : ∀ q, q ∈ pre ∨ q ∈ post → ∀ es left right, T.store q = some (.leaf es left right) →
      ∃ left', T'.store q = some (.leaf es left' right) :=
    fun q hq => hothers q (hmem q hq) (hne q hq).1
  -- the records of the leaf, cut at the slot
  have hk := h.records p (by simp) es left _ hes
  have hdrop : liveRecordsOf (es.drop m) = b :: liveRecordsOf (es.drop (m + 1)) := by
    obtain ⟨hlt, hb⟩ := List.getElem?_eq_some_iff.mp hm
    rw [List.drop_eq_getElem_cons hlt, hb, liveRecordsOf_live]
  have hcut : liveRecordsOf es =
      liveRecordsOf (es.take m) ++ b :: liveRecordsOf (es.drop (m + 1)) := by
    rw [liveRecordsOf_take_drop es m, hdrop]
  rw [hcut] at hk
  obtain ⟨hk₁, hk₂⟩ := hk.split
  have hn₁ := hs'.nodeAt hlower
  have hn₂ := hs'.nodeAt hupper
  have hseq := h.holds.nodeAt hes
  refine ⟨⟨hs', ?_, h.linked.split hlower hupper hsame, ?_, apart_split h.apart h.nodup hfresh⟩,
    .split h.nodup hfresh ?_ ?_⟩
  · rw [List.append_cons, List.nodup_middle, ← List.append_cons]
    exact List.nodup_cons.mpr ⟨hfresh, h.nodup⟩
  · intro q hq es₁ left₁ right₁ hes₁
    by_cases hqp : q = p
    · subst hqp
      rw [hlower] at hes₁
      cases hes₁
      rw [splitKeys_left hpf, liveRecordsOf_liveEntries]
      exact hk₁
    by_cases hqf : q = f
    · subst hqf
      rw [hupper] at hes₁
      cases hes₁
      rw [splitKeys_right, liveRecordsOf_liveEntries, hdrop]
      exact hk₂
    · have hq' : q ∈ pre ∨ q ∈ post := by
        simp only [List.mem_append, List.mem_cons] at hq
        tauto
      obtain ⟨es₂, left₂, right₂, hes₂, -⟩ := h.leaf (hmem q hq')
      obtain ⟨left₃, hes₃⟩ := hsame q hq' es₂ left₂ right₂ hes₂
      have hrecords := h.records q (hmem q hq') es₂ left₂ right₂ hes₂
      rw [hes₃] at hes₁
      cases hes₁
      rw [splitKeys_of_ne hqp hqf]
      exact hrecords
  · rw [hseq.recordSeq, hn₁.recordSeq, hn₂.recordSeq, liveRecordsOf_liveEntries,
      liveRecordsOf_liveEntries, liveRecordsOf_take_drop es m]
    exact fun c hc => List.mem_append.mp hc
  · intro q hq
    obtain ⟨es₂, left₂, right₂, hes₂, hn⟩ := h.leaf (hmem q hq)
    obtain ⟨left₃, hes₃⟩ := hsame q hq es₂ left₂ right₂ hes₂
    rw [hn.recordSeq, (hs'.nodeAt hes₃).recordSeq]

/-- The split on disk. -/
theorem LeafFile.split_ends {key : Key} (h : LeafFile t s T (pre ++ p :: post) keys)
    (hids : s.diskManager.globalMetadata.freelistHead = INVALID_PAGE_ID → nextId s < MAX_PAGES)
    (hes : T.store p = some (.leaf es left (nextOf post))) (e : Ends (splitLeaf t p) s (key, f) s') :
    ∃ T' m b, Holds t False s' T' ∧ T.store f = none ∧ es[m]? = some (.live b) ∧
      SplitAt T T' (pre ++ p :: post) p f (nextOf post) m es ∧
      key.Reads t.keyTypeId (keyValue t b) := by
  have hpn : T.store p ≠ none := by simp [hes]
  have hpu := h.holds.inUse hpn
  have hmax : T.alloc.2.next ≤ MAX_PAGES := by
    have hle := h.holds.next_le
    have hnext := h.holds.next
    unfold Tree.alloc
    split
    · next hfree =>
      have hlt := hids (hfree ▸ h.holds.freeList).head_nil
      simp only
      omega
    · exact hle
  obtain ⟨s₁, e₁, h₁, w₁⟩ := h.holds.alloc hmax
  have hp₁ : T.alloc.2.store p = some (.leaf es left (nextOf post)) := by
    rw [Tree.alloc_store]
    exact hes
  have hna := h₁.nodeAt hp₁
  have hent := hna.2.2.2.1
  have hcount : getSlotCount (s₁.page p) = es.length := length_of_entries hent
  unfold splitLeaf at e
  replace e := Ends.rest e₁ e
  replace e := Ends.rest (h₁.read hp₁) e
  dsimp only at e
  rw [hcount, hna.2.2.2.2.2] at e
  obtain ⟨m, s₁', hwalk, e₃⟩ := Ends.bind_iff.mp e
  obtain ⟨hwalk, rfl⟩ := ends_buf_iff.mp hwalk
  obtain ⟨b, hb⟩ := live_of_record hna.1 (walkPivot_ok hwalk)
  rw [hent] at hb
  obtain ⟨hlt, hbm⟩ := List.getElem?_eq_some_iff.mp hb
  have hfu : T.alloc.2.InUse T.alloc.1 := h.holds.ids.alloc.2.1
  obtain ⟨d₁, d₂, em, n₁, n₂⟩ := splitPages_spec hna (h₁.lt32 hfu) (h.holds.lt32 hpu) (Nat.le_of_lt hlt)
  obtain ⟨s₂, ew₂, h₂, w₂, -⟩ := h₁.write hpu.alloc n₁
  obtain ⟨s₃, ew₃, h₃, w₃, -⟩ := h₂.write (p := T.alloc.1) hfu n₂
  replace e₃ := Ends.rest (ends_buf em) e₃
  dsimp only at e₃
  replace e₃ := Ends.rest ew₂ e₃
  replace e₃ := Ends.rest ew₃ e₃
  have hfnone : T.store T.alloc.1 = none := h.holds.ids.alloc.2.2
  have hpf : p ≠ T.alloc.1 := h.holds.ids.alloc_ne hpn
  have hsplit : SplitAt T ((T.alloc.2.setNode p (.leaf (liveEntries (es.take m)) left
      T.alloc.1)).setNode T.alloc.1 (.leaf (liveEntries (es.drop m)) p (nextOf post)))
      (pre ++ p :: post) p T.alloc.1 (nextOf post) m es := by
    refine ⟨⟨left, ?_⟩, ⟨p, Tree.setNode_self ..⟩, ?_⟩
    · rw [Tree.setNode_of_ne _ _ hpf, Tree.setNode_self]
    · intro q _ hqp es₁ left₁ right₁ hes₁
      have hqf : q ≠ T.alloc.1 := h.holds.ids.alloc_ne (by simp [hes₁])
      refine ⟨left₁, ?_⟩
      rw [Tree.setNode_of_ne _ _ hqf, Tree.setNode_of_ne _ _ hqp, Tree.alloc_store]
      exact hes₁
  -- the first record that moved
  have hkey : (keyAt t d₂ 0).Reads t.keyTypeId (keyValue t b) := by
    have hbin : b ∈ liveRecordsOf es := mem_liveRecordsOf.mpr (List.mem_of_getElem? hb)
    refine keyAt_reads n₂.1 ?_ ((h.records p (by simp) es left _ hes).holdsKey b hbin)
    rw [n₂.2.2.2.1, List.drop_eq_getElem_cons hlt, hbm]
    rfl
  cases post with
  | nil =>
    cases e₃
    exact ⟨_, m, b, h₃, hfnone, hb, hsplit, hkey⟩
  | cons q rest =>
    have hqmem : q ∈ pre ++ p :: q :: rest := by simp
    have hq : nextOf (q :: rest) = q := rfl
    obtain ⟨hqp, -⟩ := (chain_ne h.nodup (h.fresh hfnone)).2 q (.inr List.mem_cons_self)
    obtain ⟨es₁, left₁, right₁, hes₁, -⟩ := h.leaf hqmem
    have hqf : q ≠ T.alloc.1 := h.holds.ids.alloc_ne (by simp [hes₁])
    obtain ⟨left₂, hes₂⟩ := hsplit.others q hqmem hqp es₁ left₁ right₁ hes₁
    rw [hq] at e₃
    rw [if_pos (h.ne_invalid hqmem)] at e₃
    replace e₃ := Ends.rest (h₃.read hes₂) e₃
    obtain ⟨v₃, -, y₃, x₃, -, z₃⟩ := h₃.nodeAt hes₂
    obtain ⟨a₁, a₂, -, a₄, a₅, a₆⟩ := setLeft_spec v₃ (h₁.lt32 hfu)
    have hn₄ : NodeAt False t.keyWidth (setLeftSibling (s₃.page q) T.alloc.1)
        (.leaf es₁ T.alloc.1 right₁) :=
      ⟨a₂, False.elim, a₄.trans y₃, a₁.trans x₃, a₅, a₆.trans z₃⟩
    obtain ⟨s₄, ew₄, h₄, -, -⟩ :=
      h₃.write (h₃.inUse (by rw [hes₂]; exact Option.some_ne_none _)) hn₄
    replace e₃ := Ends.rest ew₄ e₃
    cases e₃
    exact ⟨_, m, b, h₄, hfnone, hb, hsplit.relink hqp hqf hes₂, hkey⟩

/-- A split loses no record, and parts the interval of the leaf at the key it returns. -/
theorem LeafFile.split {key : Key} (h : LeafFile t s T (pre ++ p :: post) keys)
    (hids : s.diskManager.globalMetadata.freelistHead = INVALID_PAGE_ID → nextId s < MAX_PAGES)
    (e : Ends (splitLeaf t p) s (key, f) s') (hx : key.Reads t.keyTypeId x) :
    ∃ T', LeafFile t s' T' (pre ++ p :: f :: post) (splitKeys keys p f x) ∧
      Keeps s s' (pre ++ p :: post) (pre ++ p :: f :: post) keys (splitKeys keys p f x) ∅ := by
  obtain ⟨es, left, hes⟩ := h.linked.at
  obtain ⟨T', m, b, hs', hf, hm, hT, hkey⟩ := h.split_ends hids hes e
  obtain rfl : keyValue t b = x := hkey.unique hx
  exact ⟨T', h.of_split hs' hes hf hm hT⟩

end

end DbInternals.Index
