import DbInternals.Index.LeafRuns
import DbInternals.Index.ScanExact

/-!
# A scan while leaves change

One iterator, and between its calls inserts into leaves, removals and leaf splits, in any order.
The iterator holds a copy of a page, which goes stale, and with it the id of the right sibling.
What the scan has still to return, `ahead`, is the rest of the copy and the records of a tail of
the chain, whose first page the copy names. A mutation may add records to that tail, all of them
with keys from its intervals, and takes only those that are deleted; it never moves one out of the
tail.

Results:
* `walk_ahead`: a call of `Next` returns the first record ahead, if it is in the range;
* `scan_interleaved`: the keys returned increase, and when the scan is over each record in the
  range that was live all along was returned once, as long as no record length wraps and page
  ids last;
* `scan_interleaved_breaks`: an insert whose length wraps, and a record that is not returned.
-/
namespace DbInternals.Index

open Storage SlottedPage Routing

/-! ## The records ahead -/

/-- What is to come: the live slots of the page from a position on, and the leaves behind it. -/
def ahead (s : TreeState) (data : Mem) (pos : Nat) (rest : List Nat) : List Bytes :=
  liveRecordsOf ((entries data).drop pos) ++ rest.flatMap fun q => recordSeq (s.page q)

/-- A copy of a leaf, and the tail of the chain it leads to. -/
structure Image (t : TreeConfig) (chain : List Nat) (keys : Nat → Set Rank) (y : Rank)
    (it : BPlusTreeIterator) (rest : List Nat) : Prop where
  leaf : OrderedLeaf t it.data
  strict : (recordSeq it.data).Pairwise fun b c => keyValue t b < keyValue t c
  right : getRightSibling it.data = nextOf rest
  suffix : rest <:+ chain
  below : ∀ b ∈ recordSeq it.data, ∀ q ∈ rest, ∀ k ∈ keys q, keyValue t b < k
  bound : ∃ below, it.end_.Cuts (Key.Reads t.keyTypeId) below (· ≤ y)

section
variable {t : TreeConfig} {s s' : TreeState} {T T' : Tree} {chain chain' pre rest rest' : List Nat}
  {keys keys' : Nat → Set Rank} {p q i pos fuel : Nat} {es : List Entry} {b : Bytes} {data : Mem}
  {x y : Rank} {it it' : BPlusTreeIterator} {gone : Set Bytes}

theorem liveFrom_keyedSlots :
    liveFrom (keyedSlots t es) pos = (liveRecordsOf (es.drop pos)).map fun b => (keyValue t b, b) := by
  rw [liveFrom, keyedSlots, ← List.map_drop, List.filterMap_map, liveRecordsOf, List.map_filterMap]
  apply List.filterMap_congr
  intro e _
  cases e <;> rfl

theorem liveRecordsOf_drop_sublist :
    (liveRecordsOf ((entries data).drop pos)).Sublist (liveRecordsOf (entries data)) :=
  (List.drop_sublist pos _).filterMap _

namespace Image

theorem readsSlots (h : Image t chain keys y it rest) :
    ReadsSlots t (Key.Reads t.keyTypeId) it.data (keyedSlots t (entries it.data)) := h.leaf.readsSlots

theorem sorted (h : Image t chain keys y it rest) :
    (liveFrom (keyedSlots t (entries it.data)) 0).Pairwise fun a b => a.1 < b.1 := by
  have hs := h.strict
  rw [recordSeq_eq h.leaf.valid.layout] at hs
  rw [liveFrom_keyedSlots, List.drop_zero]
  exact List.pairwise_map.mpr hs

theorem mem_recordSeq (h : Image t chain keys y it rest)
    (hb : b ∈ liveRecordsOf ((entries it.data).drop pos)) : b ∈ recordSeq it.data := by
  rw [recordSeq_eq h.leaf.valid.layout]
  exact liveRecordsOf_drop_sublist.subset hb

/-- Behind the key of a slot are the later ones. -/
theorem position_next (h : Image t chain keys y it rest) {r : Rank × Bytes}
    (hi : (keyedSlots t (entries it.data))[i]? = some (some r)) :
    ∃ pos, position t { it with lastKey := some (keySpan t it.data i) } = .ok pos ∧
      liveFrom (keyedSlots t (entries it.data)) pos =
        liveFrom (keyedSlots t (entries it.data)) (i + 1) := by
  have hslots := h.readsSlots
  have hkey : (keyIn t it.data (keySpan t it.data i)).Reads t.keyTypeId r.1 := by
    rw [keyIn_keySpan (hslots.slotLive.mpr ⟨r.1, r.2, hi⟩)]
    exact (hslots.live i r.1 r.2 hi).2.2
  obtain ⟨pos, hpos, hsep⟩ :=
    seekFirstAfter_bounds ((keyOrder_reads _).cuts hkey) hslots h.leaf.slotsSorted
  exact ⟨pos, hpos, liveFrom_upper h.sorted hi hsep⟩

end Image

/-- The first record ahead is returned, and the others stay ahead. -/
structure Returned (t : TreeConfig) (s : TreeState) (y : Rank) (it : BPlusTreeIterator) (pos : Nat)
    (rest : List Nat) (b : Bytes) (it' : BPlusTreeIterator) (rest' : List Nat) : Prop where
  le : keyValue t b ≤ y
  mem : b ∈ recordSeq it'.data
  ahead : ∃ pos', position t it' = .ok pos' ∧
    Index.ahead s it.data pos rest = b :: Index.ahead s it'.data pos' rest'

/-- Whatever is ahead is past the range, and so is what may come in the tail of the chain. -/
structure Stopped (t : TreeConfig) (s : TreeState) (keys : Nat → Set Rank) (y : Rank)
    (it : BPlusTreeIterator) (pos : Nat) (rest : List Nat) (it' : BPlusTreeIterator)
    (rest' : List Nat) : Prop where
  ahead : ∀ b ∈ Index.ahead s it.data pos rest, y < keyValue t b
  tail : ∀ q ∈ rest', ∀ k ∈ keys q, y < k
  image : it' = it ∨ ∀ b ∈ recordSeq it'.data, y < keyValue t b

/-- What a call of `Next` may do. -/
def Outcome (t : TreeConfig) (s : TreeState) (keys : Nat → Set Rank) (y : Rank)
    (it : BPlusTreeIterator) (pos : Nat) (rest : List Nat) (a : Option Bytes)
    (it' : BPlusTreeIterator) (rest' : List Nat) : Prop :=
  match a with
  | some b => Returned t s y it pos rest b it' rest'
  | none => Stopped t s keys y it pos rest it' rest'

/-- The leaves of a chain are pages with an id. -/
theorem LeafFile.length_le (h : LeafFile t s T chain keys) : chain.length ≤ nextId s := by
  have hsub : chain ⊆ List.range (nextId s) := by
    intro p hp
    obtain ⟨es, left, right, hes, -⟩ := h.leaf hp
    exact List.mem_range.mpr (h.holds.node p _ hes).1.1
  have hlen := h.nodup.length_le_of_subset hsub
  rwa [List.length_range] at hlen

/-- A leaf of the chain, read. -/
theorem LeafFile.image (h : LeafFile t s T chain keys) (it : BPlusTreeIterator)
    (hy : ∃ below, it.end_.Cuts (Key.Reads t.keyTypeId) below (· ≤ y)) (hs : (q :: rest) <:+ chain) :
    Image t chain keys y { it with pageId := q, data := s.page q } rest := by
  obtain ⟨pre, rfl⟩ := hs
  obtain ⟨hleaf, hk, hright⟩ := h.page
  obtain ⟨-, hcons, -⟩ := List.pairwise_append.mp h.apart
  refine ⟨hleaf, hk.strict, hright, ⟨pre ++ [q], by simp⟩, ?_, hy⟩
  intro b hb q' hq' k hk'
  exact (List.pairwise_cons.mp hcons).1 q' hq' _ (hk.inside b hb) k hk'

theorem LeafFile.keyed (h : LeafFile t s T chain keys) (hq : q ∈ chain) :
    KeyedRecords t (recordSeq (s.page q)) (keys q) := by
  obtain ⟨es, left, right, hes, hn⟩ := h.leaf hq
  rw [hn.recordSeq]
  exact h.records q hq es left right hes

/-- What is ahead comes in the order of the keys. -/
theorem ahead_sorted (h : LeafFile t s T chain keys) (him : Image t chain keys y it rest) (pos : Nat) :
    (ahead s it.data pos rest).Pairwise fun b c => keyValue t b < keyValue t c := by
  have hmem := him.suffix.subset
  refine List.pairwise_append.mpr ⟨?_, List.pairwise_flatMap.mpr ⟨?_, ?_⟩, ?_⟩
  · have hs := him.strict
    rw [recordSeq_eq him.leaf.valid.layout] at hs
    exact hs.sublist liveRecordsOf_drop_sublist
  · intro q hq
    exact (h.keyed (hmem hq)).strict
  · apply (h.apart.sublist him.suffix.sublist).imp_of_mem
    intro q q' hq hq' hlt b hb c hc
    exact hlt _ ((h.keyed (hmem hq)).inside b hb) _ ((h.keyed (hmem hq')).inside c hc)
  · intro b hb c hc
    obtain ⟨q, hq, hc⟩ := List.mem_flatMap.mp hc
    exact him.below b (him.mem_recordSeq hb) q hq _ ((h.keyed (hmem hq)).inside c hc)

/-- A live slot of the page ends the walk. -/
theorem walk_image (h : LeafFile t s T chain keys) (him : Image t chain keys y it rest) {bs : List Bytes}
    (hl : liveRecordsOf ((entries it.data).drop pos) = b :: bs) (fuel : Nat) :
    ∃ a it', Ends (walk t (fuel + 1) pos it) s (a, it') s ∧ Image t chain keys y it' rest ∧
      Outcome t s keys y it pos rest a it' rest := by
  have hfrom : liveFrom (keyedSlots t (entries it.data)) pos =
      (keyValue t b, b) :: bs.map fun c => (keyValue t c, c) := by
    rw [liveFrom_keyedSlots, hl, List.map_cons]
  have hb : b ∈ recordSeq it.data := him.mem_recordSeq (hl ▸ List.mem_cons_self)
  obtain ⟨below, hcut⟩ := him.bound
  obtain ⟨i, hi, hrest, e⟩ := walk_here hcut him.readsSlots hfrom fuel s
  by_cases hy : keyValue t b ≤ y
  · rw [if_pos hy] at e
    obtain ⟨pos', hpos', hfrom'⟩ := him.position_next hi
    refine ⟨_, _, e, ⟨him.leaf, him.strict, him.right, him.suffix, him.below, him.bound⟩,
      hy, hb, pos', hpos', ?_⟩
    have hbs : liveRecordsOf ((entries it.data).drop pos') = bs := by
      rw [← hrest, liveFrom_keyedSlots] at hfrom'
      have hmap := congrArg (List.map Prod.snd) hfrom'
      simpa [Function.comp_def] using hmap
    rw [ahead, ahead, hl, hbs, List.cons_append]
  · rw [if_neg hy] at e
    have hlt : y < keyValue t b := not_le.mp hy
    have hcons : ahead s it.data pos rest =
        b :: (bs ++ rest.flatMap fun q => recordSeq (s.page q)) := by
      rw [ahead, hl, List.cons_append]
    have hsorted := ahead_sorted h him pos
    rw [hcons] at hsorted
    refine ⟨_, _, e, him, ⟨?_, ?_, .inl rfl⟩⟩
    · rw [hcons]
      intro c hc
      rcases List.mem_cons.mp hc with rfl | hc
      · exact hlt
      · exact hlt.trans ((List.pairwise_cons.mp hsorted).1 c hc)
    · intro q hq k hk
      exact hlt.trans (him.below b hb q hq k hk)

/-- A page passed on the way had nothing ahead. -/
theorem Outcome.cross {itq : BPlusTreeIterator} {restq : List Nat} {a : Option Bytes}
    (h : Outcome t s keys y itq 0 restq a it' rest')
    (hahead : ahead s it.data pos rest = ahead s itq.data 0 restq) (hv : Valid itq.data) :
    Outcome t s keys y it pos rest a it' rest' := by
  cases a with
  | some b =>
    obtain ⟨hle, hmem, pos', hpos', hrest⟩ := h
    exact ⟨hle, hmem, pos', hpos', hahead.trans hrest⟩
  | none =>
    obtain ⟨hpast, htail, himage⟩ := h
    refine ⟨by rwa [hahead], htail, .inr ?_⟩
    rcases himage with rfl | himage
    · -- what is on the page is ahead of its first slot
      intro b hb
      rw [recordSeq_eq hv.layout] at hb
      refine hpast b (List.mem_append_left _ ?_)
      rwa [List.drop_zero]
    · exact himage

/-- Otherwise it goes on with the tail of the chain. -/
theorem walk_ahead (h : LeafFile t s T chain keys) (him : Image t chain keys y it rest)
    (pos fuel : Nat) (hfuel : rest.length < fuel) : ∃ a it' rest', Ends (walk t fuel pos it) s (a, it') s ∧
      Image t chain keys y it' rest' ∧ Outcome t s keys y it pos rest a it' rest' := by
  induction rest generalizing it pos fuel with
  | nil =>
    obtain ⟨fuel, rfl⟩ := Nat.exists_eq_add_one.mpr (Nat.zero_lt_of_lt hfuel)
    cases hl : liveRecordsOf ((entries it.data).drop pos) with
    | cons b bs =>
      obtain ⟨a, it', e, him', hout⟩ := walk_image h him hl fuel
      exact ⟨a, it', [], e, him', hout⟩
    | nil =>
      have hfrom : liveFrom (keyedSlots t (entries it.data)) pos = [] := by
        rw [liveFrom_keyedSlots, hl, List.map_nil]
      refine ⟨none, it, [], ?_, him, ?_, by simp, .inl rfl⟩
      · have hright : getRightSibling it.data = INVALID_PAGE_ID := him.right
        rw [walk_cross him.readsSlots hfrom, if_pos hright]
        exact .pure _ _
      · rw [ahead, hl]
        simp
  | cons q rest ih =>
    obtain ⟨fuel, rfl⟩ := Nat.exists_eq_add_one.mpr (Nat.zero_lt_of_lt hfuel)
    cases hl : liveRecordsOf ((entries it.data).drop pos) with
    | cons b bs =>
      obtain ⟨a, it', e, him', hout⟩ := walk_image h him hl fuel
      exact ⟨a, it', q :: rest, e, him', hout⟩
    | nil =>
      have hfrom : liveFrom (keyedSlots t (entries it.data)) pos = [] := by
        rw [liveFrom_keyedSlots, hl, List.map_nil]
      have hq : q ∈ chain := him.suffix.subset List.mem_cons_self
      have himq := h.image it him.bound him.suffix
      simp only [List.length_cons] at hfuel
      obtain ⟨a, it', rest', e, him', hout⟩ := ih himq 0 fuel (by omega)
      have hahead : ahead s it.data pos (q :: rest) = ahead s (s.page q) 0 rest := by
        rw [ahead, ahead, hl, List.drop_zero, ← recordSeq_eq himq.leaf.valid.layout]
        rfl
      refine ⟨a, it', rest', ?_, him', ?_⟩
      · have hright : getRightSibling it.data = q := him.right
        rw [walk_cross him.readsSlots hfrom, hright, if_neg (h.ne_invalid hq)]
        exact (h.read hq).bind e
      · exact hout.cross hahead himq.leaf.valid

/-- A call of `Next`. -/
theorem next_ahead (h : LeafFile t s T chain keys) (him : Image t chain keys y it rest)
    (hpos : position t it = .ok pos) : ∃ a it' rest', Ends (next t it) s (a, it') s ∧
      Image t chain keys y it' rest' ∧ Outcome t s keys y it pos rest a it' rest' := by
  have hlen := (him.suffix.length_le).trans h.length_le
  obtain ⟨a, it', rest', e, h'⟩ := walk_ahead h him pos (nextId s + 2) (by omega)
  exact ⟨a, it', rest', next_ends hpos e, h'⟩

theorem position_of_next {a : Option Bytes × BPlusTreeIterator} (h : Ends (next t it) s a s') :
    ∃ pos, position t it = .ok pos := by
  obtain ⟨pos, s₁, e, -⟩ := Ends.bind_iff.mp h
  exact ⟨pos, (ends_buf_iff.mp e).1⟩

theorem mem_ahead (h : LeafFile t s T chain keys) (hs : rest <:+ chain)
    (hb : b ∈ ahead s data pos rest) : b ∈ liveRecordsOf ((entries data).drop pos) ∨
      ∃ q ∈ rest, keyValue t b ∈ keys q := by
  apply (List.mem_append.mp hb).imp_right
  intro hb
  obtain ⟨q, hq, hb⟩ := List.mem_flatMap.mp hb
  exact ⟨q, hq, (h.keyed (hs.subset hq)).inside b hb⟩

/-- After a mutation the copy leads to a tail of the new chain, without new keys. -/
theorem Image.keeps (h : Image t chain keys y it rest) (hk : Keeps s s' chain chain' keys keys' gone) :
    ∃ rest', Image t chain' keys' y it rest' ∧ (∀ q' ∈ rest', ∀ k ∈ keys' q', ∃ q ∈ rest, k ∈ keys q) ∧
      ∀ pos, ∀ b ∈ ahead s it.data pos rest, b ∉ gone → b ∈ ahead s' it.data pos rest' := by
  obtain ⟨rest', hs, hnext, hkeys, hrecords⟩ := hk rest h.suffix
  refine ⟨rest', ⟨h.leaf, h.strict, h.right.trans hnext.symm, hs, ?_, h.bound⟩, hkeys, ?_⟩
  · intro b hb q' hq' k hk'
    obtain ⟨q, hq, hkq⟩ := hkeys q' hq' k hk'
    exact h.below b hb q hq k hkq
  · intro pos b hb hg
    rcases List.mem_append.mp hb with hb | hb
    · exact List.mem_append_left _ hb
    · obtain ⟨q, hq, hb⟩ := List.mem_flatMap.mp hb
      obtain ⟨q', hq', hb'⟩ := hrecords q hq b hb hg
      exact List.mem_append_right _ (List.mem_flatMap.mpr ⟨q', hq', hb'⟩)

end

/-! ## Runs -/

inductive ScanOp where
  | insert (p : Nat) (r : Bytes)
  | delete (p slot : Nat)
  | split (p : Nat)
  | next

/-- The file with the chain of its leaves and the interval of each, the iterator, the records that
were live from the scan call on, up to the end of the scan, and those that were returned. -/
structure ScanWorld where
  state : TreeState
  chain : List Nat
  keys : Nat → Set Rank
  it : BPlusTreeIterator
  kept : Set Bytes
  emitted : List Bytes
  exhausted : Bool

/-- A mutation of a leaf of the chain, or a call of `Next`. The key of an insert is of the interval
of its leaf and new there; a split parts the interval at the key it returns. -/
inductive ScanStep (t : TreeConfig) (w : ScanWorld) : ScanOp → ScanWorld → Prop
  | insert {p : Nat} {r : Bytes} {pos : Option Nat} {s' : TreeState} (hp : p ∈ w.chain)
    (hr : HoldsKey t r) (hlen : r.length < 2 ^ 16) (hK : keyValue t r ∈ w.keys p)
    (hnew : ∀ b ∈ recordSeq (w.state.page p), keyValue t b ≠ keyValue t r)
    (e : Ends (insertAt t p r) w.state pos s') : ScanStep t w (.insert p r) { w with state := s' }
  | delete {p slot : Nat} {ret : Bool} {s' : TreeState} (hp : p ∈ w.chain)
    (e : Ends (deleteAt p slot) w.state ret s') : ScanStep t w (.delete p slot)
      { w with state := s', kept :=
        {b ∈ w.kept | w.exhausted = true ∨ recordBytes (w.state.page p) slot ≠ some b} }
  | split {p f : Nat} {pre post : List Nat} {key : Key} {x : Rank} {s' : TreeState}
    (hp : w.chain = pre ++ p :: post) (e : Ends (splitLeaf t p) w.state (key, f) s')
    (hx : key.Reads t.keyTypeId x) : ScanStep t w (.split p)
      { w with state := s', chain := pre ++ p :: f :: post, keys := splitKeys w.keys p f x }
  | next {a : Option Bytes} {it' : BPlusTreeIterator} {s' : TreeState}
    (e : Ends (next t w.it) w.state (a, it') s') : ScanStep t w .next
      { w with state := s', it := it', emitted := w.emitted ++ a.toList,
               exhausted := w.exhausted || a.isNone }

/-- The length of an inserted record does not wrap, and a split takes a page id below `2 ^ 20`. -/
def ScanFits (w : ScanWorld) : ScanOp → Prop
  | .insert p r => ¬ LengthWraps (w.state.page p) r.length
  | .split _ => w.state.diskManager.globalMetadata.freelistHead = INVALID_PAGE_ID →
      nextId w.state < MAX_PAGES
  | _ => True

/-- Runs from a world, of steps that meet `ok`. -/
def scanRuns (t : TreeConfig) (ok : ScanWorld → ScanOp → Prop) (w₀ : ScanWorld) :
    LTS ScanWorld ScanOp where
  init w := w = w₀
  step w op w' := ScanStep t w op w' ∧ ok w op

/-- The scan call has returned. -/
def scanStart (s : TreeState) (chain : List Nat) (keys : Nat → Set Rank) (it : BPlusTreeIterator) :
    ScanWorld where
  state := s
  chain := chain
  keys := keys
  it := it
  kept := {b | ∃ p ∈ chain, b ∈ recordSeq (s.page p)}
  emitted := []
  exhausted := false

/-! ## What every run keeps -/

/-- Before the end: all keys ahead are behind those returned, and no record that was live all along
was passed over. -/
structure Scanning (t : TreeConfig) (x : Rank) (w : ScanWorld) (rest : List Nat) (pos : Nat) : Prop where
  position : Index.position t w.it = .ok pos
  page : ∀ b ∈ w.emitted, ∀ c ∈ liveRecordsOf ((entries w.it.data).drop pos),
    keyValue t b < keyValue t c
  tail : ∀ b ∈ w.emitted, ∀ q ∈ rest, ∀ k ∈ w.keys q, keyValue t b < k
  kept : ∀ b ∈ w.kept, x ≤ keyValue t b → b ∈ w.emitted ∨ b ∈ ahead w.state w.it.data pos rest

/-- After the end: wherever a further call starts, it is past the range. -/
structure Finished (t : TreeConfig) (x y : Rank) (w : ScanWorld) (rest : List Nat) : Prop where
  page : ∀ pos, position t w.it = .ok pos → ∀ c ∈ liveRecordsOf ((entries w.it.data).drop pos),
    y < keyValue t c
  tail : ∀ q ∈ rest, ∀ k ∈ w.keys q, y < k
  kept : ∀ b ∈ w.kept, x ≤ keyValue t b → keyValue t b ≤ y → b ∈ w.emitted

structure ScanInv (t : TreeConfig) (x y : Rank) (w : ScanWorld) (rest : List Nat) : Prop where
  file : ∃ T, LeafFile t w.state T w.chain w.keys
  image : Image t w.chain w.keys y w.it rest
  increasing : w.emitted.Pairwise fun b c => keyValue t b < keyValue t c
  scanning : w.exhausted = false → ∃ pos, Scanning t x w rest pos
  finished : w.exhausted = true → Finished t x y w rest

section
variable {t : TreeConfig} {s' : TreeState} {T T' : Tree} {chain' rest rest' : List Nat}
  {keys' : Nat → Set Rank} {pos : Nat} {b : Bytes} {x y : Rank} {it' : BPlusTreeIterator}
  {gone kept' : Set Bytes} {w w' : ScanWorld} {op : ScanOp} {a : Option Bytes}

theorem ScanInv.mutate (h : ScanInv t x y w rest) (hT : LeafFile t s' T' chain' keys')
    (hk : Keeps w.state s' w.chain chain' w.keys keys' gone)
    (hkept : ∀ b ∈ kept', b ∈ w.kept ∧ (w.exhausted = false → b ∉ gone)) :
    ∃ rest', ScanInv t x y { w with state := s', chain := chain', keys := keys', kept := kept' }
      rest' := by
  cases hex : w.exhausted with
  | false =>
    obtain ⟨pos, hscan⟩ := h.scanning hex
    obtain ⟨rest', him, hkeys, hahead⟩ := h.image.keeps hk
    refine ⟨rest', ⟨T', hT⟩, him, h.increasing, fun _ => ⟨pos, hscan.position, hscan.page, ?_, ?_⟩, ?_⟩
    · intro b hb q' hq' k hk'
      obtain ⟨q, hq, hkq⟩ := hkeys q' hq' k hk'
      exact hscan.tail b hb q hq k hkq
    · intro b hb hx
      obtain ⟨hb, hgone⟩ := hkept b hb
      exact (hscan.kept b hb hx).imp_right fun hb => hahead pos b hb (hgone hex)
    · intro hc
      cases hc
  | true =>
    have hfin := h.finished hex
    obtain ⟨rest', him, hkeys, -⟩ := h.image.keeps hk
    refine ⟨rest', ⟨T', hT⟩, him, h.increasing, ?_, fun _ => ⟨hfin.page, ?_, ?_⟩⟩
    · intro hc
      cases hc
    · intro q' hq' k hk'
      obtain ⟨q, hq, hkq⟩ := hkeys q' hq' k hk'
      exact hfin.tail q hq k hkq
    · intro b hb
      exact hfin.kept b (hkept b hb).1

theorem ScanInv.scanning_at (h : ScanInv t x y w rest) (hex : w.exhausted = false)
    (hpos : position t w.it = .ok pos) : Scanning t x w rest pos := by
  obtain ⟨pos', hscan⟩ := h.scanning hex
  have hpos' := hscan.position
  rw [hpos] at hpos'
  cases hpos'
  exact hscan

/-- A record is returned: the ones ahead of the cursor move behind it one by one. -/
theorem ScanInv.returned (h : ScanInv t x y w rest) (hex : w.exhausted = false)
    (hscan : Scanning t x w rest pos) (him : Image t w.chain w.keys y it' rest')
    (hret : Returned t w.state y w.it pos rest b it' rest') :
    ScanInv t x y { w with it := it', emitted := w.emitted ++ [b] } rest' := by
  obtain ⟨T, hT⟩ := h.file
  obtain ⟨-, hmem, pos', hpos', hahead⟩ := hret
  have hb : b ∈ ahead w.state w.it.data pos rest := hahead ▸ List.mem_cons_self
  have hbehind : ∀ c ∈ w.emitted, keyValue t c < keyValue t b := by
    intro c hc
    rcases mem_ahead hT h.image.suffix hb with hb | ⟨q, hq, hb⟩
    · exact hscan.page c hc b hb
    · exact hscan.tail c hc q hq _ hb
  have hsorted := ahead_sorted hT h.image pos
  rw [hahead] at hsorted
  have hfirst : ∀ c ∈ ahead w.state it'.data pos' rest', keyValue t b < keyValue t c :=
    (List.pairwise_cons.mp hsorted).1
  refine ⟨⟨T, hT⟩, him, ?_, fun _ => ⟨pos', hpos', ?_, ?_, ?_⟩, ?_⟩
  · refine List.pairwise_append.mpr ⟨h.increasing, List.pairwise_singleton _ _, ?_⟩
    intro c hc c' hc'
    cases List.mem_singleton.mp hc'
    exact hbehind c hc
  · intro c hc d hd
    have hbd := hfirst d (List.mem_append_left _ hd)
    rcases List.mem_append.mp hc with hc | hc
    · exact (hbehind c hc).trans hbd
    · cases List.mem_singleton.mp hc
      exact hbd
  · intro c hc q hq k hk
    have hbk := him.below b hmem q hq k hk
    rcases List.mem_append.mp hc with hc | hc
    · exact (hbehind c hc).trans hbk
    · cases List.mem_singleton.mp hc
      exact hbk
  · intro c hc hx
    rcases hscan.kept c hc hx with hc | hc
    · exact .inl (List.mem_append_left _ hc)
    · rw [hahead] at hc
      rcases List.mem_cons.mp hc with rfl | hc
      · exact .inl (List.mem_append_right _ List.mem_cons_self)
      · exact .inr hc
  · intro hc
    cases hex.symm.trans hc

/-- The end: what is ahead is past the range, and stays there. -/
theorem ScanInv.stopped (h : ScanInv t x y w rest) (him : Image t w.chain w.keys y it' rest')
    (hstop : Stopped t w.state w.keys y w.it pos rest it' rest') (hpos : position t w.it = .ok pos)
    (hkept : ∀ b ∈ w.kept, x ≤ keyValue t b → keyValue t b ≤ y → b ∈ w.emitted) :
    ScanInv t x y { w with it := it', exhausted := true } rest' := by
  obtain ⟨hpast, htail, himage⟩ := hstop
  refine ⟨h.file, him, h.increasing, ?_, fun _ => ⟨?_, htail, hkept⟩⟩
  · intro hc
    cases hc
  · intro pos' hpos' c hc
    rcases himage with rfl | himage
    · change position t w.it = .ok pos' at hpos'
      rw [hpos] at hpos'
      cases hpos'
      exact hpast c (List.mem_append_left _ hc)
    · exact himage c (him.mem_recordSeq hc)

/-- A call of `Next`, before and after the end. -/
theorem ScanInv.next (h : ScanInv t x y w rest) (e : Ends (Index.next t w.it) w.state (a, it') s') :
    ∃ rest', ScanInv t x y { w with state := s', it := it', emitted := w.emitted ++ a.toList,
                                    exhausted := w.exhausted || a.isNone } rest' := by
  obtain ⟨T, hT⟩ := h.file
  obtain ⟨pos, hpos⟩ := position_of_next e
  obtain ⟨a', it'', rest', e', him, hout⟩ := next_ahead hT h.image hpos
  obtain ⟨he, rfl⟩ := Ends.unique e e'
  cases he
  refine ⟨rest', ?_⟩
  cases a with
  | some b =>
    cases hex : w.exhausted with
    | false =>
      have h' := h.returned hex (h.scanning_at hex hpos) him hout
      rw [hex] at h'
      exact h'
    | true =>
      -- nothing in the range is ahead
      have hfin := h.finished hex
      obtain ⟨hle, -, pos', -, hahead⟩ := hout
      have hb : b ∈ ahead w.state w.it.data pos rest := hahead ▸ List.mem_cons_self
      rcases mem_ahead hT h.image.suffix hb with hb | ⟨q, hq, hb⟩
      · exact absurd hle (not_le.mpr (hfin.page pos hpos b hb))
      · exact absurd hle (not_le.mpr (hfin.tail q hq _ hb))
  | none =>
    have hkept : ∀ b ∈ w.kept, x ≤ keyValue t b → keyValue t b ≤ y → b ∈ w.emitted := by
      intro b hb hx hy
      cases hex : w.exhausted with
      | false =>
        rcases (h.scanning_at hex hpos).kept b hb hx with hb | hb
        · exact hb
        · exact absurd hy (not_le.mpr (hout.ahead b hb))
      | true => exact (h.finished hex).kept b hb hx hy
    have h' := h.stopped him hout hpos hkept
    simpa using h'

/-- Every step keeps the invariant, if its record or its page id fits. -/
theorem ScanInv.step (h : ScanInv t x y w rest) (hs : ScanStep t w op w') (hfits : ScanFits w op) :
    ∃ rest', ScanInv t x y w' rest' := by
  obtain ⟨T, hT⟩ := h.file
  cases hs with
  | insert hp hr hlen hK hnew e =>
    obtain ⟨T', hT', hk⟩ := hT.insert hp hr hK hnew hlen hfits e
    exact h.mutate hT' hk fun b hb => ⟨hb, fun _ => Set.notMem_empty b⟩
  | delete hp e =>
    obtain ⟨T', hT', hk⟩ := hT.delete hp e
    refine h.mutate hT' hk fun b hb => ⟨hb.1, fun hex hgone => ?_⟩
    rcases hb.2 with hc | hc
    · cases hex.symm.trans hc
    · exact hc hgone
  | split hp e hx =>
    rw [hp] at hT
    obtain ⟨T', hT', hk⟩ := hT.split hfits e hx
    rw [← hp] at hk
    exact h.mutate hT' hk fun b hb => ⟨hb, fun _ => Set.notMem_empty b⟩
  | next e => exact h.next e

end

/-! ## The whole scan -/

/-- A leaf of the chain, and the keys that are led to it. -/
def OfChain (chain : List Nat) (keys : Nat → Set Rank) (p : Nat) (J : Set Rank) : Prop :=
  p ∈ chain ∧ J = keys p

/-- A search tree on disk whose leaves are a chain in the order of their keys. -/
structure ScanFile (t : TreeConfig) (s : TreeState) (kids : Nat → Option (List (Rank × Nat)))
    (chain : List Nat) (keys : Nat → Set Rank) : Prop where
  leaves : ∃ T, LeafFile t s T chain keys
  pages : TreePages t (Key.Reads t.keyTypeId) s kids (OfChain chain keys)
  tree : IsTree kids (OfChain chain keys) s.rootPageId Set.univ

/-- The keys returned increase; a scan that is over has returned each record of the range that was
live all along once; before that, a call of `Next` ends. -/
structure ScansOnce (t : TreeConfig) (a e : Value) (w : ScanWorld) : Prop where
  increasing : w.emitted.Pairwise fun b c => keyValue t b < keyValue t c
  once : w.exhausted = true → ∀ b ∈ w.kept, a ≤ recordValue t b → recordValue t b ≤ e →
    w.emitted.count b = 1
  ends : w.exhausted = false → ∃ a, Ends (next t w.it) w.state a w.state

section
variable {t : TreeConfig} {s : TreeState} {kids : Nat → Option (List (Rank × Nat))}
  {chain rest : List Nat} {keys : Nat → Set Rank} {a e : Value} {start end_ : Key} {w : ScanWorld}
  {w₀ : ScanWorld} {ops : List ScanOp}

/-- The scan starts at the leaf that the first key is led to. -/
theorem ScanFile.starts (h : ScanFile t s kids chain keys) (hst : start.typeId = t.keyTypeId)
    (ha : start.toValue = .ok a) (het : end_.typeId = t.keyTypeId) (he : end_.toValue = .ok e) :
    ∃ q pos rest, q ∈ chain ∧ a.place ∈ keys q ∧
      Ends (scan t start end_) s ⟨q, pos, none, end_, s.page q⟩ s ∧
      ScanInv t a.place e.place (scanStart s chain keys ⟨q, pos, none, end_, s.page q⟩) rest := by
  obtain ⟨T, hT⟩ := h.leaves
  obtain ⟨path, q, J, hbelow, -, ⟨hq, rfl⟩, hxq⟩ := h.tree.exists_leaf (Set.mem_univ a.place)
  obtain ⟨pre, rest, rfl⟩ := List.append_of_mem hq
  obtain ⟨hleaf, hk, -⟩ := hT.page
  have hcut := Key.cuts_place hst ha
  obtain ⟨pos, hpos, hsep⟩ := leafSlot_bounds hcut hleaf.readsSlots hleaf.slotsSorted
  have hfind := findRecord_routed hcut h.pages h.tree hbelow hxq hleaf.type hpos
  have himage := hT.image ⟨q, pos, none, end_, s.page q⟩ ⟨_, Key.cuts_place het he⟩
    (List.suffix_append pre _)
  refine ⟨q, pos, rest, hq, hxq, hfind.bind ((hT.read hq).bind (.pure _ _)), ⟨T, hT⟩, himage,
    List.Pairwise.nil, fun _ => ⟨pos, rfl, by simp [scanStart], by simp [scanStart], ?_⟩, ?_⟩
  · rintro b ⟨p, hp, hb⟩ hxb
    refine .inr ?_
    rcases List.mem_append.mp hp with hp | hp
    · -- a leaf before has smaller keys
      have hlt := (List.pairwise_append.mp hT.apart).2.2 p hp q List.mem_cons_self
      have hbp := (hT.keyed (List.mem_append_left _ hp)).inside b hb
      exact absurd hxb (not_le.mpr (hlt _ hbp _ hxq))
    rcases List.mem_cons.mp hp with rfl | hp
    · apply List.mem_append_left _
      rw [recordSeq_eq hleaf.valid.layout] at hb
      obtain ⟨i, hi⟩ := List.getElem?_of_mem (mem_liveRecordsOf.mp hb)
      have hle : pos ≤ i := by
        by_contra hlt
        have hbx := (hsep i _ b (getElem?_keyedSlots.mpr ⟨hi, rfl⟩)).mpr (Nat.lt_of_not_le hlt)
        exact absurd hxb (not_le.mpr hbx.lt_place)
      refine mem_liveRecordsOf.mpr (List.mem_of_getElem? (i := i - pos) ?_)
      rw [List.getElem?_drop, Nat.add_sub_cancel' hle]
      exact hi
    · exact List.mem_append_right _ (List.mem_flatMap.mpr ⟨p, hp, hb⟩)
  · intro hc
    cases hc

theorem ScanInv.scansOnce (h : ScanInv t a.place e.place w rest) : ScansOnce t a e w := by
  refine ⟨h.increasing, ?_, ?_⟩
  · intro hex b hb hab hbe
    have hnodup : w.emitted.Nodup := h.increasing.imp fun hlt e => by
      rw [e] at hlt
      exact lt_irrefl _ hlt
    exact List.count_eq_one_of_mem hnodup
      ((h.finished hex).kept b hb (place_le_keyValue hab) (keyValue_le_place hbe))
  · intro hex
    obtain ⟨T, hT⟩ := h.file
    obtain ⟨pos, hscan⟩ := h.scanning hex
    obtain ⟨b, it', rest', hnext, -⟩ := next_ahead hT h.image hscan.position
    exact ⟨_, hnext⟩

/-- Any interleaving of calls of `Next` with inserts, removals and splits of leaves, whose record
lengths do not wrap and whose page ids last, leaves the scan in order and misses no record. -/
theorem scan_interleaved (h : ScanFile t s kids chain keys) (hst : start.typeId = t.keyTypeId)
    (ha : start.toValue = .ok a) (het : end_.typeId = t.keyTypeId) (he : end_.toValue = .ok e) :
    ∃ it, Ends (scan t start end_) s it s ∧
      ∀ ops w, (scanRuns t ScanFits (scanStart s chain keys it)).Exec ops w → ScansOnce t a e w := by
  obtain ⟨q, pos, rest, -, -, hscan, h₀⟩ := h.starts hst ha het he
  refine ⟨_, hscan, fun ops w hrun => ?_⟩
  have hind : (scanRuns t ScanFits (scanStart s chain keys ⟨q, pos, none, end_, s.page q⟩)).Inductive
      fun w => ∃ rest, ScanInv t a.place e.place w rest := by
    refine ⟨?_, ?_⟩
    · rintro _ rfl
      exact ⟨rest, h₀⟩
    · rintro w op w' ⟨rest, h⟩ ⟨hs, hfits⟩
      exact h.step hs hfits
  obtain ⟨rest', h'⟩ := hind.exec hrun
  exact h'.scansOnce

end

/-! ### Two leaves -/

theorem Filled.withRecord {data : Mem} {bs : List Bytes} {b : Bytes} (h : Filled data bs) (hb : b ≠ [])
    (hroom : cost (bs.map .live) + b.length + 4 ≤ PAGE_ROOM) :
    Filled (Index.withRecord data b) (bs ++ [b]) ∧ SameMeta data (Index.withRecord data b) := by
  obtain ⟨d, r, e, hd, hm⟩ :=
    h.insertRecord (Mem.ofBytes b) b.length (List.length_pos_iff.mpr hb) hroom
  rw [Mem.slice_ofBytes] at hd
  rw [Index.withRecord, e]
  exact ⟨hd, hm⟩

/-- A record of eight bytes, its key. -/
def keyRecord (k : UInt8) : Bytes := [k, 0, 0, 0, 0, 0, 0, 0]

/-- The leaf 1 is empty, the leaf 2 has the key 5; both are below the page 3. -/
def chainPages : Nat → Mem
  | 1 => setRightSibling (init Mem.zero 1 .leafPage) 2
  | 2 => withRecord (setLeftSibling (init Mem.zero 2 .leafPage) 1) (keyRecord 5)
  | 3 => withRecord (withRecord (withRecord (withRecord (init Mem.zero 3 .internalPage) (keyRecord 0))
      (idBytes 1)) (keyRecord 5)) (idBytes 2)
  | _ => Mem.zero

def chainFile : TreeState := fileOf chainPages 4 3

def chainKids (p : Nat) : Option (List (Rank × Nat)) :=
  if p = 3 then some [(.integer 0, 1), (.integer 5, 2)] else none

def chainKeys (p : Nat) : Set Rank := if p = 1 then Set.Iio (.integer 5) else Set.Ici (.integer 5)

def chainTree : Tree where
  store p := match p with
    | 1 => some (.leaf [] INVALID_PAGE_ID 2)
    | 2 => some (.leaf [.live (keyRecord 5)] 1 INVALID_PAGE_ID)
    | _ => none
  root := 3
  free := []
  next := 4

theorem chainTree_some {p : Nat} {n : Node} (h : chainTree.store p = some n) :
    p = 1 ∧ n = .leaf [] INVALID_PAGE_ID 2 ∨
      p = 2 ∧ n = .leaf [.live (keyRecord 5)] 1 INVALID_PAGE_ID := by
  match p with
  | 0 => cases h
  | 1 =>
    cases h
    exact .inl ⟨rfl, rfl⟩
  | 2 =>
    cases h
    exact .inr ⟨rfl, rfl⟩
  | p + 3 => cases h

theorem chainFile_mapped {p : Nat} (hp : p < 4) : Mapped chainFile.diskManager p := by
  have hoff : pageOffset p = p * 4096 := by
    simp only [pageOffset, PAGE_SIZE]
    omega
  refine ⟨hp, ?_⟩
  rw [hoff]
  change p * 4096 + 4096 ≤ 4 * 4096
  omega

theorem chainFile_holds : Holds {} False chainFile chainTree where
  io := rfl
  root := rfl
  next := rfl
  next_le := by decide
  freeList := .nil
  ids := by
    refine ⟨by decide, fun p hp => ?_, List.nodup_nil, by simp [chainTree]⟩
    obtain ⟨n, hn⟩ := Option.ne_none_iff_exists'.mp hp
    obtain ⟨rfl, -⟩ | ⟨rfl, -⟩ := chainTree_some hn
    · exact ⟨by decide, by decide, by simp [chainTree]⟩
    · exact ⟨by decide, by decide, by simp [chainTree]⟩
  node p n hn := by
    obtain ⟨rfl, rfl⟩ | ⟨rfl, rfl⟩ := chainTree_some hn
    · refine ⟨chainFile_mapped (by decide), ?_⟩
      have h₀ := filled_init Mem.zero 1 .leafPage
      obtain ⟨h₁, h₂, -, h₄, h₅, h₆⟩ := setRight_spec h₀.valid (v := 2) (by decide)
      rw [chainFile, fileOf_page (by decide)]
      exact NodeAt.pageOf ⟨h₂, False.elim, h₄.trans (init_pageType ..), h₁.trans h₀.entries,
        h₅.trans (init_left ..), h₆⟩
    · refine ⟨chainFile_mapped (by decide), ?_⟩
      have h₀ := filled_init Mem.zero 2 .leafPage
      obtain ⟨h₁, h₂, h₃, h₄, h₅, h₆⟩ := setLeft_spec h₀.valid (v := 1) (by decide)
      have hf : Filled (setLeftSibling (init Mem.zero 2 .leafPage) 1) [] :=
        ⟨h₂, h₃ h₀.tight, h₁.trans h₀.entries⟩
      obtain ⟨hr, hm⟩ := hf.withRecord (b := keyRecord 5) (by decide) (by decide)
      rw [chainFile, fileOf_page (by decide)]
      exact NodeAt.pageOf ⟨hr.valid, False.elim, hm.pageType.trans (h₄.trans (init_pageType ..)),
        hr.entries, hm.left.trans h₅, hm.right.trans (h₆.trans (init_right ..))⟩

/-- The key of a record of eight bytes. -/
def numberKey (k : UInt8) : Key := recordKey {} (keyRecord k)

theorem numberKey_value : (numberKey 0).toValue = .ok (.integer 0) ∧
    (numberKey 5).toValue = .ok (.integer 5) := by decide +kernel

theorem reads_five : (recordKey {} (keyRecord 5)).Reads .numeric (.integer 5) :=
  ⟨rfl, _, numberKey_value.2, rfl⟩

theorem chainFile_leaves : LeafFile {} chainFile chainTree [1, 2] chainKeys where
  holds := chainFile_holds
  nodup := by decide
  linked := ⟨⟨_, _, rfl⟩, ⟨_, _, rfl⟩, trivial⟩
  records p hp es left right hes := by
    obtain ⟨rfl, he⟩ | ⟨rfl, he⟩ := chainTree_some hes
    · cases he
      exact ⟨by simp, List.Pairwise.nil, by simp⟩
    · cases he
      refine ⟨?_, List.pairwise_singleton _ _, ?_⟩
      · intro b hb
        cases List.mem_singleton.mp hb
        exact ⟨_, reads_five⟩
      · intro b hb
        cases List.mem_singleton.mp hb
        rw [keyValue_eq reads_five]
        exact le_refl (Rank.integer 5)
  apart := by
    apply List.pairwise_pair.mpr
    intro a ha b hb
    exact lt_of_lt_of_le (show a < .integer 5 from ha) (show .integer 5 ≤ b from hb)

theorem zero_lt_five : Rank.integer 0 < .integer 5 := by decide

/-- Below the page 3 the keys part at 5. -/
theorem chainFile_scan : ScanFile {} chainFile chainKids [1, 2] chainKeys where
  leaves := ⟨_, chainFile_leaves⟩
  pages := by
    refine ⟨rfl, fun p ks hp => ?_, fun p J hp => ?_⟩
    · unfold chainKids at hp
      split at hp
      · next h3 =>
        cases hp
        subst h3
        refine ⟨chainFile_mapped (by decide), by decide +kernel, by decide +kernel, fun i k c hi => ?_⟩
        match i with
        | 0 =>
          cases hi
          exact ⟨by decide +kernel, by decide +kernel⟩
        | 1 =>
          cases hi
          exact ⟨by decide +kernel, by decide +kernel⟩
      · cases hp
    · obtain ⟨es, left, right, hes, hn⟩ := chainFile_leaves.leaf hp.1
      exact ⟨(chainFile_holds.node p _ hes).1, hn.2.2.1⟩
  tree := by
    refine .inner (p := 3) rfl (by simp) (by simpa using zero_lt_five) fun i k c hi => ?_
    match i with
    | 0 =>
      cases hi
      refine .leaf rfl ⟨by simp, Set.ext fun x => ⟨fun hx => hx.2.2 _ rfl, fun hx => ?_⟩⟩
      refine ⟨trivial, fun h0 => absurd rfl h0, fun pr hpr => ?_⟩
      cases hpr
      exact hx
    | 1 =>
      cases hi
      refine .leaf rfl ⟨by simp, Set.ext fun x => ⟨fun hx => hx.2.1 (by decide) _ rfl, fun hx => ?_⟩⟩
      refine ⟨trivial, fun _ pr hpr => ?_, fun pr hpr => ?_⟩
      · cases hpr
        exact hx
      · cases hpr

/-- A scan from 0 to 5, while the leaves change. -/
theorem scan_interleaved_two : ∃ it, Ends (scan {} (numberKey 0) (numberKey 5)) chainFile it chainFile ∧
    ∀ ops w, (scanRuns {} ScanFits (scanStart chainFile [1, 2] chainKeys it)).Exec ops w →
      ScansOnce {} (.integer 0) (.integer 5) w :=
  scan_interleaved chainFile_scan rfl numberKey_value.1 rfl numberKey_value.2

/-- A record of 65532 bytes, the length of which wraps with its slot. -/
def wrapRecord : Bytes := keyRecord 6 ++ List.replicate 65524 0

/-- The leaf 2 behind its insert. -/
def wrapPage : Mem :=
  match insertRecordAt (pageOf (chainPages 2)) 1 (Mem.ofBytes wrapRecord) 65532 with
  | .ok (_, page) => page
  | .error _ => Mem.zero

theorem wrapPage_spec : getSlotCount (pageOf wrapPage) = 2 ∧ slotLive (pageOf wrapPage) 0 = true ∧
    (keyAt {} (pageOf wrapPage) 0).compare (numberKey 5) = .ok 1 := by decide +kernel

theorem wrapRecord_length : wrapRecord.length = 65532 := by
  rw [wrapRecord, List.length_append, List.length_replicate]
  rfl

theorem recordKey_wrapRecord : recordKey {} wrapRecord =
    extractKey {} (some ⟨Mem.ofBytes wrapRecord, 65532⟩) 65532 := by
  rw [recordKey, View.ofBytes, wrapRecord_length]

theorem wrapRecord_spec : (recordKey {} wrapRecord).toValue = .ok (.integer 6) ∧
    leafSlot {} (pageOf (chainPages 2)) (recordKey {} wrapRecord) = .ok 1 := by
  rw [recordKey_wrapRecord]
  decide +kernel

/-- The first key of the page is past the range. -/
theorem walk_past {t : TreeConfig} {it : BPlusTreeIterator} {c : Int} (hn : getSlotCount it.data ≠ 0)
    (hlive : slotLive it.data 0 = true) (hc : (keyAt t it.data 0).compare it.end_ = .ok c) (h0 : 0 < c)
    (fuel : Nat) (s : TreeState) : Ends (walk t (fuel + 1) 0 it) s (none, it) s := by
  obtain ⟨n, hn'⟩ := Nat.exists_eq_succ_of_ne_zero hn
  have hprobe : Search.probe (slotLive it.data) (getSlotCount it.data - 0) 0 = 0 := by
    rw [Nat.sub_zero, hn', Search.probe, if_pos hlive]
  unfold walk
  dsimp only
  rw [hprobe, if_pos (Nat.pos_of_ne_zero hn)]
  apply (ends_buf hc).bind
  rw [if_pos h0]
  exact .pure _ _

/-- The file after the insert. -/
def wrapFile : TreeState :=
  { chainFile with diskManager := chainFile.diskManager.store wrapPage (pageOffset 2) }

theorem chainFile_page {p : Nat} (hp : p < 4) : chainFile.page p = pageOf (chainPages p) :=
  fileOf_page (hp.trans (by decide))

/-- It is accepted. -/
theorem insertAt_wraps : ∃ pos, Ends (insertAt {} 2 wrapRecord) chainFile pos wrapFile := by
  have hfile : LeafFile {} chainFile chainTree ([1] ++ 2 :: []) chainKeys := chainFile_leaves
  obtain ⟨hleaf, -, -⟩ := hfile.page
  have hcount : maxSlotId (chainFile.page 2) = 1 := by
    rw [← length_entries, (chainFile_holds.nodeAt (p := 2) rfl).2.2.2.1]
    rfl
  obtain ⟨i, d, e, -⟩ : ∃ i d, insertRecordAt (chainFile.page 2) 1 (Mem.ofBytes wrapRecord) 65532 =
      .ok (some i, d) ∧ ¬ Valid d :=
    insertRecordAt_breaks _ hleaf.valid (by decide) (by decide) (Nat.zero_le _) (by rw [hcount])
  have hd : d = wrapPage := by
    rw [wrapPage, ← chainFile_page (by decide), e]
  rw [hd, ← wrapRecord_length] at e
  have hslot : leafSlot {} (chainFile.page 2) (recordKey {} wrapRecord) = .ok 1 := by
    rw [chainFile_page (by decide)]
    exact wrapRecord_spec.2
  have hw : Ends (disk (writePage 2 wrapPage)) chainFile ⟨⟩ wrapFile :=
    ends_disk (writePage_ends rfl (by decide))
  refine ⟨some i, ?_⟩
  unfold insertAt
  refine (chainFile_leaves.read (by simp)).bind ((ends_buf hslot).bind ((ends_buf e).bind ?_))
  exact hw.bind (.pure _ _)

/-- The iterator leaves the empty leaf, and takes what the insert left of the record for a key past
the range. -/
theorem next_wraps (pos : Nat) : Ends (next {} ⟨1, pos, none, numberKey 5, chainFile.page 1⟩) wrapFile
    (none, ⟨2, pos, none, numberKey 5, pageOf wrapPage⟩) wrapFile := by
  have hfile : LeafFile {} chainFile chainTree ([] ++ 1 :: [2]) chainKeys := chainFile_leaves
  obtain ⟨hleaf, -, hright⟩ := hfile.page
  have hent : entries (chainFile.page 1) = [] := by
    rw [(chainFile_holds.nodeAt (p := 1) rfl).2.2.2.1]
  have hfrom : liveFrom (keyedSlots {} (entries (chainFile.page 1))) pos = [] := by
    rw [hent, keyedSlots, List.map_nil, liveFrom, List.drop_nil, List.filterMap_nil]
  have hread : Ends (disk (readPage 2)) wrapFile (pageOf wrapPage) wrapFile := by
    have hpage : pageOf wrapPage = pageAt (chainFile.diskManager.store wrapPage (pageOffset 2)) 2 :=
      (pageAt_store rfl).symm
    rw [hpage]
    exact ends_disk (readPage_ends rfl (mapped_store (by decide)))
  have hpos : position {} ⟨1, pos, none, numberKey 5, chainFile.page 1⟩ = .ok pos := rfl
  apply next_ends hpos
  rw [walk_cross hleaf.readsSlots hfrom]
  dsimp only
  rw [hright, if_neg (by decide)]
  apply hread.bind
  obtain ⟨hcount, hlive, hkey⟩ := wrapPage_spec
  exact walk_past (by rw [hcount]; decide) hlive hkey (by decide) _ _

/-- The insert as a step of a run: its key is of the interval of the leaf, and new there. -/
theorem wrap_step (it : BPlusTreeIterator) : ScanStep {} (scanStart chainFile [1, 2] chainKeys it)
    (.insert 2 wrapRecord) { scanStart chainFile [1, 2] chainKeys it with state := wrapFile } := by
  obtain ⟨i, hi⟩ := insertAt_wraps
  have hlen := wrapRecord_length
  have hkey := wrapRecord_spec.1
  generalize wrapRecord = r at hi hlen hkey ⊢
  have hseq : recordSeq (chainFile.page 2) = [keyRecord 5] :=
    (chainFile_holds.nodeAt (p := 2) rfl).recordSeq
  have hreads : (recordKey {} r).Reads .numeric (.integer 6) :=
    ⟨extractKey_typeId (t := {}) _, _, hkey, rfl⟩
  have hsix : keyValue {} r = .integer 6 := keyValue_eq hreads
  refine .insert (by simp [scanStart]) ⟨_, hreads⟩ (by rw [hlen]; decide) ?_ ?_ hi
  · rw [hsix]
    change Rank.integer 5 ≤ .integer 6
    decide
  · intro b hb
    change b ∈ recordSeq (chainFile.page 2) at hb
    rw [hseq] at hb
    cases List.mem_singleton.mp hb
    rw [hsix, keyValue_eq reads_five]
    decide

/-- After that insert the scan ends without the key 5, which was live all along. -/
theorem scan_interleaved_breaks : ∃ it w,
    ScanFile {} chainFile chainKids [1, 2] chainKeys ∧
    (numberKey 0).toValue = .ok (.integer 0) ∧ (numberKey 5).toValue = .ok (.integer 5) ∧
    Ends (scan {} (numberKey 0) (numberKey 5)) chainFile it chainFile ∧
    (scanRuns {} (fun _ _ => True) (scanStart chainFile [1, 2] chainKeys it)).Exec
      [.insert 2 wrapRecord, .next] w ∧
    ¬ ScansOnce {} (.integer 0) (.integer 5) w := by
  obtain ⟨hx, hy⟩ := numberKey_value
  obtain ⟨q, pos, rest, hq, hxq, e, -⟩ := chainFile_scan.starts rfl hx rfl hy
  obtain rfl : q = 1 := by
    simp only [List.mem_cons, List.not_mem_nil, or_false] at hq
    rcases hq with rfl | rfl
    · rfl
    · exact absurd zero_lt_five (not_lt.mpr hxq)
  have h₁ := (LTS.Exec.nil (M := scanRuns {} (fun _ _ => True) (scanStart chainFile [1, 2] chainKeys
    ⟨1, pos, none, numberKey 5, chainFile.page 1⟩)) rfl).snoc ⟨wrap_step _, trivial⟩
  have h₂ := h₁.snoc ⟨.next (next_wraps pos), trivial⟩
  refine ⟨_, _, chainFile_scan, hx, hy, e, h₂, fun h => ?_⟩
  have hseq : recordSeq (chainFile.page 2) = [keyRecord 5] :=
    (chainFile_holds.nodeAt (p := 2) rfl).recordSeq
  have hcount := h.once rfl (keyRecord 5) ⟨2, by simp, by rw [hseq]; simp⟩ ?_ ?_
  · cases hcount
  · rw [recordValue_eq numberKey_value.2]
    decide
  · rw [recordValue_eq numberKey_value.2]
    decide

end DbInternals.Index
