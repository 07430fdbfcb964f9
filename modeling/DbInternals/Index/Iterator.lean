import DbInternals.Index.KeyedPages

/-!
# `BPlusTreeIterator`: the code

The iterator of `src/index/b_plus_tree.h` and `BPlusTree::scan`. The iterator owns a buffer,
and `last_key_` is a pointer into it: what the key holds is decided by the bytes that are
there when it is compared, not by those it was taken from.

Results:
* `seekFirstAfter_bounds`: a key that decodes leads to the upper bound of the live slots;
* `seekFirstAfter_fails`: one that does not fails where the page has a live slot;
* `walk_here`, `walk_cross`: the loop of `Next` stops at the first live slot or crosses.
-/
namespace DbInternals.Index

open Storage SlottedPage

/-- mirrors src/index/b_plus_tree.h:190-275 -/
structure BPlusTreeIterator where
  pageId : Nat
  startSlot : Nat
  /-- where in `data` the key starts, and its size -/
  lastKey : Option (Nat × Nat)
  end_ : Key
  data : Mem

section
variable (t : TreeConfig)

/-- Where the key of a live slot starts in the page, and its size. -/
def keySpan (data : Mem) (slot : Nat) : Nat × Nat :=
  match getRecord data slot with
  | (none, _) => (0, 0)
  | (some o, len) =>
    (o + if t.keyOffset ≤ len then t.keyOffset else len, (keyAt t data slot).size)

/-- The key at a place of a page buffer. -/
def keyIn (data : Mem) (span : Nat × Nat) : Key :=
  Key.fromBytes t.keyTypeId t.keyWidth ⟨data.shift span.1, PAGE_SIZE - span.1⟩ span.2

/-- mirrors src/index/b_plus_tree.h:249-265 -/
def seekFirstAfter (data : Mem) (key : Key) : Except Fault Nat :=
  let n := getSlotCount data
  Search.upperSparseM (slotLive data)
    (fun probe => return (← (keyAt t data probe).compare key) ≤ 0) n 0 n

/-- The slot `Next` starts from. mirrors src/index/b_plus_tree.h:208-210 -/
def position (it : BPlusTreeIterator) : Except Fault Nat :=
  match it.lastKey with
  | some span => seekFirstAfter t it.data (keyIn t it.data span)
  | none => .ok it.startSlot

/-- The loop of `Next`: the bytes of the record it returns a pointer to. Nothing is written
on the way, so a walk over more pages than there are page ids repeats one and never ends.
mirrors src/index/b_plus_tree.h:212-241 -/
def walk : Nat → Nat → BPlusTreeIterator → TreeM (Option Bytes × BPlusTreeIterator)
  | 0, _, _ => throw .diverges
  | fuel + 1, pos, it => do
    let n := getSlotCount it.data
    let pos := Search.probe (slotLive it.data) (n - pos) pos
    if pos < n then
      let (bytes, len) := record it.data pos
      if (← buf ((extractKey t bytes len).compare it.end_)) > 0 then return (none, it)
      return (some ((viewMem bytes).slice 0 len),
        { it with lastKey := some (keySpan t it.data pos) })
    let right := getRightSibling it.data
    if right = INVALID_PAGE_ID then return (none, it)
    let data ← disk (readPage right)
    walk fuel 0 { it with pageId := right, data }

/-- mirrors src/index/b_plus_tree.h:206-242 -/
def next (it : BPlusTreeIterator) : TreeM (Option Bytes × BPlusTreeIterator) := do
  let pos ← buf (position t it)
  let fuel := (← MonadState.get).diskManager.globalMetadata.nextPageId + 2
  walk t fuel pos it

/-- The iterator is constructed in place of the one the call returns.
mirrors src/index/b_plus_tree.cpp:483-487 and b_plus_tree.h:192-196 -/
def scan (start end_ : Key) : TreeM BPlusTreeIterator := do
  let startData ← findRecord t start
  let data ← disk (readPage startData.leafPage)
  return { pageId := startData.leafPage, startSlot := startData.leafSlot, lastKey := none, end_, data }

end

/-! ## The key that points into the buffer -/

section
variable {κ : Type} {t : TreeConfig} {reads : Key → κ → Prop} {data : Mem}
  {slots : List (Option (κ × Bytes))} {it : BPlusTreeIterator} {i fuel pos : Nat}

/-- A key is a view from the key column on. -/
theorem extractKey_view (v : View) {len : Nat} (h : len ≠ 0) : extractKey t (some v) len =
    Key.fromBytes t.keyTypeId t.keyWidth (v.advance (if t.keyOffset ≤ len then t.keyOffset else len))
      (extractKey t (some v) len).size := by
  rw [extractKey]
  dsimp only
  rw [if_neg h]
  generalize (if t.keyOffset ≤ len then t.keyOffset else len) = offset
  split
  · split <;> rfl
  · rfl

theorem view_advance (data : Mem) (o k : Nat) : (View.mk (data.shift o) (PAGE_SIZE - o)).advance k =
    ⟨data.shift (o + k), PAGE_SIZE - (o + k)⟩ := by
  rw [View.advance, Nat.sub_sub]
  congr 1
  funext i
  simp only [Mem.shift_apply, Nat.add_assoc]

theorem getRecord_none {n : Nat} (h : getRecord data i = (none, n)) : n = 0 := by
  rw [getRecord] at h
  split at h
  · cases h
    rfl
  · split at h
    · cases h
      rfl
    · cases h

/-- As long as the buffer is not overwritten, the key is the one of its slot. -/
theorem keyIn_keySpan (h : slotLive data i = true) : keyIn t data (keySpan t data i) = keyAt t data i := by
  rw [slotLive, bne_iff_ne] at h
  rcases hr : getRecord data i with ⟨_ | o, len⟩
  · simp only [record, hr] at h
    exact absurd (getRecord_none hr) h
  · simp only [record, hr] at h
    simp only [keyIn, keySpan, keyAt, record, hr]
    rw [← view_advance, ← extractKey_view _ h]

/-! ## Live slots -/

/-- The keys and records from a slot on. -/
def liveFrom (slots : List (Option (κ × Bytes))) (pos : Nat) : List (κ × Bytes) :=
  (slots.drop pos).filterMap id

theorem liveFrom_cons {r : κ × Bytes} (h : slots[i]? = some (some r)) :
    liveFrom slots i = r :: liveFrom slots (i + 1) := by
  obtain ⟨hi, he⟩ := List.getElem?_eq_some_iff.mp h
  rw [liveFrom, List.drop_eq_getElem_cons hi, he]
  rfl

theorem liveFrom_dead (h : ∀ r, slots[i]? ≠ some (some r)) : liveFrom slots i = liveFrom slots (i + 1) := by
  by_cases hi : i < slots.length
  · rw [liveFrom, List.drop_eq_getElem_cons hi]
    cases he : slots[i] with
    | none => rfl
    | some r => exact absurd (List.getElem?_eq_some_iff.mpr ⟨hi, he⟩) (h r)
  · rw [liveFrom, liveFrom, List.drop_eq_nil_of_le (by omega), List.drop_eq_nil_of_le (by omega)]

theorem liveFrom_skip (hle : pos ≤ i)
    (h : ∀ j, pos ≤ j → j < i → ∀ r, slots[j]? ≠ some (some r)) :
    liveFrom slots pos = liveFrom slots i := by
  induction i, hle using Nat.le_induction with
  | base => rfl
  | succ i hle ih =>
    rw [ih fun j h1 h2 => h j h1 (by omega)]
    exact liveFrom_dead (h i hle (by omega))

theorem mem_filterMap_id {α : Type} {l : List (Option α)} {a : α} :
    a ∈ l.filterMap id ↔ some a ∈ l := by
  simp [List.mem_filterMap]

theorem mem_liveFrom {r : κ × Bytes} :
    r ∈ liveFrom slots pos ↔ ∃ j, pos ≤ j ∧ slots[j]? = some (some r) := by
  rw [liveFrom, mem_filterMap_id, List.mem_iff_getElem?]
  simp only [List.getElem?_drop]
  constructor
  · rintro ⟨j, hj⟩
    exact ⟨pos + j, by omega, hj⟩
  · rintro ⟨j, hle, hj⟩
    exact ⟨j - pos, by rwa [Nat.add_sub_cancel' hle]⟩

/-- The live slots behind a boundary. -/
theorem Separates.liveFrom {P : κ → Prop} [DecidablePred P] (h : Separates slots P i) :
    liveFrom slots i = (liveFrom slots 0).filter fun r => ¬ P r.1 := by
  have hsplit : Index.liveFrom slots 0 = (slots.take i).filterMap id ++ Index.liveFrom slots i := by
    rw [Index.liveFrom, Index.liveFrom, ← List.filterMap_append, List.take_append_drop, List.drop_zero]
  have hbelow : ((slots.take i).filterMap id).filter (fun r => ¬ P r.1) = [] := by
    apply List.filter_eq_nil_iff.mpr
    intro r hr
    obtain ⟨j, hj⟩ := List.mem_iff_getElem?.mp (mem_filterMap_id.mp hr)
    rw [List.getElem?_take] at hj
    split at hj
    · next hji => simpa using (h j r.1 r.2 hj).mpr hji
    · cases hj
  have habove : (Index.liveFrom slots i).filter (fun r => ¬ P r.1) = Index.liveFrom slots i := by
    apply List.filter_eq_self.mpr
    intro r hr
    obtain ⟨j, hle, hj⟩ := mem_liveFrom.mp hr
    simpa using fun hp => absurd ((h j r.1 r.2 hj).mp hp) (Nat.not_lt.mpr hle)
  rw [hsplit, List.filter_append, hbelow, habove, List.nil_append]

/-! ## The loop of `Next` -/

/-- The first live slot from `pos` on, if there is one. -/
theorem skip_cases (h : ReadsSlots t reads data slots) (pos : Nat) :
    (∃ r, slots[Search.probe (slotLive data) (getSlotCount data - pos) pos]? = some (some r) ∧
      liveFrom slots pos =
        r :: liveFrom slots (Search.probe (slotLive data) (getSlotCount data - pos) pos + 1)) ∨
    getSlotCount data ≤ Search.probe (slotLive data) (getSlotCount data - pos) pos ∧
      liveFrom slots pos = [] := by
  obtain ⟨h1, h2, h3, h4⟩ := Search.probe_spec (slotLive data) (getSlotCount data - pos) pos
  generalize Search.probe (slotLive data) (getSlotCount data - pos) pos = i at h1 h2 h3 h4
  have hskip : liveFrom slots pos = liveFrom slots i := by
    apply liveFrom_skip h1
    intro j hj hji r hr
    have hl := h.slotLive.mpr ⟨r.1, r.2, hr⟩
    rw [h3 j hj hji] at hl
    cases hl
  by_cases hi : i < getSlotCount data
  · obtain ⟨x, b, hx⟩ := h.slotLive.mp (h4 (by omega))
    exact .inl ⟨(x, b), hx, hskip.trans (liveFrom_cons hx)⟩
  · refine .inr ⟨by omega, ?_⟩
    rw [hskip, liveFrom, List.drop_eq_nil_of_le (by rw [← h.count]; omega)]
    rfl

/-- Behind the last live slot the walk ends or crosses. -/
theorem walk_cross (h : ReadsSlots t reads it.data slots) (hr : liveFrom slots pos = []) :
    walk t (fuel + 1) pos it =
      if getRightSibling it.data = INVALID_PAGE_ID then Pure.pure (none, it) else
        disk (readPage (getRightSibling it.data)) >>= fun data =>
          walk t fuel 0 { it with pageId := getRightSibling it.data, data } := by
  obtain ⟨r, -, he⟩ | ⟨hn, -⟩ := skip_cases h pos
  · rw [hr] at he
    cases he
  · conv_lhs => unfold walk
    simp only [if_neg (Nat.not_lt.mpr hn)]

end

section
variable {κ : Type} [LinearOrder κ] {t : TreeConfig} {reads : Key → κ → Prop} {data : Mem}
  {slots : List (Option (κ × Bytes))} {x y : κ} {key : Key} {it : BPlusTreeIterator} {pos : Nat}

/-! ## Seeking behind a key -/

/-- The upper bound of a key. -/
theorem seekFirstAfter_bounds {below upTo : κ → Prop} (hcut : key.Cuts reads below upTo)
    (h : ReadsSlots t reads data slots) (hs : SlotsSorted slots) :
    ∃ pos, seekFirstAfter t data key = .ok pos ∧ Separates slots upTo pos := by
  classical
  have hrun : Search.upperSparseM (slotLive data)
      (fun probe => do return decide ((← (keyAt t data probe).compare key) ≤ 0))
      slots.length 0 slots.length = .ok (Search.upperSparse (slotLive data)
        (slotTest slots upTo) slots.length 0 slots.length) := by
    refine Search.upperSparseM_eq (fun i hi => ?_) _ _ _
    obtain ⟨y, b, hy⟩ := h.slotLive.mp hi
    obtain ⟨d, hd, -, hle⟩ := hcut.compare _ _ (h.live i y b hy).2.2
    rw [hd]
    exact congrArg Except.ok (Bool.eq_iff_iff.mpr (by rw [decide_eq_true_eq, hle, slotTest_iff hy]))
  have hmono : ∀ i j, i < j → slotLive data i = true → slotLive data j = true →
      slotTest slots upTo j = true → slotTest slots upTo i = true := by
    intro i j hij hi hj ht
    obtain ⟨y, b, hy⟩ := h.slotLive.mp hi
    obtain ⟨z, c, hz⟩ := h.slotLive.mp hj
    rw [slotTest_iff hz] at ht
    rw [slotTest_iff hy]
    exact hcut.upTo_down _ _ (hs i j y z b c hij hy hz) ht
  obtain ⟨-, hbelow, habove⟩ := Search.upperSparse_spec (n := slots.length) hmono
    (show slots.length ≤ 0 + slots.length by omega) (Nat.zero_le _) (Nat.le_refl _)
    (fun i hi => absurd hi (Nat.not_lt_zero i))
    (fun i hi hi' => absurd hi' (Nat.not_lt.mpr hi))
  have hpos : seekFirstAfter t data key = .ok (Search.upperSparse (slotLive data)
      (slotTest slots upTo) slots.length 0 slots.length) := by
    rw [seekFirstAfter, h.count]
    exact hrun
  refine ⟨_, hpos, fun i y b hy => ?_⟩
  have hl := h.slotLive.mpr ⟨y, b, hy⟩
  constructor
  · intro hle
    by_contra hc
    have hf := habove i (Nat.not_lt.mp hc) (List.getElem?_eq_some_iff.mp hy).1 hl
    rw [(slotTest_iff hy).mpr hle] at hf
    cases hf
  · intro hi
    exact (slotTest_iff hy).mp (hbelow i hi hl)

/-- A key that does not decode, where there is a live slot to compare it with. -/
theorem seekFirstAfter_fails {ty : TypeId} {slots : List (Option (Rank × Bytes))} {e : Fault}
    (h : ReadsSlots t (Key.Reads ty) data slots) (hk : key.toValue = .error e)
    (hlive : liveFrom slots 0 ≠ []) :
    seekFirstAfter t data key = .error e := by
  obtain ⟨r, hr⟩ := List.exists_mem_of_ne_nil _ hlive
  obtain ⟨i, -, hi⟩ := mem_liveFrom.mp hr
  rw [seekFirstAfter, h.count]
  refine Search.upperSparseM_fails (fun j hj => ?_) (h.slotLive.mpr ⟨_, _, hi⟩) _ _ _ (by omega)
    (Nat.zero_le i) (List.getElem?_eq_some_iff.mp hi).1
  obtain ⟨y, b, hy⟩ := h.slotLive.mp hj
  obtain ⟨v, hv, -⟩ := (h.live j y b hy).2.2.value
  rw [Key.compare, hv, hk]
  rfl

/-- A live slot ends the walk. -/
theorem walk_here {below : κ → Prop} (hcut : it.end_.Cuts reads below (· ≤ y))
    (h : ReadsSlots t reads it.data slots) {r : κ × Bytes} {rest : List (κ × Bytes)}
    (hr : liveFrom slots pos = r :: rest) (fuel : Nat) (s : TreeState) : ∃ i, slots[i]? = some (some r) ∧ rest = liveFrom slots (i + 1) ∧
      Ends (walk t (fuel + 1) pos it) s (if r.1 ≤ y then
        (some r.2, { it with lastKey := some (keySpan t it.data i) }) else (none, it)) s := by
  obtain ⟨r', hi, he⟩ | ⟨-, he⟩ := skip_cases h pos
  · rw [hr] at he
    cases he
    refine ⟨_, hi, rfl, ?_⟩
    have hlt := (List.getElem?_eq_some_iff.mp hi).1
    rw [← h.count] at hlt
    unfold walk
    simp only [if_pos hlt]
    generalize Search.probe (slotLive it.data) (getSlotCount it.data - pos) pos = i at hi hlt
    obtain ⟨-, ⟨v, hv, hsees⟩, hk⟩ := h.live i r.1 r.2 hi
    obtain ⟨d, hd, -, hle⟩ := hcut.compare _ _ hk
    rw [keyAt, hv] at hd
    rw [hv]
    apply (ends_buf hd).bind
    by_cases hry : r.1 ≤ y
    · rw [if_pos hry, if_neg (Int.not_lt.mpr (hle.mpr hry))]
      have hb : (viewMem (some v)).slice 0 r.2.length = r.2 := hsees.bytes
      rw [hb]
      exact .pure _ _
    · rw [if_neg hry, if_pos (Int.not_le.mp fun hc => hry (hle.mp hc))]
      exact .pure _ _
  · rw [hr] at he
    cases he

end

end DbInternals.Index
