import DbInternals.Index.TreeModel

/-!
# Pages and nodes

`NodeAt τ w data n`: the page `data` holds the node `n`, with keys of `w`
bytes; under `τ` leaf pages are also tight. Each page-level step of the tree
code is specified on the node.

Results: `childSlot_spec`, `leafSlot_spec`, `insertPair_spec`,
`moveRecords_spec`, `walkPivot_spec`.
-/
namespace DbInternals.Index

open Storage SlottedPage Mem

/-! ## Pairs as entries -/

def pairEntries (ps : List Pair) : List Entry :=
  ps.flatMap fun p => [.live p.1, .live (idBytes p.2)]

section
variable {ps qs : List Pair} {k : Bytes} {c w : Nat}

@[simp] theorem pairEntries_nil : pairEntries [] = [] := rfl

@[simp] theorem pairEntries_cons (p : Pair) (ps : List Pair) :
    pairEntries (p :: ps) = .live p.1 :: .live (idBytes p.2) :: pairEntries ps := rfl

@[simp] theorem pairEntries_append : pairEntries (ps ++ qs) = pairEntries ps ++ pairEntries qs := by
  simp [pairEntries]

@[simp] theorem length_pairEntries : (pairEntries ps).length = 2 * ps.length := by
  induction ps with
  | nil => rfl
  | cons p ps ih => simp [ih]; omega

theorem liveEntries_pairEntries : liveEntries (pairEntries ps) = pairEntries ps := by
  induction ps with
  | nil => rfl
  | cons p ps ih => simp [ih]

theorem take_pairEntries : ∀ (ps : List Pair) (m : Nat),
    (pairEntries ps).take (2 * m) = pairEntries (ps.take m)
  | ps, 0 => by simp
  | [], m + 1 => by simp
  | p :: ps, m + 1 => by simp [Nat.mul_succ, take_pairEntries ps m]

theorem drop_pairEntries : ∀ (ps : List Pair) (m : Nat),
    (pairEntries ps).drop (2 * m) = pairEntries (ps.drop m)
  | ps, 0 => by simp
  | [], m + 1 => by simp
  | p :: ps, m + 1 => by simp [Nat.mul_succ, drop_pairEntries ps m]

theorem getElem?_pairEntries_key : ∀ (ps : List Pair) (i : Nat),
    (pairEntries ps)[2 * i]? = (ps[i]?).map fun p => .live p.1
  | [], i => by simp
  | p :: ps, 0 => by simp
  | p :: ps, i + 1 => by simpa [Nat.mul_succ] using getElem?_pairEntries_key ps i

theorem getElem?_pairEntries_child : ∀ (ps : List Pair) (i : Nat),
    (pairEntries ps)[2 * i + 1]? = (ps[i]?).map fun p => .live (idBytes p.2)
  | [], i => by simp
  | p :: ps, 0 => by simp
  | p :: ps, i + 1 => by simpa [Nat.mul_succ] using getElem?_pairEntries_child ps i

/-- Inserting the key, then the child behind it, inserts the pair. -/
theorem insertIdx_pairEntries : ∀ (ps : List Pair) (i : Nat), i ≤ ps.length →
    ((pairEntries ps).insertIdx (2 * i) (.live k)).insertIdx (2 * i + 1) (.live (idBytes c)) =
      pairEntries (ps.insertIdx i (k, c))
  | ps, 0, _ => by simp
  | [], i + 1, h => by simp at h
  | p :: ps, i + 1, h => by
    have := insertIdx_pairEntries ps i (by simpa using h)
    simpa [Nat.mul_succ] using this

theorem cost_pairEntries (h : ∀ p ∈ ps, p.1.length = w) :
    cost (pairEntries ps) = ps.length * (w + 12) := by
  induction ps with
  | nil => simp
  | cons p ps ih =>
    have h1 := h p List.mem_cons_self
    have h2 := ih fun q hq => h q (List.mem_cons_of_mem p hq)
    simp only [pairEntries_cons, cost_cons, Entry.size_live, length_idBytes, h2, h1,
      List.length_cons, Nat.add_mul]
    omega

end

/-! ## Nodes on pages -/

/-- The page holds the node. -/
def NodeAt (τ : Prop) (w : Nat) (data : Mem) : Node → Prop
  | .leaf es left right => Valid data ∧ (τ → Tight data) ∧ getPageType data = .leafPage ∧
      entries data = es ∧ getLeftSibling data = left ∧ getRightSibling data = right
  | .inner ps => Valid data ∧ getPageType data = .internalPage ∧ entries data = pairEntries ps ∧
      ∀ p ∈ ps, p.1.length = w ∧ p.2 < 2 ^ 32

/-- Every live record of the leaf holds its key. -/
def LongEnough (w : Nat) (es : List Entry) : Prop := ∀ b, Entry.live b ∈ es → w ≤ b.length

section
variable {t : TreeConfig} {τ : Prop} {data : Mem} {ps : List Pair} {es : List Entry} {target : Key}
  {x : Int} {left right : Nat}

theorem cost_room (hv : Valid data) : cost (entries data) ≤ PAGE_ROOM := by
  have h1 := hv.cost_le
  have h2 := hv.slots_le
  simp only [PAGE_ROOM, PAGE_SIZE, sizeofHeader, slotAddr_eq] at *; omega

/-- An internal page holds at most what fits. -/
theorem NodeAt.pairs_le (h : NodeAt τ t.keyWidth data (.inner ps)) :
    ps.length * (t.keyWidth + 12) ≤ PAGE_ROOM := by
  obtain ⟨hv, -, he, hk⟩ := h
  rw [← cost_pairEntries fun p hp => (hk p hp).1, ← he]
  exact cost_room hv

theorem keyAt_pair (ht : t.Numeric) (h : NodeAt τ t.keyWidth data (.inner ps)) {i : Nat}
    (hi : i < ps.length) : (keyAt t data (2 * i)).Decodes (keyOf t.keyWidth ps[i].1) ∧
      (keyAt t data (2 * i)).Carries ps[i].1 := by
  obtain ⟨hv, -, he, hk⟩ := h
  have hw := (hk _ (List.getElem_mem hi)).1
  have hb : (entries data)[2 * i]? = some (.live ps[i].1) := by
    rw [he, getElem?_pairEntries_key, List.getElem?_eq_getElem hi]; rfl
  have := keyAt_spec ht hv hb (by omega)
  rwa [List.take_of_length_le (by omega)] at this

theorem length_of_entries (h : entries data = es) : getSlotCount data = es.length := by
  rw [← h, length_entries]; rfl

theorem childSlot_spec (ht : t.Numeric) (h : NodeAt τ t.keyWidth data (.inner ps))
    (hx : target.Decodes x) :
    childSlot t data target = .ok (childIdx t.keyWidth ps x * 2 + 1) := by
  have hn : getSlotCount data / 2 = ps.length := by
    rw [length_of_entries h.2.2.1, length_pairEntries]; omega
  rw [childSlot, hn]
  have hb : Search.bisectM
      (fun mid => do return decide ((← (keyAt t data (mid * 2)).compare target) ≤ 0))
      ps.length 0 ps.length = .ok (Search.bisect
        (fun i => decide (pairKey t.keyWidth ps i ≤ x)) ps.length 0 ps.length) := by
    apply Search.bisectM_eq ps.length 0 ps.length
    intro i _ hi
    rw [Nat.mul_comm i 2, compare_decodes (keyAt_pair ht h hi).1 hx, pairKey_getElem hi]
    change Except.ok _ = _
    congr 1
    by_cases h1 : keyOf t.keyWidth ps[i].1 < x
    · simp [h1]; omega
    · by_cases h2 : keyOf t.keyWidth ps[i].1 > x
      · simp [h1, h2]
      · simp [h1, h2]; omega
  dsimp only
  rw [hb]
  change Except.ok _ = _
  congr 3
  rw [childIdx]
  split <;> omega

theorem leafSlot_spec (ht : t.Numeric) (hv : Valid data) (he : entries data = es)
    (hl : LongEnough t.keyWidth es) (hx : target.Decodes x) :
    leafSlot t data target = .ok (lowerSlot t.keyWidth es x) := by
  have hlive : (fun probe => (record data probe).2 != 0) = liveAt es := by
    funext i; rw [record_len_ne hv, he]; rfl
  have hb : Search.lowerSparseM (liveAt es)
      (fun probe => do return decide ((← (keyAt t data probe).compare target) < 0))
      es.length 0 es.length es.length = .ok (Search.lowerSparse (liveAt es)
        (fun i => decide (entryKey t.keyWidth es i < x)) es.length 0 es.length es.length) := by
    refine Search.lowerSparseM_eq (fun i hi => ?_) es.length 0 es.length es.length
    obtain ⟨b, hb⟩ := liveAt_iff.mp hi
    have hk := keyAt_spec ht hv (he ▸ hb) (hl b (List.mem_of_getElem? hb))
    rw [compare_decodes hk.1 hx, entryKey_live hb]
    change Except.ok _ = _
    congr 1
    by_cases h1 : keyOf t.keyWidth b < x
    · simp [h1]
    · by_cases h2 : keyOf t.keyWidth b > x <;> simp [h1, h2]
  rw [leafSlot, length_of_entries he, hlive]
  dsimp only
  rw [hb]
  rfl

/-- The search of `insertIntoParent`. -/
theorem lowerIdx_spec (ht : t.Numeric) (h : NodeAt τ t.keyWidth data (.inner ps))
    (hx : target.Decodes x) : Search.bisectM
      (fun mid => do return decide ((← (keyAt t data (mid * 2)).compare target) < 0))
      ps.length 0 ps.length = .ok (lowerIdx t.keyWidth ps x) := by
  apply Search.bisectM_eq ps.length 0 ps.length
  intro i _ hi
  rw [Nat.mul_comm i 2, compare_decodes (keyAt_pair ht h hi).1 hx, pairKey_getElem hi]
  change Except.ok _ = _
  congr 1
  by_cases h1 : keyOf t.keyWidth ps[i].1 < x
  · simp [h1]
  · by_cases h2 : keyOf t.keyWidth ps[i].1 > x <;> simp [h1, h2]

/-- With room in the gap the record lands at its slot. -/
theorem insertRecordAt_gap (record : Mem) (pos len : Nat) (hv : Valid data) (hlen : 0 < len)
    (hpos : pos ≤ maxSlotId data) (hr : len + 4 ≤ getFreeSpace data) :
    ∃ d, insertRecordAt data pos record len = .ok (some pos, d) ∧
      Inserted data d pos (record.slice 0 len) ∧ getFreeSpace d + len + 4 = getFreeSpace data := by
  have hfree := getFreeSpace_eq hv
  have hle := hv.slots_le
  have hc : canInsertContigious data len true = true := by
    rw [canInsertContigious_iff hv, if_pos rfl]; omega
  have hspec := insertRecordAt_spec record hv hlen hpos (by rw [getTotalFreeSpace_eq hv]; omega)
  rw [if_pos hc] at hspec
  obtain ⟨d, e, hi⟩ := hspec
  refine ⟨d, e, hi, ?_⟩
  have h1 := hi.heap
  have h2 : maxSlotId d = maxSlotId data + 1 := by
    rw [← length_entries, hi.entries, List.length_insertIdx_of_le_length (by simpa using hpos),
      length_entries]
  rw [getFreeSpace_eq hi.valid, h2, hfree]
  simp only [length_slice, slotAddr_eq] at *; omega

/-- A pair inserted where the contiguous gap holds it. -/
theorem insertPair_spec (ht : t.Numeric) (h : NodeAt τ t.keyWidth data (.inner ps)) {sep : Key}
    {k : Bytes} {right : Nat} (hd : sep.Decodes (keyOf t.keyWidth k)) (hc : sep.Carries k)
    (hk : k.length = t.keyWidth) (hr : right < 2 ^ 32)
    (hgap : t.keyWidth + 12 ≤ getFreeSpace data) :
    ∃ d r₁ r₂, insertPair t data sep right = .ok (some r₁, some r₂, d) ∧ SameMeta data d ∧
      NodeAt τ t.keyWidth d
        (.inner (ps.insertIdx (lowerIdx t.keyWidth ps (keyOf t.keyWidth k)) (k, right))) := by
  have hi := lowerIdx_spec ht h hd
  have hil : lowerIdx t.keyWidth ps (keyOf t.keyWidth k) ≤ ps.length := lowerIdx_le
  generalize lowerIdx t.keyWidth ps (keyOf t.keyWidth k) = i at hi hil ⊢
  obtain ⟨hv, htype, he, hps⟩ := h
  have hn : maxSlotId data = 2 * ps.length := by
    rw [← length_entries, he, length_pairEntries]
  have hw := ht.width_le
  obtain ⟨d₁, e₁, i₁, g₁⟩ := insertRecordAt_gap sep.data.mem (i * 2) sep.size hv
    (by rw [hc.size]; omega) (by omega) (by rw [hc.size]; omega)
  have hn₁ : maxSlotId d₁ = maxSlotId data + 1 := by
    rw [← length_entries, i₁.entries, List.length_insertIdx_of_le_length (by simp; omega),
      length_entries]
  obtain ⟨d₂, e₂, i₂, -⟩ := insertRecordAt_gap (pageIdMem right) (i * 2 + 1) 4 i₁.valid (by omega)
    (by omega) (by rw [hc.size] at g₁; omega)
  refine ⟨d₂, i * 2, i * 2 + 1, ?_, i₁.sameMeta.trans i₂.sameMeta, i₂.valid, ?_, ?_, ?_⟩
  · have hcount : getSlotCount data / 2 = ps.length := by
      rw [getSlotCount, hn]; omega
    rw [insertPair]
    dsimp only
    rw [hcount, hi]
    change (do let x ← insertRecordAt data (i * 2) sep.data.mem sep.size
               let y ← insertRecordAt x.2 (i * 2 + 1) (pageIdMem right) 4
               return (x.1, y.1, y.2)) = _
    rw [e₁]
    change (do let y ← insertRecordAt d₁ (i * 2 + 1) (pageIdMem right) 4
               return (some (i * 2), y.1, y.2)) = _
    rw [e₂]
    rfl
  · rw [(i₁.sameMeta.trans i₂.sameMeta).pageType]; exact htype
  · rw [i₂.entries, i₁.entries, he, hc.size, hc.bytes, Nat.mul_comm i 2]
    exact insertIdx_pairEntries ps i hil
  · intro p hp
    rcases (List.mem_insertIdx hil).mp hp with rfl | hp
    · exact ⟨hk, hr⟩
    · exact hps p hp

end

/-! ## Fresh pages filled in order -/

/-- A page that holds these live records and nothing else. -/
structure Filled (data : Mem) (bs : List Bytes) : Prop where
  valid : Valid data
  tight : Tight data
  entries : entries data = bs.map .live

section
variable {data record : Mem} {bs : List Bytes} {len : Nat}

theorem liveEntries_map (bs : List Bytes) : liveEntries (bs.map Entry.live) = bs.map .live := by
  induction bs with
  | nil => rfl
  | cons b bs ih => simp [ih]

theorem deadEntries_map (bs : List Bytes) : deadEntries (bs.map Entry.live) = [] := by
  induction bs with
  | nil => rfl
  | cons b bs ih => simp [ih]

theorem filled_init (raw : Mem) (p : Nat) (type : SlottedPageType) :
    Filled (init raw p type) [] := ⟨init_valid .., init_tight .., init_entries ..⟩

theorem Filled.insertRecord (record : Mem) (len : Nat) (h : Filled data bs) (hlen : 0 < len)
    (hroom : cost (bs.map .live) + len + 4 ≤ PAGE_ROOM) :
    ∃ d r, insertRecord data record len = .ok (some r, d) ∧
      Filled d (bs ++ [record.slice 0 len]) ∧ SameMeta data d := by
  have hfree := h.tight.totalFree h.valid
  rw [h.entries, liveEntries_map] at hfree
  obtain ⟨d, e, hi⟩ := insertRecord_append record h.valid hlen
    (by rw [h.entries]; exact deadEntries_map bs) (by simp only [PAGE_ROOM] at hroom; omega)
  refine ⟨d, _, e, ⟨hi.valid, hi.tight h.tight, ?_⟩, hi.sameMeta⟩
  have hn : maxSlotId data = (bs.map Entry.live).length := by rw [← h.entries, length_entries]
  rw [hi.entries, h.entries, hn, List.insertIdx_length_self, List.map_append]
  rfl

/-- A page with any records that fit in it. -/
theorem exists_filled (p : Nat) (type : SlottedPageType) : ∀ bs : List Bytes, (∀ b ∈ bs, b ≠ []) →
    cost (bs.map .live) ≤ PAGE_ROOM →
    ∃ d, Filled d bs ∧ SameMeta (init Mem.zero p type) d := by
  intro bs
  induction bs using List.reverseRecOn with
  | nil =>
    intro _ _
    exact ⟨_, filled_init .., .refl _⟩
  | append_singleton bs b ih =>
    intro hpos hroom
    rw [List.map_append, cost_append] at hroom
    have hb : 0 < b.length := List.length_pos_iff.mpr (hpos b (by simp))
    obtain ⟨d, hd, hm⟩ := ih (fun c hc => hpos c (by simp [hc])) (by omega)
    obtain ⟨d', r, -, hd', hm'⟩ := hd.insertRecord (Mem.ofBytes b) b.length hb (by
      simp at hroom
      omega)
    rw [slice_ofBytes] at hd'
    exact ⟨d', hd', hm.trans hm'⟩

/-- An empty record is not stored. -/
theorem insertRecord_nil (data record : Mem) : SlottedPage.insertRecord data record 0 =
    .ok (none, data) := rfl

end

/-! ## Siblings -/

section
variable {data : Mem} {v : Nat}

theorem setLeft_spec (hv : Valid data) (h : v < 2 ^ 32) :
    entries (setLeftSibling data v) = entries data ∧ Valid (setLeftSibling data v) ∧
      (Tight data → Tight (setLeftSibling data v)) ∧
      getPageType (setLeftSibling data v) = getPageType data ∧
      getLeftSibling (setLeftSibling data v) = v ∧
      getRightSibling (setLeftSibling data v) = getRightSibling data := by
  obtain ⟨h1, h2, h3⟩ := entries_writeLE (o := 28) (k := 4) (v := v) hv (by omega) (by omega)
  refine ⟨h1, h2, h3, ?_, ?_, readLE_writeLE_frame (by omega)⟩
  · rw [getPageType, setLeftSibling, readLE_writeLE_frame (by omega)]; rfl
  · rw [getLeftSibling, setLeftSibling, readLE_writeLE, Nat.mod_eq_of_lt (by omega)]

theorem setRight_spec (hv : Valid data) (h : v < 2 ^ 32) :
    entries (setRightSibling data v) = entries data ∧ Valid (setRightSibling data v) ∧
      (Tight data → Tight (setRightSibling data v)) ∧
      getPageType (setRightSibling data v) = getPageType data ∧
      getLeftSibling (setRightSibling data v) = getLeftSibling data ∧
      getRightSibling (setRightSibling data v) = v := by
  obtain ⟨h1, h2, h3⟩ := entries_writeLE (o := 32) (k := 4) (v := v) hv (by omega) (by omega)
  refine ⟨h1, h2, h3, ?_, readLE_writeLE_frame (by omega), ?_⟩
  · rw [getPageType, setRightSibling, readLE_writeLE_frame (by omega)]; rfl
  · rw [getRightSibling, setRightSibling, readLE_writeLE, Nat.mod_eq_of_lt (by omega)]

end

/-! ## Moving half a page -/

/-- The live slots from `slot` on end up behind what `dst` held, and are dead
in `src`. -/
theorem moveRecords_spec : ∀ (n slot : Nat) (src dst : Mem) (bs : List Bytes), Valid src →
    Filled dst bs → (entries src).length = slot + n →
    cost (bs.map .live) + cost (liveEntries ((entries src).drop slot)) ≤ PAGE_ROOM →
    ∃ src' dst', moveRecords n slot src dst = .ok (src', dst') ∧ Valid src' ∧ SameMeta src src' ∧
      liveEntries (entries src') = liveEntries ((entries src).take slot) ∧
      Filled dst' (bs ++ liveRecordsOf ((entries src).drop slot)) ∧ SameMeta dst dst'
  | 0, slot, src, dst, bs, hs, hd, hl, _ => by
    refine ⟨src, dst, rfl, hs, .refl _, ?_, ?_, .refl _⟩
    · rw [List.take_of_length_le (by omega)]
    · rw [List.drop_eq_nil_of_le (by omega)]; simpa using hd
  | n + 1, slot, src, dst, bs, hs, hd, hl, hc => by
    have hlt : slot < (entries src).length := by omega
    have hdrop := List.drop_eq_getElem_cons hlt
    have htake : (entries src).take (slot + 1) = (entries src).take slot ++ [(entries src)[slot]] := by
      rw [List.take_add_one, List.getElem?_eq_getElem hlt]; rfl
    unfold moveRecords
    cases he : (entries src)[slot] with
    | dead m =>
      -- nothing to insert, nothing to delete
      have hnot : ∀ b, (entries src)[slot]? ≠ some (.live b) := fun b => by
        rw [List.getElem?_eq_getElem hlt, he]; simp
      rw [hdrop, he] at hc
      obtain ⟨src', dst', e, h1, h2, h3, h4, h5⟩ :=
        moveRecords_spec n (slot + 1) src dst bs hs hd (by omega) (by simpa using hc)
      rw [record_dead hs hnot]
      dsimp only
      rw [insertRecord_nil, deleteRecord_false hs hnot]
      refine ⟨src', dst', e, h1, h2, ?_, ?_, h5⟩
      · rw [h3, htake, he]; simp
      · rw [hdrop, he]; simpa using h4
    | live b =>
      have hb : (entries src)[slot]? = some (.live b) := by
        rw [List.getElem?_eq_getElem hlt, he]
      obtain ⟨v, hrec, hv⟩ := record_live hs hb
      rw [hdrop, he] at hc
      simp only [liveEntries_live, cost_cons, Entry.size_live] at hc
      obtain ⟨dst₁, r, e₁, h₁, m₁⟩ := hd.insertRecord (viewMem (some v)) _
        (hs.record_pos (List.mem_of_getElem? hb)) (show _ + b.length + 4 ≤ _ by omega)
      obtain ⟨src₁, e₂, h₂, hs₁, -, m₂⟩ := deleteRecord_spec hs hb
      have hvb : (viewMem (some v)).slice 0 b.length = b := hv.bytes
      rw [hvb] at h₁
      have hdrop₁ : (entries src₁).drop (slot + 1) = (entries src).drop (slot + 1) := by
        rw [h₂, List.drop_set_of_lt (by omega)]
      obtain ⟨src', dst', e, h3, h4, h5, h6, h7⟩ :=
        moveRecords_spec n (slot + 1) src₁ dst₁ (bs ++ [b]) hs₁ h₁
          (by rw [h₂, List.length_set]; omega)
          (by rw [hdrop₁]; simp; omega)
      rw [hrec]
      dsimp only
      rw [e₁, e₂]
      refine ⟨src', dst', e, h3, m₂.trans h4, ?_, ?_, m₁.trans h7⟩
      · have hlen : ((entries src).take slot).length = slot := by
          rw [List.length_take, Nat.min_eq_left (Nat.le_of_lt hlt)]
        rw [h5, h₂, List.take_set, htake, List.set_append_right _ _ (Nat.le_of_eq hlen), hlen]
        simp
      · rw [hdrop₁] at h6
        rw [hdrop, he]
        simpa using h6

/-- The walk from the middle slot stops at the next live one. -/
theorem walkPivot_spec {data : Mem} (hv : Valid data) (fuel p : Nat)
    (hf : (entries data).length < p + fuel) (hex : ∃ b, .live b ∈ (entries data).drop p) :
    walkPivot data fuel p = .ok (p + ((entries data).drop p).findIdx Entry.isLive) := by
  obtain ⟨b, hb⟩ := hex
  have hlt : ((entries data).drop p).findIdx Entry.isLive < ((entries data).drop p).length :=
    List.findIdx_lt_length_of_exists ⟨_, hb, Entry.isLive_live b⟩
  have hq : p + ((entries data).drop p).findIdx Entry.isLive < (entries data).length := by
    rw [List.length_drop] at hlt; omega
  have hslots := hv.slots_lt
  have hcount : (entries data).length < 2 ^ 16 := by rw [length_entries]; omega
  -- a slot from `p` on is live exactly when its entry in the rest of the page is
  have hlive : ∀ j, ((record data (p + j)).2 != 0) =
      ((((entries data).drop p)[j]?).map Entry.isLive).getD false := by
    intro j
    rw [record_len_ne hv, List.getElem?_drop]
  apply walkPivot_first (by omega) (Nat.le_add_right _ _)
  · have h := hlive (((entries data).drop p).findIdx Entry.isLive)
    rw [List.getElem?_eq_getElem hlt, Option.map_some, Option.getD_some,
      List.findIdx_getElem (p := Entry.isLive) (w := hlt)] at h
    simpa using h
  · intro i h₁ h₂
    obtain ⟨j, rfl⟩ := Nat.exists_eq_add_of_le h₁
    have hj : j < ((entries data).drop p).findIdx Entry.isLive := by omega
    have h := hlive j
    rw [List.getElem?_eq_getElem (hj.trans hlt), Option.map_some, List.not_of_lt_findIdx hj] at h
    simpa using h
  · omega

end DbInternals.Index
