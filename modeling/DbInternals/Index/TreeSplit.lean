import DbInternals.Index.TreeFind
import DbInternals.Index.TreeSteps

/-!
# Splits on disk

The split functions of `BPlusTree` against the steps of the tree. Each lemma
runs one of them from a state that holds `T`: it ends in a state that holds
the stepped tree, or needs more page ids than there are (`Tracks`).

Results: `splitRoot_tracks`, `splitInternalAt_tracks`, `wireUp_tracks`,
`splitLeaf_tracks`.
-/
namespace DbInternals.Index

open Storage SlottedPage Mem

section
variable {t : TreeConfig} {τ : Prop} {s s' s'' : TreeState} {T T' : Tree} {p q left right : Nat}
  {ps : List Pair} {n : Node} {sep : Bytes} {sepKey : Key}

/-! ## Small steps -/

theorem Wrote.trans {U : Tree} {W W' : List Nat} (h : Wrote T W s s') (h' : Wrote U W' s' s'')
    (hT : ∀ q, T.store q ≠ none → U.store q ≠ none ∧ (q ∈ W' → q ∈ W)) : Wrote T W s s'' := by
  obtain ⟨new, e, hn⟩ := h.wired
  obtain ⟨new', e', hn'⟩ := h'.wired
  refine ⟨fun q h1 h2 => ?_, new' ++ new, by rw [e', e, List.append_assoc], ?_⟩
  · exact (h'.pages q (hT q h1).1 fun hq => h2 ((hT q h1).2 hq)).trans (h.pages q h1 h2)
  · intro r hr
    rcases List.mem_append.mp hr with h | h
    · exact hn' r h
    · exact hn r h

theorem Holds.setRoot (h : Holds t τ s T) (r : Nat) :
    Holds t τ { s with rootPageId := r } { T with root := r } :=
  ⟨h.io, rfl, h.next, h.next_le, h.freeList, ⟨h.ids.next, h.ids.used, h.ids.nodup, h.ids.range⟩,
    h.node⟩

theorem Holds.setWired (h : Holds t τ s T) (l : List (Option Nat × Option Nat)) :
    Holds t τ { s with wired := l } T := ⟨h.io, h.root, h.next, h.next_le, h.freeList, h.ids, h.node⟩

/-- A key taken from the tree: what it decodes to and the bytes it carries. -/
structure Key.Is (t : TreeConfig) (key : Key) (k : Bytes) : Prop where
  decodes : key.Decodes (keyOf t.keyWidth k)
  carries : key.Carries k
  width : k.length = t.keyWidth

/-- Slot 0 of the page holds a key. -/
def Node.HasMin (w : Nat) : Node → Prop
  | .leaf es _ _ => ∃ b rest, es = .live b :: rest ∧ w ≤ b.length
  | .inner ps => ps ≠ []

/-- The key of the first record of a leaf. -/
theorem keyAt_leaf (ht : t.Numeric) {data : Mem} {b : Bytes} {es : List Entry}
    (h : NodeAt τ t.keyWidth data (.leaf (.live b :: es) left right)) (hb : t.keyWidth ≤ b.length) :
    (keyAt t data 0).Is t (b.take t.keyWidth) := by
  obtain ⟨hv, -, -, he, -⟩ := h
  obtain ⟨h1, h2⟩ := keyAt_spec ht hv (i := 0) (b := b) (by rw [he]; rfl) hb
  exact ⟨by rwa [keyOf_take hb], h2, by rw [List.length_take]; omega⟩

theorem keyAt_min (ht : t.Numeric) {data : Mem} (h : NodeAt τ t.keyWidth data n)
    (hm : n.HasMin t.keyWidth) (hp : T.store p = some n) :
    (keyAt t data 0).Is t (T.minKey t.keyWidth p) := by
  cases n with
  | leaf es l r =>
    obtain ⟨b, rest, rfl, hb⟩ := hm
    have hmin : T.minKey t.keyWidth p = b.take t.keyWidth := by rw [Tree.minKey, hp]
    rw [hmin]
    exact keyAt_leaf ht h hb
  | inner ps =>
    cases ps with
    | nil => exact absurd rfl hm
    | cons pr ps =>
      have hmin : T.minKey t.keyWidth p = pr.1 := by rw [Tree.minKey, hp]
      obtain ⟨h1, h2⟩ := keyAt_pair ht h (i := 0) (by simp)
      rw [hmin]
      exact ⟨h1, h2, (h.2.2.2 pr List.mem_cons_self).1⟩

theorem Holds.lt32 (h : Holds t τ s T) (hp : T.InUse p) : p < 2 ^ 32 := by
  have h1 := hp.2.1
  have h2 := h.next_le
  simp only [MAX_PAGES] at h2
  omega

/-! ## A new root -/

/-- The four insertions of `splitRoot`. -/
theorem rootPage_spec (ht : t.Numeric) {k₁ k₂ : Key} {b₁ b₂ : Bytes} (h₁ : k₁.Is t b₁)
    (h₂ : k₂.Is t b₂) (r : Nat) (hl : left < 2 ^ 32) (hr : right < 2 ^ 32) :
    ∃ d₁ d₂ d₃ d₄ r₁ r₂ r₃ r₄,
      insertRecord (init Mem.zero r .internalPage) k₁.data.mem k₁.size = .ok (some r₁, d₁) ∧
      insertRecord d₁ (pageIdMem left) 4 = .ok (some r₂, d₂) ∧
      insertRecord d₂ k₂.data.mem k₂.size = .ok (some r₃, d₃) ∧
      insertRecord d₃ (pageIdMem right) 4 = .ok (some r₄, d₄) ∧
      NodeAt τ t.keyWidth d₄ (.inner [(b₁, left), (b₂, right)]) := by
  have hw := ht.width_le
  have e₁ := h₁.carries.bytes
  have e₂ := h₂.carries.bytes
  rw [h₁.carries.size, h₂.carries.size]
  have w₁ := h₁.width
  have w₂ := h₂.width
  have hroom : PAGE_ROOM = 4056 := rfl
  obtain ⟨d₁, r₁, i₁, f₁, m₁⟩ := (filled_init Mem.zero r .internalPage).insertRecord k₁.data.mem
    b₁.length (by omega) (by simp only [List.map_nil, cost_nil]; omega)
  obtain ⟨d₂, r₂, i₂, f₂, m₂⟩ := f₁.insertRecord (pageIdMem left) 4 (by omega)
    (by simp [e₁]; omega)
  obtain ⟨d₃, r₃, i₃, f₃, m₃⟩ := f₂.insertRecord k₂.data.mem b₂.length (by omega)
    (by simp [e₁]; omega)
  obtain ⟨d₄, r₄, i₄, f₄, m₄⟩ := f₃.insertRecord (pageIdMem right) 4 (by omega)
    (by simp [e₁, e₂]; omega)
  refine ⟨d₁, d₂, d₃, d₄, r₁, r₂, r₃, r₄, i₁, i₂, i₃, i₄, f₄.valid, ?_, ?_, ?_⟩
  · rw [((m₁.trans m₂).trans (m₃.trans m₄)).pageType, init_pageType]
  · rw [f₄.entries, e₁, e₂]; rfl
  · intro pr hpr
    simp only [List.mem_cons, List.not_mem_nil, or_false] at hpr
    rcases hpr with rfl | rfl
    · exact ⟨w₁, hl⟩
    · exact ⟨w₂, hr⟩

theorem splitRoot_grows (t : TreeConfig) (left : Nat) (k : Key) (right : Nat) :
    Grows 1 (splitRoot t left k right) := by
  refine .bind_zero (.readPage _) fun page => .bind_last .allocatePage fun r => ?_
  refine .bind_zero (.buf _) fun _ => .bind_zero (.buf _) fun _ => .bind_zero (.buf _) fun _ =>
    .bind_zero (.buf _) fun _ => .bind_zero (.modify fun _ => rfl) fun _ => ?_
  exact .bind_zero (.writePage _ _) fun _ => .pure _

theorem splitRoot_tracks (ht : t.Numeric) (h : Holds t τ s T) (hl : T.store left = some n)
    (hm : n.HasMin t.keyWidth) (hk : sepKey.Is t sep) (hr : T.InUse right) :
    Tracks (T.splitRoot t.keyWidth left sep right).next (splitRoot t left sepKey right) s fun _ s' =>
      Holds t τ s' (T.splitRoot t.keyWidth left sep right) ∧ Wrote T [] s s' := by
  have hmin := keyAt_min ht (h.nodeAt hl) hm hl
  have hlu := h.inUse (show T.store left ≠ none by rw [hl]; simp)
  unfold splitRoot
  refine Tracks.step (h.read hl) (Tracks.alloc h (k := 0) (Nat.le_refl _) (fun r => ?_) (by omega)
    fun s₁ h₁ w₁ => ?_)
  · refine .bind_zero (.buf _) fun _ => .bind_zero (.buf _) fun _ => .bind_zero (.buf _) fun _ =>
      .bind_zero (.buf _) fun _ => .bind_zero (.modify fun _ => rfl) fun _ => ?_
    exact .bind_zero (.writePage _ _) fun _ => .pure _
  obtain ⟨d₁, d₂, d₃, d₄, r₁, r₂, r₃, r₄, i₁, i₂, i₃, i₄, hn⟩ :=
    rootPage_spec (τ := τ) ht hmin hk T.alloc.1 (h.lt32 hlu) (h.lt32 hr)
  obtain ⟨s₂, e₂, h₂, w₂, -⟩ := (h₁.setRoot T.alloc.1).write
    (show Tree.InUse { T.alloc.2 with root := T.alloc.1 } _ from h.ids.alloc.2.1) hn
  refine .of_ends ((ends_buf i₁).bind ((ends_buf i₂).bind ((ends_buf i₃).bind ((ends_buf i₄).bind
    ((Ends.modify _ s₁).bind (e₂.bind (.pure _ _))))))) ⟨h₂, ?_⟩
  refine w₁.trans (U := T.alloc.2) ⟨fun q hq hqr => w₂.pages q hq hqr, w₂.wired⟩ fun q hq =>
    ⟨by rwa [Tree.alloc_store], fun hqr => ?_⟩
  exact absurd (List.mem_singleton.mp hqr) (h.ids.alloc_ne hq)

/-! ## Halving an internal page -/

theorem splitInternalAt_grows (t : TreeConfig) (p : Nat) {wire : Key → Nat → TreeM Unit} {k : Nat}
    (hw : ∀ a b, Grows k (wire a b)) : Grows (1 + k) (splitInternalAt t p wire) := by
  refine .bind .allocatePage fun r => .bind_zero (.readPage _) fun page =>
    .bind_zero (.buf _) fun _ => .bind_zero (.writePage _ _) fun _ =>
    .bind_zero (.writePage _ _) fun _ => .bind_last (hw _ _) fun _ => .pure _

/-- The two halves as they were written. -/
structure Halved (t : TreeConfig) (τ : Prop) (T : Tree) (p : Nat) (ps : List Pair)
    (s s' : TreeState) : Prop where
  holds : Holds t τ s' (T.splitNode p ps).2.2
  wrote : Wrote T [p] s s'
  lower : Tight (s'.page p)
  upper : Tight (s'.page T.alloc.1)

/-- The move of the upper pairs to a new page, and the compaction of the old one. -/
theorem movePairs_spec {data : Mem} (h : NodeAt τ t.keyWidth data (.inner ps)) (m r : Nat)
    (hm : m ≤ ps.length) :
    ∃ d₁ d₂, moveRecords (2 * ps.length - 2 * m) (2 * m) data (init Mem.zero r .internalPage) =
        .ok (d₁, d₂) ∧
      NodeAt τ t.keyWidth (compactify d₁) (.inner (ps.take m)) ∧ Tight (compactify d₁) ∧
      NodeAt τ t.keyWidth d₂ (.inner (ps.drop m)) ∧ Tight d₂ := by
  have hcost := h.pairs_le
  obtain ⟨hv, htype, he, hk⟩ := h
  have hlen : (entries data).length = 2 * m + (2 * ps.length - 2 * m) := by
    rw [he, length_pairEntries]; omega
  have hdrop : (entries data).drop (2 * m) = pairEntries (ps.drop m) := by
    rw [he, drop_pairEntries]
  have htake : (entries data).take (2 * m) = pairEntries (ps.take m) := by
    rw [he, take_pairEntries]
  obtain ⟨d₁, d₂, e, hv₁, m₁, l₁, f₂, m₂⟩ := moveRecords_spec (2 * ps.length - 2 * m) (2 * m) data
    (init Mem.zero r .internalPage) [] hv (filled_init ..) hlen (by
      rw [hdrop, liveEntries_pairEntries,
        cost_pairEntries fun pr hpr => (hk pr (List.mem_of_mem_drop hpr)).1]
      refine Nat.le_trans (Nat.le_of_eq (Nat.zero_add _)) (Nat.le_trans ?_ hcost)
      exact Nat.mul_le_mul_right _ (by rw [List.length_drop]; omega))
  obtain ⟨c₁, c₂, c₃, -⟩ := compactify_spec hv₁
  refine ⟨d₁, d₂, e, ⟨c₂, ?_, ?_, fun pr hpr => hk pr (List.mem_of_mem_take hpr)⟩, c₃,
    ⟨f₂.valid, ?_, ?_, fun pr hpr => hk pr (List.mem_of_mem_drop hpr)⟩, f₂.tight⟩
  · rw [(m₁.trans (compactify_sameMeta hv₁)).pageType]; exact htype
  · rw [c₁, l₁, htake, liveEntries_pairEntries]
  · rw [m₂.pageType, init_pageType]
  · rw [f₂.entries, hdrop, List.nil_append, map_liveRecordsOf, liveEntries_pairEntries]

/-- Slot 0 of the new page is the separator. -/
theorem upperKey_spec (ht : t.Numeric) {data : Mem}
    (h : NodeAt τ t.keyWidth data (.inner (ps.drop (ps.length / 2)))) (hlen : 0 < ps.length) :
    (keyAt t data 0).Is t (T.splitNode p ps).2.1 := by
  have hlt : ps.length / 2 < ps.length := by omega
  have hdrop : 0 < (ps.drop (ps.length / 2)).length := by rw [List.length_drop]; omega
  obtain ⟨k₁, k₂⟩ := keyAt_pair ht h hdrop
  have hval : (T.splitNode p ps).2.1 = (ps.drop (ps.length / 2))[0].1 := by
    rw [Tree.splitNode_snd, List.getElem?_eq_getElem hlt]; simp
  rw [hval]
  exact ⟨k₁, k₂, (h.2.2.2 _ (List.getElem_mem hdrop)).1⟩

theorem splitInternalAt_tracks (ht : t.Numeric) (h : Holds t τ s T)
    (hp : T.store p = some (.inner ps)) (hlen : 2 ≤ ps.length) (wire : Key → Nat → TreeM Unit)
    {k : Nat} (hg : ∀ a b, Grows k (wire a b)) (hk : k < 2 ^ 31) {R : TreeState → TreeState → Prop}
    {m : Nat} (hm : (T.splitNode p ps).2.2.next ≤ m)
    (hw : ∀ s₁ sepKey, Halved t τ T p ps s s₁ → sepKey.Is t (T.splitNode p ps).2.1 →
      Tracks m (wire sepKey T.alloc.1) s₁ fun _ s₂ => R s₁ s₂) :
    Tracks m (splitInternalAt t p wire) s fun a s₂ => a = T.alloc.1 ∧
      ∃ s₁, Halved t τ T p ps s s₁ ∧ R s₁ s₂ := by
  have hpn : T.store p ≠ none := by rw [hp]; simp
  have hpu := h.inUse hpn
  refine Tracks.alloc h (k := k) hm (fun r => ?_) hk fun s₁ h₁ w₁ => ?_
  · exact .bind_zero (.readPage _) fun page => .bind_zero (.buf _) fun _ =>
      .bind_zero (.writePage _ _) fun _ => .bind_zero (.writePage _ _) fun _ =>
      .bind_last (hg _ _) fun _ => .pure _
  have hp₁ : T.alloc.2.store p = some (.inner ps) := by rw [Tree.alloc_store]; exact hp
  have hna := h₁.nodeAt hp₁
  have hcount : getSlotCount (s₁.page p) = 2 * ps.length := by
    rw [length_of_entries hna.2.2.1, length_pairEntries]
  have hpivot : getSlotCount (s₁.page p) / 2 / 2 * 2 = 2 * (ps.length / 2) := by
    rw [hcount]; omega
  obtain ⟨d₁, d₂, e, n₁, t₁, n₂, t₂⟩ := movePairs_spec hna (ps.length / 2) T.alloc.1 (by omega)
  obtain ⟨s₂, e₂, h₂, w₂, g₂⟩ := h₁.write hpu.alloc n₁
  have hfu : (T.alloc.2.setNode p (.inner (ps.take (ps.length / 2)))).InUse T.alloc.1 :=
    h.ids.alloc.2.1
  obtain ⟨s₃, e₃, h₃, w₃, g₃⟩ := h₂.write hfu n₂
  have hpf := h.ids.alloc_ne hpn
  have hH : Halved t τ T p ps s s₃ := by
    refine ⟨h₃, ?_, ?_, ?_⟩
    · have w₁₂ : Wrote T [p] s s₂ := (w₁.mono (by simp)).trans w₂
        fun q hq => ⟨by rwa [Tree.alloc_store], id⟩
      refine w₁₂.trans w₃ fun q hq => ⟨Tree.setNode_mono _ _ _ (by rwa [Tree.alloc_store]), ?_⟩
      exact fun hqf => absurd (List.mem_singleton.mp hqf) (h.ids.alloc_ne hq)
    · rw [w₃.pages p (by rw [Tree.setNode_self]; simp) (by simpa using hpf), g₂]
      exact (pageOf_congr n₁.1).2.2 t₁
    · rw [g₃]; exact (pageOf_congr n₂.1).2.2 t₂
  have hsep := upperKey_spec (T := T) (p := p) ht n₂ (by omega)
  refine Tracks.step (h₁.read hp₁) ?_
  dsimp only
  rw [hpivot, hcount]
  refine Tracks.step (ends_buf e) (Tracks.step e₂ (Tracks.step e₃ ?_))
  exact ((hw s₃ _ hH hsep).ret T.alloc.1).mono fun a s₄ ⟨ha, _, hR⟩ => ⟨ha, s₃, hH, hR⟩

/-! ## Handing a new page upwards -/

/-- The page `insertIntoParent` works on: compacted if the gap is too small,
which it still is exactly if no pair fits. -/
theorem parentPage_spec {data : Mem} (h : NodeAt τ t.keyWidth data (.inner ps)) :
    ∃ page, (if getFreeSpace data < t.keyWidth + 12 then compactify data else data) = page ∧
      NodeAt τ t.keyWidth page (.inner ps) ∧
      (getFreeSpace page < t.keyWidth + 12 ↔ ¬ pairRoom t.keyWidth ps = true) := by
  obtain ⟨hv, htype, he, hk⟩ := h
  have hcost := cost_pairEntries fun pr hpr => (hk pr hpr).1
  have hsucc : (ps.length + 1) * (t.keyWidth + 12) = ps.length * (t.keyWidth + 12) + (t.keyWidth + 12) :=
    Nat.succ_mul ..
  have hsize : PAGE_SIZE - sizeofHeader = 4056 := rfl
  simp only [pairRoom_iff, hsucc]
  split
  · next hgap =>
    obtain ⟨c₁, c₂, c₃, -⟩ := compactify_spec hv
    have hfree := c₃.freeSpace c₂
    rw [c₁, he, liveEntries_pairEntries, hcost] at hfree
    refine ⟨_, rfl, ⟨c₂, ?_, ?_, hk⟩, by omega⟩
    · rw [(compactify_sameMeta hv).pageType]; exact htype
    · rw [c₁, he, liveEntries_pairEntries]
  · next hgap =>
    have h1 := getFreeSpace_eq hv
    have h2 := hv.cost_le
    have h3 := hv.slots_le
    rw [he, hcost] at h2
    refine ⟨_, rfl, ⟨hv, htype, he, hk⟩, ?_⟩
    simp only [slotAddr_eq, PAGE_SIZE] at h1 h2 h3
    omega

/-- On a tight page a pair that fits fits the gap. -/
theorem gap_pairs {data : Mem} (ht : Tight data) (h : NodeAt τ t.keyWidth data (.inner ps))
    (hr : pairRoom t.keyWidth ps = true) : t.keyWidth + 12 ≤ getFreeSpace data := by
  obtain ⟨hv, -, he, hk⟩ := h
  have hfree := ht.freeSpace hv
  rw [he, cost_pairEntries fun pr hpr => (hk pr hpr).1] at hfree
  rw [pairRoom_iff, Nat.succ_mul] at hr
  simp only [PAGE_SIZE, sizeofHeader] at hfree
  omega

/-- Inserting the pair and writing the page back. -/
theorem addPair_ends (ht : t.Numeric) (h : Holds t τ s T) (hp : T.store p = some (.inner ps))
    {page : Mem} (hn : NodeAt τ t.keyWidth page (.inner ps))
    (hgap : t.keyWidth + 12 ≤ getFreeSpace page) (hk : sepKey.Is t sep) (hr : right < 2 ^ 32) :
    ∃ s', Ends (do
        let (r1, r2, page) ← buf (insertPair t page sepKey right)
        modify fun s => { s with wired := (r1, r2) :: s.wired }
        disk (writePage p page)) s ⟨⟩ s' ∧
      Holds t τ s' (T.addPair t.keyWidth p sep right) ∧ Wrote T [p] s s' := by
  obtain ⟨d, r₁, r₂, e, -, hd⟩ := insertPair_spec ht hn hk.decodes hk.carries hk.width hr hgap
  have hu := h.inUse (show T.store p ≠ none by rw [hp]; simp)
  obtain ⟨s', e', h', w', -⟩ := (h.setWired ((some r₁, some r₂) :: s.wired)).write hu hd
  refine ⟨s', (ends_buf e).bind ((Ends.modify _ s).bind e'), by rwa [Tree.addPair_eq hp], ?_⟩
  obtain ⟨new, hnew, hall⟩ := w'.wired
  refine ⟨fun q hq hqp => w'.pages q hq hqp, new ++ [(some r₁, some r₂)], ?_, fun r hr => ?_⟩
  · rw [hnew]; simp
  · rcases List.mem_append.mp hr with hr | hr
    · exact hall r hr
    · rw [List.mem_singleton.mp hr]; simp

theorem insertIntoParent_grows (t : TreeConfig) : ∀ (bt : BTStack) (k : Key) (right : Nat),
    Grows (bt.length + 1) (insertIntoParent t bt k right)
  | [], _, _ => (Grows.throw _).mono (by omega)
  | back :: rest, k, right => by
    have hwire : ∀ a b, Grows (rest.length + 1) (do
        if rest.isEmpty then let _ ← splitRoot t back.pageId a b
        else insertIntoParent t rest a b) := fun a b => by
      refine .ite ?_ (insertIntoParent_grows t rest a b)
      exact ((splitRoot_grows t _ a b).bind_last fun _ => .pure _).mono (by omega)
    -- what follows once the page to insert into is chosen
    have hrest : ∀ x : Nat × Mem, Grows 0 (do
        let (r1, r2, page) ← buf (insertPair t x.2 k right)
        modify fun s => { s with wired := (r1, r2) :: s.wired }
        disk (writePage x.1 page)) := fun x =>
      .bind_zero (.buf _) fun _ => .bind_zero (.modify fun _ => rfl) fun _ => .writePage _ _
    unfold insertIntoParent
    refine .bind_zero (.readPage _) fun page => .ite ?_ ?_
    · refine (Grows.bind_last (splitInternalAt_grows t _ hwire) fun q => ?_).mono
        (by rw [List.length_cons]; omega)
      exact .bind_zero (.readPage _) fun _ => .bind_zero (.buf _) fun _ =>
        .bind_zero (.readPage _) fun _ => .bind_zero (.pure _) hrest
    · exact (Grows.bind_zero (.pure _) hrest).mono (by omega)

theorem wireUp_grows (t : TreeConfig) (bt : BTStack) (left : Nat) (k : Key) (right : Nat) :
    Grows (bt.length + 1) (wireUp t bt left k right) :=
  .ite (((splitRoot_grows t _ k right).bind_last fun _ => .pure _).mono (by omega))
    (insertIntoParent_grows t bt k right)

theorem wireUp_tracks (ht : t.Numeric) : ∀ (bt : BTStack) (s : TreeState) (T : Tree) (left : Nat)
    (sep : Bytes) (right : Nat) (sepKey : Key), Holds t τ s T →
    (bt = [] → ∃ n, T.store left = some n ∧ n.HasMin t.keyWidth) →
    (bt.map Breadcrumb.pageId).Nodup →
    (∀ q ∈ bt.map Breadcrumb.pageId, ∃ ps, T.store q = some (.inner ps)) → bt.length < 2 ^ 30 →
    sepKey.Is t sep → T.InUse right →
    Tracks (Tree.wire t.keyWidth (bt.map Breadcrumb.pageId) T left sep right).next
      (wireUp t bt left sepKey right) s fun _ s' =>
      Holds t τ s' (Tree.wire t.keyWidth (bt.map Breadcrumb.pageId) T left sep right) ∧
        Wrote T (bt.map Breadcrumb.pageId) s s'
  | [], s, T, left, sep, right, sepKey, h, hl, _, _, _, hk, hr => by
    obtain ⟨n, hn, hm⟩ := hl rfl
    exact ((splitRoot_tracks ht h hn hm hk hr).ret ()).mono fun _ _ ⟨_, _, hQ⟩ => hQ
  | back :: rest, s, T, left, sep, right, sepKey, h, _, hnd, hin, hlen, hk, hr => by
    have hw := ht.width_le
    obtain ⟨ps, hp⟩ := hin back.pageId (by simp)
    have hpn : T.store back.pageId ≠ none := by rw [hp]; simp
    simp only [List.map_cons, List.nodup_cons] at hnd
    obtain ⟨hpr, hnd'⟩ := hnd
    have hlen' : rest.length + 1 < 2 ^ 30 := hlen
    have hr32 := h.lt32 hr
    have hneed : (sepKey.size + 4 + sizeofSlot * 2) % 2 ^ 16 = t.keyWidth + 12 := by
      rw [hk.carries.size, hk.width]; simp only [sizeofSlot]; omega
    change Tracks _ (insertIntoParent t (back :: rest) sepKey right) s _
    unfold insertIntoParent
    refine Tracks.step (h.read hp) ?_
    dsimp only
    rw [hneed]
    obtain ⟨page, hpage, hnp, hroom⟩ := parentPage_spec (h.nodeAt hp)
    rw [hpage, List.map_cons, Tree.wire_cons hp]
    by_cases hrm : pairRoom t.keyWidth ps = true
    · -- the pair fits
      have hgap : ¬ getFreeSpace page < t.keyWidth + 12 := fun hc => hroom.mp hc hrm
      rw [if_neg hgap, if_pos hrm]
      obtain ⟨s', e, h', w'⟩ := addPair_ends ht h hp hnp (by omega) hk hr32
      exact Tracks.step (.pure _ _) (.of_ends e ⟨h', w'.mono fun q hq => by
        rw [List.mem_singleton.mp hq]; simp⟩)
    · -- the page is halved first, and the levels above take the new one
      rw [if_pos (hroom.mpr hrm), if_neg hrm]
      obtain ⟨hlen4, hr1, hr2⟩ := pairRoom_half hw.2 (h.nodeAt hp).pairs_le hrm
      obtain ⟨hs1, hs2, hs3⟩ := Tree.splitNode_store ps h.ids hpn
      have hI' := Tree.splitNode_ids ps h.ids hpn
      have hpf := h.ids.alloc_ne hpn
      have hne : ∀ q ∈ rest.map Breadcrumb.pageId, q ≠ back.pageId ∧ q ≠ T.alloc.1 := fun q hq => by
        obtain ⟨qs, hqs⟩ := hin q (by rw [List.map_cons]; exact List.mem_cons_of_mem _ hq)
        exact ⟨fun e => hpr (e ▸ hq), h.ids.alloc_ne (by rw [hqs]; simp)⟩
      have hin' : ∀ q ∈ rest.map Breadcrumb.pageId, ∃ qs,
          (T.splitNode back.pageId ps).2.2.store q = some (.inner qs) := fun q hq => by
        obtain ⟨qs, hqs⟩ := hin q (by rw [List.map_cons]; exact List.mem_cons_of_mem _ hq)
        exact ⟨qs, by rw [hs3 q (hne q hq).1 (hne q hq).2]; exact hqs⟩
      have hsplit := splitInternalAt_tracks ht h hp (by omega)
        (fun sep fresh => wireUp t rest back.pageId sep fresh)
        (fun a b => wireUp_grows t rest back.pageId a b) (by omega)
        (R := fun s₁ s₂ => Holds t τ s₂ (Tree.wire t.keyWidth (rest.map Breadcrumb.pageId)
            (T.splitNode back.pageId ps).2.2 back.pageId (T.splitNode back.pageId ps).2.1 T.alloc.1) ∧
          Wrote (T.splitNode back.pageId ps).2.2 (rest.map Breadcrumb.pageId) s₁ s₂)
        (took_wire (w := t.keyWidth) _ _ back.pageId (T.splitNode back.pageId ps).2.1 T.alloc.1 hI'
          hnd' hin').next_le
        fun s₁ k₁ h₁ hk₁ => by
          refine wireUp_tracks ht rest s₁ _ back.pageId _ T.alloc.1 k₁ h₁.holds
            (fun _ => ⟨_, hs1, ?_⟩) hnd' hin' (by omega) hk₁ (hI'.used _ (by rw [hs2]; simp))
          simp only [Node.HasMin, ne_eq, List.take_eq_nil_iff, not_or]
          exact ⟨by omega, fun e => by rw [e] at hlen4; simp at hlen4⟩
      have hnext : nextId s ≤ 2 ^ 20 := by rw [h.next]; exact h.next_le
      refine (hsplit.le (took_addPair _ _ _ _).next_le).bind
        (splitInternalAt_grows t _ fun a b => wireUp_grows t rest _ a b)
        (fun q => .bind_zero (.readPage _) fun _ => .bind_zero (.buf _) fun _ =>
          .bind_zero (.readPage _) fun _ => .bind_zero (.pure _) fun _ =>
          .bind_zero (.buf _) fun _ => .bind_zero (.modify fun _ => rfl) fun _ => .writePage _ _)
        (by omega) ?_
      rintro q s₂ ⟨rfl, s₁, h₁, h₂, w₂⟩
      -- the two halves are still as `splitInternalAt` wrote them
      have hfresh : T.alloc.1 ∉ rest.map Breadcrumb.pageId := fun hq => (hne _ hq).2 rfl
      have hP₁ : (T.splitNode back.pageId ps).2.2.store back.pageId ≠ none := by rw [hs1]; simp
      have hQ₁ : (T.splitNode back.pageId ps).2.2.store T.alloc.1 ≠ none := by rw [hs2]; simp
      have hP₂ := (Tree.wire_store (w := t.keyWidth) _ _ back.pageId (T.splitNode back.pageId ps).2.1
        T.alloc.1 hI' (hI'.used _ hP₁) hpr).trans hs1
      have hQ₂ := (Tree.wire_store (w := t.keyWidth) _ _ back.pageId (T.splitNode back.pageId ps).2.1
        T.alloc.1 hI' (hI'.used _ hQ₁) hfresh).trans hs2
      have hw₂ : Wrote T (back.pageId :: rest.map Breadcrumb.pageId) s s₂ :=
        (h₁.wrote.mono (by simp)).trans w₂ fun q hq =>
          ⟨Tree.splitNode_mono h.ids hpn hq, fun hqr => List.mem_cons_of_mem _ hqr⟩
      have hmono : ∀ q, T.store q ≠ none → Tree.store (Tree.wire t.keyWidth
          (rest.map Breadcrumb.pageId) (T.splitNode back.pageId ps).2.2 back.pageId
          (T.splitNode back.pageId ps).2.1 T.alloc.1) q ≠ none := fun q hq =>
        Tree.wire_mono _ _ _ _ _ hI' (Tree.splitNode_mono h.ids hpn hq)
      have hfirst := upperKey_spec (T := T) (p := back.pageId) ht (h₂.nodeAt hQ₂) (by omega)
      have hcmp := compare_decodes hfirst.decodes hk.decodes
      refine Tracks.step (h₂.read hQ₂) (Tracks.step (ends_buf hcmp) ?_)
      by_cases hc : keyOf t.keyWidth (T.splitNode back.pageId ps).2.1 < keyOf t.keyWidth sep
      · have htight := h₁.upper
        rw [← w₂.pages _ hQ₁ hfresh] at htight
        obtain ⟨s₃, e₃, h₃, w₃⟩ := addPair_ends ht h₂ hQ₂ (h₂.nodeAt hQ₂)
          (gap_pairs htight (h₂.nodeAt hQ₂) hr2) hk hr32
        simp only [hc, if_true]
        refine Tracks.step (h₂.read hQ₂) (Tracks.step (.pure _ _) (.of_ends e₃ ⟨h₃, ?_⟩))
        exact hw₂.trans w₃ fun q hq => ⟨hmono q hq, fun hqf =>
          absurd (List.mem_singleton.mp hqf) (h.ids.alloc_ne hq)⟩
      · have htight := h₁.lower
        rw [← w₂.pages _ hP₁ hpr] at htight
        obtain ⟨s₃, e₃, h₃, w₃⟩ := addPair_ends ht h₂ hP₂ (h₂.nodeAt hP₂)
          (gap_pairs htight (h₂.nodeAt hP₂) hr1) hk hr32
        have hc' : ¬ (if keyOf t.keyWidth (T.splitNode back.pageId ps).2.1 > keyOf t.keyWidth sep
          then (1 : Int) else 0) < 0 := by split <;> omega
        simp only [hc, if_false, hc']
        refine Tracks.step (h₂.read hP₂) (Tracks.step (.pure _ _) (.of_ends e₃ ⟨h₃, ?_⟩))
        exact hw₂.trans w₃ fun q hq => ⟨hmono q hq, fun hqf => by
          rw [List.mem_singleton.mp hqf]; simp⟩

/-! ## Halving a leaf -/

theorem liveEntries_eq_nil {es : List Entry} : liveEntries es = [] ↔ ∀ b, .live b ∉ es := by
  rw [← map_liveRecordsOf, List.map_eq_nil_iff]
  refine ⟨fun h b hb => ?_, fun h => List.eq_nil_iff_forall_not_mem.mpr fun b hb => ?_⟩
  · have := mem_liveRecordsOf.mpr hb
    rw [h] at this
    exact List.not_mem_nil this
  · exact h b (mem_liveRecordsOf.mp hb)

/-- A list of live records that is not empty starts with one. -/
theorem liveEntries_cons {es : List Entry} {b : Bytes} (h : .live b ∈ es) :
    ∃ b' rest, liveEntries es = .live b' :: rest ∧ .live b' ∈ es := by
  cases hl : liveEntries es with
  | nil => exact absurd h (liveEntries_eq_nil.mp hl b)
  | cons e rest =>
    have hm : e ∈ liveEntries es := by rw [hl]; exact List.mem_cons_self
    obtain ⟨he, hlive⟩ := List.mem_filter.mp hm
    cases e with
    | live b' => exact ⟨b', rest, rfl, he⟩
    | dead n => simp at hlive

/-- The new left and right page of a leaf split. -/
theorem splitPages_spec {data : Mem} {es : List Entry} {r : Nat}
    (h : NodeAt τ t.keyWidth data (.leaf es left right)) (hr : r < 2 ^ 32) (hp : p < 2 ^ 32)
    {pivot : Nat} (hpv : pivot ≤ es.length) :
    ∃ d₁ d₂, moveRecords (es.length - pivot) pivot (setRightSibling data r)
        (setRightSibling (setLeftSibling (init Mem.zero r .leafPage) p) right) = .ok (d₁, d₂) ∧
      NodeAt τ t.keyWidth (compactify d₁) (.leaf (liveEntries (es.take pivot)) left r) ∧
      NodeAt τ t.keyWidth d₂ (.leaf (liveEntries (es.drop pivot)) p right) := by
  obtain ⟨hv, hτ, htype, he, hl, hrt⟩ := h
  have hright : right < 2 ^ 32 := by rw [← hrt]; exact readLE_lt _ 4 32
  obtain ⟨a₁, a₂, -, a₄, a₅, a₆⟩ := setRight_spec hv hr
  have f₀ := filled_init Mem.zero r .leafPage
  obtain ⟨b₁, b₂, b₃, b₄, b₅, b₆⟩ := setLeft_spec f₀.valid hp
  obtain ⟨c₁, c₂, c₃, c₄, c₅, c₆⟩ := setRight_spec b₂ hright
  have hcost := cost_room hv
  have hdrop : cost (liveEntries (es.drop pivot)) ≤ cost es := by
    have h1 := cost_live_dead (es.drop pivot)
    have h2 : cost (es.take pivot) + cost (es.drop pivot) = cost es := by
      rw [← cost_append, List.take_append_drop]
    omega
  obtain ⟨d₁, d₂, e, g₁, m₁, l₁, f₂, m₂⟩ := moveRecords_spec (es.length - pivot) pivot
    (setRightSibling data r) (setRightSibling (setLeftSibling (init Mem.zero r .leafPage) p) right)
    [] a₂ ⟨c₂, c₃ (b₃ f₀.tight), c₁.trans (b₁.trans f₀.entries)⟩ (by rw [a₁, he]; omega)
    (by rw [a₁, he]; rw [he] at hcost; simp only [List.map_nil, cost_nil]; omega)
  obtain ⟨k₁, k₂, k₃, -⟩ := compactify_spec g₁
  have m₁' := m₁.trans (compactify_sameMeta g₁)
  refine ⟨d₁, d₂, e, ⟨k₂, fun _ => k₃, ?_, ?_, ?_, ?_⟩, ⟨f₂.valid, fun _ => f₂.tight, ?_, ?_, ?_, ?_⟩⟩
  · rw [m₁'.pageType, a₄, htype]
  · rw [k₁, l₁, a₁, he]
  · rw [m₁'.left, a₅, hl]
  · rw [m₁'.right, a₆]
  · rw [m₂.pageType, c₄, b₄, init_pageType]
  · rw [f₂.entries, List.nil_append, map_liveRecordsOf, a₁, he]
  · rw [m₂.left, c₅, b₅]
  · rw [m₂.right, c₆]

/-- Slots on both sides of the middle hold records. -/
structure Halves (es : List Entry) : Prop where
  lower : ∃ b, .live b ∈ es.take (es.length / 2)
  upper : ∃ b, .live b ∈ es.drop (es.length / 2)

theorem pivotOf_le (es : List Entry) : Tree.pivotOf es ≤ es.length := by
  have : (es.drop (es.length / 2)).findIdx Entry.isLive ≤ (es.drop (es.length / 2)).length :=
    List.findIdx_le_length
  rw [List.length_drop] at this
  rw [Tree.pivotOf]; omega

/-- The pivot is live. -/
theorem pivotOf_live {es : List Entry} (h : ∃ b, .live b ∈ es.drop (es.length / 2)) :
    ∃ b rest, es.drop (Tree.pivotOf es) = .live b :: rest := by
  obtain ⟨b, hb⟩ := h
  have hlt : (es.drop (es.length / 2)).findIdx Entry.isLive < (es.drop (es.length / 2)).length :=
    List.findIdx_lt_length_of_exists ⟨_, hb, rfl⟩
  have hlive := List.findIdx_getElem (w := hlt)
  rw [Tree.pivotOf, ← List.drop_drop, List.drop_eq_getElem_cons hlt]
  cases he : (es.drop (es.length / 2))[(es.drop (es.length / 2)).findIdx Entry.isLive] with
  | live b => exact ⟨b, _, rfl⟩
  | dead n => rw [he] at hlive; simp at hlive

theorem splitLeaf_grows (t : TreeConfig) (p : Nat) : Grows 1 (splitLeaf t p) := by
  refine .bind_last .allocatePage fun r => .bind_zero (.readPage _) fun page =>
    .bind_zero (.buf _) fun _ => .bind_zero (.buf _) fun _ => .bind_zero (.writePage _ _) fun _ =>
    .bind_zero (.writePage _ _) fun _ => .ite ?_ (.bind_zero (.pure _) fun _ => .pure _)
  exact .bind_zero (.readPage _) fun _ => .bind_zero (.writePage _ _) fun _ => .pure _

theorem splitLeaf_tracks (ht : t.Numeric) (h : Holds t τ s T) {es : List Entry}
    (hp : T.store p = some (.leaf es left right)) (hlong : LongEnough t.keyWidth es)
    (hu : ∃ b, .live b ∈ es.drop (es.length / 2))
    (hr : right = INVALID_PAGE_ID ∨ T.IsLeaf right) :
    Tracks T.alloc.2.next (splitLeaf t p) s fun a s' => a.2 = (T.splitLeaf t.keyWidth p es left right).1 ∧
      a.1.Is t (T.splitLeaf t.keyWidth p es left right).2.1 ∧
      Holds t τ s' (T.splitLeaf t.keyWidth p es left right).2.2 ∧ Wrote T [p, right] s s' := by
  have hpn : T.store p ≠ none := by rw [hp]; simp
  have hpu := h.inUse hpn
  have hpf := h.ids.alloc_ne hpn
  refine Tracks.alloc h (k := 0) (Nat.le_refl _) (fun r => ?_) (by omega) fun s₁ h₁ w₁ => ?_
  · refine .bind_zero (.readPage _) fun page => .bind_zero (.buf _) fun _ => .bind_zero (.buf _) fun _ =>
      .bind_zero (.writePage _ _) fun _ => .bind_zero (.writePage _ _) fun _ => .ite ?_ ?_
    · exact .bind_zero (.readPage _) fun _ => .bind_zero (.writePage _ _) fun _ => .pure _
    · exact .bind_zero (.pure _) fun _ => .pure _
  have hp₁ : T.alloc.2.store p = some (.leaf es left right) := by rw [Tree.alloc_store]; exact hp
  have hna := h₁.nodeAt hp₁
  have hent := hna.2.2.2.1
  have hrt := hna.2.2.2.2.2
  have hcount : getSlotCount (s₁.page p) = es.length := length_of_entries hent
  have hslots := hna.1.slots_lt
  have hmax : maxSlotId (s₁.page p) = es.length := hcount
  have hwalk := walkPivot_spec hna.1 (2 ^ 16) (es.length / 2) (by rw [hent]; omega) (by rwa [hent])
  rw [hent] at hwalk
  change walkPivot (s₁.page p) (2 ^ 16) (es.length / 2) = .ok (Tree.pivotOf es) at hwalk
  have hfu : (T.alloc.2.setNode p (.leaf (liveEntries (es.take (Tree.pivotOf es))) left
      T.alloc.1)).InUse T.alloc.1 := h.ids.alloc.2.1
  obtain ⟨d₁, d₂, e, n₁, n₂⟩ := splitPages_spec hna (h₁.lt32 h.ids.alloc.2.1) (h.lt32 hpu)
    (pivotOf_le es)
  obtain ⟨s₂, e₂, h₂, w₂, g₂⟩ := h₁.write hpu.alloc n₁
  obtain ⟨s₃, e₃, h₃, w₃, g₃⟩ := h₂.write hfu n₂
  refine Tracks.step (h₁.read hp₁) ?_
  dsimp only
  rw [hcount, hrt]
  refine Tracks.step (ends_buf hwalk) (Tracks.step (ends_buf e) (Tracks.step e₂ (Tracks.step e₃ ?_)))
  have hw₃ : Wrote T [p, right] s s₃ := by
    have w₁₂ : Wrote T [p, right] s s₂ := (w₁.mono (by simp)).trans w₂ fun q hq =>
      ⟨by rwa [Tree.alloc_store], fun hqp => by rw [List.mem_singleton.mp hqp]; simp⟩
    exact w₁₂.trans w₃ fun q hq => ⟨Tree.setNode_mono _ _ _ (by rwa [Tree.alloc_store]),
      fun hqf => absurd (List.mem_singleton.mp hqf) (h.ids.alloc_ne hq)⟩
  -- the new page starts with a live record
  obtain ⟨b, rest, hb⟩ := pivotOf_live hu
  have hmin : (Node.leaf (liveEntries (es.drop (Tree.pivotOf es))) p right).HasMin t.keyWidth :=
    ⟨b, liveEntries rest, by rw [hb]; rfl,
      hlong b (List.mem_of_mem_drop (by rw [hb]; exact List.mem_cons_self))⟩
  unfold Tree.splitLeaf
  dsimp only
  by_cases hinv : right = INVALID_PAGE_ID
  · simp only [hinv, ne_eq, not_true_eq_false, if_false] at n₂ hmin h₃ hw₃ ⊢
    exact .of_ends (.pure _ _) ⟨rfl, keyAt_min ht n₂ hmin (Tree.setNode_self ..), h₃, hw₃⟩
  · have hleaf := hr.resolve_left hinv
    rw [if_pos hinv, if_pos hinv]
    obtain ⟨es', l', r', hright⟩ := hleaf
    have hrn : T.store right ≠ none := by rw [hright]; simp
    have hrf := h.ids.alloc_ne hrn
    obtain ⟨es₃, l₃, r₃, hright₃⟩ : Tree.IsLeaf ((T.alloc.2.setNode p
        (.leaf (liveEntries (es.take (Tree.pivotOf es))) left T.alloc.1)).setNode T.alloc.1
        (.leaf (liveEntries (es.drop (Tree.pivotOf es))) p right)) right := by
      rw [Tree.IsLeaf, Tree.setNode_of_ne _ _ hrf]
      by_cases hrp : right = p
      · rw [hrp, Tree.setNode_self]; exact ⟨_, _, _, rfl⟩
      · rw [Tree.setNode_of_ne _ _ hrp, Tree.alloc_store]; exact ⟨_, _, _, hright⟩
    obtain ⟨v₃, τ₃, y₃, x₃, -, z₃⟩ := h₃.nodeAt hright₃
    obtain ⟨a₁, a₂, a₃, a₄, a₅, a₆⟩ := setLeft_spec v₃ (h₁.lt32 h.ids.alloc.2.1)
    obtain ⟨s₄, e₄, h₄, w₄, -⟩ := h₃.write (h₃.inUse (by rw [hright₃]; simp))
      (show NodeAt τ t.keyWidth (setLeftSibling (s₃.page right) T.alloc.1)
        (.leaf es₃ T.alloc.1 r₃) from
        ⟨a₂, fun hτ => a₃ (τ₃ hτ), a₄.trans y₃, a₁.trans x₃, a₅, a₆.trans z₃⟩)
    have hrelink : ∀ T₃ : Tree, T₃.store right = some (.leaf es₃ l₃ r₃) →
        T₃.relinkLeft right T.alloc.1 = T₃.setNode right (.leaf es₃ T.alloc.1 r₃) := fun T₃ hT₃ => by
      rw [Tree.relinkLeft, hT₃]
    rw [hrelink _ hright₃]
    refine Tracks.step (h₃.read hright₃) (Tracks.step e₄ (.of_ends (.pure _ _) ⟨rfl, ?_, h₄, ?_⟩))
    · refine keyAt_min ht n₂ hmin ?_
      rw [Tree.setNode_of_ne _ _ (Ne.symm hrf), Tree.setNode_self]
    · exact hw₃.trans w₄ fun q hq => ⟨Tree.setNode_mono _ _ _
        (Tree.setNode_mono _ _ _ (by rwa [Tree.alloc_store])), fun hqr => by
          rw [List.mem_singleton.mp hqr]; simp⟩

end

end DbInternals.Index
