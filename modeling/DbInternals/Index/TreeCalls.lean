import DbInternals.Index.TreeSplit

/-!
# The calls

`insert`, `remove`, `get` and `splitChild` from a state that holds a tree of
the right shape: each is the function of the same name on the tree.

Results: `splitChild_tracks`, `insert_runs`, `remove_after`, `get_ends`.
-/
namespace DbInternals.Index

open Storage SlottedPage Mem

section
variable {t : TreeConfig} {τ : Prop} {s s' : TreeState} {T : Tree} {rank : Nat → Nat} {p : Nat}
  {x : Int} {es : List Entry} {left right : Nat} {stack : List Nat}

/-- The route of a search is a stack of internal pages, short enough for any bound. -/
theorem Route.stack_spec (h : Holds t τ s T) (hs : Shape t.keyWidth rank T)
    (hr : Route t.keyWidth T x p stack) : stack.Nodup ∧
      (∀ q ∈ stack, ∃ ps, T.store q = some (.inner ps)) ∧ stack.length < 2 ^ 20 := by
  refine ⟨hr.nodup hs, (hr.ranked hs).2.1, ?_⟩
  have h1 := hr.length_lt hs h.ids
  have h2 := h.next_le
  simp only [MAX_PAGES] at h2
  omega

/-- The search in the code and in the tree, at a leaf. -/
theorem findRecord_route (ht : t.Numeric) (h : Holds t τ s T) (hs : Shape t.keyWidth rank T)
    {key : Key} (hx : key.Decodes x) : ∃ p bt es left right,
      T.find t.keyWidth x = some (p, bt.map Breadcrumb.pageId) ∧
      Route t.keyWidth T x p (bt.map Breadcrumb.pageId) ∧
      T.store p = some (.leaf es left right) ∧
      Ends (findRecord t key) s ⟨p, lowerSlot t.keyWidth es x, bt⟩ s := by
  obtain ⟨p, stack, hf, hr, es, left, right, hp⟩ := find_route hs h.ids x
  obtain ⟨bt, rfl, e⟩ := findRecord_ends ht h hx hf hp (hs.long p es left right hp)
  exact ⟨p, bt, es, left, right, hf, hr, hp, e⟩

/-! ## How many pages a call takes -/

theorem descend_grows (t : TreeConfig) (k : Key) : ∀ (fuel p : Nat) (data : Mem) (bt : BTStack),
    Grows 0 (descend t k fuel p data bt)
  | 0, _, _, _ => .throw _
  | fuel + 1, p, data, bt => by
    unfold descend
    refine .ite (.pure _) (.bind_zero (.buf _) fun _ => .bind_zero (.buf _) fun _ => ?_)
    exact .bind_zero (.readPage _) fun _ => descend_grows t k fuel _ _ _

theorem findRecord_grows (t : TreeConfig) (k : Key) : Grows 0 (findRecord t k) := by
  unfold findRecord
  refine .bind_zero .get fun _ => .bind_zero (.readPage _) fun _ => .bind_zero .get fun _ => ?_
  exact .bind_zero (descend_grows t k _ _ _ _) fun _ => .bind_zero (.buf _) fun _ => .pure _

theorem splitChild_grows (t : TreeConfig) (bt : BTStack) (k : Key) :
    Grows (bt.length + 2) (splitChild t bt k) := by
  unfold splitChild
  refine .bind_zero (findRecord_grows t k) fun m => ?_
  have hrest : ∀ a : Key × Nat, Grows (bt.length + 1) (do
      wireUp t bt m.leafPage a.1 a.2
      return a.2) := fun a => .bind_last (wireUp_grows t bt _ _ _) fun _ => .pure _
  exact ((splitLeaf_grows t m.leafPage).bind hrest).mono (by omega)

/-- `insert` takes at most two pages more than there are levels. -/
theorem insert_nextId (ht : t.Numeric) (h : Holds t τ s T) (hs : Shape t.keyWidth rank T) {v : View}
    {r : Bytes} (hv : v.Sees r) (hw : t.keyWidth ≤ r.length) :
    nextId (after (insert t v r.length) s) ≤ 2 * nextId s + 2 := by
  obtain ⟨p, bt, es, left, right, hf, hr, hp, e⟩ :=
    findRecord_route ht h hs (extractKey_spec ht hv hw).1
  have hlen := hr.length_lt hs h.ids
  have hnext := h.next
  have hmax := h.next_le
  rw [List.length_map] at hlen
  simp only [MAX_PAGES] at hmax
  unfold insert
  rw [after_bind e, after_bind (h.read hp)]
  dsimp only
  refine (Grows.after (k := bt.length + 2) ?_ (by omega)).2.trans (by omega)
  refine .bind_zero (.buf _) fun a => ?_
  obtain ⟨slot, leaf⟩ := a
  cases slot with
  | none => exact .bind_last (splitChild_grows t bt _) fun _ => .pure _
  | some i => exact (Grows.bind_last (.writePage _ _) fun _ => .pure _).mono (by omega)

/-! ## `splitChild` -/

theorem took_splitChild (hi : T.Ids) (hp : T.store p = some (.leaf es left right))
    (hnd : stack.Nodup) (hin : ∀ q ∈ stack, ∃ ps, T.store q = some (.inner ps)) :
    Took (1 + T.levels w stack) T (T.splitChild w p es left right stack) := by
  have hpn : T.store p ≠ none := by simp [hp]
  have hsame : ∀ q ∈ stack, (T.splitLeaf w p es left right).2.2.store q = T.store q := by
    intro q hq
    obtain ⟨ps, hps⟩ := hin q hq
    rw [hps]
    exact (Tree.splitLeaf_inner hi hp).mpr hps
  have hwire := took_wire (w := w) stack _ p (T.splitLeaf w p es left right).2.1 T.alloc.1
    (Tree.splitLeaf_ids (w := w) es left right hi hpn) hnd fun q hq => by
      rw [hsame q hq]
      exact hin q hq
  rw [Tree.levels_congr hsame] at hwire
  exact (took_splitLeaf T p es left right).trans hwire

theorem splitChild_tracks (ht : t.Numeric) (h : Holds t τ s T) (hs : Shape t.keyWidth rank T)
    {child : Key} (hx : child.Decodes x) {bt : BTStack}
    (hf : T.find t.keyWidth x = some (p, bt.map Breadcrumb.pageId))
    (hr : Route t.keyWidth T x p (bt.map Breadcrumb.pageId))
    (hp : T.store p = some (.leaf es left right)) (hh : Halves es) :
    Tracks (T.splitChild t.keyWidth p es left right (bt.map Breadcrumb.pageId)).next
      (splitChild t bt child) s fun a s' => a = T.alloc.1 ∧
      Holds t τ s' (T.splitChild t.keyWidth p es left right (bt.map Breadcrumb.pageId)) ∧
      Wrote T (p :: right :: bt.map Breadcrumb.pageId) s s' := by
  have hpn : T.store p ≠ none := by rw [hp]; simp
  obtain ⟨hnd, hin, hlen⟩ := hr.stack_spec h hs
  obtain ⟨bt', hbt, e⟩ := findRecord_ends ht h hx hf hp (hs.long p es left right hp)
  rw [List.length_map] at hlen
  have hnext : nextId s ≤ 2 ^ 20 := by rw [h.next]; exact h.next_le
  have hI₁ := Tree.splitLeaf_ids (w := t.keyWidth) es left right h.ids hpn
  have hin₁ : ∀ q ∈ bt.map Breadcrumb.pageId, ∃ ps,
      (T.splitLeaf t.keyWidth p es left right).2.2.store q = some (.inner ps) := fun q hq => by
    obtain ⟨ps, hps⟩ := hin q hq
    exact ⟨ps, (Tree.splitLeaf_inner h.ids hp).mpr hps⟩
  have hle := (took_wire (w := t.keyWidth) _ _ p (T.splitLeaf t.keyWidth p es left right).2.1
    T.alloc.1 hI₁ hnd hin₁).next_le
  rw [(took_splitLeaf T p es left right).next, ← (took_alloc T).next] at hle
  apply Tracks.step e
  refine ((splitLeaf_tracks ht h hp (hs.long p es left right hp) hh.upper
    (hs.sibling p es left right hp)).le hle).bind (splitLeaf_grows t p)
    (fun a => (wireUp_grows t bt p a.1 a.2).bind_last fun _ => .pure _) (by omega) ?_
  rintro ⟨k, f⟩ s₁ ⟨rfl, hk, h₁, w₁⟩
  obtain ⟨⟨l₁, hp₁⟩, ⟨l₂, hf₁⟩, -⟩ := Tree.splitLeaf_of_leaf (w := t.keyWidth) h.ids hp
  have hwire := wireUp_tracks ht bt s₁ _ p _ T.alloc.1 k h₁ (fun _ => ⟨_, hp₁, ?_⟩) hnd hin₁
    (by omega) hk (hI₁.used _ (by rw [hf₁]; simp))
  · change Tracks _ (wireUp t bt p k T.alloc.1 >>= fun _ => pure T.alloc.1) s₁ _
    apply (hwire.ret _).mono
    rintro a s₂ ⟨rfl, _, h₂, w₂⟩
    refine ⟨rfl, h₂, ?_⟩
    refine (w₁.mono (by simp)).trans w₂ fun q hq => ⟨Tree.splitLeaf_mono h.ids hpn hq, fun hqs => ?_⟩
    exact List.mem_cons_of_mem _ (List.mem_cons_of_mem _ hqs)
  · obtain ⟨b, hb⟩ := hh.lower
    have hb' : Entry.live b ∈ es.take (Tree.pivotOf es) :=
      (List.take_prefix_take_left (by rw [Tree.pivotOf]; omega)).subset hb
    obtain ⟨b', rest, e', hm⟩ := liveEntries_cons hb'
    exact ⟨b', rest, e', hs.long p es left right hp b' (List.mem_of_mem_take hm)⟩

/-! ## `insert` -/

variable {v : View} {r : Bytes}

/-- The room `insertRecordAt` finds on a tight page. -/
theorem leafRoom_iff {data : Mem} (h : NodeAt True t.keyWidth data (.leaf es left right))
    {len : Nat} : leafRoom es len = true ↔ len + 4 ≤ getTotalFreeSpace data := by
  obtain ⟨hv, hτ, -, he, -⟩ := h
  have hfree := (hτ trivial).totalFree hv
  rw [he] at hfree
  rw [leafRoom, decide_eq_true_iff, PAGE_ROOM]
  omega

/-- A record inserted in place. -/
theorem insertRecordAt_leaf {data : Mem} (record : Mem) {slot len : Nat}
    (h : NodeAt True t.keyWidth data (.leaf es left right)) (hslot : slot ≤ es.length)
    (hlen : 0 < len) (hroom : leafRoom es len = true) :
    ∃ i d, insertRecordAt data slot record len = .ok (some i, d) ∧
      NodeAt True t.keyWidth d (.leaf (leafInsert es slot (record.slice 0 len)) left right) := by
  have hr := (leafRoom_iff h).mp hroom
  obtain ⟨hv, hτ, htype, he, hl, hrt⟩ := h
  have ht := hτ trivial
  have hfree := ht.freeSpace hv
  have hgap := getFreeSpace_eq hv
  have hn : maxSlotId data = es.length := by rw [← he, length_entries]
  have hslots := hv.slots_le
  have hc : canInsertContigious data len true = true ↔ cost es + len + 4 ≤ PAGE_ROOM := by
    rw [canInsertContigious_iff hv, if_pos rfl, PAGE_ROOM]
    rw [he] at hfree
    omega
  have hspec := insertRecordAt_spec record hv hlen (hn ▸ hslot) hr
  rw [leafInsert, length_slice]
  by_cases hroom' : cost es + len + 4 ≤ PAGE_ROOM
  · rw [if_pos (hc.mpr hroom')] at hspec
    obtain ⟨d, e, hi⟩ := hspec
    rw [if_pos hroom']
    exact ⟨slot, d, e, hi.valid, fun _ => hi.tight ht, hi.sameMeta.pageType.trans htype,
      by rw [hi.entries, he], hi.sameMeta.left.trans hl, hi.sameMeta.right.trans hrt⟩
  · rw [if_neg fun hcc => hroom' (hc.mp hcc)] at hspec
    obtain ⟨d, e, hi⟩ := hspec
    obtain ⟨c₁, c₂, c₃, -⟩ := compactify_spec hv
    have hm := (compactify_sameMeta hv).trans hi.sameMeta
    rw [if_neg hroom']
    exact ⟨_, d, e, hi.valid, fun _ => hi.tight c₃, hm.pageType.trans htype,
      by rw [hi.entries, c₁, he], hm.left.trans hl, hm.right.trans hrt⟩

/-- The leaf a record goes to and the slot, and what `insert` does there. -/
theorem insert_runs (ht : t.Numeric) (h : Holds t True s T) (hs : Shape t.keyWidth rank T)
    (hv : v.Sees r) (hw : t.keyWidth ≤ r.length) (hlen : r.length + 4 < 2 ^ 16)
    (hsplit : ∀ p stack es left right, T.find t.keyWidth (keyOf t.keyWidth r) = some (p, stack) →
      T.store p = some (.leaf es left right) → ¬ leafRoom es r.length = true → Halves es) :
    Runs (insert t v r.length) s fun b s' => b = true ∧ Holds t True s' (T.insert t.keyWidth r) := by
  have hw1 := ht.width_le
  obtain ⟨hdec, -⟩ := extractKey_spec ht hv hw
  obtain ⟨p, bt, es, left, right, hf, hr, hp, e⟩ := findRecord_route ht h hs hdec
  have hna := h.nodeAt hp
  have hslot : (viewMem (some v)).slice 0 r.length = r := hv.bytes
  have hins : T.insert t.keyWidth r = if leafRoom es r.length = true then
      T.setNode p (.leaf (leafInsert es (lowerSlot t.keyWidth es (keyOf t.keyWidth r)) r) left right)
      else T.splitChild t.keyWidth p es left right (bt.map Breadcrumb.pageId) := by
    rw [Tree.insert, hf]; simp only [hp]
  rw [hins]
  unfold insert
  refine Runs.step e (Runs.step (h.read hp) ?_)
  dsimp only
  by_cases hroom : leafRoom es r.length = true
  · obtain ⟨i, d, hi, hd⟩ := insertRecordAt_leaf v.mem hna lowerSlot_le
      (show 0 < r.length by omega) hroom
    rw [show v.mem.slice 0 r.length = r from hv.bytes] at hd
    obtain ⟨s', e', h', -, -⟩ := h.write (h.inUse (by rw [hp]; simp)) hd
    rw [if_pos hroom]
    exact Runs.step (ends_buf hi) (.of_ends (e'.bind (.pure _ _)) ⟨rfl, h'⟩)
  · have hno : insertRecordAt (s.page p) (lowerSlot t.keyWidth es (keyOf t.keyWidth r)) v.mem
        r.length = .ok (none, s.page p) := by
      refine insertRecordAt_none hlen (.inr (.inr ?_))
      rw [leafRoom_iff hna] at hroom
      omega
    rw [if_neg hroom]
    apply Runs.step (ends_buf hno)
    exact (Runs.of_tracks (splitChild_tracks ht h hs hdec hf hr hp
      (hsplit _ _ _ _ _ hf hp hroom))).ret true |>.mono fun b s' ⟨hb, _, _, h', _⟩ => ⟨hb, h'⟩

/-! ## `remove` and `get` -/

/-- Where the search ends on no live slot, the key read there is over `""`. -/
theorem compare_nil (ht : t.Numeric) {key : Key} (hx : key.Decodes x) :
    key.compare (Key.fromBytes t.keyTypeId t.keyWidth ⟨Mem.zero, 1⟩ 0) =
      if t.keyWidth = 1 then .ok (if x < 0 then -1 else if x > 0 then 1 else 0)
      else .error .outOfBounds := by
  by_cases hw : t.keyWidth = 1
  · rw [if_pos hw]
    apply compare_decodes hx
    have hzero : Int.bmod (Mem.zero.readLE 0 1) (2 ^ (8 * 1)) = 0 := by decide
    rw [Key.decodes_iff, Key.toValue, Key.fromBytes]
    simp only [ht.type, hw]
    rw [numericDeserialize_ok (v := ⟨Mem.zero, 1⟩) (.inl rfl) (Nat.le_refl 1), hzero]
  · rw [if_neg hw, Key.compare, Key.decodes_iff.mp hx]
    have hlt : ¬ t.keyWidth ≤ 1 := by have := ht.width_le; omega
    have : (Key.fromBytes t.keyTypeId t.keyWidth ⟨Mem.zero, 1⟩ 0).toValue = .error .outOfBounds := by
      rw [Key.toValue, Key.fromBytes]
      simp only [ht.type, numericDeserialize, View.read, if_neg hlt]
      rfl
    rw [this]
    rfl

/-- The key read at the slot of the search. -/
theorem foundKey_spec (ht : t.Numeric) {data : Mem} {i : Nat}
    (h : NodeAt τ t.keyWidth data (.leaf es left right)) (hl : LongEnough t.keyWidth es) :
    (∃ b, es[i]? = some (.live b) ∧ (keyAt t data i).Decodes (keyOf t.keyWidth b)) ∨
      (∀ b, es[i]? ≠ some (.live b)) ∧
        keyAt t data i = Key.fromBytes t.keyTypeId t.keyWidth ⟨Mem.zero, 1⟩ 0 := by
  obtain ⟨hv, -, -, he, -⟩ := h
  by_cases hb : ∃ b, es[i]? = some (.live b)
  · obtain ⟨b, hb⟩ := hb
    exact .inl ⟨b, hb, (keyAt_spec ht hv (he ▸ hb) (hl b (List.mem_of_getElem? hb))).1⟩
  · have hb' : ∀ b, es[i]? ≠ some (.live b) := fun b e => hb ⟨b, e⟩
    exact .inr ⟨hb', keyAt_dead hv fun b => he ▸ hb' b⟩

/-- Deleting a slot of a leaf. -/
theorem deleteRecord_leaf {data : Mem} {i : Nat} {b : Bytes}
    (h : NodeAt τ t.keyWidth data (.leaf es left right)) (hb : es[i]? = some (.live b)) :
    ∃ d, deleteRecord data i = (true, d) ∧
      NodeAt τ t.keyWidth d (.leaf (es.set i (.dead b.length)) left right) := by
  obtain ⟨hv, hτ, htype, he, hl, hrt⟩ := h
  obtain ⟨d, e, h1, h2, h3, hm⟩ := deleteRecord_spec hv (he ▸ hb)
  exact ⟨d, e, h2, fun ht => h3 (hτ ht), hm.pageType.trans htype, by rw [h1, he],
    hm.left.trans hl, hm.right.trans hrt⟩

theorem remove_after (ht : t.Numeric) (h : Holds t τ s T) (hs : Shape t.keyWidth rank T)
    {key : Key} (hx : key.Decodes x) :
    Holds t τ (after (remove t key) s) (T.remove t.keyWidth x) := by
  obtain ⟨p, bt, es, left, right, hf, hr, hp, e⟩ := findRecord_route ht h hs hx
  have hna := h.nodeAt hp
  have hlive : ∀ b, es[lowerSlot t.keyWidth es x]? = some (.live b) →
      T.remove t.keyWidth x = if keyOf t.keyWidth b = x then
        T.setNode p (.leaf (es.set (lowerSlot t.keyWidth es x) (.dead b.length)) left right) else T := by
    intro b hb
    simp only [Tree.remove, hf, hp, hb]
  have hnone : (∀ b, es[lowerSlot t.keyWidth es x]? ≠ some (.live b)) →
      T.remove t.keyWidth x = T := by
    intro hb
    rcases he : es[lowerSlot t.keyWidth es x]? with _ | b | _
    · simp only [Tree.remove, hf, hp, he]
    · exact absurd he (hb b)
    · simp only [Tree.remove, hf, hp, he]
  rw [remove, after_bind e, after_bind (h.read hp)]
  dsimp only
  rcases foundKey_spec ht (i := lowerSlot t.keyWidth es x) hna (hs.long p es left right hp) with
    ⟨b, hb, hdec⟩ | ⟨hb, hnil⟩
  · rw [hlive b hb, after_bind (ends_buf (compare_decodes hx hdec))]
    by_cases hk : keyOf t.keyWidth b = x
    · obtain ⟨d, ed, hd⟩ := deleteRecord_leaf hna hb
      obtain ⟨s', e', h', -, -⟩ := h.write (h.inUse (by rw [hp]; simp)) hd
      rw [if_pos hk, if_neg (by simp [hk]), ed]
      dsimp only
      rw [if_pos rfl, after_bind e']
      exact h'
    · have hne : (if x < keyOf t.keyWidth b then (-1 : Int) else
          if x > keyOf t.keyWidth b then 1 else 0) ≠ 0 := by
        split
        · omega
        · split <;> omega
      rw [if_neg hk, if_pos hne]
      exact h
  · have hT : T.remove t.keyWidth x = T := hnone hb
    obtain ⟨hv, -, -, he, -⟩ := hna
    have hdel := deleteRecord_false (i := lowerSlot t.keyWidth es x) hv fun b => he ▸ hb b
    rw [hT, hnil]
    have hcmp := compare_nil ht hx
    split at hcmp
    · rw [after_bind (ends_buf hcmp), hdel]
      by_cases hc : (if x < 0 then (-1 : Int) else if x > 0 then 1 else 0) ≠ 0
      · rw [if_pos hc]; exact h
      · rw [if_neg hc]; exact h
    · have herr : buf (key.compare (Key.fromBytes t.keyTypeId t.keyWidth ⟨Mem.zero, 1⟩ 0)) s =
          .error .outOfBounds s := by rw [hcmp]; rfl
      rw [after_bind_error herr, after, herr]
      exact h

/-- What `get` returns for a key that is there. -/
theorem get_ends (ht : t.Numeric) (h : Holds t τ s T) (hs : Shape t.keyWidth rank T)
    {key : Key} (hx : key.Decodes x) {b : Bytes} (hb : T.lookup t.keyWidth x = some b) :
    Ends (get t key) s (some b, b.length) s := by
  obtain ⟨p, bt, es, left, right, hf, hr, hp, e⟩ := findRecord_route ht h hs hx
  have hna := h.nodeAt hp
  rw [Tree.lookup, hf] at hb
  simp only [hp] at hb
  split at hb
  · next b' hslot =>
    split at hb
    · next hk =>
      cases hb
      obtain ⟨hv, -, -, he, -⟩ := hna
      have hlong := hs.long p es left right hp b (List.mem_of_getElem? hslot)
      obtain ⟨v, hrec, hsees⟩ := record_live hv (by rw [he]; exact hslot)
      obtain ⟨hdec, -⟩ := extractKey_spec ht hsees hlong
      have hcmp := compare_decodes hx hdec
      have hzero : (if x < keyOf t.keyWidth b then (-1 : Int) else
          if x > keyOf t.keyWidth b then 1 else 0) = 0 := by simp [hk]
      rw [hzero] at hcmp
      unfold get
      refine e.bind ((h.read hp).bind ?_)
      dsimp only
      rw [hrec]
      apply (ends_buf hcmp).bind
      rw [if_neg (by simp)]
      have hbytes : (viewMem (some v)).slice 0 b.length = b := hsees.bytes
      rw [hbytes]
      exact .pure _ _
    · cases hb
  · cases hb

end

end DbInternals.Index
