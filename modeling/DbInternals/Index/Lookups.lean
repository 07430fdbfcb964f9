import DbInternals.Index.TreeKeys
import DbInternals.Index.InternalPages

/-!
# Lookups over runs

What `get` and `findRecord` find after a run. An insert puts its record in
place if the leaf has room, and is then found; a split never stores the
record. A split whose separator is not above the first one of the parent hides
records that were there: a search falls back to the first child for every
smaller key, so such a leaf holds keys below its separator.

Results:
* `get_iff`: `get` finds what the tree finds;
* `insert_found`, `insert_durable`: a new record is found where it had room;
* `exec_routed`, `routing_complete`: where every separator is above the first
  one of its parent, each search ends at its record.
-/
namespace DbInternals.Index

open Storage SlottedPage

section
variable {t : TreeConfig} {τ : Prop} {s s' : TreeState} {T : Tree} {rank : Nat → Nat} {w p : Nat}
  {x : Int} {es es' : List Entry} {left right : Nat} {r b : Bytes} {calls : List Call}

/-! ## `get` and the tree -/

/-- For a key the tree does not find, `get` returns no bytes, if it returns. -/
theorem get_absent (ht : t.Numeric) (h : Holds t τ s T) (hs : Shape t.keyWidth rank T) {key : Key}
    (hx : key.Decodes x) (hl : T.lookup t.keyWidth x = none) {a : Option Bytes × Nat}
    (he : Ends (get t key) s a s') : a.2 = 0 := by
  obtain ⟨p, bt, es, left, right, hf, hr, hp, e⟩ := findRecord_route ht h hs hx
  have hna := h.nodeAt hp
  unfold get at he
  have h₁ := (h.read hp).rest (e.rest he)
  rw [Tree.lookup, hf] at hl
  simp only [hp] at hl
  dsimp only at h₁
  -- the slot the search ends at holds another key, or nothing
  by_cases hslot : ∃ c, es[lowerSlot t.keyWidth es x]? = some (.live c)
  · obtain ⟨c, hc⟩ := hslot
    have hne : keyOf t.keyWidth c ≠ x := by
      intro hk
      rw [hc] at hl
      simp [hk] at hl
    obtain ⟨v, hrec, hsees⟩ := record_live hna.1 (by rw [hna.2.2.2.1]; exact hc)
    obtain ⟨hdec, -⟩ := extractKey_spec ht hsees (hs.long p es left right hp c (List.mem_of_getElem? hc))
    rw [hrec] at h₁
    have h₂ := (ends_buf (s := s) (compare_decodes hx hdec)).rest h₁
    have hcmp : (if x < keyOf t.keyWidth c then (-1 : Int) else
        if x > keyOf t.keyWidth c then 1 else 0) ≠ 0 := by
      split
      · decide
      · rw [if_pos (by omega)]; decide
    rw [if_pos hcmp] at h₂
    cases h₂
    rfl
  · have hdead : ∀ c, es[lowerSlot t.keyWidth es x]? ≠ some (.live c) := fun c hc => hslot ⟨c, hc⟩
    rw [record_dead hna.1 fun c => hna.2.2.2.1 ▸ hdead c] at h₁
    have hcmp := compare_nil ht hx
    split at hcmp
    · have h₂ := (ends_buf (s := s) hcmp).rest h₁
      cases Ends.ite h₂ with
      | inl h₃ => cases h₃.2; rfl
      | inr h₃ => cases h₃.2; rfl
    · obtain ⟨c, s₁, hc, -⟩ := Ends.bind_iff.mp h₁
      unfold extractKey at hc
      rw [hcmp] at hc
      cases hc

/-- `get` returns a record that holds its key iff the tree finds it. -/
theorem get_iff (ht : t.Numeric) (h : Holds t τ s T) (hs : Shape t.keyWidth rank T) {key : Key}
    (hx : key.Decodes x) (hb : t.keyWidth ≤ b.length) :
    (∃ s', Ends (get t key) s (some b, b.length) s') ↔ T.lookup t.keyWidth x = some b := by
  refine ⟨fun ⟨s', he⟩ => ?_, fun hl => ⟨s, get_ends ht h hs hx hl⟩⟩
  have hw := ht.width_le
  cases hl : T.lookup t.keyWidth x with
  | some c =>
    obtain ⟨hc, -⟩ := Ends.unique he (get_ends ht h hs hx hl)
    cases hc
    rfl
  | none =>
    have h0 : b.length = 0 := get_absent ht h hs hx hl he
    omega

/-! ## A new record -/

theorem mem_leafInsert_self {i : Nat} (hi : i ≤ es.length) : .live r ∈ leafInsert es i r := by
  unfold leafInsert
  split
  · exact (List.mem_insertIdx hi).mpr (.inl rfl)
  · exact (List.mem_insertIdx (liveBefore_le ..)).mpr (.inl rfl)

/-- A search passes internal pages only. -/
theorem walk_setLeaf {l' r' : Nat} (hp : T.store p = some (.leaf es left right)) :
    ∀ (fuel q : Nat) (stack : List Nat), (T.setNode p (.leaf es' l' r')).walk w x fuel q stack =
      T.walk w x fuel q stack
  | 0, _, _ => rfl
  | fuel + 1, q, stack => by
    unfold Tree.walk
    by_cases hqp : q = p
    · rw [hqp, Tree.setNode_self, hp]
    · rw [Tree.setNode_of_ne T _ hqp]
      split
      · rfl
      · split
        · exact walk_setLeaf hp fuel _ _
        · rfl
      · rfl

/-- Only stored records are found. -/
theorem lookup_mem (h : T.lookup w x = some b) : ∃ p es l r, T.store p = some (.leaf es l r) ∧
    .live b ∈ es ∧ keyOf w b = x := by
  unfold Tree.lookup at h
  split at h
  · split at h
    · next hp =>
      split at h
      · next c hc =>
        split at h
        · next hk =>
          cases h
          exact ⟨_, _, _, _, hp, List.mem_of_getElem? hc, hk⟩
        · cases h
      · cases h
    · cases h
  · cases h

/-- A leaf in strict order is searched for each of its records. -/
theorem lookup_leaf {stack : List Nat} (hf : T.find w (keyOf w b) = some (p, stack))
    (hp : T.store p = some (.leaf es left right)) (hlt : LeafLt w es) (hb : .live b ∈ es) :
    T.lookup w (keyOf w b) = some b := by
  obtain ⟨i, hi⟩ := List.getElem?_of_mem hb
  unfold Tree.lookup
  simp only [hf, hp, hlt.lowerSlot hi, hi, if_true]

/-- A record with a new key is found after its insert iff its leaf had room. -/
theorem lookup_insert (hs : Shape w rank T) (hi : T.Ids) {ks : List Int} (hlt : LeavesLt w T)
    (hk : KeysIn w ks T) (hr : keyOf w r ∉ ks) {stack : List Nat}
    (hf : T.find w (keyOf w r) = some (p, stack)) (hp : T.store p = some (.leaf es left right)) :
    (T.insert w r).lookup w (keyOf w r) = some r ↔ leafRoom es r.length = true := by
  have hins : T.insert w r = if leafRoom es r.length = true then
      T.setNode p (.leaf (leafInsert es (lowerSlot w es (keyOf w r)) r) left right)
      else T.splitChild w p es left right stack := by
    unfold Tree.insert
    simp only [hf, hp]
  by_cases hroom : leafRoom es r.length = true
  · refine iff_of_true ?_ hroom
    have hlt' := insert_leavesLt hs hi hlt fun _ => hk.free hr
    rw [hins, if_pos hroom] at hlt' ⊢
    have hf' : (T.setNode p (.leaf (leafInsert es (lowerSlot w es (keyOf w r)) r) left right)).find w
        (keyOf w r) = some (p, stack) := (walk_setLeaf hp _ _ _).trans hf
    exact lookup_leaf hf' (Tree.setNode_self ..) (hlt' p _ _ _ (Tree.setNode_self ..))
      (mem_leafInsert_self lowerSlot_le)
  · refine iff_of_false (fun hl => ?_) hroom
    obtain ⟨q, es', l, r', hq, hm, -⟩ := lookup_mem hl
    rw [hins, if_neg hroom] at hq
    obtain ⟨p₀, es₀, l₀, r₀, hp₀, hsub⟩ := splitChild_part hi hp hq
    exact hr (hk p₀ es₀ l₀ r₀ hp₀ r (hsub.subset hm))

/-! ## Runs with distinct keys -/

/-- The keys inserted by the calls. -/
def insertedKeys (w : Nat) (calls : List Call) : List Int :=
  calls.filterMap fun c => match c with
    | .insert r => some (keyOf w r)
    | .remove _ => none

theorem insertedKeys_insert : insertedKeys w (calls ++ [.insert r]) =
    insertedKeys w calls ++ [keyOf w r] := by
  rw [insertedKeys, List.filterMap_append]; rfl

theorem insertedKeys_remove : insertedKeys w (calls ++ [.remove b]) = insertedKeys w calls := by
  rw [insertedKeys, List.filterMap_append]
  exact List.append_nil _

/-- Where each key is inserted once, leaves stay in strict order. -/
theorem exec_keys (ht : t.Numeric) {ok : TreeState → Call → Prop}
    (hok : ∀ s c, ok s c → SplitsHalves t s c) (h : (treeRuns t ok).Exec calls s)
    (hnd : (insertedKeys t.keyWidth calls).Nodup) : LeavesLt t.keyWidth (treeOf t.keyWidth calls) ∧
      KeysIn t.keyWidth (insertedKeys t.keyWidth calls) (treeOf t.keyWidth calls) := by
  induction h with
  | nil h0 =>
    refine ⟨fun p es l r hp => ?_, fun p es l r hp => ?_⟩
    · cases (one_store hp).2
      exact List.Pairwise.nil
    · cases (one_store hp).2
      simp
  | @snoc calls s s' c h hstep ih =>
    have hg := exec_good ht hok h
    obtain ⟨rank, hs⟩ := hg.shape
    rw [treeOf_snoc]
    cases c with
    | insert r =>
      rw [insertedKeys_insert] at hnd ⊢
      obtain ⟨hnd', -, hnew⟩ := List.nodup_append.mp hnd
      obtain ⟨hlt, hk⟩ := ih hnd'
      refine ⟨insert_leavesLt hs hg.holds.ids hlt fun _ => hk.free fun hm =>
        hnew _ hm _ (by simp) rfl, ?_⟩
      intro p es l r' hp b hb
      have := insert_keysIn hs hg.holds.ids hk r p es l r' hp b hb
      simp only [List.mem_cons, List.mem_append, List.not_mem_nil, or_false] at this ⊢
      exact this.symm
    | remove k =>
      rw [insertedKeys_remove] at hnd ⊢
      obtain ⟨hlt, hk⟩ := ih hnd
      exact ⟨remove_leavesLt hlt _, remove_keysIn hk _⟩

/-- The leaf `findRecord` leads an insert to has room for the record. -/
def FindsRoom (t : TreeConfig) (s : TreeState) (r : Bytes) : Prop :=
  ∃ m, Ends (findRecord t (recordKey t r)) s m s ∧
    r.length + 4 ≤ getTotalFreeSpace (s.page m.leafPage)

/-- `get` returns the bytes of the record. -/
def Found (t : TreeConfig) (s : TreeState) (r : Bytes) : Prop :=
  ∃ s', Ends (get t (recordKey t r)) s (some r, r.length) s'

/-- An insert reports success; the record is found iff the leaf had room. -/
theorem insert_found (ht : t.Numeric) (h : Good t s T) (hr : RecordFits t.keyWidth r)
    (hsplit : ¬ Lopsided t.keyWidth T r)
    (hn : nextId (after (Index.insert t (View.ofBytes r) r.length) s) ≤ MAX_PAGES) {ks : List Int}
    (hlt : LeavesLt t.keyWidth T) (hk : KeysIn t.keyWidth ks T) (hnew : keyOf t.keyWidth r ∉ ks) :
    ∃ s', Ends (Index.insert t (View.ofBytes r) r.length) s true s' ∧
      (Found t s' r ↔ FindsRoom t s r) := by
  obtain ⟨s', e, h'⟩ := insert_ends ht h hr hsplit hn
  obtain ⟨hh, ⟨rank, hs⟩, -⟩ := h
  obtain ⟨rank', hs', -⟩ := insert_shape ht.width_le.2 hs hh.ids hr.1
  have hdec : (recordKey t r).Decodes (keyOf t.keyWidth r) :=
    (extractKey_spec ht (View.sees_ofBytes r) hr.1).1
  obtain ⟨p, bt, es, left, right, hf, -, hp, he⟩ := findRecord_route ht hh hs hdec
  refine ⟨s', e, (get_iff ht h' hs' hdec hr.1).trans
    ((lookup_insert hs hh.ids hlt hk hnew hf hp).trans ((leafRoom_iff (hh.nodeAt hp)).trans ?_))⟩
  constructor
  · intro hroom
    exact ⟨_, he, hroom⟩
  · rintro ⟨m, hm, hroom⟩
    obtain ⟨rfl, -⟩ := Ends.unique hm he
    exact hroom

/-- In every run that splits leaves with records on both sides of the middle,
an insert of a new key reports success, and the record is found iff the leaf it
was led to had room. -/
theorem insert_durable (ht : t.Numeric) (h : (treeRuns t (SplitsHalves t)).Exec calls s)
    (hstep : (treeRuns t (SplitsHalves t)).step s (.insert r) s')
    (hnd : (insertedKeys t.keyWidth (calls ++ [.insert r])).Nodup) :
    Ends (Index.insert t (View.ofBytes r) r.length) s true s' ∧ (Found t s' r ↔ FindsRoom t s r) := by
  rw [insertedKeys_insert] at hnd
  obtain ⟨hnd', -, hnew⟩ := List.nodup_append.mp hnd
  have hg := exec_good ht (fun _ _ h => h) h
  obtain ⟨hlt, hk⟩ := exec_keys ht (fun _ _ h => h) h hnd'
  obtain ⟨hfits, hok, rfl, hn⟩ := hstep
  obtain ⟨s', e, hiff⟩ := insert_found ht hg hfits (not_lopsided ht hg (c := .insert r) hfits hok r rfl) hn
    hlt hk fun hm => hnew _ hm _ (by simp) rfl
  rw [show after (Call.run t (.insert r)) s = s' from after_of_ends e]
  exact ⟨e, hiff⟩

/-! ## Every record -/

/-- A leaf that is split and has a parent gets a separator above the first one there. -/
def SplitsAbove (t : TreeConfig) (s : TreeState) (c : Call) : Prop :=
  ∀ r m back rest, c = .insert r → Ends (findRecord t (recordKey t r)) s m s →
    getTotalFreeSpace (s.page m.leafPage) < r.length + 4 → m.btStack = back :: rest →
    entryKey t.keyWidth (entries (s.page back.pageId)) 0 < entryKey t.keyWidth
      (entries (s.page m.leafPage)) (Tree.pivotOf (entries (s.page m.leafPage)))

theorem entryKey_pairEntries {ps : List Pair} (h : ps ≠ []) :
    entryKey w (pairEntries ps) 0 = pairKey w ps 0 := by
  cases ps with
  | nil => exact absurd rfl h
  | cons pr ps => rfl

theorem splitsUp (ht : t.Numeric) (h : Good t s T) (hw : t.keyWidth ≤ r.length)
    (hh : SplitsHalves t s (.insert r)) (ha : SplitsAbove t s (.insert r)) :
    SplitsUp t.keyWidth T r := by
  obtain ⟨rank, hs⟩ := h.shape
  obtain ⟨p, bt, es, left, right, hf, -, hp, e⟩ :=
    findRecord_route ht h.holds hs (extractKey_spec ht (View.sees_ofBytes r) hw).1
  have hroom : leafRoom es r.length = true ↔ r.length + 4 ≤ getTotalFreeSpace (s.page p) :=
    leafRoom_iff (h.holds.nodeAt hp)
  have hes := (h.holds.nodeAt hp).2.2.2.1
  intro p' stack es' l' r' hf' hp' hfull
  rw [hf] at hf'
  cases hf'
  rw [hp] at hp'
  cases hp'
  have hfree : getTotalFreeSpace (s.page p) < r.length + 4 :=
    Nat.lt_of_not_le fun hc => hfull (hroom.mpr hc)
  refine ⟨hes ▸ hh r p rfl ⟨_, e, rfl, hfree⟩, fun q ps hq hps => ?_⟩
  cases bt with
  | nil => cases hq
  | cons back rest =>
    cases hq
    have := ha r _ back rest rfl e hfree rfl
    rw [(h.holds.nodeAt hps).2.2.1, entryKey_pairEntries (hs.pairs _ ps hps)] at this
    rw [hes] at this
    exact this

theorem one_routed : Routed False w Tree.one := by
  have hinner : ∀ p ps, Tree.one.store p ≠ some (.inner ps) := fun p ps h => by cases (one_store h).2
  refine ⟨fun p ps h => absurd h (hinner p ps), fun p ps h => absurd h (hinner p ps),
    fun p ps h => absurd h (hinner p ps), fun p es l r h b hb => ?_,
    fun p ps h => absurd h (hinner p ps), fun p ps _ _ _ _ h => absurd h (hinner p ps),
    fun p ps h => absurd h (hinner p ps), fun p hp hr => ?_⟩
  · cases (one_store h).2
    cases hb
  · obtain ⟨n, hn⟩ := Option.ne_none_iff_exists'.mp hp
    exact absurd (one_store hn).1 hr

/-- Where separators are above the first one of their parent, routes stay. -/
theorem exec_routed (ht : t.Numeric) {ok : TreeState → Call → Prop}
    (hok : ∀ s c, ok s c → SplitsHalves t s c ∧ SplitsAbove t s c) (h : (treeRuns t ok).Exec calls s)
    (hnd : (insertedKeys t.keyWidth calls).Nodup) :
    Routed False t.keyWidth (treeOf t.keyWidth calls) := by
  have hok₁ : ∀ s c, ok s c → SplitsHalves t s c := fun s c hc => (hok s c hc).1
  induction h with
  | nil h0 => exact one_routed
  | @snoc calls s s' c h hstep ih =>
    have hg := exec_good ht hok₁ h
    obtain ⟨rank, hs⟩ := hg.shape
    obtain ⟨hfits, hokc, -, -⟩ := hstep
    rw [treeOf_snoc]
    cases c with
    | insert r =>
      rw [insertedKeys_insert] at hnd
      have hnd' := (List.nodup_append.mp hnd).1
      obtain ⟨hh, ha⟩ := hok s _ hokc
      exact insert_routed ht.width_le.2 hg.holds.ids hs (exec_keys ht hok₁ h hnd').1 (ih hnd')
        (splitsUp ht hg hfits.1 hh ha)
    | remove k =>
      rw [insertedKeys_remove] at hnd
      exact remove_routed (ih hnd) _

/-- With records of one size, every search for a record in the chain of leaves
ends at its slot, and `get` returns it. -/
theorem routing_complete (ht : t.Numeric) {size : Nat} (h2 : 2 * (size + 4) ≤ PAGE_ROOM)
    (h : (treeRuns t fun s c => OfSize size s c ∧ SplitsAbove t s c).Exec calls s)
    (hnd : (insertedKeys t.keyWidth calls).Nodup) :
    ∃ ls, LeafList s INVALID_PAGE_ID (1 :: ls) ∧ ∀ p ∈ 1 :: ls, ∀ i b,
      (entries (s.page p))[i]? = some (.live b) → ∀ key : Key, key.Decodes (keyOf t.keyWidth b) →
        (∃ bt, Ends (findRecord t key) s ⟨p, i, bt⟩ s) ∧ Ends (get t key) s (some b, b.length) s := by
  have hh := exec_halves ht h2 (fun _ _ h => h.1) h
  obtain ⟨hg, -, ls, hc⟩ := exec_sized ht h2 (fun _ _ h => h.1) h
  obtain ⟨rank, hs⟩ := hg.shape
  obtain ⟨hlt, -⟩ := exec_keys ht (fun _ _ h => h.1) hh hnd
  have hr := exec_routed ht (fun _ _ h => ⟨h.1, h.2.2⟩) hh hnd
  refine ⟨ls, hc.linked.leafList hg.holds, fun p hp i b hb key hkey => ?_⟩
  obtain ⟨es, l, r, he⟩ := (hc.cover p).mpr hp
  rw [(hg.holds.nodeAt he).2.2.2.1] at hb
  have hm := List.mem_of_getElem? hb
  obtain ⟨stack, hroute⟩ := (hr.recs p es l r he b hm).route
  have hf := hroute.find hs hg.holds.ids ⟨es, l, r, he⟩
  obtain ⟨bt, -, e⟩ := findRecord_ends ht hg.holds hkey hf he (hs.long p es l r he)
  rw [(hlt p es l r he).lowerSlot hb] at e
  exact ⟨⟨bt, e⟩, get_ends ht hg.holds hs hkey (lookup_leaf hf he (hlt p es l r he) hm)⟩

/-- The second record finds room. -/
theorem insert_durable_two : ∃ s s', (treeRuns {} (SplitsHalves {})).Exec (bigInserts [20]) s ∧
    Ends (Index.insert {} (View.ofBytes (bigRecord 30)) (bigRecord 30).length) s true s' ∧
    (Found {} s' (bigRecord 30) ↔ FindsRoom {} s (bigRecord 30)) := by
  obtain ⟨s, hs⟩ := exec_inserts [20, 30] (by decide)
  have h := treeRuns_mono (fun _ _ h => h.1)
    (exec_halves numeric_default (by decide) (fun _ _ h => h) hs)
  obtain ⟨s₀, s₁, h₀, hstep⟩ := LTS.Exec.split (bigInserts [20]) h
  exact ⟨s₀, s₁, h₀, insert_durable numeric_default h₀ hstep (by decide +kernel)⟩

/-- The third record splits the leaf and is not stored. -/
theorem insert_lost : ∃ s s', (treeRuns {} fun _ _ => True).Exec (bigInserts [20, 30]) s ∧
    Ends (Index.insert {} (View.ofBytes (bigRecord 25)) (bigRecord 25).length) s true s' ∧
    ¬ Found {} s' (bigRecord 25) := by
  obtain ⟨s', hs'⟩ := exec_inserts [20, 30, 25] (by decide)
  have h := treeRuns_mono (fun _ _ h => h.1)
    (exec_halves numeric_default (by decide) (fun _ _ h => h) hs')
  obtain ⟨s, s₁, hs, hstep⟩ := LTS.Exec.split (bigInserts [20, 30]) h
  obtain ⟨hfits, hok, rfl, hn⟩ := hstep
  have hg := exec_good numeric_default (fun _ _ h => h) hs
  obtain ⟨s₂, e, h₂⟩ := insert_ends numeric_default hg hfits
    (not_lopsided numeric_default hg hfits hok _ rfl) hn
  obtain ⟨rank, hshape⟩ := hg.shape
  obtain ⟨rank', hshape', -⟩ := insert_shape (by decide) hshape hg.holds.ids hfits.1
  refine ⟨s, s₂, treeRuns_mono (fun _ _ _ => trivial) hs, e, fun hf => ?_⟩
  have hl := (get_iff numeric_default h₂ hshape'
    (extractKey_spec numeric_default (View.sees_ofBytes _) hfits.1).1 hfits.1).mp hf
  have hnone : ((treeOf 8 (bigInserts [20, 30])).insert 8 (bigRecord 25)).lookup 8
      (keyOf 8 (bigRecord 25)) = none := by decide +kernel
  cases hnone.symm.trans hl

/-- A search that ends at the root passes no parent. -/
theorem splitsAbove_root (ht : t.Numeric) (h : Good t s T) (hw : t.keyWidth ≤ r.length)
    (hf : T.find t.keyWidth (keyOf t.keyWidth r) = some (p, [])) : SplitsAbove t s (.insert r) := by
  obtain ⟨rank, hs⟩ := h.shape
  obtain ⟨p', bt, es, left, right, hf', -, -, e⟩ :=
    findRecord_route ht h.holds hs (extractKey_spec ht (View.sees_ofBytes r) hw).1
  rw [hf] at hf'
  rintro r m back rest hr he - hbt
  cases hr
  obtain ⟨rfl, -⟩ := Ends.unique he e
  change bt = back :: rest at hbt
  rw [hbt] at hf'
  simp at hf'

end

/-- A run whose third record splits the root. -/
theorem exec_three : ∃ s, (treeRuns {} fun s c => OfSize 2000 s c ∧ SplitsAbove {} s c).Exec
    (bigInserts [20, 30, 25]) s := by
  obtain ⟨s, hs⟩ := exec_inserts [20, 30, 25] (by decide)
  refine ⟨s, treeRuns_and hs fun i c s₀ hc hs₀ hfits => ?_⟩
  have hg := (exec_sized numeric_default (by decide) (fun _ _ h => h) hs₀).1
  match i with
  | 0 =>
    cases hc
    exact splitsAbove_root (p := 1) numeric_default hg hfits.1 (by decide +kernel)
  | 1 =>
    cases hc
    exact splitsAbove_root (p := 1) numeric_default hg hfits.1 (by decide +kernel)
  | 2 =>
    cases hc
    exact splitsAbove_root (p := 1) numeric_default hg hfits.1 (by decide +kernel)
  | i + 3 => simp [bigInserts] at hc

/-- The third record splits the root. -/
theorem routing_complete_three : ∃ s,
    (treeRuns {} fun s c => OfSize 2000 s c ∧ SplitsAbove {} s c).Exec (bigInserts [20, 30, 25]) s ∧
    ∃ ls, LeafList s INVALID_PAGE_ID (1 :: ls) ∧ ∀ p ∈ 1 :: ls, ∀ i b,
      (entries (s.page p))[i]? = some (.live b) → ∀ key : Key, key.Decodes (keyOf 8 b) →
        (∃ bt, Ends (findRecord {} key) s ⟨p, i, bt⟩ s) ∧ Ends (get {} key) s (some b, b.length) s := by
  obtain ⟨s, h⟩ := exec_three
  have hnd : (insertedKeys 8 (bigInserts [20, 30, 25])).Nodup := by decide +kernel
  have hroom : 2 * (2000 + 4) ≤ PAGE_ROOM := by decide
  obtain ⟨ls, hl, hall⟩ := routing_complete numeric_default hroom h hnd
  refine ⟨s, h, ls, hl, fun p hp i b hb key hkey => hall p hp i b hb key hkey⟩

/-- After a split of the first leaf its old separator hides the records that
moved: the record 20 is stored on page 4, and the search for it ends elsewhere. -/
theorem routing_incomplete : ∃ s,
    (treeRuns {} (OfSize 2000)).Exec (bigInserts [20, 30, 25, 10, 5]) s ∧
    ∃ ls, LeafList s INVALID_PAGE_ID (1 :: ls) ∧ 4 ∈ 1 :: ls ∧
      (entries (s.page 4))[0]? = some (.live (bigRecord 20)) ∧
      ∀ key : Key, key.Decodes (keyOf 8 (bigRecord 20)) →
        (∀ i bt s', ¬ Ends (findRecord {} key) s ⟨4, i, bt⟩ s') ∧
          ∀ s', ¬ Ends (get {} key) s (some (bigRecord 20), (bigRecord 20).length) s' := by
  obtain ⟨s, hs⟩ := exec_inserts [20, 30, 25, 10, 5] (by decide)
  obtain ⟨hg, -, ls, hc⟩ := exec_sized numeric_default (by decide) (fun _ _ h => h) hs
  obtain ⟨rank, hshape⟩ := hg.shape
  have hleaf : (treeOf 8 (bigInserts [20, 30, 25, 10, 5])).store 4 =
      some (.leaf [.live (bigRecord 20)] 1 2) := by decide +kernel
  have hfind : (treeOf 8 (bigInserts [20, 30, 25, 10, 5])).find 8 (keyOf 8 (bigRecord 20)) =
      some (1, [3]) := by decide +kernel
  have hnone : (treeOf 8 (bigInserts [20, 30, 25, 10, 5])).lookup 8 (keyOf 8 (bigRecord 20)) =
      none := by decide +kernel
  refine ⟨s, hs, ls, hc.linked.leafList hg.holds, (hc.cover 4).mp ⟨_, _, _, hleaf⟩, ?_,
    fun key hkey => ⟨fun i bt s' he => ?_, fun s' he => ?_⟩⟩
  · rw [(hg.holds.nodeAt hleaf).2.2.2.1]
    rfl
  · obtain ⟨p, bt', es, left, right, hf, -, -, e⟩ :=
      findRecord_route numeric_default hg.holds hshape hkey
    obtain ⟨he', -⟩ := Ends.unique he e
    cases he'
    rw [hf] at hfind
    cases hfind
  · have hl := (get_iff numeric_default hg.holds hshape hkey
      (fits_bigRecord (by decide) 20).1).mp ⟨s', he⟩
    cases hnone.symm.trans hl

end DbInternals.Index
