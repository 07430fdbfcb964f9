import DbInternals.Index.TreeRuns

/-!
# Internal pages over runs

As long as every leaf that is split holds records on both sides of its middle
slot, internal pages hold complete (key, child) pairs and a split leaves
records on both leaves. A leaf whose lower slots hold nothing is left empty,
and a new root over it misses its first key.

Results:
* `exec_good`, `pages_wellFormed`: runs that split such leaves only;
* `splitRoot_short`, `pages_malformed`: a root with three slots.
-/
namespace DbInternals.Index

open Storage SlottedPage

/-- The key `insert` looks for. -/
def recordKey (t : TreeConfig) (r : Bytes) : Key := extractKey t (some (View.ofBytes r)) r.length

/-- The leaf `findRecord` leads an insert to has no room for the record. -/
def SplitsAt (t : TreeConfig) (s : TreeState) (r : Bytes) (leaf : Nat) : Prop :=
  ∃ m, Ends (findRecord t (recordKey t r)) s m s ∧ m.leafPage = leaf ∧
    getTotalFreeSpace (s.page leaf) < r.length + 4

/-- A leaf that is split has live records before its middle slot and from there on. -/
def SplitsHalves (t : TreeConfig) (s : TreeState) (c : Call) : Prop :=
  ∀ r leaf, c = .insert r → SplitsAt t s r leaf → Halves (entries (s.page leaf))

/-- One or more pairs of a key and the id of a page of the tree. -/
def PairPage (w : Nat) (s : TreeState) (p : Nat) : Prop :=
  ∃ ps : List Pair, ps ≠ [] ∧ entries (s.page p) = pairEntries ps ∧
    ∀ pr ∈ ps, pr.1.length = w ∧ 1 ≤ pr.2 ∧ pr.2 < nextId s

def HasRecord (s : TreeState) (p : Nat) : Prop := ∃ b, .live b ∈ entries (s.page p)

section
variable {t : TreeConfig} {s s' : TreeState} {T : Tree} {es : List Entry} {p left right : Nat}
  {r : Bytes} {calls : List Call}

/-- The leaf of a record, in the code and in the tree. -/
theorem splitsAt_iff (ht : t.Numeric) (h : Good t s T) (hw : t.keyWidth ≤ r.length) {leaf : Nat} :
    SplitsAt t s r leaf ↔ ∃ stack es left right,
      T.find t.keyWidth (keyOf t.keyWidth r) = some (leaf, stack) ∧
        T.store leaf = some (.leaf es left right) ∧ ¬ leafRoom es r.length = true := by
  obtain ⟨hh, ⟨rank, hs⟩, -⟩ := h
  obtain ⟨p, bt, es, left, right, hf, -, hp, e⟩ :=
    findRecord_route ht hh hs (extractKey_spec ht (View.sees_ofBytes r) hw).1
  have hroom : leafRoom es r.length = true ↔ r.length + 4 ≤ getTotalFreeSpace (s.page p) :=
    leafRoom_iff (hh.nodeAt hp)
  constructor
  · rintro ⟨m, hm, rfl, hfree⟩
    obtain ⟨rfl, -⟩ := Ends.unique hm e
    exact ⟨_, es, left, right, hf, hp, fun hc => Nat.not_le.mpr hfree (hroom.mp hc)⟩
  · rintro ⟨stack, es', l, r', hf', hp', hfull⟩
    rw [hf] at hf'
    cases hf'
    rw [hp] at hp'
    cases hp'
    exact ⟨_, e, rfl, Nat.lt_of_not_le fun hc => hfull (hroom.mpr hc)⟩

theorem not_lopsided (ht : t.Numeric) (h : Good t s T) {c : Call} (hc : c.Fits t.keyWidth)
    (hok : SplitsHalves t s c) : ∀ r, c = .insert r → ¬ Lopsided t.keyWidth T r := by
  rintro r rfl ⟨p, stack, es, left, right, hf, hp, hfull, hhalves⟩
  have := hok r p rfl ((splitsAt_iff ht h hc.1).mpr ⟨stack, es, left, right, hf, hp, hfull⟩)
  rw [(h.holds.nodeAt hp).2.2.2.1] at this
  exact hhalves this

/-- Every state of such a run holds the tree of its calls. -/
theorem exec_good (ht : t.Numeric) {ok : TreeState → Call → Prop}
    (hok : ∀ s c, ok s c → SplitsHalves t s c) (h : (treeRuns t ok).Exec calls s) :
    Good t s (treeOf t.keyWidth calls) := by
  induction h with
  | nil h0 => exact h0.good
  | @snoc calls s s' c h hstep ih =>
    obtain ⟨hfits, hokc, rfl, hn⟩ := hstep
    rw [treeOf_snoc]
    exact step_good ht ih hfits (not_lopsided ht ih hfits (hok s c hokc)) hn

theorem Good.pairPage (h : Good t s T) (h1 : 1 ≤ p) (hp : p < nextId s)
    (htype : getPageType (s.page p) = .internalPage) : PairPage t.keyWidth s p := by
  obtain ⟨hh, ⟨rank, hs⟩, hd⟩ := h
  obtain ⟨n, hn⟩ := Option.ne_none_iff_exists'.mp (hd.all p h1 (by rw [← hh.next]; exact hp))
  have hna := hh.nodeAt hn
  cases n with
  | leaf es l r =>
    have := hna.2.2.1
    rw [htype] at this
    cases this
  | inner ps =>
    refine ⟨ps, hs.pairs p ps hn, hna.2.2.1, fun pr hpr => ?_⟩
    have hu := hh.inUse (hs.child p ps hn pr hpr).1
    exact ⟨(hna.2.2.2 pr hpr).1, hu.1, by rw [hh.next]; exact hu.2.1⟩

/-- Both leaves of a split hold records. -/
theorem Good.split_hasRecord (ht : t.Numeric) (h : Good t s T)
    (h' : Good t s' (T.call t.keyWidth (.insert r))) (hw : t.keyWidth ≤ r.length)
    (hok : SplitsHalves t s (.insert r)) (hsplit : SplitsAt t s r p) :
    HasRecord s' p ∧ HasRecord s' (nextId s) := by
  have hhalves := hok r p rfl hsplit
  obtain ⟨stack, es, left, right, hf, hp, hfull⟩ := (splitsAt_iff ht h hw).mp hsplit
  rw [(h.holds.nodeAt hp).2.2.2.1] at hhalves
  have hpn : T.store p ≠ none := by simp [hp]
  have hT : T.call t.keyWidth (.insert r) = T.splitChild t.keyWidth p es left right stack := by
    change T.insert t.keyWidth r = _
    unfold Tree.insert
    simp only [hf, hp, if_neg hfull]
  have hfresh : T.alloc.1 = nextId s := by rw [h.dense.alloc, h.holds.next]
  rw [hT] at h'
  obtain ⟨⟨l₁, hp₁⟩, ⟨l₂, hf₁⟩, -⟩ := Tree.splitLeaf_of_leaf (w := t.keyWidth) h.holds.ids hp
  have e₁ := (h'.holds.nodeAt ((splitChild_leaf h.holds.ids hpn).mpr hp₁)).2.2.2.1
  have e₂ := (h'.holds.nodeAt ((splitChild_leaf h.holds.ids hpn).mpr hf₁)).2.2.2.1
  rw [hfresh] at e₂
  unfold HasRecord
  rw [e₁, e₂]
  constructor
  · obtain ⟨b, hb⟩ := hhalves.lower
    have hb' : Entry.live b ∈ es.take (Tree.pivotOf es) :=
      (List.take_prefix_take_left (by rw [Tree.pivotOf]; omega)).subset hb
    exact ⟨b, List.mem_filter.mpr ⟨hb', rfl⟩⟩
  · obtain ⟨b, rest, hb⟩ := pivotOf_live hhalves.upper
    exact ⟨b, List.mem_filter.mpr ⟨by rw [hb]; exact List.mem_cons_self, rfl⟩⟩

/-- Where every split leaf has records on both sides of its middle, internal
pages are well formed and splits leave records on both leaves. -/
theorem pages_wellFormed (ht : t.Numeric) (h : (treeRuns t (SplitsHalves t)).Exec calls s) :
    (∀ p, 1 ≤ p → p < nextId s → getPageType (s.page p) = .internalPage →
        PairPage t.keyWidth s p) ∧
      ∀ r leaf s', (treeRuns t (SplitsHalves t)).step s (.insert r) s' → SplitsAt t s r leaf →
        HasRecord s' leaf ∧ HasRecord s' (nextId s) := by
  have hg := exec_good ht (fun _ _ h => h) h
  refine ⟨fun p h1 hp htype => hg.pairPage h1 hp htype, fun r leaf s' hstep hsplit => ?_⟩
  have hg' := exec_good ht (fun _ _ h => h) (h.snoc hstep)
  rw [treeOf_snoc] at hg'
  exact hg.split_hasRecord ht hg' hstep.1.1 hstep.2.1 hsplit

/-- With records of one size, two of which fit in a leaf, every run is such a run. -/
theorem exec_halves (ht : t.Numeric) {size : Nat} (h2 : 2 * (size + 4) ≤ PAGE_ROOM)
    {ok : TreeState → Call → Prop} (hok : ∀ s c, ok s c → OfSize size s c)
    (h : (treeRuns t ok).Exec calls s) :
    (treeRuns t fun s c => SplitsHalves t s c ∧ ok s c).Exec calls s := by
  induction h with
  | nil h0 => exact .nil h0
  | @snoc calls s s' c h hstep ih =>
    obtain ⟨hfits, hokc, rfl, hn⟩ := hstep
    refine ih.snoc ⟨hfits, ⟨?_, hokc⟩, rfl, hn⟩
    rintro r leaf rfl hsplit
    obtain ⟨hg, hsz, -⟩ := exec_sized ht h2 hok h
    obtain ⟨stack, es, left, right, -, hp, hfull⟩ := (splitsAt_iff ht hg hfits.1).mp hsplit
    obtain ⟨hv, -, -, he, -⟩ := hg.holds.nodeAt hp
    rw [hok s _ hokc r rfl] at hfull
    rw [he]
    exact halves_of_sized (hsz leaf es left right hp) h2 (he ▸ cost_room hv) hfull

/-! ## A leaf with one record -/

/-- `splitRoot` over an empty left leaf: the empty key is not stored, and three
slots remain. -/
theorem splitRoot_short (ht : t.Numeric) (h : Holds t True s T) {sep : Bytes} {sepKey : Key}
    (hl : T.store left = some (.leaf [] p right)) (hk : sepKey.Is t sep) (q : Nat) :
    Runs (splitRoot t left sepKey q) s fun a s' => a = T.alloc.1 ∧
      getPageType (s'.page a) = .internalPage ∧
      entries (s'.page a) = [.live (idBytes left), .live sep, .live (idBytes q)] ∧
      s'.page left = s.page left := by
  have hln : T.store left ≠ none := by simp [hl]
  have hna := h.nodeAt hl
  have hmin : (keyAt t (s.page left) 0).size = 0 := by
    rw [keyAt_dead hna.1 fun b hb => by rw [hna.2.2.2.1] at hb; cases hb]
    rfl
  unfold splitRoot
  refine Runs.step (h.read hl) (Runs.alloc h (k := 0) (fun r => ?_) (by omega) fun s₁ h₁ w₁ => ?_)
  · refine .bind_zero (.buf _) fun _ => .bind_zero (.buf _) fun _ => .bind_zero (.buf _) fun _ =>
      .bind_zero (.buf _) fun _ => .bind_zero (.modify fun _ => rfl) fun _ => ?_
    exact .bind_zero (.writePage _ _) fun _ => .pure _
  have hroom : PAGE_ROOM = 4056 := rfl
  have hw := ht.width_le
  have hsep := hk.width
  obtain ⟨d₂, r₂, i₂, f₂, m₂⟩ := (filled_init Mem.zero T.alloc.1 .internalPage).insertRecord
    (pageIdMem left) 4 (by omega) (by simp only [List.map_nil, cost_nil]; omega)
  obtain ⟨d₃, r₃, i₃, f₃, m₃⟩ := f₂.insertRecord sepKey.data.mem sepKey.size
    (by rw [hk.carries.size]; omega) (by rw [hk.carries.size]; simp; omega)
  obtain ⟨d₄, r₄, i₄, f₄, m₄⟩ := f₃.insertRecord (pageIdMem q) 4 (by omega)
    (by rw [hk.carries.size]; simp; omega)
  have hent : entries d₄ = [.live (idBytes left), .live sep, .live (idBytes q)] := by
    rw [f₄.entries, hk.carries.size, hk.carries.bytes]
    rfl
  obtain ⟨s₂, e₂, g₂, p₂⟩ := (h₁.setRoot T.alloc.1).overwrite
    (show Tree.InUse { T.alloc.2 with root := T.alloc.1 } _ from h.ids.alloc.2.1) d₄
  rw [hmin]
  refine .of_ends ((ends_buf (insertRecord_nil _ _)).bind ((ends_buf i₂).bind ((ends_buf i₃).bind
    ((ends_buf i₄).bind ((Ends.modify _ s₁).bind (e₂.bind (.pure _ _))))))) ⟨rfl, ?_, ?_, ?_⟩
  · rw [g₂, getPageType, pageOf_readLE (by simp only [PAGE_SIZE]; omega), ← getPageType,
      ((m₂.trans m₃).trans m₄).pageType, init_pageType]
  · rw [g₂, (pageOf_congr f₄.valid).1, hent]
  · rw [p₂ left (h.inUse hln).alloc (h.ids.alloc_ne hln)]
    exact w₁.pages left hln (by simp)

/-- A full root leaf without a record below its pivot. -/
theorem insert_short (ht : t.Numeric) (h : Good t s T)
    (hp : T.store T.root = some (.leaf es left right)) (hw : t.keyWidth ≤ r.length)
    (hlen : r.length + 4 < 2 ^ 16) (hfull : ¬ leafRoom es r.length = true)
    (hlow : liveEntries (es.take (Tree.pivotOf es)) = [])
    (hup : ∃ b, .live b ∈ es.drop (es.length / 2)) :
    Runs (insert t (View.ofBytes r) r.length) s fun b s' => b = true ∧
      ¬ HasRecord s' T.root ∧ ∃ q k, getPageType (s'.page q) = .internalPage ∧
        entries (s'.page q) = [.live (idBytes T.root), .live k, .live (idBytes T.alloc.1)] := by
  obtain ⟨hh, ⟨rank, hs⟩, -⟩ := h
  have hpn : T.store T.root ≠ none := by simp [hp]
  have hna := hh.nodeAt hp
  have hlong := hs.long _ _ _ _ hp
  have hf : T.find t.keyWidth (keyOf t.keyWidth r) = some (T.root, []) := by
    unfold Tree.find Tree.walk
    simp only [hp]
  have hdec := (extractKey_spec ht (View.sees_ofBytes r) hw).1
  obtain ⟨bt, hbt, e⟩ := findRecord_ends ht hh hdec hf hp hlong
  obtain rfl := List.map_eq_nil_iff.mp hbt
  have hnext : nextId s ≤ 2 ^ 20 := by rw [hh.next]; exact hh.next_le
  have hno : insertRecordAt (s.page T.root) (lowerSlot t.keyWidth es (keyOf t.keyWidth r))
      (View.ofBytes r).mem r.length = .ok (none, s.page T.root) := by
    refine insertRecordAt_none hlen (.inr (.inr ?_))
    rw [leafRoom_iff hna] at hfull
    omega
  unfold insert
  refine Runs.step e (Runs.step (hh.read hp) (Runs.step (ends_buf hno) ?_))
  have hsplit : Runs (splitChild t [] (extractKey t (some (View.ofBytes r)) r.length)) s
      fun _ s' => ¬ HasRecord s' T.root ∧ ∃ q k, getPageType (s'.page q) = .internalPage ∧
        entries (s'.page q) = [.live (idBytes T.root), .live k, .live (idBytes T.alloc.1)] := by
    unfold splitChild
    refine Runs.step e ?_
    refine (Runs.of_tracks (splitLeaf_tracks ht hh hp hlong hup (hs.sibling _ _ _ _ hp))).bind
      (splitLeaf_grows t _)
      (fun a => (wireUp_grows t [] _ a.1 a.2).bind_last fun _ => .pure _)
      (by rw [List.length_nil]; omega) ?_
    rintro ⟨k, f⟩ s₁ ⟨rfl, hk, h₁, -⟩
    obtain ⟨⟨l₁, hp₁⟩, -, -⟩ := Tree.splitLeaf_of_leaf (w := t.keyWidth) hh.ids hp
    rw [hlow] at hp₁
    change Runs (wireUp t [] T.root k T.alloc.1 >>= fun _ => pure T.alloc.1) s₁ _
    have hwire := (splitRoot_short ht h₁ hp₁ hk T.alloc.1).ret ()
    refine (hwire.ret T.alloc.1).mono ?_
    rintro _ s₂ ⟨-, -, -, q, -, htype, hent, hsame⟩
    refine ⟨?_, q, _, htype, hent⟩
    rintro ⟨b, hb⟩
    rw [hsame, (h₁.nodeAt hp₁).2.2.2.1] at hb
    cases hb
  refine (hsplit.ret true).mono ?_
  rintro b s' ⟨hb, _, hQ⟩
  exact ⟨hb, hQ⟩

theorem one_insert {w : Nat} (hr : r.length + 4 ≤ PAGE_ROOM) : Tree.one.insert w r =
    Tree.one.setNode 1 (.leaf [.live r] INVALID_PAGE_ID INVALID_PAGE_ID) := by
  have hstore : Tree.one.store 1 = some (.leaf [] INVALID_PAGE_ID INVALID_PAGE_ID) := by
    simp [Tree.one]
  have hf : Tree.one.find w (keyOf w r) = some (1, []) := by
    unfold Tree.find Tree.walk
    rw [show Tree.one.root = 1 from rfl, hstore]
  have hroom : leafRoom [] r.length = true := by
    rw [leafRoom, decide_eq_true_iff]
    exact (Nat.zero_add _).symm ▸ hr
  have hslot : lowerSlot w [] (keyOf w r) = 0 := Nat.le_zero.mp lowerSlot_le
  unfold Tree.insert
  simp only [hf, hstore, hroom, if_true, hslot]
  rw [leafInsert, if_pos (by rw [cost_nil]; omega)]
  rfl

/-- Two records that do not fit in one leaf: the split leaves nothing on the
first leaf, and the new root has three slots. -/
theorem exec_malformed (ht : t.Numeric) {r₁ r₂ : Bytes} (hf₁ : RecordFits t.keyWidth r₁)
    (hf₂ : RecordFits t.keyWidth r₂) (hfull : PAGE_ROOM < r₁.length + r₂.length + 8) :
    ∃ s p, (treeRuns t fun _ _ => True).Exec [.insert r₁, .insert r₂] s ∧
      ¬ HasRecord s 1 ∧ getPageType (s.page p) = .internalPage ∧ ¬ PairPage t.keyWidth s p := by
  obtain ⟨s₀, hs₀⟩ := start_exists
  have h₀ : Good t s₀ Tree.one := hs₀.good
  have hn₀ : nextId s₀ = 2 := h₀.holds.next
  have hmax : MAX_PAGES = 2 ^ 20 := rfl
  have hroom : PAGE_ROOM = 4056 := rfl
  have hn₁ := call_nextId ht h₀ (c := .insert r₁) hf₁
  have h₁ := step_good ht h₀ (c := .insert r₁) hf₁ (fun r hr => by
    rintro ⟨p, stack, es, left, right, -, hp, hnr, -⟩
    cases hr
    cases (one_store hp).2
    refine hnr ?_
    rw [leafRoom, decide_eq_true_iff, show liveEntries [] = [] from rfl, cost_nil]
    have := hf₁.2
    omega) (by omega)
  have hn₂ := call_nextId ht h₁ (c := .insert r₂) hf₂
  rw [show Tree.one.call t.keyWidth (.insert r₁) = _ from one_insert hf₁.2] at h₁
  have hleaf : (Tree.one.setNode 1 (.leaf [.live r₁] INVALID_PAGE_ID INVALID_PAGE_ID)).store 1 =
      some (.leaf [.live r₁] INVALID_PAGE_ID INVALID_PAGE_ID) := Tree.setNode_self ..
  have hrun := insert_short ht h₁ hleaf hf₂.1
    (by have := hf₂.2; omega) (by
      rw [leafRoom, decide_eq_true_iff, show liveEntries [.live r₁] = [.live r₁] from rfl, cost_cons,
        cost_nil, Entry.size_live]
      omega) (by simp [Tree.pivotOf]) ⟨r₁, by simp⟩
  obtain ⟨b, s₂, e, -, hrec, q, k, htype, hent⟩ := hrun.ends (by
    change nextId (after (Call.run t (.insert r₂)) _) ≤ _
    omega)
  have hs₂ : after (Call.run t (.insert r₂)) (after (Call.run t (.insert r₁)) s₀) = s₂ :=
    after_of_ends e
  have e₁ : (treeRuns t fun _ _ => True).Exec ([] ++ [.insert r₁]) _ :=
    (LTS.Exec.nil hs₀).snoc ⟨hf₁, trivial, rfl, by omega⟩
  have e₂ : (treeRuns t fun _ _ => True).Exec ([.insert r₁] ++ [.insert r₂]) s₂ :=
    e₁.snoc ⟨hf₂, trivial, hs₂.symm, by rw [← hs₂]; omega⟩
  refine ⟨s₂, q, e₂, hrec, htype, ?_⟩
  rintro ⟨ps, -, hps, -⟩
  have hlen := congrArg List.length (hent.symm.trans hps)
  rw [length_pairEntries] at hlen
  simp only [List.length_cons, List.length_nil] at hlen
  omega

end

/-- The third record splits the first leaf. -/
theorem pages_wellFormed_three : ∃ s, (treeRuns {} (SplitsHalves {})).Exec
    [.insert (bigRecord 20), .insert (bigRecord 30), .insert (bigRecord 25)] s ∧
    (∀ p, 1 ≤ p → p < nextId s → getPageType (s.page p) = .internalPage → PairPage 8 s p) ∧
    ∀ r leaf s', (treeRuns {} (SplitsHalves {})).step s (.insert r) s' → SplitsAt {} s r leaf →
      HasRecord s' leaf ∧ HasRecord s' (nextId s) := by
  obtain ⟨s, hs⟩ := exec_inserts [20, 30, 25] (by decide)
  have h := treeRuns_mono (fun _ _ h => h.1)
    (exec_halves numeric_default (by decide) (fun _ _ h => h) hs)
  exact ⟨s, h, pages_wellFormed numeric_default h⟩

theorem pages_malformed : ∃ s p, (treeRuns {} fun _ _ => True).Exec
    [.insert (List.replicate 4000 1), .insert (List.replicate 100 2)] s ∧
      ¬ HasRecord s 1 ∧ getPageType (s.page p) = .internalPage ∧ ¬ PairPage 8 s p :=
  exec_malformed numeric_default (by rw [RecordFits, List.length_replicate]; decide)
    (by rw [RecordFits, List.length_replicate]; decide)
    (by rw [List.length_replicate, List.length_replicate]; decide)

end DbInternals.Index
