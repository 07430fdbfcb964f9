import DbInternals.Core.Table
import DbInternals.Index.TreeScans

/-!
# The tree as a table

Each call of the tree, with what it answered, is an event of a table of records by key: an
`insert` that splits a leaf drops its record, a `get` or `remove` that throws finds nothing.
Callers insert no key that is stored, and splits are those that keep the routes.

Results:
* `lookup_insert`, `lookup_remove`: what a search finds after the calls;
* `tree_refines_table`: every run of the tree is one of the table, over the records of its leaves,
  and every scan can be asked for;
* `answers_explained`: so what was answered follows from the calls before.
-/
namespace DbInternals.Index

open Storage SlottedPage Table

section
variable {t : TreeConfig} {τ : Prop} {s s' : TreeState} {T : Tree} {rank : Nat → Nat} {w p : Nat}
  {x y : Int} {es es' : List Entry} {left right : Nat} {r b : Bytes} {calls : List Call} {key : Key}
  {ls : List Nat}

/-! ## What a search finds -/

theorem Ordered.lookup_iff (h : Ordered t s T ls) :
    T.lookup t.keyWidth x = some b ↔ b ∈ T.records ∧ keyOf t.keyWidth b = x := by
  constructor
  · intro hb
    obtain ⟨p, es, l, r, hp, hm, hk⟩ := lookup_mem hb
    exact ⟨⟨p, es, l, r, hp, hm⟩, hk⟩
  · rintro ⟨⟨p, es, l, r, hp, hm⟩, rfl⟩
    obtain ⟨rank, hs⟩ := h.good.shape
    obtain ⟨stack, hroute⟩ := (h.routed.recs p es l r hp b hm).route
    exact lookup_leaf (hroute.find hs h.good.holds.ids ⟨es, l, r, hp⟩) hp (h.lt p es l r hp) hm

theorem mem_leafInsert_old {i : Nat} (hi : i ≤ es.length) (hb : .live b ∈ es) :
    .live b ∈ leafInsert es i r := by
  unfold leafInsert
  split
  · exact (List.mem_insertIdx hi).mpr (.inr hb)
  · exact (List.mem_insertIdx (liveBefore_le ..)).mpr (.inr (List.mem_filter.mpr ⟨hb, rfl⟩))

/-- An insert adds its record where the leaf has room, and keeps the others. -/
theorem insert_records (hi : T.Ids) {stack : List Nat}
    (hf : T.find w (keyOf w r) = some (p, stack)) (hp : T.store p = some (.leaf es left right)) :
    b ∈ (T.insert w r).records ↔ b ∈ T.records ∨ leafRoom es r.length = true ∧ b = r := by
  have hins : T.insert w r = if leafRoom es r.length = true then
      T.setNode p (.leaf (leafInsert es (lowerSlot w es (keyOf w r)) r) left right)
      else T.splitChild w p es left right stack := by
    unfold Tree.insert
    simp only [hf, hp]
  by_cases hroom : leafRoom es r.length = true
  · rw [hins, if_pos hroom, and_iff_right hroom]
    constructor
    · rintro ⟨q, es', l, r', hq, hb⟩
      by_cases hqp : q = p
      · rw [hqp, Tree.setNode_self] at hq
        cases hq
        cases mem_leafInsert lowerSlot_le hb with
        | inl e => cases e; exact .inr rfl
        | inr hm => exact .inl ⟨p, es, _, _, hp, hm⟩
      · rw [Tree.setNode_of_ne T _ hqp] at hq
        exact .inl ⟨q, es', l, r', hq, hb⟩
    · rintro (⟨q, es', l, r', hq, hb⟩ | rfl)
      · by_cases hqp : q = p
        · subst hqp
          rw [hp] at hq
          cases hq
          exact ⟨q, _, _, _, Tree.setNode_self .., mem_leafInsert_old lowerSlot_le hb⟩
        · exact ⟨q, es', l, r', by rw [Tree.setNode_of_ne T _ hqp]; exact hq, hb⟩
      · exact ⟨p, _, _, _, Tree.setNode_self .., mem_leafInsert_self lowerSlot_le⟩
  · rw [hins, if_neg hroom, splitChild_records hi hp, or_iff_left fun h => hroom h.1]

theorem remove_of_none (hx : T.lookup w x = none) : T.remove w x = T := by
  unfold Tree.lookup at hx
  unfold Tree.remove
  split
  · next p stack hf =>
    simp only [hf] at hx
    split
    · next es l r hp =>
      simp only [hp] at hx
      split
      · next b hb =>
        simp only [hb] at hx
        exact if_neg fun hk => by rw [if_pos hk] at hx; cases hx
      · rfl
    · rfl
  · rfl

/-- A removal marks the record that is found. -/
theorem remove_of_some (hx : T.lookup w x = some b) : ∃ p es l r i,
    T.store p = some (.leaf es l r) ∧ es[i]? = some (.live b) ∧
      T.remove w x = T.setNode p (.leaf (es.set i (.dead b.length)) l r) := by
  unfold Tree.lookup at hx
  unfold Tree.remove
  split at hx
  · next p stack hf =>
    split at hx
    · next es l r hp =>
      split at hx
      · next c hc =>
        split at hx
        · next hk =>
          cases hx
          refine ⟨p, es, l, r, _, hp, hc, ?_⟩
          simp only [if_pos hk]
        · cases hx
      · cases hx
    · cases hx
  · cases hx

/-- A removal takes the record with its key. -/
theorem Ordered.remove_records (h : Ordered t s T ls) :
    b ∈ (T.remove t.keyWidth x).records ↔ b ∈ T.records ∧ keyOf t.keyWidth b ≠ x := by
  cases hx : T.lookup t.keyWidth x with
  | none =>
    rw [remove_of_none hx]
    refine (and_iff_left_of_imp fun hb hk => ?_).symm
    rw [h.lookup_iff.mpr ⟨hb, hk⟩] at hx
    cases hx
  | some c =>
    have hfree := remove_free h.lt h.apart hx
    obtain ⟨p, es, l, r, i, hp, hc, e⟩ := remove_of_some hx
    rw [e] at hfree ⊢
    constructor
    · rintro ⟨q, es', l', r', hq, hb⟩
      refine ⟨?_, hfree q es' l' r' hq b hb⟩
      by_cases hqp : q = p
      · rw [hqp, Tree.setNode_self] at hq
        cases hq
        exact ⟨p, es, l, r, hp, live_of_mem_set hb⟩
      · rw [Tree.setNode_of_ne T _ hqp] at hq
        exact ⟨q, es', l', r', hq, hb⟩
    · rintro ⟨⟨q, es', l', r', hq, hb⟩, hk⟩
      by_cases hqp : q = p
      · subst hqp
        rw [hp] at hq
        cases hq
        refine ⟨q, _, _, _, Tree.setNode_self .., ?_⟩
        -- its slot is not the one that is marked
        obtain ⟨j, hj⟩ := List.getElem?_of_mem hb
        refine List.mem_of_getElem? (i := j) ?_
        rw [List.getElem?_set_ne ?_, hj]
        rintro rfl
        rw [hc] at hj
        cases hj
        exact hk (h.lookup_iff.mp hx).2
      · exact ⟨q, es', l', r', by rw [Tree.setNode_of_ne T _ hqp]; exact hq, hb⟩

/-! ## What the calls answer -/

theorem after_buf {α β : Type} {c : Except Fault α} {f : α → TreeM β} (hf : ∀ a, after (f a) s = s) :
    after (buf c >>= f) s = s := by
  cases c with
  | error e => exact after_bind_error rfl
  | ok a =>
    rw [after_bind (ends_buf (s := s) rfl)]
    exact hf a

/-- A lookup writes nothing. -/
theorem get_after (ht : t.Numeric) (h : Holds t τ s T) (hs : Shape t.keyWidth rank T)
    (hx : key.Decodes x) : after (get t key) s = s := by
  obtain ⟨p, bt, es, left, right, -, -, hp, e⟩ := findRecord_route ht h hs hx
  rw [get, after_bind e, after_bind (h.read hp)]
  apply after_buf
  intro c
  split <;> rfl

/-- A removal that finds its record reports success. -/
theorem remove_reports (ht : t.Numeric) (h : Holds t τ s T) (hs : Shape t.keyWidth rank T)
    (hx : key.Decodes x) (hb : T.lookup t.keyWidth x = some b) :
    ∃ s', Ends (Index.remove t key) s true s' := by
  obtain ⟨p, bt, es, left, right, hf, hr, hp, e⟩ := findRecord_route ht h hs hx
  have hna := h.nodeAt hp
  rw [Tree.lookup, hf] at hb
  simp only [hp] at hb
  split at hb
  · next b' hslot =>
    split at hb
    · next hk =>
      obtain ⟨d, ed, hd⟩ := deleteRecord_leaf hna hslot
      obtain ⟨s', e', -⟩ := h.write (h.inUse (by rw [hp]; simp)) hd
      have hdec := (keyAt_spec ht hna.1 (i := lowerSlot t.keyWidth es x)
        (by rw [hna.2.2.2.1]; exact hslot)
        (hs.long p es left right hp b' (List.mem_of_getElem? hslot))).1
      refine ⟨s', e.bind ((h.read hp).bind ?_)⟩
      dsimp only
      apply (ends_buf (compare_decodes hx hdec)).bind
      rw [if_neg (by simp [hk]), ed]
      exact e'.bind (.pure _ _)
    · cases hb
  · cases hb

theorem returned_of_ends {α : Type} {m : TreeM α} {a : α} (h : Ends m s a s') : returned m s = some a := by
  rw [returned, show m s = .ok a s' from h]

/-- A removal reports success iff it finds a record. -/
theorem remove_answer (ht : t.Numeric) (h : Holds t τ s T) (hs : Shape t.keyWidth rank T)
    (hx : key.Decodes x) :
    returned (Index.remove t key) s = some true ↔ T.lookup t.keyWidth x ≠ none := by
  rw [Option.ne_none_iff_exists']
  constructor
  · intro ha
    exact remove_found ht h hs hx (ends_after ha)
  · rintro ⟨b, hb⟩
    obtain ⟨s', e⟩ := remove_reports ht h hs hx hb
    exact returned_of_ends e

/-- The record in an answer of `get`; no bytes are no record. -/
def found (a : Option Bytes × Nat) : Option Bytes := if a.2 = 0 then none else a.1

theorem get_answer (ht : t.Numeric) (h : Holds t τ s T) (hs : Shape t.keyWidth rank T)
    (hx : key.Decodes x) :
    (returned (get t key) s).map found = some (some b) ↔ T.lookup t.keyWidth x = some b := by
  cases hl : T.lookup t.keyWidth x with
  | some c =>
    obtain ⟨p, es, l, r, hp, hm, -⟩ := lookup_mem hl
    have hlen := hs.long p es l r hp c hm
    have hpos := ht.width_le.1
    rw [returned_of_ends (get_ends ht h hs hx hl), Option.map_some, found,
      if_neg (show ¬ c.length = 0 by omega), Option.some.injEq]
  | none =>
    refine iff_of_false (fun ha => ?_) (by simp)
    obtain ⟨a, he, hf⟩ := Option.map_eq_some_iff.mp ha
    rw [found, if_pos (get_absent ht h hs hx hl (ends_after he))] at hf
    cases hf

/-! ## Runs -/

/-- What callers ask of a run: no key twice, and splits that keep the routes. -/
def KeepsRoutes (t : TreeConfig) (s : TreeState) (c : Call) : Prop :=
  KeepsOnce t s c ∧ SplitsAbove t s c ∧ ∀ r, c = .insert r → NewKey t s r

/-- A call of the tree, what it answers, and the file it leaves behind. Keys are given as bytes. -/
def Serves (t : TreeConfig) (s : TreeState) : Event Int Bytes → TreeState → Prop
  | .insert r room answer, s' => RecordFits t.keyWidth r ∧ KeepsRoutes t s (.insert r) ∧
    (room = true ↔ FindsRoom t s r) ∧ answer = returned (Call.run t (.insert r)) s ∧
    s' = after (Call.run t (.insert r)) s ∧ nextId s' ≤ MAX_PAGES
  | .remove x answer, s' => ∃ k : Bytes, t.keyWidth ≤ k.length ∧ keyOf t.keyWidth k = x ∧
    answer = returned (Call.run t (.remove k)) s ∧ s' = after (Call.run t (.remove k)) s
  | .get x answer, s' => ∃ k : Bytes, t.keyWidth ≤ k.length ∧ keyOf t.keyWidth k = x ∧
    answer = (returned (get t (t.key k)) s).map found ∧ s' = after (get t (t.key k)) s
  | .scan x y answer, s' => ∃ k l : Bytes, t.keyWidth ≤ k.length ∧ keyOf t.keyWidth k = x ∧
    t.keyWidth ≤ l.length ∧ keyOf t.keyWidth l = y ∧
    ∃ it, Ends (scan t (t.key k) (t.key l)) s it s' ∧ Yields t s' it answer

/-- The histories of a tree on a new file. -/
def treeTable (t : TreeConfig) : LTS TreeState (Event Int Bytes) where
  init := Start
  step := Serves t

theorem reads_key (ht : t.Numeric) {k : Bytes} (hk : t.keyWidth ≤ k.length) :
    (t.key k).Reads t.keyTypeId (.integer (keyOf t.keyWidth k)) := ht.reads (key_decodes ht hk)

/-- What is found after an insert. -/
theorem Ordered.lookup_insert (h : Ordered t s T ls) (ht : t.Numeric) {ls' : List Nat}
    (h' : Ordered t s' (T.insert t.keyWidth r) ls') (hr : t.keyWidth ≤ r.length)
    (hfree : KeyFree t.keyWidth (keyOf t.keyWidth r) T) {room : Bool}
    (hroom : room = true ↔ FindsRoom t s r) :
    (T.insert t.keyWidth r).lookup t.keyWidth = if room then
      Function.update (T.lookup t.keyWidth) (keyOf t.keyWidth r) (some r)
      else T.lookup t.keyWidth := by
  obtain ⟨rank, hs⟩ := h.good.shape
  obtain ⟨p, stack, hf, -, es, left, right, hp⟩ := find_route hs h.good.holds.ids (keyOf t.keyWidth r)
  rw [findsRoom_iff ht h.good hr hf hp] at hroom
  funext x
  apply Option.ext
  intro b
  rw [h'.lookup_iff, insert_records h.good.holds.ids hf hp, ← hroom]
  cases room with
  | false => simp [h.lookup_iff]
  | true =>
    rw [if_pos rfl, Function.update_apply]
    split
    · next hx =>
      subst hx
      constructor
      · rintro ⟨⟨q, es', l, r', hq, hb⟩ | ⟨-, rfl⟩, hk⟩
        · exact absurd hk (hfree q es' l r' hq b hb)
        · rfl
      · intro e
        cases e
        exact ⟨.inr ⟨rfl, rfl⟩, rfl⟩
    · next hx =>
      rw [h.lookup_iff]
      refine and_congr_left fun hk => or_iff_left ?_
      rintro ⟨-, rfl⟩
      exact hx hk.symm

theorem Ordered.lookup_remove (h : Ordered t s T ls) {ls' : List Nat}
    (h' : Ordered t s' (T.remove t.keyWidth x) ls') :
    (T.remove t.keyWidth x).lookup t.keyWidth =
      Function.update (T.lookup t.keyWidth) x none := by
  funext y
  apply Option.ext
  intro b
  rw [h'.lookup_iff, h.remove_records, Function.update_apply]
  split
  · next hy =>
    subst hy
    exact iff_of_false (fun hb => hb.1.2 hb.2) (by simp)
  · next hy =>
    rw [h.lookup_iff]
    exact ⟨fun hb => ⟨hb.1.1, hb.2⟩, fun hb => ⟨⟨hb.1, fun hk => hy (hb.2.symm.trans hk)⟩, hb.2⟩⟩

theorem one_lookup : Tree.one.lookup w = fun _ => none := by
  funext x
  by_contra hne
  obtain ⟨b, hb⟩ := Option.ne_none_iff_exists'.mp hne
  obtain ⟨p, es, l, r, hp, hm, -⟩ := lookup_mem hb
  cases (one_store hp).2
  cases hm

/-- An iterator yields one list of records. -/
theorem yields_unique {it : BPlusTreeIterator} {bs cs : List Bytes} (h : Yields t s it bs)
    (h' : Yields t s it cs) : bs = cs := by
  refine List.ext_getElem? fun i => ?_
  obtain ⟨_, e⟩ := h (i + 1)
  obtain ⟨_, e'⟩ := h' (i + 1)
  obtain ⟨he, -⟩ := Ends.unique e e'
  have hi := congrArg (·[i]?) (congrArg Prod.fst he)
  simpa using hi

theorem keepsRoutes_remove (k : Bytes) : KeepsRoutes t s (.remove k) := by
  refine ⟨⟨?_, ?_⟩, ?_, ?_⟩
  · intro r leaf e
    cases e
  · intro r e
    cases e
  · intro r m back rest e
    cases e
  · intro r e
    cases e

/-- The calls of a run, and the table they made. -/
def Made (t : TreeConfig) (s : TreeState) (f : Int → Option Bytes) : Prop :=
  ∃ calls, (treeRuns t (KeepsRoutes t)).Exec calls s ∧
    f = (treeOf t.keyWidth calls).lookup t.keyWidth

theorem made_ordered (ht : t.Numeric) {f : Int → Option Bytes} (h : Made t s f) :
    ∃ T ls, Ordered t s T ls ∧ f = T.lookup t.keyWidth := by
  obtain ⟨calls, hrun, rfl⟩ := h
  obtain ⟨ls, ho⟩ := exec_ordered ht (fun _ _ h => ⟨h.1, h.2.1⟩) hrun
  exact ⟨_, ls, ho, rfl⟩

/-- A write of the tree is one of the table. -/
theorem made_insert (ht : t.Numeric) {f : Int → Option Bytes} (h : Made t s f) {room : Bool}
    {answer : Option Bool} (hs : Serves t s (.insert r room answer) s') :
    Answers (keyOf t.keyWidth) f (.insert r room answer) ∧
      Made t s' (apply (keyOf t.keyWidth) f (.insert r room answer)) := by
  obtain ⟨calls, hrun, rfl⟩ := h
  obtain ⟨hfits, hkeeps, hroom, rfl, rfl, hn⟩ := hs
  obtain ⟨ls, ho⟩ := exec_ordered ht (fun _ _ h => ⟨h.1, h.2.1⟩) hrun
  have hstep : (treeRuns t (KeepsRoutes t)).step s (.insert r) (after (Call.run t (.insert r)) s) :=
    ⟨hfits, hkeeps, rfl, hn⟩
  have hrun' := hrun.snoc hstep
  obtain ⟨ls', ho'⟩ := exec_ordered ht (fun _ _ h => ⟨h.1, h.2.1⟩) hrun'
  have hfree := ho.good.keyFree (hkeeps.2.2 r rfl)
  obtain ⟨s', e, -⟩ := insert_ends ht ho.good hfits
    (not_lopsided ht ho.good (c := .insert r) hfits hkeeps.1.1 r rfl) hn
  rw [treeOf_snoc] at ho'
  refine ⟨⟨?_, returned_of_ends e⟩, _, hrun', ?_⟩
  · by_contra hne
    obtain ⟨b, hb⟩ := Option.ne_none_iff_exists'.mp hne
    obtain ⟨q, es, l, r', hq, hm, hk⟩ := lookup_mem hb
    exact hfree q es l r' hq b hm hk
  · rw [treeOf_snoc]
    exact (ho.lookup_insert ht ho' hfits.1 hfree hroom).symm

theorem made_remove (ht : t.Numeric) {f : Int → Option Bytes} (h : Made t s f) {answer : Option Bool}
    (hs : Serves t s (.remove x answer) s') : Answers (keyOf t.keyWidth) f (.remove x answer) ∧
      Made t s' (apply (keyOf t.keyWidth) f (.remove x answer)) := by
  obtain ⟨calls, hrun, rfl⟩ := h
  obtain ⟨k, hk, rfl, rfl, rfl⟩ := hs
  obtain ⟨ls, ho⟩ := exec_ordered ht (fun _ _ h => ⟨h.1, h.2.1⟩) hrun
  obtain ⟨rank, hshape⟩ := ho.good.shape
  have hafter := remove_after ht ho.good.holds hshape (key_decodes ht hk)
  have hn : nextId (after (Call.run t (.remove k)) s) ≤ MAX_PAGES := by
    rw [show nextId (after (Call.run t (.remove k)) s) = _ from hafter.next]
    exact hafter.next_le
  have hstep : (treeRuns t (KeepsRoutes t)).step s (.remove k) (after (Call.run t (.remove k)) s) :=
    ⟨hk, keepsRoutes_remove k, rfl, hn⟩
  have hrun' := hrun.snoc hstep
  obtain ⟨ls', ho'⟩ := exec_ordered ht (fun _ _ h => ⟨h.1, h.2.1⟩) hrun'
  rw [treeOf_snoc] at ho'
  have hanswer := remove_answer ht ho.good.holds hshape (key_decodes ht hk)
  refine ⟨hanswer, _, hrun', ?_⟩
  rw [treeOf_snoc, apply]
  split
  · exact (ho.lookup_remove ho').symm
  · next hne =>
    have hnone := not_not.mp (mt hanswer.mpr hne)
    rw [show (treeOf t.keyWidth calls).call t.keyWidth (.remove k) = _ from remove_of_none hnone]

/-- The tree simulates a table. -/
theorem tree_simulates (ht : t.Numeric) :
    LTS.Simulates (treeTable t) (table (keyOf t.keyWidth)) (Made t) where
  init s h0 := ⟨_, rfl, [], .nil h0, one_lookup.symm⟩
  step s e s' f hf hs := by
    cases e with
    | insert r room answer =>
      obtain ⟨ha, hf'⟩ := made_insert ht hf hs
      exact ⟨_, ⟨ha, rfl⟩, hf'⟩
    | remove x answer =>
      obtain ⟨ha, hf'⟩ := made_remove ht hf hs
      exact ⟨_, ⟨ha, rfl⟩, hf'⟩
    | get x answer =>
      obtain ⟨T, ls, ho, rfl⟩ := made_ordered ht hf
      obtain ⟨rank, hshape⟩ := ho.good.shape
      obtain ⟨k, hk, rfl, rfl, rfl⟩ := hs
      rw [get_after ht ho.good.holds hshape (key_decodes ht hk)]
      exact ⟨_, ⟨fun b => get_answer ht ho.good.holds hshape (key_decodes ht hk), rfl⟩, hf⟩
    | scan x y answer =>
      obtain ⟨T, ls, ho, rfl⟩ := made_ordered ht hf
      obtain ⟨k, l, hk, rfl, hl, rfl, it, e, hy⟩ := hs
      obtain ⟨it', bs, e', hy', hsorted, hmem⟩ :=
        ho.scan_yields ht (key_decodes ht hk) (reads_key ht hl)
      obtain ⟨rfl, rfl⟩ := Ends.unique e e'
      obtain rfl := yields_unique hy hy'
      refine ⟨_, ⟨⟨hsorted, fun b => (hmem b).trans (and_congr_left fun _ => ?_)⟩, rfl⟩, hf⟩
      rw [ho.lookup_iff]
      exact (and_iff_left rfl).symm

/-- Every run of the tree is one of a table that holds the records of the leaves, and it can be
asked for any range. -/
theorem tree_refines_table (ht : t.Numeric) {events : List (Event Int Bytes)}
    (h : (treeTable t).Exec events s) : ∃ f, (table (keyOf t.keyWidth)).Exec events f ∧
      (∀ x b, f x = some b ↔ keyOf t.keyWidth b = x ∧ ∃ p i, StoredAt s p i b) ∧
      ∀ k l : Bytes, t.keyWidth ≤ k.length → t.keyWidth ≤ l.length →
        ∃ bs, Serves t s (.scan (keyOf t.keyWidth k) (keyOf t.keyWidth l) bs) s := by
  obtain ⟨f, hf, hmade⟩ := (tree_simulates ht).exec h
  obtain ⟨T, ls, ho, rfl⟩ := made_ordered ht hmade
  refine ⟨_, hf, fun x b => ?_, fun k l hk hl => ?_⟩
  · rw [ho.lookup_iff, and_comm]
    refine and_congr_right fun _ => ⟨?_, ?_⟩
    · rintro ⟨p, es, l, r, hp, hm⟩
      obtain ⟨i, hi⟩ := List.getElem?_of_mem hm
      exact ⟨p, i, ho.good.storedAt_iff.mpr ⟨es, l, r, hp, hi⟩⟩
    · rintro ⟨p, i, hb⟩
      obtain ⟨es, l, r, hp, hi⟩ := ho.good.storedAt_iff.mp hb
      exact ⟨p, es, l, r, hp, List.mem_of_getElem? hi⟩
  · obtain ⟨it, bs, e, hy, -⟩ := ho.scan_yields ht (key_decodes ht hk) (reads_key ht hl)
    exact ⟨bs, k, l, hk, rfl, hl, rfl, it, e, hy⟩

/-- What the tree answers follows from the calls before. -/
theorem answers_explained (ht : t.Numeric) {pre post : List (Event Int Bytes)} {e : Event Int Bytes}
    (h : (treeTable t).Exec (pre ++ e :: post) s) : Explained (keyOf t.keyWidth) pre e := by
  obtain ⟨f, hf, -⟩ := (tree_simulates ht).exec h
  exact explained hf

/-- Inserts of a run, as events. -/
theorem exec_events (ht : t.Numeric) {rs : List Bytes}
    (h : (treeRuns t (KeepsRoutes t)).Exec (rs.map .insert) s) : ∃ rooms : List Bool,
      rooms.length = rs.length ∧
      (treeTable t).Exec (List.zipWith (fun r room => .insert r room (some true)) rs rooms) s := by
  induction rs using List.reverseRecOn generalizing s with
  | nil =>
    refine ⟨[], rfl, .nil ?_⟩
    generalize hc : ([] : List Bytes).map Call.insert = calls at h
    cases h with
    | nil h0 => exact h0
    | snoc => simp at hc
  | append_singleton rs r ih =>
    rw [List.map_append] at h
    generalize hc : rs.map Call.insert ++ [r].map Call.insert = calls at h
    cases h with
    | nil => simp at hc
    | @snoc calls s₀ s c h hs =>
      obtain ⟨rfl, hlast⟩ := List.append_inj' hc rfl
      obtain rfl : Call.insert r = c := List.head_eq_of_cons_eq hlast
      obtain ⟨hfits, hkeeps, rfl, hn⟩ := hs
      obtain ⟨rooms, hlen, hevents⟩ := ih h
      have hg := exec_good ht (fun _ _ h => h.1.1) h
      obtain ⟨s', e, -⟩ := insert_ends ht hg hfits
        (not_lopsided ht hg (c := .insert r) hfits hkeeps.1.1 r rfl) hn
      classical
      refine ⟨rooms ++ [decide (FindsRoom t s₀ r)], by simp [hlen], ?_⟩
      rw [List.zipWith_append hlen.symm]
      exact hevents.snoc ⟨hfits, hkeeps, by simp, (returned_of_ends e).symm, rfl, hn⟩

end

/-- Three inserts, the last of which splits the root. -/
def threeInserts (rooms : List Bool) : List (Event Int Bytes) :=
  List.zipWith (fun r room => .insert r room (some true)) ([20, 30, 25].map bigRecord) rooms

theorem exec_threeInserts : ∃ rooms s, rooms.length = 3 ∧ (treeTable {}).Exec (threeInserts rooms) s := by
  obtain ⟨s, hs⟩ := exec_three
  have h := exec_keepsOnce numeric_default (fun _ _ h => h.1)
    (exec_halves numeric_default (by decide) (fun _ _ h => h.1) hs) (by decide +kernel)
  have h₁ : (treeRuns {} (KeepsRoutes {})).Exec (([20, 30, 25].map bigRecord).map .insert) s :=
    treeRuns_mono (fun _ _ h => ⟨⟨h.2.1, fun r hr _ => h.2.2 r hr⟩, h.1.2.2, h.2.2⟩) h
  obtain ⟨rooms, hlen, he⟩ := exec_events numeric_default h₁
  exact ⟨rooms, s, hlen, he⟩

theorem tree_refines_table_three : ∃ rooms s, rooms.length = 3 ∧
    (treeTable {}).Exec (threeInserts rooms) s ∧ ∃ f, (table (keyOf 8)).Exec (threeInserts rooms) f ∧
      (∀ x b, f x = some b ↔ keyOf 8 b = x ∧ ∃ p i, StoredAt s p i b) ∧
      ∀ k l : Bytes, 8 ≤ k.length → 8 ≤ l.length →
        ∃ bs, Serves {} s (.scan (keyOf 8 k) (keyOf 8 l) bs) s := by
  obtain ⟨rooms, s, hlen, h⟩ := exec_threeInserts
  exact ⟨rooms, s, hlen, h, tree_refines_table numeric_default h⟩

/-- And then a lookup. -/
theorem answers_explained_three : ∃ rooms answer s, rooms.length = 3 ∧
    (treeTable {}).Exec (threeInserts rooms ++ [.get (keyOf 8 (bigRecord 20)) answer]) s ∧
    Explained (keyOf 8) (threeInserts rooms) (.get (keyOf 8 (bigRecord 20)) answer) := by
  obtain ⟨rooms, s, hlen, h⟩ := exec_threeInserts
  have hget : Serves {} s (.get (keyOf 8 (bigRecord 20))
      ((returned (get {} (TreeConfig.key {} (bigRecord 20))) s).map found))
      (after (get {} (TreeConfig.key {} (bigRecord 20))) s) :=
    ⟨bigRecord 20, (fits_bigRecord (by decide) 20).1, rfl, rfl, rfl⟩
  exact ⟨rooms, _, _, hlen, h.snoc hget, answers_explained numeric_default (h.snoc hget)⟩

end DbInternals.Index
