import DbInternals.Index.Lookups

/-!
# Keys that are stored once

`insert` never looks whether its key is stored already. As long as the callers
do, no two records of the tree have one key: a split moves records and copies
none. Where separators are above the first one of their parent, the one that
goes up is then strictly between its neighbours, so the test `insertIntoParent`
picks a half by finds no tie.

Results:
* `exec_once`: the leaves over a run;
* `noTie`: the tests on the way up;
* `unique_keys`: runs that store no key twice;
* `duplicate_keys`: a key inserted twice.
-/
namespace DbInternals.Index

open Storage SlottedPage

section
variable {t : TreeConfig} {τ σ : Prop} {s s' : TreeState} {T U : Tree} {rank : Nat → Nat}
  {w p q : Nat} {x : Int} {es es' : List Entry} {left right : Nat} {r b c : Bytes}
  {calls : List Call}

/-! ## The records of the leaves -/

/-- No key is in two leaves. -/
def LeavesApart (w : Nat) (T : Tree) : Prop :=
  ∀ p q es es' l l' r r', p ≠ q → T.store p = some (.leaf es l r) →
    T.store q = some (.leaf es' l' r') → ∀ b c, .live b ∈ es → .live c ∈ es' → keyOf w b ≠ keyOf w c

/-- Leaves with fewer records, other than the one of page `p`. -/
theorem LeavesApart.setLeaf (h : LeavesApart w T) {l l' r' : Nat}
    (hp : T.store p = some (.leaf es l right))
    (hes : ∀ b, .live b ∈ es' → .live b ∈ es ∨ KeyFree w (keyOf w b) T) :
    LeavesApart w (T.setNode p (.leaf es' l' r')) := by
  -- a record of page `p` against one of another page
  have hside : ∀ q es₂ l₂ r₂, q ≠ p → T.store q = some (.leaf es₂ l₂ r₂) → ∀ b c, .live b ∈ es' →
      .live c ∈ es₂ → keyOf w b ≠ keyOf w c := by
    intro q es₂ l₂ r₂ hq hq₂ b c hb hc
    cases hes b hb with
    | inl hb => exact h p q es es₂ _ _ _ _ (Ne.symm hq) hp hq₂ b c hb hc
    | inr hfree => exact Ne.symm (hfree q es₂ l₂ r₂ hq₂ c hc)
  intro q₁ q₂ es₁ es₂ l₁ l₂ r₁ r₂ hne h₁ h₂ b c hb hc
  by_cases e₁ : q₁ = p
  · have e₂ : q₂ ≠ p := fun e => hne (e₁.trans e.symm)
    rw [e₁, Tree.setNode_self] at h₁
    rw [Tree.setNode_of_ne T _ e₂] at h₂
    cases h₁
    exact hside q₂ es₂ l₂ r₂ e₂ h₂ b c hb hc
  · rw [Tree.setNode_of_ne T _ e₁] at h₁
    by_cases e₂ : q₂ = p
    · rw [e₂, Tree.setNode_self] at h₂
      cases h₂
      exact Ne.symm (hside q₁ es₁ l₁ r₁ e₁ h₁ c b hc hb)
    · rw [Tree.setNode_of_ne T _ e₂] at h₂
      exact h q₁ q₂ es₁ es₂ l₁ l₂ r₁ r₂ hne h₁ h₂ b c hb hc

/-- A split moves records, and copies none. -/
theorem splitChild_leavesApart {stack : List Nat} (hi : T.Ids) (h : LeavesApart w T)
    (hlt : LeafLt w es) (hp : T.store p = some (.leaf es left right)) :
    LeavesApart w (T.splitChild w p es left right stack) := by
  have hpn : T.store p ≠ none := by simp [hp]
  have hmem : ∀ {n : Nat} {b : Bytes}, .live b ∈ liveEntries (es.take n) → .live b ∈ es :=
    fun hb => List.mem_of_mem_take (liveEntries_sub hb)
  have hmem' : ∀ {n : Nat} {b : Bytes}, .live b ∈ liveEntries (es.drop n) → .live b ∈ es :=
    fun hb => List.mem_of_mem_drop (liveEntries_sub hb)
  -- the lower half is below the upper one
  have hhalf : ∀ b c, .live b ∈ liveEntries (es.take (Tree.pivotOf es)) →
      .live c ∈ liveEntries (es.drop (Tree.pivotOf es)) → keyOf w b < keyOf w c := by
    intro b c hb hc
    have hall : LeafLt w (es.take (Tree.pivotOf es) ++ es.drop (Tree.pivotOf es)) := by
      rw [List.take_append_drop]
      exact hlt
    exact (List.pairwise_append.mp hall).2.2 _ (liveEntries_sub hb) _ (liveEntries_sub hc) b c rfl rfl
  intro q₁ q₂ es₁ es₂ l₁ l₂ r₁ r₂ hne h₁ h₂ b c hb hc
  rcases Tree.splitLeaf_leaf hi hpn ((splitChild_leaf hi hpn).mp h₁) with
    ⟨rfl, rfl, -⟩ | ⟨rfl, rfl, -⟩ | ⟨n₁, n₁', l₁', h₁'⟩
  · rcases Tree.splitLeaf_leaf hi hpn ((splitChild_leaf hi hpn).mp h₂) with
      ⟨rfl, rfl, -⟩ | ⟨rfl, rfl, -⟩ | ⟨n₂, n₂', l₂', h₂⟩
    · exact absurd rfl hne
    · exact Int.ne_of_lt (hhalf b c hb hc)
    · exact h q₁ q₂ es es₂ _ _ _ _ hne hp h₂ b c (hmem hb) hc
  · rcases Tree.splitLeaf_leaf hi hpn ((splitChild_leaf hi hpn).mp h₂) with
      ⟨rfl, rfl, -⟩ | ⟨rfl, rfl, -⟩ | ⟨n₂, n₂', l₂', h₂⟩
    · exact Ne.symm (Int.ne_of_lt (hhalf c b hc hb))
    · exact absurd rfl hne
    · exact h p q₂ es es₂ _ _ _ _ (Ne.symm n₂) hp h₂ b c (hmem' hb) hc
  · rcases Tree.splitLeaf_leaf hi hpn ((splitChild_leaf hi hpn).mp h₂) with
      ⟨rfl, rfl, -⟩ | ⟨rfl, rfl, -⟩ | ⟨n₂, n₂', l₂', h₂⟩
    · exact h q₁ q₂ es₁ es _ _ _ _ hne h₁' hp b c hb (hmem hc)
    · exact h q₁ p es₁ es _ _ _ _ n₁ h₁' hp b c hb (hmem' hc)
    · exact h q₁ q₂ es₁ es₂ _ _ _ _ hne h₁' h₂ b c hb hc

theorem insert_leavesApart (hs : Shape w rank T) (hi : T.Ids) (hlt : LeavesLt w T)
    (h : LeavesApart w T) (hr : RoomFor w T r → KeyFree w (keyOf w r) T) :
    LeavesApart w (T.insert w r) := by
  obtain ⟨p, stack, hf, -, es, left, right, hp⟩ := find_route hs hi (keyOf w r)
  unfold Tree.insert
  simp only [hf, hp]
  split
  · next hroom =>
    apply h.setLeaf hp
    intro b hb
    cases mem_leafInsert lowerSlot_le hb with
    | inl e => cases e; exact .inr (hr ⟨p, stack, es, left, right, hf, hp, hroom⟩)
    | inr hm => exact .inl hm
  · exact splitChild_leavesApart hi h (hlt p es left right hp) hp

theorem remove_leavesApart (h : LeavesApart w T) (x : Int) : LeavesApart w (T.remove w x) := by
  obtain e | ⟨p, es, left, right, i, b, hp, -, e⟩ := T.remove_cases w x
  · rw [e]
    exact h
  · rw [e]
    exact h.setLeaf hp fun c hc => .inl (live_of_mem_set hc)

/-- A record that was found is the only one with its key, and a removal takes it. -/
theorem remove_free (hlt : LeavesLt w T) (h : LeavesApart w T) (hb : T.lookup w x = some b) :
    KeyFree w x (T.remove w x) := by
  unfold Tree.lookup at hb
  split at hb
  · next p stack hf =>
    split at hb
    · next es l r hp =>
      split at hb
      · next c hc =>
        split at hb
        · next hk =>
          have hrem : T.remove w x = T.setNode p
              (.leaf (es.set (lowerSlot w es x) (.dead c.length)) l r) := by
            simp only [Tree.remove, hf, hp, hc, if_pos hk]
          rw [hrem]
          intro q es' l' r' hq d hd hdx
          by_cases e : q = p
          · rw [e, Tree.setNode_self] at hq
            cases hq
            obtain ⟨j, hj⟩ := List.getElem?_of_mem hd
            rw [List.getElem?_set] at hj
            split at hj
            · split at hj <;> cases hj
            · next hne =>
              -- two slots of a leaf do not have one key
              have hlt' := hlt p es l r hp
              rcases Nat.lt_or_gt_of_ne hne with hlt₁ | hlt₁
              · have := hlt'.lt hlt₁ hc hj
                omega
              · have := hlt'.lt hlt₁ hj hc
                omega
          · rw [Tree.setNode_of_ne T _ e] at hq
            exact h q p es' es _ _ _ _ e hq hp d c hd (List.mem_of_getElem? hc) (hdx.trans hk.symm)
        · cases hb
      · cases hb
    · cases hb
  · cases hb

/-! ## Runs -/

/-- A live record in a slot of a leaf. -/
def StoredAt (s : TreeState) (p i : Nat) (b : Bytes) : Prop :=
  1 ≤ p ∧ p < nextId s ∧ getPageType (s.page p) = .leafPage ∧
    (entries (s.page p))[i]? = some (.live b)

/-- No two live records have one key. -/
def UniqueKeys (t : TreeConfig) (s : TreeState) : Prop :=
  ∀ p q i j b c, StoredAt s p i b → StoredAt s q j c →
    keyOf t.keyWidth b = keyOf t.keyWidth c → p = q ∧ i = j

/-- No record has the key of `r`. -/
def NewKey (t : TreeConfig) (s : TreeState) (r : Bytes) : Prop :=
  ∀ p i b, StoredAt s p i b → keyOf t.keyWidth b ≠ keyOf t.keyWidth r

/-- The key that is inserted is not stored, if its leaf has room. -/
def InsertsNew (t : TreeConfig) (s : TreeState) (c : Call) : Prop :=
  ∀ r, c = .insert r → FindsRoom t s r → NewKey t s r

/-- A split leaf has records on both sides of its middle, and no key is stored twice. -/
def KeepsOnce (t : TreeConfig) (s : TreeState) (c : Call) : Prop :=
  SplitsHalves t s c ∧ InsertsNew t s c

theorem Good.storedAt_iff (h : Good t s T) {i : Nat} : StoredAt s p i b ↔
    ∃ es l r, T.store p = some (.leaf es l r) ∧ es[i]? = some (.live b) := by
  constructor
  · intro hb
    obtain ⟨h1, h2, htype, hb⟩ := hb
    obtain ⟨es, l, r, hp⟩ := (h.isLeaf_iff h1 h2).mpr htype
    rw [(h.holds.nodeAt hp).2.2.2.1] at hb
    exact ⟨es, l, r, hp, hb⟩
  · intro hb
    obtain ⟨es, l, r, hp, hb⟩ := hb
    have hu := h.holds.inUse (show T.store p ≠ none by simp [hp])
    have hna := h.holds.nodeAt hp
    exact ⟨hu.1, by rw [h.holds.next]; exact hu.2.1, hna.2.2.1, by rw [hna.2.2.2.1]; exact hb⟩

theorem Good.keyFree (h : Good t s T) (hc : NewKey t s r) :
    KeyFree t.keyWidth (keyOf t.keyWidth r) T := by
  intro p es l r' hp b hb
  obtain ⟨i, hi⟩ := List.getElem?_of_mem hb
  exact hc p i b (h.storedAt_iff.mpr ⟨es, l, r', hp, hi⟩)

/-- Where the leaf has room, in the code and in the tree. -/
theorem findsRoom_iff (ht : t.Numeric) (h : Good t s T) (hr : t.keyWidth ≤ r.length) {stack : List Nat}
    (hf : T.find t.keyWidth (keyOf t.keyWidth r) = some (p, stack))
    (hp : T.store p = some (.leaf es left right)) :
    FindsRoom t s r ↔ leafRoom es r.length = true := by
  obtain ⟨rank, hs⟩ := h.shape
  obtain ⟨p', bt, es', left', right', hf', -, hp', e⟩ :=
    findRecord_route ht h.holds hs (extractKey_spec ht (View.sees_ofBytes r) hr).1
  rw [hf] at hf'
  cases hf'
  rw [hp] at hp'
  cases hp'
  rw [leafRoom_iff (h.holds.nodeAt hp)]
  constructor
  · rintro ⟨m, hm, hroom⟩
    obtain ⟨rfl, -⟩ := Ends.unique hm e
    exact hroom
  · exact fun hroom => ⟨_, e, hroom⟩

theorem Good.uniqueKeys (h : Good t s T) (hlt : LeavesLt t.keyWidth T)
    (ha : LeavesApart t.keyWidth T) : UniqueKeys t s := by
  intro p q i j b c hb hc hkey
  obtain ⟨es, l, r, hp, hb⟩ := h.storedAt_iff.mp hb
  obtain ⟨es', l', r', hq, hc⟩ := h.storedAt_iff.mp hc
  by_cases e : p = q
  · subst e
    rw [hp] at hq
    cases hq
    refine ⟨rfl, ?_⟩
    by_contra hne
    have hlt' := hlt p es l r hp
    rcases Nat.lt_or_gt_of_ne hne with hij | hij
    · have := hlt'.lt hij hb hc
      omega
    · have := hlt'.lt hij hc hb
      omega
  · exact absurd hkey (ha p q es es' l l' r r' e hp hq b c (List.mem_of_getElem? hb)
      (List.mem_of_getElem? hc))

/-- Where no key is inserted twice, none is stored twice. -/
theorem exec_once (ht : t.Numeric) {ok : TreeState → Call → Prop}
    (hok : ∀ s c, ok s c → KeepsOnce t s c) (h : (treeRuns t ok).Exec calls s) :
    LeavesLt t.keyWidth (treeOf t.keyWidth calls) ∧
      LeavesApart t.keyWidth (treeOf t.keyWidth calls) := by
  induction h with
  | nil h0 =>
    refine ⟨fun p es l r hp => ?_, fun p q es es' l l' r r' _ hp _ b c hb => ?_⟩
    · cases (one_store hp).2
      exact List.Pairwise.nil
    · cases (one_store hp).2
      cases hb
  | @snoc calls s s' c h hstep ih =>
    have hg := exec_good ht (fun s c hc => (hok s c hc).1) h
    obtain ⟨rank, hs⟩ := hg.shape
    obtain ⟨hlt, ha⟩ := ih
    rw [treeOf_snoc]
    cases c with
    | insert r =>
      have hfree : RoomFor t.keyWidth (treeOf t.keyWidth calls) r →
          KeyFree t.keyWidth (keyOf t.keyWidth r) (treeOf t.keyWidth calls) := by
        rintro ⟨p, stack, es, left, right, hf, hp, hroom⟩
        exact hg.keyFree ((hok s _ hstep.2.1).2 r rfl
          ((findsRoom_iff ht hg hstep.1.1 hf hp).mpr hroom))
      exact ⟨insert_leavesLt hs hg.holds.ids hlt hfree,
        insert_leavesApart hs hg.holds.ids hlt ha hfree⟩
    | remove k => exact ⟨remove_leavesLt hlt _, remove_leavesApart ha _⟩

/-- A removal that reports success found a record. -/
theorem remove_found (ht : t.Numeric) (h : Holds t τ s T) (hs : Shape t.keyWidth rank T)
    {key : Key} (hx : key.Decodes x) (he : Ends (remove t key) s true s') :
    ∃ b, T.lookup t.keyWidth x = some b := by
  obtain ⟨p, bt, es, left, right, hf, -, hp, e⟩ := findRecord_route ht h hs hx
  have hna := h.nodeAt hp
  unfold remove at he
  replace he := (h.read hp).rest (e.rest he)
  dsimp only at he
  rcases foundKey_spec ht (i := lowerSlot t.keyWidth es x) hna (hs.long p es left right hp) with
    ⟨b, hb, hdec⟩ | ⟨hb, hnil⟩
  · replace he := (ends_buf (s := s) (compare_decodes hx hdec)).rest he
    obtain ⟨-, he⟩ | ⟨hk, -⟩ := Ends.ite he
    · cases he
    · refine ⟨b, ?_⟩
      have hkey : keyOf t.keyWidth b = x := by
        by_contra hne
        apply hk
        split
        · omega
        · split <;> omega
      simp only [Tree.lookup, hf, hp, hb, if_pos hkey]
  · -- no record is there, and there is nothing to delete
    exfalso
    have hdel := deleteRecord_false (i := lowerSlot t.keyWidth es x) hna.1 fun b =>
      hna.2.2.2.1 ▸ hb b
    rw [hnil, hdel] at he
    obtain ⟨c, s₁, hc, he⟩ := Ends.bind_iff.mp he
    obtain ⟨-, he⟩ | ⟨-, he⟩ := Ends.ite he
    · cases he
    · cases he

/-! ## Ties -/

/-- `insertIntoParent` splits the page. mirrors src/index/b_plus_tree.cpp:724-732 -/
def Crowded (data : Mem) (separatorKey : Key) : Prop :=
  let neededSpace := (separatorKey.size + 4 + sizeofSlot * 2) % 2 ^ 16
  getFreeSpace (if getFreeSpace data < neededSpace then compactify data else data) < neededSpace

/-- `insertIntoParent` finds no tie, while page ids last: where it splits the
page, the first key of the new page is not the separator, and the levels above
find none for the separator that goes up. -/
def NoTie (t : TreeConfig) : BTStack → Key → TreeState → Prop
  | [], _, _ => True
  | back :: rest, separatorKey, s => Crowded (s.page back.pageId) separatorKey →
    (∀ q s', Ends (splitInternal t (back :: rest)) s q s' → nextId s' ≤ MAX_PAGES →
      (keyAt t (s'.page q) 0).compare separatorKey ≠ .ok 0) ∧
    ∀ q s', Ends (splitInternalAt t back.pageId fun _ _ => pure ()) s q s' →
      nextId s' ≤ MAX_PAGES → NoTie t rest (keyAt t (s'.page q) 0) s'

/-- The separator of a child is between its neighbours. -/
theorem Routed.between (h : Routed σ w T) {left : Nat} {n nl nr : Node} {sep : Bytes}
    (hl : T.store left = some n) (hn : Halving w n nl sep nr) {ps : List Pair} {pr : Pair}
    (hp : T.store p = some (.inner ps)) (hpr : pr ∈ ps) (he : pr.2 = left)
    (hlt : keyOf w pr.1 < keyOf w sep) {i : Nat} (hi : i < ps.length) :
    pairKey w ps i ≠ keyOf w sep := by
  obtain ⟨j, hj⟩ := List.getElem?_of_mem hpr
  have hjlt := (List.getElem?_eq_some_iff.mp hj).1
  have hkey : pairKey w ps j = keyOf w pr.1 := by rw [pairKey, hj]; rfl
  have hsorted := h.sorted p ps hp
  have habove := ((childIdx_iff hsorted hjlt).mp (h.last (h.goes_sep hl hn) hp hj he).2.1).2
  by_cases hij : i ≤ j
  · have := hsorted.le hij hjlt
    omega
  · have h1 := habove (by omega)
    have h2 := hsorted.le (show j + 1 ≤ i by omega) hi
    omega

/-- A page that is split, and the levels above it. -/
theorem splitInternal_runs (ht : t.Numeric) {back : Breadcrumb} {rest : BTStack} {ps : List Pair}
    (h : Holds t τ s U) (hp : U.store back.pageId = some (.inner ps)) (hlen : 4 ≤ ps.length)
    (hnd : ((back :: rest).map Breadcrumb.pageId).Nodup)
    (hin : ∀ q ∈ rest.map Breadcrumb.pageId, ∃ qs, U.store q = some (.inner qs))
    (hrest : rest.length < 2 ^ 30) :
    Runs (splitInternal t (back :: rest)) s fun q s' => q = U.alloc.1 ∧
      NodeAt τ t.keyWidth (s'.page q) (.inner (ps.drop (ps.length / 2))) := by
  have hpn : U.store back.pageId ≠ none := by simp [hp]
  obtain ⟨hpr, hnd'⟩ := List.nodup_cons.mp hnd
  obtain ⟨hs1, hs2, hs3⟩ := Tree.splitNode_store ps h.ids hpn
  have hI' := Tree.splitNode_ids ps h.ids hpn
  have hne : ∀ q ∈ rest.map Breadcrumb.pageId, q ≠ back.pageId ∧ q ≠ U.alloc.1 := fun q hq => by
    obtain ⟨qs, hqs⟩ := hin q hq
    exact ⟨fun e => hpr (e ▸ hq), h.ids.alloc_ne (by simp [hqs])⟩
  have hin' : ∀ q ∈ rest.map Breadcrumb.pageId, ∃ qs,
      (U.splitNode back.pageId ps).2.2.store q = some (.inner qs) := fun q hq => by
    rw [hs3 q (hne q hq).1 (hne q hq).2]
    exact hin q hq
  refine Runs.of_tracks ((splitInternalAt_tracks ht h hp (by omega) (wireUp t rest back.pageId)
    (wireUp_grows t rest back.pageId) (by omega)
    (R := fun _ s₂ => Holds t τ s₂ (Tree.wire t.keyWidth (rest.map Breadcrumb.pageId)
      (U.splitNode back.pageId ps).2.2 back.pageId (U.splitNode back.pageId ps).2.1 U.alloc.1))
    (took_wire (w := t.keyWidth) _ _ back.pageId (U.splitNode back.pageId ps).2.1 U.alloc.1 hI'
      hnd' hin').next_le fun s₁ k₁ h₁ hk₁ => ?_).mono fun q s' hq => ?_)
  · refine (wireUp_tracks ht rest s₁ _ back.pageId _ U.alloc.1 k₁ h₁.holds (fun _ => ⟨_, hs1, ?_⟩)
      hnd' hin' hrest hk₁ (hI'.used _ (by simp [hs2]))).mono fun _ _ hQ => hQ.1
    simp only [Node.HasMin, ne_eq, List.take_eq_nil_iff, not_or]
    exact ⟨by omega, fun e => by rw [e] at hlen; simp at hlen⟩
  · obtain ⟨rfl, s₁, -, h₂⟩ := hq
    have hfresh : U.alloc.1 ∉ rest.map Breadcrumb.pageId := fun hq => (hne _ hq).2 rfl
    exact ⟨rfl, h₂.nodeAt ((Tree.wire_store _ _ _ _ _ hI' (hI'.used _ (by simp [hs2]))
      hfresh).trans hs2)⟩

/-- On the way up from a page that was halved, with a separator above its pair. -/
theorem noTie (ht : t.Numeric) (h : Routed σ t.keyWidth T) (hs : Shape t.keyWidth rank T) :
    ∀ (bt : BTStack) (s : TreeState) (U : Tree) (left : Nat) (n nl nr : Node) (sep : Bytes)
      (sepKey : Key), Holds t τ s U →
      (∀ q ∈ bt.map Breadcrumb.pageId, U.store q = T.store q) → T.store left = some n →
      Halving t.keyWidth n nl sep nr → Path T left (bt.map Breadcrumb.pageId) →
      (bt.map Breadcrumb.pageId).Nodup → bt.length < 2 ^ 30 →
      (∀ p ps pr, T.store p = some (.inner ps) → pr ∈ ps → pr.2 = left →
        keyOf t.keyWidth pr.1 < keyOf t.keyWidth sep) → sepKey.Is t sep → NoTie t bt sepKey s
  | [], _, _, _, _, _, _, _, _, _, _, _, _, _, _, _, _, _ => trivial
  | back :: rest, s, U, left, n, nl, nr, sep, sepKey, hh, hU, hl, hn, hpath, hnd, hlen, hlt, hk => by
    obtain ⟨⟨ps, k, hp, hm⟩, hpath⟩ := hpath
    have hw := ht.width_le
    have hpU : U.store back.pageId = some (.inner ps) :=
      (hU _ (by simp)).trans hp
    have hpn : U.store back.pageId ≠ none := by simp [hpU]
    have hneed : (sepKey.size + 4 + sizeofSlot * 2) % 2 ^ 16 = t.keyWidth + 12 := by
      rw [hk.carries.size, hk.width]; simp only [sizeofSlot]; omega
    obtain ⟨page, hpage, -, hroom⟩ := parentPage_spec (hh.nodeAt hpU)
    intro hfull
    rw [Crowded, hneed, hpage, hroom] at hfull
    have hlen4 := four_le_of_full hw.2 hfull
    have hrest : rest.length < 2 ^ 30 := by
      rw [List.length_cons] at hlen
      omega
    have hin : ∀ q ∈ rest.map Breadcrumb.pageId, ∃ qs, U.store q = some (.inner qs) := by
      intro q hq
      obtain ⟨qs, hqs⟩ := hpath.inner q hq
      exact ⟨qs, (hU q (by rw [List.map_cons]; exact List.mem_cons_of_mem _ hq)).trans hqs⟩
    obtain ⟨hpr, hnd'⟩ := List.nodup_cons.mp hnd
    obtain ⟨prm, hprm⟩ : ∃ prm, ps[ps.length / 2]? = some prm :=
      ⟨_, List.getElem?_eq_getElem (by omega)⟩
    obtain ⟨hmlt, hmget⟩ := List.getElem?_eq_some_iff.mp hprm
    have hkm : pairKey t.keyWidth ps (ps.length / 2) = keyOf t.keyWidth prm.1 := by
      rw [pairKey_getElem hmlt, hmget]
    have hsepm : (U.splitNode back.pageId ps).2.1 = prm.1 := by rw [Tree.splitNode_snd, hprm]; rfl
    -- the key of the new page, wherever it is read
    have hfirst : ∀ {data : Mem}, NodeAt τ t.keyWidth data (.inner (ps.drop (ps.length / 2))) →
        (keyAt t data 0).Is t prm.1 := by
      intro data hd
      rw [← hsepm]
      exact upperKey_spec ht hd (by omega)
    constructor
    · intro q s' he hnext
      obtain ⟨q', s'', he', -, hd⟩ :=
        (splitInternal_runs ht hh hpU hlen4 hnd hin hrest).ends (by rwa [after_of_ends he])
      obtain ⟨rfl, rfl⟩ := Ends.unique he he'
      rw [compare_decodes (hfirst hd).decodes hk.decodes]
      have := h.between hl hn hp hm rfl (hlt _ ps _ hp hm rfl) hmlt
      rw [hkm] at this
      split
      · simp
      · split
        · simp
        · omega
    · intro q s' he hnext
      have hrun := Runs.of_tracks (splitInternalAt_tracks ht hh hpU (by omega) (fun _ _ => pure ())
        (fun _ _ => .pure ()) (by omega) (R := fun s₁ s₂ => s₂ = s₁) (Nat.le_refl _)
        fun s₁ _ _ _ => .of_ends (.pure () s₁) rfl)
      obtain ⟨q', s'', he', rfl, s₁, h₁, rfl⟩ := hrun.ends (by rwa [after_of_ends he])
      obtain ⟨rfl, rfl⟩ := Ends.unique he he'
      obtain ⟨hs1, hs2, hs3⟩ := Tree.splitNode_store ps hh.ids hpn
      refine noTie ht h hs rest s' _ back.pageId (.inner ps) _ _ prm.1 _ h₁.holds (fun q hq => ?_) hp
        (.inner (by omega) hprm) hpath hnd' hrest (fun p' qs pr hp' hpr' e => ?_)
        (hfirst (h₁.holds.nodeAt hs2))
      · have hqU := hU q (by rw [List.map_cons]; exact List.mem_cons_of_mem _ hq)
        obtain ⟨qs, hqs⟩ := hin q hq
        rw [hs3 q (fun e => hpr (e ▸ hq)) (hh.ids.alloc_ne (by simp [hqs])), hqU]
      · have h1 := h.first p' qs hp' pr hpr' ps (by rw [e]; exact hp)
        have h2 := (h.sorted _ ps hp).lt (show 0 < ps.length / 2 by omega) hmlt
        rw [hkm] at h2
        exact Int.lt_of_le_of_lt h1 h2

/-- An insert that splits finds no tie on the way up. -/
def NeverTies (t : TreeConfig) (s : TreeState) (r : Bytes) : Prop :=
  ∀ m a s', Ends (findRecord t (recordKey t r)) s m s →
    getTotalFreeSpace (s.page m.leafPage) < r.length + 4 → Ends (splitLeaf t m.leafPage) s a s' →
    nextId s' ≤ MAX_PAGES → NoTie t m.btStack a.1 s'

theorem Good.neverTies (ht : t.Numeric) (h : Good t s T) (hr : Routed False t.keyWidth T)
    (hlt : LeavesLt t.keyWidth T) (hw : t.keyWidth ≤ r.length)
    (hh : SplitsHalves t s (.insert r)) (ha : SplitsAbove t s (.insert r)) : NeverTies t s r := by
  intro m a s' hm hfull hsplit hnext
  obtain ⟨rank, hs⟩ := h.shape
  obtain ⟨p, bt, es, left, right, hf, hroute, hp, e⟩ :=
    findRecord_route ht h.holds hs (extractKey_spec ht (View.sees_ofBytes r) hw).1
  obtain ⟨rfl, -⟩ := Ends.unique hm e
  have hroom : ¬ leafRoom es r.length = true := by
    rw [leafRoom_iff (h.holds.nodeAt hp)]
    exact Nat.not_le.mpr hfull
  obtain ⟨hhalves, hfirst⟩ := splitsUp ht h hw hh ha p _ es left right hf hp hroom
  have hlong := hs.long p es left right hp
  have hi := h.holds.ids
  obtain ⟨a', s'', e', -, hk, h₁, -⟩ := (Runs.of_tracks (splitLeaf_tracks ht h.holds hp hlong
    hhalves.upper (hs.sibling p es left right hp))).ends (by rwa [after_of_ends hsplit])
  obtain ⟨rfl, rfl⟩ := Ends.unique hsplit e'
  obtain ⟨hnd, hin, hlen⟩ := hroute.stack_spec h.holds hs
  rw [List.length_map] at hlen
  refine noTie ht hr hs bt s' _ p (.leaf es left right) _ _ _ _ h₁ (fun q hq => ?_) hp
    ((hlt p es left right hp).halving hhalves hlong
      (fun b rest hb => splitLeaf_sep (w := t.keyWidth) hi hp hb) left right left right left right)
    hroute.path hnd (by omega) (fun q ps pr hq hpr hep => ?_) hk
  · obtain ⟨qs, hqs⟩ := hin q hq
    rw [hqs]
    exact (Tree.splitLeaf_inner hi hp).mpr hqs
  · rw [pivotKey_eq hhalves hlong hi hp]
    exact hr.below_pivot hhalves (hlt p es left right hp) hp hq hpr hep
      (.inr (hfirst q ps (hr.parent hroute.path hq hpr hep) hq))

/-- Routes stay where, besides, every separator is above the first one of its parent. -/
theorem exec_once_routed (ht : t.Numeric) {ok : TreeState → Call → Prop}
    (hok : ∀ s c, ok s c → KeepsOnce t s c ∧ SplitsAbove t s c) (h : (treeRuns t ok).Exec calls s) :
    Routed False t.keyWidth (treeOf t.keyWidth calls) := by
  have hok' : ∀ s c, ok s c → KeepsOnce t s c := fun s c hc => (hok s c hc).1
  induction h with
  | nil h0 => exact one_routed
  | @snoc calls s s' c h hstep ih =>
    have hg := exec_good ht (fun s c hc => (hok' s c hc).1) h
    obtain ⟨rank, hs⟩ := hg.shape
    obtain ⟨hfits, hokc, -, -⟩ := hstep
    rw [treeOf_snoc]
    cases c with
    | insert r =>
      obtain ⟨⟨hh, -⟩, ha⟩ := hok s _ hokc
      exact insert_routed ht.width_le.2 hg.holds.ids hs (exec_once ht hok' h).1 ih
        (splitsUp ht hg hfits.1 hh ha)
    | remove k => exact remove_routed ih _

/-- In every run whose inserts, where they find room, are of keys that are not
stored, no two live records have one key, and a removal that reports success
leaves no record with its key. Where, besides, every separator is above the
first one of its parent, the way up finds no tie. -/
theorem unique_keys (ht : t.Numeric) (h : (treeRuns t (KeepsOnce t)).Exec calls s) :
    UniqueKeys t s ∧
      (∀ k s', (treeRuns t (KeepsOnce t)).step s (.remove k) s' →
        Ends (Index.remove t (t.key k)) s true s' →
        ∀ p i b, StoredAt s' p i b → keyOf t.keyWidth b ≠ keyOf t.keyWidth k) ∧
      ((treeRuns t fun s c => KeepsOnce t s c ∧ SplitsAbove t s c).Exec calls s → ∀ r s',
        (treeRuns t fun s c => KeepsOnce t s c ∧ SplitsAbove t s c).step s (.insert r) s' →
        NeverTies t s r) := by
  have hg := exec_good ht (fun _ _ h => h.1) h
  obtain ⟨hlt, ha⟩ := exec_once ht (fun _ _ h => h) h
  refine ⟨hg.uniqueKeys hlt ha, fun k s' hstep hrem p i b hb => ?_, fun h' r s' hstep => ?_⟩
  · obtain ⟨rank, hs⟩ := hg.shape
    have hg' := exec_good ht (fun _ _ h => h.1) (h.snoc hstep)
    rw [treeOf_snoc] at hg'
    obtain ⟨c, hc⟩ := remove_found ht hg.holds hs (key_decodes ht hstep.1) hrem
    obtain ⟨es, l, r, hp, hi⟩ := hg'.storedAt_iff.mp hb
    exact remove_free hlt ha hc p es l r hp b (List.mem_of_getElem? hi)
  · have hr := exec_once_routed ht (fun _ _ h => h) h'
    exact hg.neverTies ht hr hlt hstep.1.1 hstep.2.1.1.1 hstep.2.1.2

/-- A run that inserts each key once. -/
theorem exec_keepsOnce (ht : t.Numeric) {ok : TreeState → Call → Prop}
    (hok : ∀ s c, ok s c → SplitsHalves t s c) (h : (treeRuns t ok).Exec calls s)
    (hnd : (insertedKeys t.keyWidth calls).Nodup) :
    (treeRuns t fun s c => ok s c ∧ SplitsHalves t s c ∧ ∀ r, c = .insert r → NewKey t s r).Exec
      calls s := by
  induction h with
  | nil h0 => exact .nil h0
  | @snoc calls s s' c h hstep ih =>
    obtain ⟨hfits, hokc, hs'⟩ := hstep
    cases c with
    | insert r =>
      rw [insertedKeys_insert] at hnd
      obtain ⟨hnd', -, hnew⟩ := List.nodup_append.mp hnd
      refine (ih hnd').snoc ⟨hfits, ⟨hokc, hok s _ hokc, fun r' hr p i b hb => ?_⟩, hs'⟩
      cases hr
      obtain ⟨es, l, r', hp, hi⟩ := (exec_good ht hok h).storedAt_iff.mp hb
      exact hnew _ ((exec_keys ht hok h hnd').2 p es l r' hp b (List.mem_of_getElem? hi)) _ (by simp)
    | remove k =>
      rw [insertedKeys_remove] at hnd
      exact (ih hnd).snoc ⟨hfits, ⟨hokc, hok s _ hokc, fun r' hr => by cases hr⟩, hs'⟩

end

/-- The third record splits the root. -/
theorem unique_keys_three : ∃ s, (treeRuns {} (KeepsOnce {})).Exec (bigInserts [20, 30, 25]) s ∧
    UniqueKeys {} s ∧ ∀ r s',
      (treeRuns {} fun s c => KeepsOnce {} s c ∧ SplitsAbove {} s c).step s (.insert r) s' →
        NeverTies {} s r := by
  obtain ⟨s, hs⟩ := exec_three
  have h := exec_keepsOnce numeric_default (fun _ _ h => h.1)
    (exec_halves numeric_default (by decide) (fun _ _ h => h.1) hs) (by decide +kernel)
  have hkeeps : ∀ {s c}, SplitsHalves {} s c ∧ (∀ r, c = .insert r → NewKey {} s r) →
      KeepsOnce {} s c := fun h => ⟨h.1, fun r hr _ => h.2 r hr⟩
  have h₁ : (treeRuns {} (KeepsOnce {})).Exec (bigInserts [20, 30, 25]) s :=
    treeRuns_mono (fun _ _ h => hkeeps h.2) h
  have h₂ : (treeRuns {} fun s c => KeepsOnce {} s c ∧ SplitsAbove {} s c).Exec
      (bigInserts [20, 30, 25]) s := treeRuns_mono (fun _ _ h => ⟨hkeeps h.2, h.1.2.2⟩) h
  obtain ⟨hu, -, hties⟩ := unique_keys numeric_default h₁
  exact ⟨s, h₁, hu, hties h₂⟩

/-- A record inserted twice is stored twice. -/
theorem duplicate_keys : ∃ s, (treeRuns {} fun _ _ => True).Exec (bigInserts [20, 20]) s ∧
    ¬ UniqueKeys {} s := by
  obtain ⟨s, hs⟩ := exec_inserts [20, 20] (by decide)
  obtain ⟨hg, -, -⟩ := exec_sized numeric_default (by decide) (fun _ _ h => h) hs
  have hleaf : (treeOf 8 (bigInserts [20, 20])).store 1 =
      some (.leaf [.live (bigRecord 20), .live (bigRecord 20)] INVALID_PAGE_ID INVALID_PAGE_ID) := by
    decide +kernel
  refine ⟨s, treeRuns_mono (fun _ _ _ => trivial) hs, fun hu => ?_⟩
  have h₀ : StoredAt s 1 0 (bigRecord 20) := hg.storedAt_iff.mpr ⟨_, _, _, hleaf, rfl⟩
  have h₁ : StoredAt s 1 1 (bigRecord 20) := hg.storedAt_iff.mpr ⟨_, _, _, hleaf, rfl⟩
  exact absurd (hu 1 1 0 1 _ _ h₀ h₁ rfl).2 (by decide)

end DbInternals.Index
