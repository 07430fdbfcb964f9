import DbInternals.Index.TreeCalls
import DbInternals.Index.LeafChain
import DbInternals.Core.LTS

/-!
# Runs of a tree

A run starts with one empty leaf on a new file and makes public calls, as long
as page ids are below `2 ^ 20`. Every state of a run in which each split leaf
has records on both sides of its middle holds a tree (`Run.good`).

Results:
* `step_good`: one call is the call of the same name on the tree;
* `halves_of_sized`: with records of one size, two of which fit in a leaf,
  every full leaf has records on both sides of its middle;
* `exists_exec`: there are such runs;
* `leaf_chain`: the leaves form one doubly linked list, in every state.
-/
namespace DbInternals.Index

open Storage SlottedPage

/-! ## The system -/

/-- One empty leaf as root.
mirrors src/tests/index/b_plus_tree_test_util.h:84-99 without records, and :78-80 -/
def newTree : TreeM Unit := do
  let root ← disk allocatePage
  disk (writePage root (init Mem.zero root .leafPage))
  modify fun s => { s with rootPageId := root }

/-- A new tree on a new file. -/
def Start (s : TreeState) : Prop :=
  ∃ d, DiskManager.create none = .ok () d ∧ Ends newTree ⟨d, 0, []⟩ () s

inductive Call where
  | insert (record : Bytes)
  | remove (key : Bytes)
  deriving DecidableEq, Repr

/-- A key over the given bytes.
mirrors src/tests/index/b_plus_tree_test_util.h:118-120 -/
def TreeConfig.key (t : TreeConfig) (b : Bytes) : Key :=
  Key.fromBytes t.keyTypeId t.keyWidth (View.ofBytes b) b.length

def Call.run (t : TreeConfig) : Call → TreeM Bool
  | .insert r => Index.insert t (View.ofBytes r) r.length
  | .remove k => Index.remove t (t.key k)

/-- A record holds its key and fits in an empty leaf. -/
def RecordFits (w : Nat) (r : Bytes) : Prop := w ≤ r.length ∧ r.length + 4 ≤ PAGE_ROOM

def Call.Fits (w : Nat) : Call → Prop
  | .insert r => RecordFits w r
  | .remove k => w ≤ k.length

/-- Calls that meet `ok`, while page ids last. A call that throws leaves what
it had written. -/
def treeRuns (t : TreeConfig) (ok : TreeState → Call → Prop) : LTS TreeState Call where
  init := Start
  step s c s' := c.Fits t.keyWidth ∧ ok s c ∧ s' = after (c.run t) s ∧ nextId s' ≤ MAX_PAGES

theorem treeRuns_mono {t : TreeConfig} {ok ok' : TreeState → Call → Prop}
    (hok : ∀ s c, ok s c → ok' s c) {calls : List Call} {s : TreeState}
    (h : (treeRuns t ok).Exec calls s) : (treeRuns t ok').Exec calls s := by
  induction h with
  | nil h0 => exact .nil h0
  | snoc _ hs ih => exact ih.snoc ⟨hs.1, hok _ _ hs.2.1, hs.2.2⟩

/-- A condition that each call of the run meets may be added. -/
theorem treeRuns_and {t : TreeConfig} {ok ok' : TreeState → Call → Prop} {calls : List Call}
    {s : TreeState} (h : (treeRuns t ok).Exec calls s)
    (hok : ∀ i c s, calls[i]? = some c → (treeRuns t ok).Exec (calls.take i) s → c.Fits t.keyWidth →
      ok' s c) : (treeRuns t fun s c => ok s c ∧ ok' s c).Exec calls s := by
  induction h with
  | nil h0 => exact .nil h0
  | @snoc calls s s' c h hs ih =>
    refine (ih fun i c' s₀ hc hs₀ => hok i c' s₀ ?_ ?_).snoc ⟨hs.1, ⟨hs.2.1, ?_⟩, hs.2.2⟩
    · rw [List.getElem?_append_left (List.getElem?_eq_some_iff.mp hc).1]
      exact hc
    · rwa [List.take_append_of_le_length (Nat.le_of_lt (List.getElem?_eq_some_iff.mp hc).1)]
    · refine hok calls.length c s (by simp) ?_ hs.1
      rwa [List.take_left']
      rfl

/-! ## The tree behind a state -/

/-- The state holds the tree, its descents end, and no page is lost. -/
structure Good (t : TreeConfig) (s : TreeState) (T : Tree) : Prop where
  holds : Holds t True s T
  shape : ∃ rank, Shape t.keyWidth rank T
  dense : Dense T

def Tree.call (w : Nat) (T : Tree) : Call → Tree
  | .insert r => T.insert w r
  | .remove k => T.remove w (keyOf w k)

/-- The tree of one empty leaf. -/
def Tree.one : Tree where
  store := Function.update (fun _ => none) 1 (some (.leaf [] INVALID_PAGE_ID INVALID_PAGE_ID))
  root := 1
  free := []
  next := 2

section
variable {t : TreeConfig} {s s' : TreeState} {T : Tree} {w size : Nat} {es : List Entry}

theorem one_store {p : Nat} {n : Node} (h : Tree.one.store p = some n) :
    p = 1 ∧ n = .leaf [] INVALID_PAGE_ID INVALID_PAGE_ID := by
  change Function.update (fun _ => none) 1 _ p = some n at h
  by_cases hp : p = 1
  · rw [hp, Function.update_self] at h
    cases h
    exact ⟨hp, rfl⟩
  · rw [Function.update_of_ne hp] at h
    cases h

theorem one_shape : Shape w (fun _ => 0) Tree.one := by
  refine ⟨by simp [Tree.one], fun p ps h => ?_, fun p ps h => ?_, fun p es l r h => ?_,
    fun p es l r h => ?_⟩
  · cases (one_store h).2
  · cases (one_store h).2
  · cases (one_store h).2
    intro b hb
    cases hb
  · cases (one_store h).2
    exact .inl rfl

theorem one_chain : Chain Tree.one [1] := by
  refine ⟨by simp, ⟨⟨[], by simp [Tree.one, nextOf]⟩, trivial⟩, fun p => ⟨?_, ?_⟩⟩
  · rintro ⟨es, l, r, h⟩
    simp [(one_store h).1]
  · intro hp
    obtain rfl := List.mem_singleton.mp hp
    exact ⟨[], INVALID_PAGE_ID, INVALID_PAGE_ID, by simp [Tree.one]⟩

theorem one_dense : Dense Tree.one := by
  refine ⟨rfl, fun p h1 h2 => ?_⟩
  have hp : p = 1 := by simp only [Tree.one] at h2; omega
  subst hp
  simp [Tree.one]

/-- A new file holds a tree of no pages. -/
theorem holds_none {d : DiskManager} (hio : d.io = none)
    (hhead : d.globalMetadata.freelistHead = INVALID_PAGE_ID)
    (hnext : d.globalMetadata.nextPageId = 1) :
    Holds t True ⟨d, 0, []⟩ { store := fun _ => none, root := 0, free := [], next := 1 } := by
  refine ⟨hio, rfl, hnext, by decide, ?_, ⟨Nat.le_refl 1, fun p hp => absurd rfl hp,
    List.nodup_nil, by simp⟩, fun q n hq => by cases hq⟩
  change FreeList d d.globalMetadata.freelistHead []
  rw [hhead]
  exact .nil

/-- A new tree on a file without pages. -/
theorem newTree_ends {d : DiskManager} (h : Holds t True ⟨d, 0, []⟩
    { store := fun _ => none, root := 0, free := [], next := 1 }) :
    ∃ s, Ends newTree ⟨d, 0, []⟩ () s ∧ Holds t True s Tree.one := by
  obtain ⟨s₁, e₁, h₁, -⟩ := h.alloc (by decide)
  have hn : NodeAt True t.keyWidth (init Mem.zero 1 .leafPage)
      (.leaf [] INVALID_PAGE_ID INVALID_PAGE_ID) :=
    ⟨init_valid .., fun _ => init_tight .., init_pageType .., init_entries .., init_left ..,
      init_right ..⟩
  obtain ⟨s₂, e₂, h₂, -, -⟩ := h₁.write (p := 1) ⟨Nat.le_refl 1, by decide, by simp [Tree.alloc]⟩ hn
  exact ⟨_, e₁.bind (e₂.bind (Ends.modify _ s₂)), h₂.setRoot 1⟩

/-- The file `DiskManager.create` makes. -/
theorem create_ends : ∃ d, DiskManager.create none = .ok () d ∧ d.io = none ∧
    d.globalMetadata = ⟨MAGIC_NUMBER, 0, 0, INVALID_PAGE_ID, 1⟩ :=
  ⟨_, updateMetadata_ends (d := ⟨⟨MAGIC_NUMBER, 0, 0, INVALID_PAGE_ID, 1⟩, Mem.zero, 0, none⟩) rfl,
    rfl, rfl⟩

theorem Start.good (h : Start s) : Good t s Tree.one := by
  obtain ⟨d, hd, hs⟩ := h
  obtain ⟨d', hd', hio, hmeta⟩ := create_ends
  obtain ⟨-, rfl⟩ := Ends.unique hd hd'
  obtain ⟨s', hs', hh⟩ := newTree_ends (holds_none (t := t) hio (by rw [hmeta]) (by rw [hmeta]))
  obtain ⟨-, rfl⟩ := Ends.unique hs' hs
  exact ⟨hh, ⟨_, one_shape⟩, one_dense⟩

theorem start_exists : ∃ s, Start s := by
  obtain ⟨d, hd, hio, hmeta⟩ := create_ends
  obtain ⟨s, hs, -⟩ := newTree_ends
    (holds_none (t := { : TreeConfig }) hio (by rw [hmeta]) (by rw [hmeta]))
  exact ⟨s, d, hd, hs⟩

/-! ## One call -/

theorem key_decodes (ht : t.Numeric) {k : Bytes} (hk : t.keyWidth ≤ k.length) :
    (t.key k).Decodes (keyOf t.keyWidth k) := by
  apply Key.decodes_iff.mpr
  unfold Key.toValue TreeConfig.key Key.fromBytes
  simp only [ht.type]
  rw [numericDeserialize_ok ht.width hk]
  rfl

/-- The leaf of the key has no room and slots on one side of its middle hold nothing. -/
def Lopsided (w : Nat) (T : Tree) (r : Bytes) : Prop :=
  ∃ p stack es left right, T.find w (keyOf w r) = some (p, stack) ∧
    T.store p = some (.leaf es left right) ∧ ¬ leafRoom es r.length = true ∧ ¬ Halves es

/-- An insert reports success. -/
theorem insert_ends (ht : t.Numeric) (h : Good t s T) {r : Bytes} (hr : RecordFits t.keyWidth r)
    (hsplit : ¬ Lopsided t.keyWidth T r)
    (hn : nextId (after (Index.insert t (View.ofBytes r) r.length) s) ≤ MAX_PAGES) :
    ∃ s', Ends (Index.insert t (View.ofBytes r) r.length) s true s' ∧
      Holds t True s' (T.insert t.keyWidth r) := by
  obtain ⟨hh, ⟨rank, hs⟩, -⟩ := h
  obtain ⟨hw, hlen⟩ := hr
  have hroom : PAGE_ROOM = 4056 := rfl
  have hrun := insert_runs ht hh hs (View.sees_ofBytes r) hw (by omega)
    fun p stack es left right hf hp hnr => by
      by_contra hhalves
      exact hsplit ⟨p, stack, es, left, right, hf, hp, hnr, hhalves⟩
  obtain ⟨b, s', e, rfl, h'⟩ := hrun.ends hn
  exact ⟨s', e, h'⟩

/-- A call is the call of the same name on the tree. -/
theorem step_good (ht : t.Numeric) (h : Good t s T) {c : Call} (hc : c.Fits t.keyWidth)
    (hsplit : ∀ r, c = .insert r → ¬ Lopsided t.keyWidth T r)
    (hn : nextId (after (c.run t) s) ≤ MAX_PAGES) :
    Good t (after (c.run t) s) (T.call t.keyWidth c) := by
  obtain ⟨rank, hs⟩ := h.shape
  have hi := h.holds.ids
  cases c with
  | insert r =>
    obtain ⟨s', e, h'⟩ := insert_ends ht h hc (hsplit r rfl) hn
    obtain ⟨rank', hs', -⟩ := insert_shape ht.width_le.2 hs hi hc.1
    rw [show after (Call.run t (.insert r)) s = s' from after_of_ends e]
    exact ⟨h', ⟨rank', hs'⟩, insert_dense hs hi h.dense r⟩
  | remove k =>
    exact ⟨remove_after ht h.holds hs (key_decodes ht hc), ⟨rank, remove_shape hs _⟩,
      remove_dense h.dense _⟩

/-- A call at most doubles the ids. -/
theorem call_nextId (ht : t.Numeric) (h : Good t s T) {c : Call} (hc : c.Fits t.keyWidth) :
    nextId (after (c.run t) s) ≤ 2 * nextId s + 2 := by
  obtain ⟨hh, ⟨rank, hs⟩, -⟩ := h
  cases c with
  | insert r => exact insert_nextId ht hh hs (View.sees_ofBytes r) hc.1
  | remove k =>
    have h1 := (remove_after ht hh hs (key_decodes ht hc)).next
    have h2 := hh.next
    change nextId (after (Index.remove t (t.key k)) s) ≤ _
    rw [h1, h2, remove_next]
    omega

/-! ## Records of one size -/

/-- Every slot of every leaf, deleted or not, has the size. -/
def Sized (size : Nat) (T : Tree) : Prop :=
  ∀ p es l r, T.store p = some (.leaf es l r) → ∀ e ∈ es, e.size = size

theorem cost_sized (h : ∀ e ∈ es, e.size = size) : cost es = es.length * (size + 4) := by
  induction es with
  | nil => simp
  | cons e es ih =>
    have h1 := h e List.mem_cons_self
    have h2 := ih fun e' he => h e' (List.mem_cons_of_mem e he)
    rw [cost_cons, h1, h2, List.length_cons, Nat.succ_mul]
    omega

/-- A full leaf has only live slots, and at least two. -/
theorem halves_of_sized (h : ∀ e ∈ es, e.size = size) (h2 : 2 * (size + 4) ≤ PAGE_ROOM)
    (hcost : cost es ≤ PAGE_ROOM) (hfull : ¬ leafRoom es size = true) : Halves es := by
  have hlive : cost (liveEntries es) = (liveEntries es).length * (size + 4) :=
    cost_sized fun e he => h e (List.mem_of_mem_filter he)
  rw [cost_sized h] at hcost
  simp only [leafRoom, decide_eq_true_eq, hlive] at hfull
  have hfull' : PAGE_ROOM < ((liveEntries es).length + 1) * (size + 4) := by
    rw [Nat.succ_mul]; omega
  have hlen : es.length < (liveEntries es).length + 1 :=
    Nat.lt_of_mul_lt_mul_right (Nat.lt_of_le_of_lt hcost hfull')
  have htwo : 2 < (liveEntries es).length + 1 :=
    Nat.lt_of_mul_lt_mul_right (Nat.lt_of_le_of_lt h2 hfull')
  have hall : liveEntries es = es :=
    List.filter_sublist.eq_of_length_le (Nat.le_of_lt_succ hlen)
  rw [hall] at htwo
  have hislive : ∀ e ∈ es, ∃ b, e = .live b := by
    intro e he
    rw [← hall] at he
    have := (List.mem_filter.mp he).2
    cases e with
    | live b => exact ⟨b, rfl⟩
    | dead n => simp at this
  have hpick : ∀ l : List Entry, l ⊆ es → l ≠ [] → ∃ b, Entry.live b ∈ l := by
    intro l hsub hne
    cases l with
    | nil => exact absurd rfl hne
    | cons e l =>
      obtain ⟨b, rfl⟩ := hislive e (hsub List.mem_cons_self)
      exact ⟨b, List.mem_cons_self⟩
  refine ⟨hpick _ (List.take_subset _ _) ?_, hpick _ (List.drop_subset _ _) ?_⟩
  · intro hnil
    have := congrArg List.length hnil
    rw [List.length_take, List.length_nil] at this
    omega
  · intro hnil
    have := congrArg List.length hnil
    rw [List.length_drop, List.length_nil] at this
    omega

theorem call_sized {rank : Nat → Nat} (hs : Shape w rank T) (hi : T.Ids) (h : Sized size T) {c : Call}
    (hc : ∀ r, c = .insert r → r.length = size) : Sized size (T.call w c) := by
  intro q es' l r hq e he
  cases c with
  | insert b =>
    obtain ⟨p, es, l₀, r₀, hp, hes⟩ := insert_leaf hs hi hq
    cases hes with
    | inl hsub => exact h p es l₀ r₀ hp e (hsub.subset he)
    | inr heq =>
      rw [heq.2] at he
      cases mem_leafInsert lowerSlot_le he with
      | inl hr => rw [hr]; exact hc b rfl
      | inr hm => exact h p es l₀ r₀ hp e hm
  | remove k =>
    obtain ⟨p, es, l₀, r₀, hp, hes⟩ := remove_leaf hq
    have hsize := h p es l₀ r₀ hp
    rcases hes with rfl | ⟨i, b, hb, rfl⟩
    · exact hsize e he
    · cases List.mem_or_eq_of_mem_set he with
      | inl hm => exact hsize e hm
      | inr heq => rw [heq]; exact hsize (.live b) (List.mem_of_getElem? hb)

/-! ## The leaf list -/

/-- The pages are leaf pages, each linked to the one behind and the one in front. -/
def LeafList (s : TreeState) : Nat → List Nat → Prop
  | _, [] => True
  | prev, p :: ls => getPageType (s.page p) = .leafPage ∧ getLeftSibling (s.page p) = prev ∧
      getRightSibling (s.page p) = nextOf ls ∧ LeafList s p ls

theorem Linked.leafList (h : Holds t True s T) : ∀ {prev : Nat} {ls : List Nat},
    Linked T prev ls → LeafList s prev ls
  | _, [], _ => trivial
  | _, _ :: _, ⟨⟨_, hp⟩, hl⟩ => by
    obtain ⟨-, -, htype, -, hleft, hright⟩ := h.nodeAt hp
    exact ⟨htype, hleft, hright, hl.leafList h⟩

/-- The leaves of the tree are the leaf pages of the file. -/
theorem Good.isLeaf_iff (h : Good t s T) {p : Nat} (h1 : 1 ≤ p) (hp : p < nextId s) :
    T.IsLeaf p ↔ getPageType (s.page p) = .leafPage := by
  constructor
  · rintro ⟨es, l, r, he⟩
    exact (h.holds.nodeAt he).2.2.1
  · intro htype
    have hne := h.dense.all p h1 (by rw [← h.holds.next]; exact hp)
    obtain ⟨n, hn⟩ := Option.ne_none_iff_exists'.mp hne
    cases n with
    | leaf es l r => exact ⟨es, l, r, hn⟩
    | inner ps =>
      have := (h.holds.nodeAt hn).2.1
      rw [htype] at this
      cases this

theorem Good.invalid (h : Good t s T) : T.store INVALID_PAGE_ID = none := by
  by_contra hne
  have h1 := (h.holds.inUse hne).2.1
  have h2 := h.holds.next_le
  simp only [INVALID_PAGE_ID, MAX_PAGES] at h1 h2
  omega

/-- The tree after the calls. -/
def treeOf (w : Nat) (calls : List Call) : Tree := calls.foldl (Tree.call w) Tree.one

theorem treeOf_snoc {calls : List Call} {c : Call} :
    treeOf w (calls ++ [c]) = (treeOf w calls).call w c := by
  rw [treeOf, List.foldl_append]; rfl

/-- Every record has the size. -/
def OfSize (size : Nat) (_ : TreeState) (c : Call) : Prop := ∀ r, c = .insert r → r.length = size

/-- Runs with records of one size. -/
theorem exec_sized (ht : t.Numeric) (h2 : 2 * (size + 4) ≤ PAGE_ROOM)
    {ok : TreeState → Call → Prop} (hok : ∀ s c, ok s c → OfSize size s c)
    {calls : List Call} (h : (treeRuns t ok).Exec calls s) :
    Good t s (treeOf t.keyWidth calls) ∧ Sized size (treeOf t.keyWidth calls) ∧
      ∃ ls, Chain (treeOf t.keyWidth calls) (1 :: ls) := by
  induction h with
  | nil h0 =>
    refine ⟨h0.good, fun p es l r hp => ?_, [], one_chain⟩
    cases (one_store hp).2
    simp
  | @snoc calls s s' c h hstep ih =>
    obtain ⟨hg, hsz, ls, hc⟩ := ih
    obtain ⟨hfits, hokc, rfl, hn⟩ := hstep
    obtain ⟨rank, hs⟩ := hg.shape
    have hsize := hok s c hokc
    rw [treeOf_snoc]
    refine ⟨step_good ht hg hfits (fun r hr => ?_) hn, call_sized hs hg.holds.ids hsz hsize, ?_⟩
    · rintro ⟨p, stack, es, left, right, -, hp, hfull, hhalves⟩
      obtain ⟨hv, -, -, he, -⟩ := hg.holds.nodeAt hp
      rw [hsize r hr] at hfull
      exact hhalves (halves_of_sized (hsz p es left right hp) h2 (he ▸ cost_room hv) hfull)
    · cases c with
      | insert r => exact insert_chain hs hg.holds.ids hg.invalid hc r
      | remove k => exact ⟨ls, remove_chain hc _⟩

/-- There are runs: any few calls. -/
theorem exists_exec (ht : t.Numeric) (h2 : 2 * (size + 4) ≤ PAGE_ROOM) : ∀ (calls : List Call),
    (∀ c ∈ calls, c.Fits t.keyWidth ∧ ∀ r, c = .insert r → r.length = size) →
    calls.length ≤ 16 → ∃ s, (treeRuns t (OfSize size)).Exec calls s ∧
      nextId s + 2 ≤ 2 ^ (calls.length + 2) := by
  intro calls
  induction calls using List.reverseRecOn with
  | nil =>
    intro _ _
    obtain ⟨s, hs⟩ := start_exists
    refine ⟨s, .nil hs, ?_⟩
    rw [(hs.good (t := t)).holds.next]
    decide
  | append_singleton calls c ih =>
    intro hall hlen
    rw [List.length_append, List.length_singleton] at hlen ⊢
    obtain ⟨s, hs, hn⟩ := ih (fun c' hc' => hall c' (List.mem_append_left _ hc')) (by omega)
    obtain ⟨hfits, hsize⟩ := hall c (by simp)
    have hg := (exec_sized ht h2 (fun _ _ h => h) hs).1
    have hnext := call_nextId ht hg hfits
    have hpow : 2 ^ (calls.length + 1 + 2) ≤ 2 ^ 20 := Nat.pow_le_pow_right (by omega) (by omega)
    rw [show calls.length + 1 + 2 = calls.length + 2 + 1 by omega, Nat.pow_succ] at hpow ⊢
    refine ⟨_, hs.snoc ⟨hfits, hsize, rfl, ?_⟩, by omega⟩
    simp only [MAX_PAGES]
    omega

/-- The leaves form one doubly linked list from the first leaf page on. -/
theorem leaf_chain (ht : t.Numeric) (h2 : 2 * (size + 4) ≤ PAGE_ROOM) {calls : List Call}
    (h : (treeRuns t (OfSize size)).Exec calls s) :
    ∃ ls, LeafList s INVALID_PAGE_ID (1 :: ls) ∧ (1 :: ls).Nodup ∧
      ∀ p, p ∈ 1 :: ls ↔ 1 ≤ p ∧ p < nextId s ∧ getPageType (s.page p) = .leafPage := by
  obtain ⟨hg, -, ls, hc⟩ := exec_sized ht h2 (fun _ _ h => h) h
  refine ⟨ls, hc.linked.leafList hg.holds, hc.nodup, fun p => ?_⟩
  rw [← hc.cover]
  constructor
  · intro hp
    obtain ⟨es, l, r, he⟩ := hp
    have hu := hg.holds.ids.used p (by simp [he])
    have hlt : p < nextId s := by rw [hg.holds.next]; exact hu.2.1
    exact ⟨hu.1, hlt, (hg.isLeaf_iff hu.1 hlt).mp ⟨es, l, r, he⟩⟩
  · rintro ⟨h1, hlt, htype⟩
    exact (hg.isLeaf_iff h1 hlt).mpr htype

end

/-- A record of 2000 bytes with the key `k` in its first byte. -/
def bigRecord (k : UInt8) : Bytes := k :: List.replicate 1999 0

theorem length_bigRecord (k : UInt8) : (bigRecord k).length = 2000 := by
  rw [bigRecord, List.length_cons, List.length_replicate]

attribute [irreducible] bigRecord

theorem fits_bigRecord {w : Nat} (hw : w ≤ 8) (k : UInt8) : RecordFits w (bigRecord k) := by
  rw [RecordFits, length_bigRecord]
  exact ⟨by omega, by decide⟩

theorem numeric_default : TreeConfig.Numeric {} := ⟨rfl, rfl, by simp⟩

/-- Inserts of such records. -/
def bigInserts (ks : List UInt8) : List Call := ks.map fun k => .insert (bigRecord k)

theorem exec_inserts (ks : List UInt8) (hlen : ks.length ≤ 16) :
    ∃ s, (treeRuns {} (OfSize 2000)).Exec (bigInserts ks) s := by
  obtain ⟨s, hs, -⟩ := exists_exec numeric_default (show 2 * (2000 + 4) ≤ PAGE_ROOM by decide)
    (bigInserts ks) (fun c hc => by
      obtain ⟨k, -, rfl⟩ := List.mem_map.mp hc
      refine ⟨fits_bigRecord (by decide) k, fun r hr => ?_⟩
      cases hr
      exact length_bigRecord k) (by rw [bigInserts, List.length_map]; exact hlen)
  exact ⟨s, hs⟩

/-- The third record splits the first leaf: page 2 follows it, and page 3 is the new root. -/
theorem leaf_chain_three : ∃ s, (treeRuns {} (OfSize 2000)).Exec
    [.insert (bigRecord 20), .insert (bigRecord 30), .insert (bigRecord 25)] s ∧ nextId s = 4 ∧
    ∃ ls, 2 ∈ ls ∧ LeafList s INVALID_PAGE_ID (1 :: ls) ∧ (1 :: ls).Nodup ∧
      ∀ p, p ∈ 1 :: ls ↔ 1 ≤ p ∧ p < nextId s ∧ getPageType (s.page p) = .leafPage := by
  obtain ⟨s, hs⟩ := exec_inserts [20, 30, 25] (by decide)
  obtain ⟨ls, hlist, hnodup, hcover⟩ := leaf_chain numeric_default (by decide) hs
  obtain ⟨hg, -⟩ := exec_sized numeric_default (by decide) (fun _ _ h => h) hs
  have hnext : nextId s = 4 := hg.holds.next.trans (by decide +kernel)
  have hleaf : (treeOf 8 (bigInserts [20, 30, 25])).store 2 =
      some (.leaf [.live (bigRecord 30)] 1 INVALID_PAGE_ID) := by decide +kernel
  have h2 : 2 < nextId s := by
    rw [hnext]
    decide
  have hmem : 2 ∈ 1 :: ls :=
    (hcover 2).mpr ⟨by decide, h2, (hg.isLeaf_iff (by decide) h2).mp ⟨_, _, _, hleaf⟩⟩
  exact ⟨s, hs, hnext, ls, (List.mem_cons.mp hmem).resolve_left (by decide), hlist, hnodup, hcover⟩

end DbInternals.Index
