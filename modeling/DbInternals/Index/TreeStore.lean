import DbInternals.Index.PageNodes
import DbInternals.Storage.FreeList

/-!
# The tree on disk

`Holds t τ s T`: the pages of the state `s` hold the nodes of `T`, no system
call fails, and ids are below `2 ^ 20` pages, where page offsets are distinct.

Results:
* `Holds.read`, `Holds.write`, `Holds.alloc`: one step on disk and in the tree;
* `Tracks`: a call that ends well, or needs more page ids than there are and runs past
  the last one; `Runs` without the count. `Tracks.alloc`, `Tracks.bind` compose such
  calls, `Grows` bounds the ids they take.
-/
namespace DbInternals.Index

open Storage SlottedPage Mem

/-- The next new page id. -/
def nextId (s : TreeState) : Nat := s.diskManager.globalMetadata.nextPageId

def TreeState.page (s : TreeState) (p : Nat) : Mem := pageAt s.diskManager p

/-- A file of pages, with no free ones. -/
def fileOf (pages : Nat → Mem) (next root : Nat) : TreeState where
  diskManager := { globalMetadata := ⟨MAGIC_NUMBER, 0, root, INVALID_PAGE_ID, next⟩,
                   bytes := fun i => pages (i / PAGE_SIZE) (i % PAGE_SIZE),
                   size := next * PAGE_SIZE, io := none }
  rootPageId := root

theorem fileOf_page {pages : Nat → Mem} {next root p : Nat} (hp : p < MAX_PAGES) :
    (fileOf pages next root).page p = pageOf (pages p) := by
  have hoff : pageOffset p = p * PAGE_SIZE := by
    simp only [pageOffset, PAGE_SIZE, MAX_PAGES] at hp ⊢
    omega
  funext a
  by_cases ha : a < PAGE_SIZE
  · have hdiv : (p * PAGE_SIZE + a) / PAGE_SIZE = p ∧ (p * PAGE_SIZE + a) % PAGE_SIZE = a := by
      simp only [PAGE_SIZE] at ha ⊢
      omega
    rw [TreeState.page, pageAt, pageOf_apply ha, pageOf_apply ha, hoff]
    change pages ((p * PAGE_SIZE + a) / PAGE_SIZE) ((p * PAGE_SIZE + a) % PAGE_SIZE) = pages p a
    rw [hdiv.1, hdiv.2]
  · rw [TreeState.page, short_pageAt _ _ a (Nat.not_lt.mp ha), short_pageOf _ a (Nat.not_lt.mp ha)]

section
variable {t : TreeConfig} {τ : Prop} {w : Nat} {data : Mem} {n : Node} {s s' s'' : TreeState}
  {T T' : Tree} {p : Nat}

/-! ## Pages -/

theorem pageOf_congr (h : Valid data) : entries (pageOf data) = entries data ∧
    Valid (pageOf data) ∧ (Tight data → Tight (pageOf data)) :=
  entries_congr h fun _ ha _ => pageOf_apply ha

theorem pageOf_readLE {o k : Nat} (h : o + k ≤ PAGE_SIZE) :
    (pageOf data).readLE o k = data.readLE o k := readLE_congr fun _ _ _ => pageOf_apply (by omega)

theorem NodeAt.pageOf (h : NodeAt τ w data n) : NodeAt τ w (pageOf data) n := by
  have htype : getPageType (Storage.pageOf data) = getPageType data := by
    rw [getPageType, getPageType, pageOf_readLE (by simp only [PAGE_SIZE]; omega)]
  cases n with
  | leaf es left right =>
    obtain ⟨hv, ht, hp, he, hl, hr⟩ := h
    obtain ⟨h1, h2, h3⟩ := pageOf_congr hv
    refine ⟨h2, fun hτ => h3 (ht hτ), htype.trans hp, h1.trans he, ?_, ?_⟩
    · rw [← hl]; exact pageOf_readLE (by simp only [PAGE_SIZE]; omega)
    · rw [← hr]; exact pageOf_readLE (by simp only [PAGE_SIZE]; omega)
  | inner ps =>
    obtain ⟨hv, hp, he, hk⟩ := h
    obtain ⟨h1, h2, -⟩ := pageOf_congr hv
    exact ⟨h2, htype.trans hp, h1.trans he, hk⟩

/-! ## The relation -/

structure Holds (t : TreeConfig) (τ : Prop) (s : TreeState) (T : Tree) : Prop where
  io : s.diskManager.io = none
  root : s.rootPageId = T.root
  next : nextId s = T.next
  next_le : T.next ≤ MAX_PAGES
  freeList : FreeList s.diskManager s.diskManager.globalMetadata.freelistHead T.free
  ids : T.Ids
  node : ∀ q n, T.store q = some n → Mapped s.diskManager q ∧ NodeAt τ t.keyWidth (s.page q) n

/-- What a step leaves alone: the pages of `T` outside `W`; every pair it
inserted went in. -/
structure Wrote (T : Tree) (W : List Nat) (s s' : TreeState) : Prop where
  pages : ∀ q, T.store q ≠ none → q ∉ W → s'.page q = s.page q
  wired : ∃ new, s'.wired = new ++ s.wired ∧ ∀ r ∈ new, r.1.isSome ∧ r.2.isSome

theorem Wrote.mono {W W' : List Nat} (h : Wrote T W s s') (hW : ∀ q ∈ W, q ∈ W') :
    Wrote T W' s s' := ⟨fun q h1 h2 => h.pages q h1 fun hq => h2 (hW q hq), h.wired⟩

/-! ## Steps -/

theorem ends_disk {α : Type} {x : DiskM α} {a : α} {d' : DiskManager}
    (h : Ends x s.diskManager a d') : Ends (disk x) s a { s with diskManager := d' } := by
  change disk x s = _
  rw [disk, show x s.diskManager = .ok a d' from h]

theorem ends_buf {α : Type} {x : Except Fault α} {a : α} (h : x = .ok a) :
    Ends (buf x) s a s := by
  subst h; rfl

theorem Tree.InUse.apart (hn : T.next ≤ MAX_PAGES) {p q : Nat} (hp : T.InUse p) (hq : T.InUse q)
    (hne : p ≠ q) : pageOffset p ≠ pageOffset q := fun e =>
  hne (pageOffset_inj (Nat.lt_of_lt_of_le hp.2.1 hn) (Nat.lt_of_lt_of_le hq.2.1 hn) e)

theorem Tree.InUse.offset_ne_zero (hn : T.next ≤ MAX_PAGES) {p : Nat} (hp : T.InUse p) :
    pageOffset p ≠ 0 := fun e => by
  have h0 := pageOffset_inj (Nat.lt_of_lt_of_le hp.2.1 hn) (by decide) (e.trans pageOffset_zero.symm)
  have := hp.1
  omega

theorem Tree.Ids.distinct (h : T.Ids) (hn : T.next ≤ MAX_PAGES) : Distinct T.free :=
  ⟨h.nodup, fun p hp => ⟨(h.range p hp).1, Nat.lt_of_lt_of_le (h.range p hp).2 hn⟩⟩

theorem Holds.inUse (h : Holds t τ s T) (hp : T.store p ≠ none) : T.InUse p := h.ids.used p hp

theorem Holds.read (h : Holds t τ s T) (hp : T.store p = some n) :
    Ends (disk (readPage p)) s (s.page p) s :=
  ends_disk (readPage_ends h.io (h.node p n hp).1)

theorem Holds.nodeAt (h : Holds t τ s T) (hp : T.store p = some n) :
    NodeAt τ t.keyWidth (s.page p) n := (h.node p n hp).2

/-- Any page may be overwritten. -/
theorem Holds.overwrite (h : Holds t τ s T) (hp : T.InUse p) (data : Mem) :
    ∃ s', Ends (disk (writePage p data)) s ⟨⟩ s' ∧ s'.page p = pageOf data ∧
      ∀ q, T.InUse q → q ≠ p → s'.page q = s.page q := by
  have hlt : p < s.diskManager.globalMetadata.nextPageId := by
    have := h.next; rw [nextId] at this; rw [this]; exact hp.2.1
  exact ⟨_, ends_disk (writePage_ends h.io hlt), pageAt_store rfl,
    fun q hq hne => pageAt_store_of_ne (hq.apart h.next_le hp hne)⟩

theorem Holds.write (h : Holds t τ s T) (hp : T.InUse p) (hn : NodeAt τ t.keyWidth data n) :
    ∃ s', Ends (disk (writePage p data)) s ⟨⟩ s' ∧ Holds t τ s' (T.setNode p n) ∧
      Wrote T [p] s s' ∧ s'.page p = pageOf data := by
  have hlt : p < s.diskManager.globalMetadata.nextPageId := by
    have := h.next; rw [nextId] at this; rw [this]; exact hp.2.1
  have hself : pageAt (s.diskManager.store data (pageOffset p)) p = pageOf data := pageAt_store rfl
  have hother : ∀ q, T.InUse q → q ≠ p →
      pageAt (s.diskManager.store data (pageOffset p)) q = pageAt s.diskManager q := fun q hq hne =>
    pageAt_store_of_ne (hq.apart h.next_le hp hne)
  refine ⟨_, ends_disk (writePage_ends h.io hlt), ⟨h.io, h.root, h.next, h.next_le, ?_,
    h.ids.setNode hp n, fun q m hq => ?_⟩, ⟨fun q hq hqp => ?_, [], rfl, by simp⟩, hself⟩
  · refine h.freeList.congr (fun q hq => pageAt_store_of_ne fun e => ?_) fun q _ hm => hm.store
    have := pageOffset_inj ((h.ids.distinct h.next_le).2 q hq).2
      (Nat.lt_of_lt_of_le hp.2.1 h.next_le) e
    exact hp.2.2 (this ▸ hq)
  · by_cases hqp : q = p
    · subst hqp
      rw [Tree.setNode_self] at hq
      obtain rfl := Option.some.inj hq
      refine ⟨mapped_store hlt, ?_⟩
      rw [TreeState.page, hself]
      exact hn.pageOf
    · rw [Tree.setNode_of_ne T n hqp] at hq
      obtain ⟨h2, h3⟩ := h.node q m hq
      refine ⟨h2.store, ?_⟩
      rw [TreeState.page, hother q (h.inUse (by rw [hq]; simp)) hqp]
      exact h3
  · exact hother q (h.inUse hq) (by simpa using hqp)

/-! ## Taking a page -/

/-- Where ids are left the next one is taken, off the free list first. -/
theorem Holds.alloc (h : Holds t τ s T) (hn : T.alloc.2.next ≤ MAX_PAGES) :
    ∃ s', Ends (disk allocatePage) s T.alloc.1 s' ∧ Holds t τ s' T.alloc.2 ∧ Wrote T [] s s' := by
  have hnext : s.diskManager.globalMetadata.nextPageId = T.next := h.next
  have hmax := h.next_le
  have hdist := h.ids.distinct hmax
  -- the pages of the tree are neither page 0 nor on the free list
  have hpages : ∀ {d' : DiskManager}, Taken s.diskManager d' T.free → ∀ q n, T.store q = some n →
      pageAt d' q = pageAt s.diskManager q ∧ Mapped d' q := by
    intro d' ht q n hq
    have hu := h.inUse (show T.store q ≠ none by rw [hq]; simp)
    have hm := (h.node q n hq).1
    refine ⟨ht.pages q (hu.offset_ne_zero hmax) fun r hr e => hu.2.2 ?_, ht.mapped q hm.1 hm⟩
    have := pageOffset_inj (Nat.lt_of_lt_of_le hu.2.1 hmax) (hdist.2 r hr).2 e
    exact this ▸ hr
  have hids := h.ids.alloc.1
  obtain ⟨d', e, ht, hnx, hfl⟩ : ∃ d', Ends allocatePage s.diskManager T.alloc.1 d' ∧
      Taken s.diskManager d' T.free ∧ d'.globalMetadata.nextPageId = T.alloc.2.next ∧
      FreeList d' d'.globalMetadata.freelistHead T.alloc.2.free := by
    unfold Tree.alloc at hn ⊢
    cases hf : T.free with
    | nil =>
      simp only [hf] at hn ⊢
      obtain ⟨d', e, ht, hnx, hfl⟩ := allocatePage_new h.io (hf ▸ h.freeList) (by simp only [MAX_PAGES] at hn; omega)
      exact ⟨d', hnext ▸ e, ht, hnext ▸ hnx, hfl⟩
    | cons f fs =>
      simp only [hf] at hn ⊢
      obtain ⟨d', e, ht, hnx, hfl⟩ := allocatePage_pop h.io (hf ▸ h.freeList) (hf ▸ hdist)
      exact ⟨d', e, ht, hnx.trans hnext, hfl⟩
  refine ⟨_, ends_disk e, ⟨ht.io.trans h.io, ?_, hnx, hn, hfl, hids, fun q m hq => ?_⟩,
    ⟨fun q hq _ => ?_, [], rfl, by simp⟩⟩
  · rw [Tree.alloc_root]; exact h.root
  · rw [Tree.alloc_store] at hq
    obtain ⟨hp, hm⟩ := hpages ht q m hq
    refine ⟨hm, ?_⟩
    rw [TreeState.page, hp]; exact (h.node q m hq).2
  · obtain ⟨m, hm⟩ := Option.ne_none_iff_exists'.mp hq
    exact (hpages ht q m hm).1

end

/-! ## Calls that may run out of ids -/

section
variable {α β : Type} {x : TreeM α} {f : α → TreeM β} {s s' : TreeState} {k k' : Nat}

/-- The call takes at most `k` new ids, however it ends. -/
def Grows (k : Nat) (x : TreeM α) : Prop :=
  ∀ n m, m + k < 2 ^ 32 → Triple (fun s => n ≤ nextId s ∧ nextId s ≤ m) x
    (fun _ s => n ≤ nextId s ∧ nextId s ≤ m + k) fun s => n ≤ nextId s ∧ nextId s ≤ m + k

namespace Grows

theorem mono (h : Grows k x) (hk : k ≤ k') : Grows k' x := fun n m hm =>
  (h n m (by omega)).conseq (fun _ hs => hs) (fun _ _ hs => ⟨hs.1, by omega⟩)
    fun _ hs => ⟨hs.1, by omega⟩

theorem bind (h : Grows k x) (h' : ∀ a, Grows k' (f a)) : Grows (k + k') (x >>= f) := by
  intro n m hm
  refine Triple.bind (Q := fun _ s => n ≤ nextId s ∧ nextId s ≤ m + k) ?_ fun a => ?_
  · exact (h n m (by omega)).conseq (fun _ hs => hs) (fun _ _ hs => hs) fun _ hs => ⟨hs.1, by omega⟩
  · rw [← Nat.add_assoc]
    exact h' a n (m + k) (by omega)

theorem bind_zero (h : Grows 0 x) (h' : ∀ a, Grows k (f a)) : Grows k (x >>= f) :=
  (h.bind h').mono (by omega)

theorem bind_last (h : Grows k x) (h' : ∀ a, Grows 0 (f a)) : Grows k (x >>= f) := h.bind h'

theorem pure (a : α) : Grows 0 (Pure.pure a : TreeM α) := fun _ _ _ _ h => h

theorem throw (e : Fault) : Grows 0 (MonadExcept.throw e : TreeM α) := fun _ _ _ _ h => h

theorem get : Grows 0 (MonadState.get : TreeM TreeState) := fun _ _ _ _ h => h

theorem modify {g : TreeState → TreeState} (h : ∀ s, nextId (g s) = nextId s) :
    Grows 0 (modify g : TreeM PUnit) := by
  intro n m _ s hs
  change n ≤ nextId (g s) ∧ nextId (g s) ≤ m + 0
  rw [h]; exact hs

theorem ite {c : Prop} [Decidable c] {y : TreeM α} (h : Grows k x) (h' : Grows k y) :
    Grows k (if c then x else y) := by split <;> assumption

theorem buf (r : Except Fault α) : Grows 0 (buf r) := by
  intro n m _ s hs
  cases r <;> exact hs

/-- A disk call that leaves the metadata alone. -/
theorem disk {y : DiskM α} (h : ∀ P : GlobalMetadata → Prop, Keeps (fun d => P d.globalMetadata) y) :
    Grows 0 (disk y) := by
  intro n m _ s hs
  have h1 := h (fun g => n ≤ g.nextPageId ∧ g.nextPageId ≤ m) s.diskManager hs
  rw [Index.disk]
  cases hy : y s.diskManager with
  | ok a d => rw [hy] at h1; exact h1
  | error e d => rw [hy] at h1; exact h1

theorem readPage (p : Nat) : Grows 0 (Index.disk (readPage p)) := disk fun P => readPage_keeps P p

theorem writePage (p : Nat) (data : Mem) : Grows 0 (Index.disk (writePage p data)) :=
  disk fun P => writePage_keeps P p data

theorem allocatePage : Grows 1 (Index.disk allocatePage) := by
  intro n m hm s hs
  have h1 := allocatePage_grows (n := n) hm s.diskManager hs
  rw [Index.disk]
  cases hy : Storage.allocatePage s.diskManager with
  | ok a d => rw [hy] at h1; exact h1
  | error e d => rw [hy] at h1; exact h1

theorem after (h : Grows k x) (hs : nextId s + k < 2 ^ 32) :
    nextId s ≤ nextId (after x s) ∧ nextId (DbInternals.after x s) ≤ nextId s + k := by
  have h1 := h (nextId s) (nextId s) hs s ⟨Nat.le_refl _, Nat.le_refl _⟩
  rw [DbInternals.after]
  cases hx : x s with
  | ok a s' => rw [hx] at h1; exact h1
  | error e s' => rw [hx] at h1; exact h1

end Grows

/-- The call ends in `Q`, unless the next id it would leave, `n`, is past the last page id,
which it then runs past. -/
def Tracks (n : Nat) (x : TreeM α) (s : TreeState) (Q : α → TreeState → Prop) : Prop :=
  (MAX_PAGES < n ∧ MAX_PAGES < nextId (after x s)) ∨ ∃ a s', Ends x s a s' ∧ Q a s'

namespace Tracks

variable {n n' : Nat} {Q Q' : α → TreeState → Prop} {R : β → TreeState → Prop}

theorem of_ends {a : α} (h : Ends x s a s') (hQ : Q a s') : Tracks n x s Q := .inr ⟨a, s', h, hQ⟩

theorem mono (h : Tracks n x s Q) (hQ : ∀ a s', Q a s' → Q' a s') : Tracks n x s Q' := by
  rcases h with h | ⟨a, s', h, hq⟩
  · exact .inl h
  · exact .inr ⟨a, s', h, hQ a s' hq⟩

theorem le (h : Tracks n x s Q) (hn : n ≤ n') : Tracks n' x s Q := by
  rcases h with h | h
  · exact .inl ⟨Nat.lt_of_lt_of_le h.1 hn, h.2⟩
  · exact .inr h

/-- Where the ids do last. -/
theorem ends (h : Tracks n x s Q) (hn : n ≤ MAX_PAGES) : ∃ a s', Ends x s a s' ∧ Q a s' :=
  h.resolve_left fun hc => Nat.not_lt.mpr hn hc.1

theorem step {a : α} (h : Ends x s a s') (h' : Tracks n (f a) s' R) : Tracks n (x >>= f) s R := by
  rcases h' with h' | ⟨b, s'', h', hR⟩
  · exact .inl ⟨h'.1, by rw [after_bind h]; exact h'.2⟩
  · exact .inr ⟨b, s'', h.bind h', hR⟩

/-- What ran past the last id stays past it. -/
theorem bind (h : Tracks n x s Q) (hx : Grows k x) (hf : ∀ a, Grows k' (f a))
    (hs : nextId s + k + k' < 2 ^ 32) (h' : ∀ a s', Q a s' → Tracks n (f a) s' R) :
    Tracks n (x >>= f) s R := by
  rcases h with ⟨hn, h⟩ | ⟨a, s', h, hQ⟩
  · have h1 := hx.after (s := s) (by omega)
    refine .inl ⟨hn, ?_⟩
    cases hr : x s with
    | ok a s' =>
      rw [after_of_ends (show Ends x s a s' from hr)] at h h1
      have h2 := (hf a).after (s := s') (by omega)
      rw [after_bind (show Ends x s a s' from hr)]
      omega
    | error e s' => rwa [after_bind_error hr]
  · exact step h (h' a s' hQ)

/-- Returning a value afterwards. -/
theorem ret (h : Tracks n x s Q) (b : β) :
    Tracks n (x >>= fun _ => pure b) s fun b' s' => b' = b ∧ ∃ a, Q a s' := by
  rcases h with ⟨hn, h⟩ | ⟨a, s', h, hQ⟩
  · refine .inl ⟨hn, ?_⟩
    cases hx : x s with
    | ok a s' =>
      rw [after_of_ends (show Ends x s a s' from hx)] at h
      rwa [after_bind (show Ends x s a s' from hx)]
    | error e s' => rwa [after_bind_error hx]
  · exact .inr ⟨b, s', h.bind (.pure b s'), rfl, a, hQ⟩

/-- Taking a page, where one more id may be one too many. -/
theorem alloc {t : TreeConfig} {τ : Prop} {T : Tree} {f : Nat → TreeM β} (h : Holds t τ s T)
    (hn : T.alloc.2.next ≤ n) (hf : ∀ a, Grows k (f a)) (hk : k < 2 ^ 31)
    (h' : ∀ s', Holds t τ s' T.alloc.2 → Wrote T [] s s' → Tracks n (f T.alloc.1) s' R) :
    Tracks n (Index.disk allocatePage >>= f) s R := by
  by_cases hmax : T.alloc.2.next ≤ MAX_PAGES
  · obtain ⟨s', e, hh, hw⟩ := h.alloc hmax
    exact step e (h' s' hh hw)
  · have hle := h.next_le
    have hfree : T.free = [] ∧ T.next = MAX_PAGES := by
      unfold Tree.alloc at hmax
      split at hmax
      · next hf => exact ⟨hf, by simp only at hmax; omega⟩
      · simp only at hmax; omega
    have hnext : s.diskManager.globalMetadata.nextPageId = T.next := h.next
    have hhead : s.diskManager.globalMetadata.freelistHead = INVALID_PAGE_ID :=
      (hfree.1 ▸ h.freeList).head_nil
    have e := ends_disk (allocatePage_ends h.io hhead)
    generalize hs' : TreeState.mk _ _ _ = s' at e
    have h2 : nextId s' = MAX_PAGES + 1 := by
      rw [← hs']
      change (s.diskManager.globalMetadata.nextPageId + 1) % 2 ^ 32 = _
      rw [hnext, hfree.2]; rfl
    have hpages : MAX_PAGES = 2 ^ 20 := rfl
    have h3 := (hf s.diskManager.globalMetadata.nextPageId).after (s := s') (by omega)
    refine .inl ⟨by omega, ?_⟩
    rw [after_bind e]
    omega

end Tracks

/-- The call ends in `Q`, or it runs past the last page id. -/
def Runs (x : TreeM α) (s : TreeState) (Q : α → TreeState → Prop) : Prop :=
  MAX_PAGES < nextId (after x s) ∨ ∃ a s', Ends x s a s' ∧ Q a s'

namespace Runs

variable {n : Nat} {Q Q' : α → TreeState → Prop} {R : β → TreeState → Prop}

theorem of_tracks (h : Tracks n x s Q) : Runs x s Q := h.imp And.right id

theorem tracks (h : Runs x s Q) (hn : MAX_PAGES < n) : Tracks n x s Q := h.imp (⟨hn, ·⟩) id

theorem of_ends {a : α} (h : Ends x s a s') (hQ : Q a s') : Runs x s Q := .inr ⟨a, s', h, hQ⟩

theorem mono (h : Runs x s Q) (hQ : ∀ a s', Q a s' → Q' a s') : Runs x s Q' :=
  of_tracks ((h.tracks (Nat.lt_succ_self _)).mono hQ)

/-- Where the ids do last. -/
theorem ends (h : Runs x s Q) (hn : nextId (after x s) ≤ MAX_PAGES) :
    ∃ a s', Ends x s a s' ∧ Q a s' := h.resolve_left (Nat.not_lt.mpr hn)

theorem step {a : α} (h : Ends x s a s') (h' : Runs (f a) s' R) : Runs (x >>= f) s R :=
  of_tracks (Tracks.step h (h'.tracks (Nat.lt_succ_self _)))

theorem bind (h : Runs x s Q) (hx : Grows k x) (hf : ∀ a, Grows k' (f a))
    (hs : nextId s + k + k' < 2 ^ 32) (h' : ∀ a s', Q a s' → Runs (f a) s' R) :
    Runs (x >>= f) s R :=
  of_tracks ((h.tracks (Nat.lt_succ_self _)).bind hx hf hs fun a s' hQ =>
    (h' a s' hQ).tracks (Nat.lt_succ_self _))

theorem ret (h : Runs x s Q) (b : β) :
    Runs (x >>= fun _ => pure b) s fun b' s' => b' = b ∧ ∃ a, Q a s' :=
  of_tracks ((h.tracks (Nat.lt_succ_self _)).ret b)

theorem alloc {t : TreeConfig} {τ : Prop} {T : Tree} {f : Nat → TreeM β} (h : Holds t τ s T)
    (hf : ∀ a, Grows k (f a)) (hk : k < 2 ^ 31)
    (h' : ∀ s', Holds t τ s' T.alloc.2 → Wrote T [] s s' → Runs (f T.alloc.1) s' R) :
    Runs (Index.disk allocatePage >>= f) s R := by
  have hn : T.alloc.2.next ≤ MAX_PAGES + 1 := by
    have := h.next_le
    unfold Tree.alloc
    split
    · simp only; omega
    · simp only; omega
  exact of_tracks (Tracks.alloc h hn hf hk fun s' hs hw =>
    (h' s' hs hw).tracks (Nat.lt_succ_self _))

end Runs

end

end DbInternals.Index
