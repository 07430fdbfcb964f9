import DbInternals.Index.TreeStore
import DbInternals.Storage.AllocatorCrash

/-!
# Splits above the leaves, cut short

The levels above a leaf write the pages on the stack and pages they took from
the allocator. Wherever the system calls end, other pages keep their content.

Results:
* `Guarded W ls c fs d`: the pages `ls` hold `c`, the pages `W` may be written,
  the ids `fs` are free, and no id is in two of these lists;
* `At.readPage`, `At.writePage`, `At.allocatePage`: what one call keeps, with
  any number of system calls left;
* `wireUp_cut`: the pages `ls` after the whole way up, cut anywhere.
-/
namespace DbInternals.Index

open Storage SlottedPage Allocator

/-- The pages are in the file with this content. -/
def Shows (ls : List Nat) (c : Nat → Mem) (d : DiskManager) : Prop :=
  ∀ p ∈ ls, Mapped d p ∧ pageAt d p = c p

structure Guarded (W ls : List Nat) (c : Nat → Mem) (fs : List Nat) (d : DiskManager) : Prop where
  pos : 1 ≤ d.globalMetadata.nextPageId
  next_le : d.globalMetadata.nextPageId ≤ MAX_PAGES
  freeList : FreeList d d.globalMetadata.freelistHead fs
  nodup : fs.Nodup
  range : ∀ p, p ∈ W ∨ p ∈ ls ∨ p ∈ fs → 1 ≤ p ∧ p < d.globalMetadata.nextPageId
  free : ∀ p ∈ fs, p ∉ W ∧ p ∉ ls
  apart : ∀ p ∈ W, p ∉ ls
  shows : Shows ls c d

section
variable {W W' ls fs : List Nat} {c : Nat → Mem} {d d' : DiskManager} {p q f : Nat}

theorem Guarded.io (h : Guarded W ls c fs d) (n : Option Nat) :
    Guarded W ls c fs { d with io := n } :=
  ⟨h.pos, h.next_le, h.freeList.congr (fun _ _ => rfl) fun _ _ h => h, h.nodup, h.range, h.free, h.apart,
    h.shows⟩

theorem Guarded.upto (h : Guarded W ls c fs d) {s : DiskManager} (hs : Upto d s) :
    Guarded W ls c fs s := by
  obtain ⟨n, rfl⟩ := hs
  exact h.io n

theorem Guarded.mono (h : Guarded W ls c fs d) (hW : ∀ p ∈ W', p ∈ W) : Guarded W' ls c fs d where
  pos := h.pos
  next_le := h.next_le
  freeList := h.freeList
  nodup := h.nodup
  range p hp := h.range p (hp.imp_left (hW p))
  free p hp := ⟨fun hw => (h.free p hp).1 (hW p hw), (h.free p hp).2⟩
  apart p hp := h.apart p (hW p hp)
  shows := h.shows

/-- Ids in use have pages of their own. -/
theorem Guarded.offset_ne (h : Guarded W ls c fs d) (hp : p ∈ W ∨ p ∈ ls ∨ p ∈ fs)
    (hq : q ∈ W ∨ q ∈ ls ∨ q ∈ fs) (hne : p ≠ q) : pageOffset p ≠ pageOffset q := fun e =>
  hne (pageOffset_inj (Nat.lt_of_lt_of_le (h.range p hp).2 h.next_le)
    (Nat.lt_of_lt_of_le (h.range q hq).2 h.next_le) e)

theorem Guarded.distinct (h : Guarded W ls c fs d) : Distinct fs :=
  ⟨h.nodup, fun p hp => ⟨(h.range p (.inr (.inr hp))).1,
    Nat.lt_of_lt_of_le (h.range p (.inr (.inr hp))).2 h.next_le⟩⟩

theorem Guarded.offset_ne_zero (h : Guarded W ls c fs d) (hp : p ∈ W ∨ p ∈ ls ∨ p ∈ fs) :
    pageOffset p ≠ 0 := fun e => by
  have hr := h.range p hp
  have := pageOffset_inj (Nat.lt_of_lt_of_le hr.2 h.next_le) (by decide) (e.trans pageOffset_zero.symm)
  omega

/-- What an allocation leaves alone. -/
theorem Guarded.taken (h : Guarded W ls c fs d) (ht : Taken d d' fs) : Shows ls c d' := by
  intro p hp
  obtain ⟨hm, hc⟩ := h.shows p hp
  have hne : ∀ q ∈ fs, pageOffset p ≠ pageOffset q := fun q hq =>
    h.offset_ne (.inr (.inl hp)) (.inr (.inr hq)) fun e => (h.free q hq).2 (e ▸ hp)
  exact ⟨ht.mapped p hm.1 hm, (ht.pages p (h.offset_ne_zero (.inr (.inl hp))) hne).trans hc⟩

theorem Guarded.store (h : Guarded W ls c fs d) (hp : p ∈ W) (data : Mem) :
    Guarded W ls c fs (d.store data (pageOffset p)) where
  pos := h.pos
  next_le := h.next_le
  freeList := h.freeList.congr (fun q hq => pageAt_store_of_ne
    (h.offset_ne (.inr (.inr hq)) (.inl hp) fun e => (h.free q hq).1 (e ▸ hp))) fun _ _ hm => hm.store
  nodup := h.nodup
  range := h.range
  free := h.free
  apart := h.apart
  shows q hq := by
    obtain ⟨hm, hc⟩ := h.shows q hq
    refine ⟨hm.store, (pageAt_store_of_ne ?_).trans hc⟩
    exact h.offset_ne (.inr (.inl hq)) (.inl hp) fun e => h.apart p hp (e ▸ hq)

/-- A page gets new content, and may be one of those to keep from then on. -/
theorem Guarded.put {ls' : List Nat} (h : Guarded W ls c fs d) (hp : p ∈ W ∨ p ∈ ls) (data : Mem)
    (hW : ∀ q ∈ W', q ∈ W ∧ q ≠ p) (hls : ∀ q ∈ ls', q = p ∨ q ∈ ls) :
    Guarded W' ls' (Function.update c p (pageOf data)) fs (d.store data (pageOffset p)) := by
  have hp' : p ∈ W ∨ p ∈ ls ∨ p ∈ fs := hp.imp_right .inl
  have hin : ∀ q ∈ ls', q ∈ W ∨ q ∈ ls := fun q hq =>
    (hls q hq).elim (fun e => e ▸ hp) .inr
  refine ⟨h.pos, h.next_le, h.freeList.congr (fun q hq => pageAt_store_of_ne ?_) fun _ _ hm => hm.store,
    h.nodup, fun q hq => h.range q ?_, fun q hq => ⟨fun hw => ?_, fun hl => ?_⟩, fun q hq hl => ?_,
    fun q hq => ?_⟩
  · refine h.offset_ne (.inr (.inr hq)) hp' fun e => ?_
    exact hp.elim (e ▸ (h.free q hq).1) (e ▸ (h.free q hq).2)
  · rcases hq with hq | hq | hq
    · exact .inl (hW q hq).1
    · exact (hin q hq).imp_right .inl
    · exact .inr (.inr hq)
  · exact (h.free q hq).1 (hW q hw).1
  · exact (hin q hl).elim (h.free q hq).1 (h.free q hq).2
  · exact (hls q hl).elim (hW q hq).2 (h.apart q (hW q hq).1)
  · by_cases hqp : q = p
    · subst hqp
      rw [Function.update_self]
      exact ⟨mapped_store (h.range q hp').2, pageAt_store rfl⟩
    · have hql := (hls q hq).resolve_left hqp
      obtain ⟨hm, hc⟩ := h.shows q hql
      rw [Function.update_of_ne hqp]
      exact ⟨hm.store, (pageAt_store_of_ne (h.offset_ne (.inr (.inl hql)) hp' hqp)).trans hc⟩

theorem Guarded.take (h : Guarded W ls c (f :: fs) d) (ht : Taken d d' (f :: fs))
    (hn : d'.globalMetadata.nextPageId = d.globalMetadata.nextPageId)
    (hfl : FreeList d' d'.globalMetadata.freelistHead fs) : Guarded (f :: W) ls c fs d' := by
  obtain ⟨hff, hnd⟩ := List.nodup_cons.mp h.nodup
  obtain ⟨hW, hls⟩ := h.free f List.mem_cons_self
  refine ⟨hn ▸ h.pos, hn ▸ h.next_le, hfl, hnd, fun p hp => ?_, fun p hp => ?_, fun p hp => ?_, h.taken ht⟩
  · rw [hn]
    refine h.range p ?_
    rcases hp with hp | hp | hp
    · rcases List.mem_cons.mp hp with rfl | hp
      · exact .inr (.inr List.mem_cons_self)
      · exact .inl hp
    · exact .inr (.inl hp)
    · exact .inr (.inr (List.mem_cons_of_mem _ hp))
  · obtain ⟨h1, h2⟩ := h.free p (List.mem_cons_of_mem _ hp)
    refine ⟨fun hw => ?_, h2⟩
    rcases List.mem_cons.mp hw with rfl | hw
    · exact hff hp
    · exact h1 hw
  · rcases List.mem_cons.mp hp with rfl | hp
    · exact hls
    · exact h.apart p hp

theorem Guarded.next (h : Guarded W ls c [] d) (ht : Taken d d' [])
    (hn : d'.globalMetadata.nextPageId = d.globalMetadata.nextPageId + 1)
    (hmax : d.globalMetadata.nextPageId + 1 ≤ MAX_PAGES)
    (hfl : FreeList d' d'.globalMetadata.freelistHead []) :
    Guarded (d.globalMetadata.nextPageId :: W) ls c [] d' := by
  refine ⟨by omega, hn ▸ hmax, hfl, List.nodup_nil, fun p hp => ?_, by simp, fun p hp => ?_, h.taken ht⟩
  · rw [hn]
    rcases hp with hp | hp | hp
    · rcases List.mem_cons.mp hp with rfl | hp
      · exact ⟨h.pos, Nat.lt_succ_self _⟩
      · have := h.range p (.inl hp)
        omega
    · have := h.range p (.inr (.inl hp))
      omega
    · exact absurd hp List.not_mem_nil
  · rcases List.mem_cons.mp hp with rfl | hp
    · exact fun hl => Nat.lt_irrefl _ (h.range _ (.inr (.inl hl))).2
    · exact h.apart p hp

/-- An allocation takes a page that may be written, or runs past the last id. -/
theorem Guarded.allocate (h : Guarded W ls c fs d) (hio : d.io = none)
    (he : Ends Storage.allocatePage d f d') :
    d'.globalMetadata.nextPageId = MAX_PAGES + 1 ∨
      f ∉ W ∧ f ∉ ls ∧ ∃ fs', Guarded (f :: W) ls c fs' d' := by
  have hn := h.next_le
  simp only [MAX_PAGES] at hn
  have hfl := h.freeList
  cases fs with
  | nil =>
    obtain ⟨d'', he', ht, hnext, hfl'⟩ := allocatePage_new hio hfl (by omega)
    obtain ⟨rfl, rfl⟩ := he.unique he'
    by_cases hmax : d.globalMetadata.nextPageId + 1 ≤ MAX_PAGES
    · refine .inr ⟨fun hw => ?_, fun hl => ?_, [], h.next ht hnext hmax hfl'⟩
      · exact Nat.lt_irrefl _ (h.range _ (.inl hw)).2
      · exact Nat.lt_irrefl _ (h.range _ (.inr (.inl hl))).2
    · exact .inl (by simp only [MAX_PAGES] at hmax ⊢; omega)
  | cons g fs =>
    obtain ⟨d'', he', ht, hnext, hfl'⟩ := allocatePage_pop hio hfl h.distinct
    obtain ⟨rfl, rfl⟩ := he.unique he'
    obtain ⟨hW, hls⟩ := h.free f List.mem_cons_self
    exact .inr ⟨hW, hls, fs, h.take ht hnext hfl'⟩

end

/-! ## Calls with any number of system calls left -/

/-- The ids ran out, and `k` more do not bring them back. -/
def Past (k : Nat) (d : DiskManager) : Prop :=
  MAX_PAGES < d.globalMetadata.nextPageId ∧ d.globalMetadata.nextPageId + k < 2 ^ 32

/-- `k` pages may still be taken. -/
def At (k : Nat) (W ls : List Nat) (c : Nat → Mem) (s : TreeState) : Prop :=
  Past k s.diskManager ∨ ∃ fs, Guarded W ls c fs s.diskManager

def Intact (ls : List Nat) (c : Nat → Mem) (s : TreeState) : Prop :=
  nextId s ≤ MAX_PAGES → Shows ls c s.diskManager

theorem disk_triple {α : Type} {x : DiskM α} {P E : DiskManager → Prop}
    {Q : α → DiskManager → Prop} (h : Triple P x Q E) :
    Triple (fun s => P s.diskManager) (disk x) (fun a s => Q a s.diskManager)
      fun s => E s.diskManager := by
  intro s hs
  have h1 := h s.diskManager hs
  unfold disk
  cases hx : x s.diskManager with
  | ok a d => rw [hx] at h1; exact h1
  | error e d => rw [hx] at h1; exact h1

theorem buf_keeps {α : Type} {I : TreeState → Prop} (r : Except Fault α) : Keeps I (buf r) := by
  intro s hs
  cases r <;> exact hs

/-- The file is that of `d`. -/
def OnDisk (d : DiskManager) (s : TreeState) : Prop := Upto d s.diskManager

section
variable {α β : Type} {k p : Nat} {W ls fs : List Nat} {c : Nat → Mem} {d : DiskManager}
  {P E : TreeState → Prop} {Q : α → TreeState → Prop}

theorem buf_bind {r : Except Fault β} {f : β → TreeM α} (hE : ∀ s, P s → E s)
    (h : ∀ a, r = .ok a → Triple P (f a) Q E) : Triple P (buf r >>= f) Q E := by
  cases r with
  | ok a => exact h a rfl
  | error e => exact hE

theorem OnDisk.read_bind {f : Mem → TreeM α} (hm : Mapped d p) (hE : ∀ s, OnDisk d s → E s)
    (h : Triple (OnDisk d) (f (pageAt d p)) Q E) :
    Triple (OnDisk d) (disk (readPage p) >>= f) Q E := by
  refine Triple.bind ((disk_triple (Upto.readPage hm)).conseq (fun _ h => h) (fun _ _ h => h) hE)
    fun data => ?_
  intro s hs
  obtain ⟨rfl, hs⟩ := hs
  exact h s hs

theorem OnDisk.write_bind {f : PUnit → TreeM α} {data : Mem}
    (hp : p < d.globalMetadata.nextPageId) (hE : ∀ s, OnDisk d s → E s)
    (h : Triple (OnDisk (d.store data (pageOffset p))) (f ⟨⟩) Q E) :
    Triple (OnDisk d) (disk (writePage p data) >>= f) Q E :=
  Triple.bind ((disk_triple (Upto.writePage hp)).conseq (fun _ h => h) (fun _ _ h => h) hE)
    fun _ => h

/-- The page taken may be written, unless it was one too many. -/
theorem OnDisk.alloc_bind {f : Nat → TreeM α} (h : Guarded W ls c fs d) (hf : ∀ a, Grows k (f a))
    (hk : k < 2 ^ 31) (hQ : ∀ a s, MAX_PAGES < nextId s → Q a s) (hE : ∀ s, Intact ls c s → E s)
    (h' : ∀ g fs' d', g ∉ W → g ∉ ls → Guarded (g :: W) ls c fs' d' →
      Triple (OnDisk d') (f g) Q E) : Triple (OnDisk d) (disk allocatePage >>= f) Q E := by
  have h0 := h.io none
  have hn := h.next_le
  simp only [MAX_PAGES] at hn
  have halloc : Triple (Upto d) allocatePage
      (fun g s => ∃ d', Ends allocatePage { d with io := none } g d' ∧ Upto d' s)
      (fun s => Shows ls c s) := by
    refine (Upto.allocatePage (d := { d with io := none }) rfl h0.freeList (by simp only; omega)
      (fun g d' s he hs => ⟨d', he, hs⟩) fun d' s ht hs => ?_).conseq (fun s hs => ?_)
      (fun _ _ h => h) fun _ h => h
    · obtain ⟨n, rfl⟩ := hs
      have hshows : Shows ls c d' := h0.taken ht
      exact hshows
    · obtain ⟨n, rfl⟩ := hs
      exact ⟨n, rfl⟩
  refine Triple.bind ((disk_triple halloc).conseq (fun _ h => h) (fun _ _ h => h)
    fun s hs => hE s fun _ => hs) fun g => Triple.of_state fun s hs => ?_
  obtain ⟨d', he, hu⟩ := hs
  rcases h0.allocate rfl he with hmax | ⟨hW, hls, fs', hg⟩
  · -- no later step brings the ids back
    have hnext : nextId s = MAX_PAGES + 1 := by
      obtain ⟨n, hn⟩ := hu
      rw [nextId, hn]
      exact hmax
    refine (hf g (nextId s) (nextId s) (by rw [hnext, MAX_PAGES]; omega)).conseq
      (fun _ e => e ▸ ⟨Nat.le_refl _, Nat.le_refl _⟩) (fun a s' hs => hQ a s' (by omega)) fun s' hs => ?_
    exact hE s' fun hle => absurd hs.1 (by omega)
  · exact (h' g fs' d' hW hls hg).conseq (fun _ e => e ▸ hu) (fun _ _ h => h) fun _ h => h

end

section
variable {t : TreeConfig} {α : Type} {k k' : Nat} {W W' ls : List Nat} {c : Nat → Mem} {p : Nat}

theorem At.mono {s : TreeState} (h : At k W ls c s) (hk : k' ≤ k) (hW : ∀ p ∈ W', p ∈ W) :
    At k' W' ls c s := by
  cases h with
  | inl h => exact .inl ⟨h.1, by have := h.2; omega⟩
  | inr h =>
    obtain ⟨fs, h⟩ := h
    exact .inr ⟨fs, h.mono hW⟩

theorem At.intact {s : TreeState} (h : At k W ls c s) : Intact ls c s := by
  intro hn
  cases h with
  | inl h => exact absurd h.1 (Nat.not_lt.mpr hn)
  | inr h =>
    obtain ⟨fs, h⟩ := h
    exact h.shows

/-- A step that takes no page. -/
theorem At.keep {x : TreeM α} (h : Keeps (At k W ls c) x) :
    Triple (At k W ls c) x (fun _ => At k W ls c) (Intact ls c) :=
  h.conseq (fun _ h => h) (fun _ _ h => h) fun _ h => h.intact

theorem past_readPage (p : Nat) : Keeps (Past k) (readPage p) :=
  readPage_keeps (fun g => MAX_PAGES < g.nextPageId ∧ g.nextPageId + k < 2 ^ 32) p

theorem past_writePage (p : Nat) (data : Mem) : Keeps (Past k) (writePage p data) :=
  writePage_keeps (fun g => MAX_PAGES < g.nextPageId ∧ g.nextPageId + k < 2 ^ 32) p data

theorem At.readPage (p : Nat) : Keeps (At k W ls c) (disk (readPage p)) := by
  have h : Keeps (fun d => Past k d ∨ ∃ fs, Guarded W ls c fs d) (Storage.readPage p) := by
    refine Triple.or ?_ (Triple.of_state fun d hd => ?_)
    · exact (past_readPage p).conseq (fun _ h => h) (fun _ _ h => .inl h) fun _ h => .inl h
    · obtain ⟨fs, h⟩ := hd
      exact (Upto.readPage_any p).conseq (fun _ e => e ▸ Upto.refl d)
        (fun _ _ hs => .inr ⟨fs, h.upto hs⟩) fun _ hs => .inr ⟨fs, h.upto hs⟩
  exact disk_triple h

theorem At.writePage (hp : p ∈ W) (data : Mem) : Keeps (At k W ls c) (disk (writePage p data)) := by
  have h : Keeps (fun d => Past k d ∨ ∃ fs, Guarded W ls c fs d) (Storage.writePage p data) := by
    refine Triple.or ?_ (Triple.of_state fun d hd => ?_)
    · exact (past_writePage p data).conseq (fun _ h => h) (fun _ _ h => .inl h) fun _ h => .inl h
    · obtain ⟨fs, h⟩ := hd
      exact (Upto.writePage (h.range p (.inl hp)).2).conseq (fun _ e => e ▸ Upto.refl d)
        (fun _ _ hs => .inr ⟨fs, (h.store hp data).upto hs⟩) fun _ hs => .inr ⟨fs, h.upto hs⟩
  exact disk_triple h

/-- The page taken may be written. -/
theorem At.allocatePage (hk : k < 2 ^ 31) : Triple (At (k + 1) W ls c) (disk allocatePage)
    (fun f => At k (f :: W) ls c) (Intact ls c) := by
  have h : Triple (fun d => Past (k + 1) d ∨ ∃ fs, Guarded W ls c fs d) Storage.allocatePage
      (fun f d => Past k d ∨ ∃ fs, Guarded (f :: W) ls c fs d)
      (fun d => d.globalMetadata.nextPageId ≤ MAX_PAGES → Shows ls c d) := by
    refine Triple.or (Triple.of_state fun d hd => ?_) fun d hd => ?_
    · obtain ⟨h1, h2⟩ := hd
      refine (allocatePage_grows (n := d.globalMetadata.nextPageId) (m := d.globalMetadata.nextPageId)
        (by omega)).conseq (fun _ e => e ▸ ⟨Nat.le_refl _, Nat.le_refl _⟩)
        (fun _ s hs => .inl ⟨?_, ?_⟩) fun _ hs hn => ?_
      all_goals omega
    · obtain ⟨fs, h⟩ := hd
      have h0 := h.io none
      have hn := h.next_le
      simp only [MAX_PAGES] at hn
      refine Upto.allocatePage (d := { d with io := none }) rfl h0.freeList (by simp only; omega)
        (fun f d' s he hs => ?_) (fun d' s ht hs _ => ?_) d ⟨d.io, rfl⟩
      · obtain ⟨n, rfl⟩ := hs
        rcases h0.allocate rfl he with hmax | ⟨-, -, fs', h'⟩
        · refine .inl ⟨?_, ?_⟩
          all_goals simp only [hmax, MAX_PAGES]; omega
        · exact .inr ⟨fs', h'.io n⟩
      · obtain ⟨n, rfl⟩ := hs
        have hshows : Shows ls c d' := h0.taken ht
        exact hshows
  exact disk_triple h

/-! ## The way up -/

theorem splitRoot_cut (left : Nat) (k : Key) (right : Nat) :
    Triple (At 1 W ls c) (splitRoot t left k right) (fun _ => At 0 W ls c) (Intact ls c) := by
  unfold splitRoot
  refine Triple.bind (At.keep (At.readPage left)) fun _ => ?_
  refine Triple.bind (At.allocatePage (by decide)) fun f => ?_
  refine Triple.bind (At.keep (buf_keeps _)) fun _ => ?_
  refine Triple.bind (At.keep (buf_keeps _)) fun _ => ?_
  refine Triple.bind (At.keep (buf_keeps _)) fun _ => ?_
  refine Triple.bind (At.keep (buf_keeps _)) fun _ => ?_
  refine Triple.bind (At.keep (Keeps.modify fun _ h => h)) fun _ => ?_
  refine Triple.bind (At.keep (At.writePage List.mem_cons_self _)) fun _ => ?_
  exact Triple.pure fun _ h => h.mono (Nat.le_refl 0) fun _ => List.mem_cons_of_mem _

/-- The page and its new right half are written, then the levels above. -/
theorem splitInternalAt_cut (hp : p ∈ W) (hk : k < 2 ^ 31) {wire : Key → Nat → TreeM Unit}
    (hwire : ∀ sep f, Triple (At k (f :: W) ls c) (wire sep f) (fun _ => At 0 (f :: W) ls c)
      (Intact ls c)) :
    Triple (At (k + 1) W ls c) (splitInternalAt t p wire) (fun f => At 0 (f :: W) ls c)
      (Intact ls c) := by
  unfold splitInternalAt
  refine Triple.bind (At.allocatePage hk) fun f => ?_
  refine Triple.bind (At.keep (At.readPage p)) fun _ => ?_
  refine Triple.bind (At.keep (buf_keeps _)) fun _ => ?_
  refine Triple.bind (At.keep (At.writePage (List.mem_cons_of_mem _ hp) _)) fun _ => ?_
  refine Triple.bind (At.keep (At.writePage List.mem_cons_self _)) fun _ => ?_
  exact Triple.bind (hwire _ f) fun _ => Triple.pure fun _ h => h

theorem insertIntoParent_cut : ∀ (bt : BTStack) (W : List Nat) (k : Key) (right : Nat),
    (∀ b ∈ bt, b.pageId ∈ W) → bt.length < 2 ^ 31 →
    Triple (At (bt.length + 1) W ls c) (insertIntoParent t bt k right) (fun _ => At 0 W ls c)
      (Intact ls c)
  | [], _, _, _, _, _ => Triple.throw fun _ h => h.intact
  | back :: rest, W, k, right, hW, hlen => by
    have hp : back.pageId ∈ W := hW back List.mem_cons_self
    have hlen' : rest.length + 1 < 2 ^ 31 := hlen
    have hwire : ∀ sep f, Triple (At (rest.length + 1) (f :: W) ls c) (do
        if rest.isEmpty then let _ ← splitRoot t back.pageId sep f
        else insertIntoParent t rest sep f) (fun _ => At 0 (f :: W) ls c) (Intact ls c) := by
      intro sep f
      refine Triple.ite (fun _ => ?_) fun _ => ?_
      · refine Triple.bind ((splitRoot_cut back.pageId sep f).conseq
          (fun _ h => h.mono (by omega) fun _ h => h) (fun _ _ h => h) fun _ h => h) fun _ => ?_
        exact Triple.pure fun _ h => h
      · exact insertIntoParent_cut rest (f :: W) sep f
          (fun b hb => List.mem_cons_of_mem _ (hW b (List.mem_cons_of_mem _ hb))) (by omega)
    -- the pair goes into the page or into its new right half
    have hrest : ∀ x : Nat × Mem, Triple (At 0 (x.1 :: W) ls c) (do
        let r ← buf (insertPair t x.2 k right)
        modify fun s => { s with wired := (r.1, r.2.1) :: s.wired }
        disk (writePage x.1 r.2.2)) (fun _ => At 0 W ls c) (Intact ls c) := by
      intro x
      refine Triple.bind (At.keep (buf_keeps _)) fun _ => ?_
      refine Triple.bind (At.keep (Keeps.modify fun _ h => h)) fun _ => ?_
      exact (At.keep (At.writePage List.mem_cons_self _)).conseq (fun _ h => h)
        (fun _ _ h => h.mono (Nat.le_refl 0) fun _ => List.mem_cons_of_mem _) fun _ h => h
    have hself : ∀ q ∈ back.pageId :: W, q ∈ W := fun q hq =>
      (List.mem_cons.mp hq).elim (fun e => e ▸ hp) fun h => h
    unfold insertIntoParent
    refine Triple.bind (At.keep (At.readPage back.pageId)) fun page => Triple.ite (fun _ => ?_) fun _ => ?_
    · refine Triple.bind (splitInternalAt_cut hp hlen' hwire) fun f => ?_
      refine Triple.bind (At.keep (At.readPage f)) fun _ => ?_
      refine Triple.bind (At.keep (buf_keeps _)) fun r => ?_
      refine Triple.bind (At.keep (At.readPage _)) fun page => ?_
      refine Triple.bind (Q := fun x => At 0 (x.1 :: W) ls c) (Triple.pure fun s h => ?_) hrest
      refine h.mono (Nat.le_refl 0) fun q hq => ?_
      simp only at hq
      split at hq
      · exact hq
      · exact List.mem_cons_of_mem _ (hself q hq)
    · exact Triple.bind (Q := fun x => At 0 (x.1 :: W) ls c)
        (Triple.pure fun s h => h.mono (Nat.zero_le _) hself) hrest

/-- The whole way up leaves the pages `ls` alone, wherever it stops. -/
theorem wireUp_cut (bt : BTStack) (hW : ∀ b ∈ bt, b.pageId ∈ W) (hlen : bt.length < 2 ^ 31)
    (left : Nat) (k : Key) (right : Nat) :
    Triple (At (bt.length + 1) W ls c) (wireUp t bt left k right) (fun _ => Intact ls c)
      (Intact ls c) := by
  refine Triple.ite (fun _ => ?_) fun _ => ?_
  · refine Triple.bind ((splitRoot_cut left k right).conseq
      (fun _ h => h.mono (by omega) fun _ h => h) (fun _ _ h => h) fun _ h => h) fun _ => ?_
    exact Triple.pure fun _ h => h.intact
  · exact (insertIntoParent_cut bt W k right hW hlen).conseq (fun _ h => h)
      (fun _ _ h => h.intact) fun _ h => h

end

end DbInternals.Index
