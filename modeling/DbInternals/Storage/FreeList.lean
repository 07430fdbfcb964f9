import Mathlib.Data.List.Induction
import DbInternals.Storage.DiskPages

/-!
# The free list

Free pages are kept in a chain of free-list pages on disk: `Chain d head cs`
lists, from the page `head` on, each page of the chain with the ids it holds.
A page hands out its ids last to first and then itself; `FreeList d head ids`
has the ids of a chain in the order they are handed out.

Results:
* `IsListPage.empty`, `IsListPage.push`, `IsListPage.pop`: the three pages
  that are ever written;
* `Chain.congr`, `FreeList.congr`: a chain depends on its own pages only;
* `allocatePage_head`, `allocatePage_entry`, `deallocatePage_head`,
  `deallocatePage_entry`: the page written and the state after each branch;
* `allocatePage_chain`, `deallocatePage_chain`: what the calls return and do
  to the chain, and that no page outside it changes but the one at offset 0.
-/
namespace DbInternals.Storage

open Mem

/-! ## One page of the chain -/

/-- The buffer is a free-list page with the entries `ids`. -/
structure IsListPage (data : Mem) (ids : List Nat) (next : Nat) : Prop where
  count : currentIdCount data = ids.length
  max : ids.length ≤ MAX_FREE_IDS
  ids : ∀ i (h : i < ids.length), ids[i] = freePageId data i
  next : nextFreelistPage data = next

section
variable {data : Mem} {ids : List Nat} {next f : Nat}

/-- A number of the first page of a buffer. -/
theorem readLE_pageOf {o k : Nat} (h : o + k ≤ PAGE_SIZE) :
    (pageOf data).readLE o k = data.readLE o k := by
  rw [pageOf, readLE_copy_at (Nat.zero_le o) (by omega), Nat.sub_zero]

/-- The page a free list starts with. -/
theorem IsListPage.empty (hn : next < 2 ^ 32) :
    IsListPage (pageOf ((Mem.zero.writeLE 0 4 next).writeLE 4 4 0)) [] next where
  count := by
    rw [currentIdCount, readLE_pageOf (by decide), readLE_writeLE]; rfl
  max := Nat.zero_le _
  ids i h := by simp at h
  next := by
    rw [nextFreelistPage, readLE_pageOf (by decide), readLE_writeLE_frame (by omega),
      readLE_writeLE]
    omega

/-- An entry is added. -/
theorem IsListPage.push (h : IsListPage data ids next) (hlt : ids.length < MAX_FREE_IDS)
    (hf : f < 2 ^ 32) :
    IsListPage (pageOf ((data.writeLE (8 + 4 * ids.length) 4 f).writeLE 4 4 (ids.length + 1)))
      (ids ++ [f]) next := by
  simp only [MAX_FREE_IDS, PAGE_SIZE] at hlt
  refine ⟨?_, ?_, fun i hi => ?_, ?_⟩
  · rw [currentIdCount, readLE_pageOf (by decide), readLE_writeLE, List.length_append,
      List.length_singleton]
    omega
  · simp only [List.length_append, List.length_singleton, MAX_FREE_IDS, PAGE_SIZE]; omega
  · simp only [List.length_append, List.length_singleton] at hi
    rw [freePageId, readLE_pageOf (by simp only [PAGE_SIZE]; omega),
      readLE_writeLE_frame (by omega)]
    by_cases hlast : i < ids.length
    · rw [readLE_writeLE_frame (by omega), List.getElem_append_left hlast]
      exact h.ids i hlast
    · have e : i = ids.length := by omega
      subst e
      rw [readLE_writeLE]
      simp only [List.getElem_concat_length]
      omega
  · rw [nextFreelistPage, readLE_pageOf (by decide), readLE_writeLE_frame (by omega),
      readLE_writeLE_frame (by omega)]
    exact h.next

/-- The last entry is taken. -/
theorem IsListPage.pop (h : IsListPage data (ids ++ [f]) next) :
    freePageId data ids.length = f ∧
      IsListPage (pageOf (data.writeLE 4 4 ids.length)) ids next := by
  have hmax := h.max
  simp only [List.length_append, List.length_singleton, MAX_FREE_IDS, PAGE_SIZE] at hmax
  refine ⟨?_, ?_, ?_, fun i hi => ?_, ?_⟩
  · have := h.ids ids.length (by simp)
    simpa using this.symm
  · rw [currentIdCount, readLE_pageOf (by decide), readLE_writeLE]
    omega
  · simp only [MAX_FREE_IDS, PAGE_SIZE]; omega
  · have := h.ids i (by simp; omega)
    rw [List.getElem_append_left hi] at this
    rw [this, freePageId, freePageId, readLE_pageOf (by simp only [PAGE_SIZE]; omega),
      readLE_writeLE_frame (by omega)]
  · rw [nextFreelistPage, readLE_pageOf (by decide), readLE_writeLE_frame (by omega)]
    exact h.next

theorem IsListPage.next_lt (h : IsListPage data ids next) : next < 2 ^ 32 := by
  rw [← h.next]
  exact readLE_lt data 4 0

end

/-! ## The chain -/

/-- From the page `head` on, the pages of the chain with their entries. -/
inductive Chain (d : DiskManager) : Nat → List (Nat × List Nat) → Prop
  | nil : Chain d INVALID_PAGE_ID []
  | page {head next : Nat} {ids : List Nat} {cs : List (Nat × List Nat)}
      (hne : head ≠ INVALID_PAGE_ID) (hm : Mapped d head)
      (hp : IsListPage (pageAt d head) ids next) (hrest : Chain d next cs) :
      Chain d head ((head, ids) :: cs)

/-- The ids of the chain, in the order they are handed out. -/
def freeIds (cs : List (Nat × List Nat)) : List Nat := cs.flatMap fun c => c.2.reverse ++ [c.1]

@[simp] theorem freeIds_nil : freeIds [] = [] := rfl

@[simp] theorem freeIds_cons (c : Nat × List Nat) (cs : List (Nat × List Nat)) :
    freeIds (c :: cs) = c.2.reverse ++ c.1 :: freeIds cs := by
  simp [freeIds]

theorem Chain.congr {d d' : DiskManager} {head : Nat} {cs : List (Nat × List Nat)}
    (h : Chain d head cs) (hp : ∀ c ∈ cs, pageAt d' c.1 = pageAt d c.1)
    (hm : ∀ c ∈ cs, Mapped d c.1 → Mapped d' c.1) : Chain d' head cs := by
  induction h with
  | nil => exact .nil
  | @page head next ids cs hne hmap hpage _ ih =>
    have hpage' : IsListPage (pageAt d' head) ids next := by
      rw [hp (head, ids) (by simp)]; exact hpage
    exact .page hne (hm (head, ids) (by simp) hmap) hpage'
      (ih (fun c h => hp c (by simp [h])) fun c h => hm c (by simp [h]))

theorem mem_freeIds_of_mem {cs : List (Nat × List Nat)} {c : Nat × List Nat} (hc : c ∈ cs) :
    c.1 ∈ freeIds cs := by
  simp only [freeIds, List.mem_flatMap]
  exact ⟨c, hc, by simp⟩

/-- The ids of the chain from the page `head` on. -/
def FreeList (d : DiskManager) (head : Nat) (fs : List Nat) : Prop :=
  ∃ cs, Chain d head cs ∧ freeIds cs = fs

theorem FreeList.nil {d : DiskManager} : FreeList d INVALID_PAGE_ID [] := ⟨[], .nil, rfl⟩

theorem FreeList.congr {d d' : DiskManager} {head : Nat} {fs : List Nat} (h : FreeList d head fs)
    (hp : ∀ p ∈ fs, pageAt d' p = pageAt d p) (hm : ∀ p ∈ fs, Mapped d p → Mapped d' p) :
    FreeList d' head fs := by
  obtain ⟨cs, hc, rfl⟩ := h
  exact ⟨cs, hc.congr (fun c hm => hp c.1 (mem_freeIds_of_mem hm))
    fun c hc => hm c.1 (mem_freeIds_of_mem hc), rfl⟩

/-- An empty list has no page. -/
theorem FreeList.head_nil {d : DiskManager} {head : Nat} (h : FreeList d head []) :
    head = INVALID_PAGE_ID := by
  obtain ⟨cs, hc, hids⟩ := h
  cases hc with
  | nil => rfl
  | page => simp at hids

/-- What stays the same when a page is taken from the free list `fs`. -/
structure Taken (d d' : DiskManager) (fs : List Nat) : Prop where
  io : d'.io = d.io
  mapped : ∀ p, p < d.globalMetadata.nextPageId → Mapped d p → Mapped d' p
  pages : ∀ p, pageOffset p ≠ 0 → (∀ q ∈ fs, pageOffset p ≠ pageOffset q) → pageAt d' p = pageAt d p

section
variable {d : DiskManager}

/-- With an empty list the next id is taken. -/
theorem allocatePage_new (hio : d.io = none) (h : FreeList d d.globalMetadata.freelistHead [])
    (hn : d.globalMetadata.nextPageId + 1 < 2 ^ 32) :
    ∃ d', Ends allocatePage d d.globalMetadata.nextPageId d' ∧ Taken d d' [] ∧
      d'.globalMetadata.nextPageId = d.globalMetadata.nextPageId + 1 ∧
      FreeList d' d'.globalMetadata.freelistHead [] := by
  have hhead := h.head_nil
  have hnext : d.bump.globalMetadata.nextPageId = d.globalMetadata.nextPageId + 1 := by
    simp only [DiskManager.bump]; omega
  refine ⟨_, allocatePage_ends hio hhead, ⟨rfl, fun p hp hm => ?_, fun p hp _ => ?_⟩, hnext, ?_⟩
  · refine Mapped.store ⟨?_, hm.2⟩
    rw [hnext]; omega
  · exact pageAt_store_of_ne (q := 0) hp
  · change FreeList _ d.globalMetadata.freelistHead []
    rw [hhead]; exact .nil

/-- The state with another head of the free list. -/
def DiskManager.withHead (d : DiskManager) (head : Nat) : DiskManager :=
  { d with globalMetadata := { d.globalMetadata with freelistHead := head } }

/-- Ids of pages of their own, none of them page 0. -/
def Distinct (fs : List Nat) : Prop := fs.Nodup ∧ ∀ p ∈ fs, 1 ≤ p ∧ p < MAX_PAGES

theorem Distinct.offset_ne_zero {fs : List Nat} (h : Distinct fs) {p : Nat} (hp : p ∈ fs) :
    pageOffset p ≠ pageOffset 0 := fun e => by
  have h1 := h.2 p hp
  have := pageOffset_inj h1.2 (by decide) e
  omega

theorem Distinct.offset_ne {fs : List Nat} (h : Distinct fs) {p q : Nat} (hp : p ∈ fs)
    (hq : q ∈ fs) (hne : p ≠ q) : pageOffset p ≠ pageOffset q := fun e =>
  hne (pageOffset_inj (h.2 p hp).2 (h.2 q hq).2 e)

/-! ## The calls on the chain -/

/-- The state after the metadata was written. -/
def DiskManager.saved (d : DiskManager) : DiskManager := d.store d.globalMetadata.bytes (pageOffset 0)

/-- The state after the page was written as an empty free-list page. -/
def DiskManager.cleared (d : DiskManager) (p next : Nat) : DiskManager :=
  d.store ((Mem.zero.writeLE 0 4 next).writeLE 4 4 0) (pageOffset p)

section
variable {head next : Nat} {ids : List Nat} (hio : d.io = none)
  (hh : d.globalMetadata.freelistHead = head)
include hio hh

/-- An empty page is handed out itself. -/
theorem allocatePage_head (hne : head ≠ INVALID_PAGE_ID) (hm : Mapped d head)
    (hp : IsListPage (pageAt d head) [] next) :
    Ends allocatePage d head (d.withHead next).saved := by
  unfold allocatePage
  apply (Ends.get d).bind
  rw [hh, if_neg hne]
  apply (pread_ends hio hm.2).bind
  apply (Ends.pure () d).bind
  simp only [Option.map_some, Option.getD_some, hp.count, List.length_nil, if_true, hp.next]
  apply (Ends.modify _ d).bind
  have hio' : (d.withHead next).io = none := hio
  exact (updateMetadata_ends hio').bind rfl

/-- The last id of the page is handed out and the page is written back. -/
theorem allocatePage_entry {f : Nat} (hne : head ≠ INVALID_PAGE_ID) (hm : Mapped d head)
    (hp : IsListPage (pageAt d head) (ids ++ [f]) next) :
    Ends allocatePage d f
      (d.store ((pageAt d head).writeLE 4 4 ids.length) (pageOffset head)).saved := by
  have hcount := hp.count
  have hmax := hp.max
  simp only [List.length_append, List.length_singleton] at hcount hmax
  unfold allocatePage
  apply (Ends.get d).bind
  rw [hh, if_neg hne]
  apply (pread_ends hio hm.2).bind
  apply (Ends.pure () d).bind
  simp only [Option.map_some, Option.getD_some, hcount]
  rw [if_neg (by omega), if_neg (by omega), Nat.add_sub_cancel, hp.pop.1]
  apply (pwrite_ends hio).bind
  apply (Ends.pure () _).bind
  have hio' : (d.store ((pageAt d head).writeLE 4 4 ids.length) (pageOffset head)).io = none := hio
  exact (updateMetadata_ends hio').bind rfl

/-- The page becomes the head: the list is empty or its head is full. -/
theorem deallocatePage_head {p : Nat} (hp : head ≠ INVALID_PAGE_ID →
      Mapped d head ∧ IsListPage (pageAt d head) ids next ∧ ids.length = MAX_FREE_IDS) :
    Ends (deallocatePage p) d ⟨⟩ ((d.cleared p head).withHead p).saved := by
  have hnew : Ends (do
      let w ← pwrite ((Mem.zero.writeLE 0 4 head).writeLE 4 4 0) (pageOffset p)
      handleWriteError w p
      modify fun d => { d with globalMetadata := { d.globalMetadata with freelistHead := p } }
      updateMetadata) d ⟨⟩ ((d.cleared p head).withHead p).saved := by
    refine (pwrite_ends hio).bind ((Ends.pure () _).bind ((Ends.modify _ _).bind ?_))
    have hio' : ((d.cleared p head).withHead p).io = none := hio
    exact updateMetadata_ends hio'
  unfold deallocatePage
  apply (Ends.get d).bind
  rw [hh]
  by_cases hne : head = INVALID_PAGE_ID
  · rw [if_pos hne, ← hne]; exact hnew
  · obtain ⟨hm, hl, hfull⟩ := hp hne
    rw [if_neg hne]
    apply (pread_ends hio hm.2).bind
    apply (Ends.pure () d).bind
    simp only [Option.map_some, Option.getD_some, hl.count]
    rw [if_pos hfull]; exact hnew

/-- The page becomes an entry of the head. -/
theorem deallocatePage_entry {p : Nat} (hne : head ≠ INVALID_PAGE_ID) (hm : Mapped d head)
    (hp : IsListPage (pageAt d head) ids next) (hlt : ids.length < MAX_FREE_IDS) :
    Ends (deallocatePage p) d ⟨⟩ (d.store (((pageAt d head).writeLE (8 + 4 * ids.length) 4 p).writeLE
      4 4 (ids.length + 1)) (pageOffset head)) := by
  unfold deallocatePage
  apply (Ends.get d).bind
  rw [hh, if_neg hne]
  apply (pread_ends hio hm.2).bind
  apply (Ends.pure () d).bind
  simp only [Option.map_some, Option.getD_some, hp.count]
  rw [if_neg (by omega), if_neg (by omega)]
  exact (pwrite_ends hio).bind rfl

end

/-! ## The chain after a store -/

section
variable {cs : List (Nat × List Nat)} {head next : Nat} {ids : List Nat}

theorem Chain.storeFirst {data : Mem} {q n : Nat} (h : Chain d head cs) (hn : n ≤ PAGE_SIZE)
    (hq : ∀ c ∈ cs, pageOffset c.1 ≠ pageOffset q) :
    Chain (d.storeFirst data (pageOffset q) n) head cs :=
  h.congr (fun c hc => pageAt_storeFirst_of_ne hn (hq c hc)) fun _ _ hm => hm.storeFirst

theorem Chain.store {data : Mem} {q : Nat} (h : Chain d head cs)
    (hq : ∀ c ∈ cs, pageOffset c.1 ≠ pageOffset q) : Chain (d.store data (pageOffset q)) head cs :=
  h.storeFirst (Nat.le_refl PAGE_SIZE) hq

/-- The list page `p` is written in front of a chain it is not part of. -/
theorem Chain.cons_store {p : Nat} {data : Mem} (hne : p ≠ INVALID_PAGE_ID)
    (hp : p < d.globalMetadata.nextPageId) (hl : IsListPage (pageOf data) ids next)
    (h : Chain d next cs) (hq : ∀ c ∈ cs, pageOffset c.1 ≠ pageOffset p) :
    Chain (d.store data (pageOffset p)) p ((p, ids) :: cs) := by
  refine .page hne (mapped_store hp) ?_ (h.store hq)
  rw [pageAt_store rfl]; exact hl

theorem Chain.withHead {head' : Nat} (h : Chain d head cs) : Chain (d.withHead head') head cs :=
  h.congr (fun _ _ => rfl) fun _ _ hm => hm

theorem Chain.saved (h : Chain d head cs) (hd : Distinct (freeIds cs)) : Chain d.saved head cs :=
  h.store (q := 0) fun _ hc => hd.offset_ne_zero (mem_freeIds_of_mem hc)

/-- Every page of the chain but the head is full. -/
def FullTail (cs : List (Nat × List Nat)) : Prop := ∀ c ∈ cs.tail, c.2.length = MAX_FREE_IDS

theorem FullTail.rest {c : Nat × List Nat} (h : FullTail (c :: cs)) : FullTail cs :=
  fun _ hc => h _ (List.mem_of_mem_tail hc)

theorem FullTail.cons {c c' : Nat × List Nat} (h : FullTail (c :: cs)) : FullTail (c' :: cs) := h

/-- The pages behind the head are not the head. -/
theorem Distinct.offset_ne_head {c : Nat × List Nat} (hd : Distinct (freeIds ((head, ids) :: cs)))
    (hc : c ∈ cs) : pageOffset c.1 ≠ pageOffset head := by
  have hmem : c.1 ∈ freeIds cs := mem_freeIds_of_mem hc
  refine hd.offset_ne ?_ ?_ ?_
  · rw [freeIds_cons]; simp [hmem]
  · rw [freeIds_cons]; simp
  · intro e
    have hn := hd.1
    rw [freeIds_cons, List.nodup_append] at hn
    exact (List.nodup_cons.mp hn.2.1).1 (e ▸ hmem)

end

/-- The next id of the chain is taken. -/
theorem allocatePage_chain (hio : d.io = none) {cs : List (Nat × List Nat)} {f : Nat}
    {fs : List Nat} (h : Chain d d.globalMetadata.freelistHead cs) (hl : freeIds cs = f :: fs)
    (hd : Distinct (f :: fs)) :
    ∃ d' cs', Ends allocatePage d f d' ∧ Taken d d' (f :: fs) ∧
      d'.globalMetadata.nextPageId = d.globalMetadata.nextPageId ∧
      Chain d' d'.globalMetadata.freelistHead cs' ∧ freeIds cs' = fs ∧
      (FullTail cs → FullTail cs') := by
  rw [← hl] at hd ⊢
  generalize hh : d.globalMetadata.freelistHead = head at h
  cases h with
  | nil => cases hl
  | @page _ next ids rest hne hm hp hrest =>
  cases ids using List.reverseRecOn with
  | nil =>
    -- the page is empty: it is handed out itself
    rw [freeIds_cons, List.reverse_nil, List.nil_append, List.cons.injEq] at hl
    obtain ⟨rfl, rfl⟩ := hl
    have hd' : Distinct (freeIds rest) := by
      refine ⟨(List.nodup_cons.mp hd.1).2, fun p hp => hd.2 p ?_⟩
      rw [freeIds_cons]; simp [hp]
    refine ⟨_, rest, allocatePage_head hio hh hne hm hp, ⟨rfl, ?_, ?_⟩, rfl,
      hrest.withHead.saved hd', rfl, FullTail.rest⟩
    · intro p _ hmp
      exact Mapped.store ⟨hmp.1, hmp.2⟩
    · intro p h0 _
      exact pageAt_store_of_ne (q := 0) h0
  | append_singleton ids g =>
    -- the last id of the page is handed out and the page is written back
    rw [freeIds_cons, List.reverse_append, List.reverse_singleton, List.singleton_append,
      List.cons_append, List.cons.injEq] at hl
    obtain ⟨rfl, rfl⟩ := hl
    have hd' : Distinct (freeIds ((head, ids) :: rest)) := by
      rw [freeIds_cons] at hd ⊢
      simp only [List.reverse_append, List.reverse_singleton, List.cons_append] at hd
      exact ⟨(List.nodup_cons.mp hd.1).2, fun p hp => hd.2 p (List.mem_cons_of_mem _ hp)⟩
    have hstored : Chain (d.store ((pageAt d head).writeLE 4 4 ids.length) (pageOffset head)) head
        ((head, ids) :: rest) :=
      .cons_store hne hm.1 hp.pop.2 hrest fun _ hc => hd'.offset_ne_head hc
    refine ⟨_, (head, ids) :: rest, allocatePage_entry hio hh hne hm hp, ⟨rfl, ?_, ?_⟩, rfl, ?_,
      by simp, FullTail.cons⟩
    · intro p _ hmp
      exact hmp.store.store
    · intro p h0 hq
      have hhead : pageOffset p ≠ pageOffset head := hq head (by simp)
      exact (pageAt_store_of_ne (q := 0) h0).trans (pageAt_store_of_ne hhead)
    · have e : d.saved.globalMetadata.freelistHead = head := hh
      exact e.symm ▸ hstored.saved hd'

/-- A page outside the chain becomes free. -/
theorem deallocatePage_chain (hio : d.io = none) {cs : List (Nat × List Nat)} {p : Nat}
    (h : Chain d d.globalMetadata.freelistHead cs) (hp : p < d.globalMetadata.nextPageId)
    (hd : Distinct (p :: freeIds cs)) :
    ∃ d' cs', Ends (deallocatePage p) d ⟨⟩ d' ∧ Taken d d' (p :: freeIds cs) ∧
      d'.globalMetadata.nextPageId = d.globalMetadata.nextPageId ∧
      Chain d' d'.globalMetadata.freelistHead cs' ∧ freeIds cs' = p :: freeIds cs ∧
      (FullTail cs → FullTail cs') := by
  have hd1 : Distinct (freeIds cs) :=
    ⟨(List.nodup_cons.mp hd.1).2, fun q hq => hd.2 q (List.mem_cons_of_mem _ hq)⟩
  have hp' := hd.2 p (by simp)
  have hlt : p < 2 ^ 32 := by have := hp'.2; simp only [MAX_PAGES] at this; omega
  have hne : p ≠ INVALID_PAGE_ID := by
    intro e
    rw [e] at hp'
    exact absurd hp'.2 (by decide)
  generalize hh : d.globalMetadata.freelistHead = head at h
  -- the branches that make `p` the head
  have hhead : ∀ (ids : List Nat) (next : Nat), (head ≠ INVALID_PAGE_ID →
      Mapped d head ∧ IsListPage (pageAt d head) ids next ∧ ids.length = MAX_FREE_IDS) →
      (FullTail cs → FullTail ((p, []) :: cs)) →
      ∃ d' cs', Ends (deallocatePage p) d ⟨⟩ d' ∧ Taken d d' (p :: freeIds cs) ∧
        d'.globalMetadata.nextPageId = d.globalMetadata.nextPageId ∧
        Chain d' d'.globalMetadata.freelistHead cs' ∧ freeIds cs' = p :: freeIds cs ∧
        (FullTail cs → FullTail cs') := by
    intro ids next hfull htail
    have hn : head < 2 ^ 32 := by
      cases h with
      | nil => decide
      | page hne hm =>
        have := (hd1.2 head (by rw [freeIds_cons]; simp)).2
        simp only [MAX_PAGES] at this; omega
    have hcs : Chain (d.cleared p head) p ((p, []) :: cs) :=
      .cons_store hne hp (.empty hn) h fun c hc =>
        hd.offset_ne (List.mem_cons_of_mem _ (mem_freeIds_of_mem hc)) (by simp) fun e =>
          (List.nodup_cons.mp hd.1).1 (e ▸ mem_freeIds_of_mem hc)
    have hd' : Distinct (freeIds ((p, []) :: cs)) := by rw [freeIds_cons]; exact hd
    refine ⟨_, (p, []) :: cs, deallocatePage_head hio hh hfull, ⟨rfl, ?_, ?_⟩, rfl,
      hcs.withHead.saved hd', by simp, htail⟩
    · intro q _ hmq
      have hm : Mapped (d.cleared p head) q := hmq.store
      exact Mapped.store ⟨hm.1, hm.2⟩
    · intro q h0 hq
      exact (pageAt_store_of_ne (q := 0) h0).trans (pageAt_store_of_ne (hq p (by simp)))
  cases h with
  | nil => exact hhead [] 0 (fun h => absurd rfl h) fun _ c hc => by simp at hc
  | @page _ next ids rest hne' hm hl hrest =>
  by_cases hfull : ids.length = MAX_FREE_IDS
  · refine hhead ids next (fun _ => ⟨hm, hl, hfull⟩) fun ht c hc => ?_
    cases List.mem_cons.mp hc with
    | inl e => rw [e]; exact hfull
    | inr hc => exact ht c hc
  · have hroom : ids.length < MAX_FREE_IDS := Nat.lt_of_le_of_ne hl.max hfull
    have hstored := Chain.cons_store (p := head) hne' hm.1 (hl.push hroom hlt) hrest fun _ hc =>
      hd1.offset_ne_head hc
    refine ⟨_, (head, ids ++ [p]) :: rest, deallocatePage_entry hio hh hne' hm hl hroom,
      ⟨rfl, ?_, ?_⟩, rfl, ?_, by simp, FullTail.cons⟩
    · intro q _ hmq
      exact hmq.store
    · intro q _ hq
      exact pageAt_store_of_ne (hq head (by simp))
    · exact hh.symm ▸ hstored

/-! ## The ids alone -/

/-- The next id of the list is taken. -/
theorem allocatePage_pop (hio : d.io = none) {f : Nat} {fs : List Nat}
    (h : FreeList d d.globalMetadata.freelistHead (f :: fs)) (hd : Distinct (f :: fs)) :
    ∃ d', Ends allocatePage d f d' ∧ Taken d d' (f :: fs) ∧
      d'.globalMetadata.nextPageId = d.globalMetadata.nextPageId ∧
      FreeList d' d'.globalMetadata.freelistHead fs := by
  obtain ⟨cs, hc, hl⟩ := h
  obtain ⟨d', cs', he, ht, hn, hc', hl', -⟩ := allocatePage_chain hio hc hl hd
  exact ⟨d', he, ht, hn, cs', hc', hl'⟩

end

end DbInternals.Storage
