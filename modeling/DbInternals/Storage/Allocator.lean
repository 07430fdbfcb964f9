import Mathlib.Data.List.Nodup
import DbInternals.Core.LTS
import DbInternals.Storage.FreeList

/-!
# Page allocation over whole runs

The callers of `DiskManager` as a transition system: pages are handed out,
given back, written and read, in any order, on a fresh database of at most
`2 ^ 20` pages whose system calls succeed. Two ghost fields record the ids
in use and what each of them was last written.

Results:
* `Parts.allocatePage`, `Parts.deallocatePage`: one call on pages in use and
  a chain that do not overlap;
* `inv_exec`: the ids in use and the ids of the chain are, together, each id
  of `[1, next_page_id)` once;
* `allocator_safe`: no id in use is handed out, the file grows only when the
  chain is empty, a page reads back as last written.
-/
namespace DbInternals.Storage.Allocator

open Mem

structure State where
  disk : DiskManager
  /-- ghost: the ids handed out and not given back -/
  owned : List Nat
  /-- ghost: the last write to a page since it was handed out -/
  written : Nat → Option Mem

inductive Op
  | allocate (p : Nat)
  | deallocate (p : Nat)
  | write (p : Nat) (data : Mem)
  | read (p : Nat) (data : Mem)

/-- A call that returns; the page argument is in use. -/
inductive Step (s : State) : Op → State → Prop
  | allocate {p : Nat} {d : DiskManager} (h : Ends allocatePage s.disk p d)
      (hn : d.globalMetadata.nextPageId ≤ MAX_PAGES) :
      Step s (.allocate p) ⟨d, p :: s.owned, Function.update s.written p none⟩
  | deallocate {p : Nat} {d : DiskManager} (hp : p ∈ s.owned)
      (h : Ends (deallocatePage p) s.disk ⟨⟩ d) :
      Step s (.deallocate p) ⟨d, s.owned.erase p, Function.update s.written p none⟩
  | write {p : Nat} {data : Mem} {d : DiskManager} (hp : p ∈ s.owned)
      (h : Ends (writePage p data) s.disk ⟨⟩ d) :
      Step s (.write p data) ⟨d, s.owned, Function.update s.written p (some data)⟩
  | read {p : Nat} {data : Mem} {d : DiskManager} (hp : p ∈ s.owned)
      (h : Ends (readPage p) s.disk data d) : Step s (.read p data) ⟨d, s.owned, s.written⟩

/-- Runs from a fresh database. -/
def lts : LTS State Op where
  init s := DiskManager.create none = .ok ⟨⟩ s.disk ∧ s.owned = [] ∧ s.written = fun _ => none
  step := Step

/-! ## The pages in use and the chain -/

/-- The ids in use and the ids of the chain `cs` are different pages of the file. -/
structure Parts (d : DiskManager) (owned : List Nat) (cs : List (Nat × List Nat)) : Prop where
  io : d.io = none
  next_pos : 1 ≤ d.globalMetadata.nextPageId
  next_le : d.globalMetadata.nextPageId ≤ MAX_PAGES
  chain : Chain d d.globalMetadata.freelistHead cs
  nodup : (owned ++ freeIds cs).Nodup
  bounds : ∀ p ∈ owned ++ freeIds cs, 1 ≤ p ∧ p < d.globalMetadata.nextPageId

section
variable {d : DiskManager} {owned : List Nat} {cs : List (Nat × List Nat)} {p : Nat}

theorem Parts.distinct (h : Parts d owned cs) : Distinct (owned ++ freeIds cs) :=
  ⟨h.nodup, fun p hp => by have := h.bounds p hp; have := h.next_le; omega⟩

theorem Parts.distinct_free (h : Parts d owned cs) : Distinct (freeIds cs) :=
  ⟨(List.nodup_append.mp h.nodup).2.1, fun p hp => h.distinct.2 p (by simp [hp])⟩

theorem Parts.owned_lt (h : Parts d owned cs) (hp : p ∈ owned) :
    1 ≤ p ∧ p < d.globalMetadata.nextPageId := h.bounds p (by simp [hp])

/-- A page in use is not in the chain. -/
theorem Parts.not_free (h : Parts d owned cs) (hp : p ∈ owned) : p ∉ freeIds cs := fun hf =>
  (List.nodup_append.mp h.nodup).2.2 p hp p hf rfl

theorem Parts.distinct_cons (h : Parts d owned cs) (hp : p ∈ owned) : Distinct (p :: freeIds cs) := by
  refine ⟨List.nodup_cons.mpr ⟨h.not_free hp, h.distinct_free.1⟩, fun q hq => ?_⟩
  cases List.mem_cons.mp hq with
  | inl e => exact e ▸ h.distinct.2 p (by simp [hp])
  | inr hq => exact h.distinct_free.2 q hq

/-- A page in use keeps its bytes when only pages of `fs` were changed. -/
theorem Parts.owned_page {d' : DiskManager} {fs : List Nat} (h : Parts d owned cs)
    (ht : Taken d d' fs) (hp : p ∈ owned) (hfs : ∀ q ∈ fs, q ≠ p ∧ q ∈ owned ++ freeIds cs) :
    pageAt d' p = pageAt d p := by
  have hmem : p ∈ owned ++ freeIds cs := by simp [hp]
  apply ht.pages p (h.distinct.offset_ne_zero hmem)
  intro q hq
  exact h.distinct.offset_ne hmem (hfs q hq).2 (hfs q hq).1.symm

/-- The same ids, differently shared out. -/
theorem Parts.perm {d' : DiskManager} {owned' : List Nat} {cs' : List (Nat × List Nat)}
    (h : Parts d owned cs) (hio : d'.io = none)
    (hn : d'.globalMetadata.nextPageId = d.globalMetadata.nextPageId)
    (hc : Chain d' d'.globalMetadata.freelistHead cs')
    (hids : (owned' ++ freeIds cs').Perm (owned ++ freeIds cs)) : Parts d' owned' cs' :=
  ⟨hio, hn ▸ h.next_pos, hn ▸ h.next_le, hc, hids.nodup_iff.mpr h.nodup,
    fun p hp => hn ▸ h.bounds p (hids.mem_iff.mp hp)⟩

/-- An id fewer. -/
theorem Parts.sublist {owned' : List Nat} {cs' : List (Nat × List Nat)} (h : Parts d owned cs)
    (hc : Chain d d.globalMetadata.freelistHead cs')
    (hids : (owned' ++ freeIds cs').Sublist (owned ++ freeIds cs)) : Parts d owned' cs' :=
  ⟨h.io, h.next_pos, h.next_le, hc, hids.nodup h.nodup, fun p hp => h.bounds p (hids.subset hp)⟩

/-- Another chain with the same ids or fewer. -/
theorem Parts.fewer {d' : DiskManager} {cs' : List (Nat × List Nat)} (h : Parts d owned cs)
    (hio : d'.io = none) (hg : d'.globalMetadata = d.globalMetadata)
    (hc : Chain d' d.globalMetadata.freelistHead cs')
    (hids : (freeIds cs').Sublist (freeIds cs)) : Parts d' owned cs' := by
  have hids' := hids.append_left owned
  exact ⟨hio, hg ▸ h.next_pos, hg ▸ h.next_le, hg ▸ hc, hids'.nodup h.nodup,
    fun p hp => hg ▸ h.bounds p (hids'.subset hp)⟩

/-- What `allocatePage` does: with an empty chain the file grows, else the
first id of the chain is taken. -/
theorem Parts.allocatePage (h : Parts d owned cs) :
    ∃ f d' cs', Ends Storage.allocatePage d f d' ∧ Taken d d' (freeIds cs) ∧
      (FullTail cs → FullTail cs') ∧
      (cs = [] ∧ cs' = [] ∧ f = d.globalMetadata.nextPageId ∧
          d'.globalMetadata.nextPageId = d.globalMetadata.nextPageId + 1 ∨
        freeIds cs = f :: freeIds cs' ∧
          d'.globalMetadata.nextPageId = d.globalMetadata.nextPageId) ∧
      (d'.globalMetadata.nextPageId ≤ MAX_PAGES → Parts d' (f :: owned) cs') := by
  cases hl : freeIds cs with
  | nil =>
    have hcs : cs = [] := by
      cases cs with
      | nil => rfl
      | cons c cs => simp at hl
    subst hcs
    have hn := h.next_le
    simp only [MAX_PAGES] at hn
    obtain ⟨d', he, ht, hnx, hfl⟩ :=
      allocatePage_new h.io ⟨[], h.chain, rfl⟩ (by omega)
    have hhead : Chain d' d'.globalMetadata.freelistHead [] := by
      rw [hfl.head_nil]; exact .nil
    refine ⟨_, d', [], he, ht, id, .inl ⟨rfl, rfl, rfl, hnx⟩, fun hle => ?_⟩
    have hnew : d.globalMetadata.nextPageId ∉ owned := fun ho =>
      absurd (h.owned_lt ho).2 (Nat.lt_irrefl _)
    have hnd := h.nodup
    rw [freeIds_nil, List.append_nil] at hnd
    refine ⟨ht.io.trans h.io, by omega, hle, hhead, ?_, fun p hp => ?_⟩
    · rw [freeIds_nil, List.append_nil]
      exact List.nodup_cons.mpr ⟨hnew, hnd⟩
    · rw [freeIds_nil, List.append_nil] at hp
      have := h.next_pos
      cases List.mem_cons.mp hp with
      | inl e => omega
      | inr ho => have := h.owned_lt ho; omega
  | cons f fs =>
    obtain ⟨d', cs', he, ht, hnx, hc, rfl, hfull⟩ :=
      allocatePage_chain h.io h.chain hl (hl ▸ h.distinct_free)
    refine ⟨f, d', cs', he, ht, hfull, .inr ⟨rfl, hnx⟩, fun _ => ?_⟩
    apply h.perm (ht.io.trans h.io) hnx hc
    rw [hl]; exact List.perm_middle.symm

/-- The id handed out is not in use. -/
theorem Parts.allocated {d' : DiskManager} (h : Parts d owned cs)
    (he : Ends Storage.allocatePage d p d') : p ≠ 0 ∧ p ∉ owned := by
  obtain ⟨f, d'', cs', he', -, -, hids, -⟩ := h.allocatePage
  obtain ⟨rfl, rfl⟩ := he.unique he'
  cases hids with
  | inl hnew =>
    obtain ⟨-, -, rfl, -⟩ := hnew
    exact ⟨Nat.ne_of_gt h.next_pos, fun ho => absurd (h.owned_lt ho).2 (Nat.lt_irrefl _)⟩
  | inr hpop =>
    have hf : p ∈ freeIds cs := by rw [hpop.1]; simp
    have := (h.bounds p (by simp [hf])).1
    exact ⟨by omega, fun ho => h.not_free ho hf⟩

/-- A page in use is given back: it is the first id of the chain. -/
theorem Parts.pushed (h : Parts d owned cs) (hp : p ∈ owned) :
    ∃ d' cs', Ends (Storage.deallocatePage p) d ⟨⟩ d' ∧ Taken d d' (p :: freeIds cs) ∧
      d'.globalMetadata.nextPageId = d.globalMetadata.nextPageId ∧
      (FullTail cs → FullTail cs') ∧ freeIds cs' = p :: freeIds cs ∧
      (owned.erase p ++ freeIds cs').Perm (owned ++ freeIds cs) ∧ Parts d' (owned.erase p) cs' := by
  obtain ⟨d', cs', he, ht, hnx, hc, hl, hfull⟩ :=
    deallocatePage_chain h.io h.chain (h.owned_lt hp).2 (h.distinct_cons hp)
  have hids : (owned.erase p ++ freeIds cs').Perm (owned ++ freeIds cs) := by
    rw [hl]
    calc (owned.erase p ++ p :: freeIds cs).Perm (p :: owned.erase p ++ freeIds cs) :=
          List.perm_middle
      _ |>.Perm (owned ++ freeIds cs) := (List.perm_cons_erase hp).symm.append_right _
  exact ⟨d', cs', he, ht, hnx, hfull, hl, hids, h.perm (ht.io.trans h.io) hnx hc hids⟩

/-- What `deallocatePage` does on a page in use. -/
theorem Parts.deallocatePage (h : Parts d owned cs) (hp : p ∈ owned) :
    ∃ d' cs', Ends (Storage.deallocatePage p) d ⟨⟩ d' ∧ Taken d d' (p :: freeIds cs) ∧
      d'.globalMetadata.nextPageId = d.globalMetadata.nextPageId ∧
      (FullTail cs → FullTail cs') ∧
      (owned.erase p ++ freeIds cs').Perm (owned ++ freeIds cs) ∧ Parts d' (owned.erase p) cs' := by
  obtain ⟨d', cs', he, ht, hnx, hfull, -, h'⟩ := h.pushed hp
  exact ⟨d', cs', he, ht, hnx, hfull, h'⟩

/-- A write to a page in use leaves the chain alone. -/
theorem Parts.page {data : Mem} {n : Nat} (h : Parts d owned cs) (hp : p ∈ owned)
    (hn : n ≤ PAGE_SIZE) :
    Parts (d.storeFirst data (pageOffset p) n) owned cs := by
  refine h.fewer h.io rfl (Chain.storeFirst h.chain hn fun c hc => ?_) (.refl _)
  have hfree := mem_freeIds_of_mem hc
  exact h.distinct.offset_ne (by simp [hfree]) (by simp [hp]) fun e => h.not_free hp (e ▸ hfree)

theorem Parts.write {data : Mem} (h : Parts d owned cs) (hp : p ∈ owned) :
    Parts (d.store data (pageOffset p)) owned cs := h.page hp (Nat.le_refl PAGE_SIZE)

end

/-! ## Invariant -/

/-- The ids in use and the ids of the chain `cs` share out the file. -/
structure Inv (s : State) (cs : List (Nat × List Nat)) : Prop extends Parts s.disk s.owned cs where
  ids : (s.owned ++ freeIds cs).Perm (List.range' 1 (s.disk.globalMetadata.nextPageId - 1))
  full : FullTail cs
  written : ∀ p data, s.written p = some data →
    p ∈ s.owned ∧ Mapped s.disk p ∧ pageAt s.disk p = pageOf data

section
variable {s s' : State} {cs : List (Nat × List Nat)} {p : Nat}

/-- The written pages after a call that changed the pages `fs` only. -/
theorem Inv.written_of_taken {d : DiskManager} {owned : List Nat} {fs : List Nat} (h : Inv s cs)
    (ht : Taken s.disk d fs) (ho : ∀ q ∈ s.owned, q ≠ p → q ∈ owned)
    (hfs : ∀ r ∈ fs, r = p ∨ r ∈ freeIds cs) (hp : p ∈ fs → p ∈ s.owned ++ freeIds cs) :
    ∀ q data, Function.update s.written p none q = some data →
      q ∈ owned ∧ Mapped d q ∧ pageAt d q = pageOf data := by
  intro q data hq
  have hqp : q ≠ p := by
    intro e
    subst e
    simp at hq
  rw [Function.update_of_ne hqp] at hq
  obtain ⟨hmem, hm, hpage⟩ := h.written q data hq
  refine ⟨ho q hmem hqp, ht.mapped q hm.1 hm, ?_⟩
  rw [h.owned_page ht hmem fun r hr => ?_]
  · exact hpage
  · cases hfs r hr with
    | inl e => exact ⟨fun e' => hqp (e'.symm.trans e), e ▸ hp (e ▸ hr)⟩
    | inr hf => exact ⟨fun e => h.not_free hmem (e ▸ hf), by simp [hf]⟩

theorem Inv.allocate {d : DiskManager} (h : Inv s cs) (he : Ends Storage.allocatePage s.disk p d)
    (hn : d.globalMetadata.nextPageId ≤ MAX_PAGES) :
    ∃ cs', Inv ⟨d, p :: s.owned, Function.update s.written p none⟩ cs' := by
  obtain ⟨f, d', cs', he', ht, hfull, hids, hparts⟩ := h.allocatePage
  obtain ⟨rfl, rfl⟩ := he.unique he'
  have hids' : (p :: s.owned ++ freeIds cs').Perm
      (List.range' 1 (d.globalMetadata.nextPageId - 1)) := by
    cases hids with
    | inl hnew =>
      obtain ⟨rfl, rfl, rfl, hnx⟩ := hnew
      have hold := h.ids
      obtain ⟨n, hn'⟩ := Nat.exists_eq_add_of_le' h.next_pos
      rw [hn'] at hold hnx
      rw [hn', hnx, Nat.add_sub_cancel, List.range'_1_concat]
      rw [Nat.add_sub_cancel] at hold
      apply (List.perm_append_singleton _ _).symm.trans
      rw [Nat.add_comm 1 n]
      exact hold.append_right [n + 1]
    | inr hpop =>
      rw [hpop.2]
      refine .trans ?_ h.ids
      rw [hpop.1]
      exact List.perm_middle.symm
  refine ⟨cs', hparts hn, hids', hfull h.full, ?_⟩
  apply h.written_of_taken ht (fun q hq _ => List.mem_cons_of_mem _ hq) (fun r hr => .inr hr)
  intro hf
  exact List.mem_append_right _ hf

theorem Inv.deallocate {d : DiskManager} (h : Inv s cs) (hp : p ∈ s.owned)
    (he : Ends (Storage.deallocatePage p) s.disk ⟨⟩ d) :
    ∃ cs', Inv ⟨d, s.owned.erase p, Function.update s.written p none⟩ cs' := by
  obtain ⟨d', cs', he', ht, hnx, hfull, hids, hparts⟩ := h.deallocatePage hp
  obtain ⟨-, rfl⟩ := he.unique he'
  refine ⟨cs', hparts, hnx ▸ hids.trans h.ids, hfull h.full, ?_⟩
  refine h.written_of_taken ht (fun q hq hne => (List.mem_erase_of_ne hne).mpr hq) ?_ ?_
  · intro r hr
    exact List.mem_cons.mp hr
  · intro _
    exact List.mem_append_left _ hp

theorem Inv.write {data : Mem} {d : DiskManager} (h : Inv s cs) (hp : p ∈ s.owned)
    (he : Ends (writePage p data) s.disk ⟨⟩ d) :
    Inv ⟨d, s.owned, Function.update s.written p (some data)⟩ cs := by
  have hmem : p ∈ s.owned ++ freeIds cs := by simp [hp]
  have hlt := (h.owned_lt hp).2
  obtain ⟨-, rfl⟩ := he.unique (writePage_ends h.io hlt)
  refine ⟨h.toParts.write hp, h.ids, h.full, fun q data' hq => ?_⟩
  by_cases hqp : q = p
  · subst hqp
    simp only [Function.update_self, Option.some.injEq] at hq
    exact ⟨hp, mapped_store hlt, hq ▸ pageAt_store rfl⟩
  · simp only [Function.update_of_ne hqp] at hq
    obtain ⟨hq', hm, hpage⟩ := h.written q data' hq
    refine ⟨hq', hm.store, ?_⟩
    exact (pageAt_store_of_ne (h.distinct.offset_ne (by simp [hq']) hmem hqp)).trans hpage

theorem Inv.step {o : Op} (h : Inv s cs) (hs : Step s o s') : ∃ cs', Inv s' cs' := by
  cases hs with
  | allocate he hn => exact h.allocate he hn
  | deallocate hp he => exact h.deallocate hp he
  | write hp he => exact ⟨cs, h.write hp he⟩
  | read hp he =>
    -- a read changes nothing
    have hd := (readPage_same h.io _).ends rfl he
    subst hd
    exact ⟨cs, h⟩

theorem init_ends : DiskManager.create none = .ok ⟨⟩ s.disk →
    s.disk.globalMetadata = ⟨MAGIC_NUMBER, 0, 0, INVALID_PAGE_ID, 1⟩ ∧ s.disk.io = none := by
  intro h
  have he : Ends updateMetadata (⟨⟨MAGIC_NUMBER, 0, 0, INVALID_PAGE_ID, 1⟩, Mem.zero, 0, none⟩ :
      DiskManager) ⟨⟩ s.disk := h
  obtain ⟨-, hd⟩ := he.unique (updateMetadata_ends rfl)
  rw [hd]
  exact ⟨rfl, rfl⟩

theorem inv_init (h : lts.init s) : Inv s [] := by
  obtain ⟨hc, ho, hw⟩ := h
  obtain ⟨hg, hio⟩ := init_ends hc
  have hparts : Parts s.disk s.owned [] := by
    rw [ho]
    refine ⟨hio, Nat.le_of_eq (congrArg GlobalMetadata.nextPageId hg).symm, by rw [hg]; decide,
      by rw [hg]; exact .nil, by simp, ?_⟩
    intro p hp
    simp at hp
  refine ⟨hparts, by rw [hg, ho]; rfl, fun c hc => by simp at hc, fun p data hp => ?_⟩
  rw [hw] at hp
  cases hp

end

/-! ## Runs -/

theorem inv_inductive : lts.Inductive fun s => ∃ cs, Inv s cs where
  init s h := ⟨[], inv_init h⟩
  step s o s' h hs := by
    obtain ⟨cs, h⟩ := h
    exact h.step hs

theorem inv_exec {ls : List Op} {s : State} (h : lts.Exec ls s) : ∃ cs, Inv s cs :=
  inv_inductive.exec h

/-- What the callers rely on in the state `s`. -/
structure Safe (s : State) : Prop where
  /-- every id below `next_page_id` is in use or once in the chain, which
  ends, has no page twice and is full behind its head -/
  chain : ∃ cs, Chain s.disk s.disk.globalMetadata.freelistHead cs ∧ (cs.map Prod.fst).Nodup ∧
    (∀ c ∈ cs.tail, c.2.length = MAX_FREE_IDS) ∧
    (∀ p, 1 ≤ p → p < s.disk.globalMetadata.nextPageId →
      p ∈ s.owned ∧ p ∉ freeIds cs ∨ p ∉ s.owned ∧ (freeIds cs).count p = 1)
  /-- an allocation returns an id that is not in use, and grows the file only
  when every id is in use -/
  allocate : ∃ p d, Ends allocatePage s.disk p d ∧ p ≠ 0 ∧ p ∉ s.owned ∧
    (d.globalMetadata.nextPageId ≠ s.disk.globalMetadata.nextPageId →
      ∀ q, 1 ≤ q → q < s.disk.globalMetadata.nextPageId → q ∈ s.owned)
  /-- a page in use can be given back and written -/
  deallocate : ∀ p ∈ s.owned, ∃ d, Ends (deallocatePage p) s.disk ⟨⟩ d
  write : ∀ p ∈ s.owned, ∀ data, ∃ d, Ends (writePage p data) s.disk ⟨⟩ d
  /-- a page reads back as last written -/
  read : ∀ p ∈ s.owned, ∀ data, s.written p = some data →
    Ends (readPage p) s.disk (pageOf data) s.disk

section
variable {s : State} {cs : List (Nat × List Nat)}

theorem nodup_pages (h : (freeIds cs).Nodup) : (cs.map Prod.fst).Nodup := by
  refine List.Sublist.nodup ?_ h
  induction cs with
  | nil => exact .slnil
  | cons c cs ih =>
    rw [freeIds_cons, List.map_cons]
    have hn : (freeIds cs).Nodup := by
      rw [freeIds_cons, List.nodup_append] at h
      exact (List.nodup_cons.mp h.2.1).2
    exact ((ih hn).cons_cons c.1).trans (List.sublist_append_right _ _)

theorem Inv.safe (h : Inv s cs) : Safe s where
  chain := by
    refine ⟨cs, h.chain, nodup_pages h.distinct_free.1, h.full, fun p h1 hp => ?_⟩
    have hmem : p ∈ s.owned ++ freeIds cs := by
      rw [h.ids.mem_iff, List.mem_range'_1]; omega
    cases List.mem_append.mp hmem with
    | inl ho => exact .inl ⟨ho, h.not_free ho⟩
    | inr hf =>
      exact .inr ⟨fun ho => h.not_free ho hf, List.count_eq_one_of_mem h.distinct_free.1 hf⟩
  allocate := by
    obtain ⟨f, d, cs', he, -, -, hids, -⟩ := h.allocatePage
    obtain ⟨h0, hf⟩ := h.allocated he
    refine ⟨f, d, he, h0, hf, fun hne q h1 hq => ?_⟩
    cases hids with
    | inl hnew =>
      obtain ⟨rfl, -, -, -⟩ := hnew
      have hmem : q ∈ s.owned ++ freeIds [] := by
        rw [h.ids.mem_iff, List.mem_range'_1]; omega
      simpa using hmem
    | inr hpop => exact absurd hpop.2 hne
  deallocate p hp := by
    obtain ⟨d, _, he, _⟩ := h.deallocatePage hp
    exact ⟨d, he⟩
  write p hp data := ⟨_, writePage_ends h.io (h.owned_lt hp).2⟩
  read p hp data hw := by
    obtain ⟨-, hm, hpage⟩ := h.written p data hw
    have he := readPage_ends h.io hm
    rw [hpage] at he
    exact he

end

/-- In every run, every state is safe for the callers. -/
theorem allocator_safe {ls : List Op} {s : State} (h : lts.Exec ls s) : Safe s := by
  obtain ⟨cs, hi⟩ := inv_exec h
  exact hi.safe

/-- A new file. -/
def fresh : State where
  disk := after updateMetadata ⟨⟨MAGIC_NUMBER, 0, 0, INVALID_PAGE_ID, 1⟩, Mem.zero, 0, none⟩
  owned := []
  written := fun _ => none

def State.allocated (s : State) (p : Nat) : State :=
  ⟨after allocatePage s.disk, p :: s.owned, Function.update s.written p none⟩

def State.deallocated (s : State) (p : Nat) : State :=
  ⟨after (deallocatePage p) s.disk, s.owned.erase p, Function.update s.written p none⟩

theorem allocator_safe_three : Safe (((fresh.allocated 1).allocated 2).deallocated 1) := by
  have h0 : lts.Exec [] fresh := .nil ⟨rfl, rfl, rfl⟩
  have h1 : lts.Exec [.allocate 1] (fresh.allocated 1) :=
    h0.snoc (.allocate rfl (by decide +kernel))
  have h2 : lts.Exec [.allocate 1, .allocate 2] ((fresh.allocated 1).allocated 2) :=
    h1.snoc (.allocate rfl (by decide +kernel))
  exact allocator_safe (h2.snoc (.deallocate (by decide) rfl))

end DbInternals.Storage.Allocator
