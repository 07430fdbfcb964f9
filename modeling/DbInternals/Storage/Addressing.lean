import Mathlib.Data.Set.Lattice
import Mathlib.Order.Interval.Set.Basic
import DbInternals.Storage.DiskPages
import Mathlib.Order.CompletePartialOrder

/-!
# Page addresses

Every call finds a page at `page_id * PAGE_SIZE`, computed in 32 bits.

Results:
* `writePage_writes`, `allocatePage_writes`, `deallocatePage_writes`: the
  bytes a call can change are those of page 0, the free-list head and its
  argument;
* `pagesApart_iff`: two ids below `next_page_id` never share a byte exactly
  when there are at most `2 ^ 20` of them;
* `page_write_aliases`: with one page more, a write to the last page lands on
  the metadata.
-/
namespace DbInternals.Storage

open Mem

/-- The bytes of the file that belong to the page `p`. -/
def pageRange (p : Nat) : Set Nat := Set.Ico (pageOffset p) (pageOffset p + PAGE_SIZE)

/-! ## What a call can change -/

/-- Outside of `A` the file holds `b`. -/
def SameOutside (A : Set Nat) (b : Mem) (d : DiskManager) : Prop := ∀ a, a ∉ A → d.bytes a = b a

theorem SameOutside.refl (A : Set Nat) (d : DiskManager) : SameOutside A d.bytes d :=
  fun _ _ => rfl

section
variable {A : Set Nat} {b : Mem}

theorem syscall_writes : Keeps (SameOutside A b) syscall := by
  intro d hd
  unfold syscall
  cases h : d.io with
  | none => exact hd
  | some n => cases n <;> exact hd

theorem pread_writes (offset : Nat) : Keeps (SameOutside A b) (pread offset) :=
  syscall_writes.bind fun _ => .ite (.bind .get fun _ => .pure _) (.pure _)

theorem pwrite_writes {p : Nat} (hA : pageRange p ⊆ A) (data : Mem) :
    Keeps (SameOutside A b) (pwrite data (pageOffset p)) := by
  refine syscall_writes.bind fun _ => .ite (.bind (.modify ?_) fun _ => .pure _) (.pure _)
  intro d hd a ha
  have hout : a ∉ pageRange p := fun h => ha (hA h)
  simp only [pageRange, Set.mem_Ico, not_and, Nat.not_lt] at hout
  have : a < pageOffset p ∨ pageOffset p + PAGE_SIZE ≤ a := by
    by_cases h : pageOffset p ≤ a
    · exact .inr (hout h)
    · exact .inl (by omega)
  exact (copy_out this).trans (hd a ha)

theorem handleReadError_writes (n : Option Nat) (p : Nat) :
    Keeps (SameOutside A b) (handleReadError n p) := by
  cases n with
  | none => exact .throw _
  | some n => exact .ite (.pure _) (.throw _)

theorem handleWriteError_writes (w : Bool) (p : Nat) :
    Keeps (SameOutside A b) (handleWriteError w p) := .ite (.pure _) (.throw _)

theorem updateMetadata_writes (hA : pageRange 0 ⊆ A) : Keeps (SameOutside A b) updateMetadata :=
  .bind .get fun _ => (pwrite_writes hA _).bind fun _ => handleWriteError_writes _ _

/-- `writePage` changes the bytes of its page only. -/
theorem writePage_writes {p : Nat} (hA : pageRange p ⊆ A) (data : Mem) :
    Keeps (SameOutside A b) (writePage p data) := by
  have hw : Keeps (SameOutside A b) (do
      unless ← pwrite data (pageOffset p) do
        throw (.systemError s!"Critical: pwrite failed on page {p}")) :=
    (pwrite_writes hA _).bind fun _ => .ite (.pure _) (.throw _)
  unfold writePage
  exact .bind .get fun _ => .ite (.bind (.throw _) fun _ => hw) hw

/-- `allocatePage` changes page 0 and the head of the free list only. -/
theorem allocatePage_writes {head : Nat} (h0 : pageRange 0 ⊆ A)
    (hA : head ≠ INVALID_PAGE_ID → pageRange head ⊆ A) :
    Triple (fun d => d.globalMetadata.freelistHead = head ∧ SameOutside A b d) allocatePage
      (fun _ => SameOutside A b) (SameOutside A b) := by
  unfold allocatePage
  refine Triple.get_bind fun d hd => Triple.ite (fun _ => ?_) fun hne => ?_
  · have : Keeps (SameOutside A b) (do
        let newId := (← get).globalMetadata.nextPageId
        modify fun d => { d with
          globalMetadata := { d.globalMetadata with nextPageId := (newId + 1) % 2 ^ 32 } }
        updateMetadata
        return newId) :=
      .bind .get fun _ => .bind (.modify fun _ h => h) fun _ =>
        (updateMetadata_writes h0).bind fun _ => .pure _
    exact this.conseq (fun s e => e ▸ hd.2) (fun _ _ h => h) fun _ h => h
  · -- the head's own page is the only other one written
    rw [hd.1] at hne ⊢
    refine Triple.conseq (P := SameOutside A b) ?_ (fun s e => e ▸ hd.2) (fun _ _ h => h)
      fun _ h => h
    refine (pread_writes _).bind fun r => (handleReadError_writes _ _).bind fun _ => ?_
    refine .ite ?_ (.ite (.throw _) ?_)
    · exact .bind (.modify fun _ h => h) fun _ => (updateMetadata_writes h0).bind fun _ => .pure _
    · exact (pwrite_writes (hA hne) _).bind fun _ => (handleWriteError_writes _ _).bind fun _ =>
        (updateMetadata_writes h0).bind fun _ => .pure _

/-- `deallocatePage` changes its page, page 0 and the head of the free list only. -/
theorem deallocatePage_writes {p head : Nat} (h0 : pageRange 0 ⊆ A) (hp : pageRange p ⊆ A)
    (hA : head ≠ INVALID_PAGE_ID → pageRange head ⊆ A) :
    Triple (fun d => d.globalMetadata.freelistHead = head ∧ SameOutside A b d) (deallocatePage p)
      (fun _ => SameOutside A b) (SameOutside A b) := by
  have hnew : ∀ next, Keeps (SameOutside A b) (do
      let w ← pwrite ((Mem.zero.writeLE 0 4 next).writeLE 4 4 0) (pageOffset p)
      handleWriteError w p
      modify fun d => { d with globalMetadata := { d.globalMetadata with freelistHead := p } }
      updateMetadata) := fun next =>
    (pwrite_writes hp _).bind fun _ => (handleWriteError_writes _ _).bind fun _ =>
      .bind (.modify fun _ h => h) fun _ => updateMetadata_writes h0
  unfold deallocatePage
  refine Triple.get_bind fun d hd => ?_
  refine Triple.conseq (P := SameOutside A b) ?_ (fun s e => e ▸ hd.2) (fun _ _ h => h)
    fun _ h => h
  rw [hd.1]
  refine Triple.ite (fun _ => hnew _) fun hne => ?_
  refine (pread_writes _).bind fun r => (handleReadError_writes _ _).bind fun _ => ?_
  refine .ite (hnew _) (.ite (.throw _) ?_)
  exact (pwrite_writes (hA hne) _).bind fun _ => handleWriteError_writes _ _

end

/-! ## When ids do not share bytes -/

/-- The ids below `next_page_id` have bytes of their own, and a call changes
no page but its argument, page 0 and the head of the free list. -/
structure PagesApart (g : GlobalMetadata) : Prop where
  ranges : ∀ p q, p < g.nextPageId → q < g.nextPageId → p ≠ q →
    Disjoint (pageRange p) (pageRange q)
  writePage : ∀ d p q data, d.globalMetadata = g → p < g.nextPageId → q < g.nextPageId → q ≠ p →
    pageAt (after (writePage p data) d) q = pageAt d q
  allocatePage : ∀ d q, d.globalMetadata = g → g.freelistHead < g.nextPageId ∨
    g.freelistHead = INVALID_PAGE_ID → q < g.nextPageId → q ≠ 0 → q ≠ g.freelistHead →
    pageAt (after allocatePage d) q = pageAt d q
  deallocatePage : ∀ d p q, d.globalMetadata = g → g.freelistHead < g.nextPageId ∨
    g.freelistHead = INVALID_PAGE_ID → p < g.nextPageId → q < g.nextPageId → q ≠ 0 →
    q ≠ g.freelistHead → q ≠ p → pageAt (after (deallocatePage p) d) q = pageAt d q

section
variable {g : GlobalMetadata}

/-- A page none of whose bytes were changed. -/
theorem SameOutside.pageAt {A : Set Nat} {d d' : DiskManager} {q : Nat}
    (h : SameOutside A d.bytes d') (hA : Disjoint A (pageRange q)) : pageAt d' q = pageAt d q := by
  funext a
  by_cases ha : a < PAGE_SIZE
  · rw [Storage.pageAt, Storage.pageAt, pageOf_apply ha, pageOf_apply ha]
    refine h _ fun hin => Set.disjoint_left.mp hA hin ?_
    simp only [pageRange, Set.mem_Ico]; omega
  · rw [short_pageAt _ _ a (by omega), short_pageAt _ _ a (by omega)]

theorem pageRange_disjoint {p q : Nat} (hp : p < MAX_PAGES) (hq : q < MAX_PAGES) (hne : p ≠ q) :
    Disjoint (pageRange p) (pageRange q) := by
  have := pageOffset_apart fun e => hne (pageOffset_inj hp hq e)
  rw [Set.disjoint_left]
  intro a ha hb
  simp only [pageRange, Set.mem_Ico] at ha hb
  omega

/-- The pages of the free-list head: none when the list is empty. -/
def headRange (g : GlobalMetadata) : Set Nat :=
  if g.freelistHead = INVALID_PAGE_ID then ∅ else pageRange g.freelistHead

theorem headRange_disjoint {q : Nat} (hn : g.nextPageId ≤ MAX_PAGES)
    (hh : g.freelistHead < g.nextPageId ∨ g.freelistHead = INVALID_PAGE_ID)
    (hq : q < g.nextPageId) (hne : q ≠ g.freelistHead) : Disjoint (headRange g) (pageRange q) := by
  unfold headRange
  split
  · exact Set.empty_disjoint _
  · cases hh with
    | inl h => exact pageRange_disjoint (by omega) (by omega) hne.symm
    | inr h => contradiction

theorem subset_headRange (hne : g.freelistHead ≠ INVALID_PAGE_ID) :
    pageRange g.freelistHead ⊆ headRange g := by
  rw [headRange, if_neg hne]

theorem pagesApart_of_le (hn : g.nextPageId ≤ MAX_PAGES) : PagesApart g where
  ranges p q hp hq hne := pageRange_disjoint (by omega) (by omega) hne
  writePage d p q data hd hp hq hne := by
    have hw := (writePage_writes (Set.Subset.refl (pageRange p)) data).after (.refl _ d)
    exact hw.pageAt (pageRange_disjoint (by omega) (by omega) hne.symm)
  allocatePage d q hd hh hq h0 hne := by
    have hw := (allocatePage_writes (A := pageRange 0 ∪ headRange g) Set.subset_union_left
      fun h => (subset_headRange h).trans Set.subset_union_right).after
        ⟨congrArg GlobalMetadata.freelistHead hd, .refl _ d⟩
    apply hw.pageAt
    rw [Set.disjoint_union_left]
    exact ⟨pageRange_disjoint (by omega) (by omega) h0.symm, headRange_disjoint hn hh hq hne⟩
  deallocatePage d p q hd hh hp hq h0 hne hqp := by
    have hw := (deallocatePage_writes (A := pageRange 0 ∪ headRange g ∪ pageRange p)
      (Set.subset_union_left.trans Set.subset_union_left) Set.subset_union_right
      fun h => (subset_headRange h).trans (Set.subset_union_right.trans Set.subset_union_left)).after
        ⟨congrArg GlobalMetadata.freelistHead hd, .refl _ d⟩
    apply hw.pageAt
    rw [Set.disjoint_union_left, Set.disjoint_union_left]
    exact ⟨⟨pageRange_disjoint (by omega) (by omega) h0.symm, headRange_disjoint hn hh hq hne⟩,
      pageRange_disjoint (by omega) (by omega) hqp.symm⟩

/-- Page ids address bytes of their own exactly as long as every offset fits
in 32 bits. -/
theorem pagesApart_iff (g : GlobalMetadata) : PagesApart g ↔ g.nextPageId ≤ MAX_PAGES := by
  constructor
  · intro h
    by_contra hn
    have hlt : 0 < g.nextPageId ∧ MAX_PAGES < g.nextPageId := ⟨by omega, by omega⟩
    have hd := h.ranges 0 MAX_PAGES hlt.1 hlt.2 (by decide)
    -- both start at offset 0
    have h0 : (0 : Nat) ∈ pageRange 0 := ⟨Nat.le_refl _, by decide⟩
    have h1 : (0 : Nat) ∈ pageRange MAX_PAGES := ⟨by decide, by decide⟩
    exact Set.disjoint_left.mp hd h0 h1
  · intro hn
    exact pagesApart_of_le hn

/-- A file of `2 ^ 20 + 1` pages. -/
def manyPages : DiskManager :=
  { globalMetadata := ⟨MAGIC_NUMBER, 0, 0, INVALID_PAGE_ID, 2 ^ 20 + 1⟩
    bytes := (GlobalMetadata.bytes ⟨MAGIC_NUMBER, 0, 0, INVALID_PAGE_ID, 2 ^ 20 + 1⟩)
    size := 4096 * 2 ^ 20
    io := none }

/-- Writing the last page changes the metadata page. -/
theorem page_write_aliases :
    2 ^ 20 < manyPages.globalMetadata.nextPageId ∧
      pageAt (after (writePage (2 ^ 20) Mem.zero) manyPages) 0 ≠ pageAt manyPages 0 ∧
      ¬ PagesApart manyPages.globalMetadata := by
  refine ⟨by decide, fun h => ?_, fun h => ?_⟩
  · exact absurd (congrFun h 0) (by decide)
  · have hd := h.ranges 0 (2 ^ 20) (by decide) (by decide) (by decide)
    have h0 : (0 : Nat) ∈ pageRange 0 := ⟨Nat.le_refl _, by decide⟩
    have h1 : (0 : Nat) ∈ pageRange (2 ^ 20) := ⟨by decide, by decide⟩
    exact Set.disjoint_left.mp hd h0 h1

end

end DbInternals.Storage
