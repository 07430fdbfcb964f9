import DbInternals.Core.Hoare
import DbInternals.Storage.DiskManager

/-!
# Pages on disk

`pageAt d p` is what `readPage p` returns. Pages are told apart by their
offset, so all of this is stated for offsets, and `pageOffset_inj` says when
distinct ids have distinct ones: below `2 ^ 20` pages.

Results:
* `readPage_ends`, `writePage_ends`, `pageAt_store`: a page reads back as
  written, every page at another offset is unchanged;
* `pageAt_storeFirst`: a page of which only the first bytes are written;
* `allocatePage_ends`: with an empty free list the next id is taken and only
  the page at offset 0 changes.
-/
namespace DbInternals.Storage

open Mem

/-! ## Offsets -/

/-- The most pages whose offsets fit in 32 bits. -/
def MAX_PAGES : Nat := 2 ^ 20

theorem pageOffset_eq {p : Nat} (h : p < MAX_PAGES) : pageOffset p = p * 4096 := by
  have h' : p < 2 ^ 20 := h
  simp only [pageOffset, PAGE_SIZE]; omega

theorem pageOffset_inj {p q : Nat} (hp : p < MAX_PAGES) (hq : q < MAX_PAGES)
    (h : pageOffset p = pageOffset q) : p = q := by
  rw [pageOffset_eq hp, pageOffset_eq hq] at h
  exact Nat.eq_of_mul_eq_mul_right (by decide) h

theorem pageOffset_zero : pageOffset 0 = 0 := rfl

/-- Distinct offsets are a page apart. -/
theorem pageOffset_apart {p q : Nat} (h : pageOffset p ≠ pageOffset q) :
    pageOffset p + PAGE_SIZE ≤ pageOffset q ∨ pageOffset q + PAGE_SIZE ≤ pageOffset p := by
  simp only [pageOffset, PAGE_SIZE] at *; omega

/-! ## Page buffers -/

/-- The first page of a buffer. -/
def pageOf (data : Mem) : Mem := Mem.zero.copy 0 data PAGE_SIZE

/-- A buffer that is zero past its page. -/
def Short (data : Mem) : Prop := ∀ a, PAGE_SIZE ≤ a → data a = 0

theorem short_pageOf (data : Mem) : Short (pageOf data) := fun a ha => by
  rw [pageOf, copy_out (by omega)]; rfl

theorem pageOf_apply {data : Mem} {a : Nat} (h : a < PAGE_SIZE) : pageOf data a = data a := by
  rw [pageOf, copy_in (Nat.zero_le a) (by omega), Nat.sub_zero]

theorem pageOf_short {data : Mem} (h : Short data) : pageOf data = data := by
  funext a
  by_cases ha : a < PAGE_SIZE
  · exact pageOf_apply ha
  · rw [short_pageOf _ a (by omega), h a (by omega)]

/-- The page `p` of the file. -/
def pageAt (d : DiskManager) (p : Nat) : Mem := pageOf (d.bytes.shift (pageOffset p))

theorem short_pageAt (d : DiskManager) (p : Nat) : Short (pageAt d p) := short_pageOf _

/-- The page exists in the file. -/
def Mapped (d : DiskManager) (p : Nat) : Prop :=
  p < d.globalMetadata.nextPageId ∧ pageOffset p + PAGE_SIZE ≤ d.size

/-- The file after the bytes of `data` were stored at `offset`. -/
def DiskManager.store (d : DiskManager) (data : Mem) (offset : Nat) : DiskManager :=
  { d with bytes := d.bytes.copy offset data PAGE_SIZE, size := max d.size (offset + PAGE_SIZE) }

/-- The file after the first `n` bytes of `data` were written at `offset`. -/
def DiskManager.storeFirst (d : DiskManager) (data : Mem) (offset n : Nat) : DiskManager :=
  { d with bytes := d.bytes.copy offset data n,
           size := if n = 0 then d.size else max d.size (offset + n) }

section
variable {d : DiskManager} {p q n : Nat} {data : Mem} {offset : Nat}

@[simp] theorem store_globalMetadata : (d.store data offset).globalMetadata = d.globalMetadata := rfl

@[simp] theorem store_io : (d.store data offset).io = d.io := rfl

/-- A write at another offset leaves the page alone. -/
theorem pageAt_storeFirst_of_ne (hn : n ≤ PAGE_SIZE) (h : pageOffset p ≠ pageOffset q) :
    pageAt (d.storeFirst data (pageOffset q) n) p = pageAt d p := by
  funext a
  by_cases ha : a < PAGE_SIZE
  · have := pageOffset_apart h
    rw [pageAt, pageAt, pageOf_apply ha, pageOf_apply ha]
    exact copy_out (by omega)
  · rw [short_pageAt _ _ a (by omega), short_pageAt _ _ a (by omega)]

theorem pageAt_storeFirst (hn : n ≤ PAGE_SIZE) :
    pageAt (d.storeFirst data (pageOffset p) n) p = (pageAt d p).copy 0 data n := by
  funext a
  by_cases ha : a < PAGE_SIZE
  · rw [pageAt, pageOf_apply ha]
    by_cases hc : a < n
    · apply (copy_in (by omega) (by omega)).trans
      rw [copy_in (Nat.zero_le a) (by omega), Nat.add_sub_cancel_left, Nat.sub_zero]
    · apply (copy_out (by omega)).trans
      rw [copy_out (by omega), pageAt, pageOf_apply ha]
      rfl
  · rw [short_pageAt _ _ a (by omega), copy_out (by omega), short_pageAt _ _ a (by omega)]

/-- A store at another offset leaves the page alone. -/
theorem pageAt_store_of_ne (h : pageOffset p ≠ pageOffset q) :
    pageAt (d.store data (pageOffset q)) p = pageAt d p :=
  pageAt_storeFirst_of_ne (Nat.le_refl PAGE_SIZE) h

/-- A store at the page's offset is read back. -/
theorem pageAt_store (h : pageOffset p = pageOffset q) :
    pageAt (d.store data (pageOffset q)) p = pageOf data := by
  funext a
  by_cases ha : a < PAGE_SIZE
  · rw [pageAt, pageOf_apply ha, pageOf_apply ha, h]
    apply (copy_in (by omega) (by omega)).trans
    rw [Nat.add_sub_cancel_left]
  · rw [short_pageAt _ _ a (by omega), short_pageOf _ a (by omega)]

theorem Mapped.storeFirst {offset : Nat} (h : Mapped d p) : Mapped (d.storeFirst data offset n) p := by
  refine ⟨h.1, ?_⟩
  have := h.2
  simp only [DiskManager.storeFirst]
  split
  · exact h.2
  · omega

theorem Mapped.store (h : Mapped d p) : Mapped (d.store data offset) p :=
  h.storeFirst (n := PAGE_SIZE)

theorem mapped_store (h : p < d.globalMetadata.nextPageId) :
    Mapped (d.store data (pageOffset p)) p := ⟨h, Nat.le_max_right ..⟩

/-! ## Calls that succeed -/

theorem syscall_ends (hio : d.io = none) : Ends syscall d true d := by
  rw [Ends, syscall, hio]

theorem pwrite_ends (hio : d.io = none) : Ends (pwrite data offset) d true (d.store data offset) :=
  (syscall_ends hio).bind rfl

theorem pread_ends (hio : d.io = none) (h : pageOffset p + PAGE_SIZE ≤ d.size) :
    Ends (pread (pageOffset p)) d (some (PAGE_SIZE, pageAt d p)) d := by
  apply (syscall_ends hio).bind
  have : min PAGE_SIZE (d.size - pageOffset p) = PAGE_SIZE := by omega
  change EStateM.Result.ok (some (min PAGE_SIZE (d.size - pageOffset p), Mem.zero.copy 0 _
    (min PAGE_SIZE (d.size - pageOffset p)))) d = _
  rw [this]; rfl

theorem readPage_ends (hio : d.io = none) (h : Mapped d p) :
    Ends (readPage p) d (pageAt d p) d := by
  unfold readPage
  apply (Ends.get d).bind
  rw [if_neg (Nat.not_le.mpr h.1)]
  exact (pread_ends hio h.2).bind rfl

theorem writePage_ends (hio : d.io = none) (h : p < d.globalMetadata.nextPageId) :
    Ends (writePage p data) d ⟨⟩ (d.store data (pageOffset p)) := by
  unfold writePage
  apply (Ends.get d).bind
  rw [if_neg (Nat.not_le.mpr h)]
  exact (pwrite_ends hio).bind rfl

/-! ## Calls with system calls left -/

section
variable {n : Nat}

theorem syscall_spends (hio : d.io = some (n + 1)) : Ends syscall d true { d with io := some n } := by
  rw [Ends, syscall, hio]

theorem pwrite_spends (hio : d.io = some (n + 1)) :
    Ends (pwrite data offset) d true { d.store data offset with io := some n } :=
  (syscall_spends hio).bind rfl

theorem readPage_spends (hio : d.io = some (n + 1)) (h : Mapped d p) :
    Ends (readPage p) d (pageAt d p) { d with io := some n } := by
  have hread : Ends (pread (pageOffset p)) d (some (PAGE_SIZE, pageAt d p)) { d with io := some n } := by
    apply (syscall_spends hio).bind
    have : min PAGE_SIZE (d.size - pageOffset p) = PAGE_SIZE := by have := h.2; omega
    change EStateM.Result.ok (some (min PAGE_SIZE (d.size - pageOffset p), Mem.zero.copy 0 _
      (min PAGE_SIZE (d.size - pageOffset p)))) _ = _
    rw [this]; rfl
  unfold readPage
  apply (Ends.get d).bind
  rw [if_neg (Nat.not_le.mpr h.1)]
  exact hread.bind rfl

theorem writePage_spends (hio : d.io = some (n + 1)) (h : p < d.globalMetadata.nextPageId) :
    Ends (writePage p data) d ⟨⟩ { d.store data (pageOffset p) with io := some n } := by
  unfold writePage
  apply (Ends.get d).bind
  rw [if_neg (Nat.not_le.mpr h)]
  exact (pwrite_spends hio).bind rfl

/-- A write succeeds where a system call is left. -/
theorem writePage_left (hio : d.io ≠ some 0) (h : p < d.globalMetadata.nextPageId) :
    ∃ m, Ends (writePage p data) d ⟨⟩ { d.store data (pageOffset p) with io := m } := by
  cases hd : d.io with
  | none => exact ⟨d.io, writePage_ends hd h⟩
  | some n =>
    cases n with
    | zero => exact absurd hd hio
    | succ n => exact ⟨some n, writePage_spends hd h⟩

/-- A write changes nothing where none is left. -/
theorem writePage_out (hio : d.io = some 0) : ∃ e, writePage p data d = .error e d := by
  have hw : pwrite data (pageOffset p) d = .ok false d :=
    bind_ok (show syscall d = .ok false d by rw [syscall, hio])
  unfold writePage
  by_cases hp : d.globalMetadata.nextPageId ≤ p
  · refine ⟨.runtimeError s!"Attempted to write to unallocated page: {p}", ?_⟩
    apply (bind_ok (Ends.get d)).trans
    rw [if_pos hp]
    rfl
  · refine ⟨.systemError s!"Critical: pwrite failed on page {p}", ?_⟩
    apply (bind_ok (Ends.get d)).trans
    rw [if_neg hp]
    exact (bind_ok hw).trans rfl

end

/-- A page is written only if it is allocated. -/
theorem writePage_lt {d' : DiskManager} (h : Ends (writePage p data) d () d') :
    p < d.globalMetadata.nextPageId := by
  unfold writePage at h
  replace h := Ends.rest (Ends.get d) h
  by_contra hp
  rw [if_pos (Nat.le_of_not_lt hp)] at h
  cases h

/-- A write that returns. -/
theorem writePage_stores {d' : DiskManager} (h : Ends (writePage p data) d () d') :
    ∃ m, d' = { d.store data (pageOffset p) with io := m } := by
  have hio : d.io ≠ some 0 := by
    intro h0
    obtain ⟨e, he⟩ : ∃ e, writePage p data d = .error e d := writePage_out h0
    cases he.symm.trans h
  obtain ⟨m, hm⟩ : ∃ m, Ends (writePage p data) d () { d.store data (pageOffset p) with io := m } :=
    writePage_left hio (writePage_lt h)
  exact ⟨m, (h.unique hm).2⟩

/-- A write that returns, while no system call fails. -/
theorem writePage_ok {d' : DiskManager} (hio : d.io = none) (h : Ends (writePage p data) d () d') :
    d' = d.store data (pageOffset p) := (h.unique (writePage_ends hio (writePage_lt h))).2

/-- A read that returns, while no system call fails. -/
theorem readPage_ok {d' : DiskManager} {buf : Mem} (hio : d.io = none)
    (h : Ends (readPage p) d buf d') : Mapped d p ∧ buf = pageAt d p ∧ d' = d := by
  have hm : Mapped d p := by
    unfold readPage at h
    replace h := Ends.rest (Ends.get d) h
    by_cases hp : p < d.globalMetadata.nextPageId
    · rw [if_neg (Nat.not_le.mpr hp)] at h
      have hread : Ends (pread (pageOffset p)) d (some (min PAGE_SIZE (d.size - pageOffset p),
          Mem.zero.copy 0 (d.bytes.shift (pageOffset p)) (min PAGE_SIZE (d.size - pageOffset p)))) d :=
        (syscall_ends hio).bind rfl
      replace h := Ends.rest hread h
      obtain ⟨hn, -⟩ | ⟨-, h⟩ := Ends.ite h
      · refine ⟨hp, ?_⟩
        simp only [PAGE_SIZE] at hn ⊢
        omega
      obtain ⟨-, h⟩ | ⟨-, h⟩ := Ends.ite h
      · cases h
      · cases h
    · rw [if_pos (Nat.le_of_not_lt hp)] at h
      cases h
  obtain ⟨rfl, rfl⟩ := h.unique (readPage_ends hio hm)
  exact ⟨hm, rfl, rfl⟩

theorem syscall_same {d' : DiskManager} {b : Bool} (h : Ends syscall d b d') :
    ∃ m, d' = { d with io := m } := by
  unfold Ends syscall at h
  split at h <;> cases h <;> exact ⟨_, rfl⟩

/-- A read that returns, whether or not later system calls fail. -/
theorem readPage_reads {d' : DiskManager} {buf : Mem} (h : Ends (readPage p) d buf d') :
    buf = pageAt d p ∧ ∃ m, d' = { d with io := m } := by
  unfold readPage at h
  replace h := Ends.rest (Ends.get d) h
  by_cases hp : p < d.globalMetadata.nextPageId
  · rw [if_neg (Nat.not_le.mpr hp)] at h
    obtain ⟨r, d₁, hread, h⟩ := Ends.bind_iff.mp h
    unfold pread at hread
    obtain ⟨b, d₂, hsys, hread⟩ := Ends.bind_iff.mp hread
    obtain ⟨m, rfl⟩ := syscall_same hsys
    cases b with
    | false =>
      cases hread
      cases h
    | true =>
      cases hread
      simp only at h
      obtain ⟨hn, h⟩ | ⟨-, h⟩ := Ends.ite h
      · cases h
        rw [hn]
        exact ⟨rfl, m, rfl⟩
      · obtain ⟨-, h⟩ | ⟨-, h⟩ := Ends.ite h
        · cases h
        · cases h
  · rw [if_pos (Nat.le_of_not_lt hp)] at h
    cases h

theorem updateMetadata_ends (hio : d.io = none) :
    Ends updateMetadata d ⟨⟩ (d.store d.globalMetadata.bytes (pageOffset 0)) :=
  (Ends.get d).bind ((pwrite_ends hio).bind rfl)

/-- The state after the next id was taken. -/
def DiskManager.bump (d : DiskManager) : DiskManager :=
  { d with globalMetadata :=
      { d.globalMetadata with nextPageId := (d.globalMetadata.nextPageId + 1) % 2 ^ 32 } }

theorem allocatePage_ends (hio : d.io = none) (h : d.globalMetadata.freelistHead = INVALID_PAGE_ID) :
    Ends allocatePage d d.globalMetadata.nextPageId
      (d.bump.store d.bump.globalMetadata.bytes (pageOffset 0)) := by
  unfold allocatePage
  apply (Ends.get d).bind
  rw [if_pos h]
  exact (Ends.get d).bind ((Ends.modify _ d).bind ((updateMetadata_ends (d := d.bump) hio).bind rfl))

/-- The next id, where one system call is left for page 0. -/
theorem allocatePage_spends {n : Nat} (hio : d.io = some (n + 1))
    (h : d.globalMetadata.freelistHead = INVALID_PAGE_ID) :
    Ends allocatePage d d.globalMetadata.nextPageId
      { d.bump.store d.bump.globalMetadata.bytes (pageOffset 0) with io := some n } := by
  have hu : Ends updateMetadata d.bump ⟨⟩
      { d.bump.store d.bump.globalMetadata.bytes (pageOffset 0) with io := some n } :=
    (Ends.get d.bump).bind ((pwrite_spends (d := d.bump) hio).bind rfl)
  unfold allocatePage
  apply (Ends.get d).bind
  rw [if_pos h]
  exact (Ends.get d).bind ((Ends.modify _ d).bind (hu.bind rfl))

end

/-! ## The metadata after a call -/

/-- A read keeps what its system call keeps. -/
theorem readPage_keeps_of {I : DiskManager → Prop} (h : ∀ offset, Keeps I (pread offset)) (p : Nat) :
    Keeps I (readPage p) := by
  unfold readPage
  refine .bind .get fun d => .ite (.bind (.throw _) fun _ => ?_) ?_
  all_goals
    apply (h _).bind
    intro r
    cases r with
    | none => exact .throw _
    | some r => exact .ite (.pure _) (.ite (.throw _) (.throw _))

/-- A read changes nothing while no system call fails. -/
theorem readPage_same {d : DiskManager} (hio : d.io = none) (p : Nat) :
    Keeps (fun d' => d' = d) (readPage p) := by
  refine readPage_keeps_of (fun offset => ?_) p
  have hs : Keeps (fun d' => d' = d) syscall := by
    intro d' hd
    subst hd
    rw [show syscall d' = .ok true d' from syscall_ends hio]
  exact hs.bind fun _ => .ite (.bind .get fun _ => .pure _) (.pure _)

section
variable (P : GlobalMetadata → Prop)

theorem syscall_keeps : Keeps (fun d => P d.globalMetadata) syscall := by
  intro d hd
  unfold syscall
  cases h : d.io with
  | none => exact hd
  | some n => cases n <;> exact hd

theorem pwrite_keeps (data : Mem) (offset : Nat) :
    Keeps (fun d => P d.globalMetadata) (pwrite data offset) := by
  refine (syscall_keeps P).bind fun b => .ite ?_ (.pure _)
  exact .bind (.modify fun d hd => hd) fun _ => .pure _

theorem pread_keeps (offset : Nat) : Keeps (fun d => P d.globalMetadata) (pread offset) := by
  refine (syscall_keeps P).bind fun b => .ite ?_ (.pure _)
  exact .bind .get fun d => .pure _

theorem writePage_keeps (p : Nat) (data : Mem) :
    Keeps (fun d => P d.globalMetadata) (writePage p data) := by
  have hw : Keeps (fun d => P d.globalMetadata) (do
      unless ← pwrite data (pageOffset p) do
        throw (.systemError s!"Critical: pwrite failed on page {p}")) :=
    .bind (pwrite_keeps P _ _) fun b => .ite (.pure _) (.throw _)
  unfold writePage
  exact .bind .get fun d => .ite (.bind (.throw _) fun _ => hw) hw

theorem readPage_keeps (p : Nat) : Keeps (fun d => P d.globalMetadata) (readPage p) :=
  readPage_keeps_of (pread_keeps P) p

theorem handleReadError_keeps (n : Option Nat) (p : Nat) :
    Keeps (fun d => P d.globalMetadata) (handleReadError n p) := by
  cases n with
  | none => exact .throw _
  | some n => exact .ite (.pure _) (.throw _)

theorem handleWriteError_keeps (b : Bool) (p : Nat) :
    Keeps (fun d => P d.globalMetadata) (handleWriteError b p) := .ite (.pure _) (.throw _)

theorem updateMetadata_keeps : Keeps (fun d => P d.globalMetadata) updateMetadata := by
  refine .bind .get fun d => .bind (pwrite_keeps P _ _) fun b => ?_
  exact .ite (.pure _) (.throw _)

end

/-- A call takes at most one new id. -/
theorem allocatePage_grows {n m : Nat} (hm : m + 1 < 2 ^ 32) :
    Triple (fun d => n ≤ d.globalMetadata.nextPageId ∧ d.globalMetadata.nextPageId ≤ m) allocatePage
      (fun _ d => n ≤ d.globalMetadata.nextPageId ∧ d.globalMetadata.nextPageId ≤ m + 1)
      (fun d => n ≤ d.globalMetadata.nextPageId ∧ d.globalMetadata.nextPageId ≤ m + 1) := by
  let I : GlobalMetadata → Prop := fun g => n ≤ g.nextPageId ∧ g.nextPageId ≤ m + 1
  unfold allocatePage
  apply Triple.of_state
  intro d hd
  have hI : I d.globalMetadata := ⟨hd.1, by omega⟩
  have hP : ∀ d', d' = d → I d'.globalMetadata := fun d' e => e ▸ hI
  refine Triple.bind (Q := fun a d' => a = d ∧ d' = d) (Triple.get fun _ h => ⟨h, h⟩) fun a => ?_
  refine Triple.ite (fun _ => ?_) fun _ => ?_
  · refine Triple.bind (Q := fun a d' => a = d ∧ d' = d)
      (Triple.get fun _ h => ⟨h.2, h.2⟩) fun a => ?_
    refine Triple.bind (Q := fun _ (d : DiskManager) => I d.globalMetadata)
      (Triple.modify fun d' h => ?_) fun _ => (updateMetadata_keeps I).bind fun _ => .pure _
    obtain ⟨rfl, rfl⟩ := h
    simp only [I]; omega
  · refine Triple.conseq (P := fun d => I d.globalMetadata) ?_ (fun d' h => hP d' h.2) (fun _ _ h => h) fun _ h => h
    refine (pread_keeps I _).bind fun r => (handleReadError_keeps I _ _).bind fun _ => ?_
    refine .ite ?_ (.ite (.throw _) ?_)
    · exact .bind (.modify fun _ h => h) fun _ => (updateMetadata_keeps I).bind fun _ => .pure _
    · exact (pwrite_keeps I _ _).bind fun b => (handleWriteError_keeps I _ _).bind fun _ =>
        (updateMetadata_keeps I).bind fun _ => .pure _

end DbInternals.Storage
