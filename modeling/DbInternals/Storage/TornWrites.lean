import DbInternals.Storage.Allocator
import DbInternals.Storage.DiskFaults

/-!
# Allocator calls that fail

`pread` and `pwrite` may also transfer a part of the page: a `Transfer` says how each
system call ends, and the calls of `DiskManager` are written over it. `fsync` is left out,
and `io` is not used.

Results:
* `allocatePage_fails`, `deallocatePage_fails`, `writePage_fails`: a call that returns is one
  whose system calls all succeed, one that throws as `Harmless` says keeps the metadata in
  memory and leaves pages in use and a chain that do not overlap;
* `failed_calls_atomic`: over runs of such calls no id in use is handed out;
* `failed_deallocate_repeats`, `torn_deallocate_counts`: two runs with an id handed out twice.
-/
namespace DbInternals.Storage

open Mem

/-- How a system call on one page ends. -/
inductive Transfer
  | whole
  /-- some of the bytes, from the first on -/
  | short (k : Fin PAGE_SIZE)
  | failed
  deriving DecidableEq

/-- What it returns; `none` is -1. -/
def Transfer.result : Transfer → Option Nat
  | whole => some PAGE_SIZE
  | short k => some k
  | failed => none

/-- The bytes it transfers. -/
def Transfer.bytes (t : Transfer) : Nat := t.result.getD 0

namespace Faulty

/-! ## System calls -/

/-- `pwrite(fd_, data, PAGE_SIZE, offset)` -/
def pwrite (t : Transfer) (data : Mem) (offset : Nat) : DiskM (Option Nat) := do
  modify fun d => d.storeFirst data offset t.bytes
  return t.result

/-- `pread(fd_, data, PAGE_SIZE, offset)`: how many bytes were read, and what. -/
def pread (t : Transfer) (offset : Nat) : DiskM (Option (Nat × Mem)) := do
  let d ← get
  return t.result.map fun k =>
    let n := min k (d.size - offset)
    (n, Mem.zero.copy 0 (d.bytes.shift offset) n)

/-- mirrors src/storage/disk_manager.cpp:243-255 -/
def handleWriteError (written : Option Nat) (pageId : Nat) : DiskM Unit :=
  match written with
  | none => throw (.systemError s!"Critical pwrite failure on Page {pageId}")
  | some n =>
    unless n = PAGE_SIZE do
      throw (.runtimeError s!"Partial write on Page {pageId}: Wrote {n} bytes.")

/-- mirrors src/storage/disk_manager.h:171-176 -/
def updateMetadata (t : Transfer) : DiskM Unit := do
  let w ← pwrite t (← get).globalMetadata.bytes 0
  handleWriteError w 0

/-! ## The calls -/

/-- mirrors src/storage/disk_manager.cpp:107-120 -/
def writePage (t : Transfer) (pageId : Nat) (data : Mem) : DiskM Unit := do
  if pageId ≥ (← get).globalMetadata.nextPageId then
    throw (.runtimeError s!"Attempted to write to unallocated page: {pageId}")
  match ← pwrite t data (pageOffset pageId) with
  | none => throw (.systemError s!"Critical: pwrite failed on page {pageId}")
  | some n =>
    unless n = PAGE_SIZE do
      throw (.runtimeError s!"Partial write occured: wrote {n} of {PAGE_SIZE} on page {pageId}")

/-- mirrors src/storage/disk_manager.cpp:127-142 -/
def readPage (t : Transfer) (pageId : Nat) : DiskM Mem := do
  if pageId ≥ (← get).globalMetadata.nextPageId then
    throw (.runtimeError "Page read out of allowed range")
  match ← pread t (pageOffset pageId) with
  | none => throw (.systemError s!"Critical: pread failed on page {pageId}")
  | some (n, data) =>
    if n = PAGE_SIZE then return data
    else if n = 0 then throw (.runtimeError "Read past EOF")
    else throw (.runtimeError "Partial read: Page is likely truncated or corrupted")

/-- The system calls of an allocator call; it makes each at most once. -/
structure Transfers where
  /-- the read of the head of the free list -/
  head : Transfer
  /-- the write of a free-list page -/
  page : Transfer
  /-- the write of page 0 -/
  header : Transfer

/-- mirrors src/storage/disk_manager.cpp:161-186 -/
def allocatePage (t : Transfers) : DiskM Nat := do
  let head := (← get).globalMetadata.freelistHead
  if head = INVALID_PAGE_ID then
    let newId := (← get).globalMetadata.nextPageId
    modify fun d => { d with
      globalMetadata := { d.globalMetadata with nextPageId := (newId + 1) % 2 ^ 32 } }
    updateMetadata t.header
    return newId
  else
    let r ← pread t.head (pageOffset head)
    handleReadError (r.map Prod.fst) head
    let buffer := (r.map Prod.snd).getD Mem.zero
    let count := currentIdCount buffer
    if count = 0 then
      modify fun d => { d with
        globalMetadata := { d.globalMetadata with freelistHead := nextFreelistPage buffer } }
      updateMetadata t.header
      return head
    else if count > MAX_FREE_IDS then throw .outOfBounds
    else
      let recycledId := freePageId buffer (count - 1)
      let w ← pwrite t.page (buffer.writeLE 4 4 (count - 1)) (pageOffset head)
      handleWriteError w head
      updateMetadata t.header
      return recycledId

/-- mirrors src/storage/disk_manager.cpp:200-232 -/
def deallocatePage (t : Transfers) (pageId : Nat) : DiskM Unit := do
  let headId := (← get).globalMetadata.freelistHead
  let newHead (next : Nat) : DiskM Unit := do
    let w ← pwrite t.page ((Mem.zero.writeLE 0 4 next).writeLE 4 4 0) (pageOffset pageId)
    handleWriteError w pageId
    modify fun d => { d with globalMetadata := { d.globalMetadata with freelistHead := pageId } }
    updateMetadata t.header
  if headId = INVALID_PAGE_ID then newHead INVALID_PAGE_ID
  else
    let r ← pread t.head (pageOffset headId)
    handleReadError (r.map Prod.fst) headId
    let buffer := (r.map Prod.snd).getD Mem.zero
    let count := currentIdCount buffer
    if count = MAX_FREE_IDS then newHead headId
    else if count > MAX_FREE_IDS then throw .outOfBounds
    else
      let w ← pwrite t.page
        ((buffer.writeLE (8 + 4 * count) 4 pageId).writeLE 4 4 (count + 1)) (pageOffset headId)
      handleWriteError w headId

end Faulty

/-! ## Pages partly written -/

section
variable {old data : Mem} {n : Nat}

theorem Transfer.bytes_lt {t : Transfer} (h : t ≠ .whole) : t.bytes < PAGE_SIZE := by
  cases t with
  | whole => exact absurd rfl h
  | short k => exact k.isLt
  | failed => decide

/-- Nothing that differs is transferred. -/
theorem copy_old (h : ∀ a, a < n → data a = old a) : old.copy 0 data n = old := by
  funext a
  by_cases ha : a < n
  · rw [copy_in (Nat.zero_le a) (by omega), Nat.sub_zero, h a ha]
  · exact copy_out (by omega)

/-- All that differs is transferred. -/
theorem copy_new (h : ∀ a, n ≤ a → data a = old a) : old.copy 0 data n = data := by
  funext a
  by_cases ha : a < n
  · rw [copy_in (Nat.zero_le a) (by omega), Nat.sub_zero]
  · rw [copy_out (by omega), h a (by omega)]

/-! ## Free-list pages partly written -/

section
variable {ids : List Nat} {next f : Nat}

/-- A byte of the id count of the page. -/
theorem IsListPage.count_byte (h : IsListPage old ids next) {i : Nat} (hi : i < 4) :
    old (4 + i) = le ids.length i := by
  rw [← h.count, currentIdCount, le_readLE old 4 hi]

/-- A byte of the count behind the first is the same one below it, unless that borrows. -/
theorem le_pred {i : Nat} (hn : n + 1 < 256 ^ 2) (hi : i ≠ 0) (hb : 2 ≤ i ∨ (n + 1) % 256 ≠ 0) :
    le n i = le (n + 1) i := by
  have e : n / 256 ^ i = (n + 1) / 256 ^ i := by
    by_cases h1 : i = 1
    · rw [h1, Nat.pow_one]
      omega
    · have hpow : 256 ^ 2 ≤ 256 ^ i := Nat.pow_le_pow_right (by decide) (by omega)
      rw [Nat.div_eq_of_lt (by omega), Nat.div_eq_of_lt (by omega)]
  rw [le, le, e]

/-- An id is taken off, all or nothing, unless the count borrows from a byte not written. -/
theorem IsListPage.torn_pop (h : IsListPage old (ids ++ [f]) next) (hs : Short old)
    (hc : ¬ (n = 5 ∧ (ids.length + 1) % 256 = 0)) :
    ∃ ids', IsListPage (old.copy 0 (old.writeLE 4 4 ids.length) n) ids' next ∧
      ids'.Sublist (ids ++ [f]) := by
  have hmax := h.max
  simp only [List.length_append, List.length_singleton, MAX_FREE_IDS, PAGE_SIZE] at hmax
  by_cases hn : n ≤ 4
  · rw [copy_old fun a ha => writeLE_out (by omega)]
    exact ⟨_, h, .refl _⟩
  · have hnew : old.copy 0 (old.writeLE 4 4 ids.length) n = old.writeLE 4 4 ids.length := by
      refine copy_new fun a ha => ?_
      by_cases h8 : a < 8
      · obtain ⟨i, rfl⟩ := Nat.exists_eq_add_of_le (show 4 ≤ a by omega)
        have hbyte := h.count_byte (show i < 4 by omega)
        rw [List.length_append, List.length_singleton] at hbyte
        rw [hbyte, writeLE, copy_in (by omega) (by omega), Nat.add_sub_cancel_left]
        exact le_pred (by omega) (by omega) (by omega)
      · exact writeLE_out (by omega)
    have hshort : Short (old.writeLE 4 4 ids.length) := fun a ha => by
      rw [writeLE_out (by simp only [PAGE_SIZE] at ha; omega), hs a ha]
    have hpop := h.pop.2
    rw [pageOf_short hshort] at hpop
    rw [hnew]
    exact ⟨ids, hpop, List.sublist_append_left _ _⟩

/-- The first byte of the count is written, and its carry is not. -/
theorem IsListPage.torn_carry {data : Mem} (h : IsListPage old ids next)
    (hold : ∀ a, a < 4 → data a = old a) (h4 : data 4 = 0) (h255 : ids.length % 256 = 255) :
    IsListPage (old.copy 0 data 5) (ids.take (ids.length - 255)) next := by
  have hframe : ∀ {o : Nat}, 5 ≤ o → ∀ k, (old.copy 0 data 5).readLE o k = old.readLE o k :=
    fun ho k => readLE_copy_frame (by omega)
  have hcount := h.count
  have hbyte := h.count_byte (i := 0) (by decide)
  have hlen : (ids.take (ids.length - 255)).length = ids.length - 255 := by
    rw [List.length_take]; omega
  refine ⟨?_, ?_, fun i hi => ?_, ?_⟩
  · have hlow : (old 4).toNat = ids.length % 256 := by
      rw [hbyte, le, UInt8.toNat_ofNat', Nat.pow_zero, Nat.div_one]
    have h4' : old.copy 0 data 5 4 = 0 := (copy_in (by omega) (by omega)).trans h4
    rw [currentIdCount, readLE, hlow] at hcount
    rw [hlen, currentIdCount, readLE, h4', hframe (by omega)]
    simp only [UInt8.toNat_zero]
    omega
  · have := h.max
    omega
  · rw [hlen] at hi
    rw [List.getElem_take, h.ids i (by omega), freePageId, freePageId, hframe (by omega)]
  · rw [← h.next, nextFreelistPage, nextFreelistPage]
    refine readLE_congr fun a _ ha => ?_
    rw [copy_in (by omega) (by omega), Nat.sub_zero, hold a (by omega)]

/-- An id is put on: nothing of it is there, or only some ids of the page are left. -/
theorem IsListPage.torn_push (h : IsListPage old ids next)
    (hc : n ≤ 4 ∨ n = 5 ∧ ids.length % 256 = 255) :
    ∃ m, IsListPage (old.copy 0 ((old.writeLE (8 + 4 * ids.length) 4 f).writeLE 4 4
      (ids.length + 1)) n) (ids.take m) next := by
  have hold : ∀ a, a < 4 →
      (old.writeLE (8 + 4 * ids.length) 4 f).writeLE 4 4 (ids.length + 1) a = old a := by
    intro a ha
    rw [writeLE_out (by omega), writeLE_out (by omega)]
  cases hc with
  | inl hn =>
    refine ⟨ids.length, ?_⟩
    rw [List.take_length, copy_old fun a ha => hold a (by omega)]
    exact h
  | inr hn =>
    obtain ⟨rfl, h255⟩ := hn
    refine ⟨_, h.torn_carry hold ?_ h255⟩
    rw [writeLE, copy_in (by omega) (by omega), le, Nat.sub_self, Nat.pow_zero, Nat.div_one]
    apply UInt8.toNat_inj.mp
    rw [UInt8.toNat_ofNat', UInt8.toNat_zero]
    omega

end

end

/-! ## Pages in use and the chain -/

namespace Allocator

section
variable {d : DiskManager} {owned ids ids' : List Nat} {cs rest : List (Nat × List Nat)}
  {head next n : Nat} {data : Mem}

theorem Parts.header (h : Parts d owned cs) (hn : n ≤ PAGE_SIZE) :
    Parts (d.storeFirst data 0 n) owned cs :=
  h.fewer h.io rfl (Chain.storeFirst (q := 0) h.chain hn fun _ hc =>
    h.distinct_free.offset_ne_zero (mem_freeIds_of_mem hc)) (.refl _)

/-- The head page is written and keeps some of its ids. -/
theorem Parts.headPage (h : Parts d owned ((head, ids) :: rest)) (hn : n ≤ PAGE_SIZE)
    (hne : head ≠ INVALID_PAGE_ID) (hm : Mapped d head) (hrest : Chain d next rest)
    (hh : d.globalMetadata.freelistHead = head)
    (hl : IsListPage ((pageAt d head).copy 0 data n) ids' next) (hids : ids'.Sublist ids) :
    Parts (d.storeFirst data (pageOffset head) n) owned ((head, ids') :: rest) := by
  have hrest' : Chain (d.storeFirst data (pageOffset head) n) next rest :=
    Chain.storeFirst hrest hn fun _ hc => h.distinct_free.offset_ne_head hc
  refine h.fewer h.io rfl ?_ ?_
  · rw [hh]
    refine .page hne hm.storeFirst ?_ hrest'
    rw [pageAt_storeFirst hn]
    exact hl
  · rw [freeIds_cons, freeIds_cons]
    exact hids.reverse.append_right _

end

end Allocator

/-! ## The calls, system call by system call -/

namespace Faulty

open Allocator (Parts)

section
variable {α : Type} {d : DiskManager} {Q : α → DiskManager → Prop} {E : DiskManager → Prop}

theorem get_bind {f : DiskManager → DiskM α} (h : Triple (· = d) (f d) Q E) :
    Triple (· = d) (MonadState.get >>= f) Q E := Triple.get_bind fun _ hs => hs ▸ h

theorem modify_bind {g : DiskManager → DiskManager} {f : PUnit → DiskM α}
    (h : Triple (· = g d) (f ⟨⟩) Q E) : Triple (· = d) (modify g >>= f) Q E :=
  Triple.bind (Q := fun _ s => s = g d) (Triple.modify fun _ hs => hs ▸ rfl) fun _ => h

theorem pwrite_bind {t : Transfer} {data : Mem} {offset : Nat} {f : Option Nat → DiskM α}
    (h : Triple (· = d.storeFirst data offset t.bytes) (f t.result) Q E) :
    Triple (· = d) (pwrite t data offset >>= f) Q E :=
  Triple.bind (Q := fun r s => r = t.result ∧ s = d.storeFirst data offset t.bytes)
    (modify_bind (Triple.pure fun _ hs => ⟨rfl, hs⟩)) fun _ =>
      Triple.of_state fun _ hs => hs.1 ▸ hs.2 ▸ h

/-- A write and its check. -/
theorem write_checked {t : Transfer} {data : Mem} {offset p : Nat}
    (h : t ≠ .whole → E (d.storeFirst data offset t.bytes)) :
    Triple (· = d) (pwrite t data offset >>= fun w => handleWriteError w p)
      (fun _ s => t = .whole ∧ s = d.store data offset) E := by
  refine pwrite_bind ?_
  cases t with
  | whole => exact Triple.pure fun s hs => ⟨rfl, hs⟩
  | short k =>
    have hk : (k : Nat) ≠ PAGE_SIZE := Nat.ne_of_lt k.isLt
    simp only [Transfer.result, handleWriteError, if_neg hk]
    exact Triple.throw fun s hs => hs ▸ h (by simp)
  | failed => exact Triple.throw fun s hs => hs ▸ h (by simp)

theorem write_bind {t : Transfer} {data : Mem} {offset p : Nat} {rest : DiskM α}
    (h : t ≠ .whole → E (d.storeFirst data offset t.bytes))
    (h' : t = .whole → Triple (· = d.store data offset) rest Q E) :
    Triple (· = d) (do let w ← pwrite t data offset; handleWriteError w p; rest) Q E := by
  rw [← bind_assoc]
  exact Triple.bind (write_checked h) fun _ => Triple.of_state fun s hs => hs.2 ▸ h' hs.1

theorem updateMetadata_saves {t : Transfer}
    (h : t ≠ .whole → E (d.storeFirst d.globalMetadata.bytes 0 t.bytes)) :
    Triple (· = d) (updateMetadata t) (fun _ s => t = .whole ∧ s = d.saved) E :=
  get_bind (write_checked h)

theorem updateMetadata_bind {t : Transfer} {f : PUnit → DiskM α}
    (h : t ≠ .whole → E (d.storeFirst d.globalMetadata.bytes 0 t.bytes))
    (h' : Triple (· = d.saved) (f ⟨⟩) Q E) :
    Triple (· = d) (updateMetadata t >>= f) Q E :=
  Triple.bind (updateMetadata_saves h) fun _ => h'.conseq (fun _ hs => hs.2) (fun _ _ h => h) fun _ h => h

/-- A read of a page of the file and its check. -/
theorem read_bind {t : Transfer} {p : Nat} {f : Option (Nat × Mem) → DiskM α} (hm : Mapped d p)
    (h : t ≠ .whole → E d)
    (h' : t = .whole → Triple (· = d) (f (some (PAGE_SIZE, pageAt d p))) Q E) :
    Triple (· = d) (do
      let r ← pread t (pageOffset p)
      handleReadError (r.map Prod.fst) p
      f r) Q E := by
  refine Triple.bind (Q := fun r s => s = d ∧ r = t.result.map fun k =>
    (min k (d.size - pageOffset p),
      Mem.zero.copy 0 (d.bytes.shift (pageOffset p)) (min k (d.size - pageOffset p))))
    (get_bind (Triple.pure fun _ hs => ⟨hs, rfl⟩)) fun r => Triple.of_state fun s hs => ?_
  obtain ⟨rfl, rfl⟩ := hs
  cases t with
  | whole =>
    have hn : min PAGE_SIZE (s.size - pageOffset p) = PAGE_SIZE := by have := hm.2; omega
    simp only [Transfer.result, Option.map_some, hn]
    exact h' rfl
  | short k =>
    have hk : min (k : Nat) (s.size - pageOffset p) ≠ PAGE_SIZE := by have := k.isLt; omega
    simp only [Transfer.result, Option.map_some, handleReadError, if_neg hk]
    exact Triple.throw fun s hs => hs ▸ h (by simp)
  | failed => exact Triple.throw fun s hs => hs ▸ h (by simp)

end

/-! ## Calls that fail -/

inductive Call
  | allocate (t : Transfers)
  | deallocate (t : Transfers) (p : Nat)
  | write (t : Transfer) (p : Nat) (data : Mem)
  | read (t : Transfer) (p : Nat)

namespace Call

/-- The call; only `allocatePage` returns an id. -/
def run : Call → DiskM (Option Nat)
  | allocate t => do return some (← allocatePage t)
  | deallocate t p => do
    deallocatePage t p
    return none
  | write t p data => do
    writePage t p data
    return none
  | read t p => do
    let _ ← readPage t p
    return none

/-- The page argument is in use. -/
def Allowed (owned : List Nat) : Call → Prop
  | allocate _ => True
  | deallocate _ p => p ∈ owned
  | write _ p _ => p ∈ owned
  | read _ _ => True

instance (owned : List Nat) : (c : Call) → Decidable (c.Allowed owned)
  | allocate _ => inferInstanceAs (Decidable True)
  | deallocate _ p => inferInstanceAs (Decidable (p ∈ owned))
  | write _ p _ => inferInstanceAs (Decidable (p ∈ owned))
  | read _ _ => inferInstanceAs (Decidable True)

/-- The ids in use once the call returned. -/
def left (owned : List Nat) : Call → Option Nat → List Nat
  | allocate _, some p => p :: owned
  | deallocate _ p, _ => owned.erase p
  | _, _ => owned

end Call

/-- The ids that the head of the free list holds. -/
def headCount (d : DiskManager) : Nat := currentIdCount (pageAt d d.globalMetadata.freelistHead)

/-- Page 0 is written where the metadata in memory was changed before, and a write of the head
page that fails does not raise its id count: the first byte of the count is the fifth of the
page. Page ids stay below `2 ^ 20`. -/
def Call.Harmless (d : DiskManager) : Call → Prop
  | allocate t =>
    if d.globalMetadata.freelistHead = INVALID_PAGE_ID then
      t.header = .whole ∧ d.globalMetadata.nextPageId < MAX_PAGES
    else t.head = .whole →
      if headCount d = 0 then t.header = .whole
      else ¬ (t.page.bytes = 5 ∧ headCount d % 256 = 0)
  | deallocate t _ =>
    if d.globalMetadata.freelistHead = INVALID_PAGE_ID then t.page = .whole → t.header = .whole
    else t.head = .whole →
      if headCount d = MAX_FREE_IDS then t.page = .whole → t.header = .whole
      else t.page = .whole ∨ t.page.bytes ≤ 4 ∨ t.page.bytes = 5 ∧ headCount d % 256 = 255
  | write _ _ _ => True
  | read _ _ => True

instance (d : DiskManager) (c : Call) : Decidable (c.Harmless d) := by
  cases c <;> dsimp only [Call.Harmless] <;> infer_instance

/-- What a call that throws leaves: the metadata it started with, and no id in use in the chain. -/
def Kept (owned : List Nat) (d d' : DiskManager) : Prop :=
  d'.globalMetadata = d.globalMetadata ∧ ∃ cs, Parts d' owned cs

section
variable {d : DiskManager} {owned : List Nat} {cs : List (Nat × List Nat)} {p : Nat}

theorem headCount_eq {head next : Nat} {ids : List Nat} (hh : d.globalMetadata.freelistHead = head)
    (hp : IsListPage (pageAt d head) ids next) : headCount d = ids.length := by
  rw [headCount, hh, hp.count]

theorem allocatePage_fails {t : Transfers} (h : Parts d owned cs)
    (hc : (Call.allocate t).Harmless d) :
    Triple (· = d) (allocatePage t) (fun p d' => Ends Storage.allocatePage d p d')
      (Kept owned d) := by
  have hself : Kept owned d d := ⟨rfl, cs, h⟩
  have hio := h.io
  have hchain := h.chain
  generalize hh : d.globalMetadata.freelistHead = head at hchain
  unfold allocatePage
  refine get_bind ?_
  cases hchain with
  | nil =>
    rw [Call.Harmless, if_pos hh] at hc
    rw [hh, if_pos rfl]
    have hdone := allocatePage_ends hio hh
    exact get_bind (modify_bind (updateMetadata_bind (fun hw => absurd hc.1 hw)
      (Triple.pure fun s hs => hs ▸ hdone)))
  | @page _ next ids rest hne hm hp hrest =>
  rw [Call.Harmless, if_neg (hh ▸ hne), headCount_eq hh hp] at hc
  rw [hh, if_neg hne]
  refine read_bind hm (fun _ => hself) fun hread => ?_
  have hcount := hp.count
  have hmax := hp.max
  cases ids using List.reverseRecOn with
  | nil =>
    simp only [Option.map_some, Option.getD_some, hcount, List.length_nil, if_true, hp.next]
    have hdone := allocatePage_head hio hh hne hm hp
    exact modify_bind (updateMetadata_bind (fun hw => absurd (hc hread) hw)
      (Triple.pure fun s hs => hs ▸ hdone))
  | append_singleton ids f =>
    simp only [List.length_append, List.length_singleton] at hcount hmax hc
    simp only [Option.map_some, Option.getD_some, hcount]
    rw [if_neg (by omega), if_neg (by omega), Nat.add_sub_cancel, hp.pop.1]
    rw [if_neg (by omega)] at hc
    have hdone := allocatePage_entry hio hh hne hm hp
    have hpage : ∀ {n}, n ≤ PAGE_SIZE → ¬ (n = 5 ∧ (ids.length + 1) % 256 = 0) → ∃ cs,
        Parts (d.storeFirst ((pageAt d head).writeLE 4 4 ids.length) (pageOffset head) n) owned cs := by
      intro n hn hn5
      obtain ⟨ids', hl, hids⟩ := hp.torn_pop (short_pageAt d head) hn5
      exact ⟨_, h.headPage hn hne hm hrest hh hl hids⟩
    refine write_bind (fun hw => ?_) fun _ => updateMetadata_bind (fun hw => ?_)
      (Triple.pure fun s hs => hs ▸ hdone)
    · exact ⟨rfl, hpage (Nat.le_of_lt (Transfer.bytes_lt hw)) (hc hread)⟩
    · -- the id is off the page and lost
      obtain ⟨cs', h'⟩ := hpage (Nat.le_refl _) (by simp [PAGE_SIZE])
      exact ⟨rfl, cs', h'.header (Nat.le_of_lt (Transfer.bytes_lt hw))⟩

theorem deallocatePage_fails {t : Transfers} (h : Parts d owned cs) (hp : p ∈ owned)
    (hc : (Call.deallocate t p).Harmless d) :
    Triple (· = d) (deallocatePage t p) (fun u d' => Ends (Storage.deallocatePage p) d u d')
      (Kept owned d) := by
  have hself : Kept owned d d := ⟨rfl, cs, h⟩
  have hio := h.io
  have hchain := h.chain
  generalize hh : d.globalMetadata.freelistHead = head at hchain
  -- `p` becomes the head: its page may be written and not be used
  have hnew : ∀ ids next, (head ≠ INVALID_PAGE_ID → Mapped d head ∧
        IsListPage (pageAt d head) ids next ∧ ids.length = MAX_FREE_IDS) →
      (t.page = .whole → t.header = .whole) →
      Triple (· = d) (do
        let w ← pwrite t.page ((Mem.zero.writeLE 0 4 head).writeLE 4 4 0) (pageOffset p)
        handleWriteError w p
        modify fun d => { d with globalMetadata := { d.globalMetadata with freelistHead := p } }
        updateMetadata t.header) (fun u d' => Ends (Storage.deallocatePage p) d u d')
        (Kept owned d) := by
    intro ids next hfull hheader
    have hdone : Ends (Storage.deallocatePage p) d ⟨⟩ ((d.cleared p head).withHead p).saved :=
      deallocatePage_head hio hh hfull
    refine write_bind (fun hw => ?_) fun hw => modify_bind ?_
    · exact ⟨rfl, cs, h.page hp (Nat.le_of_lt (Transfer.bytes_lt hw))⟩
    · exact (updateMetadata_saves fun hw' => absurd (hheader hw) hw').conseq (fun _ hs => hs)
        (fun _ s hs => hs.2 ▸ hdone) fun _ h => h
  unfold deallocatePage
  refine get_bind ?_
  rw [hh]
  cases hchain with
  | nil =>
    rw [Call.Harmless, if_pos hh] at hc
    rw [if_pos rfl]
    exact hnew [] 0 (fun hne => absurd rfl hne) hc
  | @page _ next ids rest hne hm hl hrest =>
  rw [Call.Harmless, if_neg (hh ▸ hne), headCount_eq hh hl] at hc
  rw [if_neg hne]
  refine read_bind hm (fun _ => hself) fun hread => ?_
  replace hc := hc hread
  simp only [Option.map_some, Option.getD_some, hl.count]
  by_cases hfull : ids.length = MAX_FREE_IDS
  · rw [if_pos hfull] at hc
    rw [if_pos hfull]
    exact hnew ids next (fun _ => ⟨hm, hl, hfull⟩) hc
  · have hroom : ids.length < MAX_FREE_IDS := Nat.lt_of_le_of_ne hl.max hfull
    rw [if_neg hfull] at hc
    rw [if_neg hfull, if_neg (by omega)]
    have hdone := deallocatePage_entry (p := p) hio hh hne hm hl hroom
    refine (write_checked fun hw => ?_).conseq (fun _ hs => hs) (fun _ s hs => hs.2 ▸ hdone) fun _ h => h
    obtain ⟨m, hl'⟩ := hl.torn_push (f := p) (hc.resolve_left hw)
    exact ⟨rfl, _, h.headPage (Nat.le_of_lt (Transfer.bytes_lt hw)) hne hm hrest hh hl'
      (List.take_sublist _ _)⟩

theorem writePage_fails {t : Transfer} {data : Mem} (h : Parts d owned cs) (hp : p ∈ owned) :
    Triple (· = d) (writePage t p data) (fun u d' => Ends (Storage.writePage p data) d u d')
      (Kept owned d) := by
  have hlt := (h.owned_lt hp).2
  have hdone : Ends (Storage.writePage p data) d ⟨⟩ (d.store data (pageOffset p)) :=
    writePage_ends h.io hlt
  have hfail : ∀ n, n ≤ PAGE_SIZE → ∀ s, s = d.storeFirst data (pageOffset p) n → Kept owned d s :=
    fun n hn s hs => hs ▸ ⟨rfl, cs, h.page hp hn⟩
  unfold writePage
  refine get_bind ?_
  rw [if_neg (Nat.not_le.mpr hlt)]
  refine pwrite_bind ?_
  cases t with
  | whole => exact Triple.pure fun s hs => hs ▸ hdone
  | short k =>
    have hk : (k : Nat) ≠ PAGE_SIZE := Nat.ne_of_lt k.isLt
    simp only [Transfer.result, if_neg hk]
    exact Triple.throw (hfail _ (Nat.le_of_lt k.isLt))
  | failed => exact Triple.throw (hfail _ (Nat.zero_le _))

/-- A read changes nothing. -/
theorem readPage_same (t : Transfer) (p : Nat) : Keeps (· = d) (readPage t p) := by
  unfold readPage
  refine .bind .get fun d => .ite (.bind (.throw _) fun _ => ?_) ?_
  all_goals
    refine Keeps.bind (.bind .get fun _ => .pure _) fun r => ?_
    cases r with
    | none => exact .throw _
    | some r => exact .ite (.pure _) (.ite (.throw _) (.throw _))

/-- What a call does that is harmless where it fails. -/
theorem Call.run_fails {c : Call} (h : Parts d owned cs) (ha : c.Allowed owned)
    (hc : c.Harmless d) :
    Triple (· = d) c.run
      (fun o d' => (∀ p, o = some p → p ∉ owned) ∧ ∃ cs, Parts d' (c.left owned o) cs)
      (Kept owned d) := by
  cases c with
  | allocate t =>
    refine Triple.bind (allocatePage_fails h hc) fun p => Triple.pure fun d' he => ?_
    refine ⟨fun q hq => Option.some.inj hq ▸ (h.allocated he).2, ?_⟩
    obtain ⟨f, d'', cs', he', -, -, hids, hparts⟩ := h.allocatePage
    obtain ⟨rfl, rfl⟩ := he.unique he'
    refine ⟨cs', hparts ?_⟩
    cases hids with
    | inl hnew =>
      obtain ⟨rfl, -, -, hnx⟩ := hnew
      have hhead : d.globalMetadata.freelistHead = INVALID_PAGE_ID := by
        have hchain := h.chain
        generalize d.globalMetadata.freelistHead = head at hchain
        cases hchain
        rfl
      rw [Call.Harmless, if_pos hhead] at hc
      omega
    | inr hpop => exact hpop.2 ▸ h.next_le
  | deallocate t p =>
    refine Triple.bind (deallocatePage_fails h ha hc) fun _ => Triple.pure fun d' he => ?_
    obtain ⟨d'', cs', he', -, -, -, -, hparts⟩ := h.deallocatePage ha
    obtain ⟨-, rfl⟩ := he.unique he'
    exact ⟨nofun, cs', hparts⟩
  | write t p data =>
    refine Triple.bind (writePage_fails h ha) fun _ => Triple.pure fun d' he => ?_
    rw [writePage_ok h.io he]
    exact ⟨nofun, cs, h.write ha⟩
  | read t p =>
    refine Triple.bind (Q := fun _ s => s = d) ((readPage_same t p).conseq (fun _ hs => hs)
      (fun _ _ hs => hs) fun s hs => ?_) fun _ => Triple.pure fun s hs => ?_
    · subst hs
      exact ⟨rfl, cs, h⟩
    · subst hs
      exact ⟨nofun, cs, h⟩

end

/-! ## Runs -/

structure State where
  disk : DiskManager
  /-- ghost: the ids handed out and not given back; a call that throws changes none -/
  owned : List Nat

inductive Reply
  | returned (o : Option Nat)
  | threw
  deriving DecidableEq

/-- The call, if its page argument is in use and its behaviour is defined. -/
def State.call (s : State) (c : Call) : Option (Reply × State) :=
  if c.Allowed s.owned then
    match c.run s.disk with
    | .ok o d => some (.returned o, ⟨d, c.left s.owned o⟩)
    | .error e d => if e.isException then some (.threw, ⟨d, s.owned⟩) else none
  else none

/-- Calls in any order, from a new file on. -/
def lts : LTS State (Call × Reply) where
  init s := DiskManager.create none = .ok ⟨⟩ s.disk ∧ s.owned = []
  step s l s' := s.call l.1 = some (l.2, s')

theorem State.call_cases {s s' : State} {c : Call} {r : Reply} (h : s.call c = some (r, s')) :
    c.Allowed s.owned ∧
      ((∃ o, Ends c.run s.disk o s'.disk ∧ r = .returned o ∧ s'.owned = c.left s.owned o) ∨
        ∃ e, Throws c.run s.disk e s'.disk ∧ r = .threw ∧ s'.owned = s.owned) := by
  unfold State.call at h
  by_cases ha : c.Allowed s.owned
  · rw [if_pos ha] at h
    refine ⟨ha, ?_⟩
    cases hr : c.run s.disk with
    | ok o d =>
      simp only [hr, Option.some.injEq, Prod.mk.injEq] at h
      obtain ⟨rfl, rfl⟩ := h
      exact .inl ⟨o, hr, rfl, rfl⟩
    | error e d =>
      simp only [hr] at h
      split at h
      · simp only [Option.some.injEq, Prod.mk.injEq] at h
        obtain ⟨rfl, rfl⟩ := h
        exact .inr ⟨e, hr, rfl, rfl⟩
      · cases h
  · rw [if_neg ha] at h
    cases h

/-- The ids in use are not in the chain. -/
def Sound (s : State) : Prop := ∃ cs, Parts s.disk s.owned cs

/-- A call that throws keeps the metadata in memory; an id that is handed out is not in use. -/
structure Atomic (s : State) (l : Call × Reply) (s' : State) : Prop where
  threw : l.2 = .threw → s'.disk.globalMetadata = s.disk.globalMetadata
  allocated : ∀ p, l.2 = .returned (some p) → p ∉ s.owned

theorem Sound.step {s s' : State} {l : Call × Reply} (h : Sound s) (hs : lts.step s l s')
    (hc : l.1.Harmless s.disk) : Atomic s l s' ∧ Sound s' := by
  obtain ⟨cs, hp⟩ := h
  obtain ⟨ha, ⟨o, he, hr, ho⟩ | ⟨e, ht, hr, ho⟩⟩ := State.call_cases hs
  · obtain ⟨hnew, hparts⟩ := (Call.run_fails hp ha hc).ends rfl he
    rw [← ho] at hparts
    refine ⟨⟨fun h => ?_, fun p h => hnew p ?_⟩, hparts⟩
    · rw [hr] at h
      cases h
    · rw [hr] at h
      exact Reply.returned.inj h
  · obtain ⟨hg, hparts⟩ := (Call.run_fails hp ha hc).throws rfl ht
    rw [← ho] at hparts
    refine ⟨⟨fun _ => hg, fun p h => ?_⟩, hparts⟩
    rw [hr] at h
    cases h

theorem sound_init {s : State} (h : lts.init s) : Sound s := by
  have h' : Allocator.lts.init ⟨s.disk, s.owned, fun _ => none⟩ := ⟨h.1, h.2, rfl⟩
  exact ⟨[], (Allocator.inv_init h').toParts⟩

/-- Over any run whose failures are harmless, from any sound state. -/
theorem failed_calls_atomic {s : State} {tr : List (State × (Call × Reply) × State)}
    (h0 : Sound s) (h : lts.Path s tr) (hc : LTS.Meets (fun s l => l.1.Harmless s.disk) tr) :
    ∀ x ∈ tr, Atomic x.1 x.2.1 x.2.2 :=
  h.each (fun _ _ _ h hs hc => h.step hs hc) h0 hc

/-! ## Runs with a failed call -/

/-- The run that makes the calls, as far as they are defined. -/
def State.path (s : State) : List Call → List (State × (Call × Reply) × State)
  | [] => []
  | c :: cs =>
    match s.call c with
    | none => []
    | some (r, s') => (s, (c, r), s') :: s'.path cs

theorem State.path_path (s : State) (cs : List Call) : lts.Path s (s.path cs) := by
  induction cs generalizing s with
  | nil => exact .nil s
  | cons c cs ih =>
    rw [State.path]
    cases hc : s.call c with
    | none => exact .nil s
    | some x => exact .cons hc (ih x.2)

/-- A new file. -/
def newFile : State := ⟨Allocator.fresh.disk, []⟩

theorem newFile_init : lts.init newFile := ⟨rfl, rfl⟩

/-- No system call fails. -/
def allWhole : Transfers := ⟨.whole, .whole, .whole⟩

/-- Page 0 is not written where the page becomes the head of the free list. The page is given
back again, and handed out twice. -/
def repeatedRun : List (State × (Call × Reply) × State) :=
  newFile.path [.allocate allWhole, .deallocate { allWhole with header := .failed } 1,
    .deallocate allWhole 1, .allocate allWhole, .allocate allWhole]

/-- The page is an entry of itself. -/
theorem failed_deallocate_repeats : lts.init newFile ∧ lts.Path newFile repeatedRun ∧
    repeatedRun.map (fun x => x.2.1.2) =
      [.returned (some 1), .threw, .returned none, .returned (some 1), .returned (some 1)] ∧
    (∃ x ∈ repeatedRun, x.2.1.2 = .threw ∧
      x.2.2.disk.globalMetadata ≠ x.1.disk.globalMetadata) ∧
    ∃ x ∈ repeatedRun, x.2.1.2 = .returned (some 1) ∧ 1 ∈ x.1.owned :=
  ⟨newFile_init, State.path_path _ _, by decide +kernel⟩

/-- Six bytes of the head page are written: the count, but not the id it counts. -/
def tornRun : List (State × (Call × Reply) × State) :=
  newFile.path [.allocate allWhole, .allocate allWhole, .allocate allWhole,
    .deallocate allWhole 1, .deallocate allWhole 2, .allocate allWhole,
    .deallocate { allWhole with page := .short ⟨6, by decide⟩ } 3, .allocate allWhole]

/-- The id in that place is handed out, and is in use. -/
theorem torn_deallocate_counts : lts.Path newFile tornRun ∧
    tornRun.map (fun x => x.2.1.2) =
      [.returned (some 1), .returned (some 2), .returned (some 3), .returned none, .returned none,
        .returned (some 2), .threw, .returned (some 2)] ∧
    (∀ x ∈ tornRun, x.2.1.2 = .threw → x.2.2.disk.globalMetadata = x.1.disk.globalMetadata) ∧
    ∃ x ∈ tornRun, x.2.1.2 = .returned (some 2) ∧ 2 ∈ x.1.owned :=
  ⟨State.path_path _ _, by decide +kernel⟩

/-- Each write of a free-list page fails once, and so does a write of page 0 that loses an id. -/
def harmlessRun : List (State × (Call × Reply) × State) :=
  newFile.path [.allocate allWhole, .allocate allWhole,
    .deallocate { allWhole with page := .failed } 1, .deallocate allWhole 1,
    .deallocate { allWhole with page := .short ⟨4, by decide⟩ } 2, .deallocate allWhole 2,
    .allocate { allWhole with header := .failed }, .allocate allWhole, .allocate allWhole]

theorem failed_calls_atomic_harmless : harmlessRun.map (fun x => x.2.1.2) =
      [.returned (some 1), .returned (some 2), .threw, .returned none, .threw, .returned none,
        .threw, .returned (some 1), .returned (some 3)] ∧
    ∀ x ∈ harmlessRun, Atomic x.1 x.2.1 x.2.2 := by
  have hc : LTS.Meets (fun s l => l.1.Harmless s.disk) harmlessRun := by
    unfold LTS.Meets
    decide +kernel
  exact ⟨by decide +kernel, failed_calls_atomic (sound_init newFile_init) (State.path_path _ _) hc⟩

end Faulty

end DbInternals.Storage
