import DbInternals.Buffer.ArcReplacer
import DbInternals.Core.LTS
import DbInternals.Storage.DiskPages
import Mathlib.Data.List.AList
import Mathlib.Data.Set.Insert

/-!
# `BufferPoolManager`: the code

The frames, the page table and the calls of
`src/buffer/buffer_pool_manager.{h,cpp}` and `src/storage/page_guard.cpp`.
`CheckedWritePage` and `CheckedReadPage` differ in the lock of the guard they
return. Each block under the latch is a computation of its own, in the order
the source runs them. A request to the disk scheduler is the call the worker
thread makes for it, since the caller waits for it; the requests of a batch
keep their futures, since the worker goes on after one that failed. A loop over
the page table meets its entries in some order.

A fetch of a page whose frame is locked waits for ever when no other thread
runs: `Step` has no step for it. A guard is an object of more than one byte,
so fewer than `2 ^ 63` exist at a time.
-/
namespace DbInternals.Buffer

open Storage

/-- mirrors src/buffer/buffer_pool_manager.h:48-88 -/
structure FrameHeader where
  pinCount : Nat
  isDirty : Bool
  data : Mem

namespace FrameHeader

/-- `pin_count_++` -/
def pinned (h : FrameHeader) : FrameHeader := { h with pinCount := (h.pinCount + 1) % 2 ^ 64 }

/-- `pin_count_--` -/
def unpinned (h : FrameHeader) : FrameHeader := { h with pinCount := sizeDec h.pinCount }

def clean (h : FrameHeader) : FrameHeader := { h with isDirty := false }

/-- mirrors src/buffer/buffer_pool_manager.cpp:37-41 -/
def reset (_ : FrameHeader) : FrameHeader := ⟨0, false, Mem.zero⟩

end FrameHeader

/-- mirrors src/buffer/buffer_pool_manager.h:140-195 -/
structure BufferPoolManager where
  numFrames : Nat
  frames : Nat → FrameHeader
  pageTable : AList fun _ : Nat => Nat
  freeFrames : List Nat
  replacer : ArcReplacer
  /-- behind the disk scheduler -/
  disk : DiskManager

abbrev PoolM := EStateM Fault BufferPoolManager

namespace BufferPoolManager

/-- The frame ids have 32 bits. mirrors src/buffer/buffer_pool_manager.cpp:64-86 -/
def create (numFrames : Nat) (disk : DiskManager) : BufferPoolManager where
  numFrames := numFrames
  frames _ := ⟨0, false, Mem.zero⟩
  pageTable := ∅
  freeFrames := (List.range numFrames).map (· % 2 ^ 32)
  replacer := .create numFrames
  disk := disk

end BufferPoolManager

/-- mirrors src/storage/page_guard.h; `write`: a `WritePageGuard` -/
structure Guard where
  pageId : Nat
  frameId : Nat
  write : Bool
  deriving DecidableEq, Repr

def onReplacer {α : Type} (x : ArcM α) : PoolM α :=
  zoom BufferPoolManager.replacer (fun r s => { s with replacer := r }) x

def onDisk {α : Type} (x : DiskM α) : PoolM α :=
  zoom BufferPoolManager.disk (fun d s => { s with disk := d }) x

/-- The pool with one frame changed. -/
def BufferPoolManager.withFrame (s : BufferPoolManager) (frameId : Nat)
    (g : FrameHeader → FrameHeader) : BufferPoolManager :=
  { s with frames := Function.update s.frames frameId (g (s.frames frameId)) }

def modifyFrame (frameId : Nat) (g : FrameHeader → FrameHeader) : PoolM Unit :=
  modify fun s => s.withFrame frameId g

/-! ## Pins -/

/-- `if (pin_count_.fetch_add(1) == 0) SetEvictable(false)`
mirrors src/buffer/buffer_pool_manager.cpp:208-211 -/
def pinHit (frameId : Nat) : PoolM Unit := do
  let s ← get
  modifyFrame frameId .pinned
  if (s.frames frameId).pinCount = 0 then onReplacer (ArcReplacer.setEvictable frameId false)

/-- The frame is clean, pinned and kept while it is written.
mirrors src/buffer/buffer_pool_manager.cpp:475-477 -/
def pinFlush (frameId : Nat) : PoolM Unit := do
  modifyFrame frameId fun h => h.clean.pinned
  onReplacer (ArcReplacer.setEvictable frameId false)

/-- `if (--pin_count_ == 0) SetEvictable(true)`
mirrors src/buffer/buffer_pool_manager.cpp:487-488 -/
def unpin (frameId : Nat) : PoolM Unit := do
  modifyFrame frameId .unpinned
  let s ← get
  if (s.frames frameId).pinCount = 0 then onReplacer (ArcReplacer.setEvictable frameId true)

/-! ## Requests -/

/-- A `std::future`: what it shares with its promise, until `get` takes it. -/
structure Future (α : Type) where
  shared : Option (Except Fault α)

namespace Future

def valid {α : Type} (future : Future α) : Bool := future.shared.isSome

/-- The value, or the exception; the future is not valid any more. -/
def get {α : Type} (future : Future α) : PoolM (α × Future α) :=
  match future.shared with
  | none => throw (.runtimeError "std::future_error: No associated state")
  | some (.error e) => throw e
  | some (.ok a) => return (a, ⟨none⟩)

end Future

/-- The future of a request, once the worker thread has run it.
mirrors src/storage/disk_scheduler.cpp:52-70 -/
def schedule {α : Type} (request : DiskM α) : PoolM (Future α) := fun s =>
  match request s.disk with
  | .ok a d => .ok ⟨some (.ok a)⟩ { s with disk := d }
  | .error e d => .ok ⟨some (.error e)⟩ { s with disk := d }

/-! ## Flushing -/

/-- A write request for the frame's data. -/
def writeFrame (pageId frameId : Nat) : PoolM Unit := do
  let s ← get
  onDisk (writePage pageId (s.frames frameId).data)

/-- mirrors src/buffer/buffer_pool_manager.cpp:467-490 -/
def flushPageUnsafe (pageId : Nat) : PoolM Bool := do
  match (← get).pageTable.lookup pageId with
  | none => return false
  | some frameId =>
    pinFlush frameId
    writeFrame pageId frameId
    unpin frameId
    return true

/-- The requests for the dirty pages among the entries.
mirrors src/buffer/buffer_pool_manager.cpp:539-549 -/
def pinDirty : List (Σ _ : Nat, Nat) → PoolM (List (Σ _ : Nat, Nat))
  | [] => return []
  | entry :: entries => do
    if ((← get).frames entry.2).isDirty then
      pinFlush entry.2
      return entry :: (← pinDirty entries)
    else pinDirty entries

/-- The worker thread goes on after a request that failed.
mirrors src/buffer/buffer_pool_manager.cpp:551 -/
def scheduleAll : List (Σ _ : Nat, Nat) → PoolM (List (Future Unit))
  | [] => return []
  | request :: requests => do
    let s ← get
    let future ← schedule (writePage request.1 (s.frames request.2).data)
    return future :: (← scheduleAll requests)

/-- mirrors src/buffer/buffer_pool_manager.cpp:552-554 -/
def getAll : List (Future Unit) → PoolM Unit
  | [] => return
  | future :: futures => do
    let _ ← future.get
    getAll futures

def writeAll (requests : List (Σ _ : Nat, Nat)) : PoolM Unit := do
  let futures ← scheduleAll requests
  getAll futures

def unpinAll : List (Σ _ : Nat, Nat) → PoolM Unit
  | [] => return
  | request :: requests => do
    unpin request.2
    unpinAll requests

/-- `order`: the page table as the loop meets it. mirrors src/buffer/buffer_pool_manager.cpp:530-561 -/
def flushAllPagesUnsafe (order : List (Σ _ : Nat, Nat)) : PoolM Unit := do
  let requests ← pinDirty order
  writeAll requests
  unpinAll requests

/-! ## Fetching -/

/-- The second lookup of case 1, under the latch.
mirrors src/buffer/buffer_pool_manager.cpp:200-205 -/
def findFrame (pageId : Nat) : PoolM Nat := do
  match (← get).pageTable.lookup pageId with
  | none => throw .nullDeref
  | some frameId => return frameId

/-- mirrors src/buffer/buffer_pool_manager.cpp:206-211 -/
def recordHit (frameId pageId : Nat) : PoolM Unit := do
  onReplacer (ArcReplacer.recordAccess frameId pageId)
  pinHit frameId

def flushDirty (stalePageId frameId : Nat) : PoolM Unit := do
  if ((← get).frames frameId).isDirty then discard (flushPageUnsafe stalePageId)

/-- Case 3: a frame another page gives up.
mirrors src/buffer/buffer_pool_manager.cpp:219-237 -/
def evictFrame : PoolM (Option Nat) := do
  match ← onReplacer ArcReplacer.evict with
  | none => return none
  | some (stalePageId, frameId) =>
    flushDirty stalePageId frameId
    let s ← get
    set { s with pageTable := s.pageTable.erase stalePageId }
    return some frameId

/-- Case 2: a frame that is free. mirrors src/buffer/buffer_pool_manager.cpp:257-262 -/
def takeFree : PoolM Nat := do
  let s ← get
  match s.freeFrames with
  | [] => throw .nullDeref
  | frameId :: freeFrames =>
    set { s with freeFrames := freeFrames }
    return frameId

/-- mirrors src/buffer/buffer_pool_manager.cpp:239-244 -/
def readInto (pageId frameId : Nat) : PoolM Unit := do
  let data ← onDisk (readPage pageId)
  modifyFrame frameId fun h => { h with data := data }

/-- mirrors src/buffer/buffer_pool_manager.cpp:245-248 -/
def publish (pageId frameId : Nat) : PoolM Unit :=
  modify fun s => { s with pageTable := s.pageTable.insert pageId frameId }

/-- mirrors src/buffer/buffer_pool_manager.cpp:249-251 -/
def recordLoad (frameId pageId : Nat) : PoolM Unit := do
  onReplacer (ArcReplacer.recordAccess frameId pageId)
  onReplacer (ArcReplacer.setEvictable frameId false)

/-- The page is brought into the frame. -/
def load (pageId frameId : Nat) : PoolM Unit := do
  readInto pageId frameId
  publish pageId frameId
  recordLoad frameId pageId

/-- The common body of the two fetches. -/
def checkedPage (write : Bool) (pageId : Nat) : PoolM (Option Guard) := do
  let s ← get
  if (s.pageTable.lookup pageId).isSome then
    let frameId ← findFrame pageId
    recordHit frameId pageId
    return some ⟨pageId, frameId, write⟩
  else if s.numFrames = s.pageTable.entries.length then
    match ← evictFrame with
    | none => return none
    | some frameId =>
      load pageId frameId
      return some ⟨pageId, frameId, write⟩
  else
    let frameId ← takeFree
    load pageId frameId
    return some ⟨pageId, frameId, write⟩

/-- mirrors src/buffer/buffer_pool_manager.cpp:188-279 -/
def checkedWritePage (pageId : Nat) : PoolM (Option Guard) := checkedPage true pageId

/-- mirrors src/buffer/buffer_pool_manager.cpp:306-395 -/
def checkedReadPage (pageId : Nat) : PoolM (Option Guard) := checkedPage false pageId

/-! ## Guards -/

/-- `Drop` of a valid guard, its lock apart. mirrors src/storage/page_guard.cpp:137-153 and 311-325 -/
def Guard.drop (g : Guard) : PoolM Unit := unpin g.frameId

/-- mirrors src/storage/page_guard.cpp:289-298 -/
def Guard.flush (g : Guard) : PoolM Unit := do
  modifyFrame g.frameId .clean
  writeFrame g.pageId g.frameId

/-- What a client writes through `GetDataMut`. mirrors src/storage/page_guard.cpp:269-273 -/
def Guard.getDataMut (g : Guard) (data : Mem) : PoolM Unit :=
  modifyFrame g.frameId fun h => { h with isDirty := true, data := pageOf data }

/-- mirrors src/buffer/buffer_pool_manager.cpp:510-515 -/
def flushPage (pageId : Nat) : PoolM Bool := do
  match ← checkedWritePage pageId with
  | none => return false
  | some g =>
    -- the guard is destroyed, also on the way of an exception
    try g.flush finally g.drop
    return true

/-! ## Creating and deleting -/

/-- The page id goes to the first `get`, which leaves the future invalid.
mirrors src/buffer/buffer_pool_manager.cpp:103-111 -/
def newPage : PoolM Nat := do
  let futurePageId ← schedule allocatePage
  let (_, futurePageId) ← futurePageId.get
  if !futurePageId.valid then return INVALID_PAGE_ID
  let (pageId, _) ← futurePageId.get
  return pageId

/-- mirrors src/buffer/buffer_pool_manager.cpp:135-139 -/
def freeFrame (pageId frameId : Nat) : PoolM Unit := do
  modify fun s => { s with pageTable := s.pageTable.erase pageId }
  onReplacer (ArcReplacer.remove frameId)
  modifyFrame frameId .reset
  modify fun s => { s with freeFrames := s.freeFrames ++ [frameId] }

/-- mirrors src/buffer/buffer_pool_manager.cpp:126-147 -/
def deletePage (pageId : Nat) : PoolM Bool := do
  let s ← get
  match s.pageTable.lookup pageId with
  | none => return true
  | some frameId =>
    if (s.frames frameId).pinCount > 0 then return false
    freeFrame pageId frameId
    onDisk (deallocatePage pageId)
    return true

/-! ## What the blocks do -/

section
variable {s s' : BufferPoolManager} {f p : Nat}

@[simp] theorem withFrame_frames (g : FrameHeader → FrameHeader) :
    (s.withFrame f g).frames = Function.update s.frames f (g (s.frames f)) := rfl

theorem withFrame_self (s : BufferPoolManager) (f : Nat) (g : FrameHeader → FrameHeader) :
    (s.withFrame f g).frames f = g (s.frames f) := Function.update_self ..

theorem withFrame_of_ne (s : BufferPoolManager) {f c : Nat} (h : c ≠ f)
    (g : FrameHeader → FrameHeader) : (s.withFrame f g).frames c = s.frames c :=
  Function.update_of_ne h ..

/-- What a change of a frame leaves alone. -/
theorem withFrame_same {α : Type} (π : FrameHeader → α) (g : FrameHeader → FrameHeader)
    (h : ∀ x, π (g x) = π x) (c : Nat) : π ((s.withFrame f g).frames c) = π (s.frames c) := by
  rw [withFrame_frames]
  by_cases e : c = f
  · rw [e, Function.update_self, h]
  · rw [Function.update_of_ne e]

theorem onReplacer_ends {α : Type} {x : ArcM α} {a : α} : Ends (onReplacer x) s a s' ↔
    ∃ r, Ends x s.replacer a r ∧ s' = { s with replacer := r } := ends_zoom

theorem onDisk_ends {α : Type} {x : DiskM α} {a : α} : Ends (onDisk x) s a s' ↔
    ∃ d, Ends x s.disk a d ∧ s' = { s with disk := d } := ends_zoom

theorem setEvictable_pool {b : Bool} : Ends (onReplacer (ArcReplacer.setEvictable f b)) s () s' ↔
    f < s.replacer.replacerSize ∧ s' = { s with replacer := s.replacer.flag f b } := by
  rw [onReplacer_ends]
  constructor
  · intro h
    obtain ⟨r, h, rfl⟩ := h
    obtain ⟨hlt, rfl⟩ := ArcReplacer.setEvictable_ends.mp h
    exact ⟨hlt, rfl⟩
  · intro h
    exact ⟨_, ArcReplacer.setEvictable_ends.mpr ⟨h.1, rfl⟩, h.2⟩

theorem pinFlush_ends : Ends (pinFlush f) s () s' ↔ f < s.replacer.replacerSize ∧
    s' = { s.withFrame f fun h => h.clean.pinned with
      replacer := s.replacer.flag f false } := by
  constructor
  · intro h
    replace h := Ends.rest (Ends.modify _ s) h
    exact setEvictable_pool.mp h
  · intro h
    exact (Ends.modify _ s).bind (setEvictable_pool.mpr h)

theorem pinHit_ends (h : Ends (pinHit f) s () s') :
    s' = { s.withFrame f .pinned with
      replacer := if (s.frames f).pinCount = 0 then s.replacer.flag f false else s.replacer } := by
  replace h := Ends.rest (Ends.get s) h
  replace h := Ends.rest (Ends.modify _ s) h
  obtain ⟨hc, h⟩ | ⟨hc, h⟩ := Ends.ite h
  · rw [if_pos hc]
    exact (setEvictable_pool.mp h).2
  · cases h
    rw [if_neg hc]
    rfl

theorem unpin_ends (h : Ends (unpin f) s () s') :
    s' = { s.withFrame f .unpinned with
      replacer := if sizeDec (s.frames f).pinCount = 0 then s.replacer.flag f true
        else s.replacer } := by
  replace h := Ends.rest (Ends.modify _ s) h
  replace h := Ends.rest (Ends.get _) h
  have e : ((s.withFrame f .unpinned).frames f).pinCount =
      sizeDec (s.frames f).pinCount := by
    rw [withFrame_frames, Function.update_self]; rfl
  obtain ⟨hc, h⟩ | ⟨hc, h⟩ := Ends.ite h
  · rw [if_pos (e ▸ hc)]
    exact (setEvictable_pool.mp h).2
  · cases h
    rw [if_neg (e ▸ hc)]
    rfl

theorem pinHit_returns (hf : f < s.replacer.replacerSize) : Returns (pinHit f) s := by
  refine .bind (Ends.get s) (.bind (Ends.modify _ s) ?_)
  split
  · exact ⟨_, _, setEvictable_pool.mpr ⟨hf, rfl⟩⟩
  · exact .pure _ _

theorem unpin_returns (hf : f < s.replacer.replacerSize) : Returns (unpin f) s := by
  refine .bind (Ends.modify _ s) (.bind (Ends.get _) ?_)
  split
  · exact ⟨_, _, setEvictable_pool.mpr ⟨hf, rfl⟩⟩
  · exact .pure _ _

theorem writeFrame_ends : Ends (writeFrame p f) s () s' ↔
    ∃ d, Ends (writePage p (s.frames f).data) s.disk () d ∧ s' = { s with disk := d } := by
  constructor
  · intro h
    replace h := Ends.rest (Ends.get s) h
    exact onDisk_ends.mp h
  · intro h
    exact (Ends.get s).bind (onDisk_ends.mpr h)

end

/-! ## Pages and frames -/

/-- The page table, the free list and the replacer agree on which page is in
which frame; the frames in `flight` were taken and are not yet published. -/
structure Shape (flight : Set Nat) (s : BufferPoolManager) : Prop where
  ghosts : s.replacer.GhostsFiled
  owner : ∀ f p, s.replacer.owner f = some p → s.pageTable.lookup p = some f
  inj : ∀ p q f, s.pageTable.lookup p = some f → s.pageTable.lookup q = some f → p = q
  free_nodup : s.freeFrames.Nodup
  free_apart : ∀ f ∈ s.freeFrames, ∀ p, s.pageTable.lookup p ≠ some f
  flight_apart : ∀ f ∈ flight, f ∉ s.freeFrames ∧ ∀ p, s.pageTable.lookup p ≠ some f

/-- Pins, flags, dirty bits, data and the disk may change. -/
structure SameShape (s s' : BufferPoolManager) : Prop where
  numFrames : s'.numFrames = s.numFrames
  pageTable : s'.pageTable = s.pageTable
  freeFrames : s'.freeFrames = s.freeFrames
  owner : s'.replacer.owner = s.replacer.owner
  ghosts : s.replacer.GhostsFiled → s'.replacer.GhostsFiled

section
variable {s s' : BufferPoolManager} {f p : Nat} {flight : Set Nat}

theorem SameShape.self : SameShape s s := ⟨rfl, rfl, rfl, rfl, id⟩

theorem SameShape.trans {s'' : BufferPoolManager} (h : SameShape s s') (h' : SameShape s' s'') :
    SameShape s s'' :=
  ⟨h'.numFrames.trans h.numFrames, h'.pageTable.trans h.pageTable, h'.freeFrames.trans h.freeFrames,
    h'.owner.trans h.owner, fun hg => h'.ghosts (h.ghosts hg)⟩

theorem SameShape.disk (s : BufferPoolManager) (d : DiskManager) : SameShape s { s with disk := d } :=
  ⟨rfl, rfl, rfl, rfl, id⟩

theorem Shape.same (h : Shape flight s) (hs : SameShape s s') : Shape flight s' where
  ghosts := hs.ghosts h.ghosts
  owner := by rw [hs.owner, hs.pageTable]; exact h.owner
  inj := by rw [hs.pageTable]; exact h.inj
  free_nodup := by rw [hs.freeFrames]; exact h.free_nodup
  free_apart := by rw [hs.freeFrames, hs.pageTable]; exact h.free_apart
  flight_apart := by rw [hs.freeFrames, hs.pageTable]; exact h.flight_apart

/-- Frames in flight may be given up. -/
theorem Shape.mono (h : Shape flight s) {flight' : Set Nat} (hf : flight' ⊆ flight) :
    Shape flight' s :=
  { h with flight_apart := fun c hc => h.flight_apart c (hf hc) }

theorem SameShape.pinFlush (h : Ends (pinFlush f) s () s') : SameShape s s' := by
  obtain ⟨-, rfl⟩ := pinFlush_ends.mp h
  exact ⟨rfl, rfl, rfl, ArcReplacer.flag_owner .., fun hg => hg.flag _⟩

theorem SameShape.pinHit (h : Ends (pinHit f) s () s') : SameShape s s' := by
  rw [pinHit_ends h]
  split
  · exact ⟨rfl, rfl, rfl, ArcReplacer.flag_owner .., fun hg => hg.flag _⟩
  · exact ⟨rfl, rfl, rfl, rfl, id⟩

theorem SameShape.unpin (h : Ends (unpin f) s () s') : SameShape s s' := by
  rw [unpin_ends h]
  split
  · exact ⟨rfl, rfl, rfl, ArcReplacer.flag_owner .., fun hg => hg.flag _⟩
  · exact ⟨rfl, rfl, rfl, rfl, id⟩

theorem SameShape.writeFrame (h : Ends (writeFrame p f) s () s') : SameShape s s' := by
  obtain ⟨d, -, rfl⟩ := writeFrame_ends.mp h
  exact ⟨rfl, rfl, rfl, rfl, id⟩

theorem flushPageUnsafe_ends {ok : Bool} (h : Ends (flushPageUnsafe p) s ok s') :
    (s.pageTable.lookup p = none ∧ ok = false ∧ s' = s) ∨
    ∃ f s₁ s₂, s.pageTable.lookup p = some f ∧ ok = true ∧ Ends (pinFlush f) s () s₁ ∧
      Ends (writeFrame p f) s₁ () s₂ ∧ Ends (unpin f) s₂ () s' := by
  replace h := Ends.rest (Ends.get s) h
  cases hp : s.pageTable.lookup p with
  | none =>
    simp only [hp] at h
    cases h
    exact .inl ⟨rfl, rfl, rfl⟩
  | some f =>
    simp only [hp] at h
    obtain ⟨_, s₁, h₁, h⟩ := Ends.bind_iff.mp h
    obtain ⟨_, s₂, h₂, h⟩ := Ends.bind_iff.mp h
    obtain ⟨_, s₃, h₃, h⟩ := Ends.bind_iff.mp h
    cases h
    exact .inr ⟨f, s₁, s₂, rfl, rfl, h₁, h₂, h₃⟩

theorem SameShape.flushPageUnsafe {ok : Bool} (h : Ends (flushPageUnsafe p) s ok s') :
    SameShape s s' := by
  obtain ⟨-, -, rfl⟩ | ⟨f, s₁, s₂, -, -, h₁, h₂, h₃⟩ := flushPageUnsafe_ends h
  · exact .self
  · exact ((SameShape.pinFlush h₁).trans (.writeFrame h₂)).trans (.unpin h₃)

theorem flushDirty_ends {q : Nat} (h : Ends (flushDirty q f) s () s') :
    ((s.frames f).isDirty = false ∧ s' = s) ∨
      (s.frames f).isDirty = true ∧ ∃ ok, Ends (flushPageUnsafe q) s ok s' := by
  replace h := Ends.rest (Ends.get s) h
  obtain ⟨hd, h⟩ | ⟨hd, h⟩ := Ends.ite h
  · obtain ⟨ok, s₁, h₁, h⟩ := Ends.bind_iff.mp h
    cases h
    exact .inr ⟨hd, ok, h₁⟩
  · cases h
    exact .inl ⟨Bool.eq_false_iff.mpr hd, rfl⟩

theorem SameShape.flushDirty {q : Nat} (h : Ends (flushDirty q f) s () s') : SameShape s s' := by
  obtain ⟨-, rfl⟩ | ⟨-, ok, h⟩ := flushDirty_ends h
  · exact .self
  · exact .flushPageUnsafe h

theorem SameShape.pinDirty {order requests : List (Σ _ : Nat, Nat)}
    (h : Ends (pinDirty order) s requests s') : SameShape s s' := by
  induction order generalizing s requests with
  | nil =>
    cases h
    exact .self
  | cons e order ih =>
    rw [Buffer.pinDirty] at h
    replace h := Ends.rest (Ends.get s) h
    obtain ⟨-, h⟩ | ⟨-, h⟩ := Ends.ite h
    · obtain ⟨_, s₁, h₁, h⟩ := Ends.bind_iff.mp h
      obtain ⟨rs, s₂, h₂, h⟩ := Ends.bind_iff.mp h
      cases h
      exact (SameShape.pinFlush h₁).trans (ih h₂)
    · exact ih h

theorem schedule_ends {α : Type} {request : DiskM α} {future : Future α} :
    Ends (schedule request) s future s' ↔
      (∃ a d, Ends request s.disk a d ∧ future = ⟨some (.ok a)⟩ ∧ s' = { s with disk := d }) ∨
      ∃ e d, Throws request s.disk e d ∧ future = ⟨some (.error e)⟩ ∧ s' = { s with disk := d } := by
  simp only [schedule, Ends, Throws]
  cases request s.disk with
  | ok a d =>
    constructor
    · intro h
      cases h
      exact .inl ⟨a, d, rfl, rfl, rfl⟩
    · rintro (⟨_, _, hr, rfl, rfl⟩ | ⟨_, _, hr, -⟩)
      · cases hr
        rfl
      · cases hr
  | error e d =>
    constructor
    · intro h
      cases h
      exact .inr ⟨e, d, rfl, rfl, rfl⟩
    · rintro (⟨_, _, hr, -⟩ | ⟨_, _, hr, rfl, rfl⟩)
      · cases hr
      · cases hr
        rfl

/-- What goes wrong on the disk is kept in the future. -/
theorem schedule_not_throws {α : Type} {request : DiskM α} {e : Fault} :
    ¬ Throws (schedule request) s e s' := by
  intro h
  simp only [schedule, Throws] at h
  cases hr : request s.disk with
  | ok a d => simp only [hr] at h; cases h
  | error e d => simp only [hr] at h; cases h

/-- Writes that all return are the writes of one request after the other. -/
theorem writeAll_cons {e : Σ _ : Nat, Nat} {requests : List (Σ _ : Nat, Nat)}
    (h : Ends (writeAll (e :: requests)) s () s') :
    ∃ s₁, Ends (writeFrame e.1 e.2) s () s₁ ∧ Ends (writeAll requests) s₁ () s' := by
  obtain ⟨_, s₂, h₁, h₂⟩ := Ends.bind_iff.mp h
  replace h₁ := Ends.rest (Ends.get s) h₁
  obtain ⟨future, s₁, h₃, h₁⟩ := Ends.bind_iff.mp h₁
  obtain ⟨futures, s₃, h₄, h₁⟩ := Ends.bind_iff.mp h₁
  cases h₁
  obtain ⟨a, d, hw, rfl, rfl⟩ | ⟨_, _, -, rfl, rfl⟩ := schedule_ends.mp h₃
  · exact ⟨_, (Ends.get s).bind (onDisk_ends.mpr ⟨d, hw, rfl⟩), h₄.bind h₂⟩
  · cases h₂

theorem SameShape.writeAll {requests : List (Σ _ : Nat, Nat)}
    (h : Ends (writeAll requests) s () s') : SameShape s s' := by
  induction requests generalizing s with
  | nil =>
    cases h
    exact .self
  | cons e requests ih =>
    obtain ⟨s₁, h₁, h₂⟩ := writeAll_cons h
    exact (SameShape.writeFrame h₁).trans (ih h₂)

theorem SameShape.unpinAll {requests : List (Σ _ : Nat, Nat)}
    (h : Ends (unpinAll requests) s () s') : SameShape s s' := by
  induction requests generalizing s with
  | nil =>
    cases h
    exact .self
  | cons e requests ih =>
    rw [Buffer.unpinAll] at h
    obtain ⟨_, s₁, h₁, h₂⟩ := Ends.bind_iff.mp h
    exact (SameShape.unpin h₁).trans (ih h₂)

theorem SameShape.flushAllPagesUnsafe {order : List (Σ _ : Nat, Nat)}
    (h : Ends (flushAllPagesUnsafe order) s () s') : SameShape s s' := by
  obtain ⟨rs, s₁, h₁, h⟩ := Ends.bind_iff.mp h
  obtain ⟨_, s₂, h₂, h₃⟩ := Ends.bind_iff.mp h
  exact ((SameShape.pinDirty h₁).trans (.writeAll h₂)).trans (.unpinAll h₃)

/-- Nothing is evictable, or the frame gives up the page it was recorded for. -/
theorem evictFrame_ends {o : Option Nat} (h : Ends evictFrame s o s') :
    (o = none ∧ Ends ArcReplacer.evict s.replacer none s.replacer ∧ s' = s) ∨
    ∃ f q r s₁, o = some f ∧ Ends ArcReplacer.evict s.replacer (some (q, f)) r ∧
      s.replacer.owner f = some q ∧ Ends (flushDirty q f) { s with replacer := r } () s₁ ∧
      s' = { s₁ with pageTable := s₁.pageTable.erase q } := by
  obtain ⟨o₁, s₁, h₁, h⟩ := Ends.bind_iff.mp h
  obtain ⟨r, hr, rfl⟩ := onReplacer_ends.mp h₁
  obtain ⟨rfl, rfl, -⟩ | ⟨f, st, rfl, hst, -, hev⟩ := ArcReplacer.evict_ends hr
  · cases h
    exact .inl ⟨rfl, hr, rfl⟩
  · obtain ⟨_, s₁, h₂, h⟩ := Ends.bind_iff.mp h
    replace h := Ends.rest (Ends.get s₁) h
    cases h
    refine .inr ⟨f, st.pageId, r, s₁, rfl, hr, ?_, h₂, rfl⟩
    rw [ArcReplacer.owner, hst, Option.map_some]

theorem Shape.evictFrame (h : Shape flight s) {o : Option Nat} (he : Ends evictFrame s o s') :
    (o = none ∧ s' = s) ∨ ∃ f q, o = some f ∧ s.pageTable.lookup q = some f ∧
      Shape (insert f flight) s' ∧ s'.numFrames = s.numFrames ∧ s'.freeFrames = s.freeFrames ∧
      s'.pageTable = s.pageTable.erase q := by
  obtain ⟨rfl, -, rfl⟩ | ⟨f, q, r, s₁, rfl, hr, hq, h₁, rfl⟩ := evictFrame_ends he
  · exact .inl ⟨rfl, rfl⟩
  have hlook := h.owner f q hq
  obtain ⟨h0, -⟩ | ⟨f', st, hfq, hst, -, hev⟩ := ArcReplacer.evict_ends hr
  · cases h0
  cases hfq
  have hs := SameShape.flushDirty h₁
  have htab : s₁.pageTable = s.pageTable := hs.pageTable
  have hfree : s₁.freeFrames = s.freeFrames := hs.freeFrames
  have hown : s₁.replacer.owner = Function.update s.replacer.owner f none :=
    hs.owner.trans hev.owner
  -- a page still mapped is not the one given up
  have hkeep : ∀ p c, (s.pageTable.erase st.pageId).lookup p = some c →
      p ≠ st.pageId ∧ s.pageTable.lookup p = some c := by
    intro p c hp
    have hne : p ≠ st.pageId := by
      intro e
      rw [e, AList.lookup_erase] at hp
      cases hp
    exact ⟨hne, by rwa [AList.lookup_erase_ne hne] at hp⟩
  refine .inr ⟨f, st.pageId, rfl, hlook, ?_, hs.numFrames, hfree,
    congrArg (AList.erase st.pageId) htab⟩
  rw [htab]
  constructor
  · exact hs.ghosts (hev.ghostsFiled h.ghosts)
  · intro c p hc
    change s₁.replacer.owner c = some p at hc
    rw [hown] at hc
    have hcf : c ≠ f := by
      intro e
      rw [e, Function.update_self] at hc
      cases hc
    rw [Function.update_of_ne hcf] at hc
    have hp := h.owner c p hc
    have hne : p ≠ st.pageId := by
      intro e
      rw [e, hlook] at hp
      exact hcf (Option.some.inj hp).symm
    rw [AList.lookup_erase_ne hne]
    exact hp
  · intro p p' c hp hp'
    exact h.inj p p' c (hkeep p c hp).2 (hkeep p' c hp').2
  · rw [hfree]
    exact h.free_nodup
  · intro c hc p hp
    rw [hfree] at hc
    exact h.free_apart c hc p (hkeep p c hp).2
  · intro c hc
    rw [hfree]
    obtain rfl | hc := Set.mem_insert_iff.mp hc
    · refine ⟨fun hm => h.free_apart c hm _ hlook, fun p hp => ?_⟩
      exact (hkeep p c hp).1 (h.inj p _ c (hkeep p c hp).2 hlook)
    · exact ⟨(h.flight_apart c hc).1, fun p hp => (h.flight_apart c hc).2 p (hkeep p c hp).2⟩

theorem takeFree_ends (h : Ends takeFree s f s') :
    ∃ fs, s.freeFrames = f :: fs ∧ s' = { s with freeFrames := fs } := by
  replace h := Ends.rest (Ends.get s) h
  cases hf : s.freeFrames with
  | nil => simp only [hf] at h; cases h
  | cons c fs =>
    simp only [hf] at h
    cases h
    exact ⟨fs, rfl, rfl⟩

theorem Shape.takeFree (h : Shape flight s) (ht : Ends takeFree s f s') :
    Shape (insert f flight) s' := by
  obtain ⟨fs, hfs, rfl⟩ := takeFree_ends ht
  have hn := h.free_nodup
  have hapart := h.free_apart
  rw [hfs] at hn hapart
  constructor
  · exact h.ghosts
  · exact h.owner
  · exact h.inj
  · exact hn.of_cons
  · exact fun c hc => hapart c (List.mem_cons_of_mem _ hc)
  · intro c hc
    obtain rfl | hc := Set.mem_insert_iff.mp hc
    · exact ⟨(List.nodup_cons.mp hn).1, hapart c List.mem_cons_self⟩
    · have := h.flight_apart c hc
      rw [hfs] at this
      exact ⟨fun hm => this.1 (List.mem_cons_of_mem _ hm), this.2⟩

theorem readInto_ends (h : Ends (readInto p f) s () s') : ∃ data d,
    Ends (readPage p) s.disk data d ∧
      s' = { s with disk := d }.withFrame f fun h => { h with data := data } := by
  obtain ⟨data, s₁, h₁, h⟩ := Ends.bind_iff.mp h
  obtain ⟨d, hd, rfl⟩ := onDisk_ends.mp h₁
  cases h
  exact ⟨data, d, hd, rfl⟩

theorem SameShape.readInto (h : Ends (readInto p f) s () s') : SameShape s s' := by
  obtain ⟨data, d, -, rfl⟩ := readInto_ends h
  exact ⟨rfl, rfl, rfl, rfl, id⟩

/-- Publication of a page that is in no frame. -/
theorem Shape.publish (h : Shape flight s) (hf : f ∈ flight) (hp : s.pageTable.lookup p = none)
    (he : Ends (publish p f) s () s') : Shape (flight \ {f}) s' := by
  cases he
  obtain ⟨hfree, hmap⟩ := h.flight_apart f hf
  have hlook : ∀ q c, (s.pageTable.insert p f).lookup q = some c →
      (q = p ∧ c = f) ∨ q ≠ p ∧ s.pageTable.lookup q = some c := by
    intro q c hq
    by_cases e : q = p
    · subst e
      rw [AList.lookup_insert] at hq
      exact .inl ⟨rfl, (Option.some.inj hq).symm⟩
    · rw [AList.lookup_insert_ne e] at hq
      exact .inr ⟨e, hq⟩
  constructor
  · exact h.ghosts
  · intro c q hc
    have hq := h.owner c q hc
    have hne : q ≠ p := by
      intro e
      rw [e, hp] at hq
      cases hq
    exact (AList.lookup_insert_ne hne).trans hq
  · intro q q' c hq hq'
    obtain ⟨rfl, rfl⟩ | ⟨-, h₁⟩ := hlook q c hq
    · obtain ⟨rfl, -⟩ | ⟨-, h₂⟩ := hlook q' c hq'
      · rfl
      · exact absurd h₂ (hmap q')
    · obtain ⟨-, rfl⟩ | ⟨-, h₂⟩ := hlook q' c hq'
      · exact absurd h₁ (hmap q)
      · exact h.inj q q' c h₁ h₂
  · exact h.free_nodup
  · intro c hc q hq
    obtain ⟨-, rfl⟩ | ⟨-, hq⟩ := hlook q c hq
    · exact hfree hc
    · exact h.free_apart c hc q hq
  · intro c hc
    refine ⟨(h.flight_apart c hc.1).1, fun q hq => ?_⟩
    obtain ⟨-, rfl⟩ | ⟨-, hq⟩ := hlook q c hq
    · exact hc.2 (rfl)
    · exact (h.flight_apart c hc.1).2 q hq

/-- An access recorded for the page the frame holds. -/
theorem Shape.recordAccess (h : Shape flight s) (hp : s.pageTable.lookup p = some f)
    (he : Ends (onReplacer (ArcReplacer.recordAccess f p)) s () s') : Shape flight s' := by
  obtain ⟨r, hr, rfl⟩ := onReplacer_ends.mp he
  obtain ⟨hg, ho⟩ := ArcReplacer.recordAccess_owner h.ghosts hr
  refine ⟨hg, fun c q hc => ?_, h.inj, h.free_nodup, h.free_apart, h.flight_apart⟩
  change r.owner c = some q at hc
  rw [ho] at hc
  by_cases e : c = f
  · subst e
    rw [Function.update_self] at hc
    cases hq : s.replacer.owner c with
    | none =>
      rw [hq] at hc
      cases hc
      exact hp
    | some q' =>
      rw [hq] at hc
      cases hc
      exact h.owner c _ hq
  · rw [Function.update_of_ne e] at hc
    exact h.owner c q hc

theorem Shape.recordHit (h : Shape flight s) (hp : s.pageTable.lookup p = some f)
    (he : Ends (recordHit f p) s () s') : Shape flight s' := by
  obtain ⟨_, s₁, h₁, h₂⟩ := Ends.bind_iff.mp he
  exact (h.recordAccess hp h₁).same (.pinHit h₂)

theorem Shape.recordLoad (h : Shape flight s) (hp : s.pageTable.lookup p = some f)
    (he : Ends (recordLoad f p) s () s') : Shape flight s' := by
  obtain ⟨_, s₁, h₁, h₂⟩ := Ends.bind_iff.mp he
  apply (h.recordAccess hp h₁).same
  obtain ⟨-, rfl⟩ := setEvictable_pool.mp h₂
  exact ⟨rfl, rfl, rfl, ArcReplacer.flag_owner .., fun hg => hg.flag _⟩

theorem recordHit_table (he : Ends (recordHit f p) s () s') : s'.pageTable = s.pageTable := by
  obtain ⟨_, s₁, h₁, h₂⟩ := Ends.bind_iff.mp he
  obtain ⟨r, -, rfl⟩ := onReplacer_ends.mp h₁
  exact (SameShape.pinHit h₂).pageTable

theorem recordLoad_table (he : Ends (recordLoad f p) s () s') : s'.pageTable = s.pageTable := by
  obtain ⟨_, s₁, h₁, h₂⟩ := Ends.bind_iff.mp he
  obtain ⟨r, -, rfl⟩ := onReplacer_ends.mp h₁
  obtain ⟨-, rfl⟩ := setEvictable_pool.mp h₂
  rfl

/-- The frame ids of a pool of at most `2 ^ 32` frames are distinct. -/
theorem Shape.create {numFrames : Nat} {d : DiskManager} (hn : numFrames ≤ 2 ^ 32) :
    Shape ∅ (.create numFrames d) := by
  refine ⟨nofun, nofun, nofun, ?_, fun f _ p hp => (nomatch hp), nofun⟩
  refine List.Nodup.map_on (fun x hx y hy e => ?_) List.nodup_range
  have hx := List.mem_range.mp hx
  have hy := List.mem_range.mp hy
  rwa [Nat.mod_eq_of_lt (by omega), Nat.mod_eq_of_lt (by omega)] at e

end

/-! ## The cases of a fetch -/

/-- A fetch of `p` returns: the frame, if any, and the pool. -/
inductive Fetched (s : BufferPoolManager) (p : Nat) : Option Nat → BufferPoolManager → Prop
  | hit {f : Nat} {s' : BufferPoolManager} (hp : s.pageTable.lookup p = some f)
    (h : Ends (recordHit f p) s () s') : Fetched s p (some f) s'
  | full {s' : BufferPoolManager} (hp : s.pageTable.lookup p = none)
    (hn : s.numFrames = s.pageTable.entries.length) (h : Ends evictFrame s none s') :
    Fetched s p none s'
  | evict {f : Nat} {s₁ s' : BufferPoolManager} (hp : s.pageTable.lookup p = none)
    (hn : s.numFrames = s.pageTable.entries.length) (h₁ : Ends evictFrame s (some f) s₁)
    (h₂ : Ends (load p f) s₁ () s') : Fetched s p (some f) s'
  | free {f : Nat} {s₁ s' : BufferPoolManager} (hp : s.pageTable.lookup p = none)
    (hn : s.numFrames ≠ s.pageTable.entries.length) (h₁ : Ends takeFree s f s₁)
    (h₂ : Ends (load p f) s₁ () s') : Fetched s p (some f) s'

/-- The frame the replacer evicts next. -/
def Victim (s : BufferPoolManager) (f : Nat) : Prop :=
  ∃ q r, Ends ArcReplacer.evict s.replacer (some (q, f)) r

section
variable {s s' : BufferPoolManager} {p : Nat} {w : Bool}

theorem checkedPage_ends {o : Option Guard} : Ends (checkedPage w p) s o s' ↔
    ∃ f, o = f.map (⟨p, ·, w⟩) ∧ Fetched s p f s' := by
  constructor
  · intro h
    replace h := Ends.rest (Ends.get s) h
    obtain ⟨hp, h⟩ | ⟨hp, h⟩ := Ends.ite h
    · obtain ⟨f, s₁, h₁, h⟩ := Ends.bind_iff.mp h
      obtain ⟨f', hf'⟩ := Option.isSome_iff_exists.mp hp
      replace h₁ := Ends.rest (Ends.get s) h₁
      simp only [hf'] at h₁
      cases h₁
      obtain ⟨_, s₂, h₂, h⟩ := Ends.bind_iff.mp h
      cases h
      exact ⟨some f, rfl, .hit hf' h₂⟩
    replace hp := Option.not_isSome_iff_eq_none.mp hp
    obtain ⟨hn, h⟩ | ⟨hn, h⟩ := Ends.ite h
    · obtain ⟨o', s₁, h₁, h⟩ := Ends.bind_iff.mp h
      cases o' with
      | none => cases h; exact ⟨none, rfl, .full hp hn h₁⟩
      | some f =>
        obtain ⟨_, s₂, h₂, h⟩ := Ends.bind_iff.mp h
        cases h
        exact ⟨some f, rfl, .evict hp hn h₁ h₂⟩
    · obtain ⟨f, s₁, h₁, h⟩ := Ends.bind_iff.mp h
      obtain ⟨_, s₂, h₂, h⟩ := Ends.bind_iff.mp h
      cases h
      exact ⟨some f, rfl, .free hp hn h₁ h₂⟩
  · intro h
    obtain ⟨o', rfl, h⟩ := h
    apply (Ends.get s).bind
    cases h with
    | @hit f _ hp h =>
      have hfind : Ends (findFrame p) s f s := by
        apply (Ends.get s).bind
        simp only [hp]
        exact .pure f s
      rw [if_pos (by rw [hp]; rfl)]
      exact hfind.bind (h.bind (.pure _ _))
    | full hp hn h =>
      rw [if_neg (by rw [hp]; simp), if_pos hn]
      exact h.bind (.pure _ _)
    | evict hp hn h₁ h₂ =>
      rw [if_neg (by rw [hp]; simp), if_pos hn]
      exact h₁.bind (h₂.bind (.pure _ _))
    | free hp hn h₁ h₂ =>
      rw [if_neg (by rw [hp]; simp), if_neg hn]
      exact h₁.bind (h₂.bind (.pure _ _))

/-- A flush is a fetch for writing, a write and a drop. -/
theorem flushPage_ends {ok : Bool} (h : Ends (flushPage p) s ok s') :
    (ok = false ∧ Fetched s p none s') ∨ ∃ f s₁ s₂, ok = true ∧ Fetched s p (some f) s₁ ∧
      Ends (Guard.flush ⟨p, f, true⟩) s₁ () s₂ ∧ Ends (unpin f) s₂ () s' := by
  obtain ⟨o, s₁, h₁, h⟩ := Ends.bind_iff.mp h
  obtain ⟨f, rfl, hf⟩ := checkedPage_ends.mp h₁
  cases f with
  | none => cases h; exact .inl ⟨rfl, hf⟩
  | some f =>
    obtain ⟨_, s₃, h₂, h⟩ := Ends.bind_iff.mp h
    cases h
    obtain ⟨s₂, _, h₂, h₃⟩ := Ends.finally_iff.mp h₂
    exact .inr ⟨f, s₁, s₂, rfl, hf, h₂, h₃⟩

end

/-! ## Runs -/

/-- The pool and the guards alive. -/
structure System where
  pool : BufferPoolManager
  guards : List Guard

/-- No guard alive keeps the new one from its frame's latch. -/
def Lockable (guards : List Guard) (g : Guard) : Prop :=
  ∀ g' ∈ guards, g'.frameId = g.frameId → g'.write = false ∧ g.write = false

instance (guards : List Guard) (g : Guard) : Decidable (Lockable guards g) :=
  inferInstanceAs (Decidable (∀ g' ∈ guards, g'.frameId = g.frameId → _ ∧ _))

inductive Call where
  | fetch (write : Bool) (pageId : Nat)
  | drop (g : Guard)
  | write (g : Guard) (data : Mem)
  | flushPage (pageId : Nat)
  | flushPageUnsafe (pageId : Nat)
  | flushAllPagesUnsafe

/-- A call that returns. -/
inductive Step : System → Call → System → Prop
  | fetched {s : System} {w : Bool} {p : Nat} {g : Guard} {b : BufferPoolManager}
    (h : Ends (checkedPage w p) s.pool (some g) b) (hl : Lockable s.guards g)
    (hn : s.guards.length < 2 ^ 63) : Step s (.fetch w p) ⟨b, g :: s.guards⟩
  | refused {s : System} {w : Bool} {p : Nat} {b : BufferPoolManager}
    (h : Ends (checkedPage w p) s.pool none b) : Step s (.fetch w p) ⟨b, s.guards⟩
  | dropped {s : System} {g : Guard} {b : BufferPoolManager} (hg : g ∈ s.guards)
    (h : Ends g.drop s.pool () b) : Step s (.drop g) ⟨b, s.guards.erase g⟩
  | wrote {s : System} {g : Guard} {data : Mem} {b : BufferPoolManager} (hg : g ∈ s.guards)
    (hw : g.write = true) (h : Ends (g.getDataMut data) s.pool () b) :
    Step s (.write g data) ⟨b, s.guards⟩
  | flushedPage {s : System} {p : Nat} {ok : Bool} {b : BufferPoolManager}
    (h : Ends (flushPage p) s.pool ok b)
    (hl : ∀ g b', Ends (checkedWritePage p) s.pool (some g) b' → Lockable s.guards g) :
    Step s (.flushPage p) ⟨b, s.guards⟩
  | flushed {s : System} {p : Nat} {ok : Bool} {b : BufferPoolManager}
    (h : Ends (flushPageUnsafe p) s.pool ok b) : Step s (.flushPageUnsafe p) ⟨b, s.guards⟩
  | flushedAll {s : System} {order : List (Σ _ : Nat, Nat)} {b : BufferPoolManager}
    (ho : order.Perm s.pool.pageTable.entries) (h : Ends (flushAllPagesUnsafe order) s.pool () b) :
    Step s .flushAllPagesUnsafe ⟨b, s.guards⟩

/-- The step of a call, computed; the page table is flushed in its own order. -/
def exec (s : System) : Call → Option System
  | .fetch w p =>
    match checkedPage w p s.pool with
    | .ok (some g) b =>
      if Lockable s.guards g ∧ s.guards.length < 2 ^ 63 then some ⟨b, g :: s.guards⟩ else none
    | .ok none b => some ⟨b, s.guards⟩
    | .error .. => none
  | .drop g =>
    match g.drop s.pool with
    | .ok _ b => if g ∈ s.guards then some ⟨b, s.guards.erase g⟩ else none
    | .error .. => none
  | .write g data =>
    match g.getDataMut data s.pool with
    | .ok _ b => if g ∈ s.guards ∧ g.write = true then some ⟨b, s.guards⟩ else none
    | .error .. => none
  | .flushPage p =>
    match flushPage p s.pool, checkedWritePage p s.pool with
    | .ok _ b, .ok (some g) _ => if Lockable s.guards g then some ⟨b, s.guards⟩ else none
    | .ok _ b, _ => some ⟨b, s.guards⟩
    | .error .., _ => none
  | .flushPageUnsafe p =>
    match flushPageUnsafe p s.pool with
    | .ok _ b => some ⟨b, s.guards⟩
    | .error .. => none
  | .flushAllPagesUnsafe =>
    match flushAllPagesUnsafe s.pool.pageTable.entries s.pool with
    | .ok _ b => some ⟨b, s.guards⟩
    | .error .. => none

theorem exec_step {s s' : System} {c : Call} (h : exec s c = some s') : Step s c s' := by
  cases c with
  | fetch w p =>
    rw [exec] at h
    split at h
    next g b he =>
      split at h
      next hl => cases h; exact .fetched he hl.1 hl.2
      next => cases h
    next b he => cases h; exact .refused he
    next => cases h
  | drop g =>
    rw [exec] at h
    split at h
    next b he =>
      split at h
      next hg => cases h; exact .dropped hg he
      next => cases h
    next => cases h
  | write g data =>
    rw [exec] at h
    split at h
    next b he =>
      split at h
      next hg => cases h; exact .wrote hg.1 hg.2 he
      next => cases h
    next => cases h
  | flushPage p =>
    rw [exec] at h
    split at h
    next b g b' he hg =>
      split at h
      next hl =>
        cases h
        refine .flushedPage he fun g' b'' hg' => ?_
        obtain ⟨hg', -⟩ := Ends.unique hg hg'
        cases hg'
        exact hl
      next => cases h
    next b he hn =>
      cases h
      exact .flushedPage he fun g' b'' hg' => absurd hg' (hn g' b'')
    next => cases h
  | flushPageUnsafe p =>
    rw [exec] at h
    split at h
    next b he => cases h; exact .flushed he
    next => cases h
  | flushAllPagesUnsafe =>
    rw [exec] at h
    split at h
    next b he => cases h; exact .flushedAll (.refl _) he
    next => cases h

/-- A file with the pages 0, 1 and 2; the first byte of each is its id. -/
def threePages : DiskManager where
  globalMetadata := ⟨MAGIC_NUMBER, 0, 0, INVALID_PAGE_ID, 3⟩
  bytes i := if i = 4096 then 1 else if i = 8192 then 2 else 0
  size := 12288
  io := none

end DbInternals.Buffer
