import DbInternals.Buffer.BufferPool

/-!
# Creating, deleting and failing

What `NewPage` and `DeletePage` do, and where a fetch is when an exception
leaves it. Only the disk throws one; the replacer ends the process instead.

Results: `newPage_ends`, `deletePage_ends`, and `checkedPage_throws`, which
finds the failed write or read in the case of the fetch that made it.
-/
namespace DbInternals.Buffer

open Storage ArcReplacer

section
variable {s s' s₀ : BufferPoolManager} {f p : Nat} {e : Fault}

/-! ## Deleting -/

theorem freeFrame_ends (h : Ends (freeFrame p f) s () s') :
    ∃ r, Ends (ArcReplacer.remove f) s.replacer () r ∧
      s' = { s.withFrame f .reset with
        pageTable := s.pageTable.erase p
        replacer := r
        freeFrames := s.freeFrames ++ [f] } := by
  replace h := Ends.rest (Ends.modify _ s) h
  obtain ⟨_, s₁, h₁, h⟩ := Ends.bind_iff.mp h
  obtain ⟨r, hr, rfl⟩ := onReplacer_ends.mp h₁
  cases h
  exact ⟨r, hr, rfl⟩

/-- A page that is not resident is left alone, a pinned one is refused, and any
other one's frame is free before its id goes to the disk. -/
theorem deletePage_ends {ok : Bool} (h : Ends (deletePage p) s ok s') :
    (s.pageTable.lookup p = none ∧ ok = true ∧ s' = s) ∨
    ∃ f, s.pageTable.lookup p = some f ∧
      ((0 < (s.frames f).pinCount ∧ ok = false ∧ s' = s) ∨
        (s.frames f).pinCount = 0 ∧ ok = true ∧ ∃ s₁ d, Ends (freeFrame p f) s () s₁ ∧
          Ends (deallocatePage p) s₁.disk () d ∧ s' = { s₁ with disk := d }) := by
  replace h := Ends.rest (Ends.get s) h
  cases hp : s.pageTable.lookup p with
  | none =>
    simp only [hp] at h
    cases h
    exact .inl ⟨rfl, rfl, rfl⟩
  | some f =>
    simp only [hp] at h
    obtain ⟨hpin, h⟩ | ⟨hpin, h⟩ := Ends.ite h
    · cases h
      exact .inr ⟨f, rfl, .inl ⟨hpin, rfl, rfl⟩⟩
    obtain ⟨_, s₁, h₁, h⟩ := Ends.bind_iff.mp h
    obtain ⟨_, s₂, h₂, h⟩ := Ends.bind_iff.mp h
    obtain ⟨d, hd, rfl⟩ := onDisk_ends.mp h₂
    cases h
    exact .inr ⟨f, rfl, .inr ⟨by omega, rfl, s₁, d, h₁, hd, rfl⟩⟩

/-! ## Creating -/

/-- The second `get` is never reached: the page id taken from the free list or
the end of the file is lost, and the call returns the invalid id. -/
theorem newPage_ends {id : Nat} : Ends newPage s id s' ↔
    id = INVALID_PAGE_ID ∧ ∃ p d, Ends allocatePage s.disk p d ∧ s' = { s with disk := d } := by
  unfold newPage
  rw [Ends.bind_iff]
  constructor
  · intro h
    obtain ⟨future, s₁, h₁, h⟩ := h
    obtain ⟨p, d, ha, rfl, rfl⟩ | ⟨_, _, -, rfl, rfl⟩ := schedule_ends.mp h₁
    · cases h
      exact ⟨rfl, p, d, ha, rfl⟩
    · cases h
  · intro h
    obtain ⟨rfl, p, d, ha, rfl⟩ := h
    exact ⟨_, _, schedule_ends.mpr (.inl ⟨p, d, ha, rfl, rfl⟩), rfl⟩

theorem newPage_throws (h : Throws newPage s e s') :
    ∃ d, Throws allocatePage s.disk e d ∧ s' = { s with disk := d } := by
  unfold newPage at h
  obtain h₁ | ⟨future, s₁, h₁, h⟩ := Throws.bind_iff.mp h
  · exact (schedule_not_throws h₁).elim
  · obtain ⟨_, _, -, rfl, rfl⟩ | ⟨e', d, ha, rfl, rfl⟩ := schedule_ends.mp h₁
    · cases h
    · cases h
      exact ⟨d, ha, rfl⟩

/-! ## Failing -/

theorem onReplacer_fatal {α : Type} {x : ArcM α} (h : ThrowsOnly Fatal x) :
    ThrowsOnly Fatal (onReplacer x) := by
  intro s e s' ht
  obtain ⟨r, ht, -⟩ := throws_zoom.mp ht
  exact h _ _ _ ht

theorem onDisk_throws {α : Type} {x : DiskM α} : Throws (onDisk x) s e s' ↔
    ∃ d, Throws x s.disk e d ∧ s' = { s with disk := d } := throws_zoom

theorem modifyFrame_fatal (f : Nat) (g : FrameHeader → FrameHeader) :
    ThrowsOnly Fatal (modifyFrame f g) := .modify _

theorem pinFlush_fatal (f : Nat) : ThrowsOnly Fatal (pinFlush f) :=
  .bind (modifyFrame_fatal _ _) fun _ => onReplacer_fatal (setEvictable_fatal f false)

theorem pinHit_fatal (f : Nat) : ThrowsOnly Fatal (pinHit f) :=
  .bind .get fun _ => .bind (modifyFrame_fatal _ _) fun _ =>
    .ite (onReplacer_fatal (setEvictable_fatal f false)) (.pure _)

theorem unpin_fatal (f : Nat) : ThrowsOnly Fatal (unpin f) :=
  .bind (modifyFrame_fatal _ _) fun _ => .bind .get fun _ =>
    .ite (onReplacer_fatal (setEvictable_fatal f true)) (.pure _)

theorem recordHit_fatal (f p : Nat) : ThrowsOnly Fatal (recordHit f p) :=
  .bind (onReplacer_fatal (recordAccess_fatal f p)) fun _ => pinHit_fatal f

theorem recordLoad_fatal (f p : Nat) : ThrowsOnly Fatal (recordLoad f p) :=
  .bind (onReplacer_fatal (recordAccess_fatal f p)) fun _ =>
    onReplacer_fatal (setEvictable_fatal f false)

theorem findFrame_fatal (p : Nat) : ThrowsOnly Fatal (findFrame p) := by
  refine .bind .get fun s => ?_
  split
  · exact .throw rfl
  · exact .pure _

theorem takeFree_fatal : ThrowsOnly Fatal takeFree := by
  refine .bind .get fun s => ?_
  split
  · exact .throw rfl
  · exact .bind (.set _) fun _ => .pure _

theorem freeFrame_fatal (p f : Nat) : ThrowsOnly Fatal (freeFrame p f) :=
  .bind (.modify _) fun _ => .bind (onReplacer_fatal (remove_fatal f)) fun _ =>
    .bind (modifyFrame_fatal _ _) fun _ => .modify _

/-- No exception leaves a step that only ends the process. -/
theorem not_exception {α : Type} {x : PoolM α} (h : ThrowsOnly Fatal x) (ht : Throws x s e s')
    (he : e.isException = true) : False := by
  have hf : e.isException = false := h _ _ _ ht
  rw [hf] at he
  cases he

/-- The write of a flush failed: the frame stays pinned, and in the page table. -/
theorem flushDirty_throws {q : Nat} (h : Throws (flushDirty q f) s e s')
    (he : e.isException = true) : SameShape s s' := by
  replace h := Throws.rest (Ends.get s) h
  obtain ⟨-, h⟩ | ⟨-, h⟩ := Throws.ite h
  swap
  · cases h
  obtain h | ⟨ok, s₁, -, h⟩ := Throws.bind_iff.mp h
  swap
  · cases h
  replace h := Throws.rest (Ends.get s) h
  split at h
  · cases h
  next c hc =>
    obtain h | ⟨_, s₁, h₁, h⟩ := Throws.bind_iff.mp h
    · exact (not_exception (pinFlush_fatal c) h he).elim
    have hsame := SameShape.pinFlush h₁
    obtain h | ⟨_, s₂, h₂, h⟩ := Throws.bind_iff.mp h
    · replace h := Throws.rest (Ends.get s₁) h
      obtain ⟨d, -, rfl⟩ := onDisk_throws.mp h
      exact hsame.trans ⟨rfl, rfl, rfl, rfl, id⟩
    · obtain h | ⟨_, s₃, h₃, h⟩ := Throws.bind_iff.mp h
      · exact (not_exception (unpin_fatal c) h he).elim
      · cases h

/-- The read of a load failed: the frame holds no page yet. -/
theorem load_throws (h : Throws (load p f) s e s') (he : e.isException = true) :
    ∃ d, Throws (readPage p) s.disk e d ∧ s' = { s with disk := d } := by
  obtain h | ⟨_, s₁, -, h⟩ := Throws.bind_iff.mp h
  · obtain h | ⟨data, s₁, -, h⟩ := Throws.bind_iff.mp h
    · exact onDisk_throws.mp h
    · cases h
  · obtain h | ⟨_, s₂, -, h⟩ := Throws.bind_iff.mp h
    · cases h
    · exact (not_exception (recordLoad_fatal f p) h he).elim

/-- Where a fetch of `p` is when an exception leaves it, and the pool then. -/
inductive FailedFetch (s : BufferPoolManager) (p : Nat) (e : Fault) : BufferPoolManager → Prop
  | flush {q f : Nat} {r : ArcReplacer} {s' : BufferPoolManager}
    (hp : s.pageTable.lookup p = none) (hn : s.numFrames = s.pageTable.entries.length)
    (hr : Ends ArcReplacer.evict s.replacer (some (q, f)) r) (ht : Throws evictFrame s e s')
    (h : SameShape { s with replacer := r } s') : FailedFetch s p e s'
  | readEvicted {f : Nat} {s₁ : BufferPoolManager} {d : DiskManager}
    (hp : s.pageTable.lookup p = none) (hn : s.numFrames = s.pageTable.entries.length)
    (h₁ : Ends evictFrame s (some f) s₁) (h₂ : Throws (readPage p) s₁.disk e d) :
    FailedFetch s p e { s₁ with disk := d }
  | readFree {f : Nat} {s₁ : BufferPoolManager} {d : DiskManager}
    (hp : s.pageTable.lookup p = none) (hn : s.numFrames ≠ s.pageTable.entries.length)
    (h₁ : Ends takeFree s f s₁) (h₂ : Throws (readPage p) s₁.disk e d) :
    FailedFetch s p e { s₁ with disk := d }

theorem checkedPage_throws {w : Bool} (h : Throws (checkedPage w p) s e s')
    (he : e.isException = true) : FailedFetch s p e s' := by
  replace h := Throws.rest (Ends.get s) h
  obtain ⟨-, h⟩ | ⟨hp, h⟩ := Throws.ite h
  · obtain h | ⟨f, s₁, -, h⟩ := Throws.bind_iff.mp h
    · exact (not_exception (findFrame_fatal p) h he).elim
    obtain h | ⟨_, s₂, -, h⟩ := Throws.bind_iff.mp h
    · exact (not_exception (recordHit_fatal f p) h he).elim
    · cases h
  replace hp := Option.not_isSome_iff_eq_none.mp hp
  obtain ⟨hn, h⟩ | ⟨hn, h⟩ := Throws.ite h
  · obtain ht | ⟨o, s₁, h₁, h⟩ := Throws.bind_iff.mp h
    · -- `Evict` returned, so the flush failed
      obtain h | ⟨o, s₁, h₁, h⟩ := Throws.bind_iff.mp ht
      · exact (not_exception (onReplacer_fatal evict_fatal) h he).elim
      obtain ⟨r, hr, rfl⟩ := onReplacer_ends.mp h₁
      cases o with
      | none => cases h
      | some v =>
        obtain h | ⟨_, s₂, -, h⟩ := Throws.bind_iff.mp h
        · exact .flush hp hn hr ht (flushDirty_throws h he)
        · cases h
    · cases o with
      | none => cases h
      | some f =>
        obtain h | ⟨_, s₂, -, h⟩ := Throws.bind_iff.mp h
        · obtain ⟨d, h₂, rfl⟩ := load_throws h he
          exact .readEvicted hp hn h₁ h₂
        · cases h
  · obtain h | ⟨f, s₁, h₁, h⟩ := Throws.bind_iff.mp h
    · exact (not_exception takeFree_fatal h he).elim
    obtain h | ⟨_, s₂, -, h⟩ := Throws.bind_iff.mp h
    · obtain ⟨d, h₂, rfl⟩ := load_throws h he
      exact .readFree hp hn h₁ h₂
    · cases h

/-- A delete that throws has freed the frame. -/
theorem deletePage_throws (h : Throws (deletePage p) s e s') (he : e.isException = true) :
    ∃ f s₁ d, s.pageTable.lookup p = some f ∧ Ends (freeFrame p f) s () s₁ ∧
      s' = { s₁ with disk := d } := by
  replace h := Throws.rest (Ends.get s) h
  cases hp : s.pageTable.lookup p with
  | none =>
    simp only [hp] at h
    cases h
  | some f =>
    simp only [hp] at h
    obtain ⟨-, h⟩ | ⟨-, h⟩ := Throws.ite h
    · cases h
    obtain h | ⟨_, s₁, h₁, h⟩ := Throws.bind_iff.mp h
    · exact (not_exception (freeFrame_fatal p f) h he).elim
    obtain h | ⟨_, s₂, -, h⟩ := Throws.bind_iff.mp h
    · obtain ⟨d, -, rfl⟩ := onDisk_throws.mp h
      exact ⟨f, s₁, d, rfl, h₁, rfl⟩
    · cases h

end

/-! ## Runs -/

/-- What a client asks of the pool. -/
inductive Op where
  | fetch (write : Bool) (pageId : Nat)
  | drop (g : Guard)
  | write (g : Guard) (data : Mem)
  | deletePage (pageId : Nat)
  | newPage

/-- How a call ends: with a guard or without, with an answer, or with an exception. -/
inductive Reply where
  | guard (g : Option Guard)
  | done
  | deleted (ok : Bool)
  | page (id : Nat)
  | threw (e : Fault)

/-- A call that returns, or that an exception leaves. A call that ends the
process, or waits for a latch for ever, is no step. -/
inductive Ran (s : System) : Op → Reply → System → Prop
  | fetched {w : Bool} {p : Nat} {g : Guard} {b : BufferPoolManager}
    (h : Ends (checkedPage w p) s.pool (some g) b) (hl : Lockable s.guards g)
    (hn : s.guards.length < 2 ^ 63) : Ran s (.fetch w p) (.guard (some g)) ⟨b, g :: s.guards⟩
  | refused {w : Bool} {p : Nat} {b : BufferPoolManager}
    (h : Ends (checkedPage w p) s.pool none b) : Ran s (.fetch w p) (.guard none) ⟨b, s.guards⟩
  | failed {w : Bool} {p : Nat} {e : Fault} {b : BufferPoolManager}
    (h : Throws (checkedPage w p) s.pool e b) (he : e.isException = true) :
    Ran s (.fetch w p) (.threw e) ⟨b, s.guards⟩
  | dropped {g : Guard} {b : BufferPoolManager} (hg : g ∈ s.guards)
    (h : Ends g.drop s.pool () b) : Ran s (.drop g) .done ⟨b, s.guards.erase g⟩
  | wrote {g : Guard} {data : Mem} {b : BufferPoolManager} (hg : g ∈ s.guards)
    (hw : g.write = true) (h : Ends (g.getDataMut data) s.pool () b) :
    Ran s (.write g data) .done ⟨b, s.guards⟩
  | deleted {p : Nat} {ok : Bool} {b : BufferPoolManager}
    (h : Ends (Buffer.deletePage p) s.pool ok b) :
    Ran s (.deletePage p) (.deleted ok) ⟨b, s.guards⟩
  | notDeleted {p : Nat} {e : Fault} {b : BufferPoolManager}
    (h : Throws (Buffer.deletePage p) s.pool e b) (he : e.isException = true) :
    Ran s (.deletePage p) (.threw e) ⟨b, s.guards⟩
  | created {id : Nat} {b : BufferPoolManager} (h : Ends Buffer.newPage s.pool id b) :
    Ran s .newPage (.page id) ⟨b, s.guards⟩
  | notCreated {e : Fault} {b : BufferPoolManager} (h : Throws Buffer.newPage s.pool e b)
    (he : e.isException = true) : Ran s .newPage (.threw e) ⟨b, s.guards⟩

end DbInternals.Buffer
