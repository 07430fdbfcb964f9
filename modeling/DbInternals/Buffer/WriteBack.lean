import DbInternals.Buffer.Coherence
import DbInternals.Buffer.FlushInPlace
import DbInternals.Core.Versions

/-!
# What the disk holds

The pool is a write-back cache: pages are written through guards and reach the disk when their frame
is evicted or flushed. As in `Coherence`, no fetch evicts a frame that a guard refers to.

Results:
* `Backed.fetched`, `Backed.flushAllPagesUnsafe`: a call leaves a page on disk alone or brings it up to
  date;
* `flushed_page`, `flushed_all`: a flush brings it up to date, whether or not the page is resident;
* `disk_versions`: at all times the disk holds a version of each page, never one older than before
  nor than the last flush.
-/
namespace DbInternals.Buffer

open Storage LTS

/-! ## Calls on the disk -/

/-- The pages on disk are the old ones or up to date. -/
def Backed (content : Nat → Mem) (P : Set Nat) (d d' : DiskManager) : Prop :=
  ∀ p ∈ P, pageAt d' p = pageAt d p ∨ pageAt d' p = content p

/-- Every frame shows its page. -/
structure Shows (content : Nat → Mem) (P : Set Nat) (s : BufferPoolManager) : Prop where
  io : s.disk.io = none
  short : ∀ p, Short (content p)
  resident : ∀ p f, s.pageTable.lookup p = some f → p ∈ P ∧ (s.frames f).data = content p

section
variable {s s' : BufferPoolManager} {content : Nat → Mem} {P : Set Nat}
  {pending : List (Σ _ : Nat, Nat)} {flight : Set Nat} {p f : Nat} {d d' d'' : DiskManager}

theorem Backed.of_eq (h : d' = d) : Backed content P d d' := fun _ _ => .inl (by rw [h])

theorem Backed.trans (h : Backed content P d d') (h' : Backed content P d' d'') :
    Backed content P d d'' := by
  intro p hp
  obtain h₁ | h₁ := h' p hp
  · rw [h₁]
    exact h p hp
  · exact .inr h₁

theorem Holds.shows (h : Holds content P pending flight s) : Shows content P s :=
  ⟨h.io, h.short, fun p f hp => ⟨h.paged p f hp, h.resident p f hp⟩⟩

theorem Shows.same (h : Shows content P s) (ht : s'.pageTable = s.pageTable)
    (hd : ∀ c, (s'.frames c).data = (s.frames c).data) (hio : s'.disk.io = s.disk.io) :
    Shows content P s' := by
  refine ⟨hio.trans h.io, h.short, fun p f hp => ?_⟩
  rw [ht] at hp
  rw [hd]
  exact h.resident p f hp

theorem Shows.pinFlush (h : Shows content P s) (he : Ends (pinFlush f) s () s') :
    Shows content P s' ∧ s'.disk = s.disk := by
  obtain ⟨-, rfl⟩ := pinFlush_ends.mp he
  refine ⟨h.same rfl (fun c => ?_) rfl, rfl⟩
  exact withFrame_same FrameHeader.data (fun h => h.clean.pinned) (fun _ => rfl) c

/-- The disk takes the content of a resident page. -/
theorem Shows.writeFrame (hinj : Set.InjOn pageOffset P) (h : Shows content P s)
    (hp : s.pageTable.lookup p = some f) (he : Ends (writeFrame p f) s () s') :
    Shows content P s' ∧ Backed content P s.disk s'.disk := by
  obtain ⟨d, hd, rfl⟩ := writeFrame_ends.mp he
  obtain rfl := writePage_ok h.io hd
  obtain ⟨hpP, hdata⟩ := h.resident p f hp
  refine ⟨h.same rfl (fun _ => rfl) rfl, fun q hq => ?_⟩
  by_cases e : q = p
  · refine .inr ((pageAt_store (congrArg pageOffset e)).trans ?_)
    rw [hdata, pageOf_short (h.short p), e]
  · exact .inl (pageAt_store_of_ne fun e' => e (hinj hq hpP e'))

theorem Backed.flushPageUnsafe (hinj : Set.InjOn pageOffset P) (h : Shows content P s) {ok : Bool}
    (he : Ends (flushPageUnsafe p) s ok s') : Backed content P s.disk s'.disk := by
  obtain ⟨-, -, rfl⟩ | ⟨f, s₁, s₂, hp, -, h₁, h₂, h₃⟩ := flushPageUnsafe_ends he
  · exact .of_eq rfl
  · have hp₁ : s₁.pageTable.lookup p = some f := by rw [(SameShape.pinFlush h₁).pageTable, hp]
    obtain ⟨hs₁, hd₁⟩ := h.pinFlush h₁
    obtain ⟨-, hb⟩ := hs₁.writeFrame hinj hp₁ h₂
    rw [(SameData.unpin h₃).disk, ← hd₁]
    exact hb

theorem Backed.evictFrame (hinj : Set.InjOn pageOffset P) (h : Shows content P s) {o : Option Nat}
    (he : Ends evictFrame s o s') : Backed content P s.disk s'.disk := by
  obtain ⟨-, -, rfl⟩ | ⟨f, q, r, s₁, -, -, -, h₁, rfl⟩ := evictFrame_ends he
  · exact .of_eq rfl
  have hr : Shows content P { s with replacer := r } := ⟨h.io, h.short, h.resident⟩
  change Backed content P s.disk s₁.disk
  obtain ⟨-, rfl⟩ | ⟨-, ok, h₁⟩ := flushDirty_ends h₁
  · exact .of_eq rfl
  · have hb := Backed.flushPageUnsafe hinj hr h₁
    exact hb

theorem load_disk (hio : s.disk.io = none) (he : Ends (load p f) s () s') : s'.disk = s.disk := by
  obtain ⟨_, s₁, h₁, he⟩ := Ends.bind_iff.mp he
  obtain ⟨_, s₂, h₂, h₃⟩ := Ends.bind_iff.mp he
  obtain ⟨data, d, hd, rfl⟩ := readInto_ends h₁
  obtain ⟨-, -, rfl⟩ := readPage_ok hio hd
  cases h₂
  obtain ⟨_, s₃, h₃, h₄⟩ := Ends.bind_iff.mp h₃
  obtain ⟨r, -, rfl⟩ := onReplacer_ends.mp h₃
  obtain ⟨-, rfl⟩ := setEvictable_pool.mp h₄
  rfl

theorem Backed.fetched (hinj : Set.InjOn pageOffset P) (h : Holds content P [] ∅ s) {o : Option Nat}
    (he : Fetched s p o s') : Backed content P s.disk s'.disk := by
  cases he with
  | hit hp he =>
    obtain ⟨_, s₁, h₁, h₂⟩ := Ends.bind_iff.mp he
    obtain ⟨r, -, rfl⟩ := onReplacer_ends.mp h₁
    exact .of_eq (SameData.pinHit h₂).disk
  | full hp hn he => exact .evictFrame hinj h.shows he
  | evict hp hn h₁ h₂ =>
    obtain ⟨h0, -⟩ | ⟨c, q, -, -, hh, -⟩ := h.evictFrame hinj h₁
    · cases h0
    · exact (Backed.evictFrame hinj h.shows h₁).trans (.of_eq (load_disk hh.io h₂))
  | free hp hn h₁ h₂ =>
    obtain ⟨fs, -, rfl⟩ := takeFree_ends h₁
    refine .of_eq ((load_disk ?_ h₂).trans rfl)
    exact h.io

/-- The guard's page is on disk as it is. -/
theorem Backed.flush (hinj : Set.InjOn pageOffset P) (h : Shows content P s) {g : Guard}
    (hp : s.pageTable.lookup g.pageId = some g.frameId) (he : Ends g.flush s () s') :
    Backed content P s.disk s'.disk := by
  obtain ⟨_, s₁, h₁, h₂⟩ := Ends.bind_iff.mp he
  cases h₁
  have hs₁ : Shows content P (s.withFrame g.frameId .clean) :=
    h.same rfl (withFrame_same FrameHeader.data .clean fun _ => rfl) rfl
  exact (hs₁.writeFrame hinj hp h₂).2

theorem Shows.pinDirty {order requests : List (Σ _ : Nat, Nat)} (h : Shows content P s)
    (he : Ends (pinDirty order) s requests s') : Shows content P s' ∧ s'.disk = s.disk := by
  induction order generalizing s requests with
  | nil =>
    cases he
    exact ⟨h, rfl⟩
  | cons e order ih =>
    rw [Buffer.pinDirty] at he
    replace he := Ends.rest (Ends.get s) he
    obtain ⟨-, he⟩ | ⟨-, he⟩ := Ends.ite he
    · obtain ⟨_, s₁, h₁, he⟩ := Ends.bind_iff.mp he
      obtain ⟨rs, s₂, h₂, he⟩ := Ends.bind_iff.mp he
      cases he
      obtain ⟨hs₁, hd₁⟩ := h.pinFlush h₁
      obtain ⟨hs₂, hd₂⟩ := ih hs₁ h₂
      exact ⟨hs₂, hd₂.trans hd₁⟩
    · exact ih h he

theorem Backed.writeAll {requests : List (Σ _ : Nat, Nat)} (hinj : Set.InjOn pageOffset P)
    (h : Shows content P s) (hr : ∀ e ∈ requests, s.pageTable.lookup e.1 = some e.2)
    (he : Ends (writeAll requests) s () s') : Backed content P s.disk s'.disk := by
  induction requests generalizing s with
  | nil =>
    cases he
    exact .of_eq rfl
  | cons e requests ih =>
    obtain ⟨s₁, h₁, h₂⟩ := writeAll_cons he
    obtain ⟨hs₁, hb⟩ := h.writeFrame hinj (hr e List.mem_cons_self) h₁
    refine hb.trans (ih hs₁ (fun x hx => ?_) h₂)
    rw [(SameShape.writeFrame h₁).pageTable]
    exact hr x (List.mem_cons_of_mem _ hx)

theorem Backed.flushAllPagesUnsafe {order : List (Σ _ : Nat, Nat)} (hinj : Set.InjOn pageOffset P)
    (h : Holds content P [] flight s) (ho : order.Perm s.pageTable.entries)
    (he : Ends (flushAllPagesUnsafe order) s () s') : Backed content P s.disk s'.disk := by
  have hlook : ∀ e ∈ order, s.pageTable.lookup e.1 = some e.2 := fun e he =>
    AList.mem_lookup_iff.mpr (ho.mem_iff.mp he)
  obtain ⟨rs, s₁, h₁, he⟩ := Ends.bind_iff.mp he
  obtain ⟨_, s₂, h₂, h₃⟩ := Ends.bind_iff.mp he
  obtain ⟨hs₁, hd₁⟩ := h.shows.pinDirty h₁
  obtain ⟨-, hr⟩ := h.pinDirty hlook h₁
  have hb := Backed.writeAll hinj hs₁
    (fun e he => by rw [(SameShape.pinDirty h₁).pageTable]; exact hr e he) h₂
  rw [(SameData.unpinAll h₃).disk, ← hd₁]
  exact hb

/-! ## Flushes -/

/-- What is clean or in no frame is on disk. -/
theorem Holds.on_disk (h : Holds content P [] flight s) (hp : p ∈ P)
    (hc : ∀ f, s.pageTable.lookup p = some f → (s.frames f).isDirty = false) :
    pageAt s.disk p = content p := by
  cases hl : s.pageTable.lookup p with
  | none => exact h.away p hp hl
  | some f => exact h.clean p f hl (hc f hl) (by simp)

theorem flushPageUnsafe_clean {ok : Bool} (hp : s.pageTable.lookup p = some f)
    (he : Ends (flushPageUnsafe p) s ok s') : (s'.frames f).isDirty = false := by
  obtain ⟨hn, -⟩ | ⟨c, s₁, s₂, hc, -, h₁, h₂, h₃⟩ := flushPageUnsafe_ends he
  · cases hp.symm.trans hn
  · cases hp.symm.trans hc
    obtain ⟨-, rfl⟩ := pinFlush_ends.mp h₁
    obtain ⟨d, -, rfl⟩ := writeFrame_ends.mp h₂
    rw [(SameData.unpin h₃).isDirty]
    exact congrArg FrameHeader.isDirty (withFrame_self s f fun h => h.clean.pinned)

theorem flushed_unsafe (hinj : Set.InjOn pageOffset P) (h : Holds content P [] flight s)
    (hp : p ∈ P) {ok : Bool} (he : Ends (flushPageUnsafe p) s ok s') :
    pageAt s'.disk p = content p := by
  refine (h.flushPageUnsafe hinj he).on_disk hp fun f hl => flushPageUnsafe_clean ?_ he
  rwa [(SameShape.flushPageUnsafe he).pageTable] at hl

/-- A flush of a page that is refused finds the page on disk. -/
theorem flushed_page (hinj : Set.InjOn pageOffset P) (h : Holds content P [] ∅ s) (hp : p ∈ P)
    {ok : Bool} (he : Ends (flushPage p) s ok s') :
    Backed content P s.disk s'.disk ∧ pageAt s'.disk p = content p := by
  obtain ⟨-, hf⟩ | ⟨f, s₁, s₂, -, hf, h₁, h₂⟩ := flushPage_ends he
  · obtain ⟨hn, -, rfl, -⟩ := refused_fetch hf
    exact ⟨.of_eq rfl, h.away p hp hn⟩
  · obtain ⟨h₁', hl, -⟩ := h.fetched hinj hp hf
    obtain ⟨h₂', htab⟩ := h₁'.flush hinj (hl f rfl) h₁
    have hb := (Backed.fetched hinj h hf).trans (.flush hinj h₁'.shows (hl f rfl) h₁)
    rw [(SameData.unpin h₂).disk]
    refine ⟨hb, h₂'.on_disk hp fun c hc => ?_⟩
    rw [htab, hl f rfl] at hc
    cases hc
    obtain ⟨_, s₃, h₃, h₁⟩ := Ends.bind_iff.mp h₁
    cases h₃
    obtain ⟨d, -, rfl⟩ := writeFrame_ends.mp h₁
    exact congrArg FrameHeader.isDirty (withFrame_self s₁ f .clean)

/-- Frames that are clean stay clean. -/
theorem pinDirty_keeps {order requests : List (Σ _ : Nat, Nat)} (hc : (s.frames f).isDirty = false)
    (he : Ends (pinDirty order) s requests s') : (s'.frames f).isDirty = false := by
  induction order generalizing s requests with
  | nil =>
    cases he
    exact hc
  | cons e order ih =>
    rw [Buffer.pinDirty] at he
    replace he := Ends.rest (Ends.get s) he
    obtain ⟨-, he⟩ | ⟨-, he⟩ := Ends.ite he
    · obtain ⟨_, s₁, h₁, he⟩ := Ends.bind_iff.mp he
      obtain ⟨rs, s₂, h₂, he⟩ := Ends.bind_iff.mp he
      cases he
      obtain ⟨-, rfl⟩ := pinFlush_ends.mp h₁
      refine ih ?_ h₂
      by_cases hf : f = e.2
      · rw [hf]
        exact congrArg FrameHeader.isDirty (withFrame_self s e.2 fun h => h.clean.pinned)
      · have hsame := withFrame_of_ne s hf fun h => h.clean.pinned
        exact (congrArg FrameHeader.isDirty hsame).trans hc
    · exact ih hc he

theorem pinDirty_clean {order requests : List (Σ _ : Nat, Nat)}
    (he : Ends (pinDirty order) s requests s') : ∀ e ∈ order, (s'.frames e.2).isDirty = false := by
  induction order generalizing s requests with
  | nil => simp
  | cons e order ih =>
    rw [Buffer.pinDirty] at he
    replace he := Ends.rest (Ends.get s) he
    obtain ⟨-, he⟩ | ⟨hd, he⟩ := Ends.ite he
    · obtain ⟨_, s₁, h₁, he⟩ := Ends.bind_iff.mp he
      obtain ⟨rs, s₂, h₂, he⟩ := Ends.bind_iff.mp he
      cases he
      obtain ⟨-, rfl⟩ := pinFlush_ends.mp h₁
      refine List.forall_mem_cons.mpr ⟨pinDirty_keeps ?_ h₂, ih h₂⟩
      exact congrArg FrameHeader.isDirty (withFrame_self s e.2 fun h => h.clean.pinned)
    · exact List.forall_mem_cons.mpr ⟨pinDirty_keeps (Bool.eq_false_iff.mpr hd) he, ih he⟩

theorem writeAll_frames {requests : List (Σ _ : Nat, Nat)} (he : Ends (writeAll requests) s () s') :
    s'.frames = s.frames := by
  induction requests generalizing s with
  | nil =>
    cases he
    rfl
  | cons e requests ih =>
    obtain ⟨s₁, h₁, h₂⟩ := writeAll_cons he
    obtain ⟨d, -, rfl⟩ := writeFrame_ends.mp h₁
    have hrest := ih h₂
    exact hrest

theorem flushed_all {order : List (Σ _ : Nat, Nat)} (hinj : Set.InjOn pageOffset P)
    (h : Holds content P [] flight s) (ho : order.Perm s.pageTable.entries) (hp : p ∈ P)
    (he : Ends (flushAllPagesUnsafe order) s () s') : pageAt s'.disk p = content p := by
  refine (h.flushAllPagesUnsafe hinj ho he).on_disk hp fun f hl => ?_
  rw [(SameShape.flushAllPagesUnsafe he).pageTable] at hl
  have hmem : (⟨p, f⟩ : Σ _ : Nat, Nat) ∈ order := ho.mem_iff.mpr (AList.mem_lookup_iff.mp hl)
  obtain ⟨rs, s₁, h₁, he⟩ := Ends.bind_iff.mp he
  obtain ⟨_, s₂, h₂, h₃⟩ := Ends.bind_iff.mp he
  rw [(SameData.unpinAll h₃).isDirty, writeAll_frames h₂]
  exact pinDirty_clean h₁ _ hmem

end

/-! ## Runs -/

/-- The pages a call writes back. -/
def Call.Flushes (p : Nat) : Call → Prop
  | .flushPage q | .flushPageUnsafe q => p = q
  | .flushAllPagesUnsafe => True
  | _ => False

section
variable {numFrames : Nat} {d : DiskManager} {P : Set Nat} {o o' : Observed} {c : Call} {p : Nat}

/-- What a call leaves on disk. -/
structure WritesBack (P : Set Nat) (o : Observed) (c : Call) (o' : Observed) : Prop where
  backed : Backed o'.content P o.pool.disk o'.pool.disk
  flushes : ∀ p ∈ P, c.Flushes p → pageAt o'.pool.disk p = o'.content p

theorem writesBack_step (hinj : Set.InjOn pageOffset P) (h : Attached P o)
    (hs : (observed numFrames d).step o c o') (hc : Fits P o c) : WritesBack P o c o' := by
  obtain ⟨sys, content⟩ := o
  obtain ⟨sys', content'⟩ := o'
  obtain ⟨hs, rfl⟩ := hs
  have hh := h.holds
  cases hs with
  | fetched he =>
    obtain ⟨f, -, he⟩ := checkedPage_ends.mp he
    exact ⟨.fetched hinj hh he, nofun⟩
  | refused he =>
    obtain ⟨f, -, he⟩ := checkedPage_ends.mp he
    exact ⟨.fetched hinj hh he, nofun⟩
  | dropped hg he => exact ⟨.of_eq (SameData.unpin he).disk, nofun⟩
  | wrote hg hw he =>
    cases he
    exact ⟨.of_eq rfl, nofun⟩
  | flushedPage he hl =>
    obtain ⟨hb, hp⟩ := flushed_page hinj hh hc.1 he
    refine ⟨hb, fun p _ hpc => ?_⟩
    cases hpc
    exact hp
  | flushed he =>
    refine ⟨.flushPageUnsafe hinj hh.shows he, fun p hpP hpc => ?_⟩
    cases hpc
    exact flushed_unsafe hinj hh hpP he
  | flushedAll ho he =>
    exact ⟨.flushAllPagesUnsafe hinj hh ho he, fun p hpP _ => flushed_all hinj hh ho hpP he⟩

/-- Whenever a run is stopped, the disk holds a version of each page: what was written to it at some
time before. Versions never go back, and none is older than the last flush of the page or of the pool. -/
theorem disk_versions (hn : numFrames ≤ 2 ^ 32) (hio : d.io = none) (hinj : Set.InjOn pageOffset P)
    (h : (observed numFrames d).init o) {tr : List (Observed × Call × Observed)}
    (hr : (observed numFrames d).Path o tr) (hc : Meets (Fits P) tr) (hp : p ∈ P) :
    ∃ v : ℕ → ℕ, Monotone v ∧ (∀ i, v i ≤ i) ∧
      (∀ i, pageAt (stateAt o tr i).pool.disk p = (stateAt o tr (v i)).content p) ∧
      ∀ i x, tr[i]? = some x → x.2.1.Flushes p → ∀ j, i < j → i < v j := by
  have hsteps := hr.each (I := Attached P) (R := WritesBack P)
    (fun _ _ _ h hs hc => ⟨writesBack_step hinj h hs hc, attached_step hinj h hs hc⟩)
    (attached_init hn hio h) hc
  refine hr.versions (fun o => o.content p) (fun o => pageAt o.pool.disk p) (Call.Flushes p) ?_
    fun x hx => ?_
  · cases h
    rfl
  · have hw := hsteps x hx
    exact ⟨hw.backed p hp, hw.flushes p hp⟩

/-- Page 1 is loaded, written and flushed; the version on disk is the last one. -/
theorem disk_versions_write : ∃ tr, follow Observed.exec oneFrame
      [.fetch true 1, .write ⟨1, 0, true⟩ fun _ => 7, .flushPageUnsafe 1] = some tr ∧
    ∃ v : ℕ → ℕ, Monotone v ∧ (∀ i, v i ≤ i) ∧
      (∀ i, pageAt (stateAt oneFrame tr i).pool.disk 1 = (stateAt oneFrame tr (v i)).content 1) ∧
      ∀ i x, tr[i]? = some x → x.2.1.Flushes 1 → ∀ j, i < j → i < v j := by
  have htr : follow Observed.exec oneFrame
      [.fetch true 1, .write ⟨1, 0, true⟩ fun _ => 7, .flushPageUnsafe 1] = some _ := rfl
  have hp : (observed 1 threePages).Path oneFrame _ := path_follow htr
  refine ⟨_, htr, disk_versions (P := {1}) (by decide) rfl (Set.injOn_singleton _ _) rfl hp ?_ rfl⟩
  intro x hx
  simp only [List.mem_cons, List.not_mem_nil, or_false] at hx
  obtain rfl | rfl | rfl := hx
  · exact ⟨rfl, fun _ h => by cases h⟩
  · trivial
  · trivial

end

end DbInternals.Buffer
