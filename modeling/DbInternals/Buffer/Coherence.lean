import DbInternals.Buffer.BufferPool
import Mathlib.Data.Set.Function

/-!
# Coherence of the buffer pool

`content p` is what was last written to page `p` through a guard, or the page
on disk at the start. A run keeps the pages it fetches in `P`, whose offsets
in the file are distinct.

Results:
* `Holds`: a page in a frame has its content there, a page in none has it on
  disk, and a clean frame agrees with the disk;
* `coherent`: as long as no fetch evicts a frame that a guard refers to, what
  is seen through a guard is the content of its page;
* `stale_guard`: a frame can be evicted under a guard, which then shows
  another page.
-/
namespace DbInternals.Buffer

open Storage LTS

/-! ## Contents -/

/-- Where the content of each page is. The entries in `pending` are clean and
still to be written; the frames in `flight` are taken and not yet published. -/
structure Holds (content : Nat → Mem) (P : Set Nat) (pending : List (Σ _ : Nat, Nat))
    (flight : Set Nat) (s : BufferPoolManager) : Prop extends Shape flight s where
  short : ∀ p, Short (content p)
  io : s.disk.io = none
  paged : ∀ p f, s.pageTable.lookup p = some f → p ∈ P
  resident : ∀ p f, s.pageTable.lookup p = some f → (s.frames f).data = content p
  clean : ∀ p f, s.pageTable.lookup p = some f → (s.frames f).isDirty = false →
    ⟨p, f⟩ ∉ pending → pageAt s.disk p = content p
  away : ∀ p ∈ P, s.pageTable.lookup p = none → pageAt s.disk p = content p

/-- Pins and flags may change. -/
structure SameData (s s' : BufferPoolManager) : Prop extends SameShape s s' where
  data : ∀ f, (s'.frames f).data = (s.frames f).data
  isDirty : ∀ f, (s'.frames f).isDirty = (s.frames f).isDirty
  disk : s'.disk = s.disk

section
variable {s s' : BufferPoolManager} {content : Nat → Mem} {P : Set Nat}
  {pending : List (Σ _ : Nat, Nat)} {flight : Set Nat} {p f : Nat}

theorem Holds.same (h : Holds content P pending flight s) (hs : SameData s s') :
    Holds content P pending flight s' where
  toShape := h.toShape.same hs.toSameShape
  short := h.short
  io := by rw [hs.disk]; exact h.io
  paged := by rw [hs.pageTable]; exact h.paged
  resident p f hp := by
    rw [hs.pageTable] at hp
    rw [hs.data]
    exact h.resident p f hp
  clean p f hp := by
    rw [hs.pageTable] at hp
    rw [hs.isDirty, hs.disk]
    exact h.clean p f hp
  away p hP hp := by
    rw [hs.pageTable] at hp
    rw [hs.disk]
    exact h.away p hP hp

/-- More may be pending. -/
theorem Holds.mono (h : Holds content P pending flight s) {pending' : List (Σ _ : Nat, Nat)}
    (hp : pending ⊆ pending') : Holds content P pending' flight s :=
  { h with clean := fun p f hl hd hn => h.clean p f hl hd fun hm => hn (hp hm) }

theorem SameData.pinHit (h : Ends (pinHit f) s () s') : SameData s s' := by
  have hs := SameShape.pinHit h
  rw [pinHit_ends h] at hs ⊢
  exact ⟨hs, withFrame_same FrameHeader.data .pinned fun _ => rfl,
    withFrame_same FrameHeader.isDirty .pinned fun _ => rfl, rfl⟩

theorem SameData.unpin (h : Ends (unpin f) s () s') : SameData s s' := by
  have hs := SameShape.unpin h
  rw [unpin_ends h] at hs ⊢
  exact ⟨hs, withFrame_same FrameHeader.data .unpinned fun _ => rfl,
    withFrame_same FrameHeader.isDirty .unpinned fun _ => rfl, rfl⟩

theorem Holds.recordAccess (h : Holds content P pending flight s)
    (hp : s.pageTable.lookup p = some f)
    (he : Ends (onReplacer (ArcReplacer.recordAccess f p)) s () s') :
    Holds content P pending flight s' := by
  have hs := h.toShape.recordAccess hp he
  obtain ⟨r, -, rfl⟩ := onReplacer_ends.mp he
  exact ⟨hs, h.short, h.io, h.paged, h.resident, h.clean, h.away⟩

theorem Holds.recordHit (h : Holds content P pending flight s)
    (hp : s.pageTable.lookup p = some f) (he : Ends (recordHit f p) s () s') :
    Holds content P pending flight s' := by
  obtain ⟨_, s₁, h₁, h₂⟩ := Ends.bind_iff.mp he
  exact (h.recordAccess hp h₁).same (.pinHit h₂)

theorem Holds.recordLoad (h : Holds content P pending flight s)
    (hp : s.pageTable.lookup p = some f) (he : Ends (recordLoad f p) s () s') :
    Holds content P pending flight s' := by
  have hs := h.toShape.recordLoad hp he
  obtain ⟨_, s₁, h₁, h₂⟩ := Ends.bind_iff.mp he
  obtain ⟨r, -, rfl⟩ := onReplacer_ends.mp h₁
  obtain ⟨-, rfl⟩ := setEvictable_pool.mp h₂
  exact ⟨hs, h.short, h.io, h.paged, h.resident, h.clean, h.away⟩

/-! ## Flushing -/

/-- The frame of `p` is clean, and its write is pending. -/
theorem Holds.pinFlush (h : Holds content P pending flight s)
    (hp : s.pageTable.lookup p = some f) (he : Ends (pinFlush f) s () s') :
    Holds content P (⟨p, f⟩ :: pending) flight s' := by
  have hs := h.toShape.same (.pinFlush he)
  obtain ⟨-, rfl⟩ := pinFlush_ends.mp he
  refine ⟨hs, h.short, h.io, h.paged, fun q c hq => ?_, fun q c hq hd hn => ?_, h.away⟩
  · exact (withFrame_same FrameHeader.data (fun h => h.clean.pinned) (fun _ => rfl) c).trans (h.resident q c hq)
  · have hc : c ≠ f := by
      intro e
      subst e
      exact hn (h.inj p q c hp hq ▸ List.mem_cons_self)
    refine h.clean q c hq ?_ fun hm => hn (List.mem_cons_of_mem _ hm)
    exact (congrArg FrameHeader.isDirty (Function.update_of_ne hc ..)).symm.trans hd

/-- The disk takes the content of `p`. -/
theorem Holds.writeFrame (hinj : Set.InjOn pageOffset P)
    (h : Holds content P (⟨p, f⟩ :: pending) flight s) (hp : s.pageTable.lookup p = some f)
    (he : Ends (writeFrame p f) s () s') : Holds content P pending flight s' := by
  have hs := h.toShape.same (.writeFrame he)
  obtain ⟨d, hd, rfl⟩ := writeFrame_ends.mp he
  obtain rfl := writePage_ok h.io hd
  have hdata := h.resident p f hp
  have hpage : ∀ q ∈ P, q ≠ p → pageAt (s.disk.store (s.frames f).data (pageOffset p)) q =
      pageAt s.disk q := fun q hq hne =>
    pageAt_store_of_ne fun e => hne (hinj hq (h.paged p f hp) e)
  have hself : pageAt (s.disk.store (s.frames f).data (pageOffset p)) p = content p := by
    rw [pageAt_store rfl, hdata, pageOf_short (h.short p)]
  refine ⟨hs, h.short, h.io, h.paged, h.resident, fun q c hq hc hn => ?_, fun q hq hl => ?_⟩
  · by_cases e : q = p
    · subst e
      exact hself
    · have hm : (⟨q, c⟩ : Σ _ : Nat, Nat) ∉ ⟨p, f⟩ :: pending := by
        intro hm
        obtain hm | hm := List.mem_cons.mp hm
        · exact e (congrArg Sigma.fst hm)
        · exact hn hm
      exact (hpage q (h.paged q c hq) e).trans (h.clean q c hq hc hm)
  · have e : q ≠ p := by
      intro e
      subst e
      cases hp.symm.trans hl
    exact (hpage q hq e).trans (h.away q hq hl)

theorem Holds.flushPageUnsafe (hinj : Set.InjOn pageOffset P) (h : Holds content P [] flight s)
    {ok : Bool} (he : Ends (flushPageUnsafe p) s ok s') : Holds content P [] flight s' := by
  obtain ⟨-, -, rfl⟩ | ⟨f, s₁, s₂, hp, -, h₁, h₂, h₃⟩ := flushPageUnsafe_ends he
  · exact h
  have hp₁ : s₁.pageTable.lookup p = some f := by rw [(SameShape.pinFlush h₁).pageTable, hp]
  exact ((h.pinFlush hp h₁).writeFrame hinj hp₁ h₂).same (.unpin h₃)

/-- After it the disk has the page of the frame. -/
theorem Holds.flushDirty (hinj : Set.InjOn pageOffset P) (h : Holds content P [] flight s)
    (hp : s.pageTable.lookup p = some f) (he : Ends (flushDirty p f) s () s') :
    Holds content P [] flight s' ∧ pageAt s'.disk p = content p := by
  obtain ⟨hd, rfl⟩ | ⟨-, ok, he⟩ := flushDirty_ends he
  · exact ⟨h, h.clean p f hp hd (by simp)⟩
  have h' := h.flushPageUnsafe hinj he
  have hp' : s'.pageTable.lookup p = some f := by rw [(SameShape.flushPageUnsafe he).pageTable, hp]
  refine ⟨h', h'.clean p f hp' ?_ (by simp)⟩
  obtain ⟨hn, -⟩ | ⟨c, s₁, s₂, hc, -, h₁, h₂, h₃⟩ := flushPageUnsafe_ends he
  · cases hp.symm.trans hn
  obtain rfl := Option.some.inj (hp.symm.trans hc)
  obtain ⟨-, rfl⟩ := pinFlush_ends.mp h₁
  obtain ⟨d, -, rfl⟩ := writeFrame_ends.mp h₂
  rw [(SameData.unpin h₃).isDirty]
  exact congrArg FrameHeader.isDirty (withFrame_self s f fun h => h.clean.pinned)

/-! ## Fetching -/

theorem Holds.evictFrame (hinj : Set.InjOn pageOffset P) (h : Holds content P [] flight s)
    {o : Option Nat} (he : Ends evictFrame s o s') : (o = none ∧ s' = s) ∨
    ∃ f q, o = some f ∧ s.pageTable.lookup q = some f ∧ Holds content P [] (insert f flight) s' ∧
      s'.pageTable = s.pageTable.erase q := by
  obtain ⟨ho, rfl⟩ | ⟨f, q, ho, hq, hs, -, -, htab⟩ := h.toShape.evictFrame he
  · exact .inl ⟨ho, rfl⟩
  refine .inr ⟨f, q, ho, hq, ?_, htab⟩
  obtain ⟨rfl, -⟩ | ⟨c, q', r, s₁, rfl, hr, hc, h₁, rfl⟩ := evictFrame_ends he
  · cases ho
  cases ho
  obtain rfl := h.inj q q' f hq (h.owner f q' hc)
  obtain ⟨h0, -⟩ | ⟨c, st, hst, -, -, hev⟩ := ArcReplacer.evict_ends hr
  · cases h0
  cases hst
  have hr' : Holds content P [] flight { s with replacer := r } := by
    refine ⟨⟨hev.ghostsFiled h.ghosts, fun c p hp => ?_, h.inj, h.free_nodup, h.free_apart,
      h.flight_apart⟩, h.short, h.io, h.paged, h.resident, h.clean, h.away⟩
    change r.owner c = some p at hp
    rw [hev.owner] at hp
    by_cases e : c = f
    · rw [e, Function.update_self] at hp
      cases hp
    · rw [Function.update_of_ne e] at hp
      exact h.owner c p hp
  obtain ⟨h₁', hdisk⟩ := hr'.flushDirty hinj hq h₁
  -- the pages that stay are those of `s₁`
  have hkeep : ∀ p c, (s₁.pageTable.erase st.pageId).lookup p = some c →
      s₁.pageTable.lookup p = some c := by
    intro p c hp
    have hne : p ≠ st.pageId := by
      intro e
      rw [e, AList.lookup_erase] at hp
      cases hp
    rwa [AList.lookup_erase_ne hne] at hp
  refine ⟨hs, h₁'.short, h₁'.io, fun p c hp => h₁'.paged p c (hkeep p c hp),
    fun p c hp => h₁'.resident p c (hkeep p c hp), fun p c hp => h₁'.clean p c (hkeep p c hp),
    fun p hP hp => ?_⟩
  by_cases e : p = st.pageId
  · rw [e]
    exact hdisk
  · exact h₁'.away p hP ((AList.lookup_erase_ne e).symm.trans hp)

theorem Holds.takeFree (h : Holds content P pending flight s) (he : Ends takeFree s f s') :
    Holds content P pending (insert f flight) s' := by
  have hs := h.toShape.takeFree he
  obtain ⟨fs, -, rfl⟩ := takeFree_ends he
  exact ⟨hs, h.short, h.io, h.paged, h.resident, h.clean, h.away⟩

/-- A page that is in no frame is read into a frame that was taken. -/
theorem Holds.readInto (h : Holds content P pending flight s) (hf : f ∈ flight) (hP : p ∈ P)
    (hp : s.pageTable.lookup p = none) (he : Ends (readInto p f) s () s') :
    Holds content P pending flight s' ∧ s'.pageTable = s.pageTable ∧
      (s'.frames f).data = content p := by
  have hs := h.toShape.same (.readInto he)
  obtain ⟨data, d, hd, rfl⟩ := readInto_ends he
  obtain ⟨-, rfl, rfl⟩ := readPage_ok h.io hd
  have hne : ∀ q c, s.pageTable.lookup q = some c → c ≠ f := by
    intro q c hq e
    exact (h.flight_apart f hf).2 q (e ▸ hq)
  refine ⟨⟨hs, h.short, h.io, h.paged, fun q c hq => ?_, fun q c hq hd => ?_, h.away⟩, rfl, ?_⟩
  · exact (congrArg FrameHeader.data (Function.update_of_ne (hne q c hq) ..)).trans
      (h.resident q c hq)
  · refine h.clean q c hq ?_
    exact (congrArg FrameHeader.isDirty (Function.update_of_ne (hne q c hq) ..)).symm.trans hd
  · rw [← h.away p hP hp]
    exact congrArg FrameHeader.data (withFrame_self s f _)

theorem Holds.publish (h : Holds content P pending flight s) (hf : f ∈ flight) (hP : p ∈ P)
    (hp : s.pageTable.lookup p = none) (hdata : (s.frames f).data = content p)
    (he : Ends (publish p f) s () s') : Holds content P pending (flight \ {f}) s' := by
  have hs := h.toShape.publish hf hp he
  cases he
  have hlook : ∀ q c, (s.pageTable.insert p f).lookup q = some c →
      (q = p ∧ c = f) ∨ s.pageTable.lookup q = some c := by
    intro q c hq
    by_cases e : q = p
    · subst e
      rw [AList.lookup_insert] at hq
      exact .inl ⟨rfl, (Option.some.inj hq).symm⟩
    · rw [AList.lookup_insert_ne e] at hq
      exact .inr hq
  refine ⟨hs, h.short, h.io, fun q c hq => ?_, fun q c hq => ?_, fun q c hq => ?_,
    fun q hq hl => ?_⟩
  · obtain ⟨rfl, -⟩ | hq := hlook q c hq
    · exact hP
    · exact h.paged q c hq
  · obtain ⟨rfl, rfl⟩ | hq := hlook q c hq
    · exact hdata
    · exact h.resident q c hq
  · obtain ⟨rfl, rfl⟩ | hq := hlook q c hq
    · exact fun _ _ => h.away q hP hp
    · exact h.clean q c hq
  · refine h.away q hq ?_
    by_cases e : q = p
    · subst e
      exact hp
    · exact (AList.lookup_insert_ne e).symm.trans hl

theorem Holds.load (h : Holds content P pending {f} s) (hP : p ∈ P)
    (hp : s.pageTable.lookup p = none) (he : Ends (load p f) s () s') :
    Holds content P pending ∅ s' ∧ s'.pageTable = s.pageTable.insert p f := by
  obtain ⟨_, s₁, h₁, he⟩ := Ends.bind_iff.mp he
  obtain ⟨_, s₂, h₂, h₃⟩ := Ends.bind_iff.mp he
  obtain ⟨hh₁, htab, hdata⟩ := h.readInto rfl hP hp h₁
  have hh₂ := hh₁.publish rfl hP (by rw [htab, hp]) hdata h₂
  rw [Set.sdiff_self] at hh₂
  have htab₂ : s₂.pageTable = s.pageTable.insert p f := by
    cases h₂
    exact congrArg (AList.insert p f) htab
  have hlook : s₂.pageTable.lookup p = some f := by rw [htab₂, AList.lookup_insert]
  exact ⟨hh₂.recordLoad hlook h₃, (recordLoad_table h₃).trans htab₂⟩

/-- A page stays in its frame, unless the frame is the victim of the fetch. -/
theorem Holds.fetched (hinj : Set.InjOn pageOffset P) (h : Holds content P [] ∅ s) (hP : p ∈ P)
    {o : Option Nat} (he : Fetched s p o s') : Holds content P [] ∅ s' ∧
      (∀ f, o = some f → s'.pageTable.lookup p = some f) ∧
      ∀ q c, s.pageTable.lookup q = some c →
        (s.pageTable.lookup p = none → s.numFrames = s.pageTable.entries.length → ¬ Victim s c) →
        s'.pageTable.lookup q = some c := by
  -- what a load into a frame taken from `s₁` leaves
  have hload : ∀ {f s₁}, Holds content P [] (insert f ∅) s₁ → s₁.pageTable.lookup p = none →
      Ends (Buffer.load p f) s₁ () s' → Holds content P [] ∅ s' ∧
        (∀ c, some f = some c → s'.pageTable.lookup p = some c) ∧
        ∀ q c, s₁.pageTable.lookup q = some c → s'.pageTable.lookup q = some c := by
    intro f s₁ h₁ hp hl
    rw [insert_empty_eq] at h₁
    obtain ⟨h', htab⟩ := h₁.load hP hp hl
    refine ⟨h', fun c hc => ?_, fun q c hq => ?_⟩
    · rw [htab, AList.lookup_insert, hc]
    · have hne : q ≠ p := by
        intro e
        subst e
        cases hp.symm.trans hq
      rw [htab, AList.lookup_insert_ne hne, hq]
  cases he with
  | @hit f _ hp he =>
    have htab := recordHit_table he
    refine ⟨h.recordHit hp he, fun c hc => ?_, fun q c hq _ => by rw [htab, hq]⟩
    rw [htab, hp, hc]
  | full hp hn he =>
    obtain ⟨-, rfl⟩ | ⟨f, q, ho, -⟩ := h.evictFrame hinj he
    · exact ⟨h, nofun, fun q c hq _ => hq⟩
    · cases ho
  | @evict f s₁ _ hp hn h₁ h₂ =>
    obtain ⟨ho, -⟩ | ⟨c, q, ho, hq, hh, htab⟩ := h.evictFrame hinj h₁
    · cases ho
    cases ho
    have hne : p ≠ q := by
      intro e
      subst e
      cases hp.symm.trans hq
    obtain ⟨h', hf, hkeep⟩ := hload hh (by rw [htab, AList.lookup_erase_ne hne, hp]) h₂
    refine ⟨h', hf, fun q' c hq' hv => hkeep q' c ?_⟩
    have hne' : q' ≠ q := by
      intro e
      subst e
      obtain rfl := Option.some.inj (hq.symm.trans hq')
      obtain ⟨h0, -⟩ | ⟨f', q'', r, -, h0, hr, -⟩ := evictFrame_ends h₁
      · cases h0
      · cases h0
        exact hv hp hn ⟨q'', r, hr⟩
    rw [htab, AList.lookup_erase_ne hne', hq']
  | @free f s₁ _ hp hn h₁ h₂ =>
    have hh := h.takeFree h₁
    have htab : s₁.pageTable = s.pageTable := by
      obtain ⟨fs, -, rfl⟩ := takeFree_ends h₁
      rfl
    obtain ⟨h', hf, hkeep⟩ := hload hh (by rw [htab, hp]) h₂
    exact ⟨h', hf, fun q c hq _ => hkeep q c (by rw [htab, hq])⟩

/-! ## Guards and the flush of the pool -/

theorem Holds.flush (hinj : Set.InjOn pageOffset P) (h : Holds content P [] flight s) {g : Guard}
    (hp : s.pageTable.lookup g.pageId = some g.frameId) (he : Ends g.flush s () s') :
    Holds content P [] flight s' ∧ s'.pageTable = s.pageTable := by
  obtain ⟨_, s₁, h₁, h₂⟩ := Ends.bind_iff.mp he
  cases h₁
  have h₁ : Holds content P [⟨g.pageId, g.frameId⟩] flight (s.withFrame g.frameId .clean) := by
    refine ⟨h.toShape.same ⟨rfl, rfl, rfl, rfl, id⟩, h.short, h.io, h.paged,
      fun q c hq => ?_, fun q c hq hd hn => ?_, h.away⟩
    · exact (withFrame_same FrameHeader.data .clean (fun _ => rfl) c).trans (h.resident q c hq)
    · have hc : c ≠ g.frameId := by
        intro e
        subst e
        exact hn (h.inj g.pageId q g.frameId hp hq ▸ List.mem_cons_self)
      refine h.clean q c hq ?_ (by simp)
      exact (congrArg FrameHeader.isDirty (withFrame_of_ne s hc .clean)).symm.trans hd
  exact ⟨h₁.writeFrame hinj hp h₂, (SameShape.writeFrame h₂).pageTable⟩

/-- A write through a guard. -/
theorem Holds.getDataMut (h : Holds content P [] flight s) {g : Guard} {data : Mem}
    (hp : s.pageTable.lookup g.pageId = some g.frameId) (he : Ends (g.getDataMut data) s () s') :
    Holds (Function.update content g.pageId (pageOf data)) P [] flight s' := by
  cases he
  have hne : ∀ q c, s.pageTable.lookup q = some c → c ≠ g.frameId → q ≠ g.pageId := by
    intro q c hq hc e
    subst e
    exact hc (Option.some.inj (hq.symm.trans hp))
  refine ⟨h.toShape.same ⟨rfl, rfl, rfl, rfl, id⟩, fun q => ?_, h.io, h.paged,
    fun q c hq => ?_, fun q c hq hd _ => ?_, fun q hq hl => ?_⟩
  · by_cases e : q = g.pageId
    · rw [e, Function.update_self]
      exact short_pageOf data
    · rw [Function.update_of_ne e]
      exact h.short q
  · by_cases hc : c = g.frameId
    · subst hc
      rw [h.inj q g.pageId _ hq hp, Function.update_self]
      exact congrArg FrameHeader.data (withFrame_self s g.frameId _)
    · rw [Function.update_of_ne (hne q c hq hc)]
      exact (congrArg FrameHeader.data (withFrame_of_ne s hc _)).trans (h.resident q c hq)
  · have hc : c ≠ g.frameId := by
      intro e
      rw [e] at hd
      cases (congrArg FrameHeader.isDirty (withFrame_self s g.frameId _)).symm.trans hd
    rw [Function.update_of_ne (hne q c hq hc)]
    refine h.clean q c hq ?_ (by simp)
    exact (congrArg FrameHeader.isDirty (withFrame_of_ne s hc _)).symm.trans hd
  · have e : q ≠ g.pageId := by
      intro e
      subst e
      cases hp.symm.trans hl
    rw [Function.update_of_ne e]
    exact h.away q hq hl

/-- Each request is for a page and its frame. -/
theorem Holds.pinDirty {order requests : List (Σ _ : Nat, Nat)}
    (h : Holds content P pending flight s)
    (ho : ∀ e ∈ order, s.pageTable.lookup e.1 = some e.2)
    (he : Ends (pinDirty order) s requests s') : Holds content P (requests ++ pending) flight s' ∧
      ∀ e ∈ requests, s.pageTable.lookup e.1 = some e.2 := by
  induction order generalizing s requests pending with
  | nil =>
    cases he
    exact ⟨h, by simp⟩
  | cons e order ih =>
    rw [Buffer.pinDirty] at he
    replace he := Ends.rest (Ends.get s) he
    have hrest : ∀ x ∈ order, s.pageTable.lookup x.1 = some x.2 :=
      fun x hx => ho x (List.mem_cons_of_mem _ hx)
    obtain ⟨-, he⟩ | ⟨-, he⟩ := Ends.ite he
    · obtain ⟨_, s₁, h₁, he⟩ := Ends.bind_iff.mp he
      obtain ⟨rs, s₂, h₂, he⟩ := Ends.bind_iff.mp he
      cases he
      have hp := ho e List.mem_cons_self
      have htab := (SameShape.pinFlush h₁).pageTable
      obtain ⟨h', hr⟩ := ih (h.pinFlush hp h₁) (by rw [htab]; exact hrest) h₂
      refine ⟨h'.mono fun x hx => ?_, fun x hx => ?_⟩
      · simp only [List.mem_append, List.mem_cons] at hx ⊢
        tauto
      · obtain rfl | hx := List.mem_cons.mp hx
        · exact hp
        · exact htab ▸ hr x hx
    · exact ih h hrest he

theorem Holds.writeAll {requests : List (Σ _ : Nat, Nat)} (hinj : Set.InjOn pageOffset P)
    (h : Holds content P requests flight s)
    (hr : ∀ e ∈ requests, s.pageTable.lookup e.1 = some e.2)
    (he : Ends (writeAll requests) s () s') : Holds content P [] flight s' := by
  induction requests generalizing s with
  | nil =>
    cases he
    exact h
  | cons e requests ih =>
    obtain ⟨s₁, h₁, h₂⟩ := writeAll_cons he
    have htab := (SameShape.writeFrame h₁).pageTable
    have hr' : ∀ x ∈ requests, s₁.pageTable.lookup x.1 = some x.2 := fun x hx => by
      rw [htab, hr x (List.mem_cons_of_mem _ hx)]
    exact ih (h.writeFrame hinj (hr e List.mem_cons_self) h₁) hr' h₂

theorem SameData.unpinAll {requests : List (Σ _ : Nat, Nat)}
    (he : Ends (unpinAll requests) s () s') : SameData s s' := by
  induction requests generalizing s with
  | nil =>
    cases he
    exact ⟨.self, fun _ => rfl, fun _ => rfl, rfl⟩
  | cons e requests ih =>
    rw [Buffer.unpinAll] at he
    obtain ⟨_, s₁, h₁, h₂⟩ := Ends.bind_iff.mp he
    have hu := SameData.unpin h₁
    have hr := ih h₂
    exact ⟨hu.toSameShape.trans hr.toSameShape, fun f => (hr.data f).trans (hu.data f),
      fun f => (hr.isDirty f).trans (hu.isDirty f), hr.disk.trans hu.disk⟩

theorem Holds.flushAllPagesUnsafe {order : List (Σ _ : Nat, Nat)}
    (hinj : Set.InjOn pageOffset P) (h : Holds content P [] flight s)
    (ho : order.Perm s.pageTable.entries) (he : Ends (flushAllPagesUnsafe order) s () s') :
    Holds content P [] flight s' := by
  have hlook : ∀ e ∈ order, s.pageTable.lookup e.1 = some e.2 := fun e he =>
    AList.mem_lookup_iff.mpr (ho.mem_iff.mp he)
  obtain ⟨rs, s₁, h₁, he⟩ := Ends.bind_iff.mp he
  obtain ⟨_, s₂, h₂, h₃⟩ := Ends.bind_iff.mp he
  obtain ⟨hh₁, hr⟩ := h.pinDirty hlook h₁
  rw [List.append_nil] at hh₁
  have htab := (SameShape.pinDirty h₁).pageTable
  exact (hh₁.writeAll hinj (by rw [htab]; exact hr) h₂).same (.unpinAll h₃)

end

/-! ## Runs -/

/-- A system, and the content of every page. -/
structure Observed extends System where
  content : Nat → Mem

/-- The system of a new pool, with the writes through guards recorded. -/
def observed (numFrames : Nat) (d : DiskManager) : LTS Observed Call where
  init o := o = ⟨⟨.create numFrames d, []⟩, pageAt d⟩
  step o c o' := Step o.toSystem c o'.toSystem ∧ o'.content = match c with
    | .write g data => Function.update o.content g.pageId (pageOf data)
    | _ => o.content

/-- Every guard shows the content of its page. -/
def Coherent (o : Observed) : Prop :=
  ∀ g ∈ o.guards, (o.pool.frames g.frameId).data = o.content g.pageId

/-- A fetch is of a page in `P`, and evicts no frame that a guard refers to. -/
def Fits (P : Set Nat) (o : Observed) : Call → Prop
  | .fetch _ p | .flushPage p => p ∈ P ∧ (o.pool.pageTable.lookup p = none →
      o.pool.numFrames = o.pool.pageTable.entries.length →
        ∀ g ∈ o.guards, ¬ Victim o.pool g.frameId)
  | _ => True

/-- Every guard is on the frame of its page. -/
structure Attached (P : Set Nat) (o : Observed) : Prop where
  holds : Holds o.content P [] ∅ o.pool
  guards : ∀ g ∈ o.guards, o.pool.pageTable.lookup g.pageId = some g.frameId

section
variable {numFrames : Nat} {d : DiskManager} {P : Set Nat} {o o' : Observed} {c : Call}

theorem Attached.shows (h : Attached P o) : Coherent o := fun g hg =>
  h.holds.resident _ _ (h.guards g hg)

theorem attached_init (hn : numFrames ≤ 2 ^ 32) (hio : d.io = none)
    (h : (observed numFrames d).init o) : Attached P o := by
  cases h
  exact ⟨⟨.create hn, fun p => short_pageAt d p, hio, nofun, nofun, nofun, fun p _ _ => rfl⟩, nofun⟩

/-- What a fetch that returns a guard leaves of the others. -/
theorem Attached.fetched (hinj : Set.InjOn pageOffset P) (h : Attached P o) {p : Nat}
    (hc : p ∈ P ∧ (o.pool.pageTable.lookup p = none →
      o.pool.numFrames = o.pool.pageTable.entries.length →
        ∀ g ∈ o.guards, ¬ Victim o.pool g.frameId)) {f : Option Nat} {b : BufferPoolManager}
    (he : Fetched o.pool p f b) : Holds o.content P [] ∅ b ∧
      (∀ c, f = some c → b.pageTable.lookup p = some c) ∧
      ∀ g ∈ o.guards, b.pageTable.lookup g.pageId = some g.frameId := by
  obtain ⟨h', hf, hkeep⟩ := h.holds.fetched hinj hc.1 he
  exact ⟨h', hf, fun g hg => hkeep _ _ (h.guards g hg) fun hp hn => hc.2 hp hn g hg⟩

theorem attached_step (hinj : Set.InjOn pageOffset P) (h : Attached P o)
    (hs : (observed numFrames d).step o c o') (hc : Fits P o c) : Attached P o' := by
  obtain ⟨sys, content⟩ := o
  obtain ⟨sys', content'⟩ := o'
  obtain ⟨hs, rfl⟩ := hs
  cases hs with
  | @fetched w p g b he hl hn =>
    obtain ⟨f, hf, he⟩ := checkedPage_ends.mp he
    obtain ⟨h', hp, hg⟩ := h.fetched hinj hc he
    cases f with
    | none => cases hf
    | some f =>
      cases hf
      refine ⟨h', fun x hx => ?_⟩
      obtain rfl | hx := List.mem_cons.mp hx
      · exact hp f rfl
      · exact hg x hx
  | @refused w p b he =>
    obtain ⟨f, hf, he⟩ := checkedPage_ends.mp he
    obtain ⟨h', -, hg⟩ := h.fetched hinj hc he
    exact ⟨h', hg⟩
  | @dropped g b hg he =>
    refine ⟨h.holds.same (.unpin he), fun x hx => ?_⟩
    exact (SameShape.unpin he).pageTable ▸ h.guards x (List.mem_of_mem_erase hx)
  | @wrote g data b hg hw he =>
    refine ⟨h.holds.getDataMut (h.guards g hg) he, ?_⟩
    cases he
    exact h.guards
  | @flushedPage p ok b he hl =>
    obtain ⟨-, he⟩ | ⟨f, s₁, s₂, -, he, h₁, h₂⟩ := flushPage_ends he
    · obtain ⟨h', -, hg⟩ := h.fetched hinj hc he
      exact ⟨h', hg⟩
    · obtain ⟨h', hp, hg⟩ := h.fetched hinj hc he
      obtain ⟨h₁', htab⟩ := h'.flush hinj (hp f rfl) h₁
      refine ⟨h₁'.same (.unpin h₂), fun x hx => ?_⟩
      rw [(SameShape.unpin h₂).pageTable, htab]
      exact hg x hx
  | @flushed p ok b he =>
    refine ⟨h.holds.flushPageUnsafe hinj he, fun x hx => ?_⟩
    exact (SameShape.flushPageUnsafe he).pageTable ▸ h.guards x hx
  | @flushedAll order b ho he =>
    refine ⟨h.holds.flushAllPagesUnsafe hinj ho he, fun x hx => ?_⟩
    exact (SameShape.flushAllPagesUnsafe he).pageTable ▸ h.guards x hx

/-- Along a run in which no fetch evicts a frame that a guard refers to, every
guard shows what was last written to its page, or the page on disk at the start. -/
theorem coherent (hn : numFrames ≤ 2 ^ 32) (hio : d.io = none) (hinj : Set.InjOn pageOffset P)
    (h : (observed numFrames d).init o) {tr : List (Observed × Call × Observed)}
    (hr : (observed numFrames d).Path o tr) (hc : Meets (Fits P) tr) :
    Always Coherent o tr := by
  have ha := hr.always (I := Attached P) (fun _ _ _ h hs hc => attached_step hinj h hs hc)
    (attached_init hn hio h) hc
  exact ⟨ha.1.shows, fun x hx => (ha.2 x hx).shows⟩

end

/-! ## One frame -/

/-- A pool of one frame on a file of three pages. -/
def oneFrame : Observed := ⟨⟨.create 1 threePages, []⟩, pageAt threePages⟩

/-- The step of a call with the write it makes. -/
def Observed.exec (o : Observed) (c : Call) : Option Observed :=
  (Buffer.exec o.toSystem c).map fun s => ⟨s, match c with
    | .write g data => Function.update o.content g.pageId (pageOf data)
    | _ => o.content⟩

theorem path_follow {cs : List Call} {tr : List (Observed × Call × Observed)}
    (h : follow Observed.exec o cs = some tr) : (observed numFrames d).Path o tr := by
  refine Path.follow (fun o c o' h => ?_) h
  obtain ⟨s, hs, rfl⟩ := Option.map_eq_some_iff.mp h
  exact ⟨exec_step hs, rfl⟩

/-- Page 1 is loaded, written and flushed. -/
theorem coherent_write : ∃ tr, follow Observed.exec oneFrame
      [.fetch true 1, .write ⟨1, 0, true⟩ fun _ => 7, .flushPageUnsafe 1] = some tr ∧
    Always Coherent oneFrame tr := by
  have htr : follow Observed.exec oneFrame
      [.fetch true 1, .write ⟨1, 0, true⟩ fun _ => 7, .flushPageUnsafe 1] = some _ := rfl
  have hp : (observed 1 threePages).Path oneFrame _ := path_follow htr
  refine ⟨_, htr, coherent (P := {1}) (by decide) rfl (Set.injOn_singleton _ _) rfl hp ?_⟩
  intro x hx
  simp only [List.mem_cons, List.not_mem_nil, or_false] at hx
  obtain rfl | rfl | rfl := hx
  · exact ⟨rfl, fun _ h => by cases h⟩
  · trivial
  · trivial

/-- Page 1 is loaded, which leaves its frame without a pin; the flush of page
1 makes the frame evictable, and a read of page 2 takes it. The guard of page
1 then shows page 2. -/
theorem stale_guard : ∃ tr, follow Observed.exec oneFrame
      [.fetch false 1, .flushPageUnsafe 1, .fetch false 2] = some tr ∧
    (observed 1 threePages).init oneFrame ∧ (observed 1 threePages).Path oneFrame tr ∧
      ¬ Always Coherent oneFrame tr := by
  have htr : follow Observed.exec oneFrame
      [.fetch false 1, .flushPageUnsafe 1, .fetch false 2] = some _ := rfl
  refine ⟨_, htr, rfl, path_follow htr, fun h => ?_⟩
  have := congrFun (h.2 _ (.tail _ (.tail _ (.head _))) ⟨1, 0, false⟩ (.tail _ (.head _))) 0
  revert this
  decide

end DbInternals.Buffer
