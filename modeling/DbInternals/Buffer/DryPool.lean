import DbInternals.Buffer.ArcCalls
import DbInternals.Buffer.FlushInPlace
import DbInternals.Buffer.LostFrames

/-!
# The pool runs dry

A fetch that brings its page in takes no pin, so the drop of its guard takes the count of the frame
below zero. As long as a page has at most one guard at a time, the count of its frame goes back and
forth between 0, while there is a guard, and the largest value, and never becomes 0 in a drop: the
frame never becomes evictable.

Results:
* `Dry.recordHit`, `Dry.unpin`, `Dry.brought`: a guard more or less;
* `parched_step`: no call makes a frame evictable or takes a page out of its frame;
* `pool_runs_dry`: once as many pages were fetched as there are frames, no other page can be fetched
  any more.
-/
namespace DbInternals.Buffer

open Storage LTS

/-! ## Pins -/

/-- The frames of `held` have one guard each, and no frame may be evicted. -/
structure Dry (held : List Nat) (s : BufferPoolManager) : Prop extends Placed ∅ s where
  counted : s.replacer.Counted
  size : s.replacer.replacerSize = s.numFrames
  evictable : ∀ f, ¬ s.replacer.Evictable f
  nodup : held.Nodup
  mapped : ∀ f ∈ held, ∃ p, s.pageTable.lookup p = some f
  resident : ∀ p f, s.pageTable.lookup p = some f →
    (s.frames f).pinCount = if f ∈ held then 0 else 2 ^ 64 - 1
  free : ∀ f ∈ s.freeFrames, (s.frames f).pinCount = 0

/-- The replacer changes no flag to evictable. -/
structure Keeps (r r' : ArcReplacer) : Prop where
  counted : r.Counted → r'.Counted
  size : r'.replacerSize = r.replacerSize
  evictable : ∀ f, r'.Evictable f → r.Evictable f

section
variable {s s' : BufferPoolManager} {held held' : List Nat} {p f : Nat} {r r' : ArcReplacer}

theorem Keeps.refl (r : ArcReplacer) : Keeps r r := ⟨id, rfl, fun _ => id⟩

theorem Keeps.flag (r : ArcReplacer) (f : Nat) : Keeps r (r.flag f false) := by
  refine ⟨fun h => h.flag f false, ArcReplacer.flag_replacerSize .., fun c hc => ?_⟩
  rw [ArcReplacer.evictable_flag] at hc
  split at hc
  · cases hc.2
  · exact hc

theorem Keeps.recordAccess (hf : f < r.replacerSize) (h : Ends (ArcReplacer.recordAccess f p) r () r') :
    Keeps r r' := by
  refine ⟨fun hc => ?_, (ArcReplacer.recordAccess_maps h).1, fun c => ((recordAccess_evictable h).2 c).mp⟩
  have hbelow : (ArcReplacer.Call.recordAccess f p).Below r.replacerSize := hf
  have hrun : Ends (ArcReplacer.Call.recordAccess f p).run r none r' := h.bind (.pure _ _)
  exact (hc.effect hbelow hrun).counted hc

/-- The frame `f` changes hands, and no other pin changes. -/
theorem Dry.move (h : Dry held s) (hpl : Placed ∅ s') (hn : s'.numFrames = s.numFrames)
    (ht : s'.pageTable = s.pageTable) (hfree : s'.freeFrames = s.freeFrames)
    (hk : Keeps s.replacer s'.replacer) (hp : s.pageTable.lookup p = some f) (hnd : held'.Nodup)
    (hc : ∀ c, c ≠ f → (c ∈ held' ↔ c ∈ held))
    (hfr : ∀ c, c ≠ f → (s'.frames c).pinCount = (s.frames c).pinCount)
    (hpin : (s'.frames f).pinCount = if f ∈ held' then 0 else 2 ^ 64 - 1) : Dry held' s' where
  toPlaced := hpl
  counted := hk.counted h.counted
  size := by rw [hk.size, h.size, hn]
  evictable c hev := h.evictable c (hk.evictable c hev)
  nodup := hnd
  mapped c hm := by
    rw [ht]
    by_cases e : c = f
    · exact ⟨p, e ▸ hp⟩
    · exact h.mapped c ((hc c e).mp hm)
  resident q c hq := by
    rw [ht] at hq
    by_cases e : c = f
    · rw [e, hpin]
    · rw [hfr c e, h.resident q c hq]
      simp only [hc c e]
  free c hm := by
    rw [hfree] at hm
    have e : c ≠ f := fun e => h.free_apart c hm p (e ▸ hp)
    rw [hfr c e, h.free c hm]

/-- No pin changes. -/
theorem Dry.same (h : Dry held s) (hs : SameShape s s') (hk : Keeps s.replacer s'.replacer)
    (hfr : ∀ c, (s'.frames c).pinCount = (s.frames c).pinCount) : Dry held s' where
  toPlaced := h.toPlaced.same hs
  counted := hk.counted h.counted
  size := by rw [hk.size, h.size, hs.numFrames]
  evictable c hev := h.evictable c (hk.evictable c hev)
  nodup := h.nodup
  mapped := by rw [hs.pageTable]; exact h.mapped
  resident q c hq := by
    rw [hs.pageTable] at hq
    rw [hfr, h.resident q c hq]
  free c hm := by
    rw [hs.freeFrames] at hm
    rw [hfr, h.free c hm]

theorem Dry.perm (h : Dry held s) (hp : held'.Perm held) : Dry held' s :=
  { h with
    nodup := hp.nodup_iff.mpr h.nodup
    mapped := fun f hf => h.mapped f (hp.mem_iff.mp hf)
    resident := fun p f hl => by simp only [h.resident p f hl, hp.mem_iff] }

theorem mem_cons_iff_of_ne {c : Nat} (h : c ≠ f) : c ∈ f :: held ↔ c ∈ held :=
  ⟨fun hm => (List.mem_cons.mp hm).resolve_left h, List.mem_cons_of_mem _⟩

/-- The largest count, one more. -/
theorem succ_max : (2 ^ 64 - 1 + 1) % 2 ^ 64 = 0 := by decide

/-- A hit takes a pin too many from the largest count: there is none now. -/
theorem Dry.recordHit (h : Dry held s) (hp : s.pageTable.lookup p = some f) (hf : f ∉ held)
    (he : Ends (recordHit f p) s () s') : Dry (f :: held) s' := by
  have hpl := h.toShape.recordHit hp he
  obtain ⟨hn, ht, hfree⟩ := recordHit_ends he
  have hmax : (s.frames f).pinCount = 2 ^ 64 - 1 := by rw [h.resident p f hp, if_neg hf]
  obtain ⟨_, s₁, h₁, h₂⟩ := Ends.bind_iff.mp he
  obtain ⟨r, hr, rfl⟩ := onReplacer_ends.mp h₁
  have hlt : f < s.replacer.replacerSize := h.size.symm ▸ h.mapped_lt p f hp
  have hs' := pinHit_ends h₂
  have hrep : s'.replacer = r := by
    rw [hs']
    exact if_neg (by rw [hmax]; decide)
  refine h.move (h.toPlaced.tables hpl hn ht hfree) hn ht hfree (hrep ▸ .recordAccess hlt hr) hp
    (List.nodup_cons.mpr ⟨hf, h.nodup⟩) (fun c e => mem_cons_iff_of_ne e) (fun c e => ?_) ?_
  · rw [hs']
    exact congrArg FrameHeader.pinCount (withFrame_of_ne _ e .pinned)
  · rw [hs', if_pos List.mem_cons_self]
    refine (congrArg FrameHeader.pinCount (withFrame_self _ f .pinned)).trans ?_
    change ((s.frames f).pinCount + 1) % 2 ^ 64 = 0
    rw [hmax, succ_max]

theorem Dry.pinFlush (h : Dry held s) (hp : s.pageTable.lookup p = some f) (hf : f ∉ held)
    (he : Ends (pinFlush f) s () s') : Dry (f :: held) s' := by
  have hs := SameShape.pinFlush he
  have hmax : (s.frames f).pinCount = 2 ^ 64 - 1 := by rw [h.resident p f hp, if_neg hf]
  obtain ⟨-, rfl⟩ := pinFlush_ends.mp he
  refine h.move (h.toPlaced.same hs) rfl rfl rfl (.flag _ f) hp (List.nodup_cons.mpr ⟨hf, h.nodup⟩)
    (fun c e => mem_cons_iff_of_ne e) (fun c e => ?_) ?_
  · exact congrArg FrameHeader.pinCount (withFrame_of_ne s e fun h => h.clean.pinned)
  · rw [if_pos List.mem_cons_self]
    refine (congrArg FrameHeader.pinCount (withFrame_self s f fun h => h.clean.pinned)).trans ?_
    change ((s.frames f).pinCount + 1) % 2 ^ 64 = 0
    rw [hmax, succ_max]

/-- A drop takes the count below zero. -/
theorem Dry.unpin (h : Dry (f :: held) s) (he : Ends (unpin f) s () s') : Dry held s' := by
  obtain ⟨p, hp⟩ := h.mapped f List.mem_cons_self
  obtain ⟨hf, hnd⟩ := List.nodup_cons.mp h.nodup
  have hs := SameShape.unpin he
  have hzero : (s.frames f).pinCount = 0 := by rw [h.resident p f hp, if_pos List.mem_cons_self]
  have hs' := unpin_ends he
  have hrep : s'.replacer = s.replacer := by
    rw [hs']
    exact if_neg (by rw [hzero]; decide)
  refine h.move (h.toPlaced.same hs) hs.numFrames hs.pageTable hs.freeFrames (hrep ▸ .refl _) hp hnd
    (fun c e => (mem_cons_iff_of_ne e).symm) (fun c e => ?_) ?_
  · rw [hs']
    exact congrArg FrameHeader.pinCount (withFrame_of_ne s e .unpinned)
  · rw [hs', if_neg hf]
    refine (congrArg FrameHeader.pinCount (withFrame_self s f .unpinned)).trans ?_
    change sizeDec (s.frames f).pinCount = 2 ^ 64 - 1
    rw [hzero]
    rfl

theorem Dry.writeFrame (h : Dry held s) (he : Ends (writeFrame p f) s () s') : Dry held s' := by
  have hs := SameShape.writeFrame he
  obtain ⟨d, -, rfl⟩ := writeFrame_ends.mp he
  exact h.same hs (.refl _) fun _ => rfl

/-! ## Fetching -/

theorem load_table (he : Ends (load p f) s () s') :
    s'.pageTable = s.pageTable.insert p f ∧ s'.freeFrames = s.freeFrames := by
  obtain ⟨_, s₁, h₁, he⟩ := Ends.bind_iff.mp he
  obtain ⟨_, s₂, h₂, h₃⟩ := Ends.bind_iff.mp he
  obtain ⟨data, d, -, rfl⟩ := readInto_ends h₁
  cases h₂
  obtain ⟨r, rfl⟩ := recordLoad_ends h₃
  exact ⟨rfl, rfl⟩

theorem Keeps.load (hf : f < s.replacer.replacerSize) (he : Ends (load p f) s () s') :
    Keeps s.replacer s'.replacer := by
  obtain ⟨_, s₁, h₁, he⟩ := Ends.bind_iff.mp he
  obtain ⟨_, s₂, h₂, h₃⟩ := Ends.bind_iff.mp he
  obtain ⟨data, d, -, rfl⟩ := readInto_ends h₁
  cases h₂
  obtain ⟨_, s₃, h₃, h₄⟩ := Ends.bind_iff.mp h₃
  obtain ⟨r, hr, rfl⟩ := onReplacer_ends.mp h₃
  obtain ⟨-, rfl⟩ := setEvictable_pool.mp h₄
  have hk : Keeps s.replacer r := .recordAccess hf hr
  have hfl := Keeps.flag r f
  exact ⟨fun h => hfl.counted (hk.counted h), hfl.size.trans hk.size,
    fun c h => hk.evictable c (hfl.evictable c h)⟩

/-- The frame of a page that is brought in has no pin, like that of a page with a guard. -/
theorem Dry.brought {s₁ : BufferPoolManager} (h : Dry held s) (hp : s.pageTable.lookup p = none)
    (h₁ : Ends takeFree s f s₁) (h₂ : Ends (load p f) s₁ () s') : Dry (f :: held) s' ∧
      s'.numFrames = s.numFrames ∧ s'.pageTable = s.pageTable.insert p f := by
  obtain ⟨hpl, hlt⟩ := h.toPlaced.takeFree h₁
  obtain ⟨fs, hfs, rfl⟩ := takeFree_ends h₁
  have hff : f ∈ s.freeFrames := by rw [hfs]; exact List.mem_cons_self
  have hpl' := hpl.load hlt hp h₂
  obtain ⟨htab, hfree⟩ := load_table h₂
  have hpins := fun c => (load_pins h₂ c).2
  have hnum : s'.numFrames = s.numFrames := (load_pins h₂ f).1
  have hk : Keeps s.replacer s'.replacer :=
    Keeps.load (s := { s with freeFrames := fs }) (h.size.symm ▸ hlt) h₂
  have hnew : f ∉ held := fun hm => by
    obtain ⟨q, hq⟩ := h.mapped f hm
    exact h.free_apart f hff q hq
  have hlook : ∀ q c, s'.pageTable.lookup q = some c →
      (q = p ∧ c = f) ∨ (c ≠ f ∧ s.pageTable.lookup q = some c) := by
    intro q c hq
    rw [htab] at hq
    by_cases e : q = p
    · subst e
      rw [AList.lookup_insert] at hq
      exact .inl ⟨rfl, (Option.some.inj hq).symm⟩
    · rw [AList.lookup_insert_ne e] at hq
      exact .inr ⟨fun ec => h.free_apart f hff q (ec ▸ hq), hq⟩
  refine ⟨⟨hpl', hk.counted h.counted, ?_, fun c hc => h.evictable c (hk.evictable c hc),
    List.nodup_cons.mpr ⟨hnew, h.nodup⟩, fun c hc => ?_, fun q c hq => ?_, fun c hc => ?_⟩, hnum, htab⟩
  · rw [hk.size, h.size, hnum]
  · rw [htab]
    obtain rfl | hc := List.mem_cons.mp hc
    · exact ⟨p, AList.lookup_insert _⟩
    · obtain ⟨q, hq⟩ := h.mapped c hc
      have e : q ≠ p := by
        intro e
        rw [e, hp] at hq
        cases hq
      exact ⟨q, (AList.lookup_insert_ne e).trans hq⟩
  · rw [hpins]
    obtain ⟨-, rfl⟩ | ⟨e, hq⟩ := hlook q c hq
    · rw [if_pos List.mem_cons_self]
      exact h.free c hff
    · simp only [mem_cons_iff_of_ne e]
      exact h.resident q c hq
  · rw [hpins]
    rw [hfree] at hc
    exact h.free c (by rw [hfs]; exact List.mem_cons_of_mem _ hc)

theorem Dry.evictFrame (h : Dry held s) {o : Option Nat} (he : Ends evictFrame s o s') :
    o = none ∧ s' = s := by
  obtain ⟨rfl, -, rfl⟩ | ⟨f, q, r, _, -, hr, -⟩ := evictFrame_ends he
  · exact ⟨rfl, rfl⟩
  · obtain ⟨h0, -⟩ | ⟨c, st, -, hst, hev, -⟩ := ArcReplacer.evict_ends hr
    · cases h0
    · exact absurd ⟨st, hst, hev⟩ (h.evictable c)

/-- A fetch of a page without a guard. -/
theorem Dry.fetched (h : Dry held s) (hp : ∀ f, s.pageTable.lookup p = some f → f ∉ held)
    {o : Option Nat} (he : Fetched s p o s') : (o = none ∧ s' = s) ∨ ∃ f, o = some f ∧
      Dry (f :: held) s' ∧ s'.numFrames = s.numFrames ∧ s'.pageTable.lookup p = some f ∧
      ∀ q c, s.pageTable.lookup q = some c → s'.pageTable.lookup q = some c := by
  cases he with
  | @hit f _ hl he =>
    obtain ⟨hn, ht, -⟩ := recordHit_ends he
    exact .inr ⟨f, rfl, h.recordHit hl (hp f hl) he, hn, ht ▸ hl, fun q c hq => ht ▸ hq⟩
  | full _ _ he => exact .inl ⟨rfl, (h.evictFrame he).2⟩
  | evict _ _ h₁ _ => cases (h.evictFrame h₁).1
  | @free f s₁ _ hl _ h₁ h₂ =>
    obtain ⟨hd, hn, ht⟩ := h.brought hl h₁ h₂
    refine .inr ⟨f, rfl, hd, hn, by rw [ht, AList.lookup_insert], fun q c hq => ?_⟩
    have e : q ≠ p := by
      intro e
      rw [e, hl] at hq
      cases hq
    rw [ht, AList.lookup_insert_ne e, hq]

/-- With all frames in use, a fetch of a page that is in none returns without a guard. -/
theorem Dry.refuses (h : Dry held s) (hn : s.numFrames = s.pageTable.entries.length)
    (hp : s.pageTable.lookup p = none) (w : Bool) : Ends (checkedPage w p) s none s := by
  obtain ⟨o, r, hr⟩ := h.counted.lists.evict_returns
  obtain ⟨rfl, rfl, -⟩ | ⟨c, st, -, hst, hev, -⟩ := ArcReplacer.evict_ends hr
  · have hev : Ends Buffer.evictFrame s none s := (onReplacer_ends.mpr ⟨_, hr, rfl⟩).bind (.pure _ _)
    exact checkedPage_ends.mpr ⟨none, rfl, .full hp hn hev⟩
  · exact absurd ⟨st, hst, hev⟩ (h.evictable c)

/-! ## Flushing -/

theorem Dry.clean (h : Dry held s) (f : Nat) : Dry held (s.withFrame f .clean) :=
  h.same ⟨rfl, rfl, rfl, rfl, id⟩ (.refl _) (withFrame_same FrameHeader.pinCount .clean fun _ => rfl)

theorem SameShape.flush {g : Guard} (he : Ends g.flush s () s') : SameShape s s' := by
  obtain ⟨_, s₁, h₁, h₂⟩ := Ends.bind_iff.mp he
  cases h₁
  have hs : SameShape s (s.withFrame g.frameId .clean) := ⟨rfl, rfl, rfl, rfl, id⟩
  exact hs.trans (.writeFrame h₂)

theorem Dry.flush (h : Dry held s) {g : Guard} (he : Ends g.flush s () s') : Dry held s' := by
  obtain ⟨_, s₁, h₁, h₂⟩ := Ends.bind_iff.mp he
  cases h₁
  exact (h.clean g.frameId).writeFrame h₂

theorem Dry.getDataMut (h : Dry held s) {g : Guard} {data : Mem}
    (he : Ends (g.getDataMut data) s () s') : Dry held s' ∧ SameShape s s' := by
  cases he
  have hs : SameShape s (s.withFrame g.frameId fun h => { h with isDirty := true, data := pageOf data }) :=
    ⟨rfl, rfl, rfl, rfl, id⟩
  exact ⟨h.same hs (.refl _) (withFrame_same FrameHeader.pinCount _ fun _ => rfl), hs⟩

theorem Dry.flushPageUnsafe (h : Dry held s) (hp : ∀ f, s.pageTable.lookup p = some f → f ∉ held)
    {ok : Bool} (he : Ends (flushPageUnsafe p) s ok s') : Dry held s' := by
  obtain ⟨-, -, rfl⟩ | ⟨f, s₁, s₂, hl, -, h₁, h₂, h₃⟩ := flushPageUnsafe_ends he
  · exact h
  · exact ((h.pinFlush hl (hp f hl) h₁).writeFrame h₂).unpin h₃

/-- The frames pinned for a flush are those of its requests. -/
theorem Dry.pinDirty {order requests : List (Σ _ : Nat, Nat)} (h : Dry held s)
    (ho : ∀ e ∈ order, s.pageTable.lookup e.1 = some e.2) (hnd : (order.map Sigma.snd).Nodup)
    (hf : ∀ e ∈ order, e.2 ∉ held) (he : Ends (pinDirty order) s requests s') :
    Dry (requests.map Sigma.snd ++ held) s' := by
  induction order generalizing s held requests with
  | nil =>
    cases he
    exact h
  | cons e order ih =>
    obtain ⟨hne, hnd⟩ := List.nodup_cons.mp hnd
    obtain ⟨hl, ho⟩ := List.forall_mem_cons.mp ho
    obtain ⟨hef, hf⟩ := List.forall_mem_cons.mp hf
    rw [Buffer.pinDirty] at he
    replace he := Ends.rest (Ends.get s) he
    obtain ⟨-, he⟩ | ⟨-, he⟩ := Ends.ite he
    · obtain ⟨_, s₁, h₁, he⟩ := Ends.bind_iff.mp he
      obtain ⟨rs, s₂, h₂, he⟩ := Ends.bind_iff.mp he
      cases he
      have htab := (SameShape.pinFlush h₁).pageTable
      refine (ih (h.pinFlush hl hef h₁) (fun x hx => htab ▸ ho x hx) hnd (fun x hx hm => ?_) h₂).perm
        List.perm_middle.symm
      obtain e' | hm := List.mem_cons.mp hm
      · exact hne (List.mem_map.mpr ⟨x, hx, e'⟩)
      · exact hf x hx hm
    · exact ih h ho hnd hf he

theorem Dry.writeAll {requests : List (Σ _ : Nat, Nat)} (h : Dry held s)
    (he : Ends (writeAll requests) s () s') : Dry held s' := by
  induction requests generalizing s with
  | nil =>
    cases he
    exact h
  | cons e requests ih =>
    obtain ⟨s₁, h₁, h₂⟩ := writeAll_cons he
    exact ih (h.writeFrame h₁) h₂

theorem Dry.unpinAll {requests : List (Σ _ : Nat, Nat)} (h : Dry (requests.map Sigma.snd ++ held) s)
    (he : Ends (unpinAll requests) s () s') : Dry held s' := by
  induction requests generalizing s with
  | nil =>
    cases he
    exact h
  | cons e requests ih =>
    rw [Buffer.unpinAll] at he
    obtain ⟨_, s₁, h₁, h₂⟩ := Ends.bind_iff.mp he
    exact ih (Dry.unpin h h₁) h₂

theorem Dry.flushAllPagesUnsafe {order : List (Σ _ : Nat, Nat)} (h : Dry [] s)
    (ho : order.Perm s.pageTable.entries) (he : Ends (flushAllPagesUnsafe order) s () s') :
    Dry [] s' := by
  obtain ⟨rs, s₁, h₁, he⟩ := Ends.bind_iff.mp he
  obtain ⟨_, s₂, h₂, h₃⟩ := Ends.bind_iff.mp he
  have hnd : (order.map Sigma.snd).Nodup :=
    (ho.map Sigma.snd).nodup_iff.mpr (mapped_frames h.toShape)
  have hlook : ∀ e ∈ order, s.pageTable.lookup e.1 = some e.2 := fun e he =>
    AList.mem_lookup_iff.mpr (ho.mem_iff.mp he)
  exact ((h.pinDirty hlook hnd (by simp) h₁).writeAll h₂).unpinAll h₃

end

/-! ## Runs -/

/-- The page of the call has no guard. -/
def Alone (s : System) : Call → Prop
  | .fetch _ p | .flushPage p | .flushPageUnsafe p => ∀ g ∈ s.guards, g.pageId ≠ p
  | .flushAllPagesUnsafe => s.guards = []
  | _ => True

/-- No frame may be evicted, and every guard is on the frame of its page. -/
structure Parched (s : System) : Prop where
  dry : Dry (s.guards.map Guard.frameId) s.pool
  guards : ∀ g ∈ s.guards, s.pool.pageTable.lookup g.pageId = some g.frameId

/-- The pages in frames stay there. -/
structure Stays (s s' : System) : Prop where
  numFrames : s'.pool.numFrames = s.pool.numFrames
  lookup : ∀ p f, s.pool.pageTable.lookup p = some f → s'.pool.pageTable.lookup p = some f

section
variable {s s' : System} {c : Call} {numFrames : Nat} {d : DiskManager}

theorem parched_init (hn : numFrames ≤ 2 ^ 32) (h : (system numFrames d).init s) : Parched s := by
  cases h
  exact ⟨⟨.create hn, ArcReplacer.counted_create numFrames, rfl, nofun, .nil, nofun, nofun,
    fun _ _ => rfl⟩, nofun⟩

theorem Parched.alone (h : Parched s) {p : Nat} (hp : ∀ g ∈ s.guards, g.pageId ≠ p) :
    ∀ f, s.pool.pageTable.lookup p = some f → f ∉ s.guards.map Guard.frameId := by
  intro f hl hm
  obtain ⟨g, hg, rfl⟩ := List.mem_map.mp hm
  exact hp g hg (h.dry.inj g.pageId p g.frameId (h.guards g hg) hl)

theorem parched_step (h : Parched s) (hs : Step s c s') (hc : Alone s c) :
    Parched s' ∧ Stays s s' := by
  have hsame : ∀ {b : BufferPoolManager}, Dry (s.guards.map Guard.frameId) b →
      SameShape s.pool b → Parched ⟨b, s.guards⟩ ∧ Stays s ⟨b, s.guards⟩ := fun hd hb =>
    ⟨⟨hd, fun g hg => hb.pageTable ▸ h.guards g hg⟩, hb.numFrames, fun q f hq => hb.pageTable ▸ hq⟩
  have hself : Parched s ∧ Stays s s := ⟨h, rfl, fun _ _ => id⟩
  cases hs with
  | @fetched w p g b he hl hn =>
    obtain ⟨o, ho, he⟩ := checkedPage_ends.mp he
    obtain ⟨rfl, -⟩ | ⟨f, rfl, hd, hnum, hf, hkeep⟩ := h.dry.fetched (h.alone hc) he
    · cases ho
    cases ho
    refine ⟨⟨hd, fun g hg => ?_⟩, hnum, hkeep⟩
    obtain rfl | hg := List.mem_cons.mp hg
    · exact hf
    · exact hkeep _ _ (h.guards g hg)
  | @refused w p b he =>
    obtain ⟨o, ho, he⟩ := checkedPage_ends.mp he
    obtain ⟨-, rfl⟩ | ⟨f, rfl, -⟩ := h.dry.fetched (h.alone hc) he
    · exact hself
    · cases ho
  | @dropped g b hg he =>
    have hperm := (List.perm_cons_erase hg).map Guard.frameId
    have hs := SameShape.unpin he
    refine ⟨⟨(h.dry.perm hperm.symm).unpin he, fun x hx => ?_⟩, hs.numFrames, fun q f hq => ?_⟩
    · rw [hs.pageTable]
      exact h.guards x (List.mem_of_mem_erase hx)
    · rw [hs.pageTable]
      exact hq
  | @wrote g data b hg hw he =>
    obtain ⟨hd, hb⟩ := h.dry.getDataMut he
    exact hsame hd hb
  | @flushedPage p ok b he hl =>
    obtain ⟨-, he⟩ | ⟨f, s₁, s₂, -, he, h₁, h₂⟩ := flushPage_ends he
    · obtain ⟨-, rfl⟩ | ⟨f, h0, -⟩ := h.dry.fetched (h.alone hc) he
      · exact hself
      · cases h0
    · obtain ⟨h0, -⟩ | ⟨c, h0, hd, hnum, -, hkeep⟩ := h.dry.fetched (h.alone hc) he
      · cases h0
      cases h0
      have hb := (SameShape.flush h₁).trans (.unpin h₂)
      have hlook : ∀ q c, s.pool.pageTable.lookup q = some c → b.pageTable.lookup q = some c :=
        fun q c hq => hb.pageTable ▸ hkeep q c hq
      exact ⟨⟨(hd.flush h₁).unpin h₂, fun g hg => hlook _ _ (h.guards g hg)⟩,
        hb.numFrames.trans hnum, hlook⟩
  | @flushed p ok b he =>
    exact hsame (h.dry.flushPageUnsafe (h.alone hc) he) (.flushPageUnsafe he)
  | @flushedAll order b ho he =>
    have hnil : s.guards.map Guard.frameId = [] := by rw [show s.guards = [] from hc]; rfl
    have hd : Dry [] s.pool := hnil ▸ h.dry
    exact hsame (hnil ▸ hd.flushAllPagesUnsafe ho he) (.flushAllPagesUnsafe he)

/-- A table that keeps its entries and is not larger has the same pages. -/
theorem Stays.same_pages (h : Stays s s') (hn : s'.pool.pageTable.entries.length ≤
      s.pool.pageTable.entries.length) :
    s'.pool.pageTable.entries.length = s.pool.pageTable.entries.length ∧
      ∀ p, s.pool.pageTable.lookup p = none → s'.pool.pageTable.lookup p = none := by
  have hsub : s.pool.pageTable.keys ⊆ s'.pool.pageTable.keys := by
    intro p hp
    obtain ⟨f, hf⟩ := Option.isSome_iff_exists.mp (AList.lookup_isSome.mpr hp)
    exact AList.lookup_isSome.mp (by rw [h.lookup p f hf]; rfl)
  have hlen : ∀ t : AList fun _ : Nat => Nat, t.keys.length = t.entries.length := fun t =>
    List.length_map _
  have hperm : s.pool.pageTable.keys.Perm s'.pool.pageTable.keys :=
    (s.pool.pageTable.keys_nodup.subperm hsub).perm_of_length_le (by rw [hlen, hlen]; exact hn)
  refine ⟨by rw [← hlen, ← hlen, hperm.length_eq], fun p hp => ?_⟩
  rw [AList.lookup_eq_none] at hp ⊢
  exact fun hm => hp (hperm.mem_iff.mpr hm)

/-- As long as a page has at most one guard at a time, no frame ever becomes evictable and no page
leaves its frame. So once there are as many pages in the pool as frames, every later fetch of another
page returns without a guard. -/
theorem pool_runs_dry (hn : numFrames ≤ 2 ^ 32) (h : (system numFrames d).init s)
    {tr : List (System × Call × System)} (hr : (system numFrames d).Path s tr)
    (hc : Meets Alone tr) {i j : ℕ} (hij : i ≤ j) :
    (∀ f, ¬ (stateAt s tr i).pool.replacer.Evictable f) ∧
    (∀ p f, (stateAt s tr i).pool.pageTable.lookup p = some f →
      (stateAt s tr j).pool.pageTable.lookup p = some f) ∧
    ((stateAt s tr i).pool.pageTable.entries.length = numFrames → ∀ w p,
      (stateAt s tr i).pool.pageTable.lookup p = none →
        Ends (checkedPage w p) (stateAt s tr j).pool none (stateAt s tr j).pool) := by
  have hinit := parched_init hn h
  have hparched : Always Parched s tr :=
    hr.always (fun _ _ _ h hs hc => (parched_step h hs hc).1) hinit hc
  have hsteps := hr.each (I := Parched) (R := fun s _ s' => Stays s s')
    (fun _ _ _ h hs hc => (parched_step h hs hc).symm) hinit hc
  have hstays : ∀ {i j}, i ≤ j → Stays (stateAt s tr i) (stateAt s tr j) := fun hij =>
    hr.stateAt_trans (fun _ => ⟨rfl, fun _ _ => id⟩)
      (fun h h' => ⟨h'.numFrames.trans h.numFrames, fun p f hp => h'.lookup p f (h.lookup p f hp)⟩)
      hsteps hij
  have hnum : ∀ i, (stateAt s tr i).pool.numFrames = numFrames := fun i => by
    have h0 := (hstays (Nat.zero_le i)).numFrames
    rw [stateAt_zero] at h0
    rw [h0]
    cases h
    rfl
  refine ⟨(hparched.stateAt i).dry.evictable, (hstays hij).lookup, fun hfull w p hp => ?_⟩
  have hd := (hparched.stateAt j).dry
  have hcount := hd.toPlaced.whole.count
  rw [hnum j] at hcount
  obtain ⟨hlen, hnone⟩ := (hstays hij).same_pages (by omega)
  exact hd.refuses (by rw [hnum j, hlen, hfull]) (hnone p hp) w

/-- One frame: page 1 is read, given back and read again; then page 2 cannot be read. -/
theorem pool_runs_dry_one : ∃ tr, follow exec ⟨.create 1 threePages, []⟩
      [.fetch false 1, .drop ⟨1, 0, false⟩, .fetch true 1, .drop ⟨1, 0, true⟩] = some tr ∧
    Ends (checkedPage true 2) (stateAt ⟨.create 1 threePages, []⟩ tr 4).pool none
      (stateAt ⟨.create 1 threePages, []⟩ tr 4).pool := by
  have htr : follow exec ⟨.create 1 threePages, []⟩
      [.fetch false 1, .drop ⟨1, 0, false⟩, .fetch true 1, .drop ⟨1, 0, true⟩] = some _ := rfl
  have hr : (system 1 threePages).Path ⟨.create 1 threePages, []⟩ _ :=
    Path.follow (fun _ _ _ h => exec_step h) htr
  refine ⟨_, htr, (pool_runs_dry (by decide) rfl hr ?_ (by decide : 1 ≤ 4)).2.2 rfl true 2 rfl⟩
  intro x hx
  simp only [List.mem_cons, List.not_mem_nil, or_false] at hx
  obtain rfl | rfl | rfl | rfl := hx
  · exact fun _ hg => nomatch hg
  · trivial
  · exact fun _ hg => nomatch hg
  · trivial

end

end DbInternals.Buffer
