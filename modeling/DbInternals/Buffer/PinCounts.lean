import DbInternals.Buffer.ArcValid
import DbInternals.Buffer.BufferPool

/-!
# Pin counts

The pins of a frame are those of its guards, and of a flush while it runs:
`Pinned holders` counts both in one list. A hit, a flush and a drop keep the
count. A fetch that brings its page into a frame takes no pin, and the guard
it returns drops one.

Results:
* `Pinned.pinHit`, `Pinned.pinFlush`, `Pinned.unpin`: one holder more or less;
* `ready_step`: every call that brings in no page keeps the counts right;
* `pin_counts`: along a run the counts are right, none underflows and a pool
  without guards can serve every page exactly if no call brings in a page;
* `load_unpinned`: the guard of a first read is on a frame with no pins.
-/
namespace DbInternals.Buffer

open Storage LTS

/-! ## Counting the holders -/

/-- A frame has one pin for each entry of `holders`, and may be evicted if it has none. -/
structure Pinned (holders : List Nat) (s : BufferPoolManager) : Prop where
  pins : ∀ f, (s.frames f).pinCount = holders.count f
  flags : ∀ f st, s.replacer.aliveMap f = some st → (st.evictable = true ↔ holders.count f = 0)

section
variable {s s' : BufferPoolManager} {holders holders' : List Nat} {f p : Nat}

theorem Pinned.congr (h : Pinned holders s) (hc : ∀ f, holders'.count f = holders.count f) :
    Pinned holders' s :=
  ⟨fun f => (h.pins f).trans (hc f).symm, fun f st hst => by rw [hc]; exact h.flags f st hst⟩

/-- Only the frame `f` changes hands. -/
theorem Pinned.move (h : Pinned holders s) (hc : ∀ c, c ≠ f → holders'.count c = holders.count c)
    (hfr : ∀ c, c ≠ f → (s'.frames c).pinCount = (s.frames c).pinCount)
    (hal : ∀ c, c ≠ f → s'.replacer.aliveMap c = s.replacer.aliveMap c)
    (hpin : (s'.frames f).pinCount = holders'.count f)
    (hflag : ∀ st, s'.replacer.aliveMap f = some st →
      (st.evictable = true ↔ holders'.count f = 0)) : Pinned holders' s' := by
  constructor
  · intro c
    by_cases e : c = f
    · rw [e, hpin]
    · rw [hfr c e, h.pins, hc c e]
  · intro c st hst
    by_cases e : c = f
    · subst e
      exact hflag st hst
    · rw [hal c e] at hst
      rw [hc c e]
      exact h.flags c st hst

theorem flag_of_ne (r : ArcReplacer) (b : Bool) {c : Nat} (h : c ≠ f) :
    (r.flag f b).aliveMap c = r.aliveMap c := by
  rw [ArcReplacer.flag_aliveMap, Function.update_of_ne h]

theorem flag_self {r : ArcReplacer} {b : Bool} {st : FrameStatus}
    (h : (r.flag f b).aliveMap f = some st) : st.evictable = b := by
  rw [ArcReplacer.flag_aliveMap, Function.update_self] at h
  obtain ⟨st', -, rfl⟩ := Option.map_eq_some_iff.mp h
  rfl

theorem count_cons_ne (holders : List Nat) {c : Nat} (h : c ≠ f) :
    (f :: holders).count c = holders.count c := List.count_cons_of_ne (Ne.symm h)

theorem Pinned.pinFlush (h : Pinned holders s) (hn : holders.count f + 1 < 2 ^ 64)
    (he : Ends (pinFlush f) s () s') : Pinned (f :: holders) s' := by
  obtain ⟨-, rfl⟩ := pinFlush_ends.mp he
  refine h.move (fun c => count_cons_ne holders)
    (fun c hc => congrArg FrameHeader.pinCount (withFrame_of_ne s hc fun h => h.clean.pinned))
    (fun c hc => flag_of_ne _ _ hc) ?_ fun st hst => ?_
  · refine (congrArg FrameHeader.pinCount (withFrame_self s f fun h => h.clean.pinned)).trans ?_
    change ((s.frames f).pinCount + 1) % 2 ^ 64 = _
    rw [h.pins, List.count_cons_self, Nat.mod_eq_of_lt hn]
  · rw [flag_self hst, List.count_cons_self]
    exact iff_of_false Bool.false_ne_true (Nat.succ_ne_zero _)

theorem Pinned.pinHit (h : Pinned holders s) (hn : holders.count f + 1 < 2 ^ 64)
    (he : Ends (pinHit f) s () s') : Pinned (f :: holders) s' := by
  rw [pinHit_ends he]
  refine h.move (fun c => count_cons_ne holders)
    (fun c hc => congrArg FrameHeader.pinCount (withFrame_of_ne s hc _)) (fun c hc => ?_) ?_
    fun st hst => ?_
  · split
    · exact flag_of_ne _ _ hc
    · rfl
  · refine (congrArg FrameHeader.pinCount (withFrame_self s f _)).trans ?_
    change ((s.frames f).pinCount + 1) % 2 ^ 64 = _
    rw [h.pins, List.count_cons_self, Nat.mod_eq_of_lt hn]
  · have hne : (f :: holders).count f ≠ 0 := by rw [List.count_cons_self]; omega
    split at hst
    · rw [flag_self hst]
      exact iff_of_false Bool.false_ne_true hne
    next hpin =>
      rw [h.pins] at hpin
      exact iff_of_false (fun hev => hpin ((h.flags f st hst).mp hev)) hne

theorem Pinned.unpin (h : Pinned (f :: holders) s) (he : Ends (unpin f) s () s') :
    Pinned holders s' := by
  have hdec : sizeDec (s.frames f).pinCount = holders.count f := by
    rw [h.pins, List.count_cons_self, sizeDec_succ]
  rw [unpin_ends he]
  refine h.move (fun c hc => (count_cons_ne holders hc).symm)
    (fun c hc => congrArg FrameHeader.pinCount (withFrame_of_ne s hc _)) (fun c hc => ?_) ?_
    fun st hst => ?_
  · split
    · exact flag_of_ne _ _ hc
    · rfl
  · exact (congrArg FrameHeader.pinCount (withFrame_self s f _)).trans hdec
  · rw [hdec] at hst
    split at hst
    next h0 =>
      rw [flag_self hst]
      exact iff_of_true rfl h0
    next h0 =>
      have hne : (f :: holders).count f ≠ 0 := by rw [List.count_cons_self]; omega
      exact iff_of_false (fun hev => hne ((h.flags f st hst).mp hev)) h0

/-- A change that touches neither pins nor the replacer. -/
theorem Pinned.same (h : Pinned holders s)
    (hfr : ∀ c, (s'.frames c).pinCount = (s.frames c).pinCount)
    (hr : s'.replacer = s.replacer) : Pinned holders s' :=
  ⟨fun c => (hfr c).trans (h.pins c), fun c st hst => h.flags c st (hr ▸ hst)⟩

theorem Pinned.recordAccess (h : Pinned holders s) (hf : s.replacer.aliveMap f ≠ none)
    (he : Ends (onReplacer (ArcReplacer.recordAccess f p)) s () s') : Pinned holders s' := by
  obtain ⟨r, hr, rfl⟩ := onReplacer_ends.mp he
  refine ⟨h.pins, fun c st hst => ?_⟩
  obtain ⟨-, ⟨st₀, st', hst₀, -, hev, ha, -⟩ | ⟨st', hnone, -⟩⟩ := ArcReplacer.recordAccess_maps hr
  · change r.aliveMap c = some st at hst
    rw [ha] at hst
    by_cases e : c = f
    · subst e
      rw [Function.update_self] at hst
      cases hst
      rw [hev]
      exact h.flags c st₀ hst₀
    · rw [Function.update_of_ne e] at hst
      exact h.flags c st hst
  · exact absurd hnone hf

/-! ## The rest of the pool -/

/-- Every frame is in one place, and every page in the pool is in the file. -/
structure Sound (s : BufferPoolManager) : Prop where
  valid : s.replacer.Valid
  size : s.replacer.replacerSize = s.numFrames
  places : s.freeFrames.length + s.pageTable.entries.length = s.numFrames
  free_lt : ∀ f ∈ s.freeFrames, f < s.numFrames
  alive : ∀ p f, s.pageTable.lookup p = some f → s.replacer.aliveMap f ≠ none
  io : s.disk.io = none
  header : Mapped s.disk 0
  paged : ∀ p f, s.pageTable.lookup p = some f → p < s.disk.globalMetadata.nextPageId

theorem Sound.alive_lt (h : Sound s) (hf : s.replacer.aliveMap f ≠ none) : f < s.numFrames := by
  obtain ⟨st, hst⟩ := Option.ne_none_iff_exists'.mp hf
  exact h.size ▸ (h.valid.alive f st hst).1

/-- The replacer changes flags and order. -/
theorem Sound.same (h : Sound s) (hs : SameShape s s') (hv : s'.replacer.Valid)
    (hn : s'.replacer.replacerSize = s.replacer.replacerSize)
    (ha : ∀ c, s.replacer.aliveMap c ≠ none → s'.replacer.aliveMap c ≠ none)
    (hd : s'.disk = s.disk) : Sound s' where
  valid := hv
  size := by rw [hn, h.size, hs.numFrames]
  places := by rw [hs.freeFrames, hs.pageTable, hs.numFrames, h.places]
  free_lt := by rw [hs.freeFrames, hs.numFrames]; exact h.free_lt
  alive p f hp := ha f (h.alive p f (hs.pageTable ▸ hp))
  io := by rw [hd]; exact h.io
  header := by rw [hd]; exact h.header
  paged p f hp := by rw [hd]; exact h.paged p f (hs.pageTable ▸ hp)

theorem flag_alive (r : ArcReplacer) (f : Nat) (b : Bool) (c : Nat) (h : r.aliveMap c ≠ none) :
    (r.flag f b).aliveMap c ≠ none := by
  rw [ArcReplacer.flag_aliveMap]
  by_cases e : c = f
  · subst e
    rw [Function.update_self]
    simpa using h
  · rwa [Function.update_of_ne e]

theorem Sound.pinFlush (h : Sound s) (he : Ends (pinFlush f) s () s') : Sound s' := by
  have hs := SameShape.pinFlush he
  obtain ⟨-, rfl⟩ := pinFlush_ends.mp he
  exact h.same hs (h.valid.flag _) (ArcReplacer.flag_replacerSize ..) (flag_alive _ _ _) rfl

/-- A pin that was the first, or the last one given back, sets the flag. -/
theorem Sound.flagIf (h : Sound s) (hs : SameShape s s') {c : Prop} [Decidable c] {b : Bool}
    (hr : s'.replacer = if c then s.replacer.flag f b else s.replacer) (hd : s'.disk = s.disk) :
    Sound s' := by
  split at hr
  · refine h.same hs ?_ ?_ (fun c hc => ?_) hd
    · rw [hr]
      exact h.valid.flag _
    · rw [hr, ArcReplacer.flag_replacerSize]
    · rw [hr]
      exact flag_alive _ _ _ c hc
  · refine h.same hs ?_ ?_ (fun c hc => ?_) hd
    · rw [hr]
      exact h.valid
    · rw [hr]
    · rw [hr]
      exact hc

theorem Sound.pinHit (h : Sound s) (he : Ends (pinHit f) s () s') : Sound s' := by
  have hs := SameShape.pinHit he
  rw [pinHit_ends he] at hs ⊢
  exact h.flagIf hs rfl rfl

theorem Sound.unpin (h : Sound s) (he : Ends (unpin f) s () s') : Sound s' := by
  have hs := SameShape.unpin he
  rw [unpin_ends he] at hs ⊢
  exact h.flagIf hs rfl rfl

theorem Sound.writeFrame (h : Sound s) (he : Ends (writeFrame p f) s () s') : Sound s' := by
  obtain ⟨d, hd, rfl⟩ := writeFrame_ends.mp he
  obtain rfl := writePage_ok h.io hd
  exact ⟨h.valid, h.size, h.places, h.free_lt, h.alive, h.io, h.header.store, h.paged⟩

theorem Sound.recordAccess (h : Sound s) (hf : s.replacer.aliveMap f ≠ none)
    (he : Ends (onReplacer (ArcReplacer.recordAccess f p)) s () s') : Sound s' := by
  obtain ⟨r, hr, rfl⟩ := onReplacer_ends.mp he
  obtain ⟨hv, hn⟩ := h.valid.recordAlive hf hr
  refine ⟨hv, hn.trans h.size, h.places, h.free_lt, fun q c hq => ?_, h.io, h.header, h.paged⟩
  obtain ⟨-, ⟨-, st', -, -, -, ha, -⟩ | ⟨st', -, -, ha, -⟩⟩ := ArcReplacer.recordAccess_maps hr
  all_goals
    change r.aliveMap c ≠ none
    rw [ha]
    by_cases e : c = f
    · subst e
      rw [Function.update_self]
      simp
    · rw [Function.update_of_ne e]
      exact h.alive q c hq

/-! ## Flushing -/

/-- The pool between two calls, or while a flush holds further pins. -/
structure Counted (holders : List Nat) (s : BufferPoolManager) : Prop
    extends Sound s, Pinned holders s

theorem Counted.pinFlush (h : Counted holders s) (hn : holders.count f + 1 < 2 ^ 64)
    (he : Ends (pinFlush f) s () s') : Counted (f :: holders) s' :=
  ⟨h.toSound.pinFlush he, h.toPinned.pinFlush hn he⟩

theorem Counted.unpin (h : Counted (f :: holders) s) (he : Ends (unpin f) s () s') :
    Counted holders s' := ⟨h.toSound.unpin he, h.toPinned.unpin he⟩

theorem Pinned.writeFrame (h : Pinned holders s) (he : Ends (writeFrame p f) s () s') :
    Pinned holders s' := by
  obtain ⟨d, -, rfl⟩ := writeFrame_ends.mp he
  exact h.same (fun _ => rfl) rfl

theorem Counted.writeFrame (h : Counted holders s) (he : Ends (writeFrame p f) s () s') :
    Counted holders s' := ⟨h.toSound.writeFrame he, h.toPinned.writeFrame he⟩

theorem count_lt (hn : holders.length + 1 < 2 ^ 64) (f : Nat) : holders.count f + 1 < 2 ^ 64 := by
  have := List.count_le_length (a := f) (l := holders)
  omega

theorem Pinned.flushPageUnsafe (h : Pinned holders s) (hn : holders.length + 1 < 2 ^ 64)
    {ok : Bool} (he : Ends (flushPageUnsafe p) s ok s') : Pinned holders s' := by
  obtain ⟨-, -, rfl⟩ | ⟨f, s₁, s₂, -, -, h₁, h₂, h₃⟩ := flushPageUnsafe_ends he
  · exact h
  · exact ((h.pinFlush (count_lt hn f) h₁).writeFrame h₂).unpin h₃

theorem Counted.flushPageUnsafe (h : Counted holders s) (hn : holders.length + 1 < 2 ^ 64)
    {ok : Bool} (he : Ends (flushPageUnsafe p) s ok s') : Counted holders s' := by
  refine ⟨?_, h.toPinned.flushPageUnsafe hn he⟩
  obtain ⟨-, -, rfl⟩ | ⟨f, s₁, s₂, -, -, h₁, h₂, h₃⟩ := flushPageUnsafe_ends he
  · exact h.toSound
  · exact ((h.toSound.pinFlush h₁).writeFrame h₂).unpin h₃

/-- The frames pinned for a flush are those of its requests. -/
theorem Counted.pinDirty {order requests : List (Σ _ : Nat, Nat)} {l : List Nat}
    (h : Counted (l ++ holders) s) (hl : ∀ f ∈ l, (s.frames f).isDirty = false)
    (hn : holders.length + 1 < 2 ^ 64) (he : Ends (pinDirty order) s requests s') :
    Counted (requests.map Sigma.snd ++ (l ++ holders)) s' := by
  induction order generalizing s l requests with
  | nil =>
    cases he
    exact h
  | cons e order ih =>
    rw [Buffer.pinDirty] at he
    replace he := Ends.rest (Ends.get s) he
    obtain ⟨hd, he⟩ | ⟨-, he⟩ := Ends.ite he
    · obtain ⟨_, s₁, h₁, he⟩ := Ends.bind_iff.mp he
      obtain ⟨rs, s₂, h₂, he⟩ := Ends.bind_iff.mp he
      cases he
      -- a frame pinned before is clean, so it is pinned once
      have hnew : e.2 ∉ l := fun hm => by
        cases (hl e.2 hm).symm.trans hd
      have hc : (l ++ holders).count e.2 + 1 < 2 ^ 64 := by
        rw [List.count_append, List.count_eq_zero_of_not_mem hnew]
        have := List.count_le_length (a := e.2) (l := holders)
        omega
      have hclean : ∀ f ∈ e.2 :: l, (s₁.frames f).isDirty = false := by
        obtain ⟨-, rfl⟩ := pinFlush_ends.mp h₁
        intro f hf
        by_cases ef : f = e.2
        · rw [ef]
          exact congrArg FrameHeader.isDirty (withFrame_self s e.2 fun h => h.clean.pinned)
        · refine (congrArg FrameHeader.isDirty
            (withFrame_of_ne s ef fun h => h.clean.pinned)).trans (hl f ?_)
          exact (List.mem_cons.mp hf).resolve_left ef
      have h' := ih (l := e.2 :: l) (h.pinFlush hc h₁) hclean h₂
      refine ⟨h'.toSound, h'.toPinned.congr fun f => ?_⟩
      exact (List.perm_middle.symm.count_eq f)
    · exact ih h hl he

theorem Counted.writeAll {requests : List (Σ _ : Nat, Nat)} (h : Counted holders s)
    (he : Ends (writeAll requests) s () s') : Counted holders s' := by
  induction requests generalizing s with
  | nil =>
    cases he
    exact h
  | cons e requests ih =>
    obtain ⟨s₁, h₁, h₂⟩ := writeAll_cons he
    exact ih (h.writeFrame h₁) h₂

theorem Counted.unpinAll {requests : List (Σ _ : Nat, Nat)}
    (h : Counted (requests.map Sigma.snd ++ holders) s)
    (he : Ends (unpinAll requests) s () s') : Counted holders s' := by
  induction requests generalizing s with
  | nil =>
    cases he
    exact h
  | cons e requests ih =>
    rw [Buffer.unpinAll] at he
    obtain ⟨_, s₁, h₁, h₂⟩ := Ends.bind_iff.mp he
    exact ih (Counted.unpin h h₁) h₂

theorem Counted.flushAllPagesUnsafe {order : List (Σ _ : Nat, Nat)} (h : Counted holders s)
    (hn : holders.length + 1 < 2 ^ 64) (he : Ends (flushAllPagesUnsafe order) s () s') :
    Counted holders s' := by
  obtain ⟨rs, s₁, h₁, he⟩ := Ends.bind_iff.mp he
  obtain ⟨_, s₂, h₂, h₃⟩ := Ends.bind_iff.mp he
  exact ((h.pinDirty (l := []) nofun hn h₁).writeAll h₂).unpinAll h₃

/-- A flush through a guard takes no pin. -/
theorem Counted.flush (h : Counted holders s) {g : Guard} (he : Ends g.flush s () s') :
    Counted holders s' := by
  obtain ⟨_, s₁, h₁, h₂⟩ := Ends.bind_iff.mp he
  cases h₁
  have h₁ : Counted holders (s.withFrame g.frameId .clean) :=
    ⟨h.toSound.same ⟨rfl, rfl, rfl, rfl, id⟩ h.valid rfl (fun _ => id) rfl,
      h.toPinned.same (withFrame_same FrameHeader.pinCount .clean fun _ => rfl) rfl⟩
  exact h₁.writeFrame h₂

theorem Counted.getDataMut (h : Counted holders s) {g : Guard} {data : Mem}
    (he : Ends (g.getDataMut data) s () s') : Counted holders s' := by
  cases he
  exact ⟨h.toSound.same ⟨rfl, rfl, rfl, rfl, id⟩ h.valid rfl (fun _ => id) rfl,
    h.toPinned.same (withFrame_same FrameHeader.pinCount _ fun _ => rfl) rfl⟩

/-! ## Fetching -/

theorem Counted.recordHit (h : Counted holders s) (hp : s.pageTable.lookup p = some f)
    (hn : holders.length + 1 < 2 ^ 64) (he : Ends (recordHit f p) s () s') :
    Counted (f :: holders) s' := by
  obtain ⟨_, s₁, h₁, h₂⟩ := Ends.bind_iff.mp he
  have hf := h.alive p f hp
  exact ⟨(h.toSound.recordAccess hf h₁).pinHit h₂,
    (h.toPinned.recordAccess hf h₁).pinHit (count_lt hn f) h₂⟩

theorem Pinned.evictFrame (h : Pinned holders s) (hn : holders.length + 1 < 2 ^ 64)
    {o : Option Nat} (he : Ends evictFrame s o s') : Pinned holders s' := by
  obtain ⟨rfl, -, rfl⟩ | ⟨f, q, r, s₁, rfl, hr, -, h₁, rfl⟩ := evictFrame_ends he
  · exact h
  obtain ⟨h0, -⟩ | ⟨f', st, -, -, -, hev⟩ := ArcReplacer.evict_ends hr
  · cases h0
  have hr' : Pinned holders { s with replacer := r } := by
    refine ⟨h.pins, fun c st' hst => ?_⟩
    change r.aliveMap c = some st' at hst
    rw [hev.maps.2.1] at hst
    by_cases e : c = f'
    · rw [e, Function.update_self] at hst
      cases hst
    · rw [Function.update_of_ne e] at hst
      exact h.flags c st' hst
  obtain ⟨-, rfl⟩ | ⟨-, ok, h₂⟩ := flushDirty_ends h₁
  · exact hr'.same (fun _ => rfl) rfl
  · exact (hr'.flushPageUnsafe hn h₂).same (fun _ => rfl) rfl

/-- A load takes no pin. -/
theorem load_pins (he : Ends (load p f) s () s') (c : Nat) :
    s'.numFrames = s.numFrames ∧ (s'.frames c).pinCount = (s.frames c).pinCount := by
  obtain ⟨_, s₁, h₁, he⟩ := Ends.bind_iff.mp he
  obtain ⟨_, s₂, h₂, h₃⟩ := Ends.bind_iff.mp he
  obtain ⟨data, d, -, rfl⟩ := readInto_ends h₁
  cases h₂
  obtain ⟨_, s₃, h₄, h₅⟩ := Ends.bind_iff.mp h₃
  obtain ⟨r, -, rfl⟩ := onReplacer_ends.mp h₄
  obtain ⟨-, rfl⟩ := setEvictable_pool.mp h₅
  exact ⟨rfl, withFrame_same FrameHeader.pinCount (fun h => { h with data := data })
    (fun _ => rfl) c⟩

/-- A fetch that brings its page in leaves every pin count as it was. -/
theorem Counted.loaded (h : Counted holders s) (hn : holders.length + 1 < 2 ^ 64)
    (hp : s.pageTable.lookup p = none) (he : Fetched s p (some f) s') :
    f < s.numFrames ∧ s'.numFrames = s.numFrames ∧
      ∀ c, (s'.frames c).pinCount = holders.count c := by
  cases he with
  | hit hp' => cases hp.symm.trans hp'
  | @evict f s₁ _ _ _ h₁ h₂ =>
    have hpins := h.toPinned.evictFrame hn h₁
    obtain ⟨h0, -⟩ | ⟨c, q, r, s₂, h0, hr, -, hd, rfl⟩ := evictFrame_ends h₁
    · cases h0
    cases h0
    obtain ⟨h0, -⟩ | ⟨f', st, h0, hst, -, -⟩ := ArcReplacer.evict_ends hr
    · cases h0
    cases h0
    refine ⟨h.alive_lt (by rw [hst]; simp), ?_, fun c => (load_pins h₂ c).2.trans (hpins.pins c)⟩
    exact (load_pins h₂ 0).1.trans (SameShape.flushDirty hd).numFrames
  | @free f s₁ _ _ _ h₁ h₂ =>
    obtain ⟨fs, hfs, rfl⟩ := takeFree_ends h₁
    refine ⟨h.free_lt f (by rw [hfs]; exact List.mem_cons_self), (load_pins h₂ 0).1,
      fun c => (load_pins h₂ c).2.trans (h.pins c)⟩

/-! ## Fetches return -/

/-- What a load of `p` needs of the pool. -/
structure Usable (n p : Nat) (s : BufferPoolManager) : Prop where
  valid : s.replacer.Valid
  size : s.replacer.replacerSize = n
  io : s.disk.io = none
  mapped : Mapped s.disk p

section
variable {n q : Nat}

theorem Usable.pinFlush (h : Usable n p s) (hf : f < n) :
    ∃ s', Ends (pinFlush f) s () s' ∧ Usable n p s' ∧ s'.disk = s.disk :=
  ⟨_, pinFlush_ends.mpr ⟨h.size.symm ▸ hf, rfl⟩,
    ⟨h.valid.flag _, (ArcReplacer.flag_replacerSize ..).trans h.size, h.io, h.mapped⟩, rfl⟩

theorem Usable.writeFrame (h : Usable n p s) (hq : q < s.disk.globalMetadata.nextPageId)
    (f : Nat) : ∃ s', Ends (writeFrame q f) s () s' ∧ Usable n p s' :=
  ⟨{ s with disk := s.disk.store (s.frames f).data (pageOffset q) },
    writeFrame_ends.mpr ⟨_, writePage_ends h.io hq, rfl⟩,
    ⟨h.valid, h.size, h.io, h.mapped.store⟩⟩

theorem Usable.unpin (h : Usable n p s) (hf : f < n) :
    ∃ s', Ends (unpin f) s () s' ∧ Usable n p s' := by
  obtain ⟨_, s', he⟩ := unpin_returns (h.size.symm ▸ hf)
  refine ⟨s', he, ?_⟩
  rw [unpin_ends he]
  refine ⟨?_, ?_, h.io, h.mapped⟩
  · split
    · exact h.valid.flag _
    · exact h.valid
  · split
    · exact (ArcReplacer.flag_replacerSize ..).trans h.size
    · exact h.size

theorem Usable.flushPageUnsafe (h : Usable n p s)
    (hf : ∀ f, s.pageTable.lookup q = some f → f < n)
    (hq : ∀ f, s.pageTable.lookup q = some f → q < s.disk.globalMetadata.nextPageId) :
    ∃ ok s', Ends (flushPageUnsafe q) s ok s' ∧ Usable n p s' := by
  cases hl : s.pageTable.lookup q with
  | none =>
    refine ⟨false, s, (Ends.get s).bind ?_, h⟩
    simp only [hl]
    exact .pure _ _
  | some f =>
    obtain ⟨s₁, h₁, hu₁, hd⟩ := h.pinFlush (hf f hl)
    obtain ⟨s₂, h₂, hu₂⟩ := hu₁.writeFrame (hd.symm ▸ hq f hl) f
    obtain ⟨s₃, h₃, hu₃⟩ := hu₂.unpin (hf f hl)
    refine ⟨true, s₃, (Ends.get s).bind ?_, hu₃⟩
    simp only [hl]
    exact h₁.bind (h₂.bind (h₃.bind (.pure _ _)))

theorem Usable.load_returns (h : Usable n p s) (hf : f < n) : Returns (load p f) s := by
  have h₁ : Ends (readInto p f) s () (s.withFrame f fun h => { h with data := pageAt s.disk p }) :=
    Ends.bind (onDisk_ends.mpr ⟨_, readPage_ends h.io h.mapped, rfl⟩) (.modify _ _)
  obtain ⟨_, r, hr⟩ := h.valid.recordAccess (h.size.symm ▸ hf) p
  have hsize : r.replacerSize = n := (ArcReplacer.recordAccess_maps hr).1.trans h.size
  refine .bind h₁ (.bind (Ends.modify _ _) (.bind (onReplacer_ends.mpr ⟨r, hr, rfl⟩) ?_))
  exact ⟨_, _, setEvictable_pool.mpr ⟨hsize.symm ▸ hf, rfl⟩⟩

/-- A pool with no pins serves every page of the file. -/
theorem Counted.fetch_returns (h : Counted [] s) (hn : 0 < s.numFrames) (hm : Mapped s.disk p) :
    ∃ f s', Fetched s p (some f) s' := by
  have hu : Usable s.numFrames p s := ⟨h.valid, h.size, h.io, hm⟩
  cases hp : s.pageTable.lookup p with
  | some f =>
    have hf := h.alive p f hp
    have hlt := h.alive_lt hf
    obtain ⟨_, r, hr⟩ := h.valid.recordAccess (h.size.symm ▸ hlt) p
    have hsize : r.replacerSize = s.numFrames :=
      (ArcReplacer.recordAccess_maps hr).1.trans h.size
    have hpin : Returns (Buffer.pinHit f) { s with replacer := r } := pinHit_returns (hsize.symm ▸ hlt)
    obtain ⟨_, s', h'⟩ := hpin
    exact ⟨f, s', .hit hp (Ends.bind (onReplacer_ends.mpr ⟨r, hr, rfl⟩) h')⟩
  | none =>
    by_cases hsize : s.numFrames = s.pageTable.entries.length
    · -- every frame is in the table, and none is pinned
      obtain ⟨e, he⟩ := List.exists_mem_of_length_pos (hsize ▸ hn)
      have hlook : s.pageTable.lookup e.1 = some e.2 := AList.mem_lookup_iff.mpr he
      obtain ⟨st, hst⟩ := Option.ne_none_iff_exists'.mp (h.alive _ _ hlook)
      have hev : s.replacer.Evictable e.2 := ⟨st, hst, (h.flags _ st hst).mpr (by simp)⟩
      obtain ⟨q, c, r, hr⟩ := h.valid.evict hev
      obtain ⟨h0, -⟩ | ⟨c', st', h0, hst', -, hevd⟩ := ArcReplacer.evict_ends hr
      · cases h0
      cases h0
      have hc := h.alive_lt (f := c) (by rw [hst']; simp)
      have hu' : Usable s.numFrames p { s with replacer := r } :=
        ⟨h.valid.evicted hevd, hevd.maps.1.trans h.size, h.io, hm⟩
      have hflush : ∃ s₁, Ends (flushDirty st'.pageId c) { s with replacer := r } () s₁ ∧
          Usable s.numFrames p s₁ := by
        by_cases hd : (s.frames c).isDirty = true
        · obtain ⟨ok, s₁, h₁, hu₁⟩ := hu'.flushPageUnsafe (q := st'.pageId)
            (fun f hf => h.alive_lt (h.alive _ f hf)) (fun f hf => h.paged _ f hf)
          refine ⟨s₁, (Ends.get _).bind ?_, hu₁⟩
          rw [if_pos hd]
          exact h₁.bind (.pure _ _)
        · refine ⟨_, (Ends.get _).bind ?_, hu'⟩
          rw [if_neg hd]
          exact .pure _ _
      obtain ⟨s₁, h₁, hu₁⟩ := hflush
      have he : Ends evictFrame s (some c)
          { s₁ with pageTable := s₁.pageTable.erase st'.pageId } :=
        Ends.bind (onReplacer_ends.mpr ⟨r, hr, rfl⟩) (h₁.bind ((Ends.get _).bind rfl))
      have hu₂ : Usable s.numFrames p { s₁ with pageTable := s₁.pageTable.erase st'.pageId } :=
        ⟨hu₁.valid, hu₁.size, hu₁.io, hu₁.mapped⟩
      obtain ⟨_, s', h'⟩ := hu₂.load_returns hc
      exact ⟨c, s', .evict hp hsize he h'⟩
    · cases hfree : s.freeFrames with
      | nil =>
        have := h.places
        rw [hfree, List.length_nil, Nat.zero_add] at this
        exact absurd this.symm hsize
      | cons f fs =>
        have hlt := h.free_lt f (by rw [hfree]; exact List.mem_cons_self)
        have he : Ends takeFree s f { s with freeFrames := fs } := by
          refine (Ends.get s).bind ?_
          simp only [hfree]
          rfl
        have hu' : Usable s.numFrames p { s with freeFrames := fs } :=
          ⟨h.valid, h.size, h.io, hm⟩
        obtain ⟨_, s', h'⟩ := hu'.load_returns hlt
        exact ⟨f, s', .free hp hsize he h'⟩

end

end

/-! ## Runs -/

/-- The system of a new pool. -/
def system (numFrames : Nat) (d : DiskManager) : LTS System Call where
  init s := s = ⟨.create numFrames d, []⟩
  step := Step

/-- The pins of every frame are its guards, a frame that holds a page may be
evicted if it has none, no drop takes a pin count below zero, and without
guards every page of the file can be fetched. -/
structure PinSafe (s : System) : Prop where
  pins : ∀ f < s.pool.numFrames,
    (s.pool.frames f).pinCount = (s.guards.map Guard.frameId).count f
  evictable : ∀ p f, s.pool.pageTable.lookup p = some f →
    (s.pool.replacer.Evictable f ↔ (s.pool.frames f).pinCount = 0)
  positive : ∀ g ∈ s.guards, 0 < (s.pool.frames g.frameId).pinCount
  serves : s.guards = [] → ∀ w p, Mapped s.pool.disk p →
    ∃ g b, Ends (checkedPage w p) s.pool (some g) b

/-- The call fetches a page that is in no frame, and there is a frame for it. -/
def BringsIn (s : System) : Call → Prop
  | .fetch _ p | .flushPage p => s.pool.pageTable.lookup p = none ∧
      (s.pool.numFrames = s.pool.pageTable.entries.length → ∃ f, Victim s.pool f)
  | _ => False

/-- The counts are those of the guards. -/
structure Ready (s : System) : Prop where
  counted : Counted (s.guards.map Guard.frameId) s.pool
  few : s.guards.length ≤ 2 ^ 63
  inPool : ∀ g ∈ s.guards, g.frameId < s.pool.numFrames

section
variable {s s' : System} {c : Call} {numFrames : Nat} {d : DiskManager}

theorem ready_create (hio : d.io = none) (hd : Mapped d 0) :
    Ready ⟨.create numFrames d, []⟩ := by
  refine ⟨⟨⟨ArcReplacer.valid_create _, rfl, ?_, fun f hf => ?_, nofun, hio, hd, nofun⟩,
    ⟨fun _ => rfl, nofun⟩⟩, Nat.zero_le _, nofun⟩
  · change ((List.range numFrames).map _).length + 0 = numFrames
    rw [List.length_map, List.length_range, Nat.add_zero]
  · obtain ⟨i, hi, rfl⟩ := List.mem_map.mp hf
    exact Nat.lt_of_le_of_lt (Nat.mod_le _ _) (List.mem_range.mp hi)

theorem Ready.length_lt (h : Ready s) : (s.guards.map Guard.frameId).length + 1 < 2 ^ 64 := by
  have := h.few
  rw [List.length_map]
  omega

theorem Ready.pinSafe (h : Ready s) (hn : 0 < s.pool.numFrames) : PinSafe s := by
  refine ⟨fun f _ => h.counted.pins f, fun p f hp => ?_, fun g hg => ?_, fun hg w p hm => ?_⟩
  · obtain ⟨st, hst⟩ := Option.ne_none_iff_exists'.mp (h.counted.alive p f hp)
    rw [h.counted.pins, ← h.counted.flags f st hst]
    constructor
    · intro hev
      obtain ⟨st', hst', hev⟩ := hev
      cases hst.symm.trans hst'
      exact hev
    · exact fun hev => ⟨st, hst, hev⟩
  · rw [h.counted.pins]
    exact List.count_pos_iff.mpr (List.mem_map_of_mem hg)
  · have hc : Counted [] s.pool := by
      have := h.counted
      rwa [hg] at this
    obtain ⟨f, b, hf⟩ := hc.fetch_returns hn hm
    exact ⟨_, b, checkedPage_ends.mpr ⟨some f, rfl, hf⟩⟩

/-- A fetch that brings nothing in is a hit, or finds no frame. -/
theorem Ready.fetched (h : Ready s) {p : Nat} {o : Option Nat} {b : BufferPoolManager}
    (hb : ¬ (s.pool.pageTable.lookup p = none ∧
      (s.pool.numFrames = s.pool.pageTable.entries.length → ∃ f, Victim s.pool f)))
    (he : Fetched s.pool p o b) : (o = none ∧ b = s.pool) ∨ ∃ f, o = some f ∧
      f < s.pool.numFrames ∧ b.numFrames = s.pool.numFrames ∧
      Counted (f :: s.guards.map Guard.frameId) b := by
  cases he with
  | @hit f _ hp he =>
    refine .inr ⟨f, rfl, h.counted.alive_lt (h.counted.alive p f hp), ?_,
      h.counted.recordHit hp h.length_lt he⟩
    obtain ⟨_, s₁, h₁, h₂⟩ := Ends.bind_iff.mp he
    obtain ⟨r, -, rfl⟩ := onReplacer_ends.mp h₁
    exact (SameShape.pinHit h₂).numFrames
  | full hp hn he =>
    obtain ⟨-, -, rfl⟩ | ⟨_, _, _, _, h0, -⟩ := evictFrame_ends he
    · exact .inl ⟨rfl, rfl⟩
    · cases h0
  | evict hp hn h₁ h₂ =>
    obtain ⟨h0, -⟩ | ⟨f, q, r, _, -, hr, -⟩ := evictFrame_ends h₁
    · cases h0
    · exact absurd ⟨hp, fun _ => ⟨f, q, r, hr⟩⟩ hb
  | free hp hn h₁ h₂ => exact absurd ⟨hp, fun e => absurd e hn⟩ hb

theorem ready_step (h : Ready s) (hs : Step s c s') (hc : ¬ BringsIn s c) :
    Ready s' ∧ s'.pool.numFrames = s.pool.numFrames := by
  have hlen := h.length_lt
  have hready : ∀ {holders : List Guard} {b : BufferPoolManager},
      b.numFrames = s.pool.numFrames → Counted (holders.map Guard.frameId) b →
      holders.length ≤ 2 ^ 63 → (∀ g ∈ holders, g.frameId < s.pool.numFrames) →
      Ready ⟨b, holders⟩ ∧ b.numFrames = s.pool.numFrames :=
    fun hnum hcount hn hg => ⟨⟨hcount, hn, fun g hm => hnum.symm ▸ hg g hm⟩, hnum⟩
  cases hs with
  | @fetched w p g b he hl hn =>
    obtain ⟨f, hf, he⟩ := checkedPage_ends.mp he
    obtain ⟨rfl, -⟩ | ⟨f, rfl, hlt, hnum, hcount⟩ := h.fetched hc he
    · cases hf
    cases hf
    refine hready hnum hcount hn fun x hx => ?_
    obtain rfl | hx := List.mem_cons.mp hx
    · exact hlt
    · exact h.inPool x hx
  | @refused w p b he =>
    obtain ⟨f, hf, he⟩ := checkedPage_ends.mp he
    obtain ⟨-, rfl⟩ | ⟨f, rfl, -⟩ := h.fetched hc he
    · exact ⟨h, rfl⟩
    · cases hf
  | @dropped g b hg he =>
    have hperm := (List.perm_cons_erase hg).map Guard.frameId
    have hcount : Counted (g.frameId :: (s.guards.erase g).map Guard.frameId) s.pool :=
      ⟨h.counted.toSound, h.counted.toPinned.congr fun f => (hperm.count_eq f).symm⟩
    exact hready (SameShape.unpin he).numFrames (hcount.unpin he)
      (Nat.le_trans List.length_erase_le h.few) fun x hx => h.inPool x (List.mem_of_mem_erase hx)
  | @wrote g data b hg hw he =>
    have hcount := h.counted.getDataMut he
    cases he
    exact hready rfl hcount h.few h.inPool
  | @flushedPage p ok b he hl =>
    obtain ⟨-, he⟩ | ⟨f, s₁, s₂, -, he, h₁, h₂⟩ := flushPage_ends he
    · obtain ⟨-, rfl⟩ | ⟨f, h0, -⟩ := h.fetched hc he
      · exact ⟨h, rfl⟩
      · cases h0
    · obtain ⟨h0, -⟩ | ⟨f, h0, hlt, hnum, hcount⟩ := h.fetched hc he
      · cases h0
      cases h0
      have hnum₂ : s₂.numFrames = s₁.numFrames := by
        obtain ⟨_, s₃, h₃, h₄⟩ := Ends.bind_iff.mp h₁
        cases h₃
        exact (SameShape.writeFrame h₄).numFrames
      exact hready ((SameShape.unpin h₂).numFrames.trans (hnum₂.trans hnum))
        ((hcount.flush h₁).unpin h₂) h.few h.inPool
  | @flushed p ok b he =>
    exact hready (SameShape.flushPageUnsafe he).numFrames (h.counted.flushPageUnsafe hlen he)
      h.few h.inPool
  | @flushedAll order b ho he =>
    exact hready (SameShape.flushAllPagesUnsafe he).numFrames
      (h.counted.flushAllPagesUnsafe hlen he) h.few h.inPool

/-- A fetch for which there is a frame brings the page in. -/
theorem brought_in {p : Nat} {o : Option Nat} {b : BufferPoolManager}
    (hb : s.pool.numFrames = s.pool.pageTable.entries.length → ∃ f, Victim s.pool f)
    (he : Fetched s.pool p o b) : o ≠ none := by
  intro ho
  cases he with
  | full hp hn he =>
    obtain ⟨-, he, -⟩ | ⟨_, _, _, _, h0, -⟩ := evictFrame_ends he
    · obtain ⟨f, q, r, hr⟩ := hb hn
      cases (he.unique hr).1
    · cases h0
  | hit => cases ho
  | evict => cases ho
  | free => cases ho

theorem sizeDec_ne (n : Nat) : sizeDec n ≠ n := by
  unfold sizeDec
  split <;> omega

/-- A call that brings in a page leaves a wrong count. -/
theorem load_unsafe (h : Ready s) (hs : Step s c s') (hc : BringsIn s c) : ¬ PinSafe s' := by
  have hlen := h.length_lt
  intro hsafe
  cases hs with
  | @fetched w p g b he hl hn =>
    obtain ⟨f, hf, hfetch⟩ := checkedPage_ends.mp he
    cases f with
    | none => cases hf
    | some f =>
      cases hf
      obtain ⟨hlt, hnum, hpins⟩ := h.counted.loaded hlen hc.1 hfetch
      have := (hpins f).symm.trans (hsafe.pins f (hnum.symm ▸ hlt))
      rw [List.map_cons, List.count_cons_self] at this
      omega
  | @refused w p b he =>
    obtain ⟨f, hf, he⟩ := checkedPage_ends.mp he
    cases f with
    | none => exact brought_in hc.2 he rfl
    | some f => cases hf
  | dropped => exact hc
  | wrote => exact hc
  | @flushedPage p ok b he hl =>
    obtain ⟨-, he⟩ | ⟨f, s₁, s₂, -, he, h₁, h₂⟩ := flushPage_ends he
    · exact brought_in hc.2 he rfl
    obtain ⟨hlt, hnum, hpins⟩ := h.counted.loaded hlen hc.1 he
    obtain ⟨_, s₃, h₃, h₄⟩ := Ends.bind_iff.mp h₁
    cases h₃
    obtain ⟨d, -, rfl⟩ := writeFrame_ends.mp h₄
    have hnum' : b.numFrames = s.pool.numFrames := (SameShape.unpin h₂).numFrames.trans hnum
    have hpin := hsafe.pins f (hnum'.symm ▸ hlt)
    rw [unpin_ends h₂] at hpin
    replace hpin := (congrArg FrameHeader.pinCount (withFrame_self _ f .unpinned)).symm.trans hpin
    have hclean : ((s₁.withFrame f .clean).frames f).pinCount = _ :=
      (withFrame_same FrameHeader.pinCount .clean (fun _ => rfl) f).trans (hpins f)
    exact sizeDec_ne _ ((congrArg sizeDec hclean).symm.trans hpin)
  | flushed => exact hc
  | flushedAll => exact hc

/-- The pool of no frames serves no page. -/
theorem Ready.pos (h : Ready s) (hp : PinSafe s) : 0 < s.pool.numFrames := by
  refine Nat.pos_of_ne_zero fun h0 => ?_
  have hg : s.guards = [] := by
    refine List.eq_nil_iff_forall_not_mem.mpr fun g hg => ?_
    have := h.inPool g hg
    omega
  obtain ⟨g, b, he⟩ := hp.serves hg false 0 h.counted.header
  obtain ⟨f, hf, hfetch⟩ := checkedPage_ends.mp he
  cases f with
  | none => cases hf
  | some f =>
    have hlt : f < s.pool.numFrames := by
      cases hl : s.pool.pageTable.lookup 0 with
      | none => exact (h.counted.loaded h.length_lt hl hfetch).1
      | some c =>
        cases hfetch with
        | hit hl' _ => exact h.counted.alive_lt (h.counted.alive 0 f hl')
        | evict hl' => cases hl.symm.trans hl'
        | free hl' => cases hl.symm.trans hl'
    omega

/-- A new pool is ready, and along a run from a ready pool the pins are right
exactly if the pool has a frame and no call brings in a page. -/
theorem pin_counts (hio : d.io = none) (hd : Mapped d 0) :
    (∀ s, (system numFrames d).init s → Ready s) ∧
    ∀ s, Ready s → ∀ tr, (system numFrames d).Path s tr → (Always PinSafe s tr ↔
      0 < s.pool.numFrames ∧ Meets (fun s c => ¬ BringsIn s c) tr) := by
  refine ⟨fun s hs => hs ▸ ready_create hio hd, fun s h tr hr => ⟨fun hp => ⟨h.pos hp.1, ?_⟩,
    fun hp => ?_⟩⟩
  · have hstep : ∀ s c s', Ready s → Step s c s' → PinSafe s' → ¬ BringsIn s c :=
      fun s c s' h hs hp hb => load_unsafe h hs hb hp
    exact hr.meets hstep (fun s c s' h hs hc => (ready_step (c := c) h hs hc).1) h hp.2
  · have hall : Always (fun s => Ready s ∧ 0 < s.pool.numFrames) s tr := by
      refine hr.always (C := fun s c => ¬ BringsIn s c) (fun s c s' h hs hc => ?_) ⟨h, hp.1⟩ hp.2
      obtain ⟨hr, hn⟩ := ready_step (c := c) h.1 hs hc
      exact ⟨hr, hn.symm ▸ h.2⟩
    exact ⟨hall.1.1.pinSafe hall.1.2, fun x hx => (hall.2 x hx).1.pinSafe (hall.2 x hx).2⟩

end

/-! ## One frame -/

/-- Page 1 is in the one frame, without guards. -/
def unpinnedPage : BufferPoolManager where
  numFrames := 1
  frames _ := ⟨0, false, pageAt threePages 1⟩
  pageTable := AList.insert 1 0 ∅
  freeFrames := []
  replacer := { ArcReplacer.create 1 with
    mru := [0]
    mruSize := 1
    aliveMap := Function.update (fun _ => none) 0 (some ⟨1, 0, true, .mru⟩)
    currSize := 1 }
  disk := threePages

theorem unpinnedPage_alive (f : Nat) : unpinnedPage.replacer.aliveMap f =
    if f = 0 then some ⟨1, 0, true, .mru⟩ else none :=
  Function.update_apply (fun _ => (none : Option FrameStatus)) 0 _ f

theorem ready_unpinnedPage : Ready ⟨unpinnedPage, []⟩ := by
  have hlook : ∀ p f, unpinnedPage.pageTable.lookup p = some f → p = 1 ∧ f = 0 := by
    intro p f h
    by_cases e : p = 1
    · subst e
      cases h
      exact ⟨rfl, rfl⟩
    · cases (AList.lookup_insert_ne e).symm.trans h
  have hvalid : unpinnedPage.replacer.Valid := by
    constructor <;> simp +contextual [unpinnedPage, ArcReplacer.create, Function.update_apply]
  refine ⟨⟨⟨hvalid, rfl, rfl, fun f hf => absurd hf List.not_mem_nil, fun p f h => ?_, rfl,
      ⟨by decide, by decide⟩, fun p f h => ?_⟩,
    fun _ => rfl, fun f st h => ?_⟩, Nat.zero_le _, fun g hg => absurd hg List.not_mem_nil⟩
  · rw [unpinnedPage_alive, if_pos (hlook p f h).2]
    simp
  · rw [(hlook p f h).1]
    decide
  · rw [unpinnedPage_alive] at h
    split at h
    · cases h
      simp
    · cases h

/-- The page is read again and the guard dropped. -/
theorem pin_counts_hit : ∃ tr, follow exec ⟨unpinnedPage, []⟩
      [.fetch false 1, .drop ⟨1, 0, false⟩] = some tr ∧ Always PinSafe ⟨unpinnedPage, []⟩ tr := by
  have htr : follow exec ⟨unpinnedPage, []⟩ [.fetch false 1, .drop ⟨1, 0, false⟩] = some _ := rfl
  have hp : (system 1 threePages).Path ⟨unpinnedPage, []⟩ _ :=
    Path.follow (fun _ _ _ h => exec_step h) htr
  refine ⟨_, htr, ((pin_counts (d := threePages) rfl ⟨by decide, by decide⟩).2 _
    ready_unpinnedPage _ hp).mpr ⟨Nat.one_pos, fun x hx => ?_⟩⟩
  simp only [List.mem_cons, List.not_mem_nil, or_false] at hx
  obtain rfl | rfl := hx
  · exact fun h => nomatch h.1
  · exact fun h => h

/-- The first read of a page leaves its frame without a pin, under a guard. -/
theorem load_unpinned : ∃ tr, follow exec ⟨.create 1 threePages, []⟩ [.fetch false 1] = some tr ∧
    (system 1 threePages).Path ⟨.create 1 threePages, []⟩ tr ∧
    ¬ Always PinSafe ⟨.create 1 threePages, []⟩ tr := by
  have htr : follow exec ⟨.create 1 threePages, []⟩ [.fetch false 1] = some _ := rfl
  refine ⟨_, htr, Path.follow (fun _ _ _ h => exec_step h) htr, fun h => ?_⟩
  have := (h.2 _ (.head _)).positive ⟨1, 0, false⟩ (.head _)
  revert this
  decide

end DbInternals.Buffer
