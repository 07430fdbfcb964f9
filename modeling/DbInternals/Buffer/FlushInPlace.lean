import DbInternals.Buffer.PinCounts

/-!
# What `FlushPage` changes

`FlushPage` fetches the page for writing. A page that is not resident is brought in, where the
source says that the call returns `false`; and the guard that is dropped in the end makes the frame
evictable whenever nothing else pins it, also one that was kept without a pin, as a load leaves it.

Results:
* `refused_fetch`: what a fetch that finds no frame to take leaves behind;
* `resident_flush`: the frames, flags and the disk after a flush of a resident page;
* `flushPage_in_place_iff`: when the flush leaves residency, pins and flags alone;
* `flushPage_returns`: a flush of a resident page returns.
-/
namespace DbInternals.Buffer

open Storage ArcReplacer

/-- A page that is not resident is refused and nothing changes; a resident one is written to disk
and clean, with the tables, pins and flags as before. -/
def InPlace (s : BufferPoolManager) (p : Nat) (ok : Bool) (s' : BufferPoolManager) : Prop :=
  match s.pageTable.lookup p with
  | none => ok = false ∧ s'.pageTable = s.pageTable ∧ s'.freeFrames = s.freeFrames ∧
      s'.replacer = s.replacer ∧ s'.frames = s.frames
  | some f => ok = true ∧ pageAt s'.disk p = pageOf (s'.frames f).data ∧
      (s'.frames f).isDirty = false ∧ s'.pageTable = s.pageTable ∧ s'.freeFrames = s.freeFrames ∧
      (∀ c, (s'.frames c).pinCount = (s.frames c).pinCount) ∧
      ∀ c, s'.replacer.Evictable c ↔ s.replacer.Evictable c

/-- The page is resident in a frame that is pinned or may be evicted; or it is not, and no frame can
be had for it. -/
def Settled (s : BufferPoolManager) (p : Nat) : Prop :=
  match s.pageTable.lookup p with
  | none => s.numFrames = s.pageTable.entries.length ∧
      (∀ c ∈ s.replacer.mru, ¬ s.replacer.Evictable c) ∧ ∀ c ∈ s.replacer.mfu, ¬ s.replacer.Evictable c
  | some f => (s.frames f).pinCount = 0 → s.replacer.Evictable f

section
variable {s s' : BufferPoolManager} {f p : Nat} {ok : Bool}

/-- An eviction that hands out a frame found one in a list. -/
theorem evict_finds {r r' : ArcReplacer} {q : Nat} (h : Ends evict r (some (q, f)) r') :
    ¬ ((∀ c ∈ r.mru, ¬ r.Evictable c) ∧ ∀ c ∈ r.mfu, ¬ r.Evictable c) := by
  rintro ⟨hn, hn'⟩
  obtain ⟨h0, -⟩ | ⟨f', st, -, -, -, ⟨rest, hv, -⟩ | ⟨rest, hv, -⟩⟩ := evict_ends h
  · cases h0
  · obtain ⟨l₁, l₂, hl, -, hev, -⟩ := hv
    refine hn f' ?_ hev
    rw [← List.mem_reverse, hl]
    simp
  · obtain ⟨l₁, l₂, hl, -, hev, -⟩ := hv
    refine hn' f' ?_ hev
    rw [← List.mem_reverse, hl]
    simp

/-- A fetch that is refused changes nothing, and finds no frame. -/
theorem refused_fetch (h : Fetched s p none s') : s.pageTable.lookup p = none ∧
    s.numFrames = s.pageTable.entries.length ∧ s' = s ∧
    (∀ c ∈ s.replacer.mru, ¬ s.replacer.Evictable c) ∧
      ∀ c ∈ s.replacer.mfu, ¬ s.replacer.Evictable c := by
  cases h with
  | full hp hn he =>
    obtain ⟨-, he, rfl⟩ | ⟨_, _, _, _, h0, -⟩ := evictFrame_ends he
    · obtain ⟨-, -, hn', hn''⟩ | ⟨_, _, h0, -⟩ := evict_ends he
      · exact ⟨hp, hn, rfl, hn', hn''⟩
      · cases h0
    · cases h0

/-- A fetch of a page that is not resident takes a frame only if it finds one. -/
theorem brought_unsettled (hp : s.pageTable.lookup p = none) (h : Fetched s p (some f) s') :
    ¬ Settled s p := by
  rw [Settled, hp]
  rintro ⟨hn, hnone⟩
  cases h with
  | hit hp' => cases hp.symm.trans hp'
  | evict _ _ h₁ _ =>
    obtain ⟨h0, -⟩ | ⟨f, q, r, _, -, hr, -⟩ := evictFrame_ends h₁
    · cases h0
    · exact evict_finds hr hnone
  | free _ hn' => exact hn' hn

/-! ## A resident page -/

/-- An access makes no frame evictable that was not, nor the other way round. -/
theorem recordAccess_evictable {r r' : ArcReplacer} (h : Ends (recordAccess f p) r () r') :
    r'.aliveMap f ≠ none ∧ ∀ c, r'.Evictable c ↔ r.Evictable c := by
  have hsome : ∀ st, r'.aliveMap = Function.update r.aliveMap f (some st) →
      (st.evictable = true ↔ r.Evictable f) →
      r'.aliveMap f ≠ none ∧ ∀ c, r'.Evictable c ↔ r.Evictable c := by
    intro st ha hev
    refine ⟨by rw [ha, Function.update_self]; simp, fun c => ?_⟩
    by_cases e : c = f
    · subst e
      rw [← hev, Evictable, ha, Function.update_self]
      simp
    · rw [Evictable, ha, Function.update_of_ne e]
      rfl
  obtain ⟨-, ⟨st, st', hf, -, hev, ha, -⟩ | ⟨st', hf, hev, ha, -⟩⟩ := recordAccess_maps h
  · apply hsome st' ha
    rw [hev, Evictable, hf]
    simp
  · apply hsome st' ha
    rw [hev, Evictable, hf]
    simp

/-- A pin taken and given back. -/
theorem pinned_unpinned {h : FrameHeader} (hpin : h.pinCount < 2 ^ 64) :
    sizeDec h.clean.pinned.pinCount = h.pinCount := by
  change sizeDec ((h.pinCount + 1) % 2 ^ 64) = h.pinCount
  obtain hmax | hlt : h.pinCount + 1 = 2 ^ 64 ∨ h.pinCount + 1 < 2 ^ 64 := by omega
  · rw [hmax, Nat.mod_self, sizeDec, if_pos rfl]
    omega
  · rw [Nat.mod_eq_of_lt hlt, sizeDec_succ]

/-- The last pin makes the frame evictable; any other leaves the flags alone. -/
theorem resident_flush {s₁ s₂ : BufferPoolManager} (hpin : (s.frames f).pinCount < 2 ^ 64)
    (h₁ : Ends (recordHit f p) s () s₁) (h₂ : Ends (Guard.flush ⟨p, f, true⟩) s₁ () s₂)
    (h₃ : Ends (unpin f) s₂ () s') :
    pageAt s'.disk p = pageOf (s'.frames f).data ∧ (s'.frames f).isDirty = false ∧
      s'.pageTable = s.pageTable ∧ s'.freeFrames = s.freeFrames ∧
      (∀ c, (s'.frames c).pinCount = (s.frames c).pinCount) ∧
      ∀ c, s'.replacer.Evictable c ↔
        c = f ∧ (s.frames f).pinCount = 0 ∨ s.replacer.Evictable c := by
  obtain ⟨_, s₀, h₀, h₁⟩ := Ends.bind_iff.mp h₁
  obtain ⟨r, hr, rfl⟩ := onReplacer_ends.mp h₀
  have hpinned := pinHit_ends h₁
  obtain ⟨_, s₃, hclean, h₂⟩ := Ends.bind_iff.mp h₂
  cases hclean
  obtain ⟨d, hd, hwritten⟩ := writeFrame_ends.mp h₂
  obtain ⟨m, rfl⟩ := writePage_stores hd
  have hdropped := unpin_ends h₃
  obtain ⟨halive, hevict⟩ := recordAccess_evictable hr
  have hframe : s₂.frames f = (s.frames f).clean.pinned := by
    rw [hwritten, hpinned]
    simp [withFrame_frames, FrameHeader.clean, FrameHeader.pinned]
  have hother : ∀ c, c ≠ f → s₂.frames c = s.frames c := by
    intro c hc
    rw [hwritten, hpinned]
    simp [withFrame_frames, hc]
  have hself : s'.frames f = (s.frames f).clean.pinned.unpinned := by
    rw [hdropped, ← hframe]
    exact withFrame_self s₂ f .unpinned
  have hback := pinned_unpinned hpin
  refine ⟨?_, ?_, ?_, ?_, fun c => ?_, fun c => ?_⟩
  · rw [hself, hdropped]
    change pageAt s₂.disk p = pageOf (s.frames f).data
    rw [hwritten]
    apply (pageAt_store rfl).trans
    rw [hpinned]
    simp [withFrame_frames, FrameHeader.clean, FrameHeader.pinned]
  · rw [hself]
    rfl
  · rw [hdropped, hwritten, hpinned]
    rfl
  · rw [hdropped, hwritten, hpinned]
    rfl
  · by_cases e : c = f
    · rw [e, hself]
      exact hback
    · have hc : s'.frames c = s₂.frames c := by
        rw [hdropped]
        exact withFrame_of_ne s₂ e .unpinned
      rw [hc, hother c e]
  · have hr₂ : s₂.replacer = if (s.frames f).pinCount = 0 then r.flag f false else r := by
      rw [hwritten, hpinned]
      rfl
    have hr' : s'.replacer = if (s.frames f).pinCount = 0 then s₂.replacer.flag f true
        else s₂.replacer := by
      rw [hdropped, hframe, hback]
    rw [hr', hr₂]
    by_cases h0 : (s.frames f).pinCount = 0
    · rw [if_pos h0, if_pos h0, evictable_flag]
      by_cases e : c = f
      · have : (r.flag f false).aliveMap f ≠ none := flag_alive r f false f halive
        simp [e, h0, this]
      · rw [if_neg e, evictable_flag, if_neg e, hevict]
        simp [e]
    · rw [if_neg h0, if_neg h0, hevict]
      simp [h0]

/-- A resident page whose frame is alive is flushed, if the write succeeds. -/
theorem flushPage_returns
    (hl : AliveLists s.replacer.replacerSize s.replacer.aliveMap s.replacer.mru s.replacer.mfu)
    (hp : s.pageTable.lookup p = some f) (halive : s.replacer.aliveMap f ≠ none)
    (hlt : p < s.disk.globalMetadata.nextPageId) (hio : s.disk.io ≠ some 0) :
    ∃ s', Ends (flushPage p) s true s' := by
  obtain ⟨st, hst⟩ := Option.ne_none_iff_exists'.mp halive
  have hf := (hl.alive f st hst).1
  have haccess : Returns (recordAccess f p) s.replacer := by
    refine .bind (Ends.get _) ?_
    obtain ⟨_, r₁, h₁⟩ := hl.leaveList_returns hst
    simp only [hst]
    exact .bind h₁ (.modify _ _)
  obtain ⟨_, r, hr⟩ := haccess
  have hsize := (recordAccess_maps hr).1
  have hpin : Returns (pinHit f) { s with replacer := r } := pinHit_returns (hsize.symm ▸ hf)
  obtain ⟨_, s₁, h₁⟩ := hpin
  have hhit : Ends (recordHit f p) s () s₁ := (onReplacer_ends.mpr ⟨r, hr, rfl⟩).bind h₁
  have hs₁ := pinHit_ends h₁
  have hdisk : s₁.disk = s.disk := by rw [hs₁]; rfl
  have hsize₁ : s₁.replacer.replacerSize = s.replacer.replacerSize := by
    rw [hs₁, ← hsize]
    change (if _ then _ else _ : ArcReplacer).replacerSize = _
    split
    · exact flag_replacerSize ..
    · rfl
  have hwrite : ∃ s₂, Ends (Guard.flush ⟨p, f, true⟩) s₁ () s₂ ∧ s₂.replacer = s₁.replacer := by
    obtain ⟨m, hm⟩ := writePage_left (hdisk ▸ hio) (hdisk ▸ hlt)
    exact ⟨_, (Ends.modify _ s₁).bind (writeFrame_ends.mpr ⟨_, hm, rfl⟩), rfl⟩
  obtain ⟨s₂, h₂, hr₂⟩ := hwrite
  obtain ⟨_, s', h₃⟩ := unpin_returns (f := f) (s := s₂) (by rw [hr₂, hsize₁]; exact hf)
  have hfetch : Ends (checkedWritePage p) s (some ⟨p, f, true⟩) s₁ :=
    checkedPage_ends.mpr ⟨some f, rfl, .hit hp hhit⟩
  exact ⟨s', hfetch.bind ((Ends.finally_iff.mpr ⟨s₂, _, h₂, h₃⟩).bind (.pure _ _))⟩

/-- `FlushPage` leaves residency, pins and flags alone exactly if the page is resident in a frame
that is pinned or may be evicted, or is refused because no frame can be had. -/
theorem flushPage_in_place_iff (hpin : ∀ f, (s.frames f).pinCount < 2 ^ 64)
    (h : Ends (flushPage p) s ok s') : InPlace s p ok s' ↔ Settled s p := by
  obtain ⟨rfl, hf⟩ | ⟨f, s₁, s₂, rfl, hf, h₁, h₂⟩ := flushPage_ends h
  · obtain ⟨hp, hn, rfl, hnone⟩ := refused_fetch hf
    rw [InPlace, Settled, hp]
    exact iff_of_true ⟨rfl, rfl, rfl, rfl, rfl⟩ ⟨hn, hnone⟩
  cases hp : s.pageTable.lookup p with
  | none =>
    refine iff_of_false (fun hin => ?_) (brought_unsettled hp hf)
    rw [InPlace, hp] at hin
    cases hin.1
  | some c =>
    cases hf with
    | @hit f _ hp' hhit =>
      cases hp.symm.trans hp'
      obtain ⟨hpage, hclean, htable, hfree, hpins, hevict⟩ := resident_flush (hpin f) hhit h₁ h₂
      rw [InPlace, Settled, hp]
      constructor
      · rintro ⟨-, -, -, -, -, -, hsame⟩ h0
        rw [← hsame, hevict]
        exact .inl ⟨rfl, h0⟩
      · intro hsettled
        refine ⟨rfl, hpage, hclean, htable, hfree, hpins, fun c => ?_⟩
        rw [hevict]
        apply or_iff_right_of_imp
        intro hc
        obtain ⟨rfl, h0⟩ := hc
        exact hsettled h0
    | evict hp' => cases hp.symm.trans hp'
    | free hp' => cases hp.symm.trans hp'

/-- A flush of a page that is not resident brings it in. -/
theorem flushPage_not_in_place : ¬ ∀ (s : BufferPoolManager) (p : Nat) (ok : Bool)
    (s' : BufferPoolManager), (∀ f, (s.frames f).pinCount < 2 ^ 64) →
      Ends (flushPage p) s ok s' → InPlace s p ok s' := by
  intro h
  have hin := h (.create 1 threePages) 1 true _ (fun _ => (by decide : 0 < 2 ^ 64)) rfl
  cases hin.1

/-- Page 1 is resident, and its frame may be evicted. -/
theorem flushPage_in_place_iff_unpinned :
    ∃ s', Ends (flushPage 1) unpinnedPage true s' ∧ InPlace unpinnedPage 1 true s' := by
  have hends : Ends (flushPage 1) unpinnedPage true _ := rfl
  refine ⟨_, hends, (flushPage_in_place_iff (fun _ => (by decide : 0 < 2 ^ 64)) hends).mpr ?_⟩
  exact fun _ => ⟨_, rfl, rfl⟩

end

end DbInternals.Buffer
