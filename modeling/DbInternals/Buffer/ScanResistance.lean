import DbInternals.Buffer.ArcHistory

/-!
# A scan leaves the hot pages

While pages are loaded that the replacer has not seen before, and pages of `mfu` are accessed again,
the target stays. An eviction takes a frame of `mfu` only if `mru` is shorter than the target, and the
load that follows makes `mru` longer.

Results:
* `scan_step`: what one load or access leaves of `mfu`;
* `scan_resistant`: between any two states of a scan, however long, `mfu` loses no more frames than
  `mru` is short of its target.
-/
namespace DbInternals.Buffer.ArcReplacer

open LTS

inductive ScanCall
  | fill (f p : Nat)
  | replace (f p : Nat)
  | hot (f p : Nat)
  | flag (f : Nat) (b : Bool)

/-- A load of a page that is not a ghost, into a free frame or that of a victim; an access to a page
of `mfu`; or a flag. When `mru` is to give up a frame, it has one that may be evicted. -/
inductive ScanStep (r : ArcReplacer) : ScanCall → ArcReplacer → Prop
  | fill {f p : Nat} {r' : ArcReplacer} (hlt : f < r.replacerSize) (hf : r.aliveMap f = none)
    (hg : r.ghostMap p = none) (h : Ends (recordAccess f p) r () r') : ScanStep r (.fill f p) r'
  | replace {f p q : Nat} {r₁ r' : ArcReplacer}
    (hroom : r.mruTargetSize ≤ r.mruSize → ∃ c ∈ r.mru, r.Evictable c)
    (h₁ : Ends evict r (some (q, f)) r₁) (hg : r₁.ghostMap p = none)
    (h₂ : Ends (recordAccess f p) r₁ () r') : ScanStep r (.replace f p) r'
  | hot {f p : Nat} {r' : ArcReplacer} (hf : f ∈ r.mfu) (h : Ends (recordAccess f p) r () r') :
    ScanStep r (.hot f p) r'
  | flag {f : Nat} {b : Bool} {r' : ArcReplacer} (h : Ends (setEvictable f b) r () r') :
    ScanStep r (.flag f b) r'

/-- Scans, from any state a replacer of capacity `n` gets into. -/
def scan (n : Nat) : LTS ArcReplacer ScanCall where
  init := (calls n).Reachable
  step := ScanStep

/-- The frames of `mfu` hold pages they held before, and those that are gone are paid for by `mru`,
which is so much closer to its target. -/
structure Resists (r r' : ArcReplacer) : Prop where
  target : r'.mruTargetSize = r.mruTargetSize
  mfu : ∀ f ∈ r'.mfu, f ∈ r.mfu ∧ r'.owner f = r.owner f
  lost : r.mfu.length + (r.mruTargetSize - r'.mru.length) ≤
    r'.mfu.length + (r.mruTargetSize - r.mru.length)

section
variable {r r' r₁ : ArcReplacer} {f p q : Nat}

theorem Resists.refl (r : ArcReplacer) : Resists r r := ⟨rfl, fun _ hf => ⟨hf, rfl⟩, Nat.le_refl _⟩

theorem Resists.trans {r'' : ArcReplacer} (h : Resists r r') (h' : Resists r' r'') : Resists r r'' where
  target := h'.target.trans h.target
  mfu f hf := by
    obtain ⟨hf', ho'⟩ := h'.mfu f hf
    obtain ⟨hf, ho⟩ := h.mfu f hf'
    exact ⟨hf, ho'.trans ho⟩
  lost := by
    have h₁ := h.lost
    have h₂ := h'.lost
    rw [h.target] at h₂
    omega

/-- A miss puts the frame in front of `mru`. -/
theorem Counted.missed (h : r.Counted) (hlt : f < r.replacerSize) (hf : r.aliveMap f = none)
    (hg : r.ghostMap p = none) (he : Ends (recordAccess f p) r () r') : r'.Counted ∧
      r'.mru = f :: r.mru ∧ r'.mfu = r.mfu ∧ r'.mruTargetSize = r.mruTargetSize ∧
      ∀ c, c ≠ f → r'.owner c = r.owner c := by
  have hbelow : (Call.recordAccess f p).Below r.replacerSize := hlt
  have hrun : Ends (Call.recordAccess f p).run r none r' := he.bind (.pure _ _)
  have heff := h.effect hbelow hrun
  refine ⟨heff.counted h, ?_⟩
  cases heff with
  | hit hst => cases hf.symm.trans hst
  | revive _ _ hg' => cases hg.symm.trans hg'
  | miss =>
    refine ⟨rfl, rfl, rfl, fun c hc => ?_⟩
    exact congrArg (Option.map FrameStatus.pageId) (Function.update_of_ne hc ..)

/-- The victim is of `mru`, unless that is shorter than its target. -/
theorem Counted.gave_up (h : r.Counted)
    (hroom : r.mruTargetSize ≤ r.mruSize → ∃ c ∈ r.mru, r.Evictable c)
    (he : Ends evict r (some (q, f)) r₁) : r₁.Counted ∧ f < r₁.replacerSize ∧
      r₁.aliveMap f = none ∧ r₁.mruTargetSize = r.mruTargetSize ∧
      (∀ c, c ≠ f → r₁.owner c = r.owner c) ∧
      (r₁.mru.length + 1 = r.mru.length ∧ r₁.mfu = r.mfu ∨
        r₁.mru = r.mru ∧ r.mru.length < r.mruTargetSize ∧ f ∈ r.mfu ∧ r₁.mfu = r.mfu.erase f) := by
  have heff := h.effect (c := .evict) trivial he
  have hcounted := heff.counted h
  obtain ⟨b', rest, ⟨l₁, l₂, hl, -, -⟩, -, hpref, -⟩ := evict_picks he
  have hside : f ∈ r.side b' := by
    rw [← List.mem_reverse, hl]
    simp
  cases heff with
  | @evicted f st b hst hev hb =>
    have hlt := (h.lists.alive f st hst).1
    have howner : ∀ c, c ≠ f → ((r.without f).withGhost { st with frameId := INVALID_FRAME_ID } b).owner c =
        r.owner c := by
      intro c hc
      cases b <;> exact congrArg (Option.map FrameStatus.pageId) (Function.update_of_ne hc ..)
    cases b with
    | true =>
      have hm : f ∈ r.mru := hb
      refine ⟨hcounted, hlt, Function.update_self .., rfl, howner, .inl ⟨?_, ?_⟩⟩
      · exact List.length_erase_add_one hm
      · exact List.erase_of_not_mem (h.lists.disjoint hm)
    | false =>
      have hm : f ∈ r.mfu := hb
      have hnot : f ∉ r.mru := fun hm' => h.lists.disjoint hm' hm
      refine ⟨hcounted, hlt, Function.update_self .., rfl, howner, .inr ⟨?_, ?_, hm, rfl⟩⟩
      · exact List.erase_of_not_mem hnot
      · cases b' with
        | true => exact absurd hside hnot
        | false =>
          by_contra hle
          have hle' : r.mruTargetSize ≤ r.mruSize := by rw [h.mruSize]; omega
          obtain ⟨c, hc, hev⟩ := hroom hle'
          exact hpref (by simp [hle']) c hc hev

/-- A page of `mfu` that is accessed again moves to the front. -/
theorem Counted.hot (h : r.Counted) (hm : f ∈ r.mfu) (he : Ends (recordAccess f p) r () r') :
    r'.Counted ∧ r'.mru = r.mru ∧ r'.mfu = f :: r.mfu.erase f ∧ r'.mruTargetSize = r.mruTargetSize ∧
      r'.owner = r.owner := by
  obtain ⟨st, hst⟩ := Option.ne_none_iff_exists'.mp (h.lists.mem.mpr (.inr hm))
  obtain ⟨hlt, hid⟩ := h.lists.alive f st hst
  have howner := (recordAccess_owner (fun p g hg => (h.ghost p g hg).1) he).2
  have hpage : r.owner f = some st.pageId := congrArg (Option.map FrameStatus.pageId) hst
  rw [hpage, Option.getD_some, ← hpage, Function.update_eq_self] at howner
  have hbelow : (Call.recordAccess f p).Below r.replacerSize := hlt
  have hrun : Ends (Call.recordAccess f p).run r none r' := he.bind (.pure _ _)
  have heff := h.effect hbelow hrun
  refine ⟨heff.counted h, ?_⟩
  cases heff with
  | revive _ hf => cases hf.symm.trans hst
  | miss _ hf => cases hf.symm.trans hst
  | hit hst' =>
    cases hst.symm.trans hst'
    refine ⟨?_, ?_, rfl, howner⟩
    · exact List.erase_of_not_mem fun hm' => h.lists.disjoint hm' hm
    · exact congrArg (· :: r.mfu.erase f) hid

theorem scan_step (h : r.Counted) {l : ScanCall} (hs : ScanStep r l r') :
    r'.Counted ∧ Resists r r' := by
  cases hs with
  | fill hlt hf hg he =>
    obtain ⟨hc, hmru, hmfu, ht, ho⟩ := h.missed hlt hf hg he
    refine ⟨hc, ht, fun c hm => ?_, ?_⟩
    · rw [hmfu] at hm
      refine ⟨hm, ho c fun e => ?_⟩
      exact h.lists.mem.mpr (.inr hm) (e ▸ hf)
    · rw [hmru, hmfu, List.length_cons]
      omega
  | @replace f p q r₁ _ hroom h₁ hg h₂ =>
    obtain ⟨hc₁, hlt, hf, ht₁, ho₁, hside⟩ := h.gave_up hroom h₁
    obtain ⟨hc, hmru, hmfu, ht, ho⟩ := hc₁.missed hlt hf hg h₂
    have hne : ∀ c ∈ r₁.mfu, c ≠ f := fun c hm e => hc₁.lists.mem.mpr (.inr hm) (e ▸ hf)
    refine ⟨hc, ht.trans ht₁, fun c hm => ?_, ?_⟩
    · rw [hmfu] at hm
      refine ⟨?_, (ho c (hne c hm)).trans (ho₁ c (hne c hm))⟩
      obtain ⟨-, hsame⟩ | ⟨-, -, -, herase⟩ := hside
      · exact hsame ▸ hm
      · exact List.mem_of_mem_erase (herase ▸ hm)
    · rw [hmru, hmfu, List.length_cons]
      obtain ⟨hlen, hsame⟩ | ⟨hsame, hshort, hm, herase⟩ := hside
      · rw [hsame]
        omega
      · have hlen := List.length_erase_add_one hm
        rw [hsame, herase]
        omega
  | @hot f p _ hm he =>
    obtain ⟨hc, hmru, hmfu, ht, ho⟩ := h.hot hm he
    have hlen := List.length_erase_add_one hm
    refine ⟨hc, ht, fun c hcm => ⟨?_, congrFun ho c⟩, ?_⟩
    · rw [hmfu] at hcm
      obtain rfl | hcm := List.mem_cons.mp hcm
      · exact hm
      · exact List.mem_of_mem_erase hcm
    · rw [hmru, hmfu, List.length_cons]
      omega
  | @flag f b _ he =>
    obtain ⟨-, rfl⟩ := setEvictable_ends.mp he
    refine ⟨h.flag f b, ?_⟩
    have howner := flag_owner r f b
    obtain ⟨m, k, hflag⟩ := flag_lists r f b
    rw [hflag] at howner ⊢
    exact ⟨rfl, fun c hc => ⟨hc, congrFun howner c⟩, Nat.le_refl _⟩

/-- In a scan of any length, interleaved with accesses to the pages of `mfu`, the target does not move
and between any two states the pages of `mfu` stay, but for as many as `mru` is short of its target. -/
theorem scan_resistant {n : Nat} (h : (scan n).init r) {tr : List (ArcReplacer × ScanCall × ArcReplacer)}
    (hr : (scan n).Path r tr) {i j : ℕ} (hij : i ≤ j) :
    (stateAt r tr j).mruTargetSize = (stateAt r tr i).mruTargetSize ∧
    (∀ f ∈ (stateAt r tr j).mfu, f ∈ (stateAt r tr i).mfu ∧
      (stateAt r tr j).owner f = (stateAt r tr i).owner f) ∧
    (stateAt r tr i).mfu.length ≤ (stateAt r tr j).mfu.length +
      ((stateAt r tr i).mruTargetSize - (stateAt r tr i).mru.length) := by
  obtain ⟨ls, hls⟩ := h
  have hcounted := ((calls_inductive n).exec hls).1
  have hsteps := hr.each (I := Counted) (C := fun _ _ => True) (R := fun r _ r' => Resists r r')
    (fun _ _ _ h hs _ => (scan_step h hs).symm) hcounted fun _ _ => trivial
  have hres := hr.stateAt_trans Resists.refl (fun h h' => h.trans h') hsteps hij
  have hlost := hres.lost
  exact ⟨hres.target, hres.mfu, by omega⟩

/-- Two frames; page 100 was accessed twice and may be evicted. -/
def warm : ArcReplacer :=
  DbInternals.after (do recordAccess 0 100; recordAccess 0 100; setEvictable 0 true) (create 2)

/-- Pages 200 and 300 are loaded one after the other: the second evicts the first. -/
theorem scan_resistant_two : ∃ tr, (scan 2).Path warm tr ∧ (stateAt warm tr 3).owner 1 = some 300 ∧
    warm.mfu.length ≤ (stateAt warm tr 3).mfu.length + (warm.mruTargetSize - warm.mru.length) := by
  have h₀ : (calls 2).Exec [] (create 2) := .nil rfl
  have h₁ : (calls 2).Exec [(.recordAccess 0 100, none)] _ := h₀.snoc ⟨Nat.two_pos, rfl⟩
  have h₂ : (calls 2).Exec [(.recordAccess 0 100, none), (.recordAccess 0 100, none)] _ :=
    h₁.snoc ⟨Nat.two_pos, rfl⟩
  have h₃ : (calls 2).Exec [(.recordAccess 0 100, none), (.recordAccess 0 100, none),
      (.setEvictable 0 true, none)] warm := h₂.snoc ⟨Nat.two_pos, rfl⟩
  have hr : (scan 2).Path warm [(warm, .fill 1 200, _), (_, .flag 1 true, _), (_, .replace 1 300, _)] :=
    .cons (.fill Nat.one_lt_two rfl rfl rfl) (.cons (.flag rfl)
      (.cons (.replace (fun _ => ⟨1, .head _, _, rfl, rfl⟩) rfl rfl rfl) (.nil _)))
  exact ⟨_, hr, rfl, (scan_resistant ⟨_, h₃⟩ hr (Nat.zero_le 3)).2.2⟩

end

end DbInternals.Buffer.ArcReplacer
