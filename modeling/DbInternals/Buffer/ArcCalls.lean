import DbInternals.Buffer.ArcLists
import DbInternals.Core.LTS

/-!
# Calls of a replacer

What each call that returns does to a counted replacer, as one equation per
call; and the runs of calls with frame ids below the capacity.
-/
namespace DbInternals.Buffer.ArcReplacer

/-- Other ghosts, and another target. -/
def withGhosts (r : ArcReplacer) (l₁ l₂ : List Nat) (m : Nat → Option FrameStatus) (t : Nat) :
    ArcReplacer := { r with
  mruGhost := l₁
  mfuGhost := l₂
  mruGhostSize := l₁.length
  mfuGhostSize := l₂.length
  ghostMap := m
  mruTargetSize := t }

/-- The page leaves the ghost list its status names; `l₁` and `l₂` are left. -/
def Loses (r : ArcReplacer) (p : Nat) (g : FrameStatus) (l₁ l₂ : List Nat) : Prop :=
  (g.arcStatus = .mruGhost ∧ p ∈ r.mruGhost ∧ l₁ = r.mruGhost.erase p ∧ l₂ = r.mfuGhost) ∨
  g.arcStatus = .mfuGhost ∧ p ∈ r.mfuGhost ∧ l₁ = r.mruGhost ∧ l₂ = r.mfuGhost.erase p

/-- The four lists together. -/
def total (r : ArcReplacer) : Nat :=
  r.mru.length + r.mruGhost.length + r.mfu.length + r.mfuGhost.length

/-- A full replacer loses its oldest ghost of a list that has one; `l₁` and `l₂` are left. -/
def Trims (r : ArcReplacer) (l₁ l₂ : List Nat) : Prop :=
  r.mru.length + r.mruGhost.length ≤ r.replacerSize ∧
  ((r.mru.length + r.mruGhost.length = r.replacerSize ∧ r.mruGhost ≠ [] ∧
      l₁ = r.mruGhost.dropLast ∧ l₂ = r.mfuGhost) ∨
    (r.mru.length + r.mruGhost.length ≠ r.replacerSize ∧ r.total = 2 * r.replacerSize ∧
      r.mfuGhost ≠ [] ∧ l₁ = r.mruGhost ∧ l₂ = r.mfuGhost.dropLast) ∨
    (r.mru.length + r.mruGhost.length ≠ r.replacerSize ∧ r.total ≠ 2 * r.replacerSize ∧
      l₁ = r.mruGhost ∧ l₂ = r.mfuGhost))

section
variable {r r' : ArcReplacer} {f p : Nat} {st g : FrameStatus}

namespace Counted

theorem withGhosts (h : r.Counted) (l₁ l₂ : List Nat) {m : Nat → Option FrameStatus} (t : Nat)
    (hm : ∀ q g, m q = some g → r.ghostMap q = some g) : (r.withGhosts l₁ l₂ m t).Counted where
  lists := h.lists
  ghost q g hq := h.ghost q g (hm q g hq)
  mruSize := h.mruSize
  mfuSize := h.mfuSize
  mruGhostSize := rfl
  mfuGhostSize := rfl
  currSize := h.currSize

theorem withGhosts_mru (h : r.Counted) (l : List Nat) (t : Nat) :
    { r with mruGhost := l, mruGhostSize := l.length, mruTargetSize := t } =
      r.withGhosts l r.mfuGhost r.ghostMap t := by
  rw [ArcReplacer.withGhosts, ← h.mfuGhostSize]

theorem withGhosts_mfu (h : r.Counted) (l : List Nat) (t : Nat) :
    { r with mfuGhost := l, mfuGhostSize := l.length, mruTargetSize := t } =
      r.withGhosts r.mruGhost l r.ghostMap t := by
  rw [ArcReplacer.withGhosts, ← h.mruGhostSize]

theorem without_eq (h : r.Counted) (hf : r.aliveMap f = none) : r.without f = r := by
  obtain ⟨hn, hn'⟩ := h.lists.notMem hf
  have he : f ∉ evictables r.replacerSize r.aliveMap := by
    rw [mem_evictables]
    simp [hf]
  have hm : Function.update r.aliveMap f none = r.aliveMap := by
    rw [← hf, Function.update_eq_self]
  rw [ArcReplacer.without, List.erase_of_not_mem hn, List.erase_of_not_mem hn',
    Finset.erase_eq_of_notMem he, ← h.mruSize, ← h.mfuSize, ← h.currSize, hm]

theorem mem_evictables_of (h : r.Counted) (hst : r.aliveMap f = some st)
    (he : st.evictable = true) : f ∈ evictables r.replacerSize r.aliveMap :=
  mem_evictables.mpr ⟨(h.lists.alive f st hst).1, st, hst, he⟩

/-- No frame can be evicted exactly if the count is zero. -/
theorem currSize_eq_zero (h : r.Counted) : r.currSize = 0 ↔ ∀ f, ¬ r.Evictable f := by
  rw [h.currSize, Finset.card_eq_zero, Finset.eq_empty_iff_forall_notMem]
  apply forall_congr'
  intro f
  rw [mem_evictables]
  constructor
  · intro hn hv
    obtain ⟨st, hst, he⟩ := hv
    exact hn ⟨(h.lists.alive f st hst).1, st, hst, he⟩
  · intro hn hv
    exact hn hv.2

theorem leaveList_eq (h : r.Counted) (he : Ends (leaveList f st) r () r') : r' = { r with
    mru := r.mru.erase f
    mfu := r.mfu.erase f
    mruSize := (r.mru.erase f).length
    mfuSize := (r.mfu.erase f).length } := by
  obtain ⟨-, hm, rfl⟩ | ⟨-, hm, rfl⟩ := leaveList_ends he
  · have hn := h.lists.disjoint hm
    rw [List.erase_of_not_mem hn, ← sizeDec_length hm, ← h.mruSize, ← h.mfuSize]
  · have hn : f ∉ r.mru := fun hm' => h.lists.disjoint hm' hm
    rw [List.erase_of_not_mem hn, ← sizeDec_length hm, ← h.mruSize, ← h.mfuSize]

theorem remove_eq (h : r.Counted) (he : Ends (remove f) r () r') :
    r' = r.without f ∧ ∀ st, r.aliveMap f = some st → st.evictable = true := by
  rw [remove] at he
  replace he := Ends.rest (Ends.get r) he
  cases hf : r.aliveMap f with
  | none =>
    simp only [hf] at he
    cases he
    exact ⟨(h.without_eq hf).symm, by simp⟩
  | some st =>
    simp only [hf] at he
    obtain ⟨_, r₁, h₁, he⟩ := Ends.bind_iff.mp he
    obtain ⟨hev, e⟩ := ensure_ends h₁
    subst r₁
    obtain ⟨_, r₂, h₂, he⟩ := Ends.bind_iff.mp he
    cases h.leaveList_eq h₂
    cases he
    have hcard := sizeDec_card (h.mem_evictables_of hf hev)
    rw [← h.currSize] at hcard
    refine ⟨?_, fun st' hst' => ?_⟩
    · simp [ArcReplacer.without, hcard]
    · cases hst'
      exact hev

/-- What an eviction that finds a frame leaves: the frame is gone and its page the newest ghost. -/
theorem evicted_eq (h : r.Counted) (hst : r.aliveMap f = some st) (hev : st.evictable = true)
    (he : r.Evicted f st r') : ∃ b, (if b then f ∈ r.mru else f ∈ r.mfu) ∧
      r' = (r.without f).withGhost { st with frameId := INVALID_FRAME_ID } b := by
  have hcard := sizeDec_card (h.mem_evictables_of hst hev)
  rw [← h.currSize] at hcard
  obtain ⟨rest, hv, rfl⟩ | ⟨rest, hv, rfl⟩ := he
  · obtain ⟨hm, hr⟩ := victim_erase hv h.lists.nodup_fst
    have hn := List.erase_of_not_mem (h.lists.disjoint hm)
    refine ⟨true, hm, ?_⟩
    simp [toGhost, ArcReplacer.without, ArcReplacer.withGhost, hr, hn, hcard, h.mruSize, h.mfuSize,
      sizeDec_length hm]
  · obtain ⟨hm, hr⟩ := victim_erase hv h.lists.nodup_snd
    have hn := List.erase_of_not_mem (fun hm' => h.lists.disjoint hm' hm)
    refine ⟨false, hm, ?_⟩
    simp [toGhost, ArcReplacer.without, ArcReplacer.withGhost, hr, hn, hcard, h.mruSize, h.mfuSize,
      sizeDec_length hm]

theorem evict_eq (h : r.Counted) {o : Option (Nat × Nat)} (he : Ends evict r o r') :
    (o = none ∧ r' = r ∧ r.currSize = 0) ∨ ∃ f st b, o = some (st.pageId, f) ∧
      r.aliveMap f = some st ∧ st.evictable = true ∧ (if b then f ∈ r.mru else f ∈ r.mfu) ∧
      r' = (r.without f).withGhost { st with frameId := INVALID_FRAME_ID } b := by
  obtain ⟨rfl, rfl, hn, hn'⟩ | ⟨f, st, rfl, hst, hev, he⟩ := evict_ends he
  · refine .inl ⟨rfl, rfl, h.currSize_eq_zero.mpr fun f hv => ?_⟩
    obtain ⟨st, hst, -⟩ := id hv
    obtain hm | hm := h.lists.mem.mp (by rw [hst]; simp)
    · exact hn f hm hv
    · exact hn' f hm hv
  · obtain ⟨b, hb, he⟩ := h.evicted_eq hst hev he
    exact .inr ⟨f, st, b, rfl, hst, hev, hb, he⟩

theorem leaveGhost_eq (h : r.Counted) (hg : r.ghostMap p = some g)
    (he : Ends (leaveGhost p g) r () r') :
    ∃ l₁ l₂ t, Loses r p g l₁ l₂ ∧ r' = r.withGhosts l₁ l₂ r.ghostMap t := by
  obtain ⟨-, hstatus⟩ := h.ghost p g hg
  obtain ⟨hs, hm, n, -, rfl⟩ | ⟨hs, hm, n, -, rfl⟩ | ⟨hmru, hmfu, -⟩ := leaveGhost_cases he
  · refine ⟨_, _, (r.mruTargetSize + n) % 2 ^ 64, .inl ⟨hs, hm, rfl, rfl⟩, ?_⟩
    rw [← h.withGhosts_mru, ← sizeDec_length hm, ← h.mruGhostSize]
  · refine ⟨_, _, if r.mruTargetSize ≥ n then r.mruTargetSize - n else r.mruTargetSize,
      .inr ⟨hs, hm, rfl, rfl⟩, ?_⟩
    rw [← h.withGhosts_mfu, ← sizeDec_length hm, ← h.mfuGhostSize]
  · exact (hstatus.elim hmru hmfu).elim

theorem sizeDec_dropLast {l : List Nat} (h : l ≠ []) : sizeDec l.length = l.dropLast.length := by
  have := List.length_pos_iff.mpr h
  rw [List.length_dropLast, sizeDec, if_neg (by omega)]

theorem trimGhosts_eq (h : r.Counted) (he : Ends trimGhosts r () r') :
    ∃ l₁ l₂, Trims r l₁ l₂ ∧ r' = r.withGhosts l₁ l₂ r.ghostMap r.mruTargetSize := by
  rw [trimGhosts] at he
  replace he := Ends.rest (Ends.get r) he
  obtain ⟨_, r₁, h₁, h₂⟩ := Ends.bind_iff.mp he
  obtain ⟨hfit, e⟩ := ensure_ends h₁
  subst r₁
  replace hfit := of_decide_eq_true hfit
  rw [Nat.add_comm] at hfit
  simp only [Trims, total, ← h.mruSize, ← h.mruGhostSize, ← h.mfuSize, ← h.mfuGhostSize]
  obtain ⟨hc, h₃⟩ | ⟨hc, h₃⟩ := Ends.ite h₂
  · obtain ⟨-, h₄⟩ | ⟨hne, h₄⟩ := Ends.ite h₃
    · cases h₄
    cases h₄
    refine ⟨_, _, ⟨hfit, .inl ⟨hc, hne, rfl, rfl⟩⟩, ?_⟩
    rw [← h.withGhosts_mru, ← sizeDec_dropLast hne, ← h.mruGhostSize]
  obtain ⟨hd, h₄⟩ | ⟨hd, h₄⟩ := Ends.ite h₃
  · obtain ⟨-, h₅⟩ | ⟨hne, h₅⟩ := Ends.ite h₄
    · cases h₅
    cases h₅
    refine ⟨_, _, ⟨hfit, .inr (.inl ⟨hc, hd, hne, rfl, rfl⟩)⟩, ?_⟩
    rw [← h.withGhosts_mfu, ← sizeDec_dropLast hne, ← h.mfuGhostSize]
  · cases h₄
    refine ⟨_, _, ⟨hfit, .inr (.inr ⟨hc, hd, rfl, rfl⟩)⟩, ?_⟩
    rw [← h.withGhosts_mru, ← h.mruGhostSize]

/-- An access to an alive frame moves it to the front of `mfu`. -/
theorem recordAlive_eq (h : r.Counted) (hst : r.aliveMap f = some st)
    (he : Ends (recordAccess f p) r () r') :
    r' = (r.without f).withMfu { st with arcStatus := .mfu } := by
  rw [recordAccess] at he
  replace he := Ends.rest (Ends.get r) he
  simp only [hst] at he
  obtain ⟨_, r₁, h₁, he⟩ := Ends.bind_iff.mp he
  cases h.leaveList_eq h₁
  cases he
  obtain ⟨hlt, hid⟩ := h.lists.alive f st hst
  have hcard : r.currSize =
      ((evictables r.replacerSize r.aliveMap).erase f).card + st.evictable.toNat := by
    rw [h.currSize]
    cases hev : st.evictable with
    | true => exact (Finset.card_erase_add_one (h.mem_evictables_of hst hev)).symm
    | false =>
      have hn : f ∉ evictables r.replacerSize r.aliveMap := by
        rw [mem_evictables]
        simp [hst, hev]
      simp [Finset.erase_eq_of_notMem hn]
  simp [ArcReplacer.withMfu, ArcReplacer.without, hid, hcard]

/-- An access that brings a ghost back. -/
theorem recordGhost_eq (h : r.Counted) (hf : r.aliveMap f = none) (hg : r.ghostMap p = some g)
    (he : Ends (recordAccess f p) r () r') : ∃ l₁ l₂ t, Loses r p g l₁ l₂ ∧
    r' = (r.withGhosts l₁ l₂ (Function.update r.ghostMap p none) t).withMfu
      ⟨p, f, false, .mfu⟩ := by
  rw [recordAccess] at he
  replace he := Ends.rest (Ends.get r) he
  simp only [hf, hg] at he
  obtain ⟨_, r₁, h₁, he⟩ := Ends.bind_iff.mp he
  obtain ⟨hp, -⟩ := h.ghost p g hg
  obtain ⟨l₁, l₂, t, hl, rfl⟩ := h.leaveGhost_eq hg h₁
  cases he
  refine ⟨l₁, l₂, t, hl, ?_⟩
  simp [ArcReplacer.withGhosts, ArcReplacer.withMfu, hp]

/-- An access to a page that is in no list. -/
theorem recordNew_eq (h : r.Counted) (hf : r.aliveMap f = none) (hg : r.ghostMap p = none)
    (he : Ends (recordAccess f p) r () r') : ∃ l₁ l₂, Trims r l₁ l₂ ∧
    r' = (r.withGhosts l₁ l₂ r.ghostMap r.mruTargetSize).withMru ⟨p, f, false, .mru⟩ := by
  rw [recordAccess] at he
  replace he := Ends.rest (Ends.get r) he
  simp only [hf, hg] at he
  obtain ⟨_, r₁, h₁, he⟩ := Ends.bind_iff.mp he
  obtain ⟨l₁, l₂, hl, rfl⟩ := h.trimGhosts_eq h₁
  cases he
  exact ⟨l₁, l₂, hl, rfl⟩

end Counted

end

/-! ## Runs -/

inductive Call
  | recordAccess (frameId pageId : Nat)
  | setEvictable (frameId : Nat) (evictable : Bool)
  | remove (frameId : Nat)
  | evict
  deriving DecidableEq, Repr

/-- The call, and the page and frame that it hands out. -/
def Call.run : Call → ArcM (Option (Nat × Nat))
  | .recordAccess f p => do ArcReplacer.recordAccess f p; return none
  | .setEvictable f b => do ArcReplacer.setEvictable f b; return none
  | .remove f => do ArcReplacer.remove f; return none
  | .evict => ArcReplacer.evict

/-- The frame id is below the capacity. -/
def Call.Below (n : Nat) : Call → Prop
  | .recordAccess f _ => f < n
  | .setEvictable f _ => f < n
  | .remove f => f < n
  | .evict => True

/-- What a call that returns does. -/
inductive Effect (r : ArcReplacer) : Call → Option (Nat × Nat) → ArcReplacer → Prop
  | hit {f p : Nat} {st : FrameStatus} (hst : r.aliveMap f = some st) :
    Effect r (.recordAccess f p) none ((r.without f).withMfu { st with arcStatus := .mfu })
  | revive {f p t : Nat} {g : FrameStatus} {l₁ l₂ : List Nat} (hlt : f < r.replacerSize)
    (hf : r.aliveMap f = none) (hg : r.ghostMap p = some g) (hl : Loses r p g l₁ l₂) :
    Effect r (.recordAccess f p) none
      ((r.withGhosts l₁ l₂ (Function.update r.ghostMap p none) t).withMfu ⟨p, f, false, .mfu⟩)
  | miss {f p : Nat} {l₁ l₂ : List Nat} (hlt : f < r.replacerSize) (hf : r.aliveMap f = none)
    (hg : r.ghostMap p = none) (hl : Trims r l₁ l₂) :
    Effect r (.recordAccess f p) none
      ((r.withGhosts l₁ l₂ r.ghostMap r.mruTargetSize).withMru ⟨p, f, false, .mru⟩)
  | flag {f : Nat} {b : Bool} : Effect r (.setEvictable f b) none (r.flag f b)
  | remove {f : Nat} (hev : ∀ st, r.aliveMap f = some st → st.evictable = true) :
    Effect r (.remove f) none (r.without f)
  | kept (h : r.currSize = 0) : Effect r .evict none r
  | evicted {f : Nat} {st : FrameStatus} {b : Bool} (hst : r.aliveMap f = some st)
    (hev : st.evictable = true) (hb : if b then f ∈ r.mru else f ∈ r.mfu) : Effect r .evict (some (st.pageId, f))
      ((r.without f).withGhost { st with frameId := INVALID_FRAME_ID } b)

/-- Runs of calls that return, with frame ids below the capacity. -/
def calls (c : Nat) : LTS ArcReplacer (Call × Option (Nat × Nat)) where
  init r := r = create c
  step r l r' := l.1.Below c ∧ Ends l.1.run r l.2 r'

section
variable {r r' : ArcReplacer} {c : Call} {o : Option (Nat × Nat)}

theorem Counted.effect (h : r.Counted) (hc : c.Below r.replacerSize) (he : Ends c.run r o r') :
    Effect r c o r' := by
  cases c with
  | recordAccess f p =>
    obtain ⟨_, r₁, h₁, he⟩ := Ends.bind_iff.mp he
    cases he
    cases hf : r.aliveMap f with
    | some st =>
      rw [h.recordAlive_eq hf h₁]
      exact .hit hf
    | none =>
      cases hg : r.ghostMap p with
      | some g =>
        obtain ⟨l₁, l₂, t, hl, rfl⟩ := h.recordGhost_eq hf hg h₁
        exact .revive hc hf hg hl
      | none =>
        obtain ⟨l₁, l₂, hl, rfl⟩ := h.recordNew_eq hf hg h₁
        exact .miss hc hf hg hl
  | setEvictable f b =>
    obtain ⟨_, r₁, h₁, he⟩ := Ends.bind_iff.mp he
    cases he
    rw [(setEvictable_ends.mp h₁).2]
    exact .flag
  | remove f =>
    obtain ⟨_, r₁, h₁, he⟩ := Ends.bind_iff.mp he
    cases he
    obtain ⟨rfl, hev⟩ := h.remove_eq h₁
    exact .remove hev
  | evict =>
    obtain ⟨rfl, rfl, h0⟩ | ⟨f, st, b, rfl, hst, hev, hb, rfl⟩ := h.evict_eq he
    · exact .kept h0
    · exact .evicted hst hev hb

/-- A map without a key has the entries of before. -/
theorem update_none_sub {m : Nat → Option FrameStatus} (k q : Nat) (st : FrameStatus)
    (h : Function.update m k none q = some st) : m q = some st := by
  by_cases e : q = k
  · subst e
    simp at h
  · rwa [Function.update_of_ne e] at h

theorem Effect.replacerSize (h : Effect r c o r') : r'.replacerSize = r.replacerSize := by
  cases h with
  | flag => rw [flag_replacerSize]
  | @evicted f st b => cases b <;> rfl
  | _ => rfl

theorem Effect.counted (h : r.Counted) (he : Effect r c o r') : r'.Counted := by
  cases he with
  | @hit f p st hst =>
    obtain ⟨hlt, hid⟩ := h.lists.alive f st hst
    refine (h.without f).withMfu ?_ ?_ rfl
    · simp [ArcReplacer.without, hid]
    · simpa [ArcReplacer.without, hid] using hlt
  | @revive f p t g l₁ l₂ hlt hf hg hl =>
    exact (h.withGhosts l₁ l₂ t (update_none_sub p)).withMfu hf hlt rfl
  | @miss f p l₁ l₂ hlt hf hg hl =>
    exact (h.withGhosts l₁ l₂ _ fun _ _ hq => hq).withMru hf hlt rfl
  | @flag f b => exact h.flag f b
  | @remove f hev => exact h.without f
  | kept => exact h
  | @evicted f st b => exact (h.without f).withGhost _ b

/-- The invariant of every run. -/
theorem calls_inductive (n : Nat) :
    (calls n).Inductive fun r => r.Counted ∧ r.replacerSize = n where
  init r h := by
    rw [h]
    exact ⟨counted_create n, rfl⟩
  step r l r' h hs := by
    obtain ⟨h, rfl⟩ := h
    have he := h.effect hs.1 hs.2
    exact ⟨he.counted h, he.replacerSize⟩

end

end DbInternals.Buffer.ArcReplacer
