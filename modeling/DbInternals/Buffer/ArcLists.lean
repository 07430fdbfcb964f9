import DbInternals.Buffer.ArcReplacer
import Mathlib.Data.Finset.Card
import Mathlib.Data.List.Nodup

/-!
# The alive side of a replacer

`Filed` says that two lists are the keys of a map by status, `AliveLists` that
the alive lists are so for the alive frames, and `Counted` that in addition
every counter counts. A ghost may be missing from the ghost lists here.

Results:
* `Filed.leave`, `Filed.enter`: a key leaves the lists or enters one of them;
* `Counted.without`, `Counted.withMru`, `Counted.withMfu`, `Counted.withGhost`,
  `Counted.flag`: what the calls are made of keeps the counters right;
* `AliveLists.evict_returns`, `trimGhosts_returns`: these calls return.
-/
namespace DbInternals.Buffer.ArcReplacer

/-- Two lists are the keys of a map by status, each listed once. -/
structure Filed (s₁ s₂ : ArcStatus) (m : Nat → Option FrameStatus) (l₁ l₂ : List Nat) : Prop where
  mem_fst : ∀ k, k ∈ l₁ ↔ ∃ st, m k = some st ∧ st.arcStatus = s₁
  mem_snd : ∀ k, k ∈ l₂ ↔ ∃ st, m k = some st ∧ st.arcStatus = s₂
  nodup_fst : l₁.Nodup
  nodup_snd : l₂.Nodup
  status : ∀ k st, m k = some st → st.arcStatus = s₁ ∨ st.arcStatus = s₂

/-- The alive lists are the alive frames by status, each frame below `n`. -/
structure AliveLists (n : Nat) (m : Nat → Option FrameStatus) (mru mfu : List Nat) : Prop
    extends Filed .mru .mfu m mru mfu where
  alive : ∀ f st, m f = some st → f < n ∧ st.frameId = f

/-- The frames that are alive and may be evicted. -/
def evictables (n : Nat) (m : Nat → Option FrameStatus) : Finset Nat :=
  (Finset.range n).filter fun f => (m f).any FrameStatus.evictable

section
variable {n f : Nat} {m : Nat → Option FrameStatus} {mru mfu : List Nat} {st : FrameStatus}

theorem mem_evictables :
    f ∈ evictables n m ↔ f < n ∧ ∃ st, m f = some st ∧ st.evictable = true := by
  simp [evictables, Option.any_eq_true]

theorem evictables_none : evictables n (Function.update m f none) = (evictables n m).erase f := by
  ext c
  rw [Finset.mem_erase, mem_evictables, mem_evictables]
  by_cases e : c = f
  · subst e
    simp
  · simp [e]

theorem evictables_some (hf : f < n) : evictables n (Function.update m f (some st)) =
    if st.evictable then insert f (evictables n m) else (evictables n m).erase f := by
  ext c
  rw [mem_evictables]
  by_cases e : c = f
  · subst e
    cases he : st.evictable <;> simp [he, hf]
  · cases he : st.evictable <;> simp [e, mem_evictables]

theorem statuses_none (s : ArcStatus) (c : Nat) :
    (∃ st', Function.update m f none c = some st' ∧ st'.arcStatus = s) ↔
      c ≠ f ∧ ∃ st', m c = some st' ∧ st'.arcStatus = s := by
  by_cases e : c = f
  · subst e
    simp
  · simp [e]

theorem statuses_some (s : ArcStatus) (c : Nat) :
    (∃ st', Function.update m f (some st) c = some st' ∧ st'.arcStatus = s) ↔
      (c = f ∧ s = st.arcStatus) ∨ (c ≠ f ∧ ∃ st', m c = some st' ∧ st'.arcStatus = s) := by
  by_cases e : c = f
  · subst e
    simp [eq_comm]
  · simp [e]

namespace Filed

variable {s₁ s₂ : ArcStatus} {l₁ l₂ : List Nat} {k : Nat}

theorem nil (s₁ s₂ : ArcStatus) : Filed s₁ s₂ (fun _ => none) [] [] := by
  constructor <;> simp

theorem symm (h : Filed s₁ s₂ m l₁ l₂) : Filed s₂ s₁ m l₂ l₁ :=
  ⟨h.mem_snd, h.mem_fst, h.nodup_snd, h.nodup_fst, fun k st hk => (h.status k st hk).symm⟩

/-- No key is in both lists. -/
theorem disjoint (h : Filed s₁ s₂ m l₁ l₂) (hne : s₁ ≠ s₂) (hk : k ∈ l₁) : k ∉ l₂ := by
  intro hk'
  obtain ⟨st, hst, hs⟩ := (h.mem_fst k).mp hk
  obtain ⟨st', hst', hs'⟩ := (h.mem_snd k).mp hk'
  cases hst.symm.trans hst'
  exact hne (hs.symm.trans hs')

theorem mem (h : Filed s₁ s₂ m l₁ l₂) : m k ≠ none ↔ k ∈ l₁ ∨ k ∈ l₂ := by
  rw [h.mem_fst, h.mem_snd]
  cases hk : m k with
  | none => simp
  | some st =>
    obtain hs | hs := h.status k st hk
    · simp [hs]
    · simp [hs]

theorem notMem (h : Filed s₁ s₂ m l₁ l₂) (hk : m k = none) : k ∉ l₁ ∧ k ∉ l₂ := by
  apply not_or.mp
  intro hm
  exact h.mem.mpr hm hk

theorem leave (h : Filed s₁ s₂ m l₁ l₂) (k : Nat) :
    Filed s₁ s₂ (Function.update m k none) (l₁.erase k) (l₂.erase k) where
  mem_fst c := by rw [statuses_none, h.nodup_fst.mem_erase_iff, h.mem_fst]
  mem_snd c := by rw [statuses_none, h.nodup_snd.mem_erase_iff, h.mem_snd]
  nodup_fst := h.nodup_fst.erase k
  nodup_snd := h.nodup_snd.erase k
  status c st hc := by
    by_cases e : c = k
    · subst e
      simp at hc
    · rw [Function.update_of_ne e] at hc
      exact h.status c st hc

theorem status_some (h : Filed s₁ s₂ m l₁ l₂) (hs : st.arcStatus = s₁ ∨ st.arcStatus = s₂)
    {c : Nat} {st' : FrameStatus} (hc : Function.update m k (some st) c = some st') :
    st'.arcStatus = s₁ ∨ st'.arcStatus = s₂ := by
  by_cases e : c = k
  · subst e
    rw [Function.update_self] at hc
    cases hc
    exact hs
  · rw [Function.update_of_ne e] at hc
    exact h.status c st' hc

/-- A key enters the list its status names. -/
theorem enter (h : Filed s₁ s₂ m l₁ l₂) (hne : s₁ ≠ s₂) (hk : m k = none)
    (hs : st.arcStatus = s₁) : Filed s₁ s₂ (Function.update m k (some st)) (k :: l₁) l₂ := by
  refine ⟨fun c => ?_, fun c => ?_, List.nodup_cons.mpr ⟨(h.notMem hk).1, h.nodup_fst⟩,
    h.nodup_snd, fun c st' hc => h.status_some (.inl hs) hc⟩
  · rw [statuses_some, List.mem_cons, h.mem_fst, hs]
    by_cases e : c = k <;> simp [e]
  · rw [statuses_some, h.mem_snd, hs]
    by_cases e : c = k
    · simp [e, hk, hne.symm]
    · simp [e]

/-- A map with the statuses of before files the same lists. -/
theorem congr (h : Filed s₁ s₂ m l₁ l₂) (hk : m k = some st) {st' : FrameStatus}
    (hs : st'.arcStatus = st.arcStatus) : Filed s₁ s₂ (Function.update m k (some st')) l₁ l₂ := by
  refine ⟨fun c => ?_, fun c => ?_, h.nodup_fst, h.nodup_snd, fun c st'' hc => ?_⟩
  · rw [statuses_some, h.mem_fst, hs]
    by_cases e : c = k
    · simp [e, hk, eq_comm]
    · simp [e]
  · rw [statuses_some, h.mem_snd, hs]
    by_cases e : c = k
    · simp [e, hk, eq_comm]
    · simp [e]
  · refine h.status_some ?_ hc
    rw [hs]
    exact h.status k st hk

end Filed

namespace AliveLists

theorem create (n : Nat) : AliveLists n (fun _ => none) [] [] where
  toFiled := .nil _ _
  alive := by simp

theorem alive_status (h : AliveLists n m mru mfu) (f : Nat) (st : FrameStatus)
    (hf : m f = some st) : f < n ∧ st.frameId = f ∧ (st.arcStatus = .mru ∨ st.arcStatus = .mfu) :=
  ⟨(h.alive f st hf).1, (h.alive f st hf).2, h.status f st hf⟩

theorem disjoint (h : AliveLists n m mru mfu) (hm : f ∈ mru) : f ∉ mfu :=
  h.toFiled.disjoint (by decide) hm

theorem leave (h : AliveLists n m mru mfu) (f : Nat) :
    AliveLists n (Function.update m f none) (mru.erase f) (mfu.erase f) where
  toFiled := h.toFiled.leave f
  alive c st hc := by
    by_cases e : c = f
    · subst e
      simp at hc
    · rw [Function.update_of_ne e] at hc
      exact h.alive c st hc

theorem alive_some (h : AliveLists n m mru mfu) (hlt : f < n) (hid : st.frameId = f)
    {c : Nat} {st' : FrameStatus} (hc : Function.update m f (some st) c = some st') :
    c < n ∧ st'.frameId = c := by
  by_cases e : c = f
  · subst e
    rw [Function.update_self] at hc
    cases hc
    exact ⟨hlt, hid⟩
  · rw [Function.update_of_ne e] at hc
    exact h.alive c st' hc

theorem enterMru (h : AliveLists n m mru mfu) (hf : m f = none) (hlt : f < n)
    (hid : st.frameId = f) (hs : st.arcStatus = .mru) :
    AliveLists n (Function.update m f (some st)) (f :: mru) mfu where
  toFiled := h.toFiled.enter (by decide) hf hs
  alive c st' hc := h.alive_some hlt hid hc

theorem enterMfu (h : AliveLists n m mru mfu) (hf : m f = none) (hlt : f < n)
    (hid : st.frameId = f) (hs : st.arcStatus = .mfu) :
    AliveLists n (Function.update m f (some st)) mru (f :: mfu) where
  toFiled := (h.toFiled.symm.enter (by decide) hf hs).symm
  alive c st' hc := h.alive_some hlt hid hc

/-- A new flag changes neither list. -/
theorem flag (h : AliveLists n m mru mfu) (f : Nat) (b : Bool) : AliveLists n
    (Function.update m f ((m f).map fun st => { st with evictable := b })) mru mfu := by
  cases hf : m f with
  | none =>
    rw [Option.map_none, ← hf, Function.update_eq_self]
    exact h
  | some st =>
    obtain ⟨hlt, hid⟩ := h.alive f st hf
    refine ⟨h.toFiled.congr hf rfl, fun c st' hc => h.alive_some hlt ?_ hc⟩
    exact hid

/-- The lists hold at most `n` frames. -/
theorem length_le (h : AliveLists n m mru mfu) : mru.length + mfu.length ≤ n := by
  have hnodup : (mru ++ mfu).Nodup :=
    List.nodup_append'.mpr ⟨h.nodup_fst, h.nodup_snd, fun c hc hc' => h.disjoint hc hc'⟩
  have hsub : mru ++ mfu ⊆ List.range n := by
    intro c hc
    obtain ⟨st, hst⟩ := Option.ne_none_iff_exists'.mp (h.mem.mpr (List.mem_append.mp hc))
    exact List.mem_range.mpr (h.alive c st hst).1
  have hle := hnodup.length_le_of_subset hsub
  rw [List.length_append, List.length_range] at hle
  exact hle

/-- A frame leaves one of the lists. -/
theorem length_erase (h : AliveLists n m mru mfu) (hst : m f = some st) :
    (mru.erase f).length + (mfu.erase f).length + 1 = mru.length + mfu.length := by
  obtain hm | hm := h.mem.mp (by rw [hst]; simp)
  · have := List.length_pos_of_mem hm
    rw [List.erase_of_not_mem (h.disjoint hm), List.length_erase_of_mem hm]
    omega
  · have := List.length_pos_of_mem hm
    rw [List.erase_of_not_mem fun hm' => h.disjoint hm' hm, List.length_erase_of_mem hm]
    omega

/-- There is room for a frame that is not alive. -/
theorem length_lt (h : AliveLists n m mru mfu) (hlt : f < n) (hf : m f = none) :
    mru.length + mfu.length < n := by
  -- with the frame added the lists still hold at most `n`
  have hid : FrameStatus.frameId ⟨0, f, false, .mru⟩ = f := rfl
  have hle := (h.enterMru hf hlt hid rfl).length_le
  rw [List.length_cons] at hle
  omega

end AliveLists

end

/-! ## The counters -/

/-- The alive lists are the alive frames, a ghost is filed under its page and
has a ghost's status, and the counters count. -/
structure Counted (r : ArcReplacer) : Prop where
  lists : AliveLists r.replacerSize r.aliveMap r.mru r.mfu
  ghost : ∀ p g, r.ghostMap p = some g →
    g.pageId = p ∧ (g.arcStatus = .mruGhost ∨ g.arcStatus = .mfuGhost)
  mruSize : r.mruSize = r.mru.length
  mfuSize : r.mfuSize = r.mfu.length
  mruGhostSize : r.mruGhostSize = r.mruGhost.length
  mfuGhostSize : r.mfuGhostSize = r.mfuGhost.length
  currSize : r.currSize = (evictables r.replacerSize r.aliveMap).card

/-- The frame leaves the alive side. -/
def without (r : ArcReplacer) (f : Nat) : ArcReplacer := { r with
  mru := r.mru.erase f
  mfu := r.mfu.erase f
  mruSize := (r.mru.erase f).length
  mfuSize := (r.mfu.erase f).length
  aliveMap := Function.update r.aliveMap f none
  currSize := ((evictables r.replacerSize r.aliveMap).erase f).card }

/-- The page becomes the newest ghost of a list. -/
def withGhost (r : ArcReplacer) (g : FrameStatus) (fromMru : Bool) : ArcReplacer :=
  if fromMru then { r with
    mruGhost := g.pageId :: r.mruGhost
    mruGhostSize := r.mruGhostSize + 1
    ghostMap := Function.update r.ghostMap g.pageId (some { g with arcStatus := .mruGhost }) }
  else { r with
    mfuGhost := g.pageId :: r.mfuGhost
    mfuGhostSize := r.mfuGhostSize + 1
    ghostMap := Function.update r.ghostMap g.pageId (some { g with arcStatus := .mfuGhost }) }

/-- The frame enters `mru`. -/
def withMru (r : ArcReplacer) (st : FrameStatus) : ArcReplacer := { r with
  mru := st.frameId :: r.mru
  mruSize := r.mruSize + 1
  aliveMap := Function.update r.aliveMap st.frameId (some st)
  currSize := r.currSize + st.evictable.toNat }

/-- The frame enters `mfu`. -/
def withMfu (r : ArcReplacer) (st : FrameStatus) : ArcReplacer := { r with
  mfu := st.frameId :: r.mfu
  mfuSize := r.mfuSize + 1
  aliveMap := Function.update r.aliveMap st.frameId (some st)
  currSize := r.currSize + st.evictable.toNat }

section
variable {r r' : ArcReplacer} {f p : Nat} {st g : FrameStatus}

theorem counted_create (n : Nat) : (create n).Counted where
  lists := .create n
  ghost p g h := by cases h
  mruSize := rfl
  mfuSize := rfl
  mruGhostSize := rfl
  mfuGhostSize := rfl
  currSize := by simp [create, evictables]

theorem sizeDec_length {l : List Nat} (h : f ∈ l) : sizeDec l.length = (l.erase f).length := by
  have := List.length_pos_of_mem h
  rw [List.length_erase_of_mem h, sizeDec, if_neg (by omega)]

/-- A list without the victim. -/
theorem victim_erase {l rest : List Nat} (hv : r.IsVictim l.reverse f rest) (hl : l.Nodup) :
    f ∈ l ∧ rest.reverse = l.erase f := by
  obtain ⟨l₁, l₂, he, rfl, -⟩ := hv
  have he' : l = l₂.reverse ++ f :: l₁.reverse := by
    rw [← List.reverse_reverse l, he]
    simp
  subst he'
  have hn : f ∉ l₂.reverse := by
    intro hm
    exact (List.nodup_middle.mp hl).notMem (List.mem_append_left _ hm)
  refine ⟨by simp, ?_⟩
  rw [List.erase_append_right _ hn, List.erase_cons_head, List.reverse_append]

theorem sizeDec_card {s : Finset Nat} (h : f ∈ s) : sizeDec s.card = (s.erase f).card := by
  have := Finset.card_pos.mpr ⟨f, h⟩
  rw [Finset.card_erase_of_mem h, sizeDec, if_neg (by omega)]

/-- A flag changes the alive map and the count of evictable frames. -/
theorem flag_lists (r : ArcReplacer) (f : Nat) (b : Bool) : ∃ m k,
    r.flag f b = { r with aliveMap := m, currSize := k } := by
  rw [ArcReplacer.flag]
  split
  · exact ⟨r.aliveMap, r.currSize, rfl⟩
  · split
    · exact ⟨r.aliveMap, r.currSize, rfl⟩
    · exact ⟨_, _, rfl⟩

namespace Counted

theorem without (h : r.Counted) (f : Nat) : (r.without f).Counted where
  lists := h.lists.leave f
  ghost := h.ghost
  mruSize := rfl
  mfuSize := rfl
  mruGhostSize := h.mruGhostSize
  mfuGhostSize := h.mfuGhostSize
  currSize := by
    change _ = (evictables r.replacerSize (Function.update r.aliveMap f none)).card
    rw [evictables_none]
    rfl

theorem withGhost (h : r.Counted) (g : FrameStatus) (b : Bool) : (r.withGhost g b).Counted := by
  have hg : ∀ s, s = ArcStatus.mruGhost ∨ s = .mfuGhost → ∀ q g',
      Function.update r.ghostMap g.pageId (some { g with arcStatus := s }) q = some g' →
        g'.pageId = q ∧ (g'.arcStatus = .mruGhost ∨ g'.arcStatus = .mfuGhost) := by
    intro s hs q g' hq
    by_cases e : q = g.pageId
    · subst e
      rw [Function.update_self] at hq
      cases hq
      exact ⟨rfl, hs⟩
    · rw [Function.update_of_ne e] at hq
      exact h.ghost q g' hq
  unfold ArcReplacer.withGhost
  cases b with
  | true =>
    refine ⟨h.lists, hg _ (.inl rfl), h.mruSize, h.mfuSize, ?_, h.mfuGhostSize, h.currSize⟩
    simp [h.mruGhostSize]
  | false =>
    refine ⟨h.lists, hg _ (.inr rfl), h.mruSize, h.mfuSize, h.mruGhostSize, ?_, h.currSize⟩
    simp [h.mfuGhostSize]

theorem card_some (h : r.Counted) (hf : r.aliveMap f = none) (hlt : f < r.replacerSize) :
    r.currSize + st.evictable.toNat =
      (evictables r.replacerSize (Function.update r.aliveMap f (some st))).card := by
  have hn : f ∉ evictables r.replacerSize r.aliveMap := by
    rw [mem_evictables]
    simp [hf]
  rw [evictables_some hlt, h.currSize]
  cases st.evictable with
  | true => simp [Finset.card_insert_of_notMem hn]
  | false => simp [Finset.erase_eq_of_notMem hn]

theorem withMru (h : r.Counted) (hf : r.aliveMap st.frameId = none)
    (hlt : st.frameId < r.replacerSize) (hs : st.arcStatus = .mru) : (r.withMru st).Counted where
  lists := h.lists.enterMru hf hlt rfl hs
  ghost := h.ghost
  mruSize := by simp [ArcReplacer.withMru, h.mruSize]
  mfuSize := h.mfuSize
  mruGhostSize := h.mruGhostSize
  mfuGhostSize := h.mfuGhostSize
  currSize := h.card_some hf hlt

theorem withMfu (h : r.Counted) (hf : r.aliveMap st.frameId = none)
    (hlt : st.frameId < r.replacerSize) (hs : st.arcStatus = .mfu) : (r.withMfu st).Counted where
  lists := h.lists.enterMfu hf hlt rfl hs
  ghost := h.ghost
  mruSize := h.mruSize
  mfuSize := by simp [ArcReplacer.withMfu, h.mfuSize]
  mruGhostSize := h.mruGhostSize
  mfuGhostSize := h.mfuGhostSize
  currSize := h.card_some hf hlt

theorem flag_currSize (h : r.Counted) (b : Bool) : (r.flag f b).currSize =
    (evictables r.replacerSize (r.flag f b).aliveMap).card := by
  rw [ArcReplacer.flag]
  split
  next => exact h.currSize
  next st hf =>
    obtain ⟨hlt, -⟩ := h.lists.alive f st hf
    have hmem : f ∈ evictables r.replacerSize r.aliveMap ↔ st.evictable = true := by
      rw [mem_evictables]
      simp [hf, hlt]
    split
    next => exact h.currSize
    next hne =>
      change (if b then r.currSize + 1 else sizeDec r.currSize) = (evictables r.replacerSize
        (Function.update r.aliveMap f (some { st with evictable := b }))).card
      rw [evictables_some hlt, h.currSize]
      cases b with
      | true =>
        have hn : f ∉ evictables r.replacerSize r.aliveMap := fun hm => hne (hmem.mp hm)
        simp [Finset.card_insert_of_notMem hn]
      | false =>
        have hm := hmem.mpr (by simpa using hne)
        simp [sizeDec_card hm]

theorem flag (h : r.Counted) (f : Nat) (b : Bool) : (r.flag f b).Counted := by
  have hsize := h.flag_currSize (f := f) b
  have hlists := h.lists.flag f b
  rw [← flag_aliveMap] at hlists
  obtain ⟨m, k, he⟩ := flag_lists r f b
  rw [he] at hlists hsize ⊢
  exact ⟨hlists, h.ghost, h.mruSize, h.mfuSize, h.mruGhostSize, h.mfuGhostSize, hsize⟩

end Counted

/-! ## Calls return -/

theorem ensure_total {c : Bool} (h : c = true) (text : String) : Ends (ensure c text) r ⟨⟩ r := by
  rw [ensure, if_pos h]
  exact .pure _ _

theorem targetStep_total {a : Nat} (h : 0 < a) (b : Nat) : ∃ n, Ends (targetStep a b) r n r := by
  unfold targetStep
  by_cases hab : a ≥ b
  · exact ⟨1, by rw [if_pos hab]; exact .pure _ _⟩
  · exact ⟨b / a, by rw [if_neg hab, if_neg (by omega)]; exact .pure _ _⟩

namespace AliveLists

variable (h : AliveLists r.replacerSize r.aliveMap r.mru r.mfu)

include h in
theorem evictMru_returns : Returns evictMru r := by
  have ha : ∀ c ∈ r.mru.reverse, r.aliveMap c ≠ none := fun c hc =>
    h.mem.mpr (.inl (List.mem_reverse.mp hc))
  obtain ⟨o, ho⟩ := evictFrom_total ha
  refine .bind (Ends.get r) (.bind ho ?_)
  cases o with
  | none => exact .pure _ _
  | some v => exact .bind (Ends.modify _ r) (.pure _ _)

include h in
theorem evictMfu_returns : Returns evictMfu r := by
  have ha : ∀ c ∈ r.mfu.reverse, r.aliveMap c ≠ none := fun c hc =>
    h.mem.mpr (.inr (List.mem_reverse.mp hc))
  obtain ⟨o, ho⟩ := evictFrom_total ha
  refine .bind (Ends.get r) (.bind ho ?_)
  cases o with
  | none => exact .pure _ _
  | some v => exact .bind (Ends.modify _ r) (.pure _ _)

include h in
theorem pickVictim_returns : Returns pickVictim r := by
  obtain ⟨o₁, r₁, h₁⟩ := h.evictMru_returns
  obtain ⟨o₂, r₂, h₂⟩ := h.evictMfu_returns
  refine .bind (Ends.get r) ?_
  split
  · refine .bind h₁ ?_
    obtain ⟨rfl, rfl, -⟩ | ⟨f, rest, rfl, -⟩ := evictMru_ends h₁
    · exact .bind h₂ (.pure _ _)
    · exact .pure _ _
  · refine .bind h₂ ?_
    obtain ⟨rfl, rfl, -⟩ | ⟨f, rest, rfl, -⟩ := evictMfu_ends h₂
    · exact .bind h₁ (.pure _ _)
    · exact .pure _ _

include h in
theorem evict_returns : Returns evict r := by
  obtain ⟨o, r₁, h₁⟩ := h.pickVictim_returns
  have hsome : ∀ c b (rest : List Nat) (l : List Nat), o = some (c, b) → r.IsVictim l c rest →
      r₁.aliveMap = r.aliveMap → Returns ArcReplacer.evict r := by
    intro c b rest l ho hv ha
    obtain ⟨l₁, l₂, -, -, ⟨st, hst, -⟩, -⟩ := hv
    subst ho
    refine .bind h₁ (.bind (Ends.get r₁) ?_)
    rw [ha, hst]
    exact .bind (Ends.modify _ r₁) (.pure _ _)
  obtain ⟨rfl, rfl, -⟩ | ⟨c, rest, ho, hv, rfl⟩ | ⟨c, rest, ho, hv, rfl⟩ := pickVictim_ends h₁
  · exact .bind h₁ (.pure _ _)
  · exact hsome c true rest _ ho hv rfl
  · exact hsome c false rest _ ho hv rfl

include h in
theorem leaveList_returns (hst : r.aliveMap f = some st) : Returns (leaveList f st) r := by
  refine .bind (Ends.get r) ?_
  obtain hs | hs := h.status f st hst
  · have hm := List.contains_iff_mem.mpr ((h.mem_fst f).mpr ⟨st, hst, hs⟩)
    simp only [hs]
    exact .bind (ensure_total hm _) (.set _ _)
  · have hm := List.contains_iff_mem.mpr ((h.mem_snd f).mpr ⟨st, hst, hs⟩)
    simp only [hs]
    exact .bind (ensure_total hm _) (.set _ _)

end AliveLists

/-- A ghost to forget is there when one has to be forgotten. -/
theorem trimGhosts_returns (h₁ : r.mruSize = r.mru.length) (h₂ : r.mfuSize = r.mfu.length)
    (h₃ : r.mruGhostSize = r.mruGhost.length) (h₄ : r.mfuGhostSize = r.mfuGhost.length)
    (hfits : r.mru.length + r.mruGhost.length ≤ r.replacerSize)
    (hlt : r.mru.length + r.mfu.length < r.replacerSize) : Returns trimGhosts r := by
  refine .bind (Ends.get r) (.bind (ensure_total (decide_eq_true (by omega)) _) ?_)
  split
  next hc =>
    have hne : r.mruGhost ≠ [] := by
      intro e
      simp only [e, List.length_nil] at h₃
      omega
    rw [if_neg hne]
    exact .set _ _
  next hc =>
    split
    next hc' =>
      have hne : r.mfuGhost ≠ [] := by
        intro e
        simp only [e, List.length_nil] at h₄
        omega
      rw [if_neg hne]
      exact .set _ _
    next => exact .pure _ _

end

end DbInternals.Buffer.ArcReplacer
