import DbInternals.Buffer.ArcCalls

/-!
# How long the lists of a replacer get

The recency lists together never exceed the capacity `c`, and all four lists
never exceed `2 * c`. A miss finds fewer than `c` frames alive; so when it has
to forget a ghost of a list, that list has one.

Results: `Effect.bounded`, the step; `lists_bounded`, every run.
-/
namespace DbInternals.Buffer.ArcReplacer

/-- `mru` and its ghosts fit the capacity, and all the lists twice that. -/
structure Bounded (r : ArcReplacer) : Prop where
  mru : r.mru.length + r.mruGhost.length ≤ r.replacerSize
  total : r.total ≤ 2 * r.replacerSize

section
variable {r r' : ArcReplacer} {c : Call} {o : Option (Nat × Nat)} {n f p : Nat}
  {l₁ l₂ : List Nat} {g : FrameStatus}

theorem bounded_create (n : Nat) : (create n).Bounded := by
  constructor <;> simp [create, total]

/-- A ghost that leaves makes room for a frame. -/
theorem Loses.length (h : Loses r p g l₁ l₂) : l₁.length ≤ r.mruGhost.length ∧
    l₁.length + l₂.length + 1 = r.mruGhost.length + r.mfuGhost.length := by
  obtain ⟨-, hm, rfl, rfl⟩ | ⟨-, hm, rfl, rfl⟩ := h
  · have := List.length_pos_of_mem hm
    rw [List.length_erase_of_mem hm]
    omega
  · have := List.length_pos_of_mem hm
    rw [List.length_erase_of_mem hm]
    omega

/-- After a miss made room, both bounds leave space for the new frame. -/
theorem Trims.length (h : Trims r l₁ l₂) (hb : r.Bounded) :
    r.mru.length + l₁.length < r.replacerSize ∧
      r.mru.length + l₁.length + r.mfu.length + l₂.length < 2 * r.replacerSize := by
  have hfit := hb.mru
  have htot := hb.total
  simp only [Trims, total] at h htot
  obtain ⟨-, ⟨hc, hne, rfl, rfl⟩ | ⟨hc, hd, hne, rfl, rfl⟩ | ⟨hc, hd, rfl, rfl⟩⟩ := h
  · have := List.length_pos_iff.mpr hne
    rw [List.length_dropLast]
    omega
  · have := List.length_pos_iff.mpr hne
    rw [List.length_dropLast]
    omega
  · omega

theorem Effect.bounded (h : r.Counted) (hb : r.Bounded) (he : Effect r c o r') : r'.Bounded := by
  have hfit := hb.mru
  have htot := hb.total
  unfold total at htot
  cases he with
  | @hit f p st hst =>
    have hlen := h.lists.length_erase hst
    have hle := List.length_erase_le (a := f) (l := r.mru)
    constructor
    · simp only [withMfu, without]
      omega
    · simp only [total, withMfu, without, List.length_cons]
      omega
  | @revive f p t g l₁ l₂ hlt hf hg hl =>
    obtain ⟨hle, hlen⟩ := hl.length
    constructor
    · simp only [withMfu, withGhosts]
      omega
    · simp only [total, withMfu, withGhosts, List.length_cons]
      omega
  | @miss f p l₁ l₂ hlt hf hg hl =>
    obtain ⟨hm, ht⟩ := hl.length hb
    constructor
    · simp only [withMru, withGhosts, List.length_cons]
      omega
    · simp only [total, withMru, withGhosts, List.length_cons]
      omega
  | @flag f b =>
    obtain ⟨m, k, he⟩ := flag_lists r f b
    rw [he]
    exact ⟨hfit, htot⟩
  | @remove f =>
    have hle := List.length_erase_le (a := f) (l := r.mru)
    have hle' := List.length_erase_le (a := f) (l := r.mfu)
    constructor
    · simp only [without]
      omega
    · simp only [total, without]
      omega
  | kept => exact hb
  | @evicted f st b hst hev hm =>
    -- the page becomes a ghost of the list the frame was in
    have hlen := h.lists.length_erase hst
    cases b with
    | true =>
      have hpos := List.length_pos_of_mem hm
      have hle := List.length_erase_of_mem hm
      constructor
      · simp only [withGhost, without, if_true, List.length_cons]
        omega
      · simp only [total, withGhost, without, if_true, List.length_cons]
        omega
    | false =>
      have hle := List.length_erase_le (a := f) (l := r.mru)
      constructor
      · simp only [withGhost, without, Bool.false_eq_true, if_false]
        omega
      · simp only [total, withGhost, without, Bool.false_eq_true, if_false, List.length_cons]
        omega

theorem bounded_inductive (n : Nat) :
    (calls n).Inductive fun r => r.Bounded ∧ r.Counted ∧ r.replacerSize = n where
  init r h := ⟨by rw [h]; exact bounded_create n, (calls_inductive n).init r h⟩
  step r l r' h hs := by
    obtain ⟨hb, h, rfl⟩ := h
    have he := h.effect hs.1 hs.2
    exact ⟨he.bounded h hb, he.counted h, he.replacerSize⟩

/-- In every run both bounds hold, and every counter is the length of its list.
A miss then never finds the recency lists too long, and forgets a ghost only of
a list that has one. -/
theorem lists_bounded {ls : List (Call × Option (Nat × Nat))} (h : (calls n).Exec ls r) :
    r.mruSize + r.mruGhostSize ≤ n ∧
    r.mruSize + r.mfuSize + r.mruGhostSize + r.mfuGhostSize ≤ 2 * n ∧
    (r.mruSize = r.mru.length ∧ r.mfuSize = r.mfu.length ∧
      r.mruGhostSize = r.mruGhost.length ∧ r.mfuGhostSize = r.mfuGhost.length ∧ r.currSize ≤ n) ∧
    ∀ f p, f < n → r.aliveMap f = none → r.ghostMap p = none →
      (r.mruSize + r.mruGhostSize = n → r.mruGhost ≠ []) ∧
      (r.mruSize + r.mruGhostSize ≠ n →
        r.mruSize + r.mruGhostSize + r.mfuSize + r.mfuGhostSize = 2 * n → r.mfuGhost ≠ []) ∧
      Returns (recordAccess f p) r := by
  obtain ⟨⟨hfit, htot⟩, hc, rfl⟩ := (bounded_inductive n).exec h
  have h₁ := hc.mruSize
  have h₂ := hc.mfuSize
  have h₃ := hc.mruGhostSize
  have h₄ := hc.mfuGhostSize
  unfold total at htot
  have hcard : r.currSize ≤ r.replacerSize := by
    rw [hc.currSize, evictables]
    refine (Finset.card_filter_le _ _).trans ?_
    rw [Finset.card_range]
  refine ⟨by omega, by omega, ⟨h₁, h₂, h₃, h₄, hcard⟩, fun f p hf hn hg => ?_⟩
  have hlt := hc.lists.length_lt hf hn
  refine ⟨fun hm e => ?_, fun hm ht e => ?_, ?_⟩
  · rw [e, List.length_nil] at h₃
    omega
  · rw [e, List.length_nil] at h₄
    omega
  · obtain ⟨_, r₁, ht⟩ := trimGhosts_returns h₁ h₂ h₃ h₄ hfit hlt
    refine .bind (Ends.get r) ?_
    rw [hn, hg]
    exact .bind ht (.modify _ _)

/-- One frame, whose page is evicted to make room for another: the next miss forgets the ghost. -/
theorem lists_bounded_one : ∃ r, (calls 1).Exec [(.recordAccess 0 7, none),
    (.setEvictable 0 true, none), (.evict, some (7, 0))] r ∧ r.mruSize + r.mruGhostSize ≤ 1 := by
  have h₀ : (calls 1).Exec [] (create 1) := .nil rfl
  have h₁ : (calls 1).Exec [(.recordAccess 0 7, none)] _ := h₀.snoc ⟨Nat.one_pos, rfl⟩
  have h₂ : (calls 1).Exec [(.recordAccess 0 7, none), (.setEvictable 0 true, none)] _ :=
    h₁.snoc ⟨Nat.one_pos, rfl⟩
  have h₃ : (calls 1).Exec [(.recordAccess 0 7, none), (.setEvictable 0 true, none),
      (.evict, some (7, 0))] _ := h₂.snoc ⟨trivial, rfl⟩
  exact ⟨_, h₃, (lists_bounded h₃).1⟩

end

end DbInternals.Buffer.ArcReplacer
