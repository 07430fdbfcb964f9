import DbInternals.Buffer.ArcLists

/-!
# The lists of a replacer and its maps

`Valid` says that the two alive lists are the alive frames by status, that a
ghost is in the list its status names, and that the counters count.

Results:
* `Valid.flag`, `Valid.recordAlive`, `Valid.evicted`: what keeps it; an access
  that forgets a ghost is not among these, since the map keeps the ghost;
* `Valid.evict`: an eviction returns, and finds a frame if there is one;
* `Valid.recordAccess`: an access returns.
-/
namespace DbInternals.Buffer.ArcReplacer

structure Valid (r : ArcReplacer) : Prop where
  mem_mru : ∀ f, f ∈ r.mru ↔ ∃ st, r.aliveMap f = some st ∧ st.arcStatus = .mru
  mem_mfu : ∀ f, f ∈ r.mfu ↔ ∃ st, r.aliveMap f = some st ∧ st.arcStatus = .mfu
  nodup_mru : r.mru.Nodup
  nodup_mfu : r.mfu.Nodup
  alive : ∀ f st, r.aliveMap f = some st → f < r.replacerSize ∧ st.frameId = f ∧
    (st.arcStatus = .mru ∨ st.arcStatus = .mfu)
  ghost : ∀ p g, r.ghostMap p = some g → (g.arcStatus = .mruGhost ∧ p ∈ r.mruGhost) ∨
    (g.arcStatus = .mfuGhost ∧ p ∈ r.mfuGhost)
  mruSize : r.mruSize = r.mru.length
  mfuSize : r.mfuSize = r.mfu.length
  mruGhostSize : r.mruGhostSize = r.mruGhost.length
  mfuGhostSize : r.mfuGhostSize = r.mfuGhost.length
  fits : r.mru.length + r.mruGhost.length ≤ r.replacerSize

section
variable {r r' : ArcReplacer} {f p : Nat}

theorem valid_create (n : Nat) : (create n).Valid := by
  constructor <;> simp [create]

theorem Valid.lists (h : r.Valid) : AliveLists r.replacerSize r.aliveMap r.mru r.mfu :=
  ⟨⟨h.mem_mru, h.mem_mfu, h.nodup_mru, h.nodup_mfu, fun f st hf => (h.alive f st hf).2.2⟩,
    fun f st hf => ⟨(h.alive f st hf).1, (h.alive f st hf).2.1⟩⟩

/-- Only the alive map and the count of evictable frames change. -/
theorem Valid.flag (h : r.Valid) (b : Bool) : (r.flag f b).Valid := by
  have hlists := h.lists.flag f b
  rw [← flag_aliveMap] at hlists
  obtain ⟨m, k, he⟩ := flag_lists r f b
  rw [he] at hlists ⊢
  exact ⟨hlists.mem_fst, hlists.mem_snd, hlists.nodup_fst, hlists.nodup_snd, hlists.alive_status, h.ghost,
    h.mruSize, h.mfuSize, h.mruGhostSize, h.mfuGhostSize, h.fits⟩

/-- An alive frame moves to the front of `mfu`. -/
theorem Valid.recordAlive (h : r.Valid) (hf : r.aliveMap f ≠ none)
    (he : Ends (recordAccess f p) r () r') : r'.Valid ∧ r'.replacerSize = r.replacerSize := by
  obtain ⟨st, hst⟩ := Option.ne_none_iff_exists'.mp hf
  obtain ⟨hlt, rfl, -⟩ := h.alive f st hst
  rw [ArcReplacer.recordAccess] at he
  replace he := Ends.rest (Ends.get r) he
  simp only [hst] at he
  obtain ⟨_, r₁, h₁, he⟩ := Ends.bind_iff.mp he
  have hends := leaveList_ends h₁
  cases he
  -- the frame leaves its list and enters `mfu`
  have hid : ({ st with arcStatus := .mfu } : FrameStatus).frameId = st.frameId := rfl
  have hl := (h.lists.leave st.frameId).enterMfu (by simp) hlt hid rfl
  rw [Function.update_idem] at hl
  obtain ⟨-, hm, rfl⟩ | ⟨-, hm, rfl⟩ := hends
  · rw [List.erase_of_not_mem (h.lists.disjoint hm)] at hl
    refine ⟨⟨hl.mem_fst, hl.mem_snd, hl.nodup_fst, hl.nodup_snd, hl.alive_status, h.ghost, ?_, ?_,
      h.mruGhostSize, h.mfuGhostSize, ?_⟩, rfl⟩
    · simp only [h.mruSize, sizeDec_length hm]
    · simp only [h.mfuSize, List.length_cons]
    · have := h.fits
      simp only [List.length_erase_of_mem hm]
      omega
  · rw [List.erase_of_not_mem fun hm' => h.lists.disjoint hm' hm] at hl
    refine ⟨⟨hl.mem_fst, hl.mem_snd, hl.nodup_fst, hl.nodup_snd, hl.alive_status, h.ghost, h.mruSize, ?_,
      h.mruGhostSize, h.mfuGhostSize, h.fits⟩, rfl⟩
    · simp only [h.mfuSize, List.length_cons, sizeDec_length hm]

theorem Valid.evicted (h : r.Valid) {st : FrameStatus}
    (he : r.Evicted f st r') : r'.Valid := by
  have hl := h.lists.leave f
  -- the ghosts are those of before and the page
  have hghost : ∀ {m : Nat → Option FrameStatus} {l₁ l₂ : List Nat} {g₀ : FrameStatus},
      m = Function.update r.ghostMap st.pageId (some g₀) →
      ((g₀.arcStatus = .mruGhost ∧ st.pageId ∈ l₁) ∨ g₀.arcStatus = .mfuGhost ∧ st.pageId ∈ l₂) →
      r.mruGhost ⊆ l₁ → r.mfuGhost ⊆ l₂ → ∀ q g, m q = some g →
        (g.arcStatus = .mruGhost ∧ q ∈ l₁) ∨ g.arcStatus = .mfuGhost ∧ q ∈ l₂ := by
    intro m l₁ l₂ g₀ hm hg₀ h₁ h₂ q g hq
    rw [hm] at hq
    by_cases e : q = st.pageId
    · subst e
      rw [Function.update_self] at hq
      cases hq
      exact hg₀
    · rw [Function.update_of_ne e] at hq
      exact (h.ghost q g hq).imp (And.imp_right fun hq => h₁ hq) (And.imp_right fun hq => h₂ hq)
  obtain ⟨rest, hv, rfl⟩ | ⟨rest, hv, rfl⟩ := he
  · obtain ⟨hm, hr⟩ := victim_erase hv h.nodup_mru
    have hlen := sizeDec_length hm
    rw [List.erase_of_not_mem (h.lists.disjoint hm), ← hr] at hl
    refine ⟨hl.mem_fst, hl.mem_snd, hl.nodup_fst, hl.nodup_snd, hl.alive_status, ?_, ?_, h.mfuSize, ?_,
      h.mfuGhostSize, ?_⟩
    · exact hghost rfl (.inl ⟨rfl, List.mem_cons_self⟩) (List.subset_cons_self _ _) fun _ hq => hq
    · change sizeDec r.mruSize = rest.reverse.length
      rw [h.mruSize, hr, hlen]
    · change r.mruGhostSize + 1 = (st.pageId :: r.mruGhost).length
      rw [h.mruGhostSize, List.length_cons]
    · change rest.reverse.length + (st.pageId :: r.mruGhost).length ≤ r.replacerSize
      have := h.fits
      have := List.length_pos_of_mem hm
      rw [hr, List.length_erase_of_mem hm, List.length_cons]
      omega
  · obtain ⟨hm, hr⟩ := victim_erase hv h.nodup_mfu
    have hlen := sizeDec_length hm
    rw [List.erase_of_not_mem fun hm' => h.lists.disjoint hm' hm, ← hr] at hl
    refine ⟨hl.mem_fst, hl.mem_snd, hl.nodup_fst, hl.nodup_snd, hl.alive_status, ?_, h.mruSize, ?_,
      h.mruGhostSize, ?_, h.fits⟩
    · exact hghost rfl (.inr ⟨rfl, List.mem_cons_self⟩) (fun _ hq => hq) (List.subset_cons_self _ _)
    · change sizeDec r.mfuSize = rest.reverse.length
      rw [h.mfuSize, hr, hlen]
    · change r.mfuGhostSize + 1 = (st.pageId :: r.mfuGhost).length
      rw [h.mfuGhostSize, List.length_cons]

/-! ## Calls return -/

/-- An eviction returns, with a frame if one may be evicted. -/
theorem Valid.evict (h : r.Valid) (hf : r.Evictable f) :
    ∃ q c r', Ends evict r (some (q, c)) r' := by
  obtain ⟨o, r', he⟩ := h.lists.evict_returns
  obtain ⟨-, -, hn, hn'⟩ | ⟨c, st, rfl, -⟩ := evict_ends he
  · obtain ⟨st, hst, -⟩ := id hf
    obtain hm | hm := h.lists.mem.mp (by rw [hst]; simp)
    · exact absurd hf (hn f hm)
    · exact absurd hf (hn' f hm)
  · exact ⟨st.pageId, c, r', he⟩

theorem leaveGhost_returns (h : r.Valid) {g : FrameStatus} (hg : r.ghostMap p = some g) :
    Returns (leaveGhost p g) r := by
  refine .bind (Ends.get r) ?_
  obtain ⟨hs, hm⟩ | ⟨hs, hm⟩ := h.ghost p g hg
  · have hpos : 0 < r.mruGhostSize := h.mruGhostSize ▸ List.length_pos_of_mem hm
    obtain ⟨n, hn⟩ := targetStep_total hpos r.mfuGhostSize
    simp only [hs]
    exact .bind hn (.bind (ensure_total (List.contains_iff_mem.mpr hm) _) (.set _ _))
  · have hpos : 0 < r.mfuGhostSize := h.mfuGhostSize ▸ List.length_pos_of_mem hm
    obtain ⟨n, hn⟩ := targetStep_total hpos r.mruGhostSize
    simp only [hs]
    exact .bind hn (.bind (ensure_total (List.contains_iff_mem.mpr hm) _) (.set _ _))

/-- An access returns. -/
theorem Valid.recordAccess (h : r.Valid) (hf : f < r.replacerSize) (p : Nat) :
    Returns (recordAccess f p) r := by
  refine .bind (Ends.get r) ?_
  cases hst : r.aliveMap f with
  | some st =>
    obtain ⟨_, r₁, h₁⟩ := h.lists.leaveList_returns hst
    exact .bind h₁ (.modify _ _)
  | none =>
    cases hg : r.ghostMap p with
    | some g =>
      obtain ⟨_, r₁, h₁⟩ := leaveGhost_returns h hg
      exact .bind h₁ (.modify _ _)
    | none =>
      obtain ⟨_, r₁, h₁⟩ := trimGhosts_returns h.mruSize h.mfuSize h.mruGhostSize h.mfuGhostSize
        h.fits (h.lists.length_lt hf hst)
      exact .bind h₁ (.modify _ _)

end

end DbInternals.Buffer.ArcReplacer
