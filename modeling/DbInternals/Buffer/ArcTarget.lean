import DbInternals.Buffer.ArcCalls

/-!
# The target of a replacer

`mru_target_size_` is `p` of the original policy, and moves on every ghost hit. The code adds the
step without a bound, and where the step is larger than the target it takes nothing off. So the
target stays below the capacity, and moves as the policy says, along the runs none of whose ghost
hits would cross either end.

Calls are taken with any frame ids here, so that a frame may stand in a list twice; the counters
and the bounds hold all the same.

Results:
* `Sized.step`: the counters count and the lists are bounded after every call that returns;
* `adapts_step`: one call moves the target as the policy says exactly if it stays in range;
* `target_adapts_iff`: so does a run.
-/
namespace DbInternals.Buffer.ArcReplacer

/-- Runs of calls that return. -/
def anyCalls (n : Nat) : LTS ArcReplacer (Call × Option (Nat × Nat)) where
  init r := r = create n
  step r l r' := Ends l.1.run r l.2 r'

/-- By how much a hit in the first ghost list moves the target. -/
def policyStep (hit other : List Nat) : Nat := max 1 (other.length / hit.length)

/-- Every ghost hit moves the target as the policy prescribes. -/
def Adapts (n : Nat) (r : ArcReplacer) (c : Call) (r' : ArcReplacer) : Prop :=
  ∀ f p g, c = .recordAccess f p → r.aliveMap f = none → r.ghostMap p = some g →
    (g.arcStatus = .mruGhost →
      r'.mruTargetSize = min n (r.mruTargetSize + policyStep r.mruGhost r.mfuGhost)) ∧
    (g.arcStatus = .mfuGhost →
      r'.mruTargetSize = r.mruTargetSize - policyStep r.mfuGhost r.mruGhost)

/-- No ghost hit would move the target past the capacity or, from above, past zero. -/
def InRange (n : Nat) (r : ArcReplacer) (c : Call) : Prop :=
  ∀ f p g, c = .recordAccess f p → r.aliveMap f = none → r.ghostMap p = some g →
    (g.arcStatus = .mruGhost → r.mruTargetSize + policyStep r.mruGhost r.mfuGhost ≤ n) ∧
    (g.arcStatus = .mfuGhost →
      r.mruTargetSize = 0 ∨ policyStep r.mfuGhost r.mruGhost ≤ r.mruTargetSize)

/-- The counters count, the lists are bounded, and a ghost has the status of a ghost. -/
structure Sized (n : Nat) (r : ArcReplacer) : Prop where
  mru : r.mruSize = r.mru.length
  mfu : r.mfuSize = r.mfu.length
  mruGhost : r.mruGhostSize = r.mruGhost.length
  mfuGhost : r.mfuGhostSize = r.mfuGhost.length
  fits : r.mru.length + r.mruGhost.length ≤ n
  total : r.total ≤ 2 * n
  size : r.replacerSize = n
  status : ∀ p g, r.ghostMap p = some g → g.arcStatus = .mruGhost ∨ g.arcStatus = .mfuGhost

section
variable {n f p a b k : Nat} {r r' : ArcReplacer} {c : Call} {o : Option (Nat × Nat)} {g st : FrameStatus}

/-! ## What the parts of an access do -/

theorem targetStep_value (ha : 0 < a) (h : Ends (targetStep a b) r k r') : k = max 1 (b / a) := by
  obtain ⟨hle, h⟩ | ⟨hlt, h⟩ := Ends.ite h
  · cases h
    have : b / a ≤ 1 := Nat.div_le_of_le_mul (by omega)
    omega
  obtain ⟨rfl, h⟩ | ⟨-, h⟩ := Ends.ite h
  · cases ha
  · cases h
    have : 1 ≤ b / a := (Nat.one_le_div_iff ha).mpr (by omega)
    omega

/-- The hit page leaves its list, and the target moves by the step. -/
theorem leaveGhost_ends (h : r.Sized n) (hg : r.ghostMap p = some g)
    (he : Ends (leaveGhost p g) r () r') :
    (g.arcStatus = .mruGhost ∧ p ∈ r.mruGhost ∧ r' = { r with
      mruTargetSize := (r.mruTargetSize + policyStep r.mruGhost r.mfuGhost) % 2 ^ 64
      mruGhost := r.mruGhost.erase p
      mruGhostSize := (r.mruGhost.erase p).length }) ∨
    g.arcStatus = .mfuGhost ∧ p ∈ r.mfuGhost ∧ r' = { r with
      mruTargetSize := if r.mruTargetSize ≥ policyStep r.mfuGhost r.mruGhost then
        r.mruTargetSize - policyStep r.mfuGhost r.mruGhost else r.mruTargetSize
      mfuGhost := r.mfuGhost.erase p
      mfuGhostSize := (r.mfuGhost.erase p).length } := by
  obtain ⟨hs, hm, k, hk, rfl⟩ | ⟨hs, hm, k, hk, rfl⟩ | ⟨hmru, hmfu, -⟩ := leaveGhost_cases he
  · rw [targetStep_value (h.mruGhost ▸ List.length_pos_of_mem hm) hk, h.mruGhost, h.mfuGhost,
      sizeDec_length hm]
    exact .inl ⟨hs, hm, rfl⟩
  · rw [targetStep_value (h.mfuGhost ▸ List.length_pos_of_mem hm) hk, h.mruGhost, h.mfuGhost,
      sizeDec_length hm]
    exact .inr ⟨hs, hm, rfl⟩
  · exact ((h.status p g hg).elim hmru hmfu).elim

/-- The frame leaves a list. -/
theorem leaveList_sized (h : r.Sized n) (he : Ends (leaveList f st) r () r') : r'.Sized n ∧
    r'.total + 1 = r.total ∧ r'.mru.length ≤ r.mru.length ∧ r'.mruGhost = r.mruGhost ∧
      r'.mruTargetSize = r.mruTargetSize := by
  have hfits := h.fits
  have htotal := h.total
  unfold total at htotal
  obtain ⟨-, hm, rfl⟩ | ⟨-, hm, rfl⟩ := leaveList_ends he
  · have hpos := List.length_pos_of_mem hm
    have hlen := List.length_erase_of_mem hm
    refine ⟨⟨?_, h.mfu, h.mruGhost, h.mfuGhost, ?_, ?_, h.size, h.status⟩, ?_, ?_, rfl, rfl⟩
    · rw [h.mru, sizeDec_length hm]
    all_goals
      simp only [total]
      omega
  · have hpos := List.length_pos_of_mem hm
    have hlen := List.length_erase_of_mem hm
    refine ⟨⟨h.mru, ?_, h.mruGhost, h.mfuGhost, hfits, ?_, h.size, h.status⟩, ?_, le_rfl, rfl, rfl⟩
    · rw [h.mfu, sizeDec_length hm]
    all_goals
      simp only [total]
      omega

/-- A full replacer loses its oldest ghost. -/
theorem trimGhosts_sized (h : r.Sized n) (he : Ends trimGhosts r () r') : r'.Sized n ∧
    r'.mru.length + r'.mruGhost.length < n ∧ r'.total < 2 * n ∧
      r'.mruTargetSize = r.mruTargetSize := by
  rw [trimGhosts] at he
  replace he := Ends.rest (Ends.get r) he
  obtain ⟨_, r₁, h₁, he⟩ := Ends.bind_iff.mp he
  obtain ⟨-, e⟩ := ensure_ends h₁
  subst r₁
  have hfits := h.fits
  have htotal := h.total
  unfold total at htotal
  rw [h.mru, h.mfu, h.mruGhost, h.mfuGhost, h.size] at he
  obtain ⟨hc, he⟩ | ⟨hc, he⟩ := Ends.ite he
  · obtain ⟨-, he⟩ | ⟨hne, he⟩ := Ends.ite he
    · cases he
    cases he
    have hpos := List.length_pos_iff.mpr hne
    have hlen : r.mruGhost.dropLast.length = r.mruGhost.length - 1 := List.length_dropLast
    refine ⟨⟨rfl, rfl, Counted.sizeDec_dropLast hne, rfl, ?_, ?_, rfl, h.status⟩, ?_, ?_, rfl⟩
    all_goals
      simp only [total]
      omega
  obtain ⟨hd, he⟩ | ⟨hd, he⟩ := Ends.ite he
  · obtain ⟨-, he⟩ | ⟨hne, he⟩ := Ends.ite he
    · cases he
    cases he
    have hpos := List.length_pos_iff.mpr hne
    have hlen : r.mfuGhost.dropLast.length = r.mfuGhost.length - 1 := List.length_dropLast
    refine ⟨⟨rfl, rfl, rfl, Counted.sizeDec_dropLast hne, hfits, ?_, rfl, h.status⟩, ?_, ?_, rfl⟩
    all_goals
      simp only [total]
      omega
  · cases he
    exact ⟨h, by omega, by unfold total; omega, rfl⟩

/-! ## What a call does -/

/-- The target after a call: a ghost hit moves it, and no other call does. -/
def Moves (r : ArcReplacer) (c : Call) (target : Nat) : Prop :=
  (∃ f p g, c = .recordAccess f p ∧ r.aliveMap f = none ∧ r.ghostMap p = some g ∧
    (g.arcStatus = .mruGhost ∧
        target = (r.mruTargetSize + policyStep r.mruGhost r.mfuGhost) % 2 ^ 64 ∨
      g.arcStatus = .mfuGhost ∧ target = if r.mruTargetSize ≥ policyStep r.mfuGhost r.mruGhost then
        r.mruTargetSize - policyStep r.mfuGhost r.mruGhost else r.mruTargetSize)) ∨
  (∀ f p g, c = .recordAccess f p → r.aliveMap f = none → r.ghostMap p ≠ some g) ∧
    target = r.mruTargetSize

theorem Moves.other (h : ∀ f p, c ≠ .recordAccess f p) : Moves r c r.mruTargetSize :=
  .inr ⟨fun f p _ hc => absurd hc (h f p), rfl⟩

theorem recordAccess_sized (h : r.Sized n) (he : Ends (recordAccess f p) r () r') :
    r'.Sized n ∧ Moves r (.recordAccess f p) r'.mruTargetSize := by
  rw [recordAccess] at he
  replace he := Ends.rest (Ends.get r) he
  cases hf : r.aliveMap f with
  | some st =>
    simp only [hf] at he
    obtain ⟨_, r₁, h₁, he⟩ := Ends.bind_iff.mp he
    obtain ⟨hs, htotal, hmru, hghost, htarget⟩ := leaveList_sized h h₁
    have hr := h.total
    cases he
    refine ⟨⟨hs.mru, ?_, hs.mruGhost, hs.mfuGhost, hs.fits, ?_, hs.size, hs.status⟩,
      .inr ⟨fun f' p' g hc hf' => ?_, htarget⟩⟩
    · simp only [List.length_cons, hs.mfu]
    · unfold total at htotal hr ⊢
      simp only [List.length_cons]
      omega
    · cases hc
      cases hf.symm.trans hf'
  | none =>
    cases hg : r.ghostMap p with
    | some g =>
      simp only [hf, hg] at he
      obtain ⟨_, r₁, h₁, he⟩ := Ends.bind_iff.mp he
      have hfits := h.fits
      have htotal := h.total
      unfold total at htotal
      have hstatus : ∀ q g', Function.update r.ghostMap p none q = some g' →
          g'.arcStatus = .mruGhost ∨ g'.arcStatus = .mfuGhost := by
        intro q g' hq
        by_cases e : q = p
        · rw [e, Function.update_self] at hq
          cases hq
        · rw [Function.update_of_ne e] at hq
          exact h.status q g' hq
      obtain ⟨hs, hm, rfl⟩ | ⟨hs, hm, rfl⟩ := leaveGhost_ends h hg h₁
      · have hpos := List.length_pos_of_mem hm
        have hlen := List.length_erase_of_mem hm
        cases he
        refine ⟨⟨h.mru, ?_, rfl, h.mfuGhost, ?_, ?_, h.size, hstatus⟩, .inl ⟨f, p, g, rfl, hf, hg,
          .inl ⟨hs, rfl⟩⟩⟩
        · simp only [List.length_cons, h.mfu]
        all_goals
          simp only [total, List.length_cons]
          omega
      · have hpos := List.length_pos_of_mem hm
        have hlen := List.length_erase_of_mem hm
        cases he
        refine ⟨⟨h.mru, ?_, h.mruGhost, rfl, hfits, ?_, h.size, hstatus⟩, .inl ⟨f, p, g, rfl, hf, hg,
          .inr ⟨hs, rfl⟩⟩⟩
        · simp only [List.length_cons, h.mfu]
        all_goals
          simp only [total, List.length_cons]
          omega
    | none =>
      simp only [hf, hg] at he
      obtain ⟨_, r₁, h₁, he⟩ := Ends.bind_iff.mp he
      obtain ⟨hs, hfits, htotal, htarget⟩ := trimGhosts_sized h h₁
      cases he
      refine ⟨⟨?_, hs.mfu, hs.mruGhost, hs.mfuGhost, ?_, ?_, hs.size, hs.status⟩,
        .inr ⟨fun f' p' g' hc hf' hg' => ?_, htarget⟩⟩
      · simp only [List.length_cons, hs.mru]
      · simp only [List.length_cons]
        omega
      · unfold total at htotal ⊢
        simp only [List.length_cons]
        omega
      · cases hc
        cases hg.symm.trans hg'

theorem victim_length {l rest : List Nat} (hv : r.IsVictim l.reverse f rest) :
    rest.reverse.length + 1 = l.length := by
  obtain ⟨l₁, l₂, hl, rfl, -⟩ := hv
  have hlen := congrArg List.length hl
  simp only [List.length_reverse, List.length_append, List.length_cons] at hlen ⊢
  omega

/-- The victim leaves its list, and its page enters the ghosts of that list. -/
theorem evict_sized (h : r.Sized n) (he : Ends evict r o r') :
    r'.Sized n ∧ r'.mruTargetSize = r.mruTargetSize := by
  have hfits := h.fits
  have htotal := h.total
  unfold total at htotal
  have hstatus : ∀ {g : FrameStatus} {p : Nat}, g.arcStatus = .mruGhost ∨ g.arcStatus = .mfuGhost →
      ∀ q g', Function.update r.ghostMap p (some g) q = some g' →
        g'.arcStatus = .mruGhost ∨ g'.arcStatus = .mfuGhost := by
    intro g p hg q g' hq
    by_cases e : q = p
    · rw [e, Function.update_self] at hq
      cases hq
      exact hg
    · rw [Function.update_of_ne e] at hq
      exact h.status q g' hq
  obtain ⟨-, rfl, -⟩ | ⟨f, st, -, -, -, ⟨rest, hv, rfl⟩ | ⟨rest, hv, rfl⟩⟩ := evict_ends he
  · exact ⟨h, rfl⟩
  · have hlen := victim_length hv
    refine ⟨⟨?_, h.mfu, ?_, h.mfuGhost, ?_, ?_, h.size, hstatus (.inl rfl)⟩, rfl⟩
    · change sizeDec r.mruSize = rest.reverse.length
      rw [h.mru, ← hlen, sizeDec_succ]
    · change r.mruGhostSize + 1 = _
      rw [h.mruGhost]
      rfl
    · change rest.reverse.length + (r.mruGhost.length + 1) ≤ n
      omega
    · change rest.reverse.length + (r.mruGhost.length + 1) + r.mfu.length + r.mfuGhost.length ≤ 2 * n
      omega
  · have hlen := victim_length hv
    refine ⟨⟨h.mru, ?_, h.mruGhost, ?_, hfits, ?_, h.size, hstatus (.inr rfl)⟩, rfl⟩
    · change sizeDec r.mfuSize = rest.reverse.length
      rw [h.mfu, ← hlen, sizeDec_succ]
    · change r.mfuGhostSize + 1 = _
      rw [h.mfuGhost]
      rfl
    · change r.mru.length + r.mruGhost.length + rest.reverse.length + (r.mfuGhost.length + 1) ≤ 2 * n
      omega

/-- What every call that returns keeps, and where it leaves the target. -/
theorem Sized.step (h : r.Sized n) (he : Ends c.run r o r') :
    r'.Sized n ∧ Moves r c r'.mruTargetSize := by
  cases c with
  | recordAccess f p =>
    obtain ⟨_, r₁, h₁, he⟩ := Ends.bind_iff.mp he
    cases he
    exact recordAccess_sized h h₁
  | setEvictable f b =>
    obtain ⟨_, r₁, h₁, he⟩ := Ends.bind_iff.mp he
    cases he
    obtain ⟨-, rfl⟩ := setEvictable_ends.mp h₁
    obtain ⟨m, k, hflag⟩ := flag_lists r f b
    rw [hflag]
    exact ⟨⟨h.mru, h.mfu, h.mruGhost, h.mfuGhost, h.fits, h.total, h.size, h.status⟩,
      .other fun _ _ hc => by cases hc⟩
  | remove f =>
    obtain ⟨_, r₁, h₁, he⟩ := Ends.bind_iff.mp he
    cases he
    rw [remove] at h₁
    replace h₁ := Ends.rest (Ends.get r) h₁
    cases hf : r.aliveMap f with
    | none =>
      simp only [hf] at h₁
      cases h₁
      exact ⟨h, .other fun _ _ hc => by cases hc⟩
    | some st =>
      simp only [hf] at h₁
      obtain ⟨_, r₂, h₂, h₃⟩ := Ends.bind_iff.mp h₁
      obtain ⟨-, e⟩ := ensure_ends h₂
      subst r₂
      obtain ⟨_, r₃, h₄, h₅⟩ := Ends.bind_iff.mp h₃
      obtain ⟨hs, -, -, -, htarget⟩ := leaveList_sized h h₄
      cases h₅
      refine ⟨⟨hs.mru, hs.mfu, hs.mruGhost, hs.mfuGhost, hs.fits, hs.total, hs.size, hs.status⟩, ?_⟩
      exact htarget ▸ .other fun _ _ hc => by cases hc
  | evict =>
    obtain ⟨hs, htarget⟩ := evict_sized h he
    exact ⟨hs, htarget ▸ .other fun _ _ hc => by cases hc⟩

/-! ## Runs -/

/-- One call keeps the target within the capacity and moves it as the policy says exactly if the
policy stays in range without its bounds. -/
theorem adapts_step (hn : 2 * n < 2 ^ 64) (h : r.Sized n) (ht : r.mruTargetSize ≤ n)
    (hm : Moves r c r'.mruTargetSize) :
    r'.mruTargetSize ≤ n ∧ Adapts n r c r' ↔ InRange n r c := by
  have htotal := h.total
  unfold total at htotal
  obtain ⟨f, p, g, rfl, hf, hg, hmove⟩ | ⟨hno, heq⟩ := hm
  case inr =>
    refine ⟨fun _ f p g hc hf hg => absurd hg (hno f p g hc hf), fun _ => ⟨heq ▸ ht, ?_⟩⟩
    exact fun f p g hc hf hg => absurd hg (hno f p g hc hf)
  have hone : ∀ l₁ l₂ : List Nat, 1 ≤ policyStep l₁ l₂ := fun l₁ l₂ => Nat.le_max_left _ _
  have hstep : ∀ l₁ l₂ : List Nat, policyStep l₁ l₂ ≤ max 1 l₂.length :=
    fun l₁ l₂ => max_le_max le_rfl (Nat.div_le_self _ _)
  have hsame : ∀ {f' p' g'}, Call.recordAccess f p = .recordAccess f' p' → r.ghostMap p' = some g' →
      g' = g := by
    intro f' p' g' hc hg'
    cases hc
    rw [hg] at hg'
    exact (Option.some.inj hg').symm
  obtain ⟨hs, hmove⟩ | ⟨hs, hmove⟩ := hmove
  · have h1 := hone r.mruGhost r.mfuGhost
    have h2 := hstep r.mruGhost r.mfuGhost
    constructor
    · rintro ⟨-, hadapt⟩ f' p' g' hc hf' hg'
      obtain rfl := hsame hc hg'
      refine ⟨fun _ => ?_, fun hs' => absurd (hs.symm.trans hs') (by decide)⟩
      have := (hadapt f p g' rfl hf hg).1 hs
      omega
    · intro hrange
      have hle := (hrange f p g rfl hf hg).1 hs
      refine ⟨by omega, fun f' p' g' hc hf' hg' => ?_⟩
      obtain rfl := hsame hc hg'
      refine ⟨fun _ => ?_, fun hs' => absurd (hs.symm.trans hs') (by decide)⟩
      omega
  · have h1 := hone r.mfuGhost r.mruGhost
    have hcases : (policyStep r.mfuGhost r.mruGhost ≤ r.mruTargetSize ∧
        r'.mruTargetSize = r.mruTargetSize - policyStep r.mfuGhost r.mruGhost) ∨
        r.mruTargetSize < policyStep r.mfuGhost r.mruGhost ∧ r'.mruTargetSize = r.mruTargetSize := by
      split at hmove <;> omega
    clear hmove
    constructor
    · rintro ⟨-, hadapt⟩ f' p' g' hc hf' hg'
      obtain rfl := hsame hc hg'
      refine ⟨fun hs' => absurd (hs.symm.trans hs') (by decide), fun _ => ?_⟩
      have := (hadapt f p g' rfl hf hg).2 hs
      omega
    · intro hrange
      have hle := (hrange f p g rfl hf hg).2 hs
      refine ⟨by omega, fun f' p' g' hc hf' hg' => ?_⟩
      obtain rfl := hsame hc hg'
      refine ⟨fun hs' => absurd (hs.symm.trans hs') (by decide), fun _ => ?_⟩
      omega

theorem sized_create (n : Nat) : (create n).Sized n := by
  constructor <;> simp [create, total]

/-- Along a run the target stays within the capacity, and every ghost hit moves it as the policy
prescribes, exactly if no ghost hit of the run would cross an end. -/
theorem target_adapts_iff (hn : 2 * n < 2 ^ 64)
    {tr : List (ArcReplacer × (Call × Option (Nat × Nat)) × ArcReplacer)}
    (h : (anyCalls n).Path (create n) tr) :
    LTS.Always (fun r => r.mruTargetSize ≤ n) (create n) tr ∧
        (∀ x ∈ tr, Adapts n x.1 x.2.1.1 x.2.2) ↔
      LTS.Meets (fun r l => InRange n r l.1) tr := by
  have hpath : ∀ {r tr}, (anyCalls n).Path r tr → r.Sized n → r.mruTargetSize ≤ n →
      ((∀ x ∈ tr, x.2.2.mruTargetSize ≤ n ∧ Adapts n x.1 x.2.1.1 x.2.2) ↔
        LTS.Meets (fun r l => InRange n r l.1) tr) := by
    intro r tr hp hr ht
    induction hp with
    | nil => simp [LTS.Meets]
    | @cons r r' l tr hs _ ih =>
      obtain ⟨hr', hm⟩ := hr.step hs
      have hone := adapts_step hn hr ht hm
      simp only [LTS.Meets, List.forall_mem_cons] at ih ⊢
      rw [hone]
      refine and_congr_right fun hc => ih hr' ?_
      exact (hone.mpr hc).1
  rw [← hpath h (sized_create n) (Nat.zero_le _), LTS.Always, and_assoc]
  constructor
  · rintro ⟨-, hall, hadapt⟩ x hx
    exact ⟨hall x hx, hadapt x hx⟩
  · intro hall
    exact ⟨Nat.zero_le _, fun x hx => (hall x hx).1, fun x hx => (hall x hx).2⟩

/-- One frame: pages 1 and 2 are each evicted from `mru` and brought back at once. -/
theorem overshoots : ∃ s₁ s₂ s₃ s₄ s₅ s₆ s₇ s₈ s₉ s₁₀, (anyCalls 1).Path (create 1)
    [(create 1, (.recordAccess 0 1, none), s₁), (s₁, (.setEvictable 0 true, none), s₂),
      (s₂, (.evict, some (1, 0)), s₃), (s₃, (.recordAccess 0 1, none), s₄),
      (s₄, (.setEvictable 0 true, none), s₅), (s₅, (.evict, some (1, 0)), s₆),
      (s₆, (.recordAccess 0 2, none), s₇), (s₇, (.setEvictable 0 true, none), s₈),
      (s₈, (.evict, some (2, 0)), s₉), (s₉, (.recordAccess 0 2, none), s₁₀)] ∧
    s₁₀.mruTargetSize = 2 := by
  refine ⟨_, _, _, _, _, _, _, _, _, _, .cons rfl (.cons rfl (.cons rfl (.cons rfl (.cons rfl (.cons rfl
    (.cons rfl (.cons rfl (.cons rfl (.cons rfl (.nil _)))))))))), rfl⟩

/-- The target does not stay within the capacity along every run. -/
theorem target_not_bounded : ¬ ∀ n, 2 * n < 2 ^ 64 →
    ∀ tr, (anyCalls n).Path (create n) tr →
      LTS.Always (fun r => r.mruTargetSize ≤ n) (create n) tr ∧
        ∀ x ∈ tr, Adapts n x.1 x.2.1.1 x.2.2 := by
  intro h
  obtain ⟨_, _, _, _, _, _, _, _, s₉, s₁₀, hpath, htarget⟩ := overshoots
  obtain ⟨⟨-, hall⟩, -⟩ := h 1 (by decide) _ hpath
  have hle : s₁₀.mruTargetSize ≤ 1 := hall (s₉, (.recordAccess 0 2, none), s₁₀) (by simp)
  omega

/-- That run has a ghost hit that would cross the capacity. -/
theorem target_adapts_iff_one : ∃ tr, (anyCalls 1).Path (create 1) tr ∧
    ¬ LTS.Meets (fun r l => InRange 1 r l.1) tr := by
  obtain ⟨_, _, _, _, _, _, _, _, s₉, s₁₀, hpath, htarget⟩ := overshoots
  refine ⟨_, hpath, fun hm => ?_⟩
  obtain ⟨⟨-, hall⟩, -⟩ := (target_adapts_iff (by decide) hpath).mpr hm
  have hle : s₁₀.mruTargetSize ≤ 1 := hall (s₉, (.recordAccess 0 2, none), s₁₀) (by simp)
  omega

end

end DbInternals.Buffer.ArcReplacer
