import DbInternals.Buffer.ArcBounds
import DbInternals.Buffer.ArcValid

/-!
# The ghosts of a replacer

A pool binds a page to at most one frame and a frame to one page. Then the
ghost map is the two ghost lists by status (`Coherent`), until a miss forgets
the oldest ghost of a list: `pop_back` takes it off the list and leaves it in
the map, and a later access to that page aborts or divides by zero.

Results:
* `Effect.keeps_coherent`: every other call keeps the map and the lists in step;
* `ghosts_coherent_iff`: they are in step along a run, and every access
  returns, exactly if no miss of the run forgets a ghost.
-/
namespace DbInternals.Buffer.ArcReplacer

/-- The ghost map is the two ghost lists, by status, and no page of an alive frame is a ghost. -/
structure Coherent (r : ArcReplacer) : Prop
    extends Filed .mruGhost .mfuGhost r.ghostMap r.mruGhost r.mfuGhost where
  alive : ∀ f p, r.owner f = some p → r.ghostMap p = none

/-- A pool accesses an alive frame under its page, and another under a page no frame is alive for. -/
def Binds (r : ArcReplacer) : Call → Prop
  | .recordAccess f p => (r.owner f = none ∧ ∀ f', r.owner f' ≠ some p) ∨ r.owner f = some p
  | _ => True

/-- Runs of calls as a pool issues them. -/
def pooled (n : Nat) : LTS ArcReplacer (Call × Option (Nat × Nat)) where
  init r := r = create n
  step r l r' := l.1.Below n ∧ r.Binds l.1 ∧ Ends l.1.run r l.2 r'

/-- The map and the lists are in step, and every access returns. -/
structure Sound (n : Nat) (r : ArcReplacer) : Prop where
  coherent : r.Coherent
  returns : ∀ f p, f < n → r.Binds (.recordAccess f p) → Returns (recordAccess f p) r

/-- The call is a miss that forgets a ghost: the recency lists fill the
capacity, or all lists twice the capacity. -/
def Forgets (n : Nat) (r : ArcReplacer) : Call → Prop
  | .recordAccess f p => r.aliveMap f = none ∧ r.ghostMap p = none ∧
      (r.mru.length + r.mruGhost.length = n ∨ r.total = 2 * n)
  | _ => False

section
variable {r r' : ArcReplacer} {c : Call} {o : Option (Nat × Nat)} {n f p : Nat}
  {l₁ l₂ : List Nat} {g : FrameStatus}

theorem coherent_create (n : Nat) : (create n).Coherent where
  toFiled := .nil _ _
  alive f p h := by cases h

theorem owner_update {x : Option FrameStatus}
    (h : r'.aliveMap = Function.update r.aliveMap f x) :
    r'.owner = Function.update r.owner f (x.map FrameStatus.pageId) := by
  funext c
  rw [owner, h]
  by_cases e : c = f
  · subst e
    simp
  · simp [e, owner]

theorem owner_of (h : r.aliveMap f = some g) : r.owner f = some g.pageId := by
  rw [owner, h]
  rfl

theorem owner_hit (h : r.Counted) {st : FrameStatus} (hst : r.aliveMap f = some st) :
    ((r.without f).withMfu { st with arcStatus := .mfu }).owner = r.owner := by
  obtain ⟨-, hid⟩ := h.lists.alive f st hst
  have hm : ((r.without f).withMfu { st with arcStatus := .mfu }).aliveMap =
      Function.update r.aliveMap f (some { st with arcStatus := .mfu }) := by
    simp [withMfu, without, hid]
  rw [owner_update hm, Option.map_some, ← owner_of hst, Function.update_eq_self]

theorem owner_without (r : ArcReplacer) (f : Nat) :
    (r.without f).owner = Function.update r.owner f none :=
  owner_update (x := none) rfl

theorem owner_withGhost (r : ArcReplacer) (g : FrameStatus) (b : Bool) :
    (r.withGhost g b).owner = r.owner := by
  cases b <;> rfl

/-- No page is bound to two frames. -/
def Distinct (r : ArcReplacer) : Prop :=
  ∀ f f' p, r.owner f = some p → r.owner f' = some p → f = f'

/-- Without the frame, its page is bound to none. -/
theorem Distinct.update_none (h : r.Distinct) (ho : r'.owner = Function.update r.owner f none) :
    r'.Distinct := by
  intro c c' q hc hc'
  rw [ho] at hc hc'
  by_cases e : c = f
  · subst e
    simp at hc
  by_cases e' : c' = f
  · subst e'
    simp at hc'
  rw [Function.update_of_ne e] at hc
  rw [Function.update_of_ne e'] at hc'
  exact h c c' q hc hc'

theorem Distinct.update_some (h : r.Distinct) (hp : ∀ f', r.owner f' ≠ some p)
    (ho : r'.owner = Function.update r.owner f (some p)) : r'.Distinct := by
  intro c c' q hc hc'
  rw [ho] at hc hc'
  by_cases e : c = f
  · subst e
    rw [Function.update_self] at hc
    cases hc
    by_cases e' : c' = c
    · exact e'.symm
    · rw [Function.update_of_ne e'] at hc'
      exact absurd hc' (hp c')
  · rw [Function.update_of_ne e] at hc
    by_cases e' : c' = f
    · subst e'
      rw [Function.update_self] at hc'
      cases hc'
      exact absurd hc (hp c)
    · rw [Function.update_of_ne e'] at hc'
      exact h c c' q hc hc'

/-- What the frames are recorded for after a call of a pool. -/
theorem Effect.owner_cases (h : r.Counted) (hb : r.Binds c) (he : Effect r c o r') :
    r'.owner = r.owner ∨
    (∃ f p, (∀ f', r.owner f' ≠ some p) ∧ r'.owner = Function.update r.owner f (some p)) ∨
    ∃ f, r'.owner = Function.update r.owner f none := by
  have hnew : ∀ {f p}, r.aliveMap f = none → r.Binds (.recordAccess f p) →
      ∀ f', r.owner f' ≠ some p := by
    intro f p hf hb
    obtain hb | hb := hb
    · exact hb.2
    · rw [owner, hf] at hb
      cases hb
  cases he with
  | hit hst => exact .inl (owner_hit h hst)
  | @revive f p t g l₁ l₂ hlt hf hg hl =>
    refine .inr (.inl ⟨f, p, hnew hf hb, ?_⟩)
    exact owner_update (x := some ⟨p, f, false, .mfu⟩) rfl
  | @miss f p l₁ l₂ hlt hf hg hl =>
    refine .inr (.inl ⟨f, p, hnew hf hb, ?_⟩)
    exact owner_update (x := some ⟨p, f, false, .mru⟩) rfl
  | flag => exact .inl (flag_owner _ _ _)
  | @remove f => exact .inr (.inr ⟨f, owner_without r f⟩)
  | kept => exact .inl rfl
  | @evicted f st b =>
    refine .inr (.inr ⟨f, ?_⟩)
    rw [owner_withGhost, owner_without]

theorem Effect.distinct (h : r.Counted) (hd : r.Distinct) (hb : r.Binds c)
    (he : Effect r c o r') : r'.Distinct := by
  obtain ho | ⟨f, p, hp, ho⟩ | ⟨f, ho⟩ := he.owner_cases h hb
  · rw [Distinct, ho]
    exact hd
  · exact hd.update_some hp ho
  · exact hd.update_none ho

/-- No page of an alive frame is a ghost, if that was so and the new page is none. -/
theorem alive_some {m : Nat → Option FrameStatus} {q : Nat} (hm : m p = none)
    (h : ∀ c q, r.owner c = some q → m q = none)
    (hq : Function.update r.owner f (some p) n = some q) : m q = none := by
  by_cases e : n = f
  · subst e
    rw [Function.update_self] at hq
    cases hq
    exact hm
  · rw [Function.update_of_ne e] at hq
    exact h n q hq

/-- A ghost that comes back leaves the map and its list. -/
theorem Coherent.revive (h : r.Coherent) (hl : Loses r p g l₁ l₂) :
    Filed .mruGhost .mfuGhost (Function.update r.ghostMap p none) l₁ l₂ := by
  have hleave := h.toFiled.leave p
  obtain ⟨-, hm, rfl, rfl⟩ | ⟨-, hm, rfl, rfl⟩ := hl
  · rwa [List.erase_of_not_mem (h.toFiled.disjoint (by decide) hm)] at hleave
  · have hn : p ∉ r.mruGhost := fun hm' => h.toFiled.disjoint (by decide) hm' hm
    rwa [List.erase_of_not_mem hn] at hleave

/-- A page that was no ghost becomes the newest of a list. -/
theorem Coherent.withGhost (h : r.Coherent) (hg : r.ghostMap g.pageId = none) (b : Bool) :
    Filed .mruGhost .mfuGhost (r.withGhost g b).ghostMap (r.withGhost g b).mruGhost
      (r.withGhost g b).mfuGhost := by
  cases b with
  | true => exact h.toFiled.enter (by decide) hg rfl
  | false => exact (h.toFiled.symm.enter (by decide) hg rfl).symm

/-- A frame gives its page up. -/
theorem Coherent.without (h : r.Coherent) (f : Nat) : (r.without f).Coherent := by
  refine ⟨h.toFiled, fun c q hq => ?_⟩
  rw [owner_without] at hq
  by_cases e : c = f
  · subst e
    simp at hq
  · rw [Function.update_of_ne e] at hq
    exact h.alive c q hq

/-- Every call but a miss that forgets a ghost keeps the map and the lists in step. -/
theorem Effect.keeps_coherent (h : r.Counted) (hd : r.Distinct) (hc : r.Coherent)
    (he : Effect r c o r') (hf : ¬ Forgets r.replacerSize r c) : r'.Coherent := by
  cases he with
  | @hit f p st hst =>
    refine ⟨hc.toFiled, fun c q hq => ?_⟩
    rw [owner_hit h hst] at hq
    exact hc.alive c q hq
  | @revive f p t g l₁ l₂ hlt hn hg hl =>
    refine ⟨hc.revive hl, fun c q hq => ?_⟩
    rw [owner_update (r := r) (f := f) (x := some ⟨p, f, false, .mfu⟩) rfl] at hq
    refine alive_some (m := Function.update r.ghostMap p none) (by simp) (fun c q hq => ?_) hq
    by_cases e : q = p
    · simp [e]
    · rw [Function.update_of_ne e]
      exact hc.alive c q hq
  | @miss f p l₁ l₂ hlt hn hg hl =>
    obtain ⟨-, hl | hl | hl⟩ := hl
    · exact absurd ⟨hn, hg, .inl hl.1⟩ hf
    · exact absurd ⟨hn, hg, .inr hl.2.1⟩ hf
    obtain ⟨-, -, rfl, rfl⟩ := hl
    refine ⟨hc.toFiled, fun c q hq => ?_⟩
    rw [owner_update (r := r) (f := f) (x := some ⟨p, f, false, .mru⟩) rfl] at hq
    exact alive_some hg hc.alive hq
  | @flag f b =>
    have ho := flag_owner r f b
    have hm := flag_ghostMap r f b
    obtain ⟨m, k, he⟩ := flag_lists r f b
    rw [he] at ho hm ⊢
    refine ⟨hc.toFiled, fun c q hq => ?_⟩
    rw [ho] at hq
    exact hc.alive c q hq
  | @remove f => exact hc.without f
  | kept => exact hc
  | @evicted f st b hst hev hm =>
    have hw := hc.without f
    have hnot := hc.alive f st.pageId (owner_of hst)
    refine ⟨hw.withGhost (g := { st with frameId := INVALID_FRAME_ID }) hnot b, fun c q hq => ?_⟩
    rw [owner_withGhost, owner_without] at hq
    by_cases e : c = f
    · subst e
      simp at hq
    rw [Function.update_of_ne e] at hq
    -- another frame has another page
    have hne : q ≠ st.pageId := by
      intro e'
      subst e'
      exact e (hd c f _ hq (owner_of hst))
    have hgm : ((r.without f).withGhost { st with frameId := INVALID_FRAME_ID } b).ghostMap q =
        r.ghostMap q := by
      cases b <;> exact Function.update_of_ne hne _ _
    rw [hgm]
    exact hc.alive c q hq

/-- A miss that forgets a ghost leaves it in the map. -/
theorem Effect.not_coherent (hc : r.Coherent) (he : Effect r c o r')
    (hf : Forgets r.replacerSize r c) : ¬ r'.Coherent := by
  have hlast : ∀ {l : List Nat}, l ≠ [] → l.Nodup → ∃ q ∈ l, q ∉ l.dropLast := by
    intro l hne hn
    refine ⟨l.getLast hne, List.getLast_mem hne, fun hm => ?_⟩
    rw [← List.dropLast_append_getLast hne] at hn
    exact (List.nodup_append.mp hn).2.2 _ hm _ (by simp) rfl
  cases he with
  | @miss f p l₁ l₂ hlt hn hg hl =>
    intro hc'
    obtain ⟨-, -, hfull⟩ := hf
    obtain ⟨-, ⟨-, hne, rfl, rfl⟩ | ⟨-, -, hne, rfl, rfl⟩ | ⟨h₁, h₂, -⟩⟩ := hl
    · obtain ⟨q, hq, hnq⟩ := hlast hne hc.nodup_fst
      exact hnq ((hc'.mem_fst q).mpr ((hc.mem_fst q).mp hq))
    · obtain ⟨q, hq, hnq⟩ := hlast hne hc.nodup_snd
      exact hnq ((hc'.mem_snd q).mpr ((hc.mem_snd q).mp hq))
    · obtain hfull | hfull := hfull
      · exact h₁ hfull
      · exact h₂ hfull
  | hit hst => cases hst.symm.trans hf.1
  | revive _ _ hg => cases hg.symm.trans hf.2.1
  | _ => exact hf.elim

/-- What a run of a pool keeps until it forgets a ghost. -/
structure InStep (n : Nat) (r : ArcReplacer) : Prop where
  counted : r.Counted
  bounded : r.Bounded
  distinct : r.Distinct
  coherent : r.Coherent
  size : r.replacerSize = n

theorem InStep.create (n : Nat) : InStep n (create n) where
  counted := counted_create n
  bounded := bounded_create n
  distinct f f' p h := by cases h
  coherent := coherent_create n
  size := rfl

theorem InStep.valid (h : InStep n r) : r.Valid where
  mem_mru := h.counted.lists.mem_fst
  mem_mfu := h.counted.lists.mem_snd
  nodup_mru := h.counted.lists.nodup_fst
  nodup_mfu := h.counted.lists.nodup_snd
  alive := h.counted.lists.alive_status
  ghost p g hg := by
    obtain hs | hs := h.coherent.status p g hg
    · exact .inl ⟨hs, (h.coherent.mem_fst p).mpr ⟨g, hg, hs⟩⟩
    · exact .inr ⟨hs, (h.coherent.mem_snd p).mpr ⟨g, hg, hs⟩⟩
  mruSize := h.counted.mruSize
  mfuSize := h.counted.mfuSize
  mruGhostSize := h.counted.mruGhostSize
  mfuGhostSize := h.counted.mfuGhostSize
  fits := h.bounded.mru

theorem InStep.sound (h : InStep n r) : Sound n r where
  coherent := h.coherent
  returns f p hf _ := h.valid.recordAccess (by rw [h.size]; exact hf) p

theorem InStep.step {l : Call × Option (Nat × Nat)} (h : InStep n r) (hs : (pooled n).step r l r')
    (hf : ¬ Forgets n r l.1) : InStep n r' := by
  obtain ⟨hbelow, hbinds, hends⟩ := hs
  obtain ⟨hc, hb, hd, hg, rfl⟩ := h
  have he := hc.effect hbelow hends
  exact ⟨he.counted hc, he.bounded hc hb, he.distinct hc hd hbinds, he.keeps_coherent hc hd hg hf,
    he.replacerSize⟩

/-- The ghost map and the ghost lists are in step along a run and every access
returns, exactly if no access of the run is a miss that forgets a ghost. -/
theorem ghosts_coherent_iff {tr : List (ArcReplacer × (Call × Option (Nat × Nat)) × ArcReplacer)}
    (h : (pooled n).Path (create n) tr) : LTS.Always (Sound n) (create n) tr ↔
      LTS.Meets (fun r l => ¬ Forgets n r l.1) tr := by
  constructor
  · intro ha
    refine h.meets (P := Sound n) (I := InStep n) ?_ ?_ (.create n) ha.2
    · intro r l r' hi hs hp hf
      obtain ⟨hbelow, -, hends⟩ := hs
      obtain ⟨hc, -, -, hg, rfl⟩ := hi
      exact (hc.effect hbelow hends).not_coherent hg hf hp.coherent
    · intro r l r' hi hs hf
      exact hi.step hs hf
  · intro hm
    have hi := h.always (I := InStep n) (fun r l r' hi hs hf => hi.step hs hf) (.create n) hm
    exact ⟨hi.1.sound, fun x hx => (hi.2 x hx).sound⟩

/-- One frame: page 1 is evicted, the miss on page 2 forgets its ghost, page 2
is evicted, and page 1 is accessed again. -/
theorem forgetting : ∃ s₁ s₂ s₃ s₄ s₅ s₆, (pooled 1).Path (create 1)
    [(create 1, (.recordAccess 0 1, none), s₁), (s₁, (.setEvictable 0 true, none), s₂),
      (s₂, (.evict, some (1, 0)), s₃), (s₃, (.recordAccess 0 2, none), s₄),
      (s₄, (.setEvictable 0 true, none), s₅), (s₅, (.evict, some (2, 0)), s₆)] ∧
    Forgets 1 s₃ (.recordAccess 0 2) ∧ s₆.Binds (.recordAccess 0 1) ∧
    ∃ r', recordAccess 0 1 s₆ =
      .error (.aborted "page_id 1 marked MRU_GHOST in ghost_map_ but not found in mru_ghost_") r' := by
  have hfree : ∀ {r : ArcReplacer} (p : Nat), r.owner = (fun _ => none) →
      r.Binds (.recordAccess 0 p) := by
    intro r p ho
    refine .inl ⟨?_, fun f' => ?_⟩
    · rw [ho]
    · rw [ho]
      simp
  refine ⟨_, _, _, _, _, _, .cons ⟨Nat.one_pos, hfree 1 rfl, rfl⟩
    (.cons ⟨Nat.one_pos, trivial, rfl⟩ (.cons ⟨trivial, trivial, rfl⟩
    (.cons ⟨Nat.one_pos, hfree 2 ?_, rfl⟩ (.cons ⟨Nat.one_pos, trivial, rfl⟩
    (.cons ⟨trivial, trivial, rfl⟩ (.nil _)))))), ?_, ?_, _, rfl⟩
  · funext f
    by_cases e : f = 0 <;> simp [owner, toGhost, flag_aliveMap, create, e]
  · exact ⟨rfl, rfl, .inl rfl⟩
  · apply hfree
    funext f
    by_cases e : f = 0 <;> simp [owner, toGhost, flag_aliveMap, create, e]

/-- The map and the lists are not in step along every run of a pool. -/
theorem ghosts_not_coherent : ¬ ∀ n, 1 ≤ n → ∀ tr, (pooled n).Path (create n) tr →
    LTS.Always (Sound n) (create n) tr := by
  intro h
  obtain ⟨s₁, s₂, s₃, s₄, s₅, s₆, hpath, -, hb, r', he⟩ := forgetting
  obtain ⟨-, hs⟩ := h 1 le_rfl _ hpath
  obtain ⟨_, r'', hr⟩ := (hs (s₅, (.evict, some (2, 0)), s₆) (by simp)).returns 0 1 Nat.one_pos hb
  cases he.symm.trans hr

/-- The run with the forgotten ghost is not sound throughout. -/
theorem ghosts_coherent_iff_forgetting : ∃ tr, (pooled 1).Path (create 1) tr ∧
    ¬ LTS.Always (Sound 1) (create 1) tr := by
  obtain ⟨s₁, s₂, s₃, s₄, s₅, s₆, hpath, hf, -⟩ := forgetting
  refine ⟨_, hpath, fun ha => ?_⟩
  exact (ghosts_coherent_iff hpath).mp ha (s₃, (.recordAccess 0 2, none), s₄) (by simp) hf

end

end DbInternals.Buffer.ArcReplacer
