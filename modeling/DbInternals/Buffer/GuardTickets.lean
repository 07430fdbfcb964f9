import DbInternals.Buffer.GuardDrops
import DbInternals.Core.LTS
import DbInternals.Core.Ownership

/-!
# Guards own their latch and their pin

The tickets of valid guards are owned tokens: construction acquires one, a move
transfers it, `Drop` and the destructor release it, and an assignment releases the
ticket of its target first (`Op.actions`).

Results:
* `Tracks.step`: every member of the two classes does to the guards what its actions
  do to the tickets;
* `Tracks.throws`: no member unlocks a latch that is not held;
* `guards_linear`: over any program, latches count the valid guards, and each guard
  gives its pin back exactly once.
-/
namespace DbInternals.Buffer.PageGuards

/-! ## Tickets -/

section
variable {V : Type} {p p' : Program V} {w : Kind × V} {g : PageGuard} {f : Nat}
  {o : Owners (Kind × V)} {k : Kind} {u v : V} {e : Fault}

/-- The ticket of a valid guard. -/
def Program.ticket (p : Program V) (w : Kind × V) : Option Nat :=
  (p.guards w).bind fun g => if g.isValid then some g.ticket else none

/-- The ticket is of a guard of class `k` on the frame. -/
def Program.On (p : Program V) (k : Kind) (f t : Nat) : Prop := p.built[t]? = some (k, f)

instance (p : Program V) (k : Kind) (f t : Nat) : Decidable (p.On k f t) :=
  inferInstanceAs (Decidable (p.built[t]? = some (k, f)))

/-- The pointers of a valid guard are set. -/
structure Whole (p : Program V) (w : Kind × V) (g : PageGuard) : Prop where
  frame : ∃ f, g.frame = some f ∧ p.On w.1 f g.ticket
  replacer : g.replacer.isSome
  bpmLatch : g.bpmLatch.isSome

/-- The guards hold the tickets as the owners do, and the latches count them. -/
structure Tracks (p : Program V) (o : Owners (Kind × V)) : Prop where
  held : ∀ w, o.held w = p.ticket w
  issued : o.issued = p.built.length
  unpins : p.unpins.map Prod.fst = o.ended
  frames : ∀ x ∈ p.unpins, ∃ k, p.On k x.2 x.1
  whole : ∀ w g, p.guards w = some g → g.isValid = true → Whole p w g
  latches : ∀ k f, (o.holding (p.On k f)).encard = (p.frames f).rwlatch.holds k
  mutexes : ∀ m, p.mutexes m = false
  exact : o.Exact

theorem ticket_none (h : p.guards w = none) : p.ticket w = none := by
  rw [Program.ticket, h, Option.bind_none]

theorem ticket_some (h : p.guards w = some g) :
    p.ticket w = if g.isValid then some g.ticket else none := by
  rw [Program.ticket, h, Option.bind_some]

theorem Program.Fresh.tracks (h : p.Fresh) : Tracks p Owners.empty where
  held := fun w => (ticket_none (h.guards w)).symm
  issued := by rw [h.built]; rfl
  unpins := by rw [h.unpins]; rfl
  frames := by simp [h.unpins]
  whole := by simp [h.guards]
  latches := by
    intro k f
    have he : (Owners.empty (W := Kind × V)).holding (p.On k f) = ∅ := by
      simp [Owners.holding, Owners.empty]
    rw [he, Set.encard_empty, h.latches f]
    cases k <;> rfl
  mutexes := h.mutexes
  exact := Owners.exact_empty

/-- The valid guards of a class that refer to the frame. -/
def Program.valid (p : Program V) (k : Kind) (f : Nat) : Set V :=
  {v | ∃ g, p.guards (k, v) = some g ∧ g.isValid = true ∧ g.frame = some f}

/-- The pin of the guard with the ticket has been given back: where, and how often. -/
def Program.unpinsOf (p : Program V) (t : Nat) : List Nat :=
  (p.unpins.filter fun x => x.1 = t).map Prod.snd

variable [DecidableEq V]

/-- What a use of a guard variable does to the tickets. -/
def Op.actions : Op V → List (Owners.Action (Kind × V))
  | .construct k v .. => [.acquire (k, v)]
  | .default .. => []
  | .moveConstruct k v u => [.transfer (k, v) (k, u)]
  | .moveAssign k v u => if v = u then [] else [.release (k, v), .transfer (k, v) (k, u)]
  | .drop k v => [.release (k, v)]
  | .destroy k v => [.release (k, v)]
  | .pin _ => []

/-- An assignment that changes no valid guard. -/
theorem Tracks.store (h : Tracks p o) {g : Option PageGuard} (hw : p.ticket w = none)
    (hg : ∀ g' ∈ g, g'.isValid = false) :
    Tracks { p with guards := Function.update p.guards w g } o where
  held := by
    intro u
    rw [h.held u]
    simp only [Program.ticket, Function.update_apply] at hw ⊢
    split
    · subst u
      rw [hw]
      cases g with
      | none => rfl
      | some g => simp [hg g rfl]
    · rfl
  issued := h.issued
  unpins := h.unpins
  frames := h.frames
  whole := by
    intro u g' hu hv
    simp only [Function.update_apply] at hu
    split at hu
    · rw [hg g' hu] at hv
      cases hv
    · obtain ⟨hf, hr, hb⟩ := h.whole u g' hu hv
      exact ⟨hf, hr, hb⟩
  latches := h.latches
  mutexes := h.mutexes
  exact := h.exact

theorem Kind.unlock_ends {m m' : SharedMutex} (h : Ends k.unlock m () m') (k' : Kind) :
    m.holds k' = m'.holds k' + if k' = k then 1 else 0 := by
  cases k with
  | read => exact SharedMutex.unlockShared_ends h k'
  | write => exact SharedMutex.unlock_ends h k'

/-- A valid guard gives back its ticket. -/
theorem Tracks.released (h : Tracks p o) (hg : p.guards w = some g) (hv : g.isValid = true)
    (hf : g.frame = some f) {m : SharedMutex} (hm : Ends w.1.unlock (p.frames f).rwlatch () m)
    (rs : Nat → ArcReplacer) :
    Tracks { p.released g f m rs with guards := Function.update p.guards w (some g.cleared) }
      (o.act (.release w)) := by
  obtain ⟨f', hf', hon⟩ := (h.whole w g hg hv).frame
  obtain rfl : f' = f := by
    rw [hf'] at hf
    exact Option.some.inj hf
  have hw : o.held w = some g.ticket := by
    rw [h.held w, ticket_some hg, hv]
    rfl
  refine
    { held := ?_, issued := h.issued, unpins := ?_, frames := ?_, whole := ?_, latches := ?_
      mutexes := h.mutexes, exact := h.exact.release w }
  · intro u
    simp only [Owners.act, Program.ticket, Function.update_apply]
    split
    · rfl
    · exact h.held u
  · simp only [Program.released, Owners.act, List.map_append, h.unpins, hw]
    rfl
  · intro x hx
    simp only [Program.released, List.mem_append, List.mem_singleton] at hx
    cases hx with
    | inl hx => exact h.frames x hx
    | inr hx => subst x; exact ⟨w.1, hon⟩
  · intro u g' hu hv'
    simp only [Function.update_apply] at hu
    split at hu
    · cases hu
      cases hv'
    · obtain ⟨hf, hr, hb⟩ := h.whole u g' hu hv'
      exact ⟨hf, hr, hb⟩
  · intro k f
    have hc := Owners.encard_release_some hw (P := p.On k f)
    rw [h.latches k f] at hc
    have hm' := Kind.unlock_ends hm k
    have hon' : p.On k f g.ticket ↔ f = f' ∧ k = w.1 := by
      rw [Program.On, show p.built[g.ticket]? = some (w.1, f') from hon]
      grind
    rw [if_congr hon' rfl rfl] at hc
    change ((o.act (.release w)).holding (p.On k f)).encard = _
    by_cases hff : f = f'
    · subst hff
      simp only [Function.update_self, Program.released, true_and] at hc ⊢
      rw [hm'] at hc
      split at hc
      · rw [Nat.cast_add, Nat.cast_one] at hc
        exact (ENat.add_left_injective_of_ne_top ENat.one_ne_top hc).symm
      · simpa using hc.symm
    · simp only [Program.released, Function.update_of_ne hff]
      simpa [hff] using hc.symm

theorem Tracks.dropped (h : Tracks p o) (hd : Dropped p w p') :
    Tracks p' (o.act (.release w)) := by
  obtain ⟨g, hg, ⟨hv, rfl⟩ | ⟨hv, f, m, rs, hf, hm, rfl⟩⟩ := hd
  · have hw : o.held w = none := by
      rw [h.held w, ticket_some hg, hv]
      rfl
    rwa [Owners.act_release_none hw]
  · exact h.released hg hv hf hm rs

/-! ## Construction and moves -/

theorem takeOver_ends (h : Ends (takeOver k v u) p () p') : ∃ g, p.guards (k, u) = some g ∧
    p' = { p with guards :=
      Function.update (Function.update p.guards (k, v) (some g)) (k, u) (some g.cleared) } := by
  obtain ⟨g, p₁, hl, h₁⟩ := Ends.bind_iff.mp h
  obtain ⟨hg, e₁⟩ := load_ends hl
  subst p₁
  cases h₁
  exact ⟨g, hg, rfl⟩

theorem Tracks.takeOver (h : Tracks p o) (hv : p.ticket (k, v) = none) (hne : v ≠ u)
    (he : Ends (takeOver k v u) p () p') : Tracks p' (o.act (.transfer (k, v) (k, u))) := by
  obtain ⟨g, hg, rfl⟩ := takeOver_ends he
  have hne' : (k, v) ≠ (k, u) := by simpa using hne
  have hnone : o.held (k, v) = none := by rw [h.held, hv]
  refine
    { held := ?_, issued := h.issued, unpins := h.unpins, frames := h.frames, whole := ?_
      latches := ?_, mutexes := h.mutexes, exact := h.exact.transfer hnone hne' }
  · intro w
    simp only [Owners.act, Program.ticket, Function.update_apply]
    split
    · rfl
    split
    · rw [h.held (k, u), ticket_some hg]
      rfl
    · exact h.held w
  · intro w g' hw hv'
    simp only [Function.update_apply] at hw
    split at hw
    · cases hw
      cases hv'
    split at hw
    · cases hw
      subst w
      obtain ⟨hf, hr, hb⟩ := h.whole (k, u) g hg hv'
      exact ⟨hf, hr, hb⟩
    · obtain ⟨hf, hr, hb⟩ := h.whole w g' hw hv'
      exact ⟨hf, hr, hb⟩
  · intro k' f
    rw [Owners.encard_transfer hnone hne']
    exact h.latches k' f

theorem construct_ends {lock : EStateM Fault SharedMutex Unit}
    {pageId replacer bpmLatch diskScheduler : Nat}
    (h : Ends (construct k lock v pageId f replacer bpmLatch diskScheduler) p () p') :
    ∃ m, Ends lock (p.frames f).rwlatch () m ∧
      p' = { p with
        frames := Function.update p.frames f { p.frames f with rwlatch := m }
        built := p.built ++ [(k, f)]
        guards := Function.update p.guards (k, v) (some
          { pageId, frame := some f, replacer := some replacer, bpmLatch := some bpmLatch
            diskScheduler := some diskScheduler, isValid := true, ticket := p.built.length }) } := by
  obtain ⟨_, p₁, hl, h₁⟩ := Ends.bind_iff.mp h
  obtain ⟨m, hm, e₁⟩ := onLatch_ends hl
  subst p₁
  cases h₁
  exact ⟨m, hm, rfl⟩

/-- A new guard, its latch just taken. -/
theorem Tracks.construct (h : Tracks p o) (hv : p.guards (k, v) = none)
    {lock : EStateM Fault SharedMutex Unit}
    (hlock : ∀ m m', Ends lock m () m' → ∀ k', m'.holds k' = m.holds k' + if k' = k then 1 else 0)
    {pageId replacer bpmLatch diskScheduler : Nat}
    (he : Ends (construct k lock v pageId f replacer bpmLatch diskScheduler) p () p') :
    Tracks p' (o.act (.acquire (k, v))) := by
  obtain ⟨m, hm, rfl⟩ := construct_ends he
  have hnone : o.held (k, v) = none := by rw [h.held, ticket_none hv]
  have hold : ∀ {k' f' t}, p.On k' f' t → (p.built ++ [(k, f)])[t]? = some (k', f') := by
    intro k' f' t ht
    obtain ⟨hlt, -⟩ := List.getElem?_eq_some_iff.mp ht
    rw [List.getElem?_append_left hlt]
    exact ht
  refine
    { held := ?_, issued := ?_, unpins := h.unpins, frames := ?_, whole := ?_, latches := ?_
      mutexes := h.mutexes, exact := h.exact.acquire hnone }
  · intro w
    simp only [Owners.act, Program.ticket, Function.update_apply, h.issued]
    split
    · rfl
    · exact h.held w
  · simp [Owners.act, h.issued]
  · intro x hx
    obtain ⟨k', hk'⟩ := h.frames x hx
    exact ⟨k', hold hk'⟩
  · intro w g hw hg
    simp only [Function.update_apply] at hw
    split at hw
    · cases hw
      subst w
      exact ⟨⟨f, rfl, List.getElem?_concat_length⟩, rfl, rfl⟩
    · obtain ⟨⟨f', hf', hon⟩, hr, hb⟩ := h.whole w g hw hg
      exact ⟨⟨f', hf', hold hon⟩, hr, hb⟩
  · intro k' f'
    -- the tickets already out are on the same frames as before
    have hsame : o.holding (fun t => (p.built ++ [(k, f)])[t]? = some (k', f'))
        = o.holding (p.On k' f') := by
      ext w
      constructor
      · rintro ⟨t, ht, hon⟩
        rw [List.getElem?_append_left (h.issued ▸ h.exact.below w t ht)] at hon
        exact ⟨t, ht, hon⟩
      · rintro ⟨t, ht, hon⟩
        exact ⟨t, ht, hold hon⟩
    have hc := Owners.encard_acquire hnone
      (P := fun t => (p.built ++ [(k, f)])[t]? = some (k', f'))
    rw [hsame, h.latches k' f', h.issued, List.getElem?_concat_length] at hc
    refine hc.trans ?_
    by_cases hff : f' = f
    · subst hff
      simp only [Function.update_self, hlock _ _ hm k']
      by_cases hk : k' = k
      · simp [hk]
      · simp [hk, Ne.symm hk]
    · simp [Function.update_of_ne hff, Ne.symm hff]

theorem pin_ends (h : Ends (Op.pin f : Op V).run p () p') : p' = { p with
    frames := Function.update p.frames f
      { p.frames f with toFrameHeader := (p.frames f).toFrameHeader.pinned } } := by
  cases h
  rfl

theorem Tracks.pin (h : Tracks p o) (he : Ends (Op.pin f : Op V).run p () p') : Tracks p' o := by
  obtain rfl := pin_ends he
  refine
    { held := h.held, issued := h.issued, unpins := h.unpins, frames := h.frames, whole := ?_
      latches := ?_, mutexes := h.mutexes, exact := h.exact }
  · intro w g hw hv
    obtain ⟨hf, hr, hb⟩ := h.whole w g hw hv
    exact ⟨hf, hr, hb⟩
  · intro k f'
    refine (h.latches k f').trans ?_
    by_cases hff : f' = f
    · subst hff
      simp only [Function.update_self]
    · simp only [Function.update_of_ne hff]

/-! ## One use of a guard variable -/

theorem moveAssign_ends (h : Ends (moveAssign k k.drop v u) p () p') :
    v = u ∧ p' = p ∨ v ≠ u ∧ ∃ p₁, Dropped p (k, v) p₁ ∧ Ends (takeOver k v u) p₁ () p' := by
  obtain ⟨hc, h₁⟩ | ⟨hc, h₁⟩ := h.ite
  · cases h₁
    exact .inl ⟨hc, rfl⟩
  · obtain ⟨_, p₁, hd, h₂⟩ := Ends.bind_iff.mp h₁
    exact .inr ⟨hc, p₁, drop_ends k hd, h₂⟩

theorem destroy_ends (h : Ends (destroy k k.drop v) p () p') : ∃ p₁, Dropped p (k, v) p₁ ∧
    p' = { p₁ with guards := Function.update p₁.guards (k, v) none } := by
  obtain ⟨_, p₁, hd, h₁⟩ := Ends.bind_iff.mp h
  exact ⟨p₁, drop_ends k hd, store_ends h₁⟩

/-- After a release the variable holds no ticket. -/
theorem Tracks.ticket_none (h : Tracks p (o.act (.release w))) : p.ticket w = none := by
  rw [← h.held w]
  exact Function.update_self ..

theorem Tracks.step {l : Op V} (h : Tracks p o) (hl : p.Legal l) (he : Ends l.run p () p') :
    Tracks p' (o.run l.actions) := by
  cases l with
  | construct k v =>
    cases k with
    | read => exact h.construct hl (fun _ _ => SharedMutex.lockShared_ends) he
    | write => exact h.construct hl (fun _ _ => SharedMutex.lock_ends) he
  | default k v =>
    have he' : Ends (defaultConstruct k v) p () p' := by cases k <;> exact he
    rw [store_ends he']
    exact h.store (PageGuards.ticket_none hl) (by simp)
  | moveConstruct k v u =>
    have he' : Ends (PageGuards.takeOver k v u) p () p' := by cases k <;> exact he
    have hne : v ≠ u := by
      rintro rfl
      obtain ⟨hn, hs⟩ := hl
      simp [hn] at hs
    exact h.takeOver (PageGuards.ticket_none hl.1) hne he'
  | moveAssign k v u =>
    have he' : Ends (moveAssign k k.drop v u) p () p' := by cases k <;> exact he
    obtain ⟨rfl, rfl⟩ | ⟨hne, p₁, hd, ht⟩ := moveAssign_ends he'
    · simpa [Op.actions] using h
    · have h₁ := h.dropped hd
      rw [Op.actions, if_neg hne]
      exact h₁.takeOver h₁.ticket_none hne ht
  | drop k v =>
    have he' : Ends (k.drop v) p () p' := by cases k <;> exact he
    exact h.dropped (drop_ends k he')
  | destroy k v =>
    have he' : Ends (destroy k k.drop v) p () p' := by cases k <;> exact he
    obtain ⟨p₁, hd, rfl⟩ := destroy_ends he'
    have h₁ := h.dropped hd
    exact h₁.store h₁.ticket_none (by simp)
  | pin f => exact h.pin he

/-! ## Pins -/

/-- The frame the pool takes a pin of. -/
def Op.pinned : Op V → Option Nat
  | .pin f => some f
  | _ => none

/-- The pins of a frame, given back or not. -/
def Program.pins (p : Program V) (f : Nat) : Nat :=
  ((p.frames f).pinCount + (p.unpins.map Prod.snd).count f) % 2 ^ 64

theorem sizeDec_succ_mod (n c : Nat) : (sizeDec n + (c + 1)) % 2 ^ 64 = (n + c) % 2 ^ 64 := by
  unfold sizeDec
  split <;> omega

theorem Dropped.pins (h : Dropped p w p') (f : Nat) : p'.pins f = p.pins f := by
  obtain ⟨g, hg, ⟨hv, rfl⟩ | ⟨hv, f', m, rs, hf, hm, rfl⟩⟩ := h
  · rfl
  · by_cases hff : f = f'
    · subst hff
      simp only [Program.pins, Program.released, Function.update_self, List.map_append,
        List.count_append, List.map_cons, List.map_nil, List.count_singleton_self]
      exact sizeDec_succ_mod _ _
    · simp [Program.pins, Program.released, Function.update_of_ne hff, Ne.symm hff]

/-- The guard a construction builds. -/
def Op.built : Op V → Option (Kind × Nat)
  | .construct k _ _ f .. => some (k, f)
  | _ => none

theorem Dropped.built (h : Dropped p w p') : p'.built = p.built := by
  obtain ⟨g, -, ⟨-, rfl⟩ | ⟨-, f, m, rs, -, -, rfl⟩⟩ := h
  · rfl
  · rfl

/-- Only constructions add guards, and only the pool adds pins. -/
theorem run_counts {l : Op V} (he : Ends l.run p () p') : p'.built = p.built ++ l.built.toList ∧
    ∀ f, p'.pins f = (p.pins f + l.pinned.toList.count f) % 2 ^ 64 := by
  have hmod : ∀ f, p.pins f % 2 ^ 64 = p.pins f := fun f => Nat.mod_mod _ _
  have hnil : p.built ++ [] = p.built := List.append_nil _
  cases l with
  | construct k v pageId f' replacer bpmLatch diskScheduler =>
    have he' : ∃ lock, Ends (construct k lock v pageId f' replacer bpmLatch diskScheduler)
        p () p' := by
      cases k <;> exact ⟨_, he⟩
    obtain ⟨lock, he'⟩ := he'
    obtain ⟨m, -, rfl⟩ := construct_ends he'
    refine ⟨rfl, fun f => Eq.trans ?_ (hmod f).symm⟩
    by_cases hff : f = f'
    · subst hff
      simp [Program.pins]
    · simp [Program.pins, Function.update_of_ne hff]
  | default k v =>
    have he' : Ends (defaultConstruct k v) p () p' := by cases k <;> exact he
    rw [store_ends he']
    exact ⟨hnil.symm, fun f => (hmod f).symm⟩
  | moveConstruct k v u =>
    have he' : Ends (takeOver k v u) p () p' := by cases k <;> exact he
    obtain ⟨g, -, rfl⟩ := takeOver_ends he'
    exact ⟨hnil.symm, fun f => (hmod f).symm⟩
  | moveAssign k v u =>
    have he' : Ends (moveAssign k k.drop v u) p () p' := by cases k <;> exact he
    obtain ⟨rfl, rfl⟩ | ⟨hne, p₁, hd, ht⟩ := moveAssign_ends he'
    · exact ⟨hnil.symm, fun f => (hmod f).symm⟩
    · obtain ⟨g, -, rfl⟩ := takeOver_ends ht
      exact ⟨hd.built.trans hnil.symm, fun f => (hd.pins f).trans (hmod f).symm⟩
  | drop k v =>
    have he' : Ends (k.drop v) p () p' := by cases k <;> exact he
    have hd := drop_ends k he'
    exact ⟨hd.built.trans hnil.symm, fun f => (hd.pins f).trans (hmod f).symm⟩
  | destroy k v =>
    have he' : Ends (destroy k k.drop v) p () p' := by cases k <;> exact he
    obtain ⟨p₁, hd, rfl⟩ := destroy_ends he'
    exact ⟨hd.built.trans hnil.symm, fun f => (hd.pins f).trans (hmod f).symm⟩
  | pin f' =>
    obtain rfl := pin_ends he
    refine ⟨hnil.symm, fun f => ?_⟩
    by_cases hff : f = f'
    · subst hff
      simp [Program.pins, Op.pinned, FrameHeader.pinned]
      omega
    · simp [Program.pins, Op.pinned, Function.update_of_ne hff, Ne.symm hff]

/-! ## What a use can throw -/

omit [DecidableEq V] in
/-- A valid guard is counted by its latch. -/
theorem Tracks.droppable (h : Tracks p o) (hw : p.guards w = some g) : Droppable p w g where
  guard := hw
  mutexes := h.mutexes
  bpmLatch := fun hv => (h.whole w g hw hv).bpmLatch
  replacer := fun hv => (h.whole w g hw hv).replacer
  held := by
    intro hv
    obtain ⟨f, hf, hon⟩ := (h.whole w g hw hv).frame
    refine ⟨f, hf, ?_⟩
    intro h0
    have hc := h.latches w.1 f
    rw [h0, Nat.cast_zero, Set.encard_eq_zero] at hc
    have ht : o.held w = some g.ticket := by
      rw [h.held w, ticket_some hw, hv]
      rfl
    have hmem : w ∈ o.holding (p.On w.1 f) := ⟨g.ticket, ht, hon⟩
    rw [hc] at hmem
    exact hmem

/-- A use of a guard variable stops only to wait for the latch of a guard under construction,
or because the replacer aborts. -/
theorem Tracks.throws {l : Op V} (h : Tracks p o) (hl : p.Legal l) (ht : Throws l.run p e p') :
    e = .waits ∨ Aborts e := by
  cases l with
  | construct k v pageId f replacer bpmLatch diskScheduler =>
    have ht' : ∃ lock, (∀ m e m', Throws lock m e m' → e = .waits) ∧
        Throws (PageGuards.construct k lock v pageId f replacer bpmLatch diskScheduler) p e p' := by
      cases k with
      | read => exact ⟨_, fun _ _ _ => SharedMutex.lockShared_throws, ht⟩
      | write => exact ⟨_, fun _ _ _ => SharedMutex.lock_throws, ht⟩
    obtain ⟨lock, hlock, ht'⟩ := ht'
    obtain h₁ | ⟨_, _, -, h₁⟩ := Throws.bind_iff.mp ht'
    · obtain ⟨m, h₁⟩ := onLatch_throws h₁
      exact .inl (hlock _ _ _ h₁)
    · cases h₁
  | default k v => cases k <;> cases ht
  | moveConstruct k v u =>
    have ht' : Throws (PageGuards.takeOver k v u) p e p' := by cases k <;> exact ht
    exact absurd ht' (takeOver_throws hl.2)
  | moveAssign k v u =>
    have ht' : Throws (moveAssign k k.drop v u) p e p' := by cases k <;> exact ht
    obtain ⟨-, h₁⟩ | ⟨hne, h₁⟩ := ht'.ite
    · cases h₁
    obtain ⟨g, hg⟩ := Option.isSome_iff_exists.mp hl.1
    obtain h₂ | ⟨_, p₁, hd, h₂⟩ := Throws.bind_iff.mp h₁
    · exact .inr (drop_throws k (h.droppable hg) h₂)
    · have hne' : (k, u) ≠ (k, v) := by simpa using Ne.symm hne
      refine absurd h₂ (takeOver_throws ?_)
      rw [(drop_ends k hd).guards hne']
      exact hl.2
  | drop k v =>
    have ht' : Throws (k.drop v) p e p' := by cases k <;> exact ht
    obtain ⟨g, hg⟩ := Option.isSome_iff_exists.mp hl
    exact .inr (drop_throws k (h.droppable hg) ht')
  | destroy k v =>
    have ht' : Throws (destroy k k.drop v) p e p' := by cases k <;> exact ht
    obtain ⟨g, hg⟩ := Option.isSome_iff_exists.mp hl
    obtain h₁ | ⟨_, _, -, h₁⟩ := Throws.bind_iff.mp ht'
    · exact .inr (drop_throws k (h.droppable hg) h₁)
    · cases h₁
  | pin f => cases ht

/-! ## Whole programs -/

/-- The tickets after the uses `ls`. -/
def owners (ls : List (Op V)) : Owners (Kind × V) := Owners.empty.run (ls.flatMap Op.actions)

theorem owners_append (ls : List (Op V)) (l : Op V) :
    owners (ls ++ [l]) = (owners ls).run l.actions := by
  simp [owners, Owners.run_append]

theorem exec_tracks {p₀ : Program V} (h₀ : p₀.Fresh) {ls : List (Op V)}
    (h : (programs p₀).Exec ls p) : Tracks p (owners ls) := by
  induction h with
  | nil hp =>
    obtain rfl := hp
    exact h₀.tracks
  | snoc _ hs ih =>
    rw [owners_append]
    exact ih.step hs.1 hs.2

theorem exec_built {p₀ : Program V} (h₀ : p₀.Fresh) {ls : List (Op V)}
    (h : (programs p₀).Exec ls p) : p.built = ls.filterMap Op.built := by
  induction h with
  | nil hp =>
    obtain rfl := hp
    exact h₀.built
  | @snoc ls p p' l _ hs ih =>
    rw [(run_counts hs.2).1, ih, List.filterMap_append]
    cases hl : l.built <;> simp [hl]

theorem exec_pins {p₀ : Program V} {ls : List (Op V)} (h : (programs p₀).Exec ls p) (f : Nat) :
    p.pins f = (p₀.pins f + (ls.filterMap Op.pinned).count f) % 2 ^ 64 := by
  induction h with
  | nil hp =>
    obtain rfl := hp
    exact (Nat.mod_mod _ _).symm
  | @snoc ls p p' l _ hs ih =>
    have hl : [l].filterMap Op.pinned = l.pinned.toList := by
      cases hp : l.pinned <;> simp [hp]
    rw [(run_counts hs.2).2 f, ih, List.filterMap_append, List.count_append, hl, Nat.mod_add_mod,
      Nat.add_assoc]

omit [DecidableEq V] in
/-- The places that hold a ticket of the class and frame are its valid guards. -/
theorem Tracks.encard_valid (h : Tracks p o) (k : Kind) (f : Nat) :
    (p.valid k f).encard = (p.frames f).rwlatch.holds k := by
  have hi : o.holding (p.On k f) = Prod.mk k '' p.valid k f := by
    ext w
    constructor
    · rintro ⟨t, ht, hon⟩
      rw [h.held w, Program.ticket, Option.bind_eq_some_iff] at ht
      obtain ⟨g, hg, ht⟩ := ht
      obtain ⟨hv, ht⟩ := Option.ite_none_right_eq_some.mp ht
      cases ht
      obtain ⟨f', hf', hon'⟩ := (h.whole w g hg hv).frame
      cases hon.symm.trans hon'
      exact ⟨w.2, ⟨g, hg, hv, hf'⟩, rfl⟩
    · rintro ⟨v, ⟨g, hg, hv, hf⟩, rfl⟩
      obtain ⟨f', hf', hon⟩ := (h.whole (k, v) g hg hv).frame
      obtain rfl : f' = f := Option.some.inj (hf'.symm.trans hf)
      refine ⟨g.ticket, ?_, hon⟩
      rw [h.held, ticket_some hg, hv]
      rfl
  rw [← h.latches k f, hi, (Prod.mk_right_injective k).encard_image]

/-- Of keys that do not repeat, one occurs at most once. -/
theorem filter_key {l : List (Nat × Nat)} {t : Nat} (hn : (l.map Prod.fst).Nodup)
    (hl : ∀ x ∈ l, x.1 = t → x.2 = f) : (l.filter fun x => x.1 = t).map Prod.snd
      = if t ∈ l.map Prod.fst then [f] else [] := by
  induction l with
  | nil => rfl
  | cons x l ih =>
    rw [List.map_cons, List.nodup_cons] at hn
    have hrest := ih hn.2 fun y hy => hl y (List.mem_cons_of_mem _ hy)
    by_cases hx : x.1 = t
    · rw [← hx, if_neg hn.1] at hrest
      rw [List.filter_cons_of_pos (by simpa using hx), List.map_cons, ← hx, hrest,
        if_pos (by simp), hl x List.mem_cons_self hx]
    · rw [List.filter_cons_of_neg (by simpa using hx), hrest, List.map_cons]
      refine if_congr ?_ rfl rfl
      rw [List.mem_cons, or_iff_right (Ne.symm hx)]

omit [DecidableEq V] in
/-- Each guard's pin is given back when its ticket ends, and only then. -/
theorem Tracks.unpinsOf (h : Tracks p o) {t : Nat} (ht : p.On k f t) :
    p.unpinsOf t = if t ∈ o.ended then [f] else [] := by
  rw [← h.unpins]
  refine filter_key (h.unpins ▸ h.exact.nodup) fun x hx hxt => ?_
  obtain ⟨k', hon⟩ := h.frames x hx
  rw [hxt] at hon
  cases hon.symm.trans ht
  rfl

omit [DecidableEq V] in
/-- A ticket that has not ended is a valid guard's. -/
theorem Tracks.open_iff (h : Tracks p o) {t : Nat} (ht : p.On k f t) :
    t ∉ o.ended ↔ ∃ w g, p.guards w = some g ∧ g.isValid = true ∧ g.ticket = t := by
  obtain ⟨hlt, -⟩ := List.getElem?_eq_some_iff.mp ht
  rw [h.exact.open_iff t (by rwa [h.issued])]
  refine exists_congr fun w => ?_
  rw [h.held w, Program.ticket, Option.bind_eq_some_iff]
  refine exists_congr fun g => and_congr_right fun _ => ?_
  rw [Option.ite_none_right_eq_some, Option.some.injEq]

/-- Guards are linear: along every program, each latch is held once for each valid guard on its
frame, each guard gives its pin back exactly once, when it is dropped, destroyed or overwritten,
and a use that stops does so to wait for a latch or because the replacer aborts. -/
theorem guards_linear {p₀ : Program V} (h₀ : p₀.Fresh) {ls : List (Op V)}
    (h : (programs p₀).Exec ls p) :
    (∀ f, (p.valid .read f).encard = (p.frames f).rwlatch.shared ∧
      (p.valid .write f).encard = (p.frames f).rwlatch.exclusive.toNat) ∧
    p.built = ls.filterMap Op.built ∧
    (∀ t k f, p.built[t]? = some (k, f) →
      p.unpinsOf t = (if t ∈ (owners ls).ended then [f] else []) ∧
      (t ∉ (owners ls).ended ↔
        ∃ w g, p.guards w = some g ∧ g.isValid = true ∧ g.ticket = t)) ∧
    (∀ f, p.pins f = (p₀.pins f + (ls.filterMap Op.pinned).count f) % 2 ^ 64) ∧
    (∀ l e p', p.Legal l → Throws l.run p e p' → e = .waits ∨ ∃ text, e = .aborted text) := by
  have ht : Tracks p (owners ls) := exec_tracks h₀ h
  refine ⟨fun f => ⟨ht.encard_valid .read f, ht.encard_valid .write f⟩, exec_built h₀ h, ?_,
    exec_pins h, ?_⟩
  · intro t k f hon
    exact ⟨ht.unpinsOf hon, ht.open_iff hon⟩
  · intro l e p' hl hthrows
    exact ht.throws hl hthrows

/-- Two free frames and an empty replacer. -/
def idle : Program Bool where
  frames f := { pinCount := 0, isDirty := false, data := Mem.zero, frameId := f, rwlatch := ⟨0, false⟩ }
  replacers _ := ArcReplacer.create 2
  mutexes _ := false
  guards _ := none
  built := []
  unpins := []

/-- A read guard is moved onto another one, which is then dropped. -/
def moves : List (Op Bool) :=
  [.pin 0, .pin 1, .construct .read true 7 0 0 0 0, .construct .read false 8 1 0 0 0,
    .moveAssign .read false true, .drop .read false]

theorem idle_fresh : idle.Fresh := ⟨fun _ => rfl, fun _ => rfl, fun _ => rfl, rfl, rfl⟩

theorem guards_linear_moves : ∃ p, (programs idle).Exec moves p ∧
    (p.valid .read 0).encard = (p.frames 0).rwlatch.shared ∧
    p.unpinsOf 0 = [0] ∧ p.unpinsOf 1 = [1] := by
  have h₀ : (programs idle).Exec [] idle := .nil rfl
  have h₁ := h₀.snoc (l := Op.pin 0) ⟨trivial, ends_after rfl⟩
  have h₂ := h₁.snoc (l := Op.pin 1) ⟨trivial, ends_after rfl⟩
  have h₃ := h₂.snoc (l := Op.construct .read true 7 0 0 0 0) ⟨rfl, ends_after rfl⟩
  have h₄ := h₃.snoc (l := Op.construct .read false 8 1 0 0 0) ⟨rfl, ends_after rfl⟩
  have h₅ := h₄.snoc (l := Op.moveAssign .read false true) ⟨⟨rfl, rfl⟩, ends_after rfl⟩
  have h₆ := h₅.snoc (l := Op.drop .read false) ⟨rfl, ends_after rfl⟩
  exact ⟨_, h₆, ((guards_linear idle_fresh h₆).1 0).1, rfl, rfl⟩

end

end DbInternals.Buffer.PageGuards
