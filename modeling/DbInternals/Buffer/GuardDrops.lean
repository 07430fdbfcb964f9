import DbInternals.Buffer.PageGuard

/-!
# What `Drop` does

Results:
* `drop_ends`: an invalid guard is left alone; a valid one gives back its pin and its
  hold of the latch, and ends invalid;
* `drop_throws`: a `Drop` of a guard whose pointers are set and whose latch is held
  stops only where the replacer aborts.
-/
namespace DbInternals.Buffer.PageGuards

/-! ## The primitives -/

namespace SharedMutex

variable {m m' : SharedMutex} {e : Fault}

/-- How often a class of guards holds the latch. -/
def holds (m : SharedMutex) : Kind → Nat
  | .read => m.shared
  | .write => m.exclusive.toNat

theorem lockShared_ends (h : Ends lockShared m () m') : ∀ k,
    m'.holds k = m.holds k + if k = .read then 1 else 0 := by
  obtain ⟨s, x⟩ := m
  cases x with
  | true => cases h
  | false => cases h; intro k; cases k <;> rfl

theorem lock_ends (h : Ends lock m () m') : ∀ k,
    m'.holds k = m.holds k + if k = .write then 1 else 0 := by
  obtain ⟨s, x⟩ := m
  cases x with
  | true => cases h
  | false =>
    cases s with
    | succ s => cases h
    | zero => cases h; intro k; cases k <;> rfl

theorem unlockShared_ends (h : Ends unlockShared m () m') : ∀ k,
    m.holds k = m'.holds k + if k = .read then 1 else 0 := by
  obtain ⟨s, x⟩ := m
  cases s with
  | zero => cases h
  | succ s => cases h; intro k; cases k <;> rfl

theorem unlock_ends (h : Ends unlock m () m') : ∀ k,
    m.holds k = m'.holds k + if k = .write then 1 else 0 := by
  obtain ⟨s, x⟩ := m
  cases x with
  | false => cases h
  | true => cases h; intro k; cases k <;> rfl

theorem lockShared_throws (h : Throws lockShared m e m') : e = .waits := by
  obtain ⟨s, x⟩ := m
  cases x <;> cases h
  rfl

theorem lock_throws (h : Throws lock m e m') : e = .waits := by
  obtain ⟨s, x⟩ := m
  cases x <;> cases s <;> cases h <;> rfl

theorem unlockShared_throws (h : Throws unlockShared m e m') : m.holds .read = 0 := by
  obtain ⟨s, x⟩ := m
  cases s <;> cases h
  rfl

theorem unlock_throws (h : Throws unlock m e m') : m.holds .write = 0 := by
  obtain ⟨s, x⟩ := m
  cases x <;> cases h
  rfl

end SharedMutex

section
variable {V : Type} {p p' : Program V} {w : Kind × V} {g : PageGuard} {f n : Nat}

theorem target_ends {q : Option Nat} (h : Ends (target q) p n p') : q = some n ∧ p' = p := by
  cases q with
  | none => cases h
  | some a => cases h; exact ⟨rfl, rfl⟩

theorem load_ends (h : Ends (load w) p g p') : p.guards w = some g ∧ p' = p := by
  replace h := Ends.rest (Ends.get p) h
  cases hw : p.guards w with
  | none => simp only [hw] at h; cases h
  | some g => simp only [hw] at h; cases h; exact ⟨rfl, rfl⟩

theorem onLatch_ends {x : EStateM Fault SharedMutex Unit} (h : Ends (onLatch f x) p () p') :
    ∃ m, Ends x (p.frames f).rwlatch () m ∧
      p' = { p with frames := Function.update p.frames f { p.frames f with rwlatch := m } } := by
  obtain ⟨_, h₁, rfl⟩ := ends_zoom.mp h
  obtain ⟨m, h₂, rfl⟩ := ends_zoom.mp h₁
  exact ⟨m, h₂, rfl⟩

theorem onReplacer_ends {x : ArcM Unit} (h : Ends (onReplacer n x) p () p') :
    ∃ rs, p' = { p with replacers := rs } := by
  obtain ⟨r, -, rfl⟩ := ends_zoom.mp h
  exact ⟨_, rfl⟩

theorem lockMutex_ends (h : Ends (lockMutex n) p () p') : p.mutexes n = false ∧
    p' = { p with mutexes := Function.update p.mutexes n true } := by
  replace h := Ends.rest (Ends.get p) h
  cases hm : p.mutexes n with
  | true => simp only [hm] at h; cases h
  | false => simp only [hm] at h; cases h; exact ⟨rfl, rfl⟩

theorem unlockMutex_ends (h : Ends (unlockMutex n) p () p') :
    p' = { p with mutexes := Function.update p.mutexes n false } := by
  replace h := Ends.rest (Ends.get p) h
  cases hm : p.mutexes n with
  | false => simp only [hm] at h; cases h
  | true => simp only [hm] at h; cases h; rfl

/-- The frame after the guard gave back its pin. -/
def LatchedFrame.unpinned (h : LatchedFrame) : LatchedFrame :=
  { h with toFrameHeader := h.toFrameHeader.unpinned }

@[simp] theorem LatchedFrame.unpinned_rwlatch (h : LatchedFrame) : h.unpinned.rwlatch = h.rwlatch := rfl

/-- A mutex that was free is free again. -/
theorem update_update_of_eq {mutexes : Nat → Bool} (h : mutexes n = false) :
    Function.update (Function.update mutexes n true) n false = mutexes := by
  rw [Function.update_idem, Function.update_eq_self_iff]
  exact h.symm

theorem unpinBy_ends {k : Nat} (h : Ends (unpinBy k f) p n p') : n = (p.frames f).pinCount ∧
    p' = { p with
      unpins := p.unpins ++ [(k, f)]
      frames := Function.update p.frames f (p.frames f).unpinned } := by
  cases h
  exact ⟨rfl, rfl⟩

theorem makeEvictable_ends {x : GuardM V Unit} (h : Ends (makeEvictable g f x) p () p') :
    ∃ n rs p₂, p.mutexes n = false ∧
      Ends x { p with mutexes := Function.update p.mutexes n true, replacers := rs } () p₂ ∧
      p' = { p₂ with mutexes := Function.update p₂.mutexes n false } := by
  obtain ⟨n, p₁, hn, h⟩ := Ends.bind_iff.mp h
  obtain ⟨-, e₁⟩ := target_ends hn
  obtain ⟨_, p₂, hl, h⟩ := Ends.bind_iff.mp h
  obtain ⟨hfree, e₂⟩ := lockMutex_ends hl
  obtain ⟨b, p₃, hb, h⟩ := Ends.bind_iff.mp h
  obtain ⟨-, e₃⟩ := target_ends hb
  replace h := Ends.rest (Ends.get _) h
  obtain ⟨_, p₄, hs, h⟩ := Ends.bind_iff.mp h
  obtain ⟨rs, e₄⟩ := onReplacer_ends hs
  obtain ⟨_, p₅, hx, hu⟩ := Ends.bind_iff.mp h
  subst p₁ p₂ p₃ p₄
  exact ⟨n, rs, p₅, hfree, hx, unlockMutex_ends hu⟩

/-- The guard gave its pin back; its latch became `m`. -/
def Program.released (p : Program V) (g : PageGuard) (f : Nat) (m : SharedMutex)
    (rs : Nat → ArcReplacer) : Program V :=
  { p with
    frames := Function.update p.frames f { (p.frames f).unpinned with rwlatch := m }
    replacers := rs
    unpins := p.unpins ++ [(g.ticket, f)] }

/-- How each class unlocks. -/
def Kind.unlock : Kind → EStateM Fault SharedMutex Unit
  | .read => SharedMutex.unlockShared
  | .write => SharedMutex.unlock

/-- The guard gave back its pin and nothing else yet. -/
def Program.unpinnedBy (p : Program V) (g : PageGuard) (f : Nat) : Program V :=
  { p with
    unpins := p.unpins ++ [(g.ticket, f)]
    frames := Function.update p.frames f (p.frames f).unpinned }

theorem Program.unpinnedBy_rwlatch (p : Program V) (g : PageGuard) (f : Nat) :
    ((p.unpinnedBy g f).frames f).rwlatch = (p.frames f).rwlatch := by
  simp [Program.unpinnedBy]

/-- What both classes do first: a valid guard gives back its pin. -/
def unpinning (w : Kind × V) (rest : PageGuard → Nat → Nat → GuardM V Unit) : GuardM V Unit := do
  let g ← load w
  if g.isValid then
    let frame ← target g.frame
    let n ← unpinBy g.ticket frame
    rest g frame n

theorem unpinning_ends {rest : PageGuard → Nat → Nat → GuardM V Unit}
    (h : Ends (unpinning w rest) p () p') :
    ∃ g, p.guards w = some g ∧ (g.isValid = false ∧ p' = p ∨ g.isValid = true ∧
      ∃ f n, g.frame = some f ∧ Ends (rest g f n) (p.unpinnedBy g f) () p') := by
  obtain ⟨g, p₁, hl, h₁⟩ := Ends.bind_iff.mp h
  obtain ⟨hg, e₁⟩ := load_ends hl
  subst p₁
  refine ⟨g, hg, ?_⟩
  cases hv : g.isValid with
  | false =>
    simp only [hv] at h₁
    cases h₁
    exact .inl ⟨rfl, rfl⟩
  | true =>
    simp only [hv, if_true] at h₁
    obtain ⟨f, p₁, ht, h₂⟩ := Ends.bind_iff.mp h₁
    obtain ⟨hf, e₁⟩ := target_ends ht
    subst p₁
    obtain ⟨n, p₁, hn, h₃⟩ := Ends.bind_iff.mp h₂
    obtain ⟨-, e₁⟩ := unpinBy_ends hn
    subst p₁
    exact .inr ⟨rfl, f, n, hf, h₃⟩

/-! ## Dropping -/

section
variable [DecidableEq V]

def Kind.drop : Kind → V → GuardM V Unit
  | .read => ReadPageGuard.drop
  | .write => WritePageGuard.drop

theorem store_ends {g : Option PageGuard} (h : Ends (store w g) p () p') :
    p' = { p with guards := Function.update p.guards w g } := by
  cases h
  rfl

/-- A return of `Drop`: an invalid guard is left alone; a valid one held its latch. -/
def Dropped (p : Program V) (w : Kind × V) (p' : Program V) : Prop :=
  ∃ g, p.guards w = some g ∧ (g.isValid = false ∧ p' = p ∨ g.isValid = true ∧
    ∃ f m rs, g.frame = some f ∧ Ends w.1.unlock (p.frames f).rwlatch () m ∧
      p' = { p.released g f m rs with guards := Function.update p.guards w (some g.cleared) })

/-- `Drop` changes no other variable. -/
theorem Dropped.guards {u : Kind × V} (h : Dropped p w p') (hu : u ≠ w) :
    p'.guards u = p.guards u := by
  obtain ⟨g, -, ⟨-, rfl⟩ | ⟨-, f, m, rs, -, -, rfl⟩⟩ := h
  · rfl
  · exact Function.update_of_ne hu _ _

/-- The latch is unlocked, then the guard is cleared. -/
theorem unlock_store_ends {k : Kind} {v : V} {rs : Nat → ArcReplacer} {m : SharedMutex}
    (hm : Ends k.unlock ((p.unpinnedBy g f).frames f).rwlatch () m)
    (h : Ends (store (k, v) (some g.cleared))
      { p.unpinnedBy g f with
        replacers := rs
        frames := Function.update (p.unpinnedBy g f).frames f
          { (p.unpinnedBy g f).frames f with rwlatch := m } } () p') :
    Ends k.unlock (p.frames f).rwlatch () m ∧
      p' = { p.released g f m rs with guards := Function.update p.guards (k, v) (some g.cleared) } := by
  rw [Program.unpinnedBy_rwlatch] at hm
  refine ⟨hm, ?_⟩
  rw [store_ends h]
  simp [Program.released, Program.unpinnedBy]

theorem readDrop_ends {v : V} (h : Ends (ReadPageGuard.drop v) p () p') :
    Dropped p (.read, v) p' := by
  obtain ⟨g, hg, h₁ | ⟨hv, f, n, hf, h₁⟩⟩ := unpinning_ends h
  · exact ⟨g, hg, .inl h₁⟩
  refine ⟨g, hg, .inr ⟨hv, f, ?_⟩⟩
  obtain ⟨-, h₂⟩ | ⟨-, h₂⟩ := h₁.ite
  · obtain ⟨_, p₂, hm, h₃⟩ := Ends.bind_iff.mp h₂
    obtain ⟨a, rs, p₃, ha, hu, e₂⟩ := makeEvictable_ends hm
    obtain ⟨m, hm, e₃⟩ := onLatch_ends hu
    rw [e₂, e₃, update_update_of_eq ha] at h₃
    obtain ⟨hm, e⟩ := unlock_store_ends (k := .read) hm h₃
    exact ⟨m, rs, hf, hm, e⟩
  · obtain ⟨_, p₂, hu, h₃⟩ := Ends.bind_iff.mp h₂
    obtain ⟨m, hm, e₂⟩ := onLatch_ends hu
    rw [e₂] at h₃
    obtain ⟨hm, e⟩ := unlock_store_ends (k := .read) hm h₃
    exact ⟨m, p.replacers, hf, hm, e⟩

theorem writeDrop_ends {v : V} (h : Ends (WritePageGuard.drop v) p () p') :
    Dropped p (.write, v) p' := by
  obtain ⟨g, hg, h₁ | ⟨hv, f, n, hf, h₁⟩⟩ := unpinning_ends h
  · exact ⟨g, hg, .inl h₁⟩
  refine ⟨g, hg, .inr ⟨hv, f, ?_⟩⟩
  obtain ⟨-, h₂⟩ | ⟨-, h₂⟩ := h₁.ite
  · obtain ⟨_, p₂, hm, h₃⟩ := Ends.bind_iff.mp h₂
    obtain ⟨a, rs, p₃, ha, hu, e₂⟩ := makeEvictable_ends hm
    cases hu
    obtain ⟨_, p₄, hu, h₄⟩ := Ends.bind_iff.mp h₃
    obtain ⟨m, hm, e₃⟩ := onLatch_ends hu
    rw [e₃, e₂, update_update_of_eq ha] at h₄
    rw [e₂] at hm
    obtain ⟨hm, e⟩ := unlock_store_ends (k := .write) hm h₄
    exact ⟨m, rs, hf, hm, e⟩
  · obtain ⟨_, p₂, hu, h₃⟩ := Ends.bind_iff.mp h₂
    obtain ⟨m, hm, e₂⟩ := onLatch_ends hu
    rw [e₂] at h₃
    obtain ⟨hm, e⟩ := unlock_store_ends (k := .write) hm h₃
    exact ⟨m, p.replacers, hf, hm, e⟩

theorem drop_ends (k : Kind) {v : V} (h : Ends (k.drop v) p () p') : Dropped p (k, v) p' := by
  cases k with
  | read => exact readDrop_ends h
  | write => exact writeDrop_ends h

end

end

/-! ## What `Drop` can throw -/

section
variable {V : Type} {p p' : Program V} {w : Kind × V} {g : PageGuard} {f n : Nat} {k : Kind}
  {u v : V} {e : Fault}

/-- The process ends with a message. -/
def Aborts (e : Fault) : Prop := ∃ text, e = .aborted text

theorem setEvictable_aborts (id : Nat) (b : Bool) : ThrowsOnly Aborts (ArcReplacer.setEvictable id b) := by
  refine .bind .get fun _ => .bind ?_ fun _ => .modify _
  unfold ArcReplacer.ensure
  exact .ite (.pure _) (.throw ⟨_, rfl⟩)

theorem lockMutex_throws (h : Throws (lockMutex n) p e p') : p.mutexes n = true := by
  replace h := Throws.rest (Ends.get p) h
  cases hm : p.mutexes n with
  | true => rfl
  | false => simp only [hm] at h; cases h

theorem unlockMutex_throws (h : Throws (unlockMutex n) p e p') : p.mutexes n = false := by
  replace h := Throws.rest (Ends.get p) h
  cases hm : p.mutexes n with
  | false => rfl
  | true => simp only [hm] at h; cases h

theorem onLatch_throws {x : EStateM Fault SharedMutex Unit} (h : Throws (onLatch f x) p e p') :
    ∃ m, Throws x (p.frames f).rwlatch e m := by
  obtain ⟨_, h₁, -⟩ := throws_zoom.mp h
  obtain ⟨m, h₂, -⟩ := throws_zoom.mp h₁
  exact ⟨m, h₂⟩

/-- With the mutexes free, only the replacer stops `makeEvictable`, or what runs inside it. -/
theorem makeEvictable_throws {x : GuardM V Unit} (hm : ∀ n, p.mutexes n = false)
    (hl : g.bpmLatch.isSome) (hr : g.replacer.isSome)
    (hx : ∀ ms rs q, Ends x { p with mutexes := ms, replacers := rs } () q → q.mutexes = ms)
    (hE : ∀ ms rs e q, Throws x { p with mutexes := ms, replacers := rs } e q → Aborts e)
    (h : Throws (makeEvictable g f x) p e p') : Aborts e := by
  obtain ⟨a, ha⟩ := Option.isSome_iff_exists.mp hl
  obtain ⟨b, hb⟩ := Option.isSome_iff_exists.mp hr
  rw [makeEvictable, ha, hb] at h
  replace h := Throws.rest (Ends.pure a p) h
  obtain h | ⟨_, p₁, hk, h⟩ := Throws.bind_iff.mp h
  · simpa [hm a] using lockMutex_throws h
  obtain ⟨-, e₁⟩ := lockMutex_ends hk
  replace h := Throws.rest (Ends.pure b p₁) h
  replace h := Throws.rest (Ends.get p₁) h
  obtain h | ⟨_, p₂, hs, h⟩ := Throws.bind_iff.mp h
  · obtain ⟨_, h, -⟩ := throws_zoom.mp h
    exact setEvictable_aborts _ _ _ _ _ h
  obtain ⟨rs, e₂⟩ := onReplacer_ends hs
  subst p₁ p₂
  obtain h | ⟨_, p₃, hi, h⟩ := Throws.bind_iff.mp h
  · exact hE _ _ _ _ h
  · have hu := unlockMutex_throws h
    rw [hx _ _ _ hi] at hu
    simp at hu

theorem load_throws (h : Throws (load w) p e p') : p.guards w = none := by
  replace h := Throws.rest (Ends.get p) h
  cases hw : p.guards w with
  | none => rfl
  | some g => simp only [hw] at h; cases h

/-- A guard that can be dropped: if it is valid, its pointers are set and its latch is held. -/
structure Droppable (p : Program V) (w : Kind × V) (g : PageGuard) : Prop where
  guard : p.guards w = some g
  mutexes : ∀ n, p.mutexes n = false
  bpmLatch : g.isValid = true → g.bpmLatch.isSome
  replacer : g.isValid = true → g.replacer.isSome
  held : g.isValid = true → ∃ f, g.frame = some f ∧ (p.frames f).rwlatch.holds w.1 ≠ 0

theorem unpinning_throws {rest : PageGuard → Nat → Nat → GuardM V Unit} (hd : Droppable p w g)
    (h : Throws (unpinning w rest) p e p') :
    g.isValid = true ∧ ∃ f n, (p.frames f).rwlatch.holds w.1 ≠ 0 ∧
      Throws (rest g f n) (p.unpinnedBy g f) e p' := by
  obtain h | ⟨g', p₁, hl, h₁⟩ := Throws.bind_iff.mp h
  · cases hd.guard.symm.trans (load_throws h)
  obtain ⟨hg, e₁⟩ := load_ends hl
  subst p₁
  obtain rfl : g = g' := Option.some.inj (hd.guard.symm.trans hg)
  cases hv : g.isValid with
  | false =>
    simp only [hv] at h₁
    cases h₁
  | true =>
    obtain ⟨f, hf, hheld⟩ := hd.held hv
    simp only [hv, if_true, hf] at h₁
    replace h₁ := Throws.rest (Ends.pure f p) h₁
    obtain h₂ | ⟨n, p₁, hn, h₂⟩ := Throws.bind_iff.mp h₁
    · cases h₂
    obtain ⟨-, e₁⟩ := unpinBy_ends hn
    subst p₁
    exact ⟨rfl, f, n, hheld, h₂⟩

/-- The latch a guard holds can be unlocked. -/
theorem unlock_not_throws {q q' : Program V} (hheld : (p.frames f).rwlatch.holds k ≠ 0)
    (hq : (q.frames f).rwlatch = (p.frames f).rwlatch) : ¬ Throws (onLatch f k.unlock) q e q' := by
  intro ht
  obtain ⟨m, ht⟩ := onLatch_throws ht
  rw [hq] at ht
  cases k with
  | read => exact hheld (SharedMutex.unlockShared_throws ht)
  | write => exact hheld (SharedMutex.unlock_throws ht)

variable [DecidableEq V]

theorem readDrop_throws {v : V} (hd : Droppable p (.read, v) g)
    (h : Throws (ReadPageGuard.drop v) p e p') : Aborts e := by
  obtain ⟨hv, f, n, hheld, h₁⟩ := unpinning_throws hd h
  obtain ⟨-, h₂⟩ | ⟨-, h₂⟩ := h₁.ite
  · obtain h₃ | ⟨_, p₂, -, h₃⟩ := Throws.bind_iff.mp h₂
    · refine makeEvictable_throws (p := p.unpinnedBy g f) hd.mutexes (hd.bpmLatch hv) (hd.replacer hv) ?_ ?_ h₃
      · intro ms rs q hq
        obtain ⟨m, -, rfl⟩ := onLatch_ends hq
        rfl
      · intro ms rs e q hq
        exact absurd hq (unlock_not_throws (k := .read) hheld (p.unpinnedBy_rwlatch g f))
    · cases h₃
  · obtain h₃ | ⟨_, p₂, -, h₃⟩ := Throws.bind_iff.mp h₂
    · exact absurd h₃ (unlock_not_throws (k := .read) hheld (p.unpinnedBy_rwlatch g f))
    · cases h₃

theorem writeDrop_throws {v : V} (hd : Droppable p (.write, v) g)
    (h : Throws (WritePageGuard.drop v) p e p') : Aborts e := by
  obtain ⟨hv, f, n, hheld, h₁⟩ := unpinning_throws hd h
  obtain ⟨-, h₂⟩ | ⟨-, h₂⟩ := h₁.ite
  · obtain h₃ | ⟨_, p₂, hm, h₃⟩ := Throws.bind_iff.mp h₂
    · refine makeEvictable_throws (p := p.unpinnedBy g f) hd.mutexes (hd.bpmLatch hv) (hd.replacer hv) ?_ ?_ h₃
      · intro ms rs q hq
        cases hq
        rfl
      · nofun
    obtain ⟨a, rs, p₃, -, hu, rfl⟩ := makeEvictable_ends hm
    cases hu
    obtain h₄ | ⟨_, p₃, -, h₄⟩ := Throws.bind_iff.mp h₃
    · exact absurd h₄ (unlock_not_throws (k := .write) hheld (p.unpinnedBy_rwlatch g f))
    · cases h₄
  · obtain h₃ | ⟨_, p₂, -, h₃⟩ := Throws.bind_iff.mp h₂
    · exact absurd h₃ (unlock_not_throws (k := .write) hheld (p.unpinnedBy_rwlatch g f))
    · cases h₃

theorem drop_throws (k : Kind) {v : V} (hd : Droppable p (k, v) g)
    (h : Throws (k.drop v) p e p') : Aborts e := by
  cases k with
  | read => exact readDrop_throws hd h
  | write => exact writeDrop_throws hd h

theorem takeOver_throws (hu : (p.guards (k, u)).isSome) : ¬ Throws (takeOver k v u) p e p' := by
  intro h
  obtain h₁ | ⟨g, p₁, -, h₁⟩ := Throws.bind_iff.mp h
  · rw [load_throws h₁] at hu
    cases hu
  · cases h₁

end

end DbInternals.Buffer.PageGuards
