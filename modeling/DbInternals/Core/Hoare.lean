import Mathlib.Tactic.Common

/-!
# Rules for `EStateM`

A computation keeps the state it had when it throws. `Ends x s a s'` is one
terminating run; `Triple P x Q E` is the partial form: from `P`, a return
establishes `Q` and an exception leaves `E`.

Results: one rule per construct (`Ends.bind`, `Throws.bind_iff`, `Triple.bind`,
`Triple.conseq`, …); `Keeps I x` is the triple for an invariant every outcome
keeps, `ThrowsOnly E x` bounds what can be thrown, `Checks e y x` says that `y` is `x` with
assertions.
-/
namespace DbInternals

section
variable {ε σ α β : Type}

theorem bind_ok {x : EStateM ε σ α} {f : α → EStateM ε σ β} {s s' : σ} {a : α}
    (h : x s = .ok a s') : (x >>= f) s = f a s' := by
  change EStateM.bind x f s = _
  rw [EStateM.bind, h]

theorem bind_error {x : EStateM ε σ α} {f : α → EStateM ε σ β} {s s' : σ} {e : ε}
    (h : x s = .error e s') : (x >>= f) s = .error e s' := by
  change EStateM.bind x f s = _
  rw [EStateM.bind, h]

/-- Started in `s`, the computation returns `a` in `s'`. -/
def Ends (x : EStateM ε σ α) (s : σ) (a : α) (s' : σ) : Prop := x s = .ok a s'

namespace Ends

theorem pure (a : α) (s : σ) : Ends (Pure.pure a : EStateM ε σ α) s a s := rfl

theorem bind {x : EStateM ε σ α} {f : α → EStateM ε σ β} {s s' s'' : σ} {a : α} {b : β}
    (h : Ends x s a s') (h' : Ends (f a) s' b s'') : Ends (x >>= f) s b s'' :=
  (bind_ok h).trans h'

/-- A run of a sequence is a run of each part. -/
theorem bind_iff {x : EStateM ε σ α} {f : α → EStateM ε σ β} {s s'' : σ} {b : β} :
    Ends (x >>= f) s b s'' ↔ ∃ a s', Ends x s a s' ∧ Ends (f a) s' b s'' := by
  constructor
  · intro h
    cases hx : x s with
    | ok a s' => exact ⟨a, s', hx, (bind_ok hx).symm.trans h⟩
    | error e s' => cases (bind_error hx).symm.trans h
  · rintro ⟨a, s', h, h'⟩
    exact h.bind h'

/-- What is left of a run after its first part. -/
theorem rest {x : EStateM ε σ α} {f : α → EStateM ε σ β} {s s' s'' : σ} {a : α} {b : β}
    (h : Ends x s a s') (hb : Ends (x >>= f) s b s'') : Ends (f a) s' b s'' :=
  (bind_ok h).symm.trans hb

theorem get (s : σ) : Ends (MonadState.get : EStateM ε σ σ) s s s := rfl

theorem modify (f : σ → σ) (s : σ) : Ends (modify f : EStateM ε σ PUnit) s ⟨⟩ (f s) := rfl

/-- Runs are deterministic. -/
theorem unique {x : EStateM ε σ α} {s s' s'' : σ} {a b : α} (h : Ends x s a s')
    (h' : Ends x s b s'') : a = b ∧ s' = s'' := by
  have := h.symm.trans h'
  cases this
  exact ⟨rfl, rfl⟩

theorem ite {c : Prop} [Decidable c] {x y : EStateM ε σ α} {s s' : σ} {a : α}
    (h : Ends (if c then x else y) s a s') : c ∧ Ends x s a s' ∨ ¬ c ∧ Ends y s a s' := by
  split at h
  · exact .inl ⟨‹_›, h⟩
  · exact .inr ⟨‹_›, h⟩

/-- A run of a computation with something to do on every way out. -/
theorem finally_iff {x : EStateM ε σ α} {y : EStateM ε σ β} {s s'' : σ} {a : α} :
    Ends (tryFinally x y) s a s'' ↔ ∃ s' b, Ends x s a s' ∧ Ends y s' b s'' := by
  have hrun : tryFinally x y s = match x s with
      | .ok a s' => match y s' with
        | .ok _ s'' => .ok a s''
        | .error e s'' => .error e s''
      | .error e s' => match y s' with
        | .ok _ s'' => .error e s''
        | .error e' s'' => .error e' s'' := by
    simp only [tryFinally, Functor.map, EStateM.map, MonadFinally.tryFinally']
    cases x s with
    | ok a s' =>
      dsimp only
      cases y s' <;> rfl
    | error e s' =>
      dsimp only
      cases y s' <;> rfl
  unfold Ends
  rw [hrun]
  cases x s with
  | ok a' s' =>
    dsimp only
    cases hy : y s' with
    | ok b s₁ =>
      constructor
      · intro h
        cases h
        exact ⟨s', b, rfl, hy⟩
      · rintro ⟨_, _, h, h'⟩
        cases h
        cases hy.symm.trans h'
        rfl
    | error e s₁ =>
      refine iff_of_false (by simp) ?_
      rintro ⟨_, _, h, h'⟩
      cases h
      cases hy.symm.trans h'
  | error e s' =>
    dsimp only
    cases y s' <;> simp

end Ends

/-- Started in `s`, the computation throws `e` and leaves `s'`. -/
def Throws (x : EStateM ε σ α) (s : σ) (e : ε) (s' : σ) : Prop := x s = .error e s'

namespace Throws

/-- What throws does not return. -/
theorem not_ends {x : EStateM ε σ α} {s s' s'' : σ} {e : ε} {a : α} (h : Throws x s e s') :
    ¬ Ends x s a s'' := by
  intro h'
  cases h.symm.trans h'

/-- A sequence throws in one of its parts. -/
theorem bind_iff {x : EStateM ε σ α} {f : α → EStateM ε σ β} {s s'' : σ} {e : ε} :
    Throws (x >>= f) s e s'' ↔
      Throws x s e s'' ∨ ∃ a s', Ends x s a s' ∧ Throws (f a) s' e s'' := by
  constructor
  · intro h
    cases hx : x s with
    | ok a s' => exact .inr ⟨a, s', hx, (bind_ok hx).symm.trans h⟩
    | error e' s' =>
      cases (bind_error (f := f) hx).symm.trans h
      exact .inl hx
  · rintro (h | ⟨a, s', h, h'⟩)
    · exact bind_error h
    · exact (bind_ok h).trans h'

theorem rest {x : EStateM ε σ α} {f : α → EStateM ε σ β} {s s' s'' : σ} {a : α} {e : ε}
    (h : Ends x s a s') (hb : Throws (x >>= f) s e s'') : Throws (f a) s' e s'' :=
  (bind_ok h).symm.trans hb

theorem ite {c : Prop} [Decidable c] {x y : EStateM ε σ α} {s s' : σ} {e : ε}
    (h : Throws (if c then x else y) s e s') : c ∧ Throws x s e s' ∨ ¬ c ∧ Throws y s e s' := by
  split at h
  · exact .inl ⟨‹_›, h⟩
  · exact .inr ⟨‹_›, h⟩

end Throws

/-- `y` is `x` with more checks, which throw `e`. -/
def Checks (e : ε) (y x : EStateM ε σ α) : Prop := ∀ s, y s = x s ∨ ∃ s', Throws y s e s'

namespace Checks

variable {e : ε} {x y : EStateM ε σ α}

theorem refl (x : EStateM ε σ α) : Checks e x x := fun _ => .inl rfl

theorem bind {f g : α → EStateM ε σ β} (h : Checks e y x) (h' : ∀ a, Checks e (g a) (f a)) :
    Checks e (y >>= g) (x >>= f) := by
  intro s
  obtain hs | ⟨s', hs⟩ := h s
  · cases hx : x s with
    | ok a s' =>
      rw [bind_ok hx, bind_ok (hs.trans hx)]
      obtain ha | ⟨s'', ha⟩ := h' a s'
      · exact .inl ha
      · exact .inr ⟨s'', (bind_ok (hs.trans hx)).trans ha⟩
    | error e' s' =>
      rw [bind_error hx, bind_error (hs.trans hx)]
      exact .inl rfl
  · exact .inr ⟨s', bind_error hs⟩

theorem ite {c : Prop} [Decidable c] {x' y' : EStateM ε σ α} (h : Checks e y x)
    (h' : Checks e y' x') : Checks e (if c then y else y') (if c then x else x') := by
  split
  · exact h
  · exact h'

end Checks

/-- Whatever the computation throws satisfies `E`. -/
def ThrowsOnly (E : ε → Prop) (x : EStateM ε σ α) : Prop := ∀ s e s', Throws x s e s' → E e

namespace ThrowsOnly

variable {E : ε → Prop} {x : EStateM ε σ α}

theorem pure (a : α) : ThrowsOnly E (Pure.pure a : EStateM ε σ α) := nofun

theorem get : ThrowsOnly E (MonadState.get : EStateM ε σ σ) := nofun

theorem set (s : σ) : ThrowsOnly E (MonadStateOf.set s : EStateM ε σ PUnit) := nofun

theorem modify (f : σ → σ) : ThrowsOnly E (modify f : EStateM ε σ PUnit) := nofun

theorem throw {e : ε} (h : E e) : ThrowsOnly E (MonadExcept.throw e : EStateM ε σ α) := by
  intro s e' s' ht
  cases ht
  exact h

/-- Nothing follows a throw. -/
theorem throw_bind {e : ε} (h : E e) (f : α → EStateM ε σ β) :
    ThrowsOnly E (MonadExcept.throw e >>= f) := by
  intro s e' s' ht
  cases ht
  exact h

theorem bind {f : α → EStateM ε σ β} (h : ThrowsOnly E x) (h' : ∀ a, ThrowsOnly E (f a)) :
    ThrowsOnly E (x >>= f) := by
  intro s e s' ht
  obtain ht | ⟨a, s₁, -, ht⟩ := Throws.bind_iff.mp ht
  · exact h s e s' ht
  · exact h' a s₁ e s' ht

theorem ite {c : Prop} [Decidable c] {y : EStateM ε σ α} (h : ThrowsOnly E x)
    (h' : ThrowsOnly E y) : ThrowsOnly E (if c then x else y) := by
  split
  · exact h
  · exact h'

end ThrowsOnly

/-- Started in `s`, the computation returns. -/
def Returns (x : EStateM ε σ α) (s : σ) : Prop := ∃ a s', Ends x s a s'

namespace Returns

theorem pure (a : α) (s : σ) : Returns (Pure.pure a : EStateM ε σ α) s := ⟨a, s, rfl⟩

theorem modify (f : σ → σ) (s : σ) : Returns (modify f : EStateM ε σ PUnit) s := ⟨⟨⟩, f s, rfl⟩

theorem set (s s' : σ) : Returns (MonadStateOf.set s' : EStateM ε σ PUnit) s := ⟨⟨⟩, s', rfl⟩

theorem bind {x : EStateM ε σ α} {f : α → EStateM ε σ β} {s s' : σ} {a : α} (h : Ends x s a s')
    (h' : Returns (f a) s') : Returns (x >>= f) s := by
  obtain ⟨b, s'', h'⟩ := h'
  exact ⟨b, s'', h.bind h'⟩

end Returns

/-- From `P`, a return establishes `Q`, an exception `E`. -/
def Triple (P : σ → Prop) (x : EStateM ε σ α) (Q : α → σ → Prop) (E : σ → Prop) : Prop :=
  ∀ s, P s → match x s with
    | .ok a s' => Q a s'
    | .error _ s' => E s'

namespace Triple

variable {P P' : σ → Prop} {Q Q' : α → σ → Prop} {E : σ → Prop} {x : EStateM ε σ α}

theorem pure {a : α} (h : ∀ s, P s → Q a s) : Triple P (Pure.pure a : EStateM ε σ α) Q E := h

theorem throw {e : ε} (h : ∀ s, P s → E s) :
    Triple P (MonadExcept.throw e : EStateM ε σ α) Q E := h

theorem get {Q : σ → σ → Prop} (h : ∀ s, P s → Q s s) :
    Triple P (MonadState.get : EStateM ε σ σ) Q E := h

theorem modify {f : σ → σ} {Q : PUnit → σ → Prop} (h : ∀ s, P s → Q ⟨⟩ (f s)) :
    Triple P (modify f : EStateM ε σ PUnit) Q E := h

theorem bind {f : α → EStateM ε σ β} {R : β → σ → Prop} (h : Triple P x Q E)
    (h' : ∀ a, Triple (Q a) (f a) R E) : Triple P (x >>= f) R E := by
  intro s hs
  have h1 := h s hs
  cases hx : x s with
  | ok a s' => rw [hx] at h1; rw [bind_ok hx]; exact h' a s' h1
  | error e s' => rw [hx] at h1; rw [bind_error hx]; exact h1

theorem conseq {E' : σ → Prop} (h : Triple P x Q E) (hP : ∀ s, P' s → P s)
    (hQ : ∀ a s, Q a s → Q' a s) (hE : ∀ s, E s → E' s) : Triple P' x Q' E' := by
  intro s hs
  have h1 := h s (hP s hs)
  cases hx : x s with
  | ok a s' => rw [hx] at h1; exact hQ a s' h1
  | error e s' => rw [hx] at h1; exact hE s' h1

theorem ite {c : Prop} [Decidable c] {y : EStateM ε σ α} (h : c → Triple P x Q E)
    (h' : ¬ c → Triple P y Q E) : Triple P (if c then x else y) Q E := by
  split
  · exact h ‹_›
  · exact h' ‹_›

theorem or (h : Triple P x Q E) (h' : Triple P' x Q E) :
    Triple (fun s => P s ∨ P' s) x Q E := fun s hs => hs.elim (h s) (h' s)

/-- What a return from a state in `P` establishes. -/
theorem ends (h : Triple P x Q E) {s s' : σ} {a : α} (hs : P s) (he : Ends x s a s') : Q a s' := by
  have h1 := h s hs
  rw [show x s = .ok a s' from he] at h1
  exact h1

/-- What an exception that leaves a run from `P` establishes. -/
theorem throws (h : Triple P x Q E) {s s' : σ} {e : ε} (hs : P s) (ht : Throws x s e s') : E s' := by
  have h1 := h s hs
  rw [show x s = .error e s' from ht] at h1
  exact h1

/-- A computation that first reads its state. -/
theorem get_bind {f : σ → EStateM ε σ α} (h : ∀ s, P s → Triple (fun s' => s' = s) (f s) Q E) :
    Triple P (MonadState.get >>= f) Q E := fun s hs => h s hs s rfl

/-- A fact that does not depend on the state is carried along. -/
theorem of_state (h : ∀ s, P s → Triple (fun s' => s' = s) x Q E) : Triple P x Q E :=
  fun s hs => h s hs s rfl

end Triple

/-- The state after the run, however it ends. -/
def after (x : EStateM ε σ α) (s : σ) : σ :=
  match x s with
  | .ok _ s' => s'
  | .error _ s' => s'

/-- What the run returns, if it returns. -/
def returned (x : EStateM ε σ α) (s : σ) : Option α :=
  match x s with
  | .ok a _ => some a
  | .error _ _ => none

/-- A run found by evaluation. -/
theorem ends_after {x : EStateM ε σ α} {s : σ} {a : α} (h : returned x s = some a) :
    Ends x s a (after x s) := by
  unfold returned at h
  unfold Ends after
  cases hx : x s with
  | ok b s' => rw [hx] at h; cases h; rfl
  | error e s' => rw [hx] at h; cases h

theorem after_of_ends {x : EStateM ε σ α} {s s' : σ} {a : α} (h : Ends x s a s') :
    after x s = s' := by
  rw [after, show x s = .ok a s' from h]

theorem after_bind {x : EStateM ε σ α} {f : α → EStateM ε σ β} {s s' : σ} {a : α}
    (h : Ends x s a s') : after (x >>= f) s = after (f a) s' := by
  rw [after, after, bind_ok h]

theorem after_bind_error {x : EStateM ε σ α} {f : α → EStateM ε σ β} {s s' : σ} {e : ε}
    (h : x s = .error e s') : after (x >>= f) s = after x s := by
  rw [after, after, bind_error h, h]

/-- A computation on one component of the state. -/
def zoom {τ : Type} (get : σ → τ) (put : τ → σ → σ) (x : EStateM ε τ α) : EStateM ε σ α := fun s =>
  match x (get s) with
  | .ok a t => .ok a (put t s)
  | .error e t => .error e (put t s)

theorem ends_zoom {τ : Type} {get : σ → τ} {put : τ → σ → σ} {x : EStateM ε τ α} {s s' : σ} {a : α} :
    Ends (zoom get put x) s a s' ↔ ∃ t, Ends x (get s) a t ∧ s' = put t s := by
  unfold Ends zoom
  cases x (get s) with
  | ok b t =>
    constructor
    · intro h
      cases h
      exact ⟨t, rfl, rfl⟩
    · intro h
      obtain ⟨t', h, rfl⟩ := h
      cases h
      rfl
  | error e t =>
    constructor
    · intro h
      cases h
    · intro h
      obtain ⟨t', h, -⟩ := h
      cases h

theorem throws_zoom {τ : Type} {get : σ → τ} {put : τ → σ → σ} {x : EStateM ε τ α} {s s' : σ}
    {e : ε} : Throws (zoom get put x) s e s' ↔ ∃ t, Throws x (get s) e t ∧ s' = put t s := by
  unfold Throws zoom
  cases x (get s) with
  | ok b t =>
    constructor
    · intro h
      cases h
    · intro h
      obtain ⟨t', h, -⟩ := h
      cases h
  | error e t =>
    constructor
    · intro h
      cases h
      exact ⟨t, rfl, rfl⟩
    · intro h
      obtain ⟨t', h, rfl⟩ := h
      cases h
      rfl

/-- Every outcome keeps `I`. -/
def Keeps (I : σ → Prop) (x : EStateM ε σ α) : Prop := Triple I x (fun _ => I) I

namespace Keeps

variable {I : σ → Prop} {x : EStateM ε σ α}

theorem pure (a : α) : Keeps I (Pure.pure a : EStateM ε σ α) := fun _ h => h

theorem throw (e : ε) : Keeps I (MonadExcept.throw e : EStateM ε σ α) := fun _ h => h

theorem get : Keeps I (MonadState.get : EStateM ε σ σ) := fun _ h => h

theorem modify {f : σ → σ} (h : ∀ s, I s → I (f s)) :
    Keeps I (modify f : EStateM ε σ PUnit) := h

theorem bind {f : α → EStateM ε σ β} (h : Keeps I x) (h' : ∀ a, Keeps I (f a)) :
    Keeps I (x >>= f) := Triple.bind h h'

theorem ite {c : Prop} [Decidable c] {y : EStateM ε σ α} (h : Keeps I x) (h' : Keeps I y) :
    Keeps I (if c then x else y) := Triple.ite (fun _ => h) fun _ => h'

end Keeps

/-- What every outcome of a run from `P` satisfies. -/
theorem Triple.after {P I : σ → Prop} {x : EStateM ε σ α} (h : Triple P x (fun _ => I) I) {s : σ}
    (hs : P s) : I (after x s) := by
  have h1 := h s hs
  rw [DbInternals.after]
  cases hx : x s with
  | ok a s' => rw [hx] at h1; exact h1
  | error e s' => rw [hx] at h1; exact h1

theorem Keeps.after {I : σ → Prop} {x : EStateM ε σ α} (h : Keeps I x) {s : σ} (hs : I s) :
    I (after x s) := Triple.after h hs

end

end DbInternals
