import Mathlib.Data.List.Induction
import Mathlib.Logic.Function.Basic
import Mathlib.Order.Lattice
import DbInternals.Core.LTS

/-!
# Tables of records

A table maps keys to records. Its calls are events that carry what was answered, so that a run of
events is a history; a call that fails answers `none`. Callers insert no key that is stored.

Results:
* `stored_iff`: a record is stored iff its insert is not followed by a removal of its key;
* `explained`: so every answer of a history follows from the events before it.
-/
namespace DbInternals.Table

universe u v

variable {κ : Type u} {ρ : Type v} [LinearOrder κ]

/-- A call with its answer. An insert that finds no room drops the record. -/
inductive Event (κ : Type u) (ρ : Type v) where
  | insert (r : ρ) (room : Bool) (answer : Option Bool)
  | remove (x : κ) (answer : Option Bool)
  | get (x : κ) (answer : Option (Option ρ))
  | scan (x y : κ) (answer : List ρ)

/-- The stored records from `x` to `y` in the order of their keys. -/
structure IsRange (key : ρ → κ) (f : κ → Option ρ) (x y : κ) (rs : List ρ) : Prop where
  sorted : rs.Pairwise fun a b => key a < key b
  mem : ∀ r, r ∈ rs ↔ f (key r) = some r ∧ x ≤ key r ∧ key r ≤ y

/-- The table after a call. -/
def apply (key : ρ → κ) (f : κ → Option ρ) : Event κ ρ → κ → Option ρ
  | .insert r room _ => if room then Function.update f (key r) (some r) else f
  | .remove x answer => if answer = some true then Function.update f x none else f
  | .get .. => f
  | .scan .. => f

/-- What a table answers. -/
def Answers (key : ρ → κ) (f : κ → Option ρ) : Event κ ρ → Prop
  | .insert r _ answer => f (key r) = none ∧ answer = some true
  | .remove x answer => answer = some true ↔ f x ≠ none
  | .get x answer => ∀ r, answer = some (some r) ↔ f x = some r
  | .scan x y answer => IsRange key f x y answer

/-- The histories of a table that is empty at first. -/
def table (key : ρ → κ) : LTS (κ → Option ρ) (Event κ ρ) where
  init f := f = fun _ => none
  step f e f' := Answers key f e ∧ f' = apply key f e

/-- The event removes the record with the key. -/
def Removes (x : κ) (e : Event κ ρ) : Prop := e = .remove x (some true)

/-- The record went in with an insert, and its key was not removed since. -/
def Stored (events : List (Event κ ρ)) (r : ρ) (x : κ) : Prop :=
  ∃ pre post answer, events = pre ++ .insert r true answer :: post ∧ ∀ e ∈ post, ¬ Removes x e

section
variable {key : ρ → κ} {f : κ → Option ρ} {events : List (Event κ ρ)} {e : Event κ ρ} {r : ρ} {x y : κ}

omit [LinearOrder κ] in
theorem stored_snoc : Stored (events ++ [e]) r x ↔
    (∃ answer, e = .insert r true answer) ∨ Stored events r x ∧ ¬ Removes x e := by
  constructor
  · rintro ⟨pre, post, answer, h, hpost⟩
    cases post using List.reverseRecOn with
    | nil =>
      obtain ⟨-, h⟩ := List.append_inj' h rfl
      exact .inl ⟨answer, List.head_eq_of_cons_eq h⟩
    | append_singleton post e' =>
      rw [← List.cons_append, ← List.append_assoc] at h
      obtain ⟨hpre, h'⟩ := List.append_inj' h rfl
      obtain rfl := List.head_eq_of_cons_eq h'
      exact .inr ⟨⟨pre, post, answer, hpre, fun a ha => hpost a (List.mem_append_left _ ha)⟩,
        hpost e (by simp)⟩
  · rintro (⟨answer, rfl⟩ | ⟨⟨pre, post, answer, rfl, hpost⟩, he⟩)
    · exact ⟨events, [], answer, rfl, by simp⟩
    · refine ⟨pre, post ++ [e], answer, by simp, fun a ha => ?_⟩
      rcases List.mem_append.mp ha with ha | ha
      · exact hpost a ha
      · rwa [List.mem_singleton.mp ha]

omit [LinearOrder κ] in
theorem stored_keeps (hi : ∀ answer, e ≠ .insert r true answer) (hr : ¬ Removes x e) :
    Stored (events ++ [e]) r x ↔ Stored events r x := by
  rw [stored_snoc, or_iff_right fun ⟨answer, h⟩ => hi answer h]
  exact and_iff_left hr

/-- A record is stored iff its insert is not followed by a removal of its key. -/
theorem stored_iff (h : (table key).Exec events f) :
    f x = some r ↔ key r = x ∧ Stored events r x := by
  induction h generalizing x r with
  | nil h0 =>
    rw [show _ = fun _ => none from h0]
    refine iff_of_false (by simp) ?_
    rintro ⟨-, pre, post, answer, h, -⟩
    simp at h
  | @snoc events f f' e h hs ih =>
    obtain ⟨ha, rfl⟩ := hs
    cases e with
    | insert r' room answer =>
      have hno : ¬ Removes x (.insert r' room answer : Event κ ρ) := by
        rintro ⟨⟩
      cases room with
      | false =>
        rw [stored_keeps (by rintro a ⟨⟩) hno]
        exact ih
      | true =>
        by_cases hr : r = r'
        · -- the record is new
          subst hr
          rw [stored_snoc, apply, if_pos rfl, Function.update_apply]
          by_cases hx : x = key r
          · rw [if_pos hx]
            exact iff_of_true rfl ⟨hx.symm, .inl ⟨answer, rfl⟩⟩
          · rw [if_neg hx, ih]
            exact iff_of_false (fun hk => hx hk.1.symm) fun hk => hx hk.1.symm
        · rw [stored_keeps (fun a e => hr (by cases e; rfl)) hno, ← ih, apply, if_pos rfl,
            Function.update_apply]
          split
          · next hx =>
            -- and no other one had its key
            rw [hx, ha.1]
            exact iff_of_false (fun e => hr (Option.some.inj e).symm) (by simp)
          · rfl
    | remove x' answer =>
      by_cases hx : x = x' ∧ answer = some true
      · obtain ⟨rfl, rfl⟩ := hx
        have hgone : apply key f (.remove x (some true)) x = none := by simp [apply]
        rw [stored_snoc, hgone]
        refine iff_of_false (by simp) ?_
        rintro ⟨-, ⟨a, ⟨⟩⟩ | ⟨-, hno⟩⟩
        exact hno rfl
      · have hno : ¬ Removes x (.remove x' answer : Event κ ρ) := fun e => hx (by cases e; exact ⟨rfl, rfl⟩)
        rw [stored_keeps (by rintro a ⟨⟩) hno, ← ih, apply]
        split
        · next ha => rw [Function.update_of_ne fun e => hx ⟨e, ha⟩]
        · rfl
    | get x' answer =>
      rw [stored_keeps (by rintro a ⟨⟩) (by rintro ⟨⟩)]
      exact ih
    | scan x' y' answer =>
      rw [stored_keeps (by rintro a ⟨⟩) (by rintro ⟨⟩)]
      exact ih

/-- The answer follows from the events before the call. -/
def Explained (key : ρ → κ) (before : List (Event κ ρ)) : Event κ ρ → Prop
  | .insert _ _ answer => answer = some true
  | .remove x answer => answer = some true ↔ ∃ r, key r = x ∧ Stored before r x
  | .get x answer => ∀ r, answer = some (some r) ↔ key r = x ∧ Stored before r x
  | .scan x y answer => (answer.Pairwise fun a b => key a < key b) ∧
    ∀ r, r ∈ answer ↔ Stored before r (key r) ∧ x ≤ key r ∧ key r ≤ y

/-- Every answer of a history follows from the events before it. -/
theorem explained {post : List (Event κ ρ)} (h : (table key).Exec (events ++ e :: post) f) :
    Explained key events e := by
  obtain ⟨f₀, f₁, h₀, ha, -⟩ := h.split events
  cases e with
  | insert r room answer => exact ha.2
  | remove x answer =>
    refine ha.trans ?_
    rw [Option.ne_none_iff_exists']
    exact exists_congr fun r => stored_iff h₀
  | get x answer => exact fun r => (ha r).trans (stored_iff h₀)
  | scan x y answer =>
    refine ⟨ha.sorted, fun r => (ha.mem r).trans (and_congr_left fun _ => ?_)⟩
    rw [stored_iff h₀]
    exact and_iff_right rfl

end

end DbInternals.Table
