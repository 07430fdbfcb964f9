import Mathlib.Tactic.Common

/-!
# Loops

A loop without fuel: `body` makes one turn from the state of the loop, and throws, goes on from
the next state or returns. `Loops body s r` is a finished run, so a loop that never ends has none.

Results: `Loops.unique`.
-/
namespace DbInternals

section
variable {ε σ α : Type} {body : σ → Except ε (σ ⊕ α)} {s : σ}

/-- Started in `s`, the loop is left with `r`. -/
inductive Loops (body : σ → Except ε (σ ⊕ α)) : σ → Except ε α → Prop
  | throws {s : σ} {e : ε} (h : body s = .error e) : Loops body s (.error e)
  | returns {s : σ} {a : α} (h : body s = .ok (.inr a)) : Loops body s (.ok a)
  | again {s s' : σ} {r : Except ε α} (h : body s = .ok (.inl s')) (hr : Loops body s' r) :
    Loops body s r

namespace Loops

/-- A loop is left in one way. -/
theorem unique {r r' : Except ε α} (h : Loops body s r) (h' : Loops body s r') : r = r' := by
  induction h with
  | throws he =>
    cases h' with
    | throws he' => rw [he] at he'; cases he'; rfl
    | returns he' => rw [he] at he'; cases he'
    | again he' _ => rw [he] at he'; cases he'
  | returns he =>
    cases h' with
    | throws he' => rw [he] at he'; cases he'
    | returns he' => rw [he] at he'; cases he'; rfl
    | again he' _ => rw [he] at he'; cases he'
  | again he _ ih =>
    cases h' with
    | throws he' => rw [he] at he'; cases he'
    | returns he' => rw [he] at he'; cases he'
    | again he' hr' =>
      rw [he] at he'
      cases he'
      exact ih hr'

end Loops

end

end DbInternals
