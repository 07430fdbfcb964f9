import DbInternals.Logging.LogRecord
import Mathlib.Logic.Function.Basic

/-!
# The loop of `flush_to`

The threads of `flush_to` and the test of their loop. How far a leader is
within `append_durable` is a parameter: `GroupCommit` takes the call as one
step, `FaultyFlush` takes its system calls one by one.

Results:
* `Group.loop_frame`: the test changes `flushing_` only, and returns only at or
  above its target;
* `Group.loop_goto`: it does not look at where its thread comes from;
* `OneLeader.goto`, `OneLeader.lead`, `OneLeader.loop`: there is never more than
  one leader.
-/
namespace DbInternals.Logging

/-- Where a thread is. -/
inductive Pc (σ : Type) where
  | idle
  /-- elected, before `copy_to_fill_buffer` -/
  | elected (target : Nat)
  /-- in `append_durable` -/
  | appending (target batchEndLSN : Nat) (durable : σ)
  /-- before `lck.lock()` -/
  | written (target batchEndLSN : Nat)
  /-- in `flush_cv_.wait` -/
  | waiting (target : Nat)
  deriving DecidableEq, Repr

inductive Outcome where
  /-- `append` returned the LSN -/
  | appended (lsn : Nat)
  /-- `flush_to(target)` returned -/
  | flushed (target : Nat)
  /-- `flush_to(target)` threw -/
  | threw (target : Nat)
  | running
  deriving DecidableEq, Repr

structure Group (σ : Type) where
  log : LogManager
  pc : Nat → Pc σ

def Pc.Leads {σ : Type} : Pc σ → Prop
  | elected _ | appending .. | written .. => True
  | idle | waiting _ => False

namespace Group

variable {σ : Type}

def goto (s : Group σ) (i : Nat) (p : Pc σ) : Group σ := { s with pc := Function.update s.pc i p }

/-- The test of the loop, `flush_mtx_` held.
mirrors src/logging/log_manager.cpp:273-276 and 285-288 -/
def loop (s : Group σ) (i target : Nat) : Outcome × Group σ :=
  if s.log.flushedLSN < target then
    if !s.log.flushing then
      (.running, { s with log := { s.log with flushing := true } }.goto i (.elected target))
    else (.running, s.goto i (.waiting target))
  else (.flushed target, s.goto i .idle)

@[simp] theorem goto_log (s : Group σ) (i : Nat) (p : Pc σ) : (s.goto i p).log = s.log := rfl

@[simp] theorem goto_self (s : Group σ) (i : Nat) (p : Pc σ) : (s.goto i p).pc i = p :=
  Function.update_self ..

theorem goto_of_ne (s : Group σ) (p : Pc σ) {i j : Nat} (h : j ≠ i) : (s.goto i p).pc j = s.pc j :=
  Function.update_of_ne h ..

/-- The test looks at the log only. -/
theorem loop_goto (s : Group σ) (i target : Nat) (p : Pc σ) :
    (s.goto i p).loop i target = s.loop i target := by
  simp [loop, goto]

/-- The test leaves the log alone but for `flushing_`, and returns only at or
above its target. -/
theorem loop_frame (s : Group σ) (i target : Nat) :
    (s.loop i target).2.log = { s.log with flushing := (s.loop i target).2.log.flushing } ∧
      ∀ l, (s.loop i target).1 = .flushed l → l = target ∧ l ≤ s.log.flushedLSN := by
  unfold loop
  split
  · split <;> simp
  · exact ⟨rfl, fun l hl => by cases hl; exact ⟨rfl, by omega⟩⟩

/-- Only thread `i` could have led, and it moves to where it does not. -/
theorem not_leads_goto {s : Group σ} {i : Nat} {p : Pc σ} (hn : ∀ j, j ≠ i → ¬ (s.pc j).Leads)
    (hp : ¬ p.Leads) (j : Nat) : ¬ ((s.goto i p).pc j).Leads := by
  by_cases hj : j = i
  · rw [hj, goto_self]
    exact hp
  · rw [goto_of_ne s p hj]
    exact hn j hj

/-- Nobody leads and `P`, or one thread leads and knows `R`. -/
def OneLeader (s : Group σ) (P : Prop) (R : Pc σ → Prop) : Prop :=
  s.log.flushing = false ∧ (∀ i, ¬ (s.pc i).Leads) ∧ P ∨
    s.log.flushing = true ∧ ∃ k, R (s.pc k) ∧ ∀ i, i ≠ k → ¬ (s.pc i).Leads

section
variable {s : Group σ} {i : Nat} {p : Pc σ} {P : Prop} {R : Pc σ → Prop}

/-- The leader's thread is the only one with a leader's role. -/
theorem OneLeader.role (h : s.OneLeader P R) (hi : (s.pc i).Leads) :
    s.log.flushing = true ∧ R (s.pc i) ∧ ∀ j, j ≠ i → ¬ (s.pc j).Leads := by
  rcases h with ⟨-, hn, -⟩ | ⟨hf, k, hk, hn⟩
  · exact absurd hi (hn i)
  · obtain rfl : i = k := by
      by_contra hne
      exact hn i hne hi
    exact ⟨hf, hk, hn⟩

/-- A thread that does not lead moves. -/
theorem OneLeader.goto (h : s.OneLeader P R) (hR : ∀ p, R p → p.Leads) (hi : ¬ (s.pc i).Leads)
    (hp : ¬ p.Leads) : (s.goto i p).OneLeader P R := by
  rcases h with ⟨hf, hn, hP⟩ | ⟨hf, k, hk, hn⟩
  · exact .inl ⟨hf, not_leads_goto (fun j _ => hn j) hp, hP⟩
  · have hki : k ≠ i := by
      rintro rfl
      exact hi (hR _ hk)
    refine .inr ⟨hf, k, by rwa [goto_of_ne s p hki], fun j hj => ?_⟩
    by_cases hji : j = i
    · rw [hji, goto_self]
      exact hp
    · rw [goto_of_ne s p hji]
      exact hn j hj

/-- The leader moves. -/
theorem OneLeader.lead (hf : s.log.flushing = true) (hn : ∀ j, j ≠ i → ¬ (s.pc j).Leads) (hp : R p) :
    (s.goto i p).OneLeader P R :=
  .inr ⟨hf, i, by rwa [goto_self], fun j hj => by rw [goto_of_ne s p hj]; exact hn j hj⟩

/-- Thread `i` comes out of the test elected, waiting or idle. -/
theorem OneLeader.loop (h : s.OneLeader P R) (hR : ∀ p, R p → p.Leads) (hi : ¬ (s.pc i).Leads)
    (target : Nat) (he : P → R (.elected target)) : (s.loop i target).2.OneLeader P R := by
  unfold Group.loop
  split
  · split
    · next hf =>
      rcases h with ⟨-, hn, hP⟩ | ⟨hf', -⟩
      · exact lead rfl (fun j _ => hn j) (he hP)
      · rw [hf'] at hf
        cases hf
    · exact h.goto hR hi (by simp [Pc.Leads])
  · exact h.goto hR hi (by simp [Pc.Leads])

end

end Group

end DbInternals.Logging
