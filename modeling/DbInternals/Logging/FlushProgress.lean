import Mathlib.Algebra.BigOperators.Group.Finset.Basic
import DbInternals.Logging.FaultyFlush

/-!
# Flushes return

From a state with pending flushes on, the threads take any steps but new calls, no call fails, and
a `write` transfers something. Their costs count the steps and bytes that are left: a leader that
took its batch too early leads at most once more.

Results:
* `cost_step`: every step makes the costs smaller;
* `exec_live`: as long as a flush is pending, some thread can take a step;
* `flushes_return`: so all flushes return, within a bound, in whatever order the threads run.
-/
namespace DbInternals.Logging

open Mem DbInternals.Logging.Group

/-- What a thread asks for. -/
def Pc.target {σ : Type} : Pc σ → Option Nat
  | .idle => none
  | .elected t | .appending t _ _ | .written t _ | .waiting t => some t

namespace Faulty

/-- A step of a pending flush that gets on. -/
def Action.Helps : Action → Prop
  | .append .. | .flushTo _ => False
  | .syscall r => r ≠ .failed ∧ r ≠ .interrupted ∧ r ≠ .wrote 0
  | _ => True

def Phase.cost : Phase → Nat
  | .opening n => n + 5
  | .writing _ left _ => left + 4
  | .syncing _ => 3
  | .openingDir => 2
  | .syncingDir => 1

/-- The steps a thread has to take; a batch that ends before `currentLSN` is not the last one. -/
def pcCost (currentLSN : Nat) : Pc Phase → Nat
  | .idle => 0
  | .elected _ => 7
  | .appending _ b ph => ph.cost + 1 + if b < currentLSN then 7 else 0
  | .written _ b => 1 + if b < currentLSN then 7 else 0
  | .waiting _ => 8

/-- The bytes and steps of the threads. -/
def cost (threads : Finset Nat) (s : Group Phase) : Nat :=
  s.log.appendBuffer.length + ∑ i ∈ threads, pcCost s.log.currentLSN (s.pc i)

section
variable {s s' : Group Phase} {i t : Nat} {a : Action} {o : Outcome} {threads : Finset Nat} {p : Pc Phase}
  {ls ls' : List Event}

/-! ## Costs -/

/-- One thread moves. -/
theorem cost_goto (hi : i ∈ threads) (p : Pc Phase) : cost threads (s.goto i p) +
    pcCost s.log.currentLSN (s.pc i) = cost threads s + pcCost s.log.currentLSN p := by
  have hrest : ∑ j ∈ threads.erase i, pcCost s.log.currentLSN ((s.goto i p).pc j) =
      ∑ j ∈ threads.erase i, pcCost s.log.currentLSN (s.pc j) :=
    Finset.sum_congr rfl fun j hj => by rw [goto_of_ne s p (Finset.ne_of_mem_erase hj)]
  have hnew := Finset.add_sum_erase threads (fun j => pcCost s.log.currentLSN ((s.goto i p).pc j)) hi
  have hold := Finset.add_sum_erase threads (fun j => pcCost s.log.currentLSN (s.pc j)) hi
  rw [hrest] at hnew
  simp only [goto_self] at hnew
  simp only [cost, goto_log]
  omega

theorem cost_congr {log : LogManager} (hb : log.appendBuffer = s.log.appendBuffer)
    (hc : log.currentLSN = s.log.currentLSN) : cost threads { s with log } = cost threads s := by
  simp only [cost, hb, hc]

theorem cost_lt {log : LogManager} (hb : log.appendBuffer = s.log.appendBuffer)
    (hc : log.currentLSN = s.log.currentLSN) (hi : i ∈ threads)
    (hp : pcCost s.log.currentLSN p < pcCost s.log.currentLSN (s.pc i)) :
    cost threads ({ s with log }.goto i p) < cost threads s := by
  have h := cost_goto (s := { s with log }) hi p
  rw [cost_congr hb hc] at h
  dsimp only at h
  rw [hc] at h
  omega

/-- A thread comes out of the test elected or idle. -/
theorem cost_loop (hi : i ∈ threads) (h : s.log.flushing = false ∨ t ≤ s.log.flushedLSN) :
    cost threads (s.loop i t).2 + pcCost s.log.currentLSN (s.pc i) =
      cost threads s + if s.log.flushedLSN < t then 7 else 0 := by
  unfold Group.loop
  split
  · next hlt =>
    have hf : s.log.flushing = false := by
      cases h with
      | inl h => exact h
      | inr h => omega
    rw [if_pos (by simp [hf])]
    exact cost_goto (s := { s with log := { s.log with flushing := true } }) hi (.elected t)
  · exact cost_goto hi .idle

/-- An answer that helps brings the call on. -/
theorem Phase.cost_answer {ph ph' : Phase} {r : Reply} (h : ph.answer r = some (.call ph'))
    (hr : r ≠ .interrupted ∧ r ≠ .wrote 0) : ph'.cost < ph.cost := by
  unfold Phase.answer at h
  split at h
  · cases h
    unfold writeNext
    split <;> simp only [Phase.cost] <;> omega
  · next p left created n =>
    have hn : n ≠ 0 := fun e => hr.2 (by rw [e])
    split at h
    · cases h
      unfold writeNext
      split <;> simp only [Phase.cost] <;> omega
    · cases h
  · exact absurd rfl hr.1
  · split at h
    · cases h
      simp only [Phase.cost]
      omega
    · cases h
  · cases h
    exact Nat.lt_succ_self _
  · cases h
  · cases h
  · cases h

/-- Every step makes the costs smaller. -/
theorem cost_step (hs : Stepped s i a o s') (ha : a.Helps) (hi : i ∈ threads)
    (ht : ∀ t, (s.pc i).target = some t → t ≤ s.log.currentLSN) :
    cost threads s' < cost threads s := by
  cases hs with
  | append => exact ha.elim
  | @test _ target htest =>
    cases htest with
    | start => exact ha.elim
    | wake hpc hw =>
      have h := cost_loop hi hw
      rw [hpc, pcCost] at h
      split at h <;> omega
  | @copy target hpc =>
    let taken : Group Phase := { s with log := s.log.copyToFillBuffer.2 }
    have h : cost threads (taken.goto i (.appending target s.log.currentLSN
          (.opening s.log.appendBuffer.length))) + pcCost s.log.currentLSN (s.pc i) =
        cost threads taken + (s.log.appendBuffer.length + 5 + 1 +
          if s.log.currentLSN < s.log.currentLSN then 7 else 0) := cost_goto hi _
    have hb : cost threads taken + s.log.appendBuffer.length = cost threads s := by
      simp only [taken, cost, LogManager.copyToFillBuffer, List.length_nil]
      omega
    rw [hpc, pcCost, if_neg (Nat.lt_irrefl _)] at h
    change cost threads (taken.goto i _) < _
    omega
  | @call target b ph r next hpc hn =>
    cases next with
    | call ph' =>
      have hlt := Phase.cost_answer hn ⟨ha.2.1, ha.2.2⟩
      apply cost_lt rfl rfl hi
      rw [hpc]
      simp only [pcCost]
      omega
    | done =>
      apply cost_lt rfl rfl hi
      rw [hpc]
      simp only [pcCost]
      have hpos : 0 < ph.cost := by cases ph <;> simp only [Phase.cost] <;> omega
      omega
    | threw =>
      apply cost_lt rfl rfl hi
      rw [hpc]
      simp only [pcCost]
      omega
  | @publish target b hpc =>
    have hle := ht target (by rw [hpc]; rfl)
    have hb : cost threads { s with log := s.log.publish b } = cost threads s := cost_congr rfl rfl
    have h : cost threads (({ s with log := s.log.publish b } : Group Phase).loop i target).2 +
        pcCost s.log.currentLSN (s.pc i) = cost threads s + if b < target then 7 else 0 := by
      rw [← hb]
      exact cost_loop hi (.inl rfl)
    -- only a batch that ended early is not enough
    have hlast : (if b < target then 7 else 0) ≤ if b < s.log.currentLSN then 7 else 0 := by
      split <;> split <;> omega
    rw [hpc, pcCost] at h
    omega

/-! ## Steps that can be taken -/

/-- A set `flushing_` has a thread that leads, and a `write` is called for some bytes. -/
structure Live (s : Group Phase) : Prop where
  led : s.log.flushing = true → ∃ k, (s.pc k).Leads
  writes : ∀ i t b p left created, s.pc i = .appending t b (.writing p left created) → 0 < left

theorem Live.goto (hp : ∀ t b q left created, p = .appending t b (.writing q left created) → 0 < left)
    (hw : ∀ i t b q left created, s.pc i = .appending t b (.writing q left created) → 0 < left)
    (hl : s.log.flushing = true → p.Leads ∨ ∃ k, k ≠ i ∧ (s.pc k).Leads) : Live (s.goto i p) := by
  refine ⟨fun hf => ?_, fun j t b q left created hj => ?_⟩
  · cases hl hf with
    | inl hleads => exact ⟨i, by rwa [goto_self]⟩
    | inr hk =>
      obtain ⟨k, hki, hk⟩ := hk
      exact ⟨k, by rwa [goto_of_ne s p hki]⟩
  · by_cases hji : j = i
    · rw [hji, goto_self] at hj
      exact hp t b q left created hj
    · rw [goto_of_ne s p hji] at hj
      exact hw j t b q left created hj

theorem Live.loop (hw : ∀ i t b q left created, s.pc i = .appending t b (.writing q left created) →
    0 < left) (hl : s.log.flushing = true → ∃ k, k ≠ i ∧ (s.pc k).Leads) : Live (s.loop i t).2 := by
  unfold Group.loop
  split
  · split
    · exact Live.goto (by simp) hw fun _ => .inl (by simp [Pc.Leads])
    · exact Live.goto (by simp) hw fun hf => .inr (hl hf)
  · exact Live.goto (by simp) hw fun hf => .inr (hl hf)

theorem Phase.answer_writing {ph : Phase} {r : Reply} {q left : Nat} {created : Bool}
    (h : ph.answer r = some (.call (.writing q left created)))
    (hw : ∀ q left created, ph = .writing q left created → 0 < left) : 0 < left := by
  have hnext : ∀ {p n c}, writeNext p n c = .writing q left created → 0 < left := by
    intro p n c h
    unfold writeNext at h
    split at h
    · next hpos =>
      cases h
      exact hpos
    · cases h
  unfold Phase.answer at h
  split at h
  · exact hnext (Next.call.inj (Option.some.inj h))
  · split at h
    · exact hnext (Next.call.inj (Option.some.inj h))
    · cases h
  · cases h
    exact hw _ _ _ rfl
  · split at h <;> cases h
  · cases h
  · cases h
  · cases h
  · cases h

/-- Only a failure leaves `flushing_` without a leader. -/
theorem Live.step (h : Live s) (hs : Stepped s i a o s') (ho : ∀ t, o ≠ .threw t) : Live s' := by
  cases hs with
  | append ha =>
    rcases append_ok ha with ⟨-, rfl⟩ | ⟨-, -, rfl⟩
    · exact ⟨h.led, h.writes⟩
    · exact ⟨h.led, h.writes⟩
  | test htest =>
    apply Live.loop h.writes
    intro hf
    obtain ⟨k, hk⟩ := h.led hf
    refine ⟨k, ?_, hk⟩
    rintro rfl
    exact htest.not_leads hk
  | copy hpc => exact Live.goto (by simp) h.writes fun _ => .inl (by simp [Pc.Leads])
  | @call target b ph r next hpc hn =>
    cases next with
    | call ph' =>
      refine Live.goto (fun t b' q left created e => ?_) h.writes fun _ => .inl (by simp [Pc.Leads])
      cases e
      exact Phase.answer_writing hn fun q left created e => h.writes i _ _ _ _ _ (e ▸ hpc)
    | done => exact Live.goto (by simp) h.writes fun _ => .inl (by simp [Pc.Leads])
    | threw => exact absurd rfl (ho target)
  | publish hpc => exact Live.loop h.writes fun hf => by cases hf

/-- A step that helps can be taken. -/
def Gets (s : Group Phase) : Prop :=
  (∃ i, s.pc i ≠ .idle) → ∃ e s', groupCommit.step s e s' ∧ e.action.Helps

theorem gets_of_exec {x : Outcome × Group Phase} (h : exec s i a = some x) (ha : a.Helps) :
    ∃ e s', groupCommit.step s e s' ∧ e.action.Helps := ⟨⟨i, a, x.1⟩, x.2, h, ha⟩

theorem gets_answer {b : Nat} {ph : Phase} {r : Reply} {next : Next}
    (hpc : s.pc i = .appending t b ph) (hn : ph.answer r = some next) (hr : (Action.syscall r).Helps) :
    ∃ e s', groupCommit.step s e s' ∧ e.action.Helps := by
  refine gets_of_exec (i := i) (x := answered s i t b (ph.transfer r s.log.fillBuffer) next) ?_ hr
  simp only [exec, hpc, hn]
  rfl

/-- A leader waits for nobody. -/
theorem gets_leader (h : Live s) (hi : (s.pc i).Leads) :
    ∃ e s', groupCommit.step s e s' ∧ e.action.Helps := by
  cases hpc : s.pc i with
  | idle =>
    rw [hpc] at hi
    exact hi.elim
  | waiting t =>
    rw [hpc] at hi
    exact hi.elim
  | elected t =>
    exact gets_of_exec (i := i) (a := .copyToFillBuffer) (by simp only [exec, hpc]; rfl) trivial
  | written t b =>
    exact gets_of_exec (i := i) (a := .publish) (by simp only [exec, hpc]; rfl) trivial
  | appending t b ph =>
    cases ph with
    | opening n => exact gets_answer (r := .opened false) hpc rfl (by simp [Action.Helps])
    | writing p left created =>
      have hpos := h.writes i t b p left created hpc
      apply gets_answer (r := .wrote left) hpc (if_pos (Nat.le_refl _))
      simp only [Action.Helps, ne_eq, reduceCtorEq, not_false_eq_true, Reply.wrote.injEq, true_and]
      omega
    | syncing created => exact gets_answer (r := .ok) hpc rfl (by simp [Action.Helps])
    | openingDir => exact gets_answer (r := .ok) hpc rfl (by simp [Action.Helps])
    | syncingDir => exact gets_answer (r := .ok) hpc rfl (by simp [Action.Helps])

/-- As long as a flush is pending, some thread can take a step. -/
theorem Live.gets (h : Live s) : Gets s := by
  rintro ⟨i, hi⟩
  by_cases hleads : ∃ k, (s.pc k).Leads
  · obtain ⟨k, hk⟩ := hleads
    exact gets_leader h hk
  · have hf : s.log.flushing = false := by
      by_contra hf
      exact hleads (h.led (by simpa using hf))
    cases hpc : s.pc i with
    | idle => exact absurd hpc hi
    | waiting t =>
      refine gets_of_exec (i := i) (a := .wake) (x := s.loop i t) ?_ trivial
      simp [exec, hpc, hf]
    | elected t => exact absurd ⟨i, by rw [hpc]; trivial⟩ hleads
    | written t b => exact absurd ⟨i, by rw [hpc]; trivial⟩ hleads
    | appending t b ph => exact absurd ⟨i, by rw [hpc]; trivial⟩ hleads

/-! ## Runs -/

theorem helps_returns (hs : Stepped s i a o s') (ha : a.Helps) : ∀ t, o ≠ .threw t := by
  have htest : ∀ (s : Group Phase) t', ∀ t, (s.loop i t').1 ≠ .threw t := by
    intro s t' t
    unfold Group.loop
    split
    · split <;> simp
    · simp
  cases hs with
  | append => exact ha.elim
  | test => exact htest _ _
  | copy => simp
  | @call target b ph r next hpc hn =>
    cases next with
    | call | done => simp [answered]
    | threw =>
      -- only a failure throws
      refine absurd ?_ ha.1
      unfold Phase.answer at hn
      split at hn
      · cases hn
      · split at hn <;> cases hn
      · cases hn
      · split at hn <;> cases hn
      · cases hn
      · cases hn
      · rfl
      · cases hn
  | publish => exact htest _ _

/-- A thread asks for what its call says. -/
theorem Stepped.asks (hs : Stepped s i a o s') {j : Nat} (h : (s'.pc j).target = some t) :
    (s.pc j).target = some t ∨ i = j ∧ a = .flushTo t := by
  have hgoto : ∀ (s₁ : Group Phase) p, ((s₁.goto i p).pc j).target = some t →
      (i ≠ j ∧ (s₁.pc j).target = some t) ∨ i = j ∧ p.target = some t := by
    intro s₁ p hp
    by_cases hj : j = i
    · rw [hj, goto_self] at hp
      exact .inr ⟨hj.symm, hp⟩
    · rw [goto_of_ne s₁ p hj] at hp
      exact .inl ⟨Ne.symm hj, hp⟩
  have hloop : ∀ (s₁ : Group Phase) t', s₁.pc = s.pc → ((s₁.loop i t').2.pc j).target = some t →
      (s.pc j).target = some t ∨ i = j ∧ t' = t := by
    intro s₁ t' hpc hp
    rw [← hpc]
    unfold Group.loop at hp
    split at hp
    · split at hp
      · exact (hgoto _ _ hp).imp And.right fun h => ⟨h.1, Option.some.inj h.2⟩
      · exact (hgoto _ _ hp).imp And.right fun h => ⟨h.1, Option.some.inj h.2⟩
    · exact (hgoto _ _ hp).imp And.right fun h => by cases h.2
  cases hs with
  | append => exact .inl h
  | @test _ target htest =>
    rcases hloop s target rfl h with h | ⟨rfl, rfl⟩
    · exact .inl h
    · cases htest with
      | start => exact .inr ⟨rfl, rfl⟩
      | wake hpc => exact .inl (by rw [hpc]; rfl)
  | @copy target hpc =>
    rcases hgoto _ _ h with h' | ⟨rfl, h'⟩
    · exact .inl h'.2
    · exact .inl (by rw [hpc]; exact h')
  | @call target b ph r next hpc hn =>
    left
    cases next with
    | call ph' =>
      rcases hgoto _ _ h with h' | ⟨rfl, h'⟩
      · exact h'.2
      · rw [hpc]
        exact h'
    | done =>
      rcases hgoto _ _ h with h' | ⟨rfl, h'⟩
      · exact h'.2
      · rw [hpc]
        exact h'
    | threw =>
      rcases hgoto _ _ h with h' | ⟨rfl, h'⟩
      · exact h'.2
      · cases h'
  | @publish target b hpc =>
    rcases hloop { s with log := s.log.publish b } target rfl h with h | ⟨rfl, rfl⟩
    · exact .inl h
    · exact .inl (by rw [hpc]; rfl)

/-- A run without a failure. -/
theorem exec_live (h : groupCommit.Exec ls s) (hok : ∀ e ∈ ls, ∀ t, e.outcome ≠ .threw t) :
    Live s ∧ ∀ j t, (s.pc j).target = some t → ∃ e ∈ ls, e.thread = j ∧ e.action = .flushTo t := by
  induction h with
  | nil h0 =>
    obtain ⟨-, -, -, h4, -, h6⟩ := h0
    refine ⟨⟨fun hf => ?_, fun i t b p left created hi => ?_⟩, fun j t hj => ?_⟩
    · rw [h4] at hf
      cases hf
    · rw [h6] at hi
      cases hi
    · rw [h6] at hj
      cases hj
  | @snoc ls s s' e he hs ih =>
    obtain ⟨hlive, hasks⟩ := ih fun e' he' => hok e' (List.mem_append_left _ he')
    have hstep := exec_stepped hs
    refine ⟨hlive.step hstep (hok e (by simp)), fun j t hj => ?_⟩
    cases hstep.asks hj with
    | inl hj =>
      obtain ⟨e', he', h⟩ := hasks j t hj
      exact ⟨e', List.mem_append_left _ he', h⟩
    | inr hj => exact ⟨e, by simp, hj⟩

/-- No step that helps assigns an LSN. -/
theorem helps_currentLSN (hs : Stepped s i a o s') (ha : a.Helps) :
    s'.log.currentLSN = s.log.currentLSN := by
  cases hs with
  | append => exact ha.elim
  | @test _ target => rw [(s.loop_frame i target).1]
  | copy => rfl
  | @call target b ph r next => rw [answered_log]
  | @publish target b => rw [(Group.loop_frame { s with log := s.log.publish b } i target).1]; rfl

/-- Where no flush asks for more than the records that were accepted, and none has failed, all of them
return: whatever the threads do there is a next step until none is pending, and a bound on the steps. -/
theorem flushes_return (h : groupCommit.Exec ls s) (hf : s.log.file.length < 2 ^ 63)
    (hok : ∀ e ∈ ls, ∀ t, e.outcome ≠ .threw t)
    (hreq : ∀ e ∈ ls, ∀ t, e.action = .flushTo t → t ≤ (accepted ls).length) :
    ∃ n, ∀ tr, groupCommit.Path s tr → LTS.Meets (fun _ e => e.action.Helps) tr →
      tr.length ≤ n ∧ LTS.Always Gets s tr := by
  obtain ⟨hlive, hasks⟩ := exec_live h hok
  have hcur := (Inv.exec h hf).currentLSN
  let threads := (ls.map Event.thread).toFinset
  let Pending : Group Phase → Prop := fun s => Live s ∧ s.log.currentLSN = (accepted ls).length ∧
    ∀ j t, (s.pc j).target = some t → j ∈ threads ∧ t ≤ (accepted ls).length
  have hpending : Pending s := by
    refine ⟨hlive, hcur, fun j t hj => ?_⟩
    obtain ⟨e, he, rfl, ha⟩ := hasks j t hj
    exact ⟨List.mem_toFinset.mpr (List.mem_map_of_mem he), hreq e he t ha⟩
  have hkeeps : ∀ s e s', Pending s → groupCommit.step s e s' → e.action.Helps →
      Pending s' ∧ cost threads s' < cost threads s := by
    rintro s ⟨i, a, o⟩ s' ⟨hlive, hcur, hasks⟩ hs ha
    have hstep : Stepped s i a o s' := exec_stepped hs
    have hasks' : ∀ j t, (s'.pc j).target = some t → (s.pc j).target = some t := by
      intro j t hj
      apply (hstep.asks hj).resolve_right
      intro h
      obtain ⟨-, rfl⟩ := h
      exact ha
    refine ⟨⟨hlive.step hstep (helps_returns hstep ha), (helps_currentLSN hstep ha).trans hcur,
      fun j t hj => hasks j t (hasks' j t hj)⟩, ?_⟩
    -- the thread that takes the step has a target
    have htarget : ∃ t, (s.pc i).target = some t := by
      cases hstep with
      | append => exact ha.elim
      | @test _ target htest =>
        cases htest with
        | start => exact ha.elim
        | wake hpc => exact ⟨target, by rw [hpc]; rfl⟩
      | @copy target hpc => exact ⟨target, by rw [hpc]; rfl⟩
      | @call target _ _ _ _ hpc => exact ⟨target, by rw [hpc]; rfl⟩
      | @publish target _ hpc => exact ⟨target, by rw [hpc]; rfl⟩
    obtain ⟨t, ht⟩ := htarget
    exact cost_step hstep ha (hasks _ t ht).1 fun t ht => hcur ▸ (hasks _ t ht).2
  refine ⟨cost threads s, fun tr htr hall => ⟨htr.length_le hkeeps hpending hall, ?_⟩⟩
  have h := htr.always (fun s e s' hp hs ha => (hkeeps s e s' hp hs ha).1) hpending hall
  exact ⟨h.1.1.gets, fun x hx => (h.2 x hx).1.gets⟩

end

/-- Thread 1 is elected, and thread 2 waits for it. -/
theorem flushes_return_two : ∃ s, (∃ t, s.pc 1 = .elected t) ∧ (∃ t, s.pc 2 = .waiting t) ∧
    ∃ n, ∀ tr, groupCommit.Path s tr → LTS.Meets (fun _ e => e.action.Helps) tr →
      tr.length ≤ n ∧ LTS.Always Gets s tr := by
  generalize hr : recordOf (txnRecord 1 .txnCommit INVALID_LSN) [] [] 0 = r
  let s₀ : Group Phase := ⟨{ file := [] }, fun _ => .idle⟩
  let s₁ : Group Phase := ⟨{ file := [], currentLSN := 1, appendBuffer := r }, s₀.pc⟩
  let s₂ : Group Phase := { s₁ with log := { s₁.log with flushing := true } }.goto 1 (.elected 1)
  let s₃ : Group Phase := s₂.goto 2 (.waiting 1)
  have h₀ : groupCommit.Exec [] s₀ := .nil ⟨rfl, rfl, rfl, rfl, rfl, fun _ => rfl⟩
  have h₁ : groupCommit.Exec _ s₁ := h₀.snoc
    (l := ⟨0, .append (txnRecord 1 .txnCommit INVALID_LSN) [] [], .appended 0⟩) (by subst hr; rfl)
  have h₂ : groupCommit.Exec _ s₂ := h₁.snoc (l := ⟨1, .flushTo 1, .running⟩) (by rfl)
  have h₃ : groupCommit.Exec _ s₃ := h₂.snoc (l := ⟨2, .flushTo 1, .running⟩) (by rfl)
  refine ⟨s₃, ⟨1, rfl⟩, ⟨1, rfl⟩, flushes_return h₃ (Nat.two_pow_pos 63) (by simp) ?_⟩
  simp [accepted, INVALID_LSN]

end Faulty

end DbInternals.Logging
