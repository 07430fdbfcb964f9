import DbInternals.Storage.DiskFaults
import DbInternals.Storage.DiskScheduler
import Mathlib.Data.List.ReduceOption

/-!
# The order requests run in

Results:
* `visit_ends`, `visit_stuck`: a visit runs the disk call and sets the promise, once;
  only a call without defined behaviour stops the worker;
* `Ordered.step`: what was put is what ran, what the worker holds and what is queued,
  in that order;
* `requests_ordered`: over any interleaving, the requests put before the shutdown token
  run once each in the order they were put, which keeps each client's order; every
  promise is set once, to what its own disk call returned or threw.
-/
namespace DbInternals.Storage

/-! ## One visit -/

/-- The disk call of a request whose buffer holds `input`. -/
def DiskRequest.diskCall (input : Mem) : DiskRequest → DiskM (Option Nat)
  | .read pageId _ _ => do
    let _ ← readPage pageId
    return none
  | .write pageId _ _ => do
    writePage pageId input
    return none
  | .allocate _ => do return some (← allocatePage)
  | .deallocate pageId _ => do
    deallocatePage pageId
    return none

/-- How the promise of a request is set, and what the disk becomes. -/
def DiskRequest.outcome (r : DiskRequest) (input : Mem) (d : DiskManager) : Promise × DiskManager :=
  match r.diskCall input d with
  | .ok v d' => (.value v, d')
  | .error e d' => (.exception e, d')

/-- A disk call throws what the worker catches, unless it meets an overfull free-list page. -/
theorem diskCall_throws {r : DiskRequest} {input : Mem} {d d' : DiskManager} {e : Fault}
    (h : Throws (r.diskCall input) d e d') : Caught e ∨ Overfull d := by
  cases r with
  | read pageId data done =>
    exact .inl (ThrowsOnly.bind (readPage_caught _) (fun _ => .pure _) _ _ _ h)
  | write pageId data done =>
    exact .inl (ThrowsOnly.bind (writePage_caught _ _) (fun _ => .pure _) _ _ _ h)
  | allocate done =>
    obtain h₁ | ⟨_, _, -, h₁⟩ := Throws.bind_iff.mp h
    · exact allocatePage_throws h₁
    · cases h₁
  | deallocate pageId done =>
    obtain h₁ | ⟨_, _, -, h₁⟩ := Throws.bind_iff.mp h
    · exact deallocatePage_throws h₁
    · cases h₁

section
variable {C : Type} {s s' : DiskScheduler C} {r : DiskRequest} {v : Option Nat} {e : Fault}
  {p : Nat} {o : Promise}

theorem onDisk_ends {α : Type} {x : DiskM α} {a : α} (h : Ends (onDisk x) s a s') :
    ∃ d, Ends x s.diskManager a d ∧ s' = { s with diskManager := d } :=
  ends_zoom.mp h

theorem onDisk_throws {α : Type} {x : DiskM α} (h : Throws (onDisk x) s e s') :
    ∃ d, Throws x s.diskManager e d ∧ s' = { s with diskManager := d } :=
  throws_zoom.mp h

theorem call_ends (h : Ends r.call s v s') :
    ∃ d m, Ends (r.diskCall (s.input r)) s.diskManager v d ∧
      s' = { s with diskManager := d, memory := m } := by
  cases r with
  | read pageId data done =>
    obtain ⟨page, s₁, ho, h₁⟩ := Ends.bind_iff.mp h
    obtain ⟨d, hd, rfl⟩ := onDisk_ends ho
    cases h₁
    exact ⟨d, _, hd.bind (.pure _ _), rfl⟩
  | write pageId data done =>
    replace h := Ends.rest (Ends.get s) h
    obtain ⟨_, s₁, ho, h₁⟩ := Ends.bind_iff.mp h
    obtain ⟨d, hd, rfl⟩ := onDisk_ends ho
    cases h₁
    exact ⟨d, _, hd.bind (.pure _ _), rfl⟩
  | allocate done =>
    obtain ⟨id, s₁, ho, h₁⟩ := Ends.bind_iff.mp h
    obtain ⟨d, hd, rfl⟩ := onDisk_ends ho
    cases h₁
    exact ⟨d, _, hd.bind (.pure _ _), rfl⟩
  | deallocate pageId done =>
    obtain ⟨_, s₁, ho, h₁⟩ := Ends.bind_iff.mp h
    obtain ⟨d, hd, rfl⟩ := onDisk_ends ho
    cases h₁
    exact ⟨d, _, hd.bind (.pure _ _), rfl⟩

/-- A call that throws leaves all but the disk alone. -/
theorem call_throws (h : Throws r.call s e s') :
    ∃ d, Throws (r.diskCall (s.input r)) s.diskManager e d ∧ s' = { s with diskManager := d } := by
  cases r with
  | read pageId data done =>
    obtain h₁ | ⟨page, s₁, -, h₁⟩ := Throws.bind_iff.mp h
    · obtain ⟨d, hd, rfl⟩ := onDisk_throws h₁
      exact ⟨d, Throws.bind_iff.mpr (.inl hd), rfl⟩
    · cases h₁
  | write pageId data done =>
    replace h := Throws.rest (Ends.get s) h
    obtain h₁ | ⟨_, s₁, -, h₁⟩ := Throws.bind_iff.mp h
    · obtain ⟨d, hd, rfl⟩ := onDisk_throws h₁
      exact ⟨d, Throws.bind_iff.mpr (.inl hd), rfl⟩
    · cases h₁
  | allocate done =>
    obtain h₁ | ⟨id, s₁, -, h₁⟩ := Throws.bind_iff.mp h
    · obtain ⟨d, hd, rfl⟩ := onDisk_throws h₁
      exact ⟨d, Throws.bind_iff.mpr (.inl hd), rfl⟩
    · cases h₁
  | deallocate pageId done =>
    obtain h₁ | ⟨_, s₁, -, h₁⟩ := Throws.bind_iff.mp h
    · obtain ⟨d, hd, rfl⟩ := onDisk_throws h₁
      exact ⟨d, Throws.bind_iff.mpr (.inl hd), rfl⟩
    · cases h₁

/-- A promise that is pending is set. -/
theorem settle_pending (hp : s.promises p = some .pending) :
    Ends (settle p o) s () { s with
      promises := Function.update s.promises p (some o), settled := s.settled ++ [(p, o)] } := by
  apply (Ends.get s).bind
  simp only [hp]
  exact Ends.modify _ s

/-- A handled computation returns, or throws an exception that the handler catches. -/
theorem catchAll_ends {x : SchedulerM C Unit} {handler : Fault → SchedulerM C Unit} :
    Ends (catchAll x handler) s () s' ↔ Ends x s () s' ∨
      ∃ e s₁, Throws x s e s₁ ∧ e.isException = true ∧ Ends (handler e) s₁ () s' := by
  unfold Ends Throws catchAll
  cases hx : x s with
  | ok a s₁ => simp
  | error e s₁ =>
    constructor
    · intro h
      simp only at h
      split at h
      · exact .inr ⟨e, s₁, rfl, ‹_›, h⟩
      · cases h
    · rintro (h | ⟨e, s₁, h, he, hh⟩)
      · cases h
      · cases h
        simp only [he, if_true]
        exact hh

/-- A visit of a request with a pending promise runs its disk call and sets the promise. -/
theorem visit_ends (hp : s.promises r.done = some .pending) (h : Ends (visit r) s () s') :
    ∃ m, s' = { s with
      diskManager := (r.outcome (s.input r) s.diskManager).2
      memory := m
      promises := Function.update s.promises r.done
        (some (r.outcome (s.input r) s.diskManager).1)
      settled := s.settled ++ [(r.done, (r.outcome (s.input r) s.diskManager).1)] } := by
  obtain h₁ | ⟨e, s₁, h₁, he, h₂⟩ := catchAll_ends.mp h
  · obtain ⟨v, s₂, hc, hs⟩ := Ends.bind_iff.mp h₁
    obtain ⟨d, m, hd, rfl⟩ := call_ends hc
    obtain ⟨-, rfl⟩ := hs.unique (settle_pending hp)
    refine ⟨m, ?_⟩
    rw [DiskRequest.outcome, show r.diskCall _ _ = _ from hd]
  · obtain h₃ | ⟨v, s₂, hc, hs⟩ := Throws.bind_iff.mp h₁
    · obtain ⟨d, hd, rfl⟩ := call_throws h₃
      obtain ⟨-, rfl⟩ := h₂.unique (settle_pending hp)
      refine ⟨s.memory, ?_⟩
      rw [DiskRequest.outcome, show r.diskCall _ _ = _ from hd]
    · obtain ⟨d, m, -, rfl⟩ := call_ends hc
      exact (hs.not_ends (settle_pending hp)).elim

/-- A visit that does not return has no defined disk call. -/
theorem visit_stuck (hp : s.promises r.done = some .pending) (h : ¬ ∃ s', Ends (visit r) s () s') :
    ∃ e d, Throws (r.diskCall (s.input r)) s.diskManager e d ∧ e.isException = false := by
  cases hx : (r.call : SchedulerM C _) s with
  | ok v s₁ =>
    obtain ⟨d, m, -, rfl⟩ := call_ends hx
    exact absurd ⟨_, catchAll_ends.mpr (.inl (Ends.bind hx (settle_pending hp)))⟩ h
  | error e s₁ =>
    obtain ⟨d, hd, rfl⟩ := call_throws hx
    refine ⟨e, d, hd, ?_⟩
    by_contra he
    have he' : e.isException = true := by simpa using he
    have hthrows := Throws.bind_iff (f := fun v => settle r.done (.value v)).mpr (.inl hx)
    exact h ⟨_, catchAll_ends.mpr (.inr ⟨e, _, hthrows, he', settle_pending hp⟩)⟩

/-! ## What was put -/

/-- What the worker has taken out and not run. -/
def Worker.taken : Worker → List (Option DiskRequest)
  | .waiting => []
  | .visiting r => [some r]
  | .returned => [none]

/-- The requests put and not yet run. -/
def DiskScheduler.backlog (s : DiskScheduler C) : List DiskRequest :=
  (s.worker.taken ++ s.requestQueue.q).reduceOption

/-- All requests put, in order. -/
def DiskScheduler.requests (s : DiskScheduler C) : List DiskRequest :=
  s.executed.map Execution.request ++ s.backlog

/-- What was put is what ran, what the worker took and what is queued; only what has not run has a
pending promise. -/
structure Ordered (s : DiskScheduler C) : Prop where
  puts : s.puts.map (Option.map Prod.snd)
    = s.executed.map (fun x => some x.request) ++ s.worker.taken ++ s.requestQueue.q
  nodup : (s.requests.map DiskRequest.done).Nodup
  backlog : ∀ r ∈ s.backlog, s.promises r.done = some .pending
  executed : ∀ x ∈ s.executed, s.promises x.request.done = some x.outcome
  settled : s.settled = s.executed.map fun x => (x.request.done, x.outcome)
  calls : ∀ c, ∀ r ∈ s.calls c, s.promises r.done = some .pending
  fresh : ∀ c, ∀ r ∈ s.calls c, r.done ∉ s.requests.map DiskRequest.done
  callNodup : ∀ c, ((s.calls c).map DiskRequest.done).Nodup
  apart : ∀ c c' r r', r ∈ s.calls c → r' ∈ s.calls c' → r.done = r'.done → c = c'

theorem ordered_create (d : DiskManager) (memory : Nat → Mem) :
    Ordered (DiskScheduler.create d memory : DiskScheduler C) where
  puts := rfl
  nodup := List.nodup_nil
  backlog := by simp [DiskScheduler.create, DiskScheduler.backlog, Worker.taken, List.reduceOption]
  executed := by simp [DiskScheduler.create]
  settled := rfl
  calls := by simp [DiskScheduler.create]
  fresh := by simp [DiskScheduler.create]
  callNodup := by simp [DiskScheduler.create]
  apart := by simp [DiskScheduler.create]

/-- Every request known to the scheduler has a promise. -/
theorem Ordered.known (h : Ordered s) (hr : r ∈ s.requests) : s.promises r.done ≠ none := by
  rw [DiskScheduler.requests, List.mem_append, List.mem_map] at hr
  obtain ⟨x, hx, rfl⟩ | hr := hr
  · rw [h.executed x hx]
    simp
  · rw [h.backlog r hr]
    simp

section
variable [DecidableEq C] {c : C} {rs : List DiskRequest}

/-- A call begins with promises nobody has seen. -/
theorem Ordered.begun (h : Ordered s) (hf : s.Fresh rs) :
    Ordered (s.begun c rs rs) := by
  have hnew : ∀ p ∈ rs.map DiskRequest.done, s.promises p = none := by
    intro p hp
    obtain ⟨r, hr, rfl⟩ := List.mem_map.mp hp
    exact hf.2 r hr
  have hkeep : ∀ p o, s.promises p = some o → (s.begun c rs rs).promises p = some o := by
    intro p o hp
    refine (if_neg fun hm => ?_).trans hp
    rw [hnew p hm] at hp
    cases hp
  have hcalls : ∀ c' r, r ∈ (s.begun c rs rs).calls c' → c' = c ∧ r ∈ rs ∨ c' ≠ c ∧ r ∈ s.calls c' := by
    intro c' r hr
    simp only [DiskScheduler.begun, Function.update_apply] at hr
    split at hr
    · exact .inl ⟨‹_›, hr⟩
    · exact .inr ⟨‹_›, hr⟩
  refine
    { puts := h.puts, nodup := h.nodup, backlog := ?_, executed := ?_, settled := h.settled
      calls := ?_, fresh := ?_, callNodup := ?_, apart := ?_ }
  · exact fun r hr => hkeep _ _ (h.backlog r hr)
  · exact fun x hx => hkeep _ _ (h.executed x hx)
  · intro c' r hr
    obtain ⟨-, hr⟩ | ⟨-, hr⟩ := hcalls c' r hr
    · exact if_pos (List.mem_map_of_mem hr)
    · exact hkeep _ _ (h.calls c' r hr)
  · intro c' r hr hmem
    obtain ⟨-, hr⟩ | ⟨-, hr⟩ := hcalls c' r hr
    · obtain ⟨r', hr', hd⟩ := List.mem_map.mp hmem
      apply h.known hr'
      rw [hd]
      exact hf.2 r hr
    · exact h.fresh c' r hr hmem
  · intro c'
    simp only [DiskScheduler.begun, Function.update_apply]
    split
    · exact hf.1
    · exact h.callNodup c'
  · intro c₁ c₂ r r' hr hr' hd
    obtain ⟨e₁, hr⟩ | ⟨e₁, hr⟩ := hcalls c₁ r hr <;>
      obtain ⟨e₂, hr'⟩ | ⟨e₂, hr'⟩ := hcalls c₂ r' hr'
    · rw [e₁, e₂]
    · have h₁ := hf.2 r hr
      rw [hd, h.calls c₂ r' hr'] at h₁
      cases h₁
    · have h₁ := hf.2 r' hr'
      rw [← hd, h.calls c₁ r hr] at h₁
      cases h₁
    · exact h.apart c₁ c₂ r r' hr hr' hd

/-- A put moves the next request of a call to the end of the queue. -/
theorem Ordered.put {rest : List DiskRequest} (h : Ordered s) (hc : s.calls c = r :: rest) :
    Ordered { s with
      requestQueue := s.requestQueue.put (some r)
      calls := Function.update s.calls c rest
      puts := s.puts ++ [some (c, r)] } := by
  have hback : (s.worker.taken ++ (s.requestQueue.put (some r)).q).reduceOption = s.backlog ++ [r] := by
    rw [Channel.put, ← List.append_assoc, List.reduceOption_append]
    rfl
  have hreq : s.executed.map Execution.request ++ (s.backlog ++ [r]) = s.requests ++ [r] := by
    rw [DiskScheduler.requests, List.append_assoc]
  have hr : r ∈ s.calls c := by rw [hc]; exact List.mem_cons_self
  have hcalls : ∀ c' r', r' ∈ Function.update s.calls c rest c' →
      r' ∈ s.calls c' ∧ r'.done ≠ r.done := by
    intro c' r' hr'
    have hn := h.callNodup c
    rw [hc, List.map_cons, List.nodup_cons] at hn
    rw [Function.update_apply] at hr'
    split at hr'
    · subst c'
      refine ⟨by rw [hc]; exact List.mem_cons_of_mem _ hr', fun hd => hn.1 ?_⟩
      exact List.mem_map.mpr ⟨r', hr', hd⟩
    · exact ⟨hr', fun hd => ‹¬ c' = c› (h.apart c' c r' r hr' hr hd)⟩
  refine
    { puts := ?_, nodup := ?_, backlog := ?_, executed := h.executed, settled := h.settled
      calls := fun c' r' hr' => h.calls c' r' (hcalls c' r' hr').1, fresh := ?_, callNodup := ?_
      apart := fun c₁ c₂ r₁ r₂ h₁ h₂ => h.apart c₁ c₂ r₁ r₂ (hcalls c₁ r₁ h₁).1 (hcalls c₂ r₂ h₂).1 }
  · simp only [List.map_append, h.puts, Channel.put]
    simp
  · rw [DiskScheduler.requests, DiskScheduler.backlog, hback, hreq, List.map_append,
      List.nodup_append]
    refine ⟨h.nodup, by simp, ?_⟩
    rintro p hp _ hr' rfl
    rw [List.map_singleton, List.mem_singleton] at hr'
    exact h.fresh c r hr (hr' ▸ hp)
  · intro r' hr'
    rw [DiskScheduler.backlog, hback, List.mem_append, List.mem_singleton] at hr'
    obtain hr' | rfl := hr'
    · exact h.backlog r' hr'
    · exact h.calls c r' hr
  · intro c' r' hr' hmem
    obtain ⟨hr', hne⟩ := hcalls c' r' hr'
    rw [DiskScheduler.requests, DiskScheduler.backlog, hback, hreq, List.map_append,
      List.mem_append, List.map_singleton, List.mem_singleton] at hmem
    obtain hmem | hd := hmem
    · exact h.fresh c' r' hr' hmem
    · exact hne hd
  · intro c'
    simp only [Function.update_apply]
    split
    · have hn := h.callNodup c
      rw [hc, List.map_cons, List.nodup_cons] at hn
      exact hn.2
    · exact h.callNodup c'

omit [DecidableEq C] in
/-- Where the requests that wait stay the same, so does everything known of them. -/
theorem Ordered.requeue (h : Ordered s) {queue : Channel (Option DiskRequest)} {w : Worker}
    {puts : List (Option (C × DiskRequest))}
    (hputs : puts.map (Option.map Prod.snd)
      = s.executed.map (fun x => some x.request) ++ w.taken ++ queue.q)
    (hback : (w.taken ++ queue.q).reduceOption = s.backlog) :
    Ordered { s with requestQueue := queue, worker := w, puts := puts } := by
  refine
    { puts := hputs, nodup := ?_, backlog := ?_, executed := h.executed, settled := h.settled
      calls := h.calls, fresh := ?_, callNodup := h.callNodup, apart := h.apart }
  · rw [DiskScheduler.requests, DiskScheduler.backlog, hback]
    exact h.nodup
  · rw [DiskScheduler.backlog, hback]
    exact h.backlog
  · rw [DiskScheduler.requests, DiskScheduler.backlog, hback]
    exact h.fresh

omit [DecidableEq C] in
/-- The worker takes the front of the queue. -/
theorem Ordered.get (h : Ordered s) {x : Option DiskRequest} {queue : Channel (Option DiskRequest)}
    (hw : s.worker = .waiting) (hq : s.requestQueue.get = some (x, queue)) {w : Worker}
    (hx : w.taken = [x]) : Ordered { s with requestQueue := queue, worker := w } := by
  have hsame : w.taken ++ queue.q = s.worker.taken ++ s.requestQueue.q := by
    unfold Channel.get at hq
    split at hq
    · cases hq
    · cases hq
      rw [hx, hw, ‹s.requestQueue.q = _›]
      rfl
  refine h.requeue ?_ ?_
  · rw [h.puts, List.append_assoc, ← hsame, ← List.append_assoc]
  · rw [hsame]
    rfl

omit [DecidableEq C] in
/-- The request the worker holds has run. -/
theorem Ordered.execute (h : Ordered s) (hw : s.worker = .visiting r) {d : DiskManager}
    {m : Nat → Mem} {x : Execution} (hx : x.request = r) :
    Ordered { s with
      diskManager := d
      memory := m
      worker := .waiting
      promises := Function.update s.promises r.done (some x.outcome)
      executed := s.executed ++ [x]
      settled := s.settled ++ [(r.done, x.outcome)] } := by
  subst hx
  have hback : s.backlog = x.request :: s.requestQueue.q.reduceOption := by
    rw [DiskScheduler.backlog, hw]
    rfl
  have hreq : (s.executed ++ [x]).map Execution.request ++ s.requestQueue.q.reduceOption
      = s.requests := by
    rw [DiskScheduler.requests, hback, List.map_append, List.append_assoc]
    rfl
  have hn := h.nodup
  rw [DiskScheduler.requests, hback, List.map_append, List.map_cons, List.nodup_append,
    List.nodup_cons] at hn
  obtain ⟨-, ⟨hrest, -⟩, hapart⟩ := hn
  have hmem : x.request ∈ s.requests := by
    rw [DiskScheduler.requests, hback]
    exact List.mem_append_right _ List.mem_cons_self
  have hkeep : ∀ p o, p ≠ x.request.done → s.promises p = some o →
      Function.update s.promises x.request.done (some x.outcome) p = some o := by
    intro p o hp ho
    rw [Function.update_of_ne hp, ho]
  refine
    { puts := ?_, nodup := ?_, backlog := ?_, executed := ?_, settled := ?_, calls := ?_, fresh := ?_
      callNodup := h.callNodup, apart := h.apart }
  · rw [h.puts, hw, List.map_append]
    simp [Worker.taken]
  · exact (congrArg (fun l => (l.map DiskRequest.done).Nodup) hreq).mpr h.nodup
  · intro r hr
    refine hkeep _ _ ?_ (h.backlog r (by rw [hback]; exact List.mem_cons_of_mem _ hr))
    intro hd
    exact hrest (hd ▸ List.mem_map_of_mem hr)
  · intro y hy
    rw [List.mem_append, List.mem_singleton] at hy
    obtain hy | rfl := hy
    · refine hkeep _ _ ?_ (h.executed y hy)
      exact hapart _ (List.mem_map_of_mem (List.mem_map_of_mem hy)) _ List.mem_cons_self
    · exact Function.update_self ..
  · rw [h.settled, List.map_append]
    rfl
  · intro c r hr
    refine hkeep _ _ ?_ (h.calls c r hr)
    intro hd
    exact h.fresh c r hr (hd ▸ List.mem_map_of_mem hmem)
  · intro c r hr hd
    exact h.fresh c r hr ((congrArg (fun l => r.done ∈ l.map DiskRequest.done) hreq).mp hd)

omit [DecidableEq C] in
theorem Ordered.shutdown (h : Ordered s) :
    Ordered { s with requestQueue := s.requestQueue.put none, puts := s.puts ++ [none] } := by
  refine h.requeue (w := s.worker) ?_ ?_
  · rw [List.map_append, h.puts, Channel.put, List.append_assoc]
    rfl
  · rw [Channel.put, ← List.append_assoc, List.reduceOption_append]
    exact List.append_nil _

omit [DecidableEq C] in
/-- The request the worker holds has a pending promise. -/
theorem Ordered.visiting (h : Ordered s) (hw : s.worker = .visiting r) :
    s.promises r.done = some .pending := by
  apply h.backlog r
  rw [DiskScheduler.backlog, hw]
  exact List.mem_cons_self

theorem Ordered.step {l : Event C} (h : Ordered s) (hs : Step s l s') : Ordered s' := by
  cases hs with
  | schedule c requests hc hf =>
    rw [schedule_eq]
    exact h.begun hf
  | scheduleSingle c request hc hf => exact h.begun hf
  | put c r rest hc => exact h.put hc
  | store data m =>
    exact ⟨h.puts, h.nodup, h.backlog, h.executed, h.settled, h.calls, h.fresh, h.callNodup, h.apart⟩
  | device io =>
    exact ⟨h.puts, h.nodup, h.backlog, h.executed, h.settled, h.calls, h.fresh, h.callNodup, h.apart⟩
  | shutdown => exact h.shutdown
  | getRequest r queue hw hq => exact h.get hw hq rfl
  | getToken queue hw hq => exact h.get hw hq rfl
  | execute s₁ r outcome hw hv ho =>
    obtain ⟨m, rfl⟩ := visit_ends (h.visiting hw) hv
    simp only [Function.update_self, Option.some.injEq] at ho
    subst outcome
    exact h.execute (x := ⟨r, s.input r, s.diskManager.io, _⟩) hw rfl

/-! ## Runs -/

/-- The worker's own steps. -/
def Event.isWorker : Event C → Bool
  | .get => true
  | .execute => true
  | _ => false

/-- What a client put, in order. -/
def byClient (c : C) (puts : List (Option (C × DiskRequest))) : List DiskRequest :=
  (puts.reduceOption.filter fun x => x.1 = c).map Prod.snd

/-- What a client submitted in its calls, in order. -/
def submissions (c : C) (ls : List (Event C)) : List DiskRequest :=
  ls.flatMap fun l => if l.caller = some c then l.requests else []

theorem submissions_append (c : C) (ls : List (Event C)) (l : Event C) :
    submissions c (ls ++ [l]) = submissions c ls ++ if l.caller = some c then l.requests else [] := by
  simp [submissions]

theorem byClient_append (c : C) (puts : List (Option (C × DiskRequest))) (c' : C) :
    byClient c (puts ++ [some (c', r)]) = byClient c puts ++ if c' = c then [r] else [] := by
  unfold byClient
  rw [List.reduceOption_append, List.reduceOption_singleton, Option.toList_some, List.filter_append,
    List.map_append]
  split
  · rw [List.filter_cons_of_pos (by simpa), List.filter_nil, List.map_singleton]
  · rw [List.filter_cons_of_neg (by simpa), List.filter_nil, List.map_nil]

omit [DecidableEq C] in
theorem reduceOption_token (puts : List (Option (C × DiskRequest))) :
    (puts ++ [none]).reduceOption = puts.reduceOption := by
  rw [List.reduceOption_append]
  exact List.append_nil _

/-- A client's requests are put or still to be put, in the order of its calls. -/
theorem client_step {l : Event C} (h : Ordered s) (hs : Step s l s') (c : C) :
    byClient c s'.puts ++ s'.calls c
      = byClient c s.puts ++ s.calls c ++ if l.caller = some c then l.requests else [] := by
  cases hs with
  | schedule c' requests hc hf =>
    by_cases hcc : c = c'
    · subst hcc
      simp [DiskScheduler.begun, Event.caller, Event.requests, hc]
    · simp [DiskScheduler.begun, Event.caller, Function.update_of_ne hcc, Ne.symm hcc]
  | scheduleSingle c' request hc hf =>
    by_cases hcc : c = c'
    · subst hcc
      simp [DiskScheduler.begun, Event.caller, Event.requests, hc]
    · simp [DiskScheduler.begun, Event.caller, Function.update_of_ne hcc, Ne.symm hcc]
  | put c' r rest hc =>
    rw [byClient_append]
    by_cases hcc : c = c'
    · subst hcc
      simp [Event.caller, hc]
    · simp [Event.caller, Function.update_of_ne hcc, Ne.symm hcc]
  | store data m => simp [Event.caller]
  | device io => simp [Event.caller]
  | shutdown => simp [Event.caller, byClient, reduceOption_token]
  | getRequest r queue hw hq => simp [Event.caller]
  | getToken queue hw hq => simp [Event.caller]
  | execute s₁ r outcome hw hv ho =>
    obtain ⟨m, rfl⟩ := visit_ends (h.visiting hw) hv
    simp [Event.caller]

/-- A request takes the worker two steps. -/
theorem work_step {l : Event C} (h : Ordered s) (hs : Step s l s') :
    2 * s'.executed.length + s'.worker.taken.length
      = 2 * s.executed.length + s.worker.taken.length + if l.isWorker then 1 else 0 := by
  cases hs with
  | schedule => rfl
  | scheduleSingle => rfl
  | put => rfl
  | store => rfl
  | device => rfl
  | shutdown => rfl
  | getRequest r queue hw hq => rw [hw]; rfl
  | getToken queue hw hq => rw [hw]; rfl
  | execute s₁ r outcome hw hv ho =>
    obtain ⟨m, rfl⟩ := visit_ends (h.visiting hw) hv
    simp [Event.isWorker, Worker.taken, hw, Nat.mul_add]

/-- The disk call of a request that ran, on the disk it finds. -/
def Execution.run (x : Execution) (d : DiskManager) : Promise × DiskManager :=
  x.request.outcome x.input { d with io := x.device }

/-- The disk calls one after the other. -/
def replay (d : DiskManager) : List Execution → List Promise × DiskManager
  | [] => ([], d)
  | x :: xs => ((x.run d).1 :: (replay (x.run d).2 xs).1, (replay (x.run d).2 xs).2)

theorem replay_append (d : DiskManager) (xs : List Execution) (x : Execution) :
    replay d (xs ++ [x])
      = ((replay d xs).1 ++ [(x.run (replay d xs).2).1], (x.run (replay d xs).2).2) := by
  induction xs generalizing d with
  | nil => rfl
  | cons y xs ih =>
    rw [List.cons_append, replay, ih]
    rfl

/-- The disk is as the calls left it, apart from when the device fails next. -/
structure Replayed (d : DiskManager) (s : DiskScheduler C) : Prop where
  outcomes : (replay d s.executed).1 = s.executed.map Execution.outcome
  disk : s.diskManager = { (replay d s.executed).2 with io := s.diskManager.io }

theorem Replayed.step {d : DiskManager} {l : Event C} (h : Ordered s) (hr : Replayed d s)
    (hs : Step s l s') : Replayed d s' := by
  cases hs with
  | schedule c requests hc hf => exact ⟨hr.outcomes, hr.disk⟩
  | scheduleSingle c request hc hf => exact ⟨hr.outcomes, hr.disk⟩
  | put c r rest hc => exact ⟨hr.outcomes, hr.disk⟩
  | store data m => exact ⟨hr.outcomes, hr.disk⟩
  | device io =>
    refine ⟨hr.outcomes, ?_⟩
    simp only
    rw [hr.disk]
  | shutdown => exact ⟨hr.outcomes, hr.disk⟩
  | getRequest r queue hw hq => exact ⟨hr.outcomes, hr.disk⟩
  | getToken queue hw hq => exact ⟨hr.outcomes, hr.disk⟩
  | execute s₁ r outcome hw hv ho =>
    obtain ⟨m, rfl⟩ := visit_ends (h.visiting hw) hv
    simp only [Function.update_self, Option.some.injEq] at ho
    subst outcome
    have hrun : Execution.run ⟨r, s.input r, s.diskManager.io, (r.outcome (s.input r) s.diskManager).1⟩
        (replay d s.executed).2 = r.outcome (s.input r) s.diskManager := by
      rw [Execution.run, ← hr.disk]
    constructor
    · rw [replay_append, hrun, hr.outcomes, List.map_append]
      rfl
    · rw [replay_append, hrun]

/-- The requests before the first token. -/
def beforeToken (puts : List (Option (C × DiskRequest))) : List DiskRequest :=
  ((puts.map (Option.map Prod.snd)).takeWhile Option.isSome).reduceOption

theorem takeWhile_some (xs : List DiskRequest) (rest : List (Option DiskRequest)) :
    ((xs.map some ++ rest).takeWhile Option.isSome).reduceOption
      = xs ++ (rest.takeWhile Option.isSome).reduceOption := by
  induction xs with
  | nil => rfl
  | cons x xs ih =>
    rw [List.map_cons, List.cons_append, List.takeWhile_cons_of_pos rfl,
      List.reduceOption_cons_of_some, ih, List.cons_append]

omit [DecidableEq C] in
/-- What ran comes first, then what the worker took and what is queued, up to the token. -/
theorem Ordered.beforeToken (h : Ordered s) : beforeToken s.puts = s.executed.map Execution.request
    ++ ((s.worker.taken ++ s.requestQueue.q).takeWhile Option.isSome).reduceOption := by
  rw [Storage.beforeToken, h.puts, List.append_assoc, ← takeWhile_some, List.map_map]
  rfl

/-- While a request before the token has not run, the worker can go on. -/
theorem Ordered.progress (h : Ordered s) {i : Nat} (hi : i < (Storage.beforeToken s.puts).length)
    (hrun : s.executed.length ≤ i) :
    (∃ l s', l.isWorker = true ∧ Step s l s') ∨ Overfull s.diskManager := by
  have hne : ((s.worker.taken ++ s.requestQueue.q).takeWhile Option.isSome).reduceOption ≠ [] := by
    intro hnil
    rw [h.beforeToken, hnil, List.append_nil, List.length_map] at hi
    omega
  cases hw : s.worker with
  | waiting =>
    rw [hw] at hne
    cases hq : s.requestQueue.q with
    | nil => simp [hq, Worker.taken] at hne
    | cons x q =>
      have hget : s.requestQueue.get = some (x, ⟨q⟩) := by
        unfold Channel.get
        rw [hq]
      cases x with
      | none => exact .inl ⟨_, _, rfl, .getToken s _ hw hget⟩
      | some r => exact .inl ⟨_, _, rfl, .getRequest s r _ hw hget⟩
  | visiting r =>
    by_cases hv : ∃ s', Ends (visit r) s () s'
    · obtain ⟨s₁, hv⟩ := hv
      obtain ⟨m, e₁⟩ := visit_ends (h.visiting hw) hv
      have ho : s₁.promises r.done = some (r.outcome (s.input r) s.diskManager).1 := by
        rw [e₁]
        exact Function.update_self ..
      exact .inl ⟨_, _, rfl, .execute s s₁ r _ hw hv ho⟩
    · obtain ⟨e, d, ht, he⟩ := visit_stuck (h.visiting hw) hv
      obtain hc | ho := diskCall_throws ht
      · rw [Caught, he] at hc
        cases hc
      · exact .inr ho
  | returned =>
    rw [hw] at hne
    exact absurd rfl hne

theorem exec_ordered {d : DiskManager} {memory : Nat → Mem} {ls : List (Event C)}
    (h : (scheduler d memory).Exec ls s) : Ordered s ∧ Replayed d s ∧
      (∀ c, byClient c s.puts ++ s.calls c = submissions c ls) ∧
      ls.countP Event.isWorker = 2 * s.executed.length + s.worker.taken.length := by
  induction h with
  | nil h0 =>
    obtain rfl := h0
    exact ⟨ordered_create d memory, ⟨rfl, rfl⟩, fun _ => rfl, rfl⟩
  | @snoc ls s s' l _ hs ih =>
    obtain ⟨ho, hr, hc, hw⟩ := ih
    refine ⟨ho.step hs, hr.step ho hs, fun c => ?_, ?_⟩
    · rw [client_step ho hs c, hc c, submissions_append]
    · rw [List.countP_append, hw, work_step ho hs, List.countP_singleton]

/-- Over any interleaving of calls, puts and the worker's steps: the clients' requests are put in
each client's order; those put before the shutdown token run in the order they were put, each
once, two worker steps apart, whatever failed before; and each promise is set once, as the disk
calls run one after the other return or throw. -/
theorem requests_ordered {d : DiskManager} {memory : Nat → Mem} {ls : List (Event C)}
    (h : (scheduler d memory).Exec ls s) :
    (∀ c, byClient c s.puts ++ s.calls c = submissions c ls) ∧
    s.executed.map Execution.request = (Storage.beforeToken s.puts).take s.executed.length ∧
    (∀ i < (Storage.beforeToken s.puts).length, i < s.executed.length ∨
      ls.countP Event.isWorker < 2 * (i + 1) ∧
        ((∃ l s', l.isWorker = true ∧ Step s l s') ∨ Overfull s.diskManager)) ∧
    (s.settled = s.executed.map fun x => (x.request.done, x.outcome)) ∧
    (s.settled.map Prod.fst).Nodup ∧
    (replay d s.executed).1 = s.executed.map Execution.outcome ∧
    s.diskManager = { (replay d s.executed).2 with io := s.diskManager.io } := by
  obtain ⟨ho, hr, hc, hw⟩ := exec_ordered h
  refine ⟨hc, ?_, ?_, ho.settled, ?_, hr.outcomes, hr.disk⟩
  · rw [ho.beforeToken, List.take_left' (List.length_map _)]
  · intro i hi
    by_cases hrun : i < s.executed.length
    · exact .inl hrun
    · have ht : s.worker.taken.length ≤ 1 := by
        cases s.worker with
        | waiting => exact Nat.zero_le 1
        | visiting r => exact Nat.le_refl 1
        | returned => exact Nat.le_refl 1
      exact .inr ⟨by omega, ho.progress hi (by omega)⟩
  · have hn := ho.nodup
    rw [DiskScheduler.requests, List.map_append, List.nodup_append] at hn
    rw [ho.settled, List.map_map]
    have hsame : s.executed.map (Prod.fst ∘ fun x => (x.request.done, x.outcome))
        = (s.executed.map Execution.request).map DiskRequest.done := by
      rw [List.map_map]
      rfl
    rw [hsame]
    exact hn.1

end

end

/-- A file without pages. -/
def noPages : DiskManager where
  globalMetadata := ⟨MAGIC_NUMBER, 1, 0, INVALID_PAGE_ID, 0⟩
  bytes := Mem.zero
  size := PAGE_SIZE
  io := none

/-- One client reads a page that was never allocated and then allocates; another allocates in
between. -/
def readFails : List (Event Bool) :=
  [.schedule false [.read 7 0 0, .allocate 1], .put false, .scheduleSingle true (.allocate 2),
    .put true, .put false, .get, .execute, .get, .execute, .get, .execute]

theorem requests_ordered_failed : ∃ s, (scheduler noPages fun _ => Mem.zero).Exec readFails s ∧
    (∀ c, byClient c s.puts ++ s.calls c = submissions c readFails) ∧
    s.executed.map Execution.request = (beforeToken s.puts).take s.executed.length ∧
    s.settled = [(0, .exception (.runtimeError "Page read out of allowed range")),
      (2, .value (some 0)), (1, .value (some 1))] := by
  have h₀ : (scheduler noPages fun _ => Mem.zero).Exec (L := Event Bool) [] _ := .nil rfl
  have h₁ := h₀.snoc (.schedule _ false [.read 7 0 0, .allocate 1] rfl ⟨by decide, fun _ _ => rfl⟩)
  have h₂ := h₁.snoc (.put _ false _ _ rfl)
  have h₃ := h₂.snoc (.scheduleSingle _ true (.allocate 2) rfl
    ⟨by decide, fun r hr => by rw [List.mem_singleton.mp hr]; rfl⟩)
  have h₄ := h₃.snoc (.put _ true _ _ rfl)
  have h₅ := h₄.snoc (.put _ false _ _ rfl)
  have h₆ := h₅.snoc (.getRequest _ _ _ rfl rfl)
  have h₇ := h₆.snoc (.execute _ _ _ _ rfl (ends_after rfl) rfl)
  have h₈ := h₇.snoc (.getRequest _ _ _ rfl rfl)
  have h₉ := h₈.snoc (.execute _ _ _ _ rfl (ends_after rfl) rfl)
  have h₁₀ := h₉.snoc (.getRequest _ _ _ rfl rfl)
  have h₁₁ := h₁₀.snoc (.execute _ _ _ _ rfl (ends_after rfl) rfl)
  obtain ⟨hclients, hran, -⟩ := requests_ordered h₁₁
  exact ⟨_, h₁₁, hclients, hran, rfl⟩

end DbInternals.Storage
