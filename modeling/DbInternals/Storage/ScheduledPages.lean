import DbInternals.Storage.PageStore
import DbInternals.Storage.SchedulerOrder

/-!
# The pages behind the scheduler

Clients do not call the disk manager, they put requests into the queue of the worker, from any
number of threads. A client that puts a request for a page has it in hand: it is handed out, and
nobody put a request before that gives it back. Then the clients see one page store, which takes
the requests in the order they were put.

Results:
* `Serves`: what the store does at a request, and how it is answered;
* `Legal.put`, `Legal.execute`: a page in hand when its request is put is in use when it runs;
* `pages_served`: every run answers as the store does, and goes on while requests are queued.
-/
namespace DbInternals.Storage

open Allocator (PageStore Stores Parts)

/-! ## Requests and pages -/

/-- The page a request names. -/
def DiskRequest.page : DiskRequest → Option Nat
  | .read p _ _ => some p
  | .write p _ _ => some p
  | .allocate _ => none
  | .deallocate p _ => some p

/-- The page a request gives back. -/
def DiskRequest.freed : DiskRequest → Option Nat
  | .deallocate p _ => some p
  | _ => none

/-- What the buffer of a read holds. -/
def DiskRequest.output (memory : Nat → Mem) : DiskRequest → Mem
  | .read _ data _ => memory data
  | _ => Mem.zero

/-- The ids in use after a request that ran. -/
def Execution.owned (x : Execution) (owned : List Nat) : List Nat :=
  match x.request, x.outcome with
  | .allocate _, .value (some p) => p :: owned
  | .deallocate p _, .value _ => owned.erase p
  | _, _ => owned

/-- The store at a request: how it ran, and what its buffer holds then. A page that was never
written may lie behind the end of the file. -/
inductive Serves (a : PageStore) : Execution × Mem → PageStore → Prop
  | allocate {done : Nat} {input data : Mem} {io : Option Nat} :
    Serves a (⟨.allocate done, input, io, .value (some a.allocate.1)⟩, data) a.allocate.2
  | deallocate {p done : Nat} {input data : Mem} {io : Option Nat} (hp : p ∈ a.owned) :
    Serves a (⟨.deallocate p done, input, io, .value none⟩, data) (a.deallocate p)
  | write {p buf done : Nat} {input data : Mem} {io : Option Nat} (hp : p ∈ a.owned) :
    Serves a (⟨.write p buf done, input, io, .value none⟩, data) (a.write p input)
  | read {p buf done : Nat} {input data : Mem} {io : Option Nat} (hp : p ∈ a.owned)
    (h : ∀ b, a.written p = some b → data = pageOf b) :
    Serves a (⟨.read p buf done, input, io, .value none⟩, data) a
  | unwritten {p buf done : Nat} {input data : Mem} {io : Option Nat} {e : Fault} (hp : p ∈ a.owned)
    (h : a.written p = none) : Serves a (⟨.read p buf done, input, io, .exception e⟩, data) a

/-- A store without pages; page 0 is not one of them. -/
def pageServer : LTS PageStore (Execution × Mem) where
  init a := a = ⟨[], [], 1, fun _ => none⟩
  step := Serves

/-! ## Sessions -/

/-- The scheduler with the ids its clients have and how they were served. -/
structure Session (C : Type) where
  scheduler : DiskScheduler C
  owned : List Nat
  served : List (Execution × Mem)

/-- In use, also when all that was put before has run. -/
def Session.InHand {C : Type} (s : Session C) (p : Nat) : Prop :=
  p ∈ s.owned ∧ ∀ r ∈ s.scheduler.backlog, r.freed ≠ some p

/-- Neither a put nor an execution, and the device works. -/
def Event.Other {C : Type} : Event C → Prop
  | .put _ => False
  | .execute => False
  | .device _ => False
  | _ => True

section
variable {C : Type} [DecidableEq C]

inductive SessionStep (s : Session C) : Event C → Session C → Prop
  | put {c : C} {r : DiskRequest} {rest : List DiskRequest} {b : DiskScheduler C}
    (hc : s.scheduler.calls c = r :: rest) (hp : ∀ p, r.page = some p → s.InHand p)
    (h : Step s.scheduler (.put c) b) : SessionStep s (.put c) { s with scheduler := b }
  | execute {x : Execution} {b : DiskScheduler C} (h : Step s.scheduler .execute b)
    (hx : b.executed = s.scheduler.executed ++ [x])
    (hn : b.diskManager.globalMetadata.nextPageId ≤ MAX_PAGES) :
    SessionStep s .execute
      ⟨b, x.owned s.owned, s.served ++ [(x, x.request.output b.memory)]⟩
  | other {l : Event C} {b : DiskScheduler C} (hl : l.Other) (h : Step s.scheduler l b) :
    SessionStep s l { s with scheduler := b }

/-- Runs of a scheduler over a new database. -/
def sessions (memory : Nat → Mem) : LTS (Session C) (Event C) where
  init s := ∃ d d', Allocator.NewFile d ∧ Ends openFile d ⟨⟩ d' ∧ s = ⟨.create d' memory, [], []⟩
  step := SessionStep

end

/-! ## One request -/

section
variable {d d' : DiskManager} {owned : List Nat} {a : PageStore} {r : DiskRequest} {p : Nat}
  {input : Mem}

theorem outcome_ends {v : Option Nat} (h : Ends (r.diskCall input) d v d') :
    r.outcome input d = (.value v, d') := by
  rw [DiskRequest.outcome, show r.diskCall input d = .ok v d' from h]

theorem outcome_throws {e : Fault} (h : Throws (r.diskCall input) d e d') :
    r.outcome input d = (.exception e, d') := by
  rw [DiskRequest.outcome, show r.diskCall input d = .error e d' from h]

/-- A read fails only if the page was never written. -/
theorem Allocator.Stores.read (h : Stores ⟨d, owned⟩ a) (p : Nat) :
    (∃ page, Ends (readPage p) d page d ∧ ∀ b, a.written p = some b → page = pageOf b) ∨
      (∃ e, Throws (readPage p) d e d) ∧ a.written p = none := by
  obtain ⟨cs, hparts, -⟩ := h.free
  cases hx : readPage p d with
  | ok page d₁ =>
    obtain rfl := (readPage_same hparts.io p).ends rfl hx
    refine .inl ⟨page, hx, fun b hb => ?_⟩
    obtain ⟨-, hm, hpage⟩ := h.written p b hb
    exact (Ends.unique hx (readPage_ends hparts.io hm)).1.trans hpage
  | error e d₁ =>
    obtain rfl := (readPage_same hparts.io p).throws rfl hx
    refine .inr ⟨⟨e, hx⟩, Option.eq_none_iff_forall_ne_some.mpr fun b hb => ?_⟩
    obtain ⟨-, hm, -⟩ := h.written p b hb
    exact Throws.not_ends hx (readPage_ends hparts.io hm)

/-- A request for pages in use is served as by the store. -/
theorem Allocator.Stores.serve (h : Stores ⟨d, owned⟩ a) (hp : ∀ p, r.page = some p → p ∈ owned)
    {io : Option Nat} {data : Mem}
    (hn : (r.outcome input d).2.globalMetadata.nextPageId ≤ MAX_PAGES)
    (hdata : ∀ p buf done page d', r = .read p buf done → Ends (readPage p) d page d' →
      data = page) : ∃ a', Serves a (⟨r, input, io, (r.outcome input d).1⟩, data) a' ∧
        Stores ⟨(r.outcome input d).2,
          Execution.owned ⟨r, input, io, (r.outcome input d).1⟩ owned⟩ a' := by
  obtain ⟨cs, hparts, -⟩ := h.free
  cases r with
  | read p buf done =>
    have hmem := hp p rfl
    obtain ⟨page, he, hw⟩ | ⟨⟨e, ht⟩, hw⟩ := h.read p
    · have hcall : Ends ((DiskRequest.read p buf done).diskCall input) d none d :=
        he.bind (.pure _ _)
      rw [outcome_ends hcall]
      refine ⟨a, .read (h.owned.symm ▸ hmem) fun b hb => ?_, h⟩
      rw [hdata p buf done page d rfl he, hw b hb]
    · have hcall : Throws ((DiskRequest.read p buf done).diskCall input) d e d :=
        Throws.bind_iff.mpr (.inl ht)
      rw [outcome_throws hcall]
      exact ⟨a, .unwritten (h.owned.symm ▸ hmem) hw, h⟩
  | write p buf done =>
    have hmem := hp p rfl
    have hcall : Ends ((DiskRequest.write p buf done).diskCall input) d none _ :=
      (writePage_ends hparts.io (hparts.owned_lt hmem).2).bind (.pure _ _)
    rw [outcome_ends hcall]
    exact ⟨_, .write (h.owned.symm ▸ hmem), h.write hmem input⟩
  | allocate done =>
    obtain ⟨f, d', cs', he, -⟩ := hparts.allocatePage
    have hcall : Ends ((DiskRequest.allocate done).diskCall input) d (some f) d' :=
      he.bind (.pure _ _)
    rw [outcome_ends hcall] at hn ⊢
    have hs := (allocatePage_cut hparts h.saved).saved hparts.io he
    obtain ⟨rfl, h'⟩ := h.allocate he hs hn
    exact ⟨_, .allocate, h'⟩
  | deallocate p done =>
    have hmem := hp p rfl
    obtain ⟨d', cs', he, -⟩ := hparts.deallocatePage hmem
    have hcall : Ends ((DiskRequest.deallocate p done).diskCall input) d none d' :=
      he.bind (.pure _ _)
    rw [outcome_ends hcall]
    have hs := (deallocatePage_cut hparts h.saved hmem).saved hparts.io he
    exact ⟨_, .deallocate (h.owned.symm ▸ hmem), h.deallocate hmem he hs⟩

/-- The worker catches what a request for pages in use throws. -/
theorem Allocator.Stores.caught (h : Stores ⟨d, owned⟩ a) (hp : ∀ p, r.page = some p → p ∈ owned)
    {e : Fault} (ht : Throws (r.diskCall input) d e d') : Caught e := by
  obtain ⟨cs, hparts, -⟩ := h.free
  cases r with
  | read p buf done => exact ThrowsOnly.bind (readPage_caught p) (fun _ => .pure _) _ _ _ ht
  | write p buf done => exact ThrowsOnly.bind (writePage_caught p _) (fun _ => .pure _) _ _ _ ht
  | allocate done =>
    obtain ⟨f, d', cs', he, -⟩ := hparts.allocatePage
    exact (ht.not_ends (he.bind (.pure _ _))).elim
  | deallocate p done =>
    obtain ⟨d', cs', he, -⟩ := hparts.deallocatePage (hp p rfl)
    exact (ht.not_ends (he.bind (.pure _ _))).elim

end

/-! ## Requests in the queue -/

/-- Each queued request finds its page in use when its turn comes. -/
structure Legal (owned : List Nat) (backlog : List DiskRequest) : Prop where
  mem : ∀ r ∈ backlog, ∀ p, r.page = some p → p ∈ owned
  kept : backlog.Pairwise fun r r' => ∀ p, r.freed = some p → r'.page ≠ some p

section
variable {owned : List Nat} {backlog : List DiskRequest} {r : DiskRequest} {x : Execution}

theorem Legal.put (h : Legal owned backlog)
    (hp : ∀ p, r.page = some p → p ∈ owned ∧ ∀ r' ∈ backlog, r'.freed ≠ some p) :
    Legal owned (backlog ++ [r]) := by
  constructor
  · intro r' hr' p hpage
    rw [List.mem_append, List.mem_singleton] at hr'
    obtain hr' | rfl := hr'
    · exact h.mem r' hr' p hpage
    · exact (hp p hpage).1
  · refine List.pairwise_append.mpr ⟨h.kept, List.pairwise_singleton _ _, ?_⟩
    intro r' hr' q hq p hf
    rw [List.mem_singleton.mp hq]
    exact fun hpage => (hp p hpage).2 r' hr' hf

/-- An id stays in use unless the request gives it back. -/
theorem Execution.mem_owned {p : Nat} (hp : p ∈ owned) (hf : x.request.freed ≠ some p) :
    p ∈ x.owned owned := by
  unfold Execution.owned
  split
  · exact List.mem_cons_of_mem _ hp
  · next q _ _ hreq _ =>
    refine (List.mem_erase_of_ne ?_).mpr hp
    rintro rfl
    rw [hreq] at hf
    exact hf rfl
  · exact hp

/-- The first request runs. -/
theorem Legal.execute (h : Legal owned (x.request :: backlog)) : Legal (x.owned owned) backlog := by
  obtain ⟨hfirst, hkept⟩ := List.pairwise_cons.mp h.kept
  refine ⟨fun r hr p hpage => ?_, hkept⟩
  apply Execution.mem_owned (h.mem r (List.mem_cons_of_mem _ hr) p hpage)
  intro hf
  exact hfirst r hr p hf hpage

end

/-! ## Runs -/

section
variable {C : Type} {s s' : DiskScheduler C} {r : DiskRequest}

/-- A read that returns leaves the page in its buffer. -/
theorem visit_output {p buf done : Nat} {page : Mem} {d : DiskManager}
    (hp : s.promises done = some .pending) (h : Ends (visit (.read p buf done)) s () s')
    (he : Ends (readPage p) s.diskManager page d) : s'.memory buf = page := by
  obtain h₁ | ⟨e, s₁, h₁, -, h₂⟩ := catchAll_ends.mp h
  · obtain ⟨v, s₂, hc, hs⟩ := Ends.bind_iff.mp h₁
    obtain ⟨page', s₃, ho, hm⟩ := Ends.bind_iff.mp hc
    obtain ⟨d', hd, rfl⟩ := onDisk_ends ho
    obtain ⟨rfl, -⟩ := hd.unique he
    cases hm
    obtain ⟨-, rfl⟩ := hs.unique (settle_pending hp)
    exact Function.update_self ..
  · obtain h₃ | ⟨v, s₂, hc, hs⟩ := Throws.bind_iff.mp h₁
    · obtain ⟨d', hd, rfl⟩ := call_throws h₃
      exact (hd.not_ends (he.bind (.pure _ _))).elim
    · obtain ⟨d', m, -, rfl⟩ := call_ends hc
      exact (hs.not_ends (settle_pending hp)).elim

variable [DecidableEq C] {l : Event C}

/-- Calls, the shutdown and the worker's `Get` leave the queue and the disk as they are. -/
theorem step_other (hl : l.Other) (h : Step s l s') : s'.backlog = s.backlog ∧
    s'.executed = s.executed ∧ s'.diskManager = s.diskManager := by
  have hget : ∀ {x queue} {w : Worker}, s.worker = .waiting → s.requestQueue.get = some (x, queue) →
      w.taken = [x] → (w.taken ++ queue.q).reduceOption = s.backlog := by
    intro x queue w hw hq hx
    unfold Channel.get at hq
    split at hq
    · cases hq
    · cases hq
      rw [DiskScheduler.backlog, hx, hw, ‹s.requestQueue.q = _›]
      rfl
  cases h with
  | schedule => exact ⟨rfl, rfl, rfl⟩
  | scheduleSingle => exact ⟨rfl, rfl, rfl⟩
  | put => exact hl.elim
  | store => exact ⟨rfl, rfl, rfl⟩
  | device => exact hl.elim
  | shutdown =>
    refine ⟨?_, rfl, rfl⟩
    rw [DiskScheduler.backlog, Channel.put, ← List.append_assoc, List.reduceOption_append]
    exact List.append_nil _
  | getRequest r queue hw hq => exact ⟨hget hw hq rfl, rfl, rfl⟩
  | getToken queue hw hq => exact ⟨hget hw hq rfl, rfl, rfl⟩
  | execute => exact hl.elim

end

structure Session.Inv {C : Type} (s : Session C) : Prop where
  ordered : Ordered s.scheduler
  legal : Legal s.owned s.scheduler.backlog
  served : s.served.map Prod.fst = s.scheduler.executed
  store : ∃ a, pageServer.Exec s.served a ∧ Stores ⟨s.scheduler.diskManager, s.owned⟩ a

section
variable {C : Type} [DecidableEq C] {s s' : Session C} {l : Event C}

theorem Session.Inv.put (h : s.Inv) {c : C} {r : DiskRequest} {rest : List DiskRequest}
    {b : DiskScheduler C} (hc : s.scheduler.calls c = r :: rest)
    (hp : ∀ p, r.page = some p → s.InHand p) (hs : Step s.scheduler (.put c) b) :
    Session.Inv { s with scheduler := b } := by
  have ho := h.ordered.step hs
  cases hs with
  | put _ r' rest' hc' =>
    obtain ⟨rfl, rfl⟩ := List.cons.inj (hc.symm.trans hc')
    refine ⟨ho, ?_, h.served, h.store⟩
    have hback : (s.scheduler.worker.taken ++
        (s.scheduler.requestQueue.put (some r)).q).reduceOption = s.scheduler.backlog ++ [r] := by
      rw [Channel.put, ← List.append_assoc, List.reduceOption_append]
      rfl
    rw [DiskScheduler.backlog, hback]
    exact h.legal.put hp

theorem Session.Inv.execute (h : s.Inv) {x : Execution} {b : DiskScheduler C}
    (hs : Step s.scheduler .execute b) (hx : b.executed = s.scheduler.executed ++ [x])
    (hn : b.diskManager.globalMetadata.nextPageId ≤ MAX_PAGES) :
    Session.Inv ⟨b, x.owned s.owned, s.served ++ [(x, x.request.output b.memory)]⟩ := by
  have ho := h.ordered.step hs
  obtain ⟨a, ha, hst⟩ := h.store
  cases hs with
  | execute b r outcome hw hv hout =>
    have hpend := h.ordered.visiting hw
    have hmem := hv
    obtain ⟨m, rfl⟩ := visit_ends hpend hv
    simp only [Function.update_self, Option.some.injEq] at hout
    subst outcome
    obtain rfl := List.singleton_inj.mp (List.append_cancel_left hx)
    have hback : s.scheduler.backlog = r :: s.scheduler.requestQueue.q.reduceOption := by
      rw [DiskScheduler.backlog, hw]
      rfl
    have hlegal := h.legal
    rw [hback] at hlegal
    have hdata : ∀ p buf done page d', r = .read p buf done →
        Ends (readPage p) s.scheduler.diskManager page d' → r.output m = page := by
      rintro p buf done page d' rfl he
      exact visit_output hpend hmem he
    obtain ⟨a', hserve, hst'⟩ :=
      hst.serve (fun p hpage => hlegal.mem r List.mem_cons_self p hpage) hn hdata
    exact ⟨ho, hlegal.execute, by rw [List.map_append, h.served]; rfl, a', ha.snoc hserve, hst'⟩

theorem Session.Inv.step (h : s.Inv) (hs : SessionStep s l s') : s'.Inv := by
  cases hs with
  | put hc hp hs => exact h.put hc hp hs
  | execute hs hx hn => exact h.execute hs hx hn
  | other hl hs =>
    obtain ⟨hb, he, hd⟩ := step_other hl hs
    exact ⟨h.ordered.step hs, hb ▸ h.legal, h.served.trans he.symm, hd ▸ h.store⟩

omit [DecidableEq C] in
/-- While a request put before the shutdown token has not run, the worker has it or can take one. -/
theorem Ordered.hasWork {s : DiskScheduler C} (h : Ordered s)
    (hi : s.executed.length < (Storage.beforeToken s.puts).length) : (∃ r, s.worker = .visiting r) ∨
      s.worker = .waiting ∧ ∃ x queue, s.requestQueue.get = some (x, queue) := by
  rw [h.beforeToken, List.length_append, List.length_map, Nat.lt_add_right_iff_pos] at hi
  cases hw : s.worker with
  | visiting r => exact .inl ⟨r, rfl⟩
  | waiting =>
    refine .inr ⟨rfl, ?_⟩
    cases hq : s.requestQueue.q with
    | nil => simp [hq, hw, Worker.taken] at hi
    | cons x q => exact ⟨x, ⟨q⟩, by rw [Channel.get, hq]⟩
  | returned =>
    rw [hw] at hi
    exact absurd hi (Nat.lt_irrefl 0)

/-- The worker does not get stuck. -/
theorem Session.Inv.progress (h : s.Inv)
    (hi : s.scheduler.executed.length < (beforeToken s.scheduler.puts).length) :
    ∃ l b, l.isWorker = true ∧ Step s.scheduler l b := by
  obtain ⟨r, hw⟩ | ⟨hw, x, queue, hq⟩ := h.ordered.hasWork hi
  · have hpend := h.ordered.visiting hw
    have hv : ∃ b, Ends (visit r) s.scheduler () b := by
      by_contra hstuck
      obtain ⟨e, d, ht, he⟩ := visit_stuck hpend hstuck
      obtain ⟨a, -, hst⟩ := h.store
      have hcaught := hst.caught (fun p hpage => h.legal.mem r ?_ p hpage) ht
      · rw [Caught, he] at hcaught
        cases hcaught
      · rw [DiskScheduler.backlog, hw]
        exact List.mem_cons_self
    obtain ⟨b, hv⟩ := hv
    obtain ⟨m, e⟩ := visit_ends hpend hv
    exact ⟨_, _, rfl, .execute _ b r _ hw hv (by rw [e]; exact Function.update_self ..)⟩
  · cases x with
    | none => exact ⟨_, _, rfl, .getToken _ _ hw hq⟩
    | some r => exact ⟨_, _, rfl, .getRequest _ r _ hw hq⟩

theorem exec_inv {memory : Nat → Mem} {ls : List (Event C)} (h : (sessions memory).Exec ls s) :
    s.Inv := by
  induction h with
  | nil h0 =>
    obtain ⟨d, d', hnew, he, rfl⟩ := h0
    obtain ⟨a, ha, hst⟩ := Stores.init (s := ⟨d', []⟩) ⟨rfl, d, hnew, .inl he⟩
    exact ⟨ordered_create d' memory, ⟨nofun, .nil⟩, rfl, a, .nil ha, hst⟩
  | snoc _ hs ih => exact ih.step hs

/-- In every interleaving of the clients' calls and puts with the worker's steps, the requests run
in the order they were put, and are answered as one page store answers them in that order; only a
read of a page that was never written may fail, and the worker goes on while requests are queued. -/
theorem pages_served {memory : Nat → Mem} {ls : List (Event C)} (h : (sessions memory).Exec ls s) :
    (∃ a, pageServer.Exec s.served a ∧ a.owned = s.owned ∧
      FreeList s.scheduler.diskManager s.scheduler.diskManager.globalMetadata.freelistHead a.free) ∧
      s.served.map (fun x => x.1.request) =
        (beforeToken s.scheduler.puts).take s.scheduler.executed.length ∧
      s.scheduler.settled = s.served.map (fun x => (x.1.request.done, x.1.outcome)) ∧
      (s.scheduler.executed.length < (beforeToken s.scheduler.puts).length →
        ∃ l b, l.isWorker = true ∧ Step s.scheduler l b) := by
  have hinv := exec_inv h
  obtain ⟨a, ha, hst⟩ := hinv.store
  obtain ⟨cs, hparts, hfree⟩ := hst.free
  refine ⟨⟨a, ha, hst.owned, ⟨cs, hparts.chain, hfree⟩⟩, ?_, ?_, hinv.progress⟩
  · rw [hinv.ordered.beforeToken, ← hinv.served, List.map_map, List.take_left' (by simp)]
    rfl
  · rw [hinv.ordered.settled, ← hinv.served, List.map_map]
    rfl

end

/-- A page is taken, written and read. -/
def takeWriteRead : List (Event Unit) :=
  [.scheduleSingle () (.allocate 0), .put (), .get, .execute,
    .schedule () [.write 1 0 1, .read 1 1 2], .put (), .put (), .get, .execute, .get, .execute]

theorem pages_served_three : ∃ s, (sessions fun _ => Mem.zero).Exec takeWriteRead s ∧
    (∃ a, pageServer.Exec s.served a ∧ a.owned = [1] ∧
      FreeList s.scheduler.diskManager s.scheduler.diskManager.globalMetadata.freelistHead a.free) ∧
    s.scheduler.settled = [(0, .value (some 1)), (1, .value none), (2, .value none)] := by
  have hnew : Allocator.NewFile ⟨⟨0, 0, 0, 0, 0⟩, Mem.zero, 0, none⟩ := ⟨rfl, rfl⟩
  have h₀ : (sessions fun _ => Mem.zero).Exec (L := Event Unit) [] _ :=
    .nil ⟨_, _, hnew, Allocator.openFile_new hnew, rfl⟩
  have h₁ := h₀.snoc (.other (l := .scheduleSingle () (.allocate 0)) trivial
    (.scheduleSingle _ () _ rfl ⟨by decide, fun _ _ => rfl⟩))
  have h₂ := h₁.snoc (.put rfl (fun _ h => by cases h) (.put _ () _ _ rfl))
  have h₃ := h₂.snoc (.other (l := .get) trivial (.getRequest _ _ _ rfl rfl))
  have h₄ := h₃.snoc (.execute (.execute _ _ _ _ rfl (ends_after rfl) rfl) rfl (by decide +kernel))
  have h₅ := h₄.snoc (.other (l := .schedule () [.write 1 0 1, .read 1 1 2]) trivial
    (.schedule _ () _ rfl ⟨by decide, by decide⟩))
  have hp : ∀ (s : Session Unit) (r : DiskRequest), r.page = some 1 → s.owned = [1] →
      (∀ r ∈ s.scheduler.backlog, r.freed = none) → ∀ p, r.page = some p → s.InHand p := by
    intro s r hr ho hb p hp
    cases hr.symm.trans hp
    exact ⟨by rw [ho]; decide, fun r' hr' => by rw [hb r' hr']; nofun⟩
  have h₆ := h₅.snoc (.put (r := .write 1 0 1) rfl (hp _ _ rfl rfl (by decide)) (.put _ () _ _ rfl))
  have h₇ := h₆.snoc (.put (r := .read 1 1 2) rfl (hp _ _ rfl rfl (by decide)) (.put _ () _ _ rfl))
  have h₈ := h₇.snoc (.other (l := .get) trivial (.getRequest _ _ _ rfl rfl))
  have h₉ := h₈.snoc (.execute (.execute _ _ _ _ rfl (ends_after rfl) rfl) rfl (by decide +kernel))
  have h₁₀ := h₉.snoc (.other (l := .get) trivial (.getRequest _ _ _ rfl rfl))
  have h₁₁ := h₁₀.snoc
    (.execute (.execute _ _ _ _ rfl (ends_after rfl) rfl) rfl (by decide +kernel))
  exact ⟨_, h₁₁, (pages_served h₁₁).1, rfl⟩

end DbInternals.Storage
