import DbInternals.Buffer.BufferPool

/-!
# Fetches of several clients at once

`CheckedWritePage` and `CheckedReadPage` are cut where they take and give back
the latch; the steps of any number of clients interleave. `Pc` says where a
client stands: what it decided at the lookup, and the frame it has.

The table is a map, so it cannot show that two frames hold a page. `held f` is
the page that frame `f` was published for since it was last taken.

A computation that faults has no step.

Results:
* `Linked`: the invariant, kept by every step that publishes no page twice and
  evicts no frame in use;
* `one_frame`: then no two frames hold a page, and the guards refer to the
  frames the table has for their pages;
* `two_frames`: two clients that miss on one page each publish it.
-/
namespace DbInternals.Buffer

open Storage LTS

/-! ## Clients -/

/-- Where a client is in a fetch of page `p` for reading or writing. -/
inductive Pc where
  | idle
  /-- it saw the page in the table -/
  | hit (write : Bool) (p : Nat)
  /-- it saw a full table without the page -/
  | evict (write : Bool) (p : Nat)
  /-- it saw a table with room, without the page -/
  | take (write : Bool) (p : Nat)
  | found (write : Bool) (p f : Nat)
  | read (write : Bool) (p f : Nat)
  | publish (write : Bool) (p f : Nat)
  | record (write : Bool) (p f : Nat)
  | guard (write : Bool) (p f : Nat)

namespace Pc

/-- The residency lookup, without the latch.
mirrors src/buffer/buffer_pool_manager.cpp:195,214 and 313,332 -/
def lookup (write : Bool) (p : Nat) (s : BufferPoolManager) : Pc :=
  if (s.pageTable.lookup p).isSome then .hit write p
  else if s.numFrames = s.pageTable.entries.length then .evict write p
  else .take write p

/-- The next step of a fetch, up to the guard, for which the client waits.
mirrors src/buffer/buffer_pool_manager.cpp:196-277 and 314-393 -/
def next : Pc → PoolM Pc
  | .hit w p => return .found w p (← findFrame p)
  | .evict w p => do
    match ← evictFrame with
    | none => return .idle
    | some f => return .read w p f
  | .take w p => return .read w p (← takeFree)
  | .read w p f => do readInto p f; return .publish w p f
  | .publish w p f => do Buffer.publish p f; return .record w p f
  | .found w p f => do recordHit f p; return .guard w p f
  | .record w p f => do recordLoad f p; return .guard w p f
  | pc => return pc

/-- The frame a client took and has not published. -/
def loading : Pc → Option Nat
  | .read _ _ f | .publish _ _ f => some f
  | _ => none

/-- The page and the frame of a guard to come. -/
def uses : Pc → Option (Nat × Nat)
  | .found _ p f | .record _ p f | .guard _ p f => some (p, f)
  | _ => none

/-- The frames and what they are held for, after a step to this place. -/
def holding (held : Nat → Option Nat) : Pc → Nat → Option Nat
  | .read _ _ f => Function.update held f none
  | .record _ p f => Function.update held f (some p)
  | _ => held

end Pc

/-- The pool, the guards alive and the clients. -/
structure Racing extends System where
  pc : Nat → Pc
  held : Nat → Option Nat

/-- A step of client `i`, or the drop of a guard. -/
inductive Act where
  | call (i : Nat) (write : Bool) (p : Nat)
  | next (i : Nat)
  | guard (i : Nat)
  | drop (g : Guard)

inductive Moves : Racing → Act → Racing → Prop
  | called {s : Racing} {i p : Nat} {w : Bool} (hi : s.pc i = .idle) :
    Moves s (.call i w p) { s with pc := Function.update s.pc i (.lookup w p s.pool) }
  | went {s : Racing} {i : Nat} {pc : Pc} {b : BufferPoolManager}
    (h : Ends (s.pc i).next s.pool pc b) :
    Moves s (.next i) ⟨⟨b, s.guards⟩, Function.update s.pc i pc, pc.holding s.held⟩
  | guarded {s : Racing} {i p f : Nat} {w : Bool} (hi : s.pc i = .guard w p f)
    (hl : Lockable s.guards ⟨p, f, w⟩) :
    Moves s (.guard i) ⟨⟨s.pool, ⟨p, f, w⟩ :: s.guards⟩, Function.update s.pc i .idle, s.held⟩
  | dropped {s : Racing} {g : Guard} {b : BufferPoolManager} (hg : g ∈ s.guards)
    (h : Ends g.drop s.pool () b) :
    Moves s (.drop g) ⟨⟨b, s.guards.erase g⟩, s.pc, s.held⟩

/-- A new pool, on which no client has called yet. -/
def racing (numFrames : Nat) (d : DiskManager) : LTS Racing Act where
  init s := s = ⟨⟨.create numFrames d, []⟩, fun _ => .idle, fun _ => none⟩
  step := Moves

/-- Every page is in one frame, and every guard is on the frame of its page. -/
structure Safe (s : Racing) : Prop where
  held : ∀ f f' p, s.held f = some p → s.held f' = some p → f = f'
  guards : ∀ g ∈ s.guards, s.pool.pageTable.lookup g.pageId = some g.frameId

/-- No guard refers to the frame, and no client found or published it for a
guard to come. -/
def Unused (s : Racing) (f : Nat) : Prop :=
  (∀ g ∈ s.guards, g.frameId ≠ f) ∧ ∀ i q, (s.pc i).uses ≠ some (q, f)

/-- A page is published that the table does not have; a frame is evicted that
is not in use. -/
def Apart (s : Racing) : Act → Prop
  | .next i =>
    match s.pc i with
    | .publish _ p _ => s.pool.pageTable.lookup p = none
    | .evict .. => ∀ f, Victim s.pool f → Unused s f
    | _ => True
  | _ => True

/-! ## The invariant -/

/-- The frames the clients have taken. -/
def flight (pc : Nat → Pc) : Set Nat := {f | ∃ i, (pc i).loading = some f}

structure Linked (s : Racing) : Prop where
  shape : Shape (flight s.pc) s.pool
  apart : ∀ i j f, (s.pc i).loading = some f → (s.pc j).loading = some f → i = j
  uses : ∀ i p f, (s.pc i).uses = some (p, f) → s.pool.pageTable.lookup p = some f
  guards : ∀ g ∈ s.guards, s.pool.pageTable.lookup g.pageId = some g.frameId
  held : ∀ f p, s.held f = some p → s.pool.pageTable.lookup p = some f

section
variable {numFrames : Nat} {d : DiskManager} {s s' : Racing} {i p f : Nat} {x : Pc}
  {b : BufferPoolManager}

theorem Linked.safe (h : Linked s) : Safe s where
  held f f' p hf hf' := Option.some.inj ((h.held f p hf).symm.trans (h.held f' p hf'))
  guards := h.guards

/-- The frames taken after client `i` moved on. -/
theorem flight_update {c : Nat} (h : c ∈ flight (Function.update s.pc i x)) :
    x.loading = some c ∨ ∃ j, j ≠ i ∧ (s.pc j).loading = some c := by
  obtain ⟨j, hj⟩ := h
  by_cases e : j = i
  · rw [e, Function.update_self] at hj
    exact .inl hj
  · rw [Function.update_of_ne e] at hj
    exact .inr ⟨j, e, hj⟩

/-- Client `i` moves on to `x` with a frame of its own, or with the frame of
its page; the pages in use stay where they are. -/
theorem Linked.moved (h : Linked s) (hshape : Shape (flight (Function.update s.pc i x)) b)
    (hload : ∀ f, x.loading = some f → ∀ j, j ≠ i → (s.pc j).loading ≠ some f)
    (huse : ∀ p f, x.uses = some (p, f) → b.pageTable.lookup p = some f)
    (hkeep : ∀ p f, ((∃ g ∈ s.guards, g.pageId = p ∧ g.frameId = f) ∨
      ∃ j, (s.pc j).uses = some (p, f)) → s.pool.pageTable.lookup p = some f →
        b.pageTable.lookup p = some f)
    (hheld : ∀ f p, x.holding s.held f = some p → b.pageTable.lookup p = some f) :
    Linked ⟨⟨b, s.guards⟩, Function.update s.pc i x, x.holding s.held⟩ := by
  refine ⟨hshape, fun j k f hj hk => ?_, fun j p f hj => ?_, fun g hg => ?_, hheld⟩
  · change (Function.update s.pc i x j).loading = some f at hj
    change (Function.update s.pc i x k).loading = some f at hk
    by_cases ej : j = i
    · by_cases ek : k = i
      · rw [ej, ek]
      · rw [ej, Function.update_self] at hj
        rw [Function.update_of_ne ek] at hk
        exact absurd hk (hload f hj k ek)
    · rw [Function.update_of_ne ej] at hj
      by_cases ek : k = i
      · rw [ek, Function.update_self] at hk
        exact absurd hj (hload f hk j ej)
      · rw [Function.update_of_ne ek] at hk
        exact h.apart j k f hj hk
  · change (Function.update s.pc i x j).uses = some (p, f) at hj
    by_cases ej : j = i
    · rw [ej, Function.update_self] at hj
      exact huse p f hj
    · rw [Function.update_of_ne ej] at hj
      exact hkeep p f (.inr ⟨j, hj⟩) (h.uses j p f hj)
  · exact hkeep _ _ (.inl ⟨g, hg, rfl, rfl⟩) (h.guards g hg)

/-- A step after which the table is the same. -/
theorem Linked.stayed (h : Linked s) (hshape : Shape (flight (Function.update s.pc i x)) b)
    (hload : ∀ f, x.loading = some f → ∀ j, j ≠ i → (s.pc j).loading ≠ some f)
    (huse : ∀ p f, x.uses = some (p, f) → s.pool.pageTable.lookup p = some f)
    (htab : b.pageTable = s.pool.pageTable)
    (hheld : ∀ f p, x.holding s.held f = some p → s.held f = some p) :
    Linked ⟨⟨b, s.guards⟩, Function.update s.pc i x, x.holding s.held⟩ := by
  refine h.moved hshape hload ?_ ?_ ?_
  · rw [htab]; exact huse
  · rw [htab]; exact fun _ _ _ hp => hp
  · rw [htab]; exact fun f p hf => h.held f p (hheld f p hf)

/-- A client that takes no frame leaves the frames taken to the others. -/
theorem Linked.idle_shape (h : Linked s) (hpc : x.loading = none) :
    Shape (flight (Function.update s.pc i x)) s.pool := by
  refine h.shape.mono fun c hc => ?_
  obtain hc | ⟨j, -, hj⟩ := flight_update hc
  · rw [hpc] at hc
    cases hc
  · exact ⟨j, hj⟩

/-- A frame that no client had is taken. -/
theorem Linked.taken_shape {w : Bool} (hs : Shape (insert f (flight s.pc)) b) :
    Shape (flight (Function.update s.pc i (.read w p f))) b := by
  refine hs.mono fun c hc => ?_
  obtain hc | ⟨j, -, hj⟩ := flight_update hc
  · exact .inl (Option.some.inj hc).symm
  · exact .inr ⟨j, hj⟩

theorem holding_read {held : Nat → Option Nat} {w : Bool} {c q : Nat}
    (h : (Pc.read w p f).holding held c = some q) : c ≠ f ∧ held c = some q := by
  change Function.update held f none c = some q at h
  have hc : c ≠ f := by
    intro e
    rw [e, Function.update_self] at h
    cases h
  rw [Function.update_of_ne hc] at h
  exact ⟨hc, h⟩

/-! ## The steps -/

theorem Linked.hit {w : Bool} (h : Linked s) (he : Ends (Pc.hit w p).next s.pool x b) :
    Linked ⟨⟨b, s.guards⟩, Function.update s.pc i x, x.holding s.held⟩ := by
  obtain ⟨f, s₁, h₁, he⟩ := Ends.bind_iff.mp he
  cases he
  replace h₁ := Ends.rest (Ends.get s.pool) h₁
  cases hp : s.pool.pageTable.lookup p with
  | none => simp only [hp] at h₁; cases h₁
  | some f' =>
    simp only [hp] at h₁
    cases h₁
    exact h.stayed (h.idle_shape rfl) nofun (fun q c hq => by cases hq; exact hp) rfl
      fun _ _ hf => hf

theorem Linked.evict {w : Bool} (h : Linked s) (hf : ∀ f, Victim s.pool f → Unused s f)
    (he : Ends (Pc.evict w p).next s.pool x b) :
    Linked ⟨⟨b, s.guards⟩, Function.update s.pc i x, x.holding s.held⟩ := by
  obtain ⟨o, s₁, h₁, he⟩ := Ends.bind_iff.mp he
  obtain ⟨rfl, rfl⟩ | ⟨f, q, rfl, hq, hs, -, -, htab⟩ := h.shape.evictFrame h₁
  · cases he
    exact h.stayed (h.idle_shape rfl) nofun nofun rfl fun _ _ hf => hf
  cases he
  have hunused : Unused s f := by
    obtain ⟨h0, -⟩ | ⟨c, q', r, s₂, hc, hr, -⟩ := evictFrame_ends h₁
    · cases h0
    · cases hc
      exact hf f ⟨q', r, hr⟩
  -- the pages in other frames keep them
  have hkeep : ∀ p c, c ≠ f → s.pool.pageTable.lookup p = some c →
      b.pageTable.lookup p = some c := by
    intro p c hc hp
    have hne : p ≠ q := by
      intro e
      rw [e, hq] at hp
      exact hc (Option.some.inj hp).symm
    rw [htab, AList.lookup_erase_ne hne, hp]
  refine h.moved (Linked.taken_shape hs) (fun c hc j _ hj => ?_) nofun (fun p c hc hp => ?_)
    fun c p hc => ?_
  · cases hc
    exact (h.shape.flight_apart f ⟨j, hj⟩).2 q hq
  · refine hkeep p c ?_ hp
    intro e
    subst e
    obtain ⟨g, hg, -, hgc⟩ | ⟨j, hj⟩ := hc
    · exact hunused.1 g hg hgc
    · exact hunused.2 j p hj
  · obtain ⟨hne, hc⟩ := holding_read hc
    exact hkeep p c hne (h.held c p hc)

theorem Linked.take {w : Bool} (h : Linked s) (he : Ends (Pc.take w p).next s.pool x b) :
    Linked ⟨⟨b, s.guards⟩, Function.update s.pc i x, x.holding s.held⟩ := by
  obtain ⟨f, s₁, h₁, he⟩ := Ends.bind_iff.mp he
  cases he
  have hs := h.shape.takeFree h₁
  obtain ⟨fs, hfs, rfl⟩ := takeFree_ends h₁
  have hmem : f ∈ s.pool.freeFrames := by
    rw [hfs]
    exact List.mem_cons_self
  refine h.stayed (Linked.taken_shape hs) (fun c hc j _ hj => ?_) nofun rfl
    fun c q hc => (holding_read hc).2
  cases hc
  exact (h.shape.flight_apart f ⟨j, hj⟩).1 hmem

theorem Linked.read {w : Bool} (h : Linked s) (hi : s.pc i = .read w p f)
    (he : Ends (Pc.read w p f).next s.pool x b) :
    Linked ⟨⟨b, s.guards⟩, Function.update s.pc i x, x.holding s.held⟩ := by
  obtain ⟨_, s₁, h₁, he⟩ := Ends.bind_iff.mp he
  cases he
  have hs := SameShape.readInto h₁
  have hf : (s.pc i).loading = some f := by rw [hi]; rfl
  refine h.stayed ((h.shape.same hs).mono fun c hc => ?_) (fun c hc j hj hl => ?_) nofun
    hs.pageTable fun _ _ hf => hf
  · obtain hc | ⟨j, -, hj⟩ := flight_update hc
    · exact ⟨i, hf.trans hc⟩
    · exact ⟨j, hj⟩
  · cases hc
    exact hj (h.apart j i f hl hf)

/-- The client publishes a page that is in no frame. -/
theorem Linked.publish {w : Bool} (h : Linked s) (hi : s.pc i = .publish w p f)
    (hp : s.pool.pageTable.lookup p = none) (he : Ends (Pc.publish w p f).next s.pool x b) :
    Linked ⟨⟨b, s.guards⟩, Function.update s.pc i x, x.holding s.held⟩ := by
  obtain ⟨_, s₁, h₁, he⟩ := Ends.bind_iff.mp he
  cases he
  have hf : (s.pc i).loading = some f := by rw [hi]; rfl
  have hs := h.shape.publish ⟨i, hf⟩ hp h₁
  cases h₁
  have hkeep : ∀ q c, s.pool.pageTable.lookup q = some c →
      (s.pool.pageTable.insert p f).lookup q = some c := by
    intro q c hq
    have hne : q ≠ p := by
      intro e
      rw [e, hp] at hq
      cases hq
    rw [AList.lookup_insert_ne hne, hq]
  refine h.moved (hs.mono fun c hc => ?_) nofun (fun q c hq => ?_) (fun q c _ hq => hkeep q c hq)
    fun c q hc => ?_
  · obtain hc | ⟨j, hj, hl⟩ := flight_update hc
    · cases hc
    · refine ⟨⟨j, hl⟩, fun e => ?_⟩
      rw [Set.mem_singleton_iff.mp e] at hl
      exact hj (h.apart j i f hl hf)
  · cases hq
    exact AList.lookup_insert _
  · change Function.update s.held f (some p) c = some q at hc
    by_cases e : c = f
    · rw [e, Function.update_self] at hc
      cases hc
      rw [e]
      exact AList.lookup_insert _
    · rw [Function.update_of_ne e] at hc
      exact hkeep q c (h.held c q hc)

/-- The page of the client stays in its frame. -/
theorem Linked.recorded {w : Bool} (h : Linked s) (hi : (s.pc i).uses = some (p, f))
    (hs : Shape (flight s.pc) b) (htab : b.pageTable = s.pool.pageTable) :
    Linked ⟨⟨b, s.guards⟩, Function.update s.pc i (.guard w p f), s.held⟩ := by
  refine h.stayed (x := .guard w p f) (hs.mono fun c hc => ?_) nofun (fun q c hq => ?_) htab
    fun _ _ hf => hf
  · obtain hc | ⟨j, -, hj⟩ := flight_update hc
    · cases hc
    · exact ⟨j, hj⟩
  · cases hq
    exact h.uses i p f hi

/-! ## Runs -/

theorem Linked.next (h : Linked s) (hc : Apart s (.next i))
    (he : Ends (s.pc i).next s.pool x b) :
    Linked ⟨⟨b, s.guards⟩, Function.update s.pc i x, x.holding s.held⟩ := by
  rw [Apart] at hc
  cases hi : s.pc i with
  | idle =>
    rw [hi] at he
    cases he
    exact h.stayed (h.idle_shape rfl) nofun nofun rfl fun _ _ hf => hf
  | guard w p f =>
    have hu : (s.pc i).uses = some (p, f) := by rw [hi]; rfl
    rw [hi] at he
    cases he
    exact h.recorded hu h.shape rfl
  | hit w p => exact h.hit (hi ▸ he)
  | evict w p =>
    simp only [hi] at hc
    exact h.evict hc (hi ▸ he)
  | take w p => exact h.take (hi ▸ he)
  | read w p f => exact h.read hi (hi ▸ he)
  | publish w p f =>
    simp only [hi] at hc
    exact h.publish hi hc (hi ▸ he)
  | found w p f =>
    have hu : (s.pc i).uses = some (p, f) := by rw [hi]; rfl
    rw [hi] at he
    obtain ⟨_, s₁, h₁, he⟩ := Ends.bind_iff.mp he
    cases he
    exact h.recorded hu (h.shape.recordHit (h.uses i p f hu) h₁) (recordHit_table h₁)
  | record w p f =>
    have hu : (s.pc i).uses = some (p, f) := by rw [hi]; rfl
    rw [hi] at he
    obtain ⟨_, s₁, h₁, he⟩ := Ends.bind_iff.mp he
    cases he
    exact h.recorded hu (h.shape.recordLoad (h.uses i p f hu) h₁) (recordLoad_table h₁)

theorem linked_step {a : Act} (h : Linked s) (hs : (racing numFrames d).step s a s')
    (hc : Apart s a) : Linked s' := by
  cases hs with
  | @called i p w hi =>
    have hl : (Pc.lookup w p s.pool).loading = none ∧ (Pc.lookup w p s.pool).uses = none ∧
        (Pc.lookup w p s.pool).holding s.held = s.held := by
      rw [Pc.lookup]
      split
      · exact ⟨rfl, rfl, rfl⟩
      · split <;> exact ⟨rfl, rfl, rfl⟩
    obtain ⟨hload, huse, hheld⟩ := hl
    have := h.stayed (h.idle_shape (i := i) hload) (by rw [hload]; nofun) (by rw [huse]; nofun)
      rfl (by rw [hheld]; exact fun _ _ hf => hf)
    rwa [hheld] at this
  | went he => exact h.next hc he
  | @guarded i p f w hi hl =>
    have hu : (s.pc i).uses = some (p, f) := by rw [hi]; rfl
    have hs := h.stayed (h.idle_shape (i := i) (x := .idle) rfl) nofun nofun rfl fun _ _ hf => hf
    refine ⟨hs.shape, hs.apart, hs.uses, fun g hg => ?_, hs.held⟩
    obtain rfl | hg := List.mem_cons.mp hg
    · exact h.uses i p f hu
    · exact h.guards g hg
  | @dropped g b hg he =>
    have hs := SameShape.unpin he
    refine ⟨h.shape.same hs, h.apart, ?_, fun x hx => ?_, ?_⟩
    · rw [hs.pageTable]; exact h.uses
    · rw [hs.pageTable]; exact h.guards x (List.mem_of_mem_erase hx)
    · rw [hs.pageTable]; exact h.held

theorem linked_init (hn : numFrames ≤ 2 ^ 32) (h : (racing numFrames d).init s) : Linked s := by
  cases h
  refine ⟨(Shape.create hn).mono fun f hf => ?_, nofun, nofun, nofun, nofun⟩
  obtain ⟨i, hi⟩ := hf
  cases hi

/-- In an interleaving in which no client publishes a page that is in the
table, or evicts a frame in use, every page is in one frame, the frame that
the guards of the page refer to. -/
theorem one_frame (hn : numFrames ≤ 2 ^ 32) (h : (racing numFrames d).init s)
    {tr : List (Racing × Act × Racing)} (hr : (racing numFrames d).Path s tr)
    (hc : Meets Apart tr) : Always Safe s tr := by
  have hs := hr.always (I := Linked) (fun _ _ _ h hs hc => linked_step h hs hc) (linked_init hn h) hc
  exact ⟨hs.1.safe, fun x hx => (hs.2 x hx).safe⟩

end

/-! ## Two clients -/

/-- The step, computed. -/
def advance (s : Racing) : Act → Option Racing
  | .call i w p =>
    match s.pc i with
    | .idle => some { s with pc := Function.update s.pc i (.lookup w p s.pool) }
    | _ => none
  | .next i =>
    match (s.pc i).next s.pool with
    | .ok pc b => some ⟨⟨b, s.guards⟩, Function.update s.pc i pc, pc.holding s.held⟩
    | .error .. => none
  | .guard i =>
    match s.pc i with
    | .guard w p f =>
      if Lockable s.guards ⟨p, f, w⟩ then
        some ⟨⟨s.pool, ⟨p, f, w⟩ :: s.guards⟩, Function.update s.pc i .idle, s.held⟩
      else none
    | _ => none
  | .drop g =>
    match g.drop s.pool with
    | .ok _ b => if g ∈ s.guards then some ⟨⟨b, s.guards.erase g⟩, s.pc, s.held⟩ else none
    | .error .. => none

theorem advance_moves {s s' : Racing} {a : Act} (h : advance s a = some s') : Moves s a s' := by
  cases a with
  | call i w p =>
    rw [advance] at h
    split at h
    next hi => cases h; exact .called hi
    next => cases h
  | next i =>
    rw [advance] at h
    split at h
    next pc b he => cases h; exact .went he
    next => cases h
  | guard i =>
    rw [advance] at h
    split at h
    next w p f hi =>
      split at h
      next hl => cases h; exact .guarded hi hl
      next => cases h
    next => cases h
  | drop g =>
    rw [advance] at h
    split at h
    next b he =>
      split at h
      next hg => cases h; exact .dropped hg he
      next => cases h
    next => cases h

/-- A pool of two frames on a file of three pages. -/
def twoFrames : Racing := ⟨⟨.create 2 threePages, []⟩, fun _ => .idle, fun _ => none⟩

theorem path_advance {as : List Act} {tr : List (Racing × Act × Racing)} {numFrames : Nat}
    {d : DiskManager} (h : follow advance twoFrames as = some tr) :
    (racing numFrames d).Path twoFrames tr :=
  Path.follow (fun _ _ _ h => advance_moves h) h

/-- One client loads page 1, then the other finds it. -/
theorem one_frame_hit : ∃ tr, follow advance twoFrames
      [.call 0 false 1, .next 0, .next 0, .next 0, .next 0, .guard 0,
        .call 1 false 1, .next 1, .next 1, .guard 1] = some tr ∧
    Always Safe twoFrames tr := by
  have htr : follow advance twoFrames
      [.call 0 false 1, .next 0, .next 0, .next 0, .next 0, .guard 0,
        .call 1 false 1, .next 1, .next 1, .guard 1] = some _ := rfl
  have hp : (racing 2 threePages).Path twoFrames _ := path_advance htr
  refine ⟨_, htr, one_frame (by decide) rfl hp ?_⟩
  intro x hx
  simp only [List.mem_cons, List.not_mem_nil, or_false] at hx
  obtain rfl | rfl | rfl | rfl | rfl | rfl | rfl | rfl | rfl | rfl := hx
  all_goals trivial

/-- Both clients look for page 1 before either has published it. Each loads it
into a frame of its own, and the table forgets the first. -/
theorem two_frames : ∃ tr, follow advance twoFrames
      [.call 0 false 1, .call 1 false 1, .next 0, .next 1, .next 0, .next 1, .next 0, .next 1,
        .next 0, .guard 0] = some tr ∧
    (racing 2 threePages).init twoFrames ∧ (racing 2 threePages).Path twoFrames tr ∧
      ¬ Always Safe twoFrames tr := by
  have htr : follow advance twoFrames
      [.call 0 false 1, .call 1 false 1, .next 0, .next 1, .next 0, .next 1, .next 0, .next 1,
        .next 0, .guard 0] = some _ := rfl
  refine ⟨_, htr, rfl, path_advance htr, fun h => ?_⟩
  have hlast := h.2 _ (List.mem_of_getElem? (i := 9) rfl)
  exact absurd (hlast.held 0 1 1 rfl rfl) (by decide)

end DbInternals.Buffer
