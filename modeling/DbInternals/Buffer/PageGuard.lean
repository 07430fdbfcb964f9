import DbInternals.Buffer.BufferPool

/-!
# Page guards

A `ReadPageGuard` shares its frame's `rwlatch_`, a `WritePageGuard` owns it
exclusively; both give up one pin when they are dropped. The two classes have
the same fields, so one `PageGuard` models both, and a guard variable is a
`Kind` with a name. `shared_ptr`s are addresses, `none` once moved from or reset.

Two histories are kept that the code does not have: `built`, the class and frame of
every guard the five-argument constructors made, in order, and `unpins`, every
decrement of a `pin_count_` by a guard. A guard's `ticket` is its place in `built`;
it moves with `is_valid_`.

`Drop` is one step here, and so is every other member.
-/
namespace DbInternals.Buffer.PageGuards

/-- The two guard classes. -/
inductive Kind | read | write
  deriving DecidableEq, Repr

/-! ## `std::shared_mutex` -/

/-- How often the latch is held, shared and exclusively. -/
structure SharedMutex where
  shared : Nat
  exclusive : Bool

namespace SharedMutex

def lockShared : EStateM Fault SharedMutex Unit := do
  let m ← get
  if m.exclusive then throw .waits
  set { m with shared := m.shared + 1 }

def lock : EStateM Fault SharedMutex Unit := do
  let m ← get
  if m.exclusive ∨ m.shared ≠ 0 then throw .waits
  set { m with exclusive := true }

def unlockShared : EStateM Fault SharedMutex Unit := do
  let m ← get
  if m.shared = 0 then throw .notHeld
  set { m with shared := m.shared - 1 }

def unlock : EStateM Fault SharedMutex Unit := do
  let m ← get
  if !m.exclusive then throw .notHeld
  set { m with exclusive := false }

end SharedMutex

/-! ## Objects -/

/-- A frame with its id and latch; mirrors src/buffer/buffer_pool_manager.h:46-85 -/
structure LatchedFrame extends FrameHeader where
  frameId : Nat
  rwlatch : SharedMutex

/-- `pin_count_.fetch_sub(1)` -/
def LatchedFrame.fetchSub : EStateM Fault LatchedFrame Nat := do
  let h ← get
  set { h with toFrameHeader := h.unpinned }
  return h.pinCount

/-- `pin_count_.fetch_add(1)`, which the buffer pool does before it builds a guard -/
def LatchedFrame.fetchAdd : EStateM Fault LatchedFrame Nat := do
  let h ← get
  set { h with toFrameHeader := h.pinned }
  return h.pinCount

/-- mirrors src/storage/page_guard.h:22-111 -/
structure PageGuard where
  pageId : Nat
  frame : Option Nat
  replacer : Option Nat
  bpmLatch : Option Nat
  diskScheduler : Option Nat
  isValid : Bool
  ticket : Nat

/-- The objects behind the `shared_ptr`s and the guard variables that are alive. -/
structure Program (V : Type) where
  frames : Nat → LatchedFrame
  replacers : Nat → ArcReplacer
  /-- the mutexes that are locked -/
  mutexes : Nat → Bool
  guards : Kind × V → Option PageGuard
  built : List (Kind × Nat)
  unpins : List (Nat × Nat)

abbrev GuardM (V : Type) := EStateM Fault (Program V)

section
variable {V : Type}

/-- `*p` for a `shared_ptr` -/
def target (p : Option Nat) : GuardM V Nat :=
  match p with
  | some a => return a
  | none => throw .nullDeref

def onFrame {α : Type} (frame : Nat) (x : EStateM Fault LatchedFrame α) : GuardM V α :=
  zoom (·.frames frame) (fun h p => { p with frames := Function.update p.frames frame h }) x

def onLatch (frame : Nat) (x : EStateM Fault SharedMutex Unit) : GuardM V Unit :=
  onFrame frame (zoom (·.rwlatch) (fun m h => { h with rwlatch := m }) x)

def onReplacer (replacer : Nat) (x : ArcM Unit) : GuardM V Unit :=
  zoom (·.replacers replacer)
    (fun r p => { p with replacers := Function.update p.replacers replacer r }) x

/-- `std::mutex::lock` -/
def lockMutex (mutex : Nat) : GuardM V Unit := do
  if (← get).mutexes mutex then throw .waits
  modify fun p => { p with mutexes := Function.update p.mutexes mutex true }

/-- `std::mutex::unlock` -/
def unlockMutex (mutex : Nat) : GuardM V Unit := do
  if !(← get).mutexes mutex then throw .notHeld
  modify fun p => { p with mutexes := Function.update p.mutexes mutex false }

/-- The decrement of a pin count by the guard with the ticket. -/
def unpinBy (ticket frame : Nat) : GuardM V Nat := do
  modify fun p => { p with unpins := p.unpins ++ [(ticket, frame)] }
  onFrame frame LatchedFrame.fetchSub

/-- The guard a variable names. -/
def load (w : Kind × V) : GuardM V PageGuard := do
  match (← get).guards w with
  | some g => return g
  | none => throw .nullDeref

/-- The last pin of a frame is gone: it may be evicted. `inside` is what else happens under the
pool's latch. -/
def makeEvictable (g : PageGuard) (frame : Nat) (inside : GuardM V Unit) : GuardM V Unit := do
  let latch ← target g.bpmLatch
  lockMutex latch
  let replacer ← target g.replacer
  onReplacer replacer (ArcReplacer.setEvictable ((← get).frames frame).frameId true)
  inside
  unlockMutex latch

variable [DecidableEq V]

def store (w : Kind × V) (g : Option PageGuard) : GuardM V Unit :=
  modify fun p => { p with guards := Function.update p.guards w g }

/-- Null pointers and a cleared flag: after `Drop`, and what a move leaves behind. -/
def PageGuard.cleared (g : PageGuard) : PageGuard :=
  { g with frame := none, replacer := none, bpmLatch := none, diskScheduler := none, isValid := false }

/-! ## Members both classes share -/

/-- A guard the buffer pool builds, holding its latch. -/
def construct (k : Kind) (lock : EStateM Fault SharedMutex Unit) (this : V)
    (pageId frame replacer bpmLatch diskScheduler : Nat) : GuardM V Unit := do
  onLatch frame lock
  let ticket := (← get).built.length
  modify fun p => { p with built := p.built ++ [(k, frame)] }
  store (k, this) (some
    { pageId, frame := some frame, replacer := some replacer, bpmLatch := some bpmLatch
      diskScheduler := some diskScheduler, isValid := true, ticket })

/-- A default-constructed guard; its `page_id_` stays unset and is never used. -/
def defaultConstruct (k : Kind) (this : V) : GuardM V Unit :=
  store (k, this) (some
    { pageId := 0, frame := none, replacer := none, bpmLatch := none, diskScheduler := none
      isValid := false, ticket := 0 })

/-- All six members of `that` are taken over, and `that` is invalidated. -/
def takeOver (k : Kind) (this that : V) : GuardM V Unit := do
  let g ← load (k, that)
  store (k, this) (some
    { pageId := g.pageId, frame := g.frame, replacer := g.replacer, bpmLatch := g.bpmLatch
      diskScheduler := g.diskScheduler, isValid := g.isValid, ticket := g.ticket })
  store (k, that) (some g.cleared)

def moveAssign (k : Kind) (drop : V → GuardM V Unit) (this that : V) : GuardM V Unit := do
  if this = that then return
  drop this
  takeOver k this that

/-- The destructor's body, then the end of the variable. -/
def destroy (k : Kind) (drop : V → GuardM V Unit) (this : V) : GuardM V Unit := do
  drop this
  store (k, this) none

/-! ## `ReadPageGuard` -/

namespace ReadPageGuard

/-- mirrors src/storage/page_guard.cpp:19-29 -/
def construct (this : V) (pageId frame replacer bpmLatch diskScheduler : Nat) : GuardM V Unit :=
  PageGuards.construct .read SharedMutex.lockShared this pageId frame replacer bpmLatch diskScheduler

/-- mirrors src/storage/page_guard.h:38 -/
def default (this : V) : GuardM V Unit := defaultConstruct .read this

/-- mirrors src/storage/page_guard.cpp:46-54 -/
def moveConstruct (this that : V) : GuardM V Unit := takeOver .read this that

/-- mirrors src/storage/page_guard.cpp:137-153 -/
def drop (this : V) : GuardM V Unit := do
  let g ← load (.read, this)
  if g.isValid then
    let frame ← target g.frame
    if (← unpinBy g.ticket frame) = 1 then
      -- the frame's latch is released before the pool's, so the replacer cannot evict in between
      makeEvictable g frame (onLatch frame SharedMutex.unlockShared)
    else
      onLatch frame SharedMutex.unlockShared
    store (.read, this) (some g.cleared)

/-- mirrors src/storage/page_guard.cpp:73-86 -/
def moveAssign (this that : V) : GuardM V Unit := PageGuards.moveAssign .read drop this that

/-- mirrors src/storage/page_guard.cpp:156 -/
def destroy (this : V) : GuardM V Unit := PageGuards.destroy .read drop this

end ReadPageGuard

/-! ## `WritePageGuard` -/

namespace WritePageGuard

/-- mirrors src/storage/page_guard.cpp:175-187 -/
def construct (this : V) (pageId frame replacer bpmLatch diskScheduler : Nat) : GuardM V Unit :=
  PageGuards.construct .write SharedMutex.lock this pageId frame replacer bpmLatch diskScheduler

/-- mirrors src/storage/page_guard.h:140 -/
def default (this : V) : GuardM V Unit := defaultConstruct .write this

/-- mirrors src/storage/page_guard.cpp:204-212 -/
def moveConstruct (this that : V) : GuardM V Unit := takeOver .write this that

/-- mirrors src/storage/page_guard.cpp:311-325 -/
def drop (this : V) : GuardM V Unit := do
  let g ← load (.write, this)
  if g.isValid then
    let frame ← target g.frame
    if (← unpinBy g.ticket frame) = 1 then
      makeEvictable g frame (pure ())
    onLatch frame SharedMutex.unlock
    store (.write, this) (some g.cleared)

/-- mirrors src/storage/page_guard.cpp:231-244 -/
def moveAssign (this that : V) : GuardM V Unit := PageGuards.moveAssign .write drop this that

/-- mirrors src/storage/page_guard.cpp:328 -/
def destroy (this : V) : GuardM V Unit := PageGuards.destroy .write drop this

end WritePageGuard

/-! ## Programs over guards -/

/-- One use of a guard variable, or a pin taken by the buffer pool. -/
inductive Op (V : Type)
  | construct (k : Kind) (this : V) (pageId frame replacer bpmLatch diskScheduler : Nat)
  | default (k : Kind) (this : V)
  | moveConstruct (k : Kind) (this that : V)
  | moveAssign (k : Kind) (this that : V)
  | drop (k : Kind) (this : V)
  | destroy (k : Kind) (this : V)
  | pin (frame : Nat)

def Op.run : Op V → GuardM V Unit
  | .construct .read v p f r m d => ReadPageGuard.construct v p f r m d
  | .construct .write v p f r m d => WritePageGuard.construct v p f r m d
  | .default .read v => ReadPageGuard.default v
  | .default .write v => WritePageGuard.default v
  | .moveConstruct .read v u => ReadPageGuard.moveConstruct v u
  | .moveConstruct .write v u => WritePageGuard.moveConstruct v u
  | .moveAssign .read v u => ReadPageGuard.moveAssign v u
  | .moveAssign .write v u => WritePageGuard.moveAssign v u
  | .drop .read v => ReadPageGuard.drop v
  | .drop .write v => WritePageGuard.drop v
  | .destroy .read v => ReadPageGuard.destroy v
  | .destroy .write v => WritePageGuard.destroy v
  | .pin f => do let _ ← onFrame f LatchedFrame.fetchAdd

end

section
variable {V : Type}

/-- A constructor begins a variable's life, every other member needs it alive. -/
def Program.Legal (p : Program V) : Op V → Prop
  | .construct k v .. => p.guards (k, v) = none
  | .default k v => p.guards (k, v) = none
  | .moveConstruct k v u => p.guards (k, v) = none ∧ (p.guards (k, u)).isSome
  | .moveAssign k v u => (p.guards (k, v)).isSome ∧ (p.guards (k, u)).isSome
  | .drop k v => (p.guards (k, v)).isSome
  | .destroy k v => (p.guards (k, v)).isSome
  | .pin _ => True

/-- No guard yet, every latch free. -/
structure Program.Fresh (p : Program V) : Prop where
  guards : ∀ w, p.guards w = none
  latches : ∀ f, (p.frames f).rwlatch = ⟨0, false⟩
  mutexes : ∀ m, p.mutexes m = false
  built : p.built = []
  unpins : p.unpins = []

/-- The programs over the guard variables `V`, from `p₀`. -/
def programs [DecidableEq V] (p₀ : Program V) : LTS (Program V) (Op V) where
  init p := p = p₀
  step p l p' := p.Legal l ∧ Ends l.run p () p'

end

end DbInternals.Buffer.PageGuards
