import DbInternals.Core.Hoare
import DbInternals.Core.LTS
import DbInternals.Storage.DiskManager

/-!
# Disk scheduler

Clients put requests into a channel; one worker thread takes them out and runs
each on the disk manager, catching what it throws. `Put` and `Get` are atomic, as
is the worker's visit of a request: the disk manager is the worker's alone.

A client's buffers may change at any time (`Event.store`), since a request only names
its buffer, and so may the device's failures (`Event.device`). `puts`, `executed` and
`settled` are histories the code does not keep.
-/
namespace DbInternals.Storage

/-! ## Channel -/

/-- A FIFO queue behind a mutex; mirrors src/common/channel.h:11-44 -/
structure Channel (T : Type) where
  q : List T

namespace Channel

variable {T : Type}

/-- mirrors src/common/channel.h:22-27 -/
def put (ch : Channel T) (element : T) : Channel T := ⟨ch.q ++ [element]⟩

/-- `none` while the caller has to wait; mirrors src/common/channel.h:32-38 -/
def get (ch : Channel T) : Option (T × Channel T) :=
  match ch.q with
  | [] => none
  | element :: q => some (element, ⟨q⟩)

end Channel

/-! ## Requests -/

/-- mirrors src/storage/disk_scheduler.h:18-36; `data` is the address of a buffer and `done` the
promise -/
inductive DiskRequest
  | read (pageId data done : Nat)
  | write (pageId data done : Nat)
  | allocate (done : Nat)
  | deallocate (pageId done : Nat)
  deriving DecidableEq, Repr

/-- The promise that was moved into the request. -/
def DiskRequest.done : DiskRequest → Nat
  | .read _ _ done => done
  | .write _ _ done => done
  | .allocate done => done
  | .deallocate _ done => done

/-- A promise: `void` ones are set without a value. -/
inductive Promise
  | pending
  | value (v : Option Nat)
  | exception (e : Fault)
  deriving DecidableEq, Repr

/-- What the worker thread is doing. -/
inductive Worker
  | waiting
  | visiting (r : DiskRequest)
  | returned
  deriving DecidableEq, Repr

/-- A request that ran: what its buffer held, when the device would fail, and how its promise
was set. -/
structure Execution where
  request : DiskRequest
  input : Mem
  device : Option Nat
  outcome : Promise

/-- The scheduler, its disk manager, and the clients `C`. -/
structure DiskScheduler (C : Type) where
  diskManager : DiskManager
  requestQueue : Channel (Option DiskRequest)
  worker : Worker
  /-- the clients' buffers -/
  memory : Nat → Mem
  promises : Nat → Option Promise
  /-- what a client's call has still to put -/
  calls : C → List DiskRequest
  puts : List (Option (C × DiskRequest))
  executed : List Execution
  settled : List (Nat × Promise)

abbrev SchedulerM (C : Type) := EStateM Fault (DiskScheduler C)

section
variable {C : Type}

/-! ## The worker thread -/

def onDisk {α : Type} (x : DiskM α) : SchedulerM C α :=
  zoom (·.diskManager) (fun d s => { s with diskManager := d }) x

/-- `set_value` and `set_exception` -/
def settle (done : Nat) (outcome : Promise) : SchedulerM C Unit := do
  match (← get).promises done with
  | none => throw (.runtimeError "No associated state")
  | some .pending =>
    modify fun s => { s with
      promises := Function.update s.promises done (some outcome)
      settled := s.settled ++ [(done, outcome)] }
  | some _ => throw (.runtimeError "Promise already satisfied")

/-- `try` and `catch (...)` -/
def catchAll (x : SchedulerM C Unit) (handler : Fault → SchedulerM C Unit) : SchedulerM C Unit :=
  fun s => match x s with
    | .ok a s' => .ok a s'
    | .error e s' => if e.isException then handler e s' else .error e s'

/-- The disk call of a request, and what its promise is set to. -/
def DiskRequest.call : DiskRequest → SchedulerM C (Option Nat)
  | .read pageId data _ => do
    let page ← onDisk (readPage pageId)
    modify fun s => { s with memory := Function.update s.memory data page }
    return none
  | .write pageId data _ => do
    onDisk (writePage pageId ((← get).memory data))
    return none
  | .allocate _ => do return some (← onDisk allocatePage)
  | .deallocate pageId _ => do
    onDisk (deallocatePage pageId)
    return none

/-- mirrors src/storage/disk_scheduler.cpp:52-70 -/
def visit (r : DiskRequest) : SchedulerM C Unit :=
  catchAll (do settle r.done (.value (← r.call))) fun e => settle r.done (.exception e)

/-! ## The clients' calls -/

/-- What the loop of `Schedule` puts, in order; mirrors src/storage/disk_scheduler.cpp:24-29 -/
def schedule (requests : List DiskRequest) : List DiskRequest :=
  List.ofFn fun i : Fin requests.length => requests[i]

/-- mirrors src/storage/disk_scheduler.cpp:31-34 -/
def scheduleSingle (request : DiskRequest) : List DiskRequest := [request]

@[simp] theorem schedule_eq (requests : List DiskRequest) : schedule requests = requests :=
  List.ofFn_getElem

@[simp] theorem scheduleSingle_eq (request : DiskRequest) : scheduleSingle request = [request] := rfl

/-- What a client, the destructor or the worker does next. -/
inductive Event (C : Type)
  | schedule (c : C) (requests : List DiskRequest)
  | scheduleSingle (c : C) (request : DiskRequest)
  | put (c : C)
  | store (data : Nat) (m : Mem)
  | device (io : Option Nat)
  | shutdown
  | get
  | execute

/-- The requests a client hands over in a call. -/
def Event.requests : Event C → List DiskRequest
  | .schedule _ requests => requests
  | .scheduleSingle _ request => [request]
  | _ => []

/-- The client that calls. -/
def Event.caller : Event C → Option C
  | .schedule c _ => some c
  | .scheduleSingle c _ => some c
  | _ => none

/-- Each request carries a promise just made for it. -/
def DiskScheduler.Fresh (s : DiskScheduler C) (requests : List DiskRequest) : Prop :=
  (requests.map DiskRequest.done).Nodup ∧ ∀ r ∈ requests, s.promises r.done = none

/-- The client has made the promises of its requests, and its call has the list `toPut` to put. -/
def DiskScheduler.begun [DecidableEq C] (s : DiskScheduler C) (c : C)
    (requests toPut : List DiskRequest) : DiskScheduler C :=
  { s with
    promises := fun p => if p ∈ requests.map DiskRequest.done then some .pending else s.promises p
    calls := Function.update s.calls c toPut }

/-- What the buffer of a request holds. -/
def DiskScheduler.input (s : DiskScheduler C) : DiskRequest → Mem
  | .write _ data _ => s.memory data
  | _ => Mem.zero

variable [DecidableEq C]

/-- One step of a client, of the destructor, or of the worker. -/
inductive Step : DiskScheduler C → Event C → DiskScheduler C → Prop
  | schedule (s : DiskScheduler C) (c : C) (requests : List DiskRequest) (hc : s.calls c = [])
    (hf : s.Fresh requests) :
    Step s (.schedule c requests) (s.begun c requests (Storage.schedule requests))
  | scheduleSingle (s : DiskScheduler C) (c : C) (request : DiskRequest) (hc : s.calls c = [])
    (hf : s.Fresh [request]) :
    Step s (.scheduleSingle c request) (s.begun c [request] (Storage.scheduleSingle request))
  | put (s : DiskScheduler C) (c : C) (r : DiskRequest) (rest : List DiskRequest)
    (hc : s.calls c = r :: rest) :
    Step s (.put c) { s with
      requestQueue := s.requestQueue.put (some r)
      calls := Function.update s.calls c rest
      puts := s.puts ++ [some (c, r)] }
  | store (s : DiskScheduler C) (data : Nat) (m : Mem) :
    Step s (.store data m) { s with memory := Function.update s.memory data m }
  | device (s : DiskScheduler C) (io : Option Nat) :
    Step s (.device io) { s with diskManager := { s.diskManager with io := io } }
  | shutdown (s : DiskScheduler C) :
    Step s .shutdown { s with requestQueue := s.requestQueue.put none, puts := s.puts ++ [none] }
  | getRequest (s : DiskScheduler C) (r : DiskRequest) (queue : Channel (Option DiskRequest))
    (hw : s.worker = .waiting) (hq : s.requestQueue.get = some (some r, queue)) :
    Step s .get { s with requestQueue := queue, worker := .visiting r }
  | getToken (s : DiskScheduler C) (queue : Channel (Option DiskRequest))
    (hw : s.worker = .waiting) (hq : s.requestQueue.get = some (none, queue)) :
    Step s .get { s with requestQueue := queue, worker := .returned }
  | execute (s s' : DiskScheduler C) (r : DiskRequest) (outcome : Promise)
    (hw : s.worker = .visiting r) (hv : Ends (visit r) s () s')
    (ho : s'.promises r.done = some outcome) :
    Step s .execute { s' with
      worker := .waiting
      executed := s'.executed ++ [⟨r, s.input r, s.diskManager.io, outcome⟩] }

/-- A scheduler just made, over the disk manager and the buffers. -/
def DiskScheduler.create (d : DiskManager) (memory : Nat → Mem) : DiskScheduler C where
  diskManager := d
  requestQueue := ⟨[]⟩
  worker := .waiting
  memory := memory
  promises _ := none
  calls _ := []
  puts := []
  executed := []
  settled := []

/-- The runs of a scheduler. -/
def scheduler (d : DiskManager) (memory : Nat → Mem) : LTS (DiskScheduler C) (Event C) where
  init s := s = .create d memory
  step := Step

end

end DbInternals.Storage
