import DbInternals.Common.Types
import DbInternals.Core.Hoare
import Mathlib.Data.List.Basic
import Mathlib.Logic.Function.Basic

/-!
# `ArcReplacer`: the code

The replacement policy of `src/buffer/arc_replacer.{h,cpp}`. The lists are in
the source's order (`push_front` conses); a map is a function; a counter is a
`size_t`, so a decrement wraps at zero, while an increment counts a list in
memory and does not, and neither does twice the capacity, a number of frames
in memory.

Results: one lemma per call says what the maps are afterwards
(`evict_ends`, `recordAccess_maps`, `setEvictable_ends`), and
`recordAccess_owner` which page a frame is then recorded for.
-/
namespace DbInternals.Buffer

/-- `--n` on a `size_t` -/
def sizeDec (n : Nat) : Nat := if n = 0 then 2 ^ 64 - 1 else n - 1

theorem sizeDec_succ (n : Nat) : sizeDec (n + 1) = n := rfl

/-- mirrors src/common/types.h:14 -/
def INVALID_FRAME_ID : Nat := 2 ^ 32 - 1

/-- mirrors src/buffer/arc_replacer.h:15 -/
inductive ArcStatus | mru | mfu | mruGhost | mfuGhost
  deriving DecidableEq, Repr

/-- mirrors src/buffer/arc_replacer.h:18-28 -/
structure FrameStatus where
  pageId : Nat
  frameId : Nat
  evictable : Bool
  arcStatus : ArcStatus
  deriving DecidableEq, Repr

/-- mirrors src/buffer/arc_replacer.h:33-86 -/
structure ArcReplacer where
  mru : List Nat
  mfu : List Nat
  /-- page ids -/
  mruGhost : List Nat
  mfuGhost : List Nat
  mruSize : Nat
  mfuSize : Nat
  mruGhostSize : Nat
  mfuGhostSize : Nat
  /-- by frame id -/
  aliveMap : Nat → Option FrameStatus
  /-- by page id -/
  ghostMap : Nat → Option FrameStatus
  /-- alive, evictable entries -/
  currSize : Nat
  mruTargetSize : Nat
  replacerSize : Nat

abbrev ArcM := EStateM Fault ArcReplacer

namespace ArcReplacer

/-- mirrors src/buffer/arc_replacer.cpp:14-15 -/
def create (numFrames : Nat) : ArcReplacer where
  mru := []
  mfu := []
  mruGhost := []
  mfuGhost := []
  mruSize := 0
  mfuSize := 0
  mruGhostSize := 0
  mfuGhostSize := 0
  aliveMap _ := none
  ghostMap _ := none
  currSize := 0
  mruTargetSize := 0
  replacerSize := numFrames

/-! ## Eviction -/

/-- The lambda `EvictFrom` on a list read from its back: the victim, and the
list without it. mirrors src/buffer/arc_replacer.cpp:38-52 -/
def evictFrom : List Nat → ArcM (Option (Nat × List Nat))
  | [] => return none
  | candidate :: rest => do
    match (← get).aliveMap candidate with
    | none => throw (.aborted s!"frame_id {candidate} present in list but missing from alive_map_")
    | some status =>
      if status.evictable then return some (candidate, rest)
      else return (← evictFrom rest).map fun v => (v.1, candidate :: v.2)

def evictMru : ArcM (Option Nat) := do
  match ← evictFrom (← get).mru.reverse with
  | none => return none
  | some (victim, rest) =>
    modify fun r => { r with mru := rest.reverse }
    return some victim

def evictMfu : ArcM (Option Nat) := do
  match ← evictFrom (← get).mfu.reverse with
  | none => return none
  | some (victim, rest) =>
    modify fun r => { r with mfu := rest.reverse }
    return some victim

/-- The victim, and whether it is from `mru`. mirrors src/buffer/arc_replacer.cpp:54-72 -/
def pickVictim : ArcM (Option (Nat × Bool)) := do
  let r ← get
  if r.mruSize ≥ r.mruTargetSize then
    match ← evictMru with
    | some victim => return some (victim, true)
    | none => return (← evictMfu).map (·, false)
  else
    match ← evictMfu with
    | some victim => return some (victim, false)
    | none => return (← evictMru).map (·, true)

/-- The victim becomes the newest ghost of its list. mirrors src/buffer/arc_replacer.cpp:82-98 -/
def toGhost (r : ArcReplacer) (frameId : Nat) (status : FrameStatus) (fromMru : Bool) :
    ArcReplacer :=
  let r := { r with
    aliveMap := Function.update r.aliveMap frameId none
    currSize := sizeDec r.currSize }
  if fromMru then { r with
    mruSize := sizeDec r.mruSize
    mruGhost := status.pageId :: r.mruGhost
    mruGhostSize := r.mruGhostSize + 1
    ghostMap := Function.update r.ghostMap status.pageId
      (some { status with arcStatus := .mruGhost, frameId := INVALID_FRAME_ID }) }
  else { r with
    mfuSize := sizeDec r.mfuSize
    mfuGhost := status.pageId :: r.mfuGhost
    mfuGhostSize := r.mfuGhostSize + 1
    ghostMap := Function.update r.ghostMap status.pageId
      (some { status with arcStatus := .mfuGhost, frameId := INVALID_FRAME_ID }) }

/-- The page and the frame of the victim. mirrors src/buffer/arc_replacer.cpp:35-101 -/
def evict : ArcM (Option (Nat × Nat)) := do
  match ← pickVictim with
  | none => return none
  | some (frameId, fromMru) =>
    match (← get).aliveMap frameId with
    | none => throw .nullDeref
    | some status =>
      modify fun r => r.toGhost frameId status fromMru
      return some (status.pageId, frameId)

/-! ## Accesses -/

/-- `LogFatalStream` with the text, unless the condition holds. -/
def ensure (c : Bool) (text : String) : ArcM Unit := if c then pure () else throw (.aborted text)

/-- The frame leaves the list its status names. mirrors src/buffer/arc_replacer.cpp:149-170 -/
def leaveList (frameId : Nat) (status : FrameStatus) : ArcM Unit := do
  let r ← get
  match status.arcStatus with
  | .mru =>
    ensure (r.mru.contains frameId)
      s!"frame_id {frameId} marked MRU in alive_map_ but not found in mru_"
    set { r with mru := r.mru.erase frameId, mruSize := sizeDec r.mruSize }
  | .mfu =>
    ensure (r.mfu.contains frameId)
      s!"frame_id {frameId} marked MFU in alive_map_ but not found in mfu_"
    set { r with mfu := r.mfu.erase frameId, mfuSize := sizeDec r.mfuSize }
  | _ =>
    ensure false
      s!"frame_id {frameId} in alive_map_ has corrupted arc_status_ (neither MRU nor MFU)"

/-- mirrors src/buffer/arc_replacer.cpp:148-174 -/
def recordAlive (frameId : Nat) (status : FrameStatus) : ArcM Unit := do
  leaveList frameId status
  modify fun r => { r with
    aliveMap := Function.update r.aliveMap frameId (some { status with arcStatus := .mfu })
    mfu := status.frameId :: r.mfu
    mfuSize := r.mfuSize + 1 }

/-- `a >= b ? 1 : b / a` -/
def targetStep (a b : Nat) : ArcM Nat :=
  if a ≥ b then return 1 else if a = 0 then throw .divideByZero else return b / a

/-- The page leaves the ghost list its status names, and the target moves.
mirrors src/buffer/arc_replacer.cpp:177-198 -/
def leaveGhost (pageId : Nat) (status : FrameStatus) : ArcM Unit := do
  let r ← get
  match status.arcStatus with
  | .mruGhost =>
    let increase ← targetStep r.mruGhostSize r.mfuGhostSize
    ensure (r.mruGhost.contains pageId)
      s!"page_id {pageId} marked MRU_GHOST in ghost_map_ but not found in mru_ghost_"
    set { r with
      mruTargetSize := (r.mruTargetSize + increase) % 2 ^ 64
      mruGhost := r.mruGhost.erase pageId
      mruGhostSize := sizeDec r.mruGhostSize }
  | .mfuGhost =>
    let decrease ← targetStep r.mfuGhostSize r.mruGhostSize
    ensure (r.mfuGhost.contains pageId)
      s!"page_id {pageId} marked MFU_GHOST in ghost_map_ but not found in mfu_ghost_"
    set { r with
      mruTargetSize :=
        if r.mruTargetSize ≥ decrease then r.mruTargetSize - decrease else r.mruTargetSize
      mfuGhost := r.mfuGhost.erase pageId
      mfuGhostSize := sizeDec r.mfuGhostSize }
  | _ => return

/-- mirrors src/buffer/arc_replacer.cpp:175-205 -/
def recordGhost (frameId pageId : Nat) (status : FrameStatus) : ArcM Unit := do
  leaveGhost pageId status
  modify fun r => { r with
    ghostMap := Function.update r.ghostMap pageId none
    aliveMap := Function.update r.aliveMap frameId (some { status with
      frameId := frameId, arcStatus := .mfu, evictable := false })
    mfu := frameId :: r.mfu
    mfuSize := r.mfuSize + 1 }

/-- A full replacer forgets its oldest ghost. mirrors src/buffer/arc_replacer.cpp:208-217 -/
def trimGhosts : ArcM Unit := do
  let r ← get
  ensure (r.mruGhostSize + r.mruSize ≤ r.replacerSize)
    (s!"mru_size_ ({r.mruSize}) + mru_ghost_size_ ({r.mruGhostSize}) exceeds " ++
      s!"replacer_size_ ({r.replacerSize})")
  if r.mruSize + r.mruGhostSize = r.replacerSize then
    if r.mruGhost = [] then throw .nullDeref
    else set { r with mruGhost := r.mruGhost.dropLast, mruGhostSize := sizeDec r.mruGhostSize }
  else if r.mruSize + r.mruGhostSize + r.mfuSize + r.mfuGhostSize = 2 * r.replacerSize then
    if r.mfuGhost = [] then throw .nullDeref
    else set { r with mfuGhost := r.mfuGhost.dropLast, mfuGhostSize := sizeDec r.mfuGhostSize }

/-- mirrors src/buffer/arc_replacer.cpp:206-220 -/
def recordNew (frameId pageId : Nat) : ArcM Unit := do
  trimGhosts
  modify fun r => { r with
    mru := frameId :: r.mru
    mruSize := r.mruSize + 1
    aliveMap := Function.update r.aliveMap frameId (some ⟨pageId, frameId, false, .mru⟩) }

/-- mirrors src/buffer/arc_replacer.cpp:140-226 -/
def recordAccess (frameId pageId : Nat) : ArcM Unit := do
  let r ← get
  match r.aliveMap frameId, r.ghostMap pageId with
  | some status, _ => recordAlive frameId status
  | none, some status => recordGhost frameId pageId status
  | none, none => recordNew frameId pageId

/-! ## Evictable frames -/

/-- The flag of an alive frame. mirrors src/buffer/arc_replacer.cpp:252-267 -/
def flag (r : ArcReplacer) (frameId : Nat) (setEvictable : Bool) : ArcReplacer :=
  match r.aliveMap frameId with
  | none => r
  | some status =>
    if status.evictable = setEvictable then r
    else { r with
      aliveMap := Function.update r.aliveMap frameId (some { status with evictable := setEvictable })
      currSize := if setEvictable then r.currSize + 1 else sizeDec r.currSize }

/-- mirrors src/buffer/arc_replacer.cpp:245-268 -/
def setEvictable (frameId : Nat) (setEvictable : Bool) : ArcM Unit := do
  let r ← get
  ensure (frameId < r.replacerSize)
    (s!"SetEvictable called with invalid frame_id {frameId} " ++
      s!"(replacer_size_ is {r.replacerSize})")
  modify fun r => r.flag frameId setEvictable

/-- mirrors src/buffer/arc_replacer.cpp:286-321 -/
def remove (frameId : Nat) : ArcM Unit := do
  match (← get).aliveMap frameId with
  | none => return
  | some status =>
    ensure status.evictable s!"Remove called on non-evictable frame_id {frameId}"
    leaveList frameId status
    modify fun r => { r with
      aliveMap := Function.update r.aliveMap frameId none
      currSize := sizeDec r.currSize }

/-- mirrors src/buffer/arc_replacer.cpp:330 -/
def size (r : ArcReplacer) : Nat := r.currSize

/-! ## What the calls do -/

section
variable {r r' : ArcReplacer} {l rest : List Nat} {f p : Nat}

/-- The frame is alive and may be evicted. -/
def Evictable (r : ArcReplacer) (f : Nat) : Prop :=
  ∃ status, r.aliveMap f = some status ∧ status.evictable = true

/-- `f` is the first evictable frame of `l`, and `rest` is `l` without it. -/
def IsVictim (r : ArcReplacer) (l : List Nat) (f : Nat) (rest : List Nat) : Prop :=
  ∃ l₁ l₂, l = l₁ ++ f :: l₂ ∧ rest = l₁ ++ l₂ ∧ r.Evictable f ∧ ∀ c ∈ l₁, ¬ r.Evictable c

theorem evictFrom_ends {o : Option (Nat × List Nat)} (h : Ends (evictFrom l) r o r') : r' = r ∧
    (o = none ∧ (∀ c ∈ l, ¬ r.Evictable c) ∨ ∃ f rest, o = some (f, rest) ∧ r.IsVictim l f rest) := by
  induction l generalizing o with
  | nil =>
    cases h
    exact ⟨rfl, .inl ⟨rfl, by simp⟩⟩
  | cons c l ih =>
    rw [evictFrom] at h
    replace h := Ends.rest (Ends.get r) h
    cases hc : r.aliveMap c with
    | none => simp only [hc] at h; cases h
    | some status =>
      simp only [hc] at h
      obtain ⟨he, h⟩ | ⟨he, h⟩ := Ends.ite h
      · cases h
        exact ⟨rfl, .inr ⟨c, l, rfl, [], l, rfl, rfl, ⟨status, hc, he⟩, by simp⟩⟩
      have hne : ¬ r.Evictable c := by
        intro hv
        obtain ⟨st, hst, hv⟩ := hv
        cases hc.symm.trans hst
        exact he hv
      obtain ⟨o', r₁, h₁, h⟩ := Ends.bind_iff.mp h
      cases h
      obtain ⟨rfl, hv⟩ := ih h₁
      refine ⟨rfl, ?_⟩
      obtain ⟨rfl, hn⟩ | ⟨f, rest, rfl, l₁, l₂, rfl, rfl, hev, hn⟩ := hv
      · refine .inl ⟨rfl, fun x hx => ?_⟩
        obtain rfl | hx := List.mem_cons.mp hx
        · exact hne
        · exact hn x hx
      · refine .inr ⟨f, c :: (l₁ ++ l₂), rfl, c :: l₁, l₂, rfl, rfl, hev, fun x hx => ?_⟩
        obtain rfl | hx := List.mem_cons.mp hx
        · exact hne
        · exact hn x hx

/-- The scan of a list of alive frames returns. -/
theorem evictFrom_total (h : ∀ c ∈ l, r.aliveMap c ≠ none) : ∃ o, Ends (evictFrom l) r o r := by
  induction l with
  | nil => exact ⟨none, .pure _ _⟩
  | cons c l ih =>
    obtain ⟨o, ho⟩ := ih fun x hx => h x (List.mem_cons_of_mem _ hx)
    rw [evictFrom]
    cases hc : r.aliveMap c with
    | none => exact absurd hc (h c List.mem_cons_self)
    | some status =>
      by_cases he : status.evictable = true
      · refine ⟨some (c, l), (Ends.get r).bind ?_⟩
        simp only [hc, he, if_true]
        exact .pure _ _
      · refine ⟨o.map fun v => (v.1, c :: v.2), (Ends.get r).bind ?_⟩
        simp only [hc, he]
        exact ho.bind (.pure _ _)

/-- What `Evict` leaves behind when it takes `f` from `mru` or `mfu`. -/
def Evicted (r : ArcReplacer) (f : Nat) (status : FrameStatus) (r' : ArcReplacer) : Prop :=
  (∃ rest, r.IsVictim r.mru.reverse f rest ∧
    r' = ({ r with mru := rest.reverse } : ArcReplacer).toGhost f status true) ∨
  ∃ rest, r.IsVictim r.mfu.reverse f rest ∧
    r' = ({ r with mfu := rest.reverse } : ArcReplacer).toGhost f status false

theorem evictMru_ends {o : Option Nat} (h : Ends evictMru r o r') :
    (o = none ∧ r' = r ∧ ∀ c ∈ r.mru, ¬ r.Evictable c) ∨ ∃ f rest, o = some f ∧
      r.IsVictim r.mru.reverse f rest ∧ r' = { r with mru := rest.reverse } := by
  replace h := Ends.rest (Ends.get r) h
  obtain ⟨o', r₁, h₁, h⟩ := Ends.bind_iff.mp h
  obtain ⟨rfl, ⟨rfl, hn⟩ | ⟨f, rest, rfl, hv⟩⟩ := evictFrom_ends h₁
  · cases h
    exact .inl ⟨rfl, rfl, fun c hc => hn c (List.mem_reverse.mpr hc)⟩
  · cases h
    exact .inr ⟨f, rest, rfl, hv, rfl⟩

theorem evictMfu_ends {o : Option Nat} (h : Ends evictMfu r o r') :
    (o = none ∧ r' = r ∧ ∀ c ∈ r.mfu, ¬ r.Evictable c) ∨ ∃ f rest, o = some f ∧
      r.IsVictim r.mfu.reverse f rest ∧ r' = { r with mfu := rest.reverse } := by
  replace h := Ends.rest (Ends.get r) h
  obtain ⟨o', r₁, h₁, h⟩ := Ends.bind_iff.mp h
  obtain ⟨rfl, ⟨rfl, hn⟩ | ⟨f, rest, rfl, hv⟩⟩ := evictFrom_ends h₁
  · cases h
    exact .inl ⟨rfl, rfl, fun c hc => hn c (List.mem_reverse.mpr hc)⟩
  · cases h
    exact .inr ⟨f, rest, rfl, hv, rfl⟩

/-- The victim is taken from one of the lists, the second choice only if the first has none to
evict; or nothing is evictable. -/
theorem pickVictim_picks {o : Option (Nat × Bool)} (h : Ends pickVictim r o r') :
    (o = none ∧ r' = r ∧ (∀ c ∈ r.mru, ¬ r.Evictable c) ∧ ∀ c ∈ r.mfu, ¬ r.Evictable c) ∨
    (∃ f rest, o = some (f, true) ∧ r.IsVictim r.mru.reverse f rest ∧
      r' = { r with mru := rest.reverse } ∧
      (r.mruTargetSize ≤ r.mruSize ∨ ∀ c ∈ r.mfu, ¬ r.Evictable c)) ∨
    ∃ f rest, o = some (f, false) ∧ r.IsVictim r.mfu.reverse f rest ∧
      r' = { r with mfu := rest.reverse } ∧
      (¬ r.mruTargetSize ≤ r.mruSize ∨ ∀ c ∈ r.mru, ¬ r.Evictable c) := by
  rw [pickVictim] at h
  replace h := Ends.rest (Ends.get r) h
  obtain ⟨hc, hb⟩ | ⟨hc, hb⟩ := Ends.ite h
  · obtain ⟨o₁, r₁, h₁, hc'⟩ := Ends.bind_iff.mp hb
    obtain ⟨rfl, rfl, hn⟩ | ⟨f, rest, rfl, hv, rfl⟩ := evictMru_ends h₁
    · obtain ⟨o₂, r₂, h₂, hd⟩ := Ends.bind_iff.mp hc'
      cases hd
      obtain ⟨rfl, rfl, hm⟩ | ⟨f, rest, rfl, hv, rfl⟩ := evictMfu_ends h₂
      · exact .inl ⟨rfl, rfl, hn, hm⟩
      · exact .inr (.inr ⟨f, rest, rfl, hv, rfl, .inr hn⟩)
    · cases hc'
      exact .inr (.inl ⟨f, rest, rfl, hv, rfl, .inl hc⟩)
  · obtain ⟨o₁, r₁, h₁, hc'⟩ := Ends.bind_iff.mp hb
    obtain ⟨rfl, rfl, hn⟩ | ⟨f, rest, rfl, hv, rfl⟩ := evictMfu_ends h₁
    · obtain ⟨o₂, r₂, h₂, hd⟩ := Ends.bind_iff.mp hc'
      cases hd
      obtain ⟨rfl, rfl, hm⟩ | ⟨f, rest, rfl, hv, rfl⟩ := evictMru_ends h₂
      · exact .inl ⟨rfl, rfl, hm, hn⟩
      · exact .inr (.inl ⟨f, rest, rfl, hv, rfl, .inr hn⟩)
    · cases hc'
      exact .inr (.inr ⟨f, rest, rfl, hv, rfl, .inl hc⟩)

/-- The victim is taken from one of the lists, or nothing is evictable. -/
theorem pickVictim_ends {o : Option (Nat × Bool)} (h : Ends pickVictim r o r') :
    (o = none ∧ r' = r ∧ (∀ c ∈ r.mru, ¬ r.Evictable c) ∧ ∀ c ∈ r.mfu, ¬ r.Evictable c) ∨
    (∃ f rest, o = some (f, true) ∧ r.IsVictim r.mru.reverse f rest ∧
      r' = { r with mru := rest.reverse }) ∨
    ∃ f rest, o = some (f, false) ∧ r.IsVictim r.mfu.reverse f rest ∧
      r' = { r with mfu := rest.reverse } := by
  obtain hn | ⟨f, rest, ho, hv, hr, -⟩ | ⟨f, rest, ho, hv, hr, -⟩ := pickVictim_picks h
  · exact .inl hn
  · exact .inr (.inl ⟨f, rest, ho, hv, hr⟩)
  · exact .inr (.inr ⟨f, rest, ho, hv, hr⟩)

theorem evict_ends {o : Option (Nat × Nat)} (h : Ends evict r o r') :
    (o = none ∧ r' = r ∧ (∀ c ∈ r.mru, ¬ r.Evictable c) ∧ ∀ c ∈ r.mfu, ¬ r.Evictable c) ∨
    ∃ f status, o = some (status.pageId, f) ∧ r.aliveMap f = some status ∧
      status.evictable = true ∧ r.Evicted f status r' := by
  rw [evict, Ends.bind_iff] at h
  obtain ⟨o₁, r₁, h₁, h⟩ := h
  obtain ⟨rfl, rfl, hn⟩ | ⟨f, rest, rfl, hv, rfl⟩ | ⟨f, rest, rfl, hv, rfl⟩ := pickVictim_ends h₁
  · cases h
    exact .inl ⟨rfl, rfl, hn⟩
  all_goals
    obtain ⟨l₁, l₂, hl, rfl, ⟨status, hst, hev⟩, hn⟩ := id hv
    replace h := Ends.rest (Ends.get _) h
    simp only [hst] at h
    cases h
  · exact .inr ⟨f, status, rfl, hst, hev, .inl ⟨_, hv, rfl⟩⟩
  · exact .inr ⟨f, status, rfl, hst, hev, .inr ⟨_, hv, rfl⟩⟩

/-- The maps after an eviction. -/
theorem Evicted.maps {status : FrameStatus} (h : r.Evicted f status r') :
    r'.replacerSize = r.replacerSize ∧ r'.aliveMap = Function.update r.aliveMap f none ∧
      ∃ g, g.pageId = status.pageId ∧
        r'.ghostMap = Function.update r.ghostMap status.pageId (some g) := by
  obtain ⟨rest, -, rfl⟩ | ⟨rest, -, rfl⟩ := h
  · exact ⟨rfl, rfl, { status with arcStatus := .mruGhost, frameId := INVALID_FRAME_ID }, rfl, rfl⟩
  · exact ⟨rfl, rfl, { status with arcStatus := .mfuGhost, frameId := INVALID_FRAME_ID }, rfl, rfl⟩

theorem ensure_ends {c : Bool} {text : String} {u : Unit} (h : Ends (ensure c text) r u r') :
    c = true ∧ r' = r := by
  obtain ⟨hc, h⟩ | ⟨-, h⟩ := Ends.ite h
  · cases h
    exact ⟨hc, rfl⟩
  · cases h

theorem leaveList_ends {status : FrameStatus} (h : Ends (leaveList f status) r () r') :
    (status.arcStatus = .mru ∧ f ∈ r.mru ∧
      r' = { r with mru := r.mru.erase f, mruSize := sizeDec r.mruSize }) ∨
    status.arcStatus = .mfu ∧ f ∈ r.mfu ∧
      r' = { r with mfu := r.mfu.erase f, mfuSize := sizeDec r.mfuSize } := by
  rw [leaveList] at h
  replace h := Ends.rest (Ends.get r) h
  split at h
  next hs =>
    obtain ⟨_, r₁, h₁, h₂⟩ := Ends.bind_iff.mp h
    obtain ⟨hc, rfl⟩ := ensure_ends h₁
    cases h₂
    exact .inl ⟨hs, List.contains_iff_mem.mp hc, rfl⟩
  next hs =>
    obtain ⟨_, r₁, h₁, h₂⟩ := Ends.bind_iff.mp h
    obtain ⟨hc, rfl⟩ := ensure_ends h₁
    cases h₂
    exact .inr ⟨hs, List.contains_iff_mem.mp hc, rfl⟩
  next => cases (ensure_ends h).1

/-- The calls before the update of the maps leave these alone. -/
def SameMaps (r r' : ArcReplacer) : Prop :=
  r'.aliveMap = r.aliveMap ∧ r'.ghostMap = r.ghostMap ∧ r'.replacerSize = r.replacerSize

theorem leaveList_maps {status : FrameStatus} (h : Ends (leaveList f status) r () r') :
    SameMaps r r' := by
  obtain ⟨-, -, rfl⟩ | ⟨-, -, rfl⟩ := leaveList_ends h
  · exact ⟨rfl, rfl, rfl⟩
  · exact ⟨rfl, rfl, rfl⟩

theorem targetStep_ends {a b n : Nat} (h : Ends (targetStep a b) r n r') : r' = r := by
  obtain ⟨-, h⟩ | ⟨-, h⟩ := Ends.ite h
  · cases h; rfl
  obtain ⟨-, h⟩ | ⟨-, h⟩ := Ends.ite h
  · cases h
  · cases h; rfl

/-- The page leaves the ghost list that the status names, and the target moves. -/
theorem leaveGhost_cases {status : FrameStatus} (h : Ends (leaveGhost p status) r () r') :
    (status.arcStatus = .mruGhost ∧ p ∈ r.mruGhost ∧
      ∃ n, Ends (targetStep r.mruGhostSize r.mfuGhostSize) r n r ∧ r' = { r with
        mruTargetSize := (r.mruTargetSize + n) % 2 ^ 64
        mruGhost := r.mruGhost.erase p
        mruGhostSize := sizeDec r.mruGhostSize }) ∨
    (status.arcStatus = .mfuGhost ∧ p ∈ r.mfuGhost ∧
      ∃ n, Ends (targetStep r.mfuGhostSize r.mruGhostSize) r n r ∧ r' = { r with
        mruTargetSize := if r.mruTargetSize ≥ n then r.mruTargetSize - n else r.mruTargetSize
        mfuGhost := r.mfuGhost.erase p
        mfuGhostSize := sizeDec r.mfuGhostSize }) ∨
    status.arcStatus ≠ .mruGhost ∧ status.arcStatus ≠ .mfuGhost ∧ r' = r := by
  rw [leaveGhost] at h
  replace h := Ends.rest (Ends.get r) h
  cases hs : status.arcStatus with
  | mruGhost =>
    simp only [hs] at h
    obtain ⟨n, r₁, h₁, h⟩ := Ends.bind_iff.mp h
    obtain rfl := targetStep_ends h₁
    obtain ⟨_, r₂, h₂, h⟩ := Ends.bind_iff.mp h
    obtain ⟨hm, rfl⟩ := ensure_ends h₂
    cases h
    exact .inl ⟨rfl, List.contains_iff_mem.mp hm, n, h₁, rfl⟩
  | mfuGhost =>
    simp only [hs] at h
    obtain ⟨n, r₁, h₁, h⟩ := Ends.bind_iff.mp h
    obtain rfl := targetStep_ends h₁
    obtain ⟨_, r₂, h₂, h⟩ := Ends.bind_iff.mp h
    obtain ⟨hm, rfl⟩ := ensure_ends h₂
    cases h
    exact .inr (.inl ⟨rfl, List.contains_iff_mem.mp hm, n, h₁, rfl⟩)
  | mru =>
    simp only [hs] at h
    cases h
    exact .inr (.inr ⟨nofun, nofun, rfl⟩)
  | mfu =>
    simp only [hs] at h
    cases h
    exact .inr (.inr ⟨nofun, nofun, rfl⟩)

theorem leaveGhost_maps {status : FrameStatus} (h : Ends (leaveGhost p status) r () r') :
    SameMaps r r' := by
  obtain ⟨-, -, _, -, rfl⟩ | ⟨-, -, _, -, rfl⟩ | ⟨-, -, rfl⟩ := leaveGhost_cases h
  · exact ⟨rfl, rfl, rfl⟩
  · exact ⟨rfl, rfl, rfl⟩
  · exact ⟨rfl, rfl, rfl⟩

theorem trimGhosts_maps (h : Ends trimGhosts r () r') : SameMaps r r' := by
  rw [trimGhosts] at h
  replace h := Ends.rest (Ends.get r) h
  obtain ⟨_, r₁, h₁, h₂⟩ := Ends.bind_iff.mp h
  obtain ⟨-, rfl⟩ := ensure_ends h₁
  obtain ⟨-, h₃⟩ | ⟨-, h₃⟩ := Ends.ite h₂
  · obtain ⟨-, h₄⟩ | ⟨-, h₄⟩ := Ends.ite h₃
    · cases h₄
    · cases h₄; exact ⟨rfl, rfl, rfl⟩
  obtain ⟨-, h₄⟩ | ⟨-, h₄⟩ := Ends.ite h₃
  · obtain ⟨-, h₅⟩ | ⟨-, h₅⟩ := Ends.ite h₄
    · cases h₅
    · cases h₅; exact ⟨rfl, rfl, rfl⟩
  · cases h₄; exact ⟨rfl, rfl, rfl⟩

/-- An access to an alive frame keeps its page and whether it may be evicted;
another makes the frame alive and not evictable, for its page or, if the page
is a ghost, for the page of the ghost. -/
theorem recordAccess_maps (h : Ends (recordAccess f p) r () r') :
    r'.replacerSize = r.replacerSize ∧
    ((∃ st st', r.aliveMap f = some st ∧ st'.pageId = st.pageId ∧ st'.evictable = st.evictable ∧
        r'.aliveMap = Function.update r.aliveMap f (some st') ∧ r'.ghostMap = r.ghostMap) ∨
      ∃ st', r.aliveMap f = none ∧ st'.evictable = false ∧
        r'.aliveMap = Function.update r.aliveMap f (some st') ∧
        ((r.ghostMap p = none ∧ st'.pageId = p ∧ r'.ghostMap = r.ghostMap) ∨
          ∃ g, r.ghostMap p = some g ∧ st'.pageId = g.pageId ∧
            r'.ghostMap = Function.update r.ghostMap p none)) := by
  rw [recordAccess] at h
  replace h := Ends.rest (Ends.get r) h
  split at h
  next st hf =>
    obtain ⟨_, r₁, h₁, h⟩ := Ends.bind_iff.mp h
    obtain ⟨ha, hg, hn⟩ := leaveList_maps h₁
    cases h
    exact ⟨hn, .inl ⟨st, { st with arcStatus := .mfu }, hf, rfl, rfl, by rw [← ha], hg⟩⟩
  next st hf hp =>
    obtain ⟨_, r₁, h₁, h⟩ := Ends.bind_iff.mp h
    obtain ⟨ha, hg, hn⟩ := leaveGhost_maps h₁
    cases h
    exact ⟨hn, .inr ⟨{ st with frameId := f, arcStatus := .mfu, evictable := false }, hf, rfl,
      by rw [← ha], .inr ⟨st, hp, rfl, by rw [← hg]⟩⟩⟩
  next hf hp =>
    obtain ⟨_, r₁, h₁, h⟩ := Ends.bind_iff.mp h
    obtain ⟨ha, hg, hn⟩ := trimGhosts_maps h₁
    cases h
    exact ⟨hn, .inr ⟨⟨p, f, false, .mru⟩, hf, rfl, by rw [← ha], .inl ⟨hp, rfl, hg⟩⟩⟩

/-- A frame that is removed is not alive any more. -/
theorem remove_maps (h : Ends (remove f) r () r') :
    r'.replacerSize = r.replacerSize ∧ r'.aliveMap = Function.update r.aliveMap f none ∧
      r'.ghostMap = r.ghostMap := by
  rw [remove] at h
  replace h := Ends.rest (Ends.get r) h
  cases hf : r.aliveMap f with
  | none =>
    simp only [hf] at h
    cases h
    refine ⟨rfl, ?_, rfl⟩
    rw [← hf, Function.update_eq_self]
  | some st =>
    simp only [hf] at h
    obtain ⟨_, r₁, h₁, h⟩ := Ends.bind_iff.mp h
    obtain ⟨-, e⟩ := ensure_ends h₁
    subst r₁
    obtain ⟨_, r₂, h₂, h⟩ := Ends.bind_iff.mp h
    obtain ⟨ha, hg, hn⟩ := leaveList_maps h₂
    cases h
    exact ⟨hn, by rw [← ha], hg⟩

theorem setEvictable_ends {b : Bool} :
    Ends (setEvictable f b) r () r' ↔ f < r.replacerSize ∧ r' = r.flag f b := by
  rw [setEvictable]
  constructor
  · intro h
    replace h := Ends.rest (Ends.get r) h
    obtain ⟨_, r₁, h₁, h₂⟩ := Ends.bind_iff.mp h
    obtain ⟨hc, rfl⟩ := ensure_ends h₁
    cases h₂
    exact ⟨of_decide_eq_true hc, rfl⟩
  · intro h
    obtain ⟨hlt, rfl⟩ := h
    have hc : ∀ text, Ends (ensure (decide (f < r.replacerSize)) text) r ⟨⟩ r := by
      intro text
      rw [ensure, if_pos (decide_eq_true hlt)]
      exact .pure _ _
    exact (Ends.get r).bind ((hc _).bind (Ends.modify _ r))

/-- Only the flag of an alive frame changes. -/
theorem flag_aliveMap (r : ArcReplacer) (f : Nat) (b : Bool) : (r.flag f b).aliveMap =
    Function.update r.aliveMap f ((r.aliveMap f).map fun st => { st with evictable := b }) := by
  rw [flag]
  split
  next hf => rw [hf, Option.map_none, ← hf, Function.update_eq_self]
  next st hf =>
    split
    next he => rw [hf, Option.map_some, ← he, ← hf, Function.update_eq_self]
    next => rw [hf]; rfl

/-- The frame may be evicted as the flag says, if it is alive. -/
theorem evictable_flag (r : ArcReplacer) (f c : Nat) (b : Bool) : (r.flag f b).Evictable c ↔
    if c = f then r.aliveMap f ≠ none ∧ b = true else r.Evictable c := by
  rw [Evictable, flag_aliveMap]
  by_cases e : c = f
  · subst e
    cases h : r.aliveMap c <;> simp
  · simp [e, Evictable]

@[simp] theorem flag_ghostMap (r : ArcReplacer) (f : Nat) (b : Bool) :
    (r.flag f b).ghostMap = r.ghostMap := by
  rw [flag]; split <;> [rfl; (split <;> rfl)]

@[simp] theorem flag_replacerSize (r : ArcReplacer) (f : Nat) (b : Bool) :
    (r.flag f b).replacerSize = r.replacerSize := by
  rw [flag]; split <;> [rfl; (split <;> rfl)]

/-! ## Which page a frame is alive for -/

/-- The page the frame is recorded for. -/
def owner (r : ArcReplacer) (f : Nat) : Option Nat := (r.aliveMap f).map FrameStatus.pageId

/-- A ghost is filed under its page. -/
def GhostsFiled (r : ArcReplacer) : Prop := ∀ p g, r.ghostMap p = some g → g.pageId = p

@[simp] theorem flag_owner (r : ArcReplacer) (f : Nat) (b : Bool) : (r.flag f b).owner = r.owner := by
  funext c
  rw [owner, owner, flag_aliveMap]
  by_cases h : c = f
  · subst h
    rw [Function.update_self, Option.map_map]
    rfl
  · rw [Function.update_of_ne h]

theorem GhostsFiled.flag (h : r.GhostsFiled) (b : Bool) : (r.flag f b).GhostsFiled := by
  rw [GhostsFiled, flag_ghostMap]
  exact h

theorem Evicted.owner {status : FrameStatus} (h : r.Evicted f status r') :
    r'.owner = Function.update r.owner f none := by
  funext c
  rw [ArcReplacer.owner, h.maps.2.1]
  by_cases hc : c = f
  · subst hc
    rw [Function.update_self, Function.update_self]; rfl
  · rw [Function.update_of_ne hc, Function.update_of_ne hc]; rfl

theorem remove_owner (h : Ends (remove f) r () r') :
    r'.owner = Function.update r.owner f none := by
  funext c
  rw [ArcReplacer.owner, (remove_maps h).2.1]
  by_cases hc : c = f
  · subst hc
    rw [Function.update_self, Function.update_self]; rfl
  · rw [Function.update_of_ne hc, Function.update_of_ne hc]; rfl

theorem Evicted.ghostsFiled {status : FrameStatus} (h : r.Evicted f status r')
    (hg : r.GhostsFiled) : r'.GhostsFiled := by
  obtain ⟨-, -, g, hp, hm⟩ := h.maps
  intro q g' hq
  rw [hm] at hq
  by_cases e : q = status.pageId
  · subst e
    rw [Function.update_self] at hq
    cases hq
    exact hp
  · rw [Function.update_of_ne e] at hq
    exact hg q g' hq

/-- An access leaves an alive frame its page, and makes another alive for `p`. -/
theorem recordAccess_owner (hg : r.GhostsFiled) (h : Ends (recordAccess f p) r () r') :
    r'.GhostsFiled ∧ r'.owner = Function.update r.owner f (some ((r.owner f).getD p)) := by
  have howner : ∀ st, r'.aliveMap = Function.update r.aliveMap f (some st) →
      r'.owner = Function.update r.owner f (some st.pageId) := by
    intro st ha
    funext c
    rw [owner, ha]
    by_cases hc : c = f
    · subst hc
      rw [Function.update_self, Function.update_self]; rfl
    · rw [Function.update_of_ne hc, Function.update_of_ne hc]; rfl
  obtain ⟨-, ⟨st, st', hf, hst, -, ha, hm⟩ | ⟨st', hf, -, ha, hm⟩⟩ := recordAccess_maps h
  · refine ⟨fun q g hq => hg q g (hm ▸ hq), ?_⟩
    rw [howner st' ha, hst, owner, hf]; rfl
  · have hp : st'.pageId = p := by
      obtain ⟨-, hp, -⟩ | ⟨g, hg', hp, -⟩ := hm
      · exact hp
      · exact hp.trans (hg p g hg')
    refine ⟨fun q g hq => ?_, ?_⟩
    · obtain ⟨-, -, hm⟩ | ⟨_, -, -, hm⟩ := hm
      · exact hg q g (hm ▸ hq)
      · rw [hm] at hq
        by_cases e : q = p
        · subst e
          rw [Function.update_self] at hq
          cases hq
        · rw [Function.update_of_ne e] at hq
          exact hg q g hq
    · rw [howner st' ha, hp, owner, hf]; rfl

/-! ## A replacer throws no exception -/

/-- What ends the process. -/
def Fatal (e : Fault) : Prop := e.isException = false

theorem ensure_fatal (c : Bool) (text : String) : ThrowsOnly Fatal (ensure c text) :=
  .ite (.pure _) (.throw rfl)

theorem evictFrom_fatal (l : List Nat) : ThrowsOnly Fatal (evictFrom l) := by
  induction l with
  | nil => exact .pure _
  | cons c l ih =>
    rw [evictFrom]
    refine .bind .get fun r => ?_
    split
    · exact .throw rfl
    · exact .ite (.pure _) (.bind ih fun _ => .pure _)

theorem evictMru_fatal : ThrowsOnly Fatal evictMru := by
  refine .bind .get fun r => .bind (evictFrom_fatal _) fun o => ?_
  cases o with
  | none => exact .pure _
  | some v => exact .bind (.modify _) fun _ => .pure _

theorem evictMfu_fatal : ThrowsOnly Fatal evictMfu := by
  refine .bind .get fun r => .bind (evictFrom_fatal _) fun o => ?_
  cases o with
  | none => exact .pure _
  | some v => exact .bind (.modify _) fun _ => .pure _

theorem evict_fatal : ThrowsOnly Fatal evict := by
  refine .bind (.bind .get fun r => .ite ?_ ?_) fun o => ?_
  · refine .bind evictMru_fatal fun o => ?_
    cases o with
    | none => exact .bind evictMfu_fatal fun _ => .pure _
    | some v => exact .pure _
  · refine .bind evictMfu_fatal fun o => ?_
    cases o with
    | none => exact .bind evictMru_fatal fun _ => .pure _
    | some v => exact .pure _
  · cases o with
    | none => exact .pure _
    | some v =>
      refine .bind .get fun r => ?_
      split
      · exact .throw rfl
      · exact .bind (.modify _) fun _ => .pure _

theorem leaveList_fatal (f : Nat) (st : FrameStatus) : ThrowsOnly Fatal (leaveList f st) := by
  refine .bind .get fun r => ?_
  split
  · exact .bind (ensure_fatal _ _) fun _ => .set _
  · exact .bind (ensure_fatal _ _) fun _ => .set _
  · exact ensure_fatal _ _

theorem targetStep_fatal (a b : Nat) : ThrowsOnly Fatal (targetStep a b) :=
  .ite (.pure _) (.ite (.throw rfl) (.pure _))

theorem leaveGhost_fatal (p : Nat) (st : FrameStatus) : ThrowsOnly Fatal (leaveGhost p st) := by
  refine .bind .get fun r => ?_
  split
  · exact .bind (targetStep_fatal _ _) fun _ => .bind (ensure_fatal _ _) fun _ => .set _
  · exact .bind (targetStep_fatal _ _) fun _ => .bind (ensure_fatal _ _) fun _ => .set _
  · exact .pure _

theorem trimGhosts_fatal : ThrowsOnly Fatal trimGhosts := by
  refine .bind .get fun r => .bind (ensure_fatal _ _) fun _ => .ite ?_ (.ite ?_ (.pure _))
  · exact .ite (.throw rfl) (.set _)
  · exact .ite (.throw rfl) (.set _)

theorem recordAccess_fatal (f p : Nat) : ThrowsOnly Fatal (recordAccess f p) := by
  refine .bind .get fun r => ?_
  split
  · exact .bind (leaveList_fatal _ _) fun _ => .modify _
  · exact .bind (leaveGhost_fatal _ _) fun _ => .modify _
  · exact .bind trimGhosts_fatal fun _ => .modify _

theorem setEvictable_fatal (f : Nat) (b : Bool) : ThrowsOnly Fatal (setEvictable f b) :=
  .bind .get fun _ => .bind (ensure_fatal _ _) fun _ => .modify _

theorem remove_fatal (f : Nat) : ThrowsOnly Fatal (remove f) := by
  refine .bind .get fun r => ?_
  split
  · exact .pure _
  · exact .bind (ensure_fatal _ _) fun _ => .bind (leaveList_fatal _ _) fun _ => .modify _

end

end ArcReplacer

end DbInternals.Buffer
