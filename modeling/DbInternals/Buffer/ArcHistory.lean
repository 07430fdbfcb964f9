import DbInternals.Buffer.ArcCalls
import DbInternals.Core.Recency

/-!
# Victims by history

What the policy says of a victim speaks of the whole history: when each frame was last accessed, and
whether its page was loaded by a miss and not accessed since. `Past` is what a history says, with no
list in it; the code keeps no time, and the order of its lists is what is left of the times.

Results:
* `Past.last_access`: `Life.last` is the number of the last access in the history;
* `Follows.step`: a call that returns keeps the lists sorted by last access, and each frame in the
  list of its class;
* `evict_chooses`: after every run an eviction returns and takes the victim the history names.
-/
namespace DbInternals.Buffer.ArcReplacer

/-- What a history says of an alive frame. -/
structure Life where
  page : Nat
  /-- the page was evicted before and not loaded since -/
  byGhost : Bool
  /-- accesses after the one that loaded the page -/
  again : Nat
  /-- the number of its last access, counting all calls from 0 -/
  last : Nat
  evictable : Bool
  deriving DecidableEq, Repr

/-- Loaded by a miss, and accessed only once since. -/
def Life.recent (life : Life) : Bool := !life.byGhost && life.again == 0

/-- Accessed once more. -/
def Life.accessed (time : Nat) (life : Life) : Life :=
  { life with again := life.again + 1, last := time }

def Life.flag (b : Bool) (life : Life) : Life := { life with evictable := b }

/-- What a history says. -/
structure Past where
  calls : Nat
  /-- by frame id -/
  alive : Nat → Option Life
  /-- the page was evicted, and not loaded since -/
  ghost : Nat → Bool

namespace Past

def start : Past := ⟨0, fun _ => none, fun _ => false⟩

/-- The frame with another life, or dead. -/
def set (h : Past) (f : Nat) (x : Option Life) : Past :=
  { h with alive := Function.update h.alive f x }

/-- The page with another mark. -/
def mark (h : Past) (p : Nat) (b : Bool) : Past := { h with ghost := Function.update h.ghost p b }

def access (h : Past) (f p : Nat) : Past :=
  match h.alive f with
  | some life => h.set f (some (life.accessed h.calls))
  | none => (h.mark p false).set f (some ⟨p, h.ghost p, 0, h.calls, false⟩)

/-- One more call, which hands out `o`. -/
def next (h : Past) (c : Call) (o : Option (Nat × Nat)) : Past :=
  let h' := match c, o with
    | .recordAccess f p, _ => h.access f p
    | .setEvictable f b, _ => h.set f ((h.alive f).map (Life.flag b))
    | .remove f, _ => h.set f none
    | .evict, some (p, f) => (h.set f none).mark p true
    | .evict, none => h
  { h' with calls := h.calls + 1 }

/-- What the history says in the end. -/
def replay (ls : List (Call × Option (Nat × Nat))) : Past :=
  ls.foldl (fun h l => h.next l.1 l.2) start

/-- When the frame was last accessed. -/
def last (h : Past) (f : Nat) : Nat := ((h.alive f).map Life.last).getD 0

/-- The recent frames. -/
def recents (h : Past) (n : Nat) : Finset Nat :=
  (Finset.range n).filter fun f => (h.alive f).any Life.recent

/-- The class that an eviction prefers. -/
def prefersRecent (h : Past) (n target : Nat) : Bool := decide (target ≤ (h.recents n).card)

/-- No frame of the class can be evicted. -/
def Pinned (h : Past) (recent : Bool) : Prop :=
  ∀ f life, h.alive f = some life → life.recent = recent → life.evictable = false

/-- Of the frames of the class that can be evicted, the one whose last access is oldest. -/
def Oldest (h : Past) (recent : Bool) (p f : Nat) : Prop :=
  ∃ life, h.alive f = some life ∧ life.page = p ∧ life.evictable = true ∧ life.recent = recent ∧
    ∀ f' life', h.alive f' = some life' → life'.evictable = true → life'.recent = recent →
      f' ≠ f → life.last < life'.last

section
variable {h : Past} {c : Call} {o : Option (Nat × Nat)} {f p : Nat}

theorem replay_snoc (ls : List (Call × Option (Nat × Nat))) (l : Call × Option (Nat × Nat)) :
    replay (ls ++ [l]) = (replay ls).next l.1 l.2 := by
  rw [replay, List.foldl_append]
  rfl

theorem set_of_ne {x : Option Life} {c : Nat} (hc : c ≠ f) : (h.set f x).alive c = h.alive c :=
  Function.update_of_ne hc _ _

@[simp] theorem set_self (h : Past) (f : Nat) (x : Option Life) : (h.set f x).alive f = x :=
  Function.update_self ..

theorem set_set (h : Past) (f : Nat) (x y : Option Life) : (h.set f x).set f y = h.set f y := by
  rw [set, set, Function.update_idem]
  rfl

/-- A call either is the last access of a frame that is alive then, or leaves its last access. -/
theorem next_alive {life : Life} (hf : (h.next c o).alive f = some life) :
    (∃ p, c = .recordAccess f p) ∧ life.last = h.calls ∨
      (∀ p, c ≠ .recordAccess f p) ∧ ∃ life', h.alive f = some life' ∧ life'.last = life.last := by
  cases c with
  | recordAccess f' p =>
    change (h.access f' p).alive f = some life at hf
    rw [access] at hf
    by_cases e : f = f'
    · subst e
      refine .inl ⟨⟨p, rfl⟩, ?_⟩
      split at hf
      · rw [set_self] at hf
        cases hf
        rfl
      · rw [set_self] at hf
        cases hf
        rfl
    · refine .inr ⟨fun p' hc => ?_, ?_⟩
      · cases hc
        exact e rfl
      split at hf
      · rw [set_of_ne e] at hf
        exact ⟨life, hf, rfl⟩
      · rw [set_of_ne e] at hf
        exact ⟨life, hf, rfl⟩
  | setEvictable f' b =>
    refine .inr ⟨by simp, ?_⟩
    change (h.set f' _).alive f = some life at hf
    by_cases e : f = f'
    · subst e
      rw [set_self, Option.map_eq_some_iff] at hf
      obtain ⟨life', hlife, rfl⟩ := hf
      exact ⟨life', hlife, rfl⟩
    · rw [set_of_ne e] at hf
      exact ⟨life, hf, rfl⟩
  | remove f' =>
    refine .inr ⟨by simp, life, ?_, rfl⟩
    change (h.set f' none).alive f = some life at hf
    by_cases e : f = f'
    · subst e
      rw [set_self] at hf
      cases hf
    · rwa [set_of_ne e] at hf
  | evict =>
    refine .inr ⟨by simp, life, ?_, rfl⟩
    cases o with
    | none => exact hf
    | some v =>
      change (h.set v.2 none).alive f = some life at hf
      by_cases e : f = v.2
      · subst e
        rw [set_self] at hf
        cases hf
      · rwa [set_of_ne e] at hf

@[simp] theorem next_calls : (h.next c o).calls = h.calls + 1 := rfl

theorem replay_calls (ls : List (Call × Option (Nat × Nat))) : (replay ls).calls = ls.length := by
  induction ls using List.reverseRecOn with
  | nil => rfl
  | append_singleton ls l ih => rw [replay_snoc, next_calls, ih, List.length_append]; rfl

/-- The last access of an alive frame is in the history, and no access to it after that. -/
theorem last_access {ls : List (Call × Option (Nat × Nat))} {life : Life}
    (hf : (replay ls).alive f = some life) :
    (∃ p o, ls[life.last]? = some (.recordAccess f p, o)) ∧
      ∀ i p o, life.last < i → ls[i]? ≠ some (.recordAccess f p, o) := by
  induction ls using List.reverseRecOn generalizing life with
  | nil => cases hf
  | append_singleton ls l ih =>
    rw [replay_snoc] at hf
    have hlen := replay_calls ls
    obtain ⟨⟨p, hp⟩, hlast⟩ | ⟨hne, life', hlife, hlast⟩ := next_alive hf
    · rw [hlast, hlen]
      refine ⟨⟨p, l.2, ?_⟩, fun i p o hi => ?_⟩
      · rw [List.getElem?_concat_length, ← hp]
      · rw [List.getElem?_eq_none (by rw [List.length_append, List.length_singleton]; omega)]
        simp
    · obtain ⟨⟨p, o, hat⟩, hafter⟩ := ih hlife
      rw [← hlast]
      have hlt : life'.last < ls.length := (List.getElem?_eq_some_iff.mp hat).1
      refine ⟨⟨p, o, ?_⟩, fun i p o hi hat' => ?_⟩
      · rw [List.getElem?_append_left hlt, hat]
      · by_cases hil : i < ls.length
        · rw [List.getElem?_append_left hil] at hat'
          exact hafter i p o hi hat'
        · rw [List.getElem?_append_right (by omega), List.getElem?_singleton] at hat'
          split at hat'
          · cases hat'
            exact hne p rfl
          · cases hat'

theorem last_of {life : Life} (hf : h.alive f = some life) : h.last f = life.last := by
  rw [last, hf]
  rfl

theorem last_of_ne {x : Option Life} {c : Nat} (hc : c ≠ f) : (h.set f x).last c = h.last c := by
  rw [last, last, set_of_ne hc]

end

end Past

/-! ## The code follows the history -/

/-- What the code keeps of such a frame. -/
def Life.status (f : Nat) (life : Life) : FrameStatus :=
  ⟨life.page, f, life.evictable, if life.recent then .mru else .mfu⟩

def Past.statuses (h : Past) (f : Nat) : Option FrameStatus := (h.alive f).map (Life.status f)

theorem Life.status_accessed (life : Life) (t f : Nat) :
    (life.accessed t).status f = { life.status f with arcStatus := .mfu } := by
  have hrecent : (life.accessed t).recent = false := Bool.and_false _
  rw [Life.status, hrecent]
  rfl

/-- The code knows the pages, flags and classes of the history, and sorts by last access. -/
structure Follows (r : ArcReplacer) (h : Past) : Prop where
  alive : r.aliveMap = h.statuses
  ghost : ∀ p, h.ghost p = (r.ghostMap p).isSome
  mru : NewestFirst h.last r.mru
  mfu : NewestFirst h.last r.mfu
  before : ∀ f life, h.alive f = some life → life.last < h.calls

section
variable {r r' : ArcReplacer} {h : Past} {c : Call} {o : Option (Nat × Nat)} {f p : Nat}

theorem statuses_set (h : Past) (f : Nat) (x : Option Life) :
    (h.set f x).statuses = Function.update h.statuses f (x.map (Life.status f)) := by
  funext c
  rw [Past.statuses]
  by_cases e : c = f
  · subst e
    rw [Past.set_self, Function.update_self]
  · rw [Past.set_of_ne e, Function.update_of_ne e]
    rfl

theorem follows_create (n : Nat) : Follows (create n) .start where
  alive := rfl
  ghost _ := rfl
  mru := .nil
  mfu := .nil
  before f life hf := by cases hf

namespace Follows

theorem alive_some (hf : Follows r h) {st : FrameStatus} (hst : r.aliveMap f = some st) :
    ∃ life, h.alive f = some life ∧ st = life.status f := by
  rw [hf.alive, Past.statuses, Option.map_eq_some_iff] at hst
  obtain ⟨life, hlife, rfl⟩ := hst
  exact ⟨life, hlife, rfl⟩

theorem alive_none (hf : Follows r h) : r.aliveMap f = none ↔ h.alive f = none := by
  rw [hf.alive, Past.statuses, Option.map_eq_none_iff]

/-- The last access of a frame in the lists is in the past. -/
theorem last_lt (hf : Follows r h) (hdead : h.alive f ≠ none) : h.last f < h.calls := by
  obtain ⟨life, hlife⟩ := Option.ne_none_iff_exists'.mp hdead
  rw [Past.last_of hlife]
  exact hf.before f life hlife

theorem later (hf : Follows r h) : Follows r { h with calls := h.calls + 1 } where
  alive := hf.alive
  ghost := hf.ghost
  mru := hf.mru
  mfu := hf.mfu
  before f life hlife := Nat.lt_succ_of_lt (hf.before f life hlife)

theorem before_update (hf : Follows r h) {x : Option Life} {t : Nat} (ht : h.calls ≤ t)
    (hx : ∀ life, x = some life → life.last < t) (c : Nat) (life : Life)
    (hc : (h.set f x).alive c = some life) : life.last < t := by
  by_cases e : c = f
  · subst e
    rw [Past.set_self] at hc
    exact hx life hc
  · rw [Past.set_of_ne e] at hc
    exact (hf.before c life hc).trans_le ht

theorem without (hf : Follows r h) (hc : r.Counted) (f : Nat) :
    Follows (r.without f) (h.set f none) where
  alive := by
    rw [statuses_set, ← hf.alive]
    rfl
  ghost := hf.ghost
  mru := (hf.mru.erase f).congr fun a ha =>
    Past.last_of_ne fun e => hc.lists.nodup_fst.not_mem_erase (e ▸ ha)
  mfu := (hf.mfu.erase f).congr fun a ha =>
    Past.last_of_ne fun e => hc.lists.nodup_snd.not_mem_erase (e ▸ ha)
  before := hf.before_update le_rfl (by simp)

/-- A frame becomes alive with this call as its last access, in front of a list of alive frames. -/
theorem enter_list (hf : Follows r h) {l : List Nat} {life : Life} (hl : NewestFirst h.last l)
    (halive : ∀ c ∈ l, h.alive c ≠ none) (hdead : h.alive f = none) (hlast : life.last = h.calls) :
    NewestFirst (h.set f (some life)).last (f :: l) := by
  have hne : ∀ c ∈ l, c ≠ f := fun c hc e => halive c hc (e ▸ hdead)
  refine hl.enter (fun c hc => Past.last_of_ne (hne c hc)) fun c hc => ?_
  rw [Past.last_of (Past.set_self h f (some life)), hlast]
  exact hf.last_lt (halive c hc)

theorem alive_of_mem (hf : Follows r h) (hc : r.Counted) (hm : f ∈ r.mru ∨ f ∈ r.mfu) :
    h.alive f ≠ none := fun e => hc.lists.mem.mpr hm (hf.alive_none.mpr e)

theorem congr_list {l : List Nat} (hl : NewestFirst h.last l) {x : Option Life}
    (halive : ∀ c ∈ l, h.alive c ≠ none) (hdead : h.alive f = none) :
    NewestFirst (h.set f x).last l :=
  hl.congr fun c hc => Past.last_of_ne fun e => halive c hc (e ▸ hdead)

theorem withMru (hf : Follows r h) (hc : r.Counted) (life : Life) (hdead : h.alive f = none)
    (hlast : life.last = h.calls) : Follows (r.withMru (life.status f))
      { h.set f (some life) with calls := h.calls + 1 } where
  alive := by
    change _ = (h.set f (some life)).statuses
    rw [statuses_set, ← hf.alive]
    rfl
  ghost := hf.ghost
  mru := hf.enter_list hf.mru (fun c hm => hf.alive_of_mem hc (.inl hm)) hdead hlast
  mfu := congr_list hf.mfu (fun c hm => hf.alive_of_mem hc (.inr hm)) hdead
  before := by
    refine hf.before_update (Nat.le_succ _) fun life' e => ?_
    cases e
    exact hlast ▸ Nat.lt_succ_self _

theorem withMfu (hf : Follows r h) (hc : r.Counted) (life : Life) (hdead : h.alive f = none)
    (hlast : life.last = h.calls) : Follows (r.withMfu (life.status f))
      { h.set f (some life) with calls := h.calls + 1 } where
  alive := by
    change _ = (h.set f (some life)).statuses
    rw [statuses_set, ← hf.alive]
    rfl
  ghost := hf.ghost
  mru := congr_list hf.mru (fun c hm => hf.alive_of_mem hc (.inl hm)) hdead
  mfu := hf.enter_list hf.mfu (fun c hm => hf.alive_of_mem hc (.inr hm)) hdead hlast
  before := by
    refine hf.before_update (Nat.le_succ _) fun life' e => ?_
    cases e
    exact hlast ▸ Nat.lt_succ_self _

theorem withGhosts (hf : Follows r h) (l₁ l₂ : List Nat) {m : Nat → Option FrameStatus} (t : Nat)
    {g : Nat → Bool} (hg : ∀ p, g p = (m p).isSome) :
    Follows (r.withGhosts l₁ l₂ m t) { h with ghost := g } where
  alive := hf.alive
  ghost := hg
  mru := hf.mru
  mfu := hf.mfu
  before := hf.before

theorem withGhost (hf : Follows r h) (g : FrameStatus) (b : Bool) :
    Follows (r.withGhost g b) (h.mark g.pageId true) := by
  have hghost : ∀ s q, Function.update h.ghost g.pageId true q =
      (Function.update r.ghostMap g.pageId (some { g with arcStatus := s }) q).isSome := by
    intro s q
    by_cases e : q = g.pageId
    · rw [e, Function.update_self, Function.update_self]
      rfl
    · rw [Function.update_of_ne e, Function.update_of_ne e]
      exact hf.ghost q
  cases b with
  | true => exact ⟨hf.alive, hghost _, hf.mru, hf.mfu, hf.before⟩
  | false => exact ⟨hf.alive, hghost _, hf.mru, hf.mfu, hf.before⟩

theorem flag (hf : Follows r h) (f : Nat) (b : Bool) : 
    Follows (r.flag f b) (h.set f ((h.alive f).map (Life.flag b))) := by
  have hlast : (h.set f ((h.alive f).map (Life.flag b))).last =
      h.last := by
    funext c
    by_cases e : c = f
    · subst e
      rw [Past.last, Past.last, Past.set_self, Option.map_map]
      rfl
    · exact Past.last_of_ne e
  have halive : (r.flag f b).aliveMap = (h.set f ((h.alive f).map (Life.flag b))).statuses := by
    rw [flag_aliveMap, statuses_set, hf.alive, Past.statuses, Option.map_map, Option.map_map]
    rfl
  obtain ⟨m, k, he⟩ := flag_lists r f b
  rw [he] at halive ⊢
  refine ⟨halive, hf.ghost, ?_, ?_, hf.before_update le_rfl fun life e => ?_⟩
  · rw [hlast]
    exact hf.mru
  · rw [hlast]
    exact hf.mfu
  · obtain ⟨life', hlife, rfl⟩ := Option.map_eq_some_iff.mp e
    exact hf.before f life' hlife

/-- What a call that returns does is what the history says of it. -/
theorem step (hf : Follows r h) (hc : r.Counted) (he : Effect r c o r') : Follows r' (h.next c o) := by
  cases he with
  | @hit f p st hst =>
    obtain ⟨life, hlife, rfl⟩ := hf.alive_some hst
    have hnext : h.next (.recordAccess f p) none =
        { (h.set f none).set f (some (life.accessed h.calls)) with calls := h.calls + 1 } := by
      rw [Past.set_set, Past.next, Past.access, hlife]
    rw [hnext, ← Life.status_accessed]
    exact (hf.without hc f).withMfu (hc.without f) _ (Past.set_self ..) rfl
  | @revive f p t g l₁ l₂ hlt hdead hg hl =>
    have hghost : h.ghost p = true := by rw [hf.ghost, hg, Option.isSome_some]
    have hnext : h.next (.recordAccess f p) none =
        { (h.mark p false).set f (some ⟨p, true, 0, h.calls, false⟩) with calls := h.calls + 1 } := by
      rw [Past.next, Past.access, hf.alive_none.mp hdead, hghost]
    have hm : ∀ q, (h.mark p false).ghost q = (Function.update r.ghostMap p none q).isSome := by
      intro q
      by_cases e : q = p
      · subst e
        simp [Past.mark]
      · simp [Past.mark, e, hf.ghost]
    rw [hnext]
    exact (hf.withGhosts l₁ l₂ t hm).withMfu (hc.withGhosts l₁ l₂ t (update_none_sub p))
      ⟨p, true, 0, h.calls, false⟩ (hf.alive_none.mp hdead) rfl
  | @miss f p l₁ l₂ hlt hdead hg hl =>
    have hghost : h.ghost p = false := by rw [hf.ghost, hg, Option.isSome_none]
    have hnext : h.next (.recordAccess f p) none =
        { (h.mark p false).set f (some ⟨p, false, 0, h.calls, false⟩) with calls := h.calls + 1 } := by
      rw [Past.next, Past.access, hf.alive_none.mp hdead, hghost]
    have hm : ∀ q, (h.mark p false).ghost q = (r.ghostMap q).isSome := by
      intro q
      by_cases e : q = p
      · subst e
        simp [Past.mark, hg]
      · simp [Past.mark, e, hf.ghost]
    rw [hnext]
    exact (hf.withGhosts l₁ l₂ r.mruTargetSize hm).withMru (hc.withGhosts l₁ l₂ _ fun _ _ hq => hq)
      ⟨p, false, 0, h.calls, false⟩ (hf.alive_none.mp hdead) rfl
  | @flag f b => exact (hf.flag f b).later
  | @remove f hev => exact (hf.without hc f).later
  | kept => exact hf.later
  | @evicted f st b hst => exact ((hf.without hc f).withGhost _ b).later

end Follows

/-- Every run of the code follows its history. -/
theorem calls_follows {n : Nat} {ls : List (Call × Option (Nat × Nat))} (h : (calls n).Exec ls r) :
    Follows r (.replay ls) := by
  induction h with
  | nil h0 =>
    cases h0
    exact follows_create n
  | snoc he hs ih =>
    obtain ⟨hc, rfl⟩ := (calls_inductive n).exec he
    rw [Past.replay_snoc]
    exact ih.step hc (hc.effect hs.1 hs.2)

/-! ## The victim -/

/-- The alive list of a class. -/
def side (r : ArcReplacer) (recent : Bool) : List Nat := if recent then r.mru else r.mfu

/-- The ghosts of a class, the newest in front. -/
def ghosts (r : ArcReplacer) (recent : Bool) : List Nat := if recent then r.mruGhost else r.mfuGhost

/-- Which list an eviction takes from, and where the page goes. -/
theorem evict_picks (he : Ends evict r (some (p, f)) r') : ∃ b rest,
    r.IsVictim (r.side b).reverse f rest ∧ (∃ st, r.aliveMap f = some st ∧ st.pageId = p) ∧
    (b ≠ decide (r.mruTargetSize ≤ r.mruSize) → ∀ c ∈ r.side (!b), ¬ r.Evictable c) ∧
    r'.ghosts b = p :: r.ghosts b ∧ r'.ghosts (!b) = r.ghosts (!b) := by
  rw [evict, Ends.bind_iff] at he
  obtain ⟨o₁, r₁, h₁, he⟩ := he
  obtain ⟨rfl, rfl, -⟩ | ⟨f', rest, rfl, hv, rfl, hpref⟩ | ⟨f', rest, rfl, hv, rfl, hpref⟩ :=
    pickVictim_picks h₁
  · cases he
  all_goals
    obtain ⟨-, -, -, -, ⟨st, hst, -⟩, -⟩ := id hv
    replace he := Ends.rest (Ends.get _) he
    simp only [hst] at he
    cases he
  · refine ⟨true, rest, hv, ⟨st, hst, rfl⟩, fun hne => ?_, rfl, rfl⟩
    exact hpref.resolve_left fun hle => hne (decide_eq_true hle).symm
  · refine ⟨false, rest, hv, ⟨st, hst, rfl⟩, fun hne => ?_, rfl, rfl⟩
    exact hpref.resolve_left fun hle => hne (decide_eq_false hle).symm

namespace Follows

theorem mem_side (hf : Follows r h) (hc : r.Counted) (b : Bool) :
    f ∈ r.side b ↔ ∃ life, h.alive f = some life ∧ life.recent = b := by
  have hstatus : ∀ s, (∃ st, r.aliveMap f = some st ∧ st.arcStatus = s) ↔
      ∃ life, h.alive f = some life ∧ (if life.recent then ArcStatus.mru else .mfu) = s := by
    intro s
    constructor
    · rintro ⟨st, hst, hs⟩
      obtain ⟨life, hlife, rfl⟩ := hf.alive_some hst
      exact ⟨life, hlife, hs⟩
    · rintro ⟨life, hlife, hs⟩
      refine ⟨life.status f, ?_, hs⟩
      rw [hf.alive, Past.statuses, hlife]
      rfl
  cases b with
  | true =>
    refine (hc.lists.mem_fst f).trans ((hstatus _).trans (exists_congr fun life => ?_))
    refine and_congr_right fun _ => ?_
    cases life.recent <;> simp
  | false =>
    refine (hc.lists.mem_snd f).trans ((hstatus _).trans (exists_congr fun life => ?_))
    refine and_congr_right fun _ => ?_
    cases life.recent <;> simp

theorem evictable_iff (hf : Follows r h) :
    r.Evictable f ↔ ∃ life, h.alive f = some life ∧ life.evictable = true := by
  constructor
  · rintro ⟨st, hst, he⟩
    obtain ⟨life, hlife, rfl⟩ := hf.alive_some hst
    exact ⟨life, hlife, he⟩
  · rintro ⟨life, hlife, he⟩
    refine ⟨life.status f, ?_, he⟩
    rw [hf.alive, Past.statuses, hlife]
    rfl

/-- As many frames are recent as `mru` has. -/
theorem recents_card (hf : Follows r h) (hc : r.Counted) :
    (h.recents r.replacerSize).card = r.mruSize := by
  have heq : h.recents r.replacerSize = r.mru.toFinset := by
    ext f
    rw [Past.recents, Finset.mem_filter, Finset.mem_range, List.mem_toFinset, Option.any_eq_true]
    refine Iff.trans ?_ (hf.mem_side hc true).symm
    refine and_iff_right_of_imp fun hlife => ?_
    obtain ⟨life, hlife, -⟩ := hlife
    refine (hc.lists.alive f (life.status f) ?_).1
    rw [hf.alive, Past.statuses, hlife]
    rfl
  rw [heq, List.toFinset_card_of_nodup hc.lists.nodup_fst, hc.mruSize]

theorem newestFirst (hf : Follows r h) (b : Bool) : NewestFirst h.last (r.side b) := by
  cases b with
  | true => exact hf.mru
  | false => exact hf.mfu

theorem pinned (hf : Follows r h) (hc : r.Counted) {b : Bool}
    (hn : ∀ c ∈ r.side b, ¬ r.Evictable c) : h.Pinned b := by
  intro f life hlife hb
  rw [Bool.eq_false_iff]
  intro he
  exact hn f ((hf.mem_side hc b).mpr ⟨life, hlife, hb⟩) (hf.evictable_iff.mpr ⟨life, hlife, he⟩)

/-- The first frame from the back that can be evicted is the one whose last access is oldest. -/
theorem oldest (hf : Follows r h) (hc : r.Counted) {b : Bool} {rest : List Nat} {st : FrameStatus}
    (hv : r.IsVictim (r.side b).reverse f rest) (hst : r.aliveMap f = some st) :
    h.Oldest b st.pageId f := by
  obtain ⟨l₁, l₂, hl, -, hev, hskip⟩ := hv
  obtain ⟨life, hlife, rfl⟩ := hf.alive_some hst
  have hm : f ∈ r.side b := by
    rw [← List.mem_reverse, hl]
    simp
  obtain ⟨_, hlife', hb⟩ := (hf.mem_side hc b).mp hm
  cases hlife.symm.trans hlife'
  obtain ⟨_, hlife', he⟩ := hf.evictable_iff.mp hev
  cases hlife.symm.trans hlife'
  refine ⟨life, hlife, rfl, he, hb, fun f' life' hf' he' hb' hne => ?_⟩
  have hm' : f' ∈ r.side b := (hf.mem_side hc b).mpr ⟨life', hf', hb'⟩
  obtain hskipped | heq | hlt := (hf.newestFirst b).oldest hl hm'
  · exact absurd (hf.evictable_iff.mpr ⟨life', hf', he'⟩) (hskip f' hskipped)
  · exact absurd heq hne
  · rwa [Past.last_of hlife, Past.last_of hf'] at hlt

end Follows

/-- After every run an eviction returns. It takes, of the preferred class, the frame that can be
evicted whose last access is oldest in the history; of the other class only if the preferred one has
none; and its page becomes the newest ghost of its class. -/
theorem evict_chooses {n : Nat} {ls : List (Call × Option (Nat × Nat))} (h : (calls n).Exec ls r) :
    ∃ o r', Ends evict r o r' ∧ match o with
      | none => ∀ f life, (Past.replay ls).alive f = some life → life.evictable = false
      | some (p, f) => ∃ recent, (Past.replay ls).Oldest recent p f ∧
        (recent ≠ (Past.replay ls).prefersRecent n r.mruTargetSize →
          (Past.replay ls).Pinned (!recent)) ∧
        r'.ghosts recent = p :: r.ghosts recent ∧ r'.ghosts (!recent) = r.ghosts (!recent) := by
  have hf := calls_follows h
  obtain ⟨hc, rfl⟩ := (calls_inductive n).exec h
  obtain ⟨o, r', he⟩ := hc.lists.evict_returns
  refine ⟨o, r', he, ?_⟩
  rcases o with _ | ⟨p, f⟩
  · obtain ⟨-, -, hn, hn'⟩ | ⟨_, _, ho, -⟩ := evict_ends he
    · intro f life hlife
      cases hb : life.recent with
      | true => exact hf.pinned hc (b := true) hn f life hlife hb
      | false => exact hf.pinned hc (b := false) hn' f life hlife hb
    · cases ho
  · obtain ⟨b, rest, hv, ⟨st, hst, rfl⟩, hpref, hghosts, hothers⟩ := evict_picks he
    refine ⟨b, hf.oldest hc hv hst, fun hne => hf.pinned hc (hpref ?_), hghosts, hothers⟩
    rwa [Past.prefersRecent, hf.recents_card hc] at hne

/-- Three frames, of which the first cannot be evicted. -/
def pinnedFirst : List (Call × Option (Nat × Nat)) := [(.recordAccess 0 100, none),
  (.recordAccess 1 200, none), (.recordAccess 2 300, none), (.setEvictable 1 true, none),
  (.setEvictable 2 true, none)]

theorem evict_chooses_pinnedFirst : ∃ r r' recent, (calls 3).Exec pinnedFirst r ∧
    Ends evict r (some (200, 1)) r' ∧ (Past.replay pinnedFirst).Oldest recent 200 1 := by
  have h₀ : (calls 3).Exec [] (create 3) := .nil rfl
  have h₁ : (calls 3).Exec (pinnedFirst.take 1) _ := h₀.snoc ⟨(by decide : 0 < 3), rfl⟩
  have h₂ : (calls 3).Exec (pinnedFirst.take 2) _ := h₁.snoc ⟨(by decide : 1 < 3), rfl⟩
  have h₃ : (calls 3).Exec (pinnedFirst.take 3) _ := h₂.snoc ⟨(by decide : 2 < 3), rfl⟩
  have h₄ : (calls 3).Exec (pinnedFirst.take 4) _ := h₃.snoc ⟨(by decide : 1 < 3), rfl⟩
  have h₅ : (calls 3).Exec pinnedFirst _ := h₄.snoc ⟨(by decide : 2 < 3), rfl⟩
  obtain ⟨o, r', he, hchosen⟩ := evict_chooses h₅
  have hvictim : o = some (200, 1) := (he.unique rfl).1
  subst hvictim
  obtain ⟨recent, holdest, -⟩ := hchosen
  exact ⟨_, r', recent, h₅, he, holdest⟩

end

end DbInternals.Buffer.ArcReplacer
