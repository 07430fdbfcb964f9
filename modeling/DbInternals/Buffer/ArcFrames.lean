import DbInternals.Buffer.ArcCalls
import Mathlib.Data.Set.Card

/-!
# What a replacer keeps track of

Seen from outside, a replacer is a map from frames to the page each was
recorded for and whether it may be evicted (`Tracked`). `calls_simulates` says
that the lists, maps and counters of the code implement that map.

Results:
* `calls_simulates`: every call does to the tracked frames what it should, and
  only an evictable frame is evicted or removed;
* `alive_side`: in every run the alive lists, their counters and the size are
  those of the tracked frames, and an eviction finds a frame if there is one.
-/
namespace DbInternals.Buffer.ArcReplacer

/-- The page a frame was recorded for, and whether the frame may be evicted. -/
abbrev Tracked := Nat → Option (Nat × Bool)

namespace Tracked

/-- What a call that hands out `o` does. -/
def after (t : Tracked) : Call → Option (Nat × Nat) → Tracked
  | .recordAccess f p, _ => Function.update t f (some ((t f).getD (p, false)))
  | .setEvictable f b, _ => Function.update t f ((t f).map fun x => (x.1, b))
  | .remove f, _ => Function.update t f none
  | .evict, some (_, f) => Function.update t f none
  | .evict, none => t

/-- What may be handed out: only an evictable frame, with its page, and some if there is one. -/
def Allows (t : Tracked) : Call → Option (Nat × Nat) → Prop
  | .recordAccess _ _, o => o = none
  | .setEvictable _ _, o => o = none
  | .remove f, o => o = none ∧ ∀ p, t f ≠ some (p, false)
  | .evict, some (p, f) => t f = some (p, true)
  | .evict, none => ∀ f p, t f ≠ some (p, true)

/-- What the calls leave. -/
def run (ls : List (Call × Option (Nat × Nat))) : Tracked :=
  ls.foldl (fun t l => t.after l.1 l.2) fun _ => none

end Tracked

/-- The tracked frames, call by call. -/
def frames : LTS Tracked (Call × Option (Nat × Nat)) where
  init t := t = fun _ => none
  step t l t' := t.Allows l.1 l.2 ∧ t' = t.after l.1 l.2

theorem frames_run {ls : List (Call × Option (Nat × Nat))} {t : Tracked} (h : frames.Exec ls t) :
    t = Tracked.run ls := by
  induction h with
  | nil h => exact h
  | snoc _ hs ih => rw [hs.2, ih, Tracked.run, Tracked.run, List.foldl_append]; rfl

/-- The frames a replacer tracks. -/
def tracked (r : ArcReplacer) : Tracked := fun f =>
  (r.aliveMap f).map fun st => (st.pageId, st.evictable)

section
variable {r r' : ArcReplacer} {c : Call} {o : Option (Nat × Nat)} {n f p : Nat}

theorem tracked_eq_some {b : Bool} : r.tracked f = some (p, b) ↔
    ∃ st, r.aliveMap f = some st ∧ st.pageId = p ∧ st.evictable = b := by
  simp [tracked, Option.map_eq_some_iff]

theorem tracked_update {x : Option FrameStatus}
    (h : r'.aliveMap = Function.update r.aliveMap f x) :
    r'.tracked = Function.update r.tracked f (x.map fun st => (st.pageId, st.evictable)) := by
  funext c
  rw [tracked, h]
  by_cases e : c = f
  · subst e
    simp
  · simp [e, tracked]

theorem tracked_without (r : ArcReplacer) (f : Nat) :
    (r.without f).tracked = Function.update r.tracked f none := by
  have hm : (r.without f).aliveMap = Function.update r.aliveMap f none := rfl
  exact tracked_update hm

theorem Effect.tracked (h : r.Counted) (he : Effect r c o r') :
    r.tracked.Allows c o ∧ r'.tracked = r.tracked.after c o := by
  cases he with
  | @hit f p st hst =>
    obtain ⟨-, hid⟩ := h.lists.alive f st hst
    refine ⟨rfl, ?_⟩
    have ht : r.tracked f = some (st.pageId, st.evictable) := by rw [ArcReplacer.tracked, hst]; rfl
    have hm : ((r.without f).withMfu { st with arcStatus := .mfu }).aliveMap =
        Function.update r.aliveMap f (some { st with arcStatus := .mfu }) := by
      simp [withMfu, ArcReplacer.without, hid]
    rw [tracked_update hm, Tracked.after, ht]
    rfl
  | @revive f p t g l₁ l₂ hlt hf hg hl =>
    have ht : r.tracked f = none := by rw [ArcReplacer.tracked, hf]; rfl
    have hm : ((r.withGhosts l₁ l₂ (Function.update r.ghostMap p none) t).withMfu
        ⟨p, f, false, .mfu⟩).aliveMap = Function.update r.aliveMap f _ := rfl
    refine ⟨rfl, ?_⟩
    rw [tracked_update hm, Tracked.after, ht]
    rfl
  | @miss f p l₁ l₂ hlt hf hg hl =>
    have ht : r.tracked f = none := by rw [ArcReplacer.tracked, hf]; rfl
    have hm : ((r.withGhosts l₁ l₂ r.ghostMap r.mruTargetSize).withMru
        ⟨p, f, false, .mru⟩).aliveMap = Function.update r.aliveMap f _ := rfl
    refine ⟨rfl, ?_⟩
    rw [tracked_update hm, Tracked.after, ht]
    rfl
  | @flag f b =>
    refine ⟨rfl, ?_⟩
    rw [tracked_update (flag_aliveMap r f b), Tracked.after, ArcReplacer.tracked, Option.map_map,
      Option.map_map]
    rfl
  | @remove f hev =>
    refine ⟨⟨rfl, fun p hp => ?_⟩, tracked_without r f⟩
    obtain ⟨st, hst, -, hb⟩ := tracked_eq_some.mp hp
    rw [hev st hst] at hb
    cases hb
  | kept h0 =>
    refine ⟨fun f p hp => ?_, rfl⟩
    obtain ⟨st, hst, -, hb⟩ := tracked_eq_some.mp hp
    exact h.currSize_eq_zero.mp h0 f ⟨st, hst, hb⟩
  | @evicted f st b hst hev hb =>
    refine ⟨tracked_eq_some.mpr ⟨st, hst, rfl, hev⟩, ?_⟩
    refine Eq.trans ?_ (tracked_without r f)
    cases b <;> rfl

/-- The code implements the map of tracked frames. -/
theorem calls_simulates (n : Nat) : (calls n).Simulates frames fun r t =>
    (r.Counted ∧ r.replacerSize = n) ∧ t = r.tracked where
  init r h := ⟨_, rfl, (calls_inductive n).init r h, by rw [h]; rfl⟩
  step r l r' t h hs := by
    obtain ⟨⟨h, rfl⟩, rfl⟩ := h
    have he := h.effect hs.1 hs.2
    obtain ⟨hallows, hafter⟩ := he.tracked h
    exact ⟨_, ⟨hallows, rfl⟩, ⟨he.counted h, he.replacerSize⟩, hafter.symm⟩

theorem Counted.size_eq (h : r.Counted) : r.size = {f | r.Evictable f}.ncard := by
  have hset : {f | r.Evictable f} = ↑(evictables r.replacerSize r.aliveMap) := by
    ext f
    rw [Finset.mem_coe, mem_evictables]
    refine ⟨fun hv => ⟨?_, hv⟩, And.right⟩
    obtain ⟨st, hst, -⟩ := hv
    exact (h.lists.alive f st hst).1
  rw [hset, Set.ncard_coe_finset]
  exact h.currSize

/-- The alive lists hold each alive frame once, in the list its status names;
the counters are the lengths of the lists and the size is the number of alive
frames that may be evicted; an eviction finds a frame exactly if there is one,
and then one of these, with the page it was recorded for. -/
theorem alive_side {ls : List (Call × Option (Nat × Nat))} (h : (calls n).Exec ls r) :
    (r.mru.Nodup ∧ r.mfu.Nodup ∧ ∀ f ∈ r.mru, f ∉ r.mfu) ∧
    r.tracked = Tracked.run ls ∧
    (∀ f, r.aliveMap f ≠ none ↔ f ∈ r.mru ∨ f ∈ r.mfu) ∧
    (∀ f st, r.aliveMap f = some st → (f ∈ r.mru ↔ st.arcStatus = .mru) ∧
      (f ∈ r.mfu ↔ st.arcStatus = .mfu)) ∧
    (r.mruSize = r.mru.length ∧ r.mfuSize = r.mfu.length ∧
      r.mruGhostSize = r.mruGhost.length ∧ r.mfuGhostSize = r.mfuGhost.length) ∧
    r.size = {f | r.Evictable f}.ncard ∧
    ∃ o r', Ends evict r o r' ∧ (o = none ↔ r.size = 0) ∧
      ∀ p f, o = some (p, f) → r.Evictable f ∧ Tracked.run ls f = some (p, true) := by
  obtain ⟨t, ht, ⟨hc, hn⟩, rfl⟩ := (calls_simulates n).exec h
  refine ⟨⟨hc.lists.nodup_fst, hc.lists.nodup_snd, fun f => hc.lists.disjoint⟩,
    frames_run ht, fun f => hc.lists.mem, fun f st hst => ⟨?_, ?_⟩,
    ⟨hc.mruSize, hc.mfuSize, hc.mruGhostSize, hc.mfuGhostSize⟩, hc.size_eq, ?_⟩
  · rw [hc.lists.mem_fst]
    simp [hst]
  · rw [hc.lists.mem_snd]
    simp [hst]
  · obtain ⟨o, r', he⟩ := hc.lists.evict_returns
    refine ⟨o, r', he, ?_⟩
    obtain ⟨rfl, -, h0⟩ | ⟨f, st, b, rfl, hst, hev, -⟩ := hc.evict_eq he
    · exact ⟨iff_of_true rfl h0, by simp⟩
    · have hv : r.Evictable f := ⟨st, hst, hev⟩
      refine ⟨iff_of_false (by simp) fun h0 => hc.currSize_eq_zero.mp h0 f hv, ?_⟩
      intro p f' ho
      cases ho
      rw [← frames_run ht]
      exact ⟨hv, tracked_eq_some.mpr ⟨st, hst, rfl, hev⟩⟩

/-- A frame recorded for page 7 that may be evicted. -/
theorem alive_side_recorded : ∃ r r', (calls 1).Exec
    [(.recordAccess 0 7, none), (.setEvictable 0 true, none)] r ∧ r.tracked 0 = some (7, true) ∧
      Ends evict r (some (7, 0)) r' := by
  have h₀ : (calls 1).Exec [] (create 1) := .nil rfl
  have h₁ : (calls 1).Exec [(.recordAccess 0 7, none)] _ := h₀.snoc ⟨Nat.one_pos, rfl⟩
  have h₂ : (calls 1).Exec [(.recordAccess 0 7, none), (.setEvictable 0 true, none)] _ :=
    h₁.snoc ⟨Nat.one_pos, rfl⟩
  obtain ⟨-, htracked, -, -, -, -, o, r', he, hn, hev⟩ := alive_side h₂
  refine ⟨_, r', h₂, by rw [htracked]; rfl, ?_⟩
  -- the only frame is the one it finds
  cases o with
  | none => exact absurd (hn.mp rfl) (by decide)
  | some victim =>
    obtain ⟨p, f⟩ := victim
    obtain ⟨-, hf⟩ := hev p f rfl
    by_cases h0 : f = 0
    · subst h0
      obtain rfl : 7 = p := congrArg Prod.fst (Option.some.inj hf)
      exact he
    · simp [Tracked.run, Tracked.after, h0] at hf

end

end DbInternals.Buffer.ArcReplacer
