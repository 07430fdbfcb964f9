import DbInternals.Buffer.PoolOps

/-!
# Flushes that fail

All flushes clear `is_dirty_` before the write is attempted, and none of them sets it again when the
future throws. So a page whose write failed counts as clean, an eviction drops its data, and the pins
that a flush of the pool took are not given back.

Results:
* `Flush.leaves`: the frames, after an exception has left a flush;
* `flush_forgets`: no flush that fails on a dirty page keeps it dirty.
-/
namespace DbInternals.Buffer

open Storage ArcReplacer

/-- The calls that flush. `ReadPageGuard::Flush` and `WritePageGuard::Flush` are the same. -/
inductive Flush where
  | guard (g : Guard)
  | page (pageId : Nat)
  | all (order : List (Σ _ : Nat, Nat))

def Flush.run : Flush → PoolM Unit
  | .guard g => g.flush
  | .page p => discard (flushPageUnsafe p)
  | .all order => flushAllPagesUnsafe order

/-- The entries whose frame is dirty, each frame once. -/
def dirtyEntries (dirty : Nat → Bool) : List (Σ _ : Nat, Nat) → List (Σ _ : Nat, Nat)
  | [] => []
  | e :: es =>
    if dirty e.2 then e :: dirtyEntries (Function.update dirty e.2 false) es
    else dirtyEntries dirty es

/-- The pages a flush has to write. -/
def Flush.requests (s : BufferPoolManager) : Flush → List (Σ _ : Nat, Nat)
  | .guard g => [⟨g.pageId, g.frameId⟩]
  | .page p => ((s.pageTable.lookup p).map fun f => ⟨p, f⟩).toList
  | .all order => dirtyEntries (fun f => (s.frames f).isDirty) order

/-- The requests that the disk fails, made one after the other. -/
def unwritten (data : Nat → Mem) : List (Σ _ : Nat, Nat) → DiskManager → List (Σ _ : Nat, Nat)
  | [], _ => []
  | r :: rs, d =>
    match writePage r.1 (data r.2) d with
    | .ok _ d' => unwritten data rs d'
    | .error _ d' => r :: unwritten data rs d'

/-- The requests of a flush that fail. -/
def Flush.unwritten (s : BufferPoolManager) (c : Flush) : List (Σ _ : Nat, Nat) :=
  Buffer.unwritten (fun f => (s.frames f).data) (c.requests s) s.disk

/-- The pages not written are as dirty as before, and nothing is pinned or made evictable. -/
structure KeepsDirty (s : BufferPoolManager) (c : Flush) (s' : BufferPoolManager) : Prop where
  dirty : ∀ r ∈ c.unwritten s, (s.frames r.2).isDirty = true → (s'.frames r.2).isDirty = true
  pins : ∀ f, (s'.frames f).pinCount = (s.frames f).pinCount
  evictable : ∀ f, s'.replacer.Evictable f ↔ s.replacer.Evictable f

/-- A guard has a pin already. -/
def Flush.pins : Flush → Bool
  | .guard _ => false
  | _ => true

/-- The frame while it is flushed. -/
def Flush.flushed (c : Flush) (h : FrameHeader) : FrameHeader :=
  if c.pins then h.clean.pinned else h.clean

section
variable {s s' s₁ : BufferPoolManager} {c : Flush} {f p : Nat} {e : Fault}

theorem mem_unwritten {data : Nat → Mem} {r : Σ _ : Nat, Nat} {rs : List (Σ _ : Nat, Nat)}
    {d : DiskManager} (h : r ∈ Buffer.unwritten data rs d) : r ∈ rs := by
  induction rs generalizing d with
  | nil => cases h
  | cons x rs ih =>
    rw [Buffer.unwritten] at h
    split at h
    · exact List.mem_cons_of_mem _ (ih h)
    · obtain rfl | h := List.mem_cons.mp h
      · exact List.mem_cons_self
      · exact List.mem_cons_of_mem _ (ih h)

/-! ## What the loops do -/

theorem dirty_of_mem {dirty : Nat → Bool} {es : List (Σ _ : Nat, Nat)} {r : Σ _ : Nat, Nat}
    (h : r ∈ dirtyEntries dirty es) : dirty r.2 = true := by
  induction es generalizing dirty with
  | nil => cases h
  | cons x es ih =>
    rw [dirtyEntries] at h
    split at h
    next hx =>
      obtain rfl | h := List.mem_cons.mp h
      · exact hx
      · have hr := ih h
        by_cases hne : r.2 = x.2
        · rw [hne, Function.update_self] at hr
          cases hr
        · rwa [Function.update_of_ne hne] at hr
    next => exact ih h

/-- A frame that is flushed is clean, pinned and not evictable. -/
theorem pinFlush_frames (h : Ends (pinFlush f) s () s') :
    s'.frames f = (s.frames f).clean.pinned ∧ (∀ c, c ≠ f → s'.frames c = s.frames c) ∧
      ∀ c, s'.replacer.Evictable c ↔ c ≠ f ∧ s.replacer.Evictable c := by
  obtain ⟨-, rfl⟩ := pinFlush_ends.mp h
  refine ⟨withFrame_self s f fun h => h.clean.pinned, fun c hc => ?_, fun c => ?_⟩
  · exact withFrame_of_ne s hc fun h => h.clean.pinned
  · refine (evictable_flag s.replacer f c false).trans ?_
    by_cases e : c = f <;> simp [e]

/-- The frames of the requests are clean, pinned and not evictable; the others are as before. -/
theorem pinDirty_frames {order requests : List (Σ _ : Nat, Nat)}
    (h : Ends (pinDirty order) s requests s') :
    requests = dirtyEntries (fun f => (s.frames f).isDirty) order ∧
      (∀ f ∈ requests.map Sigma.snd, s'.frames f = (s.frames f).clean.pinned) ∧
      (∀ f, f ∉ requests.map Sigma.snd → s'.frames f = s.frames f) ∧
      ∀ f, s'.replacer.Evictable f ↔ f ∉ requests.map Sigma.snd ∧ s.replacer.Evictable f := by
  induction order generalizing s requests with
  | nil =>
    cases h
    exact ⟨rfl, by simp, fun f _ => rfl, fun f => by simp⟩
  | cons e order ih =>
    rw [pinDirty] at h
    replace h := Ends.rest (Ends.get s) h
    rw [dirtyEntries]
    obtain ⟨hd, h⟩ | ⟨hd, h⟩ := Ends.ite h
    swap
    · rw [if_neg hd]
      exact ih h
    obtain ⟨_, s₁, h₁, h⟩ := Ends.bind_iff.mp h
    obtain ⟨rs, s₂, h₂, h⟩ := Ends.bind_iff.mp h
    cases h
    obtain ⟨hself, hother, hevict⟩ := pinFlush_frames h₁
    obtain ⟨hreq, hin, hout, hevict'⟩ := ih h₂
    have hdirty : (fun f => (s₁.frames f).isDirty) =
        Function.update (fun f => (s.frames f).isDirty) e.2 false := by
      funext f
      by_cases hf : f = e.2
      · subst hf
        rw [hself, Function.update_self]
        rfl
      · rw [hother f hf, Function.update_of_ne hf]
    -- the frame is clean when the loop goes on, so it is requested once
    have hnot : e.2 ∉ rs.map Sigma.snd := by
      intro hm
      obtain ⟨r, hr, heq⟩ := List.mem_map.mp hm
      rw [hreq, hdirty] at hr
      have hclean := dirty_of_mem hr
      rw [heq, Function.update_self] at hclean
      cases hclean
    rw [if_pos hd, ← hdirty, ← hreq]
    refine ⟨rfl, fun f hf => ?_, fun f hf => ?_, fun f => ?_⟩
    · obtain rfl | hf := List.mem_cons.mp hf
      · rw [hout _ hnot, hself]
      · rw [hin f hf, hother f fun heq => hnot (heq ▸ hf)]
    · obtain ⟨hne, hf⟩ := not_or.mp (List.mem_cons.not.mp hf)
      rw [hout f hf, hother f hne]
    · rw [hevict', hevict, List.map_cons, List.mem_cons]
      tauto

/-! ## Requests touch only the disk -/

section
variable {I : BufferPoolManager → Prop} (hI : ∀ s d, I s → I { s with disk := d })

include hI in
theorem onDisk_keeps {α : Type} (x : DiskM α) : Keeps I (onDisk x) := by
  intro s hs
  unfold onDisk zoom
  cases x s.disk with
  | ok a d => exact hI s d hs
  | error e d => exact hI s d hs

include hI in
theorem writeFrame_keeps (p f : Nat) : Keeps I (writeFrame p f) :=
  .bind .get fun _ => onDisk_keeps hI _

include hI in
theorem schedule_keeps {α : Type} (x : DiskM α) : Keeps I (schedule x) := by
  intro s hs
  unfold schedule
  cases x s.disk with
  | ok a d => exact hI s d hs
  | error e d => exact hI s d hs

include hI in
theorem scheduleAll_keeps (requests : List (Σ _ : Nat, Nat)) : Keeps I (scheduleAll requests) := by
  induction requests with
  | nil => exact .pure _
  | cons r requests ih =>
    exact .bind .get fun _ => .bind (schedule_keeps hI _) fun _ => .bind ih fun _ => .pure _

theorem get_keeps {α : Type} (future : Future α) : Keeps I future.get := by
  unfold Future.get
  split
  · exact .throw _
  · exact .throw _
  · exact .pure _

theorem getAll_keeps (futures : List (Future Unit)) : Keeps I (getAll futures) := by
  induction futures with
  | nil => exact .pure _
  | cons future futures ih => exact .bind (get_keeps future) fun _ => ih

include hI in
theorem writeAll_keeps (requests : List (Σ _ : Nat, Nat)) : Keeps I (writeAll requests) :=
  .bind (scheduleAll_keeps hI requests) getAll_keeps

end

theorem unpinAll_fatal (requests : List (Σ _ : Nat, Nat)) : ThrowsOnly Fatal (unpinAll requests) := by
  induction requests with
  | nil => exact .pure _
  | cons r requests ih => exact .bind (unpin_fatal r.2) fun _ => ih

theorem pinDirty_fatal (order : List (Σ _ : Nat, Nat)) : ThrowsOnly Fatal (pinDirty order) := by
  induction order with
  | nil => exact .pure _
  | cons r order ih =>
    exact .bind .get fun _ => .ite (.bind (pinFlush_fatal _) fun _ => .bind ih fun _ => .pure _) ih

/-! ## What a failed flush leaves -/

/-- The frames are those the flush made clean and pinned; nothing is undone. -/
theorem Flush.leaves (h : Throws c.run s e s') (he : e.isException = true) :
    (∀ r ∈ c.requests s, s'.frames r.2 = c.flushed (s.frames r.2)) ∧
    (∀ f, f ∉ (c.requests s).map Sigma.snd → s'.frames f = s.frames f) ∧
    (c.pins = true → ∀ r ∈ c.requests s, ¬ s'.replacer.Evictable r.2) := by
  have hwrite : ∀ {α : Type} {x : PoolM α} {s₁ : BufferPoolManager},
      (∀ {I : BufferPoolManager → Prop}, (∀ s d, I s → I { s with disk := d }) → Keeps I x) →
      Throws x s₁ e s' → s'.frames = s₁.frames ∧ s'.replacer = s₁.replacer := by
    intro α x s₁ hkeeps ht
    have hI : Keeps (fun b => b.frames = s₁.frames ∧ b.replacer = s₁.replacer) x :=
      hkeeps fun _ _ hs => hs
    exact hI.throws ⟨rfl, rfl⟩ ht
  cases c with
  | guard g =>
    replace h := Throws.rest (Ends.modify _ s) h
    obtain ⟨hframes, -⟩ := hwrite (fun hI => writeFrame_keeps hI _ _) h
    refine ⟨fun r hr => ?_, fun f hf => ?_, nofun⟩
    · rw [List.mem_singleton.mp hr, hframes]
      exact withFrame_self s g.frameId .clean
    · rw [hframes]
      exact withFrame_of_ne s (fun heq => hf (by simp [Flush.requests, heq])) .clean
  | page p =>
    obtain h | ⟨_, _, -, h⟩ := Throws.bind_iff.mp h
    swap
    · cases h
    replace h := Throws.rest (Ends.get s) h
    cases hp : s.pageTable.lookup p with
    | none =>
      simp only [hp] at h
      cases h
    | some f =>
      simp only [hp] at h
      have hreq : (Flush.page p).requests s = [⟨p, f⟩] := by rw [Flush.requests, hp]; rfl
      rw [hreq]
      obtain h | ⟨_, s₁, h₁, h⟩ := Throws.bind_iff.mp h
      · exact (not_exception (pinFlush_fatal f) h he).elim
      obtain ⟨hself, hother, hevict⟩ := pinFlush_frames h₁
      obtain h | ⟨_, s₂, -, h⟩ := Throws.bind_iff.mp h
      · obtain ⟨hframes, hreplacer⟩ := hwrite (fun hI => writeFrame_keeps hI _ _) h
        rw [hframes, hreplacer]
        refine ⟨fun r hr => ?_, fun c hc => hother c (by simpa using hc), fun _ r hr => ?_⟩
        · rw [List.mem_singleton.mp hr]
          exact hself
        · rw [List.mem_singleton.mp hr, hevict]
          exact fun hn => hn.1 rfl
      obtain h | ⟨_, s₃, -, h⟩ := Throws.bind_iff.mp h
      · exact (not_exception (unpin_fatal f) h he).elim
      · cases h
  | all order =>
    obtain h | ⟨requests, s₁, h₁, h⟩ := Throws.bind_iff.mp h
    · exact (not_exception (pinDirty_fatal order) h he).elim
    obtain ⟨rfl, hin, hout, hevict⟩ := pinDirty_frames h₁
    obtain h | ⟨_, s₂, -, h⟩ := Throws.bind_iff.mp h
    · obtain ⟨hframes, hreplacer⟩ := hwrite (fun hI => writeAll_keeps hI _) h
      rw [hframes, hreplacer]
      refine ⟨fun r hr => hin r.2 (List.mem_map_of_mem hr), hout, fun _ r hr => ?_⟩
      rw [hevict]
      exact fun hn => hn.1 (List.mem_map_of_mem hr)
    · exact (not_exception (unpinAll_fatal _) h he).elim

/-- One frame; the disk fails after one more system call. -/
def oneCallLeft : BufferPoolManager := .create 1 { threePages with io := some 1 }

/-- Page 1 is fetched, and written through its guard. -/
def fetchAndWrite : PoolM Unit := do
  let _ ← checkedWritePage 1
  Guard.getDataMut ⟨1, 0, true⟩ fun _ => 7

/-- The read was the last call that succeeded; each of the flushes fails. -/
theorem flushes_fail : ∀ c ∈ [Flush.guard ⟨1, 0, true⟩, .page 1, .all [⟨1, 0⟩]], ∃ s e s',
    Ends fetchAndWrite oneCallLeft () s ∧ Throws c.run s e s' ∧ e.isException = true ∧
    (∃ r ∈ c.unwritten s, (s.frames r.2).isDirty = true) ∧ ¬ KeepsDirty s c s' := by
  intro c hc
  simp only [List.mem_cons, List.not_mem_nil, or_false] at hc
  obtain rfl | rfl | rfl := hc
  all_goals
    refine ⟨_, _, _, rfl, rfl, rfl, ⟨⟨1, 0⟩, .head _, rfl⟩, fun hk => ?_⟩
    cases hk.dirty ⟨1, 0⟩ (.head _) rfl

/-- Not every flush that fails keeps the pages dirty it did not write. -/
theorem flush_not_kept : ¬ ∀ (c : Flush) (s : BufferPoolManager) (e : Fault) (s' : BufferPoolManager),
    Throws c.run s e s' → e.isException = true →
    (∃ r ∈ c.unwritten s, (s.frames r.2).isDirty = true) → KeepsDirty s c s' := by
  intro h
  obtain ⟨s, e, s', -, ht, he, hd, hn⟩ := flushes_fail (.page 1) (by simp)
  exact hn (h (.page 1) s e s' ht he hd)

/-- A flush that fails on a dirty page does not keep the page dirty. -/
theorem flush_forgets (h : Throws c.run s e s') (he : e.isException = true)
    (hd : ∃ r ∈ c.unwritten s, (s.frames r.2).isDirty = true) : ¬ KeepsDirty s c s' := by
  intro hk
  obtain ⟨r, hr, hdirty⟩ := hd
  have hkept := hk.dirty r hr hdirty
  rw [(Flush.leaves h he).1 r (mem_unwritten hr), Flush.flushed] at hkept
  cases hp : c.pins with
  | true =>
    rw [hp] at hkept
    cases hkept
  | false =>
    rw [hp] at hkept
    cases hkept

theorem flush_forgets_fetched : ∃ s s', ¬ KeepsDirty s (.all [⟨1, 0⟩]) s' := by
  obtain ⟨s, e, s', -, ht, he, hd, -⟩ := flushes_fail (.all [⟨1, 0⟩]) (by simp)
  exact ⟨s, s', flush_forgets ht he hd⟩

end

end DbInternals.Buffer
