import DbInternals.Buffer.PoolOps

/-!
# Failed fetches and the frames of the pool

Every frame is free or holds a page (`Whole`). A fetch takes its frame from
its old place before it reads the page and publishes it after; a read that
fails leaves the frame in neither place for good. A failed flush does not: the
frame is still in the page table then.

Results:
* `Placed.step`: every call keeps the frames in place, unless its read fails;
* `frames_whole_iff`: the frames are in place along a run exactly if no fetch
  of the run fails in its read.
-/
namespace DbInternals.Buffer

open Storage ArcReplacer

/-- Every frame is in one place, and a fetch that takes a free frame finds one. -/
structure Whole (s : BufferPoolManager) : Prop where
  place : ∀ f < s.numFrames,
    (f ∈ s.freeFrames ∧ ∀ p, s.pageTable.lookup p ≠ some f) ∨
    f ∉ s.freeFrames ∧ ∃! p, s.pageTable.lookup p = some f
  nodup : s.freeFrames.Nodup
  count : s.freeFrames.length + s.pageTable.entries.length = s.numFrames
  front : ∀ p, s.pageTable.lookup p = none → s.numFrames ≠ s.pageTable.entries.length →
    s.freeFrames ≠ []

/-- Every frame is free, in the page table or in flight. -/
structure Placed (flight : Set Nat) (s : BufferPoolManager) : Prop extends Shape flight s where
  cover : ∀ f < s.numFrames, f ∈ s.freeFrames ∨ (∃ p, s.pageTable.lookup p = some f) ∨ f ∈ flight
  free_lt : ∀ f ∈ s.freeFrames, f < s.numFrames
  mapped_lt : ∀ p f, s.pageTable.lookup p = some f → f < s.numFrames

section
variable {s s' : BufferPoolManager} {f p : Nat} {flight : Set Nat} {e : Fault}

theorem Placed.create {n : Nat} {d : DiskManager} (hn : n ≤ 2 ^ 32) :
    Placed ∅ (.create n d) where
  toShape := .create hn
  cover f hf := by
    refine .inl (List.mem_map.mpr ⟨f, List.mem_range.mpr hf, ?_⟩)
    exact Nat.mod_eq_of_lt (lt_of_lt_of_le hf hn)
  free_lt f hf := by
    obtain ⟨i, hi, rfl⟩ := List.mem_map.mp hf
    exact lt_of_le_of_lt (Nat.mod_le _ _) (List.mem_range.mp hi)
  mapped_lt p f hp := by cases hp

/-- The frames in the page table, in the order of its entries. -/
theorem mapped_frames (h : Shape flight s) : (s.pageTable.entries.map Sigma.snd).Nodup := by
  refine List.Nodup.map_on (fun x hx y hy e => ?_) s.pageTable.nodupKeys.nodup
  have hx := AList.mem_lookup_iff.mpr hx
  have hy := AList.mem_lookup_iff.mpr hy
  obtain ⟨p, f⟩ := x
  obtain ⟨q, g⟩ := y
  cases e
  cases h.inj p q f hx hy
  rfl

theorem mem_mapped : f ∈ s.pageTable.entries.map Sigma.snd ↔ ∃ p, s.pageTable.lookup p = some f := by
  rw [List.mem_map]
  constructor
  · intro h
    obtain ⟨⟨p, c⟩, hm, rfl⟩ := h
    exact ⟨p, AList.mem_lookup_iff.mpr hm⟩
  · intro h
    obtain ⟨p, hp⟩ := h
    exact ⟨⟨p, f⟩, AList.mem_lookup_iff.mp hp, rfl⟩

theorem Placed.whole (h : Placed ∅ s) : Whole s := by
  have hcount : s.freeFrames.length + s.pageTable.entries.length = s.numFrames := by
    have hnodup : (s.freeFrames ++ s.pageTable.entries.map Sigma.snd).Nodup := by
      refine List.nodup_append'.mpr ⟨h.free_nodup, mapped_frames h.toShape, fun f hf hm => ?_⟩
      obtain ⟨p, hp⟩ := mem_mapped.mp hm
      exact h.free_apart f hf p hp
    have hperm : (s.freeFrames ++ s.pageTable.entries.map Sigma.snd).Perm
        (List.range s.numFrames) := by
      refine (List.perm_ext_iff_of_nodup hnodup List.nodup_range).mpr fun f => ?_
      rw [List.mem_append, mem_mapped, List.mem_range]
      constructor
      · intro hf
        obtain hf | ⟨p, hp⟩ := hf
        · exact h.free_lt f hf
        · exact h.mapped_lt p f hp
      · intro hf
        obtain hf | hf | hf := h.cover f hf
        · exact .inl hf
        · exact .inr hf
        · exact hf.elim
    have hlen := hperm.length_eq
    rwa [List.length_append, List.length_map, List.length_range] at hlen
  refine ⟨fun f hf => ?_, h.free_nodup, hcount, fun p _ hn e => ?_⟩
  · obtain hf | ⟨p, hp⟩ | hf := h.cover f hf
    · exact .inl ⟨hf, h.free_apart f hf⟩
    · refine .inr ⟨fun hm => h.free_apart f hm p hp, p, hp, fun q hq => h.inj q p f hq hp⟩
    · exact hf.elim
  · rw [e, List.length_nil, Nat.zero_add] at hcount
    exact hn hcount.symm

/-- A frame in flight is lost. -/
theorem Placed.not_whole (h : Placed {f} s) (hf : f < s.numFrames) : ¬ Whole s := by
  intro hw
  obtain ⟨hfree, hmap⟩ := h.flight_apart f rfl
  obtain hf | ⟨-, p, hp, -⟩ := hw.place f hf
  · exact hfree hf.1
  · exact hmap p hp

/-! ## The blocks -/

theorem Placed.tables (h : Placed flight s) (hs : Shape flight s')
    (hn : s'.numFrames = s.numFrames) (ht : s'.pageTable = s.pageTable)
    (hf : s'.freeFrames = s.freeFrames) : Placed flight s' where
  toShape := hs
  cover := by rw [hn, ht, hf]; exact h.cover
  free_lt := by rw [hn, hf]; exact h.free_lt
  mapped_lt := by rw [hn, ht]; exact h.mapped_lt

theorem Placed.same (h : Placed flight s) (hs : SameShape s s') : Placed flight s' :=
  h.tables (h.toShape.same hs) hs.numFrames hs.pageTable hs.freeFrames

theorem Placed.takeFree (h : Placed ∅ s) (ht : Ends takeFree s f s') :
    Placed {f} s' ∧ f < s'.numFrames := by
  have hs := h.toShape.takeFree ht
  obtain ⟨fs, hfs, rfl⟩ := takeFree_ends ht
  have hlt : f < s.numFrames := h.free_lt f (by rw [hfs]; exact List.mem_cons_self)
  refine ⟨⟨by simpa using hs, fun c hc => ?_, fun c hc => ?_, h.mapped_lt⟩, hlt⟩
  · obtain hm | hm | hm := h.cover c hc
    · rw [hfs] at hm
      obtain rfl | hm := List.mem_cons.mp hm
      · exact .inr (.inr rfl)
      · exact .inl hm
    · exact .inr (.inl hm)
    · exact hm.elim
  · refine h.free_lt c ?_
    rw [hfs]
    exact List.mem_cons_of_mem _ hc

theorem Placed.evictFrame (h : Placed ∅ s) (he : Ends evictFrame s (some f) s') :
    Placed {f} s' ∧ f < s'.numFrames := by
  obtain ⟨h0, -⟩ | ⟨c, q, hc, hq, hs, hn, hfree, htab⟩ := h.toShape.evictFrame he
  · cases h0
  cases hc
  have hlt := h.mapped_lt q f hq
  refine ⟨⟨by simpa using hs, fun c hc => ?_, ?_, fun p c hp => ?_⟩, by rwa [hn]⟩
  · rw [hn] at hc
    rw [hfree, htab]
    obtain hm | ⟨p, hp⟩ | hm := h.cover c hc
    · exact .inl hm
    · by_cases e : p = q
      · subst e
        cases hp.symm.trans hq
        exact .inr (.inr rfl)
      · exact .inr (.inl ⟨p, by rwa [AList.lookup_erase_ne e]⟩)
    · exact hm.elim
  · rw [hfree, hn]
    exact h.free_lt
  · rw [htab] at hp
    by_cases e : p = q
    · subst e
      rw [AList.lookup_erase] at hp
      cases hp
    · rw [AList.lookup_erase_ne e] at hp
      rw [hn]
      exact h.mapped_lt p c hp

theorem recordLoad_ends (h : Ends (recordLoad f p) s () s') : ∃ r, s' = { s with replacer := r } := by
  obtain ⟨_, s₁, h₁, h₂⟩ := Ends.bind_iff.mp h
  obtain ⟨r, -, rfl⟩ := onReplacer_ends.mp h₁
  obtain ⟨-, rfl⟩ := setEvictable_pool.mp h₂
  exact ⟨_, rfl⟩

theorem recordHit_ends (h : Ends (recordHit f p) s () s') : s'.numFrames = s.numFrames ∧
    s'.pageTable = s.pageTable ∧ s'.freeFrames = s.freeFrames := by
  obtain ⟨_, s₁, h₁, h₂⟩ := Ends.bind_iff.mp h
  obtain ⟨r, -, rfl⟩ := onReplacer_ends.mp h₁
  have hs := SameShape.pinHit h₂
  exact ⟨hs.numFrames, hs.pageTable, hs.freeFrames⟩

/-- The frame of a load that returns is in the page table. -/
theorem Placed.load (h : Placed {f} s) (hf : f < s.numFrames) (hp : s.pageTable.lookup p = none)
    (he : Ends (load p f) s () s') : Placed ∅ s' := by
  obtain ⟨_, s₁, h₁, he⟩ := Ends.bind_iff.mp he
  obtain ⟨_, s₂, h₂, h₃⟩ := Ends.bind_iff.mp he
  have hsame := SameShape.readInto h₁
  have hs₁ := h.same hsame
  have hp₁ : s₁.pageTable.lookup p = none := by rw [hsame.pageTable, hp]
  have hs₂ := (hs₁.toShape.publish rfl hp₁ h₂).mono (Set.empty_subset _)
  cases h₂
  have hplaced : Placed ∅ { s₁ with pageTable := s₁.pageTable.insert p f } := by
    refine ⟨hs₂, fun c hc => ?_, hs₁.free_lt, fun q c hq => ?_⟩
    · obtain hm | ⟨q, hq⟩ | hm := hs₁.cover c hc
      · exact .inl hm
      · have hne : q ≠ p := by
          intro e
          subst e
          rw [hp₁] at hq
          cases hq
        exact .inr (.inl ⟨q, (AList.lookup_insert_ne hne).trans hq⟩)
      · cases hm
        exact .inr (.inl ⟨p, AList.lookup_insert _⟩)
    · by_cases e : q = p
      · subst e
        cases (AList.lookup_insert _).symm.trans hq
        change f < s₁.numFrames
        rw [hsame.numFrames]
        exact hf
      · exact hs₁.mapped_lt q c ((AList.lookup_insert_ne e).symm.trans hq)
  have hs₃ := hs₂.recordLoad (AList.lookup_insert _) h₃
  obtain ⟨r, rfl⟩ := recordLoad_ends h₃
  exact hplaced.tables hs₃ rfl rfl rfl

theorem Placed.freeFrame (h : Placed ∅ s) (hp : s.pageTable.lookup p = some f)
    (he : Ends (freeFrame p f) s () s') : Placed ∅ s' := by
  obtain ⟨r, hr, rfl⟩ := freeFrame_ends he
  have hlook : ∀ q c, (s.pageTable.erase p).lookup q = some c →
      q ≠ p ∧ s.pageTable.lookup q = some c := by
    intro q c hq
    have hne : q ≠ p := by
      intro e
      rw [e, AList.lookup_erase] at hq
      cases hq
    exact ⟨hne, by rwa [AList.lookup_erase_ne hne] at hq⟩
  have hown := remove_owner hr
  obtain ⟨-, -, hg⟩ := remove_maps hr
  refine ⟨⟨fun q g hq => h.ghosts q g (hg ▸ hq), fun c q hc => ?_, fun q q' c hq hq' => ?_, ?_,
    fun c hc q hq => ?_, nofun⟩, fun c hc => ?_, fun c hc => ?_, fun q c hq => ?_⟩
  · change r.owner c = some q at hc
    rw [hown] at hc
    have hcf : c ≠ f := by
      intro e
      rw [e, Function.update_self] at hc
      cases hc
    rw [Function.update_of_ne hcf] at hc
    have hq := h.owner c q hc
    have hne : q ≠ p := by
      intro e
      rw [e, hp] at hq
      exact hcf (Option.some.inj hq).symm
    exact (AList.lookup_erase_ne hne).trans hq
  · exact h.inj q q' c (hlook q c hq).2 (hlook q' c hq').2
  · refine List.nodup_append'.mpr ⟨h.free_nodup, List.nodup_singleton f, fun c hc hm => ?_⟩
    rw [List.mem_singleton] at hm
    exact h.free_apart c hc p (hm ▸ hp)
  · obtain ⟨hne, hq⟩ := hlook q c hq
    obtain hc | hc := List.mem_append.mp hc
    · exact h.free_apart c hc q hq
    · rw [List.mem_singleton] at hc
      exact hne (h.inj q p c hq (hc ▸ hp))
  · obtain hm | ⟨q, hq⟩ | hm := h.cover c hc
    · exact .inl (List.mem_append_left _ hm)
    · by_cases e : q = p
      · subst e
        cases hq.symm.trans hp
        exact .inl (List.mem_append_right _ (List.mem_singleton.mpr rfl))
      · exact .inr (.inl ⟨q, (AList.lookup_erase_ne e).trans hq⟩)
    · exact hm.elim
  · obtain hc | hc := List.mem_append.mp hc
    · exact h.free_lt c hc
    · rw [List.mem_singleton] at hc
      exact hc ▸ h.mapped_lt p f hp
  · exact h.mapped_lt q c (hlook q c hq).2

/-- A page gives up its frame in the replacer and keeps it in the page table. -/
theorem Placed.evicted (h : Placed flight s) {q : Nat} {r : ArcReplacer}
    (hr : Ends ArcReplacer.evict s.replacer (some (q, f)) r) :
    Placed flight { s with replacer := r } := by
  obtain ⟨h0, -⟩ | ⟨c, st, ho, -, -, hev⟩ := evict_ends hr
  · cases h0
  cases ho
  refine h.tables ⟨hev.ghostsFiled h.ghosts, fun c p hc => ?_, h.inj, h.free_nodup, h.free_apart,
    h.flight_apart⟩ rfl rfl rfl
  change r.owner c = some p at hc
  rw [hev.owner] at hc
  by_cases e : c = f
  · rw [e, Function.update_self] at hc
    cases hc
  · rw [Function.update_of_ne e] at hc
    exact h.owner c p hc

/-! ## The calls -/

theorem Placed.fetched (h : Placed ∅ s) {o : Option Nat} (hf : Fetched s p o s') :
    Placed ∅ s' := by
  cases hf with
  | hit hp he =>
    obtain ⟨hn, ht, hf⟩ := recordHit_ends he
    exact h.tables (h.toShape.recordHit hp he) hn ht hf
  | full hp hn he =>
    obtain ⟨-, rfl⟩ | ⟨f, q, h0, -⟩ := h.toShape.evictFrame he
    · exact h
    · cases h0
  | evict hp hn h₁ h₂ =>
    obtain ⟨hs, hlt⟩ := h.evictFrame h₁
    refine hs.load hlt ?_ h₂
    obtain ⟨h0, -⟩ | ⟨c, q, -, -, -, -, -, htab⟩ := h.toShape.evictFrame h₁
    · cases h0
    rw [htab]
    by_cases e : p = q
    · rw [e, AList.lookup_erase]
    · rw [AList.lookup_erase_ne e, hp]
  | free hp hn h₁ h₂ =>
    obtain ⟨hs, hlt⟩ := h.takeFree h₁
    refine hs.load hlt ?_ h₂
    obtain ⟨fs, -, rfl⟩ := takeFree_ends h₁
    exact hp

/-- The disk read that a fetch of `p` comes to throws. -/
def ReadFails (s : BufferPoolManager) (p : Nat) : Prop :=
  s.pageTable.lookup p = none ∧
  ((s.numFrames ≠ s.pageTable.entries.length ∧ ∃ e d, Throws (readPage p) s.disk e d) ∨
    s.numFrames = s.pageTable.entries.length ∧
      ∃ f s₁ e d, Ends evictFrame s (some f) s₁ ∧ Throws (readPage p) s₁.disk e d)

/-- A fetch that an exception leaves keeps the frames in place unless it is in its read. -/
theorem Placed.failed (h : Placed ∅ s) (hf : FailedFetch s p e s') (hr : ¬ ReadFails s p) :
    Placed ∅ s' := by
  cases hf with
  | flush hp hn hev ht hs => exact (h.evicted hev).same hs
  | @readEvicted f s₁ d hp hn h₁ h₂ => exact absurd ⟨hp, .inr ⟨hn, f, s₁, e, d, h₁, h₂⟩⟩ hr
  | @readFree f s₁ d hp hn h₁ h₂ =>
    obtain ⟨fs, -, rfl⟩ := takeFree_ends h₁
    exact absurd ⟨hp, .inl ⟨hn, e, d, h₂⟩⟩ hr

/-- A read that throws loses the frame. -/
theorem Placed.read_fails (h : Placed ∅ s) (hf : FailedFetch s p e s') (hr : ReadFails s p) :
    ¬ Whole s' := by
  cases hf with
  | flush hp hn hev ht hs =>
    obtain ⟨-, ⟨hn', -⟩ | ⟨-, f, s₁, -, -, h₁, -⟩⟩ := hr
    · exact absurd hn hn'
    · exact absurd h₁ ht.not_ends
  | readEvicted hp hn h₁ h₂ =>
    obtain ⟨hs, hlt⟩ := h.evictFrame h₁
    exact (hs.same (.disk _ _)).not_whole hlt
  | readFree hp hn h₁ h₂ =>
    obtain ⟨hs, hlt⟩ := h.takeFree h₁
    exact (hs.same (.disk _ _)).not_whole hlt

/-- A fetch whose read throws does not return. -/
theorem ReadFails.not_fetched (hr : ReadFails s p) {o : Option Nat} (hf : Fetched s p o s') :
    False := by
  obtain ⟨hp, hr⟩ := hr
  have hload : ∀ {f : Nat} {s₁ : BufferPoolManager} {e : Fault} {d : DiskManager},
      Ends (load p f) s₁ () s' → ¬ Throws (readPage p) s₁.disk e d := by
    intro f s₁ e d he ht
    obtain ⟨_, s₂, h₁, -⟩ := Ends.bind_iff.mp he
    obtain ⟨data, d', hd, -⟩ := readInto_ends h₁
    exact ht.not_ends hd
  cases hf with
  | hit hp' => cases hp.symm.trans hp'
  | full _ hn he =>
    obtain ⟨hn', -⟩ | ⟨-, f, s₁, -, -, h₁, -⟩ := hr
    · exact hn' hn
    · cases (Ends.unique he h₁).1
  | evict _ hn h₁ h₂ =>
    obtain ⟨hn', -⟩ | ⟨-, f, s₁, e, d, h₁', ht⟩ := hr
    · exact hn' hn
    · obtain ⟨hf, rfl⟩ := Ends.unique h₁ h₁'
      exact hload h₂ ht
  | free _ hn h₁ h₂ =>
    obtain ⟨-, e, d, ht⟩ | ⟨hn', -⟩ := hr
    · obtain ⟨fs, -, rfl⟩ := takeFree_ends h₁
      exact hload h₂ ht
    · exact hn hn'

theorem Placed.delete (h : Placed ∅ s) {ok : Bool} (he : Ends (deletePage p) s ok s') :
    Placed ∅ s' := by
  obtain ⟨-, -, rfl⟩ | ⟨f, hp, ⟨-, -, rfl⟩ | ⟨-, -, s₁, d, h₁, -, rfl⟩⟩ := deletePage_ends he
  · exact h
  · exact h
  · exact (h.freeFrame hp h₁).same (.disk _ _)

/-- The calls with the outcome of their disk requests: `io` says after how many
system calls of the call one fails. -/
def BufferPoolManager.withIo (s : BufferPoolManager) (io : Option Nat) : BufferPoolManager :=
  { s with disk := { s.disk with io := io } }

/-- Runs in which any disk request may fail. -/
def failing (n : Nat) (d : DiskManager) : LTS System (Op × Option Nat × Reply) where
  init s := s = ⟨.create n d, []⟩
  step s l s' := Ran ⟨s.pool.withIo l.2.1, s.guards⟩ l.1 l.2.2 s'

/-- The call is a fetch that fails in its read. -/
def FailsToRead (s : System) : Op × Option Nat × Reply → Prop
  | (.fetch _ p, io, _) => ReadFails (s.pool.withIo io) p
  | _ => False

section
variable {n : Nat} {d : DiskManager} {t t' : System} {l : Op × Option Nat × Reply}

/-- Every call keeps the frames in place, unless its read fails. -/
theorem Placed.step (h : Placed ∅ t.pool) (hs : (failing n d).step t l t')
    (hr : ¬ FailsToRead t l) : Placed ∅ t'.pool := by
  obtain ⟨op, io, reply⟩ := l
  have h₀ : Placed ∅ (t.pool.withIo io) := h.same (.disk _ _)
  change Ran ⟨t.pool.withIo io, t.guards⟩ op reply t' at hs
  cases hs with
  | fetched he =>
    obtain ⟨f, -, hf⟩ := checkedPage_ends.mp he
    exact h₀.fetched hf
  | refused he =>
    obtain ⟨f, -, hf⟩ := checkedPage_ends.mp he
    exact h₀.fetched hf
  | failed he hx => exact h₀.failed (checkedPage_throws he hx) hr
  | dropped hg he => exact h₀.same (.unpin he)
  | wrote hg hw he =>
    cases he
    exact h₀.same ⟨rfl, rfl, rfl, rfl, id⟩
  | deleted he => exact h₀.delete he
  | notDeleted he hx =>
    obtain ⟨f, s₁, d, hp, h₁, rfl⟩ := deletePage_throws he hx
    exact (h₀.freeFrame hp h₁).same (.disk _ _)
  | created he =>
    obtain ⟨-, p, d, -, rfl⟩ := newPage_ends.mp he
    exact h₀.same (.disk _ _)
  | notCreated he =>
    obtain ⟨d, -, rfl⟩ := newPage_throws he
    exact h₀.same (.disk _ _)

theorem Placed.step_fails (h : Placed ∅ t.pool) (hs : (failing n d).step t l t')
    (hr : FailsToRead t l) : ¬ Whole t'.pool := by
  obtain ⟨op, io, reply⟩ := l
  have h₀ : Placed ∅ (t.pool.withIo io) := h.same (.disk _ _)
  change Ran ⟨t.pool.withIo io, t.guards⟩ op reply t' at hs
  cases hs with
  | fetched he =>
    obtain ⟨f, -, hf⟩ := checkedPage_ends.mp he
    exact (ReadFails.not_fetched hr hf).elim
  | refused he =>
    obtain ⟨f, -, hf⟩ := checkedPage_ends.mp he
    exact (ReadFails.not_fetched hr hf).elim
  | failed he hx => exact h₀.read_fails (checkedPage_throws he hx) hr
  | _ => exact hr.elim

/-- Every frame stays in one place along a run, and no fetch finds the free list
empty when it takes its front, exactly if no fetch of the run fails in its read. -/
theorem frames_whole_iff (hn : n ≤ 2 ^ 32) {tr : List (System × (Op × Option Nat × Reply) × System)}
    (h : (failing n d).Path ⟨.create n d, []⟩ tr) :
    LTS.Always (fun t => Whole t.pool) ⟨.create n d, []⟩ tr ↔
      LTS.Meets (fun t l => ¬ FailsToRead t l) tr := by
  constructor
  · intro ha
    refine h.meets (P := fun t => Whole t.pool) (I := fun t => Placed ∅ t.pool) ?_ ?_ (.create hn) ha.2
    · intro t l t' hi hs hw hr
      exact hi.step_fails hs hr hw
    · intro t l t' hi hs hr
      exact hi.step hs hr
  · intro hm
    have hi := h.always (I := fun t => Placed ∅ t.pool) (fun t l t' hi hs hr => hi.step hs hr)
      (.create hn) hm
    exact ⟨hi.1.whole, fun x hx => (hi.2 x hx).whole⟩

/-- A pool of one frame whose first read fails: the next fetch takes the front of an empty list. -/
theorem lost_frame : ∃ e t, (failing 1 threePages).Path ⟨.create 1 threePages, []⟩
    [(⟨.create 1 threePages, []⟩, (.fetch false 1, some 0, .threw e), t)] ∧
    FailsToRead ⟨.create 1 threePages, []⟩ (.fetch false 1, some 0, .threw e) ∧
    t.pool.numFrames = 1 ∧ t.pool.freeFrames = [] ∧ t.pool.pageTable.entries = [] ∧
    ∃ b, Throws (checkedPage false 2) (t.pool.withIo none) .nullDeref b := by
  have ht : Throws (checkedPage false 1) ((BufferPoolManager.create 1 threePages).withIo (some 0))
      (.systemError "Critical: pread failed on page 1") _ := rfl
  refine ⟨_, _, .cons (.failed ht rfl) (.nil _), ⟨rfl, .inl ⟨by decide, _, _, rfl⟩⟩,
    rfl, rfl, rfl, _, rfl⟩

/-- The frames do not stay in place along every run. -/
theorem frames_not_whole : ¬ ∀ n d tr, n ≤ 2 ^ 32 → (failing n d).Path ⟨.create n d, []⟩ tr →
    LTS.Always (fun t => Whole t.pool) ⟨.create n d, []⟩ tr := by
  intro h
  obtain ⟨e, t, hpath, -, hn, hfree, htab, -⟩ := lost_frame
  obtain ⟨-, hw⟩ := h 1 threePages _ (by decide) hpath
  have hcount : t.pool.freeFrames.length + t.pool.pageTable.entries.length = t.pool.numFrames :=
    (hw _ (List.mem_singleton.mpr rfl)).count
  rw [hfree, htab, hn] at hcount
  cases hcount

/-- The run with the failed read. -/
theorem frames_whole_iff_lost : ∃ tr, (failing 1 threePages).Path ⟨.create 1 threePages, []⟩ tr ∧
    ¬ LTS.Always (fun t => Whole t.pool) ⟨.create 1 threePages, []⟩ tr := by
  obtain ⟨e, t, hpath, hr, -⟩ := lost_frame
  refine ⟨_, hpath, fun ha => ?_⟩
  exact (frames_whole_iff (by decide) hpath).mp ha _ (List.mem_singleton.mpr rfl) hr

end

end

end DbInternals.Buffer
