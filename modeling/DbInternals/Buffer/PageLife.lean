import DbInternals.Buffer.PoolOps
import DbInternals.Storage.Allocator

/-!
# The life of a page in the pool

A page is created, fetched, evicted and deleted. `NewPage` allocates an id on
disk and hands out the invalid one instead, so no run that creates a page has
the life cycle of `Lives`.

Results:
* `delete_resident`: a page in a frame is deleted in memory and on disk;
* `delete_absent`: a page in no frame is reported deleted and stays allocated;
* `fetch_past_end`: a page that was never written cannot be fetched;
* `life_cycle_iff`: the runs with the life cycle are those that create nothing.
-/
namespace DbInternals.Buffer

open Storage Allocator

section
variable {s s' : BufferPoolManager} {p f : Nat}

/-- A resident page that no guard refers to is then in no frame, and its id on the free list. -/
theorem delete_resident {owned : List Nat} {cs : List (Nat × List Nat)} {ok : Bool}
    (hparts : Parts s.disk owned cs) (hp : p ∈ owned) (hlook : s.pageTable.lookup p = some f)
    (hpin : (s.frames f).pinCount = 0) (he : Ends (deletePage p) s ok s') :
    ok = true ∧ s'.pageTable.lookup p = none ∧
      ∃ fs, FreeList s'.disk s'.disk.globalMetadata.freelistHead fs ∧ p ∈ fs := by
  obtain ⟨hn, -⟩ | ⟨c, hc, ⟨h0, -⟩ | ⟨-, hok, s₁, d, h₁, hd, rfl⟩⟩ := deletePage_ends he
  · cases hlook.symm.trans hn
  · cases hlook.symm.trans hc
    omega
  obtain ⟨r, -, rfl⟩ := freeFrame_ends h₁
  refine ⟨hok, AList.lookup_erase p _, ?_⟩
  obtain ⟨d', cs', hd', -, -, -, hperm, hparts'⟩ := hparts.deallocatePage hp
  obtain ⟨-, rfl⟩ := Ends.unique hd hd'
  refine ⟨freeIds cs', ⟨cs', hparts'.chain, rfl⟩, ?_⟩
  have hmem : p ∈ owned.erase p ++ freeIds cs' := by
    rw [hperm.mem_iff]
    exact List.mem_append_left _ hp
  obtain hm | hm := List.mem_append.mp hmem
  · have hnodup : owned.Nodup := (List.nodup_append.mp hparts.nodup).1
    exact absurd hm hnodup.not_mem_erase
  · exact hm

/-- A page that is in no frame is reported deleted, and nothing happens. -/
theorem delete_absent (hp : s.pageTable.lookup p = none) : Ends (deletePage p) s true s := by
  apply (Ends.get s).bind
  simp only [hp]
  exact .pure _ _

/-- A page whose bytes are past the end of the file cannot be read. -/
theorem readPage_past_end {d : DiskManager} (hio : d.io = none)
    (hp : p < d.globalMetadata.nextPageId) (hsize : d.size ≤ pageOffset p) :
    Throws (readPage p) d (.runtimeError "Read past EOF") d := by
  have hread : Ends (pread (pageOffset p)) d
      (some (min PAGE_SIZE (d.size - pageOffset p), Mem.zero.copy 0 (d.bytes.shift (pageOffset p))
        (min PAGE_SIZE (d.size - pageOffset p)))) d := (syscall_ends hio).bind rfl
  have h0 : min PAGE_SIZE (d.size - pageOffset p) = 0 := by omega
  rw [h0] at hread
  unfold readPage
  refine Throws.bind_iff.mpr (.inr ⟨d, d, Ends.get d, ?_⟩)
  rw [if_neg (Nat.not_le.mpr hp)]
  exact Throws.bind_iff.mpr (.inr ⟨_, d, hread, rfl⟩)

/-- A page that was created and never written may be past the end of the file:
its fetch throws, and the free frame it took is lost. -/
theorem fetch_past_end {w : Bool} {fs : List Nat} (hlook : s.pageTable.lookup p = none)
    (hn : s.numFrames ≠ s.pageTable.entries.length) (hfree : s.freeFrames = f :: fs)
    (hio : s.disk.io = none) (hp : p < s.disk.globalMetadata.nextPageId)
    (hsize : s.disk.size ≤ pageOffset p) :
    Throws (checkedPage w p) s (.runtimeError "Read past EOF") { s with freeFrames := fs } := by
  have htake : Ends takeFree s f { s with freeFrames := fs } := by
    apply (Ends.get s).bind
    simp only [hfree]
    exact .pure _ _
  have hread : Throws (onDisk (readPage p)) { s with freeFrames := fs }
      (.runtimeError "Read past EOF") { s with freeFrames := fs } :=
    onDisk_throws.mpr ⟨s.disk, readPage_past_end hio hp hsize, rfl⟩
  unfold checkedPage
  refine Throws.bind_iff.mpr (.inr ⟨s, s, Ends.get s, ?_⟩)
  rw [if_neg (by rw [hlook]; simp), if_neg hn]
  refine Throws.bind_iff.mpr (.inr ⟨f, _, htake, ?_⟩)
  exact Throws.bind_iff.mpr (.inl (Throws.bind_iff.mpr (.inl (Throws.bind_iff.mpr (.inl hread)))))

end

/-! ## Runs -/

/-- The pool with its guards, and the ids created and not deleted since. -/
structure Life where
  system : System
  created : List Nat

/-- The ids after a call. -/
def createdAfter (ids : List Nat) : Op × Reply → List Nat
  | (.newPage, .page id) => id :: ids
  | (.deletePage p, .deleted true) => ids.erase p
  | _ => ids

/-- Runs on a fresh database, whose disk does not fail. -/
def life (n : Nat) : LTS Life (Op × Reply) where
  init t := ∃ d, DiskManager.create none = .ok ⟨⟩ d ∧ t = ⟨⟨.create n d, []⟩, []⟩
  step t l t' := Ran t.system l.1 l.2 t'.system ∧ t'.created = createdAfter t.created l

/-- The answer to a call is right: a new id is valid and not in use, and a
created page that is deleted is in no frame and its id on the free list. -/
def Answers (ids : List Nat) (b : BufferPoolManager) : Op × Reply → Prop
  | (.newPage, reply) => ∃ id, reply = .page id ∧ id ≠ INVALID_PAGE_ID ∧ id ∉ ids
  | (.deletePage p, .deleted true) => p ∈ ids → b.pageTable.lookup p = none ∧
      ∃ fs, FreeList b.disk b.disk.globalMetadata.freelistHead fs ∧ p ∈ fs
  | _ => True

/-- A created page can be fetched for writing when a frame is free or can be evicted. -/
def Writable (t : Life) : Prop :=
  ∀ p ∈ t.created, (t.system.pool.freeFrames ≠ [] ∨ ∃ f, t.system.pool.replacer.Evictable f) →
    ∃ g b, Ends (checkedWritePage p) t.system.pool (some g) b

/-- The life cycle of the pages, along a run. -/
def Lives (tr : List (Life × (Op × Reply) × Life)) : Prop :=
  ∀ x ∈ tr, Answers x.1.created x.2.2.system.pool x.2.1 ∧ Writable x.2.2

section
variable {n : Nat} {t t' : Life} {l : Op × Reply}

/-- No call creates a page under the id it has. -/
theorem newPage_answers (hs : (life n).step t l t') (hl : l.1 = .newPage) :
    ¬ Answers t.created t'.system.pool l := by
  obtain ⟨op, reply⟩ := l
  cases hl
  intro ha
  obtain ⟨id, hreply, hid, -⟩ := ha
  obtain ⟨hran, -⟩ := hs
  cases hreply
  generalize t'.system = b at hran
  cases hran with
  | created he =>
    obtain ⟨h0, -⟩ := newPage_ends.mp he
    exact hid h0

theorem step_created (hs : (life n).step t l t') (hc : t.created = []) (hl : l.1 ≠ .newPage) :
    t'.created = [] := by
  obtain ⟨op, reply⟩ := l
  obtain ⟨hran, hc'⟩ := hs
  rw [hc', hc]
  generalize t'.system = b at hran
  cases hran with
  | @deleted p ok b he => cases ok <;> rfl
  | created => exact absurd rfl hl
  | _ => rfl

/-- A run that creates nothing has no created page. -/
theorem path_created {tr : List (Life × (Op × Reply) × Life)} (h : (life n).Path t tr)
    (hc : t.created = []) (hm : LTS.Meets (fun _ l => l.1 ≠ .newPage) tr) :
    ∀ x ∈ tr, x.1.created = [] ∧ x.2.2.created = [] := by
  refine h.each (I := fun t => t.created = [])
    (R := fun t _ t' => t.created = [] ∧ t'.created = []) (fun t l t' hc hs hl => ?_) hc hm
  have hc' := step_created hs hc hl
  exact ⟨⟨hc, hc'⟩, hc'⟩

/-- The pages live as they should along a run exactly if the run creates none. -/
theorem life_cycle_iff {tr : List (Life × (Op × Reply) × Life)} (h₀ : (life n).init t)
    (h : (life n).Path t tr) : Lives tr ↔ LTS.Meets (fun _ l => l.1 ≠ .newPage) tr := by
  constructor
  · intro hl x hx e
    exact newPage_answers (h.step x hx) e (hl x hx).1
  · intro hm x hx
    obtain ⟨d, -, rfl⟩ := h₀
    obtain ⟨hc, hc'⟩ := path_created h rfl hm x hx
    have hne : x.2.1.1 ≠ .newPage := hm x hx
    obtain ⟨a, ⟨op, reply⟩, b⟩ := x
    refine ⟨?_, fun p hp => ?_⟩
    · cases op with
      | newPage => exact absurd rfl hne
      | deletePage p =>
        cases reply with
        | deleted ok =>
          cases ok with
          | true =>
            intro hp
            rw [hc] at hp
            cases hp
          | false => trivial
        | _ => trivial
      | _ => trivial
    · rw [hc'] at hp
      cases hp

/-- On a fresh database `NewPage` returns the invalid id. -/
theorem created_invalid : ∃ t t', (life 1).init t ∧
    (life 1).Path t [(t, (.newPage, .page INVALID_PAGE_ID), t')] := by
  obtain ⟨d, hd⟩ : ∃ d, DiskManager.create none = .ok ⟨⟩ d := ⟨_, rfl⟩
  obtain ⟨hg, hio⟩ := init_ends (s := ⟨d, [], fun _ => none⟩) hd
  have halloc := allocatePage_ends hio (by rw [hg])
  have hnew : Ends newPage (.create 1 d) INVALID_PAGE_ID _ :=
    newPage_ends.mpr ⟨rfl, _, _, halloc, rfl⟩
  exact ⟨_, ⟨⟨_, []⟩, [INVALID_PAGE_ID]⟩, ⟨d, hd, rfl⟩, .cons ⟨.created hnew, rfl⟩ (.nil _)⟩

/-- The pages do not live as they should along every run. -/
theorem not_life_cycle : ¬ ∀ n t tr, (life n).init t → (life n).Path t tr → Lives tr := by
  intro h
  obtain ⟨t, t', h₀, hpath⟩ := created_invalid
  obtain ⟨⟨id, hid, hne, -⟩, -⟩ := h 1 t _ h₀ hpath _ (List.mem_singleton.mpr rfl)
  cases hid
  exact hne rfl

/-- The run that creates a page. -/
theorem life_cycle_iff_created : ∃ t tr, (life 1).init t ∧ (life 1).Path t tr ∧ ¬ Lives tr := by
  obtain ⟨t, t', h₀, hpath⟩ := created_invalid
  refine ⟨t, _, h₀, hpath, fun hl => ?_⟩
  exact (life_cycle_iff h₀ hpath).mp hl _ (List.mem_singleton.mpr rfl) rfl

end

end DbInternals.Buffer
