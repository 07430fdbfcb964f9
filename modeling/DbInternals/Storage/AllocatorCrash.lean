import DbInternals.Storage.Allocator

/-!
# Crashes and reopening

The allocator's state is page 0 and the pages of the chain, written one after
the other. A crash is a call cut after some number of its system calls; the
process is gone and the file is opened again.

Results:
* `openFile_ends`, `closeFile_ends`: a file whose page 0 is up to date opens
  to the state that was closed;
* `Cut`: what a call leaves in the file wherever it is cut; `allocatePage_cut`,
  `deallocatePage_cut`: at worst an id is lost;
* `crash_safe`: over runs with any number of crashes, no id in use is handed
  out, and between calls the file opens to the state in memory.
-/
namespace DbInternals.Storage.Allocator

open Mem

/-! ## Opening and closing -/

/-- The file of `d`, whatever is in memory. -/
def SameFile (d s : DiskManager) : Prop := s.bytes = d.bytes ∧ s.size = d.size

/-- The metadata fits its fields. -/
structure Fits (g : GlobalMetadata) : Prop where
  magic : g.magicNumber = MAGIC_NUMBER
  version : g.dbVersion < 2 ^ 32
  root : g.rootPageId < 2 ^ 32
  head : g.freelistHead < 2 ^ 32
  next : g.nextPageId < 2 ^ 32

/-- Page 0 holds the metadata in memory. -/
structure Saved (d : DiskManager) : Prop where
  fits : Fits d.globalMetadata
  size : PAGE_SIZE ≤ d.size
  page : pageAt d 0 = pageOf d.globalMetadata.bytes

theorem Fits.ofBytes {g : GlobalMetadata} (h : Fits g) :
    GlobalMetadata.ofBytes (pageOf g.bytes) = g := by
  obtain ⟨h1, h2, h3, h4, h5⟩ := h
  obtain ⟨magic, version, root, head, next⟩ := g
  simp only at h1 h2 h3 h4 h5
  have hm : MAGIC_NUMBER % 256 ^ 4 = MAGIC_NUMBER := by decide
  simp only [GlobalMetadata.ofBytes, GlobalMetadata.bytes, GlobalMetadata.mk.injEq]
  refine ⟨?_, ?_, ?_, ?_, ?_⟩
  · rw [readLE_pageOf (by decide), readLE_writeLE_frame (by omega), readLE_writeLE_frame (by omega),
      readLE_writeLE_frame (by omega), readLE_writeLE_frame (by omega), readLE_writeLE, h1, hm]
  · rw [readLE_pageOf (by decide), readLE_writeLE_frame (by omega), readLE_writeLE_frame (by omega),
      readLE_writeLE_frame (by omega), readLE_writeLE]
    exact Nat.mod_eq_of_lt h2
  · rw [readLE_pageOf (by decide), readLE_writeLE_frame (by omega), readLE_writeLE_frame (by omega),
      readLE_writeLE]
    exact Nat.mod_eq_of_lt h3
  · rw [readLE_pageOf (by decide), readLE_writeLE_frame (by omega), readLE_writeLE]
    exact Nat.mod_eq_of_lt h4
  · rw [readLE_pageOf (by decide), readLE_writeLE]
    exact Nat.mod_eq_of_lt h5

section
variable {d s : DiskManager}

/-- Opening reads back the metadata. -/
theorem openFile_ends (h : Saved d) (hd : d.io = none) (hf : SameFile d s) (hs : s.io = none) :
    Ends openFile s ⟨⟩ d := by
  have hsize : PAGE_SIZE ≤ s.size := hf.2 ▸ h.size
  have hpos : s.size ≠ 0 := by simp only [PAGE_SIZE] at hsize; omega
  have hpage : pageAt s 0 = pageOf d.globalMetadata.bytes := by
    rw [← h.page, pageAt, pageAt, hf.1]
  unfold openFile
  refine (Ends.get s).bind ?_
  rw [if_neg hpos]
  refine (Ends.get s).bind ?_
  rw [if_neg (by omega)]
  refine (pread_ends (p := 0) hs (by rw [pageOffset_zero]; omega)).bind ?_
  simp only [Nat.lt_irrefl, if_false]
  refine (Ends.modify _ s).bind ((Ends.get _).bind ?_)
  simp only [hpage, h.fits.ofBytes, h.fits.magic, ne_eq, not_true_eq_false, if_false]
  have e : ({ s with globalMetadata := d.globalMetadata } : DiskManager) = d := by
    obtain ⟨g, b, n, io⟩ := d
    obtain ⟨hb, hn⟩ := hf
    simp only at hb hn hd ⊢
    rw [hb, hn, hs, hd]
  rw [e]
  exact Ends.pure _ d

/-- The page 0 that is in the file is written again. -/
theorem Saved.saved_eq (h : Saved d) : d.saved = d := by
  have hb : d.bytes.copy 0 d.globalMetadata.bytes PAGE_SIZE = d.bytes := by
    funext a
    by_cases ha : a < PAGE_SIZE
    · have e := congrFun h.page a
      rw [pageAt, pageOf_apply ha, pageOf_apply ha, shift_apply, pageOffset_zero, Nat.zero_add] at e
      rw [copy_in (Nat.zero_le a) (by omega), Nat.sub_zero, e]
    · exact copy_out (by omega)
  have hn : max d.size (0 + PAGE_SIZE) = d.size := by have := h.size; omega
  have e : d.saved = { d with bytes := d.bytes.copy 0 d.globalMetadata.bytes PAGE_SIZE,
                              size := max d.size (0 + PAGE_SIZE) } := rfl
  rw [e, hb, hn]

/-- Closing changes nothing. -/
theorem closeFile_ends (h : Saved d) (hd : d.io = none) : Ends closeFile d ⟨⟩ d := by
  have he := updateMetadata_ends hd
  rw [show d.store d.globalMetadata.bytes (pageOffset 0) = d from h.saved_eq] at he
  exact he

theorem Saved.of_fits (h : Fits d.globalMetadata) : Saved d.saved :=
  ⟨h, Nat.le_max_right _ _, pageAt_store rfl⟩

theorem Saved.store {data : Mem} {p : Nat} (h : Saved d) (hp : pageOffset 0 ≠ pageOffset p) :
    Saved (d.store data (pageOffset p)) :=
  ⟨h.fits, Nat.le_trans h.size (Nat.le_max_left _ _), (pageAt_store_of_ne hp).trans h.page⟩

end

/-! ## Calls cut short -/

/-- The state `d` but for the system calls that are left. -/
def Upto (d s : DiskManager) : Prop := ∃ n, s = { d with io := n }

/-- Some state with `P` has this file. -/
def Recoverable (P : DiskManager → Prop) (s : DiskManager) : Prop := ∃ d, P d ∧ SameFile d s

/-- Wherever the call is cut, its file is that of a state with `P`, and if it
returns, it returns in such a state. -/
def Cut {α : Type} (P : DiskManager → Prop) (x : DiskM α) (d : DiskManager) : Prop :=
  Triple (Upto d) x (fun _ s => ∃ d', P d' ∧ Upto d' s) (Recoverable P)

theorem Recoverable.of_upto {P : DiskManager → Prop} {d s : DiskManager} (h : Recoverable P d)
    (hs : Upto d s) : Recoverable P s := by
  obtain ⟨n, rfl⟩ := hs
  exact h

theorem Recoverable.self {P : DiskManager → Prop} {d : DiskManager} (h : P d) : Recoverable P d :=
  ⟨d, h, rfl, rfl⟩

namespace Upto

variable {α : Type} {d : DiskManager} {Q : α → DiskManager → Prop} {E : DiskManager → Prop}

theorem refl (d : DiskManager) : Upto d d := ⟨d.io, rfl⟩

theorem get_bind {f : DiskManager → DiskM α}
    (h : ∀ n, Triple (Upto d) (f { d with io := n }) Q E) :
    Triple (Upto d) (MonadState.get >>= f) Q E := by
  refine Triple.get_bind fun s hs => ?_
  obtain ⟨n, rfl⟩ := hs
  exact (h n).conseq (fun s hs => ⟨n, hs⟩) (fun _ _ h => h) fun _ h => h

theorem modify_bind {g : DiskManager → DiskManager} {f : PUnit → DiskM α}
    (hg : ∀ n, g { d with io := n } = { g d with io := n }) (h : Triple (Upto (g d)) (f ⟨⟩) Q E) :
    Triple (Upto d) (modify g >>= f) Q E := by
  refine Triple.bind (Q := fun _ => Upto (g d)) (Triple.modify fun s hs => ?_) fun _ => h
  obtain ⟨n, rfl⟩ := hs
  exact ⟨n, hg n⟩

/-- A system call succeeds, or fails and changes nothing. -/
theorem syscall : Triple (Upto d) syscall (fun _ => Upto d) E := by
  intro s hs
  obtain ⟨n, rfl⟩ := hs
  unfold Storage.syscall
  cases n with
  | none => exact ⟨none, rfl⟩
  | some n =>
    cases n with
    | zero => exact ⟨some 0, rfl⟩
    | succ n => exact ⟨some n, rfl⟩

theorem pread (offset : Nat) : Triple (Upto d) (pread offset) (fun _ => Upto d) E :=
  Triple.bind syscall fun _ => Triple.ite
    (fun _ => get_bind fun _ => Triple.pure fun _ hs => hs) fun _ => Triple.pure fun _ hs => hs

theorem pread_bind {p : Nat} {f : Option (Nat × Mem) → DiskM α} (hm : Mapped d p)
    (h : Triple (Upto d) (f none) Q E)
    (h' : Triple (Upto d) (f (some (PAGE_SIZE, pageAt d p))) Q E) :
    Triple (Upto d) (Storage.pread (pageOffset p) >>= f) Q E := by
  refine Triple.bind (Q := fun r s => Upto d s ∧ (r = none ∨ r = some (PAGE_SIZE, pageAt d p))) ?_ ?_
  · refine Triple.bind syscall fun b => Triple.ite (fun _ => ?_) fun _ => ?_
    · refine Triple.get_bind fun s hs => ?_
      obtain ⟨n, rfl⟩ := hs
      have hn : min PAGE_SIZE (d.size - pageOffset p) = PAGE_SIZE := by have := hm.2; omega
      exact Triple.pure fun s hs => ⟨⟨n, hs⟩, .inr (by simp only [hn]; rfl)⟩
    · exact Triple.pure fun s hs => ⟨hs, .inl rfl⟩
  · intro r
    refine Triple.of_state fun s hs => ?_
    obtain ⟨hu, hr⟩ := hs
    cases hr with
    | inl e => rw [e]; exact h.conseq (fun _ e => e ▸ hu) (fun _ _ h => h) fun _ h => h
    | inr e => rw [e]; exact h'.conseq (fun _ e => e ▸ hu) (fun _ _ h => h) fun _ h => h

theorem pwrite_bind {data : Mem} {offset : Nat} {f : Bool → DiskM α}
    (h : Triple (Upto d) (f false) Q E) (h' : Triple (Upto (d.store data offset)) (f true) Q E) :
    Triple (Upto d) (pwrite data offset >>= f) Q E := by
  refine Triple.bind (Q := fun b s => if b then Upto (d.store data offset) s else Upto d s) ?_ ?_
  · refine Triple.bind syscall fun b => Triple.ite (fun _ => ?_) fun _ => ?_
    · refine Triple.bind (Q := fun _ => Upto (d.store data offset)) (Triple.modify fun s hs => ?_)
        fun _ => Triple.pure fun s hs => hs
      obtain ⟨n, rfl⟩ := hs
      exact ⟨n, rfl⟩
    · exact Triple.pure fun s hs => hs
  · intro b
    cases b with
    | false => exact h
    | true => exact h'

/-- A page write and its check. -/
theorem write_bind {data : Mem} {offset p : Nat} {rest : DiskM α} (h : ∀ s, Upto d s → E s)
    (h' : Triple (Upto (d.store data offset)) rest Q E) :
    Triple (Upto d) (do let w ← pwrite data offset; handleWriteError w p; rest) Q E :=
  pwrite_bind (Triple.throw h) h'

theorem updateMetadata_bind {f : PUnit → DiskM α} (h : ∀ s, Upto d s → E s)
    (h' : Triple (Upto d.saved) (f ⟨⟩) Q E) : Triple (Upto d) (updateMetadata >>= f) Q E := by
  have e : (updateMetadata >>= f) = (MonadState.get >>= fun d : DiskManager => do
      let w ← pwrite d.globalMetadata.bytes 0
      handleWriteError w 0
      f ⟨⟩) := by
    simp only [updateMetadata, bind_assoc]
  rw [e]
  exact get_bind fun n => write_bind h h'

/-- A page that may not be there is read. -/
theorem readPage_any (p : Nat) : Keeps (Upto d) (readPage p) := readPage_keeps_of pread p

theorem readPage {p : Nat} (hm : Mapped d p) : Triple (Upto d) (readPage p)
    (fun data s => data = pageAt d p ∧ Upto d s) (Upto d) := by
  unfold Storage.readPage
  refine get_bind fun _ => ?_
  rw [if_neg (Nat.not_le.mpr hm.1)]
  exact pread_bind hm (Triple.throw fun _ h => h) (Triple.pure fun _ h => ⟨rfl, h⟩)

theorem writePage {p : Nat} {data : Mem} (hp : p < d.globalMetadata.nextPageId) :
    Triple (Upto d) (writePage p data) (fun _ => Upto (d.store data (pageOffset p))) (Upto d) := by
  unfold Storage.writePage
  refine get_bind fun _ => ?_
  rw [if_neg (Nat.not_le.mpr hp)]
  exact pwrite_bind (Triple.throw fun _ h => h) (Triple.pure fun _ h => h)

end Upto

namespace Cut

variable {α β : Type} {P : DiskManager → Prop} {d : DiskManager}

theorem pure {a : α} (h : P d) : Cut P (Pure.pure a : DiskM α) d := fun _ hs => ⟨d, h, hs⟩

theorem pure_bind {a : β} {f : β → DiskM α} (h : Cut P (f a) d) :
    Cut P (Pure.pure a >>= f) d := h

theorem throw {e : Fault} (h : Recoverable P d) : Cut P (MonadExcept.throw e : DiskM α) d :=
  fun _ hs => h.of_upto hs

theorem get_bind {f : DiskManager → DiskM α} (h : ∀ n, Cut P (f { d with io := n }) d) :
    Cut P (MonadState.get >>= f) d := Upto.get_bind h

theorem modify_bind {g : DiskManager → DiskManager} {f : PUnit → DiskM α}
    (hg : ∀ n, g { d with io := n } = { g d with io := n }) (h : Cut P (f ⟨⟩) (g d)) :
    Cut P (modify g >>= f) d := Upto.modify_bind hg h

theorem pread_bind {p : Nat} {f : Option (Nat × Mem) → DiskM α} (hm : Mapped d p)
    (h : Cut P (f none) d) (h' : Cut P (f (some (PAGE_SIZE, pageAt d p))) d) :
    Cut P (pread (pageOffset p) >>= f) d := Upto.pread_bind hm h h'

theorem pwrite_bind {data : Mem} {offset : Nat} {f : Bool → DiskM α} (h : Cut P (f false) d)
    (h' : Cut P (f true) (d.store data offset)) : Cut P (pwrite data offset >>= f) d :=
  Upto.pwrite_bind h h'

/-- A page write and its check. -/
theorem write_bind {data : Mem} {offset p : Nat} {rest : DiskM α} (h : Recoverable P d)
    (h' : Cut P rest (d.store data offset)) :
    Cut P (do let w ← pwrite data offset; handleWriteError w p; rest) d :=
  Upto.write_bind (fun _ hs => h.of_upto hs) h'

theorem updateMetadata_bind {f : PUnit → DiskM α} (h : Recoverable P d)
    (h' : Cut P (f ⟨⟩) d.saved) : Cut P (updateMetadata >>= f) d :=
  Upto.updateMetadata_bind (fun _ hs => h.of_upto hs) h'

theorem updateMetadata (h : Recoverable P d) (h' : P d.saved) : Cut P updateMetadata d :=
  get_bind fun _ => pwrite_bind (.throw h) (.pure h')

theorem mono {x : DiskM α} {P' : DiskManager → Prop} (h : Cut P x d) (hP : ∀ d', P d' → P' d') :
    Cut P' x d := by
  refine Triple.conseq h (fun _ hs => hs) (fun _ s hs => ?_) fun s hs => ?_
  · obtain ⟨d', hd', hu⟩ := hs
    exact ⟨d', hP d' hd', hu⟩
  · obtain ⟨d', hd', hf⟩ := hs
    exact ⟨d', hP d' hd', hf⟩

theorem discard {x : DiskM α} (h : Cut P x d) :
    Cut P (x >>= fun _ => (Pure.pure ⟨⟩ : DiskM Unit)) d :=
  Triple.bind h fun _ => Triple.pure fun _ h => h

/-- The file after the cut. -/
theorem after {x : DiskM α} (h : Cut P x d) (n : Option Nat) :
    Recoverable P (DbInternals.after x { d with io := n }) := by
  have h1 := h _ ⟨n, rfl⟩
  rw [DbInternals.after]
  cases hx : x { d with io := n } with
  | ok a s =>
    rw [hx] at h1
    obtain ⟨d', hp, n', rfl⟩ := h1
    exact ⟨d', hp, rfl, rfl⟩
  | error e s => rw [hx] at h1; exact h1

end Cut

/-! ## The two calls -/

theorem taken_refl (d : DiskManager) (fs : List Nat) : Taken d d fs :=
  ⟨rfl, fun _ _ h => h, fun _ _ _ => rfl⟩

/-- An allocation that returns is one that was not cut; one that is cut leaves
the pages that are not free as they were. -/
theorem Upto.allocatePage {d : DiskManager} {fs : List Nat} {Q : Nat → DiskManager → Prop}
    {E : DiskManager → Prop} (hio : d.io = none)
    (h : FreeList d d.globalMetadata.freelistHead fs) (hn : d.globalMetadata.nextPageId + 1 < 2 ^ 32)
    (hQ : ∀ f d' s, Ends Storage.allocatePage d f d' → Upto d' s → Q f s)
    (hE : ∀ d' s, Taken d d' fs → Upto d' s → E s) :
    Triple (Upto d) Storage.allocatePage Q E := by
  have hself : ∀ s, Upto d s → E s := fun s => hE d s (taken_refl d fs)
  obtain ⟨cs, hc, rfl⟩ := h
  generalize hh : d.globalMetadata.freelistHead = head at hc
  cases hc with
  | nil =>
    have hbump : ∀ s, Upto d.bump s → E s := fun s => hE d.bump s ⟨rfl, fun p hp hm =>
      ⟨by simp only [DiskManager.bump]; omega, hm.2⟩, fun _ _ _ => rfl⟩
    have hdone := fun s => hQ _ _ s (allocatePage_ends hio hh)
    unfold Storage.allocatePage
    refine Upto.get_bind fun _ => ?_
    rw [show _ = INVALID_PAGE_ID from hh, if_pos rfl]
    exact Upto.get_bind fun _ => Upto.modify_bind (fun _ => rfl)
      (Upto.updateMetadata_bind hbump (Triple.pure hdone))
  | @page _ next ids rest hne hm hp hrest =>
  have hcount := hp.count
  have hmax := hp.max
  cases ids using List.reverseRecOn with
  | nil =>
    have hhead : ∀ s, Upto (d.withHead next) s → E s := fun s => hE (d.withHead next) s
      ⟨rfl, fun _ _ h => h, fun _ _ _ => rfl⟩
    have hdone := fun s => hQ _ _ s (allocatePage_head hio hh hne hm hp)
    unfold Storage.allocatePage
    refine Upto.get_bind fun _ => ?_
    rw [show _ = head from hh, if_neg hne]
    refine Upto.pread_bind hm (Triple.throw hself) ?_
    change Triple _ (ite _ _ _) _ _
    simp only [Option.map_some, Option.getD_some, hcount, List.length_nil, if_true, hp.next]
    exact Upto.modify_bind (g := fun d => d.withHead next) (fun _ => rfl)
      (Upto.updateMetadata_bind hhead (Triple.pure hdone))
  | append_singleton ids f =>
    -- the page of the chain may be written and page 0 not
    have hstored : ∀ s, Upto (d.store ((pageAt d head).writeLE 4 4 ids.length) (pageOffset head)) s →
        E s := fun s => hE _ s ⟨rfl, fun _ _ hm => hm.store, fun p _ hfree =>
      pageAt_store_of_ne (hfree head (by rw [freeIds_cons]; simp))⟩
    have hdone := fun s => hQ _ _ s (allocatePage_entry hio hh hne hm hp)
    unfold Storage.allocatePage
    refine Upto.get_bind fun _ => ?_
    rw [show _ = head from hh, if_neg hne]
    refine Upto.pread_bind hm (Triple.throw hself) ?_
    simp only [List.length_append, List.length_singleton] at hcount hmax
    change Triple _ (ite _ _ _) _ _
    simp only [Option.map_some, Option.getD_some, hcount]
    rw [if_neg (by omega), if_neg (by omega), Nat.add_sub_cancel, hp.pop.1]
    exact Upto.write_bind hself (Upto.updateMetadata_bind hstored (Triple.pure hdone))

/-- A file the allocator can go on with: the ids in use are not in the chain. -/
structure Good (owned : List Nat) (d : DiskManager) : Prop where
  io : d.io = none
  saved : Saved d
  parts : d.globalMetadata.nextPageId ≤ MAX_PAGES → ∃ cs, Parts d owned cs

section
variable {d d' : DiskManager} {owned : List Nat} {cs : List (Nat × List Nat)} {f p : Nat}

theorem Parts.good (h : Parts d owned cs) (hs : Saved d) : Good owned d := ⟨h.io, hs, fun _ => ⟨cs, h⟩⟩

/-- The id taken may be lost. -/
theorem Parts.good_of_allocate (h : Parts d owned cs) (he : Ends Storage.allocatePage d f d')
    (hs : Saved d') : Good owned d' := by
  obtain ⟨f', d'', cs', he', ht, -, -, hp⟩ := h.allocatePage
  obtain ⟨rfl, rfl⟩ := he.unique he'
  refine ⟨ht.io.trans h.io, hs, fun hn => ⟨cs', (hp hn).sublist (hp hn).chain ?_⟩⟩
  exact List.sublist_cons_self _ _

theorem Parts.good_of_deallocate (h : Parts d owned cs) (hp : p ∈ owned)
    (he : Ends (Storage.deallocatePage p) d ⟨⟩ d') (hs : Saved d') : Good (owned.erase p) d' := by
  obtain ⟨d'', cs', he', -, -, -, -, hparts⟩ := h.deallocatePage hp
  obtain ⟨-, rfl⟩ := he.unique he'
  exact hparts.good hs

/-- The page given back may be lost. -/
theorem Parts.erase (h : Parts d owned cs) : Parts d (owned.erase p) cs :=
  h.sublist h.chain (List.erase_sublist.append_right _)

/-- A head of the chain is not page 0. -/
theorem Parts.head_offset {c : Nat × List Nat} (h : Parts d owned (c :: cs)) :
    pageOffset 0 ≠ pageOffset c.1 := by
  refine (h.distinct_free.offset_ne_zero ?_).symm
  rw [freeIds_cons]; simp

/-- A file as before the call, or as behind it. -/
def Whole {α : Type} (x : DiskM α) (d d' : DiskManager) : Prop := d' = d ∨ Saved d' ∧ ∃ a, Ends x d a d'

theorem allocatePage_whole (h : Parts d owned cs) (hs : Saved d) :
    Cut (Whole Storage.allocatePage d) Storage.allocatePage d := by
  have hself : Recoverable (Whole Storage.allocatePage d) d := .self (.inl rfl)
  have hio := h.io
  have hc := h.chain
  generalize hh : d.globalMetadata.freelistHead = head at hc
  unfold Storage.allocatePage
  refine Cut.get_bind fun _ => ?_
  cases hc with
  | nil =>
    -- the new `next_page_id` is in the file or not
    rw [show _ = INVALID_PAGE_ID from hh, if_pos rfl]
    have hfits : Fits d.bump.globalMetadata :=
      ⟨hs.fits.magic, hs.fits.version, hs.fits.root, hs.fits.head, Nat.mod_lt _ (by decide)⟩
    have hbump : Whole Storage.allocatePage d d.bump.saved :=
      .inr ⟨Saved.of_fits hfits, _, allocatePage_ends hio hh⟩
    have hfile : Recoverable (Whole Storage.allocatePage d) d.bump := ⟨d, .inl rfl, rfl, rfl⟩
    exact Cut.get_bind fun _ => Cut.modify_bind (fun _ => rfl) (Cut.updateMetadata_bind hfile (.pure hbump))
  | @page _ next ids rest hne hm hp hrest =>
  rw [show _ = head from hh, if_neg hne]
  refine Cut.pread_bind hm (.throw hself) ?_
  refine Cut.pure_bind ?_
  have hcount := hp.count
  have hmax := hp.max
  cases ids using List.reverseRecOn with
  | nil =>
    -- the new head is in the file or not
    simp only [Option.map_some, Option.getD_some, hcount, List.length_nil, if_true, hp.next]
    have hfits : Fits (d.withHead next).globalMetadata :=
      ⟨hs.fits.magic, hs.fits.version, hs.fits.root, hp.next_lt, hs.fits.next⟩
    have hhead : Whole Storage.allocatePage d (d.withHead next).saved :=
      .inr ⟨Saved.of_fits hfits, _, allocatePage_head hio hh hne hm hp⟩
    have hfile : Recoverable (Whole Storage.allocatePage d) (d.withHead next) := ⟨d, .inl rfl, rfl, rfl⟩
    exact Cut.modify_bind (fun _ => rfl) (Cut.updateMetadata_bind hfile (.pure hhead))
  | append_singleton ids f =>
    -- the page is in the file without its last entry or not; page 0 stays
    simp only [List.length_append, List.length_singleton] at hcount hmax
    simp only [Option.map_some, Option.getD_some, hcount]
    rw [if_neg (by omega), if_neg (by omega), Nat.add_sub_cancel]
    have hstored : Saved (d.store ((pageAt d head).writeLE 4 4 ids.length) (pageOffset head)) :=
      hs.store h.head_offset
    have hentry : Whole Storage.allocatePage d _ :=
      .inr ⟨hstored.saved_eq.symm ▸ hstored, _, allocatePage_entry hio hh hne hm hp⟩
    have hfile := hstored.saved_eq ▸ hentry
    exact Cut.write_bind hself (Cut.updateMetadata_bind (.self hfile) (.pure hentry))

theorem allocatePage_cut (h : Parts d owned cs) (hs : Saved d) :
    Cut (Good owned) Storage.allocatePage d := by
  refine (allocatePage_whole h hs).mono fun d' hd' => ?_
  rcases hd' with rfl | ⟨hs', f, he⟩
  · exact h.good hs
  · exact h.good_of_allocate he hs'

theorem deallocatePage_whole (h : Parts d owned cs) (hs : Saved d) (hp : p ∈ owned) :
    Cut (fun d' => d' = d.cleared p d.globalMetadata.freelistHead ∨ Whole (Storage.deallocatePage p) d d')
      (Storage.deallocatePage p) d := by
  have hself : Recoverable (fun d' => d' = d.cleared p d.globalMetadata.freelistHead ∨
      Whole (Storage.deallocatePage p) d d') d := .self (.inr (.inl rfl))
  have hio := h.io
  have hc := h.chain
  have hlt : p < 2 ^ 32 := by
    have := h.owned_lt hp
    have := h.next_le
    simp only [MAX_PAGES] at this
    omega
  generalize hh : d.globalMetadata.freelistHead = head at hc hself ⊢
  -- the page is in the file as an empty free-list page or not, then page 0
  have hnew : ∀ ids next, (head ≠ INVALID_PAGE_ID → Mapped d head ∧
        IsListPage (pageAt d head) ids next ∧ ids.length = MAX_FREE_IDS) →
      Cut (fun d' => d' = d.cleared p head ∨ Whole (Storage.deallocatePage p) d d') (do
        let w ← pwrite ((Mem.zero.writeLE 0 4 head).writeLE 4 4 0) (pageOffset p)
        handleWriteError w p
        modify fun d => { d with globalMetadata := { d.globalMetadata with freelistHead := p } }
        updateMetadata) d := by
    intro ids next hfull
    have hfits : Fits ((d.cleared p head).withHead p).globalMetadata :=
      ⟨hs.fits.magic, hs.fits.version, hs.fits.root, hlt, hs.fits.next⟩
    refine Cut.write_bind hself (Cut.modify_bind (fun _ => rfl) (Cut.updateMetadata ?_ (.inr (.inr
      ⟨Saved.of_fits hfits, _, deallocatePage_head hio hh hfull⟩))))
    exact ⟨d.cleared p head, .inl rfl, rfl, rfl⟩
  unfold Storage.deallocatePage
  refine Cut.get_bind fun _ => ?_
  rw [show _ = head from hh]
  cases hc with
  | nil =>
    rw [if_pos rfl]
    exact hnew [] 0 fun hne => absurd rfl hne
  | @page _ next ids rest hne hm hl hrest =>
  rw [if_neg hne]
  refine Cut.pread_bind hm (.throw hself) (Cut.pure_bind ?_)
  simp only [Option.map_some, Option.getD_some, hl.count]
  by_cases hfull : ids.length = MAX_FREE_IDS
  · rw [if_pos hfull]
    exact hnew ids next fun _ => ⟨hm, hl, hfull⟩
  · have hroom : ids.length < MAX_FREE_IDS := Nat.lt_of_le_of_ne hl.max hfull
    rw [if_neg hfull, if_neg (by omega)]
    exact Cut.pwrite_bind (.throw hself) (.pure (.inr (.inr ⟨hs.store h.head_offset, _,
      deallocatePage_entry hio hh hne hm hl hroom⟩)))

theorem deallocatePage_cut (h : Parts d owned cs) (hs : Saved d) (hp : p ∈ owned) :
    Cut (Good (owned.erase p)) (Storage.deallocatePage p) d := by
  have hp0 : pageOffset 0 ≠ pageOffset p := (h.distinct.offset_ne_zero (by simp [hp])).symm
  refine (deallocatePage_whole h hs hp).mono fun d' hd' => ?_
  rcases hd' with rfl | rfl | ⟨hs', _, he⟩
  · exact (h.write hp).erase.good (hs.store hp0)
  · exact h.erase.good hs
  · exact h.good_of_deallocate hp he hs'

theorem writePage_whole {data : Mem} (h : Parts d owned cs) (hs : Saved d) (hp : p ∈ owned) :
    Cut (Whole (writePage p data) d) (writePage p data) d := by
  have hp0 : pageOffset 0 ≠ pageOffset p :=
    (h.distinct.offset_ne_zero (by simp [hp])).symm
  have hlt := (h.owned_lt hp).2
  unfold writePage
  refine Cut.get_bind fun _ => ?_
  rw [if_neg (Nat.not_le.mpr hlt)]
  exact Cut.pwrite_bind (.throw (.self (.inl rfl))) (.pure (.inr ⟨hs.store hp0, _, writePage_ends h.io hlt⟩))

theorem writePage_cut {data : Mem} (h : Parts d owned cs) (hs : Saved d) (hp : p ∈ owned) :
    Cut (Good owned) (writePage p data) d := by
  refine (writePage_whole h hs hp).mono fun d' hd' => ?_
  rcases hd' with rfl | ⟨hs', _, he⟩
  · exact h.good hs
  · obtain ⟨-, rfl⟩ := he.unique (writePage_ends h.io (h.owned_lt hp).2)
    exact (h.write hp).good hs'

/-- A file that is not there yet. -/
def NewFile (d : DiskManager) : Prop := d.size = 0 ∧ d.io = none

/-- The ids in use are not in the chain and page 0 is up to date. -/
def Sound (owned : List Nat) (d : DiskManager) : Prop := Saved d ∧ ∃ cs, Parts d owned cs

/-- The state of a new database on the file of `d`. -/
def created (d : DiskManager) : DiskManager :=
  { d with globalMetadata := ⟨MAGIC_NUMBER, 0, 0, INVALID_PAGE_ID, 1⟩ }

theorem created_parts (hio : d.io = none) : Parts (created d).saved [] [] := by
  refine ⟨hio, Nat.le_refl 1, ?_, .nil, by simp, fun p hp => by simp at hp⟩
  change 1 ≤ MAX_PAGES
  decide

theorem created_sound (hio : d.io = none) : Sound [] (created d).saved := by
  have hg : (created d).globalMetadata = ⟨MAGIC_NUMBER, 0, 0, INVALID_PAGE_ID, 1⟩ := rfl
  have hfits : Fits (created d).globalMetadata := by
    rw [hg]; exact ⟨rfl, by decide, by decide, by decide, by decide⟩
  exact ⟨Saved.of_fits hfits, [], created_parts hio⟩

/-- The constructor on a new file. -/
theorem openFile_new (h : NewFile d) : Ends openFile d ⟨⟩ (created d).saved := by
  unfold openFile
  refine (Ends.get d).bind ?_
  rw [if_pos h.1]
  have hio : (created d).io = none := h.2
  exact (Ends.modify _ d).bind (updateMetadata_ends hio)

/-- The constructor on a new file, cut short: the file is new or holds page 0. -/
theorem openFile_whole (h : NewFile d) :
    Cut (fun d' => d' = (created d).saved ∨ NewFile d') openFile d := by
  unfold openFile
  refine Cut.get_bind fun _ => ?_
  rw [if_pos h.1]
  refine Cut.modify_bind (fun _ => rfl) (Cut.updateMetadata ?_ (.inl rfl))
  exact ⟨d, .inr h, rfl, rfl⟩

end

/-! ## Runs with crashes -/

/-- The manager of an open database. -/
structure Manager where
  disk : DiskManager
  /-- ghost: the ids handed out and not yet passed to `deallocatePage` -/
  owned : List Nat

inductive Call
  | allocate
  | deallocate (p : Nat)
  | write (p : Nat) (data : Mem)

namespace Call

def run : Call → DiskM Unit
  | allocate => allocatePage >>= fun _ => pure ⟨⟩
  | deallocate p => deallocatePage p
  | write p data => writePage p data

/-- The page argument is in use. -/
def Allowed (owned : List Nat) : Call → Prop
  | allocate => True
  | deallocate p => p ∈ owned
  | write p _ => p ∈ owned

/-- The ids in use once the call was started. -/
def left (owned : List Nat) : Call → List Nat
  | allocate => owned
  | deallocate p => owned.erase p
  | write _ _ => owned

end Call

/-- The process is gone; another one opens the file. Its memory is not set. -/
def Reopens (d d' : DiskManager) : Prop :=
  ∃ g, Ends openFile { d with globalMetadata := g, io := none } ⟨⟩ d'

/-- The file after the call was cut after `k` system calls. -/
def cutAfter {α : Type} (x : DiskM α) (k : Nat) (d : DiskManager) : DiskManager :=
  after x { d with io := some k }

inductive Event
  | allocate (p : Nat)
  | deallocate (p : Nat)
  | write (p : Nat) (data : Mem)
  | crash (c : Call) (k : Nat)
  | reopen

inductive CrashStep (s : Manager) : Event → Manager → Prop
  | allocate {p : Nat} {d : DiskManager} (h : Ends allocatePage s.disk p d)
      (hn : d.globalMetadata.nextPageId ≤ MAX_PAGES) : CrashStep s (.allocate p) ⟨d, p :: s.owned⟩
  | deallocate {p : Nat} {d : DiskManager} (hp : p ∈ s.owned)
      (h : Ends (deallocatePage p) s.disk ⟨⟩ d) :
      CrashStep s (.deallocate p) ⟨d, s.owned.erase p⟩
  | write {p : Nat} {data : Mem} {d : DiskManager} (hp : p ∈ s.owned)
      (h : Ends (writePage p data) s.disk ⟨⟩ d) : CrashStep s (.write p data) ⟨d, s.owned⟩
  | crash {c : Call} {k : Nat} {d : DiskManager} (hc : c.Allowed s.owned)
      (h : Reopens (cutAfter c.run k s.disk) d) (hn : d.globalMetadata.nextPageId ≤ MAX_PAGES) :
      CrashStep s (.crash c k) ⟨d, c.left s.owned⟩
  | reopen {d d' : DiskManager} (h : Ends closeFile s.disk ⟨⟩ d) (h' : Reopens d d') :
      CrashStep s .reopen ⟨d', s.owned⟩

/-- Runs from a file that is created, with or without a crash while it is. -/
def crashes : LTS Manager Event where
  init s := s.owned = [] ∧ ∃ d, NewFile d ∧
    (Ends openFile d ⟨⟩ s.disk ∨ ∃ k, Reopens (cutAfter openFile k d) s.disk)
  step := CrashStep

section
variable {d d' : DiskManager} {owned : List Nat} {cs : List (Nat × List Nat)}

theorem Call.run_cut {c : Call} (h : Parts d owned cs) (hs : Saved d) (hc : c.Allowed owned) :
    Cut (Good (c.left owned)) c.run d := by
  cases c with
  | allocate => exact (allocatePage_cut h hs).discard
  | deallocate p => exact deallocatePage_cut h hs hc
  | write p data => exact writePage_cut h hs hc

/-- The file of a saved state opens to that state. -/
theorem Saved.reopens (h : Saved d) (hio : d.io = none) {s : DiskManager} (hf : SameFile d s)
    (d' : DiskManager) : Reopens s d' ↔ d' = d := by
  have he : ∀ g, Ends openFile { s with globalMetadata := g, io := none } ⟨⟩ d := fun g =>
    openFile_ends h hio hf rfl
  constructor
  · intro hr
    obtain ⟨g, hr⟩ := hr
    exact (hr.unique (he g)).2
  · intro e
    subst e
    exact ⟨s.globalMetadata, he _⟩

/-- What a call that returns leaves in memory is in the file. -/
theorem Cut.saved {α : Type} {x : DiskM α} {a : α} (h : Cut (Good owned) x d) (hio : d.io = none)
    (he : Ends x d a d') : Saved d' := by
  have hu : Upto d d := ⟨none, by rw [← hio]⟩
  obtain ⟨d'', hg, n, rfl⟩ := Triple.ends h hu he
  exact ⟨hg.saved.fits, hg.saved.size, hg.saved.page⟩

end

/-- The first process that gets through leaves a database without pages. -/
theorem init_created {s : Manager} (h : crashes.init s) :
    s.owned = [] ∧ ∃ d, NewFile d ∧ s.disk = (created d).saved := by
  obtain ⟨ho, d, hnew, hopen⟩ := h
  refine ⟨ho, ?_⟩
  cases hopen with
  | inl he => exact ⟨d, hnew, (he.unique (openFile_new hnew)).2⟩
  | inr hcrash =>
    obtain ⟨k, hr⟩ := hcrash
    have hcut : Recoverable _ (cutAfter openFile k d) := (openFile_whole hnew).after (some k)
    obtain ⟨d', hd', hf⟩ := hcut
    rcases hd' with rfl | hn
    · have hs := (created_sound hnew.2).1
      exact ⟨d, hnew, (hs.reopens hnew.2 hf _).mp hr⟩
    · obtain ⟨g, he⟩ := hr
      have hn' : NewFile { cutAfter openFile k d with globalMetadata := g, io := none } :=
        ⟨hf.2.trans hn.1, rfl⟩
      exact ⟨_, hn', (he.unique (openFile_new hn')).2⟩

theorem sound_init {s : Manager} (h : crashes.init s) : Sound s.owned s.disk := by
  obtain ⟨ho, d, hnew, hd⟩ := init_created h
  rw [ho, hd]
  exact created_sound hnew.2

theorem Sound.step {s s' : Manager} {e : Event} (h : Sound s.owned s.disk)
    (hs : crashes.step s e s') : Sound s'.owned s'.disk := by
  obtain ⟨hsaved, cs, hp⟩ := h
  cases hs with
  | allocate he hn =>
    obtain ⟨f, d', cs', he', -, -, -, hparts⟩ := hp.allocatePage
    have hs' := (allocatePage_cut hp hsaved).saved hp.io he
    obtain ⟨rfl, rfl⟩ := he.unique he'
    exact ⟨hs', cs', hparts hn⟩
  | deallocate ho he =>
    obtain ⟨d', cs', he', -, -, -, -, hparts⟩ := hp.deallocatePage ho
    have hs' := (deallocatePage_cut hp hsaved ho).saved hp.io he
    obtain ⟨-, rfl⟩ := he.unique he'
    exact ⟨hs', cs', hparts⟩
  | write ho he =>
    have hs' := (writePage_cut hp hsaved ho).saved hp.io he
    obtain ⟨-, rfl⟩ := he.unique (writePage_ends hp.io (hp.owned_lt ho).2)
    exact ⟨hs', cs, hp.write ho⟩
  | crash hc hr hn =>
    -- the file is that of a good state, and opens to it
    obtain ⟨d', hg, hf⟩ := (Call.run_cut hp hsaved hc).after (some _)
    obtain rfl := (hg.saved.reopens hg.io hf _).mp hr
    exact ⟨hg.saved, hg.parts hn⟩
  | reopen he hr =>
    obtain ⟨-, rfl⟩ := he.unique (closeFile_ends hsaved hp.io)
    obtain rfl := (hsaved.reopens hp.io ⟨rfl, rfl⟩ _).mp hr
    exact ⟨hsaved, cs, hp⟩

theorem sound_inductive : crashes.Inductive fun s => Sound s.owned s.disk where
  init _ := sound_init
  step _ _ _ h hs := h.step hs

/-- What survives a crash in the state `s`. -/
structure CrashSafe (s : Manager) : Prop where
  /-- an allocation returns an id that is not in use -/
  allocate : ∃ p d, Ends allocatePage s.disk p d ∧ p ≠ 0 ∧ p ∉ s.owned
  /-- between calls, with or without the destructor, the file opens to the
  state in memory -/
  reopen : ∃ d, Ends closeFile s.disk ⟨⟩ d ∧ (∀ d', Reopens d d' ↔ d' = s.disk) ∧
    ∀ d', Reopens s.disk d' ↔ d' = s.disk
  /-- the file of a call that was cut can be opened -/
  crash : ∀ c : Call, c.Allowed s.owned → ∀ k, ∃ d, Reopens (cutAfter c.run k s.disk) d

/-- In every run with any number of crashes, no id that was handed out and not
given back is handed out again, and a closed file opens to what it was. -/
theorem crash_safe {es : List Event} {s : Manager} (h : crashes.Exec es s) : CrashSafe s := by
  obtain ⟨hsaved, cs, hp⟩ := sound_inductive.exec h
  have hopen := hsaved.reopens hp.io ⟨rfl, rfl⟩
  refine ⟨?_, ⟨s.disk, closeFile_ends hsaved hp.io, hopen, hopen⟩, fun c hc k => ?_⟩
  · obtain ⟨f, d, cs', he, -, -, -, -⟩ := hp.allocatePage
    exact ⟨f, d, he, hp.allocated he⟩
  · obtain ⟨d, hg, hf⟩ := (Call.run_cut hp hsaved hc).after (some k)
    exact ⟨d, (hg.saved.reopens hg.io hf d).mpr rfl⟩

/-- A new database after one allocation. -/
def oneAllocated : DiskManager :=
  after allocatePage (created ⟨⟨0, 0, 0, 0, 0⟩, Mem.zero, 0, none⟩).saved

/-- The only page is given back, and the crash comes between its two writes. -/
theorem crash_safe_deallocate :
    CrashSafe ⟨oneAllocated.cleared 1 INVALID_PAGE_ID, []⟩ := by
  have hnew : NewFile ⟨⟨0, 0, 0, 0, 0⟩, Mem.zero, 0, none⟩ := ⟨rfl, rfl⟩
  have h0 : crashes.Exec [] ⟨(created ⟨⟨0, 0, 0, 0, 0⟩, Mem.zero, 0, none⟩).saved, []⟩ :=
    .nil ⟨rfl, _, hnew, .inl (openFile_new hnew)⟩
  have h1 : crashes.Exec [.allocate 1] ⟨oneAllocated, [1]⟩ :=
    h0.snoc (.allocate rfl (by decide +kernel))
  have hsaved : Saved (oneAllocated.cleared 1 INVALID_PAGE_ID) :=
    (sound_inductive.exec h1).1.store (by decide)
  have hr : Reopens (cutAfter (deallocatePage 1) 1 oneAllocated)
      (oneAllocated.cleared 1 INVALID_PAGE_ID) :=
    (hsaved.reopens rfl ⟨rfl, rfl⟩ _).mpr rfl
  have hstep : crashes.step ⟨oneAllocated, [1]⟩ (.crash (.deallocate 1) 1)
      ⟨oneAllocated.cleared 1 INVALID_PAGE_ID, []⟩ :=
    CrashStep.crash (List.mem_singleton.mpr rfl) hr (by decide +kernel)
  exact crash_safe (h1.snoc hstep)

end DbInternals.Storage.Allocator
