import DbInternals.Storage.AllocatorCrash

/-!
# Disk pages as a page store

What the allocator is for: pages are handed out and given back, the one given back last first, and
a page in use keeps what was written to it. A crash comes before the call it cuts short or behind
it, but for the id that goes with the call: it may belong to nobody then.

Results:
* `pages_refined`: every run of the file, with any number of crashes and restarts, is one of the
  store, and pages read back what the store says;
* `ids_accounted`: a crash loses at most one id, and nothing else does.
-/
namespace DbInternals.Storage.Allocator

open Mem

/-! ## The store -/

structure PageStore where
  owned : List Nat
  /-- a stack -/
  free : List Nat
  next : Nat
  written : Nat → Option Mem

namespace PageStore

/-- The page given back last, else a new one. -/
def allocate (a : PageStore) : Nat × PageStore :=
  match a.free with
  | p :: free => (p, { a with
    owned := p :: a.owned, free, written := Function.update a.written p none })
  | [] => (a.next, { a with
    owned := a.next :: a.owned, next := a.next + 1, written := Function.update a.written a.next none })

def forget (a : PageStore) (p : Nat) : PageStore :=
  { a with owned := a.owned.erase p, written := Function.update a.written p none }

def deallocate (a : PageStore) (p : Nat) : PageStore := { a.forget p with free := p :: a.free }

def write (a : PageStore) (p : Nat) (data : Mem) : PageStore :=
  { a with written := Function.update a.written p (some data) }

/-- What a crash in a call leaves behind: the call is not begun or done. -/
def Crashes (a : PageStore) : Call → PageStore → Prop
  | .allocate, a' => a' = a ∨ a' = { a.allocate.2 with owned := a.owned }
  | .deallocate p, a' => a' = a.forget p ∨ a' = a.deallocate p
  | .write p data, a' => a' = a ∨ a' = a.write p data

end PageStore

/-- The calls and crashes of a run, and what is read. -/
inductive Visit
  | event (e : Event)
  | read (p : Nat) (data : Mem)

inductive StoreStep (a : PageStore) : Visit → PageStore → Prop
  | allocate : StoreStep a (.event (.allocate a.allocate.1)) a.allocate.2
  | deallocate {p : Nat} (hp : p ∈ a.owned) : StoreStep a (.event (.deallocate p)) (a.deallocate p)
  | write {p : Nat} {data : Mem} (hp : p ∈ a.owned) :
      StoreStep a (.event (.write p data)) (a.write p data)
  | crash {c : Call} {k : Nat} {a' : PageStore} (hc : c.Allowed a.owned) (h : a.Crashes c a') :
      StoreStep a (.event (.crash c k)) a'
  | reopen : StoreStep a (.event .reopen) a
  | read {p : Nat} {data : Mem} (hp : p ∈ a.owned)
      (h : ∀ b, a.written p = some b → data = pageOf b) : StoreStep a (.read p data) a

/-- A store without pages; page 0 is not one of them. -/
def pageStore : LTS PageStore Visit where
  init a := a = ⟨[], [], 1, fun _ => none⟩
  step := StoreStep

/-- The runs of `crashes`, with the reads that return. -/
inductive VisitStep (s : Manager) : Visit → Manager → Prop
  | event {e : Event} {s' : Manager} (h : CrashStep s e s') : VisitStep s (.event e) s'
  | read {p : Nat} {data : Mem} {d : DiskManager} (hp : p ∈ s.owned)
      (h : Ends (readPage p) s.disk data d) : VisitStep s (.read p data) ⟨d, s.owned⟩

def visits : LTS Manager Visit where
  init := crashes.init
  step := VisitStep

/-! ## The file holds the store -/

/-- The ids in use, the stack and the written pages are those of the file. -/
structure Stores (s : Manager) (a : PageStore) : Prop where
  saved : Saved s.disk
  owned : a.owned = s.owned
  next : a.next = s.disk.globalMetadata.nextPageId
  free : ∃ cs, Parts s.disk s.owned cs ∧ freeIds cs = a.free
  written : ∀ p data, a.written p = some data →
    p ∈ s.owned ∧ Mapped s.disk p ∧ pageAt s.disk p = pageOf data

section
variable {s s' : Manager} {a : PageStore} {d d' : DiskManager} {owned : List Nat}
  {cs : List (Nat × List Nat)} {p : Nat} {data : Mem}

/-- Pages in use keep their bytes in a call that changes free pages. -/
theorem Stores.kept (h : Stores ⟨d, owned⟩ a) (hp : Parts d owned cs) {fs : List Nat}
    (ht : Taken d d' fs) (hfs : ∀ q ∈ fs, q = p ∨ q ∈ freeIds cs)
    (hpm : p ∈ fs → p ∈ owned ++ freeIds cs) (owned' : List Nat)
    (ho : ∀ q ∈ owned, q ≠ p → q ∈ owned') :
    ∀ q b, Function.update a.written p none q = some b →
      q ∈ owned' ∧ Mapped d' q ∧ pageAt d' q = pageOf b := by
  intro q b hq
  have hqp : q ≠ p := by
    rintro rfl
    rw [Function.update_self] at hq
    cases hq
  rw [Function.update_of_ne hqp] at hq
  obtain ⟨hmem, hm, hpage⟩ := h.written q b hq
  refine ⟨ho q hmem hqp, ht.mapped q hm.1 hm, ?_⟩
  rw [hp.owned_page ht hmem fun r hr => ?_]
  · exact hpage
  · cases hfs r hr with
    | inl e => exact ⟨fun e' => hqp (e'.symm.trans e), e ▸ hpm (e ▸ hr)⟩
    | inr hf => exact ⟨fun e => hp.not_free hmem (e ▸ hf), by simp [hf]⟩

/-- A call of `allocatePage` does what the store does. -/
theorem Stores.allocate (h : Stores ⟨d, owned⟩ a) (he : Ends allocatePage d p d') (hs : Saved d')
    (hn : d'.globalMetadata.nextPageId ≤ MAX_PAGES) :
    p = a.allocate.1 ∧ Stores ⟨d', p :: owned⟩ a.allocate.2 := by
  obtain ⟨cs, hp, hfree⟩ := h.free
  obtain ⟨f, d'', cs', he', ht, -, hids, hparts⟩ := hp.allocatePage
  obtain ⟨rfl, rfl⟩ := he.unique he'
  have hnot : p ∉ owned := (hp.allocated he).2
  have hkept := h.kept (p := p) hp ht (fun q hq => .inr hq) (fun hm => List.mem_append_right _ hm)
    (p :: owned) fun q hq _ => List.mem_cons_of_mem _ hq
  rcases hids with ⟨rfl, rfl, rfl, hnx⟩ | ⟨hpop, hnx⟩
  · have hnil : a.free = [] := hfree.symm
    have hnext : a.next = d.globalMetadata.nextPageId := h.next
    have halloc : a.allocate = (a.next, { a with
        owned := a.next :: a.owned, next := a.next + 1,
        written := Function.update a.written a.next none }) := by
      simp only [PageStore.allocate, hnil]
    rw [halloc, hnext]
    exact ⟨rfl, hs, congrArg _ h.owned, hnx.symm, ⟨_, hparts hn, hnil.symm⟩, hkept⟩
  · have hcons : a.free = p :: freeIds cs' := hfree.symm.trans hpop
    have halloc : a.allocate = (p, { a with
        owned := p :: a.owned, free := freeIds cs', written := Function.update a.written p none }) := by
      simp only [PageStore.allocate, hcons]
    rw [halloc]
    exact ⟨rfl, hs, congrArg _ h.owned, h.next.trans hnx.symm, ⟨_, hparts hn, rfl⟩, hkept⟩

/-- The id that was to be handed out belongs to nobody. -/
theorem Stores.dropped (h : Stores ⟨d', p :: owned⟩ a) (hw : a.written p = none) :
    Stores ⟨d', owned⟩ { a with owned } := by
  obtain ⟨cs, hp, hfree⟩ := h.free
  refine ⟨h.saved, rfl, h.next, ⟨cs, hp.sublist hp.chain (List.sublist_cons_self _ _), hfree⟩,
    fun q b hq => ?_⟩
  obtain ⟨hmem, hm⟩ := h.written q b hq
  refine ⟨(List.mem_cons.mp hmem).resolve_left ?_, hm⟩
  rintro rfl
  rw [show a.written q = none from hw] at hq
  cases hq

theorem allocate_written (a : PageStore) : a.allocate.2.written a.allocate.1 = none := by
  unfold PageStore.allocate
  split
  · exact Function.update_self ..
  · exact Function.update_self ..

theorem mem_erase (hq : p ∈ owned) {r : Nat} (hr : p ≠ r) : p ∈ owned.erase r :=
  (List.mem_erase_of_ne hr).mpr hq

/-- A call of `deallocatePage` does what the store does. -/
theorem Stores.deallocate (h : Stores ⟨d, owned⟩ a) (hmem : p ∈ owned)
    (he : Ends (deallocatePage p) d ⟨⟩ d') (hs : Saved d') :
    Stores ⟨d', owned.erase p⟩ (a.deallocate p) := by
  obtain ⟨cs, hp, hfree⟩ := h.free
  obtain ⟨d'', cs', he', ht, hnx, -, hl, -, hparts⟩ := hp.pushed hmem
  obtain ⟨-, rfl⟩ := he.unique he'
  refine ⟨hs, congrArg (List.erase · p) h.owned, h.next.trans hnx.symm, ⟨cs', hparts, ?_⟩, ?_⟩
  · rw [hl, hfree]
    rfl
  · exact h.kept hp ht (fun q hq => List.mem_cons.mp hq) (fun _ => List.mem_append_left _ hmem) _
      fun q hq hqp => mem_erase hq hqp

/-- A page is given back and not found again. -/
theorem Stores.forgot (h : Stores ⟨d, owned⟩ a) (hmem : p ∈ owned) (data : Mem) :
    Stores ⟨d, owned.erase p⟩ (a.forget p) ∧
      Stores ⟨d.store data (pageOffset p), owned.erase p⟩ (a.forget p) := by
  obtain ⟨cs, hp, hfree⟩ := h.free
  have hself := h.kept (p := p) hp (taken_refl d []) (by simp) (by simp) (owned.erase p)
    fun q hq hqp => mem_erase hq hqp
  refine ⟨⟨h.saved, congrArg (List.erase · p) h.owned, h.next, ⟨cs, hp.erase, hfree⟩, hself⟩, ?_⟩
  have hp0 := (hp.distinct.offset_ne_zero (p := p) (by simp [hmem])).symm
  refine ⟨h.saved.store hp0, congrArg (List.erase · p) h.owned, h.next,
    ⟨cs, (hp.write hmem).erase, hfree⟩, ?_⟩
  have ht : Taken d (d.store data (pageOffset p)) [p] :=
    ⟨rfl, fun q _ hm => hm.store, fun q _ hq => pageAt_store_of_ne (hq p (List.mem_singleton_self p))⟩
  exact h.kept hp ht (fun q hq => .inl (List.mem_singleton.mp hq))
    (fun _ => List.mem_append_left _ hmem) _ fun q hq hqp => mem_erase hq hqp

theorem Stores.write (h : Stores ⟨d, owned⟩ a) (hmem : p ∈ owned) (data : Mem) :
    Stores ⟨d.store data (pageOffset p), owned⟩ (a.write p data) := by
  obtain ⟨cs, hp, hfree⟩ := h.free
  have hp0 := (hp.distinct.offset_ne_zero (p := p) (by simp [hmem])).symm
  refine ⟨h.saved.store hp0, h.owned, h.next, ⟨cs, hp.write hmem, hfree⟩, fun q b hq => ?_⟩
  change Function.update a.written p (some data) q = some b at hq
  by_cases hqp : q = p
  · subst hqp
    rw [Function.update_self] at hq
    cases hq
    exact ⟨hmem, mapped_store (hp.owned_lt hmem).2, pageAt_store rfl⟩
  · rw [Function.update_of_ne hqp] at hq
    obtain ⟨hqm, hm, hpage⟩ := h.written q b hq
    refine ⟨hqm, hm.store, ?_⟩
    rw [pageAt_store_of_ne (hp.distinct.offset_ne (by simp [hqm]) (by simp [hmem]) hqp)]
    exact hpage

/-- A crash, and the next process. -/
theorem Stores.crash (h : Stores s a) {c : Call} {k : Nat} (hc : c.Allowed s.owned)
    (hr : Reopens (cutAfter c.run k s.disk) d) (hn : d.globalMetadata.nextPageId ≤ MAX_PAGES) :
    ∃ a', a.Crashes c a' ∧ Stores ⟨d, c.left s.owned⟩ a' := by
  obtain ⟨d₀, owned⟩ := s
  obtain ⟨cs, hp, -⟩ := h.free
  have hopens : ∀ {d'}, Saved d' → d'.io = none → SameFile d' (cutAfter c.run k d₀) → d = d' :=
    fun hs hio hf => (hs.reopens hio hf _).mp hr
  cases c with
  | allocate =>
    obtain ⟨d', hd', hf⟩ := (allocatePage_whole hp h.saved).discard.after (some k)
    rcases hd' with rfl | ⟨hs', f, he⟩
    · rw [hopens h.saved hp.io hf]
      exact ⟨a, .inl rfl, h⟩
    · obtain ⟨f', d'', -, he', ht, -⟩ := hp.allocatePage
      obtain ⟨-, e⟩ := he.unique he'
      obtain rfl := hopens hs' (e ▸ ht.io.trans hp.io) hf
      obtain ⟨rfl, h'⟩ := h.allocate he hs' hn
      refine ⟨_, .inr rfl, ?_⟩
      rw [show a.owned = owned from h.owned]
      exact h'.dropped (allocate_written a)
  | deallocate p =>
    obtain ⟨d', hd', hf⟩ := (deallocatePage_whole hp h.saved hc).after (some k)
    obtain ⟨hself, hcleared⟩ := h.forgot hc
      ((Mem.zero.writeLE 0 4 d₀.globalMetadata.freelistHead).writeLE 4 4 0)
    rcases hd' with rfl | rfl | ⟨hs', _, he⟩
    · rw [hopens hcleared.saved hp.io hf]
      exact ⟨_, .inl rfl, hcleared⟩
    · rw [hopens h.saved hp.io hf]
      exact ⟨_, .inl rfl, hself⟩
    · have h' := h.deallocate hc he hs'
      obtain ⟨cs', hp', -⟩ := h'.free
      rw [hopens hs' hp'.io hf]
      exact ⟨_, .inr rfl, h'⟩
  | write p data =>
    obtain ⟨d', hd', hf⟩ := (writePage_whole hp h.saved hc).after (some k)
    rcases hd' with rfl | ⟨hs', _, he⟩
    · rw [hopens h.saved hp.io hf]
      exact ⟨a, .inl rfl, h⟩
    · obtain ⟨-, rfl⟩ := he.unique (writePage_ends hp.io (hp.owned_lt hc).2)
      rw [hopens hs' hp.io hf]
      exact ⟨_, .inr rfl, h.write hc data⟩

theorem Stores.init (h : crashes.init s) : ∃ a, pageStore.init a ∧ Stores s a := by
  obtain ⟨ho, d, hnew, hd⟩ := init_created h
  have hs := (created_sound hnew.2).1
  have hp := created_parts hnew.2
  refine ⟨_, rfl, hd ▸ hs, ho.symm, by rw [hd]; rfl, ⟨[], ?_, rfl⟩, fun p data hw => by cases hw⟩
  rw [ho, hd]
  exact hp

theorem Stores.step {v : Visit} (h : Stores s a) (hs : visits.step s v s') :
    ∃ a', pageStore.step a v a' ∧ Stores s' a' := by
  obtain ⟨cs, hp, -⟩ := h.free
  cases hs with
  | read hmem he =>
    obtain rfl := (readPage_same hp.io _).ends rfl he
    refine ⟨a, .read (h.owned ▸ hmem) fun b hb => ?_, h⟩
    obtain ⟨-, hm, hpage⟩ := h.written _ b hb
    exact (he.unique (readPage_ends hp.io hm)).1.trans hpage
  | event hs =>
    cases hs with
    | allocate he hn =>
      obtain ⟨rfl, h'⟩ := h.allocate he ((allocatePage_cut hp h.saved).saved hp.io he) hn
      exact ⟨_, .allocate, h'⟩
    | deallocate hmem he =>
      have hs' := (deallocatePage_cut hp h.saved hmem).saved hp.io he
      exact ⟨_, .deallocate (h.owned ▸ hmem), h.deallocate hmem he hs'⟩
    | write hmem he =>
      obtain ⟨-, rfl⟩ := he.unique (writePage_ends hp.io (hp.owned_lt hmem).2)
      exact ⟨_, .write (h.owned ▸ hmem), h.write hmem _⟩
    | crash hc hr hn =>
      obtain ⟨a', ha, h'⟩ := h.crash hc hr hn
      exact ⟨a', .crash (h.owned ▸ hc) ha, h'⟩
    | reopen he hr =>
      -- the destructor and the constructor leave the state as it is
      obtain ⟨-, rfl⟩ := he.unique (closeFile_ends h.saved hp.io)
      obtain rfl := (h.saved.reopens hp.io ⟨rfl, rfl⟩ _).mp hr
      exact ⟨a, .reopen, h⟩

end

theorem stores_simulates : LTS.Simulates visits pageStore Stores where
  init _ := Stores.init
  step _ _ _ _ h hs := h.step hs

/-- A run of the file is one of the page store: the ids it hands out, the list of free pages on
disk and what the pages hold are those of the store. -/
theorem pages_refined {vs : List Visit} {s : Manager} (h : visits.Exec vs s) :
    ∃ a, pageStore.Exec vs a ∧ a.owned = s.owned ∧ a.next = s.disk.globalMetadata.nextPageId ∧
      FreeList s.disk s.disk.globalMetadata.freelistHead a.free ∧
      ∀ p data, a.written p = some data → Ends (readPage p) s.disk (pageOf data) s.disk := by
  obtain ⟨a, ha, hst⟩ := stores_simulates.exec h
  obtain ⟨cs, hp, hfree⟩ := hst.free
  refine ⟨a, ha, hst.owned, hst.next, ⟨cs, hp.chain, hfree⟩, fun p data hw => ?_⟩
  obtain ⟨-, hm, hpage⟩ := hst.written p data hw
  exact hpage ▸ readPage_ends hp.io hm

/-- A new database with the page 1. -/
theorem exec_oneAllocated : visits.Exec [.event (.allocate 1)] ⟨oneAllocated, [1]⟩ := by
  have hnew : NewFile ⟨⟨0, 0, 0, 0, 0⟩, Mem.zero, 0, none⟩ := ⟨rfl, rfl⟩
  have h0 : visits.Exec [] ⟨(created ⟨⟨0, 0, 0, 0, 0⟩, Mem.zero, 0, none⟩).saved, []⟩ :=
    .nil ⟨rfl, _, hnew, .inl (openFile_new hnew)⟩
  exact h0.snoc (.event (.allocate rfl (by decide +kernel)))

/-- A buffer with one byte set. -/
def oneByte : Mem := Mem.zero.writeLE 0 1 7

def threeAllocated : DiskManager := after allocatePage (after allocatePage oneAllocated)

/-- Page 1 is written, and the crash comes between the two writes that give page 3 back. -/
def crashedDisk : DiskManager :=
  (after (writePage 1 oneByte) threeAllocated).cleared 3 INVALID_PAGE_ID

/-- The next process gives page 2 back. -/
def recycledDisk : DiskManager := after (deallocatePage 2) crashedDisk

/-- Three pages, of which one is written, one is lost in a crash and one is given back after it. -/
def recycled : List Visit :=
  [.event (.allocate 1), .event (.allocate 2), .event (.allocate 3), .event (.write 1 oneByte),
    .event (.crash (.deallocate 3) 1), .event (.deallocate 2), .event .reopen]

theorem exec_recycled : visits.Exec recycled ⟨recycledDisk, [1]⟩ := by
  have h₃ : visits.Exec [.event (.allocate 1), .event (.allocate 2), .event (.allocate 3)]
      ⟨threeAllocated, [3, 2, 1]⟩ :=
    (exec_oneAllocated.snoc (.event (.allocate rfl (by decide +kernel)))).snoc
      (.event (.allocate rfl (by decide +kernel)))
  have hwrite : VisitStep ⟨threeAllocated, [3, 2, 1]⟩ (.event (.write 1 oneByte))
      ⟨after (writePage 1 oneByte) threeAllocated, [3, 2, 1]⟩ := .event (.write (by simp) rfl)
  have h₄ := h₃.snoc hwrite
  have saved : ∀ {vs s}, visits.Exec vs s → Saved s.disk := fun h => by
    obtain ⟨_, -, hst⟩ := stores_simulates.exec h
    exact hst.saved
  have hcleared : Saved crashedDisk := (saved h₄).store (by decide)
  have hcut : Reopens (cutAfter (deallocatePage 3) 1 (after (writePage 1 oneByte) threeAllocated))
      crashedDisk := (hcleared.reopens rfl ⟨rfl, rfl⟩ _).mpr rfl
  have h₅ := h₄.snoc (.event (.crash (c := .deallocate 3) (by simp [Call.Allowed]) hcut
    (by decide +kernel)))
  have h₆ := h₅.snoc (.event (.deallocate (p := 2) (by decide) rfl))
  have hsaved : Saved recycledDisk := saved h₆
  exact h₆.snoc (.event (.reopen (closeFile_ends hsaved rfl)
    ((hsaved.reopens rfl ⟨rfl, rfl⟩ _).mpr rfl)))

/-- The lost page is on no list, and page 1 reads back what was written before the crash. -/
theorem pages_refined_recycled :
    ∃ a, pageStore.Exec recycled a ∧ a.owned = [1] ∧ a.next = 4 ∧ a.free = [2] ∧
      FreeList recycledDisk 2 a.free ∧ a.written 1 = some oneByte ∧
      Ends (readPage 1) recycledDisk (pageOf oneByte) recycledDisk := by
  obtain ⟨a, ha, ho, hn, hfree, hread⟩ := pages_refined exec_recycled
  have hw : a.written 1 = some oneByte ∧ (a.free = [2] ∨ a.free = [2, 3]) := by
    obtain ⟨a₀, rfl, a₁, h₁, a₂, h₂, a₃, h₃, a₄, h₄, a₅, h₅, a₆, h₆, a₇, h₇, rfl⟩ := ha.leads
    cases h₁; cases h₂; cases h₃; cases h₄; cases h₆; cases h₇
    cases h₅ with
    | crash _ hc =>
      rcases hc with rfl | rfl
      · exact ⟨rfl, .inl rfl⟩
      · exact ⟨rfl, .inr rfl⟩
  -- page 2 ends the chain
  have hend : currentIdCount (pageAt recycledDisk 2) = 0 ∧
      nextFreelistPage (pageAt recycledDisk 2) = INVALID_PAGE_ID := by decide +kernel
  have hfree' : a.free = [2] := by
    apply hw.2.resolve_right
    intro h23
    obtain ⟨cs, hc, hids⟩ := hfree
    rw [h23] at hids
    cases hc with
    | @page _ next ids cs _ _ hp hrest =>
      have hnil : ids = [] := List.eq_nil_of_length_eq_zero (hp.count.symm.trans hend.1)
      rw [hp.next.symm.trans hend.2] at hrest
      cases hrest with
      | nil => simp [hnil] at hids
      | page hne => exact hne rfl
  exact ⟨a, ha, ho, hn, hfree', hfree, hw.1, hread 1 oneByte hw.1⟩

/-! ## Where the ids are -/

namespace PageStore

/-- Each id below `next` is in use, free or one of `lost`. -/
def Accounts (a : PageStore) (lost : List Nat) : Prop :=
  1 ≤ a.next ∧ (a.owned ++ a.free ++ lost).Perm (List.range' 1 (a.next - 1))

variable {a a' : PageStore} {lost : List Nat} {p : Nat}

theorem Accounts.allocate (h : a.Accounts lost) : a.allocate.2.Accounts lost := by
  obtain ⟨hpos, hids⟩ := h
  unfold PageStore.allocate
  split
  · next p free hfree =>
    refine ⟨hpos, .trans ?_ hids⟩
    rw [hfree, List.cons_append]
    exact List.perm_middle.symm.append_right lost
  · refine ⟨Nat.succ_pos _, ?_⟩
    obtain ⟨n, hn⟩ := Nat.exists_eq_add_of_le' hpos
    simp only [hn, Nat.add_sub_cancel] at hids ⊢
    calc ((n + 1) :: a.owned ++ a.free ++ lost).Perm (a.owned ++ a.free ++ lost ++ [n + 1]) :=
          (List.perm_append_singleton _ _).symm
      _ |>.Perm (List.range' 1 n ++ [n + 1]) := hids.append_right _
      _ = List.range' 1 (n + 1) := by rw [List.range'_1_concat, Nat.add_comm 1 n]

theorem Accounts.deallocate (h : a.Accounts lost) (hp : p ∈ a.owned) :
    (a.deallocate p).Accounts lost := by
  refine ⟨h.1, .trans (List.Perm.append_right lost ?_) h.2⟩
  calc (a.owned.erase p ++ p :: a.free).Perm (p :: a.owned.erase p ++ a.free) := List.perm_middle
    _ |>.Perm (a.owned ++ a.free) := (List.perm_cons_erase hp).symm.append_right _

/-- An id changes hands to nobody. -/
theorem Accounts.lose (h : a.Accounts lost) {owned free : List Nat}
    (hids : (p :: (owned ++ free)).Perm (a.owned ++ a.free)) (hn : a'.next = a.next)
    (ho : a'.owned = owned) (hf : a'.free = free) : a'.Accounts (p :: lost) := by
  refine ⟨hn ▸ h.1, ?_⟩
  rw [hn, ho, hf]
  exact List.perm_middle.trans ((hids.append_right lost).trans h.2)

theorem Accounts.forget (h : a.Accounts lost) (hp : p ∈ a.owned) :
    (a.forget p).Accounts (p :: lost) :=
  h.lose ((List.perm_cons_erase hp).symm.append_right a.free) rfl rfl rfl

/-- A call cut short loses its id or none. -/
theorem Accounts.crash (h : a.Accounts lost) {c : Call} (hc : c.Allowed a.owned)
    (ha : a.Crashes c a') : ∃ ids, ids.length ≤ 1 ∧ a'.Accounts (ids ++ lost) := by
  cases c with
  | allocate =>
    rcases ha with rfl | rfl
    · exact ⟨[], Nat.zero_le 1, h⟩
    · have hids : (a.allocate.1 :: (a.owned ++ a.allocate.2.free)).Perm
          (a.allocate.2.owned ++ a.allocate.2.free) := by
        unfold PageStore.allocate
        split <;> exact .refl _
      exact ⟨[a.allocate.1], Nat.le_refl 1, h.allocate.lose hids rfl rfl rfl⟩
  | deallocate p =>
    rcases ha with rfl | rfl
    · exact ⟨[p], Nat.le_refl 1, h.forget hc⟩
    · exact ⟨[], Nat.zero_le 1, h.deallocate hc⟩
  | write p data =>
    refine ⟨[], Nat.zero_le 1, ?_⟩
    rcases ha with rfl | rfl <;> exact h

end PageStore

def Visit.isCrash : Visit → Bool
  | event (.crash ..) => true
  | _ => false

theorem accounts_exec {vs : List Visit} {a : PageStore} (h : pageStore.Exec vs a) :
    ∃ lost, a.Accounts lost ∧ lost.length ≤ vs.countP Visit.isCrash := by
  induction h with
  | nil h0 => exact ⟨[], h0 ▸ ⟨Nat.le_refl 1, .nil⟩, Nat.zero_le _⟩
  | @snoc vs a a' v _ hs ih =>
    obtain ⟨lost, ha, hle⟩ := ih
    rw [List.countP_append, List.countP_singleton]
    have hle' : lost.length ≤ vs.countP Visit.isCrash + if v.isCrash then 1 else 0 := by omega
    cases hs with
    | allocate => exact ⟨lost, ha.allocate, hle'⟩
    | deallocate hp => exact ⟨lost, ha.deallocate hp, hle'⟩
    | write => exact ⟨lost, ha, hle'⟩
    | reopen => exact ⟨lost, ha, hle'⟩
    | read => exact ⟨lost, ha, hle'⟩
    | crash hc hcr =>
      obtain ⟨ids, hids, ha'⟩ := ha.crash hc hcr
      refine ⟨ids ++ lost, ha', ?_⟩
      rw [List.length_append]
      simp only [Visit.isCrash, if_true]
      omega

/-- After every run the ids of the file are those in use, those on the free list and the lost ones,
each once; no more are lost than there were crashes. -/
theorem ids_accounted {vs : List Visit} {s : Manager} (h : visits.Exec vs s) :
    ∃ free lost, FreeList s.disk s.disk.globalMetadata.freelistHead free ∧
      (s.owned ++ free ++ lost).Perm (List.range' 1 (s.disk.globalMetadata.nextPageId - 1)) ∧
      lost.length ≤ vs.countP Visit.isCrash := by
  obtain ⟨a, ha, hst⟩ := stores_simulates.exec h
  obtain ⟨cs, hp, hfree⟩ := hst.free
  obtain ⟨lost, hacc, hle⟩ := accounts_exec ha
  refine ⟨a.free, lost, ⟨cs, hp.chain, hfree⟩, ?_, hle⟩
  rw [← hst.owned, ← hst.next]
  exact hacc.2

/-- The page 1 is given back, and the crash comes before it is on the list. -/
theorem ids_accounted_lost :
    ∃ free lost, FreeList (oneAllocated.cleared 1 INVALID_PAGE_ID) INVALID_PAGE_ID free ∧
      ([] ++ free ++ lost).Perm [1] ∧ lost.length ≤ 1 := by
  have hsaved : Saved (oneAllocated.cleared 1 INVALID_PAGE_ID) := by
    obtain ⟨a, -, hst⟩ := stores_simulates.exec exec_oneAllocated
    exact hst.saved.store (by decide)
  have hr : Reopens (cutAfter (deallocatePage 1) 1 oneAllocated)
      (oneAllocated.cleared 1 INVALID_PAGE_ID) :=
    (hsaved.reopens rfl ⟨rfl, rfl⟩ _).mpr rfl
  have hcrash : VisitStep ⟨oneAllocated, [1]⟩ (.event (.crash (.deallocate 1) 1))
      ⟨oneAllocated.cleared 1 INVALID_PAGE_ID, []⟩ :=
    .event (CrashStep.crash (List.mem_singleton.mpr rfl) hr (by decide +kernel))
  exact ids_accounted (exec_oneAllocated.snoc hcrash)

end DbInternals.Storage.Allocator
