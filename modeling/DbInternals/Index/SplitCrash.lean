import DbInternals.Index.TreeCuts
import DbInternals.Index.TreeRuns

/-!
# A leaf split cut short

`splitChild` writes the leaf first, without its upper half, then the fresh
page with it, then the old right sibling and the levels above. A cut is a run
that has `k` system calls left when it starts.

Results:
* `splitChild_eq`: the calls up to the write of the leaf, and those after it;
* `split_keeps_records`: every record is still on a leaf to the right of the
  first one, wherever the split is cut but between its first two page writes;
* `exec_treeFile`: the trees of runs are such files;
* `split_loses_records`: cut there, the upper half of the leaf is gone.
-/
namespace DbInternals.Index

open Storage SlottedPage Mem
open Allocator (Upto)

/-! ## Leaves in a row -/

/-- A leaf page with this right sibling. -/
structure LeafAt (data : Mem) (right : Nat) : Prop where
  valid : Valid data
  type : getPageType data = .leafPage
  right : getRightSibling data = right

/-- Each page is a leaf with the next one on its right. -/
def Row (c : Nat → Mem) : List Nat → Prop
  | [] => True
  | p :: ls => LeafAt (c p) (nextOf ls) ∧ Row c ls

/-- The record is live on one of the pages. -/
def Stored (c : Nat → Mem) (ls : List Nat) (b : Bytes) : Prop := ∃ p ∈ ls, .live b ∈ entries (c p)

def LeafPage (s : TreeState) (p : Nat) : Prop :=
  Mapped s.diskManager p ∧ getPageType (s.page p) = .leafPage

/-- The leaves one finds from `first` on by right siblings. -/
inductive RightOf (s : TreeState) (first : Nat) : Nat → Prop
  | first (h : LeafPage s first) : RightOf s first first
  | next {p : Nat} (h : RightOf s first p) (hne : getRightSibling (s.page p) ≠ INVALID_PAGE_ID)
      (hl : LeafPage s (getRightSibling (s.page p))) :
      RightOf s first (getRightSibling (s.page p))

/-- Some slot of one of these leaves holds the record. -/
def Recorded (s : TreeState) (first : Nat) (b : Bytes) : Prop :=
  ∃ p, RightOf s first p ∧ ∃ i, recordBytes (s.page p) i = some b

section
variable {c : Nat → Mem} {ls : List Nat} {s : TreeState} {first p f right : Nat} {b : Bytes}
  {data lower upper : Mem}

theorem LeafAt.node (h : LeafAt data right) (w : Nat) :
    NodeAt False w data (.leaf (entries data) (getLeftSibling data) right) :=
  ⟨h.valid, False.elim, h.type, rfl, rfl, h.right⟩

theorem LeafAt.pageOf (h : LeafAt data right) : LeafAt (pageOf data) right := by
  obtain ⟨h1, -, h2, -, -, h3⟩ := (h.node 0).pageOf
  exact ⟨h1, h2, h3⟩

theorem Row.congr {c' : Nat → Mem} : ∀ {ls : List Nat}, Row c ls → (∀ p ∈ ls, c' p = c p) → Row c' ls
  | [], _, _ => trivial
  | p :: _, ⟨h, hr⟩, hc => ⟨hc p List.mem_cons_self ▸ h,
      hr.congr fun q hq => hc q (List.mem_cons_of_mem _ hq)⟩

theorem Row.leafAt : ∀ (a : List Nat) {d : List Nat}, Row c (a ++ p :: d) → LeafAt (c p) (nextOf d)
  | [], _, h => h.1
  | _ :: a, _, h => Row.leafAt a h.2

/-- A leaf is replaced by two. -/
theorem Row.split (hl : LeafAt lower f) (hu : LeafAt upper (getRightSibling (c p))) (hfp : f ≠ p) :
    ∀ (a : List Nat) {d : List Nat}, Row c (a ++ p :: d) → (a ++ p :: d).Nodup → f ∉ a ++ p :: d →
    Row (Function.update (Function.update c p lower) f upper) (a ++ p :: f :: d)
  | [], d, h, hnd, hf => by
    simp only [List.nil_append, List.mem_cons, not_or] at hf
    obtain ⟨hpd, -⟩ := List.nodup_cons.mp hnd
    have hright := h.1.right
    refine ⟨?_, ?_, h.2.congr fun q hq => ?_⟩
    · rw [Function.update_of_ne (Ne.symm hfp), Function.update_self]
      exact hl
    · rw [Function.update_self]
      exact hright ▸ hu
    · have hqf : q ≠ f := fun e => hf.2 (e ▸ hq)
      have hqp : q ≠ p := fun e => hpd (e ▸ hq)
      rw [Function.update_of_ne hqf, Function.update_of_ne hqp]
  | q :: a, d, h, hnd, hf => by
    obtain ⟨hq, hnd'⟩ := List.nodup_cons.mp hnd
    simp only [List.cons_append, List.mem_cons, not_or] at hf
    refine ⟨?_, Row.split hl hu hfp a h.2 hnd' hf.2⟩
    have hnext : nextOf (a ++ p :: f :: d) = nextOf (a ++ p :: d) := by cases a <;> rfl
    have hqp : q ≠ p := fun e => hq (by rw [e]; simp)
    rw [Function.update_of_ne (Ne.symm hf.1), Function.update_of_ne hqp]
    change LeafAt (c q) (nextOf (a ++ p :: f :: d))
    exact hnext ▸ h.1

/-- A leaf gets another left sibling. -/
theorem Row.relink (hd : LeafAt data (getRightSibling (c p))) : ∀ {ls : List Nat}, Row c ls →
    Row (Function.update c p data) ls
  | [], _ => trivial
  | q :: ls, ⟨h, hr⟩ => by
    refine ⟨?_, hr.relink hd⟩
    by_cases hq : q = p
    · subst hq
      rw [Function.update_self, ← h.right]
      exact hd
    · rw [Function.update_of_ne hq]
      exact h

theorem Stored.split {a d : List Nat} (h : Stored c (a ++ p :: d) b) (hf : f ∉ a ++ p :: d)
    (hd : .live b ∈ entries (c p) → .live b ∈ entries lower ∨ .live b ∈ entries upper) :
    Stored (Function.update (Function.update c p lower) f upper) (a ++ p :: f :: d) b := by
  obtain ⟨q, hq, hb⟩ := h
  have hqf : q ≠ f := fun e => hf (e ▸ hq)
  have hpf : p ≠ f := fun e => hf (by rw [← e]; simp)
  by_cases hqp : q = p
  · subst hqp
    cases hd hb with
    | inl h => exact ⟨q, by simp, by rwa [Function.update_of_ne hpf, Function.update_self]⟩
    | inr h => exact ⟨f, by simp, by rwa [Function.update_self]⟩
  · refine ⟨q, ?_, by rwa [Function.update_of_ne hqf, Function.update_of_ne hqp]⟩
    simp only [List.mem_append, List.mem_cons] at hq ⊢
    exact hq.imp_right fun h => .inr (.inr (h.resolve_left hqp))

theorem Stored.relink (h : Stored c ls b) (hd : entries data = entries (c p)) :
    Stored (Function.update c p data) ls b := by
  obtain ⟨q, hq, hb⟩ := h
  refine ⟨q, hq, ?_⟩
  by_cases hqp : q = p
  · subst hqp
    rwa [Function.update_self, hd]
  · rwa [Function.update_of_ne hqp]

/-- The row is what one finds on disk. -/
theorem Row.rightOf (hn : nextId s ≤ MAX_PAGES) : ∀ {ls : List Nat} {p : Nat}, Row c (p :: ls) →
    Shows (p :: ls) c s.diskManager → RightOf s first p → ∀ q ∈ p :: ls, RightOf s first q
  | [], p, _, _, hp, q, hq => by
    rw [List.mem_singleton.mp hq]
    exact hp
  | r :: ls, p, ⟨h, hr⟩, hs, hp, q, hq => by
    rcases List.mem_cons.mp hq with rfl | hq
    · exact hp
    obtain ⟨hm, hc⟩ := hs r (by simp)
    have hright : getRightSibling (s.page p) = r := by
      rw [TreeState.page, (hs p List.mem_cons_self).2]
      exact h.right
    refine Row.rightOf hn hr (fun x hx => hs x (List.mem_cons_of_mem _ hx)) ?_ q hq
    have hlt : r < 2 ^ 20 := Nat.lt_of_lt_of_le hm.1 hn
    rw [← hright]
    refine hp.next ?_ ?_
    all_goals rw [hright]
    · simp only [INVALID_PAGE_ID, ne_eq]
      omega
    · exact ⟨hm, by rw [TreeState.page, hc]; exact hr.1.type⟩

theorem Row.recorded (h : Row c ls) (hs : Shows ls c s.diskManager) (hn : nextId s ≤ MAX_PAGES)
    (hf : ls.head? = some first) (hb : Stored c ls b) : Recorded s first b := by
  cases ls with
  | nil => cases hf
  | cons p ls =>
    obtain rfl : p = first := by simpa using hf
    obtain ⟨q, hq, hlive⟩ := hb
    obtain ⟨hm, hc⟩ := hs p List.mem_cons_self
    have hp : RightOf s p p := .first ⟨hm, by rw [TreeState.page, hc]; exact h.1.type⟩
    obtain ⟨a, d, e⟩ := List.append_of_mem hq
    have hleaf : LeafAt (c q) (nextOf d) := Row.leafAt a (e ▸ h)
    obtain ⟨i, hi⟩ := List.getElem?_of_mem hlive
    refine ⟨q, Row.rightOf hn h hs hp q hq, i, ?_⟩
    rw [TreeState.page, (hs q hq).2, recordBytes_eq hleaf.valid, hi]
    rfl

end

/-! ## The file of a tree -/

/-- The pages of a tree: the free ids are not among them, every child is, and
the leaves form one row. -/
structure TreeFile (s : TreeState) (pages leaves free : List Nat) : Prop where
  io : s.diskManager.io = none
  pos : 1 ≤ nextId s
  next_le : nextId s ≤ MAX_PAGES
  freeList : FreeList s.diskManager s.diskManager.globalMetadata.freelistHead free
  nodup : free.Nodup
  range : ∀ p, p ∈ pages ∨ p ∈ free → 1 ≤ p ∧ p < nextId s
  apart : ∀ p ∈ free, p ∉ pages
  mapped : ∀ p ∈ pages, Mapped s.diskManager p
  root : s.rootPageId ∈ pages
  child : ∀ p ∈ pages, getPageType (s.page p) ≠ .leafPage → ∀ i q,
    childPageId (s.page p) (2 * i + 1) = .ok q → q ∈ pages
  leaf : ∀ p, p ∈ leaves ↔ p ∈ pages ∧ getPageType (s.page p) = .leafPage
  row : Row s.page leaves
  leaves_nodup : leaves.Nodup

/-- The pages above the leaves. -/
def upperPages (pages leaves : List Nat) : List Nat := pages.filter fun p => decide (p ∉ leaves)

theorem mem_upperPages {pages leaves : List Nat} {p : Nat} :
    p ∈ upperPages pages leaves ↔ p ∈ pages ∧ p ∉ leaves := by
  simp [upperPages]

section
variable {t : TreeConfig} {s : TreeState} {pages leaves free : List Nat} {target : Key}

theorem TreeFile.guarded (h : TreeFile s pages leaves free) :
    Guarded (upperPages pages leaves) leaves s.page free s.diskManager where
  pos := h.pos
  next_le := h.next_le
  freeList := h.freeList
  nodup := h.nodup
  range p hp := by
    apply h.range p
    rcases hp with hp | hp | hp
    · exact .inl (mem_upperPages.mp hp).1
    · exact .inl ((h.leaf p).mp hp).1
    · exact .inr hp
  free p hp := ⟨fun hw => h.apart p hp (mem_upperPages.mp hw).1,
    fun hl => h.apart p hp ((h.leaf p).mp hl).1⟩
  apart p hp := (mem_upperPages.mp hp).2
  shows p hp := ⟨h.mapped p ((h.leaf p).mp hp).1, rfl⟩

/-- The child is in the second slot of a pair. -/
theorem childSlot_odd {data : Mem} {slot : Nat} (h : childSlot t data target = .ok slot) :
    ∃ i, slot = 2 * i + 1 := by
  unfold childSlot at h
  dsimp only at h
  generalize Search.bisectM _ _ _ _ = r at h
  cases r with
  | error e => cases h
  | ok lo =>
    cases h
    exact ⟨if lo > 0 then lo - 1 else 0, by omega⟩

/-- The descent stays on pages of the tree, and the stack on those above the leaves. -/
theorem descend_cut (h : TreeFile s pages leaves free) : ∀ (fuel p : Nat) (bt : BTStack),
    p ∈ pages → (∀ b ∈ bt, b.pageId ∈ upperPages pages leaves) →
    Triple (OnDisk s.diskManager) (descend t target fuel p (s.page p) bt)
      (fun x s' => (x.1 ∈ leaves ∧ (∀ b ∈ x.2.2, b.pageId ∈ upperPages pages leaves) ∧
        x.2.2.length ≤ bt.length + fuel) ∧ OnDisk s.diskManager s') (OnDisk s.diskManager)
  | 0, _, _, _, _ => Triple.throw fun _ h => h
  | fuel + 1, p, bt, hp, hbt => by
    unfold descend
    refine Triple.ite (fun htype => ?_) fun htype => ?_
    · exact Triple.pure fun _ hs => ⟨⟨(h.leaf p).mpr ⟨hp, htype⟩, hbt, Nat.le_add_right _ _⟩, hs⟩
    · refine buf_bind (fun _ h => h) fun slot hslot => buf_bind (fun _ h => h) fun q hq => ?_
      obtain ⟨i, rfl⟩ := childSlot_odd hslot
      have hqp := h.child p hp htype i q hq
      apply OnDisk.read_bind (h.mapped q hqp) (fun _ h => h)
      have hp' : p ∈ upperPages pages leaves :=
        mem_upperPages.mpr ⟨hp, fun hl => htype ((h.leaf p).mp hl).2⟩
      refine (descend_cut h fuel q _ hqp fun b hb => ?_).conseq (fun _ h => h)
        (fun x s' hx => ?_) fun _ h => h
      · rcases List.mem_cons.mp hb with rfl | hb
        · exact hp'
        · exact hbt b hb
      · obtain ⟨⟨h1, h2, h3⟩, hs⟩ := hx
        rw [List.length_cons] at h3
        exact ⟨⟨h1, h2, by omega⟩, hs⟩

theorem findRecord_cut (h : TreeFile s pages leaves free) :
    Triple (fun s' => s'.rootPageId = s.rootPageId ∧ OnDisk s.diskManager s') (findRecord t target)
      (fun m s' => (m.leafPage ∈ leaves ∧ (∀ b ∈ m.btStack, b.pageId ∈ upperPages pages leaves) ∧
        m.btStack.length ≤ nextId s + 1) ∧ OnDisk s.diskManager s') (OnDisk s.diskManager) := by
  unfold findRecord
  apply Triple.get_bind
  intro s₀ hs₀
  rw [hs₀.1]
  refine Triple.conseq (P := OnDisk s.diskManager) ?_ (fun _ e => e ▸ hs₀.2) (fun _ _ h => h) fun _ h => h
  refine OnDisk.read_bind (h.mapped _ h.root) (fun _ h => h) (Triple.get_bind fun s₁ hs₁ => ?_)
  have hnext : s₁.diskManager.globalMetadata.nextPageId = nextId s := by
    obtain ⟨n, hn⟩ := hs₁
    rw [hn]
    rfl
  rw [hnext]
  refine Triple.conseq (P := OnDisk s.diskManager) ?_ (fun _ e => e ▸ hs₁) (fun _ _ h => h) fun _ h => h
  apply Triple.bind (descend_cut h (nextId s + 1) s.rootPageId [] h.root (by simp))
  intro x
  apply Triple.of_state
  intro s₂ hs₂
  obtain ⟨⟨h1, h2, h3⟩, hs₂⟩ := hs₂
  refine Triple.conseq (P := OnDisk s.diskManager) ?_ (fun _ e => e ▸ hs₂) (fun _ _ h => h) fun _ h => h
  refine buf_bind (fun _ h => h) fun slot _ => Triple.pure fun _ hs => ⟨⟨h1, h2, ?_⟩, hs⟩
  simpa using h3

end

/-! ## The two parts of a split -/

/-- Where the upper half of a leaf went; it is not in the file yet. -/
structure Moved where
  leafPage : Nat
  freshPageId : Nat
  rightSiblingId : Nat
  newPage : Mem

/-- `splitLeaf` up to the write of the leaf. -/
def moveUpper (leafPage : Nat) : TreeM Moved := do
  let freshPageId ← disk allocatePage
  let childPage ← disk (readPage leafPage)
  let slotCount := getSlotCount childPage
  let pivot ← buf (walkPivot childPage (2 ^ 16) (slotCount / 2))
  let rightSiblingId := getRightSibling childPage
  let childPage := setRightSibling childPage freshPageId
  let newPage := init Mem.zero freshPageId .leafPage
  let newPage := setRightSibling (setLeftSibling newPage leafPage) rightSiblingId
  let (childPage, newPage) ← buf (moveRecords (slotCount - pivot) pivot childPage newPage)
  disk (writePage leafPage (compactify childPage))
  return { leafPage, freshPageId, rightSiblingId, newPage }

section
variable (t : TreeConfig)

/-- `splitChild` up to its first page write. -/
def splitLower (child : Key) : TreeM Moved := do
  let childMetadata ← findRecord t child
  moveUpper childMetadata.leafPage

/-- `splitChild` after its second page write. -/
def linkUp (btStack : BTStack) (m : Moved) : TreeM Nat := do
  if m.rightSiblingId ≠ INVALID_PAGE_ID then
    let rightSibling ← disk (readPage m.rightSiblingId)
    disk (writePage m.rightSiblingId (setLeftSibling rightSibling m.freshPageId))
  wireUp t btStack m.leafPage (keyAt t m.newPage 0) m.freshPageId
  return m.freshPageId

/-- `splitChild` from its second page write on. -/
def splitUpper (btStack : BTStack) (m : Moved) : TreeM Nat := do
  disk (writePage m.freshPageId m.newPage)
  linkUp t btStack m

theorem splitChild_eq (btStack : BTStack) (child : Key) : splitChild t btStack child =
    splitLower t child >>= splitUpper t btStack := by
  simp only [splitChild, splitLower, splitLeaf, moveUpper, splitUpper, linkUp, bind_assoc,
    pure_bind]
  refine bind_congr fun _ => bind_congr fun _ => bind_congr fun _ => bind_congr fun _ => ?_
  refine bind_congr fun _ => bind_congr fun _ => bind_congr fun _ => ?_
  split
  · simp only [bind_assoc, pure_bind]
  · rfl

end

/-- The records of a leaf page are on its two halves. -/
structure Parted (data lower upper : Mem) (fresh : Nat) : Prop where
  left : LeafAt lower fresh
  right : LeafAt upper (getRightSibling data)
  records : ∀ b, .live b ∈ entries data → .live b ∈ entries lower ∨ .live b ∈ entries upper

/-- The lower half is written over the leaf `p`, and the fresh page may be written. -/
structure LowerWritten (W ls : List Nat) (c : Nat → Mem) (p : Nat) (m : Moved) (s : TreeState) :
    Prop where
  leaf : m.leafPage = p
  right : m.rightSiblingId = getRightSibling (c p)
  fresh : m.freshPageId ∉ W ∧ m.freshPageId ∉ ls
  written : ∃ lower fs, Parted (c p) lower (pageOf m.newPage) m.freshPageId ∧
    Guarded (m.freshPageId :: W) ls (Function.update c p lower) fs s.diskManager

/-- While the ids last, the records of the row are found from its first leaf on. -/
def Kept (c : Nat → Mem) (ls : List Nat) (first : Nat) (s : TreeState) : Prop :=
  nextId s ≤ MAX_PAGES → ∀ b, Stored c ls b → Recorded s first b

section
variable {t : TreeConfig} {W ls fs : List Nat} {c : Nat → Mem} {d : DiskManager} {s : TreeState}
  {p f first right : Nat} {data : Mem} {m : Moved} {bt : BTStack}

theorem Intact.kept (h : Intact ls c s) (hrow : Row c ls) (hf : ls.head? = some first) :
    Kept c ls first s := fun hn _ hb => hrow.recorded (h hn) hn hf hb

theorem walkPivot_lt (hv : Valid data) {fuel p r : Nat} (h : walkPivot data fuel p = .ok r) :
    r < (entries data).length := by
  obtain ⟨b, hb⟩ := live_of_record hv (walkPivot_ok h)
  exact (List.getElem?_eq_some_iff.mp hb).1

/-- The two halves the loop makes. -/
theorem moveRecords_parted (h : LeafAt data right) (hf : f < 2 ^ 32) (hp : p < 2 ^ 32) {pivot : Nat}
    (hpv : pivot ≤ (entries data).length) : ∃ d₁ d₂,
    moveRecords ((entries data).length - pivot) pivot (setRightSibling data f)
      (setRightSibling (setLeftSibling (init Mem.zero f .leafPage) p) right) = .ok (d₁, d₂) ∧
      Parted data (pageOf (compactify d₁)) (pageOf d₂) f := by
  obtain ⟨d₁, d₂, e, h₁, h₂⟩ := splitPages_spec (t := {}) (h.node _) hf hp hpv
  obtain ⟨v₁, -, y₁, e₁, -, r₁⟩ := h₁.pageOf
  obtain ⟨v₂, -, y₂, e₂, -, r₂⟩ := h₂.pageOf
  refine ⟨d₁, d₂, e, ⟨v₁, y₁, r₁⟩, ⟨v₂, y₂, r₂.trans h.right.symm⟩, fun b hb => ?_⟩
  rw [e₁, e₂]
  rw [← List.take_append_drop pivot (entries data), List.mem_append] at hb
  exact hb.imp (fun h => List.mem_filter.mpr ⟨h, rfl⟩) fun h => List.mem_filter.mpr ⟨h, rfl⟩

theorem moveUpper_cut (h : Guarded W ls c fs d) (hp : p ∈ ls) (hleaf : LeafAt (c p) right) :
    Triple (OnDisk d) (moveUpper p)
      (fun m s => nextId s ≤ MAX_PAGES → LowerWritten W ls c p m s) (Intact ls c) := by
  unfold moveUpper
  refine OnDisk.alloc_bind (k := 0) h (fun f => ?_) (by decide)
    (fun _ _ hn hle => absurd hle (Nat.not_le.mpr hn)) (fun _ h => h) fun f fs' d' hW hls h' => ?_
  · exact .bind_zero (.readPage _) fun _ => .bind_zero (.buf _) fun _ => .bind_zero (.buf _) fun _ =>
      .bind_zero (.writePage _ _) fun _ => .pure _
  have hintact : ∀ s, OnDisk d' s → Intact ls c s := fun s hs _ => (h'.upto hs).shows
  obtain ⟨hm, hc⟩ := h'.shows p hp
  have hmax : MAX_PAGES = 2 ^ 20 := rfl
  have hn := h'.next_le
  have hf32 := (h'.range f (.inl List.mem_cons_self)).2
  have hp32 := (h'.range p (.inr (.inl hp))).2
  apply OnDisk.read_bind hm hintact
  rw [hc, hleaf.right, show getSlotCount (c p) = (entries (c p)).length from (length_entries _).symm]
  apply buf_bind hintact
  intro pivot hpivot
  obtain ⟨d₁, d₂, e, hparted⟩ := moveRecords_parted hleaf (f := f) (p := p) (by omega) (by omega)
    (Nat.le_of_lt (walkPivot_lt hleaf.valid hpivot))
  dsimp only
  rw [e]
  apply buf_bind hintact
  intro _ he
  cases he
  refine OnDisk.write_bind hp32 hintact (Triple.pure fun s hs _ => ?_)
  have hnot : ∀ q ∈ f :: W, q ∈ f :: W ∧ q ≠ p := fun q hq =>
    ⟨hq, fun e => h'.apart q hq (e ▸ hp)⟩
  exact ⟨rfl, hleaf.right.symm, ⟨hW, hls⟩, _, fs', hparted,
    (h'.put (.inr hp) _ hnot fun q hq => .inr hq).upto hs⟩

/-- From the second page write on nothing is lost. -/
theorem linkUp_cut (h : Guarded W ls c fs d) (hrow : Row c ls) (hf : ls.head? = some first)
    (hr : m.rightSiblingId = INVALID_PAGE_ID ∨ m.rightSiblingId ∈ ls) (hfresh : m.freshPageId ∈ ls)
    (hW : ∀ b ∈ bt, b.pageId ∈ W) (hlen : bt.length < 2 ^ 31) :
    Triple (OnDisk d) (linkUp t bt m) (fun _ => Kept c ls first) (Kept c ls first) := by
  -- the way up from any row with the same records
  have hup : ∀ (c' : Nat → Mem) (d' : DiskManager), Guarded W ls c' fs d' → Row c' ls →
      (∀ b, Stored c ls b → Stored c' ls b) → Triple (OnDisk d') (do
        wireUp t bt m.leafPage (keyAt t m.newPage 0) m.freshPageId
        return m.freshPageId) (fun _ => Kept c ls first) (Kept c ls first) := by
    intro c' d' h' hrow' hsub
    have hkept : ∀ s, Intact ls c' s → Kept c ls first s := fun s hs hn b hb =>
      hs.kept hrow' hf hn b (hsub b hb)
    refine Triple.bind ((wireUp_cut bt hW hlen _ _ _).conseq (fun s hs => .inr ⟨fs, h'.upto hs⟩)
      (fun _ => hkept) hkept) fun _ => Triple.pure fun _ h => h
  have hkept : ∀ s, OnDisk d s → Kept c ls first s := fun s hs =>
    Intact.kept (fun _ => (h.upto hs).shows) hrow hf
  unfold linkUp
  by_cases hinv : m.rightSiblingId = INVALID_PAGE_ID
  · rw [if_neg (not_not.mpr hinv)]
    exact hup c d h hrow fun _ hb => hb
  · have hrl := hr.resolve_left hinv
    obtain ⟨hm, hc⟩ := h.shows m.rightSiblingId hrl
    have hmax : MAX_PAGES = 2 ^ 20 := rfl
    have hn := h.next_le
    have hf32 := (h.range m.freshPageId (.inr (.inl hfresh))).2
    obtain ⟨a, b, e⟩ := List.append_of_mem hrl
    have hleaf : LeafAt (c m.rightSiblingId) (nextOf b) := Row.leafAt a (e ▸ hrow)
    obtain ⟨s₁, s₂, -, s₄, -, s₆⟩ := setLeft_spec (v := m.freshPageId) hleaf.valid (by omega)
    have hleft : LeafAt (setLeftSibling (c m.rightSiblingId) m.freshPageId)
        (getRightSibling (c m.rightSiblingId)) := ⟨s₂, s₄.trans hleaf.type, s₆⟩
    rw [if_pos hinv]
    apply OnDisk.read_bind hm hkept
    rw [hc]
    apply OnDisk.write_bind (h.range _ (.inr (.inl hrl))).2 hkept
    refine hup _ _ (h.put (.inr hrl) _ (fun q hq => ⟨hq, fun e => h.apart q hq (e ▸ hrl)⟩)
      fun q hq => .inr hq) (hrow.relink hleft.pageOf) fun b hb => hb.relink ?_
    exact (pageOf_congr hleft.valid).1.trans s₁

/-- Once a system call is left for the fresh page, nothing is lost. -/
theorem splitUpper_cut (hrow : Row c ls) (hnd : ls.Nodup) (hp : p ∈ ls) (hf : ls.head? = some first)
    (h : LowerWritten W ls c p m s) (hio : s.diskManager.io ≠ some 0)
    (hW : ∀ b ∈ bt, b.pageId ∈ W) (hlen : bt.length < 2 ^ 31) :
    Kept c ls first (after (splitUpper t bt m) s) := by
  obtain ⟨lower, fs, hparted, hg⟩ := h.written
  obtain ⟨hfW, hfls⟩ := h.fresh
  obtain ⟨a, d, rfl⟩ := List.append_of_mem hp
  have hfp : m.freshPageId ≠ p := fun e => hfls (e ▸ hp)
  have hlt := (hg.range m.freshPageId (.inl List.mem_cons_self)).2
  obtain ⟨n, he⟩ : ∃ n, Ends (writePage m.freshPageId m.newPage) s.diskManager ⟨⟩
      { s.diskManager.store m.newPage (pageOffset m.freshPageId) with io := n } :=
    writePage_left hio hlt
  -- the leaf and the fresh page take the place of the leaf
  have hrow' := Row.split hparted.left hparted.right hfp a hrow hnd hfls
  have hg' : Guarded W (a ++ p :: m.freshPageId :: d) _ fs _ :=
    hg.put (.inl List.mem_cons_self) m.newPage
      (fun q hq => ⟨List.mem_cons_of_mem _ hq, fun e => hfW (e ▸ hq)⟩) fun q hq => by
        simp only [List.mem_append, List.mem_cons] at hq ⊢
        tauto
  have hright : m.rightSiblingId = nextOf d := h.right.trans (Row.leafAt a hrow).right
  have hfirst : (a ++ p :: m.freshPageId :: d).head? = some first := by
    rw [← hf]
    cases a <;> rfl
  have hr : m.rightSiblingId = INVALID_PAGE_ID ∨ m.rightSiblingId ∈ a ++ p :: m.freshPageId :: d := by
    rw [hright]
    cases d with
    | nil => exact .inl rfl
    | cons r d =>
      refine .inr ?_
      simp [nextOf]
  have hkept := (linkUp_cut (t := t) hg' hrow' hfirst hr (by simp) hW hlen).after
    (s := { s with diskManager := { s.diskManager.store m.newPage (pageOffset m.freshPageId) with
      io := n } }) ⟨n, rfl⟩
  unfold splitUpper
  rw [after_bind (ends_disk he)]
  exact fun hn b hb => hkept hn b (hb.split hfls (hparted.records b))

theorem splitUpper_grows (t : TreeConfig) (bt : BTStack) (m : Moved) :
    Grows (bt.length + 1) (splitUpper t bt m) := by
  have hup : Grows (bt.length + 1) (do
      wireUp t bt m.leafPage (keyAt t m.newPage 0) m.freshPageId
      return m.freshPageId) := (wireUp_grows t bt _ _ _).bind_last fun _ => .pure _
  refine .bind_zero (.writePage _ _) fun _ => .ite ?_ hup
  exact .bind_zero (.readPage _) fun _ => .bind_zero (.writePage _ _) fun _ => hup

end

/-! ## Cuts of a whole split -/

/-- The state with `k` system calls left. -/
def TreeState.cutAt (s : TreeState) (k : Nat) : TreeState :=
  { s with diskManager := { s.diskManager with io := some k } }

/-- The write of the leaf is the last system call that succeeds. -/
def StopsAtLeaf (t : TreeConfig) (child : Key) (s : TreeState) (k : Nat) : Prop :=
  ∃ m s', Ends (splitLower t child) (s.cutAt k) m s' ∧ s'.diskManager.io = some 0

section
variable {t : TreeConfig} {s s' : TreeState} {pages leaves free : List Nat} {child : Key}
  {m : FindRecordMetadata} {k first p i : Nat} {b : Bytes}

theorem splitLower_cut (h : TreeFile s pages leaves free) :
    Triple (fun s' => s'.rootPageId = s.rootPageId ∧ OnDisk s.diskManager s') (splitLower t child)
      (fun m s' => nextId s' ≤ MAX_PAGES → ∃ p ∈ leaves,
        LowerWritten (upperPages pages leaves) leaves s.page p m s') (Intact leaves s.page) := by
  have hg := h.guarded
  refine Triple.bind ((findRecord_cut h).conseq (fun _ h => h) (fun _ _ h => h)
    fun s' hs _ => (hg.upto hs).shows) fun m => Triple.of_state fun s' hs => ?_
  obtain ⟨⟨hp, -, -⟩, hs⟩ := hs
  obtain ⟨a, d, e⟩ := List.append_of_mem hp
  have hleaf : LeafAt (s.page m.leafPage) (nextOf d) := Row.leafAt a (e ▸ h.row)
  exact (moveUpper_cut hg hp hleaf).conseq (fun _ e => e ▸ hs)
    (fun _ _ hm hn => ⟨m.leafPage, hp, hm hn⟩) fun _ h => h

theorem splitLower_grows (t : TreeConfig) (child : Key) : Grows 1 (splitLower t child) := by
  refine .bind_zero (findRecord_grows t child) fun m => .bind_last .allocatePage fun f => ?_
  exact .bind_zero (.readPage _) fun _ => .bind_zero (.buf _) fun _ => .bind_zero (.buf _) fun _ =>
    .bind_zero (.writePage _ _) fun _ => .pure _

/-- Whatever page writes of a split are made before the rest fail: unless it
is the write of the leaf alone, every record that was live is still live on a
leaf one finds from the first one on by right siblings. -/
theorem split_keeps_records (h : TreeFile s pages leaves free) (hf : leaves.head? = some first)
    (hm : Ends (findRecord t child) s m s') (hk : ¬ StopsAtLeaf t child s k)
    (hn : nextId (after (splitChild t m.btStack child) (s.cutAt k)) ≤ MAX_PAGES)
    (hp : p ∈ leaves) (hb : recordBytes (s.page p) i = some b) :
    Recorded (after (splitChild t m.btStack child) (s.cutAt k)) first b := by
  have hstored : Stored s.page leaves b := by
    obtain ⟨a, d, e⟩ := List.append_of_mem hp
    have hleaf : LeafAt (s.page p) (nextOf d) := Row.leafAt a (e ▸ h.row)
    rw [recordBytes_eq hleaf.valid] at hb
    obtain ⟨e, he, hrec⟩ := Option.bind_eq_some_iff.mp hb
    refine ⟨p, hp, ?_⟩
    cases e with
    | live b' =>
      obtain rfl : b' = b := by simpa using hrec
      exact List.mem_of_getElem? he
    | dead n => simp at hrec
  obtain ⟨⟨-, hstack, hlen⟩, -⟩ := (findRecord_cut h).ends ⟨rfl, Upto.refl _⟩ hm
  have hmax : MAX_PAGES = 2 ^ 20 := rfl
  have hnext := h.next_le
  have hlow := (splitLower_cut h : Triple _ (splitLower t child) _ _) (s.cutAt k) ⟨rfl, some k, rfl⟩
  rw [splitChild_eq] at hn ⊢
  cases hx : splitLower t child (s.cutAt k) with
  | error e s₁ =>
    rw [hx] at hlow
    rw [after_bind_error hx, after, hx] at hn ⊢
    exact hlow.kept h.row hf hn b hstored
  | ok mv s₁ =>
    rw [hx] at hlow
    have hgrow := (splitLower_grows t child).after (s := s.cutAt k)
      (show nextId s + 1 < 2 ^ 32 by omega)
    rw [after_of_ends (show Ends _ _ mv s₁ from hx)] at hgrow
    have hle : nextId s₁ ≤ nextId s + 1 := hgrow.2
    have hgrow' := (splitUpper_grows t m.btStack mv).after (s := s₁) (by omega)
    rw [after_bind (show Ends _ _ mv s₁ from hx)] at hn ⊢
    obtain ⟨q, hq, hwritten⟩ := hlow (Nat.le_trans hgrow'.1 hn)
    have hio : s₁.diskManager.io ≠ some 0 := fun e => hk ⟨mv, s₁, hx, e⟩
    exact splitUpper_cut h.row h.leaves_nodup hq hf hwritten hio hstack (by omega) hn b hstored

end

/-! ## The trees of runs -/

section
variable {t : TreeConfig} {s : TreeState} {T : Tree} {rank : Nat → Nat} {leaves : List Nat}
  {p i q : Nat} {data : Mem} {ps : List Pair}

/-- A child id that can be read is that of the pair. -/
theorem pair_of_child {τ : Prop} {w : Nat} (h : NodeAt τ w data (.inner ps))
    (hq : childPageId data (2 * i + 1) = .ok q) : ∃ pr, ps[i]? = some pr ∧ pr.2 = q := by
  obtain ⟨hv, -, he, hk⟩ := h
  have hi := getElem?_pairEntries_child ps i
  rw [← he] at hi
  cases hp : ps[i]? with
  | none =>
    rw [hp] at hi
    rw [childPageId, record_dead hv fun b hb => by rw [hi] at hb; cases hb] at hq
    cases hq
  | some pr =>
    rw [hp] at hi
    rw [childPageId_spec hv hi (hk pr (List.mem_of_getElem? hp)).2] at hq
    cases hq
    exact ⟨pr, rfl, rfl⟩

theorem child_of_pair {τ : Prop} {w : Nat} (h : NodeAt τ w data (.inner ps))
    (hq : childPageId data (2 * i + 1) = .ok q) : ∃ pr ∈ ps, pr.2 = q := by
  obtain ⟨pr, hpr, e⟩ := pair_of_child h hq
  exact ⟨pr, List.mem_of_getElem? hpr, e⟩

theorem Linked.row (h : Holds t True s T) : ∀ {prev : Nat} {ls : List Nat},
    Linked T prev ls → Row s.page ls
  | _, [], _ => trivial
  | _, _ :: _, ⟨⟨_, hp⟩, hl⟩ => by
    obtain ⟨hv, -, htype, -, -, hright⟩ := h.nodeAt hp
    exact ⟨⟨hv, htype, hright⟩, hl.row h⟩

/-- Every tree of a run is such a file. -/
theorem Good.treeFile (h : Good t s T) (hc : Chain T leaves) : ∃ pages, TreeFile s pages leaves [] := by
  obtain ⟨rank, hs⟩ := h.shape
  have hpages : ∀ p, p ∈ List.range' 1 (nextId s - 1) ↔ T.store p ≠ none := by
    intro p
    have hpos := h.holds.ids.next
    rw [List.mem_range'_1, h.holds.next]
    constructor
    · intro hp
      exact h.dense.all p hp.1 (by omega)
    · intro hp
      have := h.holds.inUse hp
      exact ⟨this.1, by have := this.2.1; omega⟩
  have hfree := h.dense.free ▸ h.holds.freeList
  refine ⟨List.range' 1 (nextId s - 1), h.holds.io, ?_, ?_, hfree, List.nodup_nil, fun p hp => ?_,
    by simp, fun p hp => ?_, ?_, fun p hp htype i q hq => ?_, fun p => ?_, hc.linked.row h.holds,
    hc.nodup⟩
  · rw [h.holds.next]
    exact h.holds.ids.next
  · rw [h.holds.next]
    exact h.holds.next_le
  · have hu := h.holds.inUse ((hpages p).mp (hp.resolve_right List.not_mem_nil))
    exact ⟨hu.1, by rw [h.holds.next]; exact hu.2.1⟩
  · obtain ⟨n, hn⟩ := Option.ne_none_iff_exists'.mp ((hpages p).mp hp)
    exact (h.holds.node p n hn).1
  · rw [h.holds.root]
    exact (hpages _).mpr hs.root
  · obtain ⟨n, hn⟩ := Option.ne_none_iff_exists'.mp ((hpages p).mp hp)
    have hnode := h.holds.nodeAt hn
    cases n with
    | leaf es l r => exact absurd hnode.2.2.1 htype
    | inner ps =>
      obtain ⟨pr, hpr, rfl⟩ := child_of_pair hnode hq
      exact (hpages _).mpr (hs.child p ps hn pr hpr).1
  · rw [← hc.cover p, hpages]
    constructor
    · intro hl
      obtain ⟨es, l, r, he⟩ := hl
      exact ⟨by rw [he]; simp, (h.holds.nodeAt he).2.2.1⟩
    · intro hp
      have hu := h.holds.inUse hp.1
      exact (h.isLeaf_iff hu.1 (by rw [h.holds.next]; exact hu.2.1)).mpr hp.2

theorem exec_treeFile (ht : t.Numeric) {size : Nat} (h2 : 2 * (size + 4) ≤ PAGE_ROOM)
    {calls : List Call} (h : (treeRuns t (OfSize size)).Exec calls s) :
    ∃ pages ls, TreeFile s pages (1 :: ls) [] := by
  obtain ⟨hg, -, ls, hc⟩ := exec_sized ht h2 (fun _ _ h => h) h
  obtain ⟨pages, hfile⟩ := hg.treeFile hc
  exact ⟨pages, ls, hfile⟩

end

/-! ## The cut that loses records -/

/-- One leaf with two records of 2000 bytes, in a file of two pages. -/
structure TwoRecords (s : TreeState) : Prop where
  io : s.diskManager.io = none
  head : s.diskManager.globalMetadata.freelistHead = INVALID_PAGE_ID
  next : s.diskManager.globalMetadata.nextPageId = 2
  size : s.diskManager.size = 2 * PAGE_SIZE
  root : s.rootPageId = 1
  leaf : LeafAt (s.page 1) INVALID_PAGE_ID
  records : entries (s.page 1) = [.live (bigRecord 20), .live (bigRecord 30)]

theorem twoRecords_exists : ∃ s, TwoRecords s := by
  obtain ⟨d₂, f₂, m⟩ := exists_filled 1 .leafPage [bigRecord 20, bigRecord 30]
    (by
      intro b hb
      simp only [List.mem_cons, List.not_mem_nil, or_false] at hb
      rcases hb with rfl | rfl
      · exact List.ne_nil_of_length_pos (by rw [length_bigRecord]; decide)
      · exact List.ne_nil_of_length_pos (by rw [length_bigRecord]; decide))
    (by simp [length_bigRecord]; decide)
  have hleaf : LeafAt d₂ INVALID_PAGE_ID :=
    ⟨f₂.valid, m.pageType.trans (init_pageType ..), m.right.trans (init_right ..)⟩
  let d : DiskManager := ⟨⟨MAGIC_NUMBER, 0, 0, INVALID_PAGE_ID, 2⟩, Mem.zero, 0, none⟩
  have hpage : pageAt (d.store d₂ (pageOffset 1)) 1 = pageOf d₂ := pageAt_store rfl
  refine ⟨⟨d.store d₂ (pageOffset 1), 1, []⟩, rfl, rfl, rfl,
    show max 0 (pageOffset 1 + PAGE_SIZE) = 2 * PAGE_SIZE by decide, rfl, ?_, ?_⟩
  · rw [TreeState.page, hpage]
    exact hleaf.pageOf
  · rw [TreeState.page, hpage, (pageOf_congr hleaf.valid).1, f₂.entries]
    rfl

section
variable {s : TreeState}

theorem TwoRecords.treeFile (h : TwoRecords s) : TreeFile s [1] [1] [] where
  io := h.io
  pos := by rw [nextId, h.next]; decide
  next_le := by rw [nextId, h.next]; decide
  freeList := by rw [h.head]; exact .nil
  nodup := List.nodup_nil
  range p hp := by
    obtain rfl : p = 1 := by simpa using hp
    rw [nextId, h.next]
    decide
  apart := by simp
  mapped p hp := by
    obtain rfl := List.mem_singleton.mp hp
    refine ⟨by rw [h.next]; decide, ?_⟩
    rw [h.size]
    decide
  root := by rw [h.root]; simp
  child p hp htype := by
    obtain rfl := List.mem_singleton.mp hp
    exact absurd h.leaf.type htype
  leaf p := by
    refine ⟨fun hp => ⟨hp, ?_⟩, And.left⟩
    obtain rfl := List.mem_singleton.mp hp
    exact h.leaf.type
  row := ⟨h.leaf, trivial⟩
  leaves_nodup := by simp

/-- The key of the second record. -/
def secondKey : Key := ({} : TreeConfig).key (bigRecord 30)

theorem TwoRecords.mapped (h : TwoRecords s) : Mapped s.diskManager 1 :=
  h.treeFile.mapped 1 List.mem_cons_self

/-- The search reads the leaf only. -/
theorem TwoRecords.findRecord (h : TwoRecords s) {s₀ s₁ : TreeState} (hroot : s₀.rootPageId = 1)
    (hread : Ends (disk (readPage 1)) s₀ (s.page 1) s₁) :
    ∃ slot, Ends (Index.findRecord {} secondKey) s₀ ⟨1, slot, []⟩ s₁ := by
  have hlong : LongEnough 8 [Entry.live (bigRecord 20), .live (bigRecord 30)] := by
    intro b hb
    have hlen : b.length = 2000 := by
      simp only [List.mem_cons, Entry.live.injEq, List.not_mem_nil, or_false] at hb
      rcases hb with rfl | rfl <;> exact length_bigRecord _
    omega
  have hslot := leafSlot_spec (t := {}) numeric_default h.leaf.valid h.records hlong
    (key_decodes numeric_default (fits_bigRecord (by decide) 30).1)
  refine ⟨lowerSlot 8 [.live (bigRecord 20), .live (bigRecord 30)] (keyOf 8 (bigRecord 30)), ?_⟩
  unfold Index.findRecord
  apply (Ends.get _).bind
  rw [hroot]
  refine hread.bind ((Ends.get _).bind ?_)
  refine Ends.bind (a := (1, s.page 1, [])) ?_ ((ends_buf hslot).bind (.pure _ _))
  unfold descend
  rw [if_pos h.leaf.type]
  exact .pure _ _

/-- The first half of the split takes four system calls. -/
theorem TwoRecords.splitLower (h : TwoRecords s) (k : Nat) : ∃ m s',
    Ends (Index.splitLower {} secondKey) (s.cutAt (k + 4)) m s' ∧ s'.diskManager.io = some k ∧
      nextId s' = 3 ∧ s'.diskManager.size = 2 * PAGE_SIZE ∧ LeafAt (s'.page 1) 2 ∧
      entries (s'.page 1) = [.live (bigRecord 20)] := by
  have hfirst : Ends (disk (readPage 1)) (s.cutAt (k + 4)) (s.page 1) (s.cutAt (k + 3)) :=
    ends_disk (readPage_spends (d := (s.cutAt (k + 4)).diskManager) rfl h.mapped)
  have hroot : (s.cutAt (k + 4)).rootPageId = 1 := h.root
  obtain ⟨slot, hfind⟩ := h.findRecord hroot hfirst
  -- the fresh page
  let d := (s.cutAt (k + 3)).diskManager
  let s₁ : TreeState := { s with diskManager :=
    { d.bump.store d.bump.globalMetadata.bytes (pageOffset 0) with io := some (k + 2) } }
  have hnext : s.diskManager.globalMetadata.nextPageId = 2 := h.next
  have halloc : Ends (disk allocatePage) (s.cutAt (k + 3)) 2 s₁ := by
    have he := allocatePage_spends (d := d) (n := k + 2) rfl h.head
    rw [show d.globalMetadata.nextPageId = 2 from hnext] at he
    exact ends_disk he
  have hnext₁ : nextId s₁ = 3 := by
    change (s.diskManager.globalMetadata.nextPageId + 1) % 2 ^ 32 = 3
    rw [hnext]
    decide
  have hpage₁ : s₁.page 1 = s.page 1 := pageAt_store_of_ne (d := d.bump) (by decide)
  have hsize₁ : s₁.diskManager.size = 2 * PAGE_SIZE := by
    change max s.diskManager.size (pageOffset 0 + PAGE_SIZE) = _
    rw [h.size]
    decide
  have hm₁ : Mapped s₁.diskManager 1 := by
    refine ⟨?_, ?_⟩
    · change 1 < nextId s₁
      rw [hnext₁]
      decide
    · rw [hsize₁]
      decide
  let s₂ : TreeState := { s₁ with diskManager := { s₁.diskManager with io := some (k + 1) } }
  have hread : Ends (disk (readPage 1)) s₁ (s.page 1) s₂ := by
    have he := readPage_spends (d := s₁.diskManager) (n := k + 1) rfl hm₁
    exact hpage₁ ▸ ends_disk he
  -- its upper half is the second record
  have hwalk : walkPivot (s.page 1) (2 ^ 16) (getSlotCount (s.page 1) / 2) = .ok 1 := by
    rw [show getSlotCount (s.page 1) = 2 by rw [length_of_entries h.records]; rfl]
    rw [walkPivot_spec h.leaf.valid (2 ^ 16) (2 / 2) (by rw [h.records]; decide)
      ⟨bigRecord 30, by rw [h.records]; simp⟩, h.records]
    rfl
  have hnode : NodeAt False 8 (s.page 1) (.leaf [.live (bigRecord 20), .live (bigRecord 30)]
      (getLeftSibling (s.page 1)) INVALID_PAGE_ID) := h.records ▸ h.leaf.node 8
  have hpivot : 1 ≤ [Entry.live (bigRecord 20), .live (bigRecord 30)].length := by decide
  obtain ⟨d₁, d₂, hmove, hlower, -⟩ := splitPages_spec (t := {}) (r := 2) (p := 1) hnode
    (by decide) (by decide) hpivot
  let s₃ : TreeState := { s₂ with diskManager :=
    { s₂.diskManager.store (compactify d₁) (pageOffset 1) with io := some k } }
  have hwrite : Ends (disk (writePage 1 (compactify d₁))) s₂ ⟨⟩ s₃ :=
    ends_disk (writePage_spends rfl hm₁.1)
  have hpage : s₃.page 1 = pageOf (compactify d₁) := pageAt_store (d := s₂.diskManager) rfl
  have hsize : s₃.diskManager.size = 2 * PAGE_SIZE := by
    change max s₁.diskManager.size (pageOffset 1 + PAGE_SIZE) = _
    rw [hsize₁]
    decide
  obtain ⟨hv, -, htype, hent, -, hright⟩ := hlower.pageOf
  rw [← hpage] at hv htype hent hright
  refine ⟨⟨1, 2, INVALID_PAGE_ID, d₂⟩, s₃, hfind.bind (halloc.bind (hread.bind
    ((ends_buf hwalk).bind ?_))), rfl, hnext₁, hsize, ⟨hv, htype, hright⟩, hent⟩
  rw [h.leaf.right, show getSlotCount (s.page 1) = 2 by rw [length_of_entries h.records]; rfl]
  exact (ends_buf hmove).bind (hwrite.bind (.pure _ _))

theorem TwoRecords.second (h : TwoRecords s) : recordBytes (s.page 1) 1 = some (bigRecord 30) := by
  rw [recordBytes_eq h.leaf.valid, h.records]
  rfl

theorem TwoRecords.nextId_le (h : TwoRecords s) (k : Nat) :
    nextId (after (splitChild {} [] secondKey) (s.cutAt k)) ≤ MAX_PAGES := by
  have hnext : nextId (s.cutAt k) = 2 := h.next
  have hg := (splitChild_grows {} [] secondKey).after (s := s.cutAt k) (by rw [hnext]; decide)
  rw [hnext] at hg
  exact Nat.le_trans hg.2 (by decide)

end

/-- The cut one write later. -/
theorem split_keeps_records_two : ∃ s m, TreeFile s [1] [1] [] ∧
    Ends (findRecord {} secondKey) s m s ∧ recordBytes (s.page 1) 1 = some (bigRecord 30) ∧
    Recorded (after (splitChild {} m.btStack secondKey) (s.cutAt 5)) 1 (bigRecord 30) := by
  obtain ⟨s, h⟩ := twoRecords_exists
  obtain ⟨slot, hfind⟩ := h.findRecord h.root (ends_disk (readPage_ends h.io h.mapped))
  refine ⟨s, _, h.treeFile, hfind, h.second, split_keeps_records h.treeFile rfl hfind ?_ (h.nextId_le 5)
    List.mem_cons_self h.second⟩
  intro hstop
  obtain ⟨m, s', he, hio⟩ := hstop
  obtain ⟨m', s'', he', hio', -⟩ := h.splitLower 1
  obtain ⟨rfl, rfl⟩ := he.unique he'
  rw [hio] at hio'
  cases hio'

/-- The leaf is written and the fresh page is not: the second record is gone. -/
theorem split_loses_records : ∃ s m, TreeFile s [1] [1] [] ∧
    Ends (findRecord {} secondKey) s m s ∧ recordBytes (s.page 1) 1 = some (bigRecord 30) ∧
    nextId (after (splitChild {} m.btStack secondKey) (s.cutAt 4)) ≤ MAX_PAGES ∧
    ¬ Recorded (after (splitChild {} m.btStack secondKey) (s.cutAt 4)) 1 (bigRecord 30) := by
  obtain ⟨s, h⟩ := twoRecords_exists
  obtain ⟨slot, hfind⟩ := h.findRecord h.root (ends_disk (readPage_ends h.io h.mapped))
  refine ⟨s, _, h.treeFile, hfind, h.second, h.nextId_le 4, ?_⟩
  obtain ⟨m, s', he, hio, hnext, hsize, hleaf, hent⟩ := h.splitLower 0
  have hafter : after (splitChild {} [] secondKey) (s.cutAt 4) = s' := by
    obtain ⟨e, hw⟩ : ∃ e, writePage m.freshPageId m.newPage s'.diskManager =
        .error e s'.diskManager := writePage_out hio
    have hw' : disk (writePage m.freshPageId m.newPage) s' = .error e s' := by
      rw [disk, hw]
    rw [splitChild_eq, after_bind he, splitUpper, after_bind_error hw', after, hw']
  rw [hafter]
  intro hr
  obtain ⟨q, hq, i, hb⟩ := hr
  -- the fresh page is not in the file
  have honly : q = 1 := by
    clear hb
    induction hq with
    | first _ => rfl
    | next hp hne hl ih =>
      rw [ih, hleaf.right] at hl
      have hin := hl.1.2
      rw [hsize] at hin
      exact absurd hin (by decide)
  subst honly
  rw [recordBytes_eq hleaf.valid, hent] at hb
  cases i with
  | zero =>
    have hne : bigRecord 20 ≠ bigRecord 30 := by decide +kernel
    exact hne (by simpa using hb)
  | succ i => simp at hb

end DbInternals.Index
