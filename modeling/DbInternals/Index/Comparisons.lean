import DbInternals.Core.Hoare
import DbInternals.Index.BPlusTree

/-!
# The comparisons of a call

`findRecord`, `get` and `remove` with `Key::Compare` as a parameter: with
`Key.compare` they are the functions of the source (`findRecordWith_compare`
and so on). `Key.checkedCompare` reports a key with fewer bytes than its width
before it decodes it. With it the calls do what they did before, or report
such a key (`findRecordWith_checks`).
-/
namespace DbInternals.Index

open Storage SlottedPage

section
variable (cmp : Key → Key → Except Fault Int) (t : TreeConfig)

/-! ## The calls over any comparison -/

/-- mirrors src/index/b_plus_tree.cpp:307-322 -/
def childSlotWith (data : Mem) (target : Key) : Except Fault Nat := do
  let numKeys := getSlotCount data / 2
  let lo ← Search.bisectM (fun mid => return (← cmp (keyAt t data (mid * 2)) target) ≤ 0)
    numKeys 0 numKeys
  let floorIdx := if lo > 0 then lo - 1 else 0
  return floorIdx * 2 + 1

/-- mirrors src/index/b_plus_tree.cpp:362-390 -/
def leafSlotWith (data : Mem) (target : Key) : Except Fault Nat := do
  let n := getSlotCount data
  let (best, lo) ← Search.lowerSparseM (fun probe => (record data probe).2 != 0)
    (fun probe => return (← cmp (keyAt t data probe) target) < 0) n 0 n n
  return if best < n then best else lo

/-- mirrors src/index/b_plus_tree.cpp:297-330 -/
def descendWith (target : Key) : Nat → Nat → Mem → BTStack → TreeM (Nat × Mem × BTStack)
  | 0, _, _, _ => throw .diverges
  | fuel + 1, pageId, data, btStack => do
    if getPageType data = .leafPage then return (pageId, data, btStack)
    let slot ← buf (childSlotWith cmp t data target)
    let child ← buf (childPageId data slot)
    let data ← disk (readPage child)
    descendWith target fuel child data ({ pageId := pageId, childSlot := slot } :: btStack)

/-- mirrors src/index/b_plus_tree.cpp:290-396 -/
def findRecordWith (target : Key) : TreeM FindRecordMetadata := do
  let root := (← MonadState.get).rootPageId
  let data ← disk (readPage root)
  let fuel := (← MonadState.get).diskManager.globalMetadata.nextPageId + 1
  let (leafPage, leaf, btStack) ← descendWith cmp t target fuel root data []
  let slot ← buf (leafSlotWith cmp t leaf target)
  return { leafPage, leafSlot := slot, btStack }

/-- mirrors src/index/b_plus_tree.cpp:431-456 -/
def removeWith (key : Key) : TreeM Bool := do
  let findRecordMetadata ← findRecordWith cmp t key
  let leaf ← disk (readPage findRecordMetadata.leafPage)
  let foundKey := keyAt t leaf findRecordMetadata.leafSlot
  if (← buf (cmp key foundKey)) ≠ 0 then return false
  let (ret, leaf) := deleteRecord leaf findRecordMetadata.leafSlot
  if ret then disk (writePage findRecordMetadata.leafPage leaf)
  return ret

/-- mirrors src/index/b_plus_tree.cpp:461-480 -/
def getWith (target : Key) : TreeM (Option Bytes × Nat) := do
  let findRecordMetadata ← findRecordWith cmp t target
  let leaf ← disk (readPage findRecordMetadata.leafPage)
  let (bytes, len) := record leaf findRecordMetadata.leafSlot
  let foundKey := extractKey t bytes len
  if (← buf (cmp target foundKey)) ≠ 0 then return (none, 0)
  return (some ((viewMem bytes).slice 0 len), len)

end

/-! ## The comparison of the source -/

section
variable (t : TreeConfig) (target : Key)

theorem descendWith_compare : ∀ (fuel p : Nat) (data : Mem) (bt : BTStack),
    descendWith Key.compare t target fuel p data bt = descend t target fuel p data bt
  | 0, _, _, _ => rfl
  | fuel + 1, p, data, bt => by
    unfold descendWith descend
    simp only [descendWith_compare fuel]
    rfl

theorem findRecordWith_compare : findRecordWith Key.compare t target = findRecord t target := by
  unfold findRecordWith findRecord
  simp only [descendWith_compare]
  rfl

theorem removeWith_compare : removeWith Key.compare t target = remove t target := by
  unfold removeWith remove
  rw [findRecordWith_compare]

theorem getWith_compare : getWith Key.compare t target = get t target := by
  unfold getWith get
  rw [findRecordWith_compare]

end

/-! ## The checked comparison -/

/-- How a key with fewer bytes than its width is reported. -/
def shortKey : Fault := .assertFailed "size_ >= width_"

/-- The key has as many bytes as decoding it takes. -/
def Key.Long (k : Key) : Prop := k.width ≤ k.size

instance (k : Key) : Decidable k.Long := inferInstanceAs (Decidable (k.width ≤ k.size))

/-- `Key::Compare`, with an assertion on both keys. -/
def Key.checkedCompare (k other : Key) : Except Fault Int :=
  if k.Long ∧ other.Long then k.compare other else .error shortKey

/-- The key with only the bytes it was built from behind its pointer. -/
def Key.own (k : Key) : Key := { k with data := ⟨k.data.mem, k.size⟩ }

/-- A long key of a type of fixed width decodes from its own bytes. -/
theorem Key.Long.toValue_own {k : Key} (h : k.Long) (ha : k.size ≤ k.data.avail)
    (hty : k.typeId = .numeric ∨ k.typeId = .boolean ∨
      k.typeId = .float ∧ (k.width = 4 ∨ k.width = 8)) : k.own.toValue = k.toValue := by
  unfold Key.Long at h
  have hown : k.own.data.read k.width = k.data.read k.width := by
    unfold View.read Key.own
    rw [if_pos (h.trans ha), if_pos h]
  unfold Key.toValue
  rw [show k.own.typeId = k.typeId from rfl, show k.own.width = k.width from rfl]
  rcases hty with hty | hty | ⟨hty, hw⟩
  · rw [hty]
    unfold numericDeserialize
    rw [hown]
  · rw [hty]
    unfold booleanDeserialize
    rw [hown]
  · rw [hty]
    unfold floatDeserialize
    rcases hw with hw | hw <;>
    · rw [hw] at hown ⊢
      rw [hown]
      rfl

theorem Key.checkedCompare_long {k k' : Key} (h : k.Long) (h' : k'.Long) :
    k.checkedCompare k' = k.compare k' := if_pos ⟨h, h'⟩

section
variable {t : TreeConfig} {target : Key}

theorem checkedCompare_checks (k k' : Key) :
    k.checkedCompare k' = k.compare k' ∨ k.checkedCompare k' = .error shortKey := by
  unfold Key.checkedCompare
  split
  · exact .inl rfl
  · exact .inr rfl

theorem childSlotWith_checks (data : Mem) :
    childSlotWith Key.checkedCompare t data target = childSlot t data target ∨
      childSlotWith Key.checkedCompare t data target = .error shortKey := by
  have hprobe : ∀ mid, (do return decide ((← (keyAt t data (mid * 2)).checkedCompare target) ≤ 0)) =
        (do return decide ((← (keyAt t data (mid * 2)).compare target) ≤ 0)) ∨
      (do return decide ((← (keyAt t data (mid * 2)).checkedCompare target) ≤ 0)) =
        Except.error shortKey := by
    intro mid
    obtain h | h := checkedCompare_checks (keyAt t data (mid * 2)) target
    · exact .inl (by rw [h])
    · exact .inr (by rw [h]; rfl)
  have hs := Search.bisectM_checks hprobe (getSlotCount data / 2) 0 (getSlotCount data / 2)
  unfold childSlotWith childSlot
  dsimp only
  obtain h | h := hs
  · exact .inl (by rw [h])
  · exact .inr (by rw [h]; rfl)

theorem leafSlotWith_checks (data : Mem) :
    leafSlotWith Key.checkedCompare t data target = leafSlot t data target ∨
      leafSlotWith Key.checkedCompare t data target = .error shortKey := by
  have hprobe : ∀ probe, (do return decide ((← (keyAt t data probe).checkedCompare target) < 0)) =
        (do return decide ((← (keyAt t data probe).compare target) < 0)) ∨
      (do return decide ((← (keyAt t data probe).checkedCompare target) < 0)) =
        Except.error shortKey := by
    intro probe
    obtain h | h := checkedCompare_checks (keyAt t data probe) target
    · exact .inl (by rw [h])
    · exact .inr (by rw [h]; rfl)
  have hs : Search.lowerSparseM (fun probe => (record data probe).2 != 0) _ _ _ _ _ = _ ∨ _ :=
    Search.lowerSparseM_checks hprobe (getSlotCount data) 0 (getSlotCount data) (getSlotCount data)
  unfold leafSlotWith leafSlot
  dsimp only
  obtain h | h := hs
  · exact .inl (by rw [h])
  · exact .inr (by rw [h]; rfl)

theorem buf_checks {α : Type} {x y : Except Fault α} {e : Fault} (h : y = x ∨ y = .error e) :
    Checks e (buf y) (buf x) := by
  intro s
  obtain rfl | rfl := h
  · exact .inl rfl
  · exact .inr ⟨s, rfl⟩

theorem descendWith_checks : ∀ (fuel p : Nat) (data : Mem) (bt : BTStack),
    Checks shortKey (descendWith Key.checkedCompare t target fuel p data bt)
      (descend t target fuel p data bt)
  | 0, _, _, _ => .refl _
  | fuel + 1, p, data, bt => by
    unfold descendWith descend
    refine .ite (.refl _) ?_
    apply (buf_checks (childSlotWith_checks data)).bind
    intro slot
    refine (Checks.refl _).bind fun child => (Checks.refl _).bind fun data' => ?_
    exact descendWith_checks fuel child data' _

theorem findRecordWith_checks :
    Checks shortKey (findRecordWith Key.checkedCompare t target) (findRecord t target) := by
  unfold findRecordWith findRecord
  refine (Checks.refl _).bind fun s => (Checks.refl _).bind fun data => ?_
  refine (Checks.refl _).bind fun s' => (descendWith_checks _ _ _ _).bind fun r => ?_
  exact (buf_checks (leafSlotWith_checks r.2.1)).bind fun slot => .refl _

theorem removeWith_checks :
    Checks shortKey (removeWith Key.checkedCompare t target) (remove t target) := by
  unfold removeWith remove
  refine findRecordWith_checks.bind fun m => (Checks.refl _).bind fun leaf => ?_
  exact (buf_checks (checkedCompare_checks _ _)).bind fun c => .refl _

theorem getWith_checks :
    Checks shortKey (getWith Key.checkedCompare t target) (get t target) := by
  unfold getWith get
  refine findRecordWith_checks.bind fun m => (Checks.refl _).bind fun leaf => ?_
  exact (buf_checks (checkedCompare_checks _ _)).bind fun c => .refl _

end

end DbInternals.Index
