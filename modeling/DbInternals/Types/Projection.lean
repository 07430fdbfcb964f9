import DbInternals.Types.Tuple
import Mathlib.Data.List.Induction

/-!
# Projections of schemas

The projecting constructor copies columns with the offsets they have in the schema they come
from, while `Tuple::Serialize` over the projection moves its cursor over the copies alone. The
two agree at every copy when the columns chosen lie back to back in that schema from its first
byte on.

Results:
* `project_columns`: what the constructor copies;
* `backToBack_iff`, `backToBack_range`: when the copies have running offsets;
* `project_offsets_iff`: when the offsets of a projection are where its columns are written.
-/
namespace DbInternals.Types

/-- `Serialize` comes to the column with its fixed cursor `o` bytes into the tuple.
mirrors src/type/tuple.cpp:35-49 -/
def Tuple.WritesAt (t : Tuple) (i o : Nat) : Prop :=
  ∀ m buf, ∃ m' varCursor, serializeFields (t.schema.columns.take i) (t.data.take i) m buf
    (buf + t.schema.getFixedSize.toNat) = .ok (m', buf + o, varCursor)

namespace Schema

/-- The columns chosen. -/
def selected (other : Schema) (colIndices : List Nat) : List Column :=
  colIndices.filterMap fun j => other.columns[j]?

/-- The lengths of the columns before one. -/
def bytesBefore (other : Schema) (j : Nat) : UInt32 := fixedLength (other.columns.take j)

/-- The columns chosen lie back to back in the schema from `o` on. -/
def BackToBack (other : Schema) : UInt32 → List Nat → Prop
  | _, [] => True
  | o, j :: js => other.bytesBefore j = o ∧ BackToBack other (other.bytesBefore (j + 1)) js

/-- The projection has running offsets and their total as its size, and the offset of a column is
where a tuple over the projection has it. -/
def KeepsOffsets (other : Schema) (colIndices : List Nat) : Prop :=
  ∃ s, other.project colIndices = .ok s ∧ RunningOffsets s.columns ∧
    s.getFixedSize = fixedLength s.columns ∧
    ∀ t : Tuple, t.schema = s → List.Forall₂ Value.Fits s.columns t.data → t.encoded.length ≤ 65535 →
      ∀ i col, s.columns[i]? = some col → t.WritesAt i col.offset.toNat

section
variable {other s : Schema} {colIndices js : List Nat} {columns : List Column} {c : Column} {o : UInt32}
  {i j k : Nat}

/-! ## The copies -/

theorem project_columns (hidx : ∀ j ∈ colIndices, j < other.columns.length) :
    ∃ s, other.project colIndices = .ok s ∧ s.columns = other.selected colIndices := by
  induction colIndices using List.reverseRecOn with
  | nil => exact ⟨empty, rfl, rfl⟩
  | append_singleton js j ih =>
    have hj := hidx j (List.mem_append_right _ (List.mem_singleton_self j))
    obtain ⟨s, hs, hcols⟩ := ih fun k hk => hidx k (List.mem_append_left _ hk)
    refine ⟨s.push other.columns[j], ?_, ?_⟩
    · rw [project, List.foldlM_append]
      change (other.project js >>= _) = _
      rw [hs]
      simp only [List.foldlM_cons, List.foldlM_nil, List.getElem?_eq_getElem hj, bind, Except.bind,
        pure, Except.pure]
    · change s.columns ++ [other.columns[j]] = _
      rw [hcols, selected, selected, List.filterMap_append]
      simp only [List.filterMap_cons, List.getElem?_eq_getElem hj, List.filterMap_nil]

/-! ## Running offsets -/

theorem fixedLength_cons : fixedLength (c :: columns) = c.length + fixedLength columns := List.sum_cons

/-- Running offsets from `o` on, column by column. -/
def OffsetsFrom : UInt32 → List Column → Prop
  | _, [] => True
  | o, c :: columns => c.offset = o ∧ OffsetsFrom (o + c.length) columns

theorem offsetsFrom_iff : OffsetsFrom o columns ↔
    ∀ (i : Nat) (h : i < columns.length), columns[i].offset = o + fixedLength (columns.take i) := by
  induction columns generalizing o with
  | nil => simp [OffsetsFrom]
  | cons c columns ih =>
    rw [OffsetsFrom, ih]
    constructor
    · rintro ⟨h0, hs⟩ i hi
      cases i with
      | zero => rw [List.take_zero]; simpa [fixedLength] using h0
      | succ i =>
        rw [List.take_succ_cons, fixedLength_cons, ← UInt32.add_assoc]
        exact hs i (Nat.lt_of_succ_lt_succ hi)
    · intro h
      refine ⟨by simpa [fixedLength] using h 0 (Nat.zero_lt_succ _), fun i hi => ?_⟩
      have hi' := h (i + 1) (Nat.succ_lt_succ hi)
      rwa [List.take_succ_cons, fixedLength_cons, ← UInt32.add_assoc] at hi'

theorem runningOffsets_iff : RunningOffsets columns ↔ OffsetsFrom 0 columns := by
  rw [offsetsFrom_iff, RunningOffsets]
  simp only [UInt32.zero_add]

theorem bytesBefore_succ (h : j < other.columns.length) :
    other.bytesBefore (j + 1) = other.bytesBefore j + other.columns[j].length := by
  rw [bytesBefore, bytesBefore, List.take_succ_eq_append_getElem h, fixedLength, List.map_append,
    List.sum_append]
  simp [fixedLength]

/-- The copies have running offsets when the columns lie back to back. -/
theorem backToBack_iff (hoff : RunningOffsets other.columns)
    (hidx : ∀ j ∈ colIndices, j < other.columns.length) :
    OffsetsFrom o (other.selected colIndices) ↔ other.BackToBack o colIndices := by
  induction colIndices generalizing o with
  | nil => rfl
  | cons j js ih =>
    have hj := hidx j List.mem_cons_self
    have hsel : other.selected (j :: js) = other.columns[j] :: other.selected js := by
      rw [selected, List.filterMap_cons, List.getElem?_eq_getElem hj]
      rfl
    have hrest : ∀ o, OffsetsFrom o (other.selected js) ↔ other.BackToBack o js :=
      fun o => ih fun k hk => hidx k (List.mem_cons_of_mem _ hk)
    rw [hsel, OffsetsFrom, BackToBack, hoff j hj, ← bytesBefore, bytesBefore_succ hj]
    constructor
    · rintro ⟨rfl, hs⟩
      exact ⟨rfl, (hrest _).mp hs⟩
    · rintro ⟨rfl, hs⟩
      exact ⟨rfl, (hrest _).mpr hs⟩

/-! ## Columns that are not empty -/

/-- The first byte of a column, without the wrap to 32 bits. -/
theorem bytesBefore_toNat (htotal : (other.columns.map fun c => c.length.toNat).sum < 2 ^ 32) (j : Nat) :
    (other.bytesBefore j).toNat = ((other.columns.take j).map fun c => c.length.toNat).sum := by
  rw [bytesBefore]
  have hle : ((other.columns.take j).map fun c => c.length.toNat).sum < 2 ^ 32 := by
    rw [← List.take_append_drop j other.columns, List.map_append, List.sum_append] at htotal
    omega
  generalize other.columns.take j = columns at hle
  induction columns with
  | nil => rfl
  | cons c columns ih =>
    rw [List.map_cons, List.sum_cons] at hle ⊢
    rw [fixedLength_cons, UInt32.toNat_add, ih (by omega)]
    exact Nat.mod_eq_of_lt hle

theorem bytesBefore_lt (hpos : ∀ c ∈ other.columns, c.length ≠ 0)
    (htotal : (other.columns.map fun c => c.length.toNat).sum < 2 ^ 32) (hjk : j < k)
    (hk : k ≤ other.columns.length) : other.bytesBefore j < other.bytesBefore k := by
  rw [UInt32.lt_iff_toNat_lt, bytesBefore_toNat htotal, bytesBefore_toNat htotal]
  have hj : j < other.columns.length := by omega
  have hsplit : other.columns.take k = other.columns.take j ++ (other.columns.drop j).take (k - j) := by
    rw [← List.take_add, Nat.add_sub_cancel' hjk.le]
  have hmem := hpos _ (List.getElem_mem hj)
  rw [hsplit, List.drop_eq_getElem_cons hj, show k - j = k - j - 1 + 1 by omega, List.take_succ_cons,
    List.map_append, List.sum_append, List.map_cons, List.sum_cons]
  have hlen : other.columns[j].length.toNat ≠ 0 := fun h => hmem (UInt32.toNat_inj.mp h)
  omega

theorem bytesBefore_inj (hpos : ∀ c ∈ other.columns, c.length ≠ 0)
    (htotal : (other.columns.map fun c => c.length.toNat).sum < 2 ^ 32)
    (hj : j ≤ other.columns.length) (hk : k ≤ other.columns.length) :
    other.bytesBefore j = other.bytesBefore k ↔ j = k := by
  refine ⟨fun h => ?_, congrArg _⟩
  rcases Nat.lt_trichotomy j k with hlt | rfl | hlt
  · exact absurd h (UInt32.ne_of_lt (bytesBefore_lt hpos htotal hlt hk))
  · rfl
  · exact absurd h.symm (UInt32.ne_of_lt (bytesBefore_lt hpos htotal hlt hj))

/-- Columns that lie back to back are columns in a row. -/
theorem backToBack_range (hpos : ∀ c ∈ other.columns, c.length ≠ 0)
    (htotal : (other.columns.map fun c => c.length.toNat).sum < 2 ^ 32)
    (hidx : ∀ j ∈ colIndices, j < other.columns.length) (hk : k ≤ other.columns.length) :
    other.BackToBack (other.bytesBefore k) colIndices ↔ colIndices = List.range' k colIndices.length := by
  induction colIndices generalizing k with
  | nil => simp [BackToBack]
  | cons j js ih =>
    have hj := hidx j List.mem_cons_self
    have hrest := ih (fun i hi => hidx i (List.mem_cons_of_mem _ hi)) (k := j + 1) hj
    rw [BackToBack, bytesBefore_inj hpos htotal hj.le hk, hrest, List.length_cons, List.range'_succ,
      List.cons.injEq]
    constructor
    · rintro ⟨rfl, hs⟩
      exact ⟨rfl, hs⟩
    · rintro ⟨rfl, hs⟩
      exact ⟨rfl, hs⟩

end

end Schema

/-! ## Where a column is written -/

/-- Where the offsets run, a column is written at its offset. -/
theorem Tuple.writesAt_offset {t : Tuple} {i : Nat} {col : Column}
    (hoff : RunningOffsets t.schema.columns) (hfits : List.Forall₂ Value.Fits t.schema.columns t.data)
    (hlen : t.encoded.length ≤ 65535) (hi : t.schema.columns[i]? = some col) :
    t.WritesAt i col.offset.toNat := by
  intro m buf
  have hsum : t.encoded.length = (fixedBytes t.data).length + (tailBytes t.data).length :=
    List.length_append
  have hfixed : (fixedBytes t.data).length =
      (fixedBytes (t.data.take i)).length + (fixedBytes (t.data.drop i)).length := by
    rw [← List.length_append, ← fixedBytes_append, List.take_append_drop]
  have htail : (tailBytes t.data).length =
      (tailBytes (t.data.take i)).length + (tailBytes (t.data.drop i)).length := by
    rw [← List.length_append, tailBytes, tailBytes, tailBytes, ← List.flatMap_append,
      List.take_append_drop]
  rw [offset_eq hoff hfits (by omega) hi, getFixedSize_eq hfits hlen]
  exact ⟨_, _, serializeFields_eq (List.forall₂_take i hfits) (by omega) m (by omega)⟩

/-- The offsets of a projection are where its columns are written when the columns chosen lie back
to back from the first byte on: none but the first columns, where no column is empty. -/
theorem project_offsets_iff (other : Schema) (colIndices : List Nat)
    (hoff : RunningOffsets other.columns) (hidx : ∀ j ∈ colIndices, j < other.columns.length) :
    (other.KeepsOffsets colIndices ↔ other.BackToBack 0 colIndices) ∧
      ((∀ c ∈ other.columns, c.length ≠ 0) → (other.columns.map fun c => c.length.toNat).sum < 2 ^ 32 →
        (other.KeepsOffsets colIndices ↔ colIndices = List.range colIndices.length)) := by
  have hiff : other.KeepsOffsets colIndices ↔ other.BackToBack 0 colIndices := by
    obtain ⟨s, hs, hcols⟩ := Schema.project_columns hidx
    rw [← Schema.backToBack_iff hoff hidx, ← hcols, ← Schema.runningOffsets_iff]
    constructor
    · rintro ⟨s', hs', hrun, -⟩
      rw [hs] at hs'
      cases hs'
      exact hrun
    · intro hrun
      refine ⟨s, hs, hrun, s.size_eq, fun t ht hfits hlen i col hi => ?_⟩
      subst ht
      exact Tuple.writesAt_offset hrun hfits hlen hi
  refine ⟨hiff, fun hpos htotal => ?_⟩
  rw [hiff, List.range_eq_range']
  exact Schema.backToBack_range hpos htotal hidx (Nat.zero_le _)

/-- The first column alone, and the columns in their order. -/
theorem project_offsets_iff_idName : idName.KeepsOffsets [0, 1] ∧ ¬ idName.KeepsOffsets [1, 0] := by
  have h : ∀ js, (∀ j ∈ js, j < idName.columns.length) →
      (idName.KeepsOffsets js ↔ js = List.range js.length) :=
    fun js hjs => (project_offsets_iff idName js (by decide) hjs).2 (by decide) (by decide)
  exact ⟨(h _ (by decide)).mpr rfl, fun hk => absurd ((h _ (by decide)).mp hk) (by decide)⟩

/-- The name alone keeps its place behind the `id` that is not there, and is written elsewhere. -/
theorem project_moves_name : RunningOffsets idName.columns ∧ (∀ j ∈ [1], j < idName.columns.length) ∧
    ¬ idName.KeepsOffsets [1] ∧
    ∃ s, idName.project [1] = .ok s ∧ s.columns = [.varchar [110, 97, 109, 101] VARCHAR 4] ∧
      ¬ RunningOffsets s.columns ∧ ¬ Tuple.WritesAt ⟨[.varchar [97, 98]], s⟩ 0 4 := by
  refine ⟨by decide, by decide, ?_, _, rfl, rfl, by decide, fun h => ?_⟩
  · rintro ⟨s, hs, hrun, -⟩
    cases hs
    exact absurd hrun (by decide)
  · obtain ⟨m', varCursor, hw⟩ := h Mem.zero 0
    cases hw

end DbInternals.Types
