import DbInternals.Index.ShortKeys
import DbInternals.Types.Tuple

/-!
# Keys of serialized tuples

A column's offset is a sum of lengths, `Tuple::Serialize` moves a cursor over the values,
and `extractKey` starts at the offset of its column. A string puts only its length into
the section the cursor moves over, so the three agree at every column, whatever strings
the columns before it hold.

Result: `extractKey_serialize`.
-/
namespace DbInternals.Index

open DbInternals.Types (Column Schema Tuple RunningOffsets fixedLength fixedBytes fixedBytes_append tailBytes
  NUMERIC BOOLEAN VARCHAR)
open DbInternals.Types.Value (Fits fixedPart)

/-! ## The position of a field -/

section
variable {cols : List Column} {vs : List Types.Value} {col : Column} {w : Types.Value} {c : Nat}

/-- The fixed section around one of its fields. -/
theorem fixedBytes_field (hw : vs[c]? = some w) : fixedBytes vs =
    fixedBytes (vs.take c) ++ (w.fixedPart ++ fixedBytes (vs.drop (c + 1))) := by
  obtain ⟨hlt, rfl⟩ := List.getElem?_eq_some_iff.mp hw
  rw [← Types.fixedBytes_cons, List.cons_getElem_drop_succ, ← fixedBytes_append,
    List.take_append_drop]

/-- A column's value, which fits it. -/
theorem field_fits (hfits : List.Forall₂ Fits cols vs) (hc : cols[c]? = some col) :
    ∃ w, vs[c]? = some w ∧ Fits col w := by
  obtain ⟨hlen, hall⟩ := List.forall₂_iff_get.mp hfits
  obtain ⟨hlt, rfl⟩ := List.getElem?_eq_some_iff.mp hc
  have hlt' : c < vs.length := by omega
  exact ⟨vs[c], List.getElem?_eq_getElem hlt', hall c hlt hlt'⟩

/-- The values of a number column are numbers. -/
theorem Fits.integer (h : Fits col w) (hnum : col.typeId = NUMERIC) :
    ∃ x, w = .integer x col.length.toUInt8 := by
  cases w with
  | integer x width =>
    obtain ⟨-, -, hw, -, -⟩ := h
    refine ⟨x, ?_⟩
    congr 1
    apply UInt8.toNat_inj.mp
    rw [UInt32.toNat_toUInt8, ← hw]
    exact (Nat.mod_eq_of_lt width.toNat_lt).symm
  | float fp width => cases hnum.symm.trans h.1
  | boolean b => cases hnum.symm.trans h.1
  | varchar data => cases hnum.symm.trans h.1

end

/-! ## The key -/

/-- A tree whose key is the column. -/
def keyColumn (col : Column) : TreeConfig where
  keyTypeId := .numeric
  keyWidth := col.length.toNat
  keyOffset := col.offset.toNat

/-- The key `extractKey` finds in the record `Serialize` writes at `buf`, of which `avail` bytes
may be read. -/
def serializedKey (t : TreeConfig) (tuple : Tuple) (m : Mem) (buf avail : Nat) : Except Fault Key := do
  let (m, len) ← tuple.serialize m buf
  return extractKey t (some ⟨m.shift buf, avail⟩) len

section
variable {col : Column} {c : Nat} {tuple : Tuple} {x : Int} {width : UInt8} {v : View}

theorem fixedWidth_keyColumn (h : Fits col (.integer x width)) : FixedWidth (keyColumn col) := by
  have hmem := h.width_mem
  obtain ⟨-, -, hw, -, -⟩ := h
  rw [hw] at hmem
  exact .inl ⟨rfl, hmem⟩

/-- The key of an encoded tuple is the bytes of its field. -/
theorem extractKey_encoded (hoff : RunningOffsets tuple.schema.columns)
    (hfits : List.Forall₂ Fits tuple.schema.columns tuple.data) (hlen : tuple.encoded.length ≤ 65535)
    (hc : tuple.schema.columns[c]? = some col) (hx : tuple.data[c]? = some (.integer x width))
    (hfit : Fits col (.integer x width)) (hv : v.Holds tuple.encoded) :
    (extractKey (keyColumn col) (some v) tuple.encoded.length).size = col.length.toNat ∧
      (extractKey (keyColumn col) (some v) tuple.encoded.length).Reads .numeric (.integer x) := by
  have hsum : tuple.encoded.length = (fixedBytes tuple.data).length + (tailBytes tuple.data).length :=
    List.length_append
  have hfield := fixedBytes_field hx
  have hpos := Tuple.offset_eq hoff hfits (by omega) hc
  have hwidth : ((Types.Value.integer x width).fixedPart).length = col.length.toNat :=
    hfit.length_fixedPart
  have hparts := congrArg List.length hfield
  rw [List.length_append, List.length_append, hwidth] at hparts
  have ht := fixedWidth_keyColumn hfit
  have hmem := ht.pos
  have hk : (keyColumn col).keyWidth = col.length.toNat := rfl
  have ho : (keyColumn col).keyOffset = col.offset.toNat := rfl
  -- the field lies within the encoding
  have hin : col.offset.toNat + col.length.toNat ≤ tuple.encoded.length := by omega
  constructor
  · rw [ht.size (by omega), hk, ho]
    omega
  · have hvar : (v.advance col.offset.toNat).Holds (Types.Value.integer x width).fixedPart := by
      unfold Tuple.encoded at hv
      rw [hfield, List.append_assoc, List.append_assoc] at hv
      rw [hpos]
      exact (View.holds_append.mp (View.holds_append.mp hv).2).1
    apply Key.decodes_iff.mpr
    rw [extractKey_toValue (by omega), ho, Nat.min_eq_left (by omega)]
    unfold Key.toValue Key.fromBytes
    rw [hk, ← hfit.2.2.1]
    exact hfit.numericDeserialize_eq hvar

/-- What `Serialize` wrote, as `extractKey` sees it. -/
theorem serializedKey_eq (t : TreeConfig) (hfits : List.Forall₂ Fits tuple.schema.columns tuple.data)
    (hlen : tuple.encoded.length ≤ 65535) (m : Mem) (buf : Nat) {avail : Nat}
    (ha : tuple.encoded.length ≤ avail) :
    ∃ v, v.Holds tuple.encoded ∧ serializedKey t tuple m buf avail =
      .ok (extractKey t (some v) tuple.encoded.length) := by
  refine ⟨⟨(m.put buf tuple.encoded).shift buf, avail⟩, ⟨ha, Mem.starts_put m buf _⟩, ?_⟩
  unfold serializedKey
  rw [Tuple.serialize_eq hfits hlen]
  rfl

/-- One key, from the tuple that was written. -/
theorem serializedKey_reads (hoff : RunningOffsets tuple.schema.columns)
    (hc : tuple.schema.columns[c]? = some col) (hnum : col.typeId = NUMERIC)
    (hfits : List.Forall₂ Fits tuple.schema.columns tuple.data) (hlen : tuple.encoded.length ≤ 65535) :
    ∃ x, tuple.data[c]? = some (.integer x col.length.toUInt8) ∧ ∀ m buf avail,
      tuple.encoded.length ≤ avail →
        ∃ k, serializedKey (keyColumn col) tuple m buf avail = .ok k ∧ k.size = col.length.toNat ∧
          k.Reads .numeric (.integer x) := by
  obtain ⟨w, hw, hfit⟩ := field_fits hfits hc
  obtain ⟨x, rfl⟩ := Fits.integer hfit hnum
  refine ⟨x, hw, ?_⟩
  intro m buf avail ha
  obtain ⟨v, hv, hrun⟩ := serializedKey_eq (keyColumn col) hfits hlen m buf ha
  obtain ⟨hsize, hreads⟩ := extractKey_encoded hoff hfits hlen hc hw hfit hv
  exact ⟨_, hrun, hsize, hreads⟩

/-- A comparison of numbers has the sign of their difference. -/
theorem sign_order (x y : Int) : (Rank.order (.integer x) (.integer y)).sign = (x - y).sign := by
  unfold Rank.order
  simp only [Rank.integer_lt]
  by_cases h : x < y
  · rw [if_pos h, Int.sign_eq_neg_one_of_neg (Int.sub_neg_of_lt h)]
    rfl
  · by_cases h' : y < x
    · rw [if_neg h, if_pos h', Int.sign_eq_one_of_pos (Int.sub_pos_of_lt h')]
      rfl
    · rw [if_neg h, if_neg h', show x - y = 0 by omega]

end

/-- The key of a serialized tuple has the width of its column and decodes to the tuple's value there,
and two such keys compare as the values do. -/
theorem extractKey_serialize (s : Schema) (c : Nat) (col : Column) (t u : Tuple)
    (hoff : RunningOffsets s.columns) (hc : s.columns[c]? = some col) (hnum : col.typeId = NUMERIC)
    (ht : t.schema = s) (htfits : List.Forall₂ Fits s.columns t.data) (htlen : t.encoded.length ≤ 65535)
    (hu : u.schema = s) (hufits : List.Forall₂ Fits s.columns u.data) (hulen : u.encoded.length ≤ 65535) :
    ∃ x y, t.data[c]? = some (.integer x col.length.toUInt8) ∧
      u.data[c]? = some (.integer y col.length.toUInt8) ∧
      ∀ m m' buf buf' avail avail', t.encoded.length ≤ avail → u.encoded.length ≤ avail' →
        ∃ k k' r, serializedKey (keyColumn col) t m buf avail = .ok k ∧
          serializedKey (keyColumn col) u m' buf' avail' = .ok k' ∧
          k.size = col.length.toNat ∧ k.toValue = .ok (.integer x) ∧
          k'.size = col.length.toNat ∧ k'.toValue = .ok (.integer y) ∧
          k.compare k' = .ok r ∧ r.sign = (x - y).sign := by
  subst ht
  obtain ⟨x, hx, hkey⟩ := serializedKey_reads hoff hc hnum htfits htlen
  rw [← hu] at hoff hc hufits
  obtain ⟨y, hy, hkey'⟩ := serializedKey_reads hoff hc hnum hufits hulen
  refine ⟨x, y, hx, hy, ?_⟩
  intro m m' buf buf' avail avail' ha ha'
  obtain ⟨k, hrun, hsize, hreads⟩ := hkey m buf avail ha
  obtain ⟨k', hrun', hsize', hreads'⟩ := hkey' m' buf' avail' ha'
  exact ⟨k, k', _, hrun, hrun', hsize, Key.decodes_iff.mp hreads, hsize', Key.decodes_iff.mp hreads',
    hreads.compare hreads', sign_order x y⟩

/-- A `name` and, behind its length, a 2-byte `id`. -/
def nameId (name : Bytes) (id : Int) : Tuple where
  data := [.varchar name, .integer id 2]
  schema := .ofColumns [.varchar [110] VARCHAR 0, ⟨[105], NUMERIC, 2, 2⟩]

theorem extractKey_serialize_nameId : ∃ k k' r,
    serializedKey (keyColumn ⟨[105], NUMERIC, 2, 2⟩) (nameId [97, 98] (-3)) Mem.zero 0 6 = .ok k ∧
      serializedKey (keyColumn ⟨[105], NUMERIC, 2, 2⟩) (nameId [] 5) Mem.zero 0 6 = .ok k' ∧
      k.size = 2 ∧ k.toValue = .ok (.integer (-3)) ∧ k.compare k' = .ok r ∧ r.sign = -1 := by
  have hfits : ∀ name id, -2 ^ 15 ≤ id → id < 2 ^ 15 →
      List.Forall₂ Fits (nameId name id).schema.columns (nameId name id).data := by
    intro name id hl hu
    exact .cons ⟨rfl, rfl⟩ (.cons ⟨rfl, by decide, rfl, hl, hu⟩ .nil)
  obtain ⟨x, y, hx, hy, hkeys⟩ := extractKey_serialize (nameId [97, 98] (-3)).schema 1
    ⟨[105], NUMERIC, 2, 2⟩ (nameId [97, 98] (-3)) (nameId [] 5) (by decide) rfl rfl rfl
    (hfits [97, 98] (-3) (by decide) (by decide)) (by decide) rfl
    (hfits [] 5 (by decide) (by decide)) (by decide)
  cases hx
  cases hy
  obtain ⟨k, k', r, hrun, hrun', hsize, hval, -, -, hcmp, hsign⟩ :=
    hkeys Mem.zero Mem.zero 0 0 6 6 (by decide) (by decide)
  exact ⟨k, k', r, hrun, hrun', hsize, hval, hcmp, hsign⟩

end DbInternals.Index
