import DbInternals.Index.Key
import Mathlib.Data.List.Lex
import Mathlib.Order.Lattice

/-!
# The order of keys

`Key::Compare` orders the values that keys of one type decode to: numbers, `false` before
`true`, and byte strings lexicographically. The place of a value in that order is its `Rank`.
Floats of different bits may share one, as the zeros do, and a NaN, which compares as if equal
with everything, has none. `KeyOrder reads` says of any relation between keys and an order that
keys compare as it says; `Reads ty` is such a relation for each key type.

Results:
* `Value.float_lt_iff`: floats are ranked as their comparison orders them;
* `Value.compare_rank`, `Value.compare_value`: what a comparison says of two values;
* `Key.cuts_value`, `Key.cuts_place`: comparisons with one key cut the others in two;
* `keyOrder_reads`: keys that are no NaN are in order.
-/
namespace DbInternals.Index

open Ieee (binary64)

/-! ## Ranks -/

/-- The place of a value among those of its type; a float's is its number, in the least steps of
a double. -/
inductive Rank where
  | integer (x : Int)
  | float (x : Int)
  | boolean (b : Bool)
  | varchar (data : Bytes)
  deriving DecidableEq, Repr

namespace Rank

/-- The alternative, then what it holds. -/
def code : Rank → List Int
  | .integer x => [0, x]
  | .float x => [1, x]
  | .boolean b => [2, b.toNat]
  | .varchar data => 3 :: data.map fun c => (c.toNat : Int)

theorem code_injective : Function.Injective code := by
  intro a b h
  cases a with
  | integer x => cases b <;> simp_all [code]
  | float x => cases b <;> simp_all [code]
  | boolean x => cases b with
    | boolean y => cases x <;> cases y <;> simp_all [code]
    | _ => simp [code] at h
  | varchar x => cases b with
    | varchar y =>
      have hmap : x.map (fun c => (c.toNat : Int)) = y.map fun c => (c.toNat : Int) := by
        simpa [code] using h
      have hinj : Function.Injective fun c : UInt8 => (c.toNat : Int) := by
        intro c d hcd
        exact UInt8.toNat_inj.mp (Int.ofNat_inj.mp hcd)
      rw [List.map_injective_iff.mpr hinj hmap]
    | _ => simp [code] at h

instance : LinearOrder Rank := LinearOrder.lift' code code_injective

theorem lt_iff_code {a b : Rank} : a < b ↔ a.code < b.code := Iff.rfl

section
variable {a b : Rank} {x y : Int}

theorem integer_lt : Rank.integer x < .integer y ↔ x < y := by
  simp [lt_iff_code, code, List.cons_lt_cons_iff]

theorem float_lt : Rank.float x < .float y ↔ x < y := by
  simp [lt_iff_code, code, List.cons_lt_cons_iff]

theorem integer_le : Rank.integer x ≤ .integer y ↔ x ≤ y := by
  rw [← not_lt, integer_lt, not_lt]

theorem float_le_boolean (x : Int) (b : Bool) : Rank.float x ≤ .boolean b := by
  apply le_of_lt
  simp [lt_iff_code, code, List.cons_lt_cons_iff]

/-- The result of a comparison. -/
def order (a b : Rank) : Int := if a < b then -1 else if b < a then 1 else 0

theorem order_lt : order a b < 0 ↔ a < b := by
  unfold order
  split
  · simp_all
  · split <;> simp_all

theorem order_le : order a b ≤ 0 ↔ a ≤ b := by
  unfold order
  split
  · next h => simp [le_of_lt h]
  · split
    · next h => simp [h]
    · next h => simp [not_lt.mp h]

theorem varcharCompare_eq : ∀ a b : Bytes, varcharCompare a b =
    order (.varchar a) (.varchar b)
  | [], [] => by simp [varcharCompare, order]
  | [], b :: bs => by simp [varcharCompare, order, lt_iff_code, code]
  | a :: as, [] => by simp [varcharCompare, order, lt_iff_code, code]
  | a :: as, b :: bs => by
    have ih := varcharCompare_eq as bs
    simp only [order, lt_iff_code, code, List.map_cons, List.cons_lt_cons_iff, lt_self_iff_false,
      true_and, false_or] at ih ⊢
    unfold varcharCompare
    by_cases h1 : b < a
    · have h1' : b.toNat < a.toNat := h1
      rw [if_pos h1, if_neg (by omega), if_pos (by omega)]
    · have h1' : ¬ b.toNat < a.toNat := h1
      rw [if_neg h1]
      by_cases h2 : a < b
      · have h2' : a.toNat < b.toNat := h2
        rw [if_pos h2, if_pos (by omega)]
      · have h2' : ¬ a.toNat < b.toNat := h2
        have e : (a.toNat : Int) = b.toNat := by omega
        rw [if_neg h2, ih]
        simp [e]

end

end Rank

/-! ## Values -/

namespace Value

/-- Where the value stands; a NaN stands nowhere. -/
def rank : Value → Option Rank
  | .integer x => some (.integer x)
  | .float fp => (binary64.number fp.toNat).map .float
  | .boolean b => some (.boolean b)
  | .varchar data => some (.varchar data)

/-- As in IEEE 754, a NaN is below nothing and above nothing. -/
instance : LT Value where
  lt a b := ∃ x y, a.rank = some x ∧ b.rank = some y ∧ x < y

instance : LE Value where
  le a b := ∃ x y, a.rank = some x ∧ b.rank = some y ∧ x ≤ y

theorem exists_rank_iff {a b : Value} {R : Rank → Rank → Prop} : (∃ x ∈ a.rank, ∃ y ∈ b.rank, R x y) ↔
    ∃ x y, a.rank = some x ∧ b.rank = some y ∧ R x y := by
  constructor
  · rintro ⟨x, hx, y, hy, h⟩
    exact ⟨x, y, hx, hy, h⟩
  · rintro ⟨x, y, hx, hy, h⟩
    exact ⟨x, hx, y, hy, h⟩

instance (a b : Value) : Decidable (a < b) := decidable_of_iff _ exists_rank_iff

instance (a b : Value) : Decidable (a ≤ b) := decidable_of_iff _ exists_rank_iff

/-- The alternative a key type decodes to. -/
def HasType : TypeId → Value → Prop
  | .numeric, .integer _ => True
  | .float, .float _ => True
  | .boolean, .boolean _ => True
  | .varchar, .varchar _ => True
  | _, _ => False

section
variable {a b : Value} {x y : Rank} {ty : TypeId}

theorem float_lt_iff {f g : UInt64} :
    binary64.lt f.toNat g.toNat = true ↔ Value.float f < Value.float g := by
  change _ ↔ ∃ x y, (binary64.number f.toNat).map Rank.float = some x ∧
    (binary64.number g.toNat).map Rank.float = some y ∧ x < y
  unfold Ieee.Format.lt
  cases binary64.number f.toNat <;> cases binary64.number g.toNat <;> simp [Rank.float_lt]

/-- Values of a type compare as their ranks. -/
theorem compare_rank (ha : a.HasType ty) (hb : b.HasType ty) (hx : a.rank = some x)
    (hy : b.rank = some y) : a.compare b = .ok (x.order y) := by
  cases ty with
  | numeric =>
    cases a with
    | integer m =>
      cases b with
      | integer n =>
        cases hx
        cases hy
        simp [Value.compare, Rank.order, Rank.integer_lt]
      | _ => exact hb.elim
    | _ => exact ha.elim
  | float =>
    cases a with
    | float f =>
      cases b with
      | float g =>
        obtain ⟨m, hm, rfl⟩ := Option.map_eq_some_iff.mp hx
        obtain ⟨n, hn, rfl⟩ := Option.map_eq_some_iff.mp hy
        simp [Value.compare, Ieee.Format.lt, hm, hn, Rank.order, Rank.float_lt]
      | _ => exact hb.elim
    | _ => exact ha.elim
  | boolean =>
    cases a with
    | boolean m =>
      cases b with
      | boolean n =>
        cases hx
        cases hy
        cases m <;> cases n <;>
          simp [Value.compare, Rank.order, Rank.lt_iff_code, Rank.code, List.cons_lt_cons_iff]
      | _ => exact hb.elim
    | _ => exact ha.elim
  | varchar =>
    cases a with
    | varchar m =>
      cases b with
      | varchar n =>
        cases hx
        cases hy
        exact congrArg Except.ok (Rank.varcharCompare_eq m n)
      | _ => exact hb.elim
    | _ => exact ha.elim
  | invalid => cases a <;> exact ha.elim

/-- Only a float can be without a rank. -/
theorem eq_float (ha : a.rank = none) : ∃ f, a = .float f := by
  cases a with
  | float f => exact ⟨f, rfl⟩
  | _ => cases ha

theorem HasType.float {f : UInt64} (ha : (Value.float f).HasType ty) : ty = .float := by
  cases ty <;> first | rfl | exact ha.elim

/-- A NaN compares as if equal. -/
theorem compare_nan (ha : a.HasType ty) (hb : b.HasType ty) (h : a.rank = none ∨ b.rank = none) :
    a.compare b = .ok 0 := by
  obtain rfl : ty = .float := by
    rcases h with h | h
    · obtain ⟨f, rfl⟩ := eq_float h
      exact ha.float
    · obtain ⟨f, rfl⟩ := eq_float h
      exact hb.float
  cases a with
  | float f =>
    cases b with
    | float g =>
      have hnan : binary64.number f.toNat = none ∨ binary64.number g.toNat = none :=
        h.imp Option.map_eq_none_iff.mp Option.map_eq_none_iff.mp
      have hfg : binary64.lt f.toNat g.toNat = false ∧ binary64.lt g.toNat f.toNat = false := by
        unfold Ieee.Format.lt
        rcases hnan with hn | hn
        · rw [hn]
          exact ⟨rfl, by cases binary64.number g.toNat <;> rfl⟩
        · rw [hn]
          exact ⟨by cases binary64.number f.toNat <;> rfl, rfl⟩
      simp [Value.compare, hfg]
    | _ => exact hb.elim
  | _ => exact ha.elim

theorem lt_iff_rank (hx : a.rank = some x) (hy : b.rank = some y) : a < b ↔ x < y := by
  constructor
  · rintro ⟨x', y', hx', hy', h⟩
    cases hx.symm.trans hx'
    cases hy.symm.trans hy'
    exact h
  · exact fun h => ⟨x, y, hx, hy, h⟩

theorem le_iff_rank (hx : a.rank = some x) (hy : b.rank = some y) : a ≤ b ↔ x ≤ y := by
  constructor
  · rintro ⟨x', y', hx', hy', h⟩
    cases hx.symm.trans hx'
    cases hy.symm.trans hy'
    exact h
  · exact fun h => ⟨x, y, hx, hy, h⟩

theorem not_lt_nan (h : a.rank = none ∨ b.rank = none) : ¬ a < b := by
  rintro ⟨x, y, hx, hy, -⟩
  rcases h with h | h
  · cases h.symm.trans hx
  · cases h.symm.trans hy

/-- What a comparison of two values of a type says, NaNs included. -/
theorem compare_value (ha : a.HasType ty) (hb : b.HasType ty) :
    ∃ c, a.compare b = .ok c ∧ (c < 0 ↔ a < b) ∧ (c ≤ 0 ↔ ¬ b < a) := by
  by_cases h : a.rank = none ∨ b.rank = none
  · exact ⟨0, compare_nan ha hb h, iff_of_false (lt_irrefl 0) (not_lt_nan h),
      iff_of_true (le_refl 0) (not_lt_nan h.symm)⟩
  · obtain ⟨hx, hy⟩ := not_or.mp h
    obtain ⟨x, hx⟩ := Option.ne_none_iff_exists'.mp hx
    obtain ⟨y, hy⟩ := Option.ne_none_iff_exists'.mp hy
    exact ⟨_, compare_rank ha hb hx hy, by rw [Rank.order_lt, lt_iff_rank hx hy],
      by rw [Rank.order_le, lt_iff_rank hy hx, not_lt]⟩

/-- What is not above is up to it, if the two can be compared. -/
theorem not_lt_iff : ¬ b < a ↔ a ≤ b ∨ a.rank = none ∨ b.rank = none := by
  by_cases h : a.rank = none ∨ b.rank = none
  · exact iff_of_true (not_lt_nan h.symm) (.inr h)
  · rw [or_iff_left h]
    obtain ⟨hx, hy⟩ := not_or.mp h
    obtain ⟨x, hx⟩ := Option.ne_none_iff_exists'.mp hx
    obtain ⟨y, hy⟩ := Option.ne_none_iff_exists'.mp hy
    rw [lt_iff_rank hy hx, le_iff_rank hx hy, not_lt]

theorem lt_trans_le {c : Value} (h : a < b) (h' : b ≤ c) : a < c := by
  obtain ⟨x, y, hx, hy, hlt⟩ := h
  obtain ⟨y', z, hy', hz, hle⟩ := h'
  cases hy.symm.trans hy'
  exact ⟨x, z, hx, hz, hlt.trans_le hle⟩

end

end Value

/-! ## Keys -/

/-- The key is of the type and decodes to a value of that rank. -/
structure Key.Reads (ty : TypeId) (k : Key) (x : Rank) : Prop where
  type : k.typeId = ty
  value : ∃ v, k.toValue = .ok v ∧ v.rank = some x

theorem Key.reads_iff {ty : TypeId} {k : Key} {x : Rank} :
    k.Reads ty x ↔ k.typeId = ty ∧ k.toValue.toOption.bind Value.rank = some x := by
  constructor
  · rintro ⟨hty, v, hv, hx⟩
    exact ⟨hty, by rw [hv]; exact hx⟩
  · rintro ⟨hty, h⟩
    obtain ⟨v, hv, hx⟩ := Option.bind_eq_some_iff.mp h
    refine ⟨hty, v, ?_, hx⟩
    cases hk : k.toValue with
    | ok w =>
      rw [hk] at hv
      exact congrArg Except.ok (Option.some.inj hv)
    | error e =>
      rw [hk] at hv
      cases hv

instance (ty : TypeId) (k : Key) (x : Rank) : Decidable (k.Reads ty x) :=
  decidable_of_iff _ Key.reads_iff.symm

/-- Keys compare as what they hold. -/
def KeyOrder {κ : Type} [LinearOrder κ] (reads : Key → κ → Prop) : Prop :=
  ∀ k k' x y, reads k x → reads k' y →
    ∃ c, k.compare k' = .ok c ∧ (c < 0 ↔ x < y) ∧ (c ≤ 0 ↔ x ≤ y)

/-- Comparisons with the key tell what is below it, and what is not above it. -/
structure Key.Cuts {κ : Type} [LinearOrder κ] (reads : Key → κ → Prop) (key : Key)
    (below upTo : κ → Prop) : Prop where
  compare : ∀ k y, reads k y → ∃ c, k.compare key = .ok c ∧ (c < 0 ↔ below y) ∧ (c ≤ 0 ↔ upTo y)
  below_down : ∀ y z, y ≤ z → below z → below y
  upTo_down : ∀ y z, y ≤ z → upTo z → upTo y

theorem KeyOrder.cuts {κ : Type} [LinearOrder κ] {reads : Key → κ → Prop} {key : Key} {x : κ}
    (ho : KeyOrder reads) (hx : reads key x) : key.Cuts reads (· < x) (· ≤ x) where
  compare k y hk := ho k key y x hk hx
  below_down _ _ := lt_of_le_of_lt
  upTo_down _ _ := le_trans

namespace Value

/-- The value is above the rank. A NaN is above none. -/
def Above (v : Value) (x : Rank) : Prop := ∃ y ∈ v.rank, x < y

/-- The rank is not above the value. None is above a NaN. -/
def UpTo (v : Value) (x : Rank) : Prop := ∀ y ∈ v.rank, x ≤ y

instance (v : Value) (x : Rank) : Decidable (v.Above x) := inferInstanceAs (Decidable (∃ _ ∈ _, _))

instance (v : Value) (x : Rank) : Decidable (v.UpTo x) := inferInstanceAs (Decidable (∀ _ ∈ _, _))

/-- The rank by which the value is led through a tree, a NaN behind all floats. -/
def place (v : Value) : Rank := v.rank.getD (.boolean false)

section
variable {a v : Value} {x y : Rank}

theorem upTo_iff (h : v.rank = some y) : v.UpTo x ↔ x ≤ y :=
  ⟨fun hup => hup y h, fun hle z hz => by cases h.symm.trans hz; exact hle⟩

theorem above_iff (h : v.rank = some y) : v.Above x ↔ x < y :=
  ⟨fun ⟨z, hz, hlt⟩ => by cases h.symm.trans hz; exact hlt, fun hlt => ⟨y, h, hlt⟩⟩

theorem Above.lt_place (h : v.Above x) : x < v.place := by
  obtain ⟨y, hy, hlt⟩ := h
  unfold place
  rwa [hy]

theorem lt_iff_above (h : a.rank = some x) : a < v ↔ v.Above x := by
  constructor
  · rintro ⟨x', y, hx', hy, hlt⟩
    cases h.symm.trans hx'
    exact ⟨y, hy, hlt⟩
  · rintro ⟨y, hy, hlt⟩
    exact ⟨x, y, h, hy, hlt⟩

theorem not_lt_iff_upTo (h : a.rank = some x) : ¬ v < a ↔ v.UpTo x := by
  constructor
  · intro hn y hy
    by_contra hlt
    exact hn ⟨y, x, hy, h, not_le.mp hlt⟩
  · rintro hup ⟨y, x', hy, hx', hlt⟩
    cases h.symm.trans hx'
    exact absurd (hup y hy) (not_le.mpr hlt)

end

end Value

section
variable {k k' : Key} {ty : TypeId} {x y : Rank} {a b : Value}

theorem numericDeserialize_hasType {v : View} {w : Nat} (h : numericDeserialize v w = .ok a) :
    a.HasType .numeric := by
  rw [numericDeserialize, View.read] at h
  by_cases hr : w ≤ v.avail
  · rw [if_pos hr] at h
    by_cases hw : w = 1 ∨ w = 2 ∨ w = 4 ∨ w = 8
    · cases (if_pos hw).symm.trans h
      trivial
    · cases (if_neg hw).symm.trans h
  · rw [if_neg hr] at h
    cases h

theorem floatDeserialize_hasType {v : View} {w : Nat} (h : floatDeserialize v w = .ok a) :
    a.HasType .float := by
  rw [floatDeserialize, View.read, View.read] at h
  by_cases hw : w = 4
  · rw [if_pos hw] at h
    by_cases hr : 4 ≤ v.avail
    · rw [if_pos hr] at h
      cases h
      trivial
    · rw [if_neg hr] at h
      cases h
  · rw [if_neg hw] at h
    by_cases hr : 8 ≤ v.avail
    · rw [if_pos hr] at h
      cases h
      trivial
    · rw [if_neg hr] at h
      cases h

theorem booleanDeserialize_hasType {v : View} {w : Nat} (h : booleanDeserialize v w = .ok a) :
    a.HasType .boolean := by
  rw [booleanDeserialize, View.read] at h
  by_cases hw : w > 1
  · cases (if_pos hw).symm.trans h
  · rw [if_neg hw] at h
    by_cases hr : w ≤ v.avail
    · rw [if_pos hr] at h
      cases h
      trivial
    · rw [if_neg hr] at h
      cases h

theorem varcharDeserialize_hasType {v : View} (h : varcharDeserialize v = .ok a) :
    a.HasType .varchar := by
  rw [varcharDeserialize, View.read] at h
  by_cases hr : 2 ≤ v.avail
  · rw [if_pos hr] at h
    change ((v.advance 2).read (v.mem.readLE 0 2) >>= _) = _ at h
    rw [View.read] at h
    by_cases hl : v.mem.readLE 0 2 ≤ (v.advance 2).avail
    · rw [if_pos hl] at h
      cases h
      trivial
    · rw [if_neg hl] at h
      cases h
  · rw [if_neg hr] at h
    cases h

theorem Key.toValue_hasType (h : k.toValue = .ok a) : a.HasType k.typeId := by
  rw [Key.toValue] at h
  cases hty : k.typeId with
  | numeric => rw [hty] at h; exact numericDeserialize_hasType h
  | float => rw [hty] at h; exact floatDeserialize_hasType h
  | boolean => rw [hty] at h; exact booleanDeserialize_hasType h
  | varchar => rw [hty] at h; exact varcharDeserialize_hasType h
  | invalid => rw [hty] at h; cases h

/-- Keys of a type compare as what they decode to, NaNs included. -/
theorem Key.compare_value (hty : k.typeId = k'.typeId) (h : k.toValue = .ok a)
    (h' : k'.toValue = .ok b) :
    ∃ c, k.compare k' = .ok c ∧ (c < 0 ↔ a < b) ∧ (c ≤ 0 ↔ ¬ b < a) := by
  rw [Key.compare, h, h']
  exact Value.compare_value (Key.toValue_hasType h) (hty ▸ Key.toValue_hasType h')

theorem Key.Reads.float (h : k.Reads .float x) : ∃ z, x = .float z := by
  obtain ⟨hty, v, hv, hx⟩ := h
  have hv' := Key.toValue_hasType hv
  rw [hty] at hv'
  cases v with
  | float f =>
    obtain ⟨z, -, rfl⟩ := Option.map_eq_some_iff.mp hx
    exact ⟨z, rfl⟩
  | _ => exact hv'.elim

theorem Key.Reads.unique (h : k.Reads ty x) (h' : k.Reads ty y) : x = y := by
  obtain ⟨-, a, ha, hx⟩ := h
  obtain ⟨-, b, hb, hy⟩ := h'
  cases ha.symm.trans hb
  exact Option.some.inj (hx.symm.trans hy)

theorem Key.Reads.compare (h : k.Reads ty x) (h' : k'.Reads ty y) :
    k.compare k' = .ok (x.order y) := by
  obtain ⟨rfl, a, ha, hx⟩ := h
  obtain ⟨hty, b, hb, hy⟩ := h'
  rw [Key.compare, ha, hb]
  exact Value.compare_rank (Key.toValue_hasType ha) (hty ▸ Key.toValue_hasType hb) hx hy

/-- A key that decodes cuts the ranks, be it to a NaN. -/
theorem Key.cuts_value (hty : k.typeId = ty) (h : k.toValue = .ok a) :
    k.Cuts (Key.Reads ty) a.Above a.UpTo where
  compare k' y hk' := by
    obtain ⟨hty', b, hb, hy⟩ := hk'
    obtain ⟨c, hc, hneg, hpos⟩ := Key.compare_value (hty'.trans hty.symm) hb h
    exact ⟨c, hc, hneg.trans (Value.lt_iff_above hy), hpos.trans (Value.not_lt_iff_upTo hy)⟩
  below_down _ _ hyz h := by
    obtain ⟨w, hw, hlt⟩ := h
    exact ⟨w, hw, lt_of_le_of_lt hyz hlt⟩
  upTo_down _ _ hyz hup z hz := hyz.trans (hup z hz)

/-- To a NaN all floats are equal, so it goes behind all of them. -/
theorem Key.cuts_place (hty : k.typeId = ty) (h : k.toValue = .ok a) :
    k.Cuts (Key.Reads ty) a.Above (· ≤ a.place) where
  compare k' y hk' := by
    obtain ⟨c, hc, hneg, hpos⟩ := (Key.cuts_value hty h).compare k' y hk'
    refine ⟨c, hc, hneg, hpos.trans ?_⟩
    unfold Value.place
    cases hr : a.rank with
    | some x => exact Value.upTo_iff hr
    | none =>
      obtain ⟨f, rfl⟩ := Value.eq_float hr
      obtain rfl : ty = .float := by rw [← hty]; exact (Key.toValue_hasType h).float
      obtain ⟨z, rfl⟩ := hk'.float
      exact iff_of_true (fun _ hy => by cases hr.symm.trans hy) (Rank.float_le_boolean z false)
  below_down := (Key.cuts_value hty h).below_down
  upTo_down _ _ := le_trans

theorem keyOrder_reads (ty : TypeId) : KeyOrder (Key.Reads ty) :=
  fun _ _ _ _ h h' => ⟨_, h.compare h', Rank.order_lt, Rank.order_le⟩

end

end DbInternals.Index
