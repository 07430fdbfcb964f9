import DbInternals.Index.ScanChain

/-!
# What a scan returns

On a search tree of any height whose leaves are a chain in key order, with any slots dead,
`scan` and the calls of `Next` return the live records in the range and then nothing. The
last key is a pointer into the buffer: once the iterator has crossed to a leaf past the
range, further calls decode it from the bytes of that leaf. A number or a boolean always
decodes; for a `VARCHAR` the bytes are a length, which may reach past the buffer.

Results:
* `over_yields`: past the range, calls go on to return nothing iff the key decodes;
* `range_yields`: up to there, each call returns the next record;
* `scan_exact`: so the scan is exact for all keys but `VARCHAR`, and for these iff the
  last key decodes wherever it is read again;
* `scan_overruns`: a scan whose third call reads past its buffer.
-/
namespace DbInternals.Index

open Storage SlottedPage Routing

/-- `n` calls of `Next`. -/
def nexts (t : TreeConfig) : Nat → BPlusTreeIterator → TreeM (List (Option Bytes) × BPlusTreeIterator)
  | 0, it => return ([], it)
  | n + 1, it => do
    let (a, it) ← next t it
    let (as, it) ← nexts t n it
    return (a :: as, it)

/-- All further calls return the records in order, then nothing. -/
def Yields (t : TreeConfig) (s : TreeState) (it : BPlusTreeIterator) (rs : List Bytes) : Prop :=
  ∀ n, ∃ it', Ends (nexts t n it) s ((List.range n).map fun i => rs[i]?, it') s

section
variable {t : TreeConfig} {s : TreeState} {it it' : BPlusTreeIterator} {rs : List Bytes}
  {a : Option Bytes}

theorem map_range_succ (rs : List Bytes) (n : Nat) :
    ((List.range (n + 1)).map fun i => rs[i]?) = rs.head? :: (List.range n).map fun i => rs.tail[i]? := by
  rw [List.range_succ_eq_map, List.map_cons, List.map_map, List.head?_eq_getElem?]
  congr 1
  apply List.map_congr_left
  intro i _
  rw [List.getElem?_tail]
  rfl

theorem nexts_succ {n : Nat} {bs : List (Option Bytes)} {it'' : BPlusTreeIterator}
    (h : Ends (next t it) s (a, it') s) : Ends (nexts t (n + 1) it) s (bs, it'') s ↔
      ∃ as, bs = a :: as ∧ Ends (nexts t n it') s (as, it'') s := by
  rw [nexts]
  constructor
  · intro he
    have hrest := Ends.rest h he
    obtain ⟨⟨as, it₂⟩, s', e, e'⟩ := Ends.bind_iff.mp hrest
    cases e'
    exact ⟨as, rfl, e⟩
  · rintro ⟨as, rfl, he⟩
    exact h.bind (he.bind (.pure _ _))

/-- One call, then the others. -/
theorem yields_step (h : Ends (next t it) s (a, it') s) :
    Yields t s it rs ↔ a = rs.head? ∧ Yields t s it' rs.tail := by
  constructor
  · intro hy
    have hone : ∀ n, a = rs.head? ∧
        ∃ it'', Ends (nexts t n it') s ((List.range n).map fun i => rs.tail[i]?, it'') s := by
      intro n
      obtain ⟨it'', he⟩ := hy (n + 1)
      rw [map_range_succ] at he
      obtain ⟨as, has, he⟩ := (nexts_succ h).mp he
      cases has
      exact ⟨rfl, it'', he⟩
    exact ⟨(hone 0).1, fun n => (hone n).2⟩
  · rintro ⟨rfl, hy⟩ n
    cases n with
    | zero => exact ⟨it, .pure _ _⟩
    | succ n =>
      obtain ⟨it'', he⟩ := hy n
      rw [map_range_succ]
      exact ⟨it'', (nexts_succ h).mpr ⟨_, rfl, he⟩⟩

/-- A call that returns nothing and changes nothing. -/
theorem yields_fixed (h : Ends (next t it) s (none, it) s) : Yields t s it [] := by
  intro n
  induction n with
  | zero => exact ⟨it, .pure _ _⟩
  | succ n ih =>
    obtain ⟨it', he⟩ := ih
    rw [map_range_succ]
    exact ⟨it', (nexts_succ h).mpr ⟨_, rfl, he⟩⟩

theorem yields_throws {e : Fault} {s' : TreeState} (h : Throws (next t it) s e s') :
    ¬ Yields t s it rs := by
  intro hy
  obtain ⟨it', he⟩ := hy 1
  obtain ⟨_, _, e₁, -⟩ := Ends.bind_iff.mp he
  exact h.not_ends e₁

end

/-! ## After the last record -/

/-- The bytes at the place of the last key decode on the leaves that are searched for it: on
the first live one, and on the next where they stand for a key that is not below those of the
leaf. -/
def Rereads (t : TreeConfig) (s : TreeState)
    (leaves : Nat → Option (List (Option (Rank × Bytes)))) (span : Nat × Nat) : List Nat → Prop
  | [] => True
  | p :: ps => (live leaves p = [] → Rereads t s leaves span ps) ∧
    (live leaves p ≠ [] → ∃ v, (keyIn t (s.page p) span).toValue = .ok v ∧
      ((∀ r ∈ live leaves p, v.UpTo r.1) → Rereads t s leaves span ps))

section
variable {t : TreeConfig} {s : TreeState} {leaves : Nat → Option (List (Option (Rank × Bytes)))}
  {p q i pos : Nat} {ps qs : List Nat} {x y : Rank} {v : Value} {it it' : BPlusTreeIterator}
  {span : Nat × Nat} {r : Rank × Bytes}

theorem rereads_dead (h : live leaves p = []) :
    Rereads t s leaves span (p :: ps) ↔ Rereads t s leaves span ps := by
  simp [Rereads, h]

theorem rereads_firstLive : ∀ ps, Rereads t s leaves span (firstLive leaves ps) ↔
    Rereads t s leaves span ps
  | [] => Iff.rfl
  | [p] => Iff.rfl
  | p :: q :: ps => by
    by_cases h : live leaves p = []
    · rw [firstLive_dead h, rereads_dead h]
      exact rereads_firstLive (q :: ps)
    · rw [firstLive_live h]

/-- Where the bytes at the place of the last key decode. -/
theorem position_decodes (h : On t (Key.Reads t.keyTypeId) s leaves y it p ps)
    (hk : it.lastKey = some span) (hv : (keyIn t (s.page p) span).toValue = .ok v) :
    ∃ pos, position t it = .ok pos ∧ Separates (slotsOf leaves p) v.UpTo pos := by
  rw [position, hk]
  exact seekFirstAfter_bounds (Key.cuts_value rfl (h.data ▸ hv)) h.slots h.chain.slotsSorted

theorem position_dead (h : On t (Key.Reads t.keyTypeId) s leaves y it p ps) (hl : live leaves p = []) :
    ∃ pos, position t it = .ok pos := by
  rw [position]
  cases it.lastKey with
  | none => exact ⟨_, rfl⟩
  | some span =>
    refine ⟨Search.upperSparse (slotLive it.data) (fun _ => true) _ 0 _,
      Search.upperSparseM_eq (fun i hi => ?_) _ _ _⟩
    obtain ⟨z, b, hz⟩ := h.slots.slotLive.mp hi
    have hmem : (z, b) ∈ live leaves p := mem_liveFrom.mpr ⟨i, Nat.zero_le i, hz⟩
    rw [hl] at hmem
    cases hmem

theorem throws_position {e : Fault} (h : position t it = .error e) : Throws (next t it) s e s := by
  refine Throws.bind_iff.mpr (.inl ?_)
  rw [h]
  rfl

/-- No record of the chain is in the range. -/
def Over (t : TreeConfig) (s : TreeState) (leaves : Nat → Option (List (Option (Rank × Bytes))))
    (y : Rank) (it : BPlusTreeIterator) (p : Nat) (ps : List Nat) : Prop :=
  On t (Key.Reads t.keyTypeId) s leaves y it p ps ∧ ∀ r ∈ records leaves (p :: ps), ¬ r.1 ≤ y

/-- A call that crosses to leaves past the range. -/
theorem cross_yields (h : On t (Key.Reads t.keyTypeId) s leaves y it p ps)
    (hover : ∀ r ∈ records leaves ps, ¬ r.1 ≤ y) (hpos : position t it = .ok pos)
    (hl : liveFrom (slotsOf leaves p) pos = [])
    (ih : ∀ q qs it', qs.length < ps.length → Over t s leaves y it' q qs →
      (Yields t s it' [] ↔ ∀ span, it'.lastKey = some span → Rereads t s leaves span (q :: qs))) :
    Yields t s it [] ↔ ∀ span, it.lastKey = some span → Rereads t s leaves span ps := by
  cases ps with
  | nil =>
    refine iff_of_true (yields_fixed (next_stays (keyOrder_reads _) h hpos ⟨by simp [hl], ?_⟩)) ?_
    · exact fun _ => rfl
    · exact fun _ _ => trivial
  | cons q qs =>
    obtain ⟨q', qs', a, it', hfirst, e, hon, hland⟩ := next_crosses (keyOrder_reads _) h hpos hl
    have hover' : ∀ r ∈ records leaves (q' :: qs'), ¬ r.1 ≤ y := by
      rw [← hfirst, records_firstLive]
      exact hover
    have hlen : qs'.length < (q :: qs).length := by
      have hsuf : firstLive leaves (q :: qs) <:+ q :: qs := firstLive_suffix (q :: qs)
      rw [hfirst] at hsuf
      exact hsuf.length_le
    obtain ⟨-, rfl, hkey⟩ | ⟨i, r, hi, -, hy, -⟩ := hland
    · have hrest := ih q' qs' it' hlen ⟨hon, hover'⟩
      rw [hkey, ← hfirst] at hrest
      simp only [rereads_firstLive] at hrest
      rw [yields_step e, ← hrest]
      simp
    · have hmem : r ∈ live leaves q' := mem_liveFrom.mpr ⟨i, Nat.zero_le i, hi⟩
      exact absurd hy (hover' r (List.mem_append_left _ hmem))

/-- Past the range, every call returns nothing iff the key can be read again. -/
theorem over_yields (n : Nat) : ∀ p ps it, ps.length = n → Over t s leaves y it p ps →
    (Yields t s it [] ↔ ∀ span, it.lastKey = some span → Rereads t s leaves span (p :: ps)) := by
  induction n using Nat.strong_induction_on with
  | _ n ih =>
    rintro p ps it rfl ⟨h, hover⟩
    have hpast : ∀ r ∈ live leaves p, ¬ r.1 ≤ y := fun r hr => hover r (List.mem_append_left _ hr)
    have hcross := fun pos (hpos : position t it = .ok pos) hl => cross_yields h
      (fun r hr => hover r (List.mem_append_right _ hr)) hpos hl
      fun q qs it' hlt => ih qs.length hlt q qs it' rfl
    have hstays : ∀ pos, position t it = .ok pos → liveFrom (slotsOf leaves p) pos ≠ [] →
        Yields t s it [] := fun pos hpos hl => yields_fixed (next_stays (keyOrder_reads _) h hpos
          ⟨fun r hr => hpast r ((liveFrom_sublist _ (Nat.zero_le pos)).subset hr),
            fun hc => absurd hc hl⟩)
    cases hk : it.lastKey with
    | none =>
      have hpos : position t it = .ok it.startSlot := by rw [position, hk]
      refine iff_of_true ?_ (fun span hspan => by cases hspan)
      by_cases hl : liveFrom (slotsOf leaves p) it.startSlot = []
      · exact (hcross _ hpos hl).mpr fun span hspan => by rw [hk] at hspan; cases hspan
      · exact hstays _ hpos hl
    | some span =>
      simp only [Option.some.injEq, forall_eq']
      by_cases hd : live leaves p = []
      · obtain ⟨pos, hpos⟩ := position_dead h hd
        have hl : liveFrom (slotsOf leaves p) pos = [] :=
          List.sublist_nil.mp (hd ▸ liveFrom_sublist (slotsOf leaves p) (Nat.zero_le pos))
        rw [hcross pos hpos hl, rereads_dead hd]
        simp [hk]
      · cases hv : (keyIn t (s.page p) span).toValue with
        | error e =>
          have hfail : position t it = .error e := by
            rw [position, hk]
            exact seekFirstAfter_fails h.slots (h.data ▸ hv) hd
          apply iff_of_false (yields_throws (throws_position hfail))
          intro hc
          obtain ⟨v, hv', -⟩ := hc.2 hd
          rw [hv] at hv'
          cases hv'
        | ok v =>
          obtain ⟨pos, hpos, hsep⟩ := position_decodes h hk hv
          have hl : liveFrom (slotsOf leaves p) pos = [] ↔ ∀ r ∈ live leaves p, v.UpTo r.1 := by
            rw [hsep.liveFrom, List.filter_eq_nil_iff]
            simp [live]
          by_cases hle : ∀ r ∈ live leaves p, v.UpTo r.1
          · rw [hcross pos hpos (hl.mpr hle)]
            simp only [hk, Option.some.injEq, forall_eq']
            exact ⟨fun hr => ⟨fun hc => absurd hc hd, fun _ => ⟨v, hv, fun _ => hr⟩⟩, fun hr => by
              obtain ⟨v', hv', hr⟩ := hr.2 hd
              rw [hv] at hv'
              cases hv'
              exact hr hle⟩
          · refine iff_of_true (hstays pos hpos fun hc => hle (hl.mp hc)) ?_
            exact ⟨fun hc => absurd hc hd, fun _ => ⟨v, hv, fun hc => absurd hc hle⟩⟩

/-! ## Up to the last record -/

/-- The next record in the range is returned, wherever it is. -/
theorem next_record (h : On t (Key.Reads t.keyTypeId) s leaves y it p ps)
    (hpos : position t it = .ok pos) {rest : List (Rank × Bytes)}
    (hr : liveFrom (slotsOf leaves p) pos ++ records leaves ps = r :: rest) (hy : r.1 ≤ y) :
    ∃ q qs i it', (q :: qs) <:+ (p :: ps) ∧ (slotsOf leaves q)[i]? = some (some r) ∧
      rest = liveFrom (slotsOf leaves q) (i + 1) ++ records leaves qs ∧
      Ends (next t it) s (some r.2, it') s ∧ On t (Key.Reads t.keyTypeId) s leaves y it' q qs ∧
      it'.lastKey = some (keySpan t (s.page q) i) := by
  cases hl : liveFrom (slotsOf leaves p) pos with
  | cons r' tl =>
    rw [hl] at hr
    cases hr
    obtain ⟨i, hi, rfl, e⟩ := next_takes (keyOrder_reads _) h hpos hl hy
    exact ⟨p, ps, i, _, List.suffix_refl _, hi, rfl, e, ⟨h.data, h.bound, h.chain⟩, by rw [← h.data]⟩
  | nil =>
    rw [hl, List.nil_append] at hr
    cases ps with
    | nil => cases hr
    | cons q qs =>
      obtain ⟨q', qs', a, it', hfirst, e, hon, hland⟩ := next_crosses (keyOrder_reads _) h hpos hl
      rw [← records_firstLive, hfirst, records_cons] at hr
      obtain ⟨hpast, -, -⟩ | ⟨i, r', hi, hlive, -, rfl, hkey⟩ := hland
      · cases hq : live leaves q' with
        | nil =>
          rw [hq, firstLive_nil _ hfirst hq] at hr
          cases hr
        | cons r' tl =>
          rw [hq] at hr
          cases hr
          exact absurd hy (hpast r (hq ▸ List.mem_cons_self))
      · rw [hlive, liveFrom_cons hi] at hr
        cases hr
        refine ⟨q', qs', i, it', ?_, hi, rfl, e, hon, hkey⟩
        exact (hfirst ▸ firstLive_suffix (q :: qs)).trans (List.suffix_cons p _)

/-- The key of the slot last returned from is that slot's. -/
theorem position_behind (h : On t (Key.Reads t.keyTypeId) s leaves y it p ps)
    (hi : (slotsOf leaves p)[i]? = some (some r)) (hk : it.lastKey = some (keySpan t (s.page p) i)) :
    ∃ pos, position t it = .ok pos ∧
      liveFrom (slotsOf leaves p) pos = liveFrom (slotsOf leaves p) (i + 1) := by
  have hslots := h.chain.slots p List.mem_cons_self
  obtain ⟨v, hv, hr⟩ := (hslots.live i r.1 r.2 hi).2.2.value
  rw [← keyIn_keySpan (hslots.slotLive.mpr ⟨r.1, r.2, hi⟩)] at hv
  obtain ⟨pos, hpos, hsep⟩ := position_decodes h hk hv
  exact ⟨pos, hpos, liveFrom_upper h.chain.live_sorted hi fun j x b hj =>
    (Value.upTo_iff hr).symm.trans (hsep j x b hj)⟩

/-- Where the last record in the range is the last live one of its leaf, its key can be read
again on the leaves that follow. -/
def LastFine (t : TreeConfig) (s : TreeState) (leaves : Nat → Option (List (Option (Rank × Bytes))))
    (x y : Rank) (cs : List Nat) : Prop :=
  ∀ q qs i r, (q :: qs) <:+ cs → (slotsOf leaves q)[i]? = some (some r) → x ≤ r.1 → r.1 ≤ y →
    liveFrom (slotsOf leaves q) (i + 1) = [] → (∀ r' ∈ records leaves qs, ¬ r'.1 ≤ y) →
    Rereads t s leaves (keySpan t (s.page q) i) qs

/-- Nothing in the range is left. -/
theorem ended_yields (h : On t (Key.Reads t.keyTypeId) s leaves y it p ps)
    (hpos : position t it = .ok pos)
    (hr : ∀ r ∈ liveFrom (slotsOf leaves p) pos ++ records leaves ps, ¬ r.1 ≤ y) :
    Yields t s it [] ↔ ∀ span, it.lastKey = some span → liveFrom (slotsOf leaves p) pos = [] →
      Rereads t s leaves span ps := by
  by_cases hl : liveFrom (slotsOf leaves p) pos = []
  · rw [cross_yields h (fun r hr' => hr r (List.mem_append_right _ hr')) hpos hl
      fun q qs it' _ => over_yields qs.length q qs it' rfl]
    simp [hl]
  · refine iff_of_true (yields_fixed (next_stays (keyOrder_reads _) h hpos ⟨fun r hr' =>
      hr r (List.mem_append_left _ hr'), fun hc => absurd hc hl⟩)) fun _ _ hc => absurd hc hl

theorem mem_records (hs : (q :: qs) <:+ ps) (hi : (slotsOf leaves q)[i]? = some (some r)) :
    r ∈ records leaves ps :=
  (records_suffix hs).subset (List.mem_append_left _ (mem_liveFrom.mpr ⟨i, Nat.zero_le i, hi⟩))

/-- What is before a record in the range does not matter. -/
theorem lastFine_suffix (hs : (q :: qs) <:+ ps) (hi : (slotsOf leaves q)[i]? = some (some r))
    (hy : r.1 ≤ y) : LastFine t s leaves x y ps ↔ LastFine t s leaves x y (q :: qs) := by
  constructor
  · intro h q' qs' i' r' hs'
    exact h q' qs' i' r' (hs'.trans hs)
  · intro h q' qs' i' r' hs' hi' hx' hy' hend hpast
    rcases List.suffix_or_suffix_of_suffix hs hs' with hq | hq
    · rcases List.suffix_cons_iff.mp hq with he | hq
      · exact h q' qs' i' r' (he ▸ List.suffix_refl _) hi' hx' hy' hend hpast
      · exact absurd hy (hpast r (mem_records hq hi))
    · exact h q' qs' i' r' hq hi' hx' hy' hend hpast

/-- The last record in the range. -/
theorem lastFine_last (hi : (slotsOf leaves q)[i]? = some (some r)) (hx : x ≤ r.1) (hy : r.1 ≤ y)
    (hpast : ∀ r' ∈ liveFrom (slotsOf leaves q) (i + 1) ++ records leaves qs, ¬ r'.1 ≤ y) :
    LastFine t s leaves x y (q :: qs) ↔ (liveFrom (slotsOf leaves q) (i + 1) = [] →
      Rereads t s leaves (keySpan t (s.page q) i) qs) := by
  constructor
  · intro h hend
    exact h q qs i r (List.suffix_refl _) hi hx hy hend
      fun r' hr' => hpast r' (List.mem_append_right _ hr')
  · intro h q' qs' i' r' hs' hi' _ hy' hend _
    rcases List.suffix_cons_iff.mp hs' with he | hs'
    · cases he
      have hmem : ∀ {j k : Nat} {a : Rank × Bytes}, j < k → (slotsOf leaves q)[k]? = some (some a) →
          a ∈ liveFrom (slotsOf leaves q) (j + 1) := fun hjk ha => mem_liveFrom.mpr ⟨_, hjk, ha⟩
      rcases Nat.lt_trichotomy i i' with hlt | rfl | hlt
      · exact absurd hy' (hpast r' (List.mem_append_left _ (hmem hlt hi')))
      · exact h hend
      · have hr := hmem hlt hi
        rw [hend] at hr
        cases hr
    · exact absurd hy' (hpast r' (List.mem_append_right _ (mem_records hs' hi')))

/-- The first record left is the first one in the range, if there is one. -/
theorem head_of_filter {l rs : List (Rank × Bytes)} (hsorted : l.Pairwise fun a b => a.1 < b.1)
    (h : l.filter (fun r => r.1 ≤ y) = r :: rs) :
    ∃ rest, l = r :: rest ∧ r.1 ≤ y ∧ rest.filter (fun r => r.1 ≤ y) = rs := by
  cases l with
  | nil => cases h
  | cons r' rest =>
    by_cases hy : r'.1 ≤ y
    · rw [List.filter_cons_of_pos (by simpa using hy)] at h
      cases h
      exact ⟨rest, rfl, hy, rfl⟩
    · have hmem : r ∈ (r' :: rest).filter fun r => r.1 ≤ y := h ▸ List.mem_cons_self
      obtain ⟨hm, hry⟩ := List.mem_filter.mp hmem
      have hry : r.1 ≤ y := by simpa using hry
      rcases List.mem_cons.mp hm with rfl | hm
      · exact absurd hry hy
      · exact absurd (le_trans (le_of_lt ((List.pairwise_cons.mp hsorted).1 r hm)) hry) hy

/-- From a position on, the records in the range are returned, then nothing. -/
theorem range_yields {cs : List Nat} {rs : List (Rank × Bytes)} (hne : rs ≠ [])
    (hs : (p :: ps) <:+ cs) (h : On t (Key.Reads t.keyTypeId) s leaves y it p ps)
    (hpos : position t it = .ok pos)
    (hx : ∀ r ∈ liveFrom (slotsOf leaves p) pos ++ records leaves ps, x ≤ r.1)
    (hrs : (liveFrom (slotsOf leaves p) pos ++ records leaves ps).filter (fun r => r.1 ≤ y) = rs) :
    Yields t s it (rs.map Prod.snd) ↔ LastFine t s leaves x y cs := by
  induction rs generalizing p ps it pos with
  | nil => exact absurd rfl hne
  | cons r rs ih =>
    have hsorted : (liveFrom (slotsOf leaves p) pos ++ records leaves ps).Pairwise
        fun a b => a.1 < b.1 :=
      h.chain.sorted.sublist ((liveFrom_sublist _ (Nat.zero_le pos)).append_right _)
    obtain ⟨rest, hr, hy, hrest⟩ := head_of_filter hsorted hrs
    rw [hr] at hx
    obtain ⟨q, qs, i, it', hq, hi, rfl, e, hon, hk⟩ := next_record h hpos hr hy
    obtain ⟨pos', hpos', hfrom⟩ := position_behind hon hi hk
    rw [List.map_cons, yields_step e]
    simp only [List.head?_cons, List.tail_cons, true_and]
    by_cases hnil : rs = []
    · subst hnil
      have hpast : ∀ r' ∈ liveFrom (slotsOf leaves q) (i + 1) ++ records leaves qs, ¬ r'.1 ≤ y := by
        simpa using List.filter_eq_nil_iff.mp hrest
      rw [lastFine_suffix (hq.trans hs) hi hy, lastFine_last hi (hx r List.mem_cons_self) hy hpast,
        List.map_nil, ended_yields hon hpos' (hfrom ▸ hpast)]
      simp [hk, hfrom]
    · exact ih hnil (hq.trans hs) hon hpos' (fun r' hr' => hx r' (List.mem_cons_of_mem r (hfrom ▸ hr')))
        (hfrom ▸ hrest)

end

/-! ## The whole scan -/

/-- The leaf is below the root, and takes the keys in `J`. -/
def LeafBelow (kids : Nat → Option (List (Rank × Nat))) (root p : Nat) (J : Set Rank) : Prop :=
  kids p = none ∧ ∃ path, Below kids root Set.univ path p J

/-- A leaf with its live keys increasing, each among those led to it. -/
def LeafOrdered (leaves : Nat → Option (List (Option (Rank × Bytes)))) (p : Nat) (J : Set Rank) :
    Prop :=
  ∃ slots, leaves p = some slots ∧ ((liveFrom slots 0).Pairwise fun a b => a.1 < b.1) ∧
    ∀ r ∈ liveFrom slots 0, r.1 ∈ J

/-- A search tree on disk whose leaves are a chain in the order of their keys; a leaf without
records takes the place of the keys that are led to it. -/
structure ScanTree (t : TreeConfig) (s : TreeState) (kids : Nat → Option (List (Rank × Nat)))
    (leaves : Nat → Option (List (Option (Rank × Bytes)))) (chain : List Nat) : Prop where
  pages : TreePages t (Key.Reads t.keyTypeId) s kids (LeafOrdered leaves)
  slots : ∀ p slots, leaves p = some slots → ReadsSlots t (Key.Reads t.keyTypeId) (s.page p) slots
  tree : IsTree kids (LeafOrdered leaves) s.rootPageId Set.univ
  cover : ∀ p, p ∈ chain ↔ ∃ J, LeafBelow kids s.rootPageId p J
  ordered : chain.Pairwise fun p q => ∀ J J', LeafBelow kids s.rootPageId p J →
    LeafBelow kids s.rootPageId q J' → ∀ a ∈ J, ∀ b ∈ J', a < b
  linked : RightChain s chain

/-- A scan returns the live records in the range in ascending order, each once, then nothing. -/
def ScansExactly (t : TreeConfig) (s : TreeState) (kids : Nat → Option (List (Rank × Nat)))
    (leaves : Nat → Option (List (Option (Rank × Bytes)))) (start end_ : Key) (x y : Rank) : Prop :=
  ∃ rs : List (Rank × Bytes), (rs.Pairwise fun a b => a.1 < b.1) ∧
    (∀ r, r ∈ rs ↔ (∃ p J, LeafBelow kids s.rootPageId p J ∧ r ∈ live leaves p) ∧ x ≤ r.1 ∧ r.1 ≤ y) ∧
    ∃ it, Ends (scan t start end_) s it s ∧ Yields t s it (rs.map Prod.snd)

section
variable {t : TreeConfig} {s : TreeState} {kids : Nat → Option (List (Rank × Nat))}
  {leaves : Nat → Option (List (Option (Rank × Bytes)))} {chain pre rest ps : List Nat} {p q i : Nat}
  {J : Set Rank} {x y : Rank} {v : Value} {data : Mem} {span : Nat × Nat} {start end_ : Key}
  {r : Rank × Bytes}

/-! ### Keys of a fixed width -/

theorem numericDeserialize_avail {a b : View} {w : Nat} (hab : a.avail = b.avail)
    (h : numericDeserialize a w = .ok v) : ∃ v', numericDeserialize b w = .ok v' := by
  rw [numericDeserialize, View.read] at h
  by_cases ha : w ≤ a.avail
  · rw [if_pos ha] at h
    by_cases hw : w = 1 ∨ w = 2 ∨ w = 4 ∨ w = 8
    · exact ⟨_, numericDeserialize_ok hw (hab ▸ ha)⟩
    · cases (if_neg hw).symm.trans h
  · rw [if_neg ha] at h
    cases h

theorem floatDeserialize_avail {a b : View} {w : Nat} (hab : a.avail = b.avail)
    (h : floatDeserialize a w = .ok v) : ∃ v', floatDeserialize b w = .ok v' := by
  rw [floatDeserialize, View.read, View.read] at h
  rw [floatDeserialize, View.read, View.read, ← hab]
  by_cases hw : w = 4
  · rw [if_pos hw] at h ⊢
    by_cases ha : 4 ≤ a.avail
    · rw [if_pos ha]
      exact ⟨_, rfl⟩
    · rw [if_neg ha] at h
      cases h
  · rw [if_neg hw] at h ⊢
    by_cases ha : 8 ≤ a.avail
    · rw [if_pos ha]
      exact ⟨_, rfl⟩
    · rw [if_neg ha] at h
      cases h

theorem booleanDeserialize_avail {a b : View} {w : Nat} (hab : a.avail = b.avail)
    (h : booleanDeserialize a w = .ok v) : ∃ v', booleanDeserialize b w = .ok v' := by
  rw [booleanDeserialize, View.read] at h
  rw [booleanDeserialize, View.read, ← hab]
  by_cases hw : w > 1
  · cases (if_pos hw).symm.trans h
  · rw [if_neg hw] at h ⊢
    by_cases ha : w ≤ a.avail
    · rw [if_pos ha]
      exact ⟨_, rfl⟩
    · rw [if_neg ha] at h
      cases h

/-- Whatever replaces the buffer, a key that is not `VARCHAR` decodes. -/
theorem keyIn_fixed (ht : t.keyTypeId ≠ .varchar) (h : (keyIn t data span).toValue = .ok v)
    (data' : Mem) : ∃ v', (keyIn t data' span).toValue = .ok v' := by
  simp only [keyIn, Key.fromBytes, Key.toValue] at h ⊢
  cases hty : t.keyTypeId with
  | numeric => rw [hty] at h; exact numericDeserialize_avail (a := ⟨data.shift span.1, _⟩) rfl h
  | boolean => rw [hty] at h; exact booleanDeserialize_avail (a := ⟨data.shift span.1, _⟩) rfl h
  | varchar => exact absurd hty ht
  | float => rw [hty] at h; exact floatDeserialize_avail (a := ⟨data.shift span.1, _⟩) rfl h
  | invalid => rw [hty] at h; cases h

theorem rereads_fixed (ht : t.keyTypeId ≠ .varchar) (h : (keyIn t data span).toValue = .ok v) :
    Rereads t s leaves span ps := by
  induction ps with
  | nil => trivial
  | cons p ps ih =>
    obtain ⟨v', hv'⟩ := keyIn_fixed ht h (s.page p)
    exact ⟨fun _ => ih, fun _ => ⟨v', hv', fun _ => ih⟩⟩

/-! ### The chain of a tree -/

namespace ScanTree

theorem leafOrdered (h : ScanTree t s kids leaves chain) (hp : LeafBelow kids s.rootPageId p J) :
    LeafOrdered leaves p J := by
  obtain ⟨hnone, path, hb⟩ := hp
  cases h.tree.subtree hb with
  | leaf _ hl => exact hl
  | inner hp' => rw [hnone] at hp'; cases hp'

theorem slotsOf_eq {slots : List (Option (Rank × Bytes))} (hp : leaves p = some slots) :
    slotsOf leaves p = slots := by
  rw [slotsOf, hp, Option.getD_some]

theorem live_mem (h : ScanTree t s kids leaves chain) (hp : LeafBelow kids s.rootPageId p J)
    (hr : r ∈ live leaves p) : r.1 ∈ J := by
  obtain ⟨slots, hslots, -, hJ⟩ := h.leafOrdered hp
  rw [live, slotsOf_eq hslots] at hr
  exact hJ r hr

theorem keyChain (h : ScanTree t s kids leaves chain) :
    KeyChain t (Key.Reads t.keyTypeId) s leaves chain where
  io := h.pages.io
  mapped p hp := by
    obtain ⟨J, hJ⟩ := (h.cover p).mp hp
    exact (h.pages.leaf p J (h.leafOrdered hJ)).1
  slots p hp := by
    obtain ⟨J, hJ⟩ := (h.cover p).mp hp
    obtain ⟨slots, hslots, -⟩ := h.leafOrdered hJ
    rw [slotsOf_eq hslots]
    exact h.slots p slots hslots
  linked := h.linked
  sorted := by
    refine List.pairwise_flatMap.mpr ⟨fun p hp => ?_, h.ordered.imp_of_mem fun {p q} hp hq hlt => ?_⟩
    · obtain ⟨J, hJ⟩ := (h.cover p).mp hp
      obtain ⟨slots, hslots, hsorted, -⟩ := h.leafOrdered hJ
      rw [live, slotsOf_eq hslots]
      exact hsorted
    · obtain ⟨J, hJ⟩ := (h.cover p).mp hp
      obtain ⟨J', hJ'⟩ := (h.cover q).mp hq
      exact fun a ha b hb => hlt J J' hJ hJ' _ (h.live_mem hJ ha) _ (h.live_mem hJ' hb)

/-- The leaf a key is led to has greater keys behind it in the chain, and smaller ones before. -/
theorem split_chain (h : ScanTree t s kids leaves (pre ++ q :: rest))
    (hq : LeafBelow kids s.rootPageId q J) (hx : x ∈ J) :
    (∀ r ∈ records leaves pre, r.1 < x) ∧ ∀ r ∈ records leaves rest, x < r.1 := by
  obtain ⟨-, hrest, hpre⟩ := List.pairwise_append.mp h.ordered
  constructor
  · intro r hr
    obtain ⟨p, hp, hr⟩ := List.mem_flatMap.mp hr
    obtain ⟨J', hJ'⟩ := (h.cover p).mp (List.mem_append_left _ hp)
    exact hpre p hp q List.mem_cons_self J' J hJ' hq _ (h.live_mem hJ' hr) _ hx
  · intro r hr
    obtain ⟨p, hp, hr⟩ := List.mem_flatMap.mp hr
    obtain ⟨J', hJ'⟩ := (h.cover p).mp (List.mem_append_right _ (List.mem_cons_of_mem q hp))
    exact (List.pairwise_cons.mp hrest).1 p hp J J' hq hJ' _ hx _ (h.live_mem hJ' hr)

/-- Where a scan starts: at the leaf the first key is led to, before its first slot in the range. -/
theorem scan_starts (h : ScanTree t s kids leaves chain) (hx : start.Reads t.keyTypeId x)
    (hy : end_.Reads t.keyTypeId y) : ∃ pre q rest J pos it, chain = pre ++ q :: rest ∧
      LeafBelow kids s.rootPageId q J ∧ x ∈ J ∧ Ends (scan t start end_) s it s ∧
      On t (Key.Reads t.keyTypeId) s leaves y it q rest ∧ it.lastKey = none ∧
      position t it = .ok pos ∧ Separates (slotsOf leaves q) (· < x) pos := by
  obtain ⟨path, q, J, hb, hnone, ⟨slots, hslots, hsorted, hJ⟩, hxJ⟩ :=
    h.tree.exists_leaf (Set.mem_univ x)
  have hq : LeafBelow kids s.rootPageId q J := ⟨hnone, path, hb⟩
  obtain ⟨pre, rest, rfl⟩ := List.append_of_mem ((h.cover q).mpr ⟨J, hq⟩)
  have hchain := h.keyChain.suffix (List.suffix_append pre (q :: rest))
  have hcut := (keyOrder_reads t.keyTypeId).cuts hx
  obtain ⟨pos, hpos, hsep⟩ := leafSlot_bounds hcut (hchain.slots q List.mem_cons_self)
    hchain.slotsSorted
  have hmapped := hchain.mapped q List.mem_cons_self
  have e := findRecord_routed hcut h.pages h.tree hb hxJ
    (hchain.slots q List.mem_cons_self).type hpos
  refine ⟨pre, q, rest, J, pos, ⟨q, pos, none, end_, s.page q⟩, rfl, hq, hxJ, ?_, ⟨rfl, hy, hchain⟩,
    rfl, rfl, hsep⟩
  exact e.bind ((ends_disk (readPage_ends h.pages.io hmapped)).bind (.pure _ _))

end ScanTree

/-- The records in the range, in order, are what there is to return. -/
theorem range_unique {rs rs' : List (Rank × Bytes)} (h : rs.Pairwise fun a b => a.1 < b.1)
    (h' : rs'.Pairwise fun a b => a.1 < b.1) (hiff : ∀ r, r ∈ rs ↔ r ∈ rs') : rs = rs' := by
  have : Std.Irrefl fun a b : Rank × Bytes => a.1 < b.1 := ⟨fun a => lt_irrefl a.1⟩
  have : Std.Antisymm fun a b : Rank × Bytes => a.1 < b.1 := ⟨fun a b h h' => absurd h' (lt_asymm h)⟩
  exact h.eq_of_mem_iff h' hiff

/-- What an iterator on a chain yields that starts at the leaf of the first key, before its first
slot in the range. -/
theorem chain_yields {it : BPlusTreeIterator} {pos : Nat}
    (hon : On t (Key.Reads t.keyTypeId) s leaves y it q rest)
    (hkey : it.lastKey = none) (hpos : position t it = .ok pos)
    (hsep : Separates (slotsOf leaves q) (· < x) pos) (hpre : ∀ r ∈ records leaves pre, r.1 < x)
    (hrest : ∀ r ∈ records leaves rest, x < r.1) :
    ∃ rs : List (Rank × Bytes), (rs.Pairwise fun a b => a.1 < b.1) ∧
      (∀ r, r ∈ rs ↔ r ∈ records leaves (pre ++ q :: rest) ∧ x ≤ r.1 ∧ r.1 ≤ y) ∧
      (Yields t s it (rs.map Prod.snd) ↔ LastFine t s leaves x y (pre ++ q :: rest)) := by
  have hmem : ∀ r, r ∈ liveFrom (slotsOf leaves q) pos ++ records leaves rest ↔
      r ∈ records leaves (pre ++ q :: rest) ∧ x ≤ r.1 := by
    intro r
    have hhead : r ∈ liveFrom (slotsOf leaves q) pos ↔ r ∈ live leaves q ∧ x ≤ r.1 := by
      rw [hsep.liveFrom, List.mem_filter]
      simp [live]
    have hsplit : r ∈ records leaves (pre ++ q :: rest) ↔
        r ∈ records leaves pre ∨ r ∈ live leaves q ∨ r ∈ records leaves rest := by
      simp [records]
    rw [List.mem_append, hhead, hsplit]
    constructor
    · rintro (hr | hr)
      · exact ⟨.inr (.inl hr.1), hr.2⟩
      · exact ⟨.inr (.inr hr), le_of_lt (hrest r hr)⟩
    · rintro ⟨hr | hr | hr, hxr⟩
      · exact absurd hxr (not_le.mpr (hpre r hr))
      · exact .inl ⟨hr, hxr⟩
      · exact .inr hr
  generalize hrs : (liveFrom (slotsOf leaves q) pos ++ records leaves rest).filter
    (fun r => r.1 ≤ y) = rs
  have hrslt : rs.Pairwise fun a b => a.1 < b.1 := by
    rw [← hrs]
    exact (hon.chain.sorted.sublist ((liveFrom_sublist _ (Nat.zero_le pos)).append_right _)).filter _
  refine ⟨rs, hrslt, fun r => ?_, ?_⟩
  · rw [← hrs, List.mem_filter, hmem, decide_eq_true_eq, and_assoc]
  by_cases hnil : rs = []
  · subst hnil
    refine iff_of_true ((ended_yields hon hpos ?_).mpr ?_) fun p ps i r hs hi hxr hyr => ?_
    · simpa using List.filter_eq_nil_iff.mp hrs
    · intro span hspan
      rw [hkey] at hspan
      cases hspan
    · have hr : r ∈ ([] : List (Rank × Bytes)) :=
        hrs ▸ List.mem_filter.mpr ⟨(hmem r).mpr ⟨mem_records hs hi, hxr⟩, by simpa using hyr⟩
      cases hr
  · exact range_yields hnil (List.suffix_append pre _) hon hpos (fun r hr => ((hmem r).mp hr).2) hrs

/-- A scan is exact iff its last key can be read again where it is. -/
theorem scansExactly_iff (h : ScanTree t s kids leaves chain) (hx : start.Reads t.keyTypeId x)
    (hy : end_.Reads t.keyTypeId y) :
    ScansExactly t s kids leaves start end_ x y ↔ LastFine t s leaves x y chain := by
  obtain ⟨pre, q, rest, J, pos, it, rfl, hq, hxJ, e, hon, hkey, hpos, hsep⟩ := h.scan_starts hx hy
  obtain ⟨hpre, hrest⟩ := h.split_chain hq hxJ
  obtain ⟨rs, hrslt, hrsmem, hiff⟩ := chain_yields hon hkey hpos hsep hpre hrest
  have hmem : ∀ r, r ∈ rs ↔ (∃ p J, LeafBelow kids s.rootPageId p J ∧ r ∈ live leaves p) ∧
      x ≤ r.1 ∧ r.1 ≤ y := by
    intro r
    rw [hrsmem, records, List.mem_flatMap]
    apply and_congr_left
    intro _
    constructor
    · rintro ⟨p, hp, hr⟩
      obtain ⟨J, hJ⟩ := (h.cover p).mp hp
      exact ⟨p, J, hJ, hr⟩
    · rintro ⟨p, J, hJ, hr⟩
      exact ⟨p, (h.cover p).mpr ⟨J, hJ⟩, hr⟩
  rw [← hiff]
  constructor
  · rintro ⟨rs', hlt', hmem', it', e', hy'⟩
    obtain rfl := range_unique hlt' hrslt fun r => (hmem' r).trans (hmem r).symm
    obtain ⟨rfl, -⟩ := Ends.unique e e'
    exact hy'
  · exact fun hy' => ⟨rs, hrslt, hmem, it, e, hy'⟩

/-- A key that is not `VARCHAR` decodes on every page, as it did on its own. -/
theorem keyChain_lastFine (h : KeyChain t (Key.Reads t.keyTypeId) s leaves chain)
    (ht : t.keyTypeId ≠ .varchar) : LastFine t s leaves x y chain := by
  intro p ps i r hs hi _ _ _ _
  have hslots := h.slots p (hs.subset List.mem_cons_self)
  obtain ⟨v, hv, -⟩ := (hslots.live i r.1 r.2 hi).2.2.value
  rw [← keyIn_keySpan (hslots.slotLive.mpr ⟨r.1, r.2, hi⟩)] at hv
  exact rereads_fixed ht hv

theorem lastFine_fixed (h : ScanTree t s kids leaves chain) (ht : t.keyTypeId ≠ .varchar) :
    LastFine t s leaves x y chain := keyChain_lastFine h.keyChain ht

/-- A scan returns exactly the live records in its range, in order, and then nothing on every
further call, iff no `VARCHAR` key is left pointing at bytes that do not decode. -/
theorem scan_exact (h : ScanTree t s kids leaves chain) (hx : start.Reads t.keyTypeId x)
    (hy : end_.Reads t.keyTypeId y) : ScansExactly t s kids leaves start end_ x y ↔
      (t.keyTypeId = .varchar → LastFine t s leaves x y chain) := by
  rw [scansExactly_iff h hx hy]
  refine ⟨fun hf _ => hf, fun hf => ?_⟩
  by_cases ht : t.keyTypeId = .varchar
  · exact hf ht
  · exact lastFine_fixed h ht

end

/-! ### Two leaves with `VARCHAR` keys -/

/-- The page with a record behind its last slot. -/
def withRecord (page : Mem) (b : Bytes) : Mem :=
  match insertRecord page (Mem.ofBytes b) b.length with
  | .ok (_, page) => page
  | .error _ => page

/-- The leaf 1 has the key `a`, the leaf 2 the key `zz`; both are below the page 3. -/
def varcharPages : Nat → Mem
  | 1 => withRecord (setRightSibling (init Mem.zero 1 .leafPage) 2) [1, 0, 97]
  | 2 => withRecord (init Mem.zero 2 .leafPage) [2, 0, 122, 122]
  | 3 => withRecord (withRecord (withRecord (withRecord (init Mem.zero 3 .internalPage) [1, 0, 97])
      (idBytes 1)) [2, 0, 122, 122]) (idBytes 2)
  | _ => Mem.zero

def varcharState : TreeState where
  diskManager := { globalMetadata := ⟨MAGIC_NUMBER, 0, 3, INVALID_PAGE_ID, 4⟩,
                   bytes := fun i => varcharPages (i / PAGE_SIZE) (i % PAGE_SIZE),
                   size := 4 * PAGE_SIZE, io := none }
  rootPageId := 3

def varcharConfig : TreeConfig := { keyTypeId := .varchar }

def varcharKids (p : Nat) : Option (List (Rank × Nat)) :=
  if p = 3 then some [(.varchar [97], 1), (.varchar [122, 122], 2)] else none

def varcharLeaves (p : Nat) : Option (List (Option (Rank × Bytes))) :=
  if p = 1 then some [some (.varchar [97], [1, 0, 97])]
  else if p = 2 then some [some (.varchar [122, 122], [2, 0, 122, 122])] else none

def varcharKey (b : Bytes) : Key := Key.fromBytes .varchar 8 (View.ofBytes b) b.length

/-- A leaf with one record. -/
theorem readsSlots_one {t : TreeConfig} {data : Mem} {x : Rank} {b : Bytes} {o : Nat}
    (htype : getPageType data = .leafPage) (hcount : getSlotCount data = 1)
    (hr : getRecord data 0 = (some o, b.length)) (hb : data.slice o b.length = b) (hne : b ≠ [])
    (ho : o + b.length ≤ PAGE_SIZE) (hk : (keyAt t data 0).Reads t.keyTypeId x) :
    ReadsSlots t (Key.Reads t.keyTypeId) data [some (x, b)] where
  type := htype
  count := hcount
  dead i hi := by
    have := (List.getElem?_eq_some_iff.mp hi).1
    match i with
    | 0 => cases hi
  live i y c hi := by
    have hlt := (List.getElem?_eq_some_iff.mp hi).1
    match i with
    | 0 =>
      cases hi
      refine ⟨hne, ⟨_, by rw [record, hr], ?_, by simp only; omega⟩, hk⟩
      rw [Mem.slice_shift, Nat.add_zero]
      exact hb

theorem varchar_lt : Rank.varchar [97] < .varchar [122, 122] := by
  simp [Rank.lt_iff_code, Rank.code, List.cons_lt_cons_iff]

theorem varcharKids_some {p : Nat} {ks : List (Rank × Nat)} (h : varcharKids p = some ks) :
    p = 3 ∧ ks = [(.varchar [97], 1), (.varchar [122, 122], 2)] := by
  unfold varcharKids at h
  split at h
  · cases h
    exact ⟨‹p = 3›, rfl⟩
  · cases h

theorem varcharLeaves_some {p : Nat} {slots : List (Option (Rank × Bytes))}
    (h : varcharLeaves p = some slots) :
    p = 1 ∧ slots = [some (.varchar [97], [1, 0, 97])] ∨
      p = 2 ∧ slots = [some (.varchar [122, 122], [2, 0, 122, 122])] := by
  unfold varcharLeaves at h
  split at h
  · cases h
    exact .inl ⟨‹p = 1›, rfl⟩
  · split at h
    · cases h
      exact .inr ⟨‹p = 2›, rfl⟩
    · cases h

theorem varchar_slots (p : Nat) (slots : List (Option (Rank × Bytes)))
    (h : varcharLeaves p = some slots) :
    ReadsSlots varcharConfig (Key.Reads varcharConfig.keyTypeId) (varcharState.page p) slots := by
  obtain ⟨rfl, rfl⟩ | ⟨rfl, rfl⟩ := varcharLeaves_some h
  · exact readsSlots_one (o := 4093) (by decide +kernel) (by decide +kernel) (by decide +kernel)
      (by decide +kernel) (by decide) (by decide) (by decide +kernel)
  · exact readsSlots_one (o := 4092) (by decide +kernel) (by decide +kernel) (by decide +kernel)
      (by decide +kernel) (by decide) (by decide) (by decide +kernel)

theorem varchar_pages : TreePages varcharConfig (Key.Reads varcharConfig.keyTypeId) varcharState
    varcharKids (LeafOrdered varcharLeaves) where
  io := rfl
  inner p ks h := by
    obtain ⟨rfl, rfl⟩ := varcharKids_some h
    refine ⟨⟨by decide, by decide +kernel⟩, by decide +kernel, by decide +kernel, fun i k c hi => ?_⟩
    match i with
    | 0 =>
      cases hi
      exact ⟨by decide +kernel, by decide +kernel⟩
    | 1 =>
      cases hi
      exact ⟨by decide +kernel, by decide +kernel⟩
  leaf p S h := by
    obtain ⟨slots, hslots, -⟩ := h
    refine ⟨?_, (varchar_slots p slots hslots).type⟩
    obtain ⟨rfl, -⟩ | ⟨rfl, -⟩ := varcharLeaves_some hslots
    · exact ⟨by decide, by decide +kernel⟩
    · exact ⟨by decide, by decide +kernel⟩

/-- The keys from `zz` on are led to the second leaf, the others to the first. -/
theorem varchar_below {p : Nat} {J : Set Rank} (h : LeafBelow varcharKids 3 p J) :
    p = 1 ∧ J ⊆ {x | x < .varchar [122, 122]} ∨ p = 2 ∧ J ⊆ {x | .varchar [122, 122] ≤ x} := by
  obtain ⟨hnone, path, hb⟩ := h
  cases hb with
  | here => cases hnone
  | @step _ _ c k _ _ ks i path hp hi hb =>
    obtain ⟨-, rfl⟩ := varcharKids_some hp
    have hlt := (List.getElem?_eq_some_iff.mp hi).1
    match i with
    | 0 =>
      cases hi
      cases hb with
      | here => exact .inl ⟨rfl, fun x hx => hx.2.2 _ rfl⟩
      | step hp _ _ => cases hp
    | 1 =>
      cases hi
      cases hb with
      | here => exact .inr ⟨rfl, fun x hx => hx.2.1 (by decide) _ rfl⟩
      | step hp _ _ => cases hp

theorem varchar_tree :
    ScanTree varcharConfig varcharState varcharKids varcharLeaves [1, 2] where
  pages := varchar_pages
  slots := varchar_slots
  tree := by
    refine .inner (p := 3) rfl (by simp) (by simpa using varchar_lt) fun i k c hi => ?_
    have hlt := (List.getElem?_eq_some_iff.mp hi).1
    match i with
    | 0 =>
      cases hi
      refine .leaf rfl ⟨_, rfl, List.pairwise_singleton _ _, fun r hr => ?_⟩
      cases List.mem_singleton.mp hr
      refine ⟨trivial, fun h => absurd rfl h, fun pr hpr => ?_⟩
      cases hpr
      exact varchar_lt
    | 1 =>
      cases hi
      refine .leaf rfl ⟨_, rfl, List.pairwise_singleton _ _, fun r hr => ?_⟩
      cases List.mem_singleton.mp hr
      refine ⟨trivial, fun _ pr hpr => ?_, fun pr hpr => ?_⟩
      · cases hpr
        exact le_refl _
      · cases hpr
  cover p := by
    constructor
    · intro hp
      simp only [List.mem_cons, List.not_mem_nil, or_false] at hp
      obtain rfl | rfl := hp
      · exact ⟨_, rfl, _, .step (i := 0) rfl rfl (.here _ _)⟩
      · exact ⟨_, rfl, _, .step (i := 1) rfl rfl (.here _ _)⟩
    · rintro ⟨J, hJ⟩
      obtain ⟨rfl, -⟩ | ⟨rfl, -⟩ := varchar_below hJ
      · simp
      · simp
  ordered := by
    apply List.pairwise_pair.mpr
    intro J J' hJ hJ' a ha b hb
    obtain ⟨-, h1⟩ | ⟨h1, -⟩ := varchar_below hJ
    · obtain ⟨h2, -⟩ | ⟨-, h2⟩ := varchar_below hJ'
      · cases h2
      · exact lt_of_lt_of_le (h1 ha) (h2 hb)
    · cases h1
  linked := by
    have hlast : getRightSibling (varcharState.page 2) = INVALID_PAGE_ID := by decide +kernel
    exact ⟨by decide +kernel, by decide, hlast⟩

/-- The scan for both keys. -/
theorem scan_exact_two : ScansExactly varcharConfig varcharState varcharKids varcharLeaves
    (varcharKey [1, 0, 97]) (varcharKey [2, 0, 122, 122]) (.varchar [97]) (.varchar [122, 122]) := by
  apply (scan_exact varchar_tree (by decide +kernel) (by decide +kernel)).mpr
  intro _ q qs i r hs hi hx hy hend hpast
  obtain rfl | rfl : qs = [2] ∨ qs = [] := by
    rcases List.suffix_cons_iff.mp hs with h | h
    · cases h
      exact .inl rfl
    · rcases List.suffix_cons_iff.mp h with h | h
      · cases h
        exact .inr rfl
      · cases List.suffix_nil.mp h
  · exact absurd (le_refl _) (hpast (.varchar [122, 122], [2, 0, 122, 122]) (List.mem_singleton.mpr rfl))
  · trivial

/-- The scan for the first key alone: the third call looks for a length in the middle of the
other record. -/
theorem scan_overruns : ∃ start end_ x y,
    ScanTree varcharConfig varcharState varcharKids varcharLeaves [1, 2] ∧
    start.Reads varcharConfig.keyTypeId x ∧ end_.Reads varcharConfig.keyTypeId y ∧ x ≤ y ∧
    ¬ ScansExactly varcharConfig varcharState varcharKids varcharLeaves start end_ x y := by
  have hk : (varcharKey [1, 0, 97]).Reads varcharConfig.keyTypeId (.varchar [97]) := by
    decide +kernel
  refine ⟨_, _, _, _, varchar_tree, hk, hk, le_refl _, fun h => ?_⟩
  have hfine := (scansExactly_iff varchar_tree hk hk).mp h 1 [2] 0 _ (List.suffix_refl _) rfl
    (le_refl _) (le_refl _) rfl fun r hr => by
      cases List.mem_singleton.mp hr
      exact not_le.mpr varchar_lt
  obtain ⟨v, hv, -⟩ := hfine.2 (List.cons_ne_nil _ _)
  have herr : (keyIn varcharConfig (varcharState.page 2)
      (keySpan varcharConfig (varcharState.page 1) 0)).toValue = .error .outOfBounds := by
    decide +kernel
  cases herr.symm.trans hv

end DbInternals.Index
