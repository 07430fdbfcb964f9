import DbInternals.Core.LTS
import DbInternals.Logging.FlushLoop

/-!
# Group commit

Any number of threads call `append` and `flush_to`. A step is a critical
section of `mtx` or `flush_mtx_`, or the `append_durable` between two: the
loop test under `flush_mtx_` ends in an election, a wait or the return, and
publishing is followed by the next loop test under the same lock.

Results:
* `Inv.exec`: the log file is the records below the written bound, the fill
  buffer those of the batch being written, the append buffer the rest;
* `Led.tooEarly_iff`: where a loop test passes with record `l` not yet written;
* `flush_durable_iff`: so which return of `flush_to(l)` leaves record `l` in the log.
-/
namespace DbInternals.Logging

open Mem DbInternals.Logging.Group

/-! ## The system -/

inductive Action where
  | append (lrh : LogRecordHeader) (before after : Bytes)
  | flushTo (target : Nat)
  | copyToFillBuffer
  | appendDurable
  | publish
  /-- the wait ends: notified or spurious -/
  | wake
  deriving DecidableEq, Repr

/-- One step of thread `i`, if it can take it; `append_durable` has `n` bytes to
write. -/
def Group.exec (s : Group Nat) (i : Nat) (a : Action) : Option (Outcome × Group Nat) :=
  match a, s.pc i with
  | .append lrh before after, .idle =>
    match s.log.append lrh before after with
    | .ok (lsn, log) => some (.appended lsn, { s with log })
    | .error _ => none
  | .flushTo target, .idle => some (s.loop i target)
  | .copyToFillBuffer, .elected target =>
    let ((batchEndLSN, n), log) := s.log.copyToFillBuffer
    some (.running, { s with log }.goto i (.appending target batchEndLSN n))
  | .appendDurable, .appending target batchEndLSN n =>
    some (.running, { s with log := s.log.appendDurable n }.goto i (.written target batchEndLSN))
  | .publish, .written target batchEndLSN =>
    some (({ s with log := s.log.publish batchEndLSN } : Group Nat).loop i target)
  | .wake, .waiting target =>
    if s.log.flushedLSN ≥ target ∨ !s.log.flushing then some (s.loop i target) else none
  | _, _ => none

/-- A step of the system: the thread, what it did and how that ended. -/
structure Event where
  thread : Nat
  action : Action
  outcome : Outcome
  deriving DecidableEq, Repr

/-- `LogManager` over a log file that already holds `file`. -/
def groupCommit (file : Bytes) : LTS (Group Nat) Event where
  init s := s.log.file = file ∧ s.log.currentLSN = 0 ∧ s.log.flushedLSN = 0 ∧
    s.log.flushing = false ∧ s.log.appendBuffer = [] ∧ ∀ i, s.pc i = .idle
  step s e s' := s.exec e.thread e.action = some (e.outcome, s')

/-! ## Reading the log -/

/-- The records in a stretch of the log, each as long as its `size` says, up
to the first one that is not complete. -/
def logRecords : Nat → Bytes → List Bytes
  | 0, _ => []
  | fuel + 1, log =>
    let size := (ofBytes log).readLE 0 4
    if size < sizeofLogRecordHeader ∨ log.length < size then []
    else log.take size :: logRecords fuel (log.drop size)

/-- The record is complete in the log file, behind the first `start` bytes. -/
def InLog (start : Nat) (file record : Bytes) : Prop :=
  record ∈ logRecords file.length (file.drop start)

/-- A record as `append` lays it out. -/
structure IsRecord (r : Bytes) (lsn : Nat) : Prop where
  header : sizeofLogRecordHeader ≤ r.length
  size : (ofBytes r).readLE 0 4 = r.length
  lsn : (ofBytes r).readLE 8 8 = lsn

theorem recordOf_isRecord (lrh : LogRecordHeader) {before after : Bytes} {lsn : Nat}
    (hsz : sizeofLogRecordHeader + before.length + after.length < 2 ^ 32) (hl : lsn < 2 ^ 64) :
    IsRecord (recordOf lrh before after lsn) lsn := by
  have hsize : ({ lrh.prepare before after with lsn } : LogRecordHeader).size =
      sizeofLogRecordHeader + before.length + after.length := Nat.mod_eq_of_lt hsz
  simp only [recordOf]
  generalize hh : ({ lrh.prepare before after with lsn } : LogRecordHeader) = h at hsize
  have hlsn : h.lsn = lsn := by rw [← hh]
  have hlen := length_record h before after
  refine ⟨by rw [hlen, hsize]; omega, ?_, ?_⟩
  · rw [record_readLE hsize (by omega) (by omega), LogRecordHeader.bytes]
    iterate 15 rw [readLE_writeLE_frame (by omega)]
    rw [readLE_writeLE, hlen, Nat.mod_eq_of_lt (by omega)]
  · rw [record_readLE hsize (by omega) (by omega), LogRecordHeader.bytes]
    iterate 13 rw [readLE_writeLE_frame (by omega)]
    rw [readLE_writeLE, hlsn, Nat.mod_eq_of_lt (by omega)]

/-- Reading back a sequence of records. -/
theorem logRecords_flatten : ∀ {rs : List Bytes} {fuel : Nat},
    (∀ r ∈ rs, ∃ lsn, IsRecord r lsn) → rs.flatten.length ≤ fuel →
    logRecords fuel rs.flatten = rs
  | [], 0, _, _ => rfl
  | [], fuel + 1, _, _ => by
    have : (ofBytes []).readLE 0 4 = 0 := rfl
    simp [logRecords, sizeofLogRecordHeader, this]
  | r :: rs, fuel, hr, hf => by
    obtain ⟨lsn, h⟩ := hr r List.mem_cons_self
    have h1 := h.header
    simp only [List.flatten_cons, List.length_append, sizeofLogRecordHeader] at hf h1
    cases fuel with
    | zero => omega
    | succ fuel =>
      have hsize : (ofBytes (r ++ rs.flatten)).readLE 0 4 = r.length := by
        rw [← h.size]
        exact readLE_congr fun i _ hi => ofBytes_append_left (by omega)
      simp only [List.flatten_cons, logRecords, hsize]
      rw [if_neg (by simp only [sizeofLogRecordHeader, List.length_append]; omega),
        List.take_left, List.drop_left,
        logRecords_flatten (fun r' hr' => hr r' (List.mem_cons_of_mem r hr')) (by omega)]

/-! ## The invariant -/

/-- The records `append` accepted, in order. -/
def appended (ls : List Event) : List Bytes :=
  ls.filterMap fun e =>
    match e.action, e.outcome with
    | .append lrh before after, .appended lsn =>
      if lsn = INVALID_LSN then none else some (recordOf lrh before after lsn)
    | _, _ => none

/-- What a leader knows, with `w` records written and `c` taken from the
append buffer. -/
def Role (log : LogManager) (recs : List Bytes) (w c : Nat) : Pc Nat → Prop
  | .elected _ => w = c ∧ c = log.flushedLSN
  | .appending _ b n => b = c ∧ w = log.flushedLSN ∧
    log.fillBuffer.slice 0 n = ((recs.take c).drop w).flatten
  | .written _ b => b = c ∧ w = c ∧ log.flushedLSN ≤ c
  | _ => False

/-- Nobody leads and everything taken is written, or exactly one thread leads. -/
def Led (s : Group Nat) (recs : List Bytes) (w c : Nat) : Prop :=
  s.OneLeader (w = c ∧ c = s.log.flushedLSN) (Role s.log recs w c)

structure Inv (file : Bytes) (s : Group Nat) (recs : List Bytes) : Prop where
  currentLSN : s.log.currentLSN = recs.length
  records : ∀ (i : Nat) (r : Bytes), recs[i]? = some r → IsRecord r i
  bounds : ∃ w c, w ≤ c ∧ c ≤ recs.length ∧ s.log.file = file ++ (recs.take w).flatten ∧
    s.log.appendBuffer = (recs.drop c).flatten ∧ Led s recs w c

section
variable {s s' : Group Nat} {i : Nat} {a : Action} {o : Outcome} {recs : List Bytes} {w c : Nat}
  {file : Bytes}

/-! ## Steps -/

/-- What a step can be. -/
inductive Stepped (s : Group Nat) (i : Nat) : Action → Outcome → Group Nat → Prop
  | append {lrh before after lsn log} (h : s.log.append lrh before after = .ok (lsn, log)) :
    Stepped s i (.append lrh before after) (.appended lsn) { s with log }
  | test {a target} (ha : ∀ lrh before after, a ≠ .append lrh before after)
    (hpc : ¬ (s.pc i).Leads) : Stepped s i a (s.loop i target).1 (s.loop i target).2
  | copy {target} (hpc : s.pc i = .elected target) :
    Stepped s i .copyToFillBuffer .running ({ s with log := s.log.copyToFillBuffer.2 }.goto i
      (.appending target s.log.currentLSN s.log.appendBuffer.length))
  | write {target b n} (hpc : s.pc i = .appending target b n) :
    Stepped s i .appendDurable .running
      ({ s with log := s.log.appendDurable n }.goto i (.written target b))
  | publish {target b} (hpc : s.pc i = .written target b) :
    Stepped s i .publish (({ s with log := s.log.publish b } : Group Nat).loop i target).1
      (({ s with log := s.log.publish b } : Group Nat).loop i target).2

theorem Group.exec_stepped (h : s.exec i a = some (o, s')) : Stepped s i a o s' := by
  unfold Group.exec at h
  split at h
  · split at h
    · next ha => cases h; exact .append ha
    · cases h
  · next hpc =>
    obtain ⟨rfl, rfl⟩ := Prod.ext_iff.mp (Option.some.inj h)
    exact .test (by simp) (by simp [hpc, Pc.Leads])
  · next hpc => cases h; exact .copy hpc
  · next hpc => cases h; exact .write hpc
  · next hpc =>
    obtain ⟨rfl, rfl⟩ := Prod.ext_iff.mp (Option.some.inj h)
    exact .publish hpc
  · next hpc =>
    split at h
    · obtain ⟨rfl, rfl⟩ := Prod.ext_iff.mp (Option.some.inj h)
      exact .test (by simp) (by simp [hpc, Pc.Leads])
    · cases h
  · cases h

theorem Role.leads {log : LogManager} (p : Pc Nat) (h : Role log recs w c p) : p.Leads := by
  cases p <;> trivial

theorem Stepped.of_append {lrh : LogRecordHeader} {before after : Bytes}
    (h : Stepped s i (.append lrh before after) o s') :
    ∃ lsn log, s.log.append lrh before after = .ok (lsn, log) ∧ o = .appended lsn ∧
      s' = { s with log } := by
  cases h with
  | append ha => exact ⟨_, _, ha, rfl, rfl⟩
  | test ha => exact absurd rfl (ha lrh before after)

/-- Only the role of the leader and `flushing` depend on the log. -/
theorem Led.congr {log : LogManager} (h : Led s recs w c) {recs' : List Bytes}
    (hfl : log.flushing = s.log.flushing) (hfd : log.flushedLSN = s.log.flushedLSN)
    (hfb : log.fillBuffer = s.log.fillBuffer) (ht : recs'.take c = recs.take c) :
    Led { s with log } recs' w c := by
  rcases h with ⟨hf, hn, h1, h2⟩ | ⟨hf, k, hk, hn⟩
  · exact .inl ⟨hfl.trans hf, hn, h1, h2.trans hfd.symm⟩
  · refine .inr ⟨hfl.trans hf, k, ?_, hn⟩
    dsimp only
    generalize s.pc k = p at hk
    cases p <;> simp only [Role, hfd, hfb, ht] at hk ⊢ <;> exact hk

theorem Led.loop (h : Led s recs w c) (hi : ¬ (s.pc i).Leads) (target : Nat) :
    Led (s.loop i target).2 recs w c := by
  have h' := OneLeader.loop h Role.leads hi target id
  unfold Led
  rw [(s.loop_frame i target).1]
  exact h'

/-- A test changes nothing the invariant counts. -/
theorem Inv.loop (h : Inv file s recs) (hi : ¬ (s.pc i).Leads) (target : Nat) :
    Inv file (s.loop i target).2 recs := by
  obtain ⟨hcur, hrec, w, c, hwc, hcl, hfile, hbuf, hled⟩ := h
  have hlog := (s.loop_frame i target).1
  exact ⟨by rw [hlog]; exact hcur, hrec, w, c, hwc, hcl, by rw [hlog]; exact hfile,
    by rw [hlog]; exact hbuf, hled.loop hi target⟩

/-- The records appended by a step. -/
theorem Inv.step (h : Inv file s recs) (hs : Stepped s i a o s')
    (hn : (recs ++ appended [⟨i, a, o⟩]).length < INVALID_LSN) :
    Inv file s' (recs ++ appended [⟨i, a, o⟩]) := by
  obtain ⟨hcur, hrec, w, c, hwc, hcl, hfile, hbuf, hled⟩ := h
  cases hs with
  | @append lrh before after lsn log ha =>
    rcases append_ok ha with ⟨rfl, rfl⟩ | ⟨rfl, hsz, rfl⟩
    · have : appended [⟨i, .append lrh before after, .appended INVALID_LSN⟩] = [] := by
        simp [appended]
      rw [this, List.append_nil]
      exact ⟨hcur, hrec, w, c, hwc, hcl, hfile, hbuf, hled⟩
    · have hlt : s.log.currentLSN < INVALID_LSN := by
        have := hn
        simp only [List.length_append] at this
        omega
      have happ : appended [⟨i, .append lrh before after, .appended s.log.currentLSN⟩] =
          [recordOf lrh before after s.log.currentLSN] := by
        simp [appended, Nat.ne_of_lt hlt]
      rw [happ]
      simp only [INVALID_LSN] at hlt
      refine ⟨?_, fun j r hj => ?_, w, c, hwc, by simp; omega, ?_, ?_, ?_⟩
      · simp only [List.length_append, List.length_singleton, ← hcur]; omega
      · rcases Nat.lt_trichotomy j recs.length with hlt' | rfl | hgt
        · rw [List.getElem?_append_left hlt'] at hj
          exact hrec j r hj
        · rw [List.getElem?_append_right (Nat.le_refl _)] at hj
          simp only [Nat.sub_self, List.getElem?_cons_zero, Option.some.injEq] at hj
          subst hj
          rw [← hcur]
          have : APPEND_BUFFER_SIZE = 134217728 := rfl
          exact recordOf_isRecord lrh (by omega) (by omega)
        · rw [List.getElem?_eq_none (by simp; omega)] at hj; cases hj
      · rw [List.take_append_of_le_length (by omega)]; exact hfile
      · rw [List.drop_append_of_le_length hcl, List.flatten_append, ← hbuf]
        simp
      · exact hled.congr rfl rfl rfl (List.take_append_of_le_length hcl)
  | @test _ target ha hpc =>
    have : appended [⟨i, a, (s.loop i target).1⟩] = [] := by
      cases a with
      | append lrh before after => exact absurd rfl (ha lrh before after)
      | _ => rfl
    rw [this, List.append_nil]
    exact Inv.loop ⟨hcur, hrec, w, c, hwc, hcl, hfile, hbuf, hled⟩ hpc _
  | copy hpc =>
    rw [show appended [⟨i, .copyToFillBuffer, .running⟩] = [] from rfl, List.append_nil]
    obtain ⟨hf, hk, hn'⟩ := hled.role (i := i) (by simp [hpc, Pc.Leads])
    rw [hpc] at hk
    obtain ⟨rfl, hc⟩ := hk
    refine ⟨hcur, hrec, w, recs.length, hcl, Nat.le_refl _, hfile, by simp [LogManager.copyToFillBuffer],
      OneLeader.lead hf hn' ⟨hcur, hc, ?_⟩⟩
    rw [goto_log, LogManager.copyToFillBuffer, slice_copy, slice_ofBytes, hbuf, List.take_length]
  | write hpc =>
    rw [show appended [⟨i, .appendDurable, .running⟩] = [] from rfl, List.append_nil]
    obtain ⟨hf, hk, hn'⟩ := hled.role (i := i) (by simp [hpc, Pc.Leads])
    rw [hpc] at hk
    obtain ⟨rfl, hw, hfill⟩ := hk
    refine ⟨hcur, hrec, _, _, Nat.le_refl _, hcl, ?_, hbuf,
      OneLeader.lead hf hn' ⟨rfl, rfl, hw ▸ hwc⟩⟩
    rw [goto_log, LogManager.appendDurable, hfile, hfill, List.append_assoc, ← List.flatten_append]
    rw [show recs.take w = (recs.take _).take w by rw [List.take_take, Nat.min_eq_left hwc],
      List.take_append_drop]
  | @publish target b hpc =>
    have : appended [⟨i, .publish,
      (({ s with log := s.log.publish b } : Group Nat).loop i target).1⟩] = [] := rfl
    rw [this, List.append_nil]
    obtain ⟨hf, hk, hn'⟩ := hled.role (i := i) (by simp [hpc, Pc.Leads])
    rw [hpc] at hk
    obtain ⟨rfl, rfl, hle⟩ := hk
    -- nobody leads until the next test
    have hidle : Inv file (({ s with log := s.log.publish w } : Group Nat).goto i .idle) recs :=
      ⟨hcur, hrec, w, w, Nat.le_refl _, hcl, hfile, hbuf,
        .inl ⟨rfl, not_leads_goto hn' (by simp [Pc.Leads]), rfl, rfl⟩⟩
    rw [← loop_goto _ i target .idle]
    exact hidle.loop (by simp [Pc.Leads]) target

theorem appended_append (ls ls' : List Event) : appended (ls ++ ls') = appended ls ++ appended ls' :=
  List.filterMap_append ..

theorem Inv.exec {ls : List Event} (h : (groupCommit file).Exec ls s)
    (hn : (appended ls).length < INVALID_LSN) : Inv file s (appended ls) := by
  induction h with
  | @nil s h0 =>
    obtain ⟨h1, h2, h3, h4, h5, h6⟩ := h0
    refine ⟨h2, by simp [appended], 0, 0, Nat.le_refl 0, Nat.le_refl 0, by simpa using h1,
      by simpa [appended] using h5, .inl ⟨h4, fun i => ?_, rfl, h3.symm⟩⟩
    simp [h6, Pc.Leads]
  | @snoc ls s s' e he hs ih =>
    rw [appended_append] at hn ⊢
    exact (ih (by rw [List.length_append] at hn; omega)).step (Group.exec_stepped hs) hn

/-! ## What a return of `flush_to` finds -/

/-- The `flushedLSN` that the loop test of thread `j` finds: a leader has just
published its batch. mirrors src/logging/log_manager.cpp:282-288 -/
def Group.testedLSN (s : Group Nat) (j : Nat) : Nat :=
  match s.pc j with
  | .written _ batchEndLSN => batchEndLSN
  | _ => s.log.flushedLSN

/-- The test passes on the exclusive bound alone, and no batch past `l` is
written and about to be published. -/
def Group.TooEarly (s : Group Nat) (j l : Nat) : Prop :=
  s.testedLSN j = l ∧ ∀ k t b, s.pc k = .written t b → b ≤ l

theorem Group.testedLSN_of_ne {j : Nat} (h : ∀ t b, s.pc j ≠ .written t b) :
    s.testedLSN j = s.log.flushedLSN := by
  unfold Group.testedLSN
  split
  · next hpc => exact absurd hpc (h _ _)
  · rfl

/-- A step that returns from `flush_to` writes nothing, and its test found the
target reached. -/
theorem Stepped.of_flushed {l : Nat} (h : Stepped s i a o s') (ho : o = .flushed l) :
    s'.log.file = s.log.file ∧ l ≤ s.testedLSN i := by
  cases h with
  | append | copy | write => cases ho
  | @test _ target ha hpc =>
    obtain ⟨hlog, hret⟩ := s.loop_frame i target
    rw [testedLSN_of_ne fun t b hb => hpc (by simp [hb, Pc.Leads]), hlog]
    exact ⟨rfl, (hret l ho).2⟩
  | @publish target b hpc =>
    obtain ⟨hlog, hret⟩ := ({ s with log := s.log.publish b } : Group Nat).loop_frame i target
    rw [hlog, Group.testedLSN, hpc]
    exact ⟨rfl, (hret l ho).2⟩

/-- A batch is written and not yet published, or `flushedLSN` bounds what is
written. -/
theorem Led.written (h : Led s recs w c) :
    (∀ k t b, s.pc k ≠ .written t b) ∧ w = s.log.flushedLSN ∨
      ∃ k t, s.pc k = .written t w ∧ s.log.flushedLSN ≤ w ∧ ∀ j, j ≠ k → ¬ (s.pc j).Leads := by
  rcases h with ⟨-, hn, rfl, hc⟩ | ⟨-, k, hk, hn⟩
  · exact .inl ⟨fun k t b hb => hn k (by simp [hb, Pc.Leads]), hc⟩
  · have hothers : (∀ t b, s.pc k ≠ .written t b) → ∀ j t b, s.pc j ≠ .written t b := by
      intro hk' j t b hb
      by_cases hj : j = k
      · exact hk' t b (hj ▸ hb)
      · exact hn j hj (by simp [hb, Pc.Leads])
    cases hpc : s.pc k with
    | written t b =>
      rw [hpc] at hk
      obtain ⟨rfl, rfl, hle⟩ := hk
      exact .inr ⟨k, t, hpc, hle, hn⟩
    | elected =>
      rw [hpc] at hk
      exact .inl ⟨hothers (by simp [hpc]), hk.1.trans hk.2⟩
    | appending =>
      rw [hpc] at hk
      exact .inl ⟨hothers (by simp [hpc]), hk.2.1⟩
    | idle | waiting => rw [hpc] at hk; exact hk.elim

theorem Led.flushedLSN_le (h : Led s recs w c) : s.log.flushedLSN ≤ w := by
  rcases h.written with ⟨-, hw⟩ | ⟨-, -, -, hle, -⟩
  · exact Nat.le_of_eq hw.symm
  · exact hle

/-- Where the test passes, it passes too early exactly where record `l` is not
written. -/
theorem Led.tooEarly_iff (h : Led s recs w c) {j l : Nat} (hl : l ≤ s.testedLSN j) :
    s.TooEarly j l ↔ w ≤ l := by
  rcases h.written with ⟨hno, hw⟩ | ⟨k, t, hk, hle, hn⟩
  · rw [testedLSN_of_ne (hno j)] at hl
    rw [Group.TooEarly, testedLSN_of_ne (hno j)]
    refine ⟨fun h => ?_, fun h => ⟨by omega, fun k t b hb => absurd hb (hno k t b)⟩⟩
    omega
  · have huniq : ∀ j t b, s.pc j = .written t b → b = w := by
      intro j t b hb
      obtain rfl : j = k := by
        by_contra hne
        exact hn j hne (by simp [hb, Pc.Leads])
      rw [hk] at hb
      cases hb
      rfl
    have htested : s.testedLSN j ≤ w := by
      unfold Group.testedLSN
      split
      · next hb => exact Nat.le_of_eq (huniq j _ _ hb)
      · exact hle
    refine ⟨fun h => h.2 k t w hk, fun h => ⟨by omega, fun j t b hb => ?_⟩⟩
    rw [huniq j t b hb]
    exact h

/-- The first `w` records are what a reader finds behind `file`. -/
theorem inLog_iff (hrec : ∀ (i : Nat) (r : Bytes), recs[i]? = some r → IsRecord r i)
    (hfile : s.log.file = file ++ (recs.take w).flatten) {l : Nat} {r : Bytes}
    (hr : recs[l]? = some r) : InLog file.length s.log.file r ↔ l < w := by
  have hall : ∀ r ∈ recs.take w, ∃ lsn, IsRecord r lsn := by
    intro r hr
    obtain ⟨i, hi⟩ := List.getElem?_of_mem (List.mem_of_mem_take hr)
    exact ⟨i, hrec i r hi⟩
  rw [InLog, hfile, List.drop_left, logRecords_flatten hall (by rw [List.length_append]; omega)]
  constructor
  · intro hm
    obtain ⟨i, hi⟩ := List.getElem?_of_mem hm
    have hiw := (List.getElem?_eq_some_iff.mp hi).1
    rw [List.getElem?_take_of_lt (by simp at hiw; omega)] at hi
    have h1 := (hrec l r hr).lsn
    have h2 := (hrec i r hi).lsn
    simp only [List.length_take] at hiw
    omega
  · intro hlw
    have : (recs.take w)[l]? = some r := by rw [List.getElem?_take_of_lt hlw]; exact hr
    exact List.mem_of_getElem? this

/-- Where a run appended record `l`, it stands at place `l`. -/
theorem appended_getElem? {ls ls' : List Event} {lrh : LogRecordHeader} {before after : Bytes}
    {l : Nat} (h : (groupCommit file).Exec (ls ++ ⟨i, .append lrh before after, .appended l⟩ :: ls') s)
    (hl : l ≠ INVALID_LSN)
    (hn : (appended (ls ++ ⟨i, .append lrh before after, .appended l⟩ :: ls')).length < INVALID_LSN) :
    (appended (ls ++ ⟨i, .append lrh before after, .appended l⟩ :: ls'))[l]? =
      some (recordOf lrh before after l) := by
  obtain ⟨s₀, s₁, h0, hs⟩ := h.split
  rw [appended_append] at hn ⊢
  rw [List.length_append] at hn
  have hI := Inv.exec h0 (by omega)
  have hll : l = (appended ls).length := by
    obtain ⟨lsn, log, ha, he, -⟩ := (Group.exec_stepped hs).of_append
    obtain rfl := Outcome.appended.inj he
    rcases append_ok ha with ⟨rfl, -⟩ | ⟨rfl, -⟩
    · exact absurd rfl hl
    · exact hI.currentLSN
  rw [hll, List.getElem?_append_right (Nat.le_refl _), Nat.sub_self, ← hll]
  simp [appended, hl]

/-- While LSNs last, `flush_to(l)` returns where the test finds `flushedLSN` at
or past `l`, and leaves record `l` in the log unless it does so too early: the
bound that is published is exclusive. -/
theorem flush_durable_iff (file : Bytes) (ls ls' : List Event) (i j l : Nat) (lrh : LogRecordHeader)
    (before after : Bytes) (a : Action) (s s' : Group Nat)
    (h : (groupCommit file).Exec (ls ++ ⟨i, .append lrh before after, .appended l⟩ :: ls') s)
    (hl : l ≠ INVALID_LSN)
    (hn : (appended (ls ++ ⟨i, .append lrh before after, .appended l⟩ :: ls')).length < INVALID_LSN)
    (hs : (groupCommit file).step s ⟨j, a, .flushed l⟩ s') :
    l ≤ s.testedLSN j ∧
      (InLog file.length s'.log.file (recordOf lrh before after l) ↔ ¬ s.TooEarly j l) := by
  obtain ⟨hfile, hle⟩ := (Group.exec_stepped hs).of_flushed rfl
  obtain ⟨-, hrec, w, c, -, -, hw, -, hled⟩ := Inv.exec h hn
  rw [hfile, hled.tooEarly_iff hle, Nat.not_le]
  exact ⟨hle, inLog_iff hrec hw (appended_getElem? h hl hn)⟩

end

/-- Thread 1 has written the batch with the commit record of thread 0, whose
own flush then returns: before thread 1 publishes it, on the old bound. -/
theorem flush_durable_commit : ∃ s s' : Group Nat, s.testedLSN 0 = 0 ∧
    (∃ t, s.pc 1 = .written t 1) ∧
    (groupCommit []).step s ⟨0, .flushTo 0, .flushed 0⟩ s' ∧
      InLog 0 s'.log.file (recordOf (txnRecord 1 .txnCommit INVALID_LSN) [] [] 0) := by
  generalize hr : recordOf (txnRecord 1 .txnCommit INVALID_LSN) [] [] 0 = r
  -- thread 0 appends, thread 1 flushes up to 1
  let fill := Mem.zero.copy 0 (ofBytes r) r.length
  let s₀ : Group Nat := ⟨{ file := [] }, fun _ => .idle⟩
  let s₁ : Group Nat := ⟨{ file := [], currentLSN := 1, appendBuffer := r }, s₀.pc⟩
  let s₂ : Group Nat := { s₁ with log := { s₁.log with flushing := true } }.goto 1 (.elected 1)
  let s₃ : Group Nat := { s₂ with log := { s₂.log with appendBuffer := [], fillBuffer := fill } }.goto 1
    (.appending 1 1 r.length)
  let s₄ : Group Nat := { s₃ with log := { s₃.log with file := [] ++ fill.slice 0 r.length } }.goto 1
    (.written 1 1)
  have h₀ : (groupCommit []).Exec [] s₀ := .nil ⟨rfl, rfl, rfl, rfl, rfl, fun _ => rfl⟩
  have h₁ : (groupCommit []).Exec _ s₁ := h₀.snoc
    (l := ⟨0, .append (txnRecord 1 .txnCommit INVALID_LSN) [] [], .appended 0⟩) (by subst hr; rfl)
  have h₂ : (groupCommit []).Exec _ s₂ := h₁.snoc (l := ⟨1, .flushTo 1, .running⟩) (by rfl)
  have h₃ : (groupCommit []).Exec _ s₃ := h₂.snoc (l := ⟨1, .copyToFillBuffer, .running⟩) (by rfl)
  have h₄ : (groupCommit []).Exec _ s₄ := h₃.snoc (l := ⟨1, .appendDurable, .running⟩) (by rfl)
  have hs : (groupCommit []).step s₄ ⟨0, .flushTo 0, .flushed 0⟩ (s₄.goto 0 .idle) := rfl
  obtain ⟨-, hiff⟩ := flush_durable_iff [] [] _ 0 0 0 (txnRecord 1 .txnCommit INVALID_LSN) [] []
    (.flushTo 0) s₄ _ h₄ (by decide) (by simp [appended, INVALID_LSN]) hs
  rw [← hr]
  refine ⟨s₄, _, rfl, ⟨1, rfl⟩, hs, hiff.mpr fun hearly => ?_⟩
  exact absurd (hearly.2 1 1 1 rfl) (by decide)

/-- The first record has LSN 0 and `flushedLSN` starts at 0, so the first
`flush_to(0)` returns with nothing written. -/
theorem flush_returns_early : ∃ s s' : Group Nat,
    (groupCommit []).Exec
      [⟨0, .append (txnRecord 1 .txnCommit INVALID_LSN) [] [], .appended 0⟩] s ∧
    (groupCommit []).step s ⟨0, .flushTo 0, .flushed 0⟩ s' ∧
    ¬ InLog 0 s'.log.file (recordOf (txnRecord 1 .txnCommit INVALID_LSN) [] [] 0) := by
  let r := recordOf (txnRecord 1 .txnCommit INVALID_LSN) [] [] 0
  let s₀ : Group Nat := ⟨{ file := [] }, fun _ => .idle⟩
  let s₁ : Group Nat := ⟨{ file := [], currentLSN := 1, appendBuffer := r }, s₀.pc⟩
  have h₀ : (groupCommit []).Exec [] s₀ := .nil ⟨rfl, rfl, rfl, rfl, rfl, fun _ => rfl⟩
  have h₁ : (groupCommit []).Exec _ s₁ := h₀.snoc
    (l := ⟨0, .append (txnRecord 1 .txnCommit INVALID_LSN) [] [], .appended 0⟩) (by rfl)
  exact ⟨s₁, s₁.goto 0 .idle, h₁, rfl, List.not_mem_nil⟩

end DbInternals.Logging
