import DbInternals.Core.Codec
import DbInternals.Logging.LogStream

/-!
# Flushes that fail

The threads of `FlushLoop`, with the system calls of `append_durable` one by one and what the
kernel answers: `open` and `fsync` may fail, `write` may fail, be interrupted or take a part of
the bytes. A thread whose call fails leaves `flush_to` with an exception: `flushing_` stays set,
and the batch is in neither buffer.

Results:
* `Inv.exec`: the file and what is left of the batch are the records taken so far;
* `crash_prefix`: whenever the program stops, the file is a prefix of the stream of records, and
  walking it finds every record below the target of a flush that returned;
* `fail_stop`: after a call that failed nothing is written, and no flush returns whose target was
  not reached before.
-/
namespace DbInternals.Logging.Faulty

open Mem DbInternals.Logging.Group

/-! ## The system -/

/-- Where `append_durable` is. mirrors src/logging/log_manager.cpp:236-268 -/
inductive Phase where
  /-- before the first `open`, `n` bytes in the fill buffer -/
  | opening (n : Nat)
  /-- in `write`, `left` bytes from `p` on -/
  | writing (p left : Nat) (created : Bool)
  | syncing (created : Bool)
  | openingDir
  | syncingDir
  deriving DecidableEq, Repr

/-- What the kernel answers. Without `created` the second `open` found the file. -/
inductive Reply where
  | opened (created : Bool)
  | wrote (n : Nat)
  /-- `EINTR` -/
  | interrupted
  | ok
  | failed
  deriving DecidableEq, Repr

inductive Next where
  | call (ph : Phase)
  | done
  | threw
  deriving DecidableEq, Repr

/-- The test of the loop. mirrors src/logging/log_manager.cpp:248-249 -/
def writeNext (p left : Nat) (created : Bool) : Phase :=
  if left > 0 then .writing p left created else .syncing created

/-- Where an answer leads; the directory is synced once the file is new.
mirrors src/logging/log_manager.cpp:238-267 -/
def Phase.answer : Phase → Reply → Option Next
  | .opening n, .opened created => some (.call (writeNext 0 n created))
  | .writing p left created, .wrote n =>
    if n ≤ left then some (.call (writeNext (p + n) (left - n) created)) else none
  | .writing p left created, .interrupted => some (.call (.writing p left created))
  | .syncing created, .ok => some (if created then .call .openingDir else .done)
  | .openingDir, .ok => some (.call .syncingDir)
  | .syncingDir, .ok => some .done
  | _, .failed => some .threw
  | _, _ => none

/-- The bytes that go to the file. -/
def Phase.transfer : Phase → Reply → Mem → Bytes
  | .writing p _ _, .wrote n, fill => fill.slice p n
  | _, _, _ => []

/-- The bytes that are still to be written. -/
def Phase.left : Phase → Mem → Bytes
  | .opening n, fill => fill.slice 0 n
  | .writing p left _, fill => fill.slice p left
  | _, _ => []

inductive Action where
  | append (lrh : LogRecordHeader) (before after : Bytes)
  | flushTo (target : Nat)
  | copyToFillBuffer
  | syscall (r : Reply)
  | publish
  /-- the wait ends: notified or spurious -/
  | wake
  deriving DecidableEq, Repr

/-- The call of `append_durable` is answered. -/
def answered (s : Group Phase) (i target batchEndLSN : Nat) (bytes : Bytes) :
    Next → Outcome × Group Phase
  | .call ph => (.running,
    { s with log := { s.log with file := s.log.file ++ bytes } }.goto i (.appending target batchEndLSN ph))
  | .done => (.running,
    { s with log := { s.log with file := s.log.file ++ bytes } }.goto i (.written target batchEndLSN))
  | .threw => (.threw target,
    { s with log := { s.log with file := s.log.file ++ bytes } }.goto i .idle)

/-- One step of thread `i`, if it can take it. -/
def exec (s : Group Phase) (i : Nat) (a : Action) : Option (Outcome × Group Phase) :=
  match a, s.pc i with
  | .append lrh before after, .idle =>
    match s.log.append lrh before after with
    | .ok (lsn, log) => some (.appended lsn, { s with log })
    | .error _ => none
  | .flushTo target, .idle => some (s.loop i target)
  | .copyToFillBuffer, .elected target =>
    let ((batchEndLSN, n), log) := s.log.copyToFillBuffer
    some (.running, { s with log }.goto i (.appending target batchEndLSN (.opening n)))
  | .syscall r, .appending target batchEndLSN ph =>
    (ph.answer r).map (answered s i target batchEndLSN (ph.transfer r s.log.fillBuffer))
  | .publish, .written target batchEndLSN =>
    some (({ s with log := s.log.publish batchEndLSN } : Group Phase).loop i target)
  | .wake, .waiting target =>
    if s.log.flushedLSN ≥ target ∨ !s.log.flushing then some (s.loop i target) else none
  | _, _ => none

/-- A step of the system: the thread, what it did and how that ended. -/
structure Event where
  thread : Nat
  action : Action
  outcome : Outcome
  deriving DecidableEq, Repr

/-- `LogManager` over a log file without records. -/
def groupCommit : LTS (Group Phase) Event where
  init s := s.log.file = [] ∧ s.log.currentLSN = 0 ∧ s.log.flushedLSN = 0 ∧
    s.log.flushing = false ∧ s.log.appendBuffer = [] ∧ ∀ i, s.pc i = .idle
  step s e s' := exec s e.thread e.action = some (e.outcome, s')

/-- The records `append` accepted, in order. -/
def accepted (ls : List Event) : List Accepted :=
  ls.filterMap fun e =>
    match e.action, e.outcome with
    | .append lrh before after, .appended lsn =>
      if lsn = INVALID_LSN then none else some ⟨lsn, lrh, before, after⟩
    | _, _ => none

/-- Their bytes, one behind the other. -/
def bytesOf (recs : List Accepted) : Bytes := (recs.map Accepted.bytes).flatten

/-! ## The invariant -/

/-- What a leader knows, with `c` records taken from the append buffer and `rest` of them to be
written. -/
def Role (log : LogManager) (c : Nat) (rest : Bytes) : Pc Phase → Prop
  | .elected _ => c = log.flushedLSN ∧ rest = []
  | .appending _ b ph => b = c ∧ rest = ph.left log.fillBuffer
  | .written _ b => b = c ∧ rest = []
  | _ => False

/-- A leader has failed. -/
def Stuck (s : Group Phase) : Prop := s.log.flushing = true ∧ ∀ i, ¬ (s.pc i).Leads

/-- Nobody leads and everything taken is written, or one thread leads, or one has failed. -/
def Led (s : Group Phase) (c : Nat) (rest : Bytes) : Prop :=
  s.OneLeader (c = s.log.flushedLSN ∧ rest = []) (Role s.log c rest) ∨ Stuck s

/-- `c` records are taken, all of them in the file but for `rest`. -/
structure Taken (s : Group Phase) (recs : List Accepted) (c : Nat) (rest : Bytes) : Prop where
  le : c ≤ recs.length
  flushed : s.log.flushedLSN ≤ c
  durable : bytesOf (recs.take s.log.flushedLSN) <+: s.log.file
  file : s.log.file ++ rest = bytesOf (recs.take c)
  buffer : s.log.appendBuffer = bytesOf (recs.drop c)
  short : rest.length ≤ APPEND_BUFFER_SIZE
  led : Led s c rest

structure Inv (s : Group Phase) (recs : List Accepted) : Prop where
  currentLSN : s.log.currentLSN = recs.length
  lsn : ∀ (i : Nat) (r : Accepted), recs[i]? = some r → r.lsn = i
  sized : ∀ r ∈ recs, r.Sized
  room : s.log.appendBuffer.length ≤ APPEND_BUFFER_SIZE
  taken : ∃ c rest, Taken s recs c rest

section
variable {s s' : Group Phase} {i : Nat} {a : Action} {o : Outcome} {recs : List Accepted} {c : Nat}
  {rest : Bytes} {p : Pc Phase} {ls : List Event}

theorem bytesOf_append (recs recs' : List Accepted) :
    bytesOf (recs ++ recs') = bytesOf recs ++ bytesOf recs' := by
  simp [bytesOf]

theorem bytesOf_take_drop (recs : List Accepted) (c : Nat) :
    bytesOf (recs.take c) ++ bytesOf (recs.drop c) = bytesOf recs := by
  rw [← bytesOf_append, List.take_append_drop]

/-! ## Steps -/

/-- The calls that come to the test: one that starts, one that wakes up. -/
inductive Tests (s : Group Phase) (i : Nat) : Action → Nat → Prop
  | start {target} (hpc : s.pc i = .idle) : Tests s i (.flushTo target) target
  | wake {target} (hpc : s.pc i = .waiting target)
    (h : s.log.flushing = false ∨ target ≤ s.log.flushedLSN) : Tests s i .wake target

theorem Tests.not_leads {target : Nat} (h : Tests s i a target) : ¬ (s.pc i).Leads := by
  cases h with
  | start hpc => simp [hpc, Pc.Leads]
  | wake hpc => simp [hpc, Pc.Leads]

theorem Tests.accepted {target : Nat} (h : Tests s i a target) : accepted [⟨i, a, o⟩] = [] := by
  cases h <;> rfl

/-- What a step can be. -/
inductive Stepped (s : Group Phase) (i : Nat) : Action → Outcome → Group Phase → Prop
  | append {lrh before after lsn log} (h : s.log.append lrh before after = .ok (lsn, log)) :
    Stepped s i (.append lrh before after) (.appended lsn) { s with log }
  | test {a target} (h : Tests s i a target) : Stepped s i a (s.loop i target).1 (s.loop i target).2
  | copy {target} (hpc : s.pc i = .elected target) :
    Stepped s i .copyToFillBuffer .running ({ s with log := s.log.copyToFillBuffer.2 }.goto i
      (.appending target s.log.currentLSN (.opening s.log.appendBuffer.length)))
  | call {target b ph r next} (hpc : s.pc i = .appending target b ph)
    (h : ph.answer r = some next) : Stepped s i (.syscall r)
      (answered s i target b (ph.transfer r s.log.fillBuffer) next).1
      (answered s i target b (ph.transfer r s.log.fillBuffer) next).2
  | publish {target b} (hpc : s.pc i = .written target b) :
    Stepped s i .publish (({ s with log := s.log.publish b } : Group Phase).loop i target).1
      (({ s with log := s.log.publish b } : Group Phase).loop i target).2

theorem exec_stepped (h : exec s i a = some (o, s')) : Stepped s i a o s' := by
  unfold exec at h
  split at h
  · split at h
    · next ha => cases h; exact .append ha
    · cases h
  · next hpc =>
    obtain ⟨rfl, rfl⟩ := Prod.ext_iff.mp (Option.some.inj h)
    exact .test (.start hpc)
  · next hpc => cases h; exact .copy hpc
  · next hpc =>
    obtain ⟨next, hn, h⟩ := Option.map_eq_some_iff.mp h
    obtain ⟨rfl, rfl⟩ := Prod.ext_iff.mp h
    exact .call hpc hn
  · next hpc =>
    obtain ⟨rfl, rfl⟩ := Prod.ext_iff.mp (Option.some.inj h)
    exact .publish hpc
  · next hpc =>
    split at h
    · next hw =>
      obtain ⟨rfl, rfl⟩ := Prod.ext_iff.mp (Option.some.inj h)
      exact .test (.wake hpc (by simpa [or_comm] using hw))
    · cases h
  · cases h

theorem answered_log (s : Group Phase) (i target b : Nat) (bytes : Bytes) (next : Next) :
    (answered s i target b bytes next).2.log = { s.log with file := s.log.file ++ bytes } := by
  cases next <;> rfl

/-! ## The leader -/

theorem Role.leads {log : LogManager} (p : Pc Phase) (h : Role log c rest p) : p.Leads := by
  cases p <;> trivial

theorem Led.role (h : Led s c rest) (hi : (s.pc i).Leads) :
    s.log.flushing = true ∧ Role s.log c rest (s.pc i) ∧ ∀ j, j ≠ i → ¬ (s.pc j).Leads := by
  cases h with
  | inl h => exact h.role hi
  | inr h => exact absurd hi (h.2 i)

theorem Led.loop (h : Led s c rest) (hi : ¬ (s.pc i).Leads) (target : Nat) :
    Led (s.loop i target).2 c rest := by
  cases h with
  | inl h =>
    have h' := h.loop Role.leads hi target id
    left
    rw [(s.loop_frame i target).1]
    exact h'
  | inr h =>
    -- the flag stays set, so no thread is elected
    obtain ⟨hf, hn⟩ := h
    right
    unfold Group.loop
    split
    · rw [if_neg (by simp [hf])]
      exact ⟨hf, not_leads_goto (fun j _ => hn j) (by simp [Pc.Leads])⟩
    · exact ⟨hf, not_leads_goto (fun j _ => hn j) (by simp [Pc.Leads])⟩

/-- Only the role of the leader and `flushing` depend on the log. -/
theorem Led.congr {log : LogManager} (h : Led s c rest) (hfl : log.flushing = s.log.flushing)
    (hfd : log.flushedLSN = s.log.flushedLSN) (hfb : log.fillBuffer = s.log.fillBuffer) :
    Led { s with log } c rest := by
  rcases h with (⟨hf, hn, h1, h2⟩ | ⟨hf, k, hk, hn⟩) | ⟨hf, hn⟩
  · exact .inl (.inl ⟨hfl.trans hf, hn, h1.trans hfd.symm, h2⟩)
  · refine .inl (.inr ⟨hfl.trans hf, k, ?_, hn⟩)
    dsimp only
    generalize s.pc k = p at hk
    cases p <;> simp only [Role, hfd, hfb] at hk ⊢ <;> exact hk
  · exact .inr ⟨hfl.trans hf, hn⟩

/-! ## What a step keeps -/

/-- A test changes nothing the invariant counts. -/
theorem Inv.loop (h : Inv s recs) (hi : ¬ (s.pc i).Leads) (target : Nat) :
    Inv (s.loop i target).2 recs := by
  obtain ⟨hcur, hlsn, hsized, hroom, c, rest, ht⟩ := h
  have hlog := (s.loop_frame i target).1
  refine ⟨by rw [hlog]; exact hcur, hlsn, hsized, by rw [hlog]; exact hroom, c, rest, ht.le, ?_, ?_, ?_,
    ?_, ht.short, ht.led.loop hi target⟩
  · rw [hlog]
    exact ht.flushed
  · rw [hlog]
    exact ht.durable
  · rw [hlog]
    exact ht.file
  · rw [hlog]
    exact ht.buffer

/-- Bytes go from the batch to the file. -/
theorem Phase.answer_left {ph : Phase} {r : Reply} {next : Next} (fill : Mem)
    (h : ph.answer r = some next) : (∃ ph', next = .call ph' ∧
        ph.left fill = ph.transfer r fill ++ ph'.left fill) ∨
      next = .done ∧ ph.left fill = [] ∧ ph.transfer r fill = [] ∨
      next = .threw ∧ ph.transfer r fill = [] := by
  have hnext : ∀ p left created, (writeNext p left created).left fill = fill.slice p left := by
    intro p left created
    unfold writeNext
    split
    · rfl
    · obtain rfl : left = 0 := by omega
      rfl
  unfold Phase.answer at h
  split at h
  · cases h
    exact .inl ⟨_, rfl, (hnext _ _ _).symm⟩
  · next p left created n =>
    split at h
    · next hle =>
      cases h
      refine .inl ⟨_, rfl, ?_⟩
      rw [hnext, Phase.left, Phase.transfer, ← slice_add, Nat.add_sub_cancel' hle]
    · cases h
  · cases h
    exact .inl ⟨_, rfl, rfl⟩
  · next created =>
    cases h
    cases created
    · exact .inr (.inl ⟨rfl, rfl, rfl⟩)
    · exact .inl ⟨_, rfl, rfl⟩
  · cases h
    exact .inl ⟨_, rfl, rfl⟩
  · cases h
    exact .inr (.inl ⟨rfl, rfl, rfl⟩)
  · cases h
    exact .inr (.inr ⟨rfl, by cases ph <;> rfl⟩)
  · cases h

theorem prefix_grows {file bytes : Bytes} (h : bytesOf recs <+: file) :
    bytesOf recs <+: file ++ bytes := h.trans (List.prefix_append ..)

/-- An answer to the leader. -/
theorem Taken.answered {target b : Nat} {ph : Phase} {r : Reply} {next : Next} (h : Taken s recs c rest)
    (hpc : s.pc i = .appending target b ph) (hn : ph.answer r = some next) :
    ∃ rest', Taken (answered s i target b (ph.transfer r s.log.fillBuffer) next).2 recs c rest' := by
  obtain ⟨hf, hr, hno⟩ := h.led.role (i := i) (by simp [hpc, Pc.Leads])
  rw [hpc] at hr
  obtain ⟨rfl, rfl⟩ := hr
  have hfile := h.file
  have hshort := h.short
  rcases Phase.answer_left s.log.fillBuffer hn with ⟨ph', rfl, hl⟩ | ⟨rfl, hl, hw⟩ | ⟨rfl, hw⟩
  · rw [hl, ← List.append_assoc] at hfile
    rw [hl, List.length_append] at hshort
    exact ⟨_, h.le, h.flushed, prefix_grows h.durable, hfile, h.buffer, by omega,
      .inl (OneLeader.lead hf hno ⟨rfl, rfl⟩)⟩
  · rw [hw]
    rw [hl] at hfile
    exact ⟨[], h.le, h.flushed, prefix_grows h.durable, by rw [← hfile]; simp [answered],
      h.buffer, Nat.zero_le _, .inl (OneLeader.lead hf hno ⟨rfl, rfl⟩)⟩
  · rw [hw]
    refine ⟨_, h.le, h.flushed, prefix_grows h.durable, ?_, h.buffer, h.short,
      .inr ⟨hf, not_leads_goto hno (by simp [Pc.Leads])⟩⟩
    simpa [answered] using hfile

/-- A record that `append` accepts. -/
theorem Taken.append {r : Accepted} {log : LogManager} (h : Taken s recs c rest)
    (hlog : log = { s.log with
      currentLSN := log.currentLSN, appendBuffer := s.log.appendBuffer ++ r.bytes }) :
    Taken { s with log } (recs ++ [r]) c rest := by
  have htake : ∀ n ≤ recs.length, (recs ++ [r]).take n = recs.take n := fun n hn =>
    List.take_append_of_le_length hn
  have hfl : log.flushedLSN = s.log.flushedLSN := by rw [hlog]
  have hfi : log.file = s.log.file := by rw [hlog]
  refine ⟨?_, ?_, ?_, ?_, ?_, h.short, h.led.congr (by rw [hlog]) hfl (by rw [hlog])⟩
  · rw [List.length_append]
    exact Nat.le_add_right_of_le h.le
  · exact hfl ▸ h.flushed
  · dsimp only
    rw [hfl, hfi, htake _ (Nat.le_trans h.flushed h.le)]
    exact h.durable
  · rw [htake _ h.le]
    exact hfi ▸ h.file
  · rw [hlog, List.drop_append_of_le_length h.le, bytesOf_append, ← h.buffer]
    simp [bytesOf]

/-- The records taken and kept. -/
theorem Inv.stream (h : Inv s recs) : ∃ rest, s.log.file ++ rest ++ s.log.appendBuffer = bytesOf recs ∧
    rest.length ≤ APPEND_BUFFER_SIZE := by
  obtain ⟨-, -, -, -, c, rest, ht⟩ := h
  exact ⟨rest, by rw [ht.file, ht.buffer, bytesOf_take_drop], ht.short⟩

theorem length_bytes {r : Accepted} (h : r.Sized) : 64 ≤ r.bytes.length := by
  rw [Accepted.bytes, length_recordOf h, sizeofLogRecordHeader]
  omega

/-- As long as the file has a length below `2 ^ 63`, there are fewer records than LSNs. -/
theorem Inv.few (h : Inv s recs) (hf : s.log.file.length < 2 ^ 63) : recs.length + 1 < INVALID_LSN := by
  obtain ⟨rest, hs, hr⟩ := h.stream
  have hlen := congrArg List.length hs
  have hge : 64 * (recs.map Accepted.bytes).length ≤ (recs.map Accepted.bytes).flatten.length := by
    apply length_flatten_ge
    intro b hb
    obtain ⟨r, hr, rfl⟩ := List.mem_map.mp hb
    exact length_bytes (h.sized r hr)
  have hroom := h.room
  rw [List.length_map] at hge
  simp only [List.length_append, bytesOf] at hlen
  simp only [APPEND_BUFFER_SIZE, INVALID_LSN] at *
  omega

/-- What `append` accepts: nothing, or the record with the next LSN. -/
theorem accepted_call {lrh : LogRecordHeader} {before after : Bytes} {lsn : Nat} {log : LogManager}
    (h : s.log.append lrh before after = .ok (lsn, log)) (hl : s.log.currentLSN ≠ INVALID_LSN) :
    accepted [⟨i, .append lrh before after, .appended lsn⟩] = [] ∧ log = s.log ∨
      accepted [⟨i, .append lrh before after, .appended lsn⟩] =
          [⟨s.log.currentLSN, lrh, before, after⟩] ∧
        s.log.appendBuffer.length + sizeofLogRecordHeader + before.length + after.length ≤
          APPEND_BUFFER_SIZE ∧
        log = { s.log with
          currentLSN := (s.log.currentLSN + 1) % 2 ^ 64
          appendBuffer := s.log.appendBuffer ++ recordOf lrh before after s.log.currentLSN } := by
  rcases append_ok h with ⟨rfl, rfl⟩ | ⟨rfl, hsz, hlog⟩
  · exact .inl ⟨by simp [accepted], rfl⟩
  · exact .inr ⟨by simp [accepted, hl], hsz, hlog⟩

/-- The records accepted by a step. -/
theorem Inv.step (h : Inv s recs) (hs : Stepped s i a o s') (hf : s.log.file.length < 2 ^ 63) :
    Inv s' (recs ++ accepted [⟨i, a, o⟩]) := by
  have hfew := h.few hf
  obtain ⟨hcur, hlsn, hsized, hroom, c, rest, ht⟩ := h
  cases hs with
  | @append lrh before after lsn log ha =>
    rcases accepted_call (i := i) ha (by omega) with ⟨hnone, rfl⟩ | ⟨hone, hsz, hlog⟩
    · rw [hnone, List.append_nil]
      exact ⟨hcur, hlsn, hsized, hroom, c, rest, ht⟩
    · rw [hone]
      have hr : sizeofLogRecordHeader + before.length + after.length < 2 ^ 32 := by
        have : APPEND_BUFFER_SIZE = 134217728 := rfl
        omega
      refine ⟨?_, fun j r hj => ?_, fun r hm => ?_, ?_, c, rest, ht.append (by rw [hlog]; rfl)⟩
      · rw [hlog, List.length_append, List.length_singleton, ← hcur]
        simp only [INVALID_LSN] at hfew
        exact Nat.mod_eq_of_lt (by omega)
      · rcases Nat.lt_trichotomy j recs.length with hlt | rfl | hgt
        · rw [List.getElem?_append_left hlt] at hj
          exact hlsn j r hj
        · rw [List.getElem?_append_right (Nat.le_refl _), Nat.sub_self] at hj
          cases hj
          exact hcur
        · rw [List.getElem?_eq_none (by simp; omega)] at hj
          cases hj
      · cases List.mem_append.mp hm with
        | inl hm => exact hsized r hm
        | inr hm =>
          rw [List.mem_singleton.mp hm]
          exact hr
      · rw [hlog]
        dsimp only
        rw [List.length_append, length_recordOf hr]
        omega
  | @test _ target htest =>
    rw [htest.accepted, List.append_nil]
    exact Inv.loop ⟨hcur, hlsn, hsized, hroom, c, rest, ht⟩ htest.not_leads target
  | @copy target hpc =>
    rw [show accepted [⟨i, .copyToFillBuffer, .running⟩] = [] from rfl, List.append_nil]
    obtain ⟨hfl, hr, hno⟩ := ht.led.role (i := i) (by simp [hpc, Pc.Leads])
    rw [hpc] at hr
    obtain ⟨-, rfl⟩ := hr
    have hfile := ht.file
    rw [List.append_nil] at hfile
    refine ⟨hcur, hlsn, hsized, Nat.zero_le _, recs.length, s.log.appendBuffer, Nat.le_refl _,
      Nat.le_trans ht.flushed ht.le, ht.durable, ?_, ?_, hroom, .inl (OneLeader.lead hfl hno ⟨hcur, ?_⟩)⟩
    · -- the batch is all of the buffer
      rw [List.take_length, ← bytesOf_take_drop recs c, ← hfile, ← ht.buffer]
      rfl
    · rw [List.drop_length]
      rfl
    · rw [goto_log, LogManager.copyToFillBuffer, Phase.left, slice_copy, slice_ofBytes]
  | @call target b ph r next hpc hn =>
    rw [show accepted _ = [] by cases next <;> rfl, List.append_nil]
    have hlog := answered_log s i target b (ph.transfer r s.log.fillBuffer) next
    obtain ⟨rest', ht'⟩ := ht.answered hpc hn
    exact ⟨by rw [hlog]; exact hcur, hlsn, hsized, by rw [hlog]; exact hroom, c, rest', ht'⟩
  | @publish target b hpc =>
    rw [show accepted [⟨i, .publish, _⟩] = [] from rfl, List.append_nil]
    obtain ⟨hfl, hr, hno⟩ := ht.led.role (i := i) (by simp [hpc, Pc.Leads])
    rw [hpc] at hr
    obtain ⟨rfl, rfl⟩ := hr
    have hfile := ht.file
    rw [List.append_nil] at hfile
    -- nobody leads until the next test
    have hidle : Inv (({ s with log := s.log.publish b } : Group Phase).goto i .idle) recs := by
      refine ⟨hcur, hlsn, hsized, hroom, b, [], ht.le, Nat.le_refl _, ?_, ?_, ht.buffer, Nat.zero_le _,
        .inl (.inl ⟨rfl, not_leads_goto hno (by simp [Pc.Leads]), rfl, rfl⟩)⟩
      · exact hfile ▸ List.prefix_refl _
      · rw [List.append_nil]
        exact hfile
    rw [← loop_goto _ i target .idle]
    exact hidle.loop (by simp [Pc.Leads]) target

/-- The file only grows. -/
theorem Stepped.file_le (hs : Stepped s i a o s') : s.log.file.length ≤ s'.log.file.length := by
  cases hs with
  | append ha =>
    cases append_ok ha with
    | inl h => exact Nat.le_of_eq (by rw [h.2])
    | inr h => exact Nat.le_of_eq (by rw [h.2.2])
  | @test _ target _ => exact Nat.le_of_eq (by rw [(s.loop_frame i target).1])
  | copy => exact Nat.le_refl _
  | @call target b ph r next hpc hn =>
    rw [answered_log, List.length_append]
    exact Nat.le_add_right ..
  | @publish target b hpc =>
    exact Nat.le_of_eq (by rw [(Group.loop_frame { s with log := s.log.publish b } i target).1]; rfl)

theorem accepted_append (ls ls' : List Event) : accepted (ls ++ ls') = accepted ls ++ accepted ls' :=
  List.filterMap_append ..

theorem Inv.exec (h : groupCommit.Exec ls s) (hf : s.log.file.length < 2 ^ 63) :
    Inv s (accepted ls) := by
  induction h with
  | @nil s h0 =>
    obtain ⟨h1, h2, h3, h4, h5, h6⟩ := h0
    refine ⟨h2, by simp [accepted], by simp [accepted], by rw [h5]; exact Nat.zero_le _, 0, [],
      Nat.le_refl 0, Nat.le_of_eq h3, ?_, by rw [h1]; rfl, by rw [h5]; rfl, Nat.zero_le _,
      .inl (.inl ⟨h4, fun i => ?_, h3.symm, rfl⟩)⟩
    · rw [h3]
      exact List.nil_prefix
    · rw [h6]
      simp [Pc.Leads]
  | @snoc ls s s' e he hs ih =>
    have hstep := exec_stepped hs
    have hf' := Nat.lt_of_le_of_lt hstep.file_le hf
    rw [accepted_append]
    exact (ih hf').step hstep hf'

/-! ## What is found in the file -/

/-- Walking a file that ends within a record. -/
theorem logRecords_prefix : ∀ {rs : List Bytes} {file : Bytes} {fuel : Nat},
    (∀ r ∈ rs, ∃ lsn, IsRecord r lsn) → file <+: rs.flatten → file.length ≤ fuel →
    ∃ k, logRecords fuel file = rs.take k ∧
      ∀ n ≤ rs.length, (rs.take n).flatten <+: file → n ≤ k
  | [], file, fuel, _, hp, _ => by
    obtain rfl := List.prefix_nil.mp hp
    refine ⟨0, ?_, fun n hn _ => hn⟩
    have : (ofBytes []).readLE 0 4 = 0 := rfl
    cases fuel <;> simp [logRecords, sizeofLogRecordHeader, this]
  | r :: rs, file, fuel, hr, hp, hf => by
    obtain ⟨lsn, h⟩ := hr r List.mem_cons_self
    have h64 := h.header
    rw [List.flatten_cons] at hp
    by_cases hlen : file.length < r.length
    · -- the record is not complete
      refine ⟨0, ?_, fun n hn hpre => ?_⟩
      · cases fuel with
        | zero => rfl
        | succ fuel =>
          rw [logRecords, if_pos, List.take_zero]
          by_cases h4 : file.length < 4
          · simp only [sizeofLogRecordHeader]
            omega
          · have hsize : (ofBytes file).readLE 0 4 = r.length := by
              rw [← h.size]
              apply readLE_congr
              intro i _ hi
              have hfr : file <+: r := List.prefix_of_prefix_length_le hp (List.prefix_append ..)
                (Nat.le_of_lt hlen)
              obtain ⟨tail, rfl⟩ := hfr
              rw [ofBytes_append_left (by omega)]
            rw [hsize]
            exact .inr hlen
      · cases n with
        | zero => exact Nat.le_refl 0
        | succ n =>
          have hle := hpre.length_le
          rw [List.take_succ_cons, List.flatten_cons, List.length_append] at hle
          omega
    · obtain ⟨rest, rfl⟩ : r <+: file :=
        List.prefix_of_prefix_length_le (List.prefix_append ..) hp (Nat.le_of_not_lt hlen)
      rw [List.length_append, sizeofLogRecordHeader] at *
      cases fuel with
      | zero => omega
      | succ fuel =>
        have hsize : (ofBytes (r ++ rest)).readLE 0 4 = r.length := by
          rw [← h.size]
          exact readLE_congr fun i _ hi => ofBytes_append_left (by omega)
        obtain ⟨k, hk, hmax⟩ : ∃ k, logRecords fuel rest = rs.take k ∧
            ∀ n ≤ rs.length, (rs.take n).flatten <+: rest → n ≤ k :=
          logRecords_prefix (fun r' hr' => hr r' (List.mem_cons_of_mem r hr'))
            ((List.prefix_append_right_inj r).mp hp) (by omega)
        refine ⟨k + 1, ?_, fun n hn hpre => ?_⟩
        · simp only [logRecords, hsize]
          rw [if_neg (by simp only [sizeofLogRecordHeader, List.length_append]; omega),
            List.take_left, List.drop_left, hk, List.take_succ_cons]
        · cases n with
          | zero => exact Nat.zero_le _
          | succ n =>
            rw [List.take_succ_cons, List.flatten_cons, List.prefix_append_right_inj] at hpre
            exact Nat.succ_le_succ (hmax n (Nat.le_of_succ_le_succ hn) hpre)

/-- A flush returns below the bound, which only rises. -/
theorem Inv.flushed_le (h : Inv s recs) (hs : Stepped s i a o s') :
    s.log.flushedLSN ≤ s'.log.flushedLSN ∧ ∀ t, o = .flushed t → t ≤ s'.log.flushedLSN := by
  cases hs with
  | @append _ _ _ _ log ha =>
    have he : log.flushedLSN = s.log.flushedLSN := by
      rcases append_ok ha with ⟨-, rfl⟩ | ⟨-, -, rfl⟩ <;> rfl
    exact ⟨Nat.le_of_eq he.symm, by simp⟩
  | @test _ target _ =>
    obtain ⟨hlog, hret⟩ := s.loop_frame i target
    rw [hlog]
    exact ⟨Nat.le_refl _, fun t ht => (hret t ht).2⟩
  | copy => exact ⟨Nat.le_refl _, by simp⟩
  | @call target b ph r next hpc hn =>
    rw [answered_log]
    exact ⟨Nat.le_refl _, by cases next <;> simp [answered]⟩
  | @publish target b hpc =>
    obtain ⟨-, -, -, -, c, rest, ht⟩ := h
    obtain ⟨-, hr, -⟩ := ht.led.role (i := i) (by simp [hpc, Pc.Leads])
    rw [hpc] at hr
    obtain ⟨rfl, -⟩ := hr
    obtain ⟨hlog, hret⟩ := Group.loop_frame { s with log := s.log.publish b } i target
    rw [hlog]
    exact ⟨ht.flushed, fun t ht => (hret t ht).2⟩

theorem exec_flushed (h : groupCommit.Exec ls s) (hf : s.log.file.length < 2 ^ 63) :
    ∀ e ∈ ls, ∀ t, e.outcome = .flushed t → t ≤ s.log.flushedLSN := by
  induction h with
  | nil h0 => simp
  | @snoc ls s s' e he hs ih =>
    have hstep := exec_stepped hs
    have hf' := Nat.lt_of_le_of_lt hstep.file_le hf
    obtain ⟨hle, hret⟩ := (Inv.exec he hf').flushed_le hstep
    intro e' hm t ht
    cases List.mem_append.mp hm with
    | inl hm => exact Nat.le_trans (ih hf' e' hm t ht) hle
    | inr hm =>
      rw [List.mem_singleton.mp hm] at ht
      exact hret t ht

/-- Whenever the program stops, the file is a prefix of the records that were accepted. Walking it
reads the first of them, all those below the target of a flush that returned. -/
theorem crash_prefix (h : groupCommit.Exec ls s) (hf : s.log.file.length < 2 ^ 63) :
    s.log.file <+: bytesOf (accepted ls) ∧
      (∃ k, logRecords s.log.file.length s.log.file = ((accepted ls).take k).map Accepted.bytes) ∧
      ∀ e ∈ ls, ∀ t, e.outcome = .flushed t → ∀ r ∈ accepted ls, r.lsn < t →
        r.bytes ∈ logRecords s.log.file.length s.log.file := by
  have hinv := Inv.exec h hf
  have hfew := hinv.few hf
  obtain ⟨rest, hs, -⟩ := hinv.stream
  obtain ⟨c, rest', ht⟩ := hinv.taken
  have hpre : s.log.file <+: bytesOf (accepted ls) := ⟨rest ++ s.log.appendBuffer, by
    rw [← List.append_assoc]
    exact hs⟩
  have hrec : ∀ b ∈ (accepted ls).map Accepted.bytes, ∃ lsn, IsRecord b lsn := by
    intro b hb
    obtain ⟨r, hr, rfl⟩ := List.mem_map.mp hb
    obtain ⟨j, hj⟩ := List.getElem?_of_mem hr
    have hjlt := (List.getElem?_eq_some_iff.mp hj).1
    refine ⟨r.lsn, recordOf_isRecord r.header (hinv.sized r hr) ?_⟩
    rw [hinv.lsn j r hj]
    simp only [INVALID_LSN] at hfew
    omega
  obtain ⟨k, hk, hmax⟩ := logRecords_prefix hrec hpre (Nat.le_refl _)
  have hdur : s.log.flushedLSN ≤ k := by
    refine hmax _ ?_ ?_
    · rw [List.length_map]
      exact Nat.le_trans ht.flushed ht.le
    · rw [← List.map_take]
      exact ht.durable
  refine ⟨hpre, ⟨k, by rw [hk, List.map_take]⟩, fun e he t hout r hr hlt => ?_⟩
  have htk := Nat.le_trans (exec_flushed h hf e he t hout) hdur
  obtain ⟨j, hj⟩ := List.getElem?_of_mem hr
  have hjk : j < k := by
    have := hinv.lsn j r hj
    omega
  rw [hk]
  refine List.mem_of_getElem? (i := j) ?_
  rw [List.getElem?_take_of_lt hjk, List.getElem?_map, hj]
  rfl

/-! ## After a failure -/

theorem Inv.stuck (h : Inv s recs) {t : Nat} (hs : Stepped s i a (.threw t) s') : Stuck s' := by
  obtain ⟨-, -, -, -, c, rest, ht⟩ := h
  generalize ho : Outcome.threw t = o at hs
  cases hs with
  | append | copy => cases ho
  | test =>
    unfold Group.loop at ho
    split at ho
    · split at ho <;> cases ho
    · cases ho
  | @call target b ph r next hpc hn =>
    cases next with
    | call | done => cases ho
    | threw =>
      obtain ⟨hf, -, hno⟩ := ht.led.role (i := i) (by simp [hpc, Pc.Leads])
      exact ⟨hf, not_leads_goto hno (by simp [Pc.Leads])⟩
  | publish =>
    unfold Group.loop at ho
    split at ho
    · split at ho <;> cases ho
    · cases ho

/-- Nothing is written once a leader has failed. -/
theorem Stuck.step (h : Stuck s) (hs : Stepped s i a o s') (hl : s.log.currentLSN ≠ INVALID_LSN) :
    Stuck s' ∧ s'.log.file = s.log.file ∧ s'.log.flushedLSN = s.log.flushedLSN ∧
      s'.log.appendBuffer = s.log.appendBuffer ++ bytesOf (accepted [⟨i, a, o⟩]) ∧
      (∀ t, o ≠ .threw t) ∧ ∀ t, o = .flushed t → t ≤ s.log.flushedLSN := by
  obtain ⟨hf, hn⟩ := h
  have hno : ∀ {p}, s.pc i = p → p.Leads → False := fun hp hleads => hn i (hp ▸ hleads)
  cases hs with
  | @append lrh before after lsn log ha =>
    rcases accepted_call (i := i) ha hl with ⟨hnone, rfl⟩ | ⟨hone, hsz, hlog⟩
    · rw [hnone]
      exact ⟨⟨hf, hn⟩, rfl, rfl, (List.append_nil _).symm, by simp, by simp⟩
    · rw [hone, hlog]
      exact ⟨⟨hf, hn⟩, rfl, rfl, by simp [bytesOf, Accepted.bytes], by simp, by simp⟩
  | @test _ target htest =>
    rw [htest.accepted]
    unfold Group.loop
    split
    · rw [if_neg (by simp [hf])]
      exact ⟨⟨hf, not_leads_goto (fun j _ => hn j) (by simp [Pc.Leads])⟩, rfl, rfl,
        (List.append_nil _).symm, by simp, by simp⟩
    · next hle =>
      refine ⟨⟨hf, not_leads_goto (fun j _ => hn j) (by simp [Pc.Leads])⟩, rfl, rfl,
        (List.append_nil _).symm, by simp, fun t ht => ?_⟩
      cases ht
      exact Nat.le_of_not_lt hle
  | copy hpc => exact (hno hpc (by simp [Pc.Leads])).elim
  | call hpc => exact (hno hpc (by simp [Pc.Leads])).elim
  | publish hpc => exact (hno hpc (by simp [Pc.Leads])).elim

/-- After a call that failed the file and `flushedLSN` stay, no flush returns above it or fails, and
`append` takes what fits in its buffer. -/
theorem fail_stop {pre post : List Event} {e : Event} {t : Nat}
    (h : groupCommit.Exec (pre ++ e :: post) s) (hf : s.log.file.length < 2 ^ 63)
    (he : e.outcome = .threw t) : ∃ s₁, groupCommit.Exec (pre ++ [e]) s₁ ∧
      s.log.file = s₁.log.file ∧ s.log.flushedLSN = s₁.log.flushedLSN ∧
      (∀ e' ∈ post, (∀ t, e'.outcome ≠ .threw t) ∧
        ∀ t, e'.outcome = .flushed t → t ≤ s₁.log.flushedLSN) ∧
      (bytesOf (accepted post)).length ≤ APPEND_BUFFER_SIZE := by
  suffices hs : ∃ s₁, groupCommit.Exec (pre ++ [e]) s₁ ∧ Stuck s ∧ s.log.file = s₁.log.file ∧
      s.log.flushedLSN = s₁.log.flushedLSN ∧ (∀ e' ∈ post, (∀ t, e'.outcome ≠ .threw t) ∧
        ∀ t, e'.outcome = .flushed t → t ≤ s₁.log.flushedLSN) ∧
      s.log.appendBuffer = s₁.log.appendBuffer ++ bytesOf (accepted post) by
    obtain ⟨s₁, h₁, -, hfile, hlsn, hpost, hbuf⟩ := hs
    have hroom := (Inv.exec h hf).room
    rw [hbuf, List.length_append] at hroom
    exact ⟨s₁, h₁, hfile, hlsn, hpost, by omega⟩
  induction post using List.reverseRecOn generalizing s with
  | nil =>
    obtain ⟨s₀, h₀, hs⟩ := h.last
    have hstep := exec_stepped hs
    rw [he] at hstep
    exact ⟨s, h, (Inv.exec h₀ (Nat.lt_of_le_of_lt hstep.file_le hf)).stuck hstep, rfl, rfl, by simp,
      (List.append_nil _).symm⟩
  | append_singleton post e' ih =>
    rw [← List.cons_append, ← List.append_assoc] at h
    obtain ⟨s₀, h₀, hs⟩ := h.last
    have hstep := exec_stepped hs
    have hf₀ := Nat.lt_of_le_of_lt hstep.file_le hf
    obtain ⟨s₁, h₁, hstuck, hfile, hlsn, hpost, hbuf⟩ := ih h₀ hf₀
    have hinv := Inv.exec h₀ hf₀
    have hfew := hinv.few hf₀
    have hcur := hinv.currentLSN
    obtain ⟨hstuck', hfile', hlsn', hbuf', hthrew, hret⟩ := hstuck.step hstep (by omega)
    refine ⟨s₁, h₁, hstuck', hfile'.trans hfile, hlsn'.trans hlsn, fun e'' hm => ?_, ?_⟩
    · cases List.mem_append.mp hm with
      | inl hm => exact hpost e'' hm
      | inr hm =>
        rw [List.mem_singleton.mp hm]
        exact ⟨hthrew, fun t ht => hlsn ▸ hret t ht⟩
    · rw [hbuf', hbuf, accepted_append, bytesOf_append, List.append_assoc]

end

/-- A commit record of which ten bytes are written before `write` fails. -/
def tornCommit : List Event :=
  [⟨0, .append (txnRecord 1 .txnCommit INVALID_LSN) [] [], .appended 0⟩,
    ⟨1, .flushTo 1, .running⟩,
    ⟨1, .copyToFillBuffer, .running⟩,
    ⟨1, .syscall (.opened false), .running⟩,
    ⟨1, .syscall (.wrote 10), .running⟩]

theorem exec_tornCommit : ∃ s s', groupCommit.Exec tornCommit s ∧ s.log.file.length = 10 ∧
    groupCommit.Exec (tornCommit ++ [⟨1, .syscall .failed, .threw 1⟩]) s' ∧
    s'.log.file = s.log.file ∧ s'.log.flushedLSN = 0 ∧ s'.pc 2 = .idle := by
  have hlen : (recordOf (txnRecord 1 .txnCommit INVALID_LSN) [] [] 0).length = 64 :=
    length_recordOf (by decide)
  generalize hr : recordOf (txnRecord 1 .txnCommit INVALID_LSN) [] [] 0 = r at hlen
  let fill := Mem.zero.copy 0 (ofBytes r) r.length
  let s₀ : Group Phase := ⟨{ file := [] }, fun _ => .idle⟩
  let s₁ : Group Phase := ⟨{ file := [], currentLSN := 1, appendBuffer := r }, s₀.pc⟩
  let s₂ : Group Phase := { s₁ with log := { s₁.log with flushing := true } }.goto 1 (.elected 1)
  let s₃ : Group Phase := { s₂ with log := { s₂.log with appendBuffer := [], fillBuffer := fill } }.goto 1
    (.appending 1 1 (.opening r.length))
  let s₄ : Group Phase := { s₃ with log := { s₃.log with file := [] } }.goto 1
    (.appending 1 1 (.writing 0 64 false))
  let s₅ : Group Phase := { s₄ with log := { s₄.log with file := fill.slice 0 10 } }.goto 1
    (.appending 1 1 (.writing 10 54 false))
  let s₆ : Group Phase := { s₅ with log := { s₅.log with file := fill.slice 0 10 ++ [] } }.goto 1 .idle
  have h₀ : groupCommit.Exec [] s₀ := .nil ⟨rfl, rfl, rfl, rfl, rfl, fun _ => rfl⟩
  have h₁ : groupCommit.Exec _ s₁ := h₀.snoc
    (l := ⟨0, .append (txnRecord 1 .txnCommit INVALID_LSN) [] [], .appended 0⟩) (by subst hr; rfl)
  have h₂ : groupCommit.Exec _ s₂ := h₁.snoc (l := ⟨1, .flushTo 1, .running⟩) (by rfl)
  have h₃ : groupCommit.Exec _ s₃ :=
    h₂.snoc (l := ⟨1, .copyToFillBuffer, .running⟩) (by rfl)
  have hopen : exec s₃ 1 (.syscall (.opened false)) = some (.running, s₄) := by
    show some (answered s₃ 1 1 1 [] (.call (writeNext 0 r.length false))) = _
    rw [hlen]
    rfl
  have h₄ : groupCommit.Exec _ s₄ := h₃.snoc (l := ⟨1, .syscall (.opened false), .running⟩) (by exact hopen)
  have h₅ : groupCommit.Exec _ s₅ :=
    h₄.snoc (l := ⟨1, .syscall (.wrote 10), .running⟩) (by rfl)
  have h₆ : groupCommit.Exec _ s₆ :=
    h₅.snoc (l := ⟨1, .syscall .failed, .threw 1⟩) (by rfl)
  exact ⟨s₅, s₆, h₅, length_slice .., h₆, List.append_nil _, rfl, rfl⟩

theorem crash_prefix_torn : ∃ s, groupCommit.Exec tornCommit s ∧ s.log.file.length = 10 ∧
    s.log.file <+: bytesOf (accepted tornCommit) ∧
    (∃ k, logRecords s.log.file.length s.log.file =
      ((accepted tornCommit).take k).map Accepted.bytes) ∧
    ∀ e ∈ tornCommit, ∀ t, e.outcome = .flushed t → ∀ r ∈ accepted tornCommit, r.lsn < t →
      r.bytes ∈ logRecords s.log.file.length s.log.file := by
  obtain ⟨s, -, h, hlen, -⟩ := exec_tornCommit
  exact ⟨s, h, hlen, crash_prefix h (by rw [hlen]; decide)⟩

/-- Another flush returns, with nothing written. -/
theorem fail_stop_torn : ∃ s, groupCommit.Exec
      (tornCommit ++ ⟨1, .syscall .failed, .threw 1⟩ :: [⟨2, .flushTo 0, .flushed 0⟩]) s ∧
    s.log.file.length = 10 ∧ ∃ s₁,
      groupCommit.Exec (tornCommit ++ [⟨1, .syscall .failed, .threw 1⟩]) s₁ ∧
      s.log.file = s₁.log.file ∧ s.log.flushedLSN = s₁.log.flushedLSN ∧
      (∀ e' ∈ [(⟨2, .flushTo 0, .flushed 0⟩ : Event)], (∀ t, e'.outcome ≠ .threw t) ∧
        ∀ t, e'.outcome = .flushed t → t ≤ s₁.log.flushedLSN) ∧
      (bytesOf (accepted [⟨2, .flushTo 0, .flushed 0⟩])).length ≤ APPEND_BUFFER_SIZE := by
  obtain ⟨s, s₁, -, hlen, h₁, hfile, hlsn, hpc⟩ := exec_tornCommit
  have hs : groupCommit.step s₁ ⟨2, .flushTo 0, .flushed 0⟩ (s₁.goto 2 .idle) := by
    show exec s₁ 2 (.flushTo 0) = _
    simp [exec, hpc, Group.loop]
  have h := h₁.snoc hs
  rw [List.append_assoc] at h
  have hlen' : (s₁.goto 2 .idle).log.file.length = 10 := by rw [goto_log, hfile, hlen]
  exact ⟨_, h, hlen', fail_stop h (by rw [hlen']; decide) rfl⟩

end DbInternals.Logging.Faulty
