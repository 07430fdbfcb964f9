import DbInternals.Logging.GroupCommit

/-!
# The log as one stream

The file, the batch a leader is about to write and the append buffer are
three stretches of one byte stream: the records `append` accepted, in order.
No write fails, so the file stays shorter than an `off_t` can say, and the
LSNs do not run out.

Results:
* `exec_short`: fewer records than bytes of log, so LSNs do not wrap;
* `log_stream`: at every point of every run the stream is the accepted
  records, walks and decodes back to them, and `flushedLSN` bounds what is in
  the file.
-/
namespace DbInternals.Logging

open Mem DbInternals.Logging.Group

/-- An `append` that returned an LSN. -/
structure Accepted where
  lsn : Nat
  header : LogRecordHeader
  before : Bytes
  after : Bytes

def Accepted.bytes (r : Accepted) : Bytes := recordOf r.header r.before r.after r.lsn

/-- The accepted records of a run, in order. -/
def accepted (ls : List Event) : List Accepted :=
  ls.filterMap fun e =>
    match e.action, e.outcome with
    | .append lrh before after, .appended lsn =>
      if lsn = INVALID_LSN then none else some ⟨lsn, lrh, before, after⟩
    | _, _ => none

/-- The batch a leader has copied and not yet written; empty without one. -/
def InFlight (s : Group Nat) (batch : Bytes) : Prop :=
  (∃ k t b n, s.pc k = .appending t b n ∧ batch = s.log.fillBuffer.slice 0 n) ∨
    (∀ k t b n, s.pc k ≠ .appending t b n) ∧ batch = []

theorem inFlight_exists (s : Group Nat) : ∃ batch, InFlight s batch := by
  by_cases h : ∃ k t b n, s.pc k = .appending t b n
  · obtain ⟨k, t, b, n, hk⟩ := h
    exact ⟨_, .inl ⟨k, t, b, n, hk, rfl⟩⟩
  · simp only [not_exists] at h
    exact ⟨[], .inr ⟨h, rfl⟩⟩

theorem appended_eq (ls : List Event) : appended ls = (accepted ls).map Accepted.bytes := by
  simp only [appended, accepted, List.map_filterMap]
  congr 1
  funext e
  cases e.action with
  | append lrh before after =>
    cases e.outcome with
    | appended lsn =>
      by_cases h : lsn = INVALID_LSN <;> simp [h, Accepted.bytes]
    | _ => rfl
  | _ => rfl

theorem accepted_append (ls ls' : List Event) : accepted (ls ++ ls') = accepted ls ++ accepted ls' :=
  List.filterMap_append ..

section
variable {s s' : Group Nat} {recs : List Bytes} {i : Nat} {a : Action} {o : Outcome}

/-! ## The three stretches -/

/-- File, batch in flight and append buffer make up the records. -/
theorem Inv.stream (h : Inv [] s recs) {batch : Bytes} (hb : InFlight s batch) :
    s.log.file ++ batch ++ s.log.appendBuffer = recs.flatten := by
  obtain ⟨-, -, w, c, hwc, hcl, hfile, hbuf, hled⟩ := h
  have hbatch : batch = ((recs.take c).drop w).flatten := by
    have hnone : w = c → [] = ((recs.take c).drop w).flatten := by
      intro e
      rw [e, List.drop_eq_nil_of_le (List.length_take_le _ _)]; rfl
    cases hb with
    | inl hk =>
      obtain ⟨k, t, b, n, hpc, rfl⟩ := hk
      obtain ⟨-, hrole, -⟩ := hled.role (i := k) (by simp [hpc, Pc.Leads])
      rw [hpc] at hrole
      exact hrole.2.2
    | inr hno =>
      obtain ⟨hno, rfl⟩ := hno
      cases hled with
      | inl h => exact hnone h.2.2.1
      | inr h =>
        obtain ⟨-, k, hrole, -⟩ := h
        cases hpc : s.pc k with
        | appending t b n => exact absurd hpc (hno k t b n)
        | elected t => rw [hpc] at hrole; exact hnone hrole.1
        | written t b => rw [hpc] at hrole; exact hnone hrole.2.1
        | idle => rw [hpc] at hrole; exact hrole.elim
        | waiting t => rw [hpc] at hrole; exact hrole.elim
  have hsplit : recs.take w ++ (recs.take c).drop w = recs.take c := by
    have e : recs.take w = (recs.take c).take w := by rw [List.take_take, Nat.min_eq_left hwc]
    rw [e, List.take_append_drop]
  rw [hfile, hbatch, hbuf, List.nil_append, ← List.flatten_append, hsplit, ← List.flatten_append,
    List.take_append_drop]

/-- The records below the bound are in the file, each at its place. -/
theorem Inv.flushed (h : Inv [] s recs) {l : Nat} (hl : l < s.log.flushedLSN) :
    (logRecords s.log.file.length s.log.file)[l]? = recs[l]? ∧ l < recs.length := by
  obtain ⟨-, hrec, w, c, hwc, hcl, hfile, -, hled⟩ := h
  have hw : l < w := Nat.lt_of_lt_of_le hl hled.flushedLSN_le
  have hall : ∀ r ∈ recs.take w, ∃ lsn, IsRecord r lsn := by
    intro r hr
    obtain ⟨i, hi⟩ := List.getElem?_of_mem (List.mem_of_mem_take hr)
    exact ⟨i, hrec i r hi⟩
  rw [List.nil_append] at hfile
  rw [hfile, logRecords_flatten hall (Nat.le_refl _), List.getElem?_take_of_lt hw]
  exact ⟨rfl, by omega⟩

/-! ## LSNs do not run out -/

/-- The buffers hold at most `APPEND_BUFFER_SIZE` bytes. -/
def Small (s : Group Nat) : Prop :=
  s.log.appendBuffer.length ≤ APPEND_BUFFER_SIZE ∧
    ∀ k t b n, s.pc k = .appending t b n → n ≤ APPEND_BUFFER_SIZE

theorem Small.goto {log : LogManager} (h : Small s)
    (hb : log.appendBuffer.length ≤ APPEND_BUFFER_SIZE) {p : Pc Nat}
    (hp : ∀ t b n, p = .appending t b n → n ≤ APPEND_BUFFER_SIZE) :
    Small ({ s with log }.goto i p) := by
  refine ⟨hb, fun k t b n hk => ?_⟩
  by_cases hki : k = i
  · rw [hki, goto_self] at hk
    exact hp t b n hk
  · rw [goto_of_ne _ p hki] at hk
    exact h.2 k t b n hk

theorem Small.loop (h : Small s) (i target : Nat) : Small (s.loop i target).2 := by
  unfold Group.loop
  split
  · split
    · exact h.goto h.1 (by simp)
    · exact h.goto h.1 (by simp)
  · exact h.goto h.1 (by simp)

theorem Small.step (h : Small s) (hs : Stepped s i a o s') : Small s' := by
  cases hs with
  | @append lrh before after lsn log ha =>
    cases append_ok ha with
    | inl hfail => obtain ⟨-, rfl⟩ := hfail; exact h
    | inr hok =>
      obtain ⟨-, hroom, rfl⟩ := hok
      refine ⟨?_, h.2⟩
      have hsz : APPEND_BUFFER_SIZE = 134217728 := rfl
      dsimp only
      rw [List.length_append, length_recordOf (by omega)]
      omega
  | test ha hpc => exact h.loop _ _
  | copy hpc =>
    apply h.goto (Nat.zero_le _)
    intro t b n e
    cases e
    exact h.1
  | write hpc => exact h.goto h.1 fun t b n e => by cases e
  | @publish target b hpc =>
    have hp : Small { s with log := s.log.publish b } := h
    exact hp.loop _ _

/-- The file only grows. -/
theorem Stepped.file_le (hs : Stepped s i a o s') : s.log.file.length ≤ s'.log.file.length := by
  cases hs with
  | append ha =>
    cases append_ok ha with
    | inl h => exact Nat.le_of_eq (by rw [h.2])
    | inr h => exact Nat.le_of_eq (by rw [h.2.2])
  | @test _ target ha hpc => exact Nat.le_of_eq (by rw [(s.loop_frame i target).1])
  | copy => exact Nat.le_refl _
  | write => simp [LogManager.appendDurable]
  | @publish target b hpc =>
    exact Nat.le_of_eq (by rw [(({ s with log := s.log.publish b } : Group Nat).loop_frame i target).1]; rfl)

theorem length_flatten_ge {rs : List Bytes} (h : ∀ r ∈ rs, 64 ≤ r.length) :
    64 * rs.length ≤ rs.flatten.length := by
  induction rs with
  | nil => simp
  | cons r rs ih =>
    have h1 := h r List.mem_cons_self
    have h2 := ih fun r hr => h r (List.mem_cons_of_mem _ hr)
    simp only [List.length_cons, List.flatten_cons, List.length_append]
    omega

/-- As long as the file has a length below `2 ^ 63`, there are fewer records than LSNs. -/
theorem Inv.short (h : Inv [] s recs) (hsm : Small s) (hf : s.log.file.length < 2 ^ 63) :
    recs.length + 1 < INVALID_LSN := by
  obtain ⟨batch, hb⟩ := inFlight_exists s
  have hlen := congrArg List.length (h.stream hb)
  have hbatch : batch.length ≤ APPEND_BUFFER_SIZE := by
    cases hb with
    | inl hk =>
      obtain ⟨k, t, b, n, hpc, rfl⟩ := hk
      rw [length_slice]; exact hsm.2 k t b n hpc
    | inr hno => rw [hno.2]; exact Nat.zero_le _
  have hge : 64 * recs.length ≤ recs.flatten.length := by
    apply length_flatten_ge
    intro r hr
    obtain ⟨j, hj⟩ := List.getElem?_of_mem hr
    exact (h.records j r hj).header
  have hbuf := hsm.1
  simp only [List.length_append] at hlen
  simp only [APPEND_BUFFER_SIZE, INVALID_LSN] at *
  omega

/-! ## Runs -/

/-- The size of an accepted record is what its header says. -/
def Accepted.Sized (r : Accepted) : Prop :=
  sizeofLogRecordHeader + r.before.length + r.after.length < 2 ^ 32

/-- What a step accepts: at most one record, with the next LSN. -/
theorem Stepped.accepted (hs : Stepped s i a o s') (hl : s.log.currentLSN < INVALID_LSN) :
    accepted [⟨i, a, o⟩] = [] ∨
      ∃ r, accepted [⟨i, a, o⟩] = [r] ∧ r.lsn = s.log.currentLSN ∧ r.Sized := by
  cases hs with
  | @append lrh before after lsn log ha =>
    cases append_ok ha with
    | inl h =>
      obtain ⟨rfl, -⟩ := h
      exact .inl (by simp [Logging.accepted])
    | inr h =>
      obtain ⟨rfl, hroom, -⟩ := h
      refine .inr ⟨⟨s.log.currentLSN, lrh, before, after⟩, ?_, rfl, ?_⟩
      · simp [Logging.accepted, Nat.ne_of_lt hl]
      · have hsz : APPEND_BUFFER_SIZE = 134217728 := rfl
        simp only [Accepted.Sized]; omega
  | @test _ target ha hpc =>
    cases a with
    | append lrh before after => exact absurd rfl (ha lrh before after)
    | _ => exact .inl rfl
  | copy => exact .inl rfl
  | write => exact .inl rfl
  | publish => exact .inl rfl

/-- The state and the accepted records of a run whose file is not too long. -/
theorem exec_short {ls : List Event} (h : (groupCommit []).Exec ls s)
    (hf : s.log.file.length < 2 ^ 63) :
    Inv [] s (appended ls) ∧ Small s ∧ (accepted ls).map Accepted.lsn = List.range (accepted ls).length ∧
      ∀ r ∈ accepted ls, r.Sized := by
  induction h with
  | @nil s h0 =>
    have hsm : Small s := by
      refine ⟨by rw [h0.2.2.2.2.1]; exact Nat.zero_le _, fun k t b n hk => ?_⟩
      rw [h0.2.2.2.2.2] at hk
      cases hk
    have he : (groupCommit []).Exec [] s := .nil h0
    exact ⟨Inv.exec he (by decide), hsm, rfl, fun r hr => by simp [accepted] at hr⟩
  | @snoc ls s s' e he hs ih =>
    have hstep := Group.exec_stepped hs
    obtain ⟨hinv, hsm, hlsn, hsized⟩ := ih (Nat.lt_of_le_of_lt hstep.file_le hf)
    have hshort := hinv.short hsm (Nat.lt_of_le_of_lt hstep.file_le hf)
    have hcur : s.log.currentLSN = (accepted ls).length := by
      rw [hinv.currentLSN, appended_eq, List.length_map]
    have hacc := hstep.accepted (by rw [hinv.currentLSN]; omega)
    have hone : (appended [⟨e.thread, e.action, e.outcome⟩]).length ≤ 1 := by
      rw [appended_eq, List.length_map]
      cases hacc with
      | inl h => rw [h]; exact Nat.zero_le _
      | inr h => obtain ⟨r, h, -⟩ := h; rw [h]; exact Nat.le_refl _
    refine ⟨?_, hsm.step hstep, ?_, ?_⟩
    · rw [appended_append]
      apply hinv.step hstep
      rw [List.length_append]
      omega
    · rw [accepted_append]
      cases hacc with
      | inl h => rw [h, List.append_nil]; exact hlsn
      | inr h =>
        obtain ⟨r, h, hr, -⟩ := h
        rw [h, List.map_append, hlsn, List.length_append, List.length_singleton, List.range_succ,
          ← hcur, ← hr]
        rfl
    · rw [accepted_append]
      intro r hr
      cases List.mem_append.mp hr with
      | inl hr => exact hsized r hr
      | inr hr =>
        cases hacc with
        | inl h => rw [h] at hr; cases hr
        | inr h =>
          obtain ⟨r', h, -, hs⟩ := h
          rw [h, List.mem_singleton] at hr
          exact hr ▸ hs

end

/-- The log of the state `s` is the stream of the records `recs`. -/
structure LogStream (s : Group Nat) (recs : List Accepted) : Prop where
  stream : ∀ batch, InFlight s batch →
    s.log.file ++ batch ++ s.log.appendBuffer = (recs.map Accepted.bytes).flatten
  /-- walking it by the size fields -/
  walk : ∀ batch, InFlight s batch →
    logRecords (s.log.file ++ batch ++ s.log.appendBuffer).length
      (s.log.file ++ batch ++ s.log.appendBuffer) = recs.map Accepted.bytes
  /-- what a reader finds in a record -/
  decode : ∀ r ∈ recs, r.header.Fits → decodeRecord r.bytes =
    ({ r.header.prepare r.before r.after with
        lsn := r.lsn, crc := (Crc32c.compute (zeroCrc r.bytes)).toNat }, r.before, r.after)
  crc : ∀ r ∈ recs, (ofBytes r.bytes).readLE 4 4 = (Crc32c.compute (zeroCrc r.bytes)).toNat
  lsns : recs.map Accepted.lsn = List.range recs.length
  next : s.log.currentLSN = recs.length
  failed : ∀ i lrh before after s',
    s.exec i (.append lrh before after) = some (.appended INVALID_LSN, s') → s' = s
  durable : ∀ l, l < s.log.flushedLSN → ∃ r, recs[l]? = some r ∧ r.lsn = l ∧
    (logRecords s.log.file.length s.log.file)[l]? = some r.bytes

/-- At every point of every run, as long as no write fails. -/
theorem log_stream (ls : List Event) (s : Group Nat) (h : (groupCommit []).Exec ls s)
    (hf : s.log.file.length < 2 ^ 63) : LogStream s (accepted ls) := by
  obtain ⟨hinv, hsm, hlsn, hsized⟩ := exec_short h hf
  have hshort := hinv.short hsm hf
  have hcur : s.log.currentLSN = (accepted ls).length := by
    rw [hinv.currentLSN, appended_eq, List.length_map]
  have hat : ∀ {l : Nat} {r : Accepted}, (accepted ls)[l]? = some r → r.lsn = l := by
    intro l r hr
    have h1 : ((accepted ls).map Accepted.lsn)[l]? = some r.lsn := by rw [List.getElem?_map, hr]; rfl
    rw [hlsn, List.getElem?_range (List.getElem?_eq_some_iff.mp hr).1] at h1
    exact (Option.some.inj h1).symm
  refine ⟨fun batch hb => by rw [hinv.stream hb, appended_eq], fun batch hb => ?_,
    fun r hr hfit => ?_, fun r hr => ?_, hlsn, hcur, ?_, ?_⟩
  · have hall : ∀ r ∈ appended ls, ∃ lsn, IsRecord r lsn := by
      intro r hr
      obtain ⟨j, hj⟩ := List.getElem?_of_mem hr
      exact ⟨j, hinv.records j r hj⟩
    rw [hinv.stream hb, logRecords_flatten hall (Nat.le_refl _), appended_eq]
  · obtain ⟨j, hj⟩ := List.getElem?_of_mem hr
    have hj' := (List.getElem?_eq_some_iff.mp hj).1
    have hl : r.lsn < 2 ^ 64 := by
      rw [hat hj]
      rw [appended_eq, List.length_map, INVALID_LSN] at hshort
      omega
    rw [Accepted.bytes, crc_recordOf (hsized r hr)]
    exact decodeRecord_recordOf hfit hl (hsized r hr)
  · exact (crc_recordOf (hsized r hr)).symm
  · intro i lrh before after s' he
    obtain ⟨lsn, log, ha, ho, hs'⟩ := (Group.exec_stepped he).of_append
    have hlt : s.log.currentLSN ≠ INVALID_LSN := by rw [hinv.currentLSN]; omega
    obtain rfl := Outcome.appended.inj ho
    cases append_ok ha with
    | inl h => rw [hs', h.2]
    | inr h => exact absurd h.1.symm hlt
  · intro l hl
    obtain ⟨hrec, hlen⟩ := hinv.flushed hl
    rw [appended_eq, List.length_map] at hlen
    refine ⟨(accepted ls)[l], List.getElem?_eq_getElem hlen, hat (List.getElem?_eq_getElem hlen), ?_⟩
    rw [hrec, appended_eq, List.getElem?_map, List.getElem?_eq_getElem hlen]
    rfl

/-- A commit record in a leader's hands. -/
theorem log_stream_commit : ∃ s, (∃ t b n, s.pc 1 = .appending t b n) ∧
    LogStream s [⟨0, txnRecord 1 .txnCommit INVALID_LSN, [], []⟩] := by
  generalize hr : recordOf (txnRecord 1 .txnCommit INVALID_LSN) [] [] 0 = r
  let s₀ : Group Nat := ⟨{ file := [] }, fun _ => .idle⟩
  let s₁ : Group Nat := ⟨{ file := [], currentLSN := 1, appendBuffer := r }, s₀.pc⟩
  let s₂ : Group Nat := { s₁ with log := { s₁.log with flushing := true } }.goto 1 (.elected 1)
  let s₃ : Group Nat := { s₂ with log := { s₂.log with
      appendBuffer := [], fillBuffer := Mem.zero.copy 0 (ofBytes r) r.length } }.goto 1
    (.appending 1 1 r.length)
  have h₀ : (groupCommit []).Exec [] s₀ := .nil ⟨rfl, rfl, rfl, rfl, rfl, fun _ => rfl⟩
  have h₁ : (groupCommit []).Exec _ s₁ := h₀.snoc
    (l := ⟨0, .append (txnRecord 1 .txnCommit INVALID_LSN) [] [], .appended 0⟩) (by subst hr; rfl)
  have h₂ : (groupCommit []).Exec _ s₂ := h₁.snoc (l := ⟨1, .flushTo 1, .running⟩) (by rfl)
  have h₃ : (groupCommit []).Exec _ s₃ := h₂.snoc (l := ⟨1, .copyToFillBuffer, .running⟩) (by rfl)
  exact ⟨s₃, ⟨1, 1, r.length, rfl⟩, log_stream _ s₃ h₃ (Nat.two_pow_pos 63)⟩

end DbInternals.Logging
