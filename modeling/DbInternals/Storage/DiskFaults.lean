import DbInternals.Core.Hoare
import DbInternals.Storage.DiskManager

/-!
# What the disk calls throw

A failing system call and a failed check throw C++ exceptions. The free list trusts the
id count of its head page; a count the page cannot hold has no defined behaviour.

Results: `readPage_caught`, `writePage_caught`; `allocatePage_throws` and
`deallocatePage_throws` name the one other case, `Overfull`.
-/
namespace DbInternals.Storage

/-- What a `catch (...)` gets. -/
def Caught (e : Fault) : Prop := e.isException = true

theorem caught_runtimeError (text : String) : Caught (.runtimeError text) := rfl

theorem syscall_caught : ThrowsOnly Caught syscall := by
  intro d e d' h
  unfold Throws syscall at h
  split at h <;> cases h

theorem pwrite_caught (data : Mem) (offset : Nat) : ThrowsOnly Caught (pwrite data offset) := by
  refine .bind syscall_caught fun ok => .ite ?_ (.pure _)
  exact .bind (.modify _) fun _ => .pure _

theorem pread_caught (offset : Nat) : ThrowsOnly Caught (pread offset) := by
  refine .bind syscall_caught fun ok => .ite ?_ (.pure _)
  exact .bind .get fun _ => .pure _

theorem handleWriteError_caught (w : Bool) (pageId : Nat) :
    ThrowsOnly Caught (handleWriteError w pageId) := by
  cases w with
  | true => exact .pure _
  | false => exact .throw rfl

theorem handleReadError_caught (n : Option Nat) (pageId : Nat) :
    ThrowsOnly Caught (handleReadError n pageId) := by
  cases n with
  | none => exact .throw rfl
  | some n => exact .ite (.pure _) (.throw rfl)

theorem updateMetadata_caught : ThrowsOnly Caught updateMetadata :=
  .bind .get fun _ => .bind (pwrite_caught _ _) fun _ => handleWriteError_caught _ _

theorem writePage_caught (pageId : Nat) (data : Mem) : ThrowsOnly Caught (writePage pageId data) := by
  refine .bind .get fun d => ?_
  refine .ite (.throw_bind (caught_runtimeError _) _) ?_
  refine .bind (pwrite_caught _ _) fun w => ?_
  exact .ite (.pure _) (.throw rfl)

theorem readPage_caught (pageId : Nat) : ThrowsOnly Caught (readPage pageId) := by
  refine .bind .get fun d => ?_
  refine .ite (.throw_bind (caught_runtimeError _) _) ?_
  refine .bind (pread_caught _) fun q => ?_
  split
  · exact .throw rfl
  · exact .ite (.pure _) (.ite (.throw rfl) (.throw rfl))

/-- The free-list page in use claims more ids than it holds. -/
def Overfull (d : DiskManager) : Prop :=
  MAX_FREE_IDS < currentIdCount
    (Mem.zero.copy 0 (d.bytes.shift (pageOffset d.globalMetadata.freelistHead)) PAGE_SIZE)

theorem pread_page {d d' : DiskManager} {offset : Nat} {q : Option (Nat × Mem)}
    (h : Ends (pread offset) d q d') :
    ∀ n data, q = some (n, data) → data = Mem.zero.copy 0 (d.bytes.shift offset) n := by
  intro n data hq
  subst hq
  obtain ⟨ok, d₁, hs, h₁⟩ := Ends.bind_iff.mp h
  have hd : d₁.bytes = d.bytes := by
    unfold Ends syscall at hs
    split at hs <;> cases hs <;> rfl
  obtain ⟨-, h₂⟩ | ⟨-, h₂⟩ := h₁.ite
  · replace h₂ := Ends.rest (Ends.get d₁) h₂
    cases h₂
    rw [hd]
  · cases h₂

/-- A free-list call reads the whole head page, or throws. -/
theorem headRead_throws {α : Type} {d d' : DiskManager} {offset head : Nat} {e : Fault}
    {g : Option (Nat × Mem) → DiskM α}
    (h : Throws (pread offset >>= fun r => handleReadError (r.map Prod.fst) head >>= fun _ => g r)
      d e d') : Caught e ∨ ∃ d₁, Throws
        (g (some (PAGE_SIZE, Mem.zero.copy 0 (d.bytes.shift offset) PAGE_SIZE))) d₁ e d' := by
  obtain h₁ | ⟨q, d₁, hq, h₁⟩ := Throws.bind_iff.mp h
  · exact .inl (pread_caught _ _ _ _ h₁)
  obtain h₂ | ⟨_, d₂, hh, h₂⟩ := Throws.bind_iff.mp h₁
  · exact .inl (handleReadError_caught _ _ _ _ _ h₂)
  cases q with
  | none => cases hh
  | some q =>
    obtain ⟨n, data⟩ := q
    obtain ⟨hn, -⟩ | ⟨-, hh⟩ := hh.ite
    · obtain rfl : n = PAGE_SIZE := hn
      rw [pread_page hq _ data rfl] at h₂
      exact .inr ⟨d₂, h₂⟩
    · cases hh

theorem allocatePage_throws {d d' : DiskManager} {e : Fault} (h : Throws allocatePage d e d') :
    Caught e ∨ Overfull d := by
  replace h := Throws.rest (Ends.get d) h
  obtain ⟨-, h₁⟩ | ⟨-, h₁⟩ := h.ite
  · refine .inl (ThrowsOnly.bind .get (fun _ => ?_) _ _ _ h₁)
    exact .bind (.modify _) fun _ => .bind updateMetadata_caught fun _ => .pure _
  obtain h₂ | ⟨d₁, h₂⟩ := headRead_throws h₁
  · exact .inl h₂
  obtain ⟨-, h₃⟩ | ⟨-, h₃⟩ := h₂.ite
  · refine .inl (ThrowsOnly.bind (.modify _) (fun _ => ?_) _ _ _ h₃)
    exact .bind updateMetadata_caught fun _ => .pure _
  obtain ⟨hc, -⟩ | ⟨-, h₄⟩ := h₃.ite
  · exact .inr hc
  · refine .inl (ThrowsOnly.bind (pwrite_caught _ _) (fun _ => ?_) _ _ _ h₄)
    exact .bind (handleWriteError_caught _ _) fun _ => .bind updateMetadata_caught fun _ => .pure _

theorem deallocatePage_throws {d d' : DiskManager} {pageId : Nat} {e : Fault}
    (h : Throws (deallocatePage pageId) d e d') : Caught e ∨ Overfull d := by
  replace h := Throws.rest (Ends.get d) h
  have hnew : ∀ next, ThrowsOnly Caught (do
      let w ← pwrite ((Mem.zero.writeLE 0 4 next).writeLE 4 4 0) (pageOffset pageId)
      handleWriteError w pageId
      modify fun d : DiskManager =>
        { d with globalMetadata := { d.globalMetadata with freelistHead := pageId } }
      updateMetadata) := fun next =>
    .bind (pwrite_caught _ _) fun _ => .bind (handleWriteError_caught _ _) fun _ =>
      .bind (.modify _) fun _ => updateMetadata_caught
  obtain ⟨-, h₁⟩ | ⟨-, h₁⟩ := h.ite
  · exact .inl (hnew _ _ _ _ h₁)
  obtain h₂ | ⟨d₁, h₂⟩ := headRead_throws h₁
  · exact .inl h₂
  obtain ⟨-, h₃⟩ | ⟨-, h₃⟩ := h₂.ite
  · exact .inl (hnew _ _ _ _ h₃)
  obtain ⟨hc, -⟩ | ⟨-, h₄⟩ := h₃.ite
  · exact .inr hc
  · refine .inl (ThrowsOnly.bind (pwrite_caught _ _) (fun _ => ?_) _ _ _ h₄)
    exact handleWriteError_caught _ _

end DbInternals.Storage
