import Mathlib.Data.List.Induction
import Mathlib.Tactic.Common

/-!
# Transition systems

A system has initial states and labelled steps. `Exec ls s` says that the
labels `ls`, in order, lead from an initial state to `s`.

Results:
* `Exec.leads`: a run step by step from its start;
* `Inductive.exec`, `Inductive.reachable`: an inductive invariant holds in
  every state of every run;
* `Path.always`, `Path.stateAt_trans`, `Path.length_le`: what holds along a path and between its
  states, and how long it gets;
* `Simulates.exec`: a simulation maps every run to a run with the same labels.
-/
namespace DbInternals

/-- A labelled transition system. -/
structure LTS (S L : Type*) where
  init : S → Prop
  step : S → L → S → Prop

namespace LTS

variable {S T L : Type*} {M : LTS S L} {N : LTS T L}

/-- The run `ls` ends in the state. -/
inductive Exec (M : LTS S L) : List L → S → Prop
  | nil {s : S} (h : M.init s) : Exec M [] s
  | snoc {ls : List L} {s s' : S} {l : L} (h : Exec M ls s) (hs : M.step s l s') :
    Exec M (ls ++ [l]) s'

/-- A run ended with its last step. -/
theorem Exec.last {ls : List L} {l : L} {s' : S} (h : M.Exec (ls ++ [l]) s') :
    ∃ s, M.Exec ls s ∧ M.step s l s' := by
  generalize hls : ls ++ [l] = ks at h
  cases h with
  | nil => simp at hls
  | @snoc ls₀ s₀ _ l₀ h hs =>
    obtain ⟨rfl, hl⟩ := List.append_inj' hls rfl
    cases hl
    exact ⟨s₀, h, hs⟩

/-- A run went through each of its steps. -/
theorem Exec.split (ls : List L) {ls' : List L} {l : L} {s : S} (h : M.Exec (ls ++ l :: ls') s) :
    ∃ s₀ s₁, M.Exec ls s₀ ∧ M.step s₀ l s₁ := by
  induction ls' using List.reverseRecOn generalizing s with
  | nil =>
    obtain ⟨s₀, h, hs⟩ := h.last
    exact ⟨s₀, s, h, hs⟩
  | append_singleton ls' l' ih =>
    rw [← List.cons_append, ← List.append_assoc] at h
    obtain ⟨s₁, h, -⟩ := h.last
    exact ih h

/-- The labels lead from the one state to the other. -/
def Leads (M : LTS S L) : S → List L → S → Prop
  | s, [], s' => s = s'
  | s, l :: ls, s' => ∃ s₁, M.step s l s₁ ∧ Leads M s₁ ls s'

theorem Leads.snoc {ls : List L} {l : L} {s s₁ s' : S} (h : M.Leads s ls s₁) (hs : M.step s₁ l s') :
    M.Leads s (ls ++ [l]) s' := by
  induction ls generalizing s with
  | nil =>
    subst h
    exact ⟨s', hs, rfl⟩
  | cons l₀ ls ih =>
    obtain ⟨s₂, h₀, h⟩ := h
    exact ⟨s₂, h₀, ih h⟩

/-- A run, read from its start. -/
theorem Exec.leads {ls : List L} {s : S} (h : M.Exec ls s) : ∃ s₀, M.init s₀ ∧ M.Leads s₀ ls s := by
  induction h with
  | @nil s h0 => exact ⟨s, h0, rfl⟩
  | snoc _ hs ih =>
    obtain ⟨s₀, h0, h⟩ := ih
    exact ⟨s₀, h0, h.snoc hs⟩

def Reachable (M : LTS S L) (s : S) : Prop := ∃ ls, M.Exec ls s

theorem Reachable.init {s : S} (h : M.init s) : M.Reachable s := ⟨[], .nil h⟩

theorem Reachable.step {s s' : S} {l : L} (h : M.Reachable s) (hs : M.step s l s') :
    M.Reachable s' := by
  obtain ⟨ls, h⟩ := h
  exact ⟨ls ++ [l], h.snoc hs⟩

/-- `I` holds initially and every step keeps it. -/
structure Inductive (M : LTS S L) (I : S → Prop) : Prop where
  init : ∀ s, M.init s → I s
  step : ∀ s l s', I s → M.step s l s' → I s'

theorem Inductive.exec {I : S → Prop} (h : M.Inductive I) {ls : List L} {s : S}
    (he : M.Exec ls s) : I s := by
  induction he with
  | nil h0 => exact h.init _ h0
  | snoc _ hs ih => exact h.step _ _ _ ih hs

theorem Inductive.reachable {I : S → Prop} (h : M.Inductive I) {s : S} (hr : M.Reachable s) :
    I s := by
  obtain ⟨_, he⟩ := hr
  exact h.exec he

/-- A path: its steps, each with the states around it. -/
inductive Path (M : LTS S L) : S → List (S × L × S) → Prop
  | nil (s : S) : Path M s []
  | cons {s s' : S} {l : L} {tr : List (S × L × S)} (hs : M.step s l s') (h : Path M s' tr) :
    Path M s ((s, l, s') :: tr)

theorem Path.step {s : S} {tr : List (S × L × S)} (h : M.Path s tr) :
    ∀ x ∈ tr, M.step x.1 x.2.1 x.2.2 := by
  induction h with
  | nil => simp
  | cons hs _ ih =>
    intro x hx
    cases List.mem_cons.mp hx with
    | inl e => rw [e]; exact hs
    | inr hx => exact ih x hx

/-- The path along which `f` computes each step. -/
def follow (f : S → L → Option S) (s : S) : List L → Option (List (S × L × S))
  | [] => some []
  | l :: ls =>
    match f s l with
    | none => none
    | some s' => (follow f s' ls).map ((s, l, s') :: ·)

theorem Path.follow {f : S → L → Option S} (hf : ∀ s l s', f s l = some s' → M.step s l s')
    {s : S} {ls : List L} {tr : List (S × L × S)} (h : LTS.follow f s ls = some tr) :
    M.Path s tr := by
  induction ls generalizing s tr with
  | nil =>
    cases h
    exact .nil s
  | cons l ls ih =>
    rw [LTS.follow] at h
    cases hs : f s l with
    | none => simp only [hs] at h; cases h
    | some s' =>
      simp only [hs] at h
      obtain ⟨tr', htr, rfl⟩ := Option.map_eq_some_iff.mp h
      exact .cons (hf s l s' hs) (ih htr)

/-- `P` holds in every state of the path. -/
def Always (P : S → Prop) (s : S) (tr : List (S × L × S)) : Prop := P s ∧ ∀ x ∈ tr, P x.2.2

/-- Every step of the path meets `C`. -/
def Meets (C : S → L → Prop) (tr : List (S × L × S)) : Prop := ∀ x ∈ tr, C x.1 x.2.1

/-- The state after `i` steps; at the end it stays. -/
def stateAt (s : S) : List (S × L × S) → ℕ → S
  | [], _ => s
  | _ :: _, 0 => s
  | x :: tr, i + 1 => stateAt x.2.2 tr i

@[simp] theorem stateAt_zero (s : S) (tr : List (S × L × S)) : stateAt s tr 0 = s := by
  cases tr <;> rfl

/-- A step leads from its time to the next, or the path is over. -/
theorem Path.stateAt_step {s : S} {tr : List (S × L × S)} (h : M.Path s tr) (i : ℕ) :
    (tr[i]? = none ∧ stateAt s tr (i + 1) = stateAt s tr i) ∨
      ∃ l, tr[i]? = some (stateAt s tr i, l, stateAt s tr (i + 1)) := by
  induction h generalizing i with
  | nil s => exact .inl ⟨rfl, rfl⟩
  | @cons s s' l tr _ _ ih =>
    cases i with
    | zero => exact .inr ⟨l, by simp [stateAt]⟩
    | succ i => exact ih i

/-- What every step keeps holds between any two times. -/
theorem Path.stateAt_trans {R : S → S → Prop} {s : S} {tr : List (S × L × S)} (h : M.Path s tr)
    (hrefl : ∀ s, R s s) (htrans : ∀ {a b c}, R a b → R b c → R a c)
    (hR : ∀ x ∈ tr, R x.1 x.2.2) {i j : ℕ} (hij : i ≤ j) : R (stateAt s tr i) (stateAt s tr j) := by
  obtain ⟨k, rfl⟩ := Nat.exists_eq_add_of_le hij
  clear hij
  induction k with
  | zero => exact hrefl _
  | succ k ih =>
    obtain ⟨-, heq⟩ | ⟨l, hl⟩ := h.stateAt_step (i + k)
    · rw [← Nat.add_assoc, heq]
      exact ih
    · exact htrans ih (hR _ (List.mem_of_getElem? hl))

/-- What every step that meets `C` keeps holds along a path of such steps. -/
theorem Path.always {I : S → Prop} {C : S → L → Prop}
    (hstep : ∀ s l s', I s → M.step s l s' → C s l → I s') {s : S} {tr : List (S × L × S)}
    (h : M.Path s tr) (hs : I s) (hC : Meets C tr) : Always I s tr := by
  induction h with
  | nil s => exact ⟨hs, by simp⟩
  | @cons s s' l tr hl _ ih =>
    have hs' : I s' := hstep s l s' hs hl (hC (s, l, s') List.mem_cons_self)
    have h' := ih hs' fun x hx => hC x (List.mem_cons_of_mem _ hx)
    refine ⟨hs, fun x hx => ?_⟩
    cases List.mem_cons.mp hx with
    | inl e => rw [e]; exact hs'
    | inr hx => exact h'.2 x hx

theorem Always.stateAt {P : S → Prop} {s : S} {tr : List (S × L × S)} (h : Always P s tr) (i : ℕ) :
    P (stateAt s tr i) := by
  induction tr generalizing s i with
  | nil => exact h.1
  | cons x tr ih =>
    cases i with
    | zero => exact h.1
    | succ i => exact ih ⟨h.2 x List.mem_cons_self, fun y hy => h.2 y (List.mem_cons_of_mem _ hy)⟩ i

/-- A path of steps that make `m` smaller is no longer than that. -/
theorem Path.length_le {I : S → Prop} {C : S → L → Prop} {m : S → ℕ}
    (hstep : ∀ s l s', I s → M.step s l s' → C s l → I s' ∧ m s' < m s) {s : S}
    {tr : List (S × L × S)} (h : M.Path s tr) (hs : I s) (hC : Meets C tr) : tr.length ≤ m s := by
  induction h with
  | nil s => exact Nat.zero_le _
  | @cons s s' l tr hl _ ih =>
    obtain ⟨hs', hlt⟩ := hstep s l s' hs hl (hC (s, l, s') List.mem_cons_self)
    have hle := ih hs' fun x hx => hC x (List.mem_cons_of_mem _ hx)
    rw [List.length_cons]
    omega

/-- What each step establishes that meets `C` and starts with `I`. -/
theorem Path.each {I : S → Prop} {C : S → L → Prop} {R : S → L → S → Prop}
    (hstep : ∀ s l s', I s → M.step s l s' → C s l → R s l s' ∧ I s') {s : S}
    {tr : List (S × L × S)} (h : M.Path s tr) (hs : I s) (hC : Meets C tr) :
    ∀ x ∈ tr, R x.1 x.2.1 x.2.2 := by
  induction h with
  | nil s => simp
  | @cons s s' l tr hl _ ih =>
    obtain ⟨hR, hs'⟩ := hstep s l s' hs hl (hC (s, l, s') List.mem_cons_self)
    intro x hx
    cases List.mem_cons.mp hx with
    | inl e => rw [e]; exact hR
    | inr hx => exact ih hs' (fun y hy => hC y (List.mem_cons_of_mem _ hy)) x hx

/-- A path along which `P` holds has only steps that meet `C`, if a step that does not breaks `P`. -/
theorem Path.meets {P I : S → Prop} {C : S → L → Prop}
    (hstep : ∀ s l s', I s → M.step s l s' → P s' → C s l)
    (hI : ∀ s l s', I s → M.step s l s' → C s l → I s') {s : S} {tr : List (S × L × S)}
    (h : M.Path s tr) (hs : I s) (hP : ∀ x ∈ tr, P x.2.2) : Meets C tr := by
  induction h with
  | nil s => simp [Meets]
  | @cons s s' l tr hl _ ih =>
    have hc : C s l := hstep s l s' hs hl (hP (s, l, s') List.mem_cons_self)
    have h' := ih (hI s l s' hs hl hc) fun x hx => hP x (List.mem_cons_of_mem _ hx)
    intro x hx
    cases List.mem_cons.mp hx with
    | inl e => rw [e]; exact hc
    | inr hx => exact h' x hx

/-- `R` relates every step of `M` to a step of `N` with the same label. -/
structure Simulates (M : LTS S L) (N : LTS T L) (R : S → T → Prop) : Prop where
  init : ∀ s, M.init s → ∃ t, N.init t ∧ R s t
  step : ∀ s l s' t, R s t → M.step s l s' → ∃ t', N.step t l t' ∧ R s' t'

theorem Simulates.exec {R : S → T → Prop} (h : Simulates M N R) {ls : List L} {s : S}
    (he : M.Exec ls s) : ∃ t, N.Exec ls t ∧ R s t := by
  induction he with
  | nil h0 =>
    obtain ⟨t, ht, hR⟩ := h.init _ h0
    exact ⟨t, .nil ht, hR⟩
  | snoc _ hs ih =>
    obtain ⟨t, ht, hR⟩ := ih
    obtain ⟨t', ht', hR'⟩ := h.step _ _ _ _ hR hs
    exact ⟨t', ht.snoc ht', hR'⟩

end LTS

end DbInternals
