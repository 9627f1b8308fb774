import Mathlib.Tactic.Common

/-!
# Support — Machines — Runs

A machine with partial steps: `step s i = none` where `i` is not possible in `s`, because a thread
is blocked or because it is not at such a step.

* `run_keeps`: what every step keeps, a run keeps.
* `run_length_add_le`: where every step lowers a rank, the rank bounds the run.
* `exists_quiet`: and some run cannot be continued.
* `foldlM_keeps`: the rule for a machine whose steps are all possible, and may fail.
-/

namespace Runs

universe u

variable {σ ι : Type u} {step : σ → ι → Option σ} {s s' : σ} {i : ι} {is js : List ι}

/-- The state a list of inputs leads to, if they are possible. -/
def run (step : σ → ι → Option σ) : σ → List ι → Option σ
  | s, [] => some s
  | s, i :: is => do
      let s ← step s i
      run step s is

/-- None of the `inputs` is possible. -/
def Quiet (step : σ → ι → Option σ) (inputs : ι → Prop) (s : σ) : Prop :=
  ∀ i, inputs i → step s i = none

@[simp] theorem run_nil : run step s [] = some s := rfl

theorem run_cons : run step s (i :: is) = some s' ↔
    ∃ s₁, step s i = some s₁ ∧ run step s₁ is = some s' := by
  simp only [run, Option.bind_eq_bind, Option.bind_eq_some_iff]

theorem run_append : run step s (is ++ js) = some s' ↔
    ∃ s₁, run step s is = some s₁ ∧ run step s₁ js = some s' := by
  induction is generalizing s with
  | nil => simp
  | cons i is ih =>
      simp only [List.cons_append, run_cons, ih]
      constructor
      · rintro ⟨s₁, h₁, s₂, h₂, h⟩
        exact ⟨s₂, ⟨s₁, h₁, h₂⟩, h⟩
      · rintro ⟨s₂, ⟨s₁, h₁, h₂⟩, h⟩
        exact ⟨s₁, h₁, s₂, h₂, h⟩

theorem run_keeps {P : σ → Prop} (hstep : ∀ s i s', P s → step s i = some s' → P s') :
    ∀ (is : List ι) (s s' : σ), P s → run step s is = some s' → P s' := by
  intro is
  induction is with
  | nil =>
      intro s s' hs h
      exact Option.some.inj h ▸ hs
  | cons i is ih =>
      intro s s' hs h
      obtain ⟨s₁, h₁, h⟩ := run_cons.1 h
      exact ih s₁ s' (hstep s i s₁ hs h₁) h

/-- The rule for a run of certain inputs. -/
theorem run_keeps_of {P : σ → Prop} {inputs : ι → Prop}
    (hstep : ∀ s i s', P s → inputs i → step s i = some s' → P s') :
    ∀ (is : List ι) (s s' : σ), P s → (∀ i ∈ is, inputs i) → run step s is = some s' → P s' := by
  intro is
  induction is with
  | nil =>
      intro s s' hs _ h
      exact Option.some.inj h ▸ hs
  | cons i is ih =>
      intro s s' hs his h
      obtain ⟨hi, his⟩ := List.forall_mem_cons.1 his
      obtain ⟨s₁, h₁, h⟩ := run_cons.1 h
      exact ih s₁ s' (hstep s i s₁ hs hi h₁) his h

section

variable {P : σ → Prop} {inputs : ι → Prop} {rank : σ → Nat}

theorem run_length_add_le (hstep : ∀ s i s', P s → step s i = some s' → P s')
    (hrank : ∀ s i s', P s → inputs i → step s i = some s' → rank s' < rank s) :
    ∀ (is : List ι) (s s' : σ), P s → (∀ i ∈ is, inputs i) → run step s is = some s' →
      is.length + rank s' ≤ rank s := by
  intro is
  induction is with
  | nil =>
      intro s s' _ _ h
      obtain rfl := Option.some.inj h
      simp
  | cons i is ih =>
      intro s s' hs his h
      obtain ⟨hi, his⟩ := List.forall_mem_cons.1 his
      obtain ⟨s₁, h₁, h⟩ := run_cons.1 h
      have hlt := hrank s i s₁ hs hi h₁
      have hle := ih s₁ s' (hstep s i s₁ hs h₁) his h
      rw [List.length_cons]
      omega

theorem exists_quiet (hstep : ∀ s i s', P s → step s i = some s' → P s')
    (hrank : ∀ s i s', P s → inputs i → step s i = some s' → rank s' < rank s) :
    ∀ (n : Nat) (s : σ), rank s ≤ n → P s →
      ∃ is s', (∀ i ∈ is, inputs i) ∧ run step s is = some s' ∧ Quiet step inputs s' := by
  intro n
  induction n with
  | zero =>
      intro s hn hs
      refine ⟨[], s, by simp, rfl, fun i hi => ?_⟩
      cases h : step s i with
      | none => rfl
      | some s₁ =>
          have hlt := hrank s i s₁ hs hi h
          omega
  | succ n ih =>
      intro s hn hs
      by_cases hq : Quiet step inputs s
      · exact ⟨[], s, by simp, rfl, hq⟩
      · simp only [Quiet, not_forall] at hq
        obtain ⟨i, hi, h⟩ := hq
        obtain ⟨s₁, h₁⟩ := Option.ne_none_iff_exists'.1 h
        have hlt := hrank s i s₁ hs hi h₁
        obtain ⟨is, s', his, hrun, hquiet⟩ := ih s₁ (by omega) (hstep s i s₁ hs h₁)
        exact ⟨i :: is, s', List.forall_mem_cons.2 ⟨hi, his⟩, run_cons.2 ⟨s₁, h₁, hrun⟩, hquiet⟩

end

/-- Steps that keep `P` do not fail, one after the other. -/
theorem foldlM_keeps {ε : Type u} {step : σ → ι → Except ε σ} {P : σ → Prop}
    (hstep : ∀ s i, P s → ∃ s', step s i = .ok s' ∧ P s') :
    ∀ (is : List ι) (s : σ), P s → ∃ s', is.foldlM step s = .ok s' ∧ P s' := by
  intro is
  induction is with
  | nil => exact fun s hs => ⟨s, rfl, hs⟩
  | cons i is ih =>
      intro s hs
      obtain ⟨s₁, h₁, hs₁⟩ := hstep s i hs
      obtain ⟨s', h, hs'⟩ := ih s₁ hs₁
      refine ⟨s', ?_, hs'⟩
      rw [List.foldlM_cons, h₁]
      exact h

end Runs
