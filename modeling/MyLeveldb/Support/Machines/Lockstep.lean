import Mathlib.Tactic.Common

/-!
# Support — Machines — Lockstep

A machine reads inputs and answers each with an output; its steps may fail.  A *reference* is a
machine whose steps do not.  `run_follows` is the induction shared by refinement proofs: where a
relation is kept by every step on an admissible input, and the two outputs of the step are equal,
a run on admissible inputs does not fail and has the reference's outputs.
-/

namespace Lockstep

universe u

variable {σ τ ι ο ε : Type u}

/-- The outputs of a machine, and the state it is left in. -/
def run (step : σ → ι → Except ε (σ × ο)) : σ → List ι → Except ε (σ × List ο)
  | s, [] => .ok (s, [])
  | s, i :: is => do
      let (s, o) ← step s i
      let (s, os) ← run step s is
      .ok (s, o :: os)

/-- The outputs of a reference, and the state it is left in. -/
def runRef (step : τ → ι → τ × ο) : τ → List ι → τ × List ο
  | t, [] => (t, [])
  | t, i :: is =>
      let r := runRef step (step t i).1 is
      (r.1, (step t i).2 :: r.2)

/-- Every input is one the reference allows where it is read. -/
def Admissible (pre : τ → ι → Prop) (step : τ → ι → τ × ο) : τ → List ι → Prop
  | _, [] => True
  | t, i :: is => pre t i ∧ Admissible pre step (step t i).1 is

theorem run_follows {step : σ → ι → Except ε (σ × ο)} {ref : τ → ι → τ × ο} {pre : τ → ι → Prop}
    {R : σ → τ → Prop}
    (hstep : ∀ s t i, R s t → pre t i → ∃ s', step s i = .ok (s', (ref t i).2) ∧ R s' (ref t i).1) :
    ∀ (is : List ι) (s : σ) (t : τ), R s t → Admissible pre ref t is →
      ∃ s', run step s is = .ok (s', (runRef ref t is).2) ∧ R s' (runRef ref t is).1 := by
  intro is
  induction is with
  | nil => exact fun s t h _ => ⟨s, rfl, h⟩
  | cons i is ih =>
      intro s t h ha
      obtain ⟨s₁, hs₁, h₁⟩ := hstep s t i h ha.1
      obtain ⟨s', hs', h'⟩ := ih s₁ _ h₁ ha.2
      refine ⟨s', ?_, h'⟩
      simp only [run, hs₁, hs', bind, Except.bind, runRef]

theorem runRef_append (ref : τ → ι → τ × ο) :
    ∀ (t : τ) (is js : List ι), runRef ref t (is ++ js) =
      ((runRef ref (runRef ref t is).1 js).1,
        (runRef ref t is).2 ++ (runRef ref (runRef ref t is).1 js).2) := by
  intro t is js
  induction is generalizing t with
  | nil => rfl
  | cons i is ih => simp only [List.cons_append, runRef, ih]

theorem Admissible.append {pre : τ → ι → Prop} {ref : τ → ι → τ × ο} :
    ∀ {t : τ} {is js : List ι}, Admissible pre ref t (is ++ js) ↔
      Admissible pre ref t is ∧ Admissible pre ref (runRef ref t is).1 js := by
  intro t is js
  induction is generalizing t with
  | nil => exact ⟨fun h => ⟨trivial, h⟩, And.right⟩
  | cons i is ih =>
      rw [List.cons_append, Admissible, Admissible, ih, and_assoc]
      rfl

/-- A change of the inputs that no step notices changes no run. -/
theorem runRef_map {ref : τ → ι → τ × ο} {f : ι → ι} (hf : ∀ t i, ref t (f i) = ref t i) :
    ∀ (t : τ) (is : List ι), runRef ref t (is.map f) = runRef ref t is := by
  intro t is
  induction is generalizing t with
  | nil => rfl
  | cons i is ih => simp only [List.map_cons, runRef, hf, ih]

end Lockstep
