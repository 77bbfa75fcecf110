/-
# Hmpc.Lib.Machine -- runs of a deterministic reactive machine

A task that receives commands from a channel is a step function from a state and a command to the
next state and the outputs of the step. This module folds a step function over a list of commands
and packages the one induction every safety argument needs: an assertion about (commands so far,
outputs so far, state) that holds before the first command and is preserved by each step holds
after every run. `Admits` restricts a run to steps that meet a condition on the state before the
step and the command; it serves both as "this label is enabled" and as "the branch that goes wrong
is not taken here".
-/
import Mathlib.Data.List.Induction

namespace Hmpc.Lib

variable {σ ι ο : Type*}

/-- Run `step` over a list of commands, collecting the outputs in order. -/
def exec (step : σ → ι → σ × List ο) : σ → List ι → σ × List ο
  | s, [] => (s, [])
  | s, i :: is =>
      let first := step s i
      let rest := exec step first.1 is
      (rest.1, first.2 ++ rest.2)

/-- Every step of the run from `s` over the commands meets `ok`. -/
def Admits (step : σ → ι → σ × List ο) (ok : σ → ι → Prop) : σ → List ι → Prop
  | _, [] => True
  | s, i :: is => ok s i ∧ Admits step ok (step s i).1 is

variable {step : σ → ι → σ × List ο} {ok : σ → ι → Prop}

instance decidableAdmits [∀ s i, Decidable (ok s i)] :
    (s : σ) → (is : List ι) → Decidable (Admits step ok s is)
  | _, [] => .isTrue trivial
  | s, i :: is =>
      have := decidableAdmits (step s i).1 is
      inferInstanceAs (Decidable (ok s i ∧ Admits step ok (step s i).1 is))

@[simp] theorem exec_nil (s : σ) : exec step s [] = (s, []) := rfl

theorem exec_append (s : σ) (is js : List ι) :
    exec step s (is ++ js) =
      ((exec step (exec step s is).1 js).1,
        (exec step s is).2 ++ (exec step (exec step s is).1 js).2) := by
  induction is generalizing s with
  | nil => rfl
  | cons i is ih => simp only [List.cons_append, exec, ih, List.append_assoc]

/-- The last step of a run, split off. -/
theorem exec_concat (s : σ) (is : List ι) (i : ι) :
    exec step s (is ++ [i]) =
      ((step (exec step s is).1 i).1, (exec step s is).2 ++ (step (exec step s is).1 i).2) := by
  rw [exec_append]
  simp [exec]

@[simp] theorem admits_nil (s : σ) : Admits step ok s [] := trivial

theorem admits_append (s : σ) (is js : List ι) :
    Admits step ok s (is ++ js) ↔
      Admits step ok s is ∧ Admits step ok (exec step s is).1 js := by
  induction is generalizing s with
  | nil => simp
  | cons i is ih => simp only [List.cons_append, Admits, exec, ih, and_assoc]

theorem admits_concat (s : σ) (is : List ι) (i : ι) :
    Admits step ok s (is ++ [i]) ↔ Admits step ok s is ∧ ok (exec step s is).1 i := by
  rw [admits_append]
  simp [Admits]

theorem Admits.mono {ok' : σ → ι → Prop} (h : ∀ s i, ok s i → ok' s i) {s : σ} {is : List ι}
    (hr : Admits step ok s is) : Admits step ok' s is := by
  induction is generalizing s with
  | nil => trivial
  | cons i is ih => exact ⟨h s i hr.1, ih hr.2⟩

theorem admits_of_forall (h : ∀ s i, ok s i) (s : σ) (is : List ι) : Admits step ok s is := by
  induction is generalizing s with
  | nil => trivial
  | cons i is ih => exact ⟨h s i, ih _⟩

/-- **Invariants of a run.** An assertion about the commands processed, the outputs produced and
the state that holds initially and is preserved by every step that meets `ok` holds after every
run whose steps all meet `ok`. -/
theorem invariant_of_step {s₀ : σ} (Inv : List ι → List ο → σ → Prop) (hinit : Inv [] [] s₀)
    (hstep : ∀ is os s i, Inv is os s → ok s i →
      Inv (is ++ [i]) (os ++ (step s i).2) (step s i).1)
    {is : List ι} (hrun : Admits step ok s₀ is) :
    Inv is (exec step s₀ is).2 (exec step s₀ is).1 := by
  induction is using List.reverseRecOn with
  | nil => exact hinit
  | append_singleton is i ih =>
      rw [admits_concat] at hrun
      rw [exec_concat]
      exact hstep is _ _ i (ih hrun.1) hrun.2

/-- The same rule for a machine all of whose steps are allowed. -/
theorem invariant_of_step' {s₀ : σ} (Inv : List ι → List ο → σ → Prop) (hinit : Inv [] [] s₀)
    (hstep : ∀ is os s i, Inv is os s → Inv (is ++ [i]) (os ++ (step s i).2) (step s i).1)
    (is : List ι) : Inv is (exec step s₀ is).2 (exec step s₀ is).1 := by
  have hall : Admits step (fun _ _ => True) s₀ is := admits_of_forall (fun _ _ => trivial) s₀ is
  exact invariant_of_step Inv hinit (fun is os s i h _ => hstep is os s i h) hall

end Hmpc.Lib
