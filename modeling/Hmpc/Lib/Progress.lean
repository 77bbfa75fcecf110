/-
# Hmpc.Lib.Progress -- runs of a system that chooses its next move

A system that may have several possible moves, or none, is a partial function from a state and a
move to the next state. An assertion that every move keeps holds in all states of a run. When every
move also lowers a measure, runs are no longer than the measure of their first state, and every run
can be continued to a state in which no move is possible.
-/
import Mathlib.Data.List.Induction

namespace Hmpc.Lib

variable {σ ι : Type*} {move : σ → ι → Option σ} {Inv : σ → Prop} {s₀ s : σ} {moves : List ι}

theorem foldlM_concat {last : ι} (h : (moves ++ [last]).foldlM move s₀ = some s) :
    ∃ before, moves.foldlM move s₀ = some before ∧ move before last = some s := by
  rw [List.foldlM_append] at h
  obtain ⟨before, hbefore, hlast⟩ := Option.bind_eq_some_iff.mp h
  exact ⟨before, hbefore, by simpa using hlast⟩

/-- **Invariants of a run.** -/
theorem invariant_of_move (hinit : Inv s₀) (hmove : ∀ s m s', Inv s → move s m = some s' → Inv s')
    (hrun : moves.foldlM move s₀ = some s) : Inv s := by
  induction moves using List.reverseRecOn generalizing s with
  | nil => exact Option.some.inj hrun ▸ hinit
  | append_singleton moves last ih =>
      obtain ⟨before, hbefore, hlast⟩ := foldlM_concat hrun
      exact hmove before last s (ih hbefore) hlast

section Measure

variable {measure : σ → ℕ}

/-- **Every run ends**: it has at most as many moves as the measure is high. -/
theorem length_le_of_measure (hinit : Inv s₀)
    (hmove : ∀ s m s', Inv s → move s m = some s' → Inv s' ∧ measure s' < measure s)
    (hrun : moves.foldlM move s₀ = some s) : moves.length + measure s ≤ measure s₀ := by
  induction moves using List.reverseRecOn generalizing s with
  | nil =>
      obtain rfl := Option.some.inj hrun
      exact Nat.le_of_eq (Nat.zero_add _)
  | append_singleton moves last ih =>
      obtain ⟨before, hbefore, hlast⟩ := foldlM_concat hrun
      have hinv := invariant_of_move hinit (fun s m s' h hm => (hmove s m s' h hm).1) hbefore
      have hlower := (hmove before last s hinv hlast).2
      have hle := ih hbefore
      rw [List.length_append, List.length_singleton]
      omega

/-- **Every run can be continued** until no move is possible. -/
theorem exists_run_to_end (hinit : Inv s₀)
    (hmove : ∀ s m s', Inv s → move s m = some s' → Inv s' ∧ measure s' < measure s) :
    ∃ (moves : List ι) (s : σ), moves.foldlM move s₀ = some s ∧ ∀ m, move s m = none := by
  induction hn : measure s₀ using Nat.strongRecOn generalizing s₀ with
  | ind n ih =>
      by_cases hend : ∀ m, move s₀ m = none
      · exact ⟨[], s₀, rfl, hend⟩
      · obtain ⟨m, hm⟩ := not_forall.mp hend
        obtain ⟨s₁, hs₁⟩ := Option.ne_none_iff_exists'.mp hm
        obtain ⟨hinv, hlower⟩ := hmove s₀ m s₁ hinit hs₁
        obtain ⟨moves, s, hrun, hlast⟩ := ih (measure s₁) (hn ▸ hlower) hinv rfl
        refine ⟨m :: moves, s, ?_, hlast⟩
        rw [List.foldlM_cons]
        exact Option.bind_eq_some_iff.mpr ⟨s₁, hs₁, hrun⟩

end Measure

end Hmpc.Lib
