/-
# Hmpc.Lib.Domain -- when a computation has a result

A computation that may fail is an `Option`. `DefinedWhen` says when it has a result, and what holds
of the result then. There is one rule for each way to put computations together; the rules collect
the conditions, so that what is proved of a computation is exactly when it succeeds.
-/
import Mathlib.Logic.Basic

namespace Hmpc.Lib

universe u

variable {α β : Type u} {d e : Prop} {c : Option α} {f : α → Option β} {P P' : α → Prop}
  {Q : β → Prop} {a : α}

/-- A computation has a result, of which `P` holds, when `d` does, and none otherwise. -/
structure DefinedWhen (d : Prop) (c : Option α) (P : α → Prop) : Prop where
  result : d → ∃ a, c = some a ∧ P a
  eq_none : ¬ d → c = none

namespace DefinedWhen

theorem of_pure (h : P a) : DefinedWhen True (pure a) P :=
  ⟨fun _ => ⟨a, rfl, h⟩, fun hcon => absurd trivial hcon⟩

theorem of_guard (d : Prop) [Decidable d] : DefinedWhen d (guard d : Option Unit) fun _ => d := by
  by_cases hd : d
  · exact ⟨fun _ => ⟨(), if_pos hd, hd⟩, fun hcon => absurd hd hcon⟩
  · exact ⟨fun hcon => absurd hcon hd, fun _ => if_neg hd⟩

theorem of_ite (d : Prop) [Decidable d] (a : α) :
    DefinedWhen d (if d then some a else none) fun b => d ∧ b = a :=
  ⟨fun hd => ⟨a, if_pos hd, hd, rfl⟩, fun hd => if_neg hd⟩

/-- A computation goes on with the result of another one. -/
theorem bind (h : DefinedWhen d c P) (hf : ∀ a, P a → DefinedWhen e (f a) Q) :
    DefinedWhen (d ∧ e) (c >>= f) Q := by
  refine ⟨?_, fun hcon => ?_⟩
  · rintro ⟨hd, he⟩
    obtain ⟨a, rfl, ha⟩ := h.result hd
    exact (hf a ha).result he
  · by_cases hd : d
    · obtain ⟨a, rfl, ha⟩ := h.result hd
      exact (hf a ha).eq_none fun he => hcon ⟨hd, he⟩
    · rw [h.eq_none hd]
      rfl

/-- What is done with the result always succeeds. -/
theorem map {f : α → β} (h : DefinedWhen d c P) (hf : ∀ a, P a → Q (f a)) :
    DefinedWhen d (c >>= fun a => pure (f a)) Q := by
  refine ⟨fun hd => ?_, fun hd => ?_⟩
  · obtain ⟨a, rfl, ha⟩ := h.result hd
    exact ⟨f a, rfl, hf a ha⟩
  · rw [h.eq_none hd]
    rfl

theorem imp (h : DefinedWhen d c P) (hP : ∀ a, P a → P' a) : DefinedWhen d c P' :=
  ⟨fun hd => (h.result hd).imp fun a => And.imp_right (hP a), h.eq_none⟩

theorem congr (h : DefinedWhen d c P) (hde : d ↔ e) : DefinedWhen e c P :=
  ⟨fun he => h.result (hde.mpr he), fun he => h.eq_none (mt hde.mp he)⟩

/-- A computation with a result has it because its condition holds. -/
theorem domain (h : DefinedWhen d c P) (hc : c = some a) : d := by
  by_cases hd : d
  · exact hd
  · rw [h.eq_none hd] at hc
    cases hc

theorem post (h : DefinedWhen d c P) (hc : c = some a) : P a := by
  obtain ⟨b, hb, hP⟩ := h.result (h.domain hc)
  rwa [← Option.some.inj (hb.symm.trans hc)]

theorem exists_iff (h : DefinedWhen d c P) : (∃ a, c = some a ∧ P a) ↔ d :=
  ⟨fun ⟨_, hc, _⟩ => h.domain hc, h.result⟩

/-- A result that is known is the one. -/
theorem eq_some {a : α} (h : DefinedWhen d c (· = a)) (hd : d) : c = some a := by
  obtain ⟨_, hc, rfl⟩ := h.result hd
  exact hc

end DefinedWhen

end Hmpc.Lib
