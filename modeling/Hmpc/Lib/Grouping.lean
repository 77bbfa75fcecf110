/-
# Hmpc.Lib.Grouping -- values that are combined in groups

A parallel reduction combines its values to partial results and these to one result; which values
come together, in which order, and how often the identity is the start of a partial result is up to
the machine. A `Grouping` is one way to do it. The way does not matter (`eval_eq_fold`) if what is
combined stands for values of an operation that is associative and commutative with a neutral
element; the operation itself may only be so up to what it stands for.
-/
import Mathlib.Data.Multiset.Fold

namespace Hmpc.Lib

/-- A way to combine values. -/
inductive Grouping (α : Type*)
  | identity
  | value (a : α)
  | combine (left right : Grouping α)

namespace Grouping

variable {α β : Type*}

/-- What is combined, from left to right. -/
def values : Grouping α → List α
  | identity => []
  | value a => [a]
  | combine left right => left.values ++ right.values

def eval (op : α → α → α) (e : α) : Grouping α → α
  | identity => e
  | value a => a
  | combine left right => op (left.eval op e) (right.eval op e)

/-- One partial result, which begins with the identity. -/
def ofList (l : List α) : Grouping α :=
  l.foldl (fun partialResult a => combine partialResult (value a)) identity

theorem values_foldl (l : List α) (t : Grouping α) :
    (l.foldl (fun partialResult a => combine partialResult (value a)) t).values =
      t.values ++ l := by
  induction l generalizing t with
  | nil => exact (List.append_nil _).symm
  | cons a l ih =>
      rw [List.foldl_cons, ih, values, values, List.append_assoc]
      rfl

@[simp] theorem values_ofList (l : List α) : (ofList l).values = l := values_foldl l identity

section

variable {P : α → Prop} {h : α → β} {op : α → α → α} {e : α} (op' : β → β → β) (e' : β)
  [Std.Commutative op'] [Std.Associative op'] [Std.LawfulIdentity op' e']

/-- **The grouping does not matter.** Whatever is combined keeps what all operands have, and stands
for the fold of what the values stand for. -/
theorem eval_eq_fold (he : P e ∧ h e = e')
    (hop : ∀ a b, P a → P b → P (op a b) ∧ h (op a b) = op' (h a) (h b)) (t : Grouping α)
    (ht : ∀ a ∈ t.values, P a) :
    P (t.eval op e) ∧ h (t.eval op e) = ((t.values : Multiset α).map h).fold op' e' := by
  induction t with
  | identity => exact ⟨he.1, he.2.trans (Multiset.fold_zero op' e').symm⟩
  | value a =>
      refine ⟨ht a (List.mem_singleton_self a), ?_⟩
      show h a = (Multiset.map h {a}).fold op' e'
      rw [Multiset.map_singleton, Multiset.fold_singleton]
      exact (Std.LawfulRightIdentity.right_id (h a)).symm
  | combine left right ihleft ihright =>
      rw [values, List.forall_mem_append] at ht
      obtain ⟨hleft, hleftValue⟩ := ihleft ht.1
      obtain ⟨hright, hrightValue⟩ := ihright ht.2
      obtain ⟨hboth, hvalue⟩ := hop _ _ hleft hright
      refine ⟨hboth, ?_⟩
      have hneutral : op' e' e' = e' := Std.LawfulRightIdentity.right_id e'
      calc h ((combine left right).eval op e)
          = op' (h (left.eval op e)) (h (right.eval op e)) := hvalue
        _ = op' (((left.values : Multiset α).map h).fold op' e')
              (((right.values : Multiset α).map h).fold op' e') := by
            rw [hleftValue, hrightValue]
        _ = (((combine left right).values : Multiset α).map h).fold op' e' := by
            rw [← Multiset.fold_add op', hneutral, values, ← Multiset.coe_add, Multiset.map_add]

end

end Grouping

end Hmpc.Lib
