/-
# Hmpc.Lib.Drawing -- computations that draw values from a generator

A computation draws values while it runs, each of them for a key, and a record says which. When no
key is drawn twice, there is one table that all drawn values are from: the computation then does
what it would do if the table had been there from the start (`Draws.exists_table`). What a
computation does is said by `Draws`, a precondition and a postcondition on all tables that agree
with the record, and there is one rule for each way to put computations together.
-/
import Mathlib.Data.List.Perm.Basic

namespace Hmpc.Lib

/-- What a computation returns, the generator after it, and the values it has drawn for keys. -/
def Drawing (G K V α : Type) := G → Option (α × G × List (K × V))

namespace Drawing

variable {G H K V α β : Type}

/-- Nothing is drawn. -/
def lift (a : Option α) : Drawing G K V α := fun g => a.map fun a => (a, g, [])

def bind (c : Drawing G K V α) (f : α → Drawing G K V β) : Drawing G K V β := fun g => do
  let (a, g, drawn) ← c g
  let (b, g, drawn') ← f a g
  return (b, g, drawn ++ drawn')

instance monad : Monad (Drawing G K V) where
  pure a := lift (some a)
  bind := bind

/-- The computations of a loop, in order. -/
def each (l : List α) (f : α → Drawing G K V β) : Drawing G K V (List β) :=
  match l with
  | [] => pure []
  | a :: l => do
      let b ← f a
      let bs ← each l f
      return b :: bs

/-- The computation has a generator of its own. -/
def withGenerator (g : G) (c : Drawing G K V α) : Drawing H K V α := fun h =>
  (c g).map fun (a, _, drawn) => (a, h, drawn)

/-- The computation returns this, from some generator. -/
def Returns (c : Drawing G K V α) (a : α) : Prop := ∃ g g' drawn, c g = some (a, g', drawn)

theorem Returns.of_lift {o : Option α} {a : α} (h : Returns (lift o : Drawing G K V α) a) :
    o = some a := by
  obtain ⟨g, g', drawn, h⟩ := h
  obtain ⟨b, hb, heq⟩ := Option.map_eq_some_iff.mp h
  obtain ⟨rfl, -⟩ := Prod.mk.inj heq
  exact hb

theorem Returns.of_pure {a b : α} (h : Returns (pure a : Drawing G K V α) b) : a = b :=
  Option.some.inj (of_lift (o := some a) h)

theorem Returns.of_bind {c : Drawing G K V α} {f : α → Drawing G K V β} {b : β}
    (h : Returns (c >>= f) b) : ∃ a, Returns c a ∧ Returns (f a) b := by
  obtain ⟨g, g', drawn, h⟩ := h
  obtain ⟨⟨a, g₁, drawn₁⟩, hc, h⟩ := Option.bind_eq_some_iff.mp h
  obtain ⟨⟨b', g₂, drawn₂⟩, hf, h⟩ := Option.bind_eq_some_iff.mp h
  obtain ⟨rfl, -⟩ := Prod.mk.inj (Option.some.inj h)
  exact ⟨a, ⟨g, g₁, drawn₁, hc⟩, g₁, g₂, drawn₂, hf⟩

/-- A loop has as many results as steps. -/
theorem length_of_each {l : List α} {f : α → Drawing G K V β} {bs : List β}
    (h : Returns (each l f) bs) : bs.length = l.length := by
  induction l generalizing bs with
  | nil =>
      obtain rfl := Returns.of_pure (a := []) h
      rfl
  | cons a l ih =>
      obtain ⟨b, -, h⟩ := h.of_bind
      obtain ⟨cs, hrest, h⟩ := h.of_bind
      rw [← h.of_pure, List.length_cons, List.length_cons, ih hrest]

/-- A table agrees with what was drawn. -/
def Agrees (table : K → V) (drawn : List (K × V)) : Prop := ∀ e ∈ drawn, table e.1 = e.2

theorem agrees_append {table : K → V} {drawn drawn' : List (K × V)} :
    Agrees table (drawn ++ drawn') ↔ Agrees table drawn ∧ Agrees table drawn' :=
  List.forall_mem_append

theorem agrees_singleton {table : K → V} {e : K × V} : Agrees table [e] ↔ table e.1 = e.2 :=
  List.forall_mem_singleton

/-- Where no key is drawn twice, a table agrees. -/
theorem exists_agrees [Nonempty V] {drawn : List (K × V)} (hnodup : (drawn.map Prod.fst).Nodup) :
    ∃ table, Agrees table drawn := by
  classical
  induction drawn with
  | nil => exact ⟨fun _ => Classical.arbitrary V, fun e he => absurd he List.not_mem_nil⟩
  | cons e drawn ih =>
      rw [List.map_cons, List.nodup_cons] at hnodup
      obtain ⟨table, htable⟩ := ih hnodup.2
      refine ⟨Function.update table e.1 e.2, List.forall_mem_cons.mpr ⟨?_, fun e' he' => ?_⟩⟩
      · exact Function.update_self ..
      · have hne : e'.1 ≠ e.1 := fun heq => hnodup.1 (heq ▸ List.mem_map_of_mem he')
        rw [Function.update_of_ne hne]
        exact htable e' he'

/-- **A computation returns, draws for these keys, and keeps its postcondition**, for all tables
that meet the precondition and agree with what was drawn. -/
def Draws (pre : (K → V) → Prop) (c : Drawing G K V α) (keys : List K)
    (post : (K → V) → α → Prop) : Prop :=
  ∀ g, ∃ a g' drawn, c g = some (a, g', drawn) ∧ (drawn.map Prod.fst).Perm keys ∧
    ∀ table, pre table → Agrees table drawn → post table a

namespace Draws

variable {pre pre' : (K → V) → Prop} {c : Drawing G K V α} {f : α → Drawing G K V β}
  {keys keys' : List K} {post post' : (K → V) → α → Prop} {post₂ : (K → V) → β → Prop}

theorem lift {o : Option α} {a : α} (h : o = some a) (hpost : ∀ table, pre table → post table a) :
    Draws pre (lift o : Drawing G K V α) [] post := by
  intro g
  subst h
  exact ⟨a, g, [], rfl, List.Perm.refl _, fun table htable _ => hpost table htable⟩

theorem pure {a : α} (hpost : ∀ table, pre table → post table a) :
    Draws pre (pure a : Drawing G K V α) [] post :=
  lift rfl hpost

theorem bind_of_returns (h : Draws pre c keys post) (hf : ∀ a, c.Returns a →
    Draws (fun table => pre table ∧ post table a) (f a) keys' post₂) :
    Draws pre (c >>= f) (keys ++ keys') post₂ := by
  intro g
  obtain ⟨a, g', drawn, hc, hkeys, hpost⟩ := h g
  obtain ⟨b, g'', drawn', hf, hkeys', hpost'⟩ := hf a ⟨g, g', drawn, hc⟩ g'
  refine ⟨b, g'', drawn ++ drawn', ?_, ?_, fun table htable hagrees => ?_⟩
  · show Drawing.bind c f g = _
    rw [Drawing.bind, hc]
    show Option.bind (f a g') _ = _
    rw [hf]
    rfl
  · rw [List.map_append]
    exact hkeys.append hkeys'
  · rw [agrees_append] at hagrees
    exact hpost' table ⟨htable, hpost table htable hagrees.1⟩ hagrees.2

theorem bind (h : Draws pre c keys post)
    (hf : ∀ a, Draws (fun table => pre table ∧ post table a) (f a) keys' post₂) :
    Draws pre (c >>= f) (keys ++ keys') post₂ :=
  h.bind_of_returns fun a _ => hf a

theorem weaken (h : Draws pre c keys post) (hpre : ∀ table, pre' table → pre table)
    (hpost : ∀ table a, pre' table → post table a → post' table a) : Draws pre' c keys post' := by
  intro g
  obtain ⟨a, g', drawn, hc, hkeys, ha⟩ := h g
  exact ⟨a, g', drawn, hc, hkeys, fun table htable hagrees =>
    hpost table a htable (ha table (hpre table htable) hagrees)⟩

theorem perm (h : Draws pre c keys post) (hkeys : keys.Perm keys') : Draws pre c keys' post := by
  intro g
  obtain ⟨a, g', drawn, hc, hperm, hpost⟩ := h g
  exact ⟨a, g', drawn, hc, hperm.trans hkeys, hpost⟩

theorem map {f : α → β} (h : Draws pre c keys post)
    (hpost : ∀ table a, pre table → post table a → post₂ table (f a)) :
    Draws pre (do let a ← c; return f a) keys post₂ := by
  rw [← List.append_nil keys]
  exact h.bind fun a => pure fun table htable => hpost table a htable.1 htable.2

/-- A loop whose steps have results at each of the elements. -/
theorem each {l : List β} {f : β → Drawing G K V α} {keys : β → List K}
    {post : β → (K → V) → α → Prop} (h : ∀ b ∈ l, Draws pre (f b) (keys b) (post b)) :
    Draws pre (each l f) (l.flatMap keys) fun table as =>
      List.Forall₂ (fun b a => post b table a) l as := by
  induction l with
  | nil => exact pure fun table _ => List.Forall₂.nil
  | cons b l ih =>
      rw [List.forall_mem_cons] at h
      refine h.1.bind fun a => ?_
      refine ((ih h.2).weaken (fun table htable => htable.1) fun _ _ _ => id).map ?_
      exact fun table as htable has => List.Forall₂.cons htable.2 has

theorem withGenerator (h : Draws pre c keys post) (g : G) :
    Draws pre (withGenerator g c : Drawing H K V α) keys post := by
  intro g'
  obtain ⟨a, g'', drawn, hc, hkeys, hpost⟩ := h g
  refine ⟨a, g', drawn, ?_, hkeys, hpost⟩
  rw [Drawing.withGenerator, hc]
  rfl

/-- **Drawing on demand is reading a table.** If no key is drawn twice, there is a table that all
drawn values are from, and the result is the one for it. -/
theorem exists_table [Nonempty V] (h : Draws (fun _ => True) c keys post) (hnodup : keys.Nodup)
    (g : G) : ∃ a g' drawn, c g = some (a, g', drawn) ∧ (drawn.map Prod.fst).Perm keys ∧
      (∃ table, Agrees table drawn) ∧ ∀ table, Agrees table drawn → post table a := by
  obtain ⟨a, g', drawn, hc, hkeys, hpost⟩ := h g
  exact ⟨a, g', drawn, hc, hkeys, exists_agrees (hkeys.nodup_iff.mpr hnodup),
    fun table => hpost table trivial⟩

end Draws

/-- All values that a computation may draw. -/
def AllDrawn (P : K → V → Prop) (c : Drawing G K V α) : Prop :=
  ∀ g a g' drawn, c g = some (a, g', drawn) → ∀ e ∈ drawn, P e.1 e.2

namespace AllDrawn

variable {P : K → V → Prop} {c : Drawing G K V α} {f : α → Drawing G K V β}

theorem lift (o : Option α) : AllDrawn P (lift o : Drawing G K V α) := by
  intro g a g' drawn h e he
  obtain ⟨b, -, heq⟩ := Option.map_eq_some_iff.mp h
  rw [← (Prod.mk.inj (Prod.mk.inj heq).2).2] at he
  cases he

theorem pure (a : α) : AllDrawn P (pure a : Drawing G K V α) := lift (some a)

theorem bind (h : AllDrawn P c) (hf : ∀ a, AllDrawn P (f a)) : AllDrawn P (c >>= f) := by
  intro g b g' drawn hbind
  obtain ⟨⟨a, g₁, drawn₁⟩, hc, hbind⟩ := Option.bind_eq_some_iff.mp hbind
  obtain ⟨⟨b', g₂, drawn₂⟩, hfa, hbind⟩ := Option.bind_eq_some_iff.mp hbind
  rw [← (Prod.mk.inj (Prod.mk.inj (Option.some.inj hbind)).2).2]
  exact List.forall_mem_append.mpr ⟨h g a g₁ drawn₁ hc, hf a g₁ b' g₂ drawn₂ hfa⟩

theorem each {l : List β} {f : β → Drawing G K V α} (h : ∀ b, AllDrawn P (f b)) :
    AllDrawn P (each l f) := by
  induction l with
  | nil => exact pure _
  | cons b l ih => exact (h b).bind fun a => ih.bind fun as => pure _

theorem withGenerator (h : AllDrawn P c) (g : G) :
    AllDrawn P (withGenerator g c : Drawing H K V α) := by
  intro h' a h'' drawn hc
  obtain ⟨⟨b, g', drawn'⟩, hc, heq⟩ := Option.map_eq_some_iff.mp hc
  rw [← (Prod.mk.inj (Prod.mk.inj heq).2).2]
  exact h g b g' drawn' hc

end AllDrawn

end Drawing

end Hmpc.Lib
