/-
# Hmpc.Comp.Execution -- what the queue computes is what the expressions mean

The queue computes one tensor for each expression of its plan, by a kernel whose work items evaluate
the expression down to tensors, in any order. Random elements are drawn on the way, by the generator
of the work item, whenever a work item comes to them. That an element has one value, although it may
be part of many results, is due to the plan: each one is drawn at most once, for its tensor or where
its expression is inlined. So there is one table for all of them, and every tensor holds the meaning
of its expression for this table: `queue_preserves_meaning`.
-/
import Hmpc.Comp.Inlining
import Hmpc.Expr.Meaning
import Hmpc.Lib.Drawing
import Hmpc.Lib.Grouping

namespace Hmpc.Comp

open Hmpc.Expr Hmpc.Expr.Expression Hmpc.Expr.Detail Hmpc.Expr.ArrayExpression Hmpc.Lib
open Hmpc.Lib.Drawing Hmpc.Lib.MixedRadix

variable {V G : Type} [Inhabited V]

/-! ## The kernels -/

/-- What the device computes with: the values, how a random expression draws an element, and the
generator of each work item of the kernel of an expression. Work items run in any order, and a
reduction combines elements in any groups, as its meaning allows. -/
structure Device (V G : Type) where
  semantics : Semantics V
  /-- `operator()` of a random expression, at an index -/
  draw : ArrayExpression → Position → G → V × G
  /-- `make_capabilities` -/
  generator : ArrayExpression → ℕ → G
  /-- `parallel_for` -/
  order : ArrayExpression → ℕ → List ℕ
  order_perm (e : ArrayExpression) (size : ℕ) : (order e size).Perm (List.range size)
  /-- `sycl::reduction` -/
  combine : Reduction → V → V → V
  identity : Reduction → V
  grouping : ArrayExpression → List V → Grouping V
  grouping_values (e : ArrayExpression) (values : List V) : (grouping e values).values.Perm values
  eval_eq (operation : Reduction) (t : Grouping V) :
    t.eval (combine operation) (identity operation) = semantics.reduce operation t.values

/-- The tensors that are computed, by their expressions. -/
abbrev Tensors (V : Type) := ArrayExpression → ℕ → V

/-- A computation that draws elements of random expressions. -/
abbrev WorkItem (G V α : Type) := Drawing G (ArrayExpression × ℕ) V α

/-- The buffer after some writes. -/
def store (writes : List (ℕ × V)) : ℕ → V :=
  writes.foldl (fun data write => Function.update data write.1 write.2) fun _ => default

namespace Device

variable (d : Device V G)

/-- `operator()` of a random expression. -/
def drawElement (e : ArrayExpression) (position : Position) : WorkItem G V V := fun g =>
  let (v, g) := d.draw e position g
  some (v, g, ((e.element position).map fun j => ((e, j), v)).toList)

variable (cache : List ArrayExpression) (tensors : Tensors V)

/-- An operand: what has a tensor is read, and everything else is evaluated. -/
def operand (e : ArrayExpression) (evaluate : Position → WorkItem G V V) (position : Position) :
    WorkItem G V V :=
  if e ∈ cache then
    lift (readTensor (tensors e) e.vectorSize (e.shape.getD []) position)
  else evaluate position

/-- `operator()` of the expressions. Complex ones are never evaluated in another kernel. -/
def evaluate : ArrayExpression → Position → WorkItem G V V
  | .tensor type tag s, position =>
      lift (readTensor (d.semantics.tensor tag) type.vectorSize s position)
  | .value _ tag, _ => return d.semantics.value tag
  | e@(.random ..), position => d.drawElement e position
  | .cast type inner, position => do
      let v ← operand cache tensors inner (evaluate inner) position
      return d.semantics.cast type v
  | .cache inner, position => operand cache tensors inner (evaluate inner) position
  | .unsqueeze dim inner, .multidimensional index => do
      let index ← lift (unsqueezeForElementIndex inner.vectorSize index dim)
      operand cache tensors inner (evaluate inner) (.multidimensional index)
  | .unsqueeze _ _, .linear _ => lift none
  | .binary operation left right, position => do
      let l ← operand cache tensors left (evaluate left) position
      let r ← operand cache tensors right (evaluate right) position
      return d.semantics.apply operation l r
  | .matrixProduct left right, .multidimensional index => do
      let terms ← each (List.range left.sumExtent) fun k => do
        let l ← operand cache tensors left (evaluate left) <| .multidimensional <|
          index.take (left.rank - 1) ++ some k :: index.drop left.rank
        let r ← operand cache tensors right (evaluate right) <| .multidimensional <|
          index.take (right.rank - 2) ++ some k :: index.drop (right.rank - 1)
        return d.semantics.apply .multiply l r
      lift (foldRight (d.semantics.apply .add) terms)
  | .matrixProduct _ _, .linear _ => lift none
  | .matrixVectorProduct matrix vector, .multidimensional index => do
      let terms ← each (List.range matrix.sumExtent) fun k => do
        let l ← operand cache tensors matrix (evaluate matrix) <| .multidimensional <|
          index.take (matrix.rank - 1) ++ some k :: index.drop (matrix.rank - 1)
        let r ← operand cache tensors vector (evaluate vector) <| .multidimensional <|
          index.take (vector.rank - 1) ++ some k :: index.drop vector.rank
        return d.semantics.apply .multiply l r
      lift (foldRight (d.semantics.apply .add) terms)
  | .matrixVectorProduct _ _, .linear _ => lift none
  | .reduce _ _, _ => lift none
  | .transform _ _, _ => lift none

/-- The operand of a complex expression, at an element. -/
def element (inner : ArrayExpression) (k : ℕ) : WorkItem G V V :=
  operand cache tensors inner (d.evaluate cache tensors inner) (inner.position k)

/-- The elements that a work item of the first kernel of a transform reads. -/
def transformItem (isInverse : Bool) (vectorSize id : ℕ) : List ℕ :=
  let i := id / (vectorSize / 2)
  let tid := id % (vectorSize / 2)
  if isInverse then [2 * tid + i * vectorSize, 2 * tid + 1 + i * vectorSize]
  else [tid + i * vectorSize, tid + vectorSize / 2 + i * vectorSize]

/-- `execute_single`: the tensor of an expression. -/
def executeSingle {H : Type} : ArrayExpression → WorkItem H V (ℕ → V)
  | e@(.reduce operation inner) => do
      let values ← each (d.order e inner.elementShape.size) fun i =>
        withGenerator (d.generator e i) (d.element cache tensors inner i)
      return fun _ => (d.grouping e values).eval (d.combine operation) (d.identity operation)
  | e@(.transform isInverse inner) => do
      let writes ← each (d.order e ((inner.shape.getD []).size * inner.vectorSize / 2)) fun id =>
        withGenerator (d.generator e id) <|
          each (transformItem isInverse inner.vectorSize id) fun k => do
            let v ← d.element cache tensors inner k
            return (k, v)
      let data := store writes.flatten
      return d.semantics.transform isInverse inner.vectorSize
        ((List.range inner.elementShape.size).map data)
  | e => do
      let writes ← each (d.order e e.elementShape.size) fun i =>
        withGenerator (d.generator e i) do
          let v ← d.evaluate cache tensors e (e.position i)
          return ((e.element (e.position i)).getD 0, v)
      return store writes

/-- `operator()` of the queue: the expressions of the plan in order. -/
def executeAll {H : Type} : List ArrayExpression → Tensors V → WorkItem H V (Tensors V)
  | [], tensors => return tensors
  | e :: todo, tensors => do
      let data ← d.executeSingle cache tensors e
      executeAll todo (Function.update tensors e data)

/-- The tensors that the queue computes for some top-level expressions, and what is drawn. -/
def run (tops : List ArrayExpression) :
    Option (Tensors V × List ((ArrayExpression × ℕ) × V)) :=
  (d.executeAll (generateExecutionCache tops) (generateExecutionCache tops)
    (fun _ _ => default) ()).map fun (tensors, _, drawn) => (tensors, drawn)

/-! ## What is drawn -/

def isRandom : ArrayExpression → Bool
  | .random .. => true
  | _ => false

/-- The elements of random expressions among what is evaluated. -/
def keysOf (events : List (ArrayExpression × Position)) : List (ArrayExpression × ℕ) :=
  events.filterMap fun event =>
    if isRandom event.1 then (event.1.element event.2).map (event.1, ·) else none

/-- What is drawn for an operand at a position. -/
def keysAt (e : ArrayExpression) (position : Position) : List (ArrayExpression × ℕ) :=
  if e ∈ cache then [] else keysOf (evaluations cache e position)

variable {d cache tensors}

theorem finRange_one : List.finRange 1 = [0] := rfl

theorem finRange_two : List.finRange 2 = [0, 1] := rfl

theorem keysOf_append (events events' : List (ArrayExpression × Position)) :
    keysOf (events ++ events') = keysOf events ++ keysOf events' :=
  List.filterMap_append

theorem keysOf_flatMap {α : Type} (l : List α) (f : α → List (ArrayExpression × Position)) :
    keysOf (l.flatMap f) = l.flatMap fun a => keysOf (f a) :=
  List.filterMap_flatMap

theorem keysOf_children {e : ArrayExpression} (child : Fin e.arity → List Position) :
    keysOf ((List.finRange e.arity).flatMap fun i =>
      if e.get i ∈ cache then [] else (child i).flatMap (evaluations cache (e.get i))) =
      (List.finRange e.arity).flatMap fun i => (child i).flatMap (keysAt cache (e.get i)) := by
  rw [keysOf_flatMap]
  congr 1
  funext i
  unfold keysAt
  split
  · exact (List.flatMap_eq_nil_iff.mpr fun _ _ => rfl).symm
  · exact keysOf_flatMap _ _

theorem keysOf_evaluations (e : ArrayExpression) (position : Position) :
    keysOf (evaluations cache e position) = keysOf [(e, position)] ++
      (List.finRange e.arity).flatMap fun i =>
        (e.childPositions i position).flatMap (keysAt cache (e.get i)) := by
  rw [evaluations, ← keysOf_children, ← keysOf_append]
  rfl

/-! ## What a work item computes -/

/-- An expression can be evaluated down to its tensors: it compiles, and its complex parts have
tensors. -/
structure Evaluable (cache : List ArrayExpression) (e : ArrayExpression) : Prop where
  compiles : e.Compiles
  products : ∀ y, PartOf y e → y.ProductCompiles
  complex : ∀ y, PartOf y e → y.isComplex = true → y ∈ cache

theorem Evaluable.inside {e c : ArrayExpression} (h : Evaluable cache e) (hin : Inside c e) :
    Evaluable cache c where
  compiles := Compiles.partOf h.compiles hin.partOf
  products y hy := h.products y (hy.trans hin.partOf)
  complex y hy := h.complex y (hy.trans hin.partOf)

/-- The tensors inside of an expression hold the meaning of their expressions. -/
def Known (m : Semantics V) (cache : List ArrayExpression) (tensors : Tensors V)
    (e : ArrayExpression) (table : ArrayExpression × ℕ → V) : Prop :=
  ∀ x ∈ cache, Inside x e → ∀ k < x.elementShape.counts.prod,
    tensors x k = x.meaning m table k

theorem Known.inside {m : Semantics V} {e c : ArrayExpression} {table : ArrayExpression × ℕ → V}
    (h : Known m cache tensors e table) (hin : Inside c e) : Known m cache tensors c table :=
  fun x hx hxc => h x hx (hxc.trans hin)

theorem lt_of_reaches {e : ArrayExpression} {p : Position} {j : ℕ} (h : Reaches e p j) :
    j < e.elementShape.counts.prod := by
  cases h with
  | linear _ hk => exact hk
  | multidimensional hextends hc =>
      rcases hextends with hempty | hextends
      · rw [hempty]
        exact Nat.one_pos
      · exact offset_lt (inRange_project hextends hc)

/-- A computation draws what its evaluations draw, and has the element that is meant. -/
def Evaluates (d : Device V G) (cache : List ArrayExpression) (tensors : Tensors V)
    (e : ArrayExpression) (c : WorkItem G V V) (keys : List (ArrayExpression × ℕ))
    (y : ArrayExpression) (j : ℕ) : Prop :=
  Draws (Known d.semantics cache tensors e) c keys fun table v =>
    v = y.meaning d.semantics table j

/-- An operand is read from its tensor, or evaluated. -/
theorem evaluates_operand {e c : ArrayExpression} {p : Position} {j : ℕ} (hin : Inside c e)
    (he : Evaluable cache e) (hreaches : Reaches c p j)
    (h : Evaluable cache c → c.isComplex = false → Evaluates d cache tensors c
      (d.evaluate cache tensors c p) (keysOf (evaluations cache c p)) c j) :
    Evaluates d cache tensors e (operand cache tensors c (d.evaluate cache tensors c) p)
      (keysAt cache c p) c j := by
  unfold operand keysAt
  split
  · rename_i hmem
    exact Draws.lift (readTensor_reaches hreaches _) fun table hknown =>
      hknown c hmem hin j (lt_of_reaches hreaches)
  · rename_i hnot
    have hc := he.inside hin
    have hsimple : c.isComplex = false := by
      by_contra hcomplex
      exact hnot (hc.complex c (PartOf.refl c) (by simpa using hcomplex))
    exact (h hc hsimple).weaken (fun table hknown => hknown.inside hin) fun _ _ _ => id

omit [Inhabited V] in
/-- A random element is drawn for its key. -/
theorem draws_drawElement {pre : (ArrayExpression × ℕ → V) → Prop} {e : ArrayExpression}
    {p : Position} {j : ℕ} (hreaches : Reaches e p j) :
    Draws pre (d.drawElement e p) [(e, j)] fun table v => v = table (e, j) := by
  intro g
  refine ⟨(d.draw e p g).1, (d.draw e p g).2, [((e, j), (d.draw e p g).1)], ?_,
    List.Perm.refl _, fun table _ hagrees => (agrees_singleton.mp hagrees).symm⟩
  rw [drawElement, hreaches.element]
  rfl

theorem eq_map_of_forall₂ {α β : Type} {f : α → β} {l : List α} {bs : List β}
    (h : List.Forall₂ (fun a b => b = f a) l bs) : bs = l.map f := by
  rw [← List.forall₂_eq_eq_eq, List.forall₂_map_right_iff]
  exact h.flip

theorem isSome_foldRight {α : Type} {op : α → α → α} {l : List α} (h : l ≠ []) :
    (foldRight op l).isSome = true := by
  induction l with
  | nil => exact absurd rfl h
  | cons a l ih =>
      by_cases hl : l = []
      · subst hl
        rfl
      · rw [foldRight_cons op a hl, Option.isSome_map]
        exact ih hl

/-- A sum of products, whose terms are evaluated one after the other. -/
theorem evaluates_sum {e x y z : ArrayExpression} {n j : ℕ} {f g : ℕ → WorkItem G V V}
    {fkeys gkeys : ℕ → List (ArrayExpression × ℕ)} {l r : ℕ → ℕ} (hn : n ≠ 0)
    (hf : ∀ k < n, Evaluates d cache tensors e (f k) (fkeys k) x (l k))
    (hg : ∀ k < n, Evaluates d cache tensors e (g k) (gkeys k) y (r k))
    (hz : ∀ table, z.meaning d.semantics table j = d.semantics.sum ((List.range n).map fun k =>
      d.semantics.apply .multiply (x.meaning d.semantics table (l k))
        (y.meaning d.semantics table (r k)))) :
    Evaluates d cache tensors e (do
      let terms ← each (List.range n) fun k => do
        let a ← f k
        let b ← g k
        return d.semantics.apply .multiply a b
      lift (foldRight (d.semantics.apply .add) terms))
      ((List.range n).flatMap fkeys ++ (List.range n).flatMap gkeys) z j := by
  have hterm : ∀ k ∈ List.range n, Draws (Known d.semantics cache tensors e)
      (do let a ← f k
          let b ← g k
          return d.semantics.apply .multiply a b) (fkeys k ++ gkeys k)
      fun table v => v = d.semantics.apply .multiply (x.meaning d.semantics table (l k))
        (y.meaning d.semantics table (r k)) := by
    intro k hk
    have hk := List.mem_range.mp hk
    refine (hf k hk).bind fun a => ?_
    refine ((hg k hk).weaken (fun table h => h.1) fun _ _ _ => id).map ?_
    exact fun table b h hb => by rw [h.2, hb]
  refine Draws.perm ?_ (List.flatMap_append_perm _ fkeys gkeys).symm
  rw [← List.append_nil ((List.range n).flatMap _)]
  refine (Draws.each hterm).bind_of_returns fun terms hreturns => ?_
  have hlength := length_of_each hreturns
  rw [List.length_range] at hlength
  have hne : terms ≠ [] := by
    rintro rfl
    exact hn hlength.symm
  have hsome : (foldRight (d.semantics.apply .add) terms).isSome = true := isSome_foldRight hne
  obtain ⟨v, hv⟩ := Option.isSome_iff_exists.mp hsome
  refine Draws.lift hv fun table h => ?_
  rw [hz, Semantics.sum, ← eq_map_of_forall₂ h.2, hv, Option.getD_some]

/-- **A work item that evaluates an expression at a position has the element that is meant.** The
induction is on the expression; operands with tensors are read, the others are evaluated. -/
theorem evaluates {e : ArrayExpression} {p : Position} {j : ℕ} (he : Evaluable cache e)
    (hsimple : e.isComplex = false) (hreaches : Reaches e p j) :
    Evaluates d cache tensors e (d.evaluate cache tensors e p)
      (keysOf (evaluations cache e p)) e j := by
  induction e generalizing p j with
  | tensor type tag s =>
      rw [keysOf_evaluations]
      exact Draws.lift (readTensor_reaches hreaches _) fun table _ => rfl
  | value type tag =>
      rw [keysOf_evaluations]
      exact Draws.pure fun table _ => rfl
  | random type tag s =>
      rw [keysOf_evaluations]
      have hkeys : keysOf [((random type tag s), p)] = [(random type tag s, j)] := by
        simp [keysOf, isRandom, hreaches.element]
      rw [hkeys]
      exact draws_drawElement hreaches
  | cast type inner ih =>
      have hinner : Reaches inner p j := hreaches.inner (elementShape_cast he.compiles.1)
        fun hsame => by
          simp only [sameElementShape, Bool.and_eq_true] at hsame
          exact hsame.1
      have hkeys : keysOf (evaluations cache (.cast type inner) p) = keysAt cache inner p := by
        rw [keysOf_evaluations]
        show [] ++ (List.finRange 1).flatMap (fun _ => [p].flatMap (keysAt cache inner)) = _
        simp [finRange_one]
      have hchild := evaluates_operand (c := inner) (Inside.child (ArrayExpression.cast type inner)
        (0 : Fin 1)) he hinner fun h hs => ih h hs hinner
      rw [hkeys]
      exact hchild.map fun table v _ hv => congrArg _ hv
  | cache inner ih =>
      have hshape : (ArrayExpression.cache inner).elementShape = inner.elementShape := rfl
      have hinner : Reaches inner p j := hreaches.inner hshape fun hsame => by
        simp only [sameElementShape, Bool.and_eq_true] at hsame
        exact hsame.1
      have hkeys : keysOf (evaluations cache (.cache inner) p) = keysAt cache inner p := by
        rw [keysOf_evaluations]
        show [] ++ (List.finRange 1).flatMap (fun _ => [p].flatMap (keysAt cache inner)) = _
        simp [finRange_one]
      rw [hkeys]
      exact evaluates_operand (c := inner) (Inside.child (ArrayExpression.cache inner) (0 : Fin 1))
        he hinner fun h hs => ih h hs hinner
  | unsqueeze dim inner ih =>
      obtain ⟨index, rfl, index', hindex, hinner⟩ := reaches_unsqueeze he.compiles.1 hreaches
      have hkeys : keysOf (evaluations cache (.unsqueeze dim inner) (.multidimensional index)) =
          [] ++ keysAt cache inner (.multidimensional index') := by
        rw [keysOf_evaluations]
        show [] ++ (List.finRange 1).flatMap (fun _ => (((unsqueezeForElementIndex inner.vectorSize
          index dim).map .multidimensional).toList.flatMap (keysAt cache inner))) = _
        simp [finRange_one, hindex]
      have hchild := evaluates_operand (c := inner) (Inside.child
        (ArrayExpression.unsqueeze dim inner) (0 : Fin 1)) he hinner fun h hs => ih h hs hinner
      rw [hkeys]
      have hlift : Draws (Known d.semantics cache tensors (.unsqueeze dim inner))
          (lift (unsqueezeForElementIndex inner.vectorSize index dim) : WorkItem G V Index) []
          fun _ _ => True := Draws.lift hindex fun _ _ => trivial
      refine hlift.bind_of_returns fun i hi => ?_
      obtain rfl := Option.some.inj (hindex.symm.trans hi.of_lift)
      exact hchild.weaken (fun table h => h.1) fun _ _ _ => id
  | binary operation left right ihl ihr =>
      have hl : Reaches left p _ := reaches_operand (he.compiles.operand 0) (fun hsame => by
        simp only [sameElementShape, Bool.and_eq_true] at hsame
        exact hsame.1.1) hreaches
      have hr : Reaches right p _ := reaches_operand (he.compiles.operand 1) (fun hsame => by
        simp only [sameElementShape, Bool.and_eq_true] at hsame
        exact hsame.1.2) hreaches
      have hkeys : keysOf (evaluations cache (.binary operation left right) p) =
          keysAt cache left p ++ keysAt cache right p := by
        rw [keysOf_evaluations]
        show [] ++ (List.finRange 2).flatMap (fun i => [p].flatMap (keysAt cache
          (if i.val = 0 then left else right))) = _
        simp [finRange_two]
      have hleft := evaluates_operand (c := left) (Inside.child
        (ArrayExpression.binary operation left right) (0 : Fin 2)) he hl fun h hs => ihl h hs hl
      have hright := evaluates_operand (c := right) (Inside.child
        (ArrayExpression.binary operation left right) (1 : Fin 2)) he hr fun h hs => ihr h hs hr
      rw [hkeys]
      refine hleft.bind fun l => ?_
      refine (hright.weaken (fun table h => h.1) fun _ _ _ => id).map ?_
      exact fun table r h hr => by rw [meaning, h.2, hr]
  | matrixProduct left right ihl ihr =>
      obtain ⟨hne, hl, hr⟩ := extends_matrixProduct he.compiles
      obtain ⟨hsum, hsame⟩ := he.products _ (PartOf.refl _)
      cases p with
      | linear k =>
          cases hreaches with
          | linear hlinear _ => exact absurd hlinear (by rw [hsame]; exact Bool.false_ne_true)
      | multidimensional index =>
          have hkeys : keysOf (evaluations cache (.matrixProduct left right)
              (.multidimensional index)) =
              ((List.range left.sumExtent).flatMap fun k => keysAt cache left
                (.multidimensional (spliced (left.rank - 1) left.rank (some k) index))) ++
              (List.range left.sumExtent).flatMap fun k => keysAt cache right
                (.multidimensional (spliced (right.rank - 2) (right.rank - 1) (some k) index)) := by
            rw [keysOf_evaluations]
            show [] ++ (List.finRange 2).flatMap (fun i => ((List.range left.sumExtent).map fun k =>
              Position.multidimensional (if i.val = 0 then
                spliced (left.rank - 1) left.rank (some k) index
              else spliced (right.rank - 2) (right.rank - 1) (some k) index)).flatMap (keysAt cache
                (if i.val = 0 then left else right))) = _
            simp [finRange_two, List.flatMap_map]
          rw [hkeys]
          refine evaluates_sum hsum (fun k hk => ?_) (fun k hk => ?_) fun table => rfl
          · have hreach := reaches_spliced hl hne hreaches hk
            exact evaluates_operand (Inside.child (ArrayExpression.matrixProduct left right)
              (0 : Fin 2)) he hreach fun h hs => ihl h hs hreach
          · have hreach := reaches_spliced hr hne hreaches hk
            exact evaluates_operand (Inside.child (ArrayExpression.matrixProduct left right)
              (1 : Fin 2)) he hreach fun h hs => ihr h hs hreach
  | matrixVectorProduct matrix vector ihm ihv =>
      obtain ⟨hne, hm, hv⟩ := extends_matrixVectorProduct he.compiles
      have hsum : matrix.sumExtent ≠ 0 := he.products _ (PartOf.refl _)
      obtain ⟨index, rfl⟩ := reaches_matrixVectorProduct he.compiles hreaches
      have hkeys : keysOf (evaluations cache (.matrixVectorProduct matrix vector)
          (.multidimensional index)) =
          ((List.range matrix.sumExtent).flatMap fun k => keysAt cache matrix
            (.multidimensional (spliced (matrix.rank - 1) (matrix.rank - 1) (some k) index))) ++
          (List.range matrix.sumExtent).flatMap fun k => keysAt cache vector
            (.multidimensional (spliced (vector.rank - 1) vector.rank (some k) index)) := by
        rw [keysOf_evaluations]
        show [] ++ (List.finRange 2).flatMap (fun i => ((List.range matrix.sumExtent).map fun k =>
          Position.multidimensional (if i.val = 0 then
            spliced (matrix.rank - 1) (matrix.rank - 1) (some k) index
          else spliced (vector.rank - 1) vector.rank (some k) index)).flatMap (keysAt cache
            (if i.val = 0 then matrix else vector))) = _
        simp [finRange_two, List.flatMap_map]
      rw [hkeys]
      refine evaluates_sum hsum (fun k hk => ?_) (fun k hk => ?_) fun table => rfl
      · have hreach := reaches_spliced hm hne hreaches hk
        exact evaluates_operand (Inside.child (ArrayExpression.matrixVectorProduct matrix vector)
          (0 : Fin 2)) he hreach fun h hs => ihm h hs hreach
      · have hreach := reaches_spliced hv hne hreaches hk
        exact evaluates_operand (Inside.child (ArrayExpression.matrixVectorProduct matrix vector)
          (1 : Fin 2)) he hreach fun h hs => ihv h hs hreach
  | reduce operation inner => cases hsimple
  | transform isInverse inner => cases hsimple

/-! ## The tensor of an expression -/

omit [Inhabited V] in
/-- What is written last for an element is in the buffer; all writes for it agree. -/
theorem store_map [Inhabited V] {l : List ℕ} {f : ℕ → V} {k : ℕ} (hk : k ∈ l) :
    store (l.map fun i => (i, f i)) k = f k := by
  induction l using List.reverseRecOn with
  | nil => cases hk
  | append_singleton l i ih =>
      unfold store at ih ⊢
      rw [List.map_append, List.foldl_append, List.map_singleton, List.foldl_cons, List.foldl_nil]
      by_cases heq : k = i
      · rw [heq, Function.update_self]
      · rw [Function.update_of_ne heq]
        exact ih ((List.mem_append.mp hk).resolve_right fun h => heq (List.mem_singleton.mp h))

theorem flatten_eq_map {α β γ : Type} {f : β → γ} {items : α → List β} {l : List α}
    {bs : List (List γ)}
    (h : List.Forall₂ (fun a => List.Forall₂ (fun i c => c = f i) (items a)) l bs) :
    bs.flatten = (l.flatMap items).map f := by
  induction h with
  | nil => rfl
  | cons h _ ih =>
      rw [List.flatten_cons, List.flatMap_cons, List.map_append, ih, eq_map_of_forall₂ h]

/-- Two loops may be exchanged. -/
theorem flatMap_flatMap_perm {α β γ : Type} (l : List α) (l' : List β) (f : α → β → List γ) :
    (l.flatMap fun a => l'.flatMap fun b => f a b).Perm
      (l'.flatMap fun b => l.flatMap fun a => f a b) := by
  induction l' with
  | nil => simp
  | cons b l' ih =>
      simp only [List.flatMap_cons]
      exact (List.flatMap_append_perm l (fun a => f a b) _).symm.trans (ih.append_left _)

/-- The elements of a random expression that has a tensor. -/
def ownKeys (e : ArrayExpression) : List (ArrayExpression × ℕ) :=
  if isRandom e then (List.range e.elementShape.counts.prod).map (e, ·) else []

/-- What is drawn for the tensor of an expression. -/
def kernelKeys (cache : List ArrayExpression) (e : ArrayExpression) :
    List (ArrayExpression × ℕ) :=
  ownKeys e ++ keysOf (kernel cache e)

theorem keysOf_kernel (e : ArrayExpression) :
    keysOf (kernel cache e) = (List.finRange e.arity).flatMap fun i =>
      (e.kernelPositions i).flatMap (keysAt cache (e.get i)) :=
  keysOf_children e.kernelPositions

/-- The work items of a kernel, one for each element, and what they draw. -/
theorem perm_kernelKeys {e : ArrayExpression} (hsimple : e.isComplex = false) :
    ((List.range e.elementShape.size).flatMap fun i =>
      keysOf (evaluations cache e (e.position i))).Perm (kernelKeys cache e) := by
  simp only [keysOf_evaluations]
  refine (List.flatMap_append_perm _ _ _).symm.trans (List.Perm.append ?_ ?_)
  · rw [ownKeys, ← Shape.size_eq]
    refine List.Perm.of_eq ?_
    split
    · rename_i hrandom
      rw [List.map_eq_flatMap]
      refine List.flatMap_congr fun i hi => ?_
      have hi := List.mem_range.mp hi
      rw [Shape.size_eq] at hi
      simp [keysOf, hrandom, (reaches_position hi).element]
    · rename_i hrandom
      refine List.flatMap_eq_nil_iff.mpr fun i _ => ?_
      simp [keysOf, hrandom]
  · rw [keysOf_kernel]
    refine (flatMap_flatMap_perm _ _ _).trans (List.Perm.of_eq ?_)
    refine List.flatMap_congr fun i _ => ?_
    have hpositions : e.kernelPositions i = e.positions.flatMap (e.childPositions i) := by
      cases e <;> first | rfl | cases hsimple
    rw [hpositions, ArrayExpression.positions, List.flatMap_assoc, List.flatMap_map]

/-- The operand of a complex expression, at an element. -/
theorem evaluates_element {e inner : ArrayExpression} (hin : Inside inner e)
    (he : Evaluable cache e) {k : ℕ} (hk : k < inner.elementShape.counts.prod) :
    Evaluates d cache tensors e (d.element cache tensors inner k)
      (keysAt cache inner (inner.position k)) inner k :=
  evaluates_operand hin he (reaches_position hk) fun h hs => evaluates h hs (reaches_position hk)

/-- The kernel of a reduction has all elements of its operand. -/
theorem draws_reduce {H : Type} {operation : Reduction} {inner : ArrayExpression}
    (he : Evaluable cache (.reduce operation inner)) :
    Draws (Known d.semantics cache tensors (.reduce operation inner))
      (d.executeSingle cache tensors (.reduce operation inner) : WorkItem H V (ℕ → V))
      (kernelKeys cache (.reduce operation inner)) fun table data =>
        ∀ k, data k = (ArrayExpression.reduce operation inner).meaning d.semantics table k := by
  have hin : Inside inner (.reduce operation inner) :=
    Inside.child (ArrayExpression.reduce operation inner) (0 : Fin 1)
  have hkeys : kernelKeys cache (.reduce operation inner) =
      (List.range inner.elementShape.size).flatMap fun i =>
        keysAt cache inner (inner.position i) := by
    rw [kernelKeys, keysOf_kernel]
    show [] ++ (List.finRange 1).flatMap (fun _ => inner.positions.flatMap
      (keysAt cache inner)) = _
    simp [finRange_one, ArrayExpression.positions, List.flatMap_map]
  have horder := d.order_perm (.reduce operation inner) inner.elementShape.size
  rw [hkeys]
  refine Draws.perm ((Draws.each fun i hi => Draws.withGenerator (evaluates_element hin he ?_)
    _).map fun table values _ hvalues k => ?_) (horder.flatMap_right _)
  · rw [← Shape.size_eq]
    exact List.mem_range.mp (horder.mem_iff.mp hi)
  · rw [d.eval_eq, Multiset.coe_eq_coe.mpr (d.grouping_values _ values),
      eq_map_of_forall₂ hvalues]
    exact congrArg _ (Multiset.coe_eq_coe.mpr (horder.map _))

/-- The work items of a transform read each element of its operand once. -/
theorem covers_transformItem {isInverse : Bool} {inner : ArrayExpression}
    (h : (transform isInverse inner).Compiles) : Covers inner.elementShape.counts.prod 1
      ((List.range ((inner.shape.getD []).size * inner.vectorSize / 2)).flatMap
        (transformItem isInverse inner.vectorSize)) := by
  obtain ⟨⟨k, hk⟩, -⟩ := h
  have hcovers := covers_transformElements isInverse (inner.shape.getD []).size k
  have hsize : (inner.shape.getD []).size * 2 ^ (k + 1) = inner.elementShape.counts.prod := by
    have hne : inner.vectorSize ≠ 0 := by
      rw [hk]
      exact (Nat.two_pow_pos _).ne'
    rw [elementShape, Shape.elementShape, if_neg hne, hk, Shape.size_eq]
    simp [Shape.counts, Extent.count]
  rwa [hsize, ← hk] at hcovers

/-- The kernel of a transform fills its buffer with all elements of its operand. -/
theorem draws_transform {H : Type} {isInverse : Bool} {inner : ArrayExpression}
    (he : Evaluable cache (.transform isInverse inner)) :
    Draws (Known d.semantics cache tensors (.transform isInverse inner))
      (d.executeSingle cache tensors (.transform isInverse inner) : WorkItem H V (ℕ → V))
      (kernelKeys cache (.transform isInverse inner)) fun table data =>
        ∀ k, data k = (ArrayExpression.transform isInverse inner).meaning d.semantics table k := by
  have hin : Inside inner (.transform isInverse inner) :=
    Inside.child (ArrayExpression.transform isInverse inner) (0 : Fin 1)
  have hcovers := covers_transformItem he.compiles
  have horder := d.order_perm (.transform isInverse inner)
    ((inner.shape.getD []).size * inner.vectorSize / 2)
  have hkeys : kernelKeys cache (.transform isInverse inner) =
      (List.range ((inner.shape.getD []).size * inner.vectorSize / 2)).flatMap fun id =>
        (transformItem isInverse inner.vectorSize id).flatMap fun k =>
          keysAt cache inner (inner.position k) := by
    have helements : transformElements isInverse inner.vectorSize (inner.shape.getD []).size =
        (List.range ((inner.shape.getD []).size * inner.vectorSize / 2)).flatMap
          (transformItem isInverse inner.vectorSize) := rfl
    rw [kernelKeys, keysOf_kernel]
    show [] ++ (List.finRange 1).flatMap (fun _ => ((transformElements isInverse
      inner.vectorSize (inner.shape.getD []).size).map inner.position).flatMap
        (keysAt cache inner)) = _
    simp [finRange_one, helements, List.flatMap_map, List.flatMap_assoc]
  have hitem : ∀ id ∈ d.order (.transform isInverse inner)
        ((inner.shape.getD []).size * inner.vectorSize / 2),
      Draws (Known d.semantics cache tensors (.transform isInverse inner))
        (withGenerator (d.generator (.transform isInverse inner) id) <|
          each (transformItem isInverse inner.vectorSize id) fun k => do
            let v ← d.element cache tensors inner k
            return (k, v) : WorkItem H V (List (ℕ × V)))
        ((transformItem isInverse inner.vectorSize id).flatMap fun k =>
          keysAt cache inner (inner.position k))
        fun table writes => List.Forall₂
          (fun k write => write = (k, inner.meaning d.semantics table k))
          (transformItem isInverse inner.vectorSize id) writes := by
    intro id hid
    refine (Draws.each fun k hk => ?_).withGenerator _
    have hlt := hcovers.mem_lt (List.mem_flatMap.mpr ⟨id, horder.mem_iff.mp hid, hk⟩)
    exact (evaluates_element hin he hlt).map fun table v _ hv => by rw [hv]
  rw [hkeys]
  refine Draws.perm ((Draws.each hitem).map fun table writes _ hwrites j => ?_)
    (horder.flatMap_right _)
  have hdata : (List.range inner.elementShape.size).map (store writes.flatten) =
      (List.range inner.elementShape.size).map (inner.meaning d.semantics table) := by
    refine List.map_congr_left fun i hi => ?_
    rw [flatten_eq_map hwrites]
    refine store_map ((horder.flatMap_right _).mem_iff.mpr (List.count_pos_iff.mp ?_))
    rw [hcovers i, if_pos (by rw [← Shape.size_eq]; exact List.mem_range.mp hi)]
    exact Nat.one_pos
  rw [hdata]
  rfl

/-- Any other kernel has a work item for each element. -/
theorem draws_elements {H : Type} {e : ArrayExpression} (he : Evaluable cache e)
    (hsimple : e.isComplex = false) : Draws (Known d.semantics cache tensors e)
      (d.executeSingle cache tensors e : WorkItem H V (ℕ → V)) (kernelKeys cache e)
      fun table data => ∀ k < e.elementShape.counts.prod,
        data k = e.meaning d.semantics table k := by
  have hsingle : (d.executeSingle cache tensors e : WorkItem H V (ℕ → V)) = do
      let writes ← each (d.order e e.elementShape.size) fun i =>
        withGenerator (d.generator e i) do
          let v ← d.evaluate cache tensors e (e.position i)
          return ((e.element (e.position i)).getD 0, v)
      return store writes := by
    cases e <;> first | rfl | cases hsimple
  have horder := d.order_perm e e.elementShape.size
  have hitem : ∀ i ∈ d.order e e.elementShape.size, Draws (Known d.semantics cache tensors e)
      (withGenerator (d.generator e i) do
        let v ← d.evaluate cache tensors e (e.position i)
        return ((e.element (e.position i)).getD 0, v) : WorkItem H V (ℕ × V))
      (keysOf (evaluations cache e (e.position i)))
      fun table write => write = (i, e.meaning d.semantics table i) := by
    intro i hi
    have hi := List.mem_range.mp (horder.mem_iff.mp hi)
    rw [Shape.size_eq] at hi
    refine Draws.withGenerator ((evaluates he hsimple (reaches_position hi)).map ?_) _
    intro table v _ hv
    rw [(reaches_position hi).element, hv]
    rfl
  rw [hsingle]
  refine Draws.perm ((Draws.each hitem).map fun table writes _ hwrites k hk => ?_)
    ((horder.flatMap_right _).trans (perm_kernelKeys hsimple))
  rw [eq_map_of_forall₂ hwrites]
  refine store_map (horder.mem_iff.mpr (List.mem_range.mpr ?_))
  rwa [Shape.size_eq]

/-- **The kernel of an expression computes its meaning**, if the tensors it reads hold theirs. -/
theorem draws_executeSingle {H : Type} {e : ArrayExpression} (he : Evaluable cache e) :
    Draws (Known d.semantics cache tensors e)
      (d.executeSingle cache tensors e : WorkItem H V (ℕ → V)) (kernelKeys cache e)
      fun table data => ∀ k < e.elementShape.counts.prod,
        data k = e.meaning d.semantics table k := by
  cases e with
  | reduce operation inner =>
      exact (draws_reduce he).weaken (fun _ => id) fun table data _ h k _ => h k
  | transform isInverse inner =>
      exact (draws_transform he).weaken (fun _ => id) fun table data _ h k _ => h k
  | tensor | value | random | cast | cache | unsqueeze | binary | matrixProduct
  | matrixVectorProduct => exact draws_elements he rfl

/-! ## What is drawn by the queue -/

/-- No route to a random expression without a tensor repeats an element. -/
def RandomOnce (tops : List ArrayExpression) : Prop :=
  ∀ q ∈ generateExecutionCache tops, ∀ trace y, Route (generateExecutionCache tops) q trace y →
    isRandom y = true → y ∉ generateExecutionCache tops →
    y.elementShape.size = 0 ∨ routeRepeats trace ≤ 1

section Keys

variable {y : ArrayExpression} {j : ℕ} {events : List (ArrayExpression × Position)}

theorem isCacheable_of_isRandom (h : isRandom y = true) : y.isCacheable = true := by
  cases y with
  | random => rfl
  | tensor | value | cast | cache | unsqueeze | binary | matrixProduct | matrixVectorProduct
  | reduce | transform => cases h

theorem mem_keysOf (h : (y, j) ∈ keysOf events) : isRandom y = true ∧ j ∈ elementsOf y events := by
  obtain ⟨⟨e, position⟩, hmem, hkey⟩ := List.mem_filterMap.mp h
  split at hkey
  · rename_i hrandom
    obtain ⟨i, helement, heq⟩ := Option.map_eq_some_iff.mp hkey
    obtain ⟨rfl, rfl⟩ := Prod.mk.inj heq
    exact ⟨hrandom, List.mem_filterMap.mpr ⟨_, hmem, (if_pos rfl).trans helement⟩⟩
  · cases hkey

/-- Drawn elements are evaluated. -/
theorem count_keysOf_le (y : ArrayExpression) (j : ℕ)
    (events : List (ArrayExpression × Position)) :
    (keysOf events).count (y, j) ≤ (elementsOf y events).count j := by
  induction events with
  | nil => exact Nat.le_refl 0
  | cons event events ih =>
      obtain ⟨e, position⟩ := event
      have hkeys := keysOf_append [(e, position)] events
      have helements : elementsOf y ((e, position) :: events) =
          elementsOf y [(e, position)] ++ elementsOf y events :=
        List.filterMap_append (l := [(e, position)])
      rw [← List.singleton_append, hkeys, List.singleton_append, helements, List.count_append,
        List.count_append]
      refine Nat.add_le_add ?_ ih
      by_cases he : e = y
      · subst he
        cases hrandom : isRandom e <;> cases helement : e.element position <;>
          simp [keysOf, elementsOf, hrandom, helement, List.count_singleton]
      · have hnot : (y, j) ∉ keysOf [(e, position)] := by
          intro hmem
          have hmem := (mem_keysOf hmem).2
          simp [elementsOf, he] at hmem
        rw [List.count_eq_zero_of_not_mem hnot]
        exact Nat.zero_le _

/-- What has a tensor is not evaluated for another one. -/
theorem elementsOf_kernel_of_mem (e : ArrayExpression) (hy : y ∈ cache) :
    elementsOf y (kernel cache e) = [] := by
  apply elementsOf_children_eq_nil
  intro i hget
  apply elementsOf_evaluations_eq_nil
  intro trace hroute
  obtain ⟨-, rfl⟩ := hroute.eq_nil hy
  exact hget hy

variable {tops : List ArrayExpression}

theorem nodup_keysOf_queueEvaluations (hcompiles : ∀ top ∈ tops, top.Compiles)
    (honce : RandomOnce tops) : (keysOf (queueEvaluations tops)).Nodup := by
  rw [List.nodup_iff_count_le_one]
  rintro ⟨y, j⟩
  by_cases hmem : (y, j) ∈ keysOf (queueEvaluations tops)
  · obtain ⟨hrandom, hj⟩ := mem_keysOf hmem
    refine (count_keysOf_le y j _).trans ?_
    have hnot : y ∉ generateExecutionCache tops := by
      intro hy
      rw [queueEvaluations, elementsOf_flatMap, List.flatMap_eq_nil_iff.mpr fun q _ =>
        elementsOf_kernel_of_mem q hy] at hj
      cases hj
    by_cases hroute : ∃ q ∈ generateExecutionCache tops, ∃ trace,
        Route (generateExecutionCache tops) q trace y
    · obtain ⟨q, hq, trace, hroute⟩ := hroute
      have hrepeats := honce q hq trace y hroute hrandom hnot
      rw [Shape.size_eq] at hrepeats
      exact (covers_queueEvaluations hcompiles hq hroute (isCacheable_of_isRandom hrandom)
        hnot).count_le_one_iff.mpr hrepeats j
    · rw [elementsOf_queueEvaluations_eq_nil fun q hq trace h => hroute ⟨q, hq, trace, h⟩] at hj
      cases hj
  · rw [List.count_eq_zero_of_not_mem hmem]
    exact Nat.zero_le 1

/-- **No element is drawn twice**: what has a tensor is drawn for it alone, and the rest where it is
inlined. -/
theorem nodup_kernelKeys (hcompiles : ∀ top ∈ tops, top.Compiles) (honce : RandomOnce tops) :
    ((generateExecutionCache tops).flatMap
      (kernelKeys (generateExecutionCache tops))).Nodup := by
  refine (List.flatMap_append_perm (generateExecutionCache tops) ownKeys fun e =>
    keysOf (kernel (generateExecutionCache tops) e)).nodup_iff.mp ?_
  rw [← keysOf_flatMap]
  refine List.nodup_append'.mpr ⟨?_, nodup_keysOf_queueEvaluations hcompiles honce, ?_⟩
  · refine List.nodup_flatMap.mpr ⟨fun e _ => ?_, (nodup_plan tops).imp fun hne => ?_⟩
    · unfold ownKeys
      split
      · exact List.nodup_range.map fun i k h => (Prod.mk.inj h).2
      · exact List.nodup_nil
    · rintro ⟨y, j⟩ hleft hright
      unfold ownKeys at hleft hright
      split at hleft
      · split at hright
        · obtain ⟨i, -, hi⟩ := List.mem_map.mp hleft
          obtain ⟨k, -, hk⟩ := List.mem_map.mp hright
          exact hne ((Prod.mk.inj hi).1.trans (Prod.mk.inj hk).1.symm)
        · cases hright
      · cases hleft
  · rintro ⟨y, j⟩ hown hinlined
    obtain ⟨e, he, hown⟩ := List.mem_flatMap.mp hown
    unfold ownKeys at hown
    split at hown
    · obtain ⟨i, -, hi⟩ := List.mem_map.mp hown
      obtain ⟨rfl, -⟩ := Prod.mk.inj hi
      have hj := (mem_keysOf hinlined).2
      rw [elementsOf_flatMap, List.flatMap_eq_nil_iff.mpr fun q _ =>
        elementsOf_kernel_of_mem q he] at hj
      cases hj
    · cases hown

end Keys

/-! ## Where drawn values are from -/

/-- A value that a random expression draws for an element. -/
def IsDraw (d : Device V G) (key : ArrayExpression × ℕ) (v : V) : Prop :=
  ∃ position g, key.1.element position = some key.2 ∧ v = (d.draw key.1 position g).1

omit [Inhabited V] in
theorem allDrawn_drawElement (e : ArrayExpression) (position : Position) :
    AllDrawn d.IsDraw (d.drawElement e position) := by
  intro g v g' drawn h entry hentry
  rw [← (Prod.mk.inj (Prod.mk.inj (Option.some.inj h)).2).2, Option.mem_toList,
    Option.map_eq_some_iff] at hentry
  obtain ⟨j, hj, rfl⟩ := hentry
  exact ⟨position, g, hj, rfl⟩

omit [Inhabited V] in
theorem allDrawn_operand {e : ArrayExpression} {f : Position → WorkItem G V V}
    (hf : ∀ position, AllDrawn d.IsDraw (f position)) (position : Position) :
    AllDrawn d.IsDraw (operand cache tensors e f position) := by
  unfold operand
  split
  · exact .lift _
  · exact hf position

omit [Inhabited V] in
theorem allDrawn_evaluate (e : ArrayExpression) (position : Position) :
    AllDrawn d.IsDraw (d.evaluate cache tensors e position) := by
  induction e generalizing position with
  | tensor type tag s => exact .lift _
  | value type tag => exact .pure _
  | random type tag s => exact allDrawn_drawElement _ position
  | cast type inner ih => exact (allDrawn_operand ih position).bind fun v => .pure _
  | cache inner ih => exact allDrawn_operand ih position
  | unsqueeze dim inner ih =>
      cases position with
      | linear k => exact .lift _
      | multidimensional index =>
          exact AllDrawn.bind (.lift _) fun index => allDrawn_operand ih _
  | binary operation left right ihl ihr =>
      exact (allDrawn_operand ihl position).bind fun l =>
        (allDrawn_operand ihr position).bind fun r => .pure _
  | matrixProduct left right ihl ihr | matrixVectorProduct left right ihl ihr =>
      cases position with
      | linear k => exact .lift _
      | multidimensional index =>
          exact AllDrawn.bind (.each fun k => (allDrawn_operand ihl _).bind fun l =>
            (allDrawn_operand ihr _).bind fun r => .pure _) fun terms => .lift _
  | reduce operation inner => exact .lift _
  | transform isInverse inner => exact .lift _

theorem allDrawn_executeSingle {H : Type} (e : ArrayExpression) :
    AllDrawn d.IsDraw (d.executeSingle cache tensors e : WorkItem H V (ℕ → V)) := by
  have helement (inner : ArrayExpression) (k : ℕ) :
      AllDrawn d.IsDraw (d.element cache tensors inner k) :=
    allDrawn_operand (allDrawn_evaluate inner) _
  have helements (e : ArrayExpression) : AllDrawn d.IsDraw (do
      let writes ← each (d.order e e.elementShape.size) fun i =>
        withGenerator (d.generator e i) do
          let v ← d.evaluate cache tensors e (e.position i)
          return ((e.element (e.position i)).getD 0, v)
      return store writes : WorkItem H V (ℕ → V)) :=
    AllDrawn.bind (.each fun i => .withGenerator ((allDrawn_evaluate e _).bind fun v => .pure _) _)
      fun writes => .pure _
  cases e with
  | reduce operation inner =>
      exact AllDrawn.bind (.each fun i => .withGenerator (helement inner i) _) fun values => .pure _
  | transform isInverse inner =>
      exact AllDrawn.bind (.each fun id => .withGenerator (.each fun k =>
        (helement inner k).bind fun v => .pure _) _) fun writes => .pure _
  | tensor | value | random | cast | cache | unsqueeze | binary | matrixProduct
  | matrixVectorProduct => exact helements _

theorem allDrawn_executeAll {H : Type} (todo : List ArrayExpression) (tensors : Tensors V) :
    AllDrawn d.IsDraw (d.executeAll cache todo tensors : WorkItem H V (Tensors V)) := by
  induction todo generalizing tensors with
  | nil => exact .pure _
  | cons e todo ih => exact (allDrawn_executeSingle e).bind fun data => ih _

/-! ## The queue -/

/-- Some tensors hold the meaning of their expressions. -/
def Hold (m : Semantics V) (tensors : Tensors V) (computed : List ArrayExpression)
    (table : ArrayExpression × ℕ → V) : Prop :=
  ∀ x ∈ computed, ∀ k < x.elementShape.counts.prod, tensors x k = x.meaning m table k

/-- The step of the queue: one more tensor holds the meaning of its expression. -/
theorem Hold.update {m : Semantics V} {computed : List ArrayExpression} {e : ArrayExpression}
    {table : ArrayExpression × ℕ → V} {data : ℕ → V} (h : Hold m tensors computed table)
    (hnot : e ∉ computed)
    (hdata : ∀ k < e.elementShape.counts.prod, data k = e.meaning m table k) :
    Hold m (Function.update tensors e data) (computed ++ [e]) table := by
  intro x hmem k hk
  rcases List.mem_append.mp hmem with hx | hx
  · have hne : x ≠ e := by
      rintro rfl
      exact hnot hx
    rw [Function.update_of_ne hne]
    exact h x hx k hk
  · obtain rfl := List.mem_singleton.mp hx
    rw [Function.update_self]
    exact hdata k hk

/-- The run of the queue, by induction on what is left of the plan. -/
theorem draws_executeAll {H : Type} (hnodup : cache.Nodup)
    (hevaluable : ∀ e ∈ cache, Evaluable cache e) (hbehind : Behind (· ∈ cache) cache)
    (todo : List ArrayExpression) : ∀ (computed : List ArrayExpression) (tensors : Tensors V),
    computed ++ todo = cache →
    Draws (Hold d.semantics tensors computed)
      (d.executeAll cache todo tensors : WorkItem H V (Tensors V)) (todo.flatMap (kernelKeys cache))
      fun table tensors => Hold d.semantics tensors cache table := by
  induction todo with
  | nil =>
      intro computed tensors hcache
      rw [List.append_nil] at hcache
      subst hcache
      exact Draws.pure fun table => id
  | cons e todo ih =>
      intro computed tensors hcache
      have hmem : e ∈ cache := by
        rw [← hcache]
        simp
      have hnot : e ∉ computed := by
        rw [← hcache] at hnodup
        exact fun h => (List.nodup_append'.mp hnodup).2.2 h List.mem_cons_self
      -- what is inside of an expression stands before it
      have hknown (table : ArrayExpression × ℕ → V) (h : Hold d.semantics tensors computed table) :
          Known d.semantics cache tensors e table := by
        intro x hx hinside k hk
        refine h x ?_ k hk
        have hidx := hbehind e hmem x hinside hx
        rw [← hcache, List.idxOf_append_of_notMem hnot, List.idxOf_cons_self] at hidx
        by_contra hlater
        rw [List.idxOf_append_of_notMem hlater] at hidx
        omega
      rw [List.flatMap_cons]
      refine Draws.bind ((draws_executeSingle (hevaluable e hmem)).weaken hknown
        fun _ _ _ => id) fun data => ?_
      refine (ih (computed ++ [e]) (Function.update tensors e data) ?_).weaken ?_ fun _ _ _ => id
      · rw [List.append_assoc]
        exact hcache
      · exact fun table h => h.1.update hnot h.2

theorem evaluable_of_mem_plan {tops : List ArrayExpression}
    (hcompiles : ∀ top ∈ tops, top.Compiles)
    (hproducts : ∀ top ∈ tops, ∀ y, PartOf y top → y.ProductCompiles) {e : ArrayExpression}
    (he : e ∈ generateExecutionCache tops) : Evaluable (generateExecutionCache tops) e := by
  obtain ⟨-, top, htop, hpart⟩ := partOf_of_mem_plan he
  refine ⟨Compiles.partOf (compiles_cache (hcompiles top htop)) hpart, fun y hy => ?_, fun y hy =>
    mem_plan_of_isComplex ⟨top, htop, hy.trans hpart⟩⟩
  have hy := hy.trans hpart
  unfold Expr.cache at hy
  split at hy
  · exact hproducts top htop y hy
  · rcases hy with rfl | hinside
    · trivial
    · obtain ⟨i, hpart⟩ := inside_iff.mp hinside
      exact hproducts top htop y hpart

theorem meaning_cache (m : Semantics V) (table : ArrayExpression × ℕ → V)
    (e : ArrayExpression) : (Expr.cache e).meaning m table = e.meaning m table ∧
      (Expr.cache e).elementShape = e.elementShape := by
  unfold Expr.cache
  split
  · exact ⟨rfl, rfl⟩
  · exact ⟨rfl, rfl⟩

variable (d) in
/-- A call of the queue: the tensors hold what the expressions mean for each table that has the
values that were drawn. -/
theorem run_eq (tops : List ArrayExpression) (hcompiles : ∀ top ∈ tops, top.Compiles)
    (hproducts : ∀ top ∈ tops, ∀ y, PartOf y top → y.ProductCompiles) (htime : InTime tops)
    (honce : RandomOnce tops) :
    ∃ tensors drawn, d.run tops = some (tensors, drawn) ∧ (drawn.map Prod.fst).Nodup ∧
      (∀ entry ∈ drawn, d.IsDraw entry.1 entry.2) ∧ (∃ table, Agrees table drawn) ∧
      ∀ table, Agrees table drawn → ∀ top ∈ tops, ∀ k < top.elementShape.counts.prod,
        tensors (Expr.cache top) k = top.meaning d.semantics table k := by
  have hkeys := nodup_kernelKeys hcompiles honce
  have hrun := draws_executeAll (H := Unit) (d := d) (nodup_plan tops)
    (fun e he => evaluable_of_mem_plan hcompiles hproducts he) htime.behind
    (generateExecutionCache tops) [] (fun _ _ => default) rfl
  have hstart : Draws (fun _ => True) _ _ _ := hrun.weaken (fun table _ x hx => by cases hx)
    fun _ _ _ => id
  obtain ⟨tensors, u, drawn, hc, hperm, htable, hpost⟩ := hstart.exists_table hkeys ()
  refine ⟨tensors, drawn, ?_, hperm.nodup_iff.mpr hkeys, allDrawn_executeAll _ _ _ _ _ _ hc, htable,
    fun table hagrees top htop k hk => ?_⟩
  · rw [run, hc]
    rfl
  · obtain ⟨hmeaning, hshape⟩ := meaning_cache d.semantics table top
    rw [← hmeaning]
    refine hpost table hagrees _ ?_ k (by rwa [hshape])
    exact mem_plan.mpr ⟨_, List.mem_map_of_mem htop, Or.inr rfl⟩

variable (d) in
/-- There is a table of values that random expressions draw, whatever the generators. -/
theorem exists_table_run (tops : List ArrayExpression) (hcompiles : ∀ top ∈ tops, top.Compiles)
    (hproducts : ∀ top ∈ tops, ∀ y, PartOf y top → y.ProductCompiles) (htime : InTime tops)
    (honce : RandomOnce tops) :
    ∃ tensors drawn table, d.run tops = some (tensors, drawn) ∧
      (∀ e j, ∃ position g, table (e, j) = (d.draw e position g).1) ∧
      ∀ top ∈ tops, ∀ k < top.elementShape.counts.prod,
        tensors (Expr.cache top) k = top.meaning d.semantics table k := by
  classical
  obtain ⟨tensors, drawn, hrun, -, hdraws, ⟨table, htable⟩, hmeaning⟩ :=
    run_eq d tops hcompiles hproducts htime honce
  -- what was not drawn might have been
  refine ⟨tensors, drawn, fun key => if key ∈ drawn.map Prod.fst then table key
    else (d.draw key.1 (.linear 0) (d.generator key.1 0)).1, hrun, fun e j => ?_, hmeaning _ ?_⟩
  · by_cases hmem : (e, j) ∈ drawn.map Prod.fst
    · obtain ⟨⟨_, v⟩, hentry, rfl⟩ := List.mem_map.mp hmem
      obtain ⟨position, g, -, hvalue⟩ := hdraws _ hentry
      exact ⟨position, g, (if_pos hmem).trans ((htable _ hentry).trans hvalue)⟩
    · exact ⟨_, _, if_neg hmem⟩
  · intro entry hentry
    exact (if_pos (List.mem_map_of_mem hentry)).trans (htable entry hentry)

variable (d) in
/-- **The queue preserves the meaning of expressions.** In whichever order work items run, it comes
to an end, no random element is drawn twice, each is drawn by its own expression, and for each table
that has the drawn elements, the tensor of each top-level expression holds what the expression
means. -/
theorem queue_preserves_meaning (tops : List ArrayExpression)
    (hcompiles : ∀ top ∈ tops, top.Compiles)
    (hproducts : ∀ top ∈ tops, ∀ y, PartOf y top → y.ProductCompiles) (htime : InTime tops)
    (honce : RandomOnce tops) :
    ∃ tensors drawn, d.run tops = some (tensors, drawn) ∧ (drawn.map Prod.fst).Nodup ∧
      (∀ entry ∈ drawn, d.IsDraw entry.1 entry.2) ∧ (∃ table, Agrees table drawn) ∧
      ∀ table, Agrees table drawn → ∀ top ∈ tops, ∀ k < top.elementShape.counts.prod,
        tensors (Expr.cache top) k = top.meaning d.semantics table k :=
  run_eq d tops hcompiles hproducts htime honce

theorem eval_add {A : Type} [AddCommMonoid A] (t : Grouping A) :
    t.eval (fun a b => a + b) 0 = (t.values : Multiset A).sum := by
  obtain ⟨-, hvalue⟩ := t.eval_eq_fold (P := fun _ => True) (h := id) (fun a b : A => a + b) 0
    ⟨trivial, rfl⟩ (fun _ _ _ _ => ⟨trivial, rfl⟩) fun _ _ => trivial
  rw [Multiset.map_id] at hvalue
  exact hvalue

/-- Integers, generators that count, and work items that run from the last one. -/
def counting : Device ℤ ℕ where
  semantics := {
    tensor := fun tag k => 10 * tag + k
    value := fun tag => tag
    cast := fun _ v => v
    apply := fun operation a b => if operation = .multiply then a * b else a + b
    reduce := fun _ values => values.sum
    transform := fun _ _ values k => values.getD k 0 }
  draw := fun _ _ g => (g, g + 1)
  generator := fun _ i => i
  order := fun _ size => (List.range size).reverse
  order_perm := fun _ size => List.reverse_perm (List.range size)
  combine := fun _ a b => a + b
  identity := fun _ => 0
  grouping := fun _ => Grouping.ofList
  grouping_values := fun _ values => List.Perm.of_eq (Grouping.values_ofList values)
  eval_eq := fun _ => eval_add

theorem randomOnce_randomSum : RandomOnce [randomSum] := by
  intro q hq trace y hroute hrandom _
  have hplan : generateExecutionCache [randomSum] = [ArrayExpression.cache randomSum] := by
    decide +kernel
  rw [hplan, List.mem_singleton] at hq
  subst hq
  cases hroute with
  | here => cases hrandom
  | step i _ hroute =>
      obtain rfl := (by decide : ∀ i : Fin 1, i = 0) i
      cases hroute with
      | here => cases hrandom
      | step i _ hroute =>
          rcases (by decide : ∀ i : Fin 2, i = 0 ∨ i = 1) i with rfl | rfl
          · cases hroute with
            | here => exact Or.inr (by decide)
            | step i => exact i.elim0
          · cases hroute with
            | here => cases hrandom
            | step i => exact i.elim0

theorem counting_randomSum : ∃ tensors drawn, counting.run [randomSum] = some (tensors, drawn) ∧
    (drawn.map Prod.fst).Nodup ∧ (∀ entry ∈ drawn, counting.IsDraw entry.1 entry.2) ∧
      (∃ table, Agrees table drawn) ∧
      ∀ table, Agrees table drawn → ∀ top ∈ [randomSum], ∀ k < top.elementShape.counts.prod,
        tensors (Expr.cache top) k = top.meaning counting.semantics table k := by
  apply queue_preserves_meaning counting [randomSum] ?_ ?_ (inTime_singleton _) randomOnce_randomSum
  · intro top htop
    obtain rfl := List.mem_singleton.mp htop
    exact ⟨rfl, Or.inl rfl, Or.inr rfl, Or.inr rfl, trivial, trivial⟩
  · intro top htop y hy
    obtain rfl := List.mem_singleton.mp htop
    rcases hy with rfl | hinside
    · trivial
    · obtain ⟨i, hpart⟩ := inside_iff.mp hinside
      rcases (by decide : ∀ i : Fin 2, i = 0 ∨ i = 1) i with rfl | rfl
      · rcases hpart with rfl | hinside
        · trivial
        · obtain ⟨i, -⟩ := inside_iff.mp hinside
          exact i.elim0
      · rcases hpart with rfl | hinside
        · trivial
        · obtain ⟨i, -⟩ := inside_iff.mp hinside
          exact i.elim0

/-- The generators of the two work items have drawn 0 and 1. -/
example : (counting.run [randomSum]).map (fun (tensors, _) =>
    (List.range 2).map (tensors (Expr.cache randomSum))) = some [0 + 10, 1 + 11] := by
  decide +kernel

end Device

end Hmpc.Comp
